import Icq.Lib.Scalar

/-! A text that goes into a command of the shell as a word. -/

namespace Icq.Gui
open Icq.Lib

/-- A blank, a quote of either kind or a backslash. -/
def escapes (c : UInt8) : Bool := c == 32 || c == 34 || c == 39 || c == 92

/-- What was copied so far, and where what was not copied begins. -/
structure ShellEscape where
  result : Bytes := []
  b : Nat := 0

namespace ShellEscape

def step (content : Bytes) (s : ShellEscape) (ch : Nat) : ShellEscape :=
  if escapes (content.getD ch 0) then
    let result :=
      if s.b < ch then s.result ++ (content.drop s.b).take (ch - s.b) else s.result
    { result := result ++ [92], b := ch }
  else s

end ShellEscape

def escapeShell (content : Bytes) : Bytes :=
  let s := (List.range content.length).foldl (ShellEscape.step content) {}
  if s.result.isEmpty then content
  else if s.b < content.length then s.result ++ content.drop s.b
  else s.result

namespace Shell

/-- The bytes that end a word or are not for themselves in it: a zero byte, a line end, a tab, a
blank, the quotes, the dollar, the backquote, the backslash, those of operators and of patterns. -/
def special : Bytes :=
  [0, 10, 9, 32, 34, 39, 36, 96, 92, 59, 38, 124, 60, 62, 40, 41, 42, 63, 91]

/-- What a text says that is read without quotes, if nothing in it is special. -/
def readLiteral : Bytes → Option Bytes
  | [] => some []
  | c :: rest =>
    if c = 92 then
      match rest with
      | [] => none
      | next :: rest => (readLiteral rest).map (next :: ·)
    else if special.contains c then none
    else (readLiteral rest).map (c :: ·)

/-- The one literal word that a text is; an empty text is none. -/
def literalWord (text : Bytes) : Option Bytes := if text.isEmpty then none else readLiteral text

end Shell

/-- The text with a backslash in front of each byte that is escaped. -/
def escaped (s : Bytes) : Bytes := s.flatMap fun c => if escapes c then [92, c] else [c]

variable {s : Bytes} {c : UInt8}

theorem escaped_cons (c : UInt8) (s : Bytes) :
    escaped (c :: s) = (if escapes c then [92, c] else [c]) ++ escaped s := List.flatMap_cons

theorem escaped_append (s t : Bytes) : escaped (s ++ t) = escaped s ++ escaped t :=
  List.flatMap_append

/-- What the loop has copied after the first bytes, together with what it has not. -/
structure ShellEscape.Copied (content : Bytes) (n : Nat) (s : ShellEscape) : Prop where
  bound : s.b ≤ n
  copied : s.result ++ (content.take n).drop s.b = escaped (content.take n)
  unused : s.result = [] → s.b = 0

theorem ShellEscape.Copied.step {content : Bytes} {n : Nat} {s : ShellEscape}
    (h : s.Copied content n) (hn : n < content.length) :
    (s.step content n).Copied content (n + 1) := by
  have htake : content.take (n + 1) = content.take n ++ [content.getD n 0] := by
    rw [List.take_add_one, List.getD_eq_getElem?_getD, List.getElem?_eq_getElem hn]
    rfl
  have hlength : (content.take n).length = n := List.length_take_of_le (le_of_lt hn)
  have hesc : escaped [content.getD n 0] =
      if escapes (content.getD n 0) then [92, content.getD n 0] else [content.getD n 0] :=
    List.append_nil _
  rw [ShellEscape.step]
  by_cases hspecial : escapes (content.getD n 0) = true
  · rw [if_pos hspecial]
    refine ⟨Nat.le_succ n, ?_, fun hnil => absurd hnil (List.append_ne_nil_of_right_ne_nil _
      (List.cons_ne_nil _ _))⟩
    have hsame : (if s.b < n then s.result ++ (content.drop s.b).take (n - s.b) else s.result) =
        escaped (content.take n) := by
      rw [← h.copied, List.drop_take]
      split
      · rfl
      · rename_i hlt
        rw [Nat.sub_eq_zero_of_le (not_lt.mp hlt), List.take_zero, List.append_nil]
    dsimp only
    rw [hsame, htake, List.drop_append_of_le_length (by omega), List.drop_eq_nil_of_le (by omega),
      escaped_append, hesc, if_pos hspecial, List.append_assoc]
    rfl
  · rw [if_neg hspecial]
    refine ⟨Nat.le_succ_of_le h.bound, ?_, h.unused⟩
    rw [htake, List.drop_append_of_le_length (by rw [hlength]; exact h.bound),
      ← List.append_assoc, h.copied, escaped_append, hesc, if_neg hspecial]

theorem ShellEscape.copied_range (content : Bytes) {n : Nat} (hn : n ≤ content.length) :
    ((List.range n).foldl (ShellEscape.step content) {}).Copied content n := by
  induction n with
  | zero => exact ⟨le_refl 0, by rw [List.take_zero]; rfl, fun _ => rfl⟩
  | succ n ih =>
    rw [List.range_succ, List.foldl_append]
    exact (ih (Nat.le_of_succ_le hn)).step hn

theorem escapeShell_eq (content : Bytes) : escapeShell content = escaped content := by
  have h := ShellEscape.copied_range content (le_refl _)
  rw [escapeShell]
  generalize (List.range content.length).foldl (ShellEscape.step content) {} = s at h
  have hcopied := h.copied
  rw [List.take_length] at hcopied
  split
  · rename_i hempty
    have hnil := List.isEmpty_iff.mp hempty
    rwa [hnil, h.unused hnil, List.drop_zero, List.nil_append] at hcopied
  · split
    · exact hcopied
    · rename_i hlt
      rwa [List.drop_eq_nil_of_le (not_lt.mp hlt), List.append_nil] at hcopied

namespace Shell

theorem readLiteral_backslash (c : UInt8) (rest : Bytes) :
    readLiteral (92 :: c :: rest) = (readLiteral rest).map (c :: ·) := by
  rw [readLiteral, if_pos rfl]

theorem readLiteral_plain (hc : c ∉ special) (rest : Bytes) :
    readLiteral (c :: rest) = (readLiteral rest).map (c :: ·) := by
  have hne : c ≠ 92 := by
    rintro rfl
    exact hc (by decide)
  rw [readLiteral.eq_def]
  exact (if_neg hne).trans (if_neg fun h => hc (List.contains_iff_mem.mp h))

theorem readLiteral_special (hc : c ∈ special) (hne : c ≠ 92) (rest : Bytes) :
    readLiteral (c :: rest) = none := by
  rw [readLiteral.eq_def]
  exact (if_neg hne).trans (if_pos (List.contains_iff_mem.mpr hc))

/-- A text is read back exactly if nothing in it is special that is not escaped. -/
theorem readLiteral_escaped (s : Bytes) : readLiteral (escaped s) = some s ↔
    ∀ c ∈ s, c ∈ special → escapes c = true := by
  induction s with
  | nil => exact iff_of_true rfl fun c hc => absurd hc List.not_mem_nil
  | cons c s ih =>
    rw [escaped_cons, List.forall_mem_cons, ← ih]
    have hmap : (readLiteral (escaped s)).map (c :: ·) = some (c :: s) ↔
        readLiteral (escaped s) = some s := by
      rw [Option.map_eq_some_iff]
      constructor
      · rintro ⟨t, ht, heq⟩
        rw [ht, (List.cons.inj heq).2]
      · exact fun h => ⟨s, h, rfl⟩
    by_cases hesc : escapes c = true
    · rw [if_pos hesc]
      exact (readLiteral_backslash c (escaped s)).symm ▸ hmap.trans
        (iff_and_self.mpr fun _ _ => hesc)
    · rw [if_neg hesc]
      by_cases hc : c ∈ special
      · have hne : c ≠ 92 := by
          rintro rfl
          exact hesc rfl
        refine iff_of_false ?_ fun h => hesc (h.1 hc)
        rw [List.singleton_append, readLiteral_special hc hne]
        exact fun h => nomatch h
      · rw [List.singleton_append, readLiteral_plain hc, hmap]
        exact iff_and_self.mpr fun _ h => absurd h hc

end Shell

/-- A text stays one literal word exactly if each special byte of it is one of those escaped. -/
theorem escapeShell_literalWord_iff (hs : s ≠ []) : Shell.literalWord (escapeShell s) = some s ↔
    ∀ c ∈ s, c ∈ Shell.special → escapes c = true := by
  obtain ⟨c, rest, rfl⟩ := List.exists_cons_of_ne_nil hs
  have hne : (escaped (c :: rest)).isEmpty = false := by
    rw [escaped_cons]
    split <;> rfl
  rw [Shell.literalWord, escapeShell_eq, if_neg (Bool.eq_false_iff.mp hne)]
  exact Shell.readLiteral_escaped (c :: rest)

/-- The text is `a 'b`. -/
theorem literalWord_blank_and_quote :
    Shell.literalWord (escapeShell [97, 32, 39, 98]) = some [97, 32, 39, 98] :=
  (escapeShell_literalWord_iff (List.cons_ne_nil _ _)).mpr (by decide +kernel)

/-- The text is `a$b`, and nothing of it is escaped. -/
theorem dollar_left_special : escapeShell [97, 36, 98] = [97, 36, 98] ∧
    Shell.literalWord (escapeShell [97, 36, 98]) = none := ⟨rfl, rfl⟩

end Icq.Gui
