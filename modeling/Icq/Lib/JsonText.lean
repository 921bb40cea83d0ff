import Mathlib.Algebra.Order.BigOperators.Group.List
import Mathlib.Data.List.Induction

/-! Texts of JSON, as far as objects go whose members are strings. -/

namespace Icq.Lib.JsonText

def isControl (c : Char) : Bool := decide (c.toNat < 32)

/-- What may stand in a string for itself. -/
def isPlain (c : Char) : Bool := c ≠ '"' && c ≠ '\\' && !isControl c

def hexDigit (c : Char) : Option Nat :=
  let n := c.toNat
  if 48 ≤ n ∧ n ≤ 57 then some (n - 48)
  else if 97 ≤ n ∧ n ≤ 102 then some (n - 87)
  else if 65 ≤ n ∧ n ≤ 70 then some (n - 55)
  else none

/-- A number of so many digits, and what follows it. -/
def readHex : Nat → Nat → List Char → Option (Nat × List Char)
  | 0, n, l => some (n, l)
  | _ + 1, _, [] => none
  | k + 1, n, c :: l => (hexDigit c).bind fun d => readHex k (16 * n + d) l

/-- The character of a number, or of two that only count together. -/
def readUnicode (l : List Char) : Option (Char × List Char) :=
  (readHex 4 0 l).bind fun high =>
    if high.1 < 0xD800 ∨ 0xE000 ≤ high.1 then some (Char.ofNat high.1, high.2)
    else if 0xDC00 ≤ high.1 then none
    else
      match high.2 with
      | a :: b :: l =>
        if a = '\\' ∧ b = 'u' then
          (readHex 4 0 l).bind fun low =>
            if low.1 < 0xDC00 ∨ 0xE000 ≤ low.1 then none
            else some (Char.ofNat (0x10000 + 0x400 * (high.1 - 0xD800) + (low.1 - 0xDC00)), low.2)
        else none
      | _ => none

def simpleEscape (c : Char) : Option Char :=
  if c = '"' ∨ c = '\\' ∨ c = '/' then some c
  else if c = 'b' then some (Char.ofNat 8)
  else if c = 'f' then some (Char.ofNat 12)
  else if c = 'n' then some (Char.ofNat 10)
  else if c = 'r' then some (Char.ofNat 13)
  else if c = 't' then some (Char.ofNat 9)
  else none

def readEscape : List Char → Option (Char × List Char)
  | [] => none
  | c :: l => if c = 'u' then readUnicode l else (simpleEscape c).map fun e => (e, l)

def readChar : List Char → Option (Char × List Char)
  | [] => none
  | c :: l => if c = '\\' then readEscape l else if isPlain c then some (c, l) else none

/-- A string behind its first quotation mark, and what follows the last one. -/
def readString : Nat → List Char → Option (List Char × List Char)
  | 0, _ => none
  | _ + 1, [] => none
  | n + 1, c :: l =>
    if c = '"' then some ([], l)
    else (readChar (c :: l)).bind fun r => (readString n r.2).map fun s => (r.1 :: s.1, s.2)

def isSpace (c : Char) : Bool := c = ' ' || c.toNat = 9 || c.toNat = 10 || c.toNat = 13

def skipSpace (l : List Char) : List Char := l.dropWhile isSpace

def expect (c : Char) (l : List Char) : Option (List Char) :=
  match skipSpace l with
  | [] => none
  | x :: l => if x = c then some l else none

def readQuoted (l : List Char) : Option (List Char × List Char) :=
  (expect '"' l).bind fun l => readString l.length l

def readMember (l : List Char) : Option ((List Char × List Char) × List Char) :=
  (readQuoted l).bind fun key =>
    (expect ':' key.2).bind fun l => (readQuoted l).map fun value => ((key.1, value.1), value.2)

def readEnd (l : List Char) : Option (List (List Char × List Char)) :=
  (expect '}' l).bind fun l => if (skipSpace l).isEmpty then some [] else none

def readMembers : Nat → List Char → Option (List (List Char × List Char))
  | 0, _ => none
  | n + 1, l => (readMember l).bind fun m =>
    ((expect ',' m.2).elim (readEnd m.2) (readMembers n)).map (m.1 :: ·)

/-- The members of an object that is a whole text and has only strings as values. -/
def readObject (text : List Char) : Option (List (List Char × List Char)) :=
  (expect '{' text).bind fun l => (readEnd l).or (readMembers l.length l)

/-- The least that a string needs for a character. -/
def least (c : Char) : Nat := if isPlain c then 1 else 2

def leastLength : List Char → Nat
  | [] => 0
  | c :: text => least c + leastLength text

section Spans

variable {k n : Nat} {raw tail out rest : List Char} {c : Char} {r : Nat × List Char}
  {e : Char × List Char}

theorem least_le (c : Char) : least c ≤ 2 := by
  rw [least]
  split <;> omega

theorem readHex_spans (h : readHex k n (raw ++ '"' :: tail) = some r) :
    ∃ used rest, raw = used ++ rest ∧ used.length = k ∧ r.2 = rest ++ '"' :: tail := by
  induction k generalizing n raw with
  | zero => exact ⟨[], raw, rfl, rfl, (congrArg Prod.snd (Option.some.inj h)).symm⟩
  | succ k ih =>
    cases raw with
    | nil => exact nomatch h
    | cons c raw =>
      rw [List.cons_append, readHex] at h
      obtain ⟨d, -, hrest⟩ := Option.bind_eq_some_iff.mp h
      obtain ⟨used, rest, rfl, hlength, hr⟩ := ih hrest
      exact ⟨c :: used, rest, rfl, congrArg (· + 1) hlength, hr⟩

/-- A quotation mark ends digits, so that no escape by a number goes beyond it. -/
theorem readUnicode_spans (h : readUnicode (raw ++ '"' :: tail) = some e) :
    ∃ used rest, raw = used ++ rest ∧ 2 ≤ used.length ∧ e.2 = rest ++ '"' :: tail := by
  rw [readUnicode] at h
  obtain ⟨high, hhigh, hread⟩ := Option.bind_eq_some_iff.mp h
  obtain ⟨used, rest, rfl, hlength, hrest⟩ := readHex_spans hhigh
  split at hread
  · refine ⟨used, rest, rfl, by omega, ?_⟩
    rw [← Option.some.inj hread, ← hrest]
  split at hread
  · exact nomatch hread
  rw [hrest] at hread
  rcases rest with _ | ⟨a, _ | ⟨b, rest⟩⟩
  · exact absurd hread (by cases tail <;> exact fun h => nomatch h)
  · rw [List.cons_append, List.nil_append] at hread
    dsimp only at hread
    rw [if_neg (fun hab => absurd hab.2 (by decide))] at hread
    exact nomatch hread
  · rw [List.cons_append, List.cons_append] at hread
    dsimp only at hread
    split at hread
    · obtain ⟨low, hlow, hpair⟩ := Option.bind_eq_some_iff.mp hread
      obtain ⟨used', rest', rfl, -, hrest'⟩ := readHex_spans hlow
      split at hpair
      · exact nomatch hpair
      · refine ⟨used ++ a :: b :: used', rest', ?_, ?_, ?_⟩
        · rw [List.append_assoc, List.cons_append, List.cons_append]
        · rw [List.length_append]
          omega
        · rw [← Option.some.inj hpair, ← hrest']
    · exact nomatch hread

/-- A character is read within a text, or a backslash at its end goes with the quotation mark. -/
theorem readChar_spans (h : readChar (c :: raw ++ '"' :: tail) = some e) :
    (∃ used rest, c :: raw = used ++ rest ∧ least e.1 ≤ used.length ∧
        e.2 = rest ++ '"' :: tail) ∨
      (c = '\\' ∧ raw = [] ∧ e = ('"', tail)) := by
  rw [List.cons_append, readChar] at h
  split at h
  · rename_i hbackslash
    cases raw with
    | nil => exact .inr ⟨hbackslash, rfl, (Option.some.inj h).symm⟩
    | cons a raw =>
      rw [List.cons_append, readEscape] at h
      split at h
      · obtain ⟨used, rest, rfl, hlength, hrest⟩ := readUnicode_spans h
        refine .inl ⟨c :: a :: used, rest, rfl, ?_, hrest⟩
        exact le_trans (least_le e.1) (Nat.le_add_left _ _)
      · obtain ⟨x, -, rfl⟩ := Option.map_eq_some_iff.mp h
        exact .inl ⟨[c, a], raw, rfl, least_le x, rfl⟩
  · split at h
    · rename_i hplain
      rw [← Option.some.inj h]
      refine .inl ⟨[c], raw, rfl, ?_, rfl⟩
      rw [least, if_pos hplain]
      exact le_refl 1
    · exact nomatch h

/-- A string is read up to a quotation mark within a text or behind it, or a backslash at the end of
the text goes with the quotation mark and what follows is read too. -/
theorem readString_spans (h : readString n (raw ++ '"' :: tail) = some (out, rest)) :
    (∃ used, raw ++ '"' :: tail = used ++ '"' :: rest ∧ used.length ≤ raw.length ∧
        leastLength out ≤ used.length) ∨
      (∃ m more before, raw.getLast? = some '\\' ∧ readString m tail = some (more, rest) ∧
        out = before ++ '"' :: more) := by
  induction n generalizing raw out with
  | zero => exact nomatch h
  | succ n ih =>
    rcases raw with _ | ⟨c, raw⟩
    · rw [List.nil_append, readString, if_pos rfl] at h
      obtain ⟨rfl, rfl⟩ := Prod.mk.inj (Option.some.inj h)
      exact .inl ⟨[], rfl, le_refl 0, le_refl 0⟩
    · rw [List.cons_append, readString] at h
      by_cases hc : c = '"'
      · rw [if_pos hc] at h
        obtain ⟨rfl, rfl⟩ := Prod.mk.inj (Option.some.inj h)
        exact .inl ⟨[], by rw [hc]; rfl, Nat.zero_le _, le_refl 0⟩
      · rw [if_neg hc] at h
        obtain ⟨e, he, h⟩ := Option.bind_eq_some_iff.mp h
        obtain ⟨s, hs, heq⟩ := Option.map_eq_some_iff.mp h
        obtain ⟨rfl, rfl⟩ := Prod.mk.inj heq
        rcases readChar_spans he with ⟨used, rest', hraw, hleast, hrest⟩ | ⟨rfl, rfl, rfl⟩
        · rw [hrest] at hs
          rw [hraw]
          rcases ih hs with ⟨used', hused, hlength, hout⟩ | ⟨m, more, before, hlast, hm, hout⟩
          · refine .inl ⟨used ++ used', ?_, ?_, ?_⟩
            · rw [List.append_assoc, List.append_assoc, hused]
            · rw [List.length_append, List.length_append]
              exact Nat.add_le_add_left hlength _
            · rw [leastLength, List.length_append]
              exact Nat.add_le_add hleast hout
          · refine .inr ⟨m, more, e.1 :: before, ?_, hm, congrArg (e.1 :: ·) hout⟩
            rw [List.getLast?_append, hlast]
            rfl
        · exact .inr ⟨n, s.1, [], rfl, hs, rfl⟩

end Spans

/-- A way to write characters into a string: none is given more than it needs, the ones that are
given just that are read back, and a character stands at the end of what is written for it. -/
structure Writer (write : Char → List Char) : Prop where
  length_le : ∀ c, (write c).length ≤ least c
  last : ∀ c, (write c).getLast? = some c
  read : ∀ c n l, least c = (write c).length →
    readString (n + 1) (write c ++ l) = (readString n l).map fun s => (c :: s.1, s.2)

/-- What is read of a text as a string does not end in a backslash. -/
def EndsPlain (text : List Char) : Prop :=
  ∀ n out rest, readString n text = some (out, rest) → out.getLast? ≠ some '\\'

theorem endsPlain_singleton (c : Char) : EndsPlain [c] := by
  intro n out rest h hlast
  cases n with
  | zero => exact nomatch h
  | succ n =>
    rw [readString] at h
    split at h
    · rw [← (Prod.mk.inj (Option.some.inj h)).1] at hlast
      nomatch hlast
    · obtain ⟨r, hr, h⟩ := Option.bind_eq_some_iff.mp h
      obtain ⟨s, hs, -⟩ := Option.map_eq_some_iff.mp h
      rw [readChar] at hr
      split at hr
      · exact nomatch hr
      · split at hr
        · rw [← Option.some.inj hr] at hs
          cases n <;> exact nomatch hs
        · exact nomatch hr

theorem endsPlain_quoted {c : Char} (hc : isPlain c = true) (l : List Char) :
    EndsPlain (c :: '"' :: l) := by
  intro n out rest h
  have hne : c ≠ '"' ∧ c ≠ '\\' := by
    constructor <;> rintro rfl <;> exact absurd hc (by decide)
  rcases n with _ | _ | n
  · exact nomatch h
  · rw [readString, if_neg hne.1] at h
    obtain ⟨r, -, h⟩ := Option.bind_eq_some_iff.mp h
    nomatch h
  · rw [readString, if_neg hne.1, readChar, if_neg hne.2, if_pos hc, Option.bind_some, readString,
      if_pos rfl] at h
    rw [← (Prod.mk.inj (Option.some.inj h)).1]
    exact fun heq => hne.2 (Option.some.inj heq)

namespace Writer

variable {write : Char → List Char} {text tail out rest : List Char} {n : Nat}

theorem length_pos (h : Writer write) (c : Char) : 0 < (write c).length := by
  have hlast := h.last c
  cases hw : write c with
  | nil =>
    rw [hw] at hlast
    nomatch hlast
  | cons x l => exact Nat.succ_pos _

theorem length_le_flatMap (h : Writer write) (text : List Char) :
    text.length ≤ (text.flatMap write).length := by
  induction text with
  | nil => exact le_refl 0
  | cons c text ih =>
    have hpos := h.length_pos c
    rw [List.flatMap_cons, List.length_append, List.length_cons]
    omega

theorem read_text (h : Writer write) (hleast : ∀ c ∈ text, least c = (write c).length)
    (hn : text.length < n) : readString n (text.flatMap write ++ '"' :: tail) = some (text, tail) := by
  induction text generalizing n with
  | nil =>
    obtain ⟨n, rfl⟩ := Nat.exists_eq_succ_of_ne_zero (Nat.ne_of_gt hn)
    exact if_pos rfl
  | cons c text ih =>
    obtain ⟨hc, htext⟩ := List.forall_mem_cons.mp hleast
    obtain ⟨n, rfl⟩ := Nat.exists_eq_succ_of_ne_zero (Nat.ne_of_gt (Nat.zero_lt_of_lt hn))
    rw [List.flatMap_cons, List.append_assoc, h.read c n _ hc, ih htext (Nat.lt_of_succ_lt_succ hn)]
    rfl

theorem length_le_leastLength (h : Writer write) (text : List Char) :
    (text.flatMap write).length ≤ leastLength text := by
  induction text with
  | nil => exact le_refl 0
  | cons c text ih =>
    rw [List.flatMap_cons, List.length_append, leastLength]
    exact Nat.add_le_add (h.length_le c) ih

theorem least_of_leastLength (h : Writer write)
    (hle : leastLength text ≤ (text.flatMap write).length) :
    ∀ c ∈ text, least c = (write c).length := by
  induction text with
  | nil => exact fun c hc => absurd hc List.not_mem_nil
  | cons c text ih =>
    rw [List.flatMap_cons, List.length_append, leastLength] at hle
    have hc := h.length_le c
    have htext := h.length_le_leastLength text
    exact List.forall_mem_cons.mpr ⟨by omega, ih (by omega)⟩

theorem getLast_flatMap (h : Writer write) (text : List Char) :
    (text.flatMap write).getLast? = text.getLast? := by
  induction text using List.reverseRecOn with
  | nil => rfl
  | append_singleton text c _ =>
    rw [List.flatMap_append, List.flatMap_singleton, List.getLast?_append, h.last,
      List.getLast?_concat]
    rfl

/-- A text is read back if and only if each of its characters is given what it needs. -/
theorem readString_iff (h : Writer write) (hn : text.length < n) (htail : EndsPlain tail) :
    readString n (text.flatMap write ++ '"' :: tail) = some (text, rest) ↔
      (∀ c ∈ text, least c = (write c).length) ∧ rest = tail := by
  constructor
  · intro hread
    rcases readString_spans hread with ⟨used, hused, hle, hout⟩ | ⟨m, more, before, hlast, hm, hout⟩
    · have hlength := h.length_le_leastLength text
      have hsame := List.append_inj hused (by omega)
      exact ⟨h.least_of_leastLength (le_trans hout hle), (List.cons.inj hsame.2).2.symm⟩
    · rw [h.getLast_flatMap, hout, List.getLast?_append, List.getLast?_cons] at hlast
      cases hmore : more.getLast? with
      | none =>
        rw [hmore] at hlast
        exact absurd (Option.some.inj hlast) (by decide)
      | some c =>
        rw [hmore] at hlast
        exact absurd (hmore.trans hlast) (htail m more rest hm)
  · rintro ⟨hleast, rfl⟩
    exact h.read_text hleast hn

end Writer

section Members

variable {write writeKey : Char → List Char} {key value tail rest : List Char} {c : Char}

theorem expect_cons (hc : isSpace c = false) (l : List Char) : expect c (c :: l) = some l := by
  rw [expect, skipSpace, List.dropWhile_cons_of_neg (Bool.eq_false_iff.mp hc)]
  exact if_pos rfl

theorem expect_other {x : Char} (hx : isSpace x = false) (hne : x ≠ c) (l : List Char) :
    expect c (x :: l) = none := by
  rw [expect, skipSpace, List.dropWhile_cons_of_neg (Bool.eq_false_iff.mp hx)]
  exact if_neg hne

theorem Writer.readQuoted_iff (h : Writer write) (htail : EndsPlain tail) :
    readQuoted ('"' :: (value.flatMap write ++ '"' :: tail)) = some (value, rest) ↔
      (∀ c ∈ value, least c = (write c).length) ∧ rest = tail := by
  have hn : value.length < (value.flatMap write ++ '"' :: tail).length := by
    have hle := h.length_le_flatMap value
    rw [List.length_append, List.length_cons]
    omega
  rw [readQuoted, expect_cons rfl, Option.bind_some]
  exact h.readString_iff hn htail

theorem readMember_iff (hkey : Writer writeKey) (h : Writer write) (htail : EndsPlain tail) :
    readMember ('"' :: (key.flatMap writeKey ++ '"' :: ':' ::
        '"' :: (value.flatMap write ++ '"' :: tail))) = some ((key, value), rest) ↔
      ((∀ c ∈ key, least c = (writeKey c).length) ∧ ∀ c ∈ value, least c = (write c).length) ∧
        rest = tail := by
  have hcolon : EndsPlain (':' :: '"' :: (value.flatMap write ++ '"' :: tail)) :=
    endsPlain_quoted rfl _
  rw [readMember]
  constructor
  · intro hread
    obtain ⟨k, hk, hread⟩ := Option.bind_eq_some_iff.mp hread
    obtain ⟨l, hl, hread⟩ := Option.bind_eq_some_iff.mp hread
    obtain ⟨v, hv, heq⟩ := Option.map_eq_some_iff.mp hread
    obtain ⟨hpair, rfl⟩ := Prod.mk.inj heq
    obtain ⟨rfl, rfl⟩ := Prod.mk.inj hpair
    obtain ⟨hkeys, hrest⟩ := (hkey.readQuoted_iff hcolon).mp hk
    rw [hrest, expect_cons rfl] at hl
    rw [← Option.some.inj hl] at hv
    obtain ⟨hvalues, hend⟩ := (h.readQuoted_iff htail).mp hv
    exact ⟨⟨hkeys, hvalues⟩, hend⟩
  · rintro ⟨⟨hkeys, hvalues⟩, rfl⟩
    rw [(hkey.readQuoted_iff hcolon).mpr ⟨hkeys, rfl⟩, Option.bind_some, expect_cons rfl,
      Option.bind_some, (h.readQuoted_iff htail).mpr ⟨hvalues, rfl⟩]
    rfl

end Members

end Icq.Lib.JsonText
