import Mathlib.Data.List.Forall2
import Mathlib.Data.List.Infix
import Icq.Wim.LogReplaceFunctor

/-! The loop only masks, and what is masked once stays masked. -/

namespace Icq.Wim
open Icq.Lib

/-- A text with some of its characters masked. -/
def Masked (t t' : Bytes) : Prop := List.Forall₂ (fun c c' => c' = c ∨ c' = maskChar c) t t'

section

variable {t t' t'' u u' : Bytes} {c : UInt8}

@[simp] theorem maskChar_maskChar (c : UInt8) : maskChar (maskChar c) = maskChar c := by
  unfold maskChar
  split <;> simp_all

theorem Masked.refl (t : Bytes) : Masked t t := List.forall₂_same.mpr fun _ _ => .inl rfl

theorem Masked.trans (h : Masked t t') (h' : Masked t' t'') : Masked t t'' := by
  induction h generalizing t'' with
  | nil => exact h'
  | @cons c c' t t' hc h ih =>
    cases h' with
    | @cons _ c'' _ t'' hc' h' =>
      refine .cons ?_ (ih h')
      rcases hc with rfl | rfl
      · exact hc'
      · rw [maskChar_maskChar, or_self] at hc'
        exact .inr hc'

theorem Masked.append (h : Masked t t') (h' : Masked u u') : Masked (t ++ u) (t' ++ u') :=
  List.rel_append h h'

theorem Masked.map (t : Bytes) : Masked t (t.map maskChar) :=
  List.forall₂_map_right_iff.mpr (List.forall₂_same.mpr fun _ _ => .inr rfl)

theorem Masked.length_eq (h : Masked t t') : t'.length = t.length := (List.Forall₂.length_eq h).symm

theorem Masked.get {p : Nat} (h : Masked t t') (hc : t[p]? = some c) :
    t'[p]? = some c ∨ t'[p]? = some (maskChar c) := by
  obtain ⟨hp, rfl⟩ := List.getElem?_eq_some_iff.mp hc
  have hp' : p < t'.length := h.length_eq.symm ▸ hp
  rw [List.getElem?_eq_getElem hp']
  simpa using List.Forall₂.get h hp hp'

/-- A character that is masked stays so. -/
theorem Masked.get_mask {p : Nat} (h : Masked t t') (hc : t[p]? = some (maskChar c)) :
    t'[p]? = some (maskChar c) := by
  simpa using h.get hc

theorem maskRange_masked (i : Nat) (text : Bytes) (r : Int × Int) : Masked text (maskRange i text r) := by
  refine List.forall₂_iff_get.mpr ⟨by simp [maskRange], fun p _ _ => ?_⟩
  simp only [maskRange, List.get_eq_getElem, List.getElem_mapIdx]
  split
  · exact .inr rfl
  · exact .inl rfl

theorem maskRanges_masked (i : Nat) (rs : List (Int × Int)) (text : Bytes) :
    Masked text (rs.foldl (maskRange i) text) :=
  List.foldlRecOn rs (maskRange i) (motive := Masked text) (.refl text) fun u h r _ =>
    h.trans (maskRange_masked i u r)

end

/-- The text after a value was gone through. -/
def valueText (r : Option (Bytes × Bytes)) : Option Bytes := r.map fun p => p.1 ++ p.2

section

variable {e : ValueEnd} {v : ValueScan} {c : UInt8} {rest t : Bytes}
  {go : ValueScan → Option (Bytes × Bytes)}

@[simp] theorem valueText_cons (r : Option (Bytes × Bytes)) :
    valueText (r.map (Prod.map (c :: ·) id)) = (valueText r).map (c :: ·) := by
  cases r <;> rfl

/-- A character ends the array, or stays or is masked, the latter in quotes only. -/
theorem mark_cases (v : ValueScan) (c : UInt8) (rest : Bytes) (go : ValueScan → Option (Bytes × Bytes)) :
    v.mark c rest go = some ([c], rest) ∨
      ∃ v' c', (c' = c ∨ c' = maskChar c ∧ v.inQuotes = true) ∧
        v.mark c rest go = (go v').map (Prod.map (c' :: ·) id) := by
  unfold ValueScan.mark
  cases hq : v.inQuotes with
  | true => exact .inr ⟨v, _, .inr ⟨rfl, rfl⟩, rfl⟩
  | false =>
    simp only [Bool.not_false, if_true]
    generalize (if c = bracketOpen then _ else _ : Int) = braceCounter
    by_cases hz : braceCounter = 0
    · exact .inl (if_pos hz)
    · exact .inr ⟨_, c, .inl rfl, if_neg hz⟩

theorem mark_masked (hgo : ∀ v t, valueText (go v) = some t → Masked rest t)
    (h : valueText (v.mark c rest go) = some t) : Masked (c :: rest) t := by
  rcases mark_cases v c rest go with he | ⟨v', c', hc, he⟩
  · rw [he] at h
    cases h
    exact .refl _
  · rw [he, valueText_cons] at h
    obtain ⟨u, hu, rfl⟩ := Option.map_eq_some_iff.mp h
    exact .cons (hc.imp_right And.left) (hgo _ _ hu)

/-- Out of quotes nothing is masked. -/
theorem mark_head (hv : v.inQuotes = false) (h : valueText (v.mark c rest go) = some t) :
    t.head? = some c := by
  rcases mark_cases v c rest go with he | ⟨v', c', hc, he⟩
  · rw [he] at h
    cases h
    rfl
  · rw [he, valueText_cons] at h
    obtain ⟨u, -, rfl⟩ := Option.map_eq_some_iff.mp h
    rcases hc with rfl | ⟨-, hq⟩
    · rfl
    · rw [hv] at hq
      cases hq

theorem mark_isSome (hgo : ∀ v, go v ≠ none) : v.mark c rest go ≠ none := by
  rcases mark_cases v c rest go with he | ⟨v', c', -, he⟩
  · rw [he]
    exact Option.some_ne_none _
  · rw [he]
    simpa using hgo v'

theorem maskValue_masked (h : valueText (maskValue e v rest) = some t) : Masked rest t := by
  induction hn : rest.length using Nat.strong_induction_on generalizing v rest t with
  | _ n ih =>
    cases rest with
    | nil =>
      cases h
      exact .refl _
    | cons c rest =>
      have hnext {v : ValueScan} {t : Bytes} (h : valueText (maskValue e v rest) = some t) :
          Masked rest t :=
        ih rest.length (by rw [← hn]; exact Nat.lt_succ_self _) h rfl
      unfold maskValue at h
      split at h
      · cases h
        exact .refl _
      dsimp only at h
      split at h
      · rw [valueText_cons] at h
        obtain ⟨u, hu, rfl⟩ := Option.map_eq_some_iff.mp h
        exact .cons (.inr rfl) (hnext hu)
      split at h
      · cases rest with
        | nil => cases h
        | cons d rest => exact mark_masked (fun _ _ => hnext) h
      split at h
      · split at h
        · cases rest with
          | nil => cases h
          | cons d rest =>
            rw [valueText_cons] at h
            obtain ⟨u, hu, rfl⟩ := Option.map_eq_some_iff.mp h
            refine .cons (.inl rfl) (mark_masked (fun v u hu => ?_) hu)
            exact ih rest.length (by rw [← hn]; simp only [List.length_cons]; omega) hu rfl
        · exact mark_masked (fun _ _ => hnext) h
      · exact mark_masked (fun _ _ => hnext) h

end

namespace LogScan

@[simp] theorem text_forward (s : LogScan) (n : Nat) : (s.forward n).text = s.text := by
  rw [text, text, forward, List.append_assoc, List.take_append_drop]

end LogScan

namespace LogReplaceFunctor

variable {f : LogReplaceFunctor} {s s' : LogScan} {m : Marker} {valueEnd : Option ValueEnd}
  {buffer t : Bytes}

/-- A marker that is found stands ahead, with something behind it. -/
theorem findMarker_stands (h : f.findMarker s.ahead = some (m, valueEnd)) :
    m.pattern <+: s.ahead ∧ m.pattern.length < s.ahead.length := by
  have hstands {ms : List Marker} (h : ms.find? (fun m => decide (m.pattern.length < s.ahead.length) &&
      m.pattern.isPrefixOf s.ahead) = some m) :
      m.pattern <+: s.ahead ∧ m.pattern.length < s.ahead.length := by
    have := List.find?_some h
    rw [Bool.and_eq_true, decide_eq_true_eq, List.isPrefixOf_iff_prefix] at this
    exact this.symm
  unfold findMarker at h
  dsimp only at h
  split at h
  · cases h
    exact hstands ‹_›
  · split at h
    · cases h
      exact hstands ‹_›
    · obtain ⟨m', hm', he⟩ := Option.map_eq_some_iff.mp h
      cases he
      exact hstands hm'

/-- One turn masks some of the text and comes nearer to its end. -/
theorem step_spec (h : f.step s = some s') (hs : s.ahead ≠ []) :
    Masked s.text s'.text ∧ s'.ahead.length < s.ahead.length := by
  unfold step at h
  split at h
  · cases h
    refine ⟨by rw [LogScan.text_forward]; exact .refl _, ?_⟩
    have := List.length_pos_iff.mpr hs
    simp only [LogScan.forward, List.length_drop]
    omega
  rename_i m valueEnd hf
  obtain ⟨-, hlt⟩ := findMarker_stands hf
  have hm := List.length_pos_iff.mpr m.nonempty
  have hahead : (s.forward m.pattern.length).ahead.length < s.ahead.length := by
    simp only [LogScan.forward, List.length_drop]
    omega
  rw [← s.text_forward m.pattern.length]
  generalize s.forward m.pattern.length = r at h hahead
  dsimp only at h
  split at h
  · cases h
    rename_i re _
    have hmask := maskRanges_masked r.before.length (re.ranges r.ahead) r.text
    refine ⟨by rw [LogScan.text, LogScan.text, List.take_append_drop]; exact hmask, ?_⟩
    rw [List.length_drop, hmask.length_eq, LogScan.text, List.length_append, Nat.add_sub_cancel_left]
    exact hahead
  · cases h
    refine ⟨?_, Nat.lt_of_le_of_lt (by simp) hahead⟩
    have hsplit := List.prefix_append_drop
      (List.takeWhile_prefix (l := r.ahead) fun c => decide (c ≠ 0x26 ∧ c ≠ 0x20))
    rw [LogScan.text, LogScan.text, List.append_assoc]
    conv_lhs => rw [hsplit]
    exact (Masked.refl _).append ((Masked.map _).append (.refl _))
  · obtain ⟨⟨done, ahead⟩, hv, rfl⟩ := Option.map_eq_some_iff.mp h
    have hmask : Masked r.ahead (done ++ ahead) := maskValue_masked (by rw [valueText, hv]; rfl)
    refine ⟨?_, Nat.lt_of_le_of_lt ?_ hahead⟩
    · rw [LogScan.text, LogScan.text, List.append_assoc]
      exact (Masked.refl _).append hmask
    · rw [← hmask.length_eq, List.length_append]
      exact Nat.le_add_left _ _

theorem scan_masked {n : Nat} (h : f.scan n s = some t) : Masked s.text t := by
  induction n generalizing s with
  | zero =>
    cases h
    exact .refl _
  | succ n ih =>
    unfold scan at h
    split at h
    · cases h
      exact .refl _
    · rename_i hlong
      obtain ⟨s', hs', h⟩ := Option.bind_eq_some_iff.mp h
      have hne : s.ahead ≠ [] := by
        intro he
        simp [he] at hlong
      exact (step_spec hs' hne).1.trans (ih h)

/-- More turns than there are characters ahead are not needed. -/
theorem scan_fuel {n k : Nat} (hn : s.ahead.length ≤ n) (hk : s.ahead.length ≤ k) :
    f.scan n s = f.scan k s := by
  have hshort (n : Nat) {s : LogScan} (h : s.ahead.length < 2) : f.scan n s = some s.text := by
    cases n with
    | zero => rfl
    | succ n => exact if_pos h
  induction n generalizing k s with
  | zero =>
    rw [hshort 0 (by omega), hshort k (by omega)]
  | succ n ih =>
    by_cases hlong : s.ahead.length < 2
    · rw [hshort _ hlong, hshort _ hlong]
    cases k with
    | zero => omega
    | succ k =>
      have hne : s.ahead ≠ [] := by
        intro he
        simp [he] at hlong
      simp only [scan, hlong, if_false]
      cases hs : f.step s with
      | none => rfl
      | some s' =>
        have := (step_spec hs hne).2
        exact ih (by omega) (by omega)

/-- The result is that of the loop from any place where it comes by. -/
theorem apply_of_reaches (h : f.Reaches buffer s) : f.apply buffer = f.scan s.ahead.length s := by
  induction h with
  | start => rfl
  | @step s s' _ _ hlong hs ih =>
    have hne : s.ahead ≠ [] := by
      intro he
      rw [he] at hlong
      exact absurd hlong (by decide)
    have hlt := (step_spec hs hne).2
    obtain ⟨n, hn⟩ := Nat.exists_eq_succ_of_ne_zero (Nat.ne_of_gt (Nat.lt_of_lt_of_le Nat.zero_lt_two hlong))
    rw [ih, hn, scan, if_neg (by omega), hs, Option.bind_some]
    exact scan_fuel (by omega) (Nat.le_refl _)

/-- What stands masked at some place of the loop is masked in the log. -/
theorem masked_of_reaches (h : f.Reaches buffer s) (ht : f.apply buffer = some t) : Masked s.text t :=
  scan_masked (apply_of_reaches h ▸ ht)

theorem reaches_masked (h : f.Reaches buffer s) : Masked buffer s.text := by
  refine h.invariant (P := fun s => Masked buffer s.text) (.refl _) fun {s _ s'} hm hlong hs => ?_
  refine hm.trans (step_spec hs fun he => ?_).1
  rw [he] at hlong
  exact absurd hlong (by decide)

/-- The loop comes to an end when none of its turns uses a place behind the buffer. -/
theorem apply_isSome (h : ∀ s, f.Reaches buffer s → 2 ≤ s.ahead.length → f.step s ≠ none) :
    ∃ t, f.apply buffer = some t := by
  suffices ∀ n s, s.ahead.length ≤ n → f.Reaches buffer s → ∃ t, f.scan n s = some t from
    this _ _ (Nat.le_refl _) .start
  intro n
  induction n with
  | zero => exact fun s _ _ => ⟨_, rfl⟩
  | succ n ih =>
    intro s hn hr
    unfold scan
    split
    · exact ⟨_, rfl⟩
    · rename_i hlong
      obtain ⟨s', hs⟩ := Option.ne_none_iff_exists'.mp (h s hr (Nat.not_lt.mp hlong))
      have hlt := (step_spec hs fun he => by simp [he] at hlong).2
      rw [hs, Option.bind_some]
      exact ih s' (by omega) (.step () hr (Nat.not_lt.mp hlong) hs)

end LogReplaceFunctor

end Icq.Wim
