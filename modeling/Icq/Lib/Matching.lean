import Icq.Lib.Borders
import Mathlib.Data.List.Infix

/-! Looking for a word each of whose places fits several letters, by a table of overlaps. -/

namespace Icq.Lib

variable {γ : Type*} {fits : Nat → γ → Prop} {m j k : Nat} {u v w : List γ} {c : γ}

/-- Each letter fits the next place of the word, from a place on. -/
def GoesOn (fits : Nat → γ → Prop) : Nat → List γ → Prop
  | _, [] => True
  | k, c :: u => fits k c ∧ GoesOn fits (k + 1) u

theorem goesOn_append :
    GoesOn fits k (u ++ v) ↔ GoesOn fits k u ∧ GoesOn fits (k + u.length) v := by
  induction u generalizing k with
  | nil => exact ⟨fun h => ⟨trivial, h⟩, fun h => h.2⟩
  | cons c u ih =>
    rw [List.cons_append, GoesOn, GoesOn, ih, List.length_cons, and_assoc, Nat.add_right_comm k 1,
      Nat.add_assoc]

theorem goesOn_concat : GoesOn fits k (u ++ [c]) ↔ GoesOn fits k u ∧ fits (k + u.length) c := by
  rw [goesOn_append]
  exact and_congr_right fun _ => ⟨fun h => h.1, fun h => ⟨h, trivial⟩⟩

theorem GoesOn.getElem (h : GoesOn fits k u) {t : Nat} (ht : t < u.length) : fits (k + t) u[t] := by
  induction u generalizing k t with
  | nil => exact absurd ht (Nat.not_lt_zero t)
  | cons c u ih =>
    cases t with
    | zero => exact h.1
    | succ t =>
      have hrest := ih h.2 (Nat.lt_of_succ_lt_succ ht)
      rwa [Nat.add_right_comm, Nat.add_assoc] at hrest

theorem goesOn_iff : GoesOn fits k u ↔ ∀ t < u.length, ∃ c, u[t]? = some c ∧ fits (k + t) c := by
  constructor
  · intro h t ht
    exact ⟨u[t], List.getElem?_eq_getElem ht, h.getElem ht⟩
  · intro h
    induction u generalizing k with
    | nil => trivial
    | cons c u ih =>
      obtain ⟨c', hget, hc⟩ := h 0 (Nat.succ_pos _)
      cases hget
      refine ⟨hc, ih fun t ht => ?_⟩
      obtain ⟨c', hget, hc'⟩ := h (t + 1) (Nat.succ_lt_succ ht)
      exact ⟨c', hget, by rwa [Nat.add_right_comm, Nat.add_assoc]⟩

/-- Where every place fits some letter there is a text that goes on to the end. -/
theorem exists_goesOn (h : ∀ t, k ≤ t → t < m → ∃ c, fits t c) (hk : k ≤ m) :
    ∃ v : List γ, v.length = m - k ∧ GoesOn fits k v := by
  induction hn : m - k generalizing k with
  | zero => exact ⟨[], rfl, trivial⟩
  | succ n ih =>
    obtain ⟨c, hc⟩ := h k (Nat.le_refl k) (by omega)
    obtain ⟨v, hv, hgo⟩ := @ih (k + 1) (fun t hk ht => h t (by omega) ht) (by omega) (by omega)
    exact ⟨c :: v, by rw [List.length_cons, hv], hc, hgo⟩

/-- The text ends with letters that fit the first places of the word. -/
def EndsWith (fits : Nat → γ → Prop) (k : Nat) (u : List γ) : Prop :=
  ∃ v, v <:+ u ∧ v.length = k ∧ GoesOn fits 0 v

/-- Somewhere in the text letters fit all places of the word. -/
def Occurs (fits : Nat → γ → Prop) (m : Nat) (u : List γ) : Prop :=
  ∃ v, v <:+: u ∧ v.length = m ∧ GoesOn fits 0 v

theorem endsWith_zero (u : List γ) : EndsWith fits 0 u := ⟨[], List.nil_suffix, rfl, trivial⟩

theorem EndsWith.le (h : EndsWith fits k u) : k ≤ u.length := by
  obtain ⟨v, hv, rfl, -⟩ := h
  exact hv.length_le

theorem endsWith_self (h : GoesOn fits 0 u) : EndsWith fits u.length u :=
  ⟨u, List.suffix_rfl, rfl, h⟩

theorem endsWith_length : EndsWith fits u.length u ↔ GoesOn fits 0 u := by
  refine ⟨?_, endsWith_self⟩
  rintro ⟨v, hv, hlen, hgo⟩
  rwa [← hv.eq_of_length hlen]

theorem endsWith_iff (h : k ≤ u.length) :
    EndsWith fits k u ↔ ∀ t < k, ∃ c, u[u.length - k + t]? = some c ∧ fits t c := by
  have hlen : (u.drop (u.length - k)).length = k := by
    rw [List.length_drop]
    omega
  have hdrop : EndsWith fits k u ↔ GoesOn fits 0 (u.drop (u.length - k)) := by
    constructor
    · rintro ⟨v, hv, rfl, hgo⟩
      rwa [← List.suffix_iff_eq_drop.mp hv]
    · exact fun hgo => ⟨_, List.drop_suffix _ _, hlen, hgo⟩
  rw [hdrop, goesOn_iff, hlen]
  refine forall_congr' fun t => imp_congr_right fun _ => exists_congr fun c => ?_
  rw [List.getElem?_drop, Nat.zero_add]

theorem endsWith_concat : EndsWith fits (k + 1) (u ++ [c]) ↔ EndsWith fits k u ∧ fits k c := by
  constructor
  · rintro ⟨v, hv, hlen, hgo⟩
    rcases List.suffix_concat_iff.mp hv with rfl | ⟨v', rfl, hv'⟩
    · cases hlen
    · rw [List.length_append, List.length_singleton] at hlen
      obtain ⟨hgo, hc⟩ := goesOn_concat.mp hgo
      obtain rfl := Nat.succ.inj hlen
      rw [Nat.zero_add] at hc
      exact ⟨⟨v', hv', rfl, hgo⟩, hc⟩
  · rintro ⟨⟨v, hv, rfl, hgo⟩, hc⟩
    refine ⟨v ++ [c], List.suffix_concat_iff.mpr (.inr ⟨v, rfl, hv⟩), by simp, ?_⟩
    exact goesOn_concat.mpr ⟨hgo, by rwa [Nat.zero_add]⟩

theorem occurs_concat :
    Occurs fits m (u ++ [c]) ↔ EndsWith fits m (u ++ [c]) ∨ Occurs fits m u := by
  constructor
  · rintro ⟨v, hv, hlen, hgo⟩
    rcases List.infix_concat_iff.mp hv with hv | hv
    · exact .inl ⟨v, hv, hlen, hgo⟩
    · exact .inr ⟨v, hv, hlen, hgo⟩
  · rintro (⟨v, hv, h⟩ | ⟨v, hv, h⟩)
    · exact ⟨v, hv.isInfix, h⟩
    · exact ⟨v, List.infix_concat_iff.mpr (.inr hv), h⟩

theorem Occurs.le (h : Occurs fits m u) : m ≤ u.length := by
  obtain ⟨v, hv, rfl, -⟩ := h
  exact hv.length_le

/-- The text ends with the first `k` places of the word, and not with more. -/
def Longest (fits : Nat → γ → Prop) (m k : Nat) (u : List γ) : Prop :=
  k < m ∧ IsLast (fun l => l ≤ m ∧ EndsWith fits l u) k

/-- A letter that goes on makes the longest end longer. -/
theorem Longest.concat (h : Longest fits m k u) (hc : fits k c) (hlt : k + 1 < m) :
    Longest fits m (k + 1) (u ++ [c]) := by
  obtain ⟨-, ⟨-, hends⟩, hlast⟩ := h
  refine ⟨hlt, ⟨Nat.le_of_lt hlt, endsWith_concat.mpr ⟨hends, hc⟩⟩, fun l hl => ?_⟩
  cases l with
  | zero => exact Nat.zero_le _
  | succ l => exact Nat.succ_le_succ (hlast l ⟨Nat.le_of_succ_le hl.1, (endsWith_concat.mp hl.2).1⟩)

section Search

variable {κ : Type*} {codes : Nat → κ} {table : Nat → Nat} {accepts : Nat → γ → Bool}

/-- Where a search stands after a letter. -/
def stepBy (table : Nat → Nat) (accepts : Nat → γ → Bool) (j : Nat) (c : γ) : Nat :=
  advance table (accepts · c) j

/-- Whether a search from a place of the word comes to its end in a text. -/
def search (table : Nat → Nat) (accepts : Nat → γ → Bool) (m : Nat) : Nat → List γ → Bool
  | _, [] => false
  | j, c :: u =>
    decide (stepBy table accepts j c = m) || search table accepts m (stepBy table accepts j c) u

theorem search_append : search table accepts m j (u ++ v) = (search table accepts m j u ||
    search table accepts m (u.foldl (stepBy table accepts) j) v) := by
  induction u generalizing j with
  | nil => rfl
  | cons c u ih => rw [List.cons_append, search, search, ih, Bool.or_assoc, List.foldl_cons]

theorem search_concat : search table accepts m j (u ++ [c]) = (search table accepts m j u ||
    decide (stepBy table accepts (u.foldl (stepBy table accepts) j) c = m)) := by
  rw [search_append, search, search, Bool.or_false]

theorem stepBy_accepts (h : accepts j c = true) : stepBy table accepts j c = j + 1 := advance_goes h

variable (htable : BorderTable codes m table)
include htable

/-- A search that does not go on goes back, or stays at the start. -/
theorem stepBy_le (hj : j < m) (h : accepts j c = false) : stepBy table accepts j c ≤ j := by
  have hspec := @fallBack_spec _ codes j table (accepts · c) j
    (htable.mono (Nat.le_of_lt hj)) (Nat.le_refl j)
  rw [stepBy, advance]
  generalize fallBack table (accepts · c) j j = r at hspec
  obtain ⟨hat, hend, -⟩ := hspec
  rcases hat with rfl | hat
  · rw [if_neg (by simp [h])]
  · have hlt := hat.1
    split
    · exact hlt
    · exact Nat.le_of_lt hlt

theorem stepBy_le_succ (hj : j < m) : stepBy table accepts j c ≤ j + 1 := by
  cases h : accepts j c with
  | true => exact Nat.le_of_eq (stepBy_accepts h)
  | false => exact Nat.le_succ_of_le (stepBy_le htable hj h)

/-- A search ends only behind as many letters as the word still has. -/
theorem search_short (hj : j + v.length < m) : search table accepts m j v = false := by
  induction v generalizing j with
  | nil => rfl
  | cons c v ih =>
    rw [List.length_cons] at hj
    have hstep : stepBy table accepts j c ≤ j + 1 := stepBy_le_succ htable (by omega)
    rw [search, ih (by omega), decide_eq_false (by omega), Bool.or_false]

theorem foldl_stepBy_lt (hm : 0 < m) (h : search table accepts m 0 u = false) :
    u.foldl (stepBy table accepts) 0 < m := by
  induction u using List.reverseRecOn with
  | nil => exact hm
  | append_singleton u c ih =>
    rw [search_concat, Bool.or_eq_false_iff, decide_eq_false_iff_not] at h
    have hle : stepBy table accepts (u.foldl (stepBy table accepts) 0) c ≤
        u.foldl (stepBy table accepts) 0 + 1 := stepBy_le_succ htable (ih h.1)
    have hlt := ih h.1
    rw [List.foldl_concat]
    omega

omit htable in
/-- A text that goes on to the end of the word ends a search. -/
theorem search_goesOn (hgo : GoesOn (fun k c => accepts k c = true) j v) (hv : v ≠ [])
    (hlen : j + v.length = m) : search table accepts m j v = true := by
  induction v generalizing j with
  | nil => exact absurd rfl hv
  | cons c v ih =>
    obtain ⟨hc, hgo⟩ := hgo
    rw [List.length_cons] at hlen
    rw [search, stepBy_accepts hc, Bool.or_eq_true]
    by_cases hnil : v = []
    · subst hnil
      exact .inl (decide_eq_true hlen)
    · exact .inr (ih hgo hnil (by omega))

section Right

variable (hm : 0 < m) (hpossible : ∀ j < m, ∃ c, accepts j c = true)
  (hright : ∀ u, search table accepts m 0 u = true ↔ Occurs fits m u)

section Possible

include hm hpossible hright
omit htable

theorem fits_possible (hj : j < m) : ∃ c, fits j c := by
  obtain ⟨v, hlen, hgo⟩ : ∃ v : List γ, v.length = m - 0 ∧
      GoesOn (fun k c => accepts k c = true) 0 v :=
    exists_goesOn (fun t _ ht => hpossible t ht) (Nat.zero_le m)
  rw [Nat.sub_zero] at hlen
  have hv : v ≠ [] := by
    rintro rfl
    exact absurd hlen (Nat.ne_of_lt hm)
  obtain ⟨x, hx, hxlen, hfits⟩ := (hright v).mp (search_goesOn hgo hv (by omega))
  obtain rfl := hx.eq_of_length (hxlen.trans hlen.symm)
  have hjx : j < x.length := hxlen ▸ hj
  have hfits := hfits.getElem hjx
  exact ⟨x[j], by rwa [Nat.zero_add] at hfits⟩

end Possible

include hm hpossible hright

/-- A search that is right stands behind the longest end of the text that may become the word: any
other place could be told from it by letters that are still to come. -/
theorem longest_of_right (hno : search table accepts m 0 u = false) :
    Longest fits m (u.foldl (stepBy table accepts) 0) u := by
  have hlt : u.foldl (stepBy table accepts) 0 < m := foldl_stepBy_lt htable hm hno
  generalize hj : u.foldl (stepBy table accepts) 0 = j at hlt ⊢
  have hmore : ∀ v, search table accepts m 0 (u ++ v) = search table accepts m j v := by
    intro v
    rw [search_append, hno, Bool.false_or, hj]
  have hmax : ∀ k, k ≤ m → EndsWith fits k u → k ≤ j := by
    rintro k hk ⟨x, hx, rfl, hgo⟩
    by_contra hlong
    obtain ⟨v, hlen, hv⟩ : ∃ v : List γ, v.length = m - x.length ∧ GoesOn fits x.length v :=
      exists_goesOn (fun t _ ht => fits_possible hm hpossible hright ht) hk
    have hoccurs : Occurs fits m (u ++ v) := by
      obtain ⟨before, rfl⟩ := hx
      refine ⟨x ++ v, ⟨before, [], by simp⟩, ?_, goesOn_append.mpr ⟨hgo, by rwa [Nat.zero_add]⟩⟩
      rw [List.length_append]
      omega
    have hfound := (hright _).mpr hoccurs
    rw [hmore, search_short htable (by omega)] at hfound
    cases hfound
  refine ⟨hlt, ⟨Nat.le_of_lt hlt, ?_⟩, fun k hk => hmax k hk.1 hk.2⟩
  obtain ⟨v, hlen, hv⟩ : ∃ v : List γ, v.length = m - j ∧
      GoesOn (fun k c => accepts k c = true) j v :=
    exists_goesOn (fun t _ ht => hpossible t ht) (Nat.le_of_lt hlt)
  have hne : v ≠ [] := by
    rintro rfl
    rw [List.length_nil] at hlen
    omega
  have hoccurs : Occurs fits m (u ++ v) := by
    rw [← hright, hmore]
    exact search_goesOn hv hne (by omega)
  obtain ⟨x, hx, hxlen, hgo⟩ := hoccurs
  rcases List.infix_append_iff.mp hx with hx | hx | ⟨y, z, rfl, hy, hz⟩
  · rw [(hright u).mpr ⟨x, hx, hxlen, hgo⟩] at hno
    cases hno
  · have hle := hx.length_le
    obtain rfl : j = 0 := by omega
    exact endsWith_zero u
  · have hle := hz.length_le
    rw [List.length_append] at hxlen
    have hends : EndsWith fits y.length u := ⟨y, hy, rfl, (goesOn_append.mp hgo).1⟩
    have hyj := hmax y.length (by omega) hends
    obtain rfl : y.length = j := by omega
    exact hends

/-- Behind letters that fit the first places such a search stands there. -/
theorem foldl_of_goesOn (hlen : w.length = j) (hj : j < m) (hgo : GoesOn fits 0 w) :
    search table accepts m 0 w = false ∧ w.foldl (stepBy table accepts) 0 = j := by
  have hno : search table accepts m 0 w = false := search_short htable (by omega)
  obtain ⟨hlt, ⟨-, hends⟩, hmax⟩ := longest_of_right htable hm hpossible hright hno
  refine ⟨hno, Nat.le_antisymm ?_ (hmax j ⟨Nat.le_of_lt hj, ?_⟩)⟩
  · rw [← hlen]
    exact hends.le
  · rw [← hlen]
    exact endsWith_self hgo

theorem accepts_iff_of_right (hj : j < m) (c : γ) : accepts j c = true ↔ fits j c := by
  obtain ⟨w, hlen, hgo⟩ : ∃ w : List γ, w.length = j - 0 ∧ GoesOn fits 0 w :=
    exists_goesOn (fun t _ ht => fits_possible hm hpossible hright (Nat.lt_trans ht hj))
      (Nat.zero_le j)
  rw [Nat.sub_zero] at hlen
  obtain ⟨hno, hat⟩ := foldl_of_goesOn htable hm hpossible hright hlen hj hgo
  have hall : GoesOn fits 0 (w ++ [c]) ↔ fits j c := by
    rw [goesOn_concat, Nat.zero_add, hlen]
    exact and_iff_right hgo
  have hsearch : search table accepts m 0 (w ++ [c]) = decide (stepBy table accepts j c = m) := by
    rw [search_concat, hno, Bool.false_or, hat]
  have hlength : (w ++ [c]).length = j + 1 := by
    rw [List.length_append, hlen, List.length_singleton]
  have hstep : stepBy table accepts j c = j + 1 ↔ accepts j c = true := by
    refine ⟨fun h => ?_, stepBy_accepts⟩
    by_contra hacc
    have hle : stepBy table accepts j c ≤ j := stepBy_le htable hj (Bool.not_eq_true _ ▸ hacc)
    omega
  rw [← hall, ← hstep]
  by_cases hend : j + 1 = m
  · have hoccurs : Occurs fits m (w ++ [c]) ↔ GoesOn fits 0 (w ++ [c]) := by
      constructor
      · rintro ⟨x, hx, hxlen, hgo⟩
        rwa [← hx.eq_of_length (by omega)]
      · exact fun hgo => ⟨_, List.infix_rfl, by omega, hgo⟩
    rw [← hoccurs, ← hright, hsearch, decide_eq_true_iff, hend]
  · have hno' : search table accepts m 0 (w ++ [c]) = false := by
      rw [hsearch, decide_eq_false_iff_not]
      have hle : stepBy table accepts j c ≤ j + 1 := stepBy_le_succ htable hj
      omega
    obtain ⟨hlt, ⟨-, hends⟩, hmax⟩ := longest_of_right htable hm hpossible hright hno'
    rw [List.foldl_concat, hat] at hlt hends hmax
    rw [← endsWith_length, hlength]
    constructor
    · intro h
      rwa [h] at hends
    · intro h
      have hle := hmax (j + 1) ⟨by omega, h⟩
      have := hends.le
      omega

theorem longest_step_of_right (hlen : w.length = j) (hj : j < m) (hgo : GoesOn fits 0 w)
    (hc : ¬ fits j c) : Longest fits m (stepBy table accepts j c) (w ++ [c]) := by
  obtain ⟨hno, hat⟩ := foldl_of_goesOn htable hm hpossible hright hlen hj hgo
  have hacc : accepts j c = false := by
    rw [← Bool.not_eq_true, accepts_iff_of_right htable hm hpossible hright hj]
    exact hc
  have hno' : search table accepts m 0 (w ++ [c]) = false := by
    have hle : stepBy table accepts j c ≤ j := stepBy_le htable hj hacc
    rw [search_concat, hno, Bool.false_or, hat, decide_eq_false_iff_not]
    omega
  have hlongest := longest_of_right htable hm hpossible hright hno'
  rwa [List.foldl_concat, hat] at hlongest

end Right

omit htable in
/-- What holds of the letters that the search stands behind holds of the whole text. -/
theorem Longest.of_suffix {a : Nat} (h : Longest fits m j u) (hw : w <:+ u) (hlen : w.length = j)
    (ha : Longest fits m a (w ++ [c])) : Longest fits m a (u ++ [c]) := by
  obtain ⟨hlt, ⟨hle, x, hx, hxlen, hgo⟩, hmax⟩ := ha
  obtain ⟨before, rfl⟩ := hw
  refine ⟨hlt, ⟨hle, x, ?_, hxlen, hgo⟩, fun l hl => ?_⟩
  · rw [List.append_assoc]
    exact hx.trans (List.suffix_append _ _)
  cases l with
  | zero => exact Nat.zero_le a
  | succ l =>
    obtain ⟨hends, hc⟩ := endsWith_concat.mp hl.2
    have hlj := h.2.2 l ⟨Nat.le_of_succ_le hl.1, hends⟩
    obtain ⟨y, hy, rfl, hgo⟩ := hends
    have hyw : y <:+ w :=
      List.suffix_of_suffix_length_le hy (List.suffix_append before w) (by omega)
    exact hmax _ ⟨hl.1, endsWith_concat.mpr ⟨⟨y, hyw, rfl, hgo⟩, hc⟩⟩

omit htable in
theorem Longest.not_occurs (h : Longest fits m j (u ++ [c])) (hno : ¬ Occurs fits m u) :
    ¬ Occurs fits m (u ++ [c]) := by
  rw [occurs_concat, not_or]
  exact ⟨fun hends => absurd (h.2.2 m ⟨Nat.le_refl m, hends⟩) (Nat.not_le.mpr h.1), hno⟩

omit htable in
/-- A search by a table that leads to the longest end wherever a letter does not go on is right. -/
theorem search_of_longest (hm : 0 < m) (hacc : ∀ j < m, ∀ c, accepts j c = true ↔ fits j c)
    (hstep : ∀ j < m, ∀ w c, w.length = j → GoesOn fits 0 w → ¬ fits j c →
      Longest fits m (stepBy table accepts j c) (w ++ [c])) (u : List γ) :
    (search table accepts m 0 u = true ↔ Occurs fits m u) ∧
      (search table accepts m 0 u = false →
        Longest fits m (u.foldl (stepBy table accepts) 0) u) := by
  induction u using List.reverseRecOn with
  | nil =>
    refine ⟨⟨fun h => ?_, fun h => ?_⟩, fun _ => ⟨hm, ⟨Nat.zero_le m, endsWith_zero []⟩, ?_⟩⟩
    · cases h
    · exact absurd h.le (Nat.not_le.mpr hm)
    · exact fun l hl => hl.2.le
  | append_singleton u c ih =>
    obtain ⟨hiff, hlongest⟩ := ih
    cases hu : search table accepts m 0 u with
    | true =>
      rw [search_concat, hu, Bool.true_or, occurs_concat]
      exact ⟨iff_of_true rfl (.inr (hiff.mp hu)), fun h => nomatch h⟩
    | false =>
      have hlongest := hlongest hu
      have hno : ¬ Occurs fits m u := fun h => by
        rw [hiff.mpr h] at hu
        cases hu
      rw [search_concat, hu, Bool.false_or, List.foldl_concat]
      generalize u.foldl (stepBy table accepts) 0 = j at hlongest
      have hmore : Longest fits m (stepBy table accepts j c) (u ++ [c]) →
          (decide (stepBy table accepts j c = m) = true ↔ Occurs fits m (u ++ [c])) ∧
            (decide (stepBy table accepts j c = m) = false →
              Longest fits m (stepBy table accepts j c) (u ++ [c])) := by
        intro h
        rw [decide_eq_true_iff]
        exact ⟨iff_of_false (Nat.ne_of_lt h.1) (h.not_occurs hno), fun _ => h⟩
      by_cases hc : fits j c
      · have hgoes : stepBy table accepts j c = j + 1 :=
          stepBy_accepts ((hacc j hlongest.1 c).mpr hc)
        by_cases hend : j + 1 = m
        · have hoccurs : Occurs fits m (u ++ [c]) := by
            rw [occurs_concat, ← hend]
            exact .inl (endsWith_concat.mpr ⟨hlongest.2.1.2, hc⟩)
          rw [hgoes, decide_eq_true hend]
          exact ⟨iff_of_true rfl hoccurs, fun h => nomatch h⟩
        · have hlt := hlongest.1
          refine hmore ?_
          rw [hgoes]
          exact hlongest.concat hc (by omega)
      · obtain ⟨w, hw, hlen, hgo⟩ := hlongest.2.1.2
        exact hmore (hlongest.of_suffix hw hlen (hstep j hlongest.1 w c hlen hgo hc))

/-- Behind letters that fit, the longest overlap by the codes from which a letter goes on is the
longest one of the text. -/
def OverlapsAgree (codes : Nat → κ) (fits : Nat → γ → Prop) (m : Nat) : Prop :=
  ∀ j < m, ∀ w c, w.length = j → GoesOn fits 0 w → ¬ fits j c → ∀ k,
    IsLast (fun l => Border codes j l ∧ fits l c) k ↔
      IsLast (fun l => l < j ∧ EndsWith fits l w ∧ fits l c) k

omit htable in
theorem longest_concat_iff (hlen : w.length = j) (hj : j < m) (hc : ¬ fits j c) {a : Nat} :
    Longest fits m a (w ++ [c]) ↔
      (∃ k, a = k + 1 ∧ IsLast (fun l => l < j ∧ EndsWith fits l w ∧ fits l c) k) ∨
        a = 0 ∧ ∀ l, ¬ (l < j ∧ EndsWith fits l w ∧ fits l c) := by
  have hsucc : ∀ l, EndsWith fits (l + 1) (w ++ [c]) ↔ l < j ∧ EndsWith fits l w ∧ fits l c := by
    intro l
    rw [endsWith_concat]
    refine ⟨fun ⟨h, hlc⟩ => ⟨Nat.lt_of_le_of_ne (hlen ▸ h.le) ?_, h, hlc⟩, fun h => h.2⟩
    rintro rfl
    exact hc hlc
  constructor
  · rintro ⟨hlt, ⟨-, hends⟩, hmax⟩
    cases a with
    | zero =>
      refine .inr ⟨rfl, fun l hl => ?_⟩
      have hle := hmax (l + 1) ⟨by have := hl.1; omega, (hsucc l).mpr hl⟩
      exact absurd hle (Nat.not_succ_le_zero l)
    | succ k =>
      refine .inl ⟨k, rfl, (hsucc k).mp hends, fun l hl => ?_⟩
      exact Nat.le_of_succ_le_succ (hmax (l + 1) ⟨by have := hl.1; omega, (hsucc l).mpr hl⟩)
  · rintro (⟨k, rfl, hk, hlast⟩ | ⟨rfl, hnone⟩)
    · have hkj := hk.1
      refine ⟨by omega, ⟨by omega, (hsucc k).mpr hk⟩, fun l hl => ?_⟩
      cases l with
      | zero => exact Nat.zero_le _
      | succ l => exact Nat.succ_le_succ (hlast l ((hsucc l).mp hl.2))
    · refine ⟨by omega, ⟨Nat.zero_le m, endsWith_zero _⟩, fun l hl => ?_⟩
      cases l with
      | zero => exact Nat.le_refl 0
      | succ l => exact absurd ((hsucc l).mp hl.2) (hnone l)

theorem longest_step_iff (hacc : ∀ j < m, ∀ c, accepts j c = true ↔ fits j c) (hlen : w.length = j)
    (hj : j < m) (hc : ¬ fits j c) : Longest fits m (stepBy table accepts j c) (w ++ [c]) ↔
      ∀ k, IsLast (fun l => Border codes j l ∧ fits l c) k ↔
        IsLast (fun l => l < j ∧ EndsWith fits l w ∧ fits l c) k := by
  have hstays : accepts j c = false := by
    rw [← Bool.not_eq_true, hacc j hj]
    exact hc
  obtain ⟨hgo, hstop⟩ := @advance_spec _ codes j table (accepts · c)
    (htable.mono (Nat.le_of_lt hj)) hstays
  have hfits : ∀ l, Border codes j l ∧ accepts l c = true ↔ Border codes j l ∧ fits l c :=
    fun l => and_congr_right fun hl => hacc l (Nat.lt_trans hl.1 hj) c
  rw [longest_concat_iff hlen hj hc]
  by_cases hsome : ∃ l, Border codes j l ∧ fits l c
  · obtain ⟨l, hl⟩ := hsome
    obtain ⟨k, hk⟩ := exists_isLast (P := fun l => Border codes j l ∧ fits l c) hl
      fun l hl => hl.1.1
    have hat : stepBy table accepts j c = k + 1 := hgo k ((isLast_congr hfits k).mpr hk)
    rw [hat]
    constructor
    · rintro (⟨k', he, hk'⟩ | ⟨he, -⟩)
      · obtain rfl := Nat.succ.inj he
        exact fun l => ⟨fun hl => hk.unique hl ▸ hk', fun hl => hk'.unique hl ▸ hk⟩
      · cases he
    · exact fun h => .inl ⟨k, rfl, (h k).mp hk⟩
  · have hnone : ∀ l, ¬ (Border codes j l ∧ fits l c) := fun l hl => hsome ⟨l, hl⟩
    have hat : stepBy table accepts j c = 0 := by
      refine hstop fun l hl => ?_
      rw [← Bool.not_eq_true]
      exact fun hacc => hnone l ((hfits l).mp ⟨hl, hacc⟩)
    rw [hat]
    constructor
    · rintro (⟨k', he, -⟩ | ⟨-, hnone'⟩)
      · cases he
      · exact fun l => iff_of_false (fun hl => hnone l hl.1) (fun hl => hnone' l hl.1)
    · refine fun h => .inr ⟨rfl, fun l hl => ?_⟩
      obtain ⟨k, hk⟩ := exists_isLast (P := fun l => l < j ∧ EndsWith fits l w ∧ fits l c) hl
        fun l hl => hl.1
      exact hnone k ((h k).mpr hk).1

/-- A search by the table of a word's overlaps finds it in just the texts it occurs in if and only
if it looks for the letters that fit, and the overlaps by the codes are those of the texts. -/
theorem search_right_iff (hm : 0 < m) (hpossible : ∀ j < m, ∃ c, accepts j c = true) :
    (∀ u, search table accepts m 0 u = true ↔ Occurs fits m u) ↔
      (∀ j < m, ∀ c, accepts j c = true ↔ fits j c) ∧ OverlapsAgree codes fits m := by
  constructor
  · intro hright
    have hacc : ∀ j < m, ∀ c, accepts j c = true ↔ fits j c :=
      fun j hj c => accepts_iff_of_right htable hm hpossible hright hj c
    refine ⟨hacc, fun j hj w c hlen hgo hc => ?_⟩
    exact (longest_step_iff htable hacc hlen hj hc).mp
      (longest_step_of_right htable hm hpossible hright hlen hj hgo hc)
  · rintro ⟨hacc, hagree⟩ u
    refine (search_of_longest hm hacc (fun j hj w c hlen hgo hc => ?_) u).1
    exact (longest_step_iff htable hacc hlen hj hc).mpr (hagree j hj w c hlen hgo hc)

end Search

theorem overlapsAgree_congr {κ κ' : Type*} {codes : Nat → κ} {codes' : Nat → κ'}
    (h : ∀ a < m, ∀ b < m, codes a = codes b ↔ codes' a = codes' b) :
    OverlapsAgree codes fits m ↔ OverlapsAgree codes' fits m := by
  refine forall_congr' fun j => imp_congr_right fun hj => ?_
  refine forall_congr' fun w => forall_congr' fun c => imp_congr_right fun _ => ?_
  refine imp_congr_right fun _ => imp_congr_right fun _ => forall_congr' fun k => ?_
  exact iff_congr (isLast_congr (fun l => and_congr_left fun _ =>
    border_congr h (Nat.le_of_lt hj)) k) Iff.rfl

/-- Where, of all places but the last, those with one code fit the same letters and those with
different codes fit none in common, the overlaps are told by the codes. -/
theorem overlapsAgree_of_codes {κ : Type*} {codes : Nat → κ}
    (hsame : ∀ a b, a + 1 < m → b + 1 < m → codes a = codes b → ∀ c, fits a c → fits b c)
    (hapart : ∀ a b, a + 1 < m → b + 1 < m → codes a ≠ codes b → ∀ c, fits a c → ¬ fits b c) :
    OverlapsAgree codes fits m := by
  intro j hj w c hlen hgo hc
  refine isLast_congr fun l => ?_
  have hends : l < j → (Border codes j l ↔ EndsWith fits l w) := by
    intro hl
    have hwfits : ∀ t < l, ∃ c, w[j - l + t]? = some c ∧ fits (j - l + t) c := by
      intro t ht
      have hlt : j - l + t < w.length := by omega
      have hfits := hgo.getElem hlt
      rw [Nat.zero_add] at hfits
      exact ⟨_, List.getElem?_eq_getElem hlt, hfits⟩
    rw [endsWith_iff (hlen ▸ Nat.le_of_lt hl), hlen]
    refine ⟨fun hborder t ht => ?_, fun h => ⟨hl, fun t ht => ?_⟩⟩
    · obtain ⟨c, hget, hfits⟩ := hwfits t ht
      exact ⟨c, hget, hsame (j - l + t) t (by omega) (by omega) (hborder.2 t ht).symm c hfits⟩
    · obtain ⟨c, hget, hfits⟩ := hwfits t ht
      obtain ⟨c', hget', hfits'⟩ := h t ht
      rw [hget] at hget'
      obtain rfl := Option.some.inj hget'
      by_contra hne
      exact hapart t (j - l + t) (by omega) (by omega) hne c hfits' hfits
  constructor
  · rintro ⟨hl, hc⟩
    exact ⟨hl.1, (hends hl.1).mp hl, hc⟩
  · rintro ⟨hl, hw, hc⟩
    exact ⟨(hends hl).mpr hw, hc⟩

end Icq.Lib
