import Mathlib.Data.List.Nodup
import Mathlib.Data.List.Range

/-! Searches that go on where they stopped. -/

namespace Icq.Lib

variable {σ π : Type}

/-- The results of searching over and over from the place of the last one. -/
inductive Enumerates (search : σ → Nat → σ × Option (Nat × π)) :
    σ → Nat → List (Nat × π) → Prop where
  | done {s s' : σ} {i : Nat} : search s i = (s', none) → Enumerates search s i []
  | found {s s' : σ} {i j : Nat} {p : π} {results : List (Nat × π)} :
      search s i = (s', some (j, p)) → Enumerates search s' j results →
      Enumerates search s i ((j, p) :: results)

/-- Everything that occurs at the `n` places from `i` on. -/
def pairsFrom (all : List π) (occurs : Nat → π → Bool) (i n : Nat) : List (Nat × π) :=
  (List.range' i n).flatMap fun j => (all.filter (occurs j)).map (Prod.mk j)

/-- A search that tests candidates one after the other, place by place. `At n i s c` says that in
state `s` the candidates `c` are left at place `i`, and that `n` places follow. -/
structure Scans (search : σ → Nat → σ × Option (Nat × π)) (all : List π)
    (occurs : Nat → π → Bool) (At : Nat → Nat → σ → List π → Prop) : Prop where
  hit {n i : Nat} {s : σ} {before rest : List π} {p : π} : At n i s (before ++ p :: rest) →
    (∀ q ∈ before, occurs i q = false) → occurs i p = true →
    ∃ s', search s i = (s', some (i, p)) ∧ At n i s' rest
  last {i : Nat} {s : σ} {c : List π} : At 0 i s c → (∀ q ∈ c, occurs i q = false) →
    ∃ s', search s i = (s', none)
  next {n i : Nat} {s : σ} {c : List π} : At (n + 1) i s c → (∀ q ∈ c, occurs i q = false) →
    ∃ s' c', search s i = search s' (i + 1) ∧ At n (i + 1) s' c' ∧
      (c'.filter (occurs (i + 1))).Perm (all.filter (occurs (i + 1)))

section

variable {search : σ → Nat → σ × Option (Nat × π)} {all : List π} {occurs : Nat → π → Bool}
  {At : Nat → Nat → σ → List π → Prop} {s s' : σ} {i n : Nat} {results : List (Nat × π)}

theorem mem_pairsFrom {r : Nat × π} : r ∈ pairsFrom all occurs i n ↔
    (i ≤ r.1 ∧ r.1 < i + n) ∧ r.2 ∈ all ∧ occurs r.1 r.2 = true := by
  rw [pairsFrom, List.mem_flatMap]
  constructor
  · rintro ⟨j, hj, hr⟩
    obtain ⟨p, hp, rfl⟩ := List.mem_map.mp hr
    exact ⟨List.mem_range'_1.mp hj, List.mem_filter.mp hp⟩
  · rintro ⟨hj, hp⟩
    exact ⟨r.1, List.mem_range'_1.mpr hj, List.mem_map.mpr ⟨r.2, List.mem_filter.mpr hp, rfl⟩⟩

theorem nodup_pairsFrom (hall : all.Nodup) : (pairsFrom all occurs i n).Nodup := by
  rw [pairsFrom, List.nodup_flatMap]
  refine ⟨fun j _ => (hall.filter _).map fun _ _ h => (Prod.mk.inj h).2, ?_⟩
  have hplaces : (List.range' i n).Nodup := List.nodup_range'
  refine hplaces.imp fun hne r hr hr' => ?_
  obtain ⟨p, -, rfl⟩ := List.mem_map.mp hr
  obtain ⟨q, -, he⟩ := List.mem_map.mp hr'
  exact hne (Prod.mk.inj he).1.symm

theorem pairsFrom_succ (i n : Nat) : pairsFrom all occurs i (n + 1) =
    (all.filter (occurs i)).map (Prod.mk i) ++ pairsFrom all occurs (i + 1) n := by
  rw [pairsFrom, List.range'_succ, List.flatMap_cons]
  rfl

theorem Enumerates.of_eq {j : Nat} (h : Enumerates search s' j results)
    (he : search s i = search s' j) : Enumerates search s i results := by
  cases h with
  | done h => exact .done (he.trans h)
  | found h hrest => exact .found (he.trans h) hrest

theorem Enumerates.unique {results' : List (Nat × π)} (h : Enumerates search s i results)
    (h' : Enumerates search s i results') : results = results' := by
  induction h generalizing results' with
  | done hnone =>
    cases h' with
    | done => rfl
    | found hsome => simp [hnone] at hsome
  | found hsome _ ih =>
    cases h' with
    | done hnone => simp [hsome] at hnone
    | found hsome' hrest =>
      rw [hsome] at hsome'
      simp only [Prod.mk.injEq, Option.some.injEq] at hsome'
      obtain ⟨rfl, rfl, rfl⟩ := hsome'
      rw [ih hrest]

/-- What a search finds that is at place `i` with the candidates `c`. -/
def Finds (search : σ → Nat → σ × Option (Nat × π)) (all : List π) (occurs : Nat → π → Bool)
    (n i : Nat) (s : σ) (c : List π) : Prop :=
  ∃ results, Enumerates search s i results ∧
    results.Perm ((c.filter (occurs i)).map (Prod.mk i) ++ pairsFrom all occurs (i + 1) n) ∧
    results.Pairwise fun r r' => r.1 ≤ r'.1

theorem le_of_finds {c : List π} (hresults : results.Perm
    ((c.filter (occurs i)).map (Prod.mk i) ++ pairsFrom all occurs (i + 1) n)) :
    ∀ r ∈ results, i ≤ r.1 := by
  intro r hr
  rcases List.mem_append.mp (hresults.mem_iff.mp hr) with hr | hr
  · obtain ⟨p, -, rfl⟩ := List.mem_map.mp hr
    exact le_refl i
  · exact Nat.le_of_succ_le (mem_pairsFrom.mp hr).1.1

/-- Where the search goes on right once no candidate is left, it finds the candidates too. -/
theorem Scans.finds_of_miss (h : Scans search all occurs At)
    (hmiss : ∀ {s c}, At n i s c → (∀ q ∈ c, occurs i q = false) →
      Finds search all occurs n i s c) {c : List π} (hat : At n i s c) :
    Finds search all occurs n i s c := by
  induction hlength : c.length using Nat.strong_induction_on generalizing s c with
  | h length ih =>
    cases hfind : c.find? (occurs i) with
    | none => exact hmiss hat fun q hq => Bool.eq_false_iff.mpr (List.find?_eq_none.mp hfind q hq)
    | some p =>
      obtain ⟨hp, before, rest, rfl, hbefore⟩ := List.find?_eq_some_iff_append.mp hfind
      have hbefore : ∀ q ∈ before, occurs i q = false := fun q hq => by
        have hq := hbefore q hq
        rwa [Bool.not_eq_true'] at hq
      obtain ⟨s', hsearch, hat'⟩ := h.hit hat hbefore hp
      have hshorter : rest.length < length := by
        rw [← hlength, List.length_append, List.length_cons]
        omega
      obtain ⟨results, henum, hresults, hsorted⟩ := ih _ hshorter hat' rfl
      refine ⟨(i, p) :: results, .found hsearch henum, ?_, ?_⟩
      · rw [List.filter_append, List.filter_eq_nil_iff.mpr fun q hq => by
          rw [hbefore q hq]
          exact Bool.false_ne_true, List.nil_append, List.filter_cons, if_pos hp]
        exact hresults.cons (i, p)
      · exact List.pairwise_cons.mpr ⟨le_of_finds hresults, hsorted⟩

/-- Such a search ends, and finds in the order of the places all that occurs. -/
theorem Scans.finds (h : Scans search all occurs At) {c : List π} (hat : At n i s c) :
    Finds search all occurs n i s c := by
  induction n generalizing i s c with
  | zero =>
    refine h.finds_of_miss (fun {s c} hat hnone => ?_) hat
    obtain ⟨s', hsearch⟩ := h.last hat hnone
    refine ⟨[], .done hsearch, ?_, List.Pairwise.nil⟩
    rw [List.filter_eq_nil_iff.mpr fun q hq => Bool.eq_false_iff.mp (hnone q hq)]
    exact List.Perm.refl _
  | succ n ih =>
    refine h.finds_of_miss (fun {s c} hat hnone => ?_) hat
    obtain ⟨s', c', hsearch, hat', hall⟩ := h.next hat hnone
    obtain ⟨results, henum, hresults, hsorted⟩ := ih hat'
    refine ⟨results, henum.of_eq hsearch, ?_, hsorted⟩
    rw [List.filter_eq_nil_iff.mpr fun q hq => Bool.eq_false_iff.mp (hnone q hq), pairsFrom_succ]
    exact hresults.trans ((hall.map _).append_right _)

/-- From a start that goes on as the search at its first place does. -/
theorem Scans.finds_start (h : Scans search all occurs At) {c : List π} (hat : At n 0 s' c)
    (hstart : search s 0 = search s' 0) (hall : (c.filter (occurs 0)).Perm (all.filter (occurs 0))) :
    ∃ results, Enumerates search s 0 results ∧
      results.Perm (pairsFrom all occurs 0 (n + 1)) ∧ results.Pairwise fun r r' => r.1 ≤ r'.1 := by
  obtain ⟨results, henum, hresults, hsorted⟩ := h.finds hat
  refine ⟨results, henum.of_eq hstart, ?_, hsorted⟩
  rw [pairsFrom_succ]
  exact hresults.trans ((hall.map _).append_right _)

end

end Icq.Lib
