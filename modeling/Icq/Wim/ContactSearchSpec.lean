import Icq.Wim.ContactSearch

/-! What a search shows and what it leaves for the next one, contact by contact. -/

namespace Icq.Wim
open Icq.Lib

variable {l : Letters} {s : ContactList} {pattern : Bytes} {b : ClBuddy}

@[simp] theorem prepareSearchCache_prepare (aimid : Bytes) (p : ClPresence) :
    prepareSearchCache l aimid (prepareSearchCache l aimid p) = prepareSearchCache l aimid p := by
  unfold prepareSearchCache
  cases h : p.searchCache.isEmpty with
  | true =>
    simp only [if_true]
    split <;> rfl
  | false => simp [h]

@[simp] theorem prepareSearchCache_usertype (aimid : Bytes) (p : ClPresence) :
    (prepareSearchCache l aimid p).usertype = p.usertype := by
  unfold prepareSearchCache
  split <;> rfl

namespace Found

/-- The contacts shown. -/
def aimids (f : Found) : List Bytes := f.results.map SearchResult.aimid

/-- Every contact shown has a priority, and no other. -/
def Ranked (f : Found) : Prop := ∀ a, (f.priority.find? a).isSome = true ↔ a ∈ f.aimids

end Found

theorem addHighlights_aimids (aimid : Bytes) (highlights : List Bytes) (results : List SearchResult) :
    (addHighlights aimid highlights results).map SearchResult.aimid =
      results.map SearchResult.aimid := by
  induction results with
  | nil => rfl
  | cons r results ih =>
    unfold addHighlights
    split
    · rfl
    · rw [List.map_cons, ih, List.map_cons]

theorem insert_insert (m : ClBuddiesMap) (b : ClBuddy) : (m.insert b).insert b = m.insert b := by
  rw [KeyMap.insert, if_pos]
  rw [KeyMap.find_insert]
  cases m.find? b.aimid <;> simp

section

variable {n : Nat} {f : Found}

theorem addToSearchResults_cache (a : Addition) :
    (addToSearchResults n b f a).cache = f.cache.insert b := by
  unfold addToSearchResults
  dsimp only
  split
  · split <;> rfl
  · rfl

theorem addToSearchResults_aimids (h : f.Ranked) (a : Addition) :
    (addToSearchResults n b f a).Ranked ∧ ∀ x, x ∈ (addToSearchResults n b f a).aimids ↔
      x ∈ f.aimids ∨ (x = b.aimid ∧ a.shown n = true) := by
  unfold addToSearchResults
  dsimp only
  cases a.shown n with
  | false => exact ⟨h, fun x => by simp [Found.aimids]⟩
  | true =>
    rw [if_pos rfl]
    cases hp : f.priority.find? b.aimid with
    | some p =>
      have hb : b.aimid ∈ f.aimids := (h b.aimid).mp (by rw [hp]; rfl)
      have hmem (x : Bytes) : x ∈ (addHighlights b.aimid a.highlights f.results).map
          SearchResult.aimid ↔ x ∈ f.aimids := by rw [addHighlights_aimids]; rfl
      refine ⟨fun x => ?_, fun x => (hmem x).trans ?_⟩
      · refine Iff.trans ?_ (hmem x).symm
        rw [KeyMap.find_put, ← h x]
        split
        · rename_i hx
          rw [← hx, hp]
          simp
        · rfl
      · exact ⟨.inl, fun hx => hx.elim id fun he => he.1 ▸ hb⟩
    | none =>
      have hmem (x : Bytes) : x ∈ (f.results ++ [(⟨b.aimid, a.highlights⟩ : SearchResult)]).map
          SearchResult.aimid ↔ x ∈ f.aimids ∨ x = b.aimid := by simp [Found.aimids]
      refine ⟨fun x => ?_, fun x => (hmem x).trans (by simp)⟩
      refine Iff.trans ?_ (hmem x).symm
      rw [KeyMap.find_put, ← h x]
      by_cases hx : b.aimid = x
      · simp [hx]
      · simp [hx, eq_comm (a := x)]

theorem addAll_cache (additions : List Addition) :
    (additions.foldl (addToSearchResults n b) f).cache =
      if additions.isEmpty then f.cache else f.cache.insert b := by
  induction additions generalizing f with
  | nil => rfl
  | cons a additions ih =>
    rw [List.foldl_cons, ih, addToSearchResults_cache, insert_insert]
    simp

theorem addAll_aimids (h : f.Ranked) (additions : List Addition) :
    (additions.foldl (addToSearchResults n b) f).Ranked ∧
      ∀ x, x ∈ (additions.foldl (addToSearchResults n b) f).aimids ↔
        x ∈ f.aimids ∨ (x = b.aimid ∧ additions.any (Addition.shown n) = true) := by
  induction additions generalizing f with
  | nil => simpa using h
  | cons a additions ih =>
    obtain ⟨hr, ha⟩ := addToSearchResults_aimids (n := n) (b := b) h a
    obtain ⟨hr', hx⟩ := ih hr
    refine ⟨hr', fun x => (hx x).trans ?_⟩
    rw [ha, List.any_cons, Bool.or_eq_true, or_assoc, ← and_or_left]

end

namespace ContactList

/-- The presence of a contact as the search finds it. -/
def known (l : Letters) (s : ContactList) (b : ClBuddy) : ClPresence :=
  prepareSearchCache l b.aimid (s.presences b.object)

/-- The ways in which a contact matches, as the search finds them. -/
def additions (l : Letters) (s : ContactList) (pattern : Bytes) (b : ClBuddy) : List Addition :=
  if s.skipped b then [] else checks l pattern (s.known l b).searchCache (s.known l b).isChat

/-- Buddies that share a presence are of one contact. -/
def OneEach (bs : List ClBuddy) : Prop :=
  ∀ b ∈ bs, ∀ b' ∈ bs, b.object = b'.object → b.aimid = b'.aimid

/-- Looking at a contact finds out no more about another than was known of it. -/
theorem lookAt_spec (f : Found) (b : ClBuddy) :
    ∃ presences, lookAt l pattern (s, f) b = ({ s with presences }, (s.additions l pattern b).foldl
        (addToSearchResults (getWords pattern).length b) f) ∧
      (∀ o, presences o = s.presences o ∨ b.object = o ∧ presences o = s.known l b) ∧
      ∀ b' : ClBuddy, (b.object = b'.object → b.aimid = b'.aimid) →
        ({ s with presences } : ContactList).known l b' = s.known l b' ∧
          ({ s with presences } : ContactList).skipped b' = s.skipped b' := by
  simp only [lookAt, additions]
  cases hs : s.skipped b with
  | true => exact ⟨s.presences, rfl, fun o => .inl rfl, fun b' _ => ⟨rfl, rfl⟩⟩
  | false =>
    refine ⟨Function.update s.presences b.object (s.known l b), rfl, fun o => ?_, fun b' hb => ?_⟩
    · by_cases ho : o = b.object
      · exact .inr ⟨ho.symm, by rw [ho, Function.update_self]⟩
      · exact .inl (Function.update_of_ne ho _ _)
    · by_cases ho : b'.object = b.object
      · have ha := hb ho.symm
        simp [known, skipped, isIgnored, ho, ha]
      · simp [known, skipped, isIgnored, ho]

theorem foldl_lookAt (f : Found) {bs : List ClBuddy} (hone : OneEach bs) :
    ∃ presences, bs.foldl (lookAt l pattern) (s, f) = ({ s with presences },
        bs.foldl (fun f b => (s.additions l pattern b).foldl
          (addToSearchResults (getWords pattern).length b) f) f) ∧
      ∀ o, presences o = s.presences o ∨ ∃ b ∈ bs, b.object = o ∧ presences o = s.known l b := by
  induction bs generalizing s f with
  | nil => exact ⟨s.presences, rfl, fun o => .inl rfl⟩
  | cons b bs ih =>
    obtain ⟨first, hlook, hfirst, hknown⟩ := @lookAt_spec l s pattern f b
    have hsame (b' : ClBuddy) (hb' : b' ∈ bs) :=
      hknown b' (hone b List.mem_cons_self b' (List.mem_cons_of_mem _ hb'))
    obtain ⟨presences, hfold, hrest⟩ := ih (s := { s with presences := first })
      ((s.additions l pattern b).foldl (addToSearchResults (getWords pattern).length b) f)
      fun x hx y hy => hone x (List.mem_cons_of_mem _ hx) y (List.mem_cons_of_mem _ hy)
    refine ⟨presences, ?_, fun o => ?_⟩
    · rw [List.foldl_cons, List.foldl_cons, hlook, hfold]
      refine Prod.ext rfl (List.foldl_ext _ _ _ fun f' b' hb' => ?_)
      simp only [additions, hsame b' hb']
    · rcases hrest o with ho | ⟨b', hb', ho, hk⟩
      · rcases hfirst o with hf | ⟨hb, hf⟩
        · exact .inl (ho.trans hf)
        · exact .inr ⟨b, List.mem_cons_self, hb, ho.trans hf⟩
      · exact .inr ⟨b', List.mem_cons_of_mem _ hb', ho, hk.trans (hsame b' hb').1⟩

section

variable {n : Nat} {additions : ClBuddy → List Addition}

theorem foldl_addAll_find (f : Found) (bs : List ClBuddy) (k : Bytes) :
    (bs.foldl (fun f b => (additions b).foldl (addToSearchResults n b) f) f).cache.find? k =
      (f.cache.find? k).or (bs.find? fun b => !(additions b).isEmpty && decide (b.aimid = k)) := by
  induction bs generalizing f with
  | nil => simp
  | cons b bs ih =>
    rw [List.foldl_cons, ih, addAll_cache]
    cases hb : (additions b).isEmpty with
    | true => simp [hb]
    | false =>
      rw [if_neg Bool.false_ne_true, KeyMap.find_insert, Option.or_assoc, List.find?_cons, hb]
      by_cases hk : b.aimid = k <;> simp [hk]

theorem foldl_addAll_aimids {f : Found} (h : f.Ranked) (bs : List ClBuddy) (x : Bytes) :
    x ∈ (bs.foldl (fun f b => (additions b).foldl (addToSearchResults n b) f) f).aimids ↔
      x ∈ f.aimids ∨ ∃ b ∈ bs, b.aimid = x ∧ (additions b).any (Addition.shown n) = true := by
  induction bs generalizing f with
  | nil => simp
  | cons b bs ih =>
    obtain ⟨hr, ha⟩ := addAll_aimids (n := n) (b := b) h (additions b)
    rw [List.foldl_cons, ih hr, ha, or_assoc, eq_comm (a := x)]
    simp only [List.exists_mem_cons_iff]

end

/-- What a search leaves, and whom it shows. -/
theorem search_spec (hp : pattern ≠ []) (hone : OneEach (s.candidates pattern).items) :
    ∃ presences, (s.search l pattern).1 = { s with
        presences
        needUpdateSearchCache := s.needUpdateSearchCache && !s.needNewCache pattern
        searchCache := (s.candidates pattern).filter fun b => !(s.additions l pattern b).isEmpty
        lastSearchPattern := pattern } ∧
      (∀ o, presences o = s.presences o ∨
        ∃ b ∈ (s.candidates pattern).items, b.object = o ∧ presences o = s.known l b) ∧
      ∀ x, x ∈ (s.search l pattern).2.map SearchResult.aimid ↔
        ∃ b ∈ (s.candidates pattern).items, b.aimid = x ∧
          (s.additions l pattern b).any (Addition.shown (getWords pattern).length) = true := by
  have hne : pattern.isEmpty = false := by simpa using hp
  obtain ⟨presences, hfold, hkeep⟩ := @foldl_lookAt l s pattern {} _ hone
  refine ⟨presences, ?_, hkeep, fun x => ?_⟩
  · simp only [search, hne, Bool.false_eq_true, if_false, hfold]
    congr 1
    refine KeyMap.ext_find fun k => ?_
    rw [foldl_addAll_find, KeyMap.find?, KeyMap.find?, KeyMap.items_filter, List.find?_filter]
    simp only [KeyMap.items_empty, List.find?_nil, Option.none_or]
    refine congrArg (List.find? · _) (funext fun b => ?_)
    cases s.additions l pattern b <;> simp
  · simp only [search, hne, Bool.false_eq_true, if_false, hfold]
    exact (foldl_addAll_aimids (fun a => by simp [Found.aimids, KeyMap.find?]) _ x).trans
      (by simp [Found.aimids])

end ContactList

end Icq.Wim
