import Icq.Wim.ContactSearchSpec

/-! What stays right of the contacts between searches: whose presence is whose, and what is
remembered of it for searching. -/

namespace Icq.Wim
open Icq.Lib

variable {l : Letters} {s t : ContactList} {pattern : Bytes} {b : ClBuddy}

namespace ContactList

/-- The list holds the buddy, as a contact or as a result of the last search. -/
def Holds (s : ContactList) (b : ClBuddy) : Prop :=
  b ∈ s.contactsIndex.items ∨ b ∈ s.trustedContacts.items ∨ b ∈ s.searchCache.items

/-- What is remembered for searching is right, but for the number for SMS. -/
def Remembers (l : Letters) (aimid : Bytes) (p : ClPresence) : Prop :=
  p.searchCache.isEmpty = true ∨
    p.searchCache = { searchCacheOf l aimid p with smsNumber := p.searchCache.smsNumber }

structure Kept (l : Letters) (s : ContactList) : Prop where
  below : ∀ b, s.Holds b → b.object < s.objects
  apart : ∀ b b', s.Holds b → s.Holds b' → b.object = b'.object → b.aimid = b'.aimid
  remembers : ∀ b, s.Holds b → Remembers l b.aimid (s.presences b.object)

/-- The next list is as well kept, and its last search is the same. -/
structure Onward (l : Letters) (s t : ContactList) : Prop where
  kept : t.Kept l
  searchCache : t.searchCache = s.searchCache
  lastSearchPattern : t.lastSearchPattern = s.lastSearchPattern

theorem Onward.trans {u : ContactList} (h : s.Onward l t) (h' : t.Onward l u) : s.Onward l u :=
  ⟨h'.kept, h'.searchCache.trans h.searchCache, h'.lastSearchPattern.trans h.lastSearchPattern⟩

theorem mem_foldl_put {m : ClBuddiesMap} {bs : List ClBuddy}
    (h : b ∈ (bs.foldl KeyMap.put m).items) : b ∈ m.items ∨ b ∈ bs := by
  induction bs generalizing m with
  | nil => exact .inl h
  | cons c bs ih =>
    rcases ih h with hm | hb
    · rcases KeyMap.mem_put.mp hm with rfl | ⟨hm, _⟩
      · exact .inr List.mem_cons_self
      · exact .inl hm
    · exact .inr (List.mem_cons_of_mem _ hb)

theorem mem_foldl_insert {m : ClBuddiesMap} {bs : List ClBuddy}
    (h : b ∈ (bs.foldl KeyMap.insert m).items) : b ∈ m.items ∨ b ∈ bs := by
  induction bs generalizing m with
  | nil => exact .inl h
  | cons c bs ih =>
    rcases ih h with hm | hb
    · unfold KeyMap.insert at hm
      split at hm
      · exact .inl hm
      · rcases KeyMap.mem_put.mp hm with rfl | ⟨hm, _⟩
        · exact .inr List.mem_cons_self
        · exact .inl hm
    · exact .inr (List.mem_cons_of_mem _ hb)

theorem mem_foldl_erase {m : ClBuddiesMap} {keys : List Bytes}
    (h : b ∈ (keys.foldl KeyMap.erase m).items) : b ∈ m.items := by
  induction keys generalizing m with
  | nil => exact h
  | cons k keys ih => exact (List.mem_filter.mp (ih h)).1

theorem holds_of_candidate (h : b ∈ (s.candidates pattern).items) : s.Holds b := by
  unfold candidates at h
  split at h
  · rcases mem_foldl_insert h with h | h
    · exact .inl h
    · exact .inr (.inl h)
  · exact .inr (.inr h)

/-- A list with fewer buddies in it. -/
theorem Kept.fewer (h : s.Kept l) (hholds : ∀ b, t.Holds b → s.Holds b)
    (hobjects : t.objects = s.objects) (hpresences : t.presences = s.presences) : t.Kept l where
  below b hb := hobjects ▸ h.below b (hholds b hb)
  apart b b' hb hb' := h.apart b b' (hholds b hb) (hholds b' hb')
  remembers b hb := hpresences ▸ h.remembers b (hholds b hb)

theorem mem_makeBuddies {bs : List (Bytes × ClPresence)} (h : b ∈ (s.makeBuddies bs).1) :
    s.objects ≤ b.object ∧ b.object < s.objects + bs.length ∧
      ∃ x ∈ bs, bs[b.object - s.objects]? = some x ∧ b.aimid = x.1 := by
  obtain ⟨⟨x, i⟩, hx, rfl⟩ := List.mem_map.mp h
  have hi : bs[i]? = some x := by
    simpa using List.mem_zipIdx_iff_getElem?.mp hx
  obtain ⟨hlt, _⟩ := List.getElem?_eq_some_iff.mp hi
  exact ⟨Nat.le_add_right .., by simpa using hlt, x, List.mem_of_getElem? hi,
    by simpa using hi, rfl⟩

/-- A list to which new buddies came. -/
theorem Kept.more (h : s.Kept l) (bs : List (Bytes × ClPresence))
    (hempty : ∀ x ∈ bs, x.2.searchCache = {})
    (hholds : ∀ b, t.Holds b → s.Holds b ∨ b ∈ (s.makeBuddies bs).1)
    (hobjects : t.objects = (s.makeBuddies bs).2.objects)
    (hpresences : t.presences = (s.makeBuddies bs).2.presences) : t.Kept l where
  below b hb := by
    rw [hobjects]
    rcases hholds b hb with hb | hb
    · exact Nat.lt_of_lt_of_le (h.below b hb) (Nat.le_add_right ..)
    · exact (mem_makeBuddies hb).2.1
  apart b b' hb hb' ho := by
    rcases hholds b hb with hb | hb <;> rcases hholds b' hb' with hb' | hb'
    · exact h.apart b b' hb hb' ho
    · exact absurd (h.below b hb) (Nat.not_lt.mpr (ho ▸ (mem_makeBuddies hb').1))
    · exact absurd (h.below b' hb') (Nat.not_lt.mpr (ho ▸ (mem_makeBuddies hb).1))
    · obtain ⟨_, _, x, _, hx, ha⟩ := mem_makeBuddies hb
      obtain ⟨_, _, x', _, hx', ha'⟩ := mem_makeBuddies hb'
      rw [ho, hx'] at hx
      rw [ha, ha', Option.some.inj hx]
  remembers b hb := by
    rw [hpresences]
    rcases hholds b hb with hb | hb
    · have hlt : ¬ s.objects ≤ b.object := Nat.not_le.mpr (h.below b hb)
      simpa [makeBuddies, hlt] using h.remembers b hb
    · obtain ⟨hle, _, x, hm, hx, _⟩ := mem_makeBuddies hb
      refine .inl ?_
      simp [makeBuddies, hle, hx, hempty x hm, SearchCache.isEmpty]

theorem Kept.changed (h : s.Kept l) (hholds : ∀ b, t.Holds b → s.Holds b)
    (hobjects : t.objects = s.objects)
    (hremembers : ∀ b, s.Holds b → Remembers l b.aimid (t.presences b.object)) : t.Kept l where
  below b hb := hobjects ▸ h.below b (hholds b hb)
  apart b b' hb hb' := h.apart b b' (hholds b hb) (hholds b' hb')
  remembers b hb := hremembers b (hholds b hb)

theorem setChangedStatus_onward (h : s.Onward l t) (status : ChangedStatus) :
    s.Onward l (t.setChangedStatus status) := by
  unfold setChangedStatus
  split
  · exact h
  · exact ⟨h.kept.fewer (fun _ hb => hb) rfl rfl, h.searchCache, h.lastSearchPattern⟩

theorem updatePresence_onward (h : s.Kept l) (aimid : Bytes) (p : ClPresence) :
    s.Onward l (s.updatePresence aimid p) := by
  unfold updatePresence getPresence
  cases hf : s.contactsIndex.find? aimid with
  | none => exact ⟨h, rfl, rfl⟩
  | some c =>
    simp only [Option.map_some]
    apply setChangedStatus_onward
    refine ⟨h.changed (fun _ hb => hb) rfl fun b hb => ?_, rfl, rfl⟩
    dsimp only
    by_cases ho : b.object = c.object
    · rw [ho, Function.update_self]
      have hr := h.remembers b hb
      rw [ho] at hr
      unfold Remembers at hr ⊢
      dsimp only
      split
      · exact .inl rfl
      · rename_i hsame
        push Not at hsame
        refine hr.imp id fun hr => hr.trans ?_
        simp only [searchCacheOf, hsame]
    · rw [Function.update_of_ne ho]
      exact h.remembers b hb

theorem updateTrusted_onward (h : s.Kept l) (aimid friendly nick : Bytes) (isTrusted : Bool) :
    s.Onward l (s.updateTrusted aimid friendly nick isTrusted) := by
  unfold updateTrusted
  split
  · exact ⟨h, rfl, rfl⟩
  · split
    · refine ⟨h.fewer (fun b hb => ?_) rfl rfl, rfl, rfl⟩
      exact hb.imp id (Or.imp (fun hm => (List.mem_filter.mp hm).1) id)
    · refine ⟨h.more [(aimid, { friendly, nick })] (by simp) (fun b hb => ?_) rfl rfl, rfl, rfl⟩
      rcases hb with hb | hb | hb
      · exact .inl (.inl hb)
      · rcases mem_foldl_put hb with hb | hb
        · exact .inl (.inr (.inl hb))
        · exact .inr hb
      · exact .inl (.inr (.inr hb))
    · exact ⟨h, rfl, rfl⟩

/-- Buddies as the server describes them come with nothing remembered for searching. -/
theorem readBuddies_searchCache (nodes : List BuddyNode) :
    ∀ x ∈ readBuddies nodes, x.2.searchCache = {} := by
  intro x hx
  obtain ⟨node, _, hn⟩ := List.mem_filterMap.mp hx
  obtain ⟨a, _, rfl⟩ := Option.map_eq_some_iff.mp hn
  rfl

theorem unserializeFromDiff_searchCache {nodes : List GroupNode} {d : DiffGroup}
    (h : d ∈ unserializeFromDiff nodes) : ∀ x ∈ d.buddies, x.2.searchCache = {} := by
  obtain ⟨node, _, hn⟩ := List.mem_filterMap.mp h
  obtain ⟨a, _, rfl⟩ := Option.map_eq_some_iff.mp hn
  exact readBuddies_searchCache node.buddies

theorem holds_indexed {buddies : List ClBuddy} (hb : t.Holds b)
    (hindex : t.contactsIndex = buddies.foldl KeyMap.put s.contactsIndex)
    (htrusted : t.trustedContacts = s.trustedContacts) (hcache : t.searchCache = s.searchCache) : s.Holds b ∨ b ∈ buddies := by
  rw [Holds, hindex, htrusted, hcache] at hb
  rcases hb with hb | hb
  · exact (mem_foldl_put hb).imp .inl id
  · exact .inl (.inr hb)

theorem createGroup_onward (h : s.Kept l) {d : DiffGroup}
    (hd : ∀ x ∈ d.buddies, x.2.searchCache = {}) : s.Onward l (s.createGroup d) := by
  unfold createGroup
  dsimp only
  obtain ⟨groups, hgroups⟩ : ∃ groups, (if d.added then
    (s.makeBuddies d.buddies).2.groups ++ [{ id := d.id, name := d.name }]
    else (s.makeBuddies d.buddies).2.groups) = groups := ⟨_, rfl⟩
  rw [hgroups]
  cases groups.any (·.id = d.id) with
  | true =>
    simp only [if_true]
    exact ⟨h.more d.buddies hd (fun b hb => holds_indexed hb rfl rfl rfl) rfl rfl, rfl, rfl⟩
  | false =>
    simp only [Bool.false_eq_true, if_false]
    exact ⟨h.more d.buddies hd (fun b hb => .inl hb) rfl rfl, rfl, rfl⟩

theorem foldl_onward {α : Type} {f : ContactList → α → ContactList} (xs : List α) (h : s.Kept l)
    (hf : ∀ t : ContactList, t.Kept l → ∀ x ∈ xs, t.Onward l (f t x)) : s.Onward l (xs.foldl f s) :=
  List.foldlRecOn xs f (motive := fun t => s.Onward l t) ⟨h, rfl, rfl⟩ fun t ht x hx =>
    ht.trans (hf t ht.kept x hx)

theorem Onward.needUpdate (h : s.Onward l t) : s.Onward l { t with needUpdateSearchCache := true } :=
  ⟨h.kept.fewer (fun _ hb => hb) rfl rfl, h.searchCache, h.lastSearchPattern⟩

theorem mergeFromDiff_onward (h : s.Kept l) (type : DiffType) (nodes : List GroupNode) :
    s.Onward l (s.mergeFromDiff type (unserializeFromDiff nodes)).1 := by
  cases type with
  | created =>
    exact (setChangedStatus_onward (foldl_onward _ h fun t ht d hd =>
      createGroup_onward ht (unserializeFromDiff_searchCache hd)) .full).needUpdate
  | updated =>
    exact (setChangedStatus_onward (foldl_onward _ h fun t ht d _ =>
      foldl_onward d.buddies ht fun u hu x _ => updatePresence_onward hu x.1 x.2) .presence).needUpdate
  | deleted =>
    apply Onward.needUpdate
    apply setChangedStatus_onward
    refine ⟨h.fewer (fun b hb => ?_) rfl rfl, rfl, rfl⟩
    exact hb.imp mem_foldl_erase (Or.imp mem_foldl_erase id)
  | other => exact ⟨h, rfl, rfl⟩

theorem unserialize_kept (nodes : List GroupNode) (ignorelist : List Bytes) :
    (unserialize nodes ignorelist).Kept l ∧ (unserialize nodes ignorelist).lastSearchPattern = [] := by
  have hempty : ({} : ContactList).Kept l := by
    have hnone : ∀ b, ¬ ({} : ContactList).Holds b := by simp [Holds]
    exact ⟨fun b hb => absurd hb (hnone b), fun b _ hb => absurd hb (hnone b),
      fun b hb => absurd hb (hnone b)⟩
  have h := foldl_onward (f := unserializeGroup) nodes hempty fun t ht node _ => by
    unfold unserializeGroup
    split
    · exact ⟨ht, rfl, rfl⟩
    · exact ⟨ht.more (readBuddies node.buddies) (readBuddies_searchCache _)
        (fun b hb => holds_indexed hb rfl rfl rfl) rfl rfl, rfl, rfl⟩
  exact ⟨h.kept.fewer (fun _ hb => hb) rfl rfl, h.lastSearchPattern⟩

end ContactList

end Icq.Wim
