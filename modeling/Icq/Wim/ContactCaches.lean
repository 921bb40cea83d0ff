import Icq.Wim.ContactListIndex
import Icq.Wim.ContactSearchReuse

/-! Whether what is remembered of the contacts for searching is what they are now. -/

namespace Icq.Wim
open Icq.Lib

variable {l : Letters} {s t : ContactList} {owner : Nat → Bytes} {p : ClPresence} {aimid : Bytes}
  {b : ClBuddy}

namespace ContactList

/-- A new list takes the place of the contacts; their counts of outgoing messages are carried over.
Gives the contacts whose avatars may be others now. -/
def updateCl (s cl : ContactList) : ContactList × List Bytes :=
  let moved (b : ClBuddy) : ClBuddy := { b with object := s.objects + b.object }
  let contactsIndex := (cl.contactsIndex.items.map moved).foldl KeyMap.put ∅
  let avatars :=
    if s.contactsIndex.items.isEmpty then cl.contactsIndex.items.map ClBuddy.aimid
    else
      (s.contactsIndex.items.filter fun b =>
        match cl.contactsIndex.find? b.aimid with
        | some c => !(s.presences b.object).areIconsEqual (cl.presences c.object)
        | none => true).map ClBuddy.aimid
  let carry (presences : Nat → ClPresence) (b : ClBuddy) : Nat → ClPresence :=
    match s.contactsIndex.find? b.aimid with
    | some old => Function.update presences b.object
        { presences b.object with outgoingMsgCount := (s.presences old.object).outgoingMsgCount }
    | none => presences
  let presences (object : Nat) : ClPresence :=
    if s.objects ≤ object then cl.presences (object - s.objects) else s.presences object
  let s := { s with
    groups := cl.groups.map (fun g : ClGroup => { g with buddies := g.buddies.map moved })
    contactsIndex := contactsIndex
    presences := contactsIndex.items.foldl carry presences
    objects := s.objects + cl.objects }
  ({ s.setChangedStatus .full with needUpdateSearchCache := true }, avatars)

/-- A search for lists of patterns. Whom it looks at before it is called off and whom it finds is
left open; it fills the search caches of those it looks at. -/
def searchPatterns (l : Letters) (s : ContactList) (looked : List ClBuddy) (found : ClBuddiesMap)
    (lastSearchPattern : Bytes) : ContactList :=
  { s with
    presences := looked.foldl (fun presences b =>
      Function.update presences b.object (prepareSearchCache l b.aimid (presences b.object)))
      s.presences
    searchCache := found
    lastSearchPattern }

/-- The list has the buddy, as a contact, in a group or as a result of the last search. -/
def Has (s : ContactList) (b : ClBuddy) : Prop := s.Holds b ∨ ∃ g ∈ s.groups, b ∈ g.buddies

/-- What is remembered for searching is what the presence says. -/
def Right (l : Letters) (aimid : Bytes) (p : ClPresence) : Prop :=
  p.searchCache.isEmpty = true ∨ p.searchCache = searchCacheOf l aimid p

def CachesRight (l : Letters) (s : ContactList) : Prop :=
  ∀ b, s.Has b → Right l b.aimid (s.presences b.object)

/-- An update that changes the number for SMS of a contact that was searched changes a name too. -/
def CarefulUpdate (s : ContactList) (aimid : Bytes) (p : ClPresence) : Prop :=
  ∀ object old, s.getPresence aimid = some (object, old) → old.searchCache.isEmpty = false →
    p.smsNumber ≠ old.smsNumber →
    p.friendly ≠ old.friendly ∨ p.abContactName ≠ old.abContactName ∨ p.nick ≠ old.nick

/-- What holds of each update of a merge, in the list as the updates before it left it. -/
def AllUpdates (allowed : ContactList → Bytes → ClPresence → Prop) :
    ContactList → List (Bytes × ClPresence) → Prop
  | _, [] => True
  | s, b :: rest => allowed s b.1 b.2 ∧ AllUpdates allowed (s.updatePresence b.1 b.2) rest

/-- The lists that updates, merges, new lists and searches lead to. -/
inductive Reached (l : Letters) (allowed : ContactList → Bytes → ClPresence → Prop) :
    ContactList → Prop where
  | unserialize (nodes : List GroupNode) (ignorelist : List Bytes) :
    Reached l allowed (unserialize nodes ignorelist)
  | updatePresence {s : ContactList} {aimid : Bytes} {p : ClPresence} (h : Reached l allowed s)
    (hp : allowed s aimid p) : Reached l allowed (s.updatePresence aimid p)
  | mergeFromDiff {s : ContactList} {type : DiffType} {nodes : List GroupNode}
    (h : Reached l allowed s)
    (hp : type = .updated →
      s.AllUpdates allowed ((unserializeFromDiff nodes).flatMap DiffGroup.buddies)) :
    Reached l allowed (s.mergeFromDiff type (unserializeFromDiff nodes)).1
  | updateCl {s cl : ContactList} (h : Reached l allowed s) (hcl : Reached l allowed cl) :
    Reached l allowed (s.updateCl cl).1
  | updateTrusted {s : ContactList} (aimid friendly nick : Bytes) (isTrusted : Bool)
    (h : Reached l allowed s) : Reached l allowed (s.updateTrusted aimid friendly nick isTrusted)
  | search {s : ContactList} (pattern : Bytes) (h : Reached l allowed s) :
    Reached l allowed (s.search l pattern).1
  | searchPatterns {s : ContactList} {looked : List ClBuddy} {found : ClBuddiesMap} (last : Bytes)
    (h : Reached l allowed s) (hlooked : ∀ b ∈ looked, s.Has b) (hfound : ∀ b ∈ found.items, s.Has b) :
    Reached l allowed (s.searchPatterns l looked found last)

/-- Each object is the presence of one contact, and is right for it. -/
structure Owned (l : Letters) (s : ContactList) (owner : Nat → Bytes) : Prop where
  has : ∀ b, s.Has b → b.object < s.objects ∧ b.aimid = owner b.object
  right : ∀ o < s.objects, Right l (owner o) (s.presences o)

theorem Owned.cachesRight (h : s.Owned l owner) : s.CachesRight l := by
  intro b hb
  obtain ⟨hlt, howner⟩ := h.has b hb
  rw [howner]
  exact h.right _ hlt

/-- A list with the same objects and no other buddies. -/
theorem Owned.changed (h : s.Owned l owner) (hhas : ∀ b, t.Has b → s.Has b)
    (hobjects : t.objects = s.objects)
    (hright : ∀ o < s.objects, Right l (owner o) (t.presences o)) : t.Owned l owner where
  has b hb := hobjects ▸ h.has b (hhas b hb)
  right o ho := hright o (hobjects ▸ ho)

theorem Owned.same (h : s.Owned l owner) (hhas : ∀ b, t.Has b → s.Has b)
    (hobjects : t.objects = s.objects) (hpresences : t.presences = s.presences) : t.Owned l owner :=
  h.changed hhas hobjects fun o ho => hpresences ▸ h.right o ho

theorem Owned.setChangedStatus (h : s.Owned l owner) (status : ChangedStatus) :
    (s.setChangedStatus status).Owned l owner := by
  unfold ContactList.setChangedStatus
  split
  · exact h
  · exact h.same (fun _ hb => hb) rfl rfl

theorem setChangedStatus_presences (s : ContactList) (status : ChangedStatus) :
    (s.setChangedStatus status).presences = s.presences := by
  unfold ContactList.setChangedStatus
  split
  · rfl
  · rfl

theorem Owned.needUpdate (h : s.Owned l owner) :
    ({ s with needUpdateSearchCache := true } : ContactList).Owned l owner :=
  h.same (fun _ hb => hb) rfl rfl

theorem right_prepare (h : Right l aimid p) : Right l aimid (prepareSearchCache l aimid p) := by
  unfold prepareSearchCache
  split
  · exact .inr rfl
  · exact h

/-- An update that is careful leaves the cache empty or right. -/
theorem right_update {old : ClPresence} (h : Right l aimid old)
    (hc : old.searchCache.isEmpty = false → p.smsNumber ≠ old.smsNumber →
      p.friendly ≠ old.friendly ∨ p.abContactName ≠ old.abContactName ∨ p.nick ≠ old.nick) :
    Right l aimid { p with
      abContactName := old.abContactName, outgoingMsgCount := old.outgoingMsgCount
      searchCache := if p.friendly ≠ old.friendly ∨ p.abContactName ≠ old.abContactName ∨
        p.nick ≠ old.nick then {} else old.searchCache } := by
  unfold Right
  dsimp only
  split
  · exact .inl rfl
  · rename_i hsame
    refine h.elim .inl fun hr => ?_
    cases he : old.searchCache.isEmpty with
    | true => exact .inl rfl
    | false =>
      have hsms : p.smsNumber = old.smsNumber := by
        by_contra hne
        exact hsame (hc he hne)
      push Not at hsame
      refine .inr (hr.trans ?_)
      simp only [searchCacheOf, hsame, hsms]

theorem updatePresence_owned (h : s.Owned l owner) (hc : s.CarefulUpdate aimid p) :
    (s.updatePresence aimid p).Owned l owner := by
  unfold updatePresence
  cases hf : s.getPresence aimid with
  | none => exact h
  | some found =>
    obtain ⟨object, old⟩ := found
    apply Owned.setChangedStatus
    refine h.changed (fun _ hb => hb) rfl fun o ho => ?_
    by_cases heq : o = object
    · subst heq
      have hold : s.presences o = old := by
        obtain ⟨c, -, hpair⟩ := Option.map_eq_some_iff.mp hf
        cases hpair
        rfl
      simp only [Function.update_self]
      exact right_update (hold ▸ h.right o ho) (hc o old hf)
    · simp only [Function.update_of_ne heq]
      exact h.right o ho

theorem updates_owned {bs : List (Bytes × ClPresence)} (h : s.Owned l owner)
    (hc : s.AllUpdates CarefulUpdate bs) :
    (bs.foldl (fun s b => s.updatePresence b.1 b.2) s).Owned l owner := by
  induction bs generalizing s with
  | nil => exact h
  | cons b bs ih => exact ih (updatePresence_owned h hc.1) hc.2

/-- Who the new objects are the presences of. -/
def ownerMore (s : ContactList) (owner : Nat → Bytes) (bs : List (Bytes × ClPresence)) (o : Nat) :
    Bytes :=
  if s.objects ≤ o then ((bs[o - s.objects]?).map Prod.fst).getD [] else owner o

/-- A list to which new buddies came. -/
theorem Owned.more (h : s.Owned l owner) (bs : List (Bytes × ClPresence))
    (hempty : ∀ x ∈ bs, x.2.searchCache = {})
    (hhas : ∀ b, t.Has b → s.Has b ∨ b ∈ (s.makeBuddies bs).1)
    (hobjects : t.objects = (s.makeBuddies bs).2.objects)
    (hpresences : t.presences = (s.makeBuddies bs).2.presences) :
    t.Owned l (s.ownerMore owner bs) where
  has b hb := by
    rw [hobjects]
    rcases hhas b hb with hb | hb
    · obtain ⟨hlt, howner⟩ := h.has b hb
      exact ⟨Nat.lt_of_lt_of_le hlt (Nat.le_add_right ..),
        howner.trans (if_neg (Nat.not_le.mpr hlt)).symm⟩
    · obtain ⟨hle, hlt, x, -, hx, ha⟩ := mem_makeBuddies hb
      refine ⟨hlt, ?_⟩
      rw [ownerMore, if_pos hle, hx, ha]
      rfl
  right o ho := by
    rw [hobjects] at ho
    rw [hpresences]
    by_cases hle : s.objects ≤ o
    · have hnew : (s.makeBuddies bs).2.presences o = ((bs[o - s.objects]?).map Prod.snd).getD {} :=
        if_pos hle
      rw [hnew]
      refine .inl ?_
      cases hx : bs[o - s.objects]? with
      | none => rfl
      | some x =>
        show x.2.searchCache.isEmpty = true
        rw [hempty x (List.mem_of_getElem? hx)]
        rfl
    · have hkept : (s.makeBuddies bs).2.presences o = s.presences o := if_neg hle
      rw [hkept, ownerMore, if_neg hle]
      exact h.right o (Nat.not_le.mp hle)

theorem updateTrusted_owned (h : s.Owned l owner) (aimid friendly nick : Bytes)
    (isTrusted : Bool) : ∃ owner', (s.updateTrusted aimid friendly nick isTrusted).Owned l owner' := by
  unfold updateTrusted
  split
  · exact ⟨owner, h⟩
  · split
    · refine ⟨owner, h.same (fun b hb => ?_) rfl rfl⟩
      exact hb.imp (Or.imp id (Or.imp (fun hm => (List.mem_filter.mp hm).1) id)) id
    · refine ⟨_, h.more [(aimid, { friendly, nick })] (by simp) (fun b hb => ?_) rfl rfl⟩
      rcases hb with (hb | hb | hb) | hb
      · exact .inl (.inl (.inl hb))
      · rcases mem_foldl_put hb with hb | hb
        · exact .inl (.inl (.inr (.inl hb)))
        · exact .inr hb
      · exact .inl (.inl (.inr (.inr hb)))
      · exact .inl (.inr hb)
    · exact ⟨owner, h⟩

/-- A group of the same buddies, or with new ones. -/
theorem has_grouped {buddies : List ClBuddy} (hb : t.Has b)
    (hholds : ∀ b, t.Holds b → s.Holds b ∨ b ∈ buddies)
    (hgroups : ∀ g' ∈ t.groups, ∀ b ∈ g'.buddies, (∃ g ∈ s.groups, b ∈ g.buddies) ∨ b ∈ buddies) :
    s.Has b ∨ b ∈ buddies := by
  rcases hb with hb | ⟨g, hg, hb⟩
  · exact (hholds b hb).imp .inl id
  · exact (hgroups g hg b hb).imp .inr id

theorem createGroup_owned (h : s.Owned l owner) {d : DiffGroup}
    (hd : ∀ x ∈ d.buddies, x.2.searchCache = {}) : ∃ owner', (s.createGroup d).Owned l owner' := by
  refine ⟨s.ownerMore owner d.buddies, ?_⟩
  unfold createGroup
  dsimp only
  have hold (g : ClGroup) (hg : g ∈ if d.added then
        (s.makeBuddies d.buddies).2.groups ++ [{ id := d.id, name := d.name }]
      else (s.makeBuddies d.buddies).2.groups) : g ∈ s.groups ∨ g.buddies = [] := by
    split at hg
    · rcases List.mem_append.mp hg with hg | hg
      · exact .inl hg
      · rw [List.mem_singleton.mp hg]
        exact .inr rfl
    · exact .inl hg
  generalize (if d.added then
    (s.makeBuddies d.buddies).2.groups ++ [{ id := d.id, name := d.name }]
    else (s.makeBuddies d.buddies).2.groups) = groups at hold
  have hgroups : ∀ g' ∈ groups.map (fun g : ClGroup =>
      if g.id = d.id then { g with buddies := g.buddies ++ (s.makeBuddies d.buddies).1 } else g),
      ∀ b ∈ g'.buddies, (∃ g ∈ s.groups, b ∈ g.buddies) ∨ b ∈ (s.makeBuddies d.buddies).1 := by
    intro g' hg' b hb
    obtain ⟨g, hg, rfl⟩ := List.mem_map.mp hg'
    have hin (hb : b ∈ g.buddies) : ∃ g ∈ s.groups, b ∈ g.buddies := by
      rcases hold g hg with hg | hnil
      · exact ⟨g, hg, hb⟩
      · rw [hnil] at hb
        cases hb
    split at hb
    · exact (List.mem_append.mp hb).imp hin id
    · exact .inl (hin hb)
  cases groups.any (·.id = d.id) with
  | true =>
    simp only [if_true]
    exact h.more d.buddies hd (fun b hb => has_grouped hb
      (fun b hb => holds_indexed hb rfl rfl rfl) hgroups) rfl rfl
  | false =>
    simp only [Bool.false_eq_true, if_false]
    exact h.more d.buddies hd (fun b hb => has_grouped hb (fun b hb => .inl hb) hgroups) rfl rfl

theorem unserializeGroup_owned (h : s.Owned l owner) (node : GroupNode) :
    ∃ owner', (s.unserializeGroup node).Owned l owner' := by
  unfold unserializeGroup
  split
  · exact ⟨owner, h⟩
  · refine ⟨_, h.more (readBuddies node.buddies) (readBuddies_searchCache _) (fun b hb => ?_) rfl rfl⟩
    refine has_grouped hb (fun b hb => holds_indexed hb rfl rfl rfl) fun g hg b hb => ?_
    rcases List.mem_append.mp hg with hg | hg
    · exact .inl ⟨g, hg, hb⟩
    · rw [List.mem_singleton.mp hg] at hb
      exact .inr hb

theorem foldl_owned {α : Type} {f : ContactList → α → ContactList} (xs : List α)
    (h : ∃ owner, s.Owned l owner)
    (hf : ∀ t : ContactList, (∃ owner, t.Owned l owner) → ∀ x ∈ xs, ∃ owner, (f t x).Owned l owner) :
    ∃ owner, (xs.foldl f s).Owned l owner :=
  List.foldlRecOn xs f (motive := fun t => ∃ owner, t.Owned l owner) h hf

theorem unserialize_owned (nodes : List GroupNode) (ignorelist : List Bytes) :
    ∃ owner, (unserialize nodes ignorelist).Owned l owner := by
  have hempty : ({} : ContactList).Owned l fun _ => [] :=
    ⟨fun b hb => by simp [Has, Holds] at hb, fun o ho => absurd ho (Nat.not_lt_zero o)⟩
  obtain ⟨owner, h⟩ := foldl_owned (f := unserializeGroup) nodes ⟨_, hempty⟩
    fun t ht node _ => ht.elim fun _ ht => unserializeGroup_owned ht node
  exact ⟨owner, h.same (fun _ hb => hb) rfl rfl⟩

theorem mem_trim {diff : List DiffGroup} {g g' : ClGroup} (h : trim diff g = some g')
    (hb : b ∈ g'.buddies) : b ∈ g.buddies := by
  unfold trim at h
  split at h
  · cases h
  · rw [← Option.some.inj h] at hb
    exact (List.mem_filter.mp hb).1

theorem mergeFromDiff_owned (h : s.Owned l owner) {type : DiffType} {nodes : List GroupNode}
    (hc : type = .updated →
      s.AllUpdates CarefulUpdate ((unserializeFromDiff nodes).flatMap DiffGroup.buddies)) :
    ∃ owner', (s.mergeFromDiff type (unserializeFromDiff nodes)).1.Owned l owner' := by
  cases type with
  | created =>
    obtain ⟨owner', hcreated⟩ := foldl_owned (f := createGroup) (unserializeFromDiff nodes) ⟨_, h⟩
      fun t ⟨_, ht⟩ d hd => createGroup_owned ht (unserializeFromDiff_searchCache hd)
    exact ⟨owner', (hcreated.setChangedStatus .full).needUpdate⟩
  | updated =>
    have hupdated := updates_owned h (hc rfl)
    rw [List.foldl_flatMap] at hupdated
    exact ⟨owner, (hupdated.setChangedStatus .presence).needUpdate⟩
  | deleted =>
    refine ⟨owner, ?_⟩
    apply Owned.needUpdate
    apply Owned.setChangedStatus
    refine h.same (fun b hb => ?_) rfl rfl
    rcases hb with hb | ⟨g', hg', hb⟩
    · exact .inl (hb.imp mem_foldl_erase (Or.imp mem_foldl_erase id))
    · change g' ∈ (s.deleteGroups (unserializeFromDiff nodes)).1 at hg'
      rw [(deleteGroups_spec s _).1] at hg'
      obtain ⟨g, hg, htrim⟩ := List.mem_filterMap.mp hg'
      exact .inr ⟨g, hg, mem_trim htrim hb⟩
  | other => exact ⟨owner, h⟩

theorem search_owned (h : s.Owned l owner) (pattern : Bytes) :
    (s.search l pattern).1.Owned l owner := by
  by_cases hp : pattern = []
  · subst hp
    exact h
  · have hone : OneEach (s.candidates pattern).items := by
      intro b hb b' hb' ho
      rw [(h.has b (.inl (holds_of_candidate hb))).2, (h.has b' (.inl (holds_of_candidate hb'))).2, ho]
    obtain ⟨presences, hs, hpresences, -⟩ := search_spec (l := l) hp hone
    rw [hs]
    refine h.changed (fun b hb => ?_) rfl fun o ho => ?_
    · rcases hb with (hb | hb | hb) | hb
      · exact .inl (.inl hb)
      · exact .inl (.inr (.inl hb))
      · exact .inl (holds_of_candidate (List.mem_filter.mp hb).1)
      · exact .inr hb
    · rcases hpresences o with hkept | ⟨c, hc, rfl, hknown⟩
      · simp only [hkept]
        exact h.right o ho
      · have howner := (h.has c (.inl (holds_of_candidate hc))).2
        simp only [hknown, known, howner]
        exact right_prepare (h.right _ ho)

theorem searchPatterns_owned {looked : List ClBuddy} {found : ClBuddiesMap} (h : s.Owned l owner)
    (hlooked : ∀ b ∈ looked, s.Has b) (hfound : ∀ b ∈ found.items, s.Has b) (last : Bytes) :
    (s.searchPatterns l looked found last).Owned l owner := by
  refine h.changed (fun b hb => ?_) rfl ?_
  · rcases hb with (hb | hb | hb) | hb
    · exact .inl (.inl hb)
    · exact .inl (.inr (.inl hb))
    · exact hfound b hb
    · exact .inr hb
  · refine List.foldlRecOn looked _
      (motive := fun presences : Nat → ClPresence => ∀ o < s.objects, Right l (owner o) (presences o))
      h.right fun presences hright b hb o ho => ?_
    by_cases heq : o = b.object
    · subst heq
      rw [Function.update_self, (h.has b (hlooked b hb)).2]
      exact right_prepare (hright _ ho)
    · rw [Function.update_of_ne heq]
      exact hright o ho

/-- The presences of a list behind those of another. -/
def ownerBehind (s : ContactList) (owner owner' : Nat → Bytes) (o : Nat) : Bytes :=
  if s.objects ≤ o then owner' (o - s.objects) else owner o

theorem updateCl_owned {cl : ContactList} {owner' : Nat → Bytes} (h : s.Owned l owner)
    (hcl : cl.Owned l owner') : (s.updateCl cl).1.Owned l (s.ownerBehind owner owner') := by
  have hbefore : ∀ b, s.Has b → b.object < s.objects + cl.objects ∧
      b.aimid = s.ownerBehind owner owner' b.object := by
    intro b hb
    obtain ⟨hlt, howner⟩ := h.has b hb
    exact ⟨Nat.lt_of_lt_of_le hlt (Nat.le_add_right ..),
      howner.trans (if_neg (Nat.not_le.mpr hlt)).symm⟩
  have hmoved : ∀ c, cl.Has c → s.objects + c.object < s.objects + cl.objects ∧
      c.aimid = s.ownerBehind owner owner' (s.objects + c.object) := by
    intro c hc
    obtain ⟨hlt, howner⟩ := hcl.has c hc
    refine ⟨Nat.add_lt_add_left hlt _, ?_⟩
    rw [ownerBehind, if_pos (Nat.le_add_right ..), Nat.add_sub_cancel_left, howner]
  unfold updateCl
  apply Owned.needUpdate
  apply Owned.setChangedStatus
  refine ⟨fun b hb => ?_, ?_⟩
  · rcases hb with (hb | hb | hb) | ⟨g', hg', hb⟩
    · rcases mem_foldl_put hb with hb | hb
      · cases hb
      · obtain ⟨c, hc, rfl⟩ := List.mem_map.mp hb
        exact hmoved c (.inl (.inl hc))
    · exact hbefore b (.inl (.inr (.inl hb)))
    · exact hbefore b (.inl (.inr (.inr hb)))
    · obtain ⟨g, hg, rfl⟩ := List.mem_map.mp hg'
      obtain ⟨c, hc, rfl⟩ := List.mem_map.mp hb
      exact hmoved c (.inr ⟨g, hg, hc⟩)
  · refine List.foldlRecOn _ _ (motive := fun presences : Nat → ClPresence =>
      ∀ o < s.objects + cl.objects, Right l (s.ownerBehind owner owner' o) (presences o)) ?_ ?_
    · intro o ho
      unfold ownerBehind
      by_cases hle : s.objects ≤ o
      · rw [if_pos hle, if_pos hle]
        exact hcl.right _ (by omega)
      · rw [if_neg hle, if_neg hle]
        exact h.right o (Nat.not_le.mp hle)
    · intro presences hright b _ o ho
      cases s.contactsIndex.find? b.aimid with
      | none => exact hright o ho
      | some old =>
        dsimp only
        by_cases heq : o = b.object
        · subst heq
          rw [Function.update_self]
          exact hright _ ho
        · rw [Function.update_of_ne heq]
          exact hright o ho

theorem Reached.owned (h : Reached l CarefulUpdate s) : ∃ owner, s.Owned l owner := by
  induction h with
  | unserialize nodes ignorelist => exact unserialize_owned nodes ignorelist
  | updatePresence _ hp ih =>
    obtain ⟨owner, howned⟩ := ih
    exact ⟨owner, updatePresence_owned howned hp⟩
  | mergeFromDiff _ hp ih =>
    obtain ⟨owner, howned⟩ := ih
    exact mergeFromDiff_owned howned hp
  | updateCl _ _ ih ihcl =>
    obtain ⟨owner, howned⟩ := ih
    obtain ⟨owner', hcl⟩ := ihcl
    exact ⟨_, updateCl_owned howned hcl⟩
  | updateTrusted aimid friendly nick isTrusted _ ih =>
    obtain ⟨owner, howned⟩ := ih
    exact updateTrusted_owned howned aimid friendly nick isTrusted
  | search pattern _ ih =>
    obtain ⟨owner, howned⟩ := ih
    exact ⟨owner, search_owned howned pattern⟩
  | searchPatterns last _ hlooked hfound ih =>
    obtain ⟨owner, howned⟩ := ih
    exact ⟨owner, searchPatterns_owned howned hlooked hfound last⟩

/-- An update that is not careful leaves the number for SMS of the cache behind. -/
theorem careful_of_cachesRight (h : s.CachesRight l)
    (hafter : (s.updatePresence aimid p).CachesRight l) : s.CarefulUpdate aimid p := by
  intro object old hfound hcache hsms
  by_contra hsame
  obtain ⟨c, hc, hpair⟩ := Option.map_eq_some_iff.mp hfound
  cases hpair
  have hindex : c ∈ s.contactsIndex.items := (KeyMap.find_mem hc).1
  have hbefore := (h c (.inl (.inl hindex))).resolve_left (by rw [hcache]; exact Bool.false_ne_true)
  have hhas : (s.updatePresence aimid p).Has c := by
    refine .inl (.inl ?_)
    rw [(updatePresence_same s aimid p).2]
    exact hindex
  have hnew := hafter c hhas
  have hpresence : (s.updatePresence aimid p).presences c.object = { p with
      abContactName := (s.presences c.object).abContactName
      outgoingMsgCount := (s.presences c.object).outgoingMsgCount
      searchCache := (s.presences c.object).searchCache } := by
    simp only [updatePresence, hfound, hsame, if_false]
    rw [setChangedStatus_presences]
    exact Function.update_self ..
  rw [hpresence] at hnew
  have hright := hnew.resolve_left (by
    show ¬ (s.presences c.object).searchCache.isEmpty = true
    rw [hcache]
    exact Bool.false_ne_true)
  have hnumber := congrArg SearchCache.smsNumber (hbefore.symm.trans hright)
  exact hsms hnumber.symm

/-- After careful updates no search cache is stale, and the next update leaves them so just when it
is careful. -/
theorem reached_cachesRight (h : Reached l CarefulUpdate s) :
    s.CachesRight l ∧
      ∀ aimid p, (s.updatePresence aimid p).CachesRight l ↔ s.CarefulUpdate aimid p := by
  obtain ⟨owner, howned⟩ := h.owned
  exact ⟨howned.cachesRight, fun aimid p => ⟨careful_of_cachesRight howned.cachesRight,
    fun hc => (updatePresence_owned howned hc).cachesRight⟩⟩

/-- The contact 1 called A, after a search for A. -/
def searchedContact : ContactList :=
  ((unserialize (oneContact [0x41]) []).search plainLetters [0x41]).1

/-- With the number it gets another name. -/
theorem reached_cachesRight_renamed :
    let s := searchedContact.updatePresence [0x31] { friendly := [0x42], smsNumber := [0x37] }
    s.CachesRight plainLetters ∧
      ∀ aimid p, (s.updatePresence aimid p).CachesRight plainLetters ↔ s.CarefulUpdate aimid p := by
  refine reached_cachesRight
    (.updatePresence (.search [0x41] (.unserialize (oneContact [0x41]) [])) ?_)
  intro object old hfound _ _
  cases hfound
  exact .inl (by decide)

/-- A contact that only gets another number has the old one in its cache. -/
theorem renumbered_cache_stale :
    ¬ ∀ s, Reached plainLetters (fun _ _ _ => True) s → s.CachesRight plainLetters := by
  intro h
  have hright := h (searchedContact.updatePresence [0x31]
      { friendly := [0x41], smsNumber := [0x37] })
    (.updatePresence (.search [0x41] (.unserialize (oneContact [0x41]) [])) trivial)
    ⟨0, [0x31]⟩ (.inl (.inl List.mem_cons_self))
  rcases hright with hempty | hsame
  · exact absurd hempty (by decide)
  · exact absurd hsame (by decide)

end ContactList

end Icq.Wim
