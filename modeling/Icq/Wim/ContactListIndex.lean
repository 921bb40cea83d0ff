import Icq.Lib.Run
import Icq.Wim.ContactList

/-! Whether the index of the contact list has the buddies of the groups, and no others. -/

namespace Icq.Wim
open Icq.Lib

namespace Counts

theorem count_add (c : Counts) (k a : Bytes) (n : Nat) :
    (c.add k n).count a = c.count a + if k = a then n else 0 := by
  unfold add
  by_cases hn : n = 0
  · simp [hn]
  · rw [if_neg hn, count, KeyMap.find_put]
    by_cases hk : k = a
    · simp [hk, count]
    · simp [hk, count]

theorem mem_once_iff (c : Counts) (a : Bytes) :
    a ∈ (c.items.filter (·.2 = 1)).map Prod.fst ↔ c.count a = 1 := by
  constructor
  · intro h
    obtain ⟨p, hp, rfl⟩ := List.mem_map.mp h
    obtain ⟨hm, hone⟩ := List.mem_filter.mp hp
    simpa [count, KeyMap.find_of_mem hm] using hone
  · intro h
    cases hf : c.find? a with
    | none => simp [count, hf] at h
    | some p =>
      obtain ⟨hm, rfl⟩ := KeyMap.find_mem hf
      refine List.mem_map_of_mem (List.mem_filter.mpr ⟨hm, ?_⟩)
      simpa [count, hf] using h

end Counts

def ClGroup.has (g : ClGroup) (aimid : Bytes) : Bool := g.buddies.any (·.aimid = aimid)

def DiffGroup.names (d : DiffGroup) (aimid : Bytes) : Bool := d.buddies.any (·.1 = aimid)

def Listed (groups : List ClGroup) (aimid : Bytes) : Prop := ∃ g ∈ groups, g.has aimid = true

/-- A group of the difference has the id of the group and removes it. -/
def dropped (diff : List DiffGroup) (g : ClGroup) : Bool :=
  diff.any fun d => d.removed && decide (d.id = g.id)

/-- A group of the difference has the id of the group and names the contact. -/
def cleared (diff : List DiffGroup) (g : ClGroup) (aimid : Bytes) : Bool :=
  diff.any fun d => decide (d.id = g.id) && d.names aimid

/-- What a difference leaves of a group. -/
def trim (diff : List DiffGroup) (g : ClGroup) : Option ClGroup :=
  if dropped diff g then none
  else some { g with buddies := g.buddies.filter fun b => !cleared diff g b.aimid }

/-- How often a group of the difference meets a contact in a group: each time it stands there if
the ids are equal, and else, if it stands there, each time the difference names it. -/
def meets (d : DiffGroup) (aimid : Bytes) (g : ClGroup) : Nat :=
  if g.id = d.id then if d.names aimid then g.buddies.countP (·.aimid = aimid) else 0
  else if g.has aimid then d.buddies.countP (·.1 = aimid) else 0

/-- How often a contact is met by the rest of a difference, in what the first of it leaves. -/
def meetings (groups : List ClGroup) (first : List DiffGroup) : List DiffGroup → Bytes → Nat
  | [], _ => 0
  | d :: rest, aimid =>
    ((groups.filterMap (trim first)).map (meets d aimid)).sum +
      meetings groups (first ++ [d]) rest aimid

/-- Every group that has the contact loses it. -/
def Leaves (groups : List ClGroup) (diff : List DiffGroup) (aimid : Bytes) : Prop :=
  Listed groups aimid ∧
    ∀ g ∈ groups, g.has aimid = true → (dropped diff g || cleared diff g aimid) = true

theorem foldl_meet_count (g : ClGroup) (buddies : List (Bytes × ClPresence)) (counts : Counts)
    (a : Bytes) :
    (buddies.foldl (ContactList.meet g) counts).count a =
      counts.count a + if g.has a then buddies.countP (·.1 = a) else 0 := by
  induction buddies generalizing counts with
  | nil => simp
  | cons b buddies ih =>
    rw [List.foldl_cons, ih, ContactList.meet, Counts.count_add, List.countP_cons]
    have hhas : g.buddies.any (·.aimid = b.1) = g.has b.1 := rfl
    by_cases hb : b.1 = a
    · subst hb
      cases hg : g.has b.1 with
      | true => simp only [hhas, hg, if_true, decide_true]; omega
      | false => simp only [hhas, hg, Bool.false_eq_true, if_false, ite_self, Nat.add_zero]
    · simp [hb]

/-- Each buddy takes itself out of the group, so a second mention finds nothing. -/
theorem foldl_deleteBuddy (buddies : List (Bytes × ClPresence)) (g : ClGroup) (counts : Counts) :
    (buddies.foldl ContactList.deleteBuddy (g, counts)).1 =
        { g with buddies := g.buddies.filter fun x => !buddies.any (·.1 = x.aimid) } ∧
      ∀ a, (buddies.foldl ContactList.deleteBuddy (g, counts)).2.count a =
        counts.count a + if buddies.any (·.1 = a) then g.buddies.countP (·.aimid = a) else 0 := by
  induction buddies generalizing g counts with
  | nil => simp
  | cons b buddies ih =>
    obtain ⟨hg, hc⟩ := ih { g with buddies := g.buddies.filter (fun x => !decide (x.aimid = b.1)) }
      (counts.add b.1 (g.buddies.countP (·.aimid = b.1)))
    rw [List.foldl_cons, ContactList.deleteBuddy]
    refine ⟨hg.trans ?_, fun a => (hc a).trans ?_⟩
    · rw [List.filter_filter]
      congr 2
      funext x
      simp [List.any_cons, Bool.and_comm, eq_comm]
    · rw [Counts.count_add, List.any_cons, List.countP_filter]
      by_cases hb : b.1 = a
      · subst hb
        simp
      · have hne : (fun x : ClBuddy => decide (x.aimid = a) && !decide (x.aimid = b.1)) =
            fun x => decide (x.aimid = a) := by
          funext x
          by_cases hx : x.aimid = a
          · simp [hx, Ne.symm hb]
          · simp [hx]
        rw [hne, if_neg hb, decide_eq_false hb, Bool.false_or, Nat.add_zero]

theorem trim_singleton (d : DiffGroup) (g : ClGroup) :
    trim [d] g =
      if g.id ≠ d.id then some g
      else if d.removed then none
      else some { g with buddies := g.buddies.filter fun x => !d.buddies.any (·.1 = x.aimid) } := by
  by_cases hid : g.id = d.id
  · simp [trim, dropped, cleared, hid, DiffGroup.names]
  · simp [trim, dropped, cleared, hid, Ne.symm hid]

/-- One group of the difference trims the groups, and counts whom it meets. -/
theorem deleteGroup_spec (d : DiffGroup) (groups : List ClGroup) (counts : Counts) :
    (ContactList.deleteGroup d groups counts).1 = groups.filterMap (trim [d]) ∧
      ∀ a, (ContactList.deleteGroup d groups counts).2.count a =
        counts.count a + (groups.map (meets d a)).sum := by
  induction groups generalizing counts with
  | nil => simp [ContactList.deleteGroup]
  | cons g groups ih =>
    have htrim := trim_singleton d g
    simp only [ContactList.deleteGroup, List.filterMap_cons, List.map_cons, List.sum_cons]
    by_cases hid : g.id = d.id
    · obtain ⟨hg, hc⟩ := foldl_deleteBuddy d.buddies g counts
      obtain ⟨hr, hrc⟩ := ih (d.buddies.foldl ContactList.deleteBuddy (g, counts)).2
      rw [if_neg (not_not_intro hid)] at htrim ⊢
      refine ⟨?_, fun a => ?_⟩
      · cases hrem : d.removed with
        | true =>
          rw [hrem, if_pos rfl] at htrim
          simpa only [htrim, if_true] using hr
        | false =>
          rw [hrem, if_neg Bool.false_ne_true] at htrim
          simp only [htrim, Bool.false_eq_true, if_false, hg, hr]
      · rw [hrc, hc, meets, if_pos hid, DiffGroup.names, Nat.add_assoc]
    · obtain ⟨hr, hrc⟩ := ih (d.buddies.foldl (ContactList.meet g) counts)
      rw [if_pos hid] at htrim ⊢
      refine ⟨by simp only [htrim, hr], fun a => ?_⟩
      rw [hrc, foldl_meet_count, meets, if_neg hid, Nat.add_assoc]

/-- What is trimmed for one part of a difference and then for another is trimmed for both. -/
theorem trim_append (first rest : List DiffGroup) (g : ClGroup) :
    (trim first g).bind (trim rest) = trim (first ++ rest) g := by
  unfold trim
  have hd : dropped (first ++ rest) g = (dropped first g || dropped rest g) := List.any_append
  cases hfirst : dropped first g with
  | true => simp [hd, hfirst]
  | false =>
    have hrest (l : List ClBuddy) : dropped rest { g with buddies := l } = dropped rest g := rfl
    cases h : dropped rest g with
    | true => simp [hd, hfirst, hrest, h]
    | false =>
      simp only [hd, hfirst, h, Bool.or_self, Bool.false_eq_true, if_false, Option.bind_some, hrest,
        List.filter_filter]
      congr 3
      funext b
      simp [cleared, List.any_append, Bool.and_comm]

theorem filterMap_trim_append (groups : List ClGroup) (first rest : List DiffGroup) :
    (groups.filterMap (trim first)).filterMap (trim rest) =
      groups.filterMap (trim (first ++ rest)) := by
  rw [List.filterMap_filterMap]
  exact List.filterMap_congr fun g _ => trim_append first rest g

theorem filterMap_trim_nil (groups : List ClGroup) : groups.filterMap (trim []) = groups := by
  have h : trim [] = some := by
    funext g
    simp [trim, dropped, cleared]
  rw [h, List.filterMap_some]

theorem foldl_deleteGroup (groups : List ClGroup) (first rest : List DiffGroup) (counts : Counts) :
    let r := rest.foldl (fun (gc : List ClGroup × Counts) d =>
      ContactList.deleteGroup d gc.1 gc.2) (groups.filterMap (trim first), counts)
    r.1 = groups.filterMap (trim (first ++ rest)) ∧
      ∀ a, r.2.count a = counts.count a + meetings groups first rest a := by
  induction rest generalizing first counts with
  | nil => simp [meetings]
  | cons d rest ih =>
    obtain ⟨hg, hc⟩ := deleteGroup_spec d (groups.filterMap (trim first)) counts
    have hnext := ih (first ++ [d]) (ContactList.deleteGroup d (groups.filterMap (trim first)) counts).2
    rw [← filterMap_trim_append, ← hg] at hnext
    refine ⟨?_, fun a => ?_⟩
    · simpa using hnext.1
    · have hn := hnext.2 a
      rw [hc] at hn
      simpa only [List.foldl_cons, meetings, Nat.add_assoc] using hn

/-- What a difference of type `deleted` leaves of the groups, and how often it meets a contact. -/
theorem deleteGroups_spec (s : ContactList) (diff : List DiffGroup) :
    (s.deleteGroups diff).1 = s.groups.filterMap (trim diff) ∧
      ∀ a, (s.deleteGroups diff).2.count a = meetings s.groups [] diff a := by
  have h := foldl_deleteGroup s.groups [] diff ∅
  rw [filterMap_trim_nil] at h
  refine ⟨h.1, fun a => (h.2 a).trans ?_⟩
  simp [Counts.count, KeyMap.find?]

/-- A contact is left where some group that has it keeps it. -/
theorem listed_trim_iff (groups : List ClGroup) (diff : List DiffGroup) (a : Bytes) :
    Listed (groups.filterMap (trim diff)) a ↔
      ∃ g ∈ groups, g.has a = true ∧ (dropped diff g || cleared diff g a) = false := by
  have hhas (g : ClGroup) : (∃ g', trim diff g = some g' ∧ g'.has a = true) ↔
      g.has a = true ∧ (dropped diff g || cleared diff g a) = false := by
    unfold trim
    cases dropped diff g with
    | true => simp
    | false =>
      simp only [Bool.false_eq_true, if_false, Option.some.injEq, exists_eq_left', Bool.false_or,
        ClGroup.has, List.any_eq_true, List.mem_filter, Bool.not_eq_true', decide_eq_true_eq]
      constructor
      · rintro ⟨b, ⟨hb, hc⟩, rfl⟩
        exact ⟨⟨b, hb, rfl⟩, hc⟩
      · rintro ⟨⟨b, hb, rfl⟩, hc⟩
        exact ⟨b, ⟨hb, hc⟩, rfl⟩
  simp only [Listed, List.mem_filterMap]
  constructor
  · rintro ⟨g', ⟨g, hg, ht⟩, hg'⟩
    exact ⟨g, hg, (hhas g).mp ⟨g', ht, hg'⟩⟩
  · rintro ⟨g, hg, h⟩
    obtain ⟨g', ht, hg'⟩ := (hhas g).mpr h
    exact ⟨g', ⟨g, hg, ht⟩, hg'⟩

theorem leaves_iff (groups : List ClGroup) (diff : List DiffGroup) (a : Bytes) :
    Leaves groups diff a ↔ Listed groups a ∧ ¬ Listed (groups.filterMap (trim diff)) a := by
  rw [listed_trim_iff, Leaves]
  refine and_congr_right fun _ => ?_
  constructor
  · rintro h ⟨g, hg, ha, hkeep⟩
    rw [h g hg ha] at hkeep
    cases hkeep
  · intro h g hg ha
    by_contra hkeep
    exact h ⟨g, hg, ha, by simpa using hkeep⟩

theorem find_foldl_erase (m : ClBuddiesMap) (removed : List Bytes) (k : Bytes) :
    (removed.foldl KeyMap.erase m).find? k = if k ∈ removed then none else m.find? k := by
  induction removed generalizing m with
  | nil => simp
  | cons a removed ih =>
    rw [List.foldl_cons, ih, KeyMap.find_erase]
    by_cases hk : k = a <;> simp [hk]

theorem find_foldl_put (m : ClBuddiesMap) (buddies : List ClBuddy) (k : Bytes) :
    ((buddies.foldl KeyMap.put m).find? k).isSome = true ↔
      (∃ b ∈ buddies, b.aimid = k) ∨ (m.find? k).isSome = true := by
  induction buddies generalizing m with
  | nil => simp
  | cons b buddies ih =>
    rw [List.foldl_cons, ih, KeyMap.find_put]
    by_cases hb : b.aimid = k <;> simp [hb]

namespace ContactList

@[simp] theorem setChangedStatus_groups (s : ContactList) (status : ChangedStatus) :
    (s.setChangedStatus status).groups = s.groups := by
  unfold setChangedStatus
  split <;> rfl

@[simp] theorem setChangedStatus_contactsIndex (s : ContactList) (status : ChangedStatus) :
    (s.setChangedStatus status).contactsIndex = s.contactsIndex := by
  unfold setChangedStatus
  split <;> rfl

/-- The index has exactly the buddies of the groups. -/
def InStep (s : ContactList) : Prop :=
  ∀ a, (s.contactsIndex.find? a).isSome = true ↔ Listed s.groups a

/-- Merging left the index in step, and reported exactly the contacts that left the list. -/
def Exact (s s' : ContactList) (removed : List Bytes) : Prop :=
  s'.InStep ∧ ∀ a, a ∈ removed ↔ Listed s.groups a ∧ ¬ Listed s'.groups a

/-- A contact that a difference of type `deleted` takes from all its groups is met once, and no
other contact is. -/
def Careful (s : ContactList) (type : DiffType) (diff : List DiffGroup) : Prop :=
  type = .deleted → ∀ a, Leaves s.groups diff a ↔ meetings s.groups [] diff a = 1

/-- Groups and index are the same. -/
def SameLists (s t : ContactList) : Prop := t.groups = s.groups ∧ t.contactsIndex = s.contactsIndex

theorem SameLists.trans {s t u : ContactList} (h : SameLists s t) (h' : SameLists t u) :
    SameLists s u := ⟨h'.1.trans h.1, h'.2.trans h.2⟩

theorem updatePresence_same (s : ContactList) (aimid : Bytes) (presence : ClPresence) :
    SameLists s (s.updatePresence aimid presence) := by
  unfold updatePresence
  split
  · exact ⟨rfl, rfl⟩
  · exact ⟨setChangedStatus_groups .., setChangedStatus_contactsIndex ..⟩

theorem updateGroup_same (s : ContactList) (d : DiffGroup) : SameLists s (s.updateGroup d) :=
  List.foldlRecOn d.buddies _ ⟨rfl, rfl⟩ fun t ht b _ => ht.trans (updatePresence_same t b.1 b.2)

theorem updated_same (s : ContactList) (diff : List DiffGroup) :
    SameLists s (s.mergeFromDiff .updated diff).1 := by
  have h : SameLists s (diff.foldl updateGroup s) :=
    List.foldlRecOn diff _ ⟨rfl, rfl⟩ fun t ht d _ => ht.trans (updateGroup_same t d)
  exact h.trans ⟨setChangedStatus_groups .., setChangedStatus_contactsIndex ..⟩

/-- Buddies that are put in the index and in groups keep the two in step. -/
theorem inStep_of_added {s t : ContactList} (h : s.InStep) (buddies : List ClBuddy)
    (hindex : t.contactsIndex = buddies.foldl KeyMap.put s.contactsIndex)
    (hgroups : ∀ a, Listed t.groups a ↔ (∃ b ∈ buddies, b.aimid = a) ∨ Listed s.groups a) :
    t.InStep := fun a => by rw [hindex, find_foldl_put, hgroups, h a]

theorem has_append (g : ClGroup) (buddies : List ClBuddy) (a : Bytes) :
    ({ g with buddies := g.buddies ++ buddies } : ClGroup).has a = true ↔
      (∃ b ∈ buddies, b.aimid = a) ∨ g.has a = true := by
  simp [ClGroup.has, List.any_append, or_comm]

theorem listed_append (groups groups' : List ClGroup) (a : Bytes) :
    Listed (groups ++ groups') a ↔ Listed groups a ∨ Listed groups' a := by
  simp [Listed, or_and_right, exists_or]

/-- Whom the groups list once buddies joined the groups of an id. -/
theorem listed_joined (groups : List ClGroup) (id : UInt32) (buddies : List ClBuddy) (a : Bytes) :
    Listed (groups.map fun g => if g.id = id then { g with buddies := g.buddies ++ buddies } else g)
        a ↔
      ((∃ g ∈ groups, g.id = id) ∧ ∃ b ∈ buddies, b.aimid = a) ∨ Listed groups a := by
  constructor
  · rintro ⟨g', hg', ha⟩
    obtain ⟨g, hg, rfl⟩ := List.mem_map.mp hg'
    split at ha
    · rename_i hid
      rcases (has_append g buddies a).mp ha with hb | ha
      · exact .inl ⟨⟨g, hg, hid⟩, hb⟩
      · exact .inr ⟨g, hg, ha⟩
    · exact .inr ⟨g, hg, ha⟩
  · rintro (⟨⟨g, hg, hid⟩, hb⟩ | ⟨g, hg, ha⟩)
    · refine ⟨_, List.mem_map_of_mem hg, ?_⟩
      rw [if_pos hid]
      exact (has_append g buddies a).mpr (.inl hb)
    · refine ⟨_, List.mem_map_of_mem hg, ?_⟩
      split
      · exact (has_append g buddies a).mpr (.inr ha)
      · exact ha

/-- The list is in step, and no contact left it. -/
def Grown (s t : ContactList) : Prop :=
  t.InStep ∧ ∀ a, Listed s.groups a → Listed t.groups a

theorem createGroup_grown {s : ContactList} (d : DiffGroup) (h : s.InStep) :
    s.Grown (s.createGroup d) := by
  obtain ⟨buddies, hbuddies⟩ : ∃ buddies, (s.makeBuddies d.buddies).1 = buddies := ⟨_, rfl⟩
  obtain ⟨groups, hgroups⟩ : ∃ groups, (if d.added then
    s.groups ++ [{ id := d.id, name := d.name }] else s.groups) = groups := ⟨_, rfl⟩
  have hlisted (a : Bytes) : Listed groups a ↔ Listed s.groups a := by
    rw [← hgroups]
    split
    · rw [listed_append]
      simp [Listed, ClGroup.has]
    · rfl
  have hg : (s.createGroup d).groups = groups.map fun g =>
      if g.id = d.id then { g with buddies := g.buddies ++ buddies } else g := by
    rw [← hgroups, ← hbuddies]
    rfl
  have hi : (s.createGroup d).contactsIndex = if groups.any (·.id = d.id) then
      buddies.foldl KeyMap.put s.contactsIndex else s.contactsIndex := by
    have hs : (s.createGroup d).contactsIndex =
        (if groups.any (·.id = d.id) then (s.makeBuddies d.buddies).2.indexBuddies buddies
          else (s.makeBuddies d.buddies).2).contactsIndex := by
      rw [← hgroups, ← hbuddies]
      rfl
    rw [hs]
    split <;> rfl
  have hany : groups.any (·.id = d.id) = true ↔ ∃ g ∈ groups, g.id = d.id := by simp
  refine ⟨fun a => ?_, fun a ha => ?_⟩
  · rw [hg, hi, listed_joined, hlisted, ← hany, ← h a]
    split
    · rename_i hm
      rw [find_foldl_put]
      simp [hm]
    · rename_i hm
      simp [hm]
  · rw [hg, listed_joined, hlisted]
    exact .inr ha

theorem created_grown {s : ContactList} (diff : List DiffGroup) (h : s.InStep) :
    s.Grown (s.mergeFromDiff .created diff).1 := by
  have hfold : s.Grown (diff.foldl createGroup s) :=
    List.foldlRecOn diff _ (show s.Grown s from ⟨h, fun _ ha => ha⟩) fun t ht d _ =>
      have hd := createGroup_grown d ht.1
      ⟨hd.1, fun a ha => hd.2 a (ht.2 a ha)⟩
  simpa [Grown, InStep, mergeFromDiff] using hfold

theorem deleted_exact_iff {s : ContactList} (diff : List DiffGroup) (h : s.InStep) :
    s.Exact (s.mergeFromDiff .deleted diff).1 (s.mergeFromDiff .deleted diff).2 ↔
      ∀ a, Leaves s.groups diff a ↔ meetings s.groups [] diff a = 1 := by
  obtain ⟨hgroups, hcount⟩ := deleteGroups_spec s diff
  have hg : (s.mergeFromDiff .deleted diff).1.groups = s.groups.filterMap (trim diff) := by
    simp [mergeFromDiff, hgroups]
  have hr (a : Bytes) : a ∈ (s.mergeFromDiff .deleted diff).2 ↔
      meetings s.groups [] diff a = 1 := by
    rw [← hcount]
    exact Counts.mem_once_iff _ a
  have hi (a : Bytes) : ((s.mergeFromDiff .deleted diff).1.contactsIndex.find? a).isSome = true ↔
      meetings s.groups [] diff a ≠ 1 ∧ Listed s.groups a := by
    have hfind : (s.mergeFromDiff .deleted diff).1.contactsIndex.find? a =
        if a ∈ (s.mergeFromDiff .deleted diff).2 then none else s.contactsIndex.find? a := by
      simp only [mergeFromDiff, setChangedStatus_contactsIndex]
      exact find_foldl_erase ..
    rw [hfind, ← h a, ne_eq, ← hr]
    by_cases hm : a ∈ (s.mergeFromDiff .deleted diff).2
    · rw [if_pos hm]
      exact iff_of_false (by simp) fun hn => hn.1 hm
    · rw [if_neg hm]
      exact ⟨fun hs => ⟨hm, hs⟩, And.right⟩
  simp only [Exact, InStep, hg, hr, hi, leaves_iff]
  constructor
  · rintro ⟨-, hremoved⟩ a
    exact (hremoved a).symm
  · intro hmet
    refine ⟨fun a => ?_, fun a => (hmet a).symm⟩
    rw [ne_eq, ← hmet a]
    have hsub : Listed (s.groups.filterMap (trim diff)) a → Listed s.groups a := fun ha =>
      let ⟨g, hg, hhas, _⟩ := (listed_trim_iff ..).mp ha
      ⟨g, hg, hhas⟩
    tauto

/-- One merge: the index stays in step and the removed contacts are reported just when the merge
is careful. -/
theorem merge_exact_iff {s : ContactList} (type : DiffType) (diff : List DiffGroup)
    (h : s.InStep) :
    s.Exact (s.mergeFromDiff type diff).1 (s.mergeFromDiff type diff).2 ↔ s.Careful type diff := by
  have hsame {t : ContactList} (ht : SameLists s t) : s.Exact t [] := by
    refine ⟨fun a => by rw [ht.1, ht.2, h a], fun a => ?_⟩
    simp [ht.1]
  cases type with
  | created =>
    obtain ⟨hin, hmono⟩ := created_grown diff h
    refine iff_of_true ⟨hin, fun a => ?_⟩ (by simp [Careful])
    exact iff_of_false (by simp [mergeFromDiff]) fun ⟨ha, hn⟩ => hn (hmono a ha)
  | updated => exact iff_of_true (hsame (updated_same s diff)) (by simp [Careful])
  | deleted => exact (deleted_exact_iff diff h).trans ⟨fun hmet _ => hmet, fun hc => hc rfl⟩
  | other => exact iff_of_true (hsame ⟨rfl, rfl⟩) (by simp [Careful])

theorem unserializeGroup_inStep {s : ContactList} (node : GroupNode) (h : s.InStep) :
    (s.unserializeGroup node).InStep := by
  unfold unserializeGroup
  split
  · exact h
  · rename_i id _
    refine inStep_of_added h (s.makeBuddies (readBuddies node.buddies)).1 rfl fun a => ?_
    have hlast : Listed [{ id, name := node.name
                           buddies := (s.makeBuddies (readBuddies node.buddies)).1 }] a ↔
        ∃ b ∈ (s.makeBuddies (readBuddies node.buddies)).1, b.aimid = a := by
      simp [Listed, ClGroup.has]
    exact (listed_append ..).trans ((or_congr_right hlast).trans or_comm)

theorem unserialize_inStep (nodes : List GroupNode) (ignorelist : List Bytes) :
    (unserialize nodes ignorelist).InStep := by
  have hempty : ({} : ContactList).InStep := fun a => by simp [Listed, KeyMap.find?]
  exact List.foldlRecOn nodes unserializeGroup hempty fun _ h node _ =>
    unserializeGroup_inStep node h

/-- While the merges are careful the index is in step, and the first that is not puts it out of
step or reports other contacts than those that left. -/
theorem run_exact_iff {nodes : List GroupNode} {ignorelist : List Bytes} {s : ContactList}
    (h : Run (fun s (merge : DiffType × List DiffGroup) =>
        some (s.mergeFromDiff merge.1 merge.2).1) (fun s merge => s.Careful merge.1 merge.2)
      (unserialize nodes ignorelist) s) :
    s.InStep ∧ ∀ type diff,
      s.Exact (s.mergeFromDiff type diff).1 (s.mergeFromDiff type diff).2 ↔
        s.Careful type diff := by
  have hs : s.InStep := by
    refine h.invariant (P := InStep) (unserialize_inStep nodes ignorelist) fun ht hc hstep => ?_
    exact Option.some.inj hstep ▸ ((merge_exact_iff _ _ ht).mpr hc).1
  exact ⟨hs, fun type diff => merge_exact_iff type diff hs⟩

/-- Two groups with one contact each of their own, and one that stands in both. -/
def twoGroups : List GroupNode :=
  [{ id := some 1, buddies := [⟨some [1], {}⟩, ⟨some [3], {}⟩] },
    { id := some 2, buddies := [⟨some [2], {}⟩, ⟨some [3], {}⟩] }]

/-- The contact of its own leaves the first group. -/
def deleteFirst : List DiffGroup := [⟨1, [], [([1], {})], false, false⟩]

theorem deleteFirst_careful : (unserialize twoGroups []).Careful .deleted deleteFirst := by
  intro _ a
  have hgroups : (unserialize twoGroups []).groups =
      [⟨1, [], [⟨0, [1]⟩, ⟨1, [3]⟩]⟩, ⟨2, [], [⟨2, [2]⟩, ⟨3, [3]⟩]⟩] := rfl
  rw [hgroups, leaves_iff, listed_trim_iff]
  by_cases h1 : a = [1]
  · subst h1
    simp [Listed, ClGroup.has, meetings, trim, dropped, cleared, meets, deleteFirst, DiffGroup.names]
  by_cases h2 : a = [2]
  · subst h2
    simp [Listed, ClGroup.has, meetings, trim, dropped, cleared, meets, deleteFirst, DiffGroup.names]
  by_cases h3 : a = [3]
  · subst h3
    simp [Listed, ClGroup.has, meetings, trim, dropped, cleared, meets, deleteFirst, DiffGroup.names]
  · refine iff_of_false (fun hl => ?_) ?_
    · obtain ⟨g, hg, ha⟩ := hl.1
      simp only [List.mem_cons, List.not_mem_nil, or_false] at hg
      rcases hg with rfl | rfl <;> simp [ClGroup.has, Ne.symm h1, Ne.symm h2, Ne.symm h3] at ha
    · simp [meetings, trim, dropped, meets, deleteFirst, ClGroup.has, DiffGroup.names, Ne.symm h1,
        Ne.symm h2, Ne.symm h3]

theorem run_exact_iff_two_groups :
    let s := ((unserialize twoGroups []).mergeFromDiff .deleted deleteFirst).1
    s.InStep ∧ ∀ type diff,
      s.Exact (s.mergeFromDiff type diff).1 (s.mergeFromDiff type diff).2 ↔ s.Careful type diff := by
  intro s
  exact run_exact_iff (.step (DiffType.deleted, deleteFirst) .start deleteFirst_careful rfl)

/-- A contact that leaves both its groups is met twice, and stays in the index. -/
theorem contact_of_two_groups_stays_indexed :
    ¬ ∀ (nodes : List GroupNode) (s : ContactList),
      Run (fun s (merge : DiffType × List DiffGroup) => some (s.mergeFromDiff merge.1 merge.2).1)
        (fun _ _ => True) (unserialize nodes []) s → s.InStep := by
  intro h
  let diff : List DiffGroup := [⟨1, [], [([3], {})], false, false⟩, ⟨2, [], [([3], {})], false, false⟩]
  have hs := h twoGroups _ (.step (DiffType.deleted, diff) .start trivial rfl)
  have hl : ¬ Listed [⟨1, [], [⟨0, [1]⟩]⟩, ⟨2, [], [⟨2, [2]⟩]⟩] [3] := by
    simp [Listed, ClGroup.has]
  exact hl ((hs [3]).mp (by decide))

end ContactList

end Icq.Wim
