import Icq.Archive.GallerySorted
import Icq.Lib.Greatest
import Mathlib.Data.List.TakeWhile

/-! How many items a gallery keeps of its own and the server's, and which. -/

namespace Icq.Archive
open Icq.Lib

section Arrivals

variable {α : Type} [LinearOrder α] {room : Nat} {crowd late kept : Finset α} {x : α}

/-- One more comes to those who are kept. In front of all of them it stays whether there is room
or not. -/
def arrive (room : Nat) (kept : Finset α) (x : α) : Finset α :=
  if x ∈ kept then kept
  else if ∀ k ∈ kept, x < k then insert x kept
  else greatest room (insert x kept)

/-- Those who stay though they are not among the greatest of all who came: they came in front of
everybody, and since then nobody came between. -/
def lateComers (room : Nat) : Finset α → Finset α → List α → Finset α
  | _, late, [] => late
  | crowd, late, x :: rest =>
    let kept := greatest room crowd ∪ late
    lateComers room (insert x crowd)
      (if x ∈ kept then late
        else if ∀ k ∈ kept, x < k then if crowd.card < room then late else insert x late
        else ∅) rest

structure Late (room : Nat) (crowd late : Finset α) : Prop where
  subset : late ⊆ crowd
  apart : ∀ y ∈ late, y ∉ greatest room crowd

namespace Late

theorem empty (room : Nat) (crowd : Finset α) : Late room crowd ∅ where
  subset := Finset.empty_subset crowd
  apart y hy := absurd hy (Finset.notMem_empty y)

/-- While there is room nobody is late. -/
theorem eq_empty (h : Late room crowd late) (hroom : crowd.card ≤ room) : late = ∅ := by
  refine Finset.eq_empty_of_forall_notMem fun y hy => h.apart y hy ?_
  rw [greatest_of_room hroom]
  exact h.subset hy

theorem kept_subset (h : Late room crowd late) : greatest room crowd ∪ late ⊆ crowd :=
  Finset.union_subset (greatest_subset room crowd) h.subset

end Late

/-- Of all who came the greatest are kept, and those who came late. -/
theorem foldl_arrive (h : Late room crowd late) (l : List α) :
    l.foldl (arrive room) (greatest room crowd ∪ late) =
        greatest room (crowd ∪ l.toFinset) ∪ lateComers room crowd late l ∧
      Late room (crowd ∪ l.toFinset) (lateComers room crowd late l) := by
  induction l generalizing crowd late with
  | nil =>
    rw [List.toFinset_nil, Finset.union_empty]
    exact ⟨rfl, h⟩
  | cons x l ih =>
    have hcrowd : crowd ∪ (x :: l).toFinset = insert x crowd ∪ l.toFinset := by
      rw [List.toFinset_cons, Finset.union_insert, Finset.insert_union]
    rw [hcrowd, List.foldl_cons, lateComers]
    by_cases hin : x ∈ greatest room crowd ∪ late
    · have hsame : insert x crowd = crowd := Finset.insert_eq_of_mem (h.kept_subset hin)
      rw [arrive, if_pos hin, if_pos hin, hsame]
      exact ih h
    rw [arrive, if_neg hin, if_neg hin]
    by_cases hfront : ∀ k ∈ greatest room crowd ∪ late, x < k
    · rw [if_pos hfront, if_pos hfront]
      by_cases hroom : crowd.card < room
      · obtain rfl := h.eq_empty (Nat.le_of_lt hroom)
        have hall : greatest room crowd = crowd := greatest_of_room (Nat.le_of_lt hroom)
        have hmore : greatest room (insert x crowd) = insert x crowd :=
          greatest_of_room (le_trans (Finset.card_insert_le x crowd) hroom)
        have hnext := ih (Late.empty room (insert x crowd))
        rw [hmore] at hnext
        rw [if_pos hroom, hall, Finset.union_empty]
        rwa [Finset.union_empty] at hnext
      · have hgreatest : greatest room (insert x crowd) = greatest room crowd :=
          greatest_insert_full (Nat.le_of_not_lt hroom)
            fun k hk => hfront k (Finset.mem_union_left _ hk)
        have hlate : Late room (insert x crowd) (insert x late) := by
          refine ⟨Finset.insert_subset_insert x h.subset, fun y hy => ?_⟩
          rw [hgreatest]
          rcases Finset.mem_insert.mp hy with rfl | hy
          · exact fun hm => hin (Finset.mem_union_left _ hm)
          · exact h.apart y hy
        have hnext := ih hlate
        rw [hgreatest, Finset.union_insert] at hnext
        rwa [if_neg hroom]
    · have hnext := ih (Late.empty room (insert x crowd))
      rw [Finset.union_empty] at hnext
      rwa [if_neg hfront, if_neg hfront,
        greatest_insert_kept Finset.subset_union_left h.kept_subset]

/-- Who is in a list. -/
def crowdOf (l : List α) : Finset α := l.toFinset

@[simp] theorem mem_crowdOf {l : List α} : x ∈ crowdOf l ↔ x ∈ l := List.mem_toFinset

theorem crowdOf_cons (x : α) (l : List α) : crowdOf (x :: l) = insert x (crowdOf l) :=
  List.toFinset_cons

theorem card_crowdOf {l : List α} (h : l.Nodup) : (crowdOf l).card = l.length :=
  List.toFinset_card_of_nodup h

theorem card_crowdOf_le (l : List α) : (crowdOf l).card ≤ l.length :=
  List.toFinset_card_le l

theorem card_insert_crowdOf {l : List α} (hx : x ∉ crowdOf l) (h : l.Nodup) :
    (insert x (crowdOf l)).card = l.length + 1 := by
  rw [Finset.card_insert_of_notMem hx, card_crowdOf h]

/-- Nobody is late where the only one who comes is not in front of everybody. -/
theorem lateComers_behind {old : List α} {k : α} (hold : old.length ≤ room) (hk : k ∈ old)
    (hlt : k < x) : lateComers room (crowdOf old) ∅ [x] = ∅ := by
  have hkept : k ∈ greatest room (crowdOf old) ∪ ∅ := by
    rw [greatest_of_room ((card_crowdOf_le old).trans hold), Finset.union_empty]
    exact mem_crowdOf.mpr hk
  have hbehind : ¬ ∀ c ∈ greatest room (crowdOf old) ∪ ∅, x < c :=
    fun hfront => lt_asymm hlt (hfront k hkept)
  simp only [lateComers, if_neg hbehind, ite_self]

/-- Of those who were there, for all of whom there was room, and of those who came then, the
greatest are kept, and those who came late. -/
theorem mem_foldl_arrive {old : List α} (hold : old.length ≤ room) (l : List α) :
    (∀ x, x ∈ l.foldl (arrive room) (crowdOf old) ↔
        x ∈ greatest room (crowdOf (old ++ l)) ∨ x ∈ lateComers room (crowdOf old) ∅ l) ∧
      Late room (crowdOf (old ++ l)) (lateComers room (crowdOf old) ∅ l) := by
  have hcrowd : crowdOf (old ++ l) = crowdOf old ∪ l.toFinset := List.toFinset_append
  have hroom : greatest room (crowdOf old) ∪ ∅ = crowdOf old := by
    have hcard : (crowdOf old).card ≤ room := le_trans old.toFinset_card_le hold
    rw [Finset.union_empty, greatest_of_room hcard]
  obtain ⟨hkept, hlate⟩ := foldl_arrive (Late.empty room (crowdOf old)) l
  rw [hroom] at hkept
  rw [hcrowd, hkept]
  exact ⟨fun x => Finset.mem_union, hlate⟩

/-- Those who are kept fit if there are no more late ones than leave of the greatest. -/
theorem length_le_iff {top : Finset α} {kept : List α} {f : α → Bool} (hnodup : kept.Nodup)
    (hkept : ∀ x, x ∈ kept ↔ (x ∈ top ∨ x ∈ late) ∧ f x = false)
    (happart : ∀ y ∈ late, y ∉ top) (htop : top.card ≤ room) (hfull : late ≠ ∅ → top.card = room) :
    kept.length ≤ room ↔
      (late.filter fun x => f x = false).card ≤ (top.filter fun x => f x = true).card := by
  have hunion : kept.toFinset =
      (top.filter fun x => f x = false) ∪ late.filter fun x => f x = false := by
    ext x
    simp only [List.mem_toFinset, Finset.mem_union, Finset.mem_filter, hkept]
    tauto
  have hdisjoint : Disjoint (top.filter fun x => f x = false)
      (late.filter fun x => f x = false) := by
    refine Finset.disjoint_left.mpr fun x hx hx' => ?_
    exact happart x (Finset.mem_filter.mp hx').1 (Finset.mem_filter.mp hx).1
  have hlength : kept.length =
      (top.filter fun x => f x = false).card + (late.filter fun x => f x = false).card := by
    rw [← List.toFinset_card_of_nodup hnodup, hunion, Finset.card_union_of_disjoint hdisjoint]
  have hsplit : (top.filter fun x => f x = true).card + (top.filter fun x => f x = false).card =
      top.card := by
    have hnot := Finset.card_filter_add_card_filter_not (s := top) (fun x => f x = true)
    simpa only [Bool.not_eq_true] using hnot
  by_cases hnone : late = ∅
  · subst hnone
    rw [Finset.filter_empty, Finset.card_empty] at hlength ⊢
    omega
  · have hroom := hfull hnone
    omega

/-- Where those that satisfy `p` come last, leaving out the others in front is leaving out all. -/
theorem dropWhile_not_eq_filter {β : Type} {p : β → Bool} {l : List β}
    (h : l.Pairwise fun a b => p a = true → p b = true) :
    l.dropWhile (fun a => !p a) = l.filter p := by
  induction l with
  | nil => rfl
  | cons a l ih =>
    obtain ⟨ha, hl⟩ := List.pairwise_cons.mp h
    by_cases hp : p a = true
    · rw [List.dropWhile_cons_of_neg (by simp [hp]), List.filter_cons_of_pos hp,
        List.filter_eq_self.mpr fun b hb => ha b hb hp]
    · rw [List.dropWhile_cons_of_pos (by simp [hp]), List.filter_cons_of_neg hp, ih hl]

/-- In a list in ascending order one more is put into its place, and the least leave while there is
no room. -/
theorem crowdOf_insert_drop {l before after : List α} (h : (before ++ x :: after).Pairwise (· < ·))
    (hl : before ++ after = l) :
    crowdOf ((before ++ x :: after).drop ((before ++ x :: after).length - room)) =
      greatest room (insert x (crowdOf l)) := by
  have hcrowd : (before ++ x :: after).toFinset = insert x (crowdOf l) := by
    subst hl
    ext y
    simp only [crowdOf, List.mem_toFinset, List.mem_append, List.mem_cons, Finset.mem_insert]
    tauto
  rw [crowdOf, toFinset_drop_ascending h, hcrowd]

end Arrivals

namespace GalleryStorage

variable {s other : GalleryStorage} {items : List GalleryItem} {from_ till : GalleryEntryId}

/-- One item of the server comes to the others. -/
theorem Insertion.add_arrives {r : Insertion} (h : Ascending r.items) (hole : Bool)
    (i : GalleryItem) : crowdOf (ids (r.add hole i).items) =
      arrive maxItemsSize (crowdOf (ids r.items)) i.id := by
  have hmem : i.id ∈ crowdOf (ids r.items) ↔ r.items.any (·.id = i.id) = true := by
    rw [mem_crowdOf, ids, List.mem_map, List.any_eq_true]
    exact exists_congr fun item => and_congr_right fun _ => decide_eq_true_iff.symm
  unfold Insertion.add arrive
  by_cases hin : r.items.any (·.id = i.id) = true
  · rw [if_pos hin, if_pos (hmem.mpr hin)]
  rw [if_neg hin, if_neg (mt hmem.mp hin)]
  have hnew : i.id ∉ ids r.items := fun hi => hin (hmem.mp (mem_crowdOf.mpr hi))
  have hinsert := pairwise_insert h hnew
  dsimp only
  split
  · rename_i hnil
    rw [hnil, if_pos (by simp [ids])]
    rfl
  rename_i first rest hitems
  have hleast : i.id.lessThan first.id = true ↔ ∀ k ∈ crowdOf (ids r.items), i.id < k := by
    rw [GalleryEntryId.lessThan_iff]
    constructor
    · intro hlt k hk
      rw [Ascending, hitems] at h
      rw [mem_crowdOf, hitems] at hk
      rcases List.mem_cons.mp hk with rfl | hk
      · exact hlt
      · exact lt_trans hlt ((List.pairwise_cons.mp h).1 k hk)
    · intro hall
      refine hall first.id ?_
      rw [mem_crowdOf, hitems]
      exact List.mem_cons_self
  split
  · rename_i hlt
    rw [if_pos (hleast.mp hlt), hitems]
    exact crowdOf_cons i.id (ids (first :: rest))
  · rename_i hlt
    rw [if_neg (mt hleast.mpr hlt), ids, List.map_drop, ← ids,
      ← List.length_map (f := GalleryItem.id), ← ids, ids_inserted rfl]
    · exact crowdOf_insert_drop hinsert List.takeWhile_append_dropWhile
    · split
      · rfl
      · exact ids_linkLast _ _

theorem foldl_add_arrives {r : Insertion} (h : Ascending r.items) (hole : Bool)
    (l : List GalleryItem) : crowdOf (ids (l.foldl (Insertion.add hole) r).items) =
      (ids l).foldl (arrive maxItemsSize) (crowdOf (ids r.items)) := by
  induction l generalizing r with
  | nil => rfl
  | cons i l ih =>
    refine (ih (Insertion.add_ascending h hole i)).trans ?_
    rw [Insertion.add_arrives h]
    rfl

@[simp] theorem ids_cons (item : GalleryItem) (items : List GalleryItem) :
    ids (item :: items) = item.id :: ids items := rfl

/-- The old items that the server did not delete. -/
def remaining (s other : GalleryStorage) : List GalleryEntryId :=
  (ids s.items).filter fun id => other.delUpTo = -1 || decide (other.delUpTo < id.msgId)

theorem ids_eraseUpTo_eq (h : Ascending s.items) :
    ids (s.eraseUpTo other.delUpTo).items = remaining s other := by
  unfold eraseUpTo remaining
  split
  · rename_i hnone
    simp [hnone]
  · rename_i hsome
    have hup : (ids s.items).Pairwise fun a b => decide (other.delUpTo < a.msgId) = true →
        decide (other.delUpTo < b.msgId) = true := by
      refine List.Pairwise.imp (fun hab ha => ?_) h
      refine decide_eq_true (lt_of_lt_of_le (of_decide_eq_true ha) ?_)
      rcases GalleryEntryId.lt_iff.mp hab with hlt | ⟨heq, -⟩
      · exact le_of_lt hlt
      · exact le_of_eq heq
    simp only [hsome, decide_false, Bool.false_or]
    rw [← dropWhile_not_eq_filter hup]
    exact (List.dropWhile_map (f := GalleryItem.id)
      (p := fun id => !decide (other.delUpTo < id.msgId)) (l := s.items)).symm

/-- What a merge takes away again: the entries of a message with a patch, and an end of what was
asked for that was not sent again. -/
def erased (other : GalleryStorage) (from_ till id : GalleryEntryId) : Bool :=
  other.patches.any (fun p => id.msgId = p.msgId) ||
    (!from_.empty && !other.contains from_ && decide (id = from_)) ||
    (decide (other.items.length < 1000) && !till.empty && !other.contains till &&
      decide (id = till))

theorem ids_applyPatch_eq (p : GalleryPatch) (before items : List GalleryItem) :
    ids (applyPatch p before items) =
      ids before ++ (ids items).filter (fun id => !decide (id.msgId = p.msgId)) := by
  induction items generalizing before with
  | nil => exact (List.append_nil _).symm
  | cons item items ih =>
    unfold applyPatch
    split
    · rename_i hid
      have hbefore : ids (if p.type = "del" then linkLast (firstId items) before else before) =
          ids before := by
        split
        · exact ids_linkLast _ _
        · rfl
      rw [ih, hbefore, ids_cons, List.filter_cons_of_neg (by simp [hid])]
    · rename_i hid
      rw [ih, ids_append, List.append_assoc, ids_cons item items,
        List.filter_cons_of_pos (by simp [hid])]
      rfl

theorem ids_applyPatches (patches : List GalleryPatch) : ids (s.applyPatches patches).items =
    (ids s.items).filter fun id => !patches.any fun p => id.msgId = p.msgId := by
  show ids (patches.foldl (fun items p => applyPatch p [] items) s.items) = _
  generalize s.items = items
  induction patches generalizing items with
  | nil => simp
  | cons p patches ih =>
    have hnil : ids [] = [] := rfl
    rw [List.foldl_cons, ih, ids_applyPatch_eq, hnil, List.nil_append, List.filter_filter]
    refine List.filter_congr fun id _ => ?_
    rw [List.any_cons, Bool.not_or, Bool.and_comm]

theorem ids_eraseItem_eq (h : Ascending s.items) (id : GalleryEntryId) :
    ids (s.eraseItem id).items = (ids s.items).filter (fun a => !decide (a = id)) := by
  have hsplit := List.takeWhile_append_dropWhile (p := fun item : GalleryItem => item.id ≠ id)
    (l := s.items)
  have hbefore : ∀ a ∈ ids (s.items.takeWhile fun item => item.id ≠ id), a ≠ id := by
    intro a ha
    obtain ⟨item, hitem, rfl⟩ := List.mem_map.mp ha
    simpa using List.mem_takeWhile_imp hitem
  have hfound : ∀ found after, s.items.dropWhile (fun item => item.id ≠ id) = found :: after →
      found.id = id := by
    intro found after hd
    have hhead := List.head?_dropWhile_not (fun item : GalleryItem => decide (item.id ≠ id)) s.items
    rw [hd] at hhead
    simpa using hhead
  unfold eraseItem
  dsimp only
  generalize s.items.takeWhile (fun item => item.id ≠ id) = front at hsplit hbefore ⊢
  generalize s.items.dropWhile (fun item => item.id ≠ id) = back at hsplit hfound ⊢
  cases back with
  | nil =>
    rw [List.append_nil] at hsplit
    rw [hsplit] at hbefore
    exact (List.filter_eq_self.mpr fun a ha => by simp [hbefore a ha]).symm
  | cons found after =>
    have hids : ids s.items = ids front ++ id :: ids after := by
      rw [← hsplit, ids_append, ids_cons, hfound found after rfl]
    have hafter : ∀ a ∈ ids after, a ≠ id := by
      rw [Ascending, hids] at h
      have hlater := (List.pairwise_cons.mp (List.pairwise_append.mp h).2.1).1
      exact fun a ha => ne_of_gt (hlater a ha)
    have hfilter : (ids s.items).filter (fun a => !decide (a = id)) = ids front ++ ids after := by
      rw [hids, List.filter_append, List.filter_cons_of_neg (by simp),
        List.filter_eq_self.mpr fun a ha => by simp [hbefore a ha],
        List.filter_eq_self.mpr fun a ha => by simp [hafter a ha]]
    rw [hfilter]
    cases front with
    | nil => cases after <;> rfl
    | cons first front => exact (ids_append _ _).trans (by rw [ids_linkLast])

theorem ids_ite {p : Prop} [Decidable p] {f : GalleryEntryId → Bool} {s' : GalleryStorage}
    (h : ids s'.items = (ids s.items).filter fun id => !f id) :
    ids (if p then s' else s).items = (ids s.items).filter fun id => !(decide p && f id) := by
  split
  · rename_i hp
    simpa [hp] using h
  · rename_i hp
    simp [hp]

theorem ids_mergeFromServer (h : Ascending s.items) :
    ids (s.mergeFromServer other from_ till).1.items =
      (ids (other.items.foldl (Insertion.add ((s.eraseUpTo other.delUpTo).hole other till))
        { items := (s.eraseUpTo other.delUpTo).items }).items).filter
          fun id => !erased other from_ till id := by
  unfold mergeFromServer
  extract_lets erasedUpTo r added patched withoutFrom withoutTill joined marked
  have hold : Ascending erasedUpTo.items := ascending_sublist h (ids_eraseUpTo other.delUpTo)
  have hadded : added.items = r.items := items_markEntries _
  have hpatched : ids patched.items =
      (ids r.items).filter fun id => !other.patches.any fun p => id.msgId = p.msgId := by
    rw [← hadded]
    exact ids_applyPatches other.patches
  have hsorted : Ascending patched.items := by
    have hall : Ascending r.items :=
      foldl_add_ascending (r := { items := erasedUpTo.items }) hold _ other.items
    refine ascending_sublist hall ?_
    rw [hpatched]
    exact List.filter_sublist
  have hfrom : ids withoutFrom.items = _ := ids_ite (ids_eraseItem_eq hsorted from_)
  have hsorted' : Ascending withoutFrom.items := by
    refine ascending_sublist hsorted ?_
    rw [hfrom]
    exact List.filter_sublist
  have htill : ids withoutTill.items = _ := ids_ite (ids_eraseItem_eq hsorted' till)
  have hjoined : ids joined.items = ids withoutTill.items := by
    unfold joined
    split
    · exact ids_relink from_ till false [] withoutTill.items
    · rfl
  have hlast : ∀ state : GalleryState, ids (if joined.state.patchVersion = other.state.patchVersion
      then joined else { joined with state }).items = ids joined.items := by
    intro state
    split
    · rfl
    · rfl
  refine (hlast _).trans ?_
  rw [hjoined, htill, hfrom, hpatched, List.filter_filter, List.filter_filter]
  refine List.filter_congr fun id _ => ?_
  rw [erased]
  simp only [Bool.not_or, Bool.decide_eq_true]
  ac_rfl

/-- The ids there are to keep: those of the old items that the server did not delete, and those of
its new ones. -/
def candidates (s other : GalleryStorage) : Finset GalleryEntryId :=
  crowdOf (remaining s other ++ ids other.items)

/-- No more are kept than there is room for, all of them candidates that were not erased, and none
of these that is greater than one of them is missing. -/
structure KeepsGreatest (s other : GalleryStorage) (from_ till : GalleryEntryId)
    (kept : List GalleryEntryId) : Prop where
  length_le : kept.length ≤ maxItemsSize
  mem : ∀ id ∈ kept, id ∈ candidates s other ∧ erased other from_ till id = false
  above : ∀ id ∈ kept, ∀ c ∈ candidates s other, erased other from_ till c = false → id < c →
    c ∈ kept

/-- The new items that stay though they are not among the greatest. -/
def latecomers (s other : GalleryStorage) : Finset GalleryEntryId :=
  lateComers maxItemsSize (crowdOf (remaining s other)) ∅ (ids other.items)

/-- For each late item that is not erased one of the greatest is, and none that is not erased is
missing above one. -/
structure LateFit (s other : GalleryStorage) (from_ till : GalleryEntryId) : Prop where
  card_le : ((latecomers s other).filter fun id => erased other from_ till id = false).card ≤
    ((greatest maxItemsSize (candidates s other)).filter fun id =>
      erased other from_ till id = true).card
  above : ∀ y ∈ latecomers s other, erased other from_ till y = false →
    ∀ c ∈ candidates s other, erased other from_ till c = false → y < c →
      c ∈ greatest maxItemsSize (candidates s other) ∨ c ∈ latecomers s other

theorem length_remaining_le (h : s.items.length ≤ maxItemsSize) :
    (remaining s other).length ≤ maxItemsSize := by
  refine le_trans (List.length_filter_le _ _) ?_
  rwa [ids, List.length_map]

/-- The greatest of the old and the new items stay, and the latecomers, without those that are
erased. -/
theorem mem_mergeFromServer (h : Ascending s.items) (hsize : s.items.length ≤ maxItemsSize)
    (id : GalleryEntryId) : id ∈ ids (s.mergeFromServer other from_ till).1.items ↔
      (id ∈ greatest maxItemsSize (candidates s other) ∨ id ∈ latecomers s other) ∧
        erased other from_ till id = false := by
  have hold : Ascending (s.eraseUpTo other.delUpTo).items :=
    ascending_sublist h (ids_eraseUpTo other.delUpTo)
  have hroom : (remaining s other).length ≤ maxItemsSize := length_remaining_le hsize
  have hkept := (mem_foldl_arrive hroom (ids other.items)).1 id
  rw [ids_mergeFromServer h, List.mem_filter, ← mem_crowdOf, foldl_add_arrives hold,
    ids_eraseUpTo_eq h, hkept, Bool.not_eq_true']
  rfl

/-- A merge keeps the greatest of what there is, and no more than there is room for, if and only if
the latecomers fit. -/
theorem mergeFromServer_keepsGreatest_iff (h : Ascending s.items)
    (hsize : s.items.length ≤ maxItemsSize) (other : GalleryStorage)
    (from_ till : GalleryEntryId) :
    KeepsGreatest s other from_ till (ids (s.mergeFromServer other from_ till).1.items) ↔
      LateFit s other from_ till := by
  have hroom : (remaining s other).length ≤ maxItemsSize := length_remaining_le hsize
  have hlate : Late maxItemsSize (candidates s other) (latecomers s other) :=
    (mem_foldl_arrive hroom (ids other.items)).2
  have hkept : ∀ id, id ∈ ids (s.mergeFromServer other from_ till).1.items ↔
      (id ∈ greatest maxItemsSize (candidates s other) ∨ id ∈ latecomers s other) ∧
        erased other from_ till id = false := mem_mergeFromServer h hsize
  have hnodup : (ids (s.mergeFromServer other from_ till).1.items).Nodup :=
    (mergeFromServer_ascending h from_ till).imp ne_of_lt
  generalize ids (s.mergeFromServer other from_ till).1.items = kept at hkept hnodup ⊢
  have hcard : (greatest maxItemsSize (candidates s other)).card ≤ maxItemsSize := by
    rw [card_greatest]
    exact Nat.min_le_left _ _
  have hfull : latecomers s other ≠ ∅ →
      (greatest maxItemsSize (candidates s other)).card = maxItemsSize := by
    intro hne
    rw [card_greatest]
    exact Nat.min_eq_left (Nat.le_of_not_le fun hle => hne (hlate.eq_empty hle))
  have hlength := length_le_iff hnodup hkept hlate.apart hcard hfull
  constructor
  · intro hgreatest
    refine ⟨hlength.mp hgreatest.length_le, fun y hy hye c hc hce hlt => ?_⟩
    exact ((hkept c).mp (hgreatest.above y ((hkept y).mpr ⟨.inr hy, hye⟩) c hc hce hlt)).1
  · intro hfit
    refine ⟨hlength.mpr hfit.card_le, fun id hid => ?_, fun id hid c hc hce hlt => ?_⟩
    · obtain ⟨hin, hid⟩ := (hkept id).mp hid
      exact ⟨hin.elim (fun hin => greatest_subset _ _ hin) (fun hin => hlate.subset hin), hid⟩
    · obtain ⟨hin, hid⟩ := (hkept id).mp hid
      refine (hkept c).mpr ⟨?_, hce⟩
      rcases hin with hin | hin
      · exact .inl (mem_greatest_of_lt hin hc hlt)
      · exact hfit.above id hin hid c hc hce hlt

/-- A gallery without room, from the second message on. -/
def fullGallery : GalleryStorage :=
  { items := (List.range maxItemsSize).map fun k => { id := ⟨Int64.ofNat (k + 2), 0⟩ } }

theorem ids_fullGallery : ids fullGallery.items =
    (List.range maxItemsSize).map fun k => ⟨Int64.ofNat (k + 2), 0⟩ := by
  rw [ids, fullGallery, List.map_map]
  rfl

theorem toInt_ofNat {k : Nat} (h : k < maxItemsSize) : (Int64.ofNat (k + 2)).toInt = k + 2 := by
  rw [maxItemsSize] at h
  exact Int64.toInt_ofNat_of_lt (by omega)

theorem ascending_fullGallery : Ascending fullGallery.items := by
  rw [Ascending, ids_fullGallery, List.pairwise_map]
  refine List.Pairwise.imp_of_mem (fun ha hb hab => ?_) List.pairwise_lt_range
  rw [GalleryEntryId.lt_iff]
  refine .inl (Int64.lt_iff_toInt_lt.mpr ?_)
  rw [toInt_ofNat (List.mem_range.mp ha), toInt_ofNat (List.mem_range.mp hb)]
  omega

/-- The server sends the message behind all of them. -/
def nextMessage : GalleryStorage := { items := [{ id := ⟨20002, 0⟩ }] }

theorem lt_nextMessage {k : GalleryEntryId} (h : k ∈ ids fullGallery.items) : k < ⟨20002, 0⟩ := by
  rw [ids_fullGallery] at h
  obtain ⟨n, hn, rfl⟩ := List.mem_map.mp h
  refine GalleryEntryId.lt_iff.mpr (.inl (Int64.lt_iff_toInt_lt.mpr ?_))
  rw [toInt_ofNat (List.mem_range.mp hn)]
  have hsize := List.mem_range.mp hn
  rw [maxItemsSize] at hsize
  show (n : Int) + 2 < 20002
  omega

/-- Where there are too many the least of them is not kept. -/
theorem KeepsGreatest.least_left {other : GalleryStorage} {from_ till least : GalleryEntryId}
    {kept : List GalleryEntryId} (h : KeepsGreatest s other from_ till kept)
    (hcard : maxItemsSize < (candidates s other).card)
    (hnone : ∀ c ∈ candidates s other, erased other from_ till c = false)
    (hleast : ∀ c ∈ candidates s other, least ≤ c) : least ∉ kept := by
  intro hin
  have hall : candidates s other ⊆ crowdOf kept := by
    intro c hc
    rcases (hleast c hc).lt_or_eq with hlt | rfl
    · exact mem_crowdOf.mpr (h.above least hin c hc (hnone c hc) hlt)
    · exact mem_crowdOf.mpr hin
  have hle := (Finset.card_le_card hall).trans ((card_crowdOf_le kept).trans h.length_le)
  exact absurd hcard (not_lt.mpr hle)

/-- The newest message comes into a full gallery, and the oldest one leaves it. -/
theorem keepsGreatest_next :
    KeepsGreatest fullGallery nextMessage {} {}
        (ids (fullGallery.mergeFromServer nextMessage {} {}).1.items) ∧
      (⟨2, 0⟩ : GalleryEntryId) ∉
        ids (fullGallery.mergeFromServer nextMessage {} {}).1.items := by
  have hlength : fullGallery.items.length = maxItemsSize := by
    rw [fullGallery, List.length_map, List.length_range]
  have hold : remaining fullGallery nextMessage = ids fullGallery.items :=
    List.filter_eq_self.mpr fun _ _ => rfl
  have holdest : (⟨2, 0⟩ : GalleryEntryId) ∈ ids fullGallery.items := by
    rw [ids_fullGallery]
    exact List.mem_map.mpr ⟨0, List.mem_range.mpr (by decide), rfl⟩
  have hnolate : latecomers fullGallery nextMessage = ∅ :=
    lateComers_behind (length_remaining_le hlength.le) (hold ▸ holdest) (lt_nextMessage holdest)
  have hgreatest : KeepsGreatest fullGallery nextMessage {} {}
      (ids (fullGallery.mergeFromServer nextMessage {} {}).1.items) := by
    refine (mergeFromServer_keepsGreatest_iff ascending_fullGallery hlength.le _ {} {}).mpr ?_
    constructor <;> simp [hnolate]
  have hascending : (ids fullGallery.items ++ ids nextMessage.items).Pairwise (· < ·) := by
    refine List.pairwise_append.mpr ⟨ascending_fullGallery, List.pairwise_singleton _ _, ?_⟩
    intro k hk next hnext
    rw [List.mem_singleton.mp hnext]
    exact lt_nextMessage hk
  have hcandidates : candidates fullGallery nextMessage =
      crowdOf (ids fullGallery.items ++ ids nextMessage.items) := by rw [candidates, hold]
  refine ⟨hgreatest, hgreatest.least_left ?_ (fun _ _ => rfl) fun c hc => ?_⟩
  · rw [hcandidates, card_crowdOf (hascending.imp ne_of_lt), List.length_append, ids,
      List.length_map, hlength]
    exact Nat.lt_succ_self _
  · rw [hcandidates, mem_crowdOf, List.mem_append] at hc
    rcases hc with hc | hc
    · rw [ids_fullGallery] at hc
      obtain ⟨n, hn, rfl⟩ := List.mem_map.mp hc
      rcases Nat.eq_zero_or_pos n with rfl | hpos
      · exact le_refl _
      · refine le_of_lt (GalleryEntryId.lt_iff.mpr (.inl (Int64.lt_iff_toInt_lt.mpr ?_)))
        rw [toInt_ofNat (List.mem_range.mp hn)]
        show (2 : Int) < n + 2
        omega
    · rw [List.mem_singleton.mp hc]
      exact le_of_lt (lt_nextMessage holdest)

/-- An item in front of all makes a gallery longer, be it full or not. -/
theorem length_mergeFromServer_front {i : GalleryItem} (h : Ascending s.items)
    (hfront : ∀ k ∈ crowdOf (ids s.items), i.id < k) :
    (s.mergeFromServer { items := [i] } {} {}).1.items.length = s.items.length + 1 := by
  have hnew : i.id ∉ crowdOf (ids s.items) := fun hin => lt_irrefl _ (hfront _ hin)
  have hsame : s.eraseUpTo (-1) = s := if_pos rfl
  have hnone : ∀ id, (!erased { items := [i] } {} {} id) = true := fun _ => rfl
  have hids : ids (s.mergeFromServer { items := [i] } {} {}).1.items = _ := ids_mergeFromServer h
  rw [List.filter_eq_self.mpr fun id _ => hnone id, hsame] at hids
  have hcrowd : crowdOf (ids (s.mergeFromServer { items := [i] } {} {}).1.items) =
      arrive maxItemsSize (crowdOf (ids s.items)) i.id := by
    rw [hids]
    exact foldl_add_arrives (r := { items := s.items }) h _ [i]
  have hsorted : Ascending (s.mergeFromServer { items := [i] } {} {}).1.items :=
    mergeFromServer_ascending h {} {}
  rw [arrive, if_neg hnew, if_pos hfront] at hcrowd
  have hcard := card_insert_crowdOf hnew (h.imp ne_of_lt)
  rw [← hcrowd, card_crowdOf (hsorted.imp ne_of_lt), ids, List.length_map, ids,
    List.length_map] at hcard
  exact hcard

/-- The server sends the first message. -/
def firstMessage : GalleryStorage := { items := [{ id := ⟨1, 0⟩ }] }

/-- An item in front of a full gallery stays in it. -/
theorem older_item_over_the_bound :
    fullGallery.items.length = maxItemsSize ∧
      (fullGallery.mergeFromServer firstMessage {} {}).1.items.length = maxItemsSize + 1 := by
  have hlength : fullGallery.items.length = maxItemsSize := by
    rw [fullGallery, List.length_map, List.length_range]
  refine ⟨hlength, ?_⟩
  have hfront : ∀ k ∈ crowdOf (ids fullGallery.items), (⟨1, 0⟩ : GalleryEntryId) < k := by
    intro k hk
    rw [mem_crowdOf, ids_fullGallery] at hk
    obtain ⟨n, hn, rfl⟩ := List.mem_map.mp hk
    refine GalleryEntryId.lt_iff.mpr (.inl (Int64.lt_iff_toInt_lt.mpr ?_))
    rw [toInt_ofNat (List.mem_range.mp hn)]
    show (1 : Int) < n + 2
    omega
  rw [firstMessage, length_mergeFromServer_front ascending_fullGallery hfront, hlength]

end GalleryStorage

end Icq.Archive
