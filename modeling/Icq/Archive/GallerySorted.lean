import Icq.Archive.Gallery
import Icq.Lib.Run
import Icq.Lib.Sorting

/-! However the server's items come, the gallery stays in order. -/

namespace Icq.Archive
open Icq.Lib

def ids (items : List GalleryItem) : List GalleryEntryId := items.map GalleryItem.id

/-- By message and place in it, and no entry twice. -/
def Ascending (items : List GalleryItem) : Prop := (ids items).Pairwise (· < ·)

namespace GalleryStorage

variable {s s' other : GalleryStorage} {items items' before : List GalleryItem}

theorem ascending_sublist (h : Ascending items) (hs : (ids items').Sublist (ids items)) :
    Ascending items' := List.Pairwise.sublist hs h

theorem ascending_drop (n : Nat) (h : Ascending items) : Ascending (items.drop n) :=
  ascending_sublist h ((List.drop_sublist n items).map _)

@[simp] theorem ids_linkLast (next : GalleryEntryId) (items : List GalleryItem) :
    ids (linkLast next items) = ids items := by
  unfold linkLast
  split
  · rfl
  · rename_i last hlast
    have hitems := List.dropLast_append_getLast? last hlast
    conv_rhs => rw [← hitems]
    rw [ids, ids, List.map_append, List.map_append]
    rfl

theorem ids_eraseUpTo (delUpTo : Int64) :
    (ids (s.eraseUpTo delUpTo).items).Sublist (ids s.items) := by
  unfold eraseUpTo
  split
  · exact List.Sublist.refl _
  · exact (List.dropWhile_sublist _).map _

/-- The items with one more between the smaller and the larger. -/
theorem ids_inserted {i i' : GalleryItem} (hid : i'.id = i.id) (hbefore : ids before =
    ids (items.takeWhile (·.id.lessThan i.id))) :
    ids (before ++ i' :: items.dropWhile (·.id.lessThan i.id)) =
      (ids items).takeWhile (fun a => decide (a < i.id)) ++
        i.id :: (ids items).dropWhile fun a => decide (a < i.id) := by
  have hless : (fun a => decide (a < i.id)) ∘ GalleryItem.id = (·.id.lessThan i.id) := by
    funext item
    exact Bool.eq_iff_iff.mpr (decide_eq_true_iff.trans GalleryEntryId.lessThan_iff.symm)
  rw [ids, List.map_append, List.map_cons, hid, ← ids, hbefore, ids, ids, List.takeWhile_map,
    List.dropWhile_map, hless]

theorem Insertion.add_ascending {r : Insertion} (h : Ascending r.items) (hole : Bool)
    (i : GalleryItem) : Ascending (r.add hole i).items := by
  unfold Insertion.add
  split
  · exact h
  rename_i hnew
  have hnew : i.id ∉ ids r.items := fun hmem => by
    obtain ⟨item, hitem, he⟩ := List.mem_map.mp hmem
    exact hnew (List.any_eq_true.mpr ⟨item, hitem, decide_eq_true he⟩)
  have hinsert := pairwise_insert h hnew
  dsimp only
  split
  · exact List.pairwise_singleton _ _
  rename_i first rest hitems
  split
  · rename_i hlt
    rw [hitems] at h
    refine List.pairwise_cons.mpr ⟨fun a ha => ?_, h⟩
    have hlt := GalleryEntryId.lessThan_iff.mp hlt
    rcases List.mem_cons.mp ha with rfl | ha
    · exact hlt
    · exact lt_trans hlt ((List.pairwise_cons.mp h).1 a ha)
  · generalize maxItemsSize = size
    refine ascending_drop _ ?_
    rw [Ascending, ids_inserted]
    · exact hinsert
    · rfl
    · split
      · rfl
      · exact ids_linkLast _ _

theorem foldl_add_ascending {r : Insertion} (h : Ascending r.items) (hole : Bool)
    (l : List GalleryItem) : Ascending (l.foldl (Insertion.add hole) r).items := by
  induction l generalizing r with
  | nil => exact h
  | cons i l ih => exact ih (Insertion.add_ascending h hole i)

@[simp] theorem items_markEntries (maxCountReached : Bool) :
    (s.markEntries other maxCountReached).items = s.items := by
  unfold markEntries
  split
  · rfl
  · split
    · rfl
    · rfl

@[simp] theorem ids_append (items items' : List GalleryItem) :
    ids (items ++ items') = ids items ++ ids items' := List.map_append

theorem ids_applyPatch (p : GalleryPatch) (before items : List GalleryItem) :
    (ids (applyPatch p before items)).Sublist (ids before ++ ids items) := by
  induction items generalizing before with
  | nil => exact List.sublist_append_left _ _
  | cons item items ih =>
    unfold applyPatch
    split
    · refine (ih _).trans ?_
      have hbefore : ids (if p.type = "del" then linkLast (firstId items) before else before) =
          ids before := by
        split
        · exact ids_linkLast _ _
        · rfl
      rw [hbefore]
      exact (List.Sublist.refl _).append (List.sublist_cons_self _ _)
    · have h := ih (before ++ [item])
      rw [ids_append, List.append_assoc] at h
      exact h

theorem applyPatches_ascending (h : Ascending s.items) (patches : List GalleryPatch) :
    Ascending (s.applyPatches patches).items := by
  show Ascending (patches.foldl (fun items p => applyPatch p [] items) s.items)
  generalize s.items = items at h
  induction patches generalizing items with
  | nil => exact h
  | cons p patches ih => exact ih _ (ascending_sublist h (ids_applyPatch p [] items))

theorem ids_eraseItem (id : GalleryEntryId) : (ids (s.eraseItem id).items).Sublist (ids s.items) := by
  have hsplit := List.takeWhile_append_dropWhile (p := fun item : GalleryItem => item.id ≠ id)
    (l := s.items)
  unfold eraseItem
  dsimp only
  split
  · exact List.Sublist.refl _
  · rename_i found after hfound
    have hafter : (ids after).Sublist (ids s.items) := by
      rw [← hsplit, hfound, ids_append]
      exact (List.sublist_cons_self _ _).trans (List.sublist_append_right _ _)
    split
    · exact List.nil_sublist _
    · exact hafter
    · rename_i first before hbefore
      rw [hfound, hbefore] at hsplit
      rw [ids_append, ids_linkLast, hbefore, ← hsplit, ids_append]
      exact (List.Sublist.refl _).append (List.sublist_cons_self _ _)

theorem ids_relink (from_ till : GalleryEntryId) (reached : Bool)
    (before items : List GalleryItem) :
    ids (relink from_ till reached before items) = ids before ++ ids items := by
  induction items generalizing before reached with
  | nil => exact (List.append_nil _).symm
  | cons item items ih =>
    unfold relink
    split
    · exact ids_append _ _
    · dsimp only
      split
      · rw [ih, ids_append, List.append_assoc]
        rfl
      · rw [ih, ids_append, ids_linkLast, List.append_assoc]
        rfl

theorem ids_cutHole (from_ till : Int64) (findTill : Bool) (items : List GalleryItem) :
    (ids (cutHole from_ till findTill items)).Sublist (ids items) := by
  induction items generalizing findTill with
  | nil => exact List.Sublist.refl _
  | cons item items ih =>
    unfold cutHole
    split
    · exact List.Sublist.refl _
    · split
      · exact (ih true).cons_cons _
      · split
        · exact (ih findTill).cons _
        · exact (ih findTill).cons_cons _

theorem ascending_ite {p : Prop} [Decidable p] (h : Ascending s.items) (h' : Ascending s'.items) :
    Ascending (if p then s else s').items := by
  split
  · exact h
  · exact h'

theorem mergeFromServer_ascending (h : Ascending s.items) (from_ till : GalleryEntryId) :
    Ascending (s.mergeFromServer other from_ till).1.items := by
  unfold mergeFromServer
  extract_lets erased r added patched withoutFrom withoutTill joined marked
  have herased : Ascending erased.items := ascending_sublist h (ids_eraseUpTo other.delUpTo)
  have hadded : Ascending added.items := by
    rw [items_markEntries]
    exact foldl_add_ascending herased _ _
  have hpatched : Ascending patched.items := applyPatches_ascending hadded other.patches
  have hfrom : Ascending withoutFrom.items :=
    ascending_ite (ascending_sublist hpatched (ids_eraseItem from_)) hpatched
  have htill : Ascending withoutTill.items :=
    ascending_ite (ascending_sublist hfrom (ids_eraseItem till)) hfrom
  have hjoined : Ascending joined.items := by
    refine ascending_ite ?_ htill
    show (ids (relink from_ till false [] withoutTill.items)).Pairwise _
    rw [ids_relink]
    exact htill
  exact ascending_ite hjoined hjoined

end GalleryStorage

/-- What changes the items of a gallery. -/
inductive GalleryCall where
  | mergeFromServer (other : GalleryStorage) (from_ till : GalleryEntryId)
  | makeHole (from_ till : Int64)

namespace GalleryStorage

def call (s : GalleryStorage) : GalleryCall → Option GalleryStorage
  | .mergeFromServer other from_ till => some (s.mergeFromServer other from_ till).1
  | .makeHole from_ till => some (s.makeHole from_ till)

theorem call_ascending {c : GalleryCall} {s s' : GalleryStorage} (h : Ascending s.items)
    (hcall : s.call c = some s') : Ascending s'.items := by
  cases c with
  | mergeFromServer other from_ till =>
    obtain rfl := Option.some.inj hcall
    exact mergeFromServer_ascending h from_ till
  | makeHole from_ till =>
    obtain rfl := Option.some.inj hcall
    show Ascending (if from_ = -1 then [] else cutHole from_ till (till == -1) s.items)
    split
    · exact List.Pairwise.nil
    · exact ascending_sublist h (ids_cutHole from_ till _ s.items)

/-- In every run from a gallery in order the entries stay in order, each there once. -/
theorem run_ascending {s s' : GalleryStorage} (hs : Ascending s.items)
    (h : Run call (fun _ _ => True) s s') : Ascending s'.items :=
  h.invariant hs fun hs _ hcall => call_ascending hs hcall

/-- Two entries of one message come from the server, the later one first. -/
theorem run_ascending_twoEntries :
    Ascending (({} : GalleryStorage).mergeFromServer
      { items := [{ id := ⟨5, 2⟩ }, { id := ⟨5, 1⟩ }] } {} {}).1.items :=
  run_ascending (s := {}) List.Pairwise.nil
    (.step (.mergeFromServer { items := [{ id := ⟨5, 2⟩ }, { id := ⟨5, 1⟩ }] } {} {}) .start
      trivial rfl)

end GalleryStorage

end Icq.Archive
