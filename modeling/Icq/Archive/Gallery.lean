import Icq.Lib.KeyMap
import Icq.Lib.Scalar
import Icq.Lib.Sorting
import Mathlib.Data.Prod.Lex

/-! The pictures, files and links of a dialog, as far as they are known, and how the server's are
merged in. -/

namespace Icq.Archive
open Icq.Lib

structure GalleryEntryId where
  msgId : Int64 := 0
  seq : Int64 := 0
deriving DecidableEq

namespace GalleryEntryId

def empty (a : GalleryEntryId) : Bool := a.msgId == 0 && a.seq == 0

def valid (a : GalleryEntryId) : Bool := a.msgId != -1 && a.seq != -1

def lessThan (a b : GalleryEntryId) : Bool :=
  if a.msgId = b.msgId then decide (a.seq < b.seq) else decide (a.msgId < b.msgId)

/-- The message first, then the place in it. -/
def place (a : GalleryEntryId) : Int64 ×ₗ Int64 := toLex (a.msgId, a.seq)

theorem place_injective : Function.Injective place := by
  intro a b h
  obtain ⟨hid, hseq⟩ := Prod.mk.inj (toLex.injective h)
  cases a
  cases b
  cases hid
  cases hseq
  rfl

instance : LinearOrder GalleryEntryId := LinearOrder.lift' place place_injective

theorem lt_iff {a b : GalleryEntryId} :
    a < b ↔ a.msgId < b.msgId ∨ a.msgId = b.msgId ∧ a.seq < b.seq :=
  Prod.Lex.toLex_lt_toLex

@[simp] theorem lessThan_iff {a b : GalleryEntryId} : a.lessThan b = true ↔ a < b := by
  rw [lt_iff, lessThan, ite_lex fun h => h ▸ lt_irrefl _, decide_eq_true_iff]

end GalleryEntryId

structure GalleryItem where
  id : GalleryEntryId := {}
  next : GalleryEntryId := {}
  url : Bytes := []
  caption : Bytes := []
  type : Bytes := []
  sender : Bytes := []
  outgoing : Bool := false
  time : Int64 := 0
  action : String := ""
deriving DecidableEq

structure GalleryState where
  patchVersion : Bytes := []
  lastEntry : GalleryEntryId := {}
  firstEntry : GalleryEntryId := ⟨-1, -1⟩
  imagesCount : Int32 := 0
  videosCount : Int32 := 0
  filesCount : Int32 := 0
  linksCount : Int32 := 0
  pttCount : Int32 := 0
  audioCount : Int32 := 0
  patchVersionChanged : Bool := false
deriving DecidableEq

structure GalleryPatch where
  msgId : Int64 := 0
  type : String := ""

/-- A gallery: the one that is kept, or what the server answered. -/
structure GalleryStorage where
  state : GalleryState := {}
  items : List GalleryItem := []
  patches : List GalleryPatch := []
  olderEntryId : GalleryEntryId := {}
  firstEntryReached : Bool := false
  delUpTo : Int64 := -1

def maxItemsSize : Nat := 20000

/-- The id the last item is followed by. -/
def linkLast (next : GalleryEntryId) (items : List GalleryItem) : List GalleryItem :=
  match items.getLast? with
  | none => items
  | some last => items.dropLast ++ [{ last with next }]

/-- The id of the first of the items, and the empty one where there is none. -/
def firstId (items : List GalleryItem) : GalleryEntryId :=
  match items.head? with
  | none => {}
  | some item => item.id

namespace GalleryStorage

def contains (s : GalleryStorage) (id : GalleryEntryId) : Bool := s.items.any (·.id = id)

/-- What the server deleted leaves the front. -/
def eraseUpTo (s : GalleryStorage) (delUpTo : Int64) : GalleryStorage :=
  if delUpTo = -1 then s
  else
    let items := s.items.dropWhile fun item => !decide (delUpTo < item.id.msgId)
    let firstEntry :=
      match items with
      | [] => {}
      | first :: _ =>
        if s.state.firstEntry.valid && !s.state.firstEntry.empty then first.id
        else s.state.firstEntry
    { s with items, state := { s.state with firstEntry } }

/-- Something may be missing between what the server sent and what is known already. -/
def hole (s other : GalleryStorage) (till : GalleryEntryId) : Bool :=
  if other.olderEntryId.empty then
    if till.empty then false else !s.contains till
  else !s.contains other.olderEntryId

/-- The items and whether there were too many. -/
structure Insertion where
  items : List GalleryItem
  maxCountReached : Bool := false
  changes : List GalleryItem := []

/-- One item of the server goes to its place. -/
def Insertion.add (hole : Bool) (r : Insertion) (i : GalleryItem) : Insertion :=
  if r.items.any (·.id = i.id) then r
  else
    let changes := r.changes ++ [{ i with action := "add" }]
    match r.items with
    | [] => { r with items := [i], changes }
    | first :: rest =>
      if i.id.lessThan first.id then
        { r with items := { i with next := first.id } :: first :: rest, changes }
      else
        let before := r.items.takeWhile (·.id.lessThan i.id)
        let after := r.items.dropWhile (·.id.lessThan i.id)
        let inserted := (if hole then before else linkLast i.id before) ++
          { i with next := firstId after } :: after
        { items := inserted.drop (inserted.length - maxItemsSize)
          maxCountReached := r.maxCountReached || decide (maxItemsSize < inserted.length), changes }

def markEntries (s other : GalleryStorage) (maxCountReached : Bool) : GalleryStorage :=
  if other.firstEntryReached || maxCountReached then
    { s with state := { s.state with
        firstEntry := firstId s.items
        lastEntry := if s.items.isEmpty then {} else s.state.lastEntry } }
  else if !s.state.firstEntry.valid then
    { s with state := { s.state with firstEntry := {}, patchVersion := other.state.patchVersion } }
  else s

/-- The loop of a patch, with the items `before` the iterator and the rest from it on. -/
def applyPatch (p : GalleryPatch) (before : List GalleryItem) : List GalleryItem → List GalleryItem
  | [] => before
  | item :: rest =>
    if item.id.msgId = p.msgId then
      applyPatch p (if p.type = "del" then linkLast (firstId rest) before else before) rest
    else applyPatch p (before ++ [item]) rest

def applyPatches (s : GalleryStorage) (patches : List GalleryPatch) : GalleryStorage :=
  { s with items := patches.foldl (fun items p => applyPatch p [] items) s.items }

def patchChanges (patches : List GalleryPatch) : List GalleryItem :=
  patches.map fun p => { id := { msgId := p.msgId }, action := p.type }

/-- An entry the server did not send again is gone. -/
def eraseItem (s : GalleryStorage) (id : GalleryEntryId) : GalleryStorage :=
  let before := s.items.takeWhile (·.id ≠ id)
  match s.items.dropWhile (·.id ≠ id) with
  | [] => s
  | _ :: after =>
    match before, after with
    | [], [] => { s with items := [], state := { s.state with lastEntry := {}, firstEntry := ⟨-1, -1⟩ } }
    | [], first :: _ => { s with items := after, state := { s.state with firstEntry := first.id } }
    | _ :: _, _ =>
      { s with
        items := linkLast (firstId after) before ++ after
        state := { s.state with
          lastEntry := if s.state.lastEntry = id then {} else s.state.lastEntry } }

/-- The loop that joins what lies between the two ids. -/
def relink (from_ till : GalleryEntryId) (reached : Bool) (before : List GalleryItem) :
    List GalleryItem → List GalleryItem
  | [] => before
  | item :: rest =>
    if from_.lessThan item.id && reached then before ++ item :: rest
    else
      let reached := reached || from_.lessThan item.id
      if item.id.lessThan till then relink from_ till reached (before ++ [item]) rest
      else relink from_ till reached (linkLast item.id before ++ [item]) rest

/-- The changes are for the interface. What is saved in files is left out. -/
def mergeFromServer (s other : GalleryStorage) (from_ till : GalleryEntryId) :
    GalleryStorage × List GalleryItem :=
  let s := s.eraseUpTo other.delUpTo
  let r := other.items.foldl (Insertion.add (s.hole other till)) { items := s.items }
  let s := { s with items := r.items }.markEntries other r.maxCountReached
  let s := s.applyPatches other.patches
  let s := if !from_.empty && !other.contains from_ then s.eraseItem from_ else s
  let s :=
    if other.items.length < 1000 && !till.empty && !other.contains till then s.eraseItem till else s
  let s :=
    if other.items.length < 1000 && !from_.empty && !till.empty then
      { s with items := relink from_ till false [] s.items }
    else s
  let s :=
    if s.state.patchVersion = other.state.patchVersion then s
    else { s with state := { s.state with patchVersionChanged := true } }
  (s, r.changes ++ patchChanges other.patches)

/-- The loop of `makeHole`: nothing is erased before the message `till` is passed. -/
def cutHole (from_ till : Int64) (findTill : Bool) : List GalleryItem → List GalleryItem
  | [] => []
  | item :: rest =>
    if item.id.msgId = from_ then item :: rest
    else if item.id.msgId = till && !findTill then
      { item with next := {} } :: cutHole from_ till true rest
    else if findTill then cutHole from_ till findTill rest
    else item :: cutHole from_ till findTill rest

def makeHole (s : GalleryStorage) (from_ till : Int64) : GalleryStorage :=
  { s with items := if from_ = -1 then [] else cutHole from_ till (till == -1) s.items }

end GalleryStorage

end Icq.Archive
