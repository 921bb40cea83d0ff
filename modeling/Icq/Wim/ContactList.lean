import Mathlib.Data.List.Lex
import Icq.Lib.Scalar
import Icq.Lib.KeyMap

/-! The contact list: groups of buddies, an index of them by their id, and how what the server
says is merged into it. -/

namespace Icq.Wim
open Icq.Lib

/-- What the search compares patterns with, computed once from a presence. -/
structure SearchCache where
  aimid : Bytes := []
  friendly : Bytes := []
  nick : Bytes := []
  ab : Bytes := []
  smsNumber : Bytes := []
  friendlyWords : List Bytes := []
  abWords : List Bytes := []
deriving DecidableEq

def SearchCache.isEmpty (c : SearchCache) : Bool := c.aimid.isEmpty

structure ClPresence where
  usertype : Bytes := []
  smsNumber : Bytes := []
  friendly : Bytes := []
  nick : Bytes := []
  abContactName : Bytes := []
  outgoingMsgCount : Int32 := 0
  isChat : Bool := false
  iconId : Bytes := []
  bigIconId : Bytes := []
  largeIconId : Bytes := []
  searchCache : SearchCache := {}
deriving DecidableEq

def ClPresence.areIconsEqual (p other : ClPresence) : Bool :=
  decide (p.largeIconId = other.largeIconId) && decide (p.bigIconId = other.bigIconId) &&
    decide (p.iconId = other.iconId)

/-- A buddy; its presence is shared by all who hold it, and is found under the object. -/
structure ClBuddy where
  object : Nat
  aimid : Bytes
deriving DecidableEq

structure ClGroup where
  id : UInt32
  name : Bytes
  buddies : List ClBuddy := []

abbrev ClBuddiesMap : Type := KeyMap ClBuddy.aimid

inductive ChangedStatus where
  | full | presence | none
deriving DecidableEq

structure ContactList where
  groups : List ClGroup := []
  contactsIndex : ClBuddiesMap := ∅
  trustedContacts : ClBuddiesMap := ∅
  ignorelist : List Bytes := []
  presences : Nat → ClPresence := fun _ => {}
  /-- The number of objects so far. -/
  objects : Nat := 0
  changedStatus : ChangedStatus := .none
  needUpdateSearchCache : Bool := false
  needUpdateAvatar : Bool := false
  searchCache : ClBuddiesMap := ∅
  lastSearchPattern : Bytes := []

/-- A buddy as the server describes it; without an id it is passed over. -/
structure BuddyNode where
  aimid : Option Bytes
  presence : ClPresence

/-- A group as the server describes it, in a list or in a difference of lists. -/
structure GroupNode where
  id : Option UInt32
  name : Bytes := []
  buddies : List BuddyNode := []
  added : Bool := false
  removed : Bool := false

def chatDomain : Bytes := ascii ['@', 'c', 'h', 'a', 't', '.', 'a', 'g', 'e', 'n', 't']

/-- What `cl_presence::unserialize` reads, and whether the id is one of a chat. -/
def presenceOf (aimid : Bytes) (p : ClPresence) : ClPresence :=
  { p with
    searchCache := {}
    isChat := p.isChat || decide (chatDomain.length < aimid.length) && chatDomain.isSuffixOf aimid }

/-- A group of a difference of lists. -/
structure DiffGroup where
  id : UInt32
  name : Bytes
  buddies : List (Bytes × ClPresence)
  added : Bool
  removed : Bool

def readBuddies (nodes : List BuddyNode) : List (Bytes × ClPresence) :=
  nodes.filterMap fun node => node.aimid.map fun aimid => (aimid, presenceOf aimid node.presence)

def unserializeFromDiff (nodes : List GroupNode) : List DiffGroup :=
  nodes.filterMap fun node => node.id.map fun id =>
    { id, name := node.name, buddies := readBuddies node.buddies
      added := node.added, removed := node.removed }

namespace ContactList

def setChangedStatus (s : ContactList) (status : ChangedStatus) : ContactList :=
  if s.changedStatus = .full ∧ status = .presence then s else { s with changedStatus := status }

/-- New objects for buddies. -/
def makeBuddies (s : ContactList) (buddies : List (Bytes × ClPresence)) :
    List ClBuddy × ContactList :=
  (buddies.zipIdx.map fun (b, i) => ⟨s.objects + i, b.1⟩,
    { s with
      objects := s.objects + buddies.length
      presences := fun object =>
        if s.objects ≤ object then ((buddies[object - s.objects]?).map Prod.snd).getD {}
        else s.presences object })

def indexBuddies (s : ContactList) (buddies : List ClBuddy) : ContactList :=
  { s with contactsIndex := buddies.foldl KeyMap.put s.contactsIndex }

def unserializeGroup (s : ContactList) (node : GroupNode) : ContactList :=
  match node.id with
  | none => s
  | some id =>
    let (buddies, s) := s.makeBuddies (readBuddies node.buddies)
    { s.indexBuddies buddies with groups := s.groups ++ [{ id, name := node.name, buddies }] }

def unserialize (nodes : List GroupNode) (ignorelist : List Bytes) : ContactList :=
  { nodes.foldl unserializeGroup {} with ignorelist }

def getPresence (s : ContactList) (aimid : Bytes) : Option (Nat × ClPresence) :=
  (s.contactsIndex.find? aimid).map fun b => (b.object, s.presences b.object)

/-- The presence of a contact takes over what is new; the number for SMS is not looked at when
the search cache is cleared, and the name in the address book is not taken over. -/
def updatePresence (s : ContactList) (aimid : Bytes) (presence : ClPresence) : ContactList :=
  match s.getPresence aimid with
  | none => s
  | some (object, old) =>
    let searchCache :=
      if presence.friendly ≠ old.friendly ∨ presence.abContactName ≠ old.abContactName ∨
        presence.nick ≠ old.nick then {} else old.searchCache
    let new : ClPresence := { presence with
      abContactName := old.abContactName, outgoingMsgCount := old.outgoingMsgCount, searchCache }
    setChangedStatus { s with
      presences := Function.update s.presences object new
      needUpdateAvatar := !old.areIconsEqual presence } .presence

/-- A contact that is not in the list may be trusted. -/
def updateTrusted (s : ContactList) (aimid friendly nick : Bytes) (isTrusted : Bool) :
    ContactList :=
  if (s.contactsIndex.find? aimid).isSome then s
  else
    match s.trustedContacts.find? aimid, isTrusted with
    | some _, false => { s with trustedContacts := s.trustedContacts.erase aimid }
    | none, true =>
      let (buddies, s) := s.makeBuddies [(aimid, { friendly, nick })]
      { s with trustedContacts := buddies.foldl KeyMap.put s.trustedContacts }
    | _, _ => s

end ContactList

inductive DiffType where
  | created | updated | deleted | other
deriving DecidableEq

/-- How often contacts were met. -/
abbrev Counts : Type := KeyMap (Prod.fst : Bytes × Nat → Bytes)

namespace Counts

def count (c : Counts) (aimid : Bytes) : Nat := ((c.find? aimid).map Prod.snd).getD 0

def add (c : Counts) (aimid : Bytes) (n : Nat) : Counts :=
  if n = 0 then c else c.put (aimid, c.count aimid + n)

end Counts

namespace ContactList

def createGroup (s : ContactList) (d : DiffGroup) : ContactList :=
  let (buddies, s) := s.makeBuddies d.buddies
  let groups := if d.added then s.groups ++ [{ id := d.id, name := d.name }] else s.groups
  let s := if groups.any (·.id = d.id) then s.indexBuddies buddies else s
  { s with groups := groups.map fun g =>
      if g.id = d.id then { g with buddies := g.buddies ++ buddies } else g }

def updateGroup (s : ContactList) (d : DiffGroup) : ContactList :=
  d.buddies.foldl (fun s b => s.updatePresence b.1 b.2) s

/-- A buddy of the difference that is met in a group of another id. -/
def meet (g : ClGroup) (counts : Counts) (b : Bytes × ClPresence) : Counts :=
  counts.add b.1 (if g.buddies.any (·.aimid = b.1) then 1 else 0)

/-- A buddy of the difference leaves its group, each time it stands there. -/
def deleteBuddy (g : ClGroup × Counts) (b : Bytes × ClPresence) : ClGroup × Counts :=
  ({ g.1 with buddies := g.1.buddies.filter (fun x => !decide (x.aimid = b.1)) },
    g.2.add b.1 (g.1.buddies.countP (·.aimid = b.1)))

/-- One group of the difference against all groups. -/
def deleteGroup (d : DiffGroup) : List ClGroup → Counts → List ClGroup × Counts
  | [], counts => ([], counts)
  | g :: groups, counts =>
    if g.id ≠ d.id then
      let (rest, counts) := deleteGroup d groups (d.buddies.foldl (meet g) counts)
      (g :: rest, counts)
    else
      let (g, counts) := d.buddies.foldl deleteBuddy (g, counts)
      let (rest, counts) := deleteGroup d groups counts
      (if d.removed then rest else g :: rest, counts)

def deleteGroups (s : ContactList) (diff : List DiffGroup) : List ClGroup × Counts :=
  diff.foldl (fun (groups, counts) d => deleteGroup d groups counts) (s.groups, ∅)

/-- The merged list, and the contacts that are reported as removed. -/
def mergeFromDiff (s : ContactList) (type : DiffType) (diff : List DiffGroup) :
    ContactList × List Bytes :=
  match type with
  | .created =>
    ({ (diff.foldl createGroup s).setChangedStatus .full with needUpdateSearchCache := true }, [])
  | .updated =>
    ({ (diff.foldl updateGroup s).setChangedStatus .presence with
       needUpdateSearchCache := true }, [])
  | .deleted =>
    let (groups, counts) := s.deleteGroups diff
    let removed := (counts.items.filter (·.2 = 1)).map Prod.fst
    let s := { s with
      groups
      contactsIndex := removed.foldl KeyMap.erase s.contactsIndex
      trustedContacts := removed.foldl KeyMap.erase s.trustedContacts }
    ({ s.setChangedStatus .full with needUpdateSearchCache := true }, removed)
  | .other => (s, [])

end ContactList

end Icq.Wim
