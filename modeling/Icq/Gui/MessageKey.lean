import Icq.Common.PatchVersion
import Mathlib.Data.List.DropRight

/-! Messages of a dialog as the window keeps them, and the keys they are ordered by. -/

namespace Icq.Gui
open Icq.Lib Icq.Common

/-- UTF-16 units. -/
abbrev QString := List UInt16

namespace QString

/-- QChar::isSpace. -/
def isSpace (c : UInt16) : Bool :=
  c == 32 || (9 ≤ c && c ≤ 13) || c == 0x85 || c == 0xa0 || c == 0x1680 ||
    (0x2000 ≤ c && c ≤ 0x200a) || c == 0x2028 || c == 0x2029 || c == 0x202f ||
    c == 0x205f || c == 0x3000

def isDigit (c : UInt16) : Bool := 48 ≤ c && c ≤ 57

def digits (text : QString) : Option Nat :=
  if text ≠ [] ∧ text.all isDigit then
    some (text.foldl (fun n c => n * 10 + (c.toNat - 48)) 0)
  else none

/-- Blanks around the number are skipped; what is not a number of 64 bits gives 0. -/
def toLongLong (text : QString) : Int :=
  match (text.dropWhile isSpace).rdropWhile isSpace with
  | 45 :: rest =>
    match digits rest with
    | some n => if n ≤ 2 ^ 63 then -(n : Int) else 0
    | none => 0
  | 43 :: rest =>
    match digits rest with
    | some n => if n < 2 ^ 63 then n else 0
    | none => 0
  | rest =>
    match digits rest with
    | some n => if n < 2 ^ 63 then n else 0
    | none => 0

/-- The text behind the last dash, the whole text where there is none. -/
def afterLastDash (text : QString) : QString := text.rtakeWhile (· ≠ 45)

end QString

/-- `static`: it reads the internal id only. -/
def makePendingId (internalId : QString) : Int := internalId.afterLastDash.toLongLong

inductive ControlType
  | date
  | message
  | threadReplies
  | newMessages
deriving DecidableEq

def ControlType.num : ControlType → Nat
  | date => 0
  | message => 1
  | threadReplies => 2
  | newMessages => 3

structure MessageKey where
  id : Int := -1
  prev : Int := -1
  internalId : QString := []
  controlType : ControlType := .message
  time : Int := -1
  pendingId : Int := -1
  outgoing : Bool := false
deriving DecidableEq

namespace MessageKey

def hasId (k : MessageKey) : Bool := k.id != -1

def isPending (k : MessageKey) : Bool := k.id == -1 && k.internalId != []

def setControlType (k : MessageKey) (controlType : ControlType) : MessageKey :=
  { k with controlType }

/-- The key a delivered message had while it was pending. -/
def toPurePending (k : MessageKey) : MessageKey :=
  { k with id := -1, prev := -1, pendingId := makePendingId k.internalId }

/-- `operator==`. -/
def isEqual (k other : MessageKey) : Bool :=
  let idsEqual := k.hasId && k.id == other.id
  let internalIdsEqual := k.internalId != [] && k.internalId == other.internalId
  if idsEqual || internalIdsEqual then k.controlType == other.controlType else false

/-- `operator<`. -/
def lessThan (k rhs : MessageKey) : Bool :=
  let byControlType := decide (k.controlType.num < rhs.controlType.num)
  if k.internalId ≠ [] ∧ k.internalId = rhs.internalId then byControlType
  else if k.pendingId ≠ -1 ∧ rhs.pendingId = -1 then
    if k.controlType = rhs.controlType then false
    -- without it the plate of new messages would be broken
    else if rhs.controlType = .date then byControlType
    else if k.time = rhs.time then false
    else decide (k.time < rhs.time)
  else if k.pendingId = -1 ∧ rhs.pendingId ≠ -1 then
    if k.controlType = rhs.controlType then true
    else if k.controlType = .date then byControlType
    else if k.time = rhs.time then true
    else decide (k.time < rhs.time)
  else if k.id ≠ -1 ∧ rhs.id ≠ -1 ∧ k.id ≠ rhs.id then decide (k.id < rhs.id)
  else if k.pendingId ≠ -1 ∧ rhs.pendingId ≠ -1 ∧ k.internalId ≠ rhs.internalId ∧
      k.pendingId ≠ rhs.pendingId then decide (k.pendingId < rhs.pendingId)
  else if k.pendingId ≠ -1 ∧ rhs.pendingId ≠ -1 ∧ k.internalId ≠ rhs.internalId ∧
      k.time ≠ rhs.time then decide (k.time < rhs.time)
  else byControlType

/-- `operator<=`. -/
def le (k other : MessageKey) : Bool := !other.lessThan k

end MessageKey

structure MessageBuddy where
  id : Int := -1
  prev : Int := -1
  internalId : QString := []
  pendingId : Int := -1
  time : Int := 0
  outgoing : Bool := false
  deleted : Bool := false
  updatePatchVersion : PatchVersion := {}
  /-- Whether the voip event of the message has a type that is shown. -/
  voipEvent : Option Bool := none
  chatEvent : Bool := false
  text : QString := []
  /-- The contact's `sn`, and the ids of the poll and of the task. -/
  sharedContact : Option QString := none
  poll : Option QString := none
  task : Option QString := none
deriving DecidableEq

namespace MessageBuddy

def toKey (m : MessageBuddy) : MessageKey where
  id := m.id
  prev := m.prev
  internalId := m.internalId
  controlType := .message
  time := m.time
  pendingId := m.pendingId
  outgoing := m.outgoing

def isPending (m : MessageBuddy) : Bool := m.id == -1 && m.internalId != []

def hasId (m : MessageBuddy) : Bool := m.id != -1

def hasText (m : MessageBuddy) : Bool := m.text != []

def setDeleted (m : MessageBuddy) (deleted : Bool) : MessageBuddy := { m with deleted }

/-- Deleted messages and voip events of a type that is not shown have no place in the window. -/
def isVisibleMessage (m : MessageBuddy) : Bool := !m.deleted && m.voipEvent != some false

/-- The text was empty and no longer is. -/
def idAdded (old new : Option QString) : Bool := old == some [] && new.any (· != [])

def needUpdateWith (m other : MessageBuddy) : Bool :=
  m.updatePatchVersion.lessThan other.updatePatchVersion || m.prev != other.prev ||
    idAdded m.sharedContact other.sharedContact || idAdded m.poll other.poll ||
    idAdded m.task other.task

end MessageBuddy

end Icq.Gui
