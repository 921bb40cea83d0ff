import Icq.Lib.Scalar
import Mathlib.Data.List.Lex

/-! A task, what may be changed of it, and the state of the thread under it. -/

namespace Icq.Archive
open Icq.Lib

/-- The codes are stored in the file. -/
abbrev TopicType := Int32

namespace TopicType

def invalid : TopicType := 0
def message : TopicType := 1
def task : TopicType := 2

end TopicType

/-- What a thread hangs on: a message or a task of a chat. -/
structure ParentTopic where
  type : TopicType := TopicType.invalid
  chatId : Bytes := []
  msgId : Int64 := -1
  taskId : Bytes := []
deriving DecidableEq

/-- A message with its chat, or a task with its id. -/
def ParentTopic.isValid (t : ParentTopic) : Bool :=
  decide (t.type = TopicType.message) && !t.chatId.isEmpty ||
    decide (t.type = TopicType.task) && !t.taskId.isEmpty

structure ThreadUpdate where
  id : Bytes := []
  parentTopic : ParentTopic := {}
  yoursLastRead : Int64 := -1
  yoursLastReadMention : Int64 := -1
  repliesCount : Int32 := 0
  unreadMessageCount : Int32 := 0
  unreadMentionMeCount : Int32 := 0
  subscriber : Bool := false
deriving DecidableEq

def ThreadUpdate.isValid (u : ThreadUpdate) : Bool := u.parentTopic.isValid && !u.id.isEmpty

end Icq.Archive

namespace Icq.Tasks
open Icq.Lib Icq.Archive

/-- The ticks of the system's clock from its epoch. -/
abbrev TimePoint := Int

namespace TimePoint

/-- The clock counts nanoseconds. -/
def ticksPerSecond : Int := 1000000000

def toSeconds (point : TimePoint) : Int64 := Int64.ofInt (point.tdiv ticksPerSecond)

def fromSeconds (seconds : Int64) : TimePoint := seconds.toInt * ticksPerSecond

/-- No ticks are left beside the seconds, and these are few enough to be counted. -/
structure Whole (point : TimePoint) : Prop where
  ticks : ticksPerSecond ∣ point
  least : -2 ^ 63 ≤ point.tdiv ticksPerSecond
  greatest : point.tdiv ticksPerSecond < 2 ^ 63

theorem whole_fromSeconds (seconds : Int64) : Whole (fromSeconds seconds) := by
  have hdiv : (fromSeconds seconds).tdiv ticksPerSecond = seconds.toInt :=
    Int.mul_tdiv_cancel _ (by decide)
  refine ⟨Int.dvd_mul_left _ _, ?_, ?_⟩ <;> rw [hdiv]
  · exact seconds.le_toInt
  · exact seconds.toInt_lt

theorem fromSeconds_toSeconds_iff (point : TimePoint) :
    fromSeconds (toSeconds point) = point ↔ Whole point := by
  constructor
  · intro h
    rw [← h]
    exact whole_fromSeconds _
  · intro h
    have hseconds : (toSeconds point).toInt = point.tdiv ticksPerSecond :=
      Int64.toInt_ofInt_of_le h.least h.greatest
    rw [fromSeconds, hseconds]
    exact Int.tdiv_mul_cancel h.ticks

end TimePoint

inductive Status where
  | unknown | newTask | inProgress | ready | rejected | closed
deriving DecidableEq

namespace Status

/-- An unknown status is written as a new task's. -/
def toText : Status → Bytes
  | .unknown => ascii ['n', 'e', 'w']
  | .newTask => ascii ['n', 'e', 'w']
  | .inProgress => ascii ['i', 'n', '_', 'p', 'r', 'o', 'g', 'r', 'e', 's', 's']
  | .ready => ascii ['r', 'e', 'a', 'd', 'y']
  | .rejected => ascii ['r', 'e', 'j', 'e', 'c', 't', 'e', 'd']
  | .closed => ascii ['c', 'l', 'o', 's', 'e', 'd']

def ofText (text : Bytes) : Status :=
  if text = toText .newTask then .newTask
  else if text = toText .inProgress then .inProgress
  else if text = toText .ready then .ready
  else if text = toText .rejected then .rejected
  else if text = toText .closed then .closed
  else .newTask

theorem ofText_ne_unknown (text : Bytes) : ofText text ≠ .unknown := by
  unfold ofText
  repeat' split
  all_goals exact Status.noConfusion

end Status

structure TaskParams where
  title : Bytes := []
  assignee : Bytes := []
  endTime : TimePoint := 0
  status : Status := .unknown
  creator : Bytes := []
  threadId : Bytes := []
  createTime : TimePoint := 0
  lastChange : TimePoint := 0
  allowedStatuses : List Status := []
deriving DecidableEq

structure TaskData where
  id : Bytes := []
  params : TaskParams := {}
  lastUsed : TimePoint := 0
  threadUpdate : ThreadUpdate := {}
deriving DecidableEq

def TaskData.isEmpty (t : TaskData) : Bool := t.id.isEmpty && t.params.title.isEmpty

structure TaskChange where
  id : Bytes := []
  title : Option Bytes := none
  assignee : Option Bytes := none
  endTime : Option TimePoint := none
  status : Option Status := none
deriving DecidableEq

end Icq.Tasks
