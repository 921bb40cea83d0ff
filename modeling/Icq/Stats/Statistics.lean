import Icq.Lib.Run
import Icq.Lib.Scalar

/-! The events for the tracker: each is sent when it is inserted, and a timer sends the ones that
failed again. -/

namespace Icq.Stats
open Icq.Lib

/-- The number of an event name; a file can hold numbers that no name has. -/
abbrev StatsEventNames : Type := Int

def StatsEventNames.serviceSessionStart : StatsEventNames := 1001

def StatsEventNames.startSession : StatsEventNames := 1002

def StatsEventNames.sendUsedTrafficSizeEvent : StatsEventNames := 53000

def accumulateFinishedProp : String := "accumulate_finished"

def isAccumulatedEvent (name : StatsEventNames) : Bool :=
  decide (name = .sendUsedTrafficSizeEvent)

structure StatsEvent where
  name : StatsEventNames
  eventId : Int32
  props : List (String × String)
  eventTime : Int
  numAttemptToSend : Nat := 0
deriving DecidableEq

/-- Events are shared: whoever holds one holds its place in `objects`. -/
structure Statistics where
  changedMytracker : Bool := false
  sessionEventId : Int64 := 0
  objects : List StatsEvent := []
  /-- In the order of their addresses, which the allocator chooses. -/
  eventsForMytracker : List Nat := []
deriving DecidableEq

/-- A task of the statistics thread. -/
inductive StatsTask
  | send (event : Nat)
  | resend (eventsToResend : List Nat)
deriving DecidableEq

/-- The result of a task, on its way to the handler. -/
inductive StatsResult
  | sent (event : Nat) (httpCodeOrZeroIfSendError : Int32)
  | resent (attemptedToResend : List Nat) (numSent : Nat)
deriving DecidableEq

/-- A post to the tracker with its answer, zero without one. -/
structure Post where
  event : Nat
  status : Int64
deriving DecidableEq

namespace Statistics

def numAttemptsToSend (s : Statistics) (event : Nat) : Nat :=
  s.objects[event]?.elim 0 StatsEvent.numAttemptToSend

def incrementSendNumAttempts (s : Statistics) (event : Nat) : Statistics :=
  { s with objects := s.objects.modify event fun e =>
      { e with numAttemptToSend := e.numAttemptToSend + 1 } }

/-- A new event at some address, with the task that sends it. -/
def track (s : Statistics) (name : StatsEventNames) (props : List (String × String))
    (eventTime : Int) (eventId : Int32) (address : Nat) : Statistics × List StatsTask :=
  let (eventId, sessionEventId) :=
    if eventId = -1 then (s.sessionEventId.toInt32, s.sessionEventId + 1)
    else (eventId, s.sessionEventId)
  let event := s.objects.length
  ({ changedMytracker := true
     sessionEventId
     objects := s.objects ++ [{ name, eventId, props, eventTime }]
     eventsForMytracker :=
       s.eventsForMytracker.take address ++ event :: s.eventsForMytracker.drop address },
    [.send event])

/-- The user is known by a root login where the tracker is to hear of events. -/
def insertEventMytracker (s : Statistics) (enabled : Bool) (rootLogin : Bytes)
    (name : StatsEventNames) (props : List (String × String)) (eventTime : Int) (eventId : Int32)
    (address : Nat) : Statistics × List StatsTask :=
  if !enabled || rootLogin.isEmpty then (s, [])
  else if isAccumulatedEvent name && !props.any fun prop => prop.1 == accumulateFinishedProp then
    if name ≠ .serviceSessionStart then s.track name props eventTime eventId address else (s, [])
  else
    let (s, tasks) :=
      if name ≠ .serviceSessionStart then s.track name props eventTime eventId address else (s, [])
    ({ s with changedMytracker := true }, tasks)

def insertEvent (s : Statistics) (enabled : Bool) (rootLogin : Bytes) (name : StatsEventNames)
    (props : List (String × String)) (now : Int) (address : Nat) : Statistics × List StatsTask :=
  let s :=
    if name = .startSession then
      (insertEventMytracker { s with sessionEventId := 0 } enabled rootLogin .serviceSessionStart
        props now (-1) address).1
    else s
  s.insertEventMytracker enabled rootLogin name props now (-1) address

def eraseEvent (s : Statistics) (event : Nat) : Statistics :=
  { s with eventsForMytracker := s.eventsForMytracker.filter fun e => decide (e ≠ event) }

/-- No answer and an internal error of the server leave the event to be sent again. -/
def isFinal (httpCodeOrZeroIfSendError : Int32) : Bool :=
  !(decide (httpCodeOrZeroIfSendError = 0) || decide (httpCodeOrZeroIfSendError = 500))

def onSent (s : Statistics) (event : Nat) (code : Int32) : Statistics :=
  if !isFinal code then s.incrementSendNumAttempts event
  else { s.eraseEvent event with changedMytracker := true }

def eventsToResend (s : Statistics) : List Nat :=
  s.eventsForMytracker.filter fun e => decide (0 < s.numAttemptsToSend e)

def resendFailedMytrackerAsync (s : Statistics) (enabled : Bool) : List StatsTask :=
  if enabled then [.resend s.eventsToResend] else []

/-- Posts events up to the first one that is not answered with 200, and counts those before it. -/
def resendEvents (post : Nat → Int64) (s : Statistics) : List Nat → Statistics × Nat × List Post
  | [] => (s, 0, [])
  | event :: rest =>
    if 200 = post event then
      let (s, numSuccessfullySent, posts) := resendEvents post s rest
      (s, numSuccessfullySent + 1, ⟨event, post event⟩ :: posts)
    else (s.incrementSendNumAttempts event, 0, [⟨event, post event⟩])

def onResent (s : Statistics) (enabled : Bool) (attemptedToResend : List Nat) (numSent : Nat) :
    Statistics :=
  let s := (attemptedToResend.take numSent).foldl eraseEvent s
  -- the file is written only where the tracker is enabled
  if enabled then { s with changedMytracker := false } else s

end Statistics

/-- A result with the posts that it tells of. -/
structure Unhandled where
  result : StatsResult
  posts : List Post
deriving DecidableEq

/-- The statistics with the tasks of its thread and the results not handled yet and, for the record,
all posts. -/
structure StatisticsRun where
  stats : Statistics := {}
  tasks : List StatsTask := []
  results : List Unhandled := []
  posts : List Post := []
deriving DecidableEq

inductive StatisticsAction
  | insertEvent (enabled : Bool) (rootLogin : Bytes) (name : StatsEventNames)
      (props : List (String × String)) (now : Int) (address : Nat)
  | load (enabled : Bool) (rootLogin : Bytes) (name : StatsEventNames)
      (props : List (String × String)) (eventTime : Int) (eventId : Int32) (address : Nat)
  | resendTimer (enabled : Bool)
  | work (post : Nat → Int64)
  | handle (enabled : Bool)

namespace StatisticsRun

def insert (r : StatisticsRun) (inserted : Statistics × List StatsTask) : StatisticsRun :=
  { r with stats := inserted.1, tasks := r.tasks ++ inserted.2 }

/-- The first task is done, with the answers that `post` gives. -/
def work (r : StatisticsRun) (post : Nat → Int64) : Option StatisticsRun :=
  match r.tasks with
  | [] => none
  | .send event :: tasks =>
    let posts : List Post := [⟨event, post event⟩]
    some { r with
      tasks
      results := r.results ++ [⟨.sent event (post event).toInt32, posts⟩]
      posts := r.posts ++ posts }
  | .resend events :: tasks =>
    let (stats, numSent, posts) := r.stats.resendEvents post events
    some { r with
      stats, tasks
      results := r.results ++ [⟨.resent events numSent, posts⟩]
      posts := r.posts ++ posts }

/-- The handler of the oldest result runs. -/
def handle (r : StatisticsRun) (enabled : Bool) : Option StatisticsRun :=
  match r.results with
  | [] => none
  | ⟨.sent event code, _⟩ :: results => some { r with stats := r.stats.onSent event code, results }
  | ⟨.resent attempted numSent, _⟩ :: results =>
    some { r with stats := r.stats.onResent enabled attempted numSent, results }

def step (r : StatisticsRun) : StatisticsAction → Option StatisticsRun
  | .insertEvent enabled rootLogin name props now address =>
    some (r.insert (r.stats.insertEvent enabled rootLogin name props now address))
  | .load enabled rootLogin name props eventTime eventId address =>
    some (r.insert (r.stats.insertEventMytracker enabled rootLogin name props eventTime eventId address))
  | .resendTimer enabled =>
    some { r with tasks := r.tasks ++ r.stats.resendFailedMytrackerAsync enabled }
  | .work post => r.work post
  | .handle enabled => r.handle enabled

end StatisticsRun

end Icq.Stats
