import Icq.Common.ImStatistics
import Icq.Lib.Run
import Icq.Lib.Scalar
import Mathlib.Data.List.Sort
import Mathlib.Data.Multiset.AddSub

/-! The statistics events of the client: they are stored, sent in batches that merge equal events,
and cleared when the result of a batch comes back. -/

namespace Icq.Stats
open Icq.Lib Icq.Common

abbrev EventProps : Type := List (Bytes × Bytes)

/-- The order that an event keeps its properties in: by key, then by value. -/
def propLess (x1 x2 : Bytes × Bytes) : Bool :=
  if x1.1 ≠ x2.1 then decide (x1.1 < x2.1) else decide (x1.2 < x2.2)

def sortProps (props : EventProps) : EventProps :=
  if 1 < props.length then props.insertionSort fun x1 x2 => propLess x2 x1 = false else props

/-- Times are in nanoseconds of the system clock. -/
structure ImStatsEvent where
  name : ImStatEventNames
  props : EventProps
  time : Int
  eventSent : Bool := false
deriving DecidableEq

/-- What a batch says about the events that it merges. -/
structure EventNode where
  name : Option String := none
  params : Option EventProps := none
  count : Option UInt32 := none
deriving DecidableEq

structure PostData where
  startTime : Int
  endTime : Int
  events : List EventNode
deriving DecidableEq

namespace ImStatsEvent

def ofProps (name : ImStatEventNames) (props : EventProps) (time : Int) : ImStatsEvent :=
  { name, props := sortProps props, time }

def isEqual (e event : ImStatsEvent) : Bool :=
  decide (e.name = event.name) && decide (e.props = event.props)

def serialize (e : ImStatsEvent) : EventNode :=
  let eventName := imStatEventToString e.name
  if eventName ≠ "" then { name := some eventName, params := some e.props } else {}

/-- What tells an event from others. -/
def key (e : ImStatsEvent) : ImStatEventNames × EventProps := (e.name, e.props)

theorem isEqual_iff {e event : ImStatsEvent} : e.isEqual event = true ↔ e.key = event.key := by
  simp [isEqual, key, Prod.ext_iff]

end ImStatsEvent

/-- One more event of the batch: equal events share a counter. -/
def countEvent (event : ImStatsEvent) : List (ImStatsEvent × UInt32) → List (ImStatsEvent × UInt32)
  | [] => [(event, 1)]
  | item :: rest =>
    if item.1.isEqual event then (item.1, item.2 + 1) :: rest else item :: countEvent event rest

def eventCounter (item : ImStatsEvent × UInt32) : EventNode :=
  if 1 < item.2 then { item.1.serialize with count := some item.2 } else item.1.serialize

def secondsOf (time : Int) : Int := time.tdiv 1000000000

/-- The store interval is in seconds. -/
structure ImStats where
  changed : Bool := false
  isSending : Bool := false
  events : List ImStatsEvent := []
  lastSentTime : Int
  startSendTime : Int
  eventsMaxStoreInterval : Int

namespace ImStats

def start (now interval : Int) : ImStats :=
  { lastSentTime := now, startSendTime := now, eventsMaxStoreInterval := interval }

def insertEvent (s : ImStats) (name : ImStatEventNames) (props : EventProps) (time : Int) : ImStats :=
  if ImStatEventNames.min < name ∧ name < ImStatEventNames.max then
    { s with events := s.events ++ [.ofProps name props time], changed := true }
  else s

def markAllEventsSent (s : ImStats) (isSent : Bool) : ImStats :=
  { s with events := s.events.map fun e => { e with eventSent := isSent } }

def removeIf (s : ImStats) (p : ImStatsEvent → Bool) : ImStats :=
  if s.events.any p then { s with events := s.events.filter fun e => !p e, changed := true } else s

def isExpired (s : ImStats) (clearTime : Int) (e : ImStatsEvent) : Bool :=
  decide (s.eventsMaxStoreInterval * 1000000000 < clearTime - e.time)

def clear (s : ImStats) (sendResult : Int32) (clearTime : Int) : ImStats :=
  if s.events.isEmpty then s
  else if 0 < s.eventsMaxStoreInterval then
    let s :=
      if s.isSending then
        if sendResult = 0 then { s with lastSentTime := s.startSendTime } else s.markAllEventsSent false
      else s
    s.removeIf fun e => e.eventSent || s.isExpired clearTime e
  else if s.isSending then
    if sendResult = 0 then
      { s with lastSentTime := s.startSendTime }.removeIf fun e => e.eventSent
    else s.markAllEventsSent false
  else s

def serializeEvents (s : ImStats) : List EventNode :=
  (s.events.foldl (fun checked e => countEvent e checked) []).map eventCounter

def getPostData (s : ImStats) (now : Int) : PostData :=
  { startTime := secondsOf s.lastSentTime, endTime := secondsOf now, events := s.serializeEvents }

/-- The batch for the statistics thread, where one is sent; its text is never empty. -/
def sendAsync (s : ImStats) (now : Int) : ImStats × Option PostData :=
  if s.events.isEmpty || s.isSending then (s, none)
  else
    let s := { s with isSending := true, startSendTime := now }
    (s.markAllEventsSent true, some (s.getPostData now))

def saveIfNeeded (s : ImStats) : ImStats := { s with changed := false }

/-- The handler of a result of the statistics thread. -/
def onResult (s : ImStats) (sendResult : Int32) (clearTime : Int) : ImStats :=
  { (s.clear sendResult clearTime).saveIfNeeded with isSending := false }

end ImStats

/-- The statistics with the batches on their way and, for the record, the events inserted and the
nodes of the batches sent with success. -/
structure StatsRun where
  stats : ImStats
  inFlight : List PostData := []
  inserted : List (ImStatEventNames × EventProps) := []
  received : List EventNode := []

inductive StatsAction
  | insertEvent (name : ImStatEventNames) (props : EventProps) (time : Int)
  | setStoreInterval (interval : Int)
  | sendAsync (now : Int)
  | save
  | result (sendResult : Int32) (now : Int)

namespace StatsRun

def start (now interval : Int) : StatsRun := { stats := .start now interval }

def step (r : StatsRun) : StatsAction → Option StatsRun
  | .insertEvent name props time =>
    some { r with
      stats := r.stats.insertEvent name props time
      inserted := r.inserted ++ [(name, sortProps props)] }
  | .setStoreInterval interval =>
    some { r with stats := { r.stats with eventsMaxStoreInterval := interval } }
  | .sendAsync now =>
    let (stats, sent) := r.stats.sendAsync now
    some { r with stats, inFlight := r.inFlight ++ sent.toList }
  | .save => some { r with stats := r.stats.saveIfNeeded }
  | .result sendResult now =>
    match r.inFlight with
    | [] => none
    | batch :: rest =>
      some { r with
        stats := r.stats.onResult sendResult now
        inFlight := rest
        received := if sendResult = 0 then r.received ++ batch.events else r.received }

end StatsRun

end Icq.Stats
