import Icq.Lib.Scalar
import Icq.Wim.PacketQueue

/-! The thread that sends packets to the server, with the executer it gives them to, the core
context that runs what comes back, and the clock. -/

namespace Icq.Wim
open Icq.Lib

/-- A packet object. Whoever posts the same object again shares its count of repeats. -/
structure WimPacket where
  address : Nat
  method : Bytes
  priority : Int32
  minimalSupportedApiVersion : Int32 := 0
deriving DecidableEq

def WimPacket.supportsCurrentApiVersion (p : WimPacket) (preferred : Int32) : Bool :=
  decide (p.minimalSupportedApiVersion ≤ preferred)

/-- A posted packet; its error handler goes by the number of the post that brought it. -/
structure TaskAndParams where
  packet : WimPacket
  errorHandler : Nat
deriving DecidableEq

def topPriority : Int32 := 3

def isHighPriority (priority : Int32) : Bool := decide (topPriority ≤ priority)

def sentRepeatCount : UInt32 := 2

/-! Times are in nanoseconds of the steady clock. -/

def rateLimitTimeout : Nat := 30 * 1000000000

def robustoRateLimitTimeout : Nat := 10 * 1000000000

def wpieNetworkError : Int32 := 2

def wpieErrorTooFastSending : Int32 := 17

def wpieCouldntResolveHost : Int32 := 44

def wpieRequireHigherApiVersion : Int32 := 51

def wpieErrorRobustoTooFastSending : Int32 := 9003

def isNetworkError (error : Int32) : Bool :=
  decide (wpieNetworkError = error) || decide (wpieCouldntResolveHost = error)

abbrev WimPacketsQueue : Type := PacketQueue Bytes TaskAndParams

def TaskAndParams.key (t : TaskAndParams) : Bytes := t.packet.method

def TaskAndParams.priority (t : TaskAndParams) : Int := t.packet.priority.toInt

structure WimSendThread where
  isSendingLocked : Bool := false
  highPriorityQueue : WimPacketsQueue := {}
  lowPriorityQueue : WimPacketsQueue := {}
  cancelPacketsTime : Nat := 0

namespace WimSendThread

def queue (t : WimSendThread) (high : Bool) : WimPacketsQueue :=
  if high then t.highPriorityQueue else t.lowPriorityQueue

def setQueue (t : WimSendThread) (high : Bool) (q : WimPacketsQueue) : WimSendThread :=
  if high then { t with highPriorityQueue := q } else { t with lowPriorityQueue := q }

def insertPacketInQueue (t : WimSendThread) (task : TaskAndParams) : WimSendThread :=
  let high := isHighPriority task.packet.priority
  t.setQueue high ((t.queue high).enqueue TaskAndParams.priority task)

/-- What is sent next, and whether it came from the queue of high priority. -/
def popTask (t : WimSendThread) : Option (Bool × TaskAndParams × WimSendThread) :=
  let high := t.highPriorityQueue.canPopElement TaskAndParams.key
  if t.isSendingLocked then none
  else if !high && !t.lowPriorityQueue.canPopElement TaskAndParams.key then none
  else ((t.queue high).pop TaskAndParams.key).map fun (task, q) => (high, task, t.setQueue high q)

def queued (t : WimSendThread) : List TaskAndParams :=
  t.highPriorityQueue.queue ++ t.lowPriorityQueue.queue

end WimSendThread

/-- What waits for the core context to run it. -/
inductive CoreTask where
  | requireHigherApiVersion (errorHandler : Nat)
  | executePacketFromQueue

/-- A packet the executer has, and the queue that is told when it is done. -/
structure Running where
  task : TaskAndParams
  high : Bool

structure Sending where
  thread : WimSendThread := {}
  running : List Running := []
  coreContext : List CoreTask := []
  repeatCount : Nat → UInt32 := fun _ => 0
  now : Nat := 0
  /-- How many packets have been posted, and which handlers were invoked with what. -/
  posted : Nat := 0
  invoked : List (Nat × Int32) := []

namespace Sending

/-- The executer takes the packet, and its run counts as a repeat. -/
def start (s : Sending) (task : TaskAndParams) (high : Bool) (thread : WimSendThread) : Sending :=
  { s with
    thread, running := s.running ++ [⟨task, high⟩]
    repeatCount := Function.update s.repeatCount task.packet.address
      (s.repeatCount task.packet.address + 1) }

/-- The recursion of `executePacketFromQueue`, at most as often as packets are queued. -/
def executeFromQueue : Nat → Sending → Sending
  | 0, s => s
  | left + 1, s =>
    match s.thread.popTask with
    | none => s
    | some (high, task, thread) => executeFromQueue left (s.start task high thread)

def executePacketFromQueue (s : Sending) : Sending :=
  executeFromQueue s.thread.queued.length s

/-- A valid packet is posted, while the server is known to take the given API version. -/
def postPacket (s : Sending) (packet : WimPacket) (preferred : Int32) : Sending :=
  let handler := s.posted
  let s := { s with posted := s.posted + 1 }
  if !packet.supportsCurrentApiVersion preferred then
    { s with coreContext := s.coreContext ++ [.requireHigherApiVersion handler] }
  else if s.now < s.thread.cancelPacketsTime then
    -- The packet goes no further: only the queue is executed later.
    { s with coreContext := s.coreContext ++ [.executePacketFromQueue] }
  else
    executePacketFromQueue
      { s with thread := s.thread.insertPacketInQueue ⟨packet, handler⟩ }

def lock (s : Sending) : Sending := { s with thread := { s.thread with isSendingLocked := true } }

def unlockAndExecuteQueued (s : Sending) : Sending :=
  executePacketFromQueue { s with thread := { s.thread with isSendingLocked := false } }

end Sending

/-- What a client of the thread calls, also from inside an error handler. -/
inductive Call where
  | postPacket (packet : WimPacket) (preferred : Int32)
  | lock
  | unlockAndExecuteQueued

inductive Action where
  | call (call : Call)
  /-- The running packet with the index is done; its handler, if invoked, makes the calls. -/
  | complete (index : Nat) (error : Int32) (isStopped : Bool) (calls : List Call)
  /-- The core context runs what it was given first. -/
  | runCore (calls : List Call)
  | pass (time : Nat)

namespace Sending

def perform (s : Sending) : Call → Sending
  | .postPacket packet preferred => s.postPacket packet preferred
  | .lock => s.lock
  | .unlockAndExecuteQueued => s.unlockAndExecuteQueued

/-- The handler of a post runs, and calls the thread in turn. -/
def invoke (s : Sending) (errorHandler : Nat) (error : Int32) (calls : List Call) : Sending :=
  calls.foldl perform { s with invoked := s.invoked ++ [(errorHandler, error)] }

/-- Until when posts are turned away, once a packet came back with the error. -/
def cancelTimeAfter (s : Sending) (error : Int32) : Nat :=
  if error = wpieErrorTooFastSending then s.now + rateLimitTimeout
  else if error = wpieErrorRobustoTooFastSending then s.now + robustoRateLimitTimeout
  else s.thread.cancelPacketsTime

def repeats (s : Sending) (task : TaskAndParams) (error : Int32) (isStopped : Bool) : Bool :=
  isNetworkError error && decide (s.repeatCount task.packet.address < sentRepeatCount) && !isStopped

/-- The end of the scope in `on_result_`: the method is free again, and the queue goes on. -/
def release (s : Sending) (r : Running) : Sending :=
  executePacketFromQueue { s with
    thread := s.thread.setQueue r.high ((s.thread.queue r.high).allowUsing r.task.key) }

def onResult (s : Sending) (r : Running) (error : Int32) (isStopped : Bool) (calls : List Call) :
    Sending :=
  if s.repeats r.task error isStopped then
    release { s with thread := s.thread.insertPacketInQueue r.task } r
  else
    (invoke { s with thread := { s.thread with cancelPacketsTime := s.cancelTimeAfter error } }
      r.task.errorHandler error calls).release r

def step (s : Sending) : Action → Option Sending
  | .call call => some (s.perform call)
  | .complete index error isStopped calls =>
    (s.running[index]?).map fun r =>
      onResult { s with running := s.running.eraseIdx index } r error isStopped calls
  | .runCore calls =>
    match s.coreContext with
    | [] => none
    | .executePacketFromQueue :: rest =>
      some (executePacketFromQueue { s with coreContext := rest })
    | .requireHigherApiVersion errorHandler :: rest =>
      some (invoke { s with coreContext := rest } errorHandler wpieRequireHigherApiVersion calls)
  | .pass time => some { s with now := s.now + time }

end Sending

end Icq.Wim
