import Icq.Archive.PendingWellFormed
import Icq.Wim.DownloadHoles

/-! Deletions wait in the archive until the server was told of them. The archive works on its own
thread; one loop at a time reads what waits, sends it and takes it out when it is answered. -/

namespace Icq.Archive
open Icq.Lib

/-- All deletions of the first contact that has any. -/
def PendingOperations.getPendingDeleteMessages (s : PendingOperations) :
    Option (Bytes × List DeleteMessage) :=
  match s.pendingDeleteMessages.first? with
  | none => none
  | some entry => if entry.messages.isEmpty then none else some (entry.contact, entry.messages)

namespace DeleteMessage

/-- Deletions are the same when they are of one message and of one kind. -/
def same (d x : DeleteMessage) : Bool :=
  decide (d.messageId = x.messageId) && decide (d.operation = x.operation)

end DeleteMessage

def DeleteOperation.isSent : DeleteOperation → Bool
  | .delUpTo | .delForMe | .delForAll => true
  | .min | .max => false

end Icq.Archive

namespace Icq.Wim
open Icq.Archive Icq.Lib

inductive DeletePacket where
  | delHistory (contact : Bytes) (upToId : Int64)
  | delMessageBatch (contact : Bytes) (ids : List Int64) (forAll : Bool)
deriving DecidableEq

/-- Deletions of one contact and one kind that are sent together. -/
structure DeleteBatch where
  contact : Bytes
  operation : DeleteOperation
  messages : List DeleteMessage
deriving DecidableEq

namespace DeleteBatch

def makeIds (b : DeleteBatch) : List Int64 := b.messages.map DeleteMessage.messageId

/-- A history is deleted up to the first of the messages, whatever the others are. -/
def packet (b : DeleteBatch) : Option DeletePacket :=
  match b.operation with
  | .delUpTo => b.messages.head?.map fun d => .delHistory b.contact d.messageId
  | .delForMe => some (.delMessageBatch b.contact b.makeIds false)
  | .delForAll => some (.delMessageBatch b.contact b.makeIds true)
  | .min | .max => none

def ofKind (contact : Bytes) (messages : List DeleteMessage) (operation : DeleteOperation) :
    DeleteBatch :=
  ⟨contact, operation, messages.filter fun d => decide (d.operation = operation)⟩

/-- The first kind of which there is any. -/
def first (contact : Bytes) (messages : List DeleteMessage) : Option DeleteBatch :=
  [DeleteOperation.delUpTo, .delForMe, .delForAll].map (ofKind contact messages) |>.find?
    fun b => !b.messages.isEmpty

end DeleteBatch

/-- What waits for the thread of the archive. -/
inductive DeleteTask where
  | insert (contact : Bytes) (message : DeleteMessage) (posts : Bool)
  | get
  | remove (contact : Bytes) (message : DeleteMessage)
deriving DecidableEq

/-- What the archive has done and the core is to hear of. -/
inductive DeleteResult where
  | inserted (posts : Bool)
  | got (found : Option (Bytes × List DeleteMessage))
deriving DecidableEq

/-- The store with the tasks and the results of its thread, whether the loop is on, and the packets
that have no answer yet. Of the past, the packets that got one which ends them, and the contacts
whose operations were dropped. -/
structure DeletesSending where
  store : PendingOperations := {}
  active : Bool := false
  tasks : List DeleteTask := []
  results : List DeleteResult := []
  inFlight : List DeleteBatch := []
  answered : List DeleteBatch := []
  dropped : List Bytes := []

namespace DeletesSending

def postPendingDeleteMessages (s : DeletesSending) (recursive : Bool) : DeletesSending :=
  if s.active && !recursive then s
  else { s with active := true, tasks := s.tasks ++ [.get] }

/-- A kind that is not sent ends the call, and the loop stays on. -/
def onPendingDeleteMessages (s : DeletesSending) :
    Option (Bytes × List DeleteMessage) → DeletesSending
  | none => { s with active := false }
  | some (contact, messages) =>
    if messages.all fun d => d.operation.isSent then
      match DeleteBatch.first contact messages with
      | none => { s with active := false }
      | some batch => { s with inFlight := s.inFlight ++ [batch] }
    else s

/-- An error that does not ask for another try counts as an answer. -/
def onDeleteAnswer (s : DeletesSending) (batch : DeleteBatch) (error : Int32) : DeletesSending :=
  if error ≠ 0 ∧ needsToRepeatFailed error then { s with active := false }
  else
    let s :=
      { s with
        tasks := s.tasks ++ batch.messages.map (DeleteTask.remove batch.contact)
        answered := s.answered ++ [batch] }
    s.postPendingDeleteMessages true

/-- The thread of the archive does its next task. -/
def work (env : PendingEnvironment) (s : DeletesSending) : Option DeletesSending :=
  match s.tasks with
  | [] => none
  | .insert contact message posts :: tasks =>
    some
      { s with
        tasks, store := s.store.insertDeletedMessage env contact message
        results := s.results ++ [.inserted posts] }
  | .get :: tasks =>
    some { s with tasks, results := s.results ++ [.got s.store.getPendingDeleteMessages] }
  | .remove contact message :: tasks =>
    some { s with tasks, store := s.store.removeDeletedMessage contact message }

/-- The core hears of the next result. -/
def deliver (s : DeletesSending) : Option DeletesSending :=
  match s.results with
  | [] => none
  | .inserted posts :: results =>
    let s := { s with results }
    some (if posts then s.postPendingDeleteMessages false else s)
  | .got found :: results => some (({ s with results } : DeletesSending).onPendingDeleteMessages found)

def answer (s : DeletesSending) (number : Nat) (error : Int32) : Option DeletesSending :=
  match s.inFlight[number]? with
  | none => none
  | some batch =>
    some (({ s with inFlight := s.inFlight.eraseIdx number } : DeletesSending).onDeleteAnswer
      batch error)

/-- What else happens to the pending operations of a contact. -/
def call (env : PendingEnvironment) (s : DeletesSending) (c : PendingCall) :
    Option DeletesSending :=
  (s.store.call env c).map fun store =>
    { s with
      store
      dropped := match c with
        | .drop aimid => s.dropped ++ [aimid]
        | _ => s.dropped }

end DeletesSending

/-- The core deletes a message or, with the last one of several, goes on to send; other operations
reach the store; the connection is back; and the archive, the core and the server do their next
step. -/
inductive DeletesAction where
  | delete (contact : Bytes) (message : DeleteMessage) (posts : Bool)
  | call (c : PendingCall)
  | resume
  | work
  | deliver
  | answer (number : Nat) (error : Int32)

def DeletesSending.step (env : PendingEnvironment) (s : DeletesSending) :
    DeletesAction → Option DeletesSending
  | .delete contact message posts =>
    some { s with tasks := s.tasks ++ [.insert contact message posts] }
  | .call c => s.call env c
  | .resume => some (s.postPendingDeleteMessages false)
  | .work => s.work env
  | .deliver => s.deliver
  | .answer number error => s.answer number error

end Icq.Wim
