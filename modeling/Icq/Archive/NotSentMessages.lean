import Icq.Archive.HistoryMessage

/-! Messages, edits and deletions that wait until the server confirms them. -/

namespace Icq.Archive
open Icq.Lib

inductive DeleteOperation where
  | min | delUpTo | delForMe | delForAll | max
deriving DecidableEq

/-- The ids the system generates, one after the other, and what a flag nobody sets holds. -/
structure PendingEnvironment where
  generateInternalId : Nat → Bytes
  unset : Bool

namespace HistoryMessage

def makeDeleted (m : HistoryMessage) : HistoryMessage :=
  { m with flags := { m.flags with deleted := true, patch := true } }

def makeModified (env : PendingEnvironment) (m : HistoryMessage) : HistoryMessage :=
  { m with
    flags := { m.flags with modified := true, patch := true }
    chatEvent := some (.ofType env.unset ChatEventType.messageDeleted) }

end HistoryMessage

structure DeleteMessage where
  aimid : Bytes
  messageId : Int64
  internalId : Bytes
  operation : DeleteOperation
deriving DecidableEq

structure NotSentMessage where
  aimid : Bytes
  message : HistoryMessage
  duplicated : Bool := false
  calcSentStat : Bool := false
  createTime : Int64 := 0
  modified : Bool := false
  networkRequestId : Bytes := []
  deleted : Bool := false
  deleteOperation : DeleteOperation := .delForAll
  draftDeleteTime : Option Int64 := none

namespace NotSentMessage

def internalId (e : NotSentMessage) : Bytes := e.message.internalId

def getNetworkRequestId (e : NotSentMessage) : Bytes :=
  if e.networkRequestId.isEmpty then e.internalId else e.networkRequestId

def sameId (e : NotSentMessage) (id : Bytes) : Bool :=
  decide (e.internalId = id) || decide (e.getNetworkRequestId = id)

def setDeleteOperation (env : PendingEnvironment) (e : NotSentMessage)
    (operation : DeleteOperation) : NotSentMessage :=
  { e with
    deleteOperation := operation
    message := match operation with
      | .delForAll => e.message.makeModified env
      | .delForMe => e.message.makeDeleted
      | _ => e.message }

def setFailed (e : NotSentMessage) : NotSentMessage := { e with duplicated := false }

/-- The edit of a message the server knows by now becomes an update of it. -/
def turnIntoUpdate (e : NotSentMessage) (msgid : Int64) (requestId : Bytes) : NotSentMessage :=
  { e with message := { e.message with msgid }, modified := false, networkRequestId := requestId }

/-- A new version of the message keeps the file the old one shares. -/
def withFileSharingOf (e old : NotSentMessage) : NotSentMessage :=
  match old.message.fileSharing with
  | none => e
  | some fs =>
    if fs.uri.isEmpty && fs.localPath.isEmpty then e
    else { e with message := { e.message with fileSharing := some fs } }

end NotSentMessage

/-- The deletion names a pending message by its id on the server or by its own. -/
def DeleteMessage.names (d : DeleteMessage) (e : NotSentMessage) : Bool :=
  (decide (0 < d.messageId) && decide (d.messageId = e.message.msgid)) ||
    (!d.internalId.isEmpty && decide (d.internalId = e.internalId))

def NotSentMessage.mark (env : PendingEnvironment) (d : DeleteMessage) (e : NotSentMessage) :
    NotSentMessage :=
  if d.names e then setDeleteOperation env { e with deleted := true } d.operation else e

/-- A mark leaves the ids. -/
@[simp] theorem NotSentMessage.sameId_mark (env : PendingEnvironment) (d : DeleteMessage)
    (e : NotSentMessage) (id : Bytes) : (e.mark env d).sameId id = e.sameId id := by
  unfold NotSentMessage.mark
  split
  · cases d.operation <;> rfl
  · rfl

/-- Only a deletion of a message the server knows waits to be sent. -/
def DeleteMessage.pushTo (d : DeleteMessage) (deletions : List DeleteMessage) :
    List DeleteMessage :=
  if 0 < d.messageId then deletions ++ [d] else deletions

structure MessageStatTime where
  createTime : Int64
  needStat : Bool
  contact : Bytes
  msgId : Int64

structure ContactMessages where
  contact : Bytes
  messages : List NotSentMessage

structure ContactDeletions where
  contact : Bytes
  messages : List DeleteMessage

structure PendingOperations where
  pendingMessages : KeyMap ContactMessages.contact := ∅
  pendingDeleteMessages : KeyMap ContactDeletions.contact := ∅
  /-- How many ids were generated. -/
  generated : Nat := 0

/-- A pending message that was erased, with the id the server gave it. -/
structure Erased where
  contact : Bytes
  message : NotSentMessage
  msgid : Int64

/-- The loop over the messages of a contact: `before` the iterator, and the `rest` from it on. -/
structure Removal where
  before : List NotSentMessage := []
  rest : List NotSentMessage
  deletions : List DeleteMessage
  generated : Nat
  stats : List MessageStatTime := []
  erased : List Erased := []

namespace Removal

variable (env : PendingEnvironment) (aimid : Bytes) (removeIfModified : Bool)

/-- One turn of the loop, for a message of the server. -/
def visit (block : HistoryMessage) (r : Removal) : Removal :=
  match r.rest with
  | [] => r
  | e :: rest =>
    if e.sameId block.internalId then
      let stats := r.stats ++ [⟨e.createTime, e.calcSentStat, e.aimid, block.msgid⟩]
      let erased := r.erased ++ [⟨aimid, e, block.msgid⟩]
      if e.deleted then
        -- The deletion marks its namesakes among the messages the loop runs over.
        let d : DeleteMessage := ⟨aimid, block.msgid, e.internalId, e.deleteOperation⟩
        { r with before := r.before.map (NotSentMessage.mark env d), rest := rest.map (NotSentMessage.mark env d)
                 deletions := d.pushTo r.deletions, stats, erased }
      else if e.modified && !removeIfModified then
        { r with
          before := r.before ++ [e.turnIntoUpdate block.msgid (env.generateInternalId r.generated)]
          rest, generated := r.generated + 1, stats }
      else { r with rest, stats, erased }
    else { r with before := r.before ++ [e], rest }

/-- Every turn takes one message. -/
theorem visit_rest_length (block : HistoryMessage) (r : Removal) :
    (r.visit env aimid removeIfModified block).rest.length = r.rest.length - 1 := by
  unfold visit
  split
  · simp [*]
  · rename_i e rest he
    rw [he]
    split
    · split
      · simp
      · split <;> rfl
    · rfl

theorem iterate_visit_rest (block : HistoryMessage) (r : Removal) :
    ((visit env aimid removeIfModified block)^[r.rest.length] r).rest = [] := by
  have h (n : Nat) : ((visit env aimid removeIfModified block)^[n] r).rest.length =
      r.rest.length - n := by
    induction n with
    | zero => rfl
    | succ n ih => rw [Function.iterate_succ_apply', visit_rest_length, ih, Nat.sub_sub]
  exact List.length_eq_zero_iff.mp (by rw [h, Nat.sub_self])

/-- The loop once over all messages. -/
def removeBlock (r : Removal) (block : HistoryMessage) : Removal :=
  let r := (visit env aimid removeIfModified block)^[r.rest.length] r
  { r with before := [], rest := r.before }

/-- What is said of each block and the messages it meets, when its turn comes. -/
def EachBlock (P : HistoryMessage → List NotSentMessage → Prop) :
    Removal → List HistoryMessage → Prop
  | _, [] => True
  | r, block :: data =>
    P block r.rest ∧ EachBlock P (removeBlock env aimid removeIfModified r block) data

/-- What a turn keeps, the loop keeps. -/
theorem removeBlock_induct {I : Removal → Prop} {r : Removal} {block : HistoryMessage} (hr : I r)
    (keep : ∀ r, I r → I (r.visit env aimid removeIfModified block)) :
    ∃ r', I r' ∧ r'.rest = [] ∧
      removeBlock env aimid removeIfModified r block = { r' with before := [], rest := r'.before } :=
  ⟨_, Function.Iterate.rec I hr keep r.rest.length, iterate_visit_rest .., rfl⟩

variable {env aimid removeIfModified}

theorem EachBlock.foldl {P : HistoryMessage → List NotSentMessage → Prop} {I : Removal → Prop}
    {data : List HistoryMessage} {r : Removal}
    (h : EachBlock env aimid removeIfModified P r data) (hr : I r)
    (keep : ∀ r block, I r → P block r.rest → I (removeBlock env aimid removeIfModified r block)) :
    I (data.foldl (removeBlock env aimid removeIfModified) r) := by
  induction data generalizing r with
  | nil => exact hr
  | cons block data ih => exact ih h.2 (keep r block hr h.1)

end Removal

namespace PendingOperations

variable (env : PendingEnvironment)

def messagesOf (s : PendingOperations) (contact : Bytes) : List NotSentMessage :=
  ((s.pendingMessages.find? contact).map ContactMessages.messages).getD []

def deletionsOf (s : PendingOperations) (contact : Bytes) : List DeleteMessage :=
  ((s.pendingDeleteMessages.find? contact).map ContactDeletions.messages).getD []

def setMessages (s : PendingOperations) (contact : Bytes) (messages : List NotSentMessage) :
    PendingOperations :=
  { s with pendingMessages := s.pendingMessages.put ⟨contact, messages⟩ }

def setDeletions (s : PendingOperations) (contact : Bytes) (deletions : List DeleteMessage) :
    PendingOperations :=
  { s with pendingDeleteMessages :=
      if deletions.isEmpty then s.pendingDeleteMessages
      else s.pendingDeleteMessages.put ⟨contact, deletions⟩ }

/-- The first message with the internal id is replaced. -/
def replaceFirst (internalId : Bytes) (f : NotSentMessage → NotSentMessage) :
    List NotSentMessage → Option (List NotSentMessage)
  | [] => none
  | e :: es =>
    if e.internalId = internalId then some (f e :: es)
    else (replaceFirst internalId f es).map (e :: ·)

def insertMessage (s : PendingOperations) (aimid : Bytes) (message : NotSentMessage) :
    PendingOperations :=
  let messages := s.messagesOf aimid
  s.setMessages aimid
    ((replaceFirst message.internalId (fun _ => message) messages).getD (messages ++ [message]))

/-- `none` where there is no such message. -/
def updateMessageIfExist (s : PendingOperations) (aimid : Bytes) (message : NotSentMessage) :
    Option PendingOperations :=
  (replaceFirst message.internalId message.withFileSharingOf (s.messagesOf aimid)).map
    (s.setMessages aimid)

def insertDeletedMessage (s : PendingOperations) (contact : Bytes) (d : DeleteMessage) :
    PendingOperations :=
  let s := match s.pendingMessages.find? contact with
    | none => s
    | some entry => s.setMessages contact (entry.messages.map (NotSentMessage.mark env d))
  s.setDeletions contact (d.pushTo (s.deletionsOf contact))

/-- The blocks of the server one after the other, each against all messages of the contact. -/
def removal (s : PendingOperations) (aimid : Bytes) (removeIfModified : Bool)
    (data : List HistoryMessage) : Removal :=
  data.foldl (Removal.removeBlock env aimid removeIfModified)
    { rest := s.messagesOf aimid, deletions := s.deletionsOf aimid, generated := s.generated }

def remove (s : PendingOperations) (aimid : Bytes) (removeIfModified : Bool)
    (data : List HistoryMessage) : PendingOperations × List MessageStatTime :=
  if (s.messagesOf aimid).isEmpty then (s.setMessages aimid [], [])
  else
    let r := s.removal env aimid removeIfModified data
    let s := { s.setDeletions aimid r.deletions with generated := r.generated }
    (if r.rest.isEmpty then { s with pendingMessages := s.pendingMessages.erase aimid }
     else s.setMessages aimid r.rest, r.stats)

/-- In each contact the first message that goes by the id. -/
def removeById (s : PendingOperations) (id : Bytes) : PendingOperations :=
  let eraseFirst (entry : ContactMessages) : ContactMessages :=
    { entry with messages := entry.messages.eraseP (·.sameId id) }
  { s with pendingMessages := s.pendingMessages.mapValues eraseFirst fun _ => rfl }

def getMessageByInternalId (s : PendingOperations) (id : Bytes) : Option NotSentMessage :=
  s.pendingMessages.items.findSome? fun entry => entry.messages.find? (·.internalId = id)

def updateWithImstate (s : PendingOperations) (id : Bytes) (histMsgId _beforeHistMsgId : Int64) :
    PendingOperations × Option NotSentMessage :=
  match s.getMessageByInternalId id with
  | none => (s, none)
  | some msg =>
    if 0 < histMsgId then
      if msg.deleted then
        ((s.insertDeletedMessage env msg.aimid
          ⟨msg.aimid, histMsgId, id, msg.deleteOperation⟩).removeById id, some msg)
      else if msg.modified then (s, some msg)
      else (s.removeById id, some msg)
    else (s, none)

/-- The first contact that has the message is changed. -/
def failedPendingMessage (s : PendingOperations) (id : Bytes) : PendingOperations :=
  match s.pendingMessages.items.find? (·.messages.any (·.internalId = id)) with
  | none => s
  | some entry =>
    s.setMessages entry.contact
      ((replaceFirst id NotSentMessage.setFailed entry.messages).getD entry.messages)

end PendingOperations

inductive PendingAction where
  | insertMessage (aimid : Bytes) (message : NotSentMessage)
  | updateMessageIfExist (aimid : Bytes) (message : NotSentMessage)
  | insertDeletedMessage (contact : Bytes) (message : DeleteMessage)
  | remove (aimid : Bytes) (removeIfModified : Bool) (data : List HistoryMessage)
  | updateWithImstate (id : Bytes) (histMsgId beforeHistMsgId : Int64)
  | failedPendingMessage (id : Bytes)

namespace PendingOperations

def step (env : PendingEnvironment) (s : PendingOperations) : PendingAction → PendingOperations
  | .insertMessage aimid message => s.insertMessage aimid message
  | .updateMessageIfExist aimid message => (s.updateMessageIfExist aimid message).getD s
  | .insertDeletedMessage contact message => s.insertDeletedMessage env contact message
  | .remove aimid removeIfModified data => (s.remove env aimid removeIfModified data).1
  | .updateWithImstate id histMsgId beforeHistMsgId =>
    (s.updateWithImstate env id histMsgId beforeHistMsgId).1
  | .failedPendingMessage id => s.failedPendingMessage id

/-- A replacement leaves every message in place but the one it is for. -/
theorem mem_replaceFirst {id : Bytes} {f : NotSentMessage → NotSentMessage} {e : NotSentMessage}
    {l l' : List NotSentMessage} (h : replaceFirst id f l = some l') (he : e ∈ l) :
    e ∈ l' ∨ e.internalId = id ∧ f e ∈ l' := by
  induction l generalizing l' with
  | nil => cases he
  | cons head l ih =>
    simp only [replaceFirst] at h
    split at h
    · rename_i hid
      obtain rfl := Option.some.inj h
      rcases List.mem_cons.mp he with rfl | he
      · exact .inr ⟨hid, List.mem_cons_self⟩
      · exact .inl (List.mem_cons_of_mem _ he)
    · obtain ⟨rest, hrest, rfl⟩ := Option.map_eq_some_iff.mp h
      rcases List.mem_cons.mp he with rfl | he
      · exact .inl List.mem_cons_self
      · exact (ih hrest he).imp (List.mem_cons_of_mem _)
          fun ⟨hid, hf⟩ => ⟨hid, List.mem_cons_of_mem _ hf⟩

section

variable (s : PendingOperations) (contact other : Bytes)

@[simp] theorem messagesOf_setMessages (messages : List NotSentMessage) :
    (s.setMessages contact messages).messagesOf other =
      if contact = other then messages else s.messagesOf other := by
  simp only [messagesOf, setMessages, KeyMap.find_put]
  split <;> rfl

@[simp] theorem deletionsOf_setMessages (messages : List NotSentMessage) :
    (s.setMessages contact messages).deletionsOf other = s.deletionsOf other := rfl

@[simp] theorem messagesOf_setDeletions (deletions : List DeleteMessage) :
    (s.setDeletions contact deletions).messagesOf other = s.messagesOf other := rfl

/-- No contact is left without any of its deletions. -/
theorem deletionsOf_setDeletions {deletions : List DeleteMessage}
    (h : deletions = [] → s.deletionsOf contact = []) :
    (s.setDeletions contact deletions).deletionsOf other =
      if contact = other then deletions else s.deletionsOf other := by
  unfold setDeletions
  cases deletions with
  | nil =>
    by_cases hc : contact = other
    · simpa [hc] using hc ▸ h rfl
    · simp [hc, deletionsOf]
  | cons d ds =>
    simp only [deletionsOf, List.isEmpty_cons, Bool.false_eq_true, if_false, KeyMap.find_put]
    split <;> rfl

@[simp] theorem messagesOf_removeById (id : Bytes) :
    (s.removeById id).messagesOf contact = (s.messagesOf contact).eraseP (·.sameId id) := by
  simp only [messagesOf, removeById, KeyMap.find_mapValues]
  cases s.pendingMessages.find? contact <;> rfl

@[simp] theorem deletionsOf_removeById (id : Bytes) :
    (s.removeById id).deletionsOf contact = s.deletionsOf contact := rfl

variable (env : PendingEnvironment) (d : DeleteMessage)

@[simp] theorem messagesOf_insertDeletedMessage :
    (s.insertDeletedMessage env contact d).messagesOf other =
      if contact = other then (s.messagesOf other).map (NotSentMessage.mark env d)
      else s.messagesOf other := by
  unfold insertDeletedMessage
  by_cases hc : contact = other
  · subst hc
    cases hf : s.pendingMessages.find? contact with
    | none =>
      have hm : s.messagesOf contact = [] := by simp [messagesOf, hf]
      simp [hm]
    | some entry =>
      have hm : s.messagesOf contact = entry.messages := by simp [messagesOf, hf]
      simp [hm]
  · cases s.pendingMessages.find? contact <;> simp [hc]

theorem deletionsOf_insertDeletedMessage :
    (s.insertDeletedMessage env contact d).deletionsOf other =
      if contact = other then d.pushTo (s.deletionsOf other) else s.deletionsOf other := by
  have hpush (l : List DeleteMessage) (h : d.pushTo l = []) : l = [] := by
    unfold DeleteMessage.pushTo at h
    split at h
    · simp at h
    · exact h
  unfold insertDeletedMessage
  cases hf : s.pendingMessages.find? contact with
  | none =>
    rw [deletionsOf_setDeletions _ _ _ (hpush _)]
    split <;> simp_all
  | some entry =>
    rw [deletionsOf_setDeletions _ _ _ (hpush _)]
    split <;> simp_all

variable (aimid : Bytes) (removeIfModified : Bool) (data : List HistoryMessage)

/-- What the blocks leave of the messages of their contact. -/
theorem messagesOf_remove :
    (s.remove env aimid removeIfModified data).1.messagesOf aimid =
      if s.messagesOf aimid = [] then [] else (s.removal env aimid removeIfModified data).rest := by
  unfold remove
  by_cases hnil : s.messagesOf aimid = []
  · simp [hnil]
  · simp only [List.isEmpty_iff, hnil, if_false]
    split
    · simp_all [messagesOf]
    · simp

theorem messagesOf_remove_other (h : aimid ≠ other) :
    (s.remove env aimid removeIfModified data).1.messagesOf other = s.messagesOf other := by
  unfold remove
  split
  · simp [h]
  · dsimp only
    split
    · simp [messagesOf, h.symm, setDeletions]
    · rw [messagesOf_setMessages, if_neg h]
      rfl

theorem deletionsOf_remove (h : s.messagesOf aimid ≠ [])
    (hkeep : (s.removal env aimid removeIfModified data).deletions = [] → s.deletionsOf aimid = []) :
    (s.remove env aimid removeIfModified data).1.deletionsOf aimid =
      (s.removal env aimid removeIfModified data).deletions := by
  have hset := deletionsOf_setDeletions s aimid aimid hkeep
  rw [if_pos rfl] at hset
  unfold remove
  rw [if_neg (by simpa using h)]
  dsimp only
  split <;> exact hset

end

end PendingOperations

end Icq.Archive
