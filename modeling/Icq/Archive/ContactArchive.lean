import Icq.Archive.DlgState
import Icq.Archive.IndexFile
import Icq.Archive.MessagesData

/-! The archive of a contact: the index, the data file and the state of the dialog together. -/

namespace Icq.Archive
open Icq.Lib Icq.Tools Icq.Common

namespace HistoryMessage

def hasPrevMsgid (m : HistoryMessage) : Bool := decide (0 < m.prevMsgid)

def isPatch (m : HistoryMessage) : Bool := m.flags.patch

def hasSharedContactWithSn (m : HistoryMessage) : Bool := m.sharedContact.any (!·.sn.isEmpty)

def hasPollWithId (m : HistoryMessage) : Bool := m.poll.any (!·.id.isEmpty)

def hasTaskWithId (m : HistoryMessage) : Bool := m.task.any (!·.id.isEmpty)

def hasReactions (m : HistoryMessage) : Bool := m.reactions.any (·.exist)

def hasThread (m : HistoryMessage) : Bool := !m.threadId.isEmpty

/-- What the index takes over. -/
def received (m : HistoryMessage) : ReceivedMessage :=
  { flags := m.flags, time := m.time.toUInt64, msgid := m.msgid, prevMsgid := m.prevMsgid
    dataOffset := m.dataOffset, dataSize := m.dataSize, updatePatchVersion := m.updatePatchVersion
    hasSharedContactWithSn := m.hasSharedContactWithSn, hasPollWithId := m.hasPollWithId
    hasTaskWithId := m.hasTaskWithId, hasReactions := m.hasReactions, hasThread := m.hasThread }

end HistoryMessage

namespace MessagesData

/-- Write messages one behind the other up to the first that fails; those before it know where
they lie. -/
def writeMessages (w : Surroundings) :
    Storage → List HistoryMessage → ResultType × List HistoryMessage × Storage
  | s, [] => ({}, [], s)
  | s, message :: rest =>
    let data := message.serialize w
    let written := s.writeDataBlock (.ofBytes data)
    if !written.result.result then (written.result, message :: rest, written.storage)
    else
      let message := { message with
        dataOffset := Int64.ofInt written.offset, dataSize := UInt32.ofNat data.length }
      let (result, rest, s) := writeMessages w written.storage rest
      (result, message :: rest, s)

def update (w : Surroundings) (disk : Disk) (messages : List HistoryMessage) :
    ResultType × List HistoryMessage × Disk :=
  match Storage.open { write := true, append := true } disk with
  | .error _ => (⟨false, 0⟩, messages, disk)
  | .ok s =>
    let (result, messages, s) := writeMessages w s messages
    (result, messages, disk.close s)

end MessagesData

namespace MessageHeader

def isMessageDataValid (h : MessageHeader) : Bool := h.dataOffset != Int64.maxValue

def invalidateDataOffset (h : MessageHeader) : MessageHeader :=
  { h with dataOffset := Int64.maxValue }

def setUpdated (h : MessageHeader) : MessageHeader :=
  { h with flags := { h.flags with updated := true } }

end MessageHeader

def ArchiveIndex.invalidateMessageData (s : ArchiveIndex) (msgid : Int64) (markAsUpdated : Bool) :
    ArchiveIndex :=
  match s.headersIndex.find? msgid with
  | none => s
  | some header =>
    let header := header.invalidateDataOffset
    let header := if markAsUpdated && !header.isPatch then header.setUpdated else header
    { s with headersIndex := s.headersIndex.put header }

/-- Nothing about a message is new to the index. -/
def skipDuplicate (message : HistoryMessage) (existing : MessageHeader) : Bool :=
  let isPatchOperation := message.isPatch != existing.isPatch
  let isVersionUpdated := existing.updatePatchVersion.lessThan message.updatePatchVersion
  let quoteWithChatName := message.quotes.head?.any (!·.chatName.isEmpty)
  let isPrevIdChanged := message.prevMsgid != existing.prevId
  let sharedContactSnAdded := message.hasSharedContactWithSn && !existing.hasSharedContactWithSn
  let pollIdAdded := message.hasPollWithId && !existing.hasPollWithId
  let taskIdAdded := message.hasTaskWithId && !existing.hasTaskWithId
  let reactionsChanged := message.hasReactions != existing.hasReactions
  let threadIdChanged := message.hasThread != existing.hasThread
  !isPatchOperation && !quoteWithChatName && !isPrevIdChanged && !isVersionUpdated &&
    existing.isMessageDataValid && !sharedContactSnAdded && !pollIdAdded && !reactionsChanged &&
    !threadIdChanged && !taskIdAdded

/-- A message that comes to the archive has an id. -/
structure ArrivedMessage where
  message : HistoryMessage
  hasMsgid : message.hasMsgid = true

/-- The archive of a contact with its files; mentions and gallery are kept apart from these. -/
structure ContactArchive where
  index : ArchiveIndex := {}
  indexDisk : Disk := {}
  dataDisk : Disk := {}
  state : DlgState := {}
  localLoaded : Bool := false

namespace ContactArchive

variable (w : Surroundings)

def deleteMessagesUpTo (a : ContactArchive) (now : Option Int64) (upTo : Int64) : ContactArchive :=
  let isLastMessageObsolete :=
    a.state.lastMessage.hasMsgid && decide (a.state.lastMessage.msgid ≤ upTo)
  let isLastMsgidObsolete := a.state.hasLastMsgid && decide (a.state.lastMsgid ≤ upTo)
  let state :=
    if isLastMessageObsolete || isLastMsgidObsolete then
      (DlgState.mergeState now a.state
        { a.state with lastMessage := {}, lastMsgid := -1, lastMsgid_ok := DlgState.noLastMsgid_ok } {}).2.1
    else a.state
  let (index, saved) := a.index.deleteUpTo upTo
  { a with
    state, index
    indexDisk := if saved then (index.saveAll a.indexDisk).2 else a.indexDisk }

/-- Load the index, and delete from it what the state of the dialog says; nothing if the program
ends at a null pointer. -/
def loadFromLocal (a : ContactArchive) (now : Option Int64) (currentTime : Int) :
    Option ContactArchive :=
  if a.localLoaded then some a
  else
    match a.index.loadFromLocal a.indexDisk currentTime with
    | none => none
    | some (ok, index) =>
      let indexDisk :=
        if !ok && decide (index.lastError ≠ .fileNotExist) then (index.saveAll a.indexDisk).2
        else a.indexDisk
      let a : ContactArchive := { a with index, indexDisk, localLoaded := true }
      let firstId : Int64 := index.getFirstMsgid
      if 0 < firstId ∧ a.state.hasDelUpTo = true ∧ firstId < a.state.delUpTo then
        some (a.deleteMessagesUpTo now a.state.delUpTo)
      else some a

/-- The messages of headers; headers whose message cannot be read are marked for an update. -/
def getMessagesBuddiesFromHeaders (a : ContactArchive) (headers : List MessageHeader) :
    Outcome (Bool × List HistoryMessage × ContactArchive) :=
  if headers.isEmpty then .ok (false, [], a)
  else do
    let (errors, messages) ← MessagesData.getMessages w a.dataDisk headers []
    let index := errors.foldl (fun (s : ArchiveIndex) e =>
      if 0 < e.1 then s.invalidateMessageData e.1 true else s) a.index
    pure (!messages.isEmpty, messages, { a with index })

def getMessagesBuddiesFromIds (a : ContactArchive) (ids : List Int64) :
    Outcome (Bool × List HistoryMessage × ContactArchive) :=
  a.getMessagesBuddiesFromHeaders w ((ids.filterMap a.index.getHeader).filter (!·.isPatch))

/-- What of a message is put in: nothing if it is known or erased. -/
def insertedMessage (a : ContactArchive) (arrived : ArrivedMessage) : Option HistoryMessage :=
  let message := arrived.message
  let delUpTo := a.state.delUpTo
  if (a.index.getHeader message.msgid).any (skipDuplicate message) then none
  else if message.hasMsgid ∧ message.msgid ≤ delUpTo then none
  else if message.hasPrevMsgid ∧ message.prevMsgid ≤ delUpTo then
    some { message with prevMsgid := -1 }
  else some message

/-- Write messages to the data file, and then their headers to the index. -/
def store (a : ContactArchive) (messages : List HistoryMessage) (currentTime : Int) :
    ResultType × List MessageHeader × ContactArchive :=
  let (result, messages, dataDisk) := MessagesData.update w a.dataDisk messages
  let a := { a with dataDisk }
  if !result.result then (result, [], a)
  else
    let (result, headers, index, indexDisk) :=
      a.index.update a.indexDisk (messages.map HistoryMessage.received) currentTime
    (result, headers, { a with index, indexDisk })

/-- A block that brings nothing may still tell that there is nothing before a message. -/
def insertHistoryBlock (a : ContactArchive) (data : List ArrivedMessage) (currentTime : Int)
    (fromId : Int64) (hasOlderMessageId : Bool) :
    Outcome (ResultType × List MessageHeader × ContactArchive) :=
  let insertData := data.filterMap a.insertedMessage
  if insertData.isEmpty then
    if fromId != -1 && !hasOlderMessageId then do
      let (found, messages, a) ← a.getMessagesBuddiesFromIds w [fromId]
      if found then
        let messages :=
          match messages with
          | [] => []
          | first :: rest => { first with prevMsgid := -1 } :: rest
        pure (a.store w messages currentTime)
      else pure ({}, [], a)
    else pure ({}, [], a)
  else pure (a.store w insertData currentTime)

end ContactArchive

end Icq.Archive
