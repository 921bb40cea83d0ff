import Icq.Archive.ContactArchive
import Icq.Archive.HoleRequest
import Icq.Wim.HistoryPatches
import Icq.Wim.SendThread

/-! How the holes in the history of a contact are filled: the index is searched for one, the server
is asked for what belongs there, and the search goes on where it ended. -/

namespace Icq.Archive
open Icq.Lib Icq.Tools Icq.Common

namespace DlgState

def hasPinnedMessage (s : DlgState) : Bool := s.pinnedMessage.hasMsgid

/-- The last message, if it is in a block. -/
def setLastMessage (s : DlgState) (block : List HistoryMessage) : DlgState :=
  if !s.hasLastMsgid then s
  else
    match block.find? fun m => m.msgid == s.lastMsgid with
    | some m => { s with lastMessage := m }
    | none => s

end DlgState

namespace ContactArchive

def setDlgState (a : ContactArchive) (now : Option Int64) (state : DlgState) : ContactArchive :=
  { a with state := (DlgState.mergeState now a.state state {}).2.1 }

def dropHistory (a : ContactArchive) : ContactArchive :=
  let index := a.index.free
  { a with
    index
    indexDisk := (index.saveAll a.indexDisk).2
    dataDisk :=
      match Storage.open { write := true, truncate := true } a.dataDisk with
      | .error _ => a.dataDisk
      | .ok s => a.dataDisk.close s }

end ContactArchive

end Icq.Archive

namespace Icq.Wim
open Icq.Lib Icq.Tools Icq.Archive

/-- Each message is linked to the one before it. What cannot be parsed is left out, and so is a
message that comes twice in a row. -/
def parseHistoryMessagesArray (olderMsgId : Int64) :
    List (Option HistoryMessage) → List HistoryMessage
  | [] => []
  | none :: rest => parseHistoryMessagesArray olderMsgId rest
  | some msg :: rest =>
    if olderMsgId = msg.msgid then parseHistoryMessagesArray olderMsgId rest
    else { msg with prevMsgid := olderMsgId } :: parseHistoryMessagesArray msg.msgid rest

/-- What the server answers: its messages, the oldest first, the id of the one before them, the
patches and the state of the dialog. -/
structure HistoryReply where
  olderMsgid : Int64 := -1
  nodes : List (Option HistoryMessage) := []
  patches : List HistoryPatch := []
  dlgState : DlgState := {}

namespace HistoryReply

def hasOlderMsgid (reply : HistoryReply) : Bool := reply.olderMsgid != -1

def messages (reply : HistoryReply) : List HistoryMessage :=
  parseHistoryMessagesArray reply.olderMsgid reply.nodes

/-- The messages with those that patches become, and the state. -/
def parseResults (unset : Bool) (reply : HistoryReply) : PatchedHistory :=
  PatchedHistory.applyPatches
    { block := reply.messages, dlgState := reply.dlgState.setLastMessage reply.messages }
    unset reply.patches

end HistoryReply

def wpieErrorResend : Int32 := 39
def wpieRobustoTimeout : Int32 := 500
def wpieErrorTaskCanceled : Int32 := 2000

def isNetworkErrorOrCanceled (error : Int32) : Bool :=
  isNetworkError error || decide (wpieErrorResend = error) || decide (wpieErrorTaskCanceled = error)

def needsToRepeatFailed (error : Int32) : Bool :=
  isNetworkErrorOrCanceled error || decide (error = wpieRobustoTimeout)

/-- A request for a hole of one contact. -/
structure HoleRequest where
  fromId : Int64
  depth : Int64 := -1
  recursion : Int32 := 0
deriving DecidableEq

/-- The failed request of a contact; the second that fails makes it a search from the newest. -/
def addFailedRequest (failed : Option HoleRequest) (request : HoleRequest) : Option HoleRequest :=
  match failed with
  | none => some request
  | some _ => some { fromId := -1, depth := -1, recursion := -1 }

inductive IgnoreReason where
  | noHole (error : ArchiveHoleError)
  | recursion | safetyLimit | obsolete | depthTail
deriving DecidableEq

/-- A hole for which the server is asked, and how deep the search goes on behind it. -/
structure HoleRound where
  request : HoleRequest
  hole : ArchiveHole
  depthTail : Int64 := -1
deriving DecidableEq

/-- Where a search for holes stands: it waits for its turn in the archive, or for the server. -/
inductive HolesStage where
  | search (request : HoleRequest)
  | check (request : HoleRequest) (hole : ArchiveHole)
  | ask (round : HoleRound)
  | received (round : HoleRound) (reply : HistoryReply)
  | merge (round : HoleRound) (history : PatchedHistory) (hasOlder : Bool)
  | insert (round : HoleRound) (block : List HistoryMessage) (hasOlder : Bool)
  | validate (round : HoleRound)
  | ignored (why : IgnoreReason)
  | failed (error : Int32)
  | dropped
  | cleared

section Search

variable (a : ContactArchive)

def searchHole (request : HoleRequest) : HolesStage :=
  match a.index.getNextHole request.fromId {} request.depth with
  | (.ok, hole) =>
    if 0 < request.recursion && hole.fromId == -1 then .ignored .recursion
    else if 30000 < request.recursion then .ignored .safetyLimit
    else .check request hole
  | (error, _) => .ignored (.noHole error)

def isRequestObsolete (hole : ArchiveHole) (state : DlgState) : Bool :=
  (hole.hasFrom && decide (hole.fromId ≤ state.delUpTo)) ||
    (hole.hasTo && decide (hole.toId ≤ state.delUpTo))

/-- The server is asked unless the hole was deleted or is deeper than what is looked for. -/
def checkHole (pageSize : Int64) (request : HoleRequest) (hole : ArchiveHole) : HolesStage :=
  if isRequestObsolete hole a.state then .ignored .obsolete
  else if request.depth ≠ -1 then
    let depthTail := request.depth - hole.depth
    if depthTail ≤ 0 then .ignored .depthTail
    else .ask { request, hole, depthTail := depthTail + (pageSize + 1) }
  else .ask { request, hole }

end Search

section Reply

/-- The newest message of a tail is older than what the index has. -/
def isTailBehind (a : ContactArchive) (isTail : Bool) (messages : List HistoryMessage) : Bool :=
  isTail && (messages.map (·.msgid)).max?.any fun id => decide (id < a.index.getLastMsgid)

def isShownMessage (m : HistoryMessage) : Bool := !m.flags.deleted && !m.isPatch && !m.flags.modified

/-- What the local state knows better than the answer. -/
def completeDlgState (stored : DlgState) (isTail : Bool) (patches : List HistoryPatch)
    (history : PatchedHistory) : DlgState :=
  let new := history.dlgState
  let new := { new with
    official := stored.official, friendly := stored.friendly, suspicious := stored.suspicious
    stranger := stored.stranger, lastReadMention := stored.lastReadMention }
  let new :=
    match if isTail then history.block.reverse.find? isShownMessage else none with
    | some m => { new with lastMessage := m }
    | none => new
  let unpin := history.unpinned || patches.any fun p =>
    (p.type = .deleted || p.type = .modified) && p.messageId == stored.pinnedMessage.msgid
  if !new.hasPinnedMessage && !unpin then { new with pinnedMessage := stored.pinnedMessage } else new

/-- The answer has come and the state of the dialog is read. -/
def receiveReply (unset : Bool) (a : ContactArchive) (round : HoleRound) (reply : HistoryReply) :
    ContactArchive × HolesStage :=
  let history := reply.parseResults unset
  let isTail := round.hole.fromId == -1
  if isTailBehind a isTail history.block then (a.dropHistory, .dropped)
  else
    let dlgState := completeDlgState a.state isTail reply.patches history
    (a, .merge round { history with dlgState } reply.hasOlderMsgid)

def mergeReply (a : ContactArchive) (now : Option Int64) (round : HoleRound)
    (history : PatchedHistory) (hasOlder : Bool) : ContactArchive × HolesStage :=
  let a := a.setDlgState now history.dlgState
  if history.block.any fun m => m.isPatch && m.flags.clear then (a.dropHistory, .cleared)
  else (a, .insert round history.block hasOlder)

/-- The messages that have an id. -/
def arrivedMessages (block : List HistoryMessage) : List ArrivedMessage :=
  block.filterMap fun message =>
    if hasMsgid : message.hasMsgid = true then some { message, hasMsgid } else none

/-- Nothing if the program ends at a null pointer. -/
def insertReply (w : Surroundings) (a : ContactArchive) (currentTime : Int) (round : HoleRound)
    (block : List HistoryMessage) (hasOlder : Bool) : Option (ContactArchive × HolesStage) :=
  match a.insertHistoryBlock w (arrivedMessages block) currentTime round.hole.fromId hasOlder with
  | .ok (_, _, a) => some (a, .validate round)
  | _ => none

def validateHole (a : ContactArchive) (pageSize : Int64) (round : HoleRound) : HolesStage :=
  .search
    { fromId := a.index.validateHoleRequest round.hole (-pageSize).toInt32
      depth := round.depthTail, recursion := round.request.recursion + 1 }

end Reply

/-- What the environment is at a step: the clock, and the size of a page. -/
structure HolesClock where
  now : Option Int64 := none
  currentTime : Int := 0
  pageSize : Int64 := 100

/-- The next step of a search that does not wait for the server. -/
def HolesStage.next (w : Surroundings) (clock : HolesClock) (a : ContactArchive) :
    HolesStage → Option (ContactArchive × HolesStage)
  | .search request => some (a, searchHole a request)
  | .check request hole => some (a, checkHole a clock.pageSize request hole)
  | .received round reply => some (receiveReply w.unset a round reply)
  | .merge round history hasOlder => some (mergeReply a clock.now round history hasOlder)
  | .insert round block hasOlder => insertReply w a clock.currentTime round block hasOlder
  | .validate round => some (a, validateHole a clock.pageSize round)
  | .ask _ | .ignored _ | .failed _ | .dropped | .cleared => none

/-- The search from the last message that the state of the dialog knows of. -/
def downloadHoles (state : DlgState) (depth : Int64) : HolesStage :=
  .search { fromId := if state.hasLastMsgid then state.lastMsgid else -1, depth }

end Icq.Wim
