import Icq.Archive.FastRead
import Icq.Archive.HistoryMessage
import Icq.Archive.StorageRoundTrip

/-! The messages that headers stand for, read from the data file. -/

namespace Icq.Archive
open Icq.Lib Icq.Tools

namespace HistoryMessage

def applyHeaderFlags (m : HistoryMessage) (header : MessageHeader) : HistoryMessage :=
  { m with
    flags := { m.flags with
      deleted := header.isDeleted, restoredPatch := header.isRestoredPatch } }

def resetExtendedData (m : HistoryMessage) : HistoryMessage :=
  { m with sticker := none, mult := none, voip := none, fileSharing := none, chatEvent := none }

/-- A modification brings a text, or else an event. -/
def applyModification (m modification : HistoryMessage) : HistoryMessage :=
  if !modification.text.isEmpty then { m.resetExtendedData with text := modification.text }
  else
    match modification.chatEvent with
    | some chatEvent => { m.resetExtendedData with chatEvent := some chatEvent }
    | none => m

def applyModifications (m : HistoryMessage) (modifications : List HistoryMessage) :
    HistoryMessage :=
  modifications.foldl applyModification m

theorem applyModifications_msgid (m : HistoryMessage) (modifications : List HistoryMessage) :
    (m.applyModifications modifications).msgid = m.msgid := by
  induction modifications generalizing m with
  | nil => rfl
  | cons modification rest ih =>
    refine (ih _).trans ?_
    unfold applyModification
    split
    · rfl
    · split <;> rfl

end HistoryMessage

/-- What stands for a header whose message cannot be read. -/
def makeFakeMessage (header : MessageHeader) : HistoryMessage :=
  { ({} : HistoryMessage).applyHeaderFlags header with
    msgid := header.id, prevMsgid := header.prevId, time := header.time.toInt64
    text := ascii "Invalid message data. Will be updated soon".toList }

/-- What is read for a header, and the code of the error if that is a fake. -/
structure Fetched where
  error : Option Int32 := none
  message : HistoryMessage

def Fetched.fake (code : Int32) (header : MessageHeader) : Fetched :=
  { error := some code, message := makeFakeMessage header }

namespace MessagesData

variable (w : Surroundings)

/-- The buffer behind a reader of values, which may leave some of it. -/
def drained (data : BinaryStream) : BinaryStream :=
  data.setOutput (data.inputCursor - (TlvPack.unserialize data.unread).left.length)

/-- The buffer goes from one modification to the next as it is. -/
def readModifications : Storage → BinaryStream → List MessageHeader →
    Outcome (List HistoryMessage × Storage)
  | s, _, [] => .ok ([], s)
  | s, data, header :: rest =>
    match s.readDataBlock header.dataOffset.toInt data with
    | (false, data, s) => readModifications s data rest
    | (true, data, s) =>
      match HistoryMessage.unserialize w data.unread with
      | .crashed => .crashed
      | .refused => readModifications s (drained data) rest
      | .ok modification =>
        if modification.msgid ≠ header.id then readModifications s (drained data) rest
        else do
          let (modifications, s) ← readModifications s (drained data) rest
          pure (modification :: modifications, s)

def getMessageModifications (s : Storage) (header : MessageHeader) :
    Outcome (List HistoryMessage × Storage) :=
  if !header.isModified && !header.isUpdated then .ok ([], s)
  else readModifications w s {} header.modifications

/-- One turn of the loop over the headers. -/
def readMessage (s : Storage) (data : BinaryStream) (header : MessageHeader) :
    Outcome (Fetched × BinaryStream × Storage) :=
  match s.readDataBlock header.dataOffset.toInt data.reset with
  | (false, data, s) => .ok (.fake 1 header, data, s)
  | (true, data, s) =>
    match HistoryMessage.unserialize w data.unread with
    | .crashed => .crashed
    | .refused => .ok (.fake 2 header, data, s)
    | .ok message =>
      if message.msgid ≠ header.id then .ok (.fake 3 header, data, s)
      else do
        let (modifications, s) ← getMessageModifications w s header
        let message := (message.applyHeaderFlags header).applyModifications modifications
        pure ({ message }, data, s)

def readMessages : Storage → BinaryStream → List MessageHeader → Outcome (List Fetched × Storage)
  | s, _, [] => .ok ([], s)
  | s, data, header :: rest => do
    let (fetched, data, s) ← readMessage w s data header
    let (others, s) ← readMessages s data rest
    pure (fetched :: others, s)

/-- What is read for headers of a data file, in their order. -/
def fetch (file : Bytes) (headers : List MessageHeader) : Outcome (List Fetched) := do
  let (fetched, _) ← readMessages w { stream := { bytes := file, append := true } } {} headers
  pure fetched

/-- The errors with the ids of their headers, and the messages behind those there are. -/
def getMessages (disk : Disk) (headers : List MessageHeader) (messages : List HistoryMessage) :
    Outcome (List (Int64 × Int32) × List HistoryMessage) :=
  match Storage.open { read := true, append := true } disk with
  | .error _ => .ok ([(-1, -1)], messages)
  | .ok s => do
    let (fetched, _) ← readMessages w s {} headers
    let messages := messages ++ fetched.map Fetched.message
    let errors := (headers.zip fetched).filterMap fun (header, f) => f.error.map (header.id, ·)
    pure (errors ++ (if messages.length ≠ headers.length then [(-1, 4)] else []), messages)

variable {w}

theorem getMessages_fetch (file : Bytes) (headers : List MessageHeader) :
    getMessages w { file := some file } headers [] = (do
      let fetched ← fetch w file headers
      let messages := fetched.map Fetched.message
      let errors := (headers.zip fetched).filterMap fun (header, f) => f.error.map (header.id, ·)
      pure (errors ++ (if messages.length ≠ headers.length then [(-1, 4)] else []), messages)) := by
  have hopen : Storage.open { read := true, append := true } { file := some file } =
      .ok { stream := { bytes := file, append := true } } := rfl
  rw [getMessages, hopen, fetch]
  simp only
  cases readMessages w { stream := { bytes := file, append := true } } {} headers <;> rfl

/-- The id of what is read for a header is the header's. -/
theorem readMessage_msgid {s s' : Storage} {data data' : BinaryStream} {header : MessageHeader}
    {fetched : Fetched} (h : readMessage w s data header = .ok (fetched, data', s')) :
    fetched.message.msgid = header.id := by
  unfold readMessage at h
  split at h
  · cases h
    rfl
  · split at h
    · cases h
    · cases h
      rfl
    · rename_i message _
      split at h
      · cases h
        rfl
      · rename_i hid
        obtain ⟨r, -, hr⟩ := Outcome.bind_eq_ok h
        cases hr
        rw [HistoryMessage.applyModifications_msgid]
        exact not_not.mp hid

end MessagesData

end Icq.Archive
