import Icq.Lib.EventLog
import Icq.Lib.KeyMap
import Icq.Lib.Run
import Icq.Wim.FileDownload
import Mathlib.Data.List.DropRight
import Mathlib.Data.List.Lex

/-! The loader of shared files: a request asks for metainformation first and then joins or begins
the download of its url, whose chunks come one by one. -/

namespace Icq.Wim
open Icq.Lib

/-- The errors a download can end with. -/
inductive LoaderError
  | success
  | networkError
  | save2File
  | moveFile
  | cancelled
  | httpClientError
  | comeBackLater
  | internalLogicError
deriving DecidableEq

section FileKey

/-- Up to the last question mark behind the last slash. -/
def getFileId (uri : Bytes) : Bytes :=
  let id := uri.rdropWhile (· == 47)
  if 47 ∈ id then
    let name := id.rtakeWhile (· != 47)
    if 63 ∈ name then (name.rdropWhile (· != 63)).dropLast else name
  else []

def getSourceId (uri : Bytes) : Option Bytes :=
  let id := uri.rdropWhile (· == 47)
  if 61 ∈ id then some (id.rtakeWhile (· != 61)) else none

/-- The key of the metainformation; which urls are those of shared files the hosts in the
configuration say. -/
def filesharingId (isFileSharing : Bytes → Bool) (url : Bytes) : Bytes :=
  if isFileSharing url then getFileId url ++ (getSourceId url).getD [] else []

end FileKey

structure CancelledTask where
  key : Bytes
  seqs : List Int64

abbrev CancelledTasks : Type := KeyMap CancelledTask.key

namespace CancelledTasks

def add (tasks : CancelledTasks) (key : Bytes) (seq : Int64) : CancelledTasks :=
  tasks.put ⟨key, ((tasks.find? key).map (·.seqs)).getD [] ++ [seq]⟩

def remove (tasks : CancelledTasks) (key : Bytes) (seq : Int64) : CancelledTasks :=
  match tasks.find? key with
  | some task =>
    let seqs := task.seqs.filter (· != seq)
    if seqs.isEmpty then tasks.erase key else tasks.put ⟨key, seqs⟩
  | none => tasks

end CancelledTasks

inductive DownloadPhase
  /-- `download_file_sharing_impl` is called next, maybe when suspended tasks are resumed. -/
  | waiting
  | requesting
  /-- The last chunk is there, and the file is to be moved. -/
  | saving
deriving DecidableEq

/-- An entry of `in_progress_`. Handlers go by number. -/
structure Download where
  url : Bytes
  chunks : DownloadableFileChunks
  handlers : List Nat := []
  phase : DownloadPhase := .waiting

namespace Download

def updateFileChunks (d : Download) (priority : Int32) (handler : Nat) (seq : Int64) : Download :=
  { d with
    handlers := d.handlers ++ [handler]
    chunks := { d.chunks with
      activeSeqs := d.chunks.activeSeqs ++ [seq]
      priority := if priority < d.chunks.priority then priority else d.chunks.priority } }

def eraseSeq (d : Download) (seq : Int64) : Download :=
  { d with chunks := { d.chunks with activeSeqs := d.chunks.activeSeqs.filter (· != seq) } }

end Download

inductive TaskStage
  /-- For metainformation that is in the cache. -/
  | looking
  | asking
  | suspended
  /-- The file is there and is copied. -/
  | copying
  /-- The chunks are set up from the size of the file and a temporary file left from before. -/
  | registering (totalSize : Nat) (tmpFile : Bytes)
deriving DecidableEq

/-- A request for a file before its download is in progress. -/
structure FileTask where
  url : Bytes
  seq : Int64
  handler : Nat
  priority : Int32
  stage : TaskStage := .looking
deriving DecidableEq

/-- What the handler of the metainformation is told, and finds on the disk. -/
inductive Metainfo
  | comeBackLater
  | networkError
  | failed
  | localCopy
  | sameFile
  | file (totalSize : Nat) (tmpFile : Bytes)

inductive LoaderEvent
  | request (url : Bytes) (seq : Int64) (handler : Nat)
  | cancel (url : Bytes) (seq : Int64)
  | lastChunk (url : Bytes)
  | callback (url : Bytes) (handler : Nat) (error : LoaderError)
deriving DecidableEq

structure AsyncLoader where
  inProgress : KeyMap Download.url := ∅
  cancelledTasks : CancelledTasks := ∅
  tasks : List FileTask := []
  log : List LoaderEvent := []

inductive LoaderAction
  | downloadFileSharing (url : Bytes) (seq : Int64) (priority : Int32)
  | cancelFileSharing (url : Bytes) (seq : Option Int64)
  | looked (task : FileTask)
  /-- The transfer of the metainformation is over. -/
  | metainfoReceived (task : FileTask)
  | metainfo (task : FileTask) (result : Metainfo)
  | copied (task : FileTask)
  | register (task : FileTask) (moved : Bool)
  | resume (task : FileTask)
  | impl (url : Bytes) (opened : Bool)
  | completion (url : Bytes) (r : Response)
  | save (url : Bytes) (moved : Bool)

namespace AsyncLoader

variable (s : AsyncLoader)

def putDownload (d : Download) : AsyncLoader := { s with inProgress := s.inProgress.put d }

/-- The request joins the download of its url, or else looks for metainformation. -/
def enter (task : FileTask) : AsyncLoader :=
  match s.inProgress.find? task.url with
  | some d => s.putDownload (d.updateFileChunks task.priority task.handler task.seq)
  | none => { s with tasks := s.tasks ++ [{ task with stage := .looking }] }

def downloadFileSharing (url : Bytes) (seq : Int64) (priority : Int32) : AsyncLoader :=
  let handler := s.log.length
  ({ s with log := s.log ++ [.request url seq handler] } : AsyncLoader).enter
    { url, seq, handler, priority }

def cancelFileSharing (url : Bytes) (seq : Int64) : AsyncLoader :=
  let s : AsyncLoader := { s with log := s.log ++ [.cancel url seq] }
  if s.inProgress.items.isEmpty then { s with cancelledTasks := s.cancelledTasks.add url seq }
  else
    match s.inProgress.find? url with
    | some d => s.putDownload (d.eraseSeq seq)
    | none => s

def dropTask (task : FileTask) : AsyncLoader := { s with tasks := s.tasks.erase task }

def moveTask (task : FileTask) (stage : TaskStage) : AsyncLoader :=
  { s with tasks := s.tasks.erase task ++ [{ task with stage }] }

/-- `fire_callback` for the handler of one request. -/
def endTask (task : FileTask) (error : LoaderError) : AsyncLoader :=
  { s.dropTask task with log := s.log ++ [.callback task.url task.handler error] }

def onMetainfo (task : FileTask) : Metainfo → AsyncLoader
  | .comeBackLater => s.endTask task .comeBackLater
  | .networkError => s.moveTask task .suspended
  | .failed => s.endTask task .networkError
  | .localCopy => s.moveTask task .copying
  | .sameFile => s.endTask task .success
  | .file totalSize tmpFile => s.moveTask task (.registering totalSize tmpFile)

/-- The chunks that are all there are moved, others join or begin the download of their url. -/
def register (task : FileTask) (totalSize : Nat) (tmpFile : Bytes) (moved : Bool) : AsyncLoader :=
  let chunks := DownloadableFileChunks.downloadFileSharing task.priority totalSize [] tmpFile
  if chunks.status = .success then
    s.endTask task (if moved then .success else .moveFile)
  else
    let d := (s.inProgress.find? task.url).getD { url := task.url, chunks }
    (s.dropTask task).putDownload (d.updateFileChunks task.priority task.handler task.seq)

def fireChunksCallback (d : Download) (error : LoaderError) : AsyncLoader :=
  { s with
    inProgress := s.inProgress.erase d.url
    log := s.log ++ d.handlers.map (.callback d.url · error) }

def impl (d : Download) (opened : Bool) : AsyncLoader :=
  if d.chunks.activeSeqs.isEmpty then s.fireChunksCallback d .cancelled
  else if opened then
    let chunks := { d.chunks with tmpFile := d.chunks.openForWrite }
    s.putDownload { d with chunks, phase := .requesting }
  else s.fireChunksCallback d .save2File

/-- What came is in the temporary file, and the file is moved when it is complete. -/
def onCompletion (d : Download) (r : Response) : AsyncLoader :=
  let chunks := DownloadableFileChunks.onCompletion
    { d.chunks with tmpFile := d.chunks.tmpFile ++ r.body, status := .downloading } r
  match chunks.status with
  | .downloading => s.putDownload { d with chunks, phase := .waiting }
  | .success =>
    ({ s with log := s.log ++ [.lastChunk d.url] } : AsyncLoader).putDownload
      { d with chunks, phase := .saving }
  | .cancelled => s.fireChunksCallback d .cancelled
  | .httpClientError => s.fireChunksCallback d .httpClientError
  | .internalLogicError => s.fireChunksCallback d .internalLogicError

def save (d : Download) (moved : Bool) : AsyncLoader :=
  s.fireChunksCallback d (if moved then .success else .moveFile)

/-- A task that waits at a stage. -/
def taskAt (task : FileTask) (stage : TaskStage) : Option FileTask :=
  if task ∈ s.tasks ∧ task.stage = stage then some task else none

def downloadAt (url : Bytes) (phase : DownloadPhase) : Option Download :=
  (s.inProgress.find? url).filter (·.phase == phase)

def step (isFileSharing : Bytes → Bool) (s : AsyncLoader) : LoaderAction → Option AsyncLoader
  | .downloadFileSharing url seq priority => some (s.downloadFileSharing url seq priority)
  | .cancelFileSharing _ none => some s
  | .cancelFileSharing url (some seq) => some (s.cancelFileSharing url seq)
  | .looked task => (s.taskAt task .looking).map (s.moveTask · .asking)
  | .metainfoReceived task =>
    (s.taskAt task .asking).map fun task =>
      { s with cancelledTasks := s.cancelledTasks.remove (filesharingId isFileSharing task.url) (-1) }
  | .metainfo task result => (s.taskAt task .asking).map (s.onMetainfo · result)
  | .copied task => (s.taskAt task .copying).map (s.endTask · .success)
  | .register task moved =>
    match task.stage with
    | .registering totalSize tmpFile =>
      (s.taskAt task task.stage).map (s.register · totalSize tmpFile moved)
    | _ => none
  | .resume task => (s.taskAt task .suspended).map fun task => (s.dropTask task).enter task
  | .impl url opened => (s.downloadAt url .waiting).map (s.impl · opened)
  | .completion url r => (s.downloadAt url .requesting).map (s.onCompletion · r)
  | .save url moved => (s.downloadAt url .saving).map (s.save · moved)

end AsyncLoader

end Icq.Wim
