import Icq.Lib.Run
import Icq.Wim.UploadTask

/-! Any number of uploads on the one thread of the loader, and what the core context makes of their
results while it starts, stops and resumes them. -/

namespace Icq.Wim
open Icq.Lib

inductive UploadStage where
  | openFile | getGate | sendNextRange
deriving DecidableEq

/-- A function that waits for the thread, or that has run there; it knows its task weakly, by number. -/
structure UploadJob where
  stage : UploadStage
  number : Nat
deriving DecidableEq

/-- A task, what the server has of its file, and the ranges the server has confirmed. -/
structure Upload where
  task : UploadTask
  stored : Bytes := []
  confirmed : List Bytes := []

/-- What the handler of a task is told: how far it is, or how it ended. -/
structure UploadReport where
  number : Nat
  result : Option LoaderErrors
  info : WebFileInfo

/-- All tasks that were ever made, by number, the list of those the loader keeps, what waits for the
thread and what it does, and the results that wait for the core context. -/
structure Loader where
  uploads : List Upload := []
  fileSharingTasks : List Nat := []
  jobs : List UploadJob := []
  running : Option UploadJob := none
  results : List (UploadJob × LoaderErrors) := []
  reports : List UploadReport := []

/-- What a job meets: the file as it is, the answers, and whether a range arrives at the server. -/
structure UploadWorld where
  file : Option Bytes
  gateway : Executed Gateway := .error wpieNetworkError
  sent : Executed SentFile := .error wpieNetworkError
  arrives : Bool := false

def UploadJob.execute (stage : UploadStage) (world : UploadWorld) (upload : Upload) :
    LoaderErrors × Upload :=
  match stage with
  | .openFile =>
    let (error, task) := upload.task.openFile world.file
    (error, { upload with task })
  | .getGate =>
    let (error, task) := upload.task.getGate world.gateway
    (error, { upload with task })
  | .sendNextRange =>
    let (chunk, error, task) := upload.task.sendNextRange world.file world.sent
    match chunk with
    | none => (error, { upload with task })
    | some chunk =>
      let stored :=
        if world.arrives then writeAt upload.stored chunk.sizeAlreadySent chunk.data
        else upload.stored
      let confirmed :=
        if error = .success then upload.confirmed ++ [chunk.data] else upload.confirmed
      (error, { task, stored, confirmed })

namespace Loader

variable (s : Loader)

def taskId (number : Nat) : Option Bytes := (s.uploads[number]?).map (·.task.id)

def findTaskById (id : Bytes) : Option Nat :=
  s.fileSharingTasks.find? fun number => s.taskId number == some id

/-- The loader keeps the task, or the thread is at work on it. -/
def isAlive (number : Nat) : Bool :=
  s.fileSharingTasks.contains number || s.running.any (·.number == number)

def addFileSharingTask (number : Nat) (id : Bytes) : Loader :=
  match s.findTaskById id with
  | some _ => s
  | none => { s with fileSharingTasks := s.fileSharingTasks ++ [number] }

def removeFileSharingTask (id : Bytes) : Loader :=
  match s.findTaskById id with
  | none => s
  | some number => { s with fileSharingTasks := s.fileSharingTasks.erase number }

def setLastError (number : Nat) (error : LoaderErrors) : Loader :=
  let set (upload : Upload) : Upload :=
    { upload with task := { upload.task with lastError := error } }
  { s with uploads := s.uploads.modify number set }

def run (stage : UploadStage) (number : Nat) : Loader :=
  { s with jobs := s.jobs ++ [⟨stage, number⟩] }

def uploadFileSharing (id : Bytes) : Loader :=
  let upload : Upload := { task := { id } }
  let number := s.uploads.length
  let s := { s with uploads := s.uploads ++ [upload] }
  (s.addFileSharingTask number id).run .openFile number

def resumeTask (number : Nat) : Loader :=
  match s.uploads[number]? with
  | none => s
  | some upload =>
    if upload.task.lastError ≠ .success then (s.setLastError number .success).run .sendNextRange number
    else s

def resumeFileSharingTasks : Loader := s.fileSharingTasks.foldl resumeTask s

def report (number : Nat) (upload : Upload) (result : Option LoaderErrors) : Loader :=
  { s with reports := s.reports ++ [⟨number, result, upload.task.makeInfo⟩] }

def onFileSharingTaskResult (number : Nat) (upload : Upload) (error : LoaderErrors) : Loader :=
  (s.report number upload (some error)).removeFileSharingTask upload.task.id

def onFileSharingTaskProgress (number : Nat) (upload : Upload) : Loader :=
  s.report number upload none

/-- The thread takes the next job and locks its task, if that is alive. -/
def take : Option Loader :=
  match s.running, s.jobs with
  | none, job :: jobs =>
    if s.isAlive job.number then some { s with jobs, running := some job }
    else some { s with jobs, results := s.results ++ [(job, .undefined)] }
  | _, _ => none

/-- The thread ends its job. -/
def work (world : UploadWorld) : Option Loader := do
  let job ← s.running
  let upload ← s.uploads[job.number]?
  let (error, upload) := UploadJob.execute job.stage world upload
  some
    { s with
      uploads := s.uploads.set job.number upload, running := none
      results := s.results ++ [(job, error)] }

/-- The core context gets the next result. -/
def deliver : Option Loader :=
  match s.results with
  | [] => none
  | (job, error) :: results =>
    let s := { s with results }
    match s.uploads[job.number]? with
    | none => none
    | some upload =>
      if !s.isAlive job.number then some s
      else
        match job.stage with
        | .openFile =>
          if error ≠ .success then some (s.onFileSharingTaskResult job.number upload error)
          else some ((s.onFileSharingTaskProgress job.number upload).run .getGate job.number)
        | .getGate =>
          if error ≠ .success then some (s.onFileSharingTaskResult job.number upload error)
          else some ((s.onFileSharingTaskProgress job.number upload).run .sendNextRange job.number)
        | .sendNextRange =>
          if error ≠ .success then
            let s := s.setLastError job.number error
            if error ≠ .networkError then some (s.onFileSharingTaskResult job.number upload error)
            else some s
          else
            let s := s.onFileSharingTaskProgress job.number upload
            if !upload.task.isEnd then some (s.run .sendNextRange job.number)
            else some (s.onFileSharingTaskResult job.number upload .success)

end Loader

inductive UploadAction where
  | upload (id : Bytes)
  | abort (id : Bytes)
  | resume
  | take
  | work (world : UploadWorld)
  | deliver

def Loader.step (s : Loader) : UploadAction → Option Loader
  | .upload id => some (s.uploadFileSharing id)
  | .abort id => some (s.removeFileSharingTask id)
  | .resume => some s.resumeFileSharingTasks
  | .take => s.take
  | .work world => s.work world
  | .deliver => s.deliver

end Icq.Wim
