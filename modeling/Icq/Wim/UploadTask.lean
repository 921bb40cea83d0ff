import Icq.Lib.Blocks
import Icq.Wim.SendThread

/-! A file that is sent to the server range by range. -/

namespace Icq.Wim
open Icq.Lib

def wpieErrorTooLargeFile : Int32 := 35

inductive LoaderErrors where
  | undefined | success | fileNotExits | getGatewayError | maxFileSizeError | emptyFile
  | readFromFile | sendRange | networkError | tooLargeFile | internalLogicError
deriving DecidableEq

/-- What the execution of a packet comes to: an error, or the status in the answer of the server. -/
inductive Executed (α : Type) where
  | error (code : Int32)
  | status (code : UInt32) (answer : α)

structure Gateway where
  host : Bytes
  url : Bytes
deriving DecidableEq

structure SentFile where
  fileUrl : Bytes
  fileId : Bytes
deriving DecidableEq

structure SendFileParams where
  sizeAlreadySent : Nat
  fullDataSize : Nat
  data : Bytes
deriving DecidableEq

structure UploadTask where
  id : Bytes
  fileSize : Nat := 0
  bytesSent : Nat := 0
  uploadHost : Bytes := []
  uploadUrl : Bytes := []
  fileUrl : Bytes := []
  fileId : Bytes := []
  lastError : LoaderErrors := .success
deriving DecidableEq

def statusCodeTooLargeFile : UInt32 := 413

def maxBlockSize : Nat := 1024 * 1024

namespace UploadTask

variable (task : UploadTask)

def openFile (file : Option Bytes) : LoaderErrors × UploadTask :=
  match file with
  | none => (.fileNotExits, task)
  | some content =>
    let task := { task with fileSize := content.length }
    if content.length = 0 then (.emptyFile, task) else (.success, task)

def getGate (executed : Executed Gateway) : LoaderErrors × UploadTask :=
  match executed with
  | .error code =>
    if isNetworkError code then (.networkError, task)
    else if code = wpieErrorTooLargeFile then (.tooLargeFile, task)
    else (.getGatewayError, task)
  | .status code gateway =>
    if code ≠ 200 then
      if code = statusCodeTooLargeFile then (.maxFileSizeError, task) else (.getGatewayError, task)
    else (.success, { task with uploadHost := gateway.host, uploadUrl := gateway.url })

/-- The next range, from the file as it is now. -/
def readDataFromFile (file : Option Bytes) : Except LoaderErrors Bytes :=
  let tail := task.fileSize - task.bytesSent
  if tail = 0 then .error .internalLogicError
  else
    let readSize := min tail maxBlockSize
    match file with
    | none => .error .readFromFile
    | some content =>
      if content.length < task.bytesSent + readSize then .error .readFromFile
      else .ok ((content.drop task.bytesSent).take readSize)

def chunk (data : Bytes) : SendFileParams :=
  { sizeAlreadySent := task.bytesSent, fullDataSize := task.fileSize, data }

def sendDataToServer (data : Bytes) (executed : Executed SentFile) : LoaderErrors × UploadTask :=
  match executed with
  | .error code => (if isNetworkError code then .networkError else .sendRange, task)
  | .status code sent =>
    let task := { task with bytesSent := task.bytesSent + data.length }
    if code = 200 then (.success, { task with fileUrl := sent.fileUrl, fileId := sent.fileId })
    else (.success, task)

/-- The range goes to the server, if it can be read. -/
def sendNextRange (file : Option Bytes) (executed : Executed SentFile) :
    Option SendFileParams × LoaderErrors × UploadTask :=
  match task.readDataFromFile file with
  | .error error => (none, error, task)
  | .ok data => (some (task.chunk data), task.sendDataToServer data executed)

def isEnd : Bool := task.bytesSent == task.fileSize

end UploadTask

structure WebFileInfo where
  bytesTransfer : Nat
  fileSize : Nat
  fileUrl : Bytes
  fileId : Bytes
deriving DecidableEq

def UploadTask.makeInfo (task : UploadTask) : WebFileInfo :=
  { bytesTransfer := task.bytesSent, fileSize := task.fileSize, fileUrl := task.fileUrl
    fileId := task.fileId }

end Icq.Wim
