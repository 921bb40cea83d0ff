import Icq.Lib.Scalar

/-! A shared file is downloaded range by range, and the bytes of a range go to a temporary file
as they arrive. -/

namespace Icq.Wim
open Icq.Lib

def highestPriority : Int32 := 50

inductive LoaderStatus where
  | downloading | success | cancelled | httpClientError | internalLogicError
deriving DecidableEq

structure DownloadableFileChunks where
  priority : Int32
  totalSize : Nat
  downloaded : Nat
  activeSeqs : List Int64
  tmpFile : Bytes
  file : Option Bytes := none
  status : LoaderStatus := .downloading
deriving DecidableEq

/-- How a request ended, and what was written to its output stream. -/
structure Response where
  success : Bool
  code : Nat
  body : Bytes

def maxChunkSize : Nat := 512 * 1024

namespace DownloadableFileChunks

def bytesLeft (c : DownloadableFileChunks) : Nat := c.totalSize - c.downloaded

def chunkSize (c : DownloadableFileChunks) : Nat :=
  if c.priority ≤ highestPriority then c.bytesLeft
  else if c.bytesLeft < maxChunkSize then c.bytesLeft else maxChunkSize

/-- The first and the last byte asked for. -/
def range (c : DownloadableFileChunks) : Nat × Nat := (c.downloaded, c.downloaded + c.chunkSize)

/-- The temporary file is appended to once something is downloaded, and begun anew before. -/
def openForWrite (c : DownloadableFileChunks) : Bytes := if 0 < c.downloaded then c.tmpFile else []

def moveFile (c : DownloadableFileChunks) : DownloadableFileChunks :=
  { c with file := some c.tmpFile, tmpFile := [], status := .success }

def deleteTmpFile (c : DownloadableFileChunks) (status : LoaderStatus) : DownloadableFileChunks :=
  { c with tmpFile := [], status }

/-- The counter moves, and alone says whether the file is complete. -/
def onChunk (c : DownloadableFileChunks) (size : Nat) : DownloadableFileChunks :=
  let c := { c with downloaded := c.downloaded + size }
  if c.totalSize = c.downloaded then c.moveFile
  else if c.totalSize < c.downloaded then { c with status := .internalLogicError }
  else c

def onCompletion (c : DownloadableFileChunks) (r : Response) : DownloadableFileChunks :=
  if r.success && (r.code == 206 || r.code == 200 || r.code == 201) then c.onChunk r.body.length
  else if decide (400 ≤ r.code) && decide (r.code < 500) then c.deleteTmpFile .httpClientError
  else if c.activeSeqs.isEmpty then c.deleteTmpFile .cancelled
  -- The task is suspended, and tried again later.
  else c

def downloadFileSharingImpl (c : DownloadableFileChunks) (get : Nat × Nat → Response) :
    DownloadableFileChunks :=
  if c.activeSeqs.isEmpty then c.deleteTmpFile .cancelled
  else
    let r := get c.range
    onCompletion { c with tmpFile := c.openForWrite ++ r.body } r

/-- The download of a file of which a temporary file may be left from before. -/
def downloadFileSharing (priority : Int32) (totalSize : Nat) (activeSeqs : List Int64)
    (tmpFile : Bytes) : DownloadableFileChunks :=
  let c := { priority, totalSize, downloaded := tmpFile.length, activeSeqs, tmpFile }
  if c.totalSize = c.downloaded then c.moveFile
  else if c.totalSize < c.downloaded then { c with tmpFile := [], downloaded := 0 }
  else c

end DownloadableFileChunks

/-- The bytes of a range that a file has; the range names its last byte. -/
def clip (remote : Bytes) (range : Nat × Nat) : Bytes :=
  (remote.drop range.1).take (range.2 + 1 - range.1)

inductive Attempt where
  | chunk
  /-- The transfer fails once so many bytes of the range are delivered. -/
  | failed (delivered code : Nat)
  /-- The server answers 500 to 599, with a body of its own. -/
  | serverError (detail : Fin 100) (body : Bytes)
deriving DecidableEq

namespace Attempt

def get (remote : Bytes) : Attempt → Nat × Nat → Response
  | chunk, range => ⟨true, 206, clip remote range⟩
  | failed delivered code, range => ⟨false, code, (clip remote range).take delivered⟩
  | serverError detail body, _ => ⟨true, 500 + detail, body⟩

/-- An attempt that does not fail with something delivered. -/
def quiet : Attempt → Bool
  | chunk => true
  | failed delivered _ => delivered == 0
  | serverError _ body => body.isEmpty

end Attempt

namespace DownloadableFileChunks

def attempt (remote : Bytes) (c : DownloadableFileChunks) (a : Attempt) :
    Option DownloadableFileChunks :=
  if c.status = .downloading then some (c.downloadFileSharingImpl (a.get remote)) else none

def run (remote : Bytes) (c : DownloadableFileChunks) (attempts : List Attempt) :
    Option DownloadableFileChunks := attempts.foldlM (attempt remote) c

@[simp] theorem run_nil (remote : Bytes) (c : DownloadableFileChunks) :
    run remote c [] = some c := rfl

theorem run_cons (remote : Bytes) (c : DownloadableFileChunks) (a : Attempt)
    (attempts : List Attempt) :
    run remote c (a :: attempts) = (attempt remote c a).bind (run remote · attempts) := by
  simp only [run, List.foldlM_cons]
  rfl

/-- Once the download is over there is no further attempt. -/
theorem run_of_over {remote : Bytes} {c d : DownloadableFileChunks} {attempts : List Attempt}
    (hc : c.status ≠ .downloading) (h : run remote c attempts = some d) :
    attempts = [] ∧ d = c := by
  cases attempts with
  | nil => exact ⟨rfl, (Option.some.inj h).symm⟩
  | cons a attempts =>
    rw [run_cons, attempt, if_neg hc] at h
    cases h

/-- An attempt that fails leaves what it delivered in the file, or the download is over. -/
theorem impl_of_failed (c : DownloadableFileChunks) (remote : Bytes) {a : Attempt}
    (ha : a ≠ .chunk) :
    c.downloadFileSharingImpl (a.get remote) =
        { c with tmpFile := c.openForWrite ++ (a.get remote c.range).body } ∨
      (c.downloadFileSharingImpl (a.get remote)).status ≠ .downloading ∧
        (c.downloadFileSharingImpl (a.get remote)).status ≠ .success := by
  have hget : ((a.get remote c.range).success && ((a.get remote c.range).code == 206 ||
      (a.get remote c.range).code == 200 || (a.get remote c.range).code == 201)) = false := by
    cases a with
    | chunk => exact absurd rfl ha
    | failed => rfl
    | serverError detail =>
      simp only [Attempt.get, Bool.true_and, Bool.or_eq_false_iff, beq_eq_false_iff_ne]
      omega
  simp only [downloadFileSharingImpl, onCompletion, hget, Bool.false_eq_true, if_false]
  split
  · exact .inr ⟨by simp [deleteTmpFile], by simp [deleteTmpFile]⟩
  split
  · exact .inr ⟨by simp [deleteTmpFile], by simp [deleteTmpFile]⟩
  · exact .inl rfl

/-- A range that arrives whole is the last one, or the download goes on behind it. -/
theorem impl_of_chunk {c : DownloadableFileChunks} {remote : Bytes}
    (ht : c.totalSize = remote.length) (hlt : c.downloaded < remote.length) :
    ∃ n, 0 < n ∧
      (remote.length ≤ c.downloaded + n ∧ c.downloadFileSharingImpl (Attempt.chunk.get remote) =
          { c with downloaded := remote.length, tmpFile := [], status := .success
                   file := some (c.openForWrite ++ remote.drop c.downloaded) } ∨
        c.downloaded + n < remote.length ∧ c.downloadFileSharingImpl (Attempt.chunk.get remote) =
          { c with downloaded := c.downloaded + n
                   tmpFile := c.openForWrite ++ (remote.drop c.downloaded).take n } ∨
        (c.downloadFileSharingImpl (Attempt.chunk.get remote)).status = .cancelled) := by
  have hrange : c.range.2 + 1 - c.range.1 = c.chunkSize + 1 := by simp only [range]; omega
  refine ⟨c.chunkSize + 1, by omega, ?_⟩
  by_cases ha : c.activeSeqs.isEmpty = true
  · refine .inr (.inr ?_)
    simp [downloadFileSharingImpl, ha, deleteTmpFile]
  have hlen : (clip remote c.range).length =
      min (c.chunkSize + 1) (remote.length - c.downloaded) := by
    rw [clip, hrange, List.length_take, List.length_drop, range]
  simp only [downloadFileSharingImpl, if_neg ha, onCompletion, Attempt.get, onChunk, hlen]
  by_cases hlast : remote.length ≤ c.downloaded + (c.chunkSize + 1)
  · refine .inl ⟨hlast, ?_⟩
    have hall : clip remote c.range = remote.drop c.downloaded := by
      rw [clip, hrange]
      exact List.take_of_length_le (by rw [List.length_drop, range]; omega)
    have hd : c.downloaded + min (c.chunkSize + 1) (remote.length - c.downloaded) =
        remote.length := by omega
    simp [hd, ht, hall, moveFile]
  · refine .inr (.inl ⟨by omega, ?_⟩)
    have hd : c.downloaded + min (c.chunkSize + 1) (remote.length - c.downloaded) =
        c.downloaded + (c.chunkSize + 1) := by omega
    have hne : c.totalSize ≠ c.downloaded + (c.chunkSize + 1) := by omega
    have hnlt : ¬ c.totalSize < c.downloaded + (c.chunkSize + 1) := by omega
    simp only [hd, if_neg hne, if_neg hnlt, clip, hrange, Bool.true_and, beq_self_eq_true,
      Bool.true_or, if_true]
    rfl

/-- Before the end of the file a failed attempt delivers nothing just when it is quiet. -/
theorem body_eq_nil_iff {c : DownloadableFileChunks} {remote : Bytes} {a : Attempt}
    (ha : a ≠ .chunk) (hlt : c.downloaded < remote.length) :
    (a.get remote c.range).body = [] ↔ a.quiet = true := by
  cases a with
  | chunk => exact absurd rfl ha
  | failed delivered code =>
    have hne : clip remote c.range ≠ [] := by
      apply List.ne_nil_of_length_pos
      simp only [clip, range, List.length_take, List.length_drop]
      omega
    simp [Attempt.get, Attempt.quiet, hne]
  | serverError => simp [Attempt.get, Attempt.quiet]

theorem attempt_some {remote : Bytes} {c d : DownloadableFileChunks} {a : Attempt}
    (h : attempt remote c a = some d) :
    c.status = .downloading ∧ d = c.downloadFileSharingImpl (a.get remote) := by
  unfold attempt at h
  split at h
  · exact ⟨‹_›, (Option.some.inj h).symm⟩
  · cases h

/-- The first attempt of a run that succeeds, and the rest. -/
theorem run_cons_some {remote : Bytes} {c d : DownloadableFileChunks} {a : Attempt}
    {attempts : List Attempt} (h : run remote c (a :: attempts) = some d) :
    c.status = .downloading ∧ run remote (c.downloadFileSharingImpl (a.get remote)) attempts =
      some d := by
  rw [run_cons] at h
  obtain ⟨e, he, hrest⟩ := Option.bind_eq_some_iff.mp h
  obtain ⟨hc, rfl⟩ := attempt_some he
  exact ⟨hc, hrest⟩

/-- From where something is downloaded, what follows it in the saved file: the rest of the remote
file if every attempt is quiet, and else more than fits. -/
theorem run_resumed {remote : Bytes} {c d : DownloadableFileChunks} {attempts : List Attempt}
    (h : run remote c attempts = some d) (hd : d.status = .success) (hc : c.status ≠ .success)
    (ht : c.totalSize = remote.length) (hpos : 0 < c.downloaded)
    (hlt : c.downloaded < remote.length) :
    ∃ rest, d.file = some (c.tmpFile ++ rest) ∧
      (attempts.all Attempt.quiet = true → rest = remote.drop c.downloaded) ∧
      (attempts.all Attempt.quiet = false → remote.length - c.downloaded < rest.length) := by
  induction attempts generalizing c with
  | nil =>
    obtain rfl := Option.some.inj h
    exact absurd hd hc
  | cons a attempts ih =>
    obtain ⟨hdown, hrest⟩ := run_cons_some h
    have hopen : c.openForWrite = c.tmpFile := if_pos hpos
    by_cases ha : a = .chunk
    · subst ha
      obtain ⟨n, hn, ⟨hlast, he⟩ | ⟨hmore, he⟩ | hcancel⟩ := impl_of_chunk ht hlt
      · rw [he] at hrest
        obtain ⟨rfl, rfl⟩ := run_of_over (by simp) hrest
        exact ⟨_, by rw [hopen], fun _ => rfl, fun hq => by simp [Attempt.quiet] at hq⟩
      · rw [he, hopen] at hrest
        obtain ⟨rest, hfile, hquiet, hloud⟩ := ih hrest (by simpa using hc) ht (by simp; omega)
          (by simpa using hmore)
        refine ⟨(remote.drop c.downloaded).take n ++ rest, by simpa using hfile, fun hq => ?_,
          fun hq => ?_⟩
        · rw [hquiet (by simpa [Attempt.quiet] using hq), ← List.drop_drop]
          exact List.take_append_drop ..
        · have hlen : remote.length - (c.downloaded + n) < rest.length :=
            hloud (by simpa [Attempt.quiet] using hq)
          simp only [List.length_append, List.length_take, List.length_drop]
          omega
      · obtain ⟨-, rfl⟩ := run_of_over (by rw [hcancel]; decide) hrest
        rw [hcancel] at hd
        cases hd
    · rcases impl_of_failed c remote ha with he | ⟨hover, hfail⟩
      · rw [he, hopen] at hrest
        obtain ⟨rest, hfile, hquiet, hloud⟩ := ih hrest hc ht hpos hlt
        refine ⟨(a.get remote c.range).body ++ rest, by simpa using hfile, fun hq => ?_,
          fun hq => ?_⟩
        · obtain ⟨hqa, hqr⟩ := Bool.and_eq_true_iff.mp (List.all_cons ▸ hq)
          rw [(body_eq_nil_iff ha hlt).mpr hqa, hquiet hqr, List.nil_append]
        · by_cases hqr : attempts.all Attempt.quiet = true
          · have hbody : (a.get remote c.range).body ≠ [] := by
              rw [ne_eq, body_eq_nil_iff ha hlt]
              simpa [hqr] using hq
            have hone := List.length_pos_iff.mpr hbody
            have hdrop : rest = remote.drop c.downloaded := hquiet hqr
            rw [hdrop, List.length_append, List.length_drop]
            omega
          · have hlen := hloud (by simpa using hqr)
            have hle : rest.length ≤ ((a.get remote c.range).body ++ rest).length := by simp
            exact lt_of_lt_of_le hlen hle
      · obtain ⟨-, rfl⟩ := run_of_over hover hrest
        exact absurd hd hfail

theorem run_resumed_iff {remote : Bytes} {c d : DownloadableFileChunks} {attempts : List Attempt}
    (h : run remote c attempts = some d) (hd : d.status = .success) (hc : c.status ≠ .success)
    (ht : c.totalSize = remote.length) (hpos : 0 < c.downloaded)
    (hlt : c.downloaded < remote.length) (hsize : c.tmpFile.length = c.downloaded) :
    d.file = some remote ↔ c.tmpFile <+: remote ∧ attempts.all Attempt.quiet = true := by
  obtain ⟨rest, hfile, hquiet, hloud⟩ := run_resumed h hd hc ht hpos hlt
  rw [hfile, Option.some.injEq]
  constructor
  · intro he
    refine ⟨⟨rest, he⟩, ?_⟩
    by_contra hq
    have hlen := hloud (by simpa using hq)
    have hsum := congrArg List.length he
    rw [List.length_append] at hsum
    omega
  · rintro ⟨⟨rest', he⟩, hq⟩
    rw [hquiet hq, ← hsize, ← he, List.drop_left]

/-- The attempts that can leave something behind: all of them once something is downloaded, and
before that those from the first whole range on. -/
def lasting (tmpFile : Bytes) (attempts : List Attempt) : List Attempt :=
  if tmpFile.isEmpty then attempts.dropWhile (· ≠ .chunk) else attempts

/-- While nothing is downloaded a failed attempt is made up for by the next. -/
theorem run_fresh {remote : Bytes} {c d : DownloadableFileChunks} {attempts : List Attempt}
    (h : run remote c attempts = some d) (hd : d.status = .success) (hc : c.status ≠ .success)
    (ht : c.totalSize = remote.length) (hzero : c.downloaded = 0) (hlt : 0 < remote.length) :
    d.file = some remote ↔ (attempts.dropWhile (· ≠ .chunk)).all Attempt.quiet = true := by
  induction attempts generalizing c with
  | nil =>
    obtain rfl := Option.some.inj h
    exact absurd hd hc
  | cons a attempts ih =>
    obtain ⟨hdown, hrest⟩ := run_cons_some h
    have hopen : c.openForWrite = [] := if_neg (by omega)
    by_cases ha : a = .chunk
    · subst ha
      obtain ⟨n, hn, ⟨hlast, he⟩ | ⟨hmore, he⟩ | hcancel⟩ :=
        impl_of_chunk ht (by omega : c.downloaded < remote.length)
      · rw [he] at hrest
        obtain ⟨rfl, rfl⟩ := run_of_over (by simp) hrest
        simp [hopen, hzero, Attempt.quiet]
      · rw [he, hopen] at hrest
        have hpre : (remote.drop c.downloaded).take n <+: remote := by
          rw [hzero, List.drop_zero]
          exact List.take_prefix n remote
        have hiff := run_resumed_iff hrest hd (by simpa using hc) ht
          (show 0 < c.downloaded + n by omega) hmore (by simp; omega)
        simpa [hpre, Attempt.quiet] using hiff
      · obtain ⟨-, rfl⟩ := run_of_over (by rw [hcancel]; decide) hrest
        rw [hcancel] at hd
        cases hd
    · rcases impl_of_failed c remote ha with he | ⟨hover, hfail⟩
      · rw [he] at hrest
        rw [List.dropWhile_cons_of_pos (by simpa using ha)]
        exact ih hrest hc ht hzero
      · obtain ⟨-, rfl⟩ := run_of_over hover hrest
        exact absurd hd hfail

/-- A download that reports success saved the remote file just when what was left of an earlier
one was a beginning of it, and no attempt that failed later delivered something. -/
theorem saved_iff {remote tmpFile : Bytes} {priority : Int32} {activeSeqs : List Int64}
    {attempts : List Attempt} {d : DownloadableFileChunks} (hremote : remote ≠ [])
    (h : run remote (downloadFileSharing priority remote.length activeSeqs tmpFile) attempts =
      some d) (hd : d.status = .success) :
    d.file = some remote ↔
      (tmpFile.length ≤ remote.length → tmpFile <+: remote) ∧
        (lasting (if tmpFile.length ≤ remote.length then tmpFile else []) attempts).all
          Attempt.quiet = true := by
  unfold downloadFileSharing at h
  rcases Nat.lt_trichotomy tmpFile.length remote.length with hlt | heq | hgt
  · simp only [if_neg (show remote.length ≠ tmpFile.length by omega),
      if_neg (show ¬ remote.length < tmpFile.length by omega)] at h
    rw [if_pos hlt.le]
    by_cases hnil : tmpFile = []
    · subst hnil
      simpa [lasting] using run_fresh h hd (by simp) rfl rfl hlt
    · have hiff := run_resumed_iff h hd (by simp) rfl (List.length_pos_iff.mpr hnil) hlt rfl
      simpa [lasting, hnil, hlt.le] using hiff
  · simp only [if_pos heq.symm] at h
    obtain ⟨rfl, rfl⟩ := run_of_over (by simp [moveFile]) h
    have hpre : tmpFile <+: remote ↔ tmpFile = remote :=
      ⟨fun hp => hp.eq_of_length heq, fun he => he ▸ List.prefix_rfl⟩
    simp [moveFile, hpre, heq.le, lasting]
  · simp only [if_neg (show remote.length ≠ tmpFile.length by omega), if_pos hgt] at h
    rw [if_neg (by omega)]
    have hpos : 0 < remote.length := List.length_pos_iff.mpr hremote
    simpa [lasting, hgt] using run_fresh h hd (by simp) rfl rfl hpos

/-- A download that goes on behind the one byte of an earlier one, with a server that fails first. -/
theorem saved_iff_three_bytes :
    ∃ d, run [1, 2, 3] (downloadFileSharing 51 3 [7] [1]) [.serverError 3 [], .chunk] = some d ∧
      d.status = .success ∧ d.file = some [1, 2, 3] := by
  have hrun : run [1, 2, 3] (downloadFileSharing 51 3 [7] [1]) [.serverError 3 [], .chunk] =
      some ⟨51, 3, 3, [7], [], some [1, 2, 3], .success⟩ := by
    decide
  exact ⟨_, hrun, rfl, (saved_iff (by decide) hrun rfl).mpr (by decide)⟩

/-- The second range fails after one byte, and that byte is delivered again. -/
theorem failed_range_saved_twice :
    ¬ ∀ (remote : Bytes) (priority : Int32) (attempts : List Attempt) (d : DownloadableFileChunks),
      remote ≠ [] → highestPriority < priority →
      run remote (downloadFileSharing priority remote.length [7] []) attempts = some d →
      d.status = .success → d.file = some remote := by
  intro h
  -- The size of a range is hidden, so that nothing counts up to it.
  obtain ⟨m, hm, hlt⟩ : ∃ m, maxChunkSize = m ∧ 1 < m := ⟨_, rfl, by decide⟩
  obtain ⟨remote, hlen⟩ : ∃ remote : Bytes, remote.length = m + 2 :=
    ⟨List.replicate (m + 2) 0, List.length_replicate⟩
  have hrun : run remote (downloadFileSharing 51 remote.length [7] [])
      [.chunk, .failed 1 0, .chunk] =
        some ⟨51, m + 2, m + 2, [7], [], some (remote.take (m + 1) ++
          (((remote.drop (m + 1)).take 2).take 1 ++ (remote.drop (m + 1)).take 2)), .success⟩ := by
    simp [hlen, hm, hlt, downloadFileSharing, run_cons, attempt, downloadFileSharingImpl,
      onCompletion, onChunk, Attempt.get, clip, range, chunkSize, bytesLeft, openForWrite,
      moveFile, highestPriority]
  have hs := h remote 51 _ _ (List.ne_nil_of_length_pos (by omega)) (by decide) hrun rfl
  have hl := congrArg List.length (Option.some.inj hs)
  simp [hlen] at hl

end DownloadableFileChunks

end Icq.Wim
