import Icq.Wim.LoaderUploadsRuns

/-! What the server has of a file is a beginning of it, and all of it once an upload has succeeded. -/

namespace Icq.Wim
open Icq.Lib

/-- What the server has confirmed are the first blocks of the file, and no byte of what it has is
another one than in the file. -/
structure Faithful (source : Bytes) (upload : Upload) : Prop where
  confirmed : upload.confirmed =
    (List.range upload.confirmed.length).map (blockAt maxBlockSize source)
  count : upload.confirmed.length ≤ blockCount maxBlockSize source
  sent : upload.task.bytesSent = min (maxBlockSize * upload.confirmed.length) source.length
  stored : ∃ k, upload.task.bytesSent ≤ k ∧ upload.stored = source.take k

/-- Some of the file is still to be sent. -/
structure Ready (source : Bytes) (upload : Upload) : Prop where
  size : upload.task.fileSize = source.length
  more : upload.task.bytesSent < source.length

def JobOk (source : Bytes) (upload : Upload) : UploadStage → Prop
  | .openFile => upload.task.bytesSent = 0
  | .getGate | .sendNextRange => Ready source upload

/-- What is known when a result waits for the core context. -/
structure ResultOk (source : Bytes) (upload : Upload) (stage : UploadStage) (error : LoaderErrors) :
    Prop where
  size : error = .success → upload.task.fileSize = source.length
  more : stage = .sendNextRange ∧ error = .networkError ∨
    stage ≠ .sendNextRange ∧ error = .success → Ready source upload
  sane : error ≠ .internalLogicError

variable {source : Bytes} {upload : Upload} {stage : UploadStage} {world : UploadWorld}
  {data : Bytes}

theorem Faithful.blocks_of_all (h : Faithful source upload)
    (hall : upload.task.bytesSent = source.length) :
    upload.stored = source ∧ upload.confirmed = blocks maxBlockSize source := by
  obtain ⟨k, hle, hstored⟩ := h.stored
  have hsent := h.sent
  have hpos : 0 < maxBlockSize := by decide
  constructor
  · rw [hstored]
    exact List.take_of_length_le (by omega)
  · have hcount : blockCount maxBlockSize source ≤ upload.confirmed.length := by
      rw [blockCount_le_iff hpos]
      omega
    rw [h.confirmed, Nat.le_antisymm h.count hcount]
    rfl

/-- The range that is read is the next block. -/
theorem Faithful.read (h : Faithful source upload) (hready : Ready source upload)
    (hfile : world.file = none ∨ world.file = some source) :
    upload.task.readDataFromFile world.file = .error .readFromFile ∨
      upload.task.bytesSent = maxBlockSize * upload.confirmed.length ∧
      upload.task.readDataFromFile world.file =
        .ok (blockAt maxBlockSize source upload.confirmed.length) := by
  have hmore := hready.more
  have hsent : upload.task.bytesSent = maxBlockSize * upload.confirmed.length := by
    have := h.sent
    omega
  unfold UploadTask.readDataFromFile
  rw [hready.size]
  simp only [show ¬ source.length - upload.task.bytesSent = 0 by omega, if_false]
  rcases hfile with hnone | hsome
  · simp [hnone]
  · refine .inr ⟨hsent, ?_⟩
    rw [hsome]
    simp only
    rw [if_neg (by omega), hsent, blockAt, ← List.length_drop, Nat.min_comm,
      ← List.take_take, List.take_length]

theorem Faithful.withStored (h : Faithful source upload)
    (hsent : upload.task.bytesSent = maxBlockSize * upload.confirmed.length) :
    ∃ k, upload.task.bytesSent + (blockAt maxBlockSize source upload.confirmed.length).length ≤ k ∧
      writeAt upload.stored upload.task.bytesSent
        (blockAt maxBlockSize source upload.confirmed.length) = source.take k := by
  obtain ⟨k, hle, hstored⟩ := h.stored
  refine ⟨_, le_max_right k _, ?_⟩
  rw [hstored]
  apply writeAt_take hle
  rw [hsent, blockAt]

theorem execute_openFile (hf : Faithful source upload) (hjob : upload.task.bytesSent = 0)
    (hfile : world.file = none ∨ world.file = some source) :
    Faithful source (UploadJob.execute .openFile world upload).2 ∧
      ResultOk source (UploadJob.execute .openFile world upload).2 .openFile
        (UploadJob.execute .openFile world upload).1 ∧
      (UploadJob.execute .openFile world upload).2.task.bytesSent = upload.task.bytesSent := by
  unfold UploadJob.execute UploadTask.openFile
  rcases hfile with hnone | hsome
  · rw [hnone]
    exact ⟨hf, ⟨by simp, by simp, by simp⟩, rfl⟩
  · rw [hsome]
    simp only
    split
    · exact ⟨⟨hf.confirmed, hf.count, hf.sent, hf.stored⟩, ⟨by simp, by simp, by simp⟩, rfl⟩
    · rename_i hlength
      refine ⟨⟨hf.confirmed, hf.count, hf.sent, hf.stored⟩, ⟨by simp, fun _ => ⟨rfl, ?_⟩, by simp⟩, rfl⟩
      simp only [hjob]
      omega

theorem execute_getGate (world : UploadWorld) (hf : Faithful source upload)
    (hready : Ready source upload) :
    Faithful source (UploadJob.execute .getGate world upload).2 ∧
      ResultOk source (UploadJob.execute .getGate world upload).2 .getGate
        (UploadJob.execute .getGate world upload).1 ∧
      (UploadJob.execute .getGate world upload).2.task.bytesSent = upload.task.bytesSent := by
  have hsame : ∀ task : UploadTask, task.fileSize = upload.task.fileSize →
      task.bytesSent = upload.task.bytesSent → Faithful source { upload with task } ∧
        Ready source { upload with task } := by
    intro task hsize hsent
    exact ⟨⟨hf.confirmed, hf.count, hsent.trans hf.sent, hsent ▸ hf.stored⟩,
      ⟨hsize.trans hready.size, hsent ▸ hready.more⟩⟩
  have hdone : ∀ (task : UploadTask) (error : LoaderErrors), error ≠ .internalLogicError →
      task.fileSize = upload.task.fileSize → task.bytesSent = upload.task.bytesSent →
      Faithful source { upload with task } ∧
        ResultOk source { upload with task } .getGate error ∧
        task.bytesSent = upload.task.bytesSent := by
    intro task error hsane hsize hsent
    obtain ⟨hfaithful, hready'⟩ := hsame task hsize hsent
    exact ⟨hfaithful, ⟨fun _ => hready'.size, fun _ => hready', hsane⟩, hsent⟩
  simp only [UploadJob.execute, UploadTask.getGate]
  split
  · split
    · exact hdone _ _ (by simp) rfl rfl
    · split <;> exact hdone _ _ (by simp) rfl rfl
  · split
    · split <;> exact hdone _ _ (by simp) rfl rfl
    · exact hdone _ _ (by simp) rfl rfl

theorem execute_range (hf : Faithful source upload) (hready : Ready source upload)
    (hfile : world.file = none ∨ world.file = some source)
    (hack : ∀ code answer, world.sent = .status code answer → world.arrives = true) :
    Faithful source (UploadJob.execute .sendNextRange world upload).2 ∧
      ResultOk source (UploadJob.execute .sendNextRange world upload).2 .sendNextRange
        (UploadJob.execute .sendNextRange world upload).1 ∧
      upload.task.bytesSent ≤ (UploadJob.execute .sendNextRange world upload).2.task.bytesSent := by
  rcases hf.read hready hfile with hread | ⟨hsent, hread⟩
  · rcases Loader.execute_sendNextRange world upload with ⟨error, herror, he⟩ | ⟨data, stored, hdata, -⟩
    · rw [he]
      rw [hread, Except.error.injEq] at herror
      subst herror
      exact ⟨hf, ⟨by simp, by simp, by simp⟩, le_rfl⟩
    · simp [hread] at hdata
  · rcases Loader.execute_sendNextRange world upload with
      ⟨error, herror, -⟩ | ⟨data, stored, hdata, hstored, hcases⟩
    · simp [hread] at herror
    · rw [hread, Except.ok.injEq] at hdata
      subst hdata
      obtain ⟨k, hle, hwritten⟩ := hf.withStored hsent
      rcases hcases with ⟨error, herror, he⟩ | ⟨code, answer, task, hcode, hbytes, hsize, -, -, he⟩
      · rw [he]
        refine ⟨⟨hf.confirmed, hf.count, hf.sent, ?_⟩, ⟨?_, ?_, ?_⟩, le_rfl⟩
        · show ∃ k, upload.task.bytesSent ≤ k ∧ stored = source.take k
          rw [hstored]
          split
          · exact ⟨k, by omega, hwritten⟩
          · exact hf.stored
        · exact fun hsuccess => by rcases herror with rfl | rfl <;> cases hsuccess
        · exact fun _ => ⟨hready.size, hready.more⟩
        · rcases herror with rfl | rfl <;> simp
      · rw [he]
        have hmore := hsent ▸ hready.more
        have hend := end_blockAt (le_of_lt hmore)
        rw [← hsent, ← hbytes] at hend
        refine ⟨⟨?_, ?_, ?_, k, ?_, ?_⟩, ⟨fun _ => hsize.trans hready.size, by simp, by simp⟩, ?_⟩
        · simp only [List.length_append, List.length_singleton, List.range_succ, List.map_append,
            List.map_singleton]
          rw [← hf.confirmed]
        · rw [List.length_append, List.length_singleton, Nat.succ_le_iff]
          exact (lt_blockCount_iff (by decide)).mpr hmore
        · rw [List.length_append, List.length_singleton]
          exact hend
        · exact hbytes.le.trans hle
        · rw [hstored, if_pos (hack code answer hcode)]
          exact hwritten
        · exact hbytes ▸ Nat.le_add_right _ _

theorem execute_intact (hf : Faithful source upload) (hjob : JobOk source upload stage)
    (hfile : world.file = none ∨ world.file = some source)
    (hack : ∀ code answer, world.sent = .status code answer → world.arrives = true) :
    Faithful source (UploadJob.execute stage world upload).2 ∧
      ResultOk source (UploadJob.execute stage world upload).2 stage
        (UploadJob.execute stage world upload).1 ∧
      upload.task.bytesSent ≤ (UploadJob.execute stage world upload).2.task.bytesSent := by
  cases stage with
  | openFile =>
    obtain ⟨hfaithful, hresult, hsent⟩ := execute_openFile hf hjob hfile
    exact ⟨hfaithful, hresult, hsent.ge⟩
  | getGate =>
    obtain ⟨hfaithful, hresult, hsent⟩ := execute_getGate world hf hjob
    exact ⟨hfaithful, hresult, hsent.ge⟩
  | sendNextRange => exact execute_range hf hjob hfile hack

namespace Loader

variable {source : Nat → Bytes} {s s' : Loader} {n k : Nat} {error : LoaderErrors} {job : UploadJob}
  {results : List (UploadJob × LoaderErrors)}

/-- The files stay as they are, and the server answers to what has arrived. -/
def Unchanged (source : Nat → Bytes) (s : Loader) : UploadAction → Prop
  | .work world =>
    (∀ job ∈ s.running, world.file = none ∨ world.file = some (source job.number)) ∧
      ∀ code answer, world.sent = .status code answer → world.arrives = true
  | _ => True

/-- What the tasks, jobs, results and reports are known to be. -/
structure Intact (source : Nat → Bytes) (s : Loader) : Prop where
  faithful : ∀ n upload, s.uploads[n]? = some upload → Faithful (source n) upload
  waiting : ∀ job, s.running = some job ∨ job ∈ s.jobs → ∀ upload,
    s.uploads[job.number]? = some upload → JobOk (source job.number) upload job.stage
  done : ∀ job error, (job, error) ∈ s.results → ∀ upload,
    s.uploads[job.number]? = some upload → ResultOk (source job.number) upload job.stage error
  paused : ∀ n ∈ s.fileSharingTasks, n ∉ s.line → ∀ upload,
    s.uploads[n]? = some upload → Ready (source n) upload
  known : ∀ r ∈ s.reports, r.number < s.uploads.length
  told : ∀ r ∈ s.reports, r.result ≠ some .internalLogicError ∧ ∀ upload,
    s.uploads[r.number]? = some upload → r.info.bytesTransfer ≤ upload.task.bytesSent
  succeeded : ∀ r ∈ s.reports, r.result = some .success → ∀ upload,
    s.uploads[r.number]? = some upload → upload.task.bytesSent = (source r.number).length ∧
      r.info = upload.task.makeInfo
  ascending : s.reports.Pairwise fun r r' =>
    r.number = r'.number → r.info.bytesTransfer ≤ r'.info.bytesTransfer

theorem of_setLastError {P : Upload → Prop}
    (hP : ∀ upload, P upload → P { upload with task := { upload.task with lastError := error } })
    (h : ∀ upload, s.uploads[k]? = some upload → P upload) :
    ∀ upload, (s.setLastError n error).uploads[k]? = some upload → P upload := by
  intro upload hupload
  rw [setLastError_getElem] at hupload
  obtain ⟨old, hold, rfl⟩ := Option.map_eq_some_iff.mp hupload
  split
  · exact hP old (h old hold)
  · exact h old hold

theorem jobOk_withError {source : Bytes} {upload : Upload} {stage : UploadStage}
    (h : JobOk source upload stage) (error : LoaderErrors) :
    JobOk source { upload with task := { upload.task with lastError := error } } stage := by
  cases stage with
  | openFile => exact h
  | getGate => exact ⟨h.size, h.more⟩
  | sendNextRange => exact ⟨h.size, h.more⟩

theorem Intact.setLastError (h : Intact source s) (n : Nat) (error : LoaderErrors) :
    Intact source (s.setLastError n error) where
  faithful := fun k => of_setLastError
    (fun _ hu => ⟨hu.confirmed, hu.count, hu.sent, hu.stored⟩) (h.faithful k)
  waiting := fun job hjob => of_setLastError
    (fun _ hu => jobOk_withError hu error) (h.waiting job hjob)
  done := fun job error hdone => of_setLastError
    (fun _ hu => ⟨hu.size, fun hc => ⟨(hu.more hc).size, (hu.more hc).more⟩, hu.sane⟩)
    (h.done job error hdone)
  paused := fun k hk hline => of_setLastError (fun _ hu => ⟨hu.size, hu.more⟩) (h.paused k hk hline)
  known := fun r hr => by simpa [Loader.setLastError] using h.known r hr
  told := fun r hr => ⟨(h.told r hr).1, of_setLastError (fun _ hu => hu) (h.told r hr).2⟩
  succeeded := fun r hr hresult => of_setLastError (fun _ hu => hu) (h.succeeded r hr hresult)
  ascending := h.ascending

theorem Intact.erase (h : Intact source s) (n : Nat) :
    Intact source { s with fileSharingTasks := s.fileSharingTasks.erase n } :=
  { h with paused := fun k hk => h.paused k (List.mem_of_mem_erase hk) }

theorem Intact.pop (h : Intact source s) (hresults : s.results = (job, error) :: results)
    (hready : job.number ∈ s.fileSharingTasks → job.number ∉ ({ s with results } : Loader).line →
      ∀ upload, s.uploads[job.number]? = some upload → Ready (source job.number) upload) :
    Intact source { s with results } :=
  { h with
    done := fun job' error' hdone => h.done job' error' (hresults ▸ List.mem_cons_of_mem _ hdone)
    paused := by
      intro k hk hline
      by_cases he : k = job.number
      · subst he
        exact hready hk hline
      · refine h.paused k hk fun hin => hline ?_
        rw [line_results hresults] at hin
        exact (List.mem_cons.mp hin).resolve_left he }

theorem Intact.report {upload : Upload} {result : Option LoaderErrors} (h : Intact source s)
    (hupload : s.uploads[n]? = some upload) (hsane : result ≠ some .internalLogicError)
    (hsuccess : result = some .success → upload.task.bytesSent = (source n).length) :
    Intact source (s.report n upload result) :=
  { h with
    known := by
      intro r hr
      rcases List.mem_append.mp hr with hr | hr
      · exact h.known r hr
      · obtain rfl := List.mem_singleton.mp hr
        exact (List.getElem?_eq_some_iff.mp hupload).1
    told := by
      intro r hr
      rcases List.mem_append.mp hr with hr | hr
      · exact h.told r hr
      · obtain rfl := List.mem_singleton.mp hr
        refine ⟨hsane, fun upload' hupload' => ?_⟩
        obtain rfl := Option.some.inj (hupload.symm.trans hupload')
        exact le_rfl
    succeeded := by
      intro r hr hresult upload' hupload'
      rcases List.mem_append.mp hr with hr | hr
      · exact h.succeeded r hr hresult upload' hupload'
      · obtain rfl := List.mem_singleton.mp hr
        obtain rfl := Option.some.inj (hupload.symm.trans hupload')
        exact ⟨hsuccess hresult, rfl⟩
    ascending := by
      refine List.pairwise_append.mpr ⟨h.ascending, List.pairwise_singleton _ _, ?_⟩
      intro r hr r' hr' he
      obtain rfl := List.mem_singleton.mp hr'
      exact (h.told r hr).2 upload (he ▸ hupload) }

theorem Intact.run (h : Intact source s)
    (hjob : ∀ upload, s.uploads[n]? = some upload → JobOk (source n) upload stage) :
    Intact source (s.run stage n) :=
  { h with
    waiting := by
      intro job hwaiting
      rcases hwaiting with hrunning | hmem
      · exact h.waiting job (.inl hrunning)
      · rcases List.mem_append.mp hmem with hmem | hmem
        · exact h.waiting job (.inr hmem)
        · obtain rfl := List.mem_singleton.mp hmem
          exact hjob
    paused := fun k hk hline => h.paused k hk fun hin => hline (by
      rw [line_run]
      exact List.mem_append_left _ hin) }

theorem Intact.finish {upload : Upload} {result : LoaderErrors} (last : LoaderErrors)
    (h : Intact source s) (hin : InLine s) (hresults : s.results = (job, error) :: results)
    (hn : job.number ∈ s.fileSharingTasks) (hupload : s.uploads[job.number]? = some upload)
    (hsane : result ≠ .internalLogicError)
    (hsuccess : result = .success → upload.task.bytesSent = (source job.number).length) :
    Intact source (({ s with results } : Loader).onFileSharingTaskResult job.number upload result) ∧
      Intact source ((({ s with results } : Loader).setLastError job.number
        last).onFileSharingTaskResult job.number upload result) := by
  have hpopped := (h.erase job.number).pop hresults fun hback =>
    absurd hback (hin.not_mem_erase job.number)
  obtain ⟨heq, heq'⟩ := hin.finish_eq hn hupload results result last
  have htold := hpopped.report hupload (by simpa using hsane) fun he => hsuccess (Option.some.inj he)
  constructor
  · rw [heq]
    exact htold
  · rw [heq']
    exact htold.setLastError job.number last

theorem Intact.deliver (h : Intact source s) (hin : InLine s) (hstep : s.deliver = some s') :
    Intact source s' := by
  obtain ⟨job, error, results, upload, hresults, hupload, hcases⟩ := hin.deliver_cases hstep
  have hdone := h.done job error (hresults ▸ List.mem_cons_self) upload hupload
  have hsent := (h.faithful job.number upload hupload).sent
  cases hcases with
  | dropped hdead => exact h.pop hresults fun hn => absurd hn hdead
  | failed hn herror =>
    exact (h.finish error hin hresults hn hupload hdone.sane fun he => absurd he herror).1
  | rangeFailed hn herror =>
    exact (h.finish error hin hresults hn hupload hdone.sane fun he => absurd he herror).2
  | paused hn herror hstage =>
    have hready := hdone.more (.inl ⟨hstage, herror⟩)
    refine (h.pop hresults fun _ _ upload' hupload' => ?_).setLastError job.number .networkError
    exact Option.some.inj (hupload.symm.trans hupload') ▸ hready
  | next hn herror stage hstage =>
    have hready : Ready (source job.number) upload := by
      have hsize := hdone.size herror
      rcases hstage with ⟨hjob, -⟩ | ⟨hjob, -⟩ | ⟨hjob, -, hend⟩
      · exact hdone.more (.inr ⟨by simp [hjob], herror⟩)
      · exact hdone.more (.inr ⟨by simp [hjob], herror⟩)
      · refine ⟨hsize, ?_⟩
        simp only [UploadTask.isEnd, hsize, beq_eq_false_iff_ne] at hend
        have hle : upload.task.bytesSent ≤ (source job.number).length :=
          hsent.le.trans (Nat.min_le_right _ _)
        exact lt_of_le_of_ne hle hend
    have hjob : JobOk (source job.number) upload stage := by
      rcases hstage with ⟨-, rfl⟩ | ⟨-, rfl⟩ | ⟨-, rfl, -⟩ <;> exact hready
    have hrun : Intact source ((s.report job.number upload none).run stage job.number) := by
      refine (h.report hupload (by simp) (by simp)).run fun upload' hupload' => ?_
      exact Option.some.inj (hupload.symm.trans hupload') ▸ hjob
    have hmem : job.number ∈ ((({ s with results } : Loader).report job.number upload none).run stage
        job.number).line := by
      rw [line_run]
      simp
    exact hrun.pop hresults fun _ hline => absurd hmem hline
  | finished hn herror hstage hend =>
    have hall : upload.task.bytesSent = (source job.number).length := by
      have hsize := hdone.size herror
      simpa [UploadTask.isEnd, hsize] using hend
    have htold : Intact source (s.report job.number upload none) :=
      h.report hupload (by simp) (by simp)
    exact (htold.finish .success (hin.progress job.number upload) hresults hn hupload (by simp)
      fun _ => hall).1

theorem faithful_new (source : Bytes) (id : Bytes) : Faithful source { task := { id } } :=
  ⟨rfl, Nat.zero_le _, by simp, 0, le_rfl, rfl⟩

theorem InLine.job_made (h : InLine s) (hjob : s.running = some job ∨ job ∈ s.jobs) :
    job.number ∈ s.line ∧ job.number < s.uploads.length := by
  have hline : job.number ∈ s.line := by
    unfold line
    rcases hjob with hrunning | hmem
    · simp [hrunning]
    · exact List.mem_append_right _ (List.mem_append_right _ (List.mem_map_of_mem hmem))
  exact ⟨hline, h.made _ (.inr (.inl hline))⟩

theorem InLine.result_made (h : InLine s) (hresult : (job, error) ∈ s.results) :
    job.number ∈ s.line ∧ job.number < s.uploads.length := by
  have hline : job.number ∈ s.line := List.mem_append_left _ (List.mem_map.mpr ⟨_, hresult, rfl⟩)
  exact ⟨hline, h.made _ (.inr (.inl hline))⟩

/-- One more task changes nothing of those that are there. -/
theorem Intact.grow {more : Upload} (h : Intact source s) (hin : InLine s)
    (hmore : Faithful (source s.uploads.length) more) :
    Intact source { s with uploads := s.uploads ++ [more] } := by
  have hold : ∀ {k : Nat} {upload : Upload}, k < s.uploads.length →
      (s.uploads ++ [more])[k]? = some upload → s.uploads[k]? = some upload :=
    fun hk hupload => (List.getElem?_append_left hk).symm.trans hupload
  refine ⟨?_, ?_, ?_, ?_, ?_, ?_, ?_, h.ascending⟩
  · intro k upload hupload
    by_cases hk : k < s.uploads.length
    · exact h.faithful k upload (hold hk hupload)
    · have hlt := (List.getElem?_eq_some_iff.mp hupload).1
      simp only [List.length_append, List.length_singleton] at hlt
      obtain rfl : k = s.uploads.length := by omega
      rw [List.getElem?_concat_length] at hupload
      exact Option.some.inj hupload ▸ hmore
  · exact fun job hjob upload hupload =>
      h.waiting job hjob upload (hold (hin.job_made hjob).2 hupload)
  · exact fun job error hresult upload hupload =>
      h.done job error hresult upload (hold (hin.result_made hresult).2 hupload)
  · exact fun k hk hline upload hupload =>
      h.paused k hk hline upload (hold (hin.made k (.inl hk)) hupload)
  · intro r hr
    have hlt := h.known r hr
    simp only [List.length_append]
    omega
  · exact fun r hr => ⟨(h.told r hr).1, fun upload hupload =>
      (h.told r hr).2 upload (hold (h.known r hr) hupload)⟩
  · exact fun r hr hresult upload hupload =>
      h.succeeded r hr hresult upload (hold (h.known r hr) hupload)

theorem Intact.uploadFileSharing (h : Intact source s) (hin : InLine s) (id : Bytes) :
    Intact source (s.uploadFileSharing id) := by
  let more : Upload := { task := { id } }
  have hgrown : Intact source (({ s with uploads := s.uploads ++ [more] } : Loader).run .openFile
      s.uploads.length) := by
    refine (h.grow hin (faithful_new _ id)).run fun upload hupload => ?_
    rw [List.getElem?_concat_length] at hupload
    exact Option.some.inj hupload ▸ rfl
  unfold Loader.uploadFileSharing addFileSharingTask
  simp only
  split
  · exact hgrown
  · refine { hgrown with paused := fun k hk hline => ?_ }
    rcases List.mem_append.mp hk with hk | hk
    · exact hgrown.paused k hk hline
    · refine absurd ?_ hline
      rw [List.mem_singleton.mp hk, line_run]
      simp

theorem Intact.resumeTask (h : Intact source s) (hin : InLine s) (hn : n ∈ s.fileSharingTasks) :
    Intact source (s.resumeTask n) := by
  unfold Loader.resumeTask
  split
  · exact h
  · rename_i upload hupload
    split
    · rename_i herror
      rcases hin.moving n hn upload hupload with ⟨-, hfine⟩ | ⟨hline, -⟩
      · exact absurd hfine herror
      · have hready := h.paused n hn hline
        exact (h.setLastError n .success).run (of_setLastError (fun _ hu => ⟨hu.size, hu.more⟩) hready)
    · exact h

theorem Intact.resume (h : Intact source s) (hin : InLine s) :
    Intact source s.resumeFileSharingTasks := by
  suffices hall : ∀ (l : List Nat) (s : Loader), InLine s → Intact source s →
      (∀ n ∈ l, n ∈ s.fileSharingTasks) → Intact source (l.foldl Loader.resumeTask s) from
    hall s.fileSharingTasks s hin h fun _ hn => hn
  intro l
  induction l with
  | nil => exact fun _ _ h _ => h
  | cons n l ih =>
    intro s hin h hl
    obtain ⟨hone, htasks, -⟩ := hin.resumeTask (hl n (by simp))
    exact ih _ hone (h.resumeTask hin (hl n (by simp))) fun k hk =>
      htasks ▸ hl k (List.mem_cons_of_mem _ hk)

theorem Intact.take (h : Intact source s) (hstep : s.take = some s') : Intact source s' := by
  unfold Loader.take at hstep
  split at hstep
  · rename_i job jobs hrunning hjobs
    have hwaiting : ∀ job', job' = job ∨ job' ∈ jobs → ∀ upload,
        s.uploads[job'.number]? = some upload → JobOk (source job'.number) upload job'.stage :=
      fun job' hjob => h.waiting job' (.inr (hjobs ▸ List.mem_cons.mpr hjob))
    split at hstep
    · cases hstep
      have hline : ({ s with jobs, running := some job } : Loader).line = s.line := by
        simp [line, hrunning, hjobs]
      exact { h with
        waiting := fun job' hjob => hwaiting job' (hjob.imp_left fun he => (Option.some.inj he).symm)
        paused := fun k hk hout => h.paused k hk (hline ▸ hout) }
    · cases hstep
      have hline : ({ s with jobs, results := s.results ++ [(job, .undefined)] } : Loader).line =
          s.line := by
        simp [line, hrunning, hjobs]
      exact { h with
        waiting := fun job' hjob => hwaiting job' (hjob.imp_left fun he => by simp [hrunning] at he)
        done := by
          intro job' error hresult
          rcases List.mem_append.mp hresult with hresult | hresult
          · exact h.done job' error hresult
          · cases List.mem_singleton.mp hresult
            exact fun _ _ => ⟨by simp, by simp, by simp⟩
        paused := fun k hk hout => h.paused k hk (hline ▸ hout) }
  · cases hstep

theorem Intact.work {world : UploadWorld} (h : Intact source s) (hin : InLine s)
    (hworld : Unchanged source s (.work world)) (hstep : s.work world = some s') :
    Intact source s' := by
  obtain ⟨job, upload, hrunning, hupload, rfl⟩ := work_cases hstep
  obtain ⟨hfaithful, hresult, hsent⟩ := execute_intact (h.faithful job.number upload hupload)
    (h.waiting job (.inl hrunning) upload hupload) (hworld.1 job hrunning) hworld.2
  generalize UploadJob.execute job.stage world upload = executed at hfaithful hresult hsent ⊢
  have hset : ∀ k upload', (s.uploads.set job.number executed.2)[k]? = some upload' →
      k = job.number ∧ upload' = executed.2 ∨ k ≠ job.number ∧ s.uploads[k]? = some upload' := by
    intro k upload' hupload'
    rw [List.getElem?_set] at hupload'
    split at hupload'
    · rename_i he
      split at hupload'
      · exact .inl ⟨he.symm, (Option.some.inj hupload').symm⟩
      · cases hupload'
    · rename_i he
      exact .inr ⟨Ne.symm he, hupload'⟩
  have honce := hin.once
  have hline : s.line = s.results.map (·.1.number) ++ job.number :: s.jobs.map UploadJob.number := by
    simp [line, hrunning]
  rw [hline, List.nodup_append, List.nodup_cons] at honce
  obtain ⟨-, ⟨hjobs, -⟩, hresults⟩ := honce
  refine ⟨?_, ?_, ?_, ?_, ?_, ?_, ?_, h.ascending⟩
  · intro k upload' hupload'
    rcases hset k upload' hupload' with ⟨rfl, rfl⟩ | ⟨-, hold⟩
    · exact hfaithful
    · exact h.faithful k upload' hold
  · intro job' hjob' upload' hupload'
    have hmem : job' ∈ s.jobs := hjob'.resolve_left (by simp)
    rcases hset _ upload' hupload' with ⟨he, -⟩ | ⟨-, hold⟩
    · exact absurd (he ▸ List.mem_map_of_mem hmem) hjobs
    · exact h.waiting job' (.inr hmem) upload' hold
  · intro job' error hmem upload' hupload'
    rcases List.mem_append.mp hmem with hmem | hmem
    · rcases hset _ upload' hupload' with ⟨he, -⟩ | ⟨-, hold⟩
      · exact absurd he (hresults _ (List.mem_map.mpr ⟨_, hmem, rfl⟩) _ List.mem_cons_self)
      · exact h.done job' error hmem upload' hold
    · cases List.mem_singleton.mp hmem
      rcases hset _ upload' hupload' with ⟨-, rfl⟩ | ⟨hne, -⟩
      · exact hresult
      · exact absurd rfl hne
  · intro k hk hout upload' hupload'
    have hout' : k ∉ s.line := by
      rw [hline]
      simpa [line] using hout
    rcases hset k upload' hupload' with ⟨rfl, -⟩ | ⟨-, hold⟩
    · exact absurd (hin.job_made (.inl hrunning)).1 hout'
    · exact h.paused k hk hout' upload' hold
  · intro r hr
    rw [List.length_set]
    exact h.known r hr
  · refine fun r hr => ⟨(h.told r hr).1, fun upload' hupload' => ?_⟩
    rcases hset _ upload' hupload' with ⟨he, rfl⟩ | ⟨-, hold⟩
    · exact ((h.told r hr).2 upload (he ▸ hupload)).trans hsent
    · exact (h.told r hr).2 upload' hold
  · intro r hr hsuccess upload' hupload'
    have hended : r.number ∈ s.ended := List.mem_filterMap.mpr ⟨r, hr, by simp [hsuccess]⟩
    rcases hset _ upload' hupload' with ⟨he, -⟩ | ⟨-, hold⟩
    · exact absurd (he ▸ (hin.job_made (.inl hrunning)).1) (hin.gone _ hended).2
    · exact h.succeeded r hr hsuccess upload' hold

theorem Intact.step {action : UploadAction} (h : Intact source s) (hin : InLine s)
    (hworld : Unchanged source s action) (hstep : s.step action = some s') : Intact source s' := by
  cases action with
  | upload id => exact Option.some.inj hstep ▸ h.uploadFileSharing hin id
  | abort id =>
    obtain rfl := Option.some.inj hstep
    rcases removeFileSharingTask_cases s id with hsame | ⟨n, herase⟩
    · exact hsame.symm ▸ h
    · exact herase.symm ▸ h.erase n
  | resume => exact Option.some.inj hstep ▸ h.resume hin
  | take => exact h.take hstep
  | work world => exact h.work hin hworld hstep
  | deliver => exact h.deliver hin hstep

/-- However uploads, stops, resumptions and failures of the network come between each other, while
the files stay as they are: the server never has another byte than the file, a handler hears of more
and more bytes, and when it is told of success the server has confirmed each block of the file once
and in order, and has it all. -/
theorem uploads_exact (h : Run Loader.step (Unchanged source) {} s) :
    (∀ n upload, s.uploads[n]? = some upload →
      ∃ k, upload.task.bytesSent ≤ k ∧ upload.stored = (source n).take k) ∧
    (s.reports.Pairwise fun r r' =>
      r.number = r'.number → r.info.bytesTransfer ≤ r'.info.bytesTransfer) ∧
    ∀ r ∈ s.reports, r.result ≠ some .internalLogicError ∧ (r.result = some .success →
      ∃ upload, s.uploads[r.number]? = some upload ∧ r.info = upload.task.makeInfo ∧
        upload.stored = source r.number ∧ upload.confirmed = blocks maxBlockSize (source r.number) ∧
        upload.confirmed.flatten = source r.number) := by
  have hempty : Intact source {} :=
    ⟨by simp, by simp, by simp, by simp, by simp, by simp, by simp, by simp⟩
  have hall := h.invariant (P := fun s => InLine s ∧ Intact source s) ⟨inLine_empty, hempty⟩
    fun ⟨hin, hi⟩ ha hstep => ⟨hin.step hstep, hi.step hin ha hstep⟩
  obtain ⟨hin, hi⟩ := hall
  refine ⟨fun n upload hupload => (hi.faithful n upload hupload).stored, hi.ascending,
    fun r hr => ⟨(hi.told r hr).1, fun hsuccess => ?_⟩⟩
  obtain ⟨upload, hupload⟩ : ∃ upload, s.uploads[r.number]? = some upload :=
    ⟨_, List.getElem?_eq_getElem (hi.known r hr)⟩
  obtain ⟨hsent, hinfo⟩ := hi.succeeded r hr hsuccess upload hupload
  obtain ⟨hstored, hconfirmed⟩ := (hi.faithful r.number upload hupload).blocks_of_all hsent
  refine ⟨upload, hupload, hinfo, hstored, hconfirmed, ?_⟩
  rw [hconfirmed]
  exact flatten_blocks (by decide)

/-- A file of two bytes; its range arrives, the answer does not, and it is sent once more. -/
def finishedUpload : Loader :=
  { uploads := [⟨{ id := [7], fileSize := 2, bytesSent := 2, fileUrl := [9] }, [1, 2], [[1, 2]]⟩]
    reports := [⟨0, none, ⟨0, 2, [], []⟩⟩, ⟨0, none, ⟨0, 2, [], []⟩⟩, ⟨0, none, ⟨2, 2, [9], []⟩⟩,
      ⟨0, some .success, ⟨2, 2, [9], []⟩⟩] }

theorem finishedUpload_run : Run Loader.step (Unchanged fun _ => [1, 2]) {} finishedUpload := by
  let lost : UploadWorld := { file := some [1, 2], gateway := .status 200 ⟨[], []⟩, arrives := true }
  let told : UploadWorld := { lost with sent := .status 200 ⟨[9], []⟩ }
  have hlost : ∀ s : Loader, Unchanged (fun _ => [1, 2]) s (.work lost) :=
    fun s => ⟨fun _ _ => .inr rfl, fun _ _ _ => rfl⟩
  have htold : ∀ s : Loader, Unchanged (fun _ => [1, 2]) s (.work told) :=
    fun s => ⟨fun _ _ => .inr rfl, fun _ _ _ => rfl⟩
  have hpaused : Run Loader.step (Unchanged fun _ => [1, 2]) {}
      { pausedUpload with uploads :=
        [⟨{ id := [7], fileSize := 2, lastError := .networkError }, [1, 2], []⟩] } := by
    refine .step .deliver (.step (.work lost) (.step .take (.step .deliver (.step (.work lost)
      (.step .take (.step .deliver (.step (.work lost) (.step .take (.step (.upload [7]) .start
        trivial rfl) trivial rfl) (hlost _) rfl) trivial rfl) trivial rfl) (hlost _) rfl) trivial rfl)
          trivial rfl) (hlost _) rfl) trivial rfl
  exact .step .deliver (.step (.work told) (.step .take (.step .resume hpaused trivial rfl)
    trivial rfl) (htold _) rfl) trivial rfl

theorem uploads_exact_finished :
    ∃ upload, finishedUpload.uploads[0]? = some upload ∧ upload.stored = [1, 2] := by
  obtain ⟨-, -, hall⟩ := uploads_exact finishedUpload_run
  obtain ⟨upload, hupload, -, hstored, -⟩ := (hall ⟨0, some .success, ⟨2, 2, [9], []⟩⟩
    (by simp [finishedUpload])).2 rfl
  exact ⟨upload, hupload, hstored⟩

end Loader

end Icq.Wim
