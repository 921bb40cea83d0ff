import Icq.Wim.LoaderUploads
import Mathlib.Data.List.Nodup

/-! No upload is in the line of the loader twice, none that the loader keeps is forgotten, and each
ends at most once. -/

namespace Icq.Wim
open Icq.Lib

namespace Loader

/-- The tasks that something waits for: a result, the end of a job, or the thread. -/
def line (s : Loader) : List Nat :=
  s.results.map (·.1.number) ++ (s.running.toList.map UploadJob.number ++
    s.jobs.map UploadJob.number)

/-- The tasks whose handlers were told how they ended. -/
def ended (s : Loader) : List Nat :=
  s.reports.filterMap fun r => r.result.map fun _ => r.number

variable {s s' : Loader} {n k : Nat} {id : Bytes} {error : LoaderErrors} {upload : Upload}
  {job : UploadJob} {results : List (UploadJob × LoaderErrors)}

/-- What a task waits for: it is in the line once, or a range of it failed in the network. -/
structure InLine (s : Loader) : Prop where
  made : ∀ n, n ∈ s.fileSharingTasks ∨ n ∈ s.line ∨ n ∈ s.ended → n < s.uploads.length
  names : (s.fileSharingTasks.map s.taskId).Nodup
  once : s.line.Nodup
  moving : ∀ n ∈ s.fileSharingTasks, ∀ upload, s.uploads[n]? = some upload →
    n ∈ s.line ∧ upload.task.lastError = .success ∨
      n ∉ s.line ∧ upload.task.lastError = .networkError
  gone : ∀ n ∈ s.ended, n ∉ s.fileSharingTasks ∧ n ∉ s.line
  endedOnce : s.ended.Nodup

theorem setLastError_getElem (s : Loader) (n : Nat) (error : LoaderErrors) (k : Nat) :
    (s.setLastError n error).uploads[k]? = (s.uploads[k]?).map fun upload =>
      if n = k then { upload with task := { upload.task with lastError := error } } else upload := by
  simp only [setLastError, List.getElem?_modify]
  cases s.uploads[k]? with
  | none => rfl
  | some upload => split <;> simp_all

theorem setLastError_taskId (s : Loader) (n : Nat) (error : LoaderErrors) :
    (s.setLastError n error).taskId = s.taskId := by
  funext k
  unfold taskId
  rw [setLastError_getElem, Option.map_map]
  congr 1
  funext upload
  simp only [Function.comp_apply]
  split <;> rfl

theorem findTaskById_eq (hnames : (s.fileSharingTasks.map s.taskId).Nodup)
    (hn : n ∈ s.fileSharingTasks) (hid : s.taskId n = some id) : s.findTaskById id = some n := by
  unfold findTaskById
  cases hfind : s.fileSharingTasks.find? fun number => s.taskId number == some id with
  | none => simpa [hid] using List.find?_eq_none.mp hfind n hn
  | some m =>
    have hm : s.taskId m = some id := by simpa using List.find?_some hfind
    rw [List.inj_on_of_nodup_map hnames (List.mem_of_find?_eq_some hfind) hn (hm.trans hid.symm)]

theorem removeFileSharingTask_cases (s : Loader) (id : Bytes) :
    s.removeFileSharingTask id = s ∨
      ∃ n, s.removeFileSharingTask id =
        { s with fileSharingTasks := s.fileSharingTasks.erase n } := by
  unfold removeFileSharingTask
  split
  · exact .inl rfl
  · exact .inr ⟨_, rfl⟩

theorem InLine.erase (h : InLine s) (n : Nat) :
    InLine { s with fileSharingTasks := s.fileSharingTasks.erase n } where
  made := fun k hk => h.made k (hk.imp_left List.mem_of_mem_erase)
  names := h.names.sublist (List.Sublist.map _ List.erase_sublist)
  once := h.once
  moving := fun k hk => h.moving k (List.mem_of_mem_erase hk)
  gone := fun k hk => ⟨fun hin => (h.gone k hk).1 (List.mem_of_mem_erase hin), (h.gone k hk).2⟩
  endedOnce := h.endedOnce

theorem line_results (hresults : s.results = (job, error) :: results) :
    s.line = job.number :: ({ s with results } : Loader).line := by
  simp [line, hresults]

/-- A result of a task that the loader does not keep is dropped. -/
theorem InLine.pop (h : InLine s) (hresults : s.results = (job, error) :: results)
    (hdead : job.number ∉ s.fileSharingTasks) : InLine { s with results } := by
  have hline := line_results hresults
  have hsub : ∀ k, k ∈ ({ s with results } : Loader).line → k ∈ s.line := by
    intro k hk
    rw [hline]
    exact List.mem_cons_of_mem _ hk
  refine ⟨?_, h.names, ?_, ?_, ?_, h.endedOnce⟩
  · exact fun k hk => h.made k (hk.imp_right (Or.imp_left (hsub k)))
  · have honce := h.once
    rw [hline] at honce
    exact (List.nodup_cons.mp honce).2
  · intro k hk upload hupload
    have hne : k ≠ job.number := fun he => hdead (he ▸ hk)
    have hmoving := h.moving k hk upload hupload
    rw [hline, List.mem_cons, or_iff_right hne] at hmoving
    exact hmoving
  · exact fun k hk => ⟨(h.gone k hk).1, fun hin => (h.gone k hk).2 (hsub k hin)⟩

theorem InLine.progress (h : InLine s) (n : Nat) (upload : Upload) :
    InLine (s.report n upload none) := by
  have hended : (s.report n upload none).ended = s.ended := by simp [ended, report]
  exact ⟨fun k hk => h.made k (hended ▸ hk), h.names, h.once, h.moving,
    fun k hk => h.gone k (hended ▸ hk), hended ▸ h.endedOnce⟩

/-- The end of a task is told after it was taken from the line and from what the loader keeps. -/
theorem InLine.result (h : InLine s) (hmade : n < s.uploads.length) (htask : n ∉ s.fileSharingTasks)
    (hline : n ∉ s.line) (hended : n ∉ s.ended) (upload : Upload) (error : LoaderErrors) :
    InLine (s.report n upload (some error)) := by
  have hmore : (s.report n upload (some error)).ended = s.ended ++ [n] := by simp [ended, report]
  refine ⟨?_, h.names, h.once, h.moving, ?_, ?_⟩
  · intro k hk
    rw [hmore, List.mem_append, List.mem_singleton] at hk
    rcases hk with hk | hk | hk | rfl
    · exact h.made k (.inl hk)
    · exact h.made k (.inr (.inl hk))
    · exact h.made k (.inr (.inr hk))
    · exact hmade
  · intro k hk
    rw [hmore, List.mem_append, List.mem_singleton] at hk
    rcases hk with hk | rfl
    · exact h.gone k hk
    · exact ⟨htask, hline⟩
  · rw [hmore, List.nodup_append]
    exact ⟨h.endedOnce, List.nodup_singleton n, fun a ha b hb => by
      rw [List.mem_singleton.mp hb]
      exact fun he => hended (he ▸ ha)⟩

theorem InLine.tasks_nodup (h : InLine s) : s.fileSharingTasks.Nodup := List.Nodup.of_map _ h.names

theorem InLine.setLastError (h : InLine s) (hn : n ∉ s.fileSharingTasks) (error : LoaderErrors) :
    InLine (s.setLastError n error) := by
  refine ⟨?_, ?_, h.once, ?_, h.gone, h.endedOnce⟩
  · intro k hk
    simpa [Loader.setLastError] using h.made k hk
  · rw [setLastError_taskId]
    exact h.names
  · intro k hk upload hupload
    have hne : n ≠ k := fun he => hn (he ▸ hk)
    rw [setLastError_getElem] at hupload
    simp only [hne, if_false, Option.map_id'] at hupload
    exact h.moving k hk upload hupload

theorem onFileSharingTaskResult_eq (hfound : s.findTaskById upload.task.id = some n)
    (result : LoaderErrors) :
    s.onFileSharingTaskResult n upload result =
      ({ s with fileSharingTasks := s.fileSharingTasks.erase n } : Loader).report n upload
        (some result) := by
  have hsame : (s.report n upload (some result)).findTaskById upload.task.id = some n := hfound
  simp only [onFileSharingTaskResult, removeFileSharingTask, hsame]
  rfl

theorem InLine.finish_eq (h : InLine s) (hn : n ∈ s.fileSharingTasks)
    (hupload : s.uploads[n]? = some upload) (results : List (UploadJob × LoaderErrors))
    (result last : LoaderErrors) :
    ({ s with results } : Loader).onFileSharingTaskResult n upload result =
        ({ s with fileSharingTasks := s.fileSharingTasks.erase n, results } : Loader).report n upload
          (some result) ∧
      (({ s with results } : Loader).setLastError n last).onFileSharingTaskResult n upload result =
        (({ s with fileSharingTasks := s.fileSharingTasks.erase n, results } : Loader).setLastError n
          last).report n upload (some result) := by
  have hid : s.taskId n = some upload.task.id := by simp [taskId, hupload]
  have hfound : ({ s with results } : Loader).findTaskById upload.task.id = some n :=
    findTaskById_eq h.names hn hid
  have hfound' : (({ s with results } : Loader).setLastError n last).findTaskById upload.task.id =
      some n := by
    unfold findTaskById
    rw [setLastError_taskId]
    exact hfound
  exact ⟨onFileSharingTaskResult_eq hfound result, onFileSharingTaskResult_eq hfound' result⟩

theorem InLine.not_mem_erase (h : InLine s) (n : Nat) : n ∉ s.fileSharingTasks.erase n := by
  rw [h.tasks_nodup.mem_erase_iff]
  exact fun hin => hin.1 rfl

/-- A task ends: its handler is told, and the loader keeps it no more. -/
theorem InLine.finish (h : InLine s) (hresults : s.results = (job, error) :: results)
    (hn : job.number ∈ s.fileSharingTasks) (hupload : s.uploads[job.number]? = some upload)
    (result last : LoaderErrors) :
    InLine (({ s with results } : Loader).onFileSharingTaskResult job.number upload result) ∧
      InLine ((({ s with results } : Loader).setLastError job.number last).onFileSharingTaskResult
        job.number upload result) := by
  have htask := h.not_mem_erase job.number
  have hpopped := (h.erase job.number).pop hresults htask
  have hline : job.number ∉ ({ s with results } : Loader).line := by
    have honce := h.once
    rw [line_results hresults] at honce
    exact (List.nodup_cons.mp honce).1
  have hended : job.number ∉ s.ended := fun hin => (h.gone _ hin).1 hn
  have hmade := h.made _ (.inl hn)
  obtain ⟨heq, heq'⟩ := h.finish_eq hn hupload results result last
  constructor
  · rw [heq]
    exact hpopped.result hmade htask hline hended upload result
  · rw [heq']
    refine (hpopped.setLastError htask last).result ?_ htask hline hended upload result
    simpa [Loader.setLastError] using hmade

/-- A task whose range failed in the network waits until all are resumed. -/
theorem InLine.pause (h : InLine s) (hresults : s.results = (job, error) :: results) :
    InLine (({ s with results } : Loader).setLastError job.number .networkError) := by
  have hline := line_results hresults
  have hne : ∀ k ∈ ({ s with results } : Loader).line, k ≠ job.number ∧ k ∈ s.line := by
    intro k hk
    have honce := h.once
    rw [hline] at honce ⊢
    exact ⟨fun he => (List.nodup_cons.mp honce).1 (he ▸ hk), List.mem_cons_of_mem _ hk⟩
  refine ⟨?_, ?_, ?_, ?_, ?_, h.endedOnce⟩
  · intro k hk
    have hmade := h.made k (hk.imp_right (Or.imp_left fun hin => (hne k hin).2))
    simpa [Loader.setLastError] using hmade
  · rw [setLastError_taskId]
    exact h.names
  · have honce := h.once
    rw [hline] at honce
    exact (List.nodup_cons.mp honce).2
  · intro k hk upload hupload
    rw [setLastError_getElem] at hupload
    by_cases he : job.number = k
    · subst he
      simp only [if_true, Option.map_eq_some_iff] at hupload
      obtain ⟨old, -, rfl⟩ := hupload
      exact .inr ⟨fun hin => (hne _ hin).1 rfl, rfl⟩
    · simp only [he, if_false, Option.map_id'] at hupload
      have hmoving := h.moving k hk upload hupload
      rw [hline, List.mem_cons, or_iff_right (Ne.symm he)] at hmoving
      exact hmoving
  · exact fun k hk => ⟨(h.gone k hk).1, fun hin => (h.gone k hk).2 (hne k hin).2⟩

theorem line_run (s : Loader) (stage : UploadStage) (n : Nat) :
    (s.run stage n).line = s.line ++ [n] := by
  simp [line, run]

/-- A task goes on with its next job. -/
theorem InLine.goOn (h : InLine s) (hresults : s.results = (job, error) :: results)
    (stage : UploadStage) (upload : Upload) :
    InLine ((({ s with results } : Loader).report job.number upload none).run stage job.number) := by
  have hline := line_results hresults
  have hperm : ((({ s with results } : Loader).report job.number upload none).run stage
      job.number).line.Perm s.line := by
    rw [line_run, hline]
    exact List.perm_append_singleton job.number _
  have hended : ({ s with results } : Loader).ended = s.ended := rfl
  have hmore : (({ s with results } : Loader).report job.number upload none).ended = s.ended := by
    simp [ended, report]
  refine ⟨?_, h.names, hperm.nodup_iff.mpr h.once, ?_, ?_, ?_⟩
  · intro k hk
    rw [hperm.mem_iff] at hk
    exact h.made k (hk.imp_right (Or.imp_right fun hin => hmore ▸ hin))
  · intro k hk upload hupload
    rw [hperm.mem_iff]
    exact h.moving k hk upload hupload
  · intro k hk
    rw [hperm.mem_iff]
    exact h.gone k (hmore ▸ hk)
  · exact hmore ▸ h.endedOnce

/-- The task of a result that the context gets is kept, or nothing holds it any more. -/
theorem InLine.alive (h : InLine s) (hresults : s.results = (job, error) :: results)
    (halive : ({ s with results } : Loader).isAlive job.number = true) :
    job.number ∈ s.fileSharingTasks := by
  have honce := h.once
  rw [line_results hresults] at honce
  simp only [isAlive, Bool.or_eq_true, List.contains_iff_mem] at halive
  rcases halive with hin | hrunning
  · exact hin
  · obtain ⟨job', hjob, he⟩ := (Option.any_eq_true _ _).mp hrunning
    refine absurd ?_ (List.nodup_cons.mp honce).1
    simp only [line, hjob, ← beq_iff_eq.mp he]
    simp

/-- What the core context makes of a result. -/
inductive Delivered (s : Loader) (job : UploadJob) (error : LoaderErrors)
    (results : List (UploadJob × LoaderErrors)) (upload : Upload) : Loader → Prop where
  | dropped (hdead : job.number ∉ s.fileSharingTasks) :
      Delivered s job error results upload { s with results }
  | failed (hn : job.number ∈ s.fileSharingTasks) (herror : error ≠ .success)
      (hstage : job.stage ≠ .sendNextRange) :
      Delivered s job error results upload
        (({ s with results } : Loader).onFileSharingTaskResult job.number upload error)
  | rangeFailed (hn : job.number ∈ s.fileSharingTasks) (herror : error ≠ .success)
      (hnetwork : error ≠ .networkError) (hstage : job.stage = .sendNextRange) :
      Delivered s job error results upload
        ((({ s with results } : Loader).setLastError job.number error).onFileSharingTaskResult
          job.number upload error)
  | paused (hn : job.number ∈ s.fileSharingTasks) (herror : error = .networkError)
      (hstage : job.stage = .sendNextRange) :
      Delivered s job error results upload
        (({ s with results } : Loader).setLastError job.number .networkError)
  | next (hn : job.number ∈ s.fileSharingTasks) (herror : error = .success) (stage : UploadStage)
      (hstage : job.stage = .openFile ∧ stage = .getGate ∨
        job.stage = .getGate ∧ stage = .sendNextRange ∨
        job.stage = .sendNextRange ∧ stage = .sendNextRange ∧ upload.task.isEnd = false) :
      Delivered s job error results upload
        ((({ s with results } : Loader).report job.number upload none).run stage job.number)
  | finished (hn : job.number ∈ s.fileSharingTasks) (herror : error = .success)
      (hstage : job.stage = .sendNextRange) (hend : upload.task.isEnd = true) :
      Delivered s job error results upload
        ((({ s with results } : Loader).report job.number upload none).onFileSharingTaskResult
          job.number upload .success)

theorem InLine.deliver_cases (h : InLine s) (hstep : s.deliver = some s') :
    ∃ job error results upload, s.results = (job, error) :: results ∧
      s.uploads[job.number]? = some upload ∧ Delivered s job error results upload s' := by
  unfold deliver at hstep
  split at hstep
  · cases hstep
  · rename_i job error results hresults
    refine ⟨job, error, results, ?_⟩
    simp only at hstep
    split at hstep
    · cases hstep
    · rename_i upload hupload
      refine ⟨upload, hresults, hupload, ?_⟩
      by_cases halive : ({ s with results } : Loader).isAlive job.number = true
      · have hn := h.alive hresults halive
        rw [if_neg (by simp [halive])] at hstep
        split at hstep
        all_goals rename_i hstage
        · split at hstep
          · rename_i herror
            cases hstep
            exact .failed hn herror (by simp [hstage])
          · rename_i herror
            cases hstep
            exact .next hn (not_not.mp herror) .getGate (.inl ⟨hstage, rfl⟩)
        · split at hstep
          · rename_i herror
            cases hstep
            exact .failed hn herror (by simp [hstage])
          · rename_i herror
            cases hstep
            exact .next hn (not_not.mp herror) .sendNextRange (.inr (.inl ⟨hstage, rfl⟩))
        · split at hstep
          · rename_i herror
            split at hstep
            · rename_i hnetwork
              cases hstep
              exact .rangeFailed hn herror hnetwork hstage
            · rename_i hnetwork
              cases hstep
              obtain rfl := not_not.mp hnetwork
              exact .paused hn rfl hstage
          · rename_i herror
            split at hstep
            · rename_i hend
              cases hstep
              exact .next hn (not_not.mp herror) .sendNextRange
                (.inr (.inr ⟨hstage, rfl, by simpa using hend⟩))
            · rename_i hend
              cases hstep
              exact .finished hn (not_not.mp herror) hstage (by simpa using hend)
      · rw [if_pos (by simp [halive])] at hstep
        cases hstep
        refine .dropped fun hn => halive ?_
        simp [isAlive, hn]

theorem InLine.deliver (h : InLine s) (hstep : s.deliver = some s') : InLine s' := by
  obtain ⟨job, error, results, upload, hresults, hupload, hcases⟩ := h.deliver_cases hstep
  cases hcases with
  | dropped hdead => exact h.pop hresults hdead
  | failed hn => exact (h.finish hresults hn hupload error error).1
  | rangeFailed hn => exact (h.finish hresults hn hupload error error).2
  | paused => exact h.pause hresults
  | next _ _ stage => exact h.goOn hresults stage upload
  | finished hn =>
    have hmore : (({ s with results } : Loader).report job.number upload none).ended = s.ended := by
      simp [ended, report]
    exact ((h.progress job.number upload).finish hresults hn hupload .success .success).1

theorem taskId_append (hn : n < s.uploads.length) (more : Upload) :
    ({ s with uploads := s.uploads ++ [more] } : Loader).taskId n = s.taskId n := by
  simp [taskId, List.getElem?_append_left hn]

theorem nodup_concat {l : List Nat} (h : l.Nodup) (hn : n ∉ l) : (l ++ [n]).Nodup :=
  (List.perm_append_singleton n l).nodup_iff.mpr (List.nodup_cons.mpr ⟨hn, h⟩)

theorem mem_line_concat (hne : k ≠ n) : k ∈ s.line ++ [n] ↔ k ∈ s.line := by
  simp [hne]

/-- A new task waits for the thread. -/
theorem InLine.wait (h : InLine s) (more : Upload) :
    InLine (({ s with uploads := s.uploads ++ [more] } : Loader).run .openFile s.uploads.length) := by
  have htasks : ∀ k ∈ s.fileSharingTasks, k < s.uploads.length := fun k hk => h.made k (.inl hk)
  have hfresh : s.uploads.length ∉ s.line := fun hin => lt_irrefl _ (h.made _ (.inr (.inl hin)))
  have hline : (({ s with uploads := s.uploads ++ [more] } : Loader).run .openFile
      s.uploads.length).line = s.line ++ [s.uploads.length] := line_run _ _ _
  refine ⟨?_, ?_, hline ▸ nodup_concat h.once hfresh, ?_, ?_, h.endedOnce⟩
  · intro k hk
    rw [hline, List.mem_append, List.mem_singleton] at hk
    have hlength : k < s.uploads.length + 1 := by
      rcases hk with hk | (hk | rfl) | hk
      · exact Nat.lt_succ_of_lt (h.made k (.inl hk))
      · exact Nat.lt_succ_of_lt (h.made k (.inr (.inl hk)))
      · exact Nat.lt_succ_self _
      · exact Nat.lt_succ_of_lt (h.made k (.inr (.inr hk)))
    simpa [run] using hlength
  · have hids := List.map_congr_left fun k hk => taskId_append (htasks k hk) more
    exact hids ▸ h.names
  · intro k hk upload hupload
    have hlt := htasks k hk
    have hold : s.uploads[k]? = some upload := (List.getElem?_append_left hlt).symm.trans hupload
    rw [hline, mem_line_concat (ne_of_lt hlt)]
    exact h.moving k hk upload hold
  · intro k hk
    have hlt := h.made k (.inr (.inr hk))
    rw [hline, mem_line_concat (ne_of_lt hlt)]
    exact h.gone k hk

/-- The loader keeps a task that is in the line. -/
theorem InLine.keep (h : InLine s) (hline : n ∈ s.line) (htask : n ∉ s.fileSharingTasks)
    (hname : s.taskId n ∉ s.fileSharingTasks.map s.taskId)
    (hended : n ∉ s.ended)
    (hfine : ∀ upload, s.uploads[n]? = some upload → upload.task.lastError = .success) :
    InLine { s with fileSharingTasks := s.fileSharingTasks ++ [n] } where
  made := by
    intro k hk
    rcases hk with hk | hk
    · rcases List.mem_append.mp hk with hk | hk
      · exact h.made k (.inl hk)
      · exact List.mem_singleton.mp hk ▸ h.made n (.inr (.inl hline))
    · exact h.made k (.inr hk)
  names := by
    show ((s.fileSharingTasks ++ [n]).map s.taskId).Nodup
    rw [List.map_append, List.map_singleton, List.nodup_append]
    refine ⟨h.names, List.nodup_singleton _, fun a ha b hb he => hname ?_⟩
    rw [← List.mem_singleton.mp hb, ← he]
    exact ha
  once := h.once
  moving := by
    intro k hk upload hupload
    rcases List.mem_append.mp hk with hk | hk
    · exact h.moving k hk upload hupload
    · obtain rfl := List.mem_singleton.mp hk
      exact .inl ⟨hline, hfine upload hupload⟩
  gone := by
    intro k hk
    refine ⟨fun hin => ?_, (h.gone k hk).2⟩
    rcases List.mem_append.mp hin with hin | hin
    · exact (h.gone k hk).1 hin
    · exact hended (List.mem_singleton.mp hin ▸ hk)
  endedOnce := h.endedOnce

theorem InLine.uploadFileSharing (h : InLine s) (id : Bytes) : InLine (s.uploadFileSharing id) := by
  have hwait := h.wait { task := { id } }
  unfold Loader.uploadFileSharing addFileSharingTask
  simp only
  split
  · exact hwait
  · rename_i hnone
    have hid : (({ s with uploads := s.uploads ++ [{ task := { id } }] } : Loader).run .openFile
        s.uploads.length).taskId s.uploads.length = some id := by simp [taskId, run]
    refine hwait.keep ?_ ?_ ?_ ?_ ?_
    · rw [line_run]
      simp
    · exact fun hin => lt_irrefl _ (h.made _ (.inl hin))
    · rw [hid]
      intro hin
      obtain ⟨k, hk, he⟩ := List.mem_map.mp hin
      have hne := List.find?_eq_none.mp hnone k hk
      simp only [beq_iff_eq] at hne
      exact hne he
    · exact fun hin => lt_irrefl _ (h.made _ (.inr (.inr hin)))
    · intro upload hupload
      simp only [run, List.getElem?_concat_length, Option.some.injEq] at hupload
      exact hupload ▸ rfl

theorem InLine.resumeTask (h : InLine s) (hn : n ∈ s.fileSharingTasks) :
    InLine (s.resumeTask n) ∧ (s.resumeTask n).fileSharingTasks = s.fileSharingTasks ∧
      n ∈ (s.resumeTask n).line ∧ ∀ k ∈ s.line, k ∈ (s.resumeTask n).line := by
  have hmade := h.made n (.inl hn)
  obtain ⟨upload, hupload⟩ : ∃ upload, s.uploads[n]? = some upload :=
    ⟨_, List.getElem?_eq_getElem hmade⟩
  have hresume : s.resumeTask n = if upload.task.lastError ≠ .success then
      (s.setLastError n .success).run .sendNextRange n else s := by
    simp only [Loader.resumeTask, hupload]
  rw [hresume]
  rcases h.moving n hn upload hupload with ⟨hline, hfine⟩ | ⟨hline, herror⟩
  · rw [if_neg (not_not.mpr hfine)]
    exact ⟨h, rfl, hline, fun _ hk => hk⟩
  · rw [if_pos (by simp [herror])]
    have hmore : ((s.setLastError n .success).run .sendNextRange n).line = s.line ++ [n] :=
      line_run _ _ _
    refine ⟨⟨?_, ?_, hmore ▸ nodup_concat h.once hline, ?_, ?_, h.endedOnce⟩, rfl, ?_, ?_⟩
    · intro k hk
      rw [hmore, List.mem_append, List.mem_singleton] at hk
      have hlt : k < s.uploads.length := by
        rcases hk with hk | (hk | rfl) | hk
        · exact h.made k (.inl hk)
        · exact h.made k (.inr (.inl hk))
        · exact hmade
        · exact h.made k (.inr (.inr hk))
      simpa [run, Loader.setLastError] using hlt
    · show (s.fileSharingTasks.map (s.setLastError n .success).taskId).Nodup
      rw [setLastError_taskId]
      exact h.names
    · intro k hk upload hupload
      have hupload' : (s.setLastError n .success).uploads[k]? = some upload := hupload
      rw [setLastError_getElem] at hupload'
      rw [hmore]
      by_cases he : n = k
      · subst he
        simp only [if_true, Option.map_eq_some_iff] at hupload'
        obtain ⟨old, -, rfl⟩ := hupload'
        exact .inl ⟨by simp, rfl⟩
      · simp only [he, if_false, Option.map_id'] at hupload'
        rw [mem_line_concat (Ne.symm he)]
        exact h.moving k hk upload hupload'
    · intro k hk
      have hne : k ≠ n := fun he => (h.gone k hk).1 (he ▸ hn)
      rw [hmore, mem_line_concat hne]
      exact h.gone k hk
    · rw [hmore]
      simp
    · intro k hk
      rw [hmore]
      exact List.mem_append_left _ hk

theorem InLine.resume (h : InLine s) :
    InLine s.resumeFileSharingTasks ∧
      ∀ n ∈ s.fileSharingTasks, n ∈ s.resumeFileSharingTasks.line := by
  suffices hall : ∀ (l : List Nat) (s : Loader), InLine s → (∀ n ∈ l, n ∈ s.fileSharingTasks) →
      InLine (l.foldl Loader.resumeTask s) ∧ (∀ n ∈ l, n ∈ (l.foldl Loader.resumeTask s).line) ∧
      ∀ n ∈ s.line, n ∈ (l.foldl Loader.resumeTask s).line by
    obtain ⟨hin, hline, -⟩ := hall s.fileSharingTasks s h fun _ hn => hn
    exact ⟨hin, hline⟩
  intro l
  induction l with
  | nil => exact fun s h _ => ⟨h, by simp, fun _ hn => hn⟩
  | cons n l ih =>
    intro s h hl
    obtain ⟨hone, htasks, hn, hmore⟩ := h.resumeTask (hl n (by simp))
    obtain ⟨hall, hline, hkeep⟩ :=
      ih (s.resumeTask n) hone fun k hk => htasks ▸ hl k (List.mem_cons_of_mem _ hk)
    refine ⟨hall, fun k hk => ?_, fun k hk => hkeep k (hmore k hk)⟩
    rcases List.mem_cons.mp hk with rfl | hk
    · exact hkeep k hn
    · exact hline k hk

def markOf (upload : Upload) : Bytes × LoaderErrors := (upload.task.id, upload.task.lastError)

/-- What neither the line nor a name nor an error changes keeps all in line. -/
theorem InLine.congr (h : InLine s) (hline : s'.line = s.line)
    (htasks : s'.fileSharingTasks = s.fileSharingTasks) (hreports : s'.reports = s.reports)
    (hlength : s'.uploads.length = s.uploads.length)
    (hsame : ∀ k : Nat, (s'.uploads[k]?).map markOf = (s.uploads[k]?).map markOf) :
    InLine s' := by
  have hended : s'.ended = s.ended := by simp [ended, hreports]
  have hids : s'.taskId = s.taskId := by
    funext k
    have hk := congrArg (Option.map Prod.fst) (hsame k)
    simpa [taskId, Function.comp_def, markOf] using hk
  refine ⟨?_, ?_, hline ▸ h.once, ?_, ?_, hended ▸ h.endedOnce⟩
  · rw [hline, htasks, hended, hlength]
    exact h.made
  · rw [hids, htasks]
    exact h.names
  · rw [htasks, hline]
    intro k hk upload hupload
    have hk' := hsame k
    rw [hupload, Option.map_some, eq_comm, Option.map_eq_some_iff] at hk'
    obtain ⟨old, hold, he⟩ := hk'
    have herror : old.task.lastError = upload.task.lastError := congrArg Prod.snd he
    exact herror ▸ h.moving k hk old hold
  · rw [htasks, hline, hended]
    exact h.gone

theorem InLine.take (h : InLine s) (hstep : s.take = some s') : InLine s' := by
  unfold Loader.take at hstep
  split at hstep
  · rename_i job jobs hrunning hjobs
    split at hstep <;> cases hstep <;> refine h.congr ?_ rfl rfl rfl fun _ => rfl
    all_goals simp [line, hrunning, hjobs]
  · cases hstep

theorem sendDataToServer_status (task : UploadTask) (data : Bytes) (code : UInt32)
    (answer : SentFile) :
    (task.sendDataToServer data (.status code answer)).1 = .success ∧
      (task.sendDataToServer data (.status code answer)).2.bytesSent = task.bytesSent + data.length ∧
      (task.sendDataToServer data (.status code answer)).2.fileSize = task.fileSize ∧
      (task.sendDataToServer data (.status code answer)).2.id = task.id ∧
      (task.sendDataToServer data (.status code answer)).2.lastError = task.lastError := by
  unfold UploadTask.sendDataToServer
  simp only
  split <;> exact ⟨rfl, rfl, rfl, rfl, rfl⟩

/-- A range is not read, or it is sent in vain, or it is confirmed. -/
theorem execute_sendNextRange (world : UploadWorld) (upload : Upload) :
    (∃ error, upload.task.readDataFromFile world.file = .error error ∧
      UploadJob.execute .sendNextRange world upload = (error, upload)) ∨
    ∃ data stored, upload.task.readDataFromFile world.file = .ok data ∧
      stored = (if world.arrives then writeAt upload.stored upload.task.bytesSent data
        else upload.stored) ∧
      ((∃ error, (error = .networkError ∨ error = .sendRange) ∧
          UploadJob.execute .sendNextRange world upload = (error, { upload with stored })) ∨
        ∃ code answer task, world.sent = .status code answer ∧
          task.bytesSent = upload.task.bytesSent + data.length ∧
          task.fileSize = upload.task.fileSize ∧ task.id = upload.task.id ∧
          task.lastError = upload.task.lastError ∧
          UploadJob.execute .sendNextRange world upload =
            (.success, { task, stored, confirmed := upload.confirmed ++ [data] })) := by
  unfold UploadJob.execute UploadTask.sendNextRange
  cases hread : upload.task.readDataFromFile world.file with
  | error error => exact .inl ⟨error, rfl, rfl⟩
  | ok data =>
    refine .inr ⟨data, _, rfl, rfl, ?_⟩
    cases hsent : world.sent with
    | error code =>
      have hfailed : (if isNetworkError code then .networkError else .sendRange) ≠
          LoaderErrors.success := by
        split <;> simp
      refine .inl ⟨if isNetworkError code then .networkError else .sendRange, ?_, ?_⟩
      · split <;> simp
      · simp [hfailed, UploadTask.chunk, UploadTask.sendDataToServer]
    | status code answer =>
      obtain ⟨hsuccess, hbytes, hsize, hid, herror⟩ :=
        sendDataToServer_status upload.task data code answer
      exact .inr ⟨code, answer, _, rfl, hbytes, hsize, hid, herror,
        by simp [hsuccess, UploadTask.chunk]⟩

theorem execute_mark (stage : UploadStage) (world : UploadWorld) (upload : Upload) :
    markOf (UploadJob.execute stage world upload).2 = markOf upload := by
  cases stage with
  | openFile =>
    simp only [UploadJob.execute, UploadTask.openFile]
    split
    · rfl
    · split <;> rfl
  | getGate =>
    simp only [UploadJob.execute, UploadTask.getGate]
    split <;> (repeat' split) <;> rfl
  | sendNextRange =>
    rcases execute_sendNextRange world upload with ⟨error, -, he⟩ | ⟨data, stored, -, -, hsent⟩
    · rw [he]
    · rcases hsent with ⟨error, -, he⟩ | ⟨code, answer, task, -, -, -, hid, herror, he⟩
      · rw [he]
        rfl
      · simp only [he, markOf, hid, herror]

theorem work_cases {world : UploadWorld} (hstep : s.work world = some s') :
    ∃ job upload, s.running = some job ∧ s.uploads[job.number]? = some upload ∧
      s' = { s with
        uploads := s.uploads.set job.number (UploadJob.execute job.stage world upload).2
        running := none
        results := s.results ++ [(job, (UploadJob.execute job.stage world upload).1)] } := by
  obtain ⟨job, hrunning, hrest⟩ := Option.bind_eq_some_iff.mp hstep
  obtain ⟨upload, hupload, he⟩ := Option.bind_eq_some_iff.mp hrest
  exact ⟨job, upload, hrunning, hupload, (Option.some.inj he).symm⟩

theorem InLine.work {world : UploadWorld} (h : InLine s) (hstep : s.work world = some s') :
    InLine s' := by
  obtain ⟨job, upload, hrunning, hupload, rfl⟩ := work_cases hstep
  refine h.congr (by simp [line, hrunning]) rfl rfl (List.length_set) fun k => ?_
  have hlt := (List.getElem?_eq_some_iff.mp hupload).1
  rw [List.getElem?_set]
  split
  · rename_i he
    subst he
    rw [Option.map_some, execute_mark, hupload, Option.map_some]
  · rfl

theorem InLine.step {action : UploadAction} (h : InLine s) (hstep : s.step action = some s') :
    InLine s' := by
  cases action with
  | upload id => exact Option.some.inj hstep ▸ h.uploadFileSharing id
  | abort id =>
    obtain rfl := Option.some.inj hstep
    rcases removeFileSharingTask_cases s id with hsame | ⟨n, herase⟩
    · exact hsame.symm ▸ h
    · exact herase.symm ▸ h.erase n
  | resume => exact Option.some.inj hstep ▸ h.resume.1
  | take => exact h.take hstep
  | work world => exact h.work hstep
  | deliver => exact h.deliver hstep

/-- A state in which nothing is kept or told that was not, but of one task. -/
structure Frame (s s' : Loader) (told : Nat → Prop) : Prop where
  length : s.uploads.length ≤ s'.uploads.length
  tasks : ∀ n < s.uploads.length, n ∈ s'.fileSharingTasks → n ∈ s.fileSharingTasks
  reports : ∃ more, s'.reports = s.reports ++ more ∧ ∀ r ∈ more, told r.number

theorem Frame.quiet {told : Nat → Prop} (hlength : s'.uploads.length = s.uploads.length)
    (htasks : s'.fileSharingTasks = s.fileSharingTasks) (hreports : s'.reports = s.reports) :
    Frame s s' told :=
  ⟨hlength.ge, fun _ _ hn => htasks ▸ hn, [], by simp [hreports], by simp⟩

theorem onFileSharingTaskResult_frame (s : Loader) (n : Nat) (upload : Upload)
    (result : LoaderErrors) : Frame s (s.onFileSharingTaskResult n upload result) (· = n) := by
  unfold onFileSharingTaskResult
  rcases removeFileSharingTask_cases (s.report n upload (some result)) upload.task.id with
    hsame | ⟨k, herase⟩
  · rw [hsame]
    exact ⟨le_rfl, fun _ _ hk => hk, _, rfl, by simp⟩
  · rw [herase]
    exact ⟨le_rfl, fun _ _ hk => List.mem_of_mem_erase hk, _, rfl, by simp⟩

theorem Frame.trans {s'' : Loader} {told : Nat → Prop} (h : Frame s s' told)
    (h' : Frame s' s'' told) : Frame s s'' told := by
  obtain ⟨more, hmore, htold⟩ := h.reports
  obtain ⟨more', hmore', htold'⟩ := h'.reports
  refine ⟨h.length.trans h'.length, fun n hn hin => ?_, more ++ more', ?_, ?_⟩
  · exact h.tasks n hn (h'.tasks n (hn.trans_le h.length) hin)
  · rw [hmore', hmore, List.append_assoc]
  · intro r hr
    rcases List.mem_append.mp hr with hr | hr
    · exact htold r hr
    · exact htold' r hr

theorem resumeTask_frame (s : Loader) (n : Nat) {told : Nat → Prop} :
    Frame s (s.resumeTask n) told := by
  unfold resumeTask
  split
  · exact .quiet rfl rfl rfl
  · split
    · exact .quiet (by simp [run, Loader.setLastError]) rfl rfl
    · exact .quiet rfl rfl rfl

theorem resume_frame (l : List Nat) (s : Loader) {told : Nat → Prop} :
    Frame s (l.foldl resumeTask s) told := by
  induction l generalizing s with
  | nil => exact .quiet rfl rfl rfl
  | cons n l ih => exact (resumeTask_frame s n).trans (ih _)

theorem uploadFileSharing_frame (s : Loader) (id : Bytes) {told : Nat → Prop} :
    Frame s (s.uploadFileSharing id) told := by
  unfold uploadFileSharing addFileSharingTask
  simp only
  split
  · exact ⟨by simp [run], fun _ _ hk => hk, [], by simp [run], by simp⟩
  · refine ⟨by simp [run], fun k hk hin => ?_, [], by simp [run], by simp⟩
    rcases List.mem_append.mp hin with hin | hin
    · exact hin
    · exact absurd (List.mem_singleton.mp hin) (ne_of_lt hk)

theorem Delivered.frame (h : Delivered s job error results upload s') :
    Frame s s' (· ∈ s.fileSharingTasks) := by
  have htold : ∀ {t t' : Loader}, job.number ∈ s.fileSharingTasks → Frame t t' (· = job.number) →
      Frame t t' (· ∈ s.fileSharingTasks) := by
    intro t t' hn hframe
    obtain ⟨more, hmore, hall⟩ := hframe.reports
    exact ⟨hframe.length, hframe.tasks, more, hmore, fun r hr => hall r hr ▸ hn⟩
  have hset : ∀ error, Frame s (({ s with results } : Loader).setLastError job.number error)
      (· ∈ s.fileSharingTasks) :=
    fun error => .quiet (by simp [Loader.setLastError]) rfl rfl
  have hprogress : job.number ∈ s.fileSharingTasks →
      Frame s (({ s with results } : Loader).report job.number upload none)
        (· ∈ s.fileSharingTasks) :=
    fun hn => ⟨le_rfl, fun _ _ hk => hk, [⟨job.number, none, upload.task.makeInfo⟩], rfl, by simpa⟩
  cases h with
  | dropped => exact .quiet rfl rfl rfl
  | failed hn =>
    have hpop : Frame s { s with results } (· ∈ s.fileSharingTasks) := .quiet rfl rfl rfl
    exact hpop.trans (htold hn (onFileSharingTaskResult_frame _ _ _ _))
  | rangeFailed hn => exact (hset error).trans (htold hn (onFileSharingTaskResult_frame _ _ _ _))
  | paused => exact hset .networkError
  | next hn => exact (hprogress hn).trans (.quiet rfl rfl rfl)
  | finished hn => exact (hprogress hn).trans (htold hn (onFileSharingTaskResult_frame _ _ _ _))

/-- What a handler was told stays, and it is told more of a task only that the loader keeps. -/
theorem InLine.frame {action : UploadAction} (h : InLine s) (hstep : s.step action = some s') :
    Frame s s' (· ∈ s.fileSharingTasks) := by
  cases action with
  | upload id =>
    obtain rfl := Option.some.inj hstep
    exact uploadFileSharing_frame s id
  | abort id =>
    obtain rfl := Option.some.inj hstep
    rcases removeFileSharingTask_cases s id with hsame | ⟨n, herase⟩
    · rw [hsame]
      exact .quiet rfl rfl rfl
    · rw [herase]
      exact ⟨le_rfl, fun _ _ hk => List.mem_of_mem_erase hk, [], by simp, by simp⟩
  | resume => exact Option.some.inj hstep ▸ resume_frame _ _
  | take =>
    simp only [Loader.step, Loader.take] at hstep
    split at hstep
    · split at hstep <;> cases hstep <;> exact .quiet rfl rfl rfl
    · cases hstep
  | work world =>
    obtain ⟨job, upload, -, -, rfl⟩ := work_cases hstep
    exact .quiet List.length_set rfl rfl
  | deliver =>
    obtain ⟨job, error, results, upload, -, -, hcases⟩ := h.deliver_cases hstep
    exact hcases.frame

theorem Frame.silent (h : Frame s s' (· ∈ s.fileSharingTasks)) (hn : n ∉ s.fileSharingTasks) :
    s'.reports.filter (·.number == n) = s.reports.filter (·.number == n) := by
  obtain ⟨more, hmore, hall⟩ := h.reports
  have hnone : more.filter (·.number == n) = [] := by
    rw [List.filter_eq_nil_iff]
    intro r hr he
    exact hn (beq_iff_eq.mp he ▸ hall r hr)
  rw [hmore, List.filter_append, hnone, List.append_nil]

theorem inLine_empty : InLine {} :=
  ⟨by simp [line, ended], by simp, by simp [line], by simp, by simp [ended], by simp [ended]⟩

/-- However starts, stops and resumptions of uploads come between the steps of the thread and the
results: no task waits twice, each one that the loader keeps is in the line or waits to be resumed
after a failure of the network, to resume all puts all in the line, and the handler of a task that
is not kept is told nothing any more. -/
theorem uploads_inLine (h : Run Loader.step (fun _ _ => True) {} s) :
    s.line.Nodup ∧ s.ended.Nodup ∧
      (∀ n ∈ s.fileSharingTasks, ∃ upload, s.uploads[n]? = some upload ∧
        (n ∈ s.line ∧ upload.task.lastError = .success ∨
          n ∉ s.line ∧ upload.task.lastError = .networkError)) ∧
      (∀ n ∈ s.fileSharingTasks, n ∈ s.resumeFileSharingTasks.line) ∧
      ∀ n < s.uploads.length, n ∉ s.fileSharingTasks →
        ∀ s', Run Loader.step (fun _ _ => True) s s' →
          s'.reports.filter (·.number == n) = s.reports.filter (·.number == n) := by
  have hin : InLine s := h.invariant inLine_empty fun hi _ hstep => hi.step hstep
  refine ⟨hin.once, hin.endedOnce, fun n hn => ?_, hin.resume.2, fun n hn hgone s' hrun => ?_⟩
  · obtain ⟨upload, hupload⟩ : ∃ upload, s.uploads[n]? = some upload :=
      ⟨_, List.getElem?_eq_getElem (hin.made n (.inl hn))⟩
    exact ⟨upload, hupload, hin.moving n hn upload hupload⟩
  · have hall := hrun.invariant (P := fun s' => InLine s' ∧ n < s'.uploads.length ∧
      n ∉ s'.fileSharingTasks ∧
      s'.reports.filter (·.number == n) = s.reports.filter (·.number == n)) ⟨hin, hn, hgone, rfl⟩
      fun ⟨hi, hlt, hout, hsame⟩ _ hstep => by
        have hframe := hi.frame hstep
        exact ⟨hi.step hstep, hlt.trans_le hframe.length,
          fun hback => hout (hframe.tasks n hlt hback), (hframe.silent hout).trans hsame⟩
    exact hall.2.2.2

/-- A file of two bytes, of which the first range fails in the network. -/
def pausedUpload : Loader :=
  { uploads := [⟨{ id := [7], fileSize := 2, lastError := .networkError }, [], []⟩]
    fileSharingTasks := [0]
    reports := [⟨0, none, ⟨0, 2, [], []⟩⟩, ⟨0, none, ⟨0, 2, [], []⟩⟩] }

theorem pausedUpload_run : Run Loader.step (fun _ _ => True) {} pausedUpload := by
  let world : UploadWorld := { file := some [1, 2], gateway := .status 200 ⟨[], []⟩ }
  refine .step .deliver (.step (.work world) (.step .take (.step .deliver (.step (.work world)
    (.step .take (.step .deliver (.step (.work world) (.step .take (.step (.upload [7]) .start
      trivial rfl) trivial rfl) trivial rfl) trivial rfl) trivial rfl) trivial rfl) trivial rfl)
        trivial rfl) trivial rfl) trivial rfl

theorem uploads_inLine_paused :
    0 ∉ pausedUpload.line ∧ 0 ∈ pausedUpload.resumeFileSharingTasks.line := by
  have h := uploads_inLine pausedUpload_run
  exact ⟨by decide, h.2.2.2.1 0 (by decide)⟩

end Loader

end Icq.Wim
