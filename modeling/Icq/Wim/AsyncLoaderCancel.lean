import Icq.Wim.AsyncLoader

/-! Whether a cancelled download ends as cancelled. -/

namespace Icq.Wim
open Icq.Lib

namespace AsyncLoader

/-- The handler of the request was called, or the last chunk of its url has come. -/
def EndsRequest (url : Bytes) (handler : Nat) (e : LoaderEvent) : Prop :=
  e = .lastChunk url ∨ ∃ error, e = .callback url handler error

/-- Every seq that requested the url was cancelled after it and before its download was over. -/
def AllCancelled (log : List LoaderEvent) (url : Bytes) : Prop :=
  ∀ seq handler, ClosedIn log (.request url seq handler) (· = .cancel url seq)
    (EndsRequest url handler)

def Ended (s : AsyncLoader) (url : Bytes) : Prop :=
  (∀ task ∈ s.tasks, task.url ≠ url) ∧ s.inProgress.find? url = none

/-- The handlers of the url are called as cancelled and in no other way, and nothing is left of
the cancellation. -/
structure EndsCancelled (s : AsyncLoader) (url : Bytes) : Prop where
  cancelled : ∀ handler error, .callback url handler error ∈ s.log → error = .cancelled
  called : s.Ended url → ∀ seq handler, .request url seq handler ∈ s.log →
    .callback url handler .cancelled ∈ s.log
  forgotten : s.Ended url → s.cancelledTasks.find? url = none

/-- The response itself ends the download: with the last bytes, too many, or a client error. -/
def IsLast (c : DownloadableFileChunks) (r : Response) : Prop :=
  if r.success && (r.code == 206 || r.code == 200 || r.code == 201) then
    c.totalSize ≤ c.downloaded + r.body.length
  else 400 ≤ r.code ∧ r.code < 500

/-- A cancellation finds some download in progress and its own request not before it, and no
request that ends the download comes back after all of its seqs are cancelled. -/
def Reaches (s : AsyncLoader) : LoaderAction → Prop
  | .cancelFileSharing url (some seq) =>
    s.inProgress.items ≠ [] ∧ ∀ task ∈ s.tasks, ¬ (task.url = url ∧ task.seq = seq)
  | .completion url r =>
    ∀ d ∈ s.inProgress.find? url, d.chunks.activeSeqs = [] → ¬ IsLast d.chunks r
  | _ => True

/-- The request is not cancelled yet. -/
def Open (log : List LoaderEvent) (url : Bytes) (seq : Int64) (handler : Nat) : Prop :=
  OpenIn log (.request url seq handler) (· = .cancel url seq)

/-- A request of the url was over before it was cancelled. -/
def Spoiled (log : List LoaderEvent) (url : Bytes) : Prop :=
  ∃ seq handler, EndedIn log (.request url seq handler) (· = .cancel url seq)
    (EndsRequest url handler)

variable {s : AsyncLoader} {log more : List LoaderEvent} {url : Bytes} {seq : Int64}
  {handler : Nat} {error : LoaderError}

section Log

theorem Spoiled.append (h : Spoiled log url) (more : List LoaderEvent) :
    Spoiled (log ++ more) url := by
  obtain ⟨seq, handler, hended⟩ := h
  exact ⟨seq, handler, hended.append more⟩

theorem Open.spoiled (h : Open log url seq handler) (hmore : .cancel url seq ∉ more)
    {e : LoaderEvent} (he : e ∈ more) (hends : EndsRequest url handler e) :
    Spoiled (log ++ more) url :=
  ⟨seq, handler, OpenIn.ended h (fun _ hmem heq => hmore (heq ▸ hmem)) he hends⟩

theorem Open.append (h : Open log url seq handler) (hmore : .cancel url seq ∉ more) :
    Open (log ++ more) url seq handler :=
  OpenIn.append h fun _ hmem heq => hmore (heq ▸ hmem)

theorem AllCancelled.not_spoiled (h : AllCancelled log url) : ¬ Spoiled log url := by
  intro ⟨seq, handler, hended⟩
  apply (h seq handler).not_endedIn _ hended
  intro e hcancel hends
  subst hcancel
  rcases hends with hlast | ⟨error, hcallback⟩
  · cases hlast
  · cases hcallback

end Log

/-- The handler waits at a task or a download, or it was called. -/
def Held (s : AsyncLoader) (url : Bytes) (handler : Nat) : Prop :=
  (∃ task ∈ s.tasks, task.url = url ∧ task.handler = handler) ∨
    (∃ d ∈ s.inProgress.items, d.url = url ∧ handler ∈ d.handlers) ∨
    ∃ error, .callback url handler error ∈ s.log

/-- Tasks are not cancelled, nor are the active seqs of a download, and what was called in
another way than as cancelled was called before its url was. -/
structure Sound (s : AsyncLoader) : Prop where
  tasks : ∀ task ∈ s.tasks, Open s.log task.url task.seq task.handler
  active : ∀ d ∈ s.inProgress.items, ∀ seq ∈ d.chunks.activeSeqs,
    ∃ handler ∈ d.handlers, Open s.log d.url seq handler
  saving : ∀ d ∈ s.inProgress.items, d.phase = .saving → Spoiled s.log d.url
  callbacks : ∀ url handler error, .callback url handler error ∈ s.log → error ≠ .cancelled →
    Spoiled s.log url
  forgotten : s.cancelledTasks.items = []

structure Tracked (s : AsyncLoader) : Prop extends Sound s where
  held : ∀ url seq handler, .request url seq handler ∈ s.log → s.Held url handler

/-- All handlers but the one of a task that is being handled. -/
def HeldBut (s : AsyncLoader) (task : FileTask) : Prop :=
  ∀ url seq handler, .request url seq handler ∈ s.log →
    (url = task.url ∧ handler = task.handler) ∨ s.Held url handler

section Parts

variable {task : FileTask} {d d' : Download}

theorem Sound.append (h : Sound s) (hcancel : ∀ url seq, .cancel url seq ∉ more)
    (hcallbacks : ∀ url handler error, .callback url handler error ∈ more → error ≠ .cancelled →
      Spoiled (s.log ++ more) url) : Sound { s with log := s.log ++ more } where
  tasks := fun task htask => (h.tasks task htask).append (hcancel _ _)
  active := by
    intro d hd seq hseq
    obtain ⟨handler, hhandler, hopen⟩ := h.active d hd seq hseq
    exact ⟨handler, hhandler, hopen.append (hcancel _ _)⟩
  saving := fun d hd hsaving => (h.saving d hd hsaving).append more
  callbacks := by
    intro url handler error hmem herror
    rcases List.mem_append.mp hmem with hmem | hmem
    · exact (h.callbacks url handler error hmem herror).append more
    · exact hcallbacks url handler error hmem herror
  forgotten := h.forgotten

theorem Sound.sub (h : Sound s) {tasks : List FileTask} {inProgress : KeyMap Download.url}
    (htasks : ∀ task ∈ tasks, task ∈ s.tasks)
    (hdownloads : ∀ d ∈ inProgress.items, d ∈ s.inProgress.items) :
    Sound { s with tasks, inProgress } where
  tasks := fun task htask => h.tasks task (htasks task htask)
  active := fun d hd => h.active d (hdownloads d hd)
  saving := fun d hd => h.saving d (hdownloads d hd)
  callbacks := h.callbacks
  forgotten := h.forgotten

theorem Sound.put (h : Sound s)
    (hactive : ∀ seq ∈ d.chunks.activeSeqs, ∃ handler ∈ d.handlers, Open s.log d.url seq handler)
    (hsaving : d.phase = .saving → Spoiled s.log d.url) :
    Sound (s.putDownload d) where
  tasks := h.tasks
  active := by
    intro x hx
    rcases KeyMap.mem_put.mp hx with rfl | ⟨hx, -⟩
    · exact hactive
    · exact h.active x hx
  saving := by
    intro x hx
    rcases KeyMap.mem_put.mp hx with rfl | ⟨hx, -⟩
    · exact hsaving
    · exact h.saving x hx
  callbacks := h.callbacks
  forgotten := h.forgotten

/-- The download takes the place of the one of its url. -/
theorem Held.put (h : s.Held url handler)
    (hhandlers : ∀ x ∈ s.inProgress.items, x.url = d.url → ∀ handler ∈ x.handlers,
      handler ∈ d.handlers) :
    Held (s.putDownload d) url handler := by
  rcases h with htask | ⟨x, hx, hurl, hhandler⟩ | hcalled
  · exact Or.inl htask
  · right
    left
    by_cases heq : x.url = d.url
    · exact ⟨d, KeyMap.mem_put.mpr (Or.inl rfl), heq.symm.trans hurl, hhandlers x hx heq _ hhandler⟩
    · exact ⟨x, KeyMap.mem_put.mpr (Or.inr ⟨hx, heq⟩), hurl, hhandler⟩
  · exact Or.inr (Or.inr hcalled)

theorem Held.append (h : s.Held url handler) (more : List LoaderEvent) :
    Held { s with log := s.log ++ more } url handler := by
  rcases h with htask | hdownload | ⟨error, hcalled⟩
  · exact Or.inl htask
  · exact Or.inr (Or.inl hdownload)
  · exact Or.inr (Or.inr ⟨error, List.mem_append_left _ hcalled⟩)

theorem HeldBut.append (h : s.HeldBut task) (hmore : ∀ url seq handler, .request url seq handler ∉ more) :
    HeldBut { s with log := s.log ++ more } task := by
  intro url seq handler hmem
  rcases List.mem_append.mp hmem with hmem | hmem
  · exact (h url seq handler hmem).imp_right (·.append more)
  · exact absurd hmem (hmore url seq handler)

theorem Tracked.dropTask (h : Tracked s) (task : FileTask) :
    Sound (s.dropTask task) ∧ HeldBut (s.dropTask task) task := by
  refine ⟨h.toSound.sub (fun x hx => List.mem_of_mem_erase hx) (fun _ hd => hd), ?_⟩
  intro url seq handler hmem
  rcases h.held url seq handler hmem with ⟨x, hx, hurl, hhandler⟩ | hdownload | hcalled
  · by_cases heq : x = task
    · exact Or.inl ⟨heq ▸ hurl.symm, heq ▸ hhandler.symm⟩
    · exact Or.inr (Or.inl ⟨x, (List.mem_erase_of_ne heq).mpr hx, hurl, hhandler⟩)
  · exact Or.inr (Or.inr (Or.inl hdownload))
  · exact Or.inr (Or.inr (Or.inr hcalled))

theorem Sound.addTask (h : Sound s) (hbut : s.HeldBut task) (stage : TaskStage)
    (hopen : Open s.log task.url task.seq task.handler) :
    Tracked { s with tasks := s.tasks ++ [{ task with stage }] } where
  tasks := by
    intro x hx
    rcases List.mem_append.mp hx with hx | hx
    · exact h.tasks x hx
    · rw [List.mem_singleton.mp hx]
      exact hopen
  active := h.active
  saving := h.saving
  callbacks := h.callbacks
  forgotten := h.forgotten
  held := by
    intro url seq handler hmem
    rcases hbut url seq handler hmem with ⟨hurl, hhandler⟩ | ⟨x, hx, hurl, hhandler⟩ | hrest
    · exact Or.inl ⟨_, List.mem_append_right _ (List.mem_singleton.mpr rfl), hurl.symm,
        hhandler.symm⟩
    · exact Or.inl ⟨x, List.mem_append_left _ hx, hurl, hhandler⟩
    · exact Or.inr hrest

/-- The task joins a download of its url, or one that begins. -/
theorem Sound.join (h : Sound s) (hbut : s.HeldBut task)
    (hopen : Open s.log task.url task.seq task.handler) (hurl : d.url = task.url)
    (hd : d ∈ s.inProgress.items ∨ s.inProgress.find? task.url = none ∧
      d.chunks.activeSeqs = [] ∧ d.phase ≠ .saving) :
    Tracked (s.putDownload (d.updateFileChunks task.priority task.handler task.seq)) := by
  have hsound : Sound (s.putDownload (d.updateFileChunks task.priority task.handler task.seq)) := by
    apply h.put
    · intro seq hseq
      rcases List.mem_append.mp hseq with hseq | hseq
      · rcases hd with hd | ⟨-, hnone, -⟩
        · obtain ⟨handler, hhandler, hopen⟩ := h.active d hd seq hseq
          exact ⟨handler, List.mem_append_left _ hhandler, hopen⟩
        · rw [hnone] at hseq
          cases hseq
      · rw [List.mem_singleton.mp hseq]
        exact ⟨task.handler, List.mem_append_right _ (List.mem_singleton.mpr rfl), hurl ▸ hopen⟩
    · intro hsaving
      rcases hd with hd | ⟨-, -, hnot⟩
      · exact h.saving d hd hsaving
      · exact absurd hsaving hnot
  refine ⟨hsound, ?_⟩
  intro url seq handler hmem
  rcases hbut url seq handler hmem with ⟨hu, hh⟩ | hheld
  · exact Or.inr (Or.inl ⟨_, KeyMap.mem_put.mpr (Or.inl rfl), hurl.trans hu.symm,
      List.mem_append_right _ (List.mem_singleton.mpr hh)⟩)
  · apply hheld.put
    intro x hx hxurl handler hhandler
    rcases hd with hd | ⟨hnone, -, -⟩
    · rw [KeyMap.eq_of_key hx hd hxurl] at hhandler
      exact List.mem_append_left _ hhandler
    · exact absurd (hxurl.trans hurl) (KeyMap.find_none.mp hnone x hx)

theorem Sound.enter (h : Sound s) (hbut : s.HeldBut task)
    (hopen : Open s.log task.url task.seq task.handler) : Tracked (s.enter task) := by
  rw [AsyncLoader.enter.eq_def]
  cases hfind : s.inProgress.find? task.url with
  | some d =>
    obtain ⟨hd, hurl⟩ := KeyMap.find_mem hfind
    exact h.join hbut hopen hurl (Or.inl hd)
  | none => exact h.addTask hbut .looking hopen

theorem Tracked.moveTask (h : Tracked s) (htask : task ∈ s.tasks) (stage : TaskStage) :
    Tracked (s.moveTask task stage) := by
  obtain ⟨hsound, hbut⟩ := h.dropTask task
  exact hsound.addTask hbut stage (h.tasks task htask)

theorem Tracked.endTask (h : Tracked s) (htask : task ∈ s.tasks) (error : LoaderError) :
    Tracked (s.endTask task error) := by
  obtain ⟨hsound, hbut⟩ := h.dropTask task
  refine ⟨hsound.append ?_ ?_, ?_⟩
  · simp
  · intro url handler error' hmem _
    rw [List.mem_singleton, LoaderEvent.callback.injEq] at hmem
    obtain ⟨rfl, rfl, rfl⟩ := hmem
    exact (h.tasks task htask).spoiled (by simp) (List.mem_singleton.mpr rfl) (Or.inr ⟨_, rfl⟩)
  · intro url seq handler hmem
    have hheld := @hbut.append _ [.callback task.url task.handler error] _ (by simp)
    rcases hheld url seq handler hmem with ⟨rfl, rfl⟩ | hheld
    · exact Or.inr (Or.inr ⟨error, List.mem_append_right _ (List.mem_singleton.mpr rfl)⟩)
    · exact hheld

/-- The callbacks of a download: as cancelled, or while something of it is not cancelled. -/
theorem Tracked.fireChunksCallback (h : Tracked s) (hd : d ∈ s.inProgress.items)
    (herror : error ≠ .cancelled → d.chunks.activeSeqs ≠ [] ∨ Spoiled s.log d.url) :
    Tracked (s.fireChunksCallback d error) := by
  have hsub : ∀ x ∈ (s.inProgress.erase d.url).items, x ∈ s.inProgress.items :=
    fun x hx => (List.mem_filter.mp hx).1
  have hsound : Sound { s with inProgress := s.inProgress.erase d.url } :=
    h.toSound.sub (fun _ hx => hx) hsub
  refine ⟨hsound.append ?_ ?_, ?_⟩
  · simp
  · intro url handler error' hmem hne
    obtain ⟨x, hx, heq⟩ := List.mem_map.mp hmem
    obtain ⟨rfl, rfl, rfl⟩ := LoaderEvent.callback.injEq .. ▸ heq
    rcases herror hne with hactive | hspoiled
    · obtain ⟨seq, rest, hseq⟩ := List.exists_cons_of_ne_nil hactive
      obtain ⟨first, hfirst, hopen⟩ := h.active d hd seq (by rw [hseq]; exact List.mem_cons_self)
      exact hopen.spoiled (by simp) (List.mem_map.mpr ⟨first, hfirst, rfl⟩) (Or.inr ⟨_, rfl⟩)
    · exact hspoiled.append _
  · intro url seq handler hmem
    have hrequest : .request url seq handler ∈ s.log := by
      rcases List.mem_append.mp hmem with hmem | hmem
      · exact hmem
      · obtain ⟨x, -, heq⟩ := List.mem_map.mp hmem
        cases heq
    rcases h.held url seq handler hrequest with htask | ⟨x, hx, hurl, hhandler⟩ | ⟨e, hcalled⟩
    · exact Or.inl htask
    · by_cases heq : x.url = d.url
      · rw [KeyMap.eq_of_key hx hd heq] at hhandler
        rw [← hurl, heq]
        exact Or.inr (Or.inr ⟨error, List.mem_append_right _ (List.mem_map.mpr ⟨_, hhandler, rfl⟩)⟩)
      · exact Or.inr (Or.inl ⟨x, List.mem_filter.mpr ⟨hx, by simpa using heq⟩, hurl, hhandler⟩)
    · exact Or.inr (Or.inr ⟨e, List.mem_append_left _ hcalled⟩)

/-- A download changes, but for its handlers, and no seq of it becomes active. -/
theorem Tracked.putDownload (h : Tracked s) (hd : d ∈ s.inProgress.items)
    (hurl : d'.url = d.url) (hhandlers : d'.handlers = d.handlers)
    (hactive : ∀ seq ∈ d'.chunks.activeSeqs, seq ∈ d.chunks.activeSeqs)
    (hsaving : d'.phase = .saving → Spoiled s.log d.url) :
    Tracked (s.putDownload d') := by
  refine ⟨h.toSound.put ?_ (hurl ▸ hsaving), ?_⟩
  · intro seq hseq
    rw [hurl, hhandlers]
    exact h.active d hd seq (hactive seq hseq)
  · intro url seq handler hmem
    apply (h.held url seq handler hmem).put
    intro x hx hxurl handler hhandler
    rw [KeyMap.eq_of_key hx hd (hxurl.trans hurl)] at hhandler
    exact hhandlers ▸ hhandler

end Parts

section Step

variable {task : FileTask} {d : Download}

theorem downloadFileSharing_activeSeqs (priority : Int32) (totalSize : Nat)
    (activeSeqs : List Int64) (tmpFile : Bytes) :
    (DownloadableFileChunks.downloadFileSharing priority totalSize activeSeqs tmpFile).activeSeqs =
      activeSeqs := by
  rw [DownloadableFileChunks.downloadFileSharing]
  simp only
  split
  · rfl
  · split <;> rfl

theorem onCompletion_activeSeqs (c : DownloadableFileChunks) (r : Response) :
    (c.onCompletion r).activeSeqs = c.activeSeqs := by
  rw [DownloadableFileChunks.onCompletion, DownloadableFileChunks.onChunk]
  simp only
  split
  · split
    · rfl
    · split <;> rfl
  · split
    · rfl
    · split <;> rfl

theorem isLast_of_status {c : DownloadableFileChunks} {r : Response} (hc : c.status = .downloading)
    (hdownloading : (c.onCompletion r).status ≠ .downloading)
    (hcancelled : (c.onCompletion r).status ≠ .cancelled) : IsLast c r := by
  rw [DownloadableFileChunks.onCompletion, DownloadableFileChunks.onChunk] at hdownloading hcancelled
  rw [IsLast]
  split at hdownloading
  · rename_i hok
    rw [if_pos hok]
    split at hdownloading
    · rename_i heq
      exact heq.le
    · split at hdownloading
      · rename_i hlt
        exact hlt.le
      · exact absurd hc hdownloading
  · rename_i hok
    rw [if_neg hok] at hcancelled ⊢
    split at hdownloading
    · rename_i hcode
      simpa using hcode
    · rename_i hcode
      rw [if_neg hcode] at hcancelled
      split at hdownloading
      · rename_i hempty
        rw [if_pos hempty] at hcancelled
        exact absurd rfl hcancelled
      · exact absurd hc hdownloading

theorem Tracked.downloadFileSharing (h : Tracked s) (url : Bytes) (seq : Int64)
    (priority : Int32) : Tracked (s.downloadFileSharing url seq priority) := by
  have hsound : Sound { s with log := s.log ++ [.request url seq s.log.length] } := by
    apply h.toSound.append
    · simp
    · intro _ _ _ hmem
      simp at hmem
  apply hsound.enter
  · intro url' seq' handler' hmem
    rcases List.mem_append.mp hmem with hmem | hmem
    · exact Or.inr ((h.held _ _ _ hmem).append _)
    · rw [List.mem_singleton, LoaderEvent.request.injEq] at hmem
      exact Or.inl ⟨hmem.1, hmem.2.2⟩
  · exact openIn_last

theorem Open.not_cancelled {log : List LoaderEvent} {url url' : Bytes} {seq seq' : Int64}
    {handler : Nat} (h : Open log url' seq' handler) (hother : url' = url → seq' ≠ seq) :
    Open (log ++ [.cancel url seq]) url' seq' handler := by
  apply h.append
  intro hmem
  rw [List.mem_singleton, LoaderEvent.cancel.injEq] at hmem
  exact hother hmem.1 hmem.2

/-- A cancelled request leaves the others where they are. -/
theorem Tracked.cancelled (h : Tracked s)
    (htasks : ∀ x ∈ s.tasks, ¬(x.url = url ∧ x.seq = seq)) {inProgress : KeyMap Download.url}
    (hactive : ∀ x ∈ inProgress.items, ∀ seq' ∈ x.chunks.activeSeqs,
      ∃ handler ∈ x.handlers, Open (s.log ++ [.cancel url seq]) x.url seq' handler)
    (hphase : ∀ x ∈ inProgress.items, ∃ y ∈ s.inProgress.items, x.url = y.url ∧ x.phase = y.phase)
    (hheld : ∀ x ∈ s.inProgress.items, ∃ y ∈ inProgress.items,
      y.url = x.url ∧ y.handlers = x.handlers) :
    Tracked { s with log := s.log ++ [.cancel url seq], inProgress } where
  tasks x hx := (h.tasks x hx).not_cancelled fun hu hs => htasks x hx ⟨hu, hs⟩
  active := hactive
  saving := by
    intro x hx hsaving
    obtain ⟨y, hy, hurl, hph⟩ := hphase x hx
    rw [hurl]
    exact (h.saving y hy (hph ▸ hsaving)).append _
  callbacks := by
    intro url' handler' error hmem herror
    rcases List.mem_append.mp hmem with hmem | hmem
    · exact (h.callbacks url' handler' error hmem herror).append _
    · simp at hmem
  forgotten := h.forgotten
  held := by
    intro url' seq' handler' hmem
    rcases List.mem_append.mp hmem with hmem | hmem
    · rcases h.held _ _ _ hmem with htask | ⟨x, hx, hurl, hhandler⟩ | ⟨e, hcalled⟩
      · exact Or.inl htask
      · obtain ⟨y, hy, hyurl, hyh⟩ := hheld x hx
        exact Or.inr (Or.inl ⟨y, hy, hyurl.trans hurl, hyh ▸ hhandler⟩)
      · exact Or.inr (Or.inr ⟨e, List.mem_append_left _ hcalled⟩)
    · simp at hmem

theorem Tracked.cancelFileSharing (h : Tracked s)
    (hreaches : s.Reaches (.cancelFileSharing url (some seq))) :
    Tracked (s.cancelFileSharing url seq) := by
  obtain ⟨hne, htasks⟩ := hreaches
  have hnot : s.inProgress.items.isEmpty = false := List.isEmpty_eq_false_iff.mpr hne
  have hactive : ∀ x ∈ s.inProgress.items, ∀ seq' ∈ x.chunks.activeSeqs, (x.url = url → seq' ≠ seq) →
      ∃ handler ∈ x.handlers, Open (s.log ++ [.cancel url seq]) x.url seq' handler := by
    intro x hx seq' hseq hother
    obtain ⟨handler, hhandler, ho⟩ := h.active x hx seq' hseq
    exact ⟨handler, hhandler, ho.not_cancelled hother⟩
  rw [AsyncLoader.cancelFileSharing]
  simp only [hnot, Bool.false_eq_true, if_false]
  cases hfind : s.inProgress.find? url with
  | some d =>
    obtain ⟨hd, hurl⟩ := KeyMap.find_mem hfind
    refine h.cancelled htasks ?_ ?_ ?_
    · intro x hx seq' hseq
      rcases KeyMap.mem_put.mp hx with rfl | ⟨hx, hkey⟩
      · obtain ⟨hold, hother⟩ := List.mem_filter.mp hseq
        exact hactive d hd seq' hold fun _ => by simpa using hother
      · exact hactive x hx seq' hseq fun heq => absurd (heq.trans hurl.symm) hkey
    · intro x hx
      rcases KeyMap.mem_put.mp hx with rfl | ⟨hx, -⟩
      · exact ⟨d, hd, rfl, rfl⟩
      · exact ⟨x, hx, rfl, rfl⟩
    · intro x hx
      by_cases hkey : x.url = d.url
      · rw [KeyMap.eq_of_key hx hd hkey]
        exact ⟨d.eraseSeq seq, KeyMap.mem_put.mpr (Or.inl rfl), rfl, rfl⟩
      · exact ⟨x, KeyMap.mem_put.mpr (Or.inr ⟨hx, hkey⟩), rfl, rfl⟩
  | none =>
    refine h.cancelled htasks ?_ ?_ ?_
    · intro x hx seq' hseq
      exact hactive x hx seq' hseq fun heq => absurd heq (KeyMap.find_none.mp hfind x hx)
    · exact fun x hx => ⟨x, hx, rfl, rfl⟩
    · exact fun x hx => ⟨x, hx, rfl, rfl⟩

theorem Tracked.onMetainfo (h : Tracked s) (htask : task ∈ s.tasks) (result : Metainfo) :
    Tracked (s.onMetainfo task result) := by
  cases result with
  | comeBackLater => exact h.endTask htask _
  | networkError => exact h.moveTask htask _
  | failed => exact h.endTask htask _
  | localCopy => exact h.moveTask htask _
  | sameFile => exact h.endTask htask _
  | file totalSize tmpFile => exact h.moveTask htask _

theorem Tracked.register (h : Tracked s) (htask : task ∈ s.tasks) (totalSize : Nat)
    (tmpFile : Bytes) (moved : Bool) : Tracked (s.register task totalSize tmpFile moved) := by
  rw [AsyncLoader.register]
  simp only
  split
  · exact h.endTask htask _
  · obtain ⟨hsound, hbut⟩ := h.dropTask task
    have hopen := h.tasks task htask
    cases hfind : s.inProgress.find? task.url with
    | some d =>
      obtain ⟨hd, hurl⟩ := KeyMap.find_mem hfind
      exact hsound.join hbut hopen hurl (Or.inl hd)
    | none =>
      apply hsound.join hbut hopen
      · rfl
      · exact Or.inr ⟨hfind, downloadFileSharing_activeSeqs .., fun hsaving => by cases hsaving⟩

theorem Tracked.impl (h : Tracked s) (hd : d ∈ s.inProgress.items) (opened : Bool) :
    Tracked (s.impl d opened) := by
  rw [AsyncLoader.impl]
  split
  · exact h.fireChunksCallback hd fun herror => absurd rfl herror
  · rename_i hactive
    split
    · exact h.putDownload hd rfl rfl (fun _ hseq => hseq) fun hsaving => by cases hsaving
    · apply h.fireChunksCallback hd
      intro _
      left
      rwa [List.isEmpty_iff] at hactive

theorem Tracked.onCompletion (h : Tracked s) (hd : d ∈ s.inProgress.items) (r : Response)
    (hreaches : d.chunks.activeSeqs = [] → ¬ IsLast d.chunks r) :
    Tracked (s.onCompletion d r) := by
  have hsame := onCompletion_activeSeqs
    { d.chunks with tmpFile := d.chunks.tmpFile ++ r.body, status := .downloading } r
  have hlast := @isLast_of_status
    { d.chunks with tmpFile := d.chunks.tmpFile ++ r.body, status := .downloading } r rfl
  rw [AsyncLoader.onCompletion]
  generalize DownloadableFileChunks.onCompletion
    { d.chunks with tmpFile := d.chunks.tmpFile ++ r.body, status := .downloading } r = chunks at *
  have hactive : chunks.status ≠ .downloading → chunks.status ≠ .cancelled →
      d.chunks.activeSeqs ≠ [] := fun hdownloading hcancelled hnone =>
    hreaches hnone (hlast hdownloading hcancelled)
  have hseqs : ∀ seq ∈ chunks.activeSeqs, seq ∈ d.chunks.activeSeqs := by
    rw [hsame]
    exact fun _ hseq => hseq
  cases hstatus : chunks.status with
  | downloading => exact h.putDownload hd rfl rfl hseqs fun hsaving => by cases hsaving
  | success =>
    have hsome := hactive (by rw [hstatus]; simp) (by rw [hstatus]; simp)
    obtain ⟨seq, rest, hseq⟩ := List.exists_cons_of_ne_nil hsome
    obtain ⟨handler, -, hopen⟩ := h.active d hd seq (by rw [hseq]; exact List.mem_cons_self)
    have hspoiled : Spoiled (s.log ++ [.lastChunk d.url]) d.url :=
      hopen.spoiled (by simp) (List.mem_singleton.mpr rfl) (Or.inl rfl)
    have hlogged : Tracked { s with log := s.log ++ [.lastChunk d.url] } := by
      refine ⟨h.toSound.append ?_ ?_, ?_⟩
      · simp
      · intro _ _ _ hmem
        simp at hmem
      · intro url seq handler hmem
        rcases List.mem_append.mp hmem with hmem | hmem
        · exact (h.held url seq handler hmem).append _
        · simp at hmem
    exact hlogged.putDownload hd rfl rfl hseqs fun _ => hspoiled
  | cancelled => exact h.fireChunksCallback hd fun herror => absurd rfl herror
  | httpClientError =>
    exact h.fireChunksCallback hd fun _ => Or.inl (hactive (by rw [hstatus]; simp)
      (by rw [hstatus]; simp))
  | internalLogicError =>
    exact h.fireChunksCallback hd fun _ => Or.inl (hactive (by rw [hstatus]; simp)
      (by rw [hstatus]; simp))

theorem taskAt_mem {stage : TaskStage} {task' : FileTask} (h : s.taskAt task stage = some task') :
    task' ∈ s.tasks := by
  rw [taskAt] at h
  split at h
  · rename_i htask
    exact Option.some.inj h ▸ htask.1
  · cases h

theorem downloadAt_find {phase : DownloadPhase} (h : s.downloadAt url phase = some d) :
    s.inProgress.find? url = some d ∧ d.phase = phase := by
  obtain ⟨hfind, hphase⟩ := Option.filter_eq_some_iff.mp h
  exact ⟨hfind, by simpa using hphase⟩

theorem remove_of_empty {tasks : CancelledTasks} (h : tasks.items = []) (key : Bytes)
    (seq : Int64) : (tasks.remove key seq).items = [] := by
  have hfind : tasks.find? key = none := by
    rw [KeyMap.find?, h]
    rfl
  rw [CancelledTasks.remove, hfind]
  exact h

theorem Tracked.step {isFileSharing : Bytes → Bool} {s' : AsyncLoader} {action : LoaderAction}
    (h : Tracked s) (hreaches : s.Reaches action)
    (hstep : AsyncLoader.step isFileSharing s action = some s') : Tracked s' := by
  cases action with
  | downloadFileSharing url seq priority =>
    cases hstep
    exact h.downloadFileSharing url seq priority
  | cancelFileSharing url seq =>
    cases seq with
    | none =>
      cases hstep
      exact h
    | some seq =>
      cases hstep
      exact h.cancelFileSharing hreaches
  | looked task =>
    obtain ⟨task', htask, rfl⟩ := Option.map_eq_some_iff.mp hstep
    exact h.moveTask (taskAt_mem htask) _
  | metainfoReceived task =>
    obtain ⟨task', htask, rfl⟩ := Option.map_eq_some_iff.mp hstep
    exact { h with forgotten := remove_of_empty h.forgotten _ _ }
  | metainfo task result =>
    obtain ⟨task', htask, rfl⟩ := Option.map_eq_some_iff.mp hstep
    exact h.onMetainfo (taskAt_mem htask) result
  | copied task =>
    obtain ⟨task', htask, rfl⟩ := Option.map_eq_some_iff.mp hstep
    exact h.endTask (taskAt_mem htask) _
  | register task moved =>
    rw [AsyncLoader.step] at hstep
    split at hstep
    · obtain ⟨task', htask, rfl⟩ := Option.map_eq_some_iff.mp hstep
      exact h.register (taskAt_mem htask) _ _ moved
    · cases hstep
  | resume task =>
    obtain ⟨task', htask, rfl⟩ := Option.map_eq_some_iff.mp hstep
    obtain ⟨hsound, hbut⟩ := h.dropTask task'
    exact hsound.enter hbut (h.tasks task' (taskAt_mem htask))
  | impl url opened =>
    obtain ⟨d, hd, rfl⟩ := Option.map_eq_some_iff.mp hstep
    exact h.impl (KeyMap.find_mem (downloadAt_find hd).1).1 opened
  | completion url r =>
    obtain ⟨d, hd, rfl⟩ := Option.map_eq_some_iff.mp hstep
    have hfind := (downloadAt_find hd).1
    exact h.onCompletion (KeyMap.find_mem hfind).1 r (hreaches d hfind)
  | save url moved =>
    obtain ⟨d, hd, rfl⟩ := Option.map_eq_some_iff.mp hstep
    obtain ⟨hfind, hphase⟩ := downloadAt_find hd
    have hmem := (KeyMap.find_mem hfind).1
    exact h.fireChunksCallback hmem fun _ => Or.inr (h.saving d hmem hphase)

end Step

theorem tracked_start : Tracked {} where
  tasks := fun _ h => by cases h
  active := fun _ h => by cases h
  saving := fun _ h => by cases h
  callbacks := fun _ _ _ h => by cases h
  forgotten := rfl
  held := fun _ _ _ h => by cases h

/-- In a run whose cancellations all reach their downloads, what is cancelled ends so. -/
theorem cancelled_ends (isFileSharing : Bytes → Bool) (s : AsyncLoader) (url : Bytes)
    (hrun : Run (AsyncLoader.step isFileSharing) Reaches {} s) (hall : AllCancelled s.log url) :
    s.EndsCancelled url := by
  have h : Tracked s := hrun.invariant tracked_start fun ih hreaches hstep => ih.step hreaches hstep
  have hcancelled : ∀ handler error, .callback url handler error ∈ s.log → error = .cancelled := by
    intro handler error hmem
    by_contra herror
    exact hall.not_spoiled (h.callbacks url handler error hmem herror)
  refine ⟨hcancelled, ?_, ?_⟩
  · intro hended seq handler hmem
    rcases h.held url seq handler hmem with ⟨task, htask, hurl, -⟩ | ⟨d, hd, hurl, -⟩ | ⟨error, hcalled⟩
    · exact absurd hurl (hended.1 task htask)
    · exact absurd hurl (KeyMap.find_none.mp hended.2 d hd)
    · rwa [hcancelled handler error hcalled] at hcalled
  · intro _
    rw [KeyMap.find?, h.forgotten]
    rfl

section Single

def sharedUrl : Bytes := ascii "files.icq.net/get/0a".toList

def sharedTask (stage : TaskStage) : FileTask :=
  { url := sharedUrl, seq := 7, handler := 0, priority := 100, stage }

theorem allCancelled_single {log : List LoaderEvent} {seq : Int64} {handler : Nat}
    (hlog : ∀ seq handler, .request url seq handler ∉ log) :
    AllCancelled (.request url seq handler :: .cancel url seq :: log) url := by
  intro seq' handler'
  by_cases hsame : seq' = seq ∧ handler' = handler
  · obtain ⟨rfl, rfl⟩ := hsame
    apply @closedIn_cons _ _ _ _ [] log
    · rfl
    · exact fun _ h => (by cases h)
    · rw [List.nil_append, List.mem_cons, not_or]
      exact ⟨fun heq => (by cases heq), hlog _ _⟩
  · apply closedIn_of_notMem
    rw [List.mem_cons, List.mem_cons, not_or, not_or]
    refine ⟨?_, fun heq => (by cases heq), hlog _ _⟩
    intro heq
    rw [LoaderEvent.request.injEq] at heq
    exact hsame heq.2

/-- Cancelled before the first chunk is asked for. -/
theorem cancelled_ends_single : ∃ s : AsyncLoader, AllCancelled s.log sharedUrl ∧
    .callback sharedUrl 0 .cancelled ∈ s.log ∧ s.EndsCancelled sharedUrl := by
  have hall : ∀ error, AllCancelled [.request sharedUrl 7 0, .cancel sharedUrl 7,
      .callback sharedUrl 0 error] sharedUrl := fun error => allCancelled_single (by simp)
  refine ⟨_, hall .cancelled, by decide, cancelled_ends (fun _ => true) _ sharedUrl
    (.step (.impl sharedUrl true) (.step (.cancelFileSharing sharedUrl (some 7))
      (.step (.register (sharedTask (.registering 1 [])) true)
      (.step (.metainfo (sharedTask .asking) (.file 1 []))
      (.step (.looked (sharedTask .looking)) (.step (.downloadFileSharing sharedUrl 7 100) .start
      trivial rfl) trivial rfl) trivial rfl) trivial rfl) ?_ rfl) trivial rfl) (hall .cancelled)⟩
  exact ⟨List.cons_ne_nil _ _, fun _ h => by cases h⟩

/-- Cancelled while the metainformation is asked for. -/
theorem early_cancel_lost : ∃ s, Run (AsyncLoader.step fun _ => true) (fun _ _ => True) {} s ∧
    AllCancelled s.log sharedUrl ∧ s.Ended sharedUrl ∧ ¬ s.EndsCancelled sharedUrl ∧
    .callback sharedUrl 0 .success ∈ s.log ∧ (s.cancelledTasks.find? sharedUrl).isSome := by
  refine ⟨_, .step (.save sharedUrl true) (.step (.completion sharedUrl ⟨true, 206, [1]⟩)
    (.step (.impl sharedUrl true) (.step (.register (sharedTask (.registering 1 [])) true)
    (.step (.metainfo (sharedTask .asking) (.file 1 []))
    (.step (.cancelFileSharing sharedUrl (some 7)) (.step (.looked (sharedTask .looking))
    (.step (.downloadFileSharing sharedUrl 7 100) .start trivial rfl) trivial rfl) trivial rfl)
    trivial rfl) trivial rfl) trivial rfl) trivial rfl) trivial rfl, ?_, ?_, ?_, ?_, ?_⟩
  · apply allCancelled_single
    simp
  · exact ⟨fun _ h => (by cases h), rfl⟩
  · intro h
    cases h.cancelled 0 .success (by decide)
  · decide
  · rfl

end Single

end AsyncLoader

end Icq.Wim
