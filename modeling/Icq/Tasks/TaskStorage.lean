import Icq.Lib.KeyMap
import Icq.Lib.Run
import Icq.Tasks.Task

/-! The tasks that are kept, each with what is known of its thread. -/

namespace Icq.Tasks
open Icq.Lib Icq.Archive

def createEmptyTaskThreadUpdate (taskId threadId : Bytes) : ThreadUpdate :=
  { id := threadId, parentTopic := { type := TopicType.task, taskId } }

structure TaskStorage where
  tasks : KeyMap TaskData.id := ∅
  changed : Bool := false

namespace TaskStorage

variable (s : TaskStorage)

/-- What is put in the place of a task, which is an empty one if there was none. -/
def merged (task new : TaskData) (now : Int) : TaskData :=
  let newThreadId := new.params.threadId
  if task.params.threadId = [] ∧ newThreadId = [] then { new with lastUsed := now }
  else
    let createThreadUpdate := task.params.threadId = [] ∧ newThreadId ≠ []
    { new with
      threadUpdate :=
        if createThreadUpdate then createEmptyTaskThreadUpdate new.id newThreadId
        else task.threadUpdate
      lastUsed := task.lastUsed }

def updateTask (now : Int) (new : TaskData) : TaskStorage × Bool :=
  if new.id.isEmpty then (s, false)
  else
    let task := (s.tasks.find? new.id).getD {}
    if !task.isEmpty ∧ new.params.lastChange ≤ task.params.lastChange then (s, false)
    else ({ tasks := s.tasks.put (merged task new now), changed := true }, true)

def eraseOldTasks (now lifetime : Int) : TaskStorage :=
  { s with tasks := s.tasks.filter fun task => !decide (task.lastUsed < now - lifetime) }

def applyThreadUpdate (update : ThreadUpdate) : TaskStorage × Bool :=
  let taskId := update.parentTopic.taskId
  if update.parentTopic.type ≠ TopicType.task ∨ taskId.isEmpty then (s, false)
  else
    match s.tasks.find? taskId with
    | none => (s, false)
    | some task => ({ tasks := s.tasks.put { task with threadUpdate := update }, changed := true }, true)

end TaskStorage

inductive TaskAction where
  | updateTask (now : Int) (new : TaskData)
  | applyThreadUpdate (update : ThreadUpdate)

/-- The tasks that are stored and all that were offered, in their order. -/
structure TaskHistory where
  storage : TaskStorage := {}
  offers : List TaskData := []

namespace TaskHistory

def act (s : TaskHistory) : TaskAction → TaskHistory
  | .updateTask now new =>
    { storage := (s.storage.updateTask now new).1, offers := s.offers ++ [new] }
  | .applyThreadUpdate update => { s with storage := (s.storage.applyThreadUpdate update).1 }

/-- A task has an id, and an update of a thread is for the thread of its task. -/
def Proper (s : TaskHistory) : TaskAction → Prop
  | .updateTask _ new => new.id ≠ []
  | .applyThreadUpdate update => ∀ task ∈ s.storage.tasks.find? update.parentTopic.taskId,
      update.id = task.params.threadId

abbrev Reached (allowed : TaskHistory → TaskAction → Prop) : TaskHistory → Prop :=
  Run (fun s action => some (s.act action)) allowed {}

/-- A stored task is the first of those with the last change, and what it knows of a thread is of
its own thread. -/
structure Current (s : TaskHistory) : Prop where
  newest : ∀ task ∈ s.storage.tasks.items, ∀ offer ∈ s.offers, offer.id = task.id →
    offer.params.lastChange ≤ task.params.lastChange
  params : ∀ task ∈ s.storage.tasks.items,
    (s.offers.find? fun offer => decide (offer.id = task.id ∧
      offer.params.lastChange = task.params.lastChange)).map (·.params) = some task.params
  thread : ∀ task ∈ s.storage.tasks.items, task.threadUpdate.id ≠ [] →
    task.threadUpdate.id = task.params.threadId

/-- A task that is stored for the first time is not erased at once. -/
def Stays (s : TaskHistory) (now : Int) (new : TaskData) : Prop :=
  s.storage.tasks.find? new.id = none → ∀ lifetime, 0 < lifetime →
    (((s.act (.updateTask now new)).storage.eraseOldTasks now lifetime).tasks.find? new.id).isSome

/-- A new task has no thread, unless the clock is at its epoch, and a stored one does not change its
thread. A task without a thread is offered with none to know of. -/
def KeepsThread (s : TaskHistory) : TaskAction → Prop
  | .updateTask now new =>
    match s.storage.tasks.find? new.id with
    | none => if new.params.threadId = [] then new.threadUpdate.id = [] else now ≤ 1
    | some task => task.params.lastChange < new.params.lastChange →
        if task.params.threadId = [] then new.params.threadId = [] → new.threadUpdate.id = []
        else task.threadUpdate.id ≠ [] → new.params.threadId = task.params.threadId
  | .applyThreadUpdate _ => True

variable {s : TaskHistory} {new : TaskData} {now : Int}

/-- A task that is not older than another one is put in its place. -/
theorem updateTask_cases (now : Int) (hid : new.id ≠ [])
    (hids : ∀ task ∈ s.storage.tasks.items, task.id ≠ []) :
    (∃ task, s.storage.tasks.find? new.id = some task ∧
        new.params.lastChange ≤ task.params.lastChange ∧
        (s.storage.updateTask now new).1 = s.storage) ∨
      (∀ task, s.storage.tasks.find? new.id = some task →
          task.params.lastChange < new.params.lastChange) ∧
        (s.storage.updateTask now new).1.tasks = s.storage.tasks.put
          (TaskStorage.merged ((s.storage.tasks.find? new.id).getD {}) new now) := by
  have hne : ¬ new.id.isEmpty = true := fun h => hid (List.isEmpty_iff.mp h)
  rw [TaskStorage.updateTask, if_neg hne]
  cases hfind : s.storage.tasks.find? new.id with
  | none =>
    refine .inr ⟨fun _ h => (nomatch h), ?_⟩
    rw [if_neg fun h => Bool.false_ne_true h.1]
  | some task =>
    have htask : (!task.isEmpty) = true := by
      have hne := hids task (KeyMap.find_mem hfind).1
      rw [TaskData.isEmpty, List.isEmpty_eq_false_iff.mpr hne]
      rfl
    by_cases hold : new.params.lastChange ≤ task.params.lastChange
    · refine .inl ⟨task, rfl, hold, ?_⟩
      rw [Option.getD_some, if_pos ⟨htask, hold⟩]
    · refine .inr ⟨fun task' h => ?_, ?_⟩
      · rw [← Option.some.inj h]
        exact not_le.mp hold
      · rw [Option.getD_some, if_neg fun h => hold h.2]

theorem merged_id (task : TaskData) : (TaskStorage.merged task new now).id = new.id := by
  rw [TaskStorage.merged]
  split <;> rfl

theorem merged_params (task : TaskData) : (TaskStorage.merged task new now).params = new.params := by
  rw [TaskStorage.merged]
  split <;> rfl

/-- What holds in every run: besides, what was offered is stored, under an id. -/
structure Kept (s : TaskHistory) : Prop extends Current s where
  stored : ∀ offer ∈ s.offers, ∃ task ∈ s.storage.tasks.items, task.id = offer.id
  ids : ∀ task ∈ s.storage.tasks.items, task.id ≠ []

theorem kept_start : Kept {} where
  newest _ h := absurd h List.not_mem_nil
  params _ h := absurd h List.not_mem_nil
  thread _ h := absurd h List.not_mem_nil
  stored _ h := absurd h List.not_mem_nil
  ids _ h := absurd h List.not_mem_nil

theorem Kept.params_append (h : s.Kept) (more : List TaskData) {task : TaskData}
    (htask : task ∈ s.storage.tasks.items) :
    ((s.offers ++ more).find? fun offer => decide (offer.id = task.id ∧
      offer.params.lastChange = task.params.lastChange)).map (·.params) = some task.params := by
  obtain ⟨offer, hoffer, hparams⟩ := Option.map_eq_some_iff.mp (h.params task htask)
  rw [List.find?_append, hoffer]
  exact congrArg some hparams

/-- An older task changes nothing. -/
theorem Kept.refused (h : s.Kept) {task : TaskData} (hfind : s.storage.tasks.find? new.id = some task)
    (hold : new.params.lastChange ≤ task.params.lastChange) :
    Kept { storage := s.storage, offers := s.offers ++ [new] } where
  newest t ht offer hoffer hid := by
    rcases List.mem_append.mp hoffer with hoffer | hoffer
    · exact h.newest t ht offer hoffer hid
    · obtain rfl := List.mem_singleton.mp hoffer
      obtain ⟨htask, hkey⟩ := KeyMap.find_mem hfind
      rwa [KeyMap.eq_of_key ht htask (hid.symm.trans hkey.symm)]
  params t ht := h.params_append [new] ht
  thread := h.thread
  stored offer hoffer := by
    rcases List.mem_append.mp hoffer with hoffer | hoffer
    · exact h.stored offer hoffer
    · obtain rfl := List.mem_singleton.mp hoffer
      exact ⟨task, KeyMap.find_mem hfind⟩
  ids := h.ids

/-- One that is put in place of none or of an older one is the newest of its id. -/
theorem Kept.put (h : s.Kept) {storage : TaskStorage} {task : TaskData}
    (hid : task.id = new.id) (hparams : task.params = new.params) (hne : new.id ≠ [])
    (hold : ∀ old, s.storage.tasks.find? new.id = some old →
      old.params.lastChange < new.params.lastChange)
    (hthread : task.threadUpdate.id ≠ [] → task.threadUpdate.id = task.params.threadId)
    (htasks : storage.tasks = s.storage.tasks.put task) :
    Kept { storage, offers := s.offers ++ [new] } := by
  have hmem : ∀ t, t ∈ storage.tasks.items ↔
      t = task ∨ (t ∈ s.storage.tasks.items ∧ t.id ≠ task.id) := by
    intro t
    rw [htasks]
    exact KeyMap.mem_put
  have hless : ∀ offer ∈ s.offers, offer.id = new.id →
      offer.params.lastChange < new.params.lastChange := by
    intro offer hoffer hkey
    obtain ⟨old, hmemold, holdid⟩ := h.stored offer hoffer
    have hfind := KeyMap.find_of_mem hmemold
    rw [holdid, hkey] at hfind
    exact lt_of_le_of_lt (h.newest old hmemold offer hoffer holdid.symm) (hold old hfind)
  refine ⟨⟨fun t ht offer hoffer hkey => ?_, fun t ht => ?_, fun t ht => ?_⟩,
    fun offer hoffer => ?_, fun t ht => ?_⟩
  · rcases (hmem t).mp ht with rfl | ⟨ht, hother⟩
    · rw [hparams]
      rcases List.mem_append.mp hoffer with hoffer | hoffer
      · exact le_of_lt (hless offer hoffer (hkey.trans hid))
      · rw [List.mem_singleton.mp hoffer]
    · rcases List.mem_append.mp hoffer with hoffer | hoffer
      · exact h.newest t ht offer hoffer hkey
      · obtain rfl := List.mem_singleton.mp hoffer
        exact absurd (hkey.symm.trans hid.symm) hother
  · rcases (hmem t).mp ht with rfl | ⟨ht, -⟩
    · have hnone : s.offers.find? (fun offer => decide (offer.id = t.id ∧
          offer.params.lastChange = t.params.lastChange)) = none := by
        rw [List.find?_eq_none]
        intro offer hoffer heq
        obtain ⟨hkey, hlast⟩ := decide_eq_true_iff.mp heq
        rw [hparams] at hlast
        exact ne_of_lt (hless offer hoffer (hkey.trans hid)) hlast
      rw [List.find?_append, hnone, Option.none_or, List.find?_singleton,
        if_pos (decide_eq_true ⟨hid.symm, by rw [hparams]⟩), hparams]
      rfl
    · exact h.params_append [new] ht
  · rcases (hmem t).mp ht with rfl | ⟨ht, -⟩
    · exact hthread
    · exact h.thread t ht
  · rcases List.mem_append.mp hoffer with hoffer | hoffer
    · obtain ⟨t, ht, hkey⟩ := h.stored offer hoffer
      by_cases hsame : t.id = task.id
      · exact ⟨task, (hmem task).mpr (.inl rfl), hsame.symm.trans hkey⟩
      · exact ⟨t, (hmem t).mpr (.inr ⟨ht, hsame⟩), hkey⟩
    · obtain rfl := List.mem_singleton.mp hoffer
      exact ⟨task, (hmem task).mpr (.inl rfl), hid⟩
  · rcases (hmem t).mp ht with rfl | ⟨ht, -⟩
    · rwa [hid]
    · exact h.ids t ht

theorem merged_thread_none (hthread : new.params.threadId = [] → new.threadUpdate.id = [])
    (hne : (TaskStorage.merged {} new now).threadUpdate.id ≠ []) :
    (TaskStorage.merged {} new now).threadUpdate.id = new.params.threadId := by
  by_cases hnone : new.params.threadId = []
  · refine absurd ?_ hne
    rw [TaskStorage.merged, if_pos ⟨rfl, hnone⟩]
    exact hthread hnone
  · rw [TaskStorage.merged, if_neg fun h => hnone h.2]
    dsimp only
    rw [if_pos ⟨rfl, hnone⟩]
    rfl

/-- What a task knows of its thread goes to the one in its place. -/
theorem merged_thread_some {task : TaskData}
    (hown : task.threadUpdate.id ≠ [] → task.threadUpdate.id = task.params.threadId)
    (hthread : if task.params.threadId = [] then new.params.threadId = [] → new.threadUpdate.id = []
      else task.threadUpdate.id ≠ [] → new.params.threadId = task.params.threadId)
    (hne : (TaskStorage.merged task new now).threadUpdate.id ≠ []) :
    (TaskStorage.merged task new now).threadUpdate.id = new.params.threadId := by
  by_cases hold : task.params.threadId = []
  · rw [if_pos hold] at hthread
    by_cases hnone : new.params.threadId = []
    · refine absurd ?_ hne
      rw [TaskStorage.merged, if_pos ⟨hold, hnone⟩]
      exact hthread hnone
    · rw [TaskStorage.merged, if_neg fun h => hnone h.2]
      dsimp only
      rw [if_pos ⟨hold, hnone⟩]
      rfl
  · rw [if_neg hold] at hthread
    have hkept : (TaskStorage.merged task new now).threadUpdate = task.threadUpdate := by
      rw [TaskStorage.merged, if_neg fun h => hold h.1]
      dsimp only
      rw [if_neg fun h => hold h.1]
    rw [hkept] at hne ⊢
    exact (hown hne).trans (hthread hne).symm

theorem Kept.updateTask (h : s.Kept) (hid : new.id ≠ [])
    (hthread : KeepsThread s (.updateTask now new)) : Kept (s.act (.updateTask now new)) := by
  rcases updateTask_cases now hid h.ids with ⟨task, hfind, hold, hsame⟩ | ⟨hold, htasks⟩
  · rw [act, hsame]
    exact h.refused hfind hold
  · refine h.put (merged_id _) (merged_params _) hid hold ?_ htasks
    rw [merged_params]
    rw [KeepsThread] at hthread
    cases hfind : s.storage.tasks.find? new.id with
    | none =>
      rw [hfind] at hthread
      refine merged_thread_none fun hnone => ?_
      rwa [if_pos hnone] at hthread
    | some task =>
      rw [hfind] at hthread
      have hmem := (KeyMap.find_mem hfind).1
      exact merged_thread_some (h.thread task hmem) (hthread (hold task hfind))

theorem applyThreadUpdate_cases (update : ThreadUpdate) :
    (s.storage.applyThreadUpdate update).1 = s.storage ∨
      ∃ task, s.storage.tasks.find? update.parentTopic.taskId = some task ∧
        (s.storage.applyThreadUpdate update).1.tasks =
          s.storage.tasks.put { task with threadUpdate := update } := by
  rw [TaskStorage.applyThreadUpdate]
  by_cases htopic : update.parentTopic.type ≠ TopicType.task ∨ update.parentTopic.taskId.isEmpty
  · rw [if_pos htopic]
    exact .inl rfl
  · rw [if_neg htopic]
    cases hfind : s.storage.tasks.find? update.parentTopic.taskId with
    | none => exact .inl rfl
    | some task => exact .inr ⟨task, rfl, rfl⟩

/-- What is told of the thread of a task changes nothing else of it. -/
theorem Kept.told (h : s.Kept) {update : ThreadUpdate} {task : TaskData} {storage : TaskStorage}
    (htask : task ∈ s.storage.tasks.items) (hown : update.id = task.params.threadId)
    (htasks : storage.tasks = s.storage.tasks.put { task with threadUpdate := update }) :
    Kept { s with storage } := by
  have hmem : ∀ t, t ∈ storage.tasks.items ↔
      t = { task with threadUpdate := update } ∨ (t ∈ s.storage.tasks.items ∧ t.id ≠ task.id) := by
    intro t
    rw [htasks]
    exact KeyMap.mem_put
  have hsame : ∀ t ∈ storage.tasks.items, ∃ old ∈ s.storage.tasks.items,
      old.id = t.id ∧ old.params = t.params := by
    intro t ht
    rcases (hmem t).mp ht with rfl | ⟨ht, -⟩
    · exact ⟨task, htask, rfl, rfl⟩
    · exact ⟨t, ht, rfl, rfl⟩
  refine ⟨⟨fun t ht => ?_, fun t ht => ?_, fun t ht => ?_⟩, fun offer hoffer => ?_, fun t ht => ?_⟩
  · obtain ⟨old, hold, hid, hparams⟩ := hsame t ht
    rw [← hid, ← hparams]
    exact h.newest old hold
  · obtain ⟨old, hold, hid, hparams⟩ := hsame t ht
    rw [← hid, ← hparams]
    exact h.params old hold
  · rcases (hmem t).mp ht with rfl | ⟨ht, -⟩
    · exact fun _ => hown
    · exact h.thread t ht
  · obtain ⟨t, ht, hkey⟩ := h.stored offer hoffer
    by_cases hother : t.id = task.id
    · exact ⟨_, (hmem _).mpr (.inl rfl), hother.symm.trans hkey⟩
    · exact ⟨t, (hmem t).mpr (.inr ⟨ht, hother⟩), hkey⟩
  · obtain ⟨old, hold, hid, -⟩ := hsame t ht
    rw [← hid]
    exact h.ids old hold

theorem Kept.act {action : TaskAction} (h : s.Kept) (hproper : Proper s action)
    (hthread : KeepsThread s action) : Kept (s.act action) := by
  cases action with
  | updateTask now new => exact h.updateTask hproper hthread
  | applyThreadUpdate update =>
    rcases applyThreadUpdate_cases update with hsame | ⟨task, hfind, htasks⟩
    · rw [TaskHistory.act, hsame]
      exact h
    · exact h.told (KeyMap.find_mem hfind).1 (hproper task hfind) htasks

/-- A task without a thread is given the time it is stored at. -/
theorem stays_of_keepsThread (hid : new.id ≠ []) (hids : ∀ task ∈ s.storage.tasks.items, task.id ≠ [])
    (hthread : KeepsThread s (.updateTask now new)) : Stays s now new := by
  intro hnone lifetime hpos
  rw [KeepsThread, hnone] at hthread
  rcases updateTask_cases now hid hids with ⟨task, hfind, -⟩ | ⟨-, htasks⟩
  · rw [hnone] at hfind
    nomatch hfind
  · rw [hnone, Option.getD_none] at htasks
    have hstored : TaskStorage.merged {} new now ∈
        (s.act (.updateTask now new)).storage.tasks.items := by
      rw [act, htasks]
      exact KeyMap.mem_put.mpr (.inl rfl)
    have hyoung : ¬ (TaskStorage.merged {} new now).lastUsed < now - lifetime := by
      by_cases hempty : new.params.threadId = []
      · rw [TaskStorage.merged, if_pos ⟨rfl, hempty⟩]
        exact not_lt.mpr (Int.sub_le_self now (Int.le_of_lt hpos))
      · rw [if_neg hempty] at hthread
        rw [TaskStorage.merged, if_neg fun h => hempty h.2]
        exact not_lt.mpr (Int.sub_nonpos_of_le (hthread.trans hpos))
    have hkept : TaskStorage.merged {} new now ∈
        ((s.act (.updateTask now new)).storage.eraseOldTasks now lifetime).tasks.items := by
      refine List.mem_filter.mpr ⟨hstored, ?_⟩
      rw [decide_eq_false hyoung]
      rfl
    have hfind := KeyMap.find_of_mem hkept
    rw [merged_id] at hfind
    exact Option.isSome_of_mem hfind

theorem kept_of_reached (h : Reached (fun s action => Proper s action ∧ KeepsThread s action) s) :
    s.Kept := by
  refine h.invariant kept_start fun {s action s'} hkept hallowed hstep => ?_
  rw [← Option.some.inj hstep]
  exact hkept.act hallowed.1 hallowed.2

theorem current_of_keepsThread
    (h : Reached (fun s action => Proper s action ∧ KeepsThread s action) s) :
    Current s ∧ ∀ now new, new.id ≠ [] → KeepsThread s (.updateTask now new) → Stays s now new :=
  have hkept := kept_of_reached h
  ⟨hkept.toCurrent, fun _ _ hid hthread => stays_of_keepsThread hid hkept.ids hthread⟩

def taskOf (threadId : Bytes) (lastChange : Int) : TaskData :=
  { id := [116], params := { title := [65], threadId, lastChange } }

/-- A task gets a thread, and then an update of it. -/
theorem current_of_one_thread :
    Current (((({} : TaskHistory).act (.updateTask 10 (taskOf [] 1))).act
        (.updateTask 20 (taskOf [97] 2))).act
          (.applyThreadUpdate { id := [97], parentTopic := { type := TopicType.task, taskId := [116] } })) ∧
      ((({} : TaskHistory).act (.updateTask 10 (taskOf [] 1))).storage.eraseOldTasks 10 1
        ).tasks.size = 1 := by
  refine ⟨(current_of_keepsThread (.step (.applyThreadUpdate _) (.step (.updateTask 20 _)
    (.step (.updateTask 10 _) .start ?_ rfl) ?_ rfl) ?_ rfl)).1, by decide +kernel⟩
  · exact ⟨List.cons_ne_nil _ _, rfl⟩
  · exact ⟨List.cons_ne_nil _ _, fun _ h => absurd h (List.cons_ne_nil _ _)⟩
  · exact ⟨fun task h => by rw [← Option.some.inj h]; rfl, trivial⟩

/-- A task that comes with a thread is gone at once, and one whose thread is replaced still knows
of the thread before. -/
theorem threads_lost : ¬ Stays {} 100 (taskOf [97] 1) ∧ ¬ ∀ s, Reached Proper s → Current s := by
  refine ⟨fun h => absurd (h rfl 1 Int.zero_lt_one) (by decide +kernel), fun h => ?_⟩
  have hproper : ∀ s now threadId lastChange,
      Proper s (.updateTask now (taskOf threadId lastChange)) := fun _ _ _ _ =>
    List.cons_ne_nil 116 []
  have hrun : Reached Proper ((({} : TaskHistory).act (.updateTask 10 (taskOf [97] 1))).act
      (.updateTask 20 (taskOf [98] 2))) :=
    .step _ (.step _ .start (hproper {} 10 [97] 1) rfl) (hproper _ 20 [98] 2) rfl
  have hthread := (h _ hrun).thread _ (List.mem_singleton.mpr rfl)
  exact absurd (hthread (List.cons_ne_nil _ _)) (by decide +kernel)

end TaskHistory

end Icq.Tasks
