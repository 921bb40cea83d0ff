import Icq.Tools.ThreadPool
import Mathlib.Data.List.Perm.Basic

/-! What a thread pool does with the tasks it accepts, whatever its threads and its callers do in
between. -/

namespace Icq.Tools
open Icq.Lib

section Raise

variable {α : Type} {id : Int64} {tasks : List (PoolTask α)}

theorem raiseTask_ne_nil (h : raiseTask id tasks ≠ []) : tasks ≠ [] := by
  rintro rfl
  apply h
  unfold raiseTask
  split <;> rfl

/-- Raising a task keeps every task that has an action. -/
theorem raiseTask_perm :
    ((raiseTask id tasks).filter PoolTask.hasAction).Perm (tasks.filter PoolTask.hasAction) := by
  unfold raiseTask
  split
  · exact .refl _
  · split
    · exact .refl _
    · split
      · exact .refl _
      · split
        · exact .refl _
        · rename_i tmp hfind
          obtain ⟨hid, front, back, rfl, hfront⟩ := List.find?_eq_some_iff_append.mp hfind
          have hrest : (front ++ tmp :: back).eraseP (fun t => t.id = id) = front ++ back := by
            rw [List.eraseP_append_right _ (fun t ht => by simpa using hfront t ht)]
            exact congrArg _ (List.eraseP_cons_of_pos hid)
          simp only [hrest]
          split
          · exact List.Perm.filter _ List.perm_middle.symm
          · rename_i haction
            rw [List.filter_append, List.filter_append, List.filter_cons_of_neg haction]

end Raise

namespace ThreadPool

variable {α : Type} {s s' : ThreadPool α} {count worker : Nat}

/-- What every run keeps. -/
structure Kept (s : ThreadPool α) : Prop where
  queued : (s.accepted.filter PoolTask.hasAction).Perm
    ((s.taken ++ s.tasks).filter PoolTask.hasAction)
  ended : s.taken.Perm (s.done.map (·.task) ++ s.running)
  exited : .exited ∈ s.workers →
    s.stop = true ∧ s.tasks = [] ∧ ∀ task front, s.holder ≠ some (.pushing task front)
  tested : ∀ i, s.holder = some (.tested i) → s.tasks = [] ∧ s.workers[i]? = some .idle
  awake : s.tasks ≠ [] → s.workers ≠ [] → 0 < s.notifies ∨ ∃ w ∈ s.workers, w.isAwake = true

section Steps

theorem mem_set_of_ne {l : List (Worker α)} {w w' : Worker α}
    (h : w' ∈ l.set worker w) (hne : w' ≠ w) : w' ∈ l :=
  (List.mem_or_eq_of_mem_set h).resolve_right hne

theorem mem_set_self {l : List (Worker α)} {w : Worker α} (w' : Worker α)
    (h : l[worker]? = some w) : w' ∈ l.set worker w' := by
  obtain ⟨front, back, rfl, hset⟩ := exists_slot h
  rw [hset]
  exact List.mem_append_right _ List.mem_cons_self

theorem running_set {w w' : Worker α} (h : s.workers[worker]? = some w) (hw : w.task? = none)
    (hw' : w'.task? = none) :
    ((s.workers.set worker w').filterMap Worker.task?).Perm s.running := by
  have := perm_filterMap_set (f := Worker.task?) h w'
  rwa [hw, hw'] at this

theorem set_idle_getElem? {i : Nat} (h : s.workers[i]? = some .idle) :
    (s.workers.set worker .idle)[i]? = some .idle := by
  rw [List.getElem?_set]
  split
  · rename_i heq
    subst heq
    rw [if_pos (List.getElem?_eq_some_iff.mp h).1]
  · exact h

theorem Kept.start (count : Nat) : Kept (ThreadPool.start count : ThreadPool α) where
  queued := .refl _
  ended := by
    have : (ThreadPool.start count : ThreadPool α).running = [] := by
      unfold running
      rw [List.filterMap_eq_nil_iff]
      intro w hw
      obtain ⟨-, rfl⟩ := List.mem_replicate.mp hw
      rfl
    rw [this]
    exact .refl _
  exited := by
    intro h
    obtain ⟨-, h⟩ := List.mem_replicate.mp h
    cases h
  tested := by
    intro i h
    cases h
  awake := fun h => absurd rfl h

theorem Kept.lockToPush (h : Kept s) {task : PoolTask α} {front : Bool}
    (hstep : s.lockToPush task front = some s') : Kept s' := by
  obtain ⟨hholder, ⟨-, rfl⟩ | ⟨hstop, rfl⟩⟩ := lockToPush_cases hstep
  · exact h
  · refine ⟨h.queued, h.ended, ?_, ?_, h.awake⟩
    · intro hexited
      rw [(h.exited hexited).1] at hstop
      cases hstop
    · intro i hi
      cases hi

theorem Kept.emplace (h : Kept s) (hstep : s.emplace = some s') : Kept s' := by
  obtain ⟨task, front, hholder, rfl⟩ := emplace_cases hstep
  refine ⟨?_, h.ended, ?_, ?_, fun _ _ => .inl (Nat.succ_pos _)⟩
  · have hput : ((s.taken ++ if front then task :: s.tasks else s.tasks ++ [task])).Perm
        (s.taken ++ s.tasks ++ [task]) := by
      rw [List.append_assoc]
      apply List.Perm.append_left
      split
      · exact (List.perm_append_singleton task s.tasks).symm
      · exact .refl _
    refine List.Perm.trans ?_ (hput.filter _).symm
    rw [List.filter_append, List.filter_append]
    exact h.queued.append_right _
  · intro hexited
    exact absurd hholder ((h.exited hexited).2.2 task front)
  · intro i hi
    cases hi

theorem Kept.notifyOne (h : Kept s) (hstep : s.notifyOne worker = some s') : Kept s' := by
  obtain ⟨hpos, ⟨hworker, rfl⟩ | ⟨hnone, rfl⟩⟩ := notifyOne_cases hstep
  · refine ⟨h.queued, h.ended.trans ((running_set hworker rfl rfl).symm.append_left _), ?_, ?_, ?_⟩
    · intro hexited
      exact h.exited (mem_set_of_ne hexited (by simp))
    · intro i hi
      exact ⟨(h.tested i hi).1, set_idle_getElem? (h.tested i hi).2⟩
    · intro _ _
      exact .inr ⟨_, mem_set_self _ hworker, rfl⟩
  · refine ⟨h.queued, h.ended, h.exited, h.tested, ?_⟩
    -- nobody waits, and a thread that has left would have left the queue empty
    intro htasks hworkers
    obtain ⟨w, hw⟩ := List.exists_mem_of_ne_nil _ hworkers
    refine .inr ⟨w, hw, ?_⟩
    cases w with
    | idle => rfl
    | waiting => cases hnone _ hw
    | running task => rfl
    | exited => exact absurd (h.exited hw).2.1 htasks

theorem Kept.raise (h : Kept s) {id : Int64} (hstep : s.raise id = some s') : Kept s' := by
  obtain ⟨hholder, rfl⟩ := raise_cases hstep
  refine ⟨?_, h.ended, ?_, ?_, ?_⟩
  · refine h.queued.trans ?_
    rw [List.filter_append, List.filter_append]
    exact raiseTask_perm.symm.append_left _
  · intro hexited
    obtain ⟨hstop, htasks, hholder⟩ := h.exited hexited
    refine ⟨hstop, ?_, hholder⟩
    by_contra hne
    exact raiseTask_ne_nil hne htasks
  · intro i hi
    rw [hholder] at hi
    cases hi
  · intro htasks
    exact h.awake (raiseTask_ne_nil htasks)

theorem Kept.test (h : Kept s) (hstep : s.test worker = some s') : Kept s' := by
  obtain ⟨hholder, hworker, ⟨htasks, hstop, rfl⟩ | ⟨htasks, hstop, rfl⟩ |
    ⟨task, rest, htasks, rfl⟩⟩ := test_cases hstep
  · refine ⟨h.queued, h.ended.trans ((running_set hworker rfl rfl).symm.append_left _), ?_, ?_, ?_⟩
    · intro _
      refine ⟨hstop, htasks, ?_⟩
      intro task front hpush
      rw [hholder] at hpush
      cases hpush
    · intro i hi
      rw [hholder] at hi
      cases hi
    · exact fun hne => absurd htasks hne
  · refine ⟨h.queued, h.ended, ?_, ?_, fun hne => absurd htasks hne⟩
    · intro hexited
      rw [(h.exited hexited).1] at hstop
      cases hstop
    · intro i hi
      cases hi
      exact ⟨htasks, hworker⟩
  · refine ⟨?_, ?_, ?_, ?_, ?_⟩
    · have := h.queued
      rw [htasks] at this
      rwa [List.append_assoc]
    · have hrun := perm_filterMap_set (f := Worker.task?) hworker (.running task)
      refine (h.ended.append_right [task]).trans ?_
      rw [List.append_assoc]
      exact ((List.perm_append_singleton task _).trans hrun.symm).append_left _
    · intro hexited
      have := (h.exited (mem_set_of_ne hexited (by simp))).2.1
      rw [htasks] at this
      cases this
    · intro i hi
      rw [hholder] at hi
      cases hi
    · intro _ _
      exact .inr ⟨_, mem_set_self _ hworker, rfl⟩

theorem Kept.wait (h : Kept s) (hstep : s.wait = some s') : Kept s' := by
  obtain ⟨i, hholder, rfl⟩ := wait_cases hstep
  obtain ⟨htasks, hworker⟩ := h.tested i hholder
  refine ⟨h.queued, h.ended.trans ((running_set hworker rfl rfl).symm.append_left _), ?_, ?_,
    fun hne => absurd htasks hne⟩
  · intro hexited
    obtain ⟨hstop, -, -⟩ := h.exited (mem_set_of_ne hexited (by simp))
    exact ⟨hstop, htasks, by simp⟩
  · intro i hi
    cases hi

theorem Kept.wake (h : Kept s) (hstep : s.wake worker = some s') : Kept s' := by
  obtain ⟨hworker, rfl⟩ := wake_cases hstep
  refine ⟨h.queued, h.ended.trans ((running_set hworker rfl rfl).symm.append_left _), ?_, ?_, ?_⟩
  · intro hexited
    exact h.exited (mem_set_of_ne hexited (by simp))
  · intro i hi
    exact ⟨(h.tested i hi).1, set_idle_getElem? (h.tested i hi).2⟩
  · intro _ _
    exact .inr ⟨_, mem_set_self _ hworker, rfl⟩

theorem Kept.finish (h : Kept s) {cancelled : Bool}
    (hstep : s.finish worker cancelled = some s') : Kept s' := by
  obtain ⟨task, hworker, rfl⟩ := finish_cases hstep
  refine ⟨h.queued, ?_, ?_, ?_, ?_⟩
  · refine h.ended.trans ?_
    rw [List.map_append, List.append_assoc]
    exact (perm_filterMap_set (f := Worker.task?) hworker .idle).symm.append_left _
  · intro hexited
    exact h.exited (mem_set_of_ne hexited (by simp))
  · intro i hi
    exact ⟨(h.tested i hi).1, set_idle_getElem? (h.tested i hi).2⟩
  · intro _ _
    exact .inr ⟨_, mem_set_self _ hworker, rfl⟩

theorem Kept.setStop (h : Kept s) (hstep : s.setStop = some s') : Kept s' := by
  obtain ⟨-, rfl⟩ := setStop_cases hstep
  exact ⟨h.queued, h.ended, fun hexited => ⟨rfl, (h.exited hexited).2⟩, h.tested, h.awake⟩

theorem woken_task? (w : Worker α) : w.woken.task? = w.task? := by cases w <;> rfl

theorem running_woken : (s.workers.map Worker.woken).filterMap Worker.task? = s.running := by
  rw [List.filterMap_map]
  apply List.filterMap_congr
  intro w _
  exact woken_task? w

theorem Kept.notifyAll (h : Kept s) (hstep : s.notifyAll = some s') : Kept s' := by
  obtain ⟨hstop, -, rfl⟩ := notifyAll_cases hstep
  refine ⟨h.queued, ?_, ?_, ?_, ?_⟩
  · unfold running
    rw [running_woken]
    exact h.ended
  · intro hexited
    apply h.exited
    obtain ⟨w, hw, he⟩ := List.mem_map.mp hexited
    cases w <;> cases he
    exact hw
  · intro i hi
    obtain ⟨htasks, hworker⟩ := h.tested i hi
    exact ⟨htasks, by simp [hworker, Worker.woken]⟩
  · intro htasks hworkers
    rcases h.awake htasks (by simpa using hworkers) with hpos | ⟨w, hw, hawake⟩
    · exact .inl hpos
    · refine .inr ⟨_, List.mem_map.mpr ⟨w, hw, rfl⟩, ?_⟩
      cases w <;> first | rfl | cases hawake

theorem Kept.step (h : Kept s) {action : PoolAction α} (hstep : s.step action = some s') :
    Kept s' := by
  cases action with
  | lockToPush task front => exact h.lockToPush hstep
  | emplace => exact h.emplace hstep
  | notifyOne worker => exact h.notifyOne hstep
  | raiseTask id => exact h.raise hstep
  | test worker => exact h.test hstep
  | wait => exact h.wait hstep
  | wake worker => exact h.wake hstep
  | finish worker cancelled => exact h.finish hstep
  | setStop => exact h.setStop hstep
  | notifyAll => exact h.notifyAll hstep

end Steps

theorem Run.kept (h : Run step (fun _ _ => True) (start count) s) : Kept s :=
  h.invariant (Kept.start count) fun hkept _ => hkept.step

/-- Every task is accounted for exactly once: it waits, is at a thread, or is done. -/
structure AccountedFor (s : ThreadPool α) : Prop where
  once : (s.accepted.filter PoolTask.hasAction).Perm
    ((s.done.map (·.task) ++ s.running ++ s.tasks).filter PoolTask.hasAction)
  left : .exited ∈ s.workers → s.stop = true ∧ s.tasks = []
  joined : s.workers ≠ [] → (∀ w ∈ s.workers, w = .exited) →
    (s.accepted.filter PoolTask.hasAction).Perm
      ((s.done.map (·.task)).filter PoolTask.hasAction)

theorem Kept.once (h : Kept s) : (s.accepted.filter PoolTask.hasAction).Perm
    ((s.done.map (·.task) ++ s.running ++ s.tasks).filter PoolTask.hasAction) :=
  h.queued.trans ((h.ended.append_right s.tasks).filter _)

/-- Tasks go to the back of the queue and stay where they are. -/
def KeepsOrder : PoolAction α → Prop
  | .lockToPush _ front => front = false
  | .raiseTask _ => False
  | _ => True

/-- Whoever pushes, raises, takes, cancels and destroys, and in whatever order, no accepted task
is lost or done twice, and the destructor joins the threads only after the last one is done. -/
theorem accountedFor (h : Run step (fun _ _ => True) (start count) s) : AccountedFor s := by
  have hkept := Run.kept h
  refine ⟨hkept.once, fun hexited => ⟨(hkept.exited hexited).1, (hkept.exited hexited).2.1⟩, ?_⟩
  intro hworkers hall
  obtain ⟨w, hw⟩ := List.exists_mem_of_ne_nil _ hworkers
  have hexited : .exited ∈ s.workers := hall w hw ▸ hw
  have hrunning : s.running = [] := by
    unfold running
    rw [List.filterMap_eq_nil_iff]
    intro w hw
    rw [hall w hw]
    rfl
  have honce := hkept.once
  rwa [hrunning, (hkept.exited hexited).2.1, List.append_nil, List.append_nil] at honce

/-- Two threads take a task each, one of which is cancelled, and leave. -/
def joinedTwo : ThreadPool Nat :=
  { stop := true, workers := [.exited, .exited], notifies := 2
    accepted := [{ action := some 7 }, { action := some 8, id := 3 }]
    taken := [{ action := some 7 }, { action := some 8, id := 3 }]
    done := [{ task := { action := some 8, id := 3 }, cancelled := true },
      { task := { action := some 7 }, cancelled := false }] }

theorem run_joinedTwo : Run step (fun _ _ => True) (start 2) joinedTwo :=
  .step (.test 0) (.step (.finish 0 false) (.step (.test 1) (.step .setStop
    (.step (.finish 1 true) (.step (.test 1) (.step (.test 0) (.step .emplace
      (.step (.lockToPush { action := some 8, id := 3 } false) (.step .emplace
        (.step (.lockToPush { action := some 7 } false) .start trivial rfl) trivial rfl)
        trivial rfl) trivial rfl) trivial rfl) trivial rfl) trivial rfl) trivial rfl)
    trivial rfl) trivial rfl) trivial rfl

/-- They finished what was accepted. -/
theorem accountedFor_two : ([{ action := some 7 }, { action := some 8, id := 3 }] :
      List (PoolTask Nat)).Perm [{ action := some 8, id := 3 }, { action := some 7 }] :=
  (accountedFor run_joinedTwo).joined (List.cons_ne_nil _ _) (by simp [joinedTwo])

theorem executed_sublist (done : List (DoneTask α)) :
    (done.filterMap fun d => if d.cancelled then none else d.task.action).Sublist
      (done.filterMap fun d => d.task.action) := by
  induction done with
  | nil => exact .slnil
  | cons d done ih =>
    cases hcancelled : d.cancelled <;> cases haction : d.task.action
    all_goals simp only [List.filterMap_cons, hcancelled, haction, if_true, Bool.false_eq_true, if_false]
    · exact ih
    · exact ih.cons_cons _
    · exact ih
    · exact ih.cons _

section Order

/-- One thread has taken the oldest tasks, in the order they were accepted in. -/
structure InOrder (s : ThreadPool α) : Prop where
  single : ∃ w, s.workers = [w] ∧ s.taken = s.done.map (·.task) ++ w.task?.toList
  back : ∀ task front, s.holder = some (.pushing task front) → front = false
  queued : s.accepted = s.taken ++ s.tasks

theorem single_set {w w' : Worker α} (h : s.workers = [w]) (hworker : s.workers[worker]? = some w') :
    w = w' ∧ ∀ b, s.workers.set worker b = [b] := by
  obtain ⟨front, back, heq, hset⟩ := exists_slot hworker
  rw [h, List.singleton_eq_append_iff] at heq
  rcases heq with ⟨rfl, heq⟩ | ⟨-, heq⟩
  · obtain ⟨rfl, rfl⟩ := List.cons.inj heq
    exact ⟨rfl, hset⟩
  · cases heq

theorem InOrder.start : InOrder (ThreadPool.start 1 : ThreadPool α) where
  single := ⟨.idle, rfl, rfl⟩
  back := by
    intro task front h
    cases h
  queued := rfl

theorem InOrder.step (h : InOrder s) (hkept : Kept s) {action : PoolAction α}
    (horder : KeepsOrder action) (hstep : s.step action = some s') : InOrder s' := by
  obtain ⟨w, hw, hover⟩ := h.single
  cases action with
  | lockToPush task front =>
    obtain ⟨-, ⟨-, rfl⟩ | ⟨-, rfl⟩⟩ := lockToPush_cases hstep
    · exact h
    · refine ⟨h.single, ?_, h.queued⟩
      intro task' front' heq
      cases heq
      exact horder
  | emplace =>
    obtain ⟨task, front, hholder, rfl⟩ := emplace_cases hstep
    obtain rfl := h.back task front hholder
    refine ⟨h.single, fun _ _ heq => (by cases heq), ?_⟩
    simp [h.queued]
  | notifyOne worker =>
    obtain ⟨-, ⟨hworker, rfl⟩ | ⟨-, rfl⟩⟩ := notifyOne_cases hstep
    · obtain ⟨rfl, hset⟩ := single_set hw hworker
      exact ⟨⟨.idle, hset _, hover⟩, h.back, h.queued⟩
    · exact ⟨h.single, h.back, h.queued⟩
  | raiseTask id => exact horder.elim
  | test worker =>
    obtain ⟨hholder, hworker, hcases⟩ := test_cases hstep
    obtain ⟨rfl, hset⟩ := single_set hw hworker
    rcases hcases with ⟨-, -, rfl⟩ | ⟨-, -, rfl⟩ | ⟨task, rest, htasks, rfl⟩
    · exact ⟨⟨.exited, hset _, hover⟩, h.back, h.queued⟩
    · exact ⟨h.single, fun _ _ heq => (by cases heq), h.queued⟩
    · refine ⟨⟨.running task, hset _, ?_⟩, h.back, ?_⟩
      · rw [hover]
        exact congrArg (· ++ [task]) (List.append_nil _)
      · simp [h.queued, htasks]
  | wait =>
    obtain ⟨i, hholder, rfl⟩ := wait_cases hstep
    obtain ⟨rfl, hset⟩ := single_set hw (hkept.tested i hholder).2
    exact ⟨⟨.waiting, hset _, hover⟩, fun _ _ heq => (by cases heq), h.queued⟩
  | wake worker =>
    obtain ⟨hworker, rfl⟩ := wake_cases hstep
    obtain ⟨rfl, hset⟩ := single_set hw hworker
    exact ⟨⟨.idle, hset _, hover⟩, h.back, h.queued⟩
  | finish worker cancelled =>
    obtain ⟨task, hworker, rfl⟩ := finish_cases hstep
    obtain ⟨rfl, hset⟩ := single_set hw hworker
    refine ⟨⟨.idle, hset _, ?_⟩, h.back, h.queued⟩
    rw [hover, List.map_append]
    exact (List.append_nil _).symm
  | setStop =>
    obtain ⟨-, rfl⟩ := setStop_cases hstep
    exact ⟨h.single, h.back, h.queued⟩
  | notifyAll =>
    obtain ⟨-, -, rfl⟩ := notifyAll_cases hstep
    refine ⟨⟨w.woken, by simp [hw], ?_⟩, h.back, h.queued⟩
    rw [woken_task?]
    exact hover

/-- An executer of one thread, whose callers only push to the back, does what it accepts one task
at a time and in the order it was accepted in. -/
theorem executer_in_order (h : Run step (fun _ => KeepsOrder) (start 1) s) :
    s.accepted = s.done.map (·.task) ++ s.running ++ s.tasks ∧ s.running.length ≤ 1 ∧
      s.executed.Sublist (s.accepted.filterMap (·.action)) := by
  have hboth : InOrder s ∧ Kept s :=
    h.invariant (P := fun s => InOrder s ∧ Kept s) ⟨InOrder.start, Kept.start 1⟩
      fun hs horder hstep => ⟨hs.1.step hs.2 horder hstep, hs.2.step hstep⟩
  obtain ⟨w, hw, hover⟩ := hboth.1.single
  have hrunning : s.running = w.task?.toList := by
    unfold running
    rw [hw]
    cases w <;> rfl
  have haccepted : s.accepted = s.done.map (·.task) ++ s.running ++ s.tasks := by
    rw [hboth.1.queued, hover, hrunning]
  refine ⟨haccepted, ?_, ?_⟩
  · rw [hrunning]
    cases w.task? <;> simp
  · rw [haccepted, List.append_assoc, List.filterMap_append]
    refine List.Sublist.trans ?_ (List.sublist_append_left _ _)
    rw [List.filterMap_map]
    exact executed_sublist s.done

/-- Of four tasks the first was cancelled, the second executed, and the third is at the thread. -/
def halfDone : ThreadPool Nat :=
  { workers := [.running { action := some 9 }], notifies := 4
    tasks := [{ action := some 10 }]
    accepted := [{ action := some 7, id := 3 }, { action := some 8 }, { action := some 9 },
      { action := some 10 }]
    taken := [{ action := some 7, id := 3 }, { action := some 8 }, { action := some 9 }]
    done := [{ task := { action := some 7, id := 3 }, cancelled := true },
      { task := { action := some 8 }, cancelled := false }] }

theorem run_halfDone : Run step (fun _ => KeepsOrder) (start 1) halfDone := by
  have hpush : ∀ {s s' s'' : ThreadPool Nat} (task : PoolTask Nat),
      Run step (fun _ => KeepsOrder) (start 1) s → s.lockToPush task false = some s' →
      s'.emplace = some s'' → Run step (fun _ => KeepsOrder) (start 1) s'' :=
    fun task h hlock hemplace => .step .emplace (.step (.lockToPush task false) h rfl hlock) trivial
      hemplace
  have htake : ∀ {s s' s'' : ThreadPool Nat} (cancelled : Bool),
      Run step (fun _ => KeepsOrder) (start 1) s → s.test 0 = some s' →
      s'.finish 0 cancelled = some s'' → Run step (fun _ => KeepsOrder) (start 1) s'' :=
    fun cancelled h htest hfinish => .step (.finish 0 cancelled) (.step (.test 0) h trivial htest)
      trivial hfinish
  have hpushed := hpush { action := some 10 } (hpush { action := some 9 }
    (hpush { action := some 8 } (hpush { action := some 7, id := 3 } .start rfl rfl) rfl rfl) rfl rfl)
    rfl rfl
  exact .step (.test 0) (htake false (htake true hpushed rfl rfl) rfl rfl) trivial rfl

theorem executer_in_order_halfDone :
    ([{ action := some 7, id := 3 }, { action := some 8 }, { action := some 9 },
      { action := some 10 }] : List (PoolTask Nat)) =
        [{ action := some 7, id := 3 }, { action := some 8 }] ++ [{ action := some 9 }] ++
          [{ action := some 10 }] ∧ 1 ≤ 1 ∧ [8].Sublist [7, 8, 9, 10] :=
  executer_in_order run_halfDone

end Order

section Shutdown

/-- One thread at most is inside the mutex with its mind made up to wait. -/
def Holder.sleepers : Holder α → Nat
  | .tested _ => 1
  | .pushing _ _ => 0

def sleepers (s : ThreadPool α) : Nat := (s.holder.map Holder.sleepers).getD 0

/-- The threads that wait or are about to. -/
def asleep (s : ThreadPool α) : Nat := s.workers.countP Worker.isWaiting + s.sleepers

/-- `stop_` is not stored while a thread stands between its test and its wait. -/
def StopsBetween (s : ThreadPool α) : PoolAction α → Prop
  | .setStop => s.sleepers = 0
  | _ => True

/-- Threads that may have tested before `stop_` was stored and wait after. -/
structure Woken (late : Nat) (s : ThreadPool α) : Prop where
  stopped : s.joining = true → s.stop = true
  stopping : s.stop = true → s.sleepers ≤ late
  joining : s.joining = true → s.asleep ≤ late

theorem sleepers_le_one : s.sleepers ≤ 1 := by
  unfold sleepers
  rcases s.holder with _ | ⟨worker⟩ | ⟨task, front⟩
  · exact Nat.zero_le 1
  · exact Nat.le_refl 1
  · exact Nat.zero_le 1

theorem countP_set_idle {w : Worker α} (h : s.workers[worker]? = some w) :
    (s.workers.set worker .idle).countP Worker.isWaiting ≤ s.workers.countP Worker.isWaiting := by
  have := countP_set_add (p := Worker.isWaiting) h .idle
  simp only [Worker.isWaiting, Bool.false_eq_true, if_false] at this
  omega

theorem countP_set_eq {w : Worker α} (h : s.workers[worker]? = some w) (w' : Worker α)
    (hw : w.isWaiting = w'.isWaiting) :
    (s.workers.set worker w').countP Worker.isWaiting = s.workers.countP Worker.isWaiting := by
  have := countP_set_add (p := Worker.isWaiting) h w'
  rw [hw] at this
  omega

theorem countP_woken : (s.workers.map Worker.woken).countP Worker.isWaiting = 0 := by
  rw [List.countP_eq_zero]
  intro w hw
  obtain ⟨w', -, rfl⟩ := List.mem_map.mp hw
  cases w' <;> simp [Worker.woken, Worker.isWaiting]

theorem Woken.start (late count : Nat) : Woken late (ThreadPool.start count : ThreadPool α) where
  stopped := fun h => nomatch h
  stopping := fun h => nomatch h
  joining := fun h => nomatch h

theorem Woken.step {late : Nat} (h : Woken late s) (hkept : Kept s) {action : PoolAction α}
    (hlate : late = 0 → StopsBetween s action) (hstep : s.step action = some s') :
    Woken late s' := by
  cases action with
  | lockToPush task front =>
    obtain ⟨-, ⟨-, rfl⟩ | ⟨hstop, rfl⟩⟩ := lockToPush_cases hstep
    · exact h
    · refine ⟨h.stopped, fun _ => Nat.zero_le _, fun hjoining => ?_⟩
      rw [h.stopped hjoining] at hstop
      cases hstop
  | emplace =>
    obtain ⟨task, front, hholder, rfl⟩ := emplace_cases hstep
    refine ⟨h.stopped, fun _ => Nat.zero_le _, fun hjoining => ?_⟩
    exact Nat.le_trans (Nat.add_le_add_left (Nat.zero_le _) _) (h.joining hjoining)
  | notifyOne worker =>
    obtain ⟨-, ⟨hworker, rfl⟩ | ⟨-, rfl⟩⟩ := notifyOne_cases hstep
    · refine ⟨h.stopped, h.stopping, fun hjoining => ?_⟩
      exact Nat.le_trans (Nat.add_le_add_right (countP_set_idle hworker) _) (h.joining hjoining)
    · exact ⟨h.stopped, h.stopping, h.joining⟩
  | raiseTask id =>
    obtain ⟨-, rfl⟩ := raise_cases hstep
    exact ⟨h.stopped, h.stopping, h.joining⟩
  | test worker =>
    obtain ⟨-, hworker, ⟨-, -, rfl⟩ | ⟨-, hstop, rfl⟩ | ⟨task, rest, -, rfl⟩⟩ := test_cases hstep
    · refine ⟨h.stopped, h.stopping, fun hjoining => ?_⟩
      have hcount := countP_set_eq hworker .exited rfl
      unfold asleep
      rw [hcount]
      exact h.joining hjoining
    · refine ⟨h.stopped, fun hstop' => ?_, fun hjoining => ?_⟩
      · rw [hstop] at hstop'
        cases hstop'
      · rw [h.stopped hjoining] at hstop
        cases hstop
    · refine ⟨h.stopped, h.stopping, fun hjoining => ?_⟩
      have hcount := countP_set_eq hworker (.running task) rfl
      unfold asleep
      rw [hcount]
      exact h.joining hjoining
  | wait =>
    obtain ⟨i, hholder, rfl⟩ := wait_cases hstep
    refine ⟨h.stopped, fun _ => Nat.zero_le _, fun hjoining => ?_⟩
    -- the thread was counted inside the mutex and is counted as waiting now
    refine Nat.le_trans ?_ (h.joining hjoining)
    have hcount := countP_set_add (p := Worker.isWaiting) (hkept.tested i hholder).2 .waiting
    have hone : s.sleepers = 1 := by
      unfold sleepers
      rw [hholder]
      rfl
    simp only [Worker.isWaiting, Bool.false_eq_true, if_false, if_true] at hcount
    unfold asleep
    rw [hone]
    exact Nat.le_of_eq hcount
  | wake worker =>
    obtain ⟨hworker, rfl⟩ := wake_cases hstep
    refine ⟨h.stopped, h.stopping, fun hjoining => ?_⟩
    exact Nat.le_trans (Nat.add_le_add_right (countP_set_idle hworker) _) (h.joining hjoining)
  | finish worker cancelled =>
    obtain ⟨task, hworker, rfl⟩ := finish_cases hstep
    refine ⟨h.stopped, h.stopping, fun hjoining => ?_⟩
    exact Nat.le_trans (Nat.add_le_add_right (countP_set_idle hworker) _) (h.joining hjoining)
  | setStop =>
    obtain ⟨hstop, rfl⟩ := setStop_cases hstep
    refine ⟨fun _ => rfl, fun _ => ?_, fun hjoining => ?_⟩
    · rcases Nat.eq_zero_or_pos late with hzero | hpos
      · exact Nat.le_trans (Nat.le_of_eq (hlate hzero)) (Nat.zero_le _)
      · exact Nat.le_trans sleepers_le_one hpos
    · rw [h.stopped hjoining] at hstop
      cases hstop
  | notifyAll =>
    obtain ⟨hstop, -, rfl⟩ := notifyAll_cases hstep
    refine ⟨fun _ => hstop, h.stopping, fun _ => ?_⟩
    unfold asleep
    rw [countP_woken, Nat.zero_add]
    exact h.stopping hstop

theorem Run.woken {allowed : ThreadPool α → PoolAction α → Prop} (late : Nat)
    (h : Run step allowed (start count) s)
    (hlate : ∀ s a, allowed s a → late = 0 → StopsBetween s a) : Woken late s :=
  (h.invariant (P := fun s => Woken late s ∧ Kept s) ⟨Woken.start late count, Kept.start count⟩
    fun hs ha hstep => ⟨hs.1.step hs.2 (hlate _ _ ha) hstep, hs.2.step hstep⟩).1

/-- No task waits while all threads sleep and no notification is on its way, and the destructor
leaves at most one thread asleep. -/
theorem awake_for_tasks (h : Run step (fun _ _ => True) (start count) s) :
    (s.tasks ≠ [] → s.workers ≠ [] → 0 < s.notifies ∨ ∃ w ∈ s.workers, w.isAwake = true) ∧
      (s.joining = true → s.asleep ≤ 1) :=
  ⟨(Run.kept h).awake, (Run.woken 1 h fun _ _ _ hlate => nomatch hlate).joining⟩

/-- A task is pushed while the only thread waits. -/
theorem run_pushed : Run step (fun _ _ => True) (start 1 : ThreadPool Nat)
    { tasks := [{ action := some 7 }], workers := [.waiting], notifies := 1
      accepted := [{ action := some 7 }] } :=
  .step .emplace (.step (.lockToPush { action := some 7 } false) (.step .wait
    (.step (.test 0) .start trivial rfl) trivial rfl) trivial rfl) trivial rfl

theorem awake_for_tasks_pushed :
    0 < 1 ∨ ∃ w ∈ ([.waiting] : List (Worker Nat)), w.isAwake = true :=
  (awake_for_tasks run_pushed).1 (List.cons_ne_nil _ _) (List.cons_ne_nil _ _)

/-- All are notified, one thread waits, and all others have left. -/
structure Hangs (s : ThreadPool α) : Prop where
  stop : s.stop = true
  joining : s.joining = true
  tasks : s.tasks = []
  holder : s.holder = none
  notifies : s.notifies = 0
  workers : ∃ front back, s.workers = List.replicate front .exited ++
    .waiting :: List.replicate back .exited

/-- Nothing but a wake-up out of nowhere ends it. -/
theorem Hangs.step (h : Hangs s) {action : PoolAction α} (hstep : s.step action = some s') :
    s' = s ∨ ∃ worker, action = .wake worker := by
  obtain ⟨front, back, hworkers⟩ := h.workers
  have honly : ∀ {i : Nat} {w : Worker α}, s.workers[i]? = some w → w = .waiting ∨ w = .exited := by
    intro i w hw
    have hmem := List.mem_of_getElem? hw
    rw [hworkers] at hmem
    rcases List.mem_append.mp hmem with hmem | hmem
    · exact .inr (List.mem_replicate.mp hmem).2
    · rcases List.mem_cons.mp hmem with rfl | hmem
      · exact .inl rfl
      · exact .inr (List.mem_replicate.mp hmem).2
  cases action with
  | lockToPush task front =>
    obtain ⟨-, ⟨-, rfl⟩ | ⟨hstop, -⟩⟩ := lockToPush_cases hstep
    · exact .inl rfl
    · rw [h.stop] at hstop
      cases hstop
  | emplace =>
    obtain ⟨task, front, hholder, -⟩ := emplace_cases hstep
    rw [h.holder] at hholder
    cases hholder
  | notifyOne worker =>
    have := (notifyOne_cases hstep).1
    rw [h.notifies] at this
    cases this
  | raiseTask id =>
    obtain ⟨-, rfl⟩ := raise_cases hstep
    left
    have htasks : raiseTask id s.tasks = s.tasks := by
      by_contra hne
      exact raiseTask_ne_nil (fun hnil => hne (hnil.trans h.tasks.symm)) h.tasks
    rw [htasks]
  | test worker =>
    obtain ⟨-, hworker, -⟩ := test_cases hstep
    rcases honly hworker with hw | hw <;> cases hw
  | wait =>
    obtain ⟨i, hholder, -⟩ := wait_cases hstep
    rw [h.holder] at hholder
    cases hholder
  | wake worker => exact .inr ⟨worker, rfl⟩
  | finish worker cancelled =>
    obtain ⟨task, hworker, -⟩ := finish_cases hstep
    rcases honly hworker with hw | hw <;> cases hw
  | setStop =>
    have := (setStop_cases hstep).1
    rw [h.stop] at this
    cases this
  | notifyAll =>
    have := (notifyAll_cases hstep).2.1
    rw [h.joining] at this
    cases this

theorem step_length {action : PoolAction α} (hstep : s.step action = some s') :
    s'.workers.length = s.workers.length := by
  cases action with
  | lockToPush task front =>
    obtain ⟨-, ⟨-, rfl⟩ | ⟨-, rfl⟩⟩ := lockToPush_cases hstep
    · rfl
    · rfl
  | emplace =>
    obtain ⟨_, _, -, rfl⟩ := emplace_cases hstep
    rfl
  | notifyOne worker =>
    obtain ⟨-, ⟨-, rfl⟩ | ⟨-, rfl⟩⟩ := notifyOne_cases hstep
    · exact List.length_set
    · rfl
  | raiseTask id =>
    obtain ⟨-, rfl⟩ := raise_cases hstep
    rfl
  | test worker =>
    obtain ⟨-, -, ⟨-, -, rfl⟩ | ⟨-, -, rfl⟩ | ⟨_, _, -, rfl⟩⟩ := test_cases hstep
    · exact List.length_set
    · rfl
    · exact List.length_set
  | wait =>
    obtain ⟨_, -, rfl⟩ := wait_cases hstep
    exact List.length_set
  | wake worker =>
    obtain ⟨-, rfl⟩ := wake_cases hstep
    exact List.length_set
  | finish worker cancelled =>
    obtain ⟨_, -, rfl⟩ := finish_cases hstep
    exact List.length_set
  | setStop =>
    obtain ⟨-, rfl⟩ := setStop_cases hstep
    rfl
  | notifyAll =>
    obtain ⟨-, -, rfl⟩ := notifyAll_cases hstep
    exact List.length_map _

theorem Run.length (h : Run step (fun _ _ => True) (start count) s) : s.workers.length = count :=
  h.invariant (P := fun s => s.workers.length = count) List.length_replicate
    fun hs _ hstep => (step_length hstep).trans hs

/-- A thread stands between its test and its wait while the destructor stores and notifies. -/
theorem run_overslept (count : Nat) :
    Run step (fun _ _ => True) (start (count + 1) : ThreadPool α)
      { stop := true, joining := true, workers := .waiting :: List.replicate count .idle } := by
  have htested : Run step (fun _ _ => True) (start (count + 1) : ThreadPool α)
      { holder := some (.tested 0), workers := List.replicate (count + 1) .idle } :=
    .step (.test 0) .start trivial rfl
  have hstopped : Run step (fun _ _ => True) (start (count + 1) : ThreadPool α)
      { stop := true, holder := some (.tested 0), workers := List.replicate (count + 1) .idle } :=
    .step .setStop htested trivial rfl
  have hnotified : Run step (fun _ _ => True) (start (count + 1) : ThreadPool α)
      { stop := true, joining := true, holder := some (.tested 0)
        workers := List.replicate (count + 1) .idle } := by
    refine .step .notifyAll hstopped trivial ?_
    simp [step, notifyAll, Worker.woken]
  exact .step .wait hnotified trivial rfl

theorem replicate_append_cons (n : Nat) (w : Worker α) (l : List (Worker α)) :
    List.replicate n w ++ w :: l = w :: (List.replicate n w ++ l) := by
  rw [← List.singleton_append, ← List.append_assoc, ← List.replicate_succ', List.replicate_succ,
    List.cons_append]

/-- The others leave one by one. -/
theorem run_leaving (count left : Nat) (h : left ≤ count) :
    Run step (fun _ _ => True) (start (count + 1) : ThreadPool α)
      { stop := true, joining := true
        workers := .waiting :: (List.replicate left .exited ++
          List.replicate (count - left) .idle) } := by
  induction left with
  | zero => exact run_overslept count
  | succ left ih =>
    refine .step (.test (left + 1)) (ih (Nat.le_of_succ_le h)) trivial ?_
    obtain ⟨more, hmore⟩ : ∃ more, count - left = more + 1 := ⟨count - left - 1, by omega⟩
    have hrest : count - (left + 1) = more := by omega
    rw [hmore, hrest]
    simp [step, test, List.replicate_succ, replicate_append_cons]

/-- Without a wake-up out of nowhere the pool stays as it is. -/
theorem Hangs.forever (h : Hangs s)
    (hrun : Run ThreadPool.step (fun _ action => ∀ worker, action ≠ .wake worker) s s') : s' = s := by
  refine hrun.invariant (P := fun s' => s' = s) rfl fun hs hwake hstep => ?_
  subst hs
  rcases h.step hstep with hsame | ⟨worker, hwoken⟩
  · exact hsame
  · exact absurd hwoken (hwake worker)

/-- A pool that has a thread may hang for ever when it is destroyed. If `stop_` is stored while no
thread stands between its test and its wait, all of them are awake once they are notified. -/
theorem destructor_hangs (count : Nat) :
    ((∃ s : ThreadPool α, Run step (fun _ _ => True) (start count) s ∧ Hangs s ∧
        ∀ s', Run step (fun _ action => ∀ worker, action ≠ .wake worker) s s' → s' = s) ↔
      0 < count) ∧
      ∀ s : ThreadPool α, Run step StopsBetween (start count) s → s.joining = true →
        s.asleep = 0 := by
  refine ⟨⟨?_, ?_⟩, ?_⟩
  · intro ⟨s, hrun, hangs, _⟩
    obtain ⟨front, back, hworkers⟩ := hangs.workers
    rw [← Run.length hrun, hworkers, List.length_append, List.length_cons]
    omega
  · intro hpos
    obtain ⟨n, rfl⟩ := Nat.exists_eq_add_of_lt hpos
    rw [Nat.zero_add]
    have hangs : Hangs ({ stop := true, joining := true
                          workers := .waiting :: (List.replicate n .exited ++
                            List.replicate (n - n) .idle) } : ThreadPool α) := by
      refine ⟨rfl, rfl, rfl, rfl, rfl, 0, n, ?_⟩
      simp
    exact ⟨_, run_leaving n n (Nat.le_refl n), hangs, fun _ => hangs.forever⟩
  · intro s hrun hjoining
    have := (Run.woken 0 hrun fun _ _ ha _ => ha).joining hjoining
    exact Nat.eq_zero_of_le_zero this

end Shutdown

end ThreadPool

end Icq.Tools
