import Icq.Lib.EventLog
import Icq.Lib.Run
import Mathlib.Algebra.Group.Nat.Defs
import Mathlib.Data.List.Nodup

/-! The timers of the core: a thread looks at all of them each time it has slept long enough. -/

namespace Icq.Core
open Icq.Lib

structure TimerTask (α : Type) where
  lastExecuteTime : Int
  id : Nat
  timeout : Int
  function : α
  singleShot : Bool

def TimerTask.isDue {α : Type} (currentTime : Int) (t : TimerTask α) : Bool :=
  decide (t.timeout ≤ currentTime - t.lastExecuteTime)

def TimerTask.executedAt {α : Type} (currentTime : Int) (t : TimerTask α) : TimerTask α :=
  { t with lastExecuteTime := currentTime }

inductive TimerEvent (α : Type) where
  | pushed (id : Nat) (timeout : Int) (function : α) (singleShot : Bool) (time : Int)
  /-- `push_timer` is over, and its caller knows the id. -/
  | returned (id : Nat)
  | posted (id : Nat) (function : α) (time : Int)
  | stopped (id : Nat)
  | destroyed

structure Scheduler (α : Type) where
  timedTasks : List (TimerTask α) := []
  /-- Timers of the threads inside `push_timer` that have not locked the mutex yet. -/
  pushing : List (TimerTask α) := []
  isStop : Bool := false
  idCounter : Nat := 0
  now : Int := 0
  log : List (TimerEvent α) := []

inductive SchedulerAction (α : Type) where
  | elapse (duration : Nat)
  | create (function : α) (timeout : Int) (singleShot : Bool)
  | splice (index : Nat)
  | stopTimer (id : Nat)
  | tick
  | destroy

namespace Scheduler

variable {α : Type}

/-- `push_timer` up to the mutex. The counter is 32 bits wide. -/
def create (s : Scheduler α) (function : α) (timeout : Int) (singleShot : Bool) : Scheduler α :=
  let id := (s.idCounter + 1) % 2 ^ 32
  { s with
    idCounter := id
    pushing := s.pushing ++ [{ lastExecuteTime := s.now, id, timeout, function, singleShot }]
    log := s.log ++ [.pushed id timeout function singleShot s.now] }

def splice (s : Scheduler α) (index : Nat) : Option (Scheduler α) :=
  s.pushing[index]?.map fun t =>
    { s with
      timedTasks := s.timedTasks ++ [t]
      pushing := s.pushing.eraseIdx index
      log := s.log ++ [.returned t.id] }

def stopTimer (s : Scheduler α) (id : Nat) : Scheduler α :=
  { s with
    timedTasks := s.timedTasks.eraseP fun t => decide (t.id = id)
    log := s.log ++ [.stopped id] }

/-- The timers that stay and the ones that are posted, in the order of the list. -/
def sweep (currentTime : Int) : List (TimerTask α) → List (TimerTask α) × List (TimerTask α)
  | [] => ([], [])
  | t :: rest =>
    let (kept, posted) := sweep currentTime rest
    if t.isDue currentTime then
      let t := t.executedAt currentTime
      if t.singleShot then (kept, t :: posted) else (t :: kept, t :: posted)
    else (t :: kept, posted)

/-- The thread slept for the whole tick. -/
def tick (s : Scheduler α) : Option (Scheduler α) :=
  if s.isStop then none
  else
    let (kept, posted) := sweep s.now s.timedTasks
    some { s with
      timedTasks := kept
      log := s.log ++ posted.map fun t => .posted t.id t.function s.now }

def step (s : Scheduler α) : SchedulerAction α → Option (Scheduler α)
  | .elapse duration => some { s with now := s.now + duration }
  | .create function timeout singleShot => some (s.create function timeout singleShot)
  | .splice index => s.splice index
  | .stopTimer id => some (s.stopTimer id)
  | .tick => s.tick
  | .destroy => some { s with isStop := true, log := s.log ++ [.destroyed] }

/-- The counter does not wrap. -/
def Counts (s : Scheduler α) : SchedulerAction α → Prop
  | .create _ _ _ => s.idCounter + 1 < 2 ^ 32
  | _ => True

/-- It was stopped by someone who knew its id. -/
def StoppedIn (log : List (TimerEvent α)) (id : Nat) : Prop :=
  ∃ before after, log = before ++ .stopped id :: after ∧ .returned id ∈ before

/-- What may be posted: a pushed timer that was not stopped, its timeout after the push and after
each time before, once if it is a single shot, and nothing when the scheduler is gone. -/
def Legit (before : List (TimerEvent α)) : TimerEvent α → Prop
  | .posted id function time =>
    .destroyed ∉ before ∧ ¬ StoppedIn before id ∧
      ∃ timeout singleShot start, .pushed id timeout function singleShot start ∈ before ∧
        start + timeout ≤ time ∧
        ∀ function' time', .posted id function' time' ∈ before →
          singleShot = false ∧ time' + timeout ≤ time
  | _ => True

section Sweep

variable {currentTime : Int} {tasks : List (TimerTask α)} {t : TimerTask α}

theorem sweep_snd : (sweep currentTime tasks).2 =
    (tasks.filter (·.isDue currentTime)).map (·.executedAt currentTime) := by
  induction tasks with
  | nil => rfl
  | cons t rest ih =>
    unfold sweep
    by_cases hdue : t.isDue currentTime = true
    · rw [List.filter_cons_of_pos hdue, List.map_cons, ← ih]
      simp only [hdue, if_true]
      split <;> rfl
    · rw [List.filter_cons_of_neg hdue, ← ih]
      simp only [hdue]
      rfl

/-- What is left of a timer when the thread has looked at it. -/
def swept (currentTime : Int) (t : TimerTask α) : Option (TimerTask α) :=
  if t.isDue currentTime then
    if t.singleShot then none else some (t.executedAt currentTime)
  else some t

theorem sweep_fst : (sweep currentTime tasks).1 = tasks.filterMap (swept currentTime) := by
  induction tasks with
  | nil => rfl
  | cons t rest ih =>
    rw [sweep, List.filterMap_cons, ← ih, swept]
    by_cases hdue : t.isDue currentTime = true
    · cases hsingle : t.singleShot <;> simp [hdue, hsingle, TimerTask.executedAt]
    · simp [hdue]

theorem swept_eq_some {t' : TimerTask α} : swept currentTime t = some t' ↔
    (t.isDue currentTime = false ∧ t' = t) ∨
      (t.isDue currentTime = true ∧ t.singleShot = false ∧ t' = t.executedAt currentTime) := by
  rw [swept, eq_comm]
  by_cases hdue : t.isDue currentTime = true
  · cases hsingle : t.singleShot <;> simp [hdue]
  · simp [hdue]

theorem mem_sweep_fst : t ∈ (sweep currentTime tasks).1 ↔
    ∃ t' ∈ tasks, (t'.isDue currentTime = false ∧ t = t') ∨
      (t'.isDue currentTime = true ∧ t'.singleShot = false ∧ t = t'.executedAt currentTime) := by
  simp only [sweep_fst, List.mem_filterMap, swept_eq_some]

theorem sweep_ids : ((sweep currentTime tasks).1.map (·.id)).Sublist (tasks.map (·.id)) := by
  induction tasks with
  | nil => exact .slnil
  | cons t rest ih =>
    unfold sweep
    by_cases hdue : t.isDue currentTime = true
    · simp only [hdue, if_true]
      split
      · exact ih.cons _
      · exact ih.cons_cons _
    · simp only [hdue]
      exact ih.cons_cons _

end Sweep

end Scheduler

end Icq.Core
