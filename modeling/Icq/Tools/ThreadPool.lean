import Icq.Lib.Run
import Icq.Lib.Slots

/-! A pool of threads that take tasks from one queue under one mutex. What a thread does is split
wherever another thread can come between. -/

namespace Icq.Tools

structure PoolTask (α : Type) where
  action : Option α
  id : Int64 := -1

def PoolTask.hasAction {α : Type} (t : PoolTask α) : Bool := t.action.isSome

/-- The first task with the id goes to the front; one that has no action is dropped. -/
def raiseTask {α : Type} (id : Int64) (tasks : List (PoolTask α)) : List (PoolTask α) :=
  if id = -1 then tasks
  else if tasks.length ≤ 1 then tasks
  else if tasks.head?.any fun t => t.id = id then tasks
  else match tasks.find? fun t => t.id = id with
    | none => tasks
    | some tmp =>
      let rest := tasks.eraseP fun t => t.id = id
      if tmp.hasAction then tmp :: rest else rest

inductive Worker (α : Type) where
  /-- About to lock the mutex of the queue. -/
  | idle
  | waiting
  | running (task : PoolTask α)
  | exited

/-- Who stands inside the mutex: a thread that found nothing to do and is about to wait, or one
that found `stop_` unset and is about to put its task into the queue. -/
inductive Holder (α : Type) where
  | tested (worker : Nat)
  | pushing (task : PoolTask α) (front : Bool)

/-- A task that is over, and whether it was cancelled before it began. -/
structure DoneTask (α : Type) where
  task : PoolTask α
  cancelled : Bool

/-- The pool, with what was accepted, taken and done so far. -/
structure ThreadPool (α : Type) where
  tasks : List (PoolTask α) := []
  stop : Bool := false
  workers : List (Worker α)
  holder : Option (Holder α) := none
  /-- Pushes that have left the mutex and not notified yet. -/
  notifies : Nat := 0
  joining : Bool := false
  accepted : List (PoolTask α) := []
  taken : List (PoolTask α) := []
  done : List (DoneTask α) := []

inductive PoolAction (α : Type) where
  | lockToPush (task : PoolTask α) (front : Bool)
  | emplace
  | notifyOne (worker : Nat)
  | raiseTask (id : Int64)
  | test (worker : Nat)
  | wait
  | wake (worker : Nat)
  | finish (worker : Nat) (cancelled : Bool)
  | setStop
  | notifyAll

def Worker.isWaiting {α : Type} : Worker α → Bool
  | .waiting => true
  | _ => false

def Worker.isAwake {α : Type} : Worker α → Bool
  | .idle => true
  | .running _ => true
  | _ => false

def Worker.task? {α : Type} : Worker α → Option (PoolTask α)
  | .running task => some task
  | _ => none

def Worker.woken {α : Type} : Worker α → Worker α
  | .waiting => .idle
  | w => w

namespace ThreadPool

variable {α : Type}

def start (count : Nat) : ThreadPool α := { workers := List.replicate count .idle }

/-- `push_back` and `push_front` up to the test of `stop_`: a stopped pool refuses the task. -/
def lockToPush (s : ThreadPool α) (task : PoolTask α) (front : Bool) : Option (ThreadPool α) :=
  if s.holder.isSome then none
  else if s.stop then some s
  else some { s with holder := some (.pushing task front) }

def emplace (s : ThreadPool α) : Option (ThreadPool α) :=
  match s.holder with
  | some (.pushing task front) =>
    some { s with
      holder := none
      tasks := if front then task :: s.tasks else s.tasks ++ [task]
      notifies := s.notifies + 1
      accepted := s.accepted ++ [task] }
  | _ => none

/-- Any one of the threads that wait is woken, if there is one. -/
def notifyOne (s : ThreadPool α) (worker : Nat) : Option (ThreadPool α) :=
  if s.notifies = 0 then none
  else if s.workers.any Worker.isWaiting then
    match s.workers[worker]? with
    | some .waiting =>
      some { s with notifies := s.notifies - 1, workers := s.workers.set worker .idle }
    | _ => none
  else some { s with notifies := s.notifies - 1 }

def raise (s : ThreadPool α) (id : Int64) : Option (ThreadPool α) :=
  if s.holder.isSome then none else some { s with tasks := raiseTask id s.tasks }

/-- `run_task_impl` inside the mutex: the thread is to wait, leaves, or takes the first task. -/
def test (s : ThreadPool α) (worker : Nat) : Option (ThreadPool α) :=
  if s.holder.isSome then none
  else match s.workers[worker]? with
  | some .idle =>
    match s.tasks with
    | [] =>
      if s.stop then some { s with workers := s.workers.set worker .exited }
      else some { s with holder := some (.tested worker) }
    | task :: rest =>
      some { s with
        tasks := rest
        workers := s.workers.set worker (.running task)
        taken := s.taken ++ [task] }
  | _ => none

/-- The thread gives the mutex back and waits, in one step. -/
def wait (s : ThreadPool α) : Option (ThreadPool α) :=
  match s.holder with
  | some (.tested worker) =>
    some { s with holder := none, workers := s.workers.set worker .waiting }
  | _ => none

/-- A thread may also wake when nobody notified it. -/
def wake (s : ThreadPool α) (worker : Nat) : Option (ThreadPool α) :=
  match s.workers[worker]? with
  | some .waiting => some { s with workers := s.workers.set worker .idle }
  | _ => none

def finish (s : ThreadPool α) (worker : Nat) (cancelled : Bool) : Option (ThreadPool α) :=
  match s.workers[worker]? with
  | some (.running task) =>
    some { s with
      workers := s.workers.set worker .idle
      done := s.done ++ [{ task, cancelled }] }
  | _ => none

/-- The destructor stores `stop_` without the mutex. -/
def setStop (s : ThreadPool α) : Option (ThreadPool α) :=
  if s.stop then none else some { s with stop := true }

def notifyAll (s : ThreadPool α) : Option (ThreadPool α) :=
  if s.stop && !s.joining then
    some { s with joining := true, workers := s.workers.map Worker.woken }
  else none

def step (s : ThreadPool α) : PoolAction α → Option (ThreadPool α)
  | .lockToPush task front => s.lockToPush task front
  | .emplace => s.emplace
  | .notifyOne worker => s.notifyOne worker
  | .raiseTask id => s.raise id
  | .test worker => s.test worker
  | .wait => s.wait
  | .wake worker => s.wake worker
  | .finish worker cancelled => s.finish worker cancelled
  | .setStop => s.setStop
  | .notifyAll => s.notifyAll

/-- The tasks that threads are at. -/
def running (s : ThreadPool α) : List (PoolTask α) := s.workers.filterMap Worker.task?

/-- The actions that were executed: those of the tasks that were not cancelled and have one. -/
def executed (s : ThreadPool α) : List α :=
  s.done.filterMap fun d => if d.cancelled then none else d.task.action

section Steps

variable {s s' : ThreadPool α} {worker : Nat}

theorem lockToPush_cases {task : PoolTask α} {front : Bool} (h : s.lockToPush task front = some s') :
    s.holder = none ∧ (s.stop = true ∧ s' = s ∨
      s.stop = false ∧ s' = { s with holder := some (.pushing task front) }) := by
  unfold lockToPush at h
  split at h
  · cases h
  · rename_i hholder
    refine ⟨by simpa using hholder, ?_⟩
    split at h
    · rename_i hstop
      exact .inl ⟨hstop, (Option.some.inj h).symm⟩
    · rename_i hstop
      exact .inr ⟨by simpa using hstop, (Option.some.inj h).symm⟩

theorem emplace_cases (h : s.emplace = some s') :
    ∃ task front, s.holder = some (.pushing task front) ∧
      s' = { s with
        holder := none
        tasks := if front then task :: s.tasks else s.tasks ++ [task]
        notifies := s.notifies + 1
        accepted := s.accepted ++ [task] } := by
  unfold emplace at h
  split at h
  · rename_i task front hholder
    exact ⟨task, front, hholder, (Option.some.inj h).symm⟩
  · cases h

theorem notifyOne_cases (h : s.notifyOne worker = some s') :
    0 < s.notifies ∧
      (s.workers[worker]? = some .waiting ∧
          s' = { s with notifies := s.notifies - 1, workers := s.workers.set worker .idle } ∨
        (∀ w ∈ s.workers, w.isWaiting = false) ∧ s' = { s with notifies := s.notifies - 1 }) := by
  unfold notifyOne at h
  split at h
  · cases h
  · rename_i hpos
    refine ⟨Nat.pos_of_ne_zero hpos, ?_⟩
    split at h
    · split at h
      · rename_i hworker
        exact .inl ⟨hworker, (Option.some.inj h).symm⟩
      · cases h
    · rename_i hnone
      exact .inr ⟨by simpa using hnone, (Option.some.inj h).symm⟩

theorem raise_cases {id : Int64} (h : s.raise id = some s') :
    s.holder = none ∧ s' = { s with tasks := raiseTask id s.tasks } := by
  unfold raise at h
  split at h
  · cases h
  · rename_i hholder
    exact ⟨by simpa using hholder, (Option.some.inj h).symm⟩

theorem test_cases (h : s.test worker = some s') :
    s.holder = none ∧ s.workers[worker]? = some .idle ∧
      (s.tasks = [] ∧ s.stop = true ∧ s' = { s with workers := s.workers.set worker .exited } ∨
        s.tasks = [] ∧ s.stop = false ∧ s' = { s with holder := some (.tested worker) } ∨
        ∃ task rest, s.tasks = task :: rest ∧
          s' = { s with
            tasks := rest
            workers := s.workers.set worker (.running task)
            taken := s.taken ++ [task] }) := by
  unfold test at h
  split at h
  · cases h
  · rename_i hholder
    split at h
    · rename_i hworker
      refine ⟨by simpa using hholder, hworker, ?_⟩
      split at h
      · rename_i htasks
        split at h
        · rename_i hstop
          exact .inl ⟨htasks, hstop, (Option.some.inj h).symm⟩
        · rename_i hstop
          exact .inr (.inl ⟨htasks, by simpa using hstop, (Option.some.inj h).symm⟩)
      · rename_i task rest htasks
        exact .inr (.inr ⟨task, rest, htasks, (Option.some.inj h).symm⟩)
    · cases h

theorem wait_cases (h : s.wait = some s') :
    ∃ i, s.holder = some (.tested i) ∧
      s' = { s with holder := none, workers := s.workers.set i .waiting } := by
  unfold wait at h
  split at h
  · rename_i i hholder
    exact ⟨i, hholder, (Option.some.inj h).symm⟩
  · cases h

theorem wake_cases (h : s.wake worker = some s') :
    s.workers[worker]? = some .waiting ∧
      s' = { s with workers := s.workers.set worker .idle } := by
  unfold wake at h
  split at h
  · rename_i hworker
    exact ⟨hworker, (Option.some.inj h).symm⟩
  · cases h

theorem finish_cases {cancelled : Bool} (h : s.finish worker cancelled = some s') :
    ∃ task, s.workers[worker]? = some (.running task) ∧
      s' = { s with
        workers := s.workers.set worker .idle
        done := s.done ++ [{ task, cancelled }] } := by
  unfold finish at h
  split at h
  · rename_i task hworker
    exact ⟨task, hworker, (Option.some.inj h).symm⟩
  · cases h

theorem setStop_cases (h : s.setStop = some s') :
    s.stop = false ∧ s' = { s with stop := true } := by
  unfold setStop at h
  split at h
  · cases h
  · rename_i hstop
    exact ⟨by simpa using hstop, (Option.some.inj h).symm⟩

theorem notifyAll_cases (h : s.notifyAll = some s') :
    s.stop = true ∧ s.joining = false ∧
      s' = { s with joining := true, workers := s.workers.map Worker.woken } := by
  unfold notifyAll at h
  split at h
  · rename_i hcond
    obtain ⟨hstop, hjoining⟩ := Bool.and_eq_true_iff.mp hcond
    exact ⟨hstop, by simpa using hjoining, (Option.some.inj h).symm⟩
  · cases h

end Steps

end ThreadPool

end Icq.Tools
