import Mathlib.Data.List.Perm.Basic
import Icq.Lib.Run
import Icq.Wim.SendThread

/-! Where each posted packet is: in a queue, in flight, or reported to its handler. -/

namespace Icq.Wim
open Icq.Lib

def CoreTask.errorHandler? : CoreTask → Option Nat
  | .requireHigherApiVersion errorHandler => some errorHandler
  | .executePacketFromQueue => none

theorem setQueue_queued (t : WimSendThread) (high : Bool) {q : WimPacketsQueue}
    (hq : q.queue = (t.queue high).queue) : (t.setQueue high q).queued = t.queued := by
  cases high <;> simp_all [WimSendThread.setQueue, WimSendThread.queue, WimSendThread.queued]

theorem setQueue_queued_perm (t : WimSendThread) (high : Bool) {q : WimPacketsQueue}
    {task : TaskAndParams} (hq : q.queue.Perm (task :: (t.queue high).queue)) :
    (t.setQueue high q).queued.Perm (task :: t.queued) := by
  cases high with
  | true => exact hq.append_right _
  | false => exact (hq.append_left _).trans List.perm_middle

theorem insertPacketInQueue_queued (t : WimSendThread) (task : TaskAndParams) :
    (t.insertPacketInQueue task).queued.Perm (task :: t.queued) :=
  setQueue_queued_perm t _ (PacketQueue.enqueue_perm _ _ _)

@[simp] theorem setQueue_cancelPacketsTime (t : WimSendThread) (high : Bool)
    (q : WimPacketsQueue) : (t.setQueue high q).cancelPacketsTime = t.cancelPacketsTime := by
  cases high <;> rfl

@[simp] theorem insertPacketInQueue_cancelPacketsTime (t : WimSendThread) (task : TaskAndParams) :
    (t.insertPacketInQueue task).cancelPacketsTime = t.cancelPacketsTime :=
  setQueue_cancelPacketsTime ..

theorem setQueue_queue_perm (t : WimSendThread) (high : Bool) {q : WimPacketsQueue}
    {task : TaskAndParams} (hq : (t.queue high).queue.Perm (task :: q.queue)) :
    t.queued.Perm (task :: (t.setQueue high q).queued) := by
  cases high with
  | true => exact hq.append_right _
  | false => exact (hq.append_left _).trans List.perm_middle

/-- A popped task was queued, and the others still are. -/
theorem popTask_spec {t t' : WimSendThread} {high : Bool} {task : TaskAndParams}
    (h : t.popTask = some (high, task, t')) :
    t.queued.Perm (task :: t'.queued) ∧ t'.cancelPacketsTime = t.cancelPacketsTime := by
  simp only [WimSendThread.popTask] at h
  split at h
  · cases h
  split at h
  · cases h
  obtain ⟨⟨a, q⟩, hpop, he⟩ := Option.map_eq_some_iff.mp h
  simp only [Prod.mk.injEq] at he
  obtain ⟨rfl, rfl, rfl⟩ := he
  exact ⟨setQueue_queue_perm t _ (PacketQueue.pop_perm _ hpop), setQueue_cancelPacketsTime ..⟩

namespace Sending

def queued (s : Sending) : List Nat := s.thread.queued.map TaskAndParams.errorHandler

/-- The executer has the packet, or the core context has the report that it was turned down. -/
def inFlight (s : Sending) : List Nat :=
  s.running.map (·.task.errorHandler) ++ s.coreContext.filterMap CoreTask.errorHandler?

def reported (s : Sending) : List Nat := s.invoked.map Prod.fst

/-- Every posted packet is queued, or in flight, or its handler was invoked once. -/
def Kept (s : Sending) : Prop :=
  ∀ id < s.posted, s.queued.count id + s.inFlight.count id + s.reported.count id = 1

instance (s : Sending) : Decidable s.Kept := by unfold Kept; infer_instance

def held (s : Sending) : List Nat := s.queued ++ (s.inFlight ++ s.reported)

/-- A step posted so many packets, and those with the numbers are held besides what was. -/
structure Adds (ids : List Nat) (posts : Nat) (s s' : Sending) : Prop where
  held : s'.held.Perm (ids ++ s.held)
  posted : s'.posted = s.posted + posts
  now : s'.now = s.now
  cancel : s'.thread.cancelPacketsTime = s.thread.cancelPacketsTime

theorem Adds.refl (s : Sending) : Adds [] 0 s s := ⟨.refl _, rfl, rfl, rfl⟩

theorem Adds.trans {a b : List Nat} {m n : Nat} {s t u : Sending} (h : Adds a m s t)
    (h' : Adds b n t u) : Adds (a ++ b) (m + n) s u where
  held := by
    have hb : (b ++ t.held).Perm (b ++ (a ++ s.held)) := h.held.append_left b
    refine (h'.held.trans hb).trans ?_
    simp only [← List.append_assoc]
    exact List.perm_append_comm.append_right _
  posted := by rw [h'.posted, h.posted, Nat.add_assoc]
  now := h'.now.trans h.now
  cancel := h'.cancel.trans h.cancel

theorem start_adds {s : Sending} {t : WimSendThread} {high : Bool} {task : TaskAndParams}
    (h : s.thread.popTask = some (high, task, t)) : Adds [] 0 s (s.start task high t) where
  held := by
    have hq := (popTask_spec h).1.map TaskAndParams.errorHandler
    have hs : s.held.Perm ((task :: t.queued).map TaskAndParams.errorHandler ++
        (s.inFlight ++ s.reported)) := hq.append_right _
    have hr : (s.start task high t).inFlight.Perm (task.errorHandler :: s.inFlight) := by
      simp only [inFlight, start, List.map_append, List.map_cons, List.map_nil,
        List.append_assoc, List.cons_append, List.nil_append]
      exact List.perm_middle
    refine .trans ?_ hs.symm
    exact ((hr.append_right s.reported).append_left _).trans List.perm_middle
  posted := rfl
  now := rfl
  cancel := (popTask_spec h).2

theorem executeFromQueue_adds (left : Nat) (s : Sending) :
    Adds [] 0 s (executeFromQueue left s) := by
  induction left generalizing s with
  | zero => exact Adds.refl s
  | succ left ih =>
    simp only [executeFromQueue]
    split
    · exact Adds.refl s
    · exact (start_adds ‹_›).trans (ih _)

theorem executePacketFromQueue_adds (s : Sending) : Adds [] 0 s s.executePacketFromQueue :=
  executeFromQueue_adds _ s

theorem insert_held (s : Sending) (task : TaskAndParams) :
    (held { s with thread := s.thread.insertPacketInQueue task }).Perm
      (task.errorHandler :: s.held) :=
  ((insertPacketInQueue_queued s.thread task).map TaskAndParams.errorHandler).append_right _

/-- Posts are turned away. -/
def limited (s : Sending) : Bool := decide (s.now < s.thread.cancelPacketsTime)

end Sending

def Call.posts : Call → Nat
  | .postPacket _ _ => 1
  | _ => 0

/-- A packet that the server would take is posted. -/
def Call.supported : Call → Bool
  | .postPacket packet preferred => packet.supportsCurrentApiVersion preferred
  | _ => false

/-- The numbers of the posts that are not dropped, counted from the given one. -/
def fresh (limited : Bool) (next : Nat) : List Call → List Nat
  | [] => []
  | call :: calls =>
    (if limited && call.supported then [] else (List.range' next call.posts)) ++
      fresh limited (next + call.posts) calls

def posts (calls : List Call) : Nat := (calls.map Call.posts).sum

theorem fresh_of_clear {limited : Bool} {calls : List Call} (next : Nat)
    (h : ∀ call ∈ calls, (limited && call.supported) = false) :
    fresh limited next calls = List.range' next (posts calls) := by
  induction calls generalizing next with
  | nil => rfl
  | cons call calls ih =>
    simp only [fresh, h call List.mem_cons_self, ih _ fun c hc => h c (List.mem_cons_of_mem _ hc),
      posts, List.map_cons, List.sum_cons, Bool.false_eq_true, if_false]
    exact List.range'_append_1 ..

theorem fresh_length_le (limited : Bool) (next : Nat) (calls : List Call) :
    (fresh limited next calls).length ≤ posts calls := by
  induction calls generalizing next with
  | nil => exact Nat.le_refl 0
  | cons call calls ih =>
    have hr := ih (next + call.posts)
    simp only [fresh, posts, List.map_cons, List.sum_cons, List.length_append]
    unfold posts at hr
    split <;> simp only [List.length_nil, List.length_range'] <;> omega

/-- A dropped post leaves no number behind. -/
theorem fresh_length_lt {limited : Bool} {calls : List Call} (next : Nat) {call : Call}
    (hc : call ∈ calls) (h : (limited && call.supported) = true) :
    (fresh limited next calls).length < posts calls := by
  induction calls generalizing next with
  | nil => cases hc
  | cons head calls ih =>
    simp only [fresh, posts, List.map_cons, List.sum_cons, List.length_append]
    rcases List.mem_cons.mp hc with rfl | hc
    · have hr := fresh_length_le limited (next + call.posts) calls
      have hp : call.posts = 1 := by
        cases call with
        | postPacket => rfl
        | _ => simp [Call.supported] at h
      simp only [h, if_true, List.length_nil]
      unfold posts at hr
      omega
    · have hr := ih (next + head.posts) hc
      unfold posts at hr
      split <;> simp only [List.length_nil, List.length_range'] <;> omega

namespace Sending

theorem Adds.limited {ids : List Nat} {n : Nat} {s s' : Sending} (h : Adds ids n s s') :
    s'.limited = s.limited := by simp [Sending.limited, h.now, h.cancel]

theorem coreContext_held (s : Sending) (task : CoreTask) :
    (held { s with coreContext := s.coreContext ++ [task] }).Perm
      (task.errorHandler?.toList ++ s.held) := by
  have hf : (inFlight { s with coreContext := s.coreContext ++ [task] }).Perm
      (task.errorHandler?.toList ++ s.inFlight) := by
    have he : [task].filterMap CoreTask.errorHandler? = task.errorHandler?.toList := by
      cases task <;> rfl
    simp only [inFlight, List.filterMap_append, he]
    rw [← List.append_assoc]
    exact List.perm_append_comm
  have hq : ∀ l : List Nat, (s.queued ++ (l ++ s.inFlight ++ s.reported)).Perm
      (l ++ s.held) := fun l => by
    simp only [held, List.append_assoc]
    exact List.perm_append_comm_assoc ..
  exact ((hf.append_right s.reported).append_left s.queued).trans (hq _)

/-- A post adds its packet, unless it is dropped. -/
theorem postPacket_adds (s : Sending) (packet : WimPacket) (preferred : Int32) :
    Adds (if s.limited && packet.supportsCurrentApiVersion preferred then [] else [s.posted]) 1 s
      (s.postPacket packet preferred) := by
  have hcore (task : CoreTask) : Adds task.errorHandler?.toList 1 s
      { s with posted := s.posted + 1, coreContext := s.coreContext ++ [task] } :=
    ⟨coreContext_held s task, rfl, rfl, rfl⟩
  unfold postPacket
  cases hv : packet.supportsCurrentApiVersion preferred with
  | false =>
    rw [Bool.and_false]
    exact hcore (.requireHigherApiVersion s.posted)
  | true =>
    by_cases hl : s.now < s.thread.cancelPacketsTime
    · simp only [limited, hl, decide_true, Bool.and_true, if_true, Bool.not_true,
        Bool.false_eq_true, if_false]
      exact hcore .executePacketFromQueue
    · simp only [limited, hl, decide_false, Bool.and_true, if_false, Bool.not_true,
        Bool.false_eq_true]
      have hi : Adds [s.posted] 1 s { s with
          posted := s.posted + 1
          thread := s.thread.insertPacketInQueue ⟨packet, s.posted⟩ } :=
        ⟨insert_held s _, rfl, rfl, insertPacketInQueue_cancelPacketsTime ..⟩
      exact hi.trans (executePacketFromQueue_adds _)

theorem perform_adds (s : Sending) (call : Call) :
    Adds (if s.limited && call.supported then [] else List.range' s.posted call.posts) call.posts s
      (s.perform call) := by
  cases call with
  | postPacket packet preferred => exact postPacket_adds s packet preferred
  | lock =>
    rw [show Call.lock.supported = false from rfl, Bool.and_false]
    exact ⟨.refl _, rfl, rfl, rfl⟩
  | unlockAndExecuteQueued =>
    rw [show Call.unlockAndExecuteQueued.supported = false from rfl, Bool.and_false]
    have hu : Adds [] 0 s { s with thread := { s.thread with isSendingLocked := false } } :=
      ⟨.refl _, rfl, rfl, rfl⟩
    exact hu.trans (executePacketFromQueue_adds _)

theorem foldl_perform_adds (s : Sending) (calls : List Call) :
    Adds (fresh s.limited s.posted calls) (posts calls) s (calls.foldl perform s) := by
  induction calls generalizing s with
  | nil => exact Adds.refl s
  | cons call calls ih =>
    have h := perform_adds s call
    have hr := ih (s.perform call)
    rw [h.limited, h.posted] at hr
    exact h.trans hr

/-- The calls an action makes, from outside or from the handler it invokes. -/
def calls (s : Sending) : Action → List Call
  | .call call => [call]
  | .complete index error isStopped calls =>
    match s.running[index]? with
    | some r => if s.repeats r.task error isStopped then [] else calls
    | none => []
  | .runCore calls =>
    match s.coreContext with
    | .requireHigherApiVersion _ :: _ => calls
    | _ => []
  | .pass _ => []

/-- Until when the calls of an action are turned away. -/
def cancelTime (s : Sending) : Action → Nat
  | .complete _ error _ _ => s.cancelTimeAfter error
  | _ => s.thread.cancelPacketsTime

/-- No packet that the server would take is posted while posts are turned away. -/
def Clear (s : Sending) (action : Action) : Prop :=
  s.now < s.cancelTime action → ∀ call ∈ s.calls action, call.supported = false

/-- What a step does to the packets that are held. -/
structure Moves (s s' : Sending) (limited : Bool) (calls : List Call) : Prop where
  held : s'.held.Perm (fresh limited s.posted calls ++ s.held)
  posted : s'.posted = s.posted + posts calls

theorem release_adds (s : Sending) (r : Running) : Adds [] 0 s (s.release r) := by
  have hq : (s.thread.setQueue r.high ((s.thread.queue r.high).allowUsing r.task.key)).queued =
      s.thread.queued := setQueue_queued _ _ rfl
  have ha : Adds [] 0 s { s with
      thread := s.thread.setQueue r.high ((s.thread.queue r.high).allowUsing r.task.key) } :=
    ⟨by simp [held, queued, hq, inFlight, reported], rfl, rfl, setQueue_cancelPacketsTime ..⟩
  exact ha.trans (executePacketFromQueue_adds _)

theorem reported_held (s : Sending) (errorHandler : Nat) (error : Int32) :
    (held { s with invoked := s.invoked ++ [(errorHandler, error)] }).Perm
      (errorHandler :: s.held) := by
  simp only [held, queued, inFlight, reported, List.map_append, List.map_cons, List.map_nil,
    ← List.append_assoc]
  exact List.perm_append_singleton ..

/-- The packet leaves the executer, to be queued again or reported. -/
theorem eraseIdx_held {s : Sending} {index : Nat} {r : Running}
    (h : s.running[index]? = some r) :
    s.held.Perm (r.task.errorHandler :: held { s with running := s.running.eraseIdx index }) := by
  have hr : s.running.Perm (r :: s.running.eraseIdx index) := by
    obtain ⟨hi, rfl⟩ := List.getElem?_eq_some_iff.mp h
    exact (List.getElem_cons_eraseIdx_perm hi).symm
  have hm := ((hr.map (·.task.errorHandler)).append_right
    (s.coreContext.filterMap CoreTask.errorHandler?)).append_right s.reported
  exact (hm.append_left s.queued).trans List.perm_middle

theorem Adds.moves {s s' : Sending} {limited : Bool} {calls : List Call}
    (h : Adds (fresh limited s.posted calls) (posts calls) s s') : Moves s s' limited calls :=
  ⟨h.held, h.posted⟩

/-- The handler of a held packet runs: the packet is reported, and the calls are made. -/
theorem invoke_moves {s : Sending} (s' : Sending) (errorHandler : Nat) (error : Int32) (calls : List Call)
    (hs : s.held.Perm (errorHandler :: s'.held)) (hp : s'.posted = s.posted) :
    Moves s (s'.invoke errorHandler error calls) s'.limited calls := by
  have ha := foldl_perform_adds { s' with invoked := s'.invoked ++ [(errorHandler, error)] } calls
  have hi : (held { s' with invoked := s'.invoked ++ [(errorHandler, error)] }).Perm s.held :=
    (reported_held s' errorHandler error).trans hs.symm
  exact ⟨hp ▸ ha.held.trans (hi.append_left _), hp ▸ ha.posted⟩

theorem Moves.adds {s s' s'' : Sending} {limited : Bool} {calls : List Call}
    (h : Moves s s' limited calls) (h' : Adds [] 0 s' s'') : Moves s s'' limited calls :=
  ⟨h'.held.trans h.held, h'.posted.trans h.posted⟩

theorem onResult_moves {s : Sending} {index : Nat} {r : Running} (error : Int32)
    (isStopped : Bool) (calls : List Call) (hr : s.running[index]? = some r) :
    Moves s (onResult { s with running := s.running.eraseIdx index } r error isStopped calls)
      (decide (s.now < s.cancelTimeAfter error))
      (if s.repeats r.task error isStopped then [] else calls) := by
  have hs := eraseIdx_held hr
  unfold onResult
  by_cases hrep : s.repeats r.task error isStopped = true
  · have hrep' : repeats { s with running := s.running.eraseIdx index } r.task error isStopped =
      true := hrep
    rw [if_pos hrep, if_pos hrep']
    exact Moves.adds ⟨(insert_held _ _).trans hs.symm, rfl⟩ (release_adds _ r)
  · have hrep' : ¬ repeats { s with running := s.running.eraseIdx index } r.task error isStopped =
      true := hrep
    rw [if_neg hrep, if_neg hrep']
    let s' := { s with
      running := s.running.eraseIdx index
      thread := { s.thread with cancelPacketsTime := s.cancelTimeAfter error } }
    exact (invoke_moves s' _ error calls hs rfl).adds (release_adds _ r)

theorem step_moves {s s' : Sending} {action : Action} (h : s.step action = some s') :
    Moves s s' (decide (s.now < s.cancelTime action)) (s.calls action) := by
  cases action with
  | call call =>
    obtain rfl := Option.some.inj h
    exact (foldl_perform_adds s [call]).moves
  | complete index error isStopped calls =>
    obtain ⟨r, hr, rfl⟩ := Option.map_eq_some_iff.mp h
    have hcalls : s.calls (.complete index error isStopped calls) =
        if s.repeats r.task error isStopped then [] else calls := by simp [Sending.calls, hr]
    rw [hcalls]
    exact onResult_moves error isStopped calls hr
  | runCore calls =>
    cases hc : s.coreContext with
    | nil => simp [step, hc] at h
    | cons task rest =>
      cases task with
      | executePacketFromQueue =>
        simp only [step, hc, Option.some.injEq] at h
        subst h
        simp only [Sending.calls, hc]
        have hi : s.inFlight = inFlight { s with coreContext := rest } := by
          rw [inFlight, hc, List.filterMap_cons_none rfl, inFlight]
        have ha : Adds [] 0 s { s with coreContext := rest } :=
          ⟨.of_eq (by rw [held, held, hi]; rfl), rfl, rfl, rfl⟩
        exact Moves.adds ⟨.refl _, rfl⟩ (ha.trans (executePacketFromQueue_adds _))
      | requireHigherApiVersion errorHandler =>
        simp only [step, hc, Option.some.injEq] at h
        subst h
        simp only [Sending.calls, hc]
        refine invoke_moves _ errorHandler _ calls ?_ rfl
        simp only [held, queued, inFlight, reported, hc, CoreTask.errorHandler?,
          List.filterMap_cons]
        exact (((List.perm_middle).append_right _).append_left _).trans List.perm_middle
  | pass time =>
    obtain rfl := Option.some.inj h
    exact ⟨.refl _, rfl⟩

theorem kept_of_held {s : Sending} (h : s.held.Perm (List.range s.posted)) : s.Kept := by
  intro id hid
  have hc : s.held.count id = 1 := by
    rw [h.count_eq]
    exact List.count_eq_one_of_mem List.nodup_range (List.mem_range.mpr hid)
  simpa only [held, List.count_append, Nat.add_assoc] using hc

theorem Moves.held_of_clear {s s' : Sending} {limited : Bool} {calls : List Call}
    (hm : Moves s s' limited calls) (hs : s.held.Perm (List.range s.posted))
    (hclear : ∀ call ∈ calls, (limited && call.supported) = false) :
    s'.held.Perm (List.range s'.posted) := by
  have hf : fresh limited s.posted calls = List.range' s.posted (posts calls) :=
    fresh_of_clear s.posted hclear
  rw [hm.posted, List.range_add, ← List.range'_eq_map_range]
  exact (hf ▸ hm.held).trans ((hs.append_left _).trans List.perm_append_comm)

theorem Kept.posted_le {s : Sending} (h : s.Kept) : s.posted ≤ s.held.length := by
  have hsub : List.range s.posted ⊆ s.held := by
    intro id hid
    have hc := h id (List.mem_range.mp hid)
    apply List.count_pos_iff.mp
    simp only [held, List.count_append]
    omega
  simpa using (List.subperm_of_subset List.nodup_range hsub).length_le

/-- A clear step keeps each number held once, and no other step does. -/
theorem Moves.kept_iff {s s' : Sending} {limited : Bool} {calls : List Call}
    (hm : Moves s s' limited calls) (hs : s.held.Perm (List.range s.posted)) :
    s'.Kept ↔ ∀ call ∈ calls, (limited && call.supported) = false := by
  constructor
  · intro hk call hc
    by_contra hdropped
    have hlt := fresh_length_lt s.posted hc (by simpa using hdropped)
    have hle := hk.posted_le
    rw [hm.held.length_eq, hm.posted, List.length_append, hs.length_eq, List.length_range] at hle
    omega
  · intro hclear
    exact kept_of_held (hm.held_of_clear hs hclear)

theorem step_kept_iff {s s' : Sending} {action : Action} (hs : s.held.Perm (List.range s.posted))
    (h : s.step action = some s') : s'.Kept ↔ s.Clear action := by
  rw [(step_moves h).kept_iff hs, Clear]
  by_cases hl : s.now < s.cancelTime action <;> simp [hl]

/-- Before the first post; the limits of the queues and the repeats of packets are any. -/
def idle (highLimit lowLimit : Nat) (repeatCount : Nat → UInt32) (now : Nat) : Sending :=
  { thread := { highPriorityQueue := { limit := highLimit }, lowPriorityQueue := { limit := lowLimit } }
    repeatCount, now }

theorem run_held {highLimit lowLimit now : Nat} {repeatCount : Nat → UInt32} {s : Sending}
    (h : Run step Clear (idle highLimit lowLimit repeatCount now) s) :
    s.held.Perm (List.range s.posted) := by
  have keep {t t' : Sending} {action : Action} (ht : t.held.Perm (List.range t.posted))
      (hclear : t.Clear action) (hstep : t.step action = some t') :
      t'.held.Perm (List.range t'.posted) :=
    (step_moves hstep).held_of_clear ht fun call hc => by
      simpa using fun hl => hclear hl call hc
  exact h.invariant (P := fun t => t.held.Perm (List.range t.posted)) (List.Perm.refl []) keep

/-- While every step is clear each posted packet is kept, and the first step that is not drops
one. -/
theorem posted_kept_iff {highLimit lowLimit now : Nat} {repeatCount : Nat → UInt32} {s : Sending}
    (h : Run step Clear (idle highLimit lowLimit repeatCount now) s) :
    s.Kept ∧ ∀ action s', s.step action = some s' → (s'.Kept ↔ s.Clear action) :=
  ⟨kept_of_held (run_held h), fun _ _ => step_kept_iff (run_held h)⟩

def fetchPacket : WimPacket := ⟨0, [102, 101, 116, 99, 104], 0, 0⟩

theorem posted_kept_iff_fetch :
    (perform (idle 1 1 (fun _ => 0) 0) (.postPacket fetchPacket 1)).Kept ∧
      ∀ action s', (perform (idle 1 1 (fun _ => 0) 0) (.postPacket fetchPacket 1)).step action =
        some s' → (s'.Kept ↔
          (perform (idle 1 1 (fun _ => 0) 0) (.postPacket fetchPacket 1)).Clear action) :=
  posted_kept_iff (.step (.call (.postPacket fetchPacket 1)) .start
    (fun hl => absurd hl (by decide)) rfl)

/-- The first packet comes back with a rate limit; the one posted next is nowhere. -/
theorem rate_limited_post_dropped :
    ¬ ∀ s, Run step (fun _ _ => True) (idle 1 1 (fun _ => 0) 0) s → s.Kept := by
  intro h
  have hs := h _ (.step (.call (.postPacket fetchPacket 1))
    (.step (.complete 0 wpieErrorTooFastSending false [])
      (.step (.call (.postPacket fetchPacket 1)) .start trivial rfl) trivial rfl) trivial rfl)
  exact absurd (hs 1 (by decide)) (by decide)

end Sending

end Icq.Wim
