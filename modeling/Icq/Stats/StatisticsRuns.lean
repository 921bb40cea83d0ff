import Icq.Stats.Statistics
import Mathlib.Data.List.Basic
import Mathlib.Data.List.Nodup
import Mathlib.Data.List.Perm.Lattice

namespace Icq.Stats
open Icq.Lib

namespace Statistics

variable {s : Statistics} {event e : Nat}

@[simp] theorem increment_length : (s.incrementSendNumAttempts event).objects.length = s.objects.length :=
  List.length_modify ..

theorem lt_of_tried (h : 0 < s.numAttemptsToSend e) : e < s.objects.length := by
  by_contra hge
  rw [numAttemptsToSend, List.getElem?_eq_none (Nat.le_of_not_lt hge)] at h
  exact Nat.lt_irrefl 0 h

theorem numAttempts_of_objects {s' : Statistics} (h : s'.objects = s.objects) (e : Nat) :
    s'.numAttemptsToSend e = s.numAttemptsToSend e := by
  rw [numAttemptsToSend, h, numAttemptsToSend]

theorem numAttempts_of_append {s' : Statistics} {more : List StatsEvent}
    (h : s'.objects = s.objects ++ more) (he : e < s.objects.length) :
    s'.numAttemptsToSend e = s.numAttemptsToSend e := by
  rw [numAttemptsToSend, h, List.getElem?_append_left he, numAttemptsToSend]

theorem numAttempts_increment_of_ne (h : e ≠ event) :
    (s.incrementSendNumAttempts event).numAttemptsToSend e = s.numAttemptsToSend e := by
  rw [numAttemptsToSend, numAttemptsToSend, incrementSendNumAttempts, List.getElem?_modify_ne _ _ h.symm]

theorem numAttempts_le_increment :
    s.numAttemptsToSend e ≤ (s.incrementSendNumAttempts event).numAttemptsToSend e := by
  by_cases h : e = event
  · subst h
    rw [numAttemptsToSend, numAttemptsToSend, incrementSendNumAttempts, List.getElem?_modify_eq]
    cases s.objects[e]? with
    | none => exact Nat.le_refl _
    | some _ => exact Nat.le_succ _
  · exact (numAttempts_increment_of_ne h).ge

@[simp] theorem mem_eraseEvent :
    e ∈ (s.eraseEvent event).eventsForMytracker ↔ e ∈ s.eventsForMytracker ∧ e ≠ event := by
  rw [eraseEvent, List.mem_filter, decide_eq_true_eq]

theorem foldl_eraseEvent (events : List Nat) :
    (events.foldl eraseEvent s).objects = s.objects ∧
    (events.foldl eraseEvent s).eventsForMytracker.Sublist s.eventsForMytracker ∧
    ∀ e ∈ events, e ∉ (events.foldl eraseEvent s).eventsForMytracker := by
  induction events generalizing s with
  | nil => exact ⟨rfl, .refl _, fun _ h => absurd h List.not_mem_nil⟩
  | cons first rest ih =>
    obtain ⟨hobjects, hsub, hout⟩ := ih (s := s.eraseEvent first)
    refine ⟨hobjects, hsub.trans List.filter_sublist, fun e he hmem => ?_⟩
    rcases List.mem_cons.mp he with rfl | he
    · exact (mem_eraseEvent.mp (hsub.subset hmem)).2 rfl
    · exact hout e he hmem

/-- The events answered with 200, and perhaps one more that was not. -/
theorem resendEvents_split (post : Nat → Int64) (s : Statistics) (events : List Nat) :
    ∃ done failed rest, events = done ++ failed ++ rest ∧ (∀ e ∈ done, post e = 200) ∧
      (∀ e ∈ failed, post e ≠ 200) ∧
      s.resendEvents post events = (failed.foldl incrementSendNumAttempts s, done.length,
        (done ++ failed).map fun e => ⟨e, post e⟩) := by
  induction events with
  | nil => exact ⟨[], [], [], rfl, by simp, by simp, rfl⟩
  | cons event events ih =>
    by_cases h : 200 = post event
    · obtain ⟨done, failed, rest, rfl, hdone, hfailed, heq⟩ := ih
      refine ⟨event :: done, failed, rest, rfl, ?_, hfailed, ?_⟩
      · exact List.forall_mem_cons.mpr ⟨h.symm, hdone⟩
      · rw [resendEvents, if_pos h, heq]
        rfl
    · refine ⟨[], [event], events, rfl, by simp, ?_, ?_⟩
      · exact List.forall_mem_singleton.mpr fun h' => h h'.symm
      · rw [resendEvents, if_neg h]
        rfl

theorem foldl_increment (events : List Nat) :
    (events.foldl incrementSendNumAttempts s).objects.length = s.objects.length ∧
    (events.foldl incrementSendNumAttempts s).eventsForMytracker = s.eventsForMytracker ∧
    (∀ e, s.numAttemptsToSend e ≤ (events.foldl incrementSendNumAttempts s).numAttemptsToSend e) ∧
    ∀ e, e ∉ events →
      (events.foldl incrementSendNumAttempts s).numAttemptsToSend e = s.numAttemptsToSend e := by
  induction events generalizing s with
  | nil => exact ⟨rfl, rfl, fun _ => Nat.le_refl _, fun _ _ => rfl⟩
  | cons first rest ih =>
    obtain ⟨hlen, hevents, hle, heq⟩ := ih (s := s.incrementSendNumAttempts first)
    refine ⟨hlen.trans increment_length, hevents, fun e => ?_, fun e he => ?_⟩
    · exact numAttempts_le_increment.trans (hle e)
    · obtain ⟨hne, hrest⟩ := not_or.mp (List.mem_cons.not.mp he)
      exact (heq e hrest).trans (numAttempts_increment_of_ne hne)

/-- What inserting an event can do: nothing, or a new event at some address is sent. -/
def Inserts (s : Statistics) (inserted : Statistics × List StatsTask) : Prop :=
  (inserted.1.objects = s.objects ∧ inserted.1.eventsForMytracker = s.eventsForMytracker ∧
    inserted.2 = []) ∨
  ∃ (event : StatsEvent) (address : Nat), event.numAttemptToSend = 0 ∧
    inserted.1.objects = s.objects ++ [event] ∧
    inserted.1.eventsForMytracker = s.eventsForMytracker.take address ++
      s.objects.length :: s.eventsForMytracker.drop address ∧
    inserted.2 = [.send s.objects.length]

theorem Inserts.of_same {s' : Statistics} {inserted : Statistics × List StatsTask}
    (h : s'.Inserts inserted) (hobjects : s'.objects = s.objects)
    (hevents : s'.eventsForMytracker = s.eventsForMytracker) : s.Inserts inserted := by
  unfold Inserts at h
  rwa [hobjects, hevents] at h

theorem track_inserts (s : Statistics) (name : StatsEventNames) (props : List (String × String))
    (eventTime : Int) (eventId : Int32) (address : Nat) :
    s.Inserts (s.track name props eventTime eventId address) :=
  .inr ⟨_, address, rfl, rfl, rfl, rfl⟩

theorem insertEventMytracker_inserts (s : Statistics) (enabled : Bool) (rootLogin : Bytes)
    (name : StatsEventNames) (props : List (String × String)) (eventTime : Int) (eventId : Int32)
    (address : Nat) :
    s.Inserts (s.insertEventMytracker enabled rootLogin name props eventTime eventId address) := by
  rw [insertEventMytracker]
  split
  · exact .inl ⟨rfl, rfl, rfl⟩
  · by_cases hname : name ≠ .serviceSessionStart
    · simp only [if_pos hname]
      split
      · exact track_inserts ..
      · exact track_inserts s name props eventTime eventId address
    · simp only [if_neg hname]
      split
      · exact .inl ⟨rfl, rfl, rfl⟩
      · exact .inl ⟨rfl, rfl, rfl⟩

theorem insertEvent_inserts (s : Statistics) (enabled : Bool) (rootLogin : Bytes)
    (name : StatsEventNames) (props : List (String × String)) (now : Int) (address : Nat) :
    s.Inserts (s.insertEvent enabled rootLogin name props now address) := by
  rw [insertEvent]
  split
  next =>
    -- the start of a session is no event of the tracker
    have hsame : (insertEventMytracker { s with sessionEventId := 0 } enabled rootLogin
        .serviceSessionStart props now (-1) address).1.objects = s.objects ∧
        (insertEventMytracker { s with sessionEventId := 0 } enabled rootLogin
          .serviceSessionStart props now (-1) address).1.eventsForMytracker =
          s.eventsForMytracker := by
      unfold insertEventMytracker
      split
      · exact ⟨rfl, rfl⟩
      · split
        · exact ⟨rfl, rfl⟩
        · exact ⟨rfl, rfl⟩
    exact (insertEventMytracker_inserts ..).of_same hsame.1 hsame.2
  next => exact insertEventMytracker_inserts ..

end Statistics

/-- The server settled the event of the post: no attempt is to follow. -/
def Post.final (p : Post) : Bool := Statistics.isFinal p.status.toInt32

/-- The event of a first attempt. -/
def StatsTask.first : StatsTask → List Nat
  | .send event => [event]
  | .resend _ => []

def StatsTask.again : StatsTask → List Nat
  | .send _ => []
  | .resend events => events

namespace Unhandled

def first (u : Unhandled) : List Nat :=
  match u.result with
  | .sent event _ => [event]
  | .resent _ _ => []

/-- The handler will remove the event. -/
def Removes (u : Unhandled) (event : Nat) : Prop :=
  match u.result with
  | .sent e code => e = event ∧ Statistics.isFinal code = true
  | .resent attempted numSent => event ∈ attempted.take numSent

end Unhandled

namespace StatisticsRun

/-- A settled event is not sent again, and stays only until the result is handled. -/
def SettledOnce (r : StatisticsRun) : Prop :=
  (r.posts.Pairwise fun p q => p.event = q.event → p.final = false) ∧
  ∀ p ∈ r.posts, p.final = true → p.event ∈ r.stats.eventsForMytracker →
    ∃ u ∈ r.results, p ∈ u.posts

/-- A repeated event is accepted or may be sent again; the timer finds no event of which an earlier
repetition is waiting, or is accepted but not handled. -/
def Allowed (r : StatisticsRun) : StatisticsAction → Prop
  | .work post => ∀ events, r.tasks.head? = some (.resend events) →
      ∀ e ∈ events, post e = 200 ∨ Statistics.isFinal (post e).toInt32 = false
  | .resendTimer enabled => enabled = true → ∀ e ∈ r.stats.eventsToResend,
      (∀ events, .resend events ∈ r.tasks → e ∉ events) ∧
      ∀ u ∈ r.results, ∀ attempted numSent, u.result = .resent attempted numSent →
        e ∉ attempted.take numSent
  | _ => True

/-- The events on their first attempt. -/
def firsts (r : StatisticsRun) : List Nat :=
  r.tasks.flatMap StatsTask.first ++ r.results.flatMap Unhandled.first

def agains (r : StatisticsRun) : List Nat := r.tasks.flatMap StatsTask.again

structure Reconciled (r : StatisticsRun) : Prop where
  nodup : r.stats.eventsForMytracker.Nodup
  known : ∀ e ∈ r.stats.eventsForMytracker, e < r.stats.objects.length
  posted : ∀ p ∈ r.posts, p.event < r.stats.objects.length
  firstKnown : ∀ e ∈ r.firsts, e < r.stats.objects.length
  firstOnce : r.firsts.Nodup
  firstNew : ∀ e ∈ r.firsts, r.stats.numAttemptsToSend e = 0
  unposted : ∀ e, .send e ∈ r.tasks → ∀ p ∈ r.posts, p.event ≠ e
  againOnce : r.agains.Nodup
  againTried : ∀ e ∈ r.agains, 0 < r.stats.numAttemptsToSend e
  againOpen : ∀ e ∈ r.agains, ∀ p ∈ r.posts, p.event = e → p.final = false
  removed : ∀ p ∈ r.posts, p.final = true → p.event ∈ r.stats.eventsForMytracker →
    ∃ u ∈ r.results, p ∈ u.posts ∧ u.Removes p.event
  once : r.posts.Pairwise fun p q => p.event = q.event → p.final = false

variable {r : StatisticsRun}

theorem Reconciled.settledOnce (h : r.Reconciled) : r.SettledOnce := by
  refine ⟨h.once, fun p hp hfinal hmem => ?_⟩
  obtain ⟨u, hu, hpu, -⟩ := h.removed p hp hfinal hmem
  exact ⟨u, hu, hpu⟩

theorem mem_firsts_of_task {e : Nat} (h : .send e ∈ r.tasks) : e ∈ r.firsts :=
  List.mem_append_left _ (List.mem_flatMap.mpr ⟨_, h, List.mem_singleton_self e⟩)

theorem mem_firsts_of_result {u : Unhandled} {e : Nat} (hu : u ∈ r.results)
    (h : e ∈ u.first) : e ∈ r.firsts :=
  List.mem_append_right _ (List.mem_flatMap.mpr ⟨u, hu, h⟩)

/-- No event waits for its first attempt and for another one. -/
theorem Reconciled.not_again (h : r.Reconciled) {e : Nat} (he : e ∈ r.firsts) : e ∉ r.agains := by
  intro hagain
  have htried := h.againTried e hagain
  rw [h.firstNew e he] at htried
  exact Nat.lt_irrefl 0 htried

/-- The other data of the statistics play no role. -/
theorem Reconciled.of_stats (h : r.Reconciled) {stats : Statistics}
    (hobjects : stats.objects = r.stats.objects)
    (hevents : stats.eventsForMytracker = r.stats.eventsForMytracker) :
    Reconciled { r with stats } := by
  have hattempts := Statistics.numAttempts_of_objects hobjects
  constructor
  · exact hevents ▸ h.nodup
  · exact hevents ▸ hobjects ▸ h.known
  · exact hobjects ▸ h.posted
  · exact hobjects ▸ h.firstKnown
  · exact h.firstOnce
  · exact fun e he => (hattempts e).trans (h.firstNew e he)
  · exact h.unposted
  · exact h.againOnce
  · exact fun e he => (hattempts e).symm ▸ h.againTried e he
  · exact h.againOpen
  · exact hevents ▸ h.removed
  · exact h.once

theorem Reconciled.insert (h : r.Reconciled) {inserted : Statistics × List StatsTask}
    (hi : r.stats.Inserts inserted) : (r.insert inserted).Reconciled := by
  obtain ⟨stats, tasks⟩ := inserted
  rcases hi with ⟨hobjects, hevents, htasks⟩ | ⟨event, address, hnew, hobjects, hevents, htasks⟩
  · obtain rfl : tasks = [] := htasks
    rw [StatisticsRun.insert, List.append_nil]
    exact h.of_stats hobjects hevents
  · obtain rfl : tasks = [.send r.stats.objects.length] := htasks
    have hlen : stats.objects.length = r.stats.objects.length + 1 := by
      rw [hobjects, List.length_append, List.length_singleton]
    have hsame (e : Nat) (he : e < r.stats.objects.length) :
        stats.numAttemptsToSend e = r.stats.numAttemptsToSend e :=
      Statistics.numAttempts_of_append hobjects he
    have hzero : stats.numAttemptsToSend r.stats.objects.length = 0 := by
      rw [Statistics.numAttemptsToSend, hobjects, List.getElem?_concat_length, Option.elim_some, hnew]
    have hperm : stats.eventsForMytracker.Perm
        (r.stats.objects.length :: r.stats.eventsForMytracker) := by
      rw [hevents]
      apply List.perm_middle.trans
      rw [List.take_append_drop]
    have hfirsts : (r.insert (stats, [.send r.stats.objects.length])).firsts.Perm
        (r.stats.objects.length :: r.firsts) := by
      rw [firsts, StatisticsRun.insert, List.flatMap_append, List.append_assoc]
      exact List.perm_middle
    have hagains : (r.insert (stats, [.send r.stats.objects.length])).agains = r.agains := by
      rw [agains, StatisticsRun.insert, List.flatMap_append]
      exact List.append_nil _
    constructor
    · apply hperm.nodup_iff.mpr
      exact List.nodup_cons.mpr ⟨fun hm => Nat.lt_irrefl _ (h.known _ hm), h.nodup⟩
    · intro e he
      rw [StatisticsRun.insert, hlen]
      rcases List.mem_cons.mp (hperm.mem_iff.mp he) with rfl | he
      · exact Nat.lt_succ_self _
      · exact Nat.lt_succ_of_lt (h.known e he)
    · intro p hp
      rw [StatisticsRun.insert, hlen]
      exact Nat.lt_succ_of_lt (h.posted p hp)
    · intro e he
      rw [StatisticsRun.insert, hlen]
      rcases List.mem_cons.mp (hfirsts.mem_iff.mp he) with rfl | he
      · exact Nat.lt_succ_self _
      · exact Nat.lt_succ_of_lt (h.firstKnown e he)
    · apply hfirsts.nodup_iff.mpr
      exact List.nodup_cons.mpr ⟨fun hm => Nat.lt_irrefl _ (h.firstKnown _ hm), h.firstOnce⟩
    · intro e he
      rcases List.mem_cons.mp (hfirsts.mem_iff.mp he) with rfl | he
      · exact hzero
      · exact (hsame e (h.firstKnown e he)).trans (h.firstNew e he)
    · intro e he p hp
      rcases List.mem_append.mp he with he | he
      · exact h.unposted e he p hp
      · cases List.mem_singleton.mp he
        exact Nat.ne_of_lt (h.posted p hp)
    · exact hagains ▸ h.againOnce
    · intro e he
      rw [hagains] at he
      have htried := h.againTried e he
      exact (hsame e (Statistics.lt_of_tried htried)).symm ▸ htried
    · exact hagains ▸ h.againOpen
    · intro p hp hfinal hm
      rcases List.mem_cons.mp (hperm.mem_iff.mp hm) with heq | hm
      · exact absurd heq (Nat.ne_of_lt (h.posted p hp))
      · exact h.removed p hp hfinal hm
    · exact h.once

theorem Reconciled.resendTimer (h : r.Reconciled) (enabled : Bool)
    (ha : r.Allowed (.resendTimer enabled)) :
    Reconciled { r with tasks := r.tasks ++ r.stats.resendFailedMytrackerAsync enabled } := by
  cases enabled with
  | false =>
    rw [Statistics.resendFailedMytrackerAsync, if_neg Bool.false_ne_true, List.append_nil]
    exact h
  | true =>
    let r' : StatisticsRun := { r with tasks := r.tasks ++ [.resend r.stats.eventsToResend] }
    have hfirsts : r'.firsts = r.firsts := by
      rw [firsts, List.flatMap_append]
      exact congrArg (· ++ _) (List.append_nil _)
    have hagains : r'.agains = r.agains ++ r.stats.eventsToResend := by
      rw [agains, List.flatMap_append]
      exact congrArg (_ ++ ·) (List.append_nil _)
    have hopen (e : Nat) (he : e ∈ r.stats.eventsToResend) (p : Post) (hp : p ∈ r.posts)
        (heq : p.event = e) : p.final = false := by
      subst heq
      obtain ⟨hmem, htried⟩ := List.mem_filter.mp he
      rw [← Bool.not_eq_true]
      intro hfinal
      obtain ⟨u, hu, -, hremoves⟩ := h.removed p hp hfinal hmem
      unfold Unhandled.Removes at hremoves
      cases hresult : u.result with
      | sent event code =>
        rw [hresult] at hremoves
        have hfirst : p.event ∈ r.firsts := by
          apply mem_firsts_of_result hu
          rw [Unhandled.first, hresult, ← hremoves.1]
          exact List.mem_singleton_self _
        rw [h.firstNew _ hfirst] at htried
        exact absurd htried (by decide)
      | resent attempted numSent =>
        rw [hresult] at hremoves
        exact (ha rfl _ he).2 u hu attempted numSent hresult hremoves
    show r'.Reconciled
    constructor
    · exact h.nodup
    · exact h.known
    · exact h.posted
    · exact hfirsts ▸ h.firstKnown
    · exact hfirsts ▸ h.firstOnce
    · exact hfirsts ▸ h.firstNew
    · intro e he
      rcases List.mem_append.mp he with he | he
      · exact h.unposted e he
      · cases List.mem_singleton.mp he
    · rw [hagains, List.nodup_append]
      refine ⟨h.againOnce, h.nodup.filter _, fun e he e' he' heq => ?_⟩
      subst heq
      obtain ⟨task, htask, hmem⟩ := List.mem_flatMap.mp he
      cases task with
      | send event => cases hmem
      | resend events => exact (ha rfl e he').1 events htask hmem
    · intro e he
      rw [hagains] at he
      rcases List.mem_append.mp he with he | he
      · exact h.againTried e he
      · exact of_decide_eq_true (List.mem_filter.mp he).2
    · intro e he
      rw [hagains] at he
      rcases List.mem_append.mp he with he | he
      · exact h.againOpen e he
      · exact hopen e he
    · exact h.removed
    · exact h.once

/-- The first attempt of an event. -/
theorem Reconciled.workSend (h : r.Reconciled) {event : Nat} {tasks : List StatsTask}
    (htasks : r.tasks = .send event :: tasks) (post : Nat → Int64) :
    Reconciled { r with
      tasks
      results := r.results ++ [⟨.sent event (post event).toInt32, [⟨event, post event⟩]⟩]
      posts := r.posts ++ [⟨event, post event⟩] } := by
  have hin : .send event ∈ r.tasks := htasks ▸ List.mem_cons_self
  let sent : Unhandled := ⟨.sent event (post event).toInt32, [⟨event, post event⟩]⟩
  have hperm : r.firsts.Perm (tasks.flatMap StatsTask.first ++
      (r.results ++ [sent]).flatMap Unhandled.first) := by
    rw [firsts, htasks, List.flatMap_append, ← List.append_assoc]
    exact @List.perm_append_comm _ [event] _
  have hagains : r.agains = tasks.flatMap StatsTask.again := by
    rw [agains, htasks]
    rfl
  have hother (e : Nat) (he : .send e ∈ tasks) : event ≠ e := by
    have honce := h.firstOnce
    rw [firsts, htasks] at honce
    rintro rfl
    exact (List.nodup_cons.mp honce).1
      (List.mem_append_left _ (List.mem_flatMap.mpr ⟨_, he, List.mem_singleton_self _⟩))
  constructor
  · exact h.nodup
  · exact h.known
  · intro p hp
    rcases List.mem_append.mp hp with hp | hp
    · exact h.posted p hp
    · cases List.mem_singleton.mp hp
      exact h.firstKnown event (mem_firsts_of_task hin)
  · exact fun e he => h.firstKnown e (hperm.mem_iff.mpr he)
  · exact hperm.nodup_iff.mp h.firstOnce
  · exact fun e he => h.firstNew e (hperm.mem_iff.mpr he)
  · intro e he p hp
    rcases List.mem_append.mp hp with hp | hp
    · exact h.unposted e (htasks ▸ List.mem_cons_of_mem _ he) p hp
    · cases List.mem_singleton.mp hp
      exact hother e he
  · show (tasks.flatMap StatsTask.again).Nodup
    exact hagains ▸ h.againOnce
  · exact fun e he => h.againTried e (hagains ▸ he)
  · intro e he p hp heq
    rcases List.mem_append.mp hp with hp | hp
    · exact h.againOpen e (hagains ▸ he) p hp heq
    · cases List.mem_singleton.mp hp
      cases heq
      exact (h.not_again (mem_firsts_of_task hin) (hagains ▸ he)).elim
  · intro p hp hfinal hm
    rcases List.mem_append.mp hp with hp | hp
    · obtain ⟨u, hu, hpu⟩ := h.removed p hp hfinal hm
      exact ⟨u, List.mem_append_left _ hu, hpu⟩
    · refine ⟨_, List.mem_append_right _ (List.mem_singleton_self _), hp, ?_⟩
      cases List.mem_singleton.mp hp
      exact ⟨rfl, hfinal⟩
  · rw [List.pairwise_append]
    refine ⟨h.once, List.pairwise_singleton _ _, fun p hp q hq heq => ?_⟩
    cases List.mem_singleton.mp hq
    exact absurd heq (h.unposted event hin p hp)

theorem Reconciled.workResend (h : r.Reconciled) {events : List Nat} {tasks : List StatsTask}
    (htasks : r.tasks = .resend events :: tasks) {post : Nat → Int64}
    (ha : r.Allowed (.work post)) :
    Reconciled { r with
      stats := (r.stats.resendEvents post events).1
      tasks
      results := r.results ++ [⟨.resent events (r.stats.resendEvents post events).2.1,
        (r.stats.resendEvents post events).2.2⟩]
      posts := r.posts ++ (r.stats.resendEvents post events).2.2 } := by
  obtain ⟨done, failed, rest, hevents, hdone, hfailed, heq⟩ :=
    Statistics.resendEvents_split post r.stats events
  obtain ⟨hlen, hmy, hle, hsame⟩ := Statistics.foldl_increment (s := r.stats) failed
  rw [heq]
  have hagains : r.agains = events ++ tasks.flatMap StatsTask.again := by
    rw [agains, htasks]
    rfl
  have hagain (e : Nat) (he : e ∈ events) : e ∈ r.agains :=
    hagains ▸ List.mem_append_left _ he
  obtain ⟨honce, hrest, hdisjoint⟩ := List.nodup_append.mp (hagains ▸ h.againOnce)
  let posts : List Post := (done ++ failed).map fun e => ⟨e, post e⟩
  let r' : StatisticsRun :=
    { stats := failed.foldl Statistics.incrementSendNumAttempts r.stats
      tasks
      results := r.results ++ [⟨.resent events done.length, posts⟩]
      posts := r.posts ++ posts }
  have hfirsts : r'.firsts = r.firsts := by
    rw [firsts, firsts, htasks, List.flatMap_append]
    exact congrArg _ (List.append_nil _)
  have hpost (p : Post) (hp : p ∈ posts) :
      p.event ∈ events ∧ (p.final = true → p.event ∈ done) := by
    obtain ⟨e, he, rfl⟩ := List.mem_map.mp hp
    have hin : e ∈ events := hevents ▸ List.mem_append_left _ he
    refine ⟨hin, fun hfinal => (List.mem_append.mp he).resolve_right fun hfail => ?_⟩
    -- an event that was not accepted stays open
    have hopen := (ha events (htasks ▸ rfl) e hin).resolve_left (hfailed e hfail)
    exact Bool.false_ne_true (hopen.symm.trans hfinal)
  have hnotFailed (e : Nat) (he : e ∈ r.firsts) : e ∉ failed := fun hf =>
    h.not_again he (hagain e (hevents ▸ List.mem_append_left _ (List.mem_append_right _ hf)))
  show r'.Reconciled
  constructor
  · exact hmy ▸ h.nodup
  · exact hmy ▸ hlen ▸ h.known
  · intro p hp
    refine hlen ▸ ?_
    rcases List.mem_append.mp hp with hp | hp
    · exact h.posted p hp
    · exact Statistics.lt_of_tried (h.againTried _ (hagain _ (hpost p hp).1))
  · exact hlen ▸ hfirsts ▸ h.firstKnown
  · exact hfirsts ▸ h.firstOnce
  · intro e he
    rw [hfirsts] at he
    exact (hsame e (hnotFailed e he)).trans (h.firstNew e he)
  · intro e he p hp
    have hin : .send e ∈ r.tasks := htasks ▸ List.mem_cons_of_mem _ he
    rcases List.mem_append.mp hp with hp | hp
    · exact h.unposted e hin p hp
    · rintro rfl
      exact h.not_again (mem_firsts_of_task hin) (hagain _ (hpost p hp).1)
  · exact hrest
  · intro e he
    exact Nat.lt_of_lt_of_le (h.againTried e (hagains ▸ List.mem_append_right _ he)) (hle e)
  · intro e he p hp heq
    rcases List.mem_append.mp hp with hp | hp
    · exact h.againOpen e (hagains ▸ List.mem_append_right _ he) p hp heq
    · exact absurd heq (hdisjoint _ (hpost p hp).1 e he)
  · intro p hp hfinal hm
    rcases List.mem_append.mp hp with hp | hp
    · obtain ⟨u, hu, hpu⟩ := h.removed p hp hfinal (hmy ▸ hm)
      exact ⟨u, List.mem_append_left _ hu, hpu⟩
    · refine ⟨_, List.mem_append_right _ (List.mem_singleton_self _), hp, ?_⟩
      show p.event ∈ events.take done.length
      rw [hevents, List.append_assoc, List.take_left]
      exact (hpost p hp).2 hfinal
  · rw [List.pairwise_append]
    refine ⟨h.once, ?_, fun p hp q hq heq => ?_⟩
    · apply List.pairwise_map.mpr
      rw [hevents] at honce
      exact (List.nodup_append.mp honce).1.imp fun hne heq => absurd heq hne
    · exact h.againOpen _ (hagain _ (hpost q hq).1) p hp heq

/-- A result that is handled was the only one for its event's first attempt. -/
theorem Reconciled.handleSent (h : r.Reconciled) {event : Nat} {code : Int32} {posts : List Post}
    {results : List Unhandled} (hresults : r.results = ⟨.sent event code, posts⟩ :: results) :
    Reconciled { r with stats := r.stats.onSent event code, results } := by
  have hperm : r.firsts.Perm
      (event :: (tasks r).flatMap StatsTask.first ++ results.flatMap Unhandled.first) := by
    rw [firsts, hresults]
    exact List.perm_middle
  obtain ⟨hout, honce⟩ := List.nodup_cons.mp (hperm.nodup_iff.mp h.firstOnce)
  have hremoved (p : Post) (hp : p ∈ r.posts) (hfinal : p.final = true)
      (hm : p.event ∈ r.stats.eventsForMytracker)
      (hhead : ¬(event = p.event ∧ Statistics.isFinal code = true)) :
      ∃ u ∈ results, p ∈ u.posts ∧ u.Removes p.event := by
    obtain ⟨u, hu, hpu, hremoves⟩ := h.removed p hp hfinal hm
    rw [hresults] at hu
    rcases List.mem_cons.mp hu with rfl | hu
    · exact absurd hremoves hhead
    · exact ⟨u, hu, hpu, hremoves⟩
  rw [Statistics.onSent]
  split
  next hcode =>
    have hopen := Bool.not_eq_true' _ ▸ hcode
    constructor
    · exact h.nodup
    · exact fun e he => Statistics.increment_length.symm ▸ h.known e he
    · exact fun p hp => Statistics.increment_length.symm ▸ h.posted p hp
    · exact fun e he => Statistics.increment_length.symm ▸
        h.firstKnown e (hperm.mem_iff.mpr (List.mem_cons_of_mem _ he))
    · exact honce
    · intro e he
      have hne : e ≠ event := by
        rintro rfl
        exact hout he
      exact (Statistics.numAttempts_increment_of_ne hne).trans
        (h.firstNew e (hperm.mem_iff.mpr (List.mem_cons_of_mem _ he)))
    · exact h.unposted
    · exact h.againOnce
    · exact fun e he => Nat.lt_of_lt_of_le (h.againTried e he) Statistics.numAttempts_le_increment
    · exact h.againOpen
    · intro p hp hfinal hm
      apply hremoved p hp hfinal hm
      exact fun hhead => Bool.false_ne_true (hopen.symm.trans hhead.2)
    · exact h.once
  next =>
    constructor
    · exact h.nodup.filter _
    · exact fun e he => h.known e (Statistics.mem_eraseEvent.mp he).1
    · exact h.posted
    · exact fun e he => h.firstKnown e (hperm.mem_iff.mpr (List.mem_cons_of_mem _ he))
    · exact honce
    · exact fun e he => h.firstNew e (hperm.mem_iff.mpr (List.mem_cons_of_mem _ he))
    · exact h.unposted
    · exact h.againOnce
    · exact h.againTried
    · exact h.againOpen
    · intro p hp hfinal hm
      obtain ⟨hm, hne⟩ := Statistics.mem_eraseEvent.mp hm
      exact hremoved p hp hfinal hm fun hhead => hne hhead.1.symm
    · exact h.once

theorem Reconciled.handleResent (h : r.Reconciled) (enabled : Bool) {attempted : List Nat}
    {numSent : Nat} {posts : List Post} {results : List Unhandled}
    (hresults : r.results = ⟨.resent attempted numSent, posts⟩ :: results) :
    Reconciled { r with stats := r.stats.onResent enabled attempted numSent, results } := by
  let stats := (attempted.take numSent).foldl Statistics.eraseEvent r.stats
  obtain ⟨hobjects, hsub, hout⟩ := Statistics.foldl_eraseEvent (s := r.stats) (attempted.take numSent)
  have hattempts := Statistics.numAttempts_of_objects hobjects
  have hfirsts : firsts { r with stats, results } = r.firsts := by
    rw [firsts, firsts, hresults]
    rfl
  have herased : Reconciled { r with stats, results } := by
    constructor
    · exact h.nodup.sublist hsub
    · exact fun e he => hobjects ▸ h.known e (hsub.subset he)
    · exact hobjects ▸ h.posted
    · exact hobjects ▸ hfirsts ▸ h.firstKnown
    · exact hfirsts ▸ h.firstOnce
    · exact fun e he => (hattempts e).trans (h.firstNew e (hfirsts ▸ he))
    · exact h.unposted
    · exact h.againOnce
    · exact fun e he => (hattempts e).symm ▸ h.againTried e he
    · exact h.againOpen
    · intro p hp hfinal hm
      obtain ⟨u, hu, hpu, hremoves⟩ := h.removed p hp hfinal (hsub.subset hm)
      rw [hresults] at hu
      rcases List.mem_cons.mp hu with rfl | hu
      · exact absurd hm (hout _ hremoves)
      · exact ⟨u, hu, hpu, hremoves⟩
    · exact h.once
  rw [Statistics.onResent]
  split
  · exact herased.of_stats rfl rfl
  · exact herased

theorem Reconciled.step (h : r.Reconciled) {action : StatisticsAction} {r' : StatisticsRun}
    (ha : r.Allowed action) (hstep : r.step action = some r') : r'.Reconciled := by
  cases action with
  | insertEvent enabled rootLogin name props now address =>
    cases hstep
    exact h.insert (Statistics.insertEvent_inserts ..)
  | load enabled rootLogin name props eventTime eventId address =>
    cases hstep
    exact h.insert (Statistics.insertEventMytracker_inserts ..)
  | resendTimer enabled =>
    cases hstep
    exact h.resendTimer enabled ha
  | work post =>
    change r.work post = some r' at hstep
    unfold StatisticsRun.work at hstep
    split at hstep
    · cases hstep
    next htasks =>
      cases hstep
      exact h.workSend htasks post
    next htasks =>
      cases hstep
      exact h.workResend htasks ha
  | handle enabled =>
    change r.handle enabled = some r' at hstep
    unfold StatisticsRun.handle at hstep
    split at hstep
    · cases hstep
    next hresults =>
      cases hstep
      exact h.handleSent hresults
    next hresults =>
      cases hstep
      exact h.handleResent enabled hresults

/-- In runs that repeat no waiting event and see no repetition refused for good, a settled event is
not sent again. -/
theorem settled_once (h : Run step Allowed {} r) : r.SettledOnce := by
  apply Reconciled.settledOnce
  apply h.invariant (P := Reconciled)
  · constructor
    all_goals simp [firsts, agains]
  · exact fun hr ha hstep => hr.step ha hstep

/-- An event is inserted; the server fails, and accepts it when it is repeated. -/
theorem settled_once_repeated :
    ∃ r : StatisticsRun, Run step Allowed {} r ∧ r.posts = [⟨0, 500⟩, ⟨0, 200⟩] ∧ r.SettledOnce := by
  have hrun : Run step Allowed {} _ :=
    .step (.handle true) (.step (.work fun _ => 200) (.step (.resendTimer true)
      (.step (.handle true) (.step (.work fun _ => 500)
        (.step (.insertEvent true [0x31] 1003 [] 0 0) .start trivial rfl)
          (fun _ h => by cases h) rfl) trivial rfl) ?_ rfl) (fun _ _ _ _ => .inl rfl) rfl) trivial rfl
  · exact ⟨_, hrun, rfl, settled_once hrun⟩
  · exact fun _ _ _ => ⟨fun _ h => absurd h List.not_mem_nil, fun _ h => absurd h List.not_mem_nil⟩

/-- An event that the server refuses when it is repeated stays, and is sent again. -/
theorem refused_sent_again :
    ¬ ∀ r : StatisticsRun, Run step (fun _ _ => True) {} r → r.SettledOnce := by
  intro h
  have hrun : Run step (fun _ _ => True) {} _ :=
    .step (.work fun _ => 200) (.step (.resendTimer true) (.step (.handle true)
      (.step (.work fun _ => 400) (.step (.resendTimer true) (.step (.handle true)
        (.step (.work fun _ => 500) (.step (.insertEvent true [0x31] 1003 [] 0 0) .start trivial rfl)
          trivial rfl) trivial rfl) trivial rfl) trivial rfl) trivial rfl) trivial rfl) trivial rfl
  obtain ⟨-, honce⟩ := List.pairwise_cons.mp (h _ hrun).1
  have hrefused := (List.pairwise_cons.mp honce).1 ⟨0, 200⟩ List.mem_cons_self rfl
  exact absurd hrefused (by decide)

end StatisticsRun

end Icq.Stats
