import Icq.Core.Scheduler
import Mathlib.Data.List.Perm.Basic

/-! Which timers are posted, and when, over everything that is done with the scheduler. -/

namespace Icq.Core
open Icq.Lib

namespace Scheduler

variable {α : Type} {s s' : Scheduler α} {log more : List (TimerEvent α)} {id : Nat}

/-- What the log says of a timer that is still there. -/
structure Known (log : List (TimerEvent α)) (t : TimerTask α) : Prop where
  pushed : ∃ start, .pushed t.id t.timeout t.function t.singleShot start ∈ log ∧
    start ≤ t.lastExecuteTime
  last : .pushed t.id t.timeout t.function t.singleShot t.lastExecuteTime ∈ log ∨
    .posted t.id t.function t.lastExecuteTime ∈ log
  posted : ∀ function time, .posted t.id function time ∈ log →
    t.singleShot = false ∧ time ≤ t.lastExecuteTime

/-- Its id was given out, nobody stopped it, and it is not a single shot that was posted. -/
structure Active (log : List (TimerEvent α)) (id : Nat) : Prop where
  pushed : ∃ timeout function singleShot start,
    .pushed id timeout function singleShot start ∈ log ∧
      (singleShot = true → ∀ function' time, .posted id function' time ∉ log)
  returned : .returned id ∈ log
  running : ¬ StoppedIn log id

/-- Every id is pushed once, and only pushed ids are given out. -/
structure Recorded (log : List (TimerEvent α)) (idCounter : Nat) : Prop where
  counted : ∀ id timeout function singleShot start,
    .pushed id timeout function singleShot start ∈ log → id ≤ idCounter
  once : ∀ id timeout function singleShot start timeout' function' singleShot' start',
    .pushed id timeout function singleShot start ∈ log →
    .pushed id timeout' function' singleShot' start' ∈ log →
      timeout = timeout' ∧ function = function' ∧ singleShot = singleShot' ∧ start = start'
  returned : ∀ id, .returned id ∈ log → ∃ timeout function singleShot start,
    .pushed id timeout function singleShot start ∈ log
  justified : Justified Legit log

structure Kept (s : Scheduler α) : Prop extends Recorded s.log s.idCounter where
  ids : ((s.timedTasks ++ s.pushing).map (·.id)).Nodup
  known : ∀ t ∈ s.timedTasks ++ s.pushing, Known s.log t
  past : ∀ t ∈ s.timedTasks ++ s.pushing, t.lastExecuteTime ≤ s.now
  listed : ∀ t ∈ s.timedTasks, .returned t.id ∈ s.log ∧ ¬ StoppedIn s.log t.id
  unknown : ∀ t ∈ s.pushing, .returned t.id ∉ s.log
  active : ∀ id, Active s.log id → ∃ t ∈ s.timedTasks, t.id = id
  destroyed : .destroyed ∈ s.log → s.isStop = true

theorem ne_of_mem_eraseP {tasks : List (TimerTask α)} (h : (tasks.map (·.id)).Nodup)
    {t : TimerTask α} (ht : t ∈ tasks.eraseP fun x => decide (x.id = id)) : t.id ≠ id := by
  induction tasks with
  | nil => cases ht
  | cons x tasks ih =>
    rw [List.map_cons, List.nodup_cons] at h
    by_cases hx : x.id = id
    · rw [List.eraseP_cons_of_pos (by simpa using hx)] at ht
      rintro rfl
      exact h.1 (hx ▸ List.mem_map_of_mem ht)
    · rw [List.eraseP_cons_of_neg (by simpa using hx)] at ht
      rcases List.mem_cons.mp ht with rfl | ht
      · exact hx
      · exact ih h.2 ht

section Log

theorem not_stoppedIn_append (h : ¬ StoppedIn log id) (hmore : .stopped id ∉ more) :
    ¬ StoppedIn (log ++ more) id := by
  rintro ⟨before, after, heq, hreturned⟩
  rcases append_eq_split heq with ⟨rest, hlog, -⟩ | ⟨front, -, hfront⟩
  · exact h ⟨before, rest, hlog, hreturned⟩
  · exact hmore (hfront ▸ List.mem_append_right _ List.mem_cons_self)

theorem StoppedIn.append (h : StoppedIn log id) (more : List (TimerEvent α)) :
    StoppedIn (log ++ more) id := by
  obtain ⟨before, after, rfl, hreturned⟩ := h
  exact ⟨before, after ++ more, by simp, hreturned⟩

theorem StoppedIn.returned (h : StoppedIn log id) : .returned id ∈ log := by
  obtain ⟨before, after, rfl, hreturned⟩ := h
  exact List.mem_append_left _ hreturned

/-- Events that are no posts of the timer leave what is known of it. -/
theorem Known.append {t : TimerTask α} (h : Known log t)
    (hmore : ∀ function time, .posted t.id function time ∉ more) : Known (log ++ more) t where
  pushed := by
    obtain ⟨start, hpushed, hle⟩ := h.pushed
    exact ⟨start, List.mem_append_left _ hpushed, hle⟩
  last := h.last.imp (List.mem_append_left _) (List.mem_append_left _)
  posted := by
    intro function time hmem
    rcases List.mem_append.mp hmem with hmem | hmem
    · exact h.posted function time hmem
    · exact absurd hmem (hmore function time)

/-- A timer that is active after events that neither push it nor return its id was active before. -/
theorem Active.of_append (h : Active (log ++ more) id)
    (hpushed : ∀ timeout function singleShot start,
      .pushed id timeout function singleShot start ∉ more)
    (hreturned : .returned id ∉ more) : Active log id where
  pushed := by
    obtain ⟨timeout, function, singleShot, start, hmem, hsingle⟩ := h.pushed
    refine ⟨timeout, function, singleShot, start, ?_, ?_⟩
    · exact (List.mem_append.mp hmem).resolve_right (hpushed _ _ _ _)
    · intro htrue function' time hposted
      exact hsingle htrue function' time (List.mem_append_left _ hposted)
  returned := (List.mem_append.mp h.returned).resolve_right hreturned
  running := fun hstopped => h.running (hstopped.append more)

variable {idCounter : Nat}

theorem Recorded.pushed_of_posted (h : Recorded log idCounter) {function : α} {time : Int}
    (hposted : .posted id function time ∈ log) : ∃ timeout function singleShot start,
      .pushed id timeout function singleShot start ∈ log := by
  obtain ⟨before, after, rfl⟩ := List.append_of_mem hposted
  obtain ⟨-, -, timeout, singleShot, start, hpushed, -⟩ := h.justified before _ after rfl
  exact ⟨timeout, function, singleShot, start, List.mem_append_left _ hpushed⟩

theorem Recorded.fresh (h : Recorded log idCounter) (timeout : Int) (function : α)
    (singleShot : Bool) (start : Int) :
    .pushed (idCounter + 1) timeout function singleShot start ∉ log := by
  intro hmem
  have := h.counted _ _ _ _ _ hmem
  omega

/-- Events that neither push a timer nor return an id. -/
theorem Recorded.append (h : Recorded log idCounter)
    (hpushed : ∀ id timeout function singleShot start,
      .pushed id timeout function singleShot start ∉ more)
    (hreturned : ∀ id, .returned id ∉ more) (hjustified : Justified Legit (log ++ more)) :
    Recorded (log ++ more) idCounter where
  counted := fun _ _ _ _ _ hmem =>
    h.counted _ _ _ _ _ ((List.mem_append.mp hmem).resolve_right (hpushed _ _ _ _ _))
  once := fun _ _ _ _ _ _ _ _ _ hmem hmem' =>
    h.once _ _ _ _ _ _ _ _ _ ((List.mem_append.mp hmem).resolve_right (hpushed _ _ _ _ _))
      ((List.mem_append.mp hmem').resolve_right (hpushed _ _ _ _ _))
  returned := by
    intro id hmem
    obtain ⟨timeout, function, singleShot, start, hpushed⟩ :=
      h.returned id ((List.mem_append.mp hmem).resolve_right (hreturned id))
    exact ⟨timeout, function, singleShot, start, List.mem_append_left _ hpushed⟩
  justified := hjustified

theorem Recorded.push (h : Recorded log idCounter) (timeout : Int) (function : α)
    (singleShot : Bool) (start : Int) :
    Recorded (log ++ [.pushed (idCounter + 1) timeout function singleShot start])
      (idCounter + 1) where
  counted := by
    intro id _ _ _ _ hmem
    rcases List.mem_append.mp hmem with hmem | hmem
    · exact Nat.le_succ_of_le (h.counted _ _ _ _ _ hmem)
    · cases List.mem_singleton.mp hmem
      exact Nat.le_refl _
  once := by
    intro id _ _ _ _ _ _ _ _ hmem hmem'
    rcases List.mem_append.mp hmem with hmem | hmem <;>
      rcases List.mem_append.mp hmem' with hmem' | hmem'
    · exact h.once _ _ _ _ _ _ _ _ _ hmem hmem'
    · cases List.mem_singleton.mp hmem'
      exact absurd hmem (h.fresh _ _ _ _)
    · cases List.mem_singleton.mp hmem
      exact absurd hmem' (h.fresh _ _ _ _)
    · cases List.mem_singleton.mp hmem
      cases List.mem_singleton.mp hmem'
      exact ⟨rfl, rfl, rfl, rfl⟩
  returned := by
    intro id hmem
    obtain ⟨timeout, function, singleShot, start, hpushed⟩ :=
      h.returned id (of_mem_concat hmem nofun)
    exact ⟨timeout, function, singleShot, start, List.mem_append_left _ hpushed⟩
  justified := h.justified.concat trivial

theorem Recorded.give (h : Recorded log idCounter) {timeout : Int} {function : α}
    {singleShot : Bool} {start : Int}
    (hpushed : .pushed id timeout function singleShot start ∈ log) :
    Recorded (log ++ [.returned id]) idCounter where
  counted := fun _ _ _ _ _ hmem => h.counted _ _ _ _ _ (of_mem_concat hmem nofun)
  once := fun _ _ _ _ _ _ _ _ _ hmem hmem' =>
    h.once _ _ _ _ _ _ _ _ _ (of_mem_concat hmem nofun) (of_mem_concat hmem' nofun)
  returned := by
    intro id' hmem
    by_cases heq : id' = id
    · exact ⟨_, _, _, _, List.mem_append_left _ (heq ▸ hpushed)⟩
    · obtain ⟨_, _, _, _, hpushed⟩ := h.returned id' (of_mem_concat hmem (by simpa))
      exact ⟨_, _, _, _, List.mem_append_left _ hpushed⟩
  justified := h.justified.concat trivial

end Log

section Steps

theorem Kept.start : Kept ({} : Scheduler α) where
  ids := List.nodup_nil
  counted := fun _ _ _ _ _ h => nomatch h
  once := fun _ _ _ _ _ _ _ _ _ h => nomatch h
  known := fun _ h => nomatch h
  past := fun _ h => nomatch h
  listed := fun _ h => nomatch h
  unknown := fun _ h => nomatch h
  returned := fun _ h => nomatch h
  active := fun _ h => nomatch h.returned
  destroyed := fun h => nomatch h
  justified := .nil

theorem Kept.elapse (h : Kept s) (duration : Nat) : Kept { s with now := s.now + duration } :=
  { h with
    past := fun t ht =>
      Int.le_trans (h.past t ht) (Int.le_add_of_nonneg_right (Int.natCast_nonneg duration)) }

theorem Kept.create (h : Kept s) (hcount : s.idCounter + 1 < 2 ^ 32) (function : α) (timeout : Int)
    (singleShot : Bool) : Kept (s.create function timeout singleShot) := by
  have hid : (s.idCounter + 1) % 2 ^ 32 = s.idCounter + 1 := Nat.mod_eq_of_lt hcount
  have hfresh := h.fresh
  have hnone : ∀ t ∈ s.timedTasks ++ s.pushing, t.id ≠ s.idCounter + 1 := by
    intro t ht heq
    obtain ⟨start, hmem, -⟩ := (h.known t ht).pushed
    exact hfresh _ _ _ _ (heq ▸ hmem)
  have hunreturned : .returned (s.idCounter + 1) ∉ s.log := by
    intro hmem
    obtain ⟨_, _, _, _, hpushed⟩ := h.returned _ hmem
    exact hfresh _ _ _ _ hpushed
  unfold Scheduler.create
  simp only [hid]
  refine { h.push timeout function singleShot s.now with
    ids := ?ids, known := ?known, past := ?past, listed := ?listed, unknown := ?unknown
    active := ?active, destroyed := fun hmem => h.destroyed (of_mem_concat hmem nofun) }
  case ids =>
    rw [← List.append_assoc, List.map_append, List.nodup_append]
    refine ⟨h.ids, List.nodup_singleton _, ?_⟩
    intro a ha b hb hab
    obtain ⟨t, ht, rfl⟩ := List.mem_map.mp ha
    obtain rfl := List.mem_singleton.mp hb
    exact hnone t ht hab
  case known =>
    intro t ht
    rw [← List.append_assoc] at ht
    rcases List.mem_append.mp ht with ht | ht
    · exact (h.known t ht).append fun _ _ hmem => by cases List.mem_singleton.mp hmem
    · obtain rfl := List.mem_singleton.mp ht
      have hlast : .pushed (s.idCounter + 1) timeout function singleShot s.now ∈
          s.log ++ [.pushed (s.idCounter + 1) timeout function singleShot s.now] :=
        List.mem_append_right _ List.mem_cons_self
      refine ⟨⟨s.now, hlast, Int.le_refl _⟩, .inl hlast, ?_⟩
      intro function' time hmem
      obtain ⟨_, _, _, _, hpushed⟩ := h.pushed_of_posted (of_mem_concat hmem nofun)
      exact absurd hpushed (hfresh _ _ _ _)
  case past =>
    intro t ht
    rw [← List.append_assoc] at ht
    rcases List.mem_append.mp ht with ht | ht
    · exact h.past t ht
    · obtain rfl := List.mem_singleton.mp ht
      exact Int.le_refl _
  case listed =>
    intro t ht
    refine ⟨List.mem_append_left _ (h.listed t ht).1, ?_⟩
    exact not_stoppedIn_append (h.listed t ht).2 fun hmem => by cases List.mem_singleton.mp hmem
  case unknown =>
    intro t ht hmem
    have hold := of_mem_concat hmem nofun
    rcases List.mem_append.mp ht with ht | ht
    · exact h.unknown t ht hold
    · obtain rfl := List.mem_singleton.mp ht
      exact hunreturned hold
  case active =>
    intro id hactive
    apply h.active
    apply hactive.of_append
    · intro _ _ _ _ hmem
      cases List.mem_singleton.mp hmem
      exact hunreturned (of_mem_concat hactive.returned nofun)
    · intro hmem
      cases List.mem_singleton.mp hmem

theorem Kept.splice (h : Kept s) {index : Nat} (hstep : s.splice index = some s') : Kept s' := by
  obtain ⟨t, ht, rfl⟩ := Option.map_eq_some_iff.mp hstep
  obtain ⟨hlt, heq⟩ := List.getElem?_eq_some_iff.mp ht
  have htin : t ∈ s.pushing := heq ▸ List.getElem_mem hlt
  have hperm : (s.timedTasks ++ [t] ++ s.pushing.eraseIdx index).Perm
      (s.timedTasks ++ s.pushing) := by
    rw [List.append_assoc]
    have := List.getElem_cons_eraseIdx_perm hlt
    rw [heq] at this
    exact this.append_left _
  obtain ⟨start, hpushed, -⟩ := (h.known t (List.mem_append_right _ htin)).pushed
  refine { h.give hpushed with
    ids := (hperm.map _).nodup_iff.mpr h.ids
    known := ?known
    past := fun x hx => h.past x (hperm.subset hx)
    listed := ?listed, unknown := ?unknown, active := ?active
    destroyed := fun hmem => h.destroyed (of_mem_concat hmem nofun) }
  case known =>
    intro x hx
    exact (h.known x (hperm.subset hx)).append fun _ _ hmem => by cases List.mem_singleton.mp hmem
  case listed =>
    intro x hx
    have hnew : .stopped x.id ∉ [TimerEvent.returned (α := α) t.id] := by simp
    rcases List.mem_append.mp hx with hx | hx
    · exact ⟨List.mem_append_left _ (h.listed x hx).1, not_stoppedIn_append (h.listed x hx).2 hnew⟩
    · obtain rfl := List.mem_singleton.mp hx
      refine ⟨List.mem_append_right _ List.mem_cons_self, not_stoppedIn_append ?_ hnew⟩
      exact fun hstopped => h.unknown x htin hstopped.returned
  case unknown =>
    intro x hx hmem
    have hx' := List.mem_of_mem_eraseIdx hx
    have hids := (hperm.map (·.id)).nodup_iff.mpr h.ids
    by_cases hid : x.id = t.id
    · rw [List.map_append, List.map_append, List.nodup_append] at hids
      exact hids.2.2 t.id (List.mem_append_right _ List.mem_cons_self) x.id
        (List.mem_map_of_mem hx) hid.symm
    · exact h.unknown x hx' (of_mem_concat hmem (by simpa))
  case active =>
    intro id hactive
    by_cases hid : id = t.id
    · exact ⟨t, List.mem_append_right _ List.mem_cons_self, hid.symm⟩
    · have hold := hactive.of_append (fun _ _ _ _ hmem => by cases List.mem_singleton.mp hmem)
        (fun hmem => hid (by simpa using hmem))
      obtain ⟨x, hx, hxid⟩ := h.active id hold
      exact ⟨x, List.mem_append_left _ hx, hxid⟩

theorem Kept.nodup (h : Kept s) : (s.timedTasks.map (·.id)).Nodup := by
  have := h.ids
  rw [List.map_append] at this
  exact this.of_append_left

theorem Kept.eq_of_id (h : Kept s) {t t' : TimerTask α} (ht : t ∈ s.timedTasks)
    (ht' : t' ∈ s.timedTasks) (hid : t.id = t'.id) : t = t' :=
  List.inj_on_of_nodup_map h.nodup ht ht' hid

theorem Kept.stopTimer (h : Kept s) (id : Nat) : Kept (s.stopTimer id) := by
  have hsub : (s.timedTasks.eraseP fun t => decide (t.id = id)).Sublist s.timedTasks :=
    List.eraseP_sublist
  have hmem : ∀ t ∈ (s.timedTasks.eraseP fun t => decide (t.id = id)) ++ s.pushing,
      t ∈ s.timedTasks ++ s.pushing := (hsub.append_right _).subset
  have hsingleton : ∀ {e : TimerEvent α}, e ∈ [TimerEvent.stopped id] → e = .stopped id :=
    fun he => List.mem_singleton.mp he
  -- ids are unique, so no other timer of the id is left
  have hgone : ∀ t ∈ s.timedTasks.eraseP fun t => decide (t.id = id), t.id ≠ id :=
    fun t ht => ne_of_mem_eraseP h.nodup ht
  have hjustified : Justified Legit (s.log ++ [.stopped id]) := h.justified.concat trivial
  refine { h.append (fun _ _ _ _ _ he => by cases hsingleton he)
      (fun _ he => by cases hsingleton he) hjustified with
    ids := h.ids.sublist ((hsub.append_right _).map _)
    known := fun t ht => (h.known t (hmem t ht)).append fun _ _ he => by cases hsingleton he
    past := fun t ht => h.past t (hmem t ht)
    listed := ?listed
    unknown := fun t ht he => h.unknown t ht (of_mem_concat he nofun)
    active := ?active
    destroyed := fun he => h.destroyed (of_mem_concat he nofun) }
  case listed =>
    intro t ht
    have hold := h.listed t (hsub.subset ht)
    refine ⟨List.mem_append_left _ hold.1, not_stoppedIn_append hold.2 ?_⟩
    intro he
    cases hsingleton he
    exact hgone t ht rfl
  case active =>
    intro id' hactive
    have hold := hactive.of_append (fun _ _ _ _ he => by cases hsingleton he)
      (fun he => by cases hsingleton he)
    obtain ⟨t, ht, htid⟩ := h.active id' hold
    have hne : t.id ≠ id := by
      rintro heq
      apply hactive.running
      refine ⟨s.log, [], ?_, hold.returned⟩
      rw [← htid, heq]
      rfl
    refine ⟨t, ?_, htid⟩
    exact (List.mem_eraseP_of_neg (by simpa using hne)).mpr ht

/-- What a tick posts. -/
def posts (s : Scheduler α) : List (TimerEvent α) :=
  (s.timedTasks.filter (·.isDue s.now)).map fun t => .posted t.id t.function s.now

theorem tick_cases (hstep : s.tick = some s') : s.isStop = false ∧
    s' = { s with timedTasks := (sweep s.now s.timedTasks).1, log := s.log ++ s.posts } := by
  unfold tick at hstep
  split at hstep
  · cases hstep
  · rename_i hstop
    refine ⟨by simpa using hstop, ?_⟩
    rw [← Option.some.inj hstep]
    simp only [sweep_snd, List.map_map, posts]
    rfl

theorem mem_posts {e : TimerEvent α} (h : e ∈ s.posts) :
    ∃ t ∈ s.timedTasks, t.isDue s.now = true ∧ e = .posted t.id t.function s.now := by
  obtain ⟨t, ht, rfl⟩ := List.mem_map.mp h
  exact ⟨t, (List.mem_filter.mp ht).1, (List.mem_filter.mp ht).2, rfl⟩

/-- Each post of a tick is legitimate, also behind the others of the same tick. -/
theorem Kept.justified_posts (h : Kept s) (hstop : s.isStop = false) :
    Justified Legit (s.log ++ s.posts) := by
  apply h.justified.append
  intro front e back heq
  obtain ⟨tasks, rest, htasks, rfl, hrest⟩ := List.map_eq_append_iff.mp heq
  obtain ⟨t, rest, rfl, rfl, rfl⟩ := List.map_eq_cons_iff.mp hrest
  have hsub := List.filter_sublist (p := fun t => t.isDue s.now) (l := s.timedTasks)
  rw [htasks] at hsub
  have hin : t ∈ tasks ++ t :: rest := List.mem_append_right _ List.mem_cons_self
  have ht : t ∈ s.timedTasks := hsub.subset hin
  have hdue : t.isDue s.now = true := (List.mem_filter.mp (htasks ▸ hin)).2
  have hknown := h.known t (List.mem_append_left _ ht)
  have hdue' : t.timeout ≤ s.now - t.lastExecuteTime := of_decide_eq_true hdue
  have hnone : ∀ e ∈ tasks.map fun t => TimerEvent.posted t.id t.function s.now,
      ∃ x ∈ tasks, e = .posted x.id x.function s.now := by
    intro e he
    obtain ⟨x, hx, rfl⟩ := List.mem_map.mp he
    exact ⟨x, hx, rfl⟩
  obtain ⟨start, hpushed, hstart⟩ := hknown.pushed
  refine ⟨?_, ?_, t.timeout, t.singleShot, start, List.mem_append_left _ hpushed, by omega, ?_⟩
  · intro hmem
    rcases List.mem_append.mp hmem with hmem | hmem
    · rw [h.destroyed hmem] at hstop
      cases hstop
    · obtain ⟨_, _, he⟩ := hnone _ hmem
      cases he
  · apply not_stoppedIn_append (h.listed t ht).2
    intro hmem
    obtain ⟨_, _, he⟩ := hnone _ hmem
    cases he
  · intro function time hmem
    rcases List.mem_append.mp hmem with hmem | hmem
    · obtain ⟨hsingle, htime⟩ := hknown.posted function time hmem
      exact ⟨hsingle, by omega⟩
    · -- an earlier timer of this tick has another id
      obtain ⟨x, hx, he⟩ := hnone _ hmem
      have hids := h.nodup.sublist (hsub.map _)
      rw [List.map_append, List.map_cons, List.nodup_append] at hids
      refine absurd ?_ (hids.2.2 _ (List.mem_map_of_mem hx) t.id List.mem_cons_self)
      exact (TimerEvent.posted.inj he).1.symm

theorem Known.tick {t : TimerTask α} (h : Known s.log t) (ht : t ∈ s.timedTasks)
    (hdue : t.isDue s.now = true) (hsingle : t.singleShot = false)
    (hpast : t.lastExecuteTime ≤ s.now) : Known (s.log ++ s.posts) (t.executedAt s.now) where
  pushed := by
    obtain ⟨start, hpushed, hle⟩ := h.pushed
    exact ⟨start, List.mem_append_left _ hpushed, Int.le_trans hle hpast⟩
  last := .inr (List.mem_append_right _
    (List.mem_map.mpr ⟨t, List.mem_filter.mpr ⟨ht, hdue⟩, rfl⟩))
  posted := by
    intro function time hmem
    refine ⟨hsingle, ?_⟩
    rcases List.mem_append.mp hmem with hmem | hmem
    · exact Int.le_trans (h.posted function time hmem).2 hpast
    · obtain ⟨x, -, -, he⟩ := mem_posts hmem
      exact Int.le_of_eq (TimerEvent.posted.inj he).2.2

theorem Kept.tick (h : Kept s) (hstep : s.tick = some s') : Kept s' := by
  obtain ⟨hstop, rfl⟩ := tick_cases hstep
  have hsweep : ((sweep s.now s.timedTasks).1.map (·.id)).Sublist (s.timedTasks.map (·.id)) :=
    sweep_ids
  have hids := hsweep.append_right (s.pushing.map (·.id))
  rw [← List.map_append, ← List.map_append] at hids
  refine { h.append ?_ ?_ (h.justified_posts hstop) with
    ids := h.ids.sublist hids
    known := ?known, past := ?past, listed := ?listed, unknown := ?unknown, active := ?active
    destroyed := ?destroyed }
  case refine_1 =>
    intro _ _ _ _ _ hmem
    obtain ⟨_, _, _, he⟩ := mem_posts hmem
    cases he
  case refine_2 =>
    intro _ hmem
    obtain ⟨_, _, _, he⟩ := mem_posts hmem
    cases he
  case known =>
    intro t ht
    rcases List.mem_append.mp ht with ht | ht
    · obtain ⟨x, hx, ⟨hnot, rfl⟩ | ⟨hdue, hsingle, rfl⟩⟩ := mem_sweep_fst.mp ht
      · apply (h.known t (List.mem_append_left _ hx)).append
        intro _ _ hmem
        obtain ⟨y, hy, hdue, he⟩ := mem_posts hmem
        rw [h.eq_of_id hx hy (TimerEvent.posted.inj he).1, hdue] at hnot
        cases hnot
      · exact (h.known x (List.mem_append_left _ hx)).tick hx hdue hsingle
          (h.past x (List.mem_append_left _ hx))
    · apply (h.known t (List.mem_append_right _ ht)).append
      intro _ _ hmem
      obtain ⟨y, hy, -, he⟩ := mem_posts hmem
      have := h.ids
      rw [List.map_append, List.nodup_append] at this
      exact this.2.2 _ (List.mem_map_of_mem hy) _ (List.mem_map_of_mem ht)
        (TimerEvent.posted.inj he).1.symm
  case past =>
    intro t ht
    rcases List.mem_append.mp ht with ht | ht
    · obtain ⟨x, hx, ⟨-, rfl⟩ | ⟨-, -, rfl⟩⟩ := mem_sweep_fst.mp ht
      · exact h.past t (List.mem_append_left _ hx)
      · exact Int.le_refl _
    · exact h.past t (List.mem_append_right _ ht)
  case listed =>
    intro t ht
    obtain ⟨x, hx, hid⟩ : ∃ x ∈ s.timedTasks, t.id = x.id := by
      obtain ⟨x, hx, ⟨-, rfl⟩ | ⟨-, -, rfl⟩⟩ := mem_sweep_fst.mp ht
      · exact ⟨t, hx, rfl⟩
      · exact ⟨x, hx, rfl⟩
    rw [hid]
    refine ⟨List.mem_append_left _ (h.listed x hx).1, not_stoppedIn_append (h.listed x hx).2 ?_⟩
    intro hmem
    obtain ⟨_, _, _, he⟩ := mem_posts hmem
    cases he
  case unknown =>
    intro t ht hmem
    rcases List.mem_append.mp hmem with hmem | hmem
    · exact h.unknown t ht hmem
    · obtain ⟨_, _, _, he⟩ := mem_posts hmem
      cases he
  case active =>
    intro id hactive
    have hold := hactive.of_append
      (fun _ _ _ _ hmem => by obtain ⟨_, _, _, he⟩ := mem_posts hmem; cases he)
      (fun hmem => by obtain ⟨_, _, _, he⟩ := mem_posts hmem; cases he)
    obtain ⟨t, ht, rfl⟩ := h.active id hold
    cases hdue : t.isDue s.now with
    | false => exact ⟨t, mem_sweep_fst.mpr ⟨t, ht, .inl ⟨hdue, rfl⟩⟩, rfl⟩
    | true =>
      cases hsingle : t.singleShot with
      | false => exact ⟨_, mem_sweep_fst.mpr ⟨t, ht, .inr ⟨hdue, hsingle, rfl⟩⟩, rfl⟩
      | true =>
        -- a single shot that is posted is not active any more
        obtain ⟨_, _, _, _, hpushed, hnone⟩ := hactive.pushed
        obtain ⟨start, hpushed', -⟩ := (h.known t (List.mem_append_left _ ht)).pushed
        have hpost : .posted t.id t.function s.now ∈ s.posts :=
          List.mem_map.mpr ⟨t, List.mem_filter.mpr ⟨ht, hdue⟩, rfl⟩
        have hpushed := (List.mem_append.mp hpushed).resolve_right fun hmem => by
          obtain ⟨_, _, _, he⟩ := mem_posts hmem
          cases he
        obtain ⟨-, -, hsame, -⟩ := h.once _ _ _ _ _ _ _ _ _ hpushed hpushed'
        exact absurd (List.mem_append_right _ hpost) (hnone (hsame.trans hsingle) _ _)
  case destroyed =>
    intro hmem
    rcases List.mem_append.mp hmem with hmem | hmem
    · exact h.destroyed hmem
    · obtain ⟨_, _, _, he⟩ := mem_posts hmem
      cases he

theorem Kept.destroy (h : Kept s) :
    Kept { s with isStop := true, log := s.log ++ [.destroyed] } := by
  have hsingleton : ∀ {e : TimerEvent α}, e ∈ [TimerEvent.destroyed] → e = .destroyed :=
    fun he => List.mem_singleton.mp he
  have hjustified : Justified Legit (s.log ++ [.destroyed]) := h.justified.concat trivial
  refine { h.append (fun _ _ _ _ _ he => by cases hsingleton he)
      (fun _ he => by cases hsingleton he) hjustified with
    ids := h.ids
    known := fun t ht => (h.known t ht).append fun _ _ he => by cases hsingleton he
    past := h.past
    listed := fun t ht => ⟨List.mem_append_left _ (h.listed t ht).1,
      not_stoppedIn_append (h.listed t ht).2 fun he => by cases hsingleton he⟩
    unknown := fun t ht he => h.unknown t ht (of_mem_concat he nofun)
    active := fun id hactive => h.active id (hactive.of_append
      (fun _ _ _ _ he => by cases hsingleton he) (fun he => by cases hsingleton he))
    destroyed := fun _ => rfl }

theorem Kept.step (h : Kept s) {action : SchedulerAction α} (hcounts : Counts s action)
    (hstep : s.step action = some s') : Kept s' := by
  cases action with
  | elapse duration => exact Option.some.inj hstep ▸ h.elapse duration
  | create function timeout singleShot =>
    exact Option.some.inj hstep ▸ h.create hcounts function timeout singleShot
  | splice index => exact h.splice hstep
  | stopTimer id => exact Option.some.inj hstep ▸ h.stopTimer id
  | tick => exact h.tick hstep
  | destroy => exact Option.some.inj hstep ▸ h.destroy

end Steps

theorem Run.kept (h : Run step Counts {} s) : Kept s :=
  h.invariant .start fun hkept hcounts => hkept.step hcounts

/-- No timer is posted early, twice as a single shot, after it was stopped or when the scheduler
is gone; and a tick leaves out no timer that is active and whose time has come. -/
theorem posts_on_time (h : Run step Counts {} s) : Justified Legit s.log ∧
    ∀ s', s.tick = some s' → ∃ more, s'.log = s.log ++ more ∧
      ∀ id timeout function singleShot start,
        .pushed id timeout function singleShot start ∈ s.log → Active s.log id →
        start + timeout ≤ s.now →
        (∀ function' time, .posted id function' time ∈ s.log → time + timeout ≤ s.now) →
        .posted id function s.now ∈ more := by
  have hkept := Run.kept h
  refine ⟨hkept.justified, ?_⟩
  intro s' hstep
  obtain ⟨-, rfl⟩ := tick_cases hstep
  refine ⟨s.posts, rfl, ?_⟩
  intro id timeout function singleShot start hpushed hactive hstart hposted
  obtain ⟨t, ht, rfl⟩ := hkept.active id hactive
  have hknown := hkept.known t (List.mem_append_left _ ht)
  obtain ⟨start', hpushed', -⟩ := hknown.pushed
  obtain ⟨rfl, rfl, -, rfl⟩ := hkept.once _ _ _ _ _ _ _ _ _ hpushed hpushed'
  have hlast : t.lastExecuteTime + t.timeout ≤ s.now := by
    rcases hknown.last with hlast | hlast
    · obtain ⟨-, -, -, rfl⟩ := hkept.once _ _ _ _ _ _ _ _ _ hpushed hlast
      exact hstart
    · exact hposted _ _ hlast
  have hdue : t.isDue s.now = true := decide_eq_true (by omega)
  exact List.mem_map.mpr ⟨t, List.mem_filter.mpr ⟨ht, hdue⟩, rfl⟩

/-- A timer of five that was pushed five ago. -/
theorem run_pushed : Run step Counts {} ({
    timedTasks := [{ lastExecuteTime := 0, id := 1, timeout := 5, function := 7, singleShot := true }]
    idCounter := 1, now := 5, log := [.pushed 1 5 7 true 0, .returned 1] } : Scheduler Nat) :=
  .step (.elapse 5) (.step (.splice 0) (.step (.create 7 5 true) .start (by show 0 + 1 < 2 ^ 32; decide) rfl)
    trivial rfl) trivial rfl

theorem posts_on_time_once : ∃ more, [.pushed 1 5 7 true 0, .returned 1, .posted 1 7 5] =
    ([.pushed 1 5 7 true 0, .returned 1] ++ more : List (TimerEvent Nat)) ∧
      .posted 1 7 5 ∈ more := by
  obtain ⟨more, heq, hall⟩ := (posts_on_time run_pushed).2 _ rfl
  refine ⟨more, heq, hall 1 5 7 true 0 List.mem_cons_self ?_ (by decide) ?_⟩
  · refine ⟨⟨5, 7, true, 0, List.mem_cons_self, by simp⟩, by simp, ?_⟩
    rintro ⟨before, after, hlog, -⟩
    have hmem : .stopped 1 ∈ before ++ .stopped 1 :: after :=
      List.mem_append_right _ List.mem_cons_self
    rw [← hlog] at hmem
    simp at hmem
  · intro function time hmem
    simp at hmem

end Scheduler

end Icq.Core
