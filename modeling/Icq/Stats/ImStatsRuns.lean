import Icq.Lib.Tally
import Icq.Stats.ImStats
import Mathlib.Data.Multiset.MapFold

namespace Icq.Stats
open Icq.Lib Icq.Common

/-- The events that a node stands for. -/
def EventNode.events (n : EventNode) : List (ImStatEventNames × EventProps) :=
  match n.name.bind ImStatEventNames.ofText, n.params with
  | some name, some params => List.replicate (n.count.getD 1).toNat (name, params)
  | _, _ => []

theorem countEvent_map (event : ImStatsEvent) (counted : List (ImStatsEvent × Nat)) :
    countEvent event (counted.map (Prod.map id UInt32.ofNat)) =
      (tallyAdd ImStatsEvent.isEqual event counted).map (Prod.map id UInt32.ofNat) := by
  induction counted with
  | nil => rfl
  | cons first rest ih =>
    rw [List.map_cons, countEvent, tallyAdd, Prod.map_fst, id_eq]
    split
    · simp [UInt32.ofNat_add]
    · rw [ih, List.map_cons]

theorem serializeEvents_eq (s : ImStats) : s.serializeEvents =
    (tally ImStatsEvent.isEqual s.events).map fun item => eventCounter (item.1, .ofNat item.2) := by
  have hfold := @List.foldl_hom _ _ _ (List.map (Prod.map id UInt32.ofNat))
    (fun counted e => tallyAdd ImStatsEvent.isEqual e counted)
    (fun checked e => countEvent e checked) s.events []
    fun counted e => countEvent_map e counted
  rw [ImStats.serializeEvents, tally, ← List.map_nil, hfold, List.map_map]
  rfl

/-- A node stands for the events counted, where the counter holds their number. -/
theorem events_eventCounter {e : ImStatsEvent} {n : Nat} (he : e.name.Named) (hpos : 0 < n)
    (hn : n < UInt32.size) :
    (eventCounter (e, .ofNat n)).events = List.replicate n e.key := by
  have hcount : (UInt32.ofNat n).toNat = n := UInt32.toNat_ofNat_of_lt' hn
  have hserialize : e.serialize =
      { name := some (imStatEventToString e.name), params := some e.props } := by
    rw [ImStatsEvent.serialize, if_pos he.text_ne]
  rw [eventCounter, hserialize]
  split
  next =>
    simp only [EventNode.events, Option.bind_some, he.ofText, Option.getD_some, hcount]
    rfl
  next hone =>
    rw [UInt32.lt_iff_toNat_lt, hcount] at hone
    obtain rfl : n = 1 := by
      have : (1 : UInt32).toNat = 1 := rfl
      omega
    simp only [EventNode.events, Option.bind_some, he.ofText, Option.getD_none]
    rfl

/-- Fewer events are stored with the key of one than its counter can tell apart. -/
def ImStats.Countable (s : ImStats) : Prop :=
  ∀ e ∈ s.events, (s.events.map ImStatsEvent.key).count e.key < UInt32.size

theorem countable_of_length {s : ImStats} (h : s.events.length < UInt32.size) : s.Countable := by
  intro e _
  apply Nat.lt_of_le_of_lt List.count_le_length
  rwa [List.length_map]

theorem events_serializeEvents {s : ImStats} (hnamed : ∀ e ∈ s.events, e.name.Named)
    (hcount : s.Countable) :
    (s.serializeEvents.flatMap EventNode.events).Perm (s.events.map ImStatsEvent.key) := by
  have hsame (a b : ImStatsEvent) (h : a.isEqual b = true) : a.key = b.key :=
    ImStatsEvent.isEqual_iff.mp h
  have hnodes : s.serializeEvents.flatMap EventNode.events =
      untally ImStatsEvent.key (tally ImStatsEvent.isEqual s.events) := by
    rw [serializeEvents_eq, List.flatMap_map, untally]
    refine List.flatMap_congr fun item hitem => ?_
    obtain ⟨hpos, hmem⟩ := mem_tally hitem
    apply events_eventCounter (hnamed _ hmem) hpos
    exact Nat.lt_of_le_of_lt (count_of_mem_tally hsame hitem) (hcount _ hmem)
  rw [hnodes]
  exact untally_tally hsame s.events

namespace ImStats

/-- No event exceeds the store interval. -/
def Fresh (s : ImStats) (now : Int) : Prop :=
  0 < s.eventsMaxStoreInterval → ∀ e ∈ s.events, s.isExpired now e = false

variable {s : ImStats} {sendResult : Int32} {now : Int}

@[simp] theorem markAllEventsSent_keys (s : ImStats) (isSent : Bool) :
    (s.markAllEventsSent isSent).events.map ImStatsEvent.key = s.events.map ImStatsEvent.key := by
  rw [markAllEventsSent, List.map_map]
  rfl

theorem removeIf_events (s : ImStats) (p : ImStatsEvent → Bool) :
    (s.removeIf p).events = s.events.filter fun e => !p e := by
  rw [removeIf]
  split
  · rfl
  next h =>
    refine (List.filter_eq_self.mpr fun e he => ?_).symm
    rw [Bool.not_eq_true', ← Bool.not_eq_true]
    exact fun hp => h (List.any_eq_true.mpr ⟨e, he, hp⟩)

theorem removeIf_fresh (hf : s.Fresh now) (hi : 0 < s.eventsMaxStoreInterval) :
    (s.removeIf fun e => e.eventSent || s.isExpired now e).events =
      s.events.filter fun e => !e.eventSent := by
  rw [removeIf_events]
  refine List.filter_congr fun e he => ?_
  rw [hf hi e he, Bool.or_false]

/-- A success removes the events of the batch. -/
theorem clear_success (hs : s.isSending = true) (hf : s.Fresh now) :
    (s.clear 0 now).events = s.events.filter fun e => !e.eventSent := by
  rw [clear]
  split
  next he => rw [List.isEmpty_iff.mp he, List.filter_nil]
  next =>
    split
    next hi =>
      rw [if_pos rfl]
      exact removeIf_fresh (s := { s with lastSentTime := s.startSendTime }) hf hi
    next =>
      rw [if_pos rfl]
      exact removeIf_events _ _

/-- A failure leaves every event to be sent again. -/
theorem clear_failure (hs : s.isSending = true) (hr : sendResult ≠ 0) (hf : s.Fresh now) :
    (s.clear sendResult now).events = (s.markAllEventsSent false).events := by
  rw [clear]
  split
  next he => rw [markAllEventsSent, List.isEmpty_iff.mp he, List.map_nil]
  next =>
    split
    next hi =>
      have hfresh : (s.markAllEventsSent false).Fresh now := by
        intro _ e he
        obtain ⟨e', he', rfl⟩ := List.mem_map.mp he
        exact hf hi e' he'
      refine (removeIf_fresh hfresh hi).trans (List.filter_eq_self.mpr fun e he => ?_)
      obtain ⟨e', -, rfl⟩ := List.mem_map.mp he
      rfl
    next => rfl

end ImStats

namespace StatsRun

/-- Only names of events are inserted, and none exceeds the store interval when a result comes. -/
def Valid (r : StatsRun) : StatsAction → Prop
  | .insertEvent name _ _ => name.Named
  | .result _ now => r.stats.Fresh now
  | _ => True

/-- What is sent can be counted besides. -/
def Allowed (r : StatsRun) : StatsAction → Prop
  | .sendAsync _ => r.stats.Countable
  | action => r.Valid action

/-- Every stored event has a name, the flagged ones are those of the batch on its way, and what was
inserted was received or is stored. -/
structure Balanced (r : StatsRun) : Prop where
  named : ∀ e ∈ r.stats.events, e.name.Named
  sending : r.stats.isSending = false → r.inFlight = [] ∧ ∀ e ∈ r.stats.events, e.eventSent = false
  batch : r.stats.isSending = true → ∃ batch, r.inFlight = [batch] ∧
    (batch.events.flatMap EventNode.events).Perm
      ((r.stats.events.filter fun e => e.eventSent).map ImStatsEvent.key)
  balance : r.inserted.Perm
    (r.received.flatMap EventNode.events ++ r.stats.events.map ImStatsEvent.key)

variable {r : StatsRun}

theorem Balanced.insertEvent (h : r.Balanced) {name : ImStatEventNames} (hn : name.Named)
    (props : EventProps) (time : Int) :
    Balanced { r with
      stats := r.stats.insertEvent name props time
      inserted := r.inserted ++ [(name, sortProps props)] } := by
  have hinsert : r.stats.insertEvent name props time =
      { r.stats with events := r.stats.events ++ [.ofProps name props time], changed := true } := by
    rw [ImStats.insertEvent, if_pos hn.between]
  rw [hinsert]
  constructor
  · intro e he
    rcases List.mem_append.mp he with he | he
    · exact h.named e he
    · obtain rfl := List.mem_singleton.mp he
      exact hn
  · intro hs
    refine ⟨(h.sending hs).1, fun e he => ?_⟩
    rcases List.mem_append.mp he with he | he
    · exact (h.sending hs).2 e he
    · obtain rfl := List.mem_singleton.mp he
      rfl
  · intro hs
    obtain ⟨batch, hflight, hperm⟩ := h.batch hs
    refine ⟨batch, hflight, ?_⟩
    rw [List.filter_append]
    simpa [ImStatsEvent.ofProps] using hperm
  · rw [List.map_append, ← List.append_assoc]
    exact h.balance.append_right _

theorem Balanced.sendAsync (h : r.Balanced) (hc : r.stats.Countable) (now : Int) :
    Balanced { r with
      stats := (r.stats.sendAsync now).1
      inFlight := r.inFlight ++ (r.stats.sendAsync now).2.toList } := by
  rw [ImStats.sendAsync]
  split
  · rw [Option.toList_none, List.append_nil]
    exact h
  next hsend =>
    obtain ⟨-, hs⟩ := not_or.mp (Bool.or_eq_true _ _ ▸ hsend)
    obtain ⟨hflight, -⟩ := h.sending (Bool.eq_false_iff.mpr hs)
    constructor
    · intro e he
      obtain ⟨e', he', rfl⟩ := List.mem_map.mp he
      exact h.named e' he'
    · intro hf
      cases hf
    · intro _
      refine ⟨_, by rw [hflight, List.nil_append, Option.toList_some], ?_⟩
      let sending := { r.stats with isSending := true, startSendTime := now }
      have hall : (sending.markAllEventsSent true).events.filter ImStatsEvent.eventSent =
          (sending.markAllEventsSent true).events := by
        apply List.filter_eq_self.mpr
        intro e he
        obtain ⟨e', -, rfl⟩ := List.mem_map.mp he
        rfl
      show List.Perm (sending.serializeEvents.flatMap EventNode.events) (List.map ImStatsEvent.key
        ((sending.markAllEventsSent true).events.filter ImStatsEvent.eventSent))
      rw [hall, ImStats.markAllEventsSent_keys]
      exact events_serializeEvents h.named hc
    · exact (ImStats.markAllEventsSent_keys _ true).symm ▸ h.balance

theorem Balanced.result (h : r.Balanced) {batch : PostData} {rest : List PostData}
    (hflight : r.inFlight = batch :: rest) (sendResult : Int32) {now : Int}
    (hf : r.stats.Fresh now) :
    Balanced { r with
      stats := r.stats.onResult sendResult now
      inFlight := rest
      received := if sendResult = 0 then r.received ++ batch.events else r.received } := by
  have hs : r.stats.isSending = true := by
    by_contra hs
    have hnil := (h.sending (Bool.eq_false_iff.mpr hs)).1
    rw [hflight] at hnil
    cases hnil
  obtain ⟨batch', hflight', hperm⟩ := h.batch hs
  rw [hflight] at hflight'
  cases hflight'
  by_cases hr : sendResult = 0
  · subst hr
    have hevents : (r.stats.onResult 0 now).events = r.stats.events.filter fun e => !e.eventSent :=
      ImStats.clear_success hs hf
    constructor
    · intro e he
      rw [hevents] at he
      exact h.named e (List.mem_of_mem_filter he)
    · refine fun _ => ⟨rfl, fun e he => ?_⟩
      rw [hevents] at he
      exact Bool.not_eq_true' _ ▸ (List.mem_filter.mp he).2
    · intro hfalse
      cases hfalse
    · dsimp only
      rw [if_pos rfl, hevents, List.flatMap_append, List.append_assoc]
      refine h.balance.trans (.append_left _ ?_)
      refine .trans ?_ (hperm.symm.append_right _)
      rw [← List.map_append]
      exact (List.filter_append_perm _ _).symm.map _
  · have hevents : (r.stats.onResult sendResult now).events =
        (r.stats.markAllEventsSent false).events := ImStats.clear_failure hs hr hf
    constructor
    · intro e he
      rw [hevents] at he
      obtain ⟨e', he', rfl⟩ := List.mem_map.mp he
      exact h.named e' he'
    · refine fun _ => ⟨rfl, fun e he => ?_⟩
      rw [hevents] at he
      obtain ⟨e', -, rfl⟩ := List.mem_map.mp he
      rfl
    · intro hfalse
      cases hfalse
    · dsimp only
      rw [if_neg hr, hevents, ImStats.markAllEventsSent_keys]
      exact h.balance

theorem Balanced.step (h : r.Balanced) {action : StatsAction} {r' : StatsRun}
    (ha : r.Allowed action) (hstep : r.step action = some r') : r'.Balanced := by
  cases action with
  | insertEvent name props time =>
    cases hstep
    exact h.insertEvent ha props time
  | setStoreInterval interval =>
    cases hstep
    exact ⟨h.named, h.sending, h.batch, h.balance⟩
  | sendAsync now =>
    cases hstep
    exact h.sendAsync ha now
  | save =>
    cases hstep
    exact ⟨h.named, h.sending, h.batch, h.balance⟩
  | result sendResult now =>
    rw [StatsRun.step] at hstep
    cases hflight : r.inFlight with
    | nil =>
      rw [hflight] at hstep
      cases hstep
    | cons batch rest =>
      rw [hflight] at hstep
      cases hstep
      exact h.result hflight sendResult ha

/-- The events inserted are those of the batches sent with success and those stored. -/
theorem events_sent_once {now interval : Int} (h : Run step Allowed (start now interval) r) :
    (r.inserted : Multiset (ImStatEventNames × EventProps)) =
      Multiset.ofList (r.received.flatMap EventNode.events) +
        (r.stats.events : Multiset ImStatsEvent).map ImStatsEvent.key := by
  have hb : r.Balanced := by
    apply h.invariant (P := Balanced)
    · exact ⟨fun _ he => absurd he List.not_mem_nil, fun _ => ⟨rfl, fun _ he =>
        absurd he List.not_mem_nil⟩, fun hs => Bool.noConfusion hs, .refl _⟩
    · exact fun hb ha hstep => hb.step ha hstep
  rw [Multiset.map_coe, Multiset.coe_add]
  exact Multiset.coe_eq_coe.mpr hb.balance

/-- Two crashes and a login are sent together, while another crash comes in between. -/
theorem events_sent_once_three :
    ∃ r : StatsRun, Run step Allowed (start 0 0) r ∧
      (r.inserted : Multiset (ImStatEventNames × EventProps)) =
        Multiset.ofList (r.received.flatMap EventNode.events) +
          (r.stats.events : Multiset ImStatsEvent).map ImStatsEvent.key := by
  have hcrash : ImStatEventNames.Named 4000 := by decide
  have hlogin : ImStatEventNames.Named 2000 := by decide
  have hrun : Run step Allowed (start 0 0) _ :=
    .step (.result 0 9) (.step (.insertEvent 4000 [] 8) (.step (.sendAsync 7)
      (.step (.insertEvent 4000 [] 3) (.step (.insertEvent 2000 [([1], [2])] 2)
        (.step (.insertEvent 4000 [] 1) .start hcrash rfl) hlogin rfl) hcrash rfl)
          (countable_of_length (by decide)) rfl) hcrash rfl) (fun h => absurd h (by decide)) rfl
  exact ⟨_, hrun, events_sent_once hrun⟩

def crash : ImStatsEvent := .ofProps 4000 [] 0

def crashes (n : Nat) : StatsRun :=
  { stats := { ImStats.start 0 0 with events := List.replicate n crash, changed := decide (0 < n) }
    inserted := List.replicate n crash.key }

theorem run_crashes (n : Nat) : Run step Valid (start 0 0) (crashes n) := by
  induction n with
  | zero => exact .start
  | succ n ih =>
    have hnamed : ImStatEventNames.Named 4000 := by decide
    have hnext : crashes (n + 1) = { crashes n with
        stats := (crashes n).stats.insertEvent 4000 [] 0
        inserted := (crashes n).inserted ++ [crash.key] } := by
      rw [crashes, List.replicate_succ', List.replicate_succ']
      rfl
    exact hnext ▸ .step (.insertEvent 4000 [] 0) ih hnamed rfl

theorem tally_crashes (n : Nat) :
    tally ImStatsEvent.isEqual (List.replicate (n + 1) crash) = [(crash, n + 1)] := by
  induction n with
  | zero => rfl
  | succ n ih =>
    rw [List.replicate_succ', tally, List.foldl_append]
    change tallyAdd _ crash (tally ImStatsEvent.isEqual (List.replicate (n + 1) crash)) = _
    rw [ih, tallyAdd, if_pos (ImStatsEvent.isEqual_iff.mpr rfl)]

theorem run_crashes_sent (n : Nat) : ∃ r, Run step Valid (start 0 0) r ∧
    r.inserted = List.replicate (n + 1) crash.key ∧
    r.received = [eventCounter (crash, .ofNat (n + 1))] ∧ r.stats.events = [] := by
  let sending : ImStats := { (crashes (n + 1)).stats with isSending := true, startSendTime := 0 }
  have hsend : (crashes (n + 1)).stats.sendAsync 0 =
      (sending.markAllEventsSent true, some (sending.getPostData 0)) := rfl
  have hfresh : (sending.markAllEventsSent true).Fresh 0 := fun h => absurd h (Int.lt_irrefl 0)
  have hnodes : sending.serializeEvents = [eventCounter (crash, .ofNat (n + 1))] := by
    rw [serializeEvents_eq]
    exact congrArg (List.map _) (tally_crashes n)
  refine ⟨_, .step (.result 0 0) (.step (.sendAsync 0) (run_crashes (n + 1)) trivial rfl) hfresh rfl,
    rfl, hnodes, ?_⟩
  refine (ImStats.clear_success rfl hfresh).trans (List.filter_eq_nil_iff.mpr fun e he => ?_)
  obtain ⟨e', -, rfl⟩ := List.mem_map.mp he
  exact Bool.false_ne_true

/-- The counter of 2^32 equal events starts again at zero. -/
theorem events_lost_of_full_counter :
    ¬ ∀ (now interval : Int) (r : StatsRun), Run step Valid (start now interval) r →
      (r.inserted : Multiset (ImStatEventNames × EventProps)) =
        Multiset.ofList (r.received.flatMap EventNode.events) +
          (r.stats.events : Multiset ImStatsEvent).map ImStatsEvent.key := by
  intro h
  obtain ⟨r, hrun, hinserted, hreceived, hstored⟩ := run_crashes_sent (2 ^ 32 - 1)
  have hcard := congrArg Multiset.card (h 0 0 r hrun)
  have hzero : UInt32.ofNat (2 ^ 32 - 1 + 1) = 0 := by decide
  rw [hinserted, hreceived, hstored, hzero] at hcard
  have hnode : [eventCounter (crash, 0)].flatMap EventNode.events = [crash.key] := by decide
  rw [hnode, Multiset.coe_card, List.length_replicate] at hcard
  simp at hcard

end StatsRun

end Icq.Stats
