import Icq.Lib.Run
import Icq.Wim.PacketQueue
import Mathlib.Data.List.Perm.Lattice

/-! What a packet queue gives out over everything that is done with it. -/

namespace Icq.Wim
open Icq.Lib

/-- A packet and how many came before it. -/
structure Ticket (α : Type) where
  number : Nat
  packet : α

/-- A queue, with what was put into it, what is out and what was given back, and with the limit
that was in force when a packet was last taken. -/
structure QueueUse (κ α : Type) where
  queue : PacketQueue κ (Ticket α) := {}
  enqueued : List (Ticket α) := []
  out : List (Ticket α) := []
  completed : List (Ticket α) := []
  limitAtTake : Nat := 0

inductive QueueCall (κ α : Type) where
  | enqueue (packet : α)
  | take
  | allowUsing (key : κ)
  | setLimit (limit : Nat)

namespace QueueUse

variable {κ α : Type} (key : α → κ) (priority : α → Int)

def ticketKey (t : Ticket α) : κ := key t.packet

def ticketPriority (t : Ticket α) : Int := priority t.packet

def enqueue (u : QueueUse κ α) (packet : α) : QueueUse κ α :=
  let ticket : Ticket α := { number := u.enqueued.length, packet }
  { u with
    queue := u.queue.enqueue (ticketPriority priority) ticket
    enqueued := u.enqueued ++ [ticket] }

/-- Nobody pops without asking whether there is something to pop. -/
def take [DecidableEq κ] (u : QueueUse κ α) : Option (QueueUse κ α) :=
  if u.queue.canPopElement (ticketKey key) then
    (u.queue.pop (ticketKey key)).map fun (ticket, queue) =>
      { u with queue, out := ticket :: u.out, limitAtTake := u.queue.limit }
  else none

/-- What is out under the key is done with. -/
def allowUsing [DecidableEq κ] (u : QueueUse κ α) (k : κ) : QueueUse κ α :=
  { u with
    queue := u.queue.allowUsing k
    out := u.out.filter fun t => !decide (ticketKey key t = k)
    completed := u.completed ++ u.out.filter fun t => decide (ticketKey key t = k) }

def step [DecidableEq κ] (u : QueueUse κ α) : QueueCall κ α → Option (QueueUse κ α)
  | .enqueue packet => some (u.enqueue priority packet)
  | .take => u.take key
  | .allowUsing k => some (u.allowUsing key k)
  | .setLimit limit => some { u with queue := u.queue.setLimit limit }

/-- More urgent, or as urgent and earlier. -/
def Before (a b : Ticket α) : Prop :=
  ticketPriority priority a < ticketPriority priority b ∨
    ticketPriority priority a = ticketPriority priority b ∧ a.number < b.number

/-- What every run keeps. -/
structure Kept (u : QueueUse κ α) : Prop where
  all : (u.queue.queue ++ u.out ++ u.completed).Perm u.enqueued
  numbers : u.enqueued.map (·.number) = List.range u.enqueued.length
  sorted : u.queue.queue.Pairwise (Before priority)
  keys : u.queue.extractedElements = u.out.map (ticketKey key)
  apart : (u.out.map (ticketKey key)).Nodup
  within : u.out.length ≤ u.limitAtTake

/-- What is promised of a queue in use: nothing is lost, doubled or reordered. -/
structure Orderly [DecidableEq κ] (u : QueueUse κ α) : Prop where
  conserved : (u.queue.queue ++ u.out ++ u.completed).Perm u.enqueued
  numbered : u.enqueued.map (·.number) = List.range u.enqueued.length
  best : ∀ u' t, u.take key = some u' → u'.out = t :: u.out →
    t ∈ u.queue.queue ∧ ticketKey key t ∉ u.out.map (ticketKey key) ∧
      ∀ x ∈ u.queue.queue, ticketKey key x ∉ u.out.map (ticketKey key) →
        ticketPriority priority t < ticketPriority priority x ∨
          ticketPriority priority t = ticketPriority priority x ∧ t.number ≤ x.number
  takes : (u.take key).isSome ↔ u.out.length < u.queue.limit ∧
    ∃ x ∈ u.queue.queue, ticketKey key x ∉ u.out.map (ticketKey key)
  apart : (u.out.map (ticketKey key)).Nodup
  within : u.out.length ≤ u.limitAtTake

section Steps

variable {key priority} {u u' : QueueUse κ α}

theorem Before.of_le {a b c : Ticket α} (h : ticketPriority priority a < ticketPriority priority b)
    (hbc : Before priority b c) : Before priority a c := by
  rcases hbc with h' | h'
  · exact .inl (h.trans h')
  · exact .inl (h.trans_eq h'.1)

/-- The newest ticket goes behind all that are as urgent. -/
theorem sorted_orderedInsert {a : Ticket α} {l : List (Ticket α)}
    (h : l.Pairwise (Before priority)) (hnew : ∀ b ∈ l, b.number < a.number) :
    (l.orderedInsert (fun v x => ticketPriority priority v < ticketPriority priority x) a).Pairwise
      (Before priority) := by
  induction l with
  | nil => exact List.pairwise_singleton _ a
  | cons b l ih =>
    obtain ⟨hb, hl⟩ := List.pairwise_cons.mp h
    rw [List.orderedInsert]
    split
    · rename_i hlt
      refine List.pairwise_cons.mpr ⟨fun c hc => ?_, h⟩
      rcases List.mem_cons.mp hc with rfl | hc
      · exact .inl hlt
      · exact .of_le hlt (hb c hc)
    · rename_i hle
      refine List.pairwise_cons.mpr ⟨fun c hc => ?_, ih hl fun c hc => hnew c (.tail b hc)⟩
      rcases (List.mem_orderedInsert _).mp hc with rfl | hc
      · rcases (not_lt.mp hle).lt_or_eq with hlt | heq
        · exact .inl hlt
        · exact .inr ⟨heq, hnew b (.head l)⟩
      · exact hb c hc

theorem Kept.start : Kept key priority ({} : QueueUse κ α) :=
  ⟨.refl [], rfl, .nil, rfl, .nil, Nat.le_refl 0⟩

theorem Kept.number_lt (h : Kept key priority u) {t : Ticket α} (ht : t ∈ u.enqueued) :
    t.number < u.enqueued.length := by
  have hmem := List.mem_map_of_mem (f := (·.number)) ht
  rw [h.numbers] at hmem
  exact List.mem_range.mp hmem

theorem Kept.mem_enqueued (h : Kept key priority u) {t : Ticket α} (ht : t ∈ u.queue.queue) :
    t ∈ u.enqueued :=
  h.all.subset (List.mem_append_left _ (List.mem_append_left _ ht))

theorem Kept.enqueue (h : Kept key priority u) (packet : α) :
    Kept key priority (u.enqueue priority packet) where
  all := by
    have hinsert := PacketQueue.enqueue_perm (ticketPriority priority) u.queue
      { number := u.enqueued.length, packet }
    refine ((hinsert.append_right u.out).append_right u.completed).trans ?_
    exact (List.Perm.cons _ h.all).trans (List.perm_append_singleton _ _).symm
  numbers := by
    show (u.enqueued ++ [_]).map _ = _
    rw [List.map_append, h.numbers]
    show List.range u.enqueued.length ++ [u.enqueued.length] = List.range (u.enqueued ++ [_]).length
    rw [List.length_append, List.length_singleton, List.range_succ]
  sorted := sorted_orderedInsert h.sorted fun b hb => h.number_lt (h.mem_enqueued hb)
  keys := h.keys
  apart := h.apart
  within := h.within

variable [DecidableEq κ]

theorem take_eq_some (h : u.take key = some u') : ∃ ticket queue,
    u.queue.canPopElement (ticketKey key) = true ∧
      u.queue.pop (ticketKey key) = some (ticket, queue) ∧
      u' = { u with queue, out := ticket :: u.out, limitAtTake := u.queue.limit } := by
  unfold QueueUse.take at h
  split at h
  · rename_i hcan
    obtain ⟨⟨ticket, queue⟩, hpop, rfl⟩ := Option.map_eq_some_iff.mp h
    exact ⟨ticket, queue, hcan, hpop, rfl⟩
  · cases h

theorem Kept.take (h : Kept key priority u) (htake : u.take key = some u') :
    Kept key priority u' := by
  obtain ⟨ticket, queue, hcan, hpop, rfl⟩ := take_eq_some htake
  have hperm := PacketQueue.pop_perm _ hpop
  obtain ⟨front, back, hq, -, hnot, rfl⟩ := PacketQueue.pop_eq_some _ hpop
  have hsublist : (front ++ back).Sublist u.queue.queue := by
    rw [hq]
    exact (List.Sublist.refl front).append (List.sublist_cons_self ticket back)
  refine { all := ?_, numbers := h.numbers, sorted := h.sorted.sublist hsublist, keys := ?_,
           apart := ?_, within := ?_ }
  · refine List.Perm.trans ?_ h.all
    refine List.Perm.append_right u.completed ?_
    exact List.perm_middle.trans (hperm.symm.append_right u.out)
  · show ticketKey key ticket :: u.queue.extractedElements = _
    rw [h.keys]
    rfl
  · rw [h.keys] at hnot
    exact List.nodup_cons.mpr ⟨hnot, h.apart⟩
  · have hfree : u.queue.isLimitReached = false := by
      simp only [PacketQueue.canPopElement, Bool.and_eq_true, Bool.not_eq_true'] at hcan
      exact hcan.1.2
    have hlimit := of_decide_eq_false hfree
    rw [h.keys, List.length_map] at hlimit
    exact Nat.lt_of_not_le hlimit

theorem Kept.allowUsing (h : Kept key priority u) (k : κ) :
    Kept key priority (u.allowUsing key k) where
  all := by
    refine List.Perm.trans ?_ h.all
    have hsplit := List.filter_append_perm (fun t => !decide (ticketKey key t = k)) u.out
    simp only [Bool.not_not] at hsplit
    show (u.queue.queue ++ u.out.filter _ ++ (u.completed ++ u.out.filter _)).Perm _
    rw [List.append_assoc, List.append_assoc]
    refine List.Perm.append_left u.queue.queue ?_
    refine (List.Perm.append_left _ List.perm_append_comm).trans ?_
    rw [← List.append_assoc]
    exact hsplit.append_right u.completed
  numbers := h.numbers
  sorted := h.sorted
  keys := by
    show u.queue.extractedElements.erase k = (u.out.filter _).map _
    rw [h.keys, h.apart.erase_eq_filter, List.filter_map]
    rfl
  apart := h.apart.sublist (List.filter_sublist.map _)
  within := (List.length_filter_le _ _).trans h.within

theorem Kept.step (h : Kept key priority u) {call : QueueCall κ α}
    (hstep : u.step key priority call = some u') : Kept key priority u' := by
  cases call with
  | enqueue packet =>
    cases hstep
    exact h.enqueue packet
  | take => exact h.take hstep
  | allowUsing k =>
    cases hstep
    exact h.allowUsing k
  | setLimit limit =>
    cases hstep
    exact ⟨h.all, h.numbers, h.sorted, h.keys, h.apart, h.within⟩

theorem Kept.best (h : Kept key priority u) {t : Ticket α} (htake : u.take key = some u')
    (hout : u'.out = t :: u.out) :
    t ∈ u.queue.queue ∧ ticketKey key t ∉ u.out.map (ticketKey key) ∧
      ∀ x ∈ u.queue.queue, ticketKey key x ∉ u.out.map (ticketKey key) →
        ticketPriority priority t < ticketPriority priority x ∨
          ticketPriority priority t = ticketPriority priority x ∧ t.number ≤ x.number := by
  obtain ⟨ticket, queue, -, hpop, rfl⟩ := take_eq_some htake
  obtain ⟨rfl, -⟩ := List.cons.inj hout
  obtain ⟨front, back, hq, hfront, hnot, -⟩ := PacketQueue.pop_eq_some _ hpop
  rw [h.keys] at hfront hnot
  refine ⟨hq ▸ List.mem_append_right _ (.head _), hnot, fun x hx hfree => ?_⟩
  have hsorted := h.sorted
  rw [hq] at hx hsorted
  rcases List.mem_append.mp hx with hx | hx
  · exact absurd (hfront x hx) hfree
  · rcases List.mem_cons.mp hx with rfl | hx
    · exact .inr ⟨rfl, Nat.le_refl _⟩
    · have hbefore := (List.pairwise_cons.mp (List.pairwise_append.mp hsorted).2.1).1 x hx
      exact hbefore.imp_right fun h' => ⟨h'.1, Nat.le_of_lt h'.2⟩

theorem Kept.takes (h : Kept key priority u) :
    (u.take key).isSome ↔ u.out.length < u.queue.limit ∧
      ∃ x ∈ u.queue.queue, ticketKey key x ∉ u.out.map (ticketKey key) := by
  constructor
  · intro hsome
    obtain ⟨u', htake⟩ := Option.isSome_iff_exists.mp hsome
    obtain ⟨ticket, queue, -, hpop, rfl⟩ := take_eq_some htake
    have hbest := h.best htake rfl
    refine ⟨?_, ticket, hbest.1, hbest.2.1⟩
    exact Nat.lt_of_succ_le (h.take htake).within
  · rintro ⟨hlimit, x, hx, hfree⟩
    have hreached : u.queue.isLimitReached = false := by
      apply decide_eq_false
      rw [h.keys, List.length_map]
      exact Nat.not_le_of_lt hlimit
    have hany : u.queue.queue.any (u.queue.notExtracted (ticketKey key)) = true := by
      refine List.any_eq_true.mpr ⟨x, hx, decide_eq_true ?_⟩
      rwa [h.keys]
    have hempty : u.queue.isEmpty = false := by
      rw [PacketQueue.isEmpty, List.isEmpty_eq_false_iff]
      exact List.ne_nil_of_mem hx
    have hcan : u.queue.canPopElement (ticketKey key) = true := by
      rw [PacketQueue.canPopElement, hempty, hreached, hany]
      rfl
    rw [QueueUse.take, if_pos hcan, Option.isSome_map]
    exact PacketQueue.pop_of_canPopElement _ hcan

theorem Kept.orderly (h : Kept key priority u) : Orderly key priority u :=
  ⟨h.all, h.numbers, fun _ _ htake hout => h.best htake hout, h.takes, h.apart, h.within⟩

/-- In every run the queue gives out each packet once, the most urgent ones first and of these the
earliest, one of a key at a time and no more than the limit allows. -/
theorem run_orderly (h : Run (step key priority) (fun _ _ => True) {} u) :
    Orderly key priority u := by
  have hkept : Kept key priority u := by
    apply h.invariant Kept.start
    intro _ _ _ hs _ hstep
    exact hs.step hstep
  exact hkept.orderly

end Steps

/-- Three packets of two keys; the first is out, and the limit is raised. -/
def threePackets : QueueUse Nat (Nat × Int) where
  queue := { extractedElements := [7], queue := [⟨2, (8, 1)⟩, ⟨1, (7, 2)⟩], limit := 2 }
  enqueued := [⟨0, (7, 0)⟩, ⟨1, (7, 2)⟩, ⟨2, (8, 1)⟩]
  out := [⟨0, (7, 0)⟩]
  limitAtTake := 1

theorem run_orderly_threePackets : Orderly Prod.fst Prod.snd threePackets :=
  run_orderly <|
    .step (.setLimit 2) (.step (.enqueue (8, 1)) (.step (.enqueue (7, 2)) (.step .take
      (.step (.enqueue (7, 0)) .start trivial rfl) trivial rfl) trivial rfl) trivial rfl) trivial rfl

end QueueUse

end Icq.Wim
