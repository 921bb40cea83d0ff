import Mathlib.Data.List.Sort

/-! The queue packets wait in: by priority, and one packet of a key out at a time. -/

namespace Icq.Wim

structure PacketQueue (κ α : Type) where
  extractedElements : List κ := []
  queue : List α := []
  limit : Nat := 1

namespace PacketQueue

variable {κ α : Type} [DecidableEq κ] (key : α → κ) (priority : α → Int)

def isEmpty (q : PacketQueue κ α) : Bool := q.queue.isEmpty

def isLimitReached (q : PacketQueue κ α) : Bool := decide (q.limit ≤ q.extractedElements.length)

/-- No element of its key is out. -/
def notExtracted (q : PacketQueue κ α) (a : α) : Bool := decide (key a ∉ q.extractedElements)

def canPopElement (q : PacketQueue κ α) : Bool :=
  !q.isEmpty && !q.isLimitReached && q.queue.any (q.notExtracted key)

/-- The first element whose key is not out; the queue that has none asserts. -/
def pop (q : PacketQueue κ α) : Option (α × PacketQueue κ α) :=
  (q.queue.find? (q.notExtracted key)).map fun a =>
    (a, { q with queue := q.queue.eraseP (q.notExtracted key)
                 extractedElements := q.extractedElements.insert (key a) })

/-- Behind every element that is not less urgent. -/
def enqueue (q : PacketQueue κ α) (a : α) : PacketQueue κ α :=
  { q with queue := q.queue.orderedInsert (fun v x => priority v < priority x) a }

def allowUsing (q : PacketQueue κ α) (k : κ) : PacketQueue κ α :=
  { q with extractedElements := q.extractedElements.erase k }

def setLimit (q : PacketQueue κ α) (limit : Nat) : PacketQueue κ α := { q with limit }

omit [DecidableEq κ] in
theorem enqueue_perm (q : PacketQueue κ α) (a : α) :
    (q.enqueue priority a).queue.Perm (a :: q.queue) := List.perm_orderedInsert _ a q.queue

@[simp] theorem allowUsing_queue (q : PacketQueue κ α) (k : κ) :
    (q.allowUsing k).queue = q.queue := rfl

/-- The popped element is the first whose key is not out, and its key is out then. -/
theorem pop_eq_some {q q' : PacketQueue κ α} {a : α} (h : q.pop key = some (a, q')) :
    ∃ front back, q.queue = front ++ a :: back ∧ (∀ b ∈ front, key b ∈ q.extractedElements) ∧
      key a ∉ q.extractedElements ∧
      q' = { q with queue := front ++ back, extractedElements := key a :: q.extractedElements } := by
  obtain ⟨b, hb, he⟩ := Option.map_eq_some_iff.mp h
  obtain ⟨rfl, rfl⟩ := Prod.mk.injEq .. ▸ he
  obtain ⟨hp, front, back, hq, hf⟩ := List.find?_eq_some_iff_append.mp hb
  have hout : ∀ c ∈ front, key c ∈ q.extractedElements := fun c hc => by
    simpa [notExtracted] using hf c hc
  have hfront : ∀ c ∈ front, ¬ q.notExtracted key c := fun c hc => by simpa using hf c hc
  have hnot : key b ∉ q.extractedElements := of_decide_eq_true hp
  refine ⟨front, back, hq, hout, hnot, ?_⟩
  have hrest : q.queue.eraseP (q.notExtracted key) = front ++ back := by
    rw [hq, List.eraseP_append_right _ hfront, List.eraseP_cons_of_pos hp]
  rw [hrest, List.insert_of_not_mem hnot]

/-- What is popped leaves the queue, and nothing else does. -/
theorem pop_perm {q q' : PacketQueue κ α} {a : α} (h : q.pop key = some (a, q')) :
    q.queue.Perm (a :: q'.queue) := by
  obtain ⟨front, back, hq, -, -, rfl⟩ := pop_eq_some key h
  rw [hq]
  exact List.perm_middle

theorem pop_of_canPopElement {q : PacketQueue κ α} (h : q.canPopElement key = true) :
    (q.pop key).isSome := by
  obtain ⟨a, ha, hk⟩ := List.any_eq_true.mp (Bool.and_eq_true_iff.mp h).2
  have hf : (q.queue.find? (q.notExtracted key)).isSome := List.find?_isSome.mpr ⟨a, ha, hk⟩
  simpa [pop] using hf

end PacketQueue

end Icq.Wim
