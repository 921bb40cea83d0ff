import Icq.Archive.PendingDeletes
import Icq.Wim.DeletesSending

/-! No deletion is lost: it waits until the server was told of it. -/

namespace Icq.Archive
open Icq.Lib

namespace PendingOperations

variable {env : PendingEnvironment} {contact other : Bytes} {d x : DeleteMessage}

theorem deletionsOf_removeDeletedMessage (s : PendingOperations) (contact other : Bytes)
    (d : DeleteMessage) : (s.removeDeletedMessage contact d).deletionsOf other =
      if contact = other then (s.deletionsOf other).filter fun x => !d.same x
      else s.deletionsOf other := by
  unfold removeDeletedMessage
  split
  · rename_i hnone
    split
    · rename_i hc
      simp [deletionsOf, ← hc, hnone]
    · rfl
  · rename_i entry hentry
    have hdeletions : s.deletionsOf contact = entry.messages := by simp [deletionsOf, hentry]
    by_cases hc : contact = other
    · subst hc
      rw [if_pos rfl, hdeletions]
      dsimp only
      split
      · rename_i hempty
        simpa [deletionsOf, DeleteMessage.same] using (List.isEmpty_iff.mp hempty).symm
      · simp [deletionsOf, DeleteMessage.same]
    · rw [if_neg hc]
      dsimp only
      split
      · simp [deletionsOf, Ne.symm hc]
      · simp [deletionsOf, hc]

theorem mem_pushTo {l : List DeleteMessage} (h : x ∈ l) : x ∈ d.pushTo l :=
  (Removal.prefix_pushTo d l).subset h

theorem mem_insertDeletedMessage {s : PendingOperations} (h : x ∈ s.deletionsOf other) :
    x ∈ (s.insertDeletedMessage env contact d).deletionsOf other := by
  rw [deletionsOf_insertDeletedMessage]
  split
  · exact mem_pushTo h
  · exact h

/-- The messages of the server add deletions and take none. -/
theorem mem_remove {s : PendingOperations} (removeIfModified : Bool) (data : List HistoryMessage)
    (h : x ∈ s.deletionsOf other) :
    x ∈ (s.remove env contact removeIfModified data).1.deletionsOf other := by
  have hkept : s.deletionsOf contact <+: (s.removal env contact removeIfModified data).deletions := by
    have hrecords : Removal.Records contact (s.deletionsOf contact)
        (s.removal env contact removeIfModified data) := by
      unfold removal
      refine List.foldlRecOn data _ (motive := Removal.Records contact _)
        ⟨List.prefix_rfl, by simp, by simp⟩ ?_
      exact fun r hr block _ => Removal.removeBlock_records block hr
    exact hrecords.kept
  have hset : x ∈ (s.setDeletions contact
      (s.removal env contact removeIfModified data).deletions).deletionsOf other := by
    rw [deletionsOf_setDeletions]
    · split
      · rename_i hc
        exact hkept.subset (hc ▸ h)
      · exact h
    · intro hnil
      exact List.prefix_nil.mp (hnil ▸ hkept)
  unfold remove
  split
  · exact h
  · dsimp only
    split
    · exact hset
    · exact hset

theorem mem_step {s : PendingOperations} (action : PendingAction) (h : x ∈ s.deletionsOf other) :
    x ∈ (s.step env action).deletionsOf other := by
  cases action with
  | insertMessage aimid message => exact h
  | updateMessageIfExist aimid message =>
    show x ∈ ((s.updateMessageIfExist aimid message).getD s).deletionsOf other
    cases hupdate : s.updateMessageIfExist aimid message with
    | none => exact h
    | some s' =>
      obtain ⟨_, _, rfl⟩ := Option.map_eq_some_iff.mp hupdate
      exact h
  | insertDeletedMessage contact message => exact mem_insertDeletedMessage h
  | remove aimid removeIfModified data => exact mem_remove removeIfModified data h
  | updateWithImstate id histMsgId beforeHistMsgId =>
    show x ∈ (s.updateWithImstate env id histMsgId beforeHistMsgId).1.deletionsOf other
    unfold updateWithImstate
    split
    · exact h
    · split
      · split
        · exact mem_insertDeletedMessage h
        · split
          · exact h
          · exact h
      · exact h
  | failedPendingMessage id =>
    show x ∈ (s.failedPendingMessage id).deletionsOf other
    unfold failedPendingMessage
    split
    · exact h
    · exact h

end PendingOperations

end Icq.Archive

namespace Icq.Wim
open Icq.Archive Icq.Lib

/-- The packet says that the message of the contact is deleted; of a history it says that some of
it is. -/
def DeletePacket.Tells (p : DeletePacket) (contact : Bytes) (d : DeleteMessage) : Prop :=
  match d.operation with
  | .delUpTo => ∃ upToId, p = .delHistory contact upToId
  | .delForMe => ∃ ids, p = .delMessageBatch contact ids false ∧ d.messageId ∈ ids
  | .delForAll => ∃ ids, p = .delMessageBatch contact ids true ∧ d.messageId ∈ ids
  | .min | .max => False

namespace DeleteBatch

variable {b : DeleteBatch} {contact : Bytes} {messages : List DeleteMessage} {d m : DeleteMessage}

/-- A batch has messages, all of its kind, and the kind is sent. -/
structure WellMade (b : DeleteBatch) : Prop where
  nonempty : b.messages ≠ []
  kind : ∀ d ∈ b.messages, d.operation = b.operation
  sent : b.operation.isSent

theorem first_spec (h : first contact messages = some b) :
    b.contact = contact ∧ b.messages.Sublist messages ∧ b.WellMade := by
  have hmem := List.mem_of_find?_eq_some h
  have hnonempty : b.messages ≠ [] := by simpa using List.find?_some h
  obtain ⟨operation, hoperation, rfl⟩ := List.mem_map.mp hmem
  refine ⟨rfl, List.filter_sublist, hnonempty, fun d hd => ?_, ?_⟩
  · exact of_decide_eq_true (List.mem_filter.mp hd).2
  · simp only [List.mem_cons, List.not_mem_nil, or_false] at hoperation
    rcases hoperation with rfl | rfl | rfl <;> rfl

theorem first_isSome (contact : Bytes) (hnonempty : messages ≠ [])
    (hsent : messages.all fun d => d.operation.isSent) : (first contact messages).isSome := by
  obtain ⟨d, rest, rfl⟩ := List.exists_cons_of_ne_nil hnonempty
  have hd : d.operation.isSent := List.all_eq_true.mp hsent d List.mem_cons_self
  rw [first, List.find?_isSome]
  refine ⟨ofKind contact (d :: rest) d.operation, List.mem_map.mpr ⟨d.operation, ?_, rfl⟩, ?_⟩
  · cases hoperation : d.operation <;> simp_all [DeleteOperation.isSent]
  · simp [ofKind]

theorem WellMade.tells (h : b.WellMade) (hm : m ∈ b.messages) (hsame : m.same d) :
    ∃ p, b.packet = some p ∧ p.Tells b.contact d := by
  obtain ⟨hid, hoperation⟩ : m.messageId = d.messageId ∧ m.operation = d.operation := by
    simpa [DeleteMessage.same] using hsame
  have hkind : d.operation = b.operation := hoperation.symm.trans (h.kind m hm)
  have hids : d.messageId ∈ b.makeIds := hid ▸ List.mem_map_of_mem hm
  have hsent := h.sent
  unfold packet DeletePacket.Tells
  rw [hkind]
  cases hb : b.operation with
  | min => simp [hb, DeleteOperation.isSent] at hsent
  | max => simp [hb, DeleteOperation.isSent] at hsent
  | delUpTo =>
    obtain ⟨first, rest, hcons⟩ := List.exists_cons_of_ne_nil h.nonempty
    exact ⟨_, by simp [hcons]; rfl, _, rfl⟩
  | delForMe => exact ⟨_, rfl, _, rfl, hids⟩
  | delForAll => exact ⟨_, rfl, _, rfl, hids⟩

end DeleteBatch

namespace DeletesSending

variable {env : PendingEnvironment} {s s' : DeletesSending} {contact : Bytes} {d : DeleteMessage}
  {batch : DeleteBatch}

/-- The deletion is in the store, or will be when its turn comes. -/
def Waits (s : DeletesSending) (contact : Bytes) (d : DeleteMessage) : Prop :=
  d ∈ s.store.deletionsOf contact ∨
    0 < d.messageId ∧ ∃ posts, .insert contact d posts ∈ s.tasks

/-- The server has answered a packet that tells of the deletion. -/
def Told (s : DeletesSending) (contact : Bytes) (d : DeleteMessage) : Prop :=
  ∃ b ∈ s.answered, ∃ p, b.packet = some p ∧ p.Tells contact d

def DeleteResult.isGot : DeleteResult → Bool
  | .got _ => true
  | .inserted _ => false

/-- The turns of the loop that are on their way. -/
def turns (s : DeletesSending) : Nat :=
  s.tasks.count .get + s.results.countP DeleteResult.isGot + s.inFlight.length

/-- A new program starts another loop, and nothing but the loop takes deletions out. -/
def Allowed (_ : DeletesSending) : DeletesAction → Prop
  | .call (.saveLoad ..) => False
  | .call (.removeDeletedMessage ..) => False
  | _ => True

/-- In front of each removal there is no reading of the store, and behind it there is one. -/
def Lead : List DeleteTask → Prop
  | [] => True
  | .insert .. :: tasks => Lead tasks
  | .get :: tasks => ∀ contact m, .remove contact m ∉ tasks
  | .remove .. :: tasks => .get ∈ tasks ∧ Lead tasks

section Lead

variable {tasks : List DeleteTask}

theorem lead_of_none (h : ∀ contact m, .remove contact m ∉ tasks) : Lead tasks := by
  induction tasks with
  | nil => trivial
  | cons task tasks ih =>
    have hrest : ∀ contact m, .remove contact m ∉ tasks :=
      fun contact m hm => h contact m (List.mem_cons_of_mem _ hm)
    cases task with
    | insert contact message posts => exact ih hrest
    | get => exact hrest
    | remove contact message => exact absurd List.mem_cons_self (h contact message)

theorem Lead.none (h : Lead tasks) (hget : .get ∉ tasks) :
    ∀ contact m, .remove contact m ∉ tasks := by
  induction tasks with
  | nil => simp
  | cons task tasks ih =>
    rw [List.mem_cons, not_or] at hget
    cases task with
    | insert contact message posts => simpa using ih h hget.2
    | get => exact absurd rfl hget.1
    | remove contact message => exact absurd h.1 hget.2

theorem Lead.tail {task : DeleteTask} (h : Lead (task :: tasks)) : Lead tasks := by
  cases task with
  | insert contact message posts => exact h
  | get => exact lead_of_none h
  | remove contact message => exact h.2

/-- What comes last and removes nothing changes nothing in front of it. -/
theorem Lead.concat {task : DeleteTask} (h : Lead tasks)
    (htask : ∀ contact m, task ≠ .remove contact m) : Lead (tasks ++ [task]) := by
  induction tasks with
  | nil => exact lead_of_none (by simpa [eq_comm] using htask)
  | cons first tasks ih =>
    cases first with
    | insert contact message posts => exact ih h
    | get =>
      intro contact m hm
      rcases List.mem_append.mp hm with hm | hm
      · exact h contact m hm
      · exact htask contact m (List.mem_singleton.mp hm).symm
    | remove contact message => exact ⟨List.mem_append_left _ h.1, ih h.2⟩

theorem lead_answer (contact : Bytes) (messages : List DeleteMessage) (hget : .get ∉ tasks)
    (h : Lead tasks) : Lead (tasks ++ messages.map (DeleteTask.remove contact) ++ [.get]) := by
  induction tasks with
  | nil =>
    induction messages with
    | nil => exact lead_of_none (by simp)
    | cons m messages ih => exact ⟨by simp, ih⟩
  | cons task tasks ih =>
    rw [List.mem_cons, not_or] at hget
    cases task with
    | insert contact message posts => exact ih hget.2 h
    | get => exact absurd rfl hget.1
    | remove contact message => exact ⟨by simp, ih hget.2 h.2⟩

end Lead

/-- One turn at most is on its way, and what is to be taken out was answered. -/
structure Orderly (s : DeletesSending) : Prop where
  once : s.turns ≤ if s.active then 1 else 0
  wellMade : ∀ b ∈ s.inFlight ++ s.answered, b.WellMade
  removes : ∀ contact m, .remove contact m ∈ s.tasks →
    ∃ b ∈ s.answered, b.contact = contact ∧ m ∈ b.messages
  lead : Lead s.tasks

theorem Orderly.post (h : Orderly s) : Orderly (s.postPendingDeleteMessages false) := by
  unfold postPendingDeleteMessages
  split
  · exact h
  · rename_i hactive
    have hidle : s.active = false := by simpa using hactive
    have hturns : s.turns = 0 := by simpa [hidle] using h.once
    simp only [turns, Nat.add_eq_zero_iff] at hturns
    refine ⟨?_, h.wellMade, fun contact m hm => h.removes contact m ?_, h.lead.concat (by simp)⟩
    · simp only [turns, List.count_append, hturns]
      decide
    · simpa using hm

@[simp] theorem count_removes (contact : Bytes) (messages : List DeleteMessage) :
    (messages.map (DeleteTask.remove contact)).count .get = 0 := by
  simp [List.count_eq_zero]

theorem Orderly.idle (h : Orderly s) (hturns : s.turns = 0) : Orderly { s with active := false } :=
  ⟨le_of_eq hturns, h.wellMade, h.removes, h.lead⟩

theorem Orderly.onPending (h : Orderly s) (hturns : s.turns = 0) (hactive : s.active = true)
    (found : Option (Bytes × List DeleteMessage)) : Orderly (s.onPendingDeleteMessages found) := by
  unfold onPendingDeleteMessages
  split
  · exact h.idle hturns
  · split
    · split
      · exact h.idle hturns
      · rename_i contact messages hsent batch hfirst
        have hmade := (DeleteBatch.first_spec hfirst).2.2
        refine ⟨?_, ?_, h.removes, h.lead⟩
        · simp only [turns, Nat.add_eq_zero_iff] at hturns
          simp [turns, hactive, hturns]
        · intro b hb
          simp only [List.mem_append, List.mem_singleton] at hb
          rcases hb with (hb | rfl) | hb
          · exact h.wellMade b (List.mem_append_left _ hb)
          · exact hmade
          · exact h.wellMade b (List.mem_append_right _ hb)
    · exact h

/-- What the batch holds is to be taken out, and then the store is read again. -/
theorem onDeleteAnswer_done {error : Int32} (h : ¬(error ≠ 0 ∧ needsToRepeatFailed error)) :
    s.onDeleteAnswer batch error =
      { s with
        active := true, answered := s.answered ++ [batch]
        tasks := s.tasks ++ batch.messages.map (DeleteTask.remove batch.contact) ++ [.get] } := by
  simp [onDeleteAnswer, h, postPendingDeleteMessages]

theorem Orderly.onAnswer (h : Orderly s) (hturns : s.turns = 0) (hmade : batch.WellMade)
    (error : Int32) : Orderly (s.onDeleteAnswer batch error) := by
  by_cases hrepeat : error ≠ 0 ∧ needsToRepeatFailed error
  · rw [onDeleteAnswer, if_pos hrepeat]
    exact h.idle hturns
  · rw [onDeleteAnswer_done hrepeat]
    simp only [turns, Nat.add_eq_zero_iff] at hturns
    have hget : .get ∉ s.tasks := List.count_eq_zero.mp hturns.1.1
    refine ⟨?_, fun b hb => ?_, fun contact m hm => ?_, lead_answer _ _ hget h.lead⟩
    · simp [turns, hturns]
    · simp only [List.mem_append, List.mem_singleton] at hb
      rcases hb with hb | hb | rfl
      · exact h.wellMade b (List.mem_append_left _ hb)
      · exact h.wellMade b (List.mem_append_right _ hb)
      · exact hmade
    · simp only [List.mem_append, List.mem_map, List.mem_singleton, reduceCtorEq, or_false] at hm
      rcases hm with hm | ⟨m', hm', heq⟩
      · obtain ⟨b, hb, hbm⟩ := h.removes contact m hm
        exact ⟨b, List.mem_append_left _ hb, hbm⟩
      · obtain ⟨rfl, rfl⟩ := DeleteTask.remove.inj heq
        exact ⟨batch, List.mem_append_right _ (List.mem_singleton_self _), rfl, hm'⟩

/-- A task that is done leaves the others in their order. -/
theorem Orderly.work (h : Orderly s) (hs : s.work env = some s') : Orderly s' := by
  have hturns := h.once
  have hlead := h.lead
  unfold DeletesSending.work at hs
  split at hs
  · cases hs
  · rename_i contact message posts tasks htasks
    obtain rfl := Option.some.inj hs
    rw [htasks] at hlead
    refine ⟨?_, h.wellMade, fun c m hm => h.removes c m (by simp [htasks, hm]), hlead.tail⟩
    simpa [turns, htasks, DeleteResult.isGot] using hturns
  · rename_i tasks htasks
    obtain rfl := Option.some.inj hs
    rw [htasks] at hlead
    refine ⟨?_, h.wellMade, fun c m hm => h.removes c m (by simp [htasks, hm]), hlead.tail⟩
    simp [turns, htasks, DeleteResult.isGot] at hturns ⊢
    omega
  · rename_i contact message tasks htasks
    obtain rfl := Option.some.inj hs
    rw [htasks] at hlead
    refine ⟨?_, h.wellMade, fun c m hm => h.removes c m (by simp [htasks, hm]), hlead.tail⟩
    simpa [turns, htasks] using hturns

/-- What was read is the one turn there is. -/
theorem Orderly.read_alone (h : Orderly s) {found : Option (Bytes × List DeleteMessage)}
    {results : List DeleteResult} (hresults : s.results = .got found :: results) :
    s.active = true ∧ ({ s with results } : DeletesSending).turns = 0 := by
  have hturns := h.once
  have hactive : s.active = true := by
    by_contra hidle
    simp [turns, hresults, DeleteResult.isGot, hidle] at hturns
  refine ⟨hactive, ?_⟩
  simp only [turns, hresults, hactive, List.countP_cons, DeleteResult.isGot] at hturns ⊢
  simp at hturns
  omega

/-- A packet without an answer is the one turn there is. -/
theorem Orderly.sent_alone (h : Orderly s) {number : Nat} (hbatch : s.inFlight[number]? = some batch) :
    s.active = true ∧
      ({ s with inFlight := s.inFlight.eraseIdx number } : DeletesSending).turns = 0 := by
  have hturns := h.once
  have hlt := (List.getElem?_eq_some_iff.mp hbatch).1
  have hactive : s.active = true := by
    by_contra hidle
    simp only [turns, hidle] at hturns
    simp at hturns
    simp [hturns] at hlt
  refine ⟨hactive, ?_⟩
  simp only [turns, List.length_eraseIdx, hlt, hactive, if_true] at hturns ⊢
  omega

theorem Orderly.deliver (h : Orderly s) (hs : s.deliver = some s') : Orderly s' := by
  have hturns := h.once
  unfold DeletesSending.deliver at hs
  split at hs
  · cases hs
  · rename_i posts results hresults
    have hpop : Orderly { s with results } :=
      ⟨by simpa [turns, hresults, DeleteResult.isGot] using hturns, h.wellMade, h.removes, h.lead⟩
    obtain rfl := Option.some.inj hs
    cases posts with
    | false => exact hpop
    | true => exact hpop.post
  · rename_i found results hresults
    obtain rfl := Option.some.inj hs
    obtain ⟨hactive, hzero⟩ := h.read_alone hresults
    have hpop : Orderly { s with results } := ⟨by simp [hzero], h.wellMade, h.removes, h.lead⟩
    exact hpop.onPending hzero hactive found

theorem Orderly.answer (h : Orderly s) {number : Nat} {error : Int32}
    (hs : s.answer number error = some s') : Orderly s' := by
  unfold DeletesSending.answer at hs
  split at hs
  · cases hs
  · rename_i batch hbatch
    obtain rfl := Option.some.inj hs
    obtain ⟨-, hzero⟩ := h.sent_alone hbatch
    have hleft : Orderly { s with inFlight := s.inFlight.eraseIdx number } := by
      refine ⟨by simp [hzero], fun b hb => h.wellMade b ?_, h.removes, h.lead⟩
      exact List.mem_append.mpr ((List.mem_append.mp hb).imp_left List.mem_of_mem_eraseIdx)
    have hmade := h.wellMade batch (List.mem_append_left _ (List.mem_of_getElem? hbatch))
    exact hleft.onAnswer hzero hmade error

theorem Orderly.step (h : Orderly s) {action : DeletesAction} (hs : s.step env action = some s') :
    Orderly s' := by
  cases action with
  | delete contact message posts =>
    obtain rfl := Option.some.inj hs
    refine ⟨?_, h.wellMade, fun c m hm => h.removes c m (by simpa using hm),
      h.lead.concat (by simp)⟩
    simpa [turns] using h.once
  | call c =>
    obtain ⟨store, _, rfl⟩ := Option.map_eq_some_iff.mp hs
    exact ⟨h.once, h.wellMade, h.removes, h.lead⟩
  | resume =>
    obtain rfl := Option.some.inj hs
    exact h.post
  | work => exact h.work hs
  | deliver => exact h.deliver hs
  | answer number error => exact h.answer hs

theorem Orderly.start (store : PendingOperations) : Orderly { store } :=
  ⟨by simp [turns], by simp, by simp, trivial⟩

/-- The core leaves the store to the archive, and only adds tasks and answers. -/
structure Beside (s s' : DeletesSending) : Prop where
  store : s'.store = s.store
  tasks : s.tasks <+: s'.tasks
  answered : s.answered <+: s'.answered
  dropped : s'.dropped = s.dropped

theorem Beside.post (s : DeletesSending) (recursive : Bool) :
    Beside s (s.postPendingDeleteMessages recursive) := by
  unfold postPendingDeleteMessages
  split
  · exact ⟨rfl, List.prefix_rfl, List.prefix_rfl, rfl⟩
  · exact ⟨rfl, List.prefix_append .., List.prefix_rfl, rfl⟩

theorem Beside.onPending (s : DeletesSending) (found : Option (Bytes × List DeleteMessage)) :
    Beside s (s.onPendingDeleteMessages found) := by
  unfold onPendingDeleteMessages
  split
  · exact ⟨rfl, List.prefix_rfl, List.prefix_rfl, rfl⟩
  · split
    · split
      · exact ⟨rfl, List.prefix_rfl, List.prefix_rfl, rfl⟩
      · exact ⟨rfl, List.prefix_rfl, List.prefix_rfl, rfl⟩
    · exact ⟨rfl, List.prefix_rfl, List.prefix_rfl, rfl⟩

theorem Beside.onAnswer (s : DeletesSending) (batch : DeleteBatch) (error : Int32) :
    Beside s (s.onDeleteAnswer batch error) := by
  by_cases hrepeat : error ≠ 0 ∧ needsToRepeatFailed error
  · rw [onDeleteAnswer, if_pos hrepeat]
    exact ⟨rfl, List.prefix_rfl, List.prefix_rfl, rfl⟩
  · rw [onDeleteAnswer_done hrepeat, List.append_assoc]
    exact ⟨rfl, List.prefix_append .., List.prefix_append .., rfl⟩

theorem Beside.deliver (hs : s.deliver = some s') : Beside s s' := by
  unfold DeletesSending.deliver at hs
  split at hs
  · cases hs
  · rename_i posts results hresults
    obtain rfl := Option.some.inj hs
    cases posts with
    | false => exact ⟨rfl, List.prefix_rfl, List.prefix_rfl, rfl⟩
    | true =>
      have hpost := Beside.post { s with results } false
      exact ⟨hpost.store, hpost.tasks, hpost.answered, hpost.dropped⟩
  · rename_i found results hresults
    obtain rfl := Option.some.inj hs
    have hfound := Beside.onPending { s with results } found
    exact ⟨hfound.store, hfound.tasks, hfound.answered, hfound.dropped⟩

theorem Beside.answer {number : Nat} {error : Int32} (hs : s.answer number error = some s') :
    Beside s s' := by
  unfold DeletesSending.answer at hs
  split at hs
  · cases hs
  · rename_i batch hbatch
    obtain rfl := Option.some.inj hs
    have hanswer := Beside.onAnswer { s with inFlight := s.inFlight.eraseIdx number } batch error
    exact ⟨hanswer.store, hanswer.tasks, hanswer.answered, hanswer.dropped⟩

theorem Beside.waits (h : Beside s s') (hw : s.Waits contact d) : s'.Waits contact d := by
  rcases hw with hstored | ⟨hpos, posts, hmem⟩
  · exact .inl (h.store ▸ hstored)
  · exact .inr ⟨hpos, posts, h.tasks.subset hmem⟩

/-- Only a contact that is dropped loses deletions without an answer. -/
theorem waits_call {c : PendingCall} (hallowed : s.Allowed (.call c)) (hs : s.call env c = some s')
    (hw : s.Waits contact d) : s'.Waits contact d ∨ c = .drop contact := by
  obtain ⟨store, hstore, rfl⟩ := Option.map_eq_some_iff.mp hs
  rcases hw with hstored | hasked
  · cases c with
    | act action =>
      obtain rfl := Option.some.inj hstore
      exact .inl (.inl (PendingOperations.mem_step action hstored))
    | removeById id =>
      obtain rfl := Option.some.inj hstore
      exact .inl (.inl hstored)
    | drop aimid =>
      obtain rfl := Option.some.inj hstore
      by_cases hc : contact = aimid
      · exact .inr (by rw [hc])
      · refine .inl (.inl ?_)
        simpa [PendingOperations.deletionsOf, PendingOperations.drop, hc] using hstored
    | removeDeletedMessage contact message => exact hallowed.elim
    | saveLoad w now => exact hallowed.elim
  · exact .inl (.inr hasked)

/-- The archive takes a deletion out after the server was told of it. -/
theorem Orderly.waits_work (h : Orderly s) (hs : s.work env = some s') (hw : s.Waits contact d) :
    s'.Waits contact d ∨ s'.Told contact d := by
  unfold DeletesSending.work at hs
  split at hs
  · cases hs
  · rename_i c message posts tasks htasks
    obtain rfl := Option.some.inj hs
    left
    rcases hw with hstored | ⟨hpos, posts', hmem⟩
    · exact .inl (PendingOperations.mem_insertDeletedMessage hstored)
    · rw [htasks, List.mem_cons] at hmem
      rcases hmem with hnow | hmem
      · obtain ⟨rfl, rfl, rfl⟩ := DeleteTask.insert.inj hnow
        left
        simp [PendingOperations.deletionsOf_insertDeletedMessage, DeleteMessage.pushTo, hpos]
      · exact .inr ⟨hpos, posts', hmem⟩
  · rename_i tasks htasks
    obtain rfl := Option.some.inj hs
    rcases hw with hstored | ⟨hpos, posts, hmem⟩
    · exact .inl (.inl hstored)
    · exact .inl (.inr ⟨hpos, posts, by simpa [htasks] using hmem⟩)
  · rename_i c message tasks htasks
    obtain rfl := Option.some.inj hs
    rcases hw with hstored | ⟨hpos, posts, hmem⟩
    · by_cases hout : c = contact ∧ message.same d
      · obtain ⟨rfl, hsame⟩ := hout
        obtain ⟨b, hb, rfl, hm⟩ := h.removes c message (by simp [htasks])
        obtain ⟨p, hp, htells⟩ := (h.wellMade b (List.mem_append_right _ hb)).tells hm hsame
        exact .inr ⟨b, hb, p, hp, htells⟩
      · refine .inl (.inl ?_)
        rw [PendingOperations.deletionsOf_removeDeletedMessage]
        split
        · rename_i hc
          exact List.mem_filter.mpr ⟨hstored, by simpa [hc] using hout⟩
        · exact hstored
    · exact .inl (.inr ⟨hpos, posts, by simpa [htasks] using hmem⟩)

theorem work_past (hs : s.work env = some s') :
    s'.answered = s.answered ∧ s'.dropped = s.dropped := by
  unfold DeletesSending.work at hs
  split at hs
  · cases hs
  all_goals
    obtain rfl := Option.some.inj hs
    exact ⟨rfl, rfl⟩

/-- What has been answered and dropped stays so. -/
theorem step_past {action : DeletesAction} (hs : s.step env action = some s') :
    s.answered <+: s'.answered ∧ s.dropped <+: s'.dropped := by
  have hbeside : Beside s s' → s.answered <+: s'.answered ∧ s.dropped <+: s'.dropped :=
    fun h => ⟨h.answered, h.dropped ▸ List.prefix_rfl⟩
  cases action with
  | delete contact message posts =>
    obtain rfl := Option.some.inj hs
    exact ⟨List.prefix_rfl, List.prefix_rfl⟩
  | call c =>
    obtain ⟨store, _, rfl⟩ := Option.map_eq_some_iff.mp hs
    refine ⟨List.prefix_rfl, ?_⟩
    cases c with
    | drop aimid => exact List.prefix_append ..
    | _ => exact List.prefix_rfl
  | resume =>
    obtain rfl := Option.some.inj hs
    exact hbeside (Beside.post s false)
  | work =>
    obtain ⟨hanswered, hdropped⟩ := work_past hs
    exact ⟨hanswered ▸ List.prefix_rfl, hdropped ▸ List.prefix_rfl⟩
  | deliver => exact hbeside (Beside.deliver hs)
  | answer number error => exact hbeside (Beside.answer hs)

theorem dropped_call (hs : s.step env (.call (.drop contact)) = some s') :
    contact ∈ s'.dropped := by
  obtain rfl := Option.some.inj hs
  exact List.mem_append_right _ (List.mem_singleton_self _)

theorem Told.mono (h : s.Told contact d) (hpast : s.answered <+: s'.answered) :
    s'.Told contact d :=
  h.imp fun _ hb => ⟨hpast.subset hb.1, hb.2⟩

theorem Orderly.waits_step (h : Orderly s) {action : DeletesAction} (hallowed : s.Allowed action)
    (hs : s.step env action = some s') (hw : s.Waits contact d) :
    s'.Waits contact d ∨ s'.Told contact d ∨ action = .call (.drop contact) := by
  cases action with
  | delete c message posts =>
    obtain rfl := Option.some.inj hs
    rcases hw with hstored | ⟨hpos, posts, hmem⟩
    · exact .inl (.inl hstored)
    · exact .inl (.inr ⟨hpos, posts, List.mem_append_left _ hmem⟩)
  | call c => exact (waits_call hallowed hs hw).imp_right fun hc => .inr (by rw [hc])
  | resume =>
    obtain rfl := Option.some.inj hs
    exact .inl ((Beside.post s false).waits hw)
  | work => exact (h.waits_work hs hw).imp_right .inl
  | deliver => exact .inl ((Beside.deliver hs).waits hw)
  | answer number error => exact .inl ((Beside.answer hs).waits hw)

section Runs

variable {store : PendingOperations}

theorem Orderly.run (h : Orderly s) (hrun : Run (DeletesSending.step env) Allowed s s') :
    Orderly s' :=
  hrun.invariant h fun hk _ hs => hk.step hs

/-- A deletion that waits goes on to wait until the server has answered a packet that tells of it,
unless its contact is dropped. Never more than one packet is without an answer. -/
theorem deletion_waits (h : Run (DeletesSending.step env) Allowed { store } s)
    (hw : s.Waits contact d) (hlater : Run (DeletesSending.step env) Allowed s s')
    (hkept : contact ∉ s'.dropped) :
    (s'.Waits contact d ∨ s'.Told contact d) ∧ s'.inFlight.length ≤ 1 := by
  have horderly : Orderly s := (Orderly.start store).run h
  have hall : Orderly s' ∧ (s'.Waits contact d ∨ s'.Told contact d ∨ contact ∈ s'.dropped) := by
    refine hlater.invariant
      (P := fun s => Orderly s ∧ (s.Waits contact d ∨ s.Told contact d ∨ contact ∈ s.dropped))
      ⟨horderly, .inl hw⟩ fun ⟨hk, hnow⟩ hallowed hs => ⟨hk.step hs, ?_⟩
    obtain ⟨hanswered, hdropped⟩ := step_past hs
    rcases hnow with hwaits | htold | hdrop
    · refine (hk.waits_step hallowed hs hwaits).imp_right (Or.imp_right ?_)
      rintro rfl
      exact dropped_call hs
    · exact .inr (.inl (htold.mono hanswered))
    · exact .inr (.inr (hdropped.subset hdrop))
  obtain ⟨hk, hnow⟩ := hall
  refine ⟨hnow.imp_right fun h => h.resolve_right hkept, ?_⟩
  have hturns := hk.once
  unfold turns at hturns
  split at hturns <;> omega

/-- The user deletes the message 5 of the contact `[7]`. -/
def fiveDeleted : DeleteMessage := ⟨[7], 5, [], .delForMe⟩

def fiveBatch : DeleteBatch := ⟨[7], .delForMe, [fiveDeleted]⟩

def fiveWaiting (posts : Bool) : DeletesSending := { tasks := [.insert [7] fiveDeleted posts] }

def fiveSent : DeletesSending :=
  { store :=
      ({} : PendingOperations).insertDeletedMessage PendingOperations.noEnvironment [7] fiveDeleted
    active := true
    inFlight := [fiveBatch] }

theorem fiveWaiting_run (posts : Bool) :
    Run (DeletesSending.step PendingOperations.noEnvironment) Allowed {} (fiveWaiting posts) :=
  .step (.delete [7] fiveDeleted posts) .start trivial rfl

theorem fiveWaiting_waits (posts : Bool) : (fiveWaiting posts).Waits [7] fiveDeleted :=
  .inr ⟨show 0 < (5 : Int64) by decide, posts, List.mem_singleton_self _⟩

theorem deletion_waits_five : fiveSent.Waits [7] fiveDeleted := by
  have hlater : Run (DeletesSending.step PendingOperations.noEnvironment) Allowed (fiveWaiting true)
      fiveSent :=
    .step .deliver (.step .work (.step .deliver (.step .work .start trivial rfl) trivial rfl)
      trivial rfl) trivial rfl
  obtain ⟨hend, -⟩ := deletion_waits (fiveWaiting_run true) (fiveWaiting_waits true) hlater
    (by simp [fiveSent])
  exact hend.resolve_right (by simp [Told, fiveSent])

end Runs

end DeletesSending

end Icq.Wim
