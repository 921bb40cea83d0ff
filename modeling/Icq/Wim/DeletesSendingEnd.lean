import Icq.Lib.KeyMapWeight
import Icq.Wim.DeletesSendingRuns

/-! Once the connection is back every deletion that waits is told to the server, in whatever order
the archive, the core and the server take their steps. -/

namespace Icq.Archive
open Icq.Lib

namespace PendingOperations

variable {s : PendingOperations} {contact : Bytes} {messages : List DeleteMessage}

/-- How many deletions wait. -/
def waiting (s : PendingOperations) : Nat :=
  s.pendingDeleteMessages.weight fun entry => entry.messages.length

theorem getPendingDeleteMessages_some
    (h : s.getPendingDeleteMessages = some (contact, messages)) :
    messages ≠ [] ∧ s.deletionsOf contact = messages := by
  unfold getPendingDeleteMessages at h
  split at h
  · cases h
  · rename_i entry hfirst
    split at h
    · cases h
    · rename_i hne
      obtain ⟨rfl, rfl⟩ := Prod.mk.inj (Option.some.inj h)
      refine ⟨by simpa using hne, ?_⟩
      rw [deletionsOf, KeyMap.find_of_mem (List.mem_of_head? hfirst)]
      rfl

theorem NonemptyDeletions.getPendingDeleteMessages_none (h : NonemptyDeletions s)
    (hnone : s.getPendingDeleteMessages = none) (contact : Bytes) : s.deletionsOf contact = [] := by
  refine h.first.mp ?_ contact
  rw [getFirstPendingDeleteMessage]
  rw [getPendingDeleteMessages] at hnone
  cases hfirst : s.pendingDeleteMessages.first? with
  | none => rfl
  | some entry =>
    simp only [hfirst] at hnone
    split at hnone
    · rename_i hempty
      simp [List.isEmpty_iff.mp hempty]
    · cases hnone

theorem getPendingDeleteMessages_of_only (h : NonemptyDeletions s) (hne : messages ≠ [])
    (hmessages : s.deletionsOf contact = messages)
    (hothers : ∀ other, other ≠ contact → s.deletionsOf other = []) :
    s.getPendingDeleteMessages = some (contact, messages) := by
  cases hfound : s.getPendingDeleteMessages with
  | none => exact absurd (hmessages ▸ h.getPendingDeleteMessages_none hfound contact) hne
  | some found =>
    obtain ⟨other, others⟩ := found
    obtain ⟨hne', heq⟩ := getPendingDeleteMessages_some hfound
    by_cases hother : other = contact
    · subst hother
      rw [← heq, hmessages]
    · exact absurd (heq ▸ hothers other hother) hne'

theorem getPendingDeleteMessages_of_none (h : ∀ contact, s.deletionsOf contact = []) :
    s.getPendingDeleteMessages = none := by
  cases hfound : s.getPendingDeleteMessages with
  | none => rfl
  | some found =>
    obtain ⟨hne, heq⟩ := getPendingDeleteMessages_some hfound
    exact absurd (heq ▸ h found.1) hne

theorem weight_entry (s : PendingOperations) (contact : Bytes) :
    s.waiting = (s.deletionsOf contact).length +
      (s.pendingDeleteMessages.erase contact).weight fun entry => entry.messages.length := by
  unfold waiting deletionsOf
  rw [KeyMap.weight_erase _ _ contact]
  cases s.pendingDeleteMessages.find? contact with
  | none => rfl
  | some entry => rfl

theorem erase_removeDeletedMessage (s : PendingOperations) (contact : Bytes) (d : DeleteMessage) :
    (s.removeDeletedMessage contact d).pendingDeleteMessages.erase contact =
      s.pendingDeleteMessages.erase contact := by
  apply KeyMap.ext_find
  intro k
  unfold removeDeletedMessage
  split
  · rfl
  · dsimp only
    by_cases hk : k = contact
    · simp [hk]
    · split
      · simp [hk]
      · simp [hk, Ne.symm hk]

/-- Different deletions that are taken out one by one make the store smaller by their number. -/
theorem waiting_removes (contact : Bytes) {gone : List DeleteMessage} (s : PendingOperations)
    (h : gone.Sublist (s.deletionsOf contact)) :
    (gone.foldl (removeDeletedMessage · contact ·) s).waiting + gone.length ≤ s.waiting := by
  have hfold : ∀ (gone : List DeleteMessage) (s : PendingOperations),
      (gone.foldl (removeDeletedMessage · contact ·) s).pendingDeleteMessages.erase contact =
          s.pendingDeleteMessages.erase contact ∧
        (gone.foldl (removeDeletedMessage · contact ·) s).deletionsOf contact =
          (s.deletionsOf contact).filter fun x => gone.all fun d => !d.same x := by
    intro gone
    induction gone with
    | nil => simp
    | cons d gone ih =>
      intro s
      obtain ⟨herase, hleft⟩ := ih (s.removeDeletedMessage contact d)
      rw [List.foldl_cons]
      refine ⟨herase.trans (erase_removeDeletedMessage s contact d), ?_⟩
      rw [hleft, deletionsOf_removeDeletedMessage, if_pos rfl, List.filter_filter]
      simp [Bool.and_comm]
  obtain ⟨herase, hleft⟩ := hfold gone s
  rw [weight_entry _ contact, weight_entry s contact, herase, hleft]
  have hsplit := List.length_eq_length_filter_add (l := s.deletionsOf contact)
    fun x => gone.all fun d => !d.same x
  have hout : gone.length ≤
      ((s.deletionsOf contact).filter fun x => !(gone.all fun d => !d.same x)).length := by
    refine (h.filter _).length_le.trans' (le_of_eq ?_)
    rw [List.filter_eq_self.mpr]
    intro d hd
    simp only [Bool.not_eq_true', List.all_eq_false]
    exact ⟨d, hd, by simp [DeleteMessage.same]⟩
  omega

end PendingOperations

end Icq.Archive

namespace Icq.Wim
open Icq.Archive Icq.Lib PendingOperations

def DeleteTask.apply (env : PendingEnvironment) (store : PendingOperations) :
    DeleteTask → PendingOperations
  | .insert contact message _ => store.insertDeletedMessage env contact message
  | .get => store
  | .remove contact message => store.removeDeletedMessage contact message

def DeleteTask.weight : DeleteTask → Nat
  | .insert .. => 6
  | .get => 4
  | .remove .. => 1

def DeleteResult.weight : DeleteResult → Nat
  | .inserted _ => 5
  | .got _ => 3

/-- The steps of the archive, of the core and of a server that does not ask for another try. -/
def DeletesAction.Works : DeletesAction → Prop
  | .work | .deliver => True
  | .answer _ error => ¬(error ≠ 0 ∧ needsToRepeatFailed error)
  | _ => False

theorem DeletesAction.Works.allowed {action : DeletesAction} (h : action.Works)
    (s : DeletesSending) : s.Allowed action := by
  cases action with
  | call c => exact h.elim
  | _ => trivial

namespace DeletesSending

variable {env : PendingEnvironment} {s s' : DeletesSending} {contact : Bytes} {d : DeleteMessage}
  {batch : DeleteBatch}

/-- The store as the tasks that wait will leave it. -/
def settled (env : PendingEnvironment) (s : DeletesSending) : PendingOperations :=
  s.tasks.foldl (DeleteTask.apply env) s.store

/-- No run has more steps left than this. -/
def effort (env : PendingEnvironment) (s : DeletesSending) : Nat :=
  8 * (s.settled env).waiting + (s.tasks.map DeleteTask.weight).sum +
    (s.results.map DeleteResult.weight).sum + 2 * s.inFlight.length

theorem effort_work (hs : s.work env = some s') : s'.effort env < s.effort env := by
  unfold DeletesSending.work at hs
  split at hs
  · cases hs
  · rename_i contact message posts tasks htasks
    obtain rfl := Option.some.inj hs
    simp [effort, settled, htasks, DeleteTask.apply, DeleteTask.weight, DeleteResult.weight]
    omega
  · rename_i tasks htasks
    obtain rfl := Option.some.inj hs
    simp [effort, settled, htasks, DeleteTask.apply, DeleteTask.weight, DeleteResult.weight]
    omega
  · rename_i contact message tasks htasks
    obtain rfl := Option.some.inj hs
    simp [effort, settled, htasks, DeleteTask.apply, DeleteTask.weight]

theorem effort_post (env : PendingEnvironment) (s : DeletesSending) (recursive : Bool) :
    (s.postPendingDeleteMessages recursive).effort env ≤ s.effort env + 4 := by
  unfold postPendingDeleteMessages
  split
  · omega
  · simp [effort, settled, DeleteTask.apply, DeleteTask.weight]
    omega

theorem effort_onPending (env : PendingEnvironment) (s : DeletesSending)
    (found : Option (Bytes × List DeleteMessage)) :
    (s.onPendingDeleteMessages found).effort env ≤ s.effort env + 2 := by
  unfold onPendingDeleteMessages
  split
  · exact Nat.le_add_right _ 2
  · split
    · split
      · exact Nat.le_add_right _ 2
      · simp [effort, settled]
        omega
    · omega

theorem effort_deliver (hs : s.deliver = some s') : s'.effort env < s.effort env := by
  unfold DeletesSending.deliver at hs
  split at hs
  · cases hs
  · rename_i posts results hresults
    obtain rfl := Option.some.inj hs
    have hpop : ({ s with results } : DeletesSending).effort env + 5 = s.effort env := by
      simp [effort, settled, hresults, DeleteResult.weight]
      omega
    cases posts with
    | false =>
      show ({ s with results } : DeletesSending).effort env < s.effort env
      omega
    | true =>
      have hpost := effort_post env { s with results } false
      show (postPendingDeleteMessages { s with results } false).effort env < s.effort env
      omega
  · rename_i found results hresults
    obtain rfl := Option.some.inj hs
    have hpop : ({ s with results } : DeletesSending).effort env + 3 = s.effort env := by
      simp [effort, settled, hresults, DeleteResult.weight]
      omega
    have hfound := effort_onPending env { s with results } found
    omega

theorem sublist_insertDeletedMessage (env : PendingEnvironment) (store : PendingOperations)
    (contact other : Bytes) (d : DeleteMessage) :
    (store.deletionsOf other).Sublist
      ((store.insertDeletedMessage env contact d).deletionsOf other) := by
  rw [deletionsOf_insertDeletedMessage]
  split
  · exact (Removal.prefix_pushTo d _).sublist
  · exact List.Sublist.refl _

/-- With nothing to be taken out the store keeps its deletions. -/
theorem sublist_settled (env : PendingEnvironment)
    (hnone : ∀ contact m, .remove contact m ∉ s.tasks) (contact : Bytes) :
    (s.store.deletionsOf contact).Sublist ((s.settled env).deletionsOf contact) := by
  unfold settled
  generalize s.store = store
  generalize s.tasks = tasks at hnone
  induction tasks generalizing store with
  | nil => exact List.Sublist.refl _
  | cons task tasks ih =>
    have hrest : ∀ contact m, .remove contact m ∉ tasks :=
      fun contact m hm => hnone contact m (List.mem_cons_of_mem _ hm)
    cases task with
    | insert other message posts =>
      exact (sublist_insertDeletedMessage env store other contact message).trans (ih _ hrest)
    | get => exact ih _ hrest
    | remove other message => exact absurd List.mem_cons_self (hnone other message)

/-- What was answered leaves the store by and by, and is more than another turn takes. -/
theorem effort_onAnswer (hmade : batch.WellMade)
    (hin : batch.messages.Sublist ((s.settled env).deletionsOf batch.contact)) {error : Int32}
    (hdone : ¬(error ≠ 0 ∧ needsToRepeatFailed error)) :
    (s.onDeleteAnswer batch error).effort env < s.effort env + 2 := by
  have hfewer := waiting_removes batch.contact (s.settled env) hin
  have hpos : 0 < batch.messages.length := List.length_pos_iff.mpr hmade.nonempty
  have hsettled : (s.onDeleteAnswer batch error).settled env =
      batch.messages.foldl (removeDeletedMessage · batch.contact ·) (s.settled env) := by
    rw [onDeleteAnswer_done hdone]
    simp only [settled, List.foldl_append, List.foldl_map, List.foldl_cons, List.foldl_nil]
    rfl
  have hweight : ((batch.messages.map (DeleteTask.remove batch.contact)).map
      DeleteTask.weight).sum = batch.messages.length := by
    rw [List.map_map]
    simp [Function.comp_def, DeleteTask.weight]
  unfold effort
  rw [hsettled, onDeleteAnswer_done hdone]
  simp only [List.map_append, List.sum_append, hweight, List.map_cons, List.map_nil, List.sum_cons,
    List.sum_nil, DeleteTask.weight]
  omega

/-- The loop is on exactly while a turn of it is on its way; what it has read is still in the store,
and until it ends something waits to read what is left. -/
structure Serving (s : DeletesSending) : Prop where
  orderly : Orderly s
  turn : s.turns = if s.active then 1 else 0
  sent : ∀ contact d, s.Waits contact d → d.operation.isSent
  nonempty : NonemptyDeletions s.store
  got : ∀ contact messages, .got (some (contact, messages)) ∈ s.results →
    messages ≠ [] ∧ messages.Sublist (s.store.deletionsOf contact)
  flying : ∀ b ∈ s.inFlight, b.messages.Sublist (s.store.deletionsOf b.contact)
  served : (∃ front, s.tasks = front ++ [.get]) ∨ s.tasks = [] ∧
    ((∃ found, .got (some found) ∈ s.results) ∨ s.inFlight ≠ [] ∨
      ∀ contact, s.store.deletionsOf contact = [])

theorem waits_insert {message : DeleteMessage} {posts : Bool} {tasks : List DeleteTask} {c : Bytes}
    (htasks : s.tasks = .insert c message posts :: tasks) {results : List DeleteResult}
    (h : ({ s with tasks, results, store := s.store.insertDeletedMessage env c message } :
      DeletesSending).Waits contact d) : s.Waits contact d := by
  rcases h with hstored | ⟨hpos, posts', hmem⟩
  · simp only [deletionsOf_insertDeletedMessage, DeleteMessage.pushTo] at hstored
    split at hstored
    · rename_i hc
      split at hstored
      · rename_i hpos
        rcases List.mem_append.mp hstored with hstored | hnew
        · exact .inl hstored
        · obtain rfl := List.mem_singleton.mp hnew
          exact .inr ⟨hpos, posts, by simp [htasks, hc]⟩
      · exact .inl hstored
    · exact .inl hstored
  · exact .inr ⟨hpos, posts', htasks ▸ List.mem_cons_of_mem _ hmem⟩

/-- What waits to read the store still does when a task in front of it is done. -/
theorem Serving.served_tail (h : Serving s) {task : DeleteTask} {tasks : List DeleteTask}
    (htasks : s.tasks = task :: tasks) (htask : task ≠ .get) : ∃ front, tasks = front ++ [.get] := by
  rcases h.served with ⟨front, hfront⟩ | ⟨hnil, -⟩
  · cases front with
    | nil => exact absurd (List.cons.inj (htasks.symm.trans hfront)).1 htask
    | cons first front => exact ⟨front, (List.cons.inj (htasks.symm.trans hfront)).2⟩
  · simp [htasks] at hnil

theorem Serving.work (h : Serving s) (hs : s.work env = some s') : Serving s' := by
  have horderly := h.orderly.work hs
  have hturn := h.turn
  unfold DeletesSending.work at hs
  split at hs
  · cases hs
  · rename_i c message posts tasks htasks
    obtain rfl := Option.some.inj hs
    have hstore := sublist_insertDeletedMessage env s.store c
    refine ⟨horderly, ?_, fun contact d hw => h.sent contact d (waits_insert htasks hw),
      h.nonempty.insertDeletedMessage message, fun contact messages hmem => ?_,
      fun b hb => (h.flying b hb).trans (hstore b.contact message), ?_⟩
    · simpa [turns, htasks, DeleteResult.isGot] using hturn
    · obtain ⟨hne, hsub⟩ := h.got contact messages (by simpa using hmem)
      exact ⟨hne, hsub.trans (hstore contact message)⟩
    · exact .inl (h.served_tail htasks (by simp))
  · rename_i tasks htasks
    obtain rfl := Option.some.inj hs
    refine ⟨horderly, ?_, fun contact d hw => h.sent contact d ?_, h.nonempty,
      fun contact messages hmem => ?_, h.flying, ?_⟩
    · simp [turns, htasks, DeleteResult.isGot] at hturn ⊢
      omega
    · rcases hw with hstored | ⟨hpos, posts, hmem⟩
      · exact .inl hstored
      · exact .inr ⟨hpos, posts, by simpa [htasks] using hmem⟩
    · rcases List.mem_append.mp hmem with hmem | hmem
      · exact h.got contact messages hmem
      · have hfound : some (contact, messages) = s.store.getPendingDeleteMessages := by
          simpa using hmem
        obtain ⟨hne, heq⟩ := getPendingDeleteMessages_some hfound.symm
        exact ⟨hne, heq ▸ List.Sublist.refl _⟩
    · rcases h.served with ⟨front, hfront⟩ | ⟨hnil, -⟩
      · cases front with
        | nil =>
          obtain rfl : tasks = [] := by simpa [htasks] using hfront
          refine .inr ⟨rfl, ?_⟩
          cases hfound : s.store.getPendingDeleteMessages with
          | none => exact .inr (.inr (h.nonempty.getPendingDeleteMessages_none hfound))
          | some found => exact .inl ⟨found, by simp⟩
        | cons first front =>
          exact .inl ⟨front, (List.cons.inj (htasks.symm.trans hfront)).2⟩
      · simp [htasks] at hnil
  · rename_i c message tasks htasks
    obtain rfl := Option.some.inj hs
    -- A task that takes something out runs in front of a reading, which is the one turn there is.
    have hlead := h.orderly.lead
    rw [htasks] at hlead
    have hget : 0 < tasks.count .get := List.count_pos_iff.mpr hlead.1
    have hone : s.turns ≤ 1 := le_trans h.orderly.once (by split <;> omega)
    have hcount : s.tasks.count .get = tasks.count .get := by simp [htasks]
    unfold turns at hone
    have hresults : s.results.countP DeleteResult.isGot = 0 := by omega
    have hflying : s.inFlight = [] := List.length_eq_zero_iff.mp (by omega)
    refine ⟨horderly, ?_, fun contact d hw => h.sent contact d ?_,
      h.nonempty.removeDeletedMessage message, fun contact messages hmem => ?_,
      fun b hb => ?_, ?_⟩
    · simpa [turns, htasks] using hturn
    · rcases hw with hstored | ⟨hpos, posts, hmem⟩
      · left
        simp only [deletionsOf_removeDeletedMessage] at hstored
        split at hstored
        · exact List.mem_of_mem_filter hstored
        · exact hstored
      · exact .inr ⟨hpos, posts, htasks ▸ List.mem_cons_of_mem _ hmem⟩
    · exact absurd rfl (List.countP_eq_zero.mp hresults _ hmem)
    · simp [hflying] at hb
    · exact .inl (h.served_tail htasks (by simp))

theorem Waits.of_post {recursive : Bool}
    (h : (s.postPendingDeleteMessages recursive).Waits contact d) : s.Waits contact d := by
  unfold postPendingDeleteMessages at h
  split at h
  · exact h
  · rcases h with hstored | ⟨hpos, posts, hmem⟩
    · exact .inl hstored
    · exact .inr ⟨hpos, posts, by simpa using hmem⟩

theorem Serving.post (h : Serving s) : Serving (s.postPendingDeleteMessages false) := by
  refine ⟨h.orderly.post, ?_, fun contact d hw => h.sent contact d hw.of_post, ?_, ?_, ?_, ?_⟩ <;>
    unfold postPendingDeleteMessages <;> split
  · exact h.turn
  · rename_i hactive
    have hturn : s.turns = 0 := by simpa [show s.active = false by simpa using hactive] using h.turn
    simp only [turns, Nat.add_eq_zero_iff] at hturn
    simp [turns, hturn]
  · exact h.nonempty
  · exact h.nonempty
  · exact h.got
  · exact h.got
  · exact h.flying
  · exact h.flying
  · exact h.served
  · exact .inl ⟨s.tasks, rfl⟩

/-- A result that brings nothing to send is not what the loop goes on with. -/
theorem Serving.served_pop (h : Serving s) {result : DeleteResult} {results : List DeleteResult}
    (hresults : s.results = result :: results) (hresult : ∀ found, result ≠ .got (some found)) :
    (∃ front, s.tasks = front ++ [.get]) ∨ s.tasks = [] ∧
      ((∃ found, .got (some found) ∈ results) ∨ s.inFlight ≠ [] ∨
        ∀ contact, s.store.deletionsOf contact = []) := by
  rcases h.served with hget | ⟨hnil, ⟨found, hmem⟩ | hrest⟩
  · exact .inl hget
  · rw [hresults] at hmem
    exact .inr ⟨hnil, .inl ⟨found, (List.mem_cons.mp hmem).resolve_left (hresult found).symm⟩⟩
  · exact .inr ⟨hnil, .inr hrest⟩

/-- A turn that was read either ends the loop or is sent. -/
theorem Serving.deliver (h : Serving s) (hs : s.deliver = some s') : Serving s' := by
  have horderly := h.orderly.deliver hs
  have hturn := h.turn
  unfold DeletesSending.deliver at hs
  split at hs
  · cases hs
  · rename_i posts results hresults
    have hpop : Serving { s with results } := by
      refine ⟨?_, by simpa [turns, hresults, DeleteResult.isGot] using hturn, h.sent, h.nonempty,
        fun contact messages hmem => h.got contact messages (by simp [hresults, hmem]), h.flying,
        h.served_pop hresults (by simp)⟩
      exact ⟨by simpa [turns, hresults, DeleteResult.isGot] using h.orderly.once,
        h.orderly.wellMade, h.orderly.removes, h.orderly.lead⟩
    obtain rfl := Option.some.inj hs
    cases posts with
    | false => exact hpop
    | true => exact hpop.post
  · rename_i found results hresults
    obtain rfl := Option.some.inj hs
    obtain ⟨hactive, hzero⟩ := h.orderly.read_alone hresults
    cases found with
    | none =>
      show Serving { s with results, active := false }
      exact ⟨horderly, hzero, h.sent, h.nonempty,
        fun contact messages hmem => h.got contact messages (by simp [hresults, hmem]), h.flying,
        h.served_pop hresults (by simp)⟩
    | some found =>
      obtain ⟨contact, messages⟩ := found
      obtain ⟨hne, hsub⟩ := h.got contact messages (by simp [hresults])
      have hsent : messages.all fun d => d.operation.isSent :=
        List.all_eq_true.mpr fun d hd => h.sent contact d (.inl (hsub.subset hd))
      obtain ⟨batch, hbatch⟩ := Option.isSome_iff_exists.mp
        (DeleteBatch.first_isSome contact hne hsent)
      obtain ⟨hcontact, hbatchsub, -⟩ := DeleteBatch.first_spec hbatch
      have heq : onPendingDeleteMessages { s with results } (some (contact, messages)) =
          { s with results, inFlight := s.inFlight ++ [batch] } := by
        simp [onPendingDeleteMessages, hsent, hbatch]
      rw [heq] at horderly ⊢
      refine ⟨horderly, ?_, h.sent, h.nonempty,
        fun contact messages hmem => h.got contact messages (by simp [hresults, hmem]),
        fun b hb => ?_, ?_⟩
      · simp only [turns, Nat.add_eq_zero_iff] at hzero
        simp [turns, hactive, hzero]
      · rcases List.mem_append.mp hb with hb | hb
        · exact h.flying b hb
        · obtain rfl := List.mem_singleton.mp hb
          exact hcontact ▸ hbatchsub.trans hsub
      · exact h.served.imp_right fun hrest => ⟨hrest.1, .inr (.inl (by simp))⟩

theorem Serving.answer (h : Serving s) {number : Nat} {error : Int32}
    (hdone : ¬(error ≠ 0 ∧ needsToRepeatFailed error)) (hs : s.answer number error = some s') :
    Serving s' ∧ s'.effort env < s.effort env := by
  have horderly := h.orderly.answer hs
  unfold DeletesSending.answer at hs
  split at hs
  · cases hs
  · rename_i batch hbatch
    obtain rfl := Option.some.inj hs
    have hmem := List.mem_of_getElem? hbatch
    have hlt := (List.getElem?_eq_some_iff.mp hbatch).1
    obtain ⟨-, hzero⟩ := h.orderly.sent_alone hbatch
    simp only [turns, Nat.add_eq_zero_iff] at hzero
    obtain ⟨⟨hget, hgot⟩, hleft⟩ := hzero
    refine ⟨?_, ?_⟩
    · rw [onDeleteAnswer_done hdone] at horderly ⊢
      refine ⟨horderly, ?_, fun contact d hw => h.sent contact d ?_, h.nonempty, h.got,
        fun b hb => h.flying b (List.mem_of_mem_eraseIdx hb), .inl ⟨_, rfl⟩⟩
      · simp [turns, hget, hgot, hleft]
      · rcases hw with hstored | ⟨hpos, posts, hmem⟩
        · exact .inl hstored
        · exact .inr ⟨hpos, posts, by simpa using hmem⟩
    · have hnone := h.orderly.lead.none (List.count_eq_zero.mp hget)
      have hin := (h.flying batch hmem).trans (sublist_settled env hnone batch.contact)
      have hless := effort_onAnswer (s := { s with inFlight := s.inFlight.eraseIdx number })
        (h.orderly.wellMade batch (List.mem_append_left _ hmem)) hin hdone
      refine lt_of_lt_of_le hless (le_of_eq ?_)
      simp only [effort, settled, List.length_eraseIdx, hlt, if_true]
      omega

theorem Serving.step (h : Serving s) {action : DeletesAction} (hworks : action.Works)
    (hs : s.step env action = some s') : Serving s' ∧ s'.effort env < s.effort env := by
  cases action with
  | delete contact message posts => exact hworks.elim
  | call c => exact hworks.elim
  | resume => exact hworks.elim
  | work => exact ⟨h.work hs, effort_work hs⟩
  | deliver => exact ⟨h.deliver hs, effort_deliver hs⟩
  | answer number error => exact h.answer hworks hs

theorem nonempty_step {action : DeletesAction} (hallowed : s.Allowed action)
    (h : NonemptyDeletions s.store) (hs : s.step env action = some s') :
    NonemptyDeletions s'.store := by
  cases action with
  | delete contact message posts =>
    obtain rfl := Option.some.inj hs
    exact h
  | call c =>
    obtain ⟨store, hstore, rfl⟩ := Option.map_eq_some_iff.mp hs
    cases c with
    | act action =>
      obtain rfl := Option.some.inj hstore
      exact h.step action
    | removeById id =>
      obtain rfl := Option.some.inj hstore
      exact h
    | drop aimid =>
      obtain rfl := Option.some.inj hstore
      exact h.drop aimid
    | removeDeletedMessage contact message => exact hallowed.elim
    | saveLoad w now => exact hallowed.elim
  | resume =>
    obtain rfl := Option.some.inj hs
    exact (Beside.post s false).store ▸ h
  | work =>
    simp only [DeletesSending.step, DeletesSending.work] at hs
    split at hs
    · cases hs
    · obtain rfl := Option.some.inj hs
      exact h.insertDeletedMessage _
    · obtain rfl := Option.some.inj hs
      exact h
    · obtain rfl := Option.some.inj hs
      exact h.removeDeletedMessage _
  | deliver => exact (Beside.deliver hs).store ▸ h
  | answer number error => exact (Beside.answer hs).store ▸ h

section Runs

variable {store : PendingOperations} {actions : List DeletesAction}

theorem Serving.start (h : Orderly s) (hidle : s.active = false)
    (hsent : ∀ contact d, s.Waits contact d → d.operation.isSent)
    (hnonempty : NonemptyDeletions s.store) : Serving (s.postPendingDeleteMessages false) := by
  have hturns : s.turns = 0 := by simpa [hidle] using h.once
  simp only [turns, Nat.add_eq_zero_iff] at hturns
  have hpost : s.postPendingDeleteMessages false =
      { s with active := true, tasks := s.tasks ++ [.get] } := by
    simp [postPendingDeleteMessages, hidle]
  refine ⟨h.post, ?_, fun contact d hw => hsent contact d hw.of_post, ?_, ?_, ?_, ?_⟩ <;> rw [hpost]
  · simp [turns, hturns]
  · exact hnonempty
  · exact fun contact messages hmem => absurd rfl (List.countP_eq_zero.mp hturns.1.2 _ hmem)
  · exact fun b hb => by simp [List.length_eq_zero_iff.mp hturns.2] at hb
  · exact .inl ⟨s.tasks, rfl⟩

/-- Nothing is left to do where nothing waits, nothing was read and nothing was sent. -/
theorem step_none (htasks : s.tasks = []) (hresults : s.results = []) (hflying : s.inFlight = []) :
    ∀ action, action.Works → s.step env action = none := by
  intro action hworks
  cases action with
  | work => simp [DeletesSending.step, DeletesSending.work, htasks]
  | deliver => simp [DeletesSending.step, DeletesSending.deliver, hresults]
  | answer number error => simp [DeletesSending.step, DeletesSending.answer, hflying]
  | delete contact message posts => exact hworks.elim
  | call c => exact hworks.elim
  | resume => exact hworks.elim

theorem Serving.ended (h : Serving s) (hnone : ∀ action, action.Works → s.step env action = none) :
    s.active = false ∧ s.tasks = [] ∧ ∀ contact, s.store.deletionsOf contact = [] := by
  have htasks : s.tasks = [] := by
    have hwork := hnone .work trivial
    simp only [DeletesSending.step, DeletesSending.work] at hwork
    split at hwork <;> simp_all
  have hresults : s.results = [] := by
    have hdeliver := hnone .deliver trivial
    simp only [DeletesSending.step, DeletesSending.deliver] at hdeliver
    split at hdeliver <;> simp_all
  have hflying : s.inFlight = [] := by
    have hanswer := hnone (.answer 0 0) (by simp [DeletesAction.Works])
    simp only [DeletesSending.step, DeletesSending.answer] at hanswer
    cases hin : s.inFlight with
    | nil => rfl
    | cons batch rest => simp [hin] at hanswer
  have hturn := h.turn
  have hserved := h.served
  simp only [turns, htasks, hresults, hflying] at hturn hserved
  refine ⟨?_, htasks, ?_⟩
  · by_contra hactive
    simp [hactive] at hturn
  · simpa using hserved

/-- When the connection is back, the archive, the core and a server that does not ask for another
try take a bounded number of steps in whatever order they come, and when none is left, the loop has
ended, no deletion waits, and the server was told of each one that did. -/
theorem deletions_served (hnonempty : NonemptyDeletions store)
    (h : Run (DeletesSending.step env) Allowed { store } s) (hidle : s.active = false)
    (hsent : ∀ contact d, s.Waits contact d → d.operation.isSent)
    (hworks : ∀ action ∈ actions, action.Works)
    (hrun : actions.foldlM (DeletesSending.step env) (s.postPendingDeleteMessages false) = some s') :
    actions.length ≤ (s.postPendingDeleteMessages false).effort env ∧
      ((∀ action, action.Works → s'.step env action = none) →
        s'.active = false ∧ (∀ contact, s'.store.deletionsOf contact = []) ∧
          ∀ contact d, s.Waits contact d → s'.Told contact d) := by
  have horderly : Orderly s := (Orderly.start store).run h
  have hstore : NonemptyDeletions s.store :=
    h.invariant (P := fun s => NonemptyDeletions s.store) hnonempty
      fun hk hallowed hs => nonempty_step hallowed hk hs
  have hbegin := Serving.start horderly hidle hsent hstore
  obtain ⟨⟨hserving, hall⟩, hlength⟩ := foldlM_effort (effort env)
    (P := fun now => Serving now ∧ ∀ contact d, s.Waits contact d →
      now.Waits contact d ∨ now.Told contact d)
    (fun {now action next} ⟨hk, hnow⟩ hworks hs => by
      obtain ⟨hk', hless⟩ := hk.step hworks hs
      refine ⟨⟨hk', fun contact d hw => ?_⟩, hless⟩
      rcases hnow contact d hw with hwaits | htold
      · refine (hk.orderly.waits_step (hworks.allowed now) hs hwaits).imp_right fun hend => ?_
        refine hend.resolve_right fun hdrop => ?_
        rw [hdrop] at hworks
        exact hworks
      · exact .inr (htold.mono (step_past hs).1))
    ⟨hbegin, fun contact d hw => .inl ((Beside.post s false).waits hw)⟩ hworks hrun
  refine ⟨by omega, fun hnone => ?_⟩
  obtain ⟨hactive, htasks, hempty⟩ := hserving.ended hnone
  refine ⟨hactive, hempty, fun contact d hw => (hall contact d hw).resolve_left ?_⟩
  rintro (hstored | ⟨-, posts, hmem⟩)
  · simp [hempty] at hstored
  · simp [htasks] at hmem

def fiveServed : DeletesSending :=
  { store := fiveSent.store.removeDeletedMessage [7] fiveDeleted, answered := [fiveBatch] }

theorem deletions_served_five : fiveServed.Told [7] fiveDeleted := by
  have hsent : ∀ contact d, (fiveWaiting false).Waits contact d → d.operation.isSent := by
    rintro contact d (hstored | ⟨-, posts, hmem⟩)
    · cases hstored
    · obtain ⟨-, rfl, -⟩ := DeleteTask.insert.inj (List.mem_singleton.mp hmem)
      rfl
  have hsteps : [DeletesAction.work, .deliver, .work, .deliver, .answer 0 0, .work, .work,
      .deliver].foldlM (DeletesSending.step noEnvironment)
        ((fiveWaiting false).postPendingDeleteMessages false) = some fiveServed := rfl
  obtain ⟨-, hend⟩ := deletions_served (by simp [NonemptyDeletions]) (fiveWaiting_run false) rfl hsent
    (by simp [DeletesAction.Works]) hsteps
  exact (hend (step_none rfl rfl rfl)).2.2 [7] fiveDeleted (fiveWaiting_waits false)

/-- Of two deletions of one history that wait together the server is told the first, and both are
taken out. -/
theorem later_history_untold (env : PendingEnvironment) (contact : Bytes)
    {first second : DeleteMessage} (hfirst : first.operation = .delUpTo)
    (hsecond : second.operation = .delUpTo)
    (hpos : 0 < first.messageId) (hlater : first.messageId < second.messageId) :
    ∃ s s', Run (DeletesSending.step env) Allowed {} s ∧ s.Waits contact first ∧
      s.Waits contact second ∧ Run (DeletesSending.step env) Allowed s s' ∧
      (∀ action, action.Works → s'.step env action = none) ∧
      (∀ other, s'.store.deletionsOf other = []) ∧
      s'.answered.filterMap DeleteBatch.packet = [.delHistory contact first.messageId] := by
  have hpos' : 0 < second.messageId := Int64.lt_trans hpos hlater
  let both := (({} : PendingOperations).insertDeletedMessage env contact first).insertDeletedMessage
    env contact second
  let neither := (both.removeDeletedMessage contact first).removeDeletedMessage contact second
  let batch : DeleteBatch := ⟨contact, .delUpTo, [first, second]⟩
  have hempty : NonemptyDeletions {} := by simp [NonemptyDeletions]
  have hboth : ∀ other, both.deletionsOf other = if contact = other then [first, second] else [] := by
    intro other
    have hnothing : ({} : PendingOperations).deletionsOf other = [] := rfl
    simp only [both, deletionsOf_insertDeletedMessage, hnothing, DeleteMessage.pushTo]
    split <;> rfl
  have hneither : ∀ other, neither.deletionsOf other = [] := by
    intro other
    simp only [neither, deletionsOf_removeDeletedMessage, hboth]
    split <;> simp [DeleteMessage.same]
  have hread : both.getPendingDeleteMessages = some (contact, [first, second]) :=
    getPendingDeleteMessages_of_only ((hempty.insertDeletedMessage first).insertDeletedMessage second)
      (by simp) (by simp [hboth]) fun other hother => by simp [hboth, Ne.symm hother]
  have hend : neither.getPendingDeleteMessages = none := getPendingDeleteMessages_of_none hneither
  let start : DeletesSending :=
    { tasks := [.insert contact first true, .insert contact second true] }
  have hstart : Run (DeletesSending.step env) Allowed {} start :=
    .step (.delete contact second true) (.step (.delete contact first true) .start trivial rfl)
      trivial rfl
  have hstored : Run (DeletesSending.step env) Allowed start
      { store := both, active := true, tasks := [.get] } :=
    .step .deliver (.step .deliver (.step .work (.step .work .start trivial rfl) trivial rfl)
      trivial rfl) trivial rfl
  have hsent : Run (DeletesSending.step env) Allowed start
      { store := both, active := true, inFlight := [batch] } := by
    refine .step .deliver (.step .work hstored trivial rfl) trivial ?_
    simp [DeletesSending.step, DeletesSending.deliver, hread, onPendingDeleteMessages,
      DeleteOperation.isSent, DeleteBatch.first, DeleteBatch.ofKind, hfirst, hsecond, batch]
  have hserved : Run (DeletesSending.step env) Allowed start
      { store := neither, answered := [batch] } := by
    refine .step .deliver (.step .work (.step .work (.step .work (.step (.answer 0 0) hsent trivial
      rfl) trivial rfl) trivial rfl) trivial rfl) trivial ?_
    show some (onPendingDeleteMessages _ neither.getPendingDeleteMessages) = _
    rw [hend]
    rfl
  refine ⟨start, _, hstart, .inr ⟨hpos, true, by simp [start]⟩, .inr ⟨hpos', true, by simp [start]⟩,
    hserved, step_none rfl rfl rfl, hneither, rfl⟩

theorem later_history_untold_two :
    ∃ s s', Run (DeletesSending.step noEnvironment) Allowed {} s ∧
      s.Waits [7] ⟨[7], 1, [], .delUpTo⟩ ∧ s.Waits [7] ⟨[7], 2, [], .delUpTo⟩ ∧
      Run (DeletesSending.step noEnvironment) Allowed s s' ∧
      (∀ action, action.Works → s'.step noEnvironment action = none) ∧
      (∀ other, s'.store.deletionsOf other = []) ∧
      s'.answered.filterMap DeleteBatch.packet = [.delHistory [7] 1] :=
  later_history_untold noEnvironment [7] rfl rfl (by decide) (by decide)

end Runs

end DeletesSending

end Icq.Wim
