import Icq.Archive.NotSentMessages
import Icq.Lib.Run

/-! What becomes of an edit of a message that is still pending. -/

namespace Icq.Archive
open Icq.Lib

/-- The text a pending message of a contact was edited to. -/
structure Edit where
  contact : Bytes
  internalId : Bytes
  text : Bytes

namespace Edit

def IsIn (d : Edit) (e : NotSentMessage) : Prop :=
  e.internalId = d.internalId ∧ e.message.text = d.text

def Pending (d : Edit) (s : PendingOperations) : Prop := ∃ e ∈ s.messagesOf d.contact, d.IsIn e

/-- If the id names the edit, it is not yet an update, and nothing under the id is deleted. -/
def Spared (d : Edit) (id : Bytes) (messages : List NotSentMessage) : Prop :=
  ∀ e ∈ messages, d.IsIn e → e.sameId id = true →
    e.modified = true ∧ ∀ f ∈ messages, f.sameId id = true → f.deleted = false

/-- The operations that leave an edit alone: no newer version of the message comes, and no block
and no state of the server names the message once its edit is an update. -/
def Careful (env : PendingEnvironment) (d : Edit) (s : PendingOperations) : PendingAction → Prop
  | .insertMessage aimid message => aimid = d.contact → message.internalId ≠ d.internalId
  | .updateMessageIfExist aimid message => aimid = d.contact → message.internalId ≠ d.internalId
  | .insertDeletedMessage _ _ => False
  | .remove aimid removeIfModified data =>
    removeIfModified = false ∧ (aimid = d.contact →
      Removal.EachBlock env aimid false (fun block => d.Spared block.internalId)
        (s.removal env aimid false []) data)
  | .updateWithImstate id histMsgId _ =>
    0 < histMsgId → ∀ msg, s.getMessageByInternalId id = some msg →
      msg.deleted = true ∨ msg.modified = false →
      ∀ e ∈ s.messagesOf d.contact, d.IsIn e → e.sameId id = false
  | .failedPendingMessage _ => True

section

variable {d : Edit} {env : PendingEnvironment} {e : NotSentMessage}

theorem isIn_setDeleteOperation (operation : DeleteOperation) :
    d.IsIn (e.setDeleteOperation env operation) ↔ d.IsIn e := by
  cases operation <;> rfl

theorem isIn_mark (m : DeleteMessage) : d.IsIn (e.mark env m) ↔ d.IsIn e := by
  unfold NotSentMessage.mark
  split
  · exact isIn_setDeleteOperation (e := { e with deleted := true }) m.operation
  · rfl

/-- In the loop over the messages: the edit is passed, or it is still to come and is spared. -/
def Passing (d : Edit) (id : Bytes) (r : Removal) : Prop :=
  (∃ e ∈ r.before, d.IsIn e) ∨
    ∃ e ∈ r.rest, d.IsIn e ∧ (e.sameId id = true →
      e.modified = true ∧ ∀ f ∈ r.rest, f.sameId id = true → f.deleted = false)

theorem visit_passing {aimid : Bytes} {block : HistoryMessage} {r : Removal}
    (h : d.Passing block.internalId r) :
    d.Passing block.internalId (r.visit env aimid false block) := by
  have hkeep (m : DeleteMessage) {l : List NotSentMessage} (hl : ∃ e ∈ l, d.IsIn e) :
      ∃ e ∈ l.map (NotSentMessage.mark env m), d.IsIn e := by
    obtain ⟨e, he, hd⟩ := hl
    exact ⟨_, List.mem_map_of_mem he, (isIn_mark m).mpr hd⟩
  have hafter {l : List NotSentMessage} (e : NotSentMessage) (hl : ∃ e ∈ l, d.IsIn e) :
      ∃ e' ∈ l ++ [e], d.IsIn e' := by
    obtain ⟨e', he, hd⟩ := hl
    exact ⟨e', List.mem_append_left _ he, hd⟩
  unfold Removal.visit
  split
  · exact h
  rename_i head rest hrest
  rw [Passing, hrest] at h
  rcases h with hbefore | ⟨e, he, hd, hspared⟩
  · -- The edit is passed: what comes later marks it at most.
    left
    split
    · split
      · exact hkeep _ hbefore
      · split
        · exact hafter _ hbefore
        · exact hbefore
    · exact hafter _ hbefore
  rcases List.mem_cons.mp he with rfl | he
  · -- It is the turn of the edit, which stays as it is or becomes an update.
    left
    cases hid : e.sameId block.internalId with
    | false => exact ⟨e, List.mem_append_right _ List.mem_cons_self, hd⟩
    | true =>
      obtain ⟨hmod, hdel⟩ := hspared hid
      simp only [if_true, hdel e List.mem_cons_self hid, hmod, Bool.not_false, Bool.and_self,
        Bool.false_eq_true, if_false]
      exact ⟨_, List.mem_append_right _ List.mem_cons_self, hd⟩
  · right
    have hrest' : e.sameId block.internalId = true →
        e.modified = true ∧ ∀ f ∈ rest, f.sameId block.internalId = true → f.deleted = false :=
      fun hid => ⟨(hspared hid).1, fun f hf => (hspared hid).2 f (List.mem_cons_of_mem _ hf)⟩
    cases hid : head.sameId block.internalId with
    | false => exact ⟨e, he, hd, hrest'⟩
    | true =>
      cases hdel : head.deleted with
      | true =>
        -- A deleted message goes, so the block does not name the edit.
        have hne : e.sameId block.internalId = false := by
          by_contra hid'
          have hf := (hspared (by simpa using hid')).2 head List.mem_cons_self hid
          rw [hdel] at hf
          cases hf
        refine ⟨_, List.mem_map_of_mem he, (isIn_mark _).mpr hd, fun hid' => ?_⟩
        rw [NotSentMessage.sameId_mark, hne] at hid'
        cases hid'
      | false =>
        simp only [if_true, Bool.false_eq_true, if_false]
        split
        · exact ⟨e, he, hd, hrest'⟩
        · exact ⟨e, he, hd, hrest'⟩

/-- A block that spares the edit leaves it. -/
theorem removeBlock_keeps {aimid : Bytes} {block : HistoryMessage} {r : Removal}
    (h : ∃ e ∈ r.rest, d.IsIn e) (hs : d.Spared block.internalId r.rest) :
    ∃ e ∈ (r.removeBlock env aimid false block).rest, d.IsIn e := by
  obtain ⟨e, he, hd⟩ := h
  obtain ⟨r', hpass, hnil, hr⟩ := Removal.removeBlock_induct env aimid false
    (show d.Passing block.internalId r from .inr ⟨e, he, hd, hs e he hd⟩) fun _ => visit_passing
  rw [hr]
  rcases hpass with hbefore | ⟨e', he', -⟩
  · exact hbefore
  · rw [hnil] at he'
    cases he'

variable {s : PendingOperations}

theorem pending_setMessages {contact : Bytes} {messages : List NotSentMessage} (h : d.Pending s)
    (hm : contact = d.contact → ∃ e ∈ messages, d.IsIn e) :
    d.Pending (s.setMessages contact messages) := by
  unfold Pending
  rw [PendingOperations.messagesOf_setMessages]
  split
  · exact hm ‹_›
  · exact h

/-- A version of another message replaces another one. -/
theorem replaceFirst_keeps {id : Bytes} {f : NotSentMessage → NotSentMessage}
    {l l' : List NotSentMessage} (h : ∃ e ∈ l, d.IsIn e)
    (hr : PendingOperations.replaceFirst id f l = some l') (hid : id ≠ d.internalId) :
    ∃ e ∈ l', d.IsIn e := by
  obtain ⟨e, he, hd⟩ := h
  rcases PendingOperations.mem_replaceFirst hr he with he' | ⟨hi, -⟩
  · exact ⟨e, he', hd⟩
  · exact absurd (hi.symm.trans hd.1) hid

theorem insertMessage_pending {aimid : Bytes} {message : NotSentMessage} (h : d.Pending s)
    (hne : aimid = d.contact → message.internalId ≠ d.internalId) :
    d.Pending (s.insertMessage aimid message) := by
  apply pending_setMessages h
  rintro rfl
  cases hr : PendingOperations.replaceFirst message.internalId (fun _ => message)
      (s.messagesOf d.contact) with
  | none =>
    obtain ⟨e, he, hd⟩ := h
    exact ⟨e, List.mem_append_left _ he, hd⟩
  | some l => exact replaceFirst_keeps h hr (hne rfl)

theorem updateMessageIfExist_pending {aimid : Bytes} {message : NotSentMessage} (h : d.Pending s)
    (hne : aimid = d.contact → message.internalId ≠ d.internalId) :
    d.Pending ((s.updateMessageIfExist aimid message).getD s) := by
  unfold PendingOperations.updateMessageIfExist
  cases hr : PendingOperations.replaceFirst message.internalId message.withFileSharingOf
      (s.messagesOf aimid) with
  | none => exact h
  | some l =>
    refine pending_setMessages h ?_
    rintro rfl
    exact replaceFirst_keeps h hr (hne rfl)

theorem failedPendingMessage_pending (id : Bytes) (h : d.Pending s) :
    d.Pending (s.failedPendingMessage id) := by
  unfold PendingOperations.failedPendingMessage
  split
  · exact h
  rename_i entry hentry
  apply pending_setMessages h
  intro hc
  have hmessages : s.messagesOf d.contact = entry.messages := by
    rw [PendingOperations.messagesOf, ← hc, KeyMap.find_of_mem (List.mem_of_find?_eq_some hentry)]
    rfl
  obtain ⟨e, he, hd⟩ := h
  rw [hmessages] at he
  cases hr : PendingOperations.replaceFirst id NotSentMessage.setFailed entry.messages with
  | none => exact ⟨e, he, hd⟩
  | some l =>
    rcases PendingOperations.mem_replaceFirst hr he with he' | ⟨-, he'⟩
    · exact ⟨e, he', hd⟩
    · exact ⟨_, he', hd⟩

theorem remove_pending {aimid : Bytes} {data : List HistoryMessage} (h : d.Pending s)
    (hs : aimid = d.contact →
      Removal.EachBlock env aimid false (fun block => d.Spared block.internalId)
        (s.removal env aimid false []) data) :
    d.Pending (s.remove env aimid false data).1 := by
  unfold Pending
  by_cases hc : aimid = d.contact
  · subst hc
    have hne : s.messagesOf d.contact ≠ [] := by
      obtain ⟨e, he, -⟩ := h
      exact List.ne_nil_of_mem he
    rw [PendingOperations.messagesOf_remove, if_neg hne]
    exact (hs rfl).foldl (I := fun r => ∃ e ∈ r.rest, d.IsIn e) h
      fun _ _ hr hspared => removeBlock_keeps hr hspared
  · rw [PendingOperations.messagesOf_remove_other _ _ _ _ _ _ hc]
    exact h

theorem removeById_pending {id : Bytes} (h : d.Pending s)
    (hid : ∀ e ∈ s.messagesOf d.contact, d.IsIn e → e.sameId id = false) :
    d.Pending (s.removeById id) := by
  obtain ⟨e, he, hd⟩ := h
  refine ⟨e, ?_, hd⟩
  rw [PendingOperations.messagesOf_removeById]
  exact (List.mem_eraseP_of_neg (by simp [hid e he hd])).mpr he

theorem insertDeletedMessage_pending {contact : Bytes} (m : DeleteMessage) (h : d.Pending s) :
    d.Pending (s.insertDeletedMessage env contact m) := by
  obtain ⟨e, he, hd⟩ := h
  unfold Pending
  rw [PendingOperations.messagesOf_insertDeletedMessage]
  split
  · exact ⟨_, List.mem_map_of_mem he, (isIn_mark m).mpr hd⟩
  · exact ⟨e, he, hd⟩

theorem updateWithImstate_pending {id : Bytes} {histMsgId beforeHistMsgId : Int64}
    (h : d.Pending s)
    (hs : 0 < histMsgId → ∀ msg, s.getMessageByInternalId id = some msg →
      msg.deleted = true ∨ msg.modified = false →
      ∀ e ∈ s.messagesOf d.contact, d.IsIn e → e.sameId id = false) :
    d.Pending (s.updateWithImstate env id histMsgId beforeHistMsgId).1 := by
  unfold PendingOperations.updateWithImstate
  split
  · exact h
  rename_i msg hmsg
  split
  · rename_i hpos
    split
    · rename_i hdel
      have hid := hs hpos msg hmsg (.inl hdel)
      refine removeById_pending (insertDeletedMessage_pending _ h) fun e he hd => ?_
      rw [PendingOperations.messagesOf_insertDeletedMessage] at he
      split at he
      · obtain ⟨e', he', rfl⟩ := List.mem_map.mp he
        rw [NotSentMessage.sameId_mark]
        exact hid e' he' ((isIn_mark _).mp hd)
      · exact hid e he hd
    · split
      · exact h
      · rename_i hmod
        exact removeById_pending h (hs hpos msg hmsg (.inr (by simpa using hmod)))
  · exact h

/-- What one operation leaves of the edit. -/
theorem step_pending {action : PendingAction} (h : d.Pending s) (hc : d.Careful env s action) :
    d.Pending (s.step env action) := by
  cases action with
  | insertMessage aimid message => exact insertMessage_pending h hc
  | updateMessageIfExist aimid message => exact updateMessageIfExist_pending h hc
  | insertDeletedMessage contact message => exact hc.elim
  | remove aimid removeIfModified data =>
    obtain ⟨rfl, hs⟩ := hc
    exact remove_pending h hs
  | updateWithImstate id histMsgId beforeHistMsgId => exact updateWithImstate_pending h hc
  | failedPendingMessage id => exact failedPendingMessage_pending id h

/-- An edit that waits is pending after every run of careful operations. -/
theorem run_pending {t : PendingOperations} (h : d.Pending s)
    (hrun : Run (fun s action => some (s.step env action)) (d.Careful env) s t) : d.Pending t :=
  hrun.invariant h fun hs hc hstep => Option.some.inj hstep ▸ step_pending hs hc

end

/-- The system generates the id `[9]`. -/
def nineEnvironment : PendingEnvironment := ⟨fun _ => [9], false⟩

/-- The message `[1]` of the contact `[7]`, edited to `[2]` before the server confirmed it. -/
def editedMessage : NotSentMessage :=
  { aimid := [7], message := { internalId := [1], text := [2] }, modified := true }

def editedPending : PendingOperations := ({} : PendingOperations).setMessages [7] [editedMessage]

/-- The server says that it has the message `[1]`, as number 5. -/
def confirmation : HistoryMessage := { internalId := [1], msgid := 5 }

theorem run_pending_confirmed :
    (⟨[7], [1], [2]⟩ : Edit).Pending
      (editedPending.step nineEnvironment (.remove [7] false [confirmation])) := by
  refine run_pending (s := editedPending) ⟨editedMessage, List.mem_cons_self, rfl, rfl⟩
    (.step (.remove [7] false [confirmation]) .start ⟨rfl, fun _ => ⟨?_, trivial⟩⟩ rfl)
  intro e he _ _
  obtain rfl := List.mem_singleton.mp he
  refine ⟨rfl, fun f hf _ => ?_⟩
  obtain rfl := List.mem_singleton.mp hf
  rfl

/-- The operations of a run in which no newer version of the message comes, and no block and no
state has the id that was generated for the update. -/
def Unanswered (env : PendingEnvironment) (d : Edit) (s : PendingOperations) : PendingAction → Prop
  | .insertMessage aimid message => aimid = d.contact → message.internalId ≠ d.internalId
  | .updateMessageIfExist aimid message => aimid = d.contact → message.internalId ≠ d.internalId
  | .insertDeletedMessage _ _ => False
  | .remove aimid removeIfModified data =>
    removeIfModified = false ∧ (aimid = d.contact →
      Removal.EachBlock env aimid false (fun block messages => ∀ e ∈ messages, d.IsIn e →
        e.modified = false → block.internalId ≠ e.networkRequestId)
        (s.removal env aimid false []) data)
  | .updateWithImstate id _ _ =>
    ∀ e ∈ s.messagesOf d.contact, d.IsIn e → e.modified = false → id ≠ e.networkRequestId
  | .failedPendingMessage _ => True

/-- The second confirmation of the message removes the edit. -/
theorem second_confirmation_loses_edit :
    ¬ ∀ (env : PendingEnvironment) (d : Edit) (s t : PendingOperations),
      (∃ e ∈ s.messagesOf d.contact, d.IsIn e ∧ e.modified = true ∧ e.deleted = false) →
      Run (fun s action => some (s.step env action)) (d.Unanswered env) s t → d.Pending t := by
  intro h
  have hrun : Run (fun s action => some (s.step nineEnvironment action))
      (Unanswered nineEnvironment ⟨[7], [1], [2]⟩) editedPending
      (editedPending.step nineEnvironment (.remove [7] false [confirmation, confirmation])) := by
    refine .step (.remove [7] false [confirmation, confirmation]) .start
      ⟨rfl, fun _ => ⟨?_, ?_, trivial⟩⟩ rfl
    · intro e he _ hm
      obtain rfl := List.mem_singleton.mp he
      cases hm
    · intro e he _ _
      obtain rfl := List.mem_singleton.mp he
      decide
  obtain ⟨e, he, -⟩ := h _ _ _ _ ⟨editedMessage, List.mem_cons_self, ⟨rfl, rfl⟩, rfl, rfl⟩ hrun
  cases he

end Edit

end Icq.Archive
