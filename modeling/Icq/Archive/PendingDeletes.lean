import Icq.Archive.NotSentMessages
import Icq.Lib.Run

/-! What becomes of a pending message that the user deletes. -/

namespace Icq.Archive
open Icq.Lib

/-- The deletion of the erased message waits to be sent: with the id on the server, for the same
contact and in the same way. -/
def Erased.recordedIn (l : Erased) (deletions : List DeleteMessage) : Prop :=
  0 < l.msgid ∧ ∃ d ∈ deletions, d.aimid = l.contact ∧ d.messageId = l.msgid ∧
    d.operation = l.message.deleteOperation

instance (l : Erased) (deletions : List DeleteMessage) : Decidable (l.recordedIn deletions) := by
  unfold Erased.recordedIn
  infer_instance

theorem Erased.recordedIn_mono {l : Erased} {deletions deletions' : List DeleteMessage}
    (h : l.recordedIn deletions) (hp : deletions <+: deletions') : l.recordedIn deletions' :=
  ⟨h.1, h.2.imp fun _ hd => ⟨hp.subset hd.1, hd.2⟩⟩

namespace Removal

variable {env : PendingEnvironment} {aimid : Bytes} {removeIfModified : Bool}

theorem prefix_pushTo (d : DeleteMessage) (deletions : List DeleteMessage) :
    deletions <+: d.pushTo deletions := by
  unfold DeleteMessage.pushTo
  split
  · exact List.prefix_append ..
  · exact List.prefix_rfl

/-- The deletions the contact had still wait, and one waits for each erased message that was
deleted, if the block had an id for it. -/
structure Records (aimid : Bytes) (deletions : List DeleteMessage) (r : Removal) : Prop where
  kept : deletions <+: r.deletions
  contact : ∀ l ∈ r.erased, l.contact = aimid
  recorded : ∀ l ∈ r.erased, l.message.deleted = true → 0 < l.msgid → l.recordedIn r.deletions

theorem visit_records {deletions : List DeleteMessage} {r : Removal} (block : HistoryMessage)
    (h : Records aimid deletions r) :
    Records aimid deletions (r.visit env aimid removeIfModified block) := by
  unfold visit
  split
  · exact h
  rename_i e rest hrest
  split
  · have hcontact : ∀ l ∈ r.erased ++ [⟨aimid, e, block.msgid⟩], l.contact = aimid := by
      intro l hl
      rcases List.mem_append.mp hl with hl | hl
      · exact h.contact l hl
      · rw [List.mem_singleton.mp hl]
    split
    · refine ⟨h.kept.trans (prefix_pushTo ..), hcontact, fun l hl hdel hpos => ?_⟩
      rcases List.mem_append.mp hl with hl | hl
      · exact Erased.recordedIn_mono (h.recorded l hl hdel hpos) (prefix_pushTo ..)
      · obtain rfl := List.mem_singleton.mp hl
        refine ⟨hpos, ⟨aimid, block.msgid, e.internalId, e.deleteOperation⟩, ?_, rfl, rfl, rfl⟩
        simp [DeleteMessage.pushTo, show 0 < block.msgid from hpos]
    · split
      · exact ⟨h.kept, h.contact, h.recorded⟩
      · refine ⟨h.kept, hcontact, fun l hl hdel hpos => ?_⟩
        rcases List.mem_append.mp hl with hl | hl
        · exact h.recorded l hl hdel hpos
        · obtain rfl := List.mem_singleton.mp hl
          contradiction
  · exact ⟨h.kept, h.contact, h.recorded⟩

theorem removeBlock_records {deletions : List DeleteMessage} {r : Removal} (block : HistoryMessage)
    (h : Records aimid deletions r) :
    Records aimid deletions (r.removeBlock env aimid removeIfModified block) := by
  obtain ⟨r', hr', -, he⟩ := removeBlock_induct env aimid removeIfModified h
    fun _ => visit_records block
  rw [he]
  exact ⟨hr'.kept, hr'.contact, hr'.recorded⟩

/-- Whatever was deleted and is erased had an id on the server. -/
def Numbered (r : Removal) : Prop := ∀ l ∈ r.erased, l.message.deleted = true → 0 < l.msgid

/-- A block without an id names no deleted message. -/
def SparesDeleted (block : HistoryMessage) (messages : List NotSentMessage) : Prop :=
  block.msgid ≤ 0 → ∀ e ∈ messages, e.sameId block.internalId = true → e.deleted = false

theorem forall_mem_append_singleton {P : Erased → Prop} {erased : List Erased} {l : Erased} :
    (∀ x ∈ erased ++ [l], P x) ↔ (∀ x ∈ erased, P x) ∧ P l := by
  simp [or_imp, forall_and]

theorem sparesDeleted_cons {block : HistoryMessage} {e : NotSentMessage}
    {rest : List NotSentMessage} :
    SparesDeleted block (e :: rest) ↔
      (block.msgid ≤ 0 → e.sameId block.internalId = true → e.deleted = false) ∧
        SparesDeleted block rest := by
  simp only [SparesDeleted, List.forall_mem_cons]
  tauto

/-- A turn of the loop decides for the message it takes. -/
theorem visit_numbered_iff (block : HistoryMessage) (r : Removal) :
    ((r.visit env aimid removeIfModified block).Numbered ∧
        SparesDeleted block (r.visit env aimid removeIfModified block).rest) ↔
      (r.Numbered ∧ SparesDeleted block r.rest) := by
  unfold visit
  split
  · rfl
  rename_i e rest hrest
  rw [hrest, sparesDeleted_cons]
  cases hid : e.sameId block.internalId with
  | false => simp [Numbered]
  | true =>
    cases hdel : e.deleted with
    | true =>
      simp only [if_true, Numbered, forall_mem_append_singleton, hdel, forall_const]
      by_cases hpos : 0 < block.msgid
      · simp [hpos, SparesDeleted, not_le.mpr hpos]
      · simp [hpos, not_lt.mp hpos]
    | false =>
      simp only [if_true, Bool.false_eq_true, if_false, implies_true, true_and]
      split
      · rfl
      · simp only [Numbered, forall_mem_append_singleton, hdel, Bool.false_eq_true,
          false_implies, and_true]

theorem removeBlock_numbered_iff (block : HistoryMessage) (r : Removal) :
    (r.removeBlock env aimid removeIfModified block).Numbered ↔
      (r.Numbered ∧ SparesDeleted block r.rest) := by
  obtain ⟨r', hr', hnil, he⟩ := removeBlock_induct env aimid removeIfModified
    (I := fun r' => (r'.Numbered ∧ SparesDeleted block r'.rest) ↔
      (r.Numbered ∧ SparesDeleted block r.rest)) Iff.rfl
    fun r' h => (visit_numbered_iff block r').trans h
  rw [he, ← hr', hnil]
  simp [SparesDeleted, Numbered]

theorem foldl_numbered_iff (env : PendingEnvironment) (aimid : Bytes) (removeIfModified : Bool)
    (data : List HistoryMessage) (r : Removal) :
    (data.foldl (removeBlock env aimid removeIfModified) r).Numbered ↔
      (r.Numbered ∧ EachBlock env aimid removeIfModified SparesDeleted r data) := by
  induction data generalizing r with
  | nil => simp [EachBlock]
  | cons block data ih =>
    rw [List.foldl_cons, ih, removeBlock_numbered_iff, and_assoc]
    rfl

end Removal

namespace PendingOperations

/-- In each contact the first message that goes by the id. -/
def erasedById (s : PendingOperations) (id : Bytes) (histMsgId : Int64) : List Erased :=
  s.pendingMessages.items.filterMap fun entry =>
    (entry.messages.find? (·.sameId id)).map (⟨entry.contact, ·, histMsgId⟩)

/-- The messages that an operation erases because the server confirmed them. -/
def erasedBy (env : PendingEnvironment) (s : PendingOperations) : PendingAction → List Erased
  | .remove aimid removeIfModified data => (s.removal env aimid removeIfModified data).erased
  | .updateWithImstate id histMsgId _ =>
    match s.getMessageByInternalId id with
    | none => []
    | some msg =>
      if 0 < histMsgId then
        if msg.deleted then
          (s.insertDeletedMessage env msg.aimid
            ⟨msg.aimid, histMsgId, id, msg.deleteOperation⟩).erasedById id histMsgId
        else if msg.modified then []
        else s.erasedById id histMsgId
      else []
  | _ => []

/-- The user deleted the message, and nothing is left of that. -/
def lostBy (env : PendingEnvironment) (s : PendingOperations) (action : PendingAction) :
    List Erased :=
  (s.erasedBy env action).filter fun l =>
    l.message.deleted && !decide (l.recordedIn ((s.step env action).deletionsOf l.contact))

/-- A deleted message that is erased under the id of `msg` goes with the deletion of that one, or
its own deletion waits already. -/
def Covered (s : PendingOperations) (msg : NotSentMessage) (id : Bytes) (l : Erased) : Prop :=
  l.recordedIn (s.deletionsOf l.contact) ∨ msg.deleted = true ∧ msg.aimid = l.contact ∧
    (l.message.deleteOperation = msg.deleteOperation ∨
      DeleteMessage.names ⟨msg.aimid, l.msgid, id, msg.deleteOperation⟩ l.message = true)

/-- No deleted message is confirmed by a block without an id, or goes with another one. -/
def Careful (env : PendingEnvironment) (s : PendingOperations) : PendingAction → Prop
  | .remove aimid removeIfModified data =>
    Removal.EachBlock env aimid removeIfModified Removal.SparesDeleted
      (s.removal env aimid removeIfModified []) data
  | .updateWithImstate id histMsgId _ =>
    0 < histMsgId → ∀ msg, s.getMessageByInternalId id = some msg →
      msg.deleted = true ∨ msg.modified = false →
      ∀ contact e, (s.messagesOf contact).find? (·.sameId id) = some e → e.deleted = true →
        s.Covered msg id ⟨contact, e, histMsgId⟩
  | _ => True

variable {env : PendingEnvironment} {s : PendingOperations}

theorem mem_erasedById {id : Bytes} {histMsgId : Int64} {l : Erased} :
    l ∈ s.erasedById id histMsgId ↔
      (s.messagesOf l.contact).find? (·.sameId id) = some l.message ∧ l.msgid = histMsgId := by
  constructor
  · intro hl
    obtain ⟨entry, hentry, he⟩ := List.mem_filterMap.mp hl
    obtain ⟨e, hfind, rfl⟩ := Option.map_eq_some_iff.mp he
    have hm : s.messagesOf entry.contact = entry.messages := by
      rw [messagesOf, KeyMap.find_of_mem hentry]
      rfl
    exact ⟨by rw [hm, hfind], rfl⟩
  · rintro ⟨he, rfl⟩
    cases hf : s.pendingMessages.find? l.contact with
    | none => simp [messagesOf, hf] at he
    | some entry =>
      obtain ⟨hentry, hc⟩ := KeyMap.find_mem hf
      have hm : s.messagesOf l.contact = entry.messages := by simp [messagesOf, hf]
      refine List.mem_filterMap.mpr ⟨entry, hentry, ?_⟩
      rw [← hm, he, Option.map_some, hc]

theorem lostBy_eq_nil_iff {action : PendingAction} :
    s.lostBy env action = [] ↔ ∀ l ∈ s.erasedBy env action, l.message.deleted = true →
      l.recordedIn ((s.step env action).deletionsOf l.contact) := by
  simp [lostBy, List.filter_eq_nil_iff]

theorem removal_records (s : PendingOperations) (env : PendingEnvironment) (aimid : Bytes) (removeIfModified : Bool) (data : List HistoryMessage) :
    Removal.Records aimid (s.deletionsOf aimid) (s.removal env aimid removeIfModified data) := by
  unfold removal
  have hstart : Removal.Records aimid (s.deletionsOf aimid)
      { rest := s.messagesOf aimid, deletions := s.deletionsOf aimid, generated := s.generated } :=
    ⟨List.prefix_rfl, by simp, by simp⟩
  exact List.foldlRecOn data _ hstart fun r hr block _ => Removal.removeBlock_records block hr

theorem removal_erased_nil {aimid : Bytes} (h : s.messagesOf aimid = [])
    (removeIfModified : Bool) (data : List HistoryMessage) :
    (s.removal env aimid removeIfModified data).erased = [] := by
  have keep (r : Removal) (hr : r.before = [] ∧ r.rest = [] ∧ r.erased = [])
      (block : HistoryMessage) (_ : block ∈ data) :
      (r.removeBlock env aimid removeIfModified block).before = [] ∧
        (r.removeBlock env aimid removeIfModified block).rest = [] ∧
        (r.removeBlock env aimid removeIfModified block).erased = [] := by
    obtain ⟨hbefore, hrest, herased⟩ := hr
    simp [Removal.removeBlock, hbefore, hrest, herased]
  unfold removal
  exact (List.foldlRecOn data _ (by simp [h]) keep).2.2

theorem remove_lost_iff (aimid : Bytes) (removeIfModified : Bool) (data : List HistoryMessage) :
    s.lostBy env (.remove aimid removeIfModified data) = [] ↔
      s.Careful env (.remove aimid removeIfModified data) := by
  have hrec := s.removal_records env aimid removeIfModified data
  have hnum := Removal.foldl_numbered_iff env aimid removeIfModified data
    (s.removal env aimid removeIfModified [])
  have hstart : (s.removal env aimid removeIfModified []).Numbered := by
    simp [removal, Removal.Numbered]
  rw [lostBy_eq_nil_iff]
  refine Iff.trans ?_ (hnum.trans ⟨fun h => h.2, fun h => ⟨hstart, h⟩⟩)
  constructor
  · exact fun h l hl hdel => (h l hl hdel).1
  · intro h l hl hdel
    have hne : s.messagesOf aimid ≠ [] := by
      intro hnil
      have he : l ∈ (s.removal env aimid removeIfModified data).erased := hl
      rw [removal_erased_nil hnil] at he
      cases he
    have hdeletions := deletionsOf_remove s env aimid removeIfModified data hne
      fun hnil => List.prefix_nil.mp (hnil ▸ hrec.kept)
    rw [hrec.contact l hl, step, hdeletions]
    exact hrec.recorded l hl hdel (h l hl hdel)

theorem find_insertDeletedMessage (d : DeleteMessage) (contact other id : Bytes) :
    ((s.insertDeletedMessage env contact d).messagesOf other).find? (·.sameId id) =
      ((s.messagesOf other).find? (·.sameId id)).map
        (if contact = other then NotSentMessage.mark env d else fun e => e) := by
  rw [messagesOf_insertDeletedMessage]
  split
  · rw [List.find?_map, Function.comp_def]
    simp
  · simp

theorem deleteOperation_mark {d : DeleteMessage} {e : NotSentMessage} (h : d.names e = true) :
    (e.mark env d).deleteOperation = d.operation := by
  rw [NotSentMessage.mark, if_pos h]
  rfl

theorem deleted_mark {d : DeleteMessage} {e : NotSentMessage} (h : e.deleted = true) :
    (e.mark env d).deleted = true := by
  unfold NotSentMessage.mark
  split
  · rfl
  · exact h

/-- The deletion of `msg` goes out, and with it the messages it names. -/
theorem recorded_mark_iff {msg e : NotSentMessage} {id contact : Bytes} {histMsgId : Int64}
    (hpos : 0 < histMsgId) (hdel : msg.deleted = true) (hc : msg.aimid = contact) :
    (⟨contact, e.mark env ⟨msg.aimid, histMsgId, id, msg.deleteOperation⟩, histMsgId⟩ :
        Erased).recordedIn
        (DeleteMessage.pushTo ⟨msg.aimid, histMsgId, id, msg.deleteOperation⟩
          (s.deletionsOf contact)) ↔ s.Covered msg id ⟨contact, e, histMsgId⟩ := by
  subst hc
  have hpush : DeleteMessage.pushTo ⟨msg.aimid, histMsgId, id, msg.deleteOperation⟩
      (s.deletionsOf msg.aimid) =
        s.deletionsOf msg.aimid ++ [⟨msg.aimid, histMsgId, id, msg.deleteOperation⟩] :=
    if_pos hpos
  rw [hpush]
  cases hn : DeleteMessage.names ⟨msg.aimid, histMsgId, id, msg.deleteOperation⟩ e with
  | true =>
    refine ⟨fun _ => .inr ⟨hdel, rfl, .inr hn⟩, fun _ => ⟨hpos, _, List.mem_append_right _
      List.mem_cons_self, rfl, rfl, (deleteOperation_mark hn).symm⟩⟩
  | false =>
    have hmark : e.mark env ⟨msg.aimid, histMsgId, id, msg.deleteOperation⟩ = e := by
      rw [NotSentMessage.mark, if_neg (by simp [hn])]
    rw [hmark]
    constructor
    · rintro ⟨-, d, hd, ha, hm, ho⟩
      rcases List.mem_append.mp hd with hd | hd
      · exact .inl ⟨hpos, d, hd, ha, hm, ho⟩
      · obtain rfl := List.mem_singleton.mp hd
        exact .inr ⟨hdel, rfl, .inl ho.symm⟩
    · rintro (h | ⟨-, -, ho | hn'⟩)
      · exact Erased.recordedIn_mono h (List.prefix_append ..)
      · exact ⟨hpos, _, List.mem_append_right _ List.mem_cons_self, rfl, rfl, ho.symm⟩
      · rw [hn] at hn'
        cases hn'

theorem covered_of_ne {msg e : NotSentMessage} {id contact : Bytes} {histMsgId : Int64}
    (hc : msg.deleted = true → msg.aimid ≠ contact) :
    (⟨contact, e, histMsgId⟩ : Erased).recordedIn (s.deletionsOf contact) ↔
      s.Covered msg id ⟨contact, e, histMsgId⟩ :=
  ⟨.inl, fun h => h.resolve_right fun ⟨hdel, ha, _⟩ => hc hdel ha⟩

theorem imstate_lost_iff (id : Bytes) (histMsgId beforeHistMsgId : Int64) :
    s.lostBy env (.updateWithImstate id histMsgId beforeHistMsgId) = [] ↔
      s.Careful env (.updateWithImstate id histMsgId beforeHistMsgId) := by
  rw [lostBy_eq_nil_iff]
  simp only [erasedBy, step, updateWithImstate, Careful]
  cases hmsg : s.getMessageByInternalId id with
  | none => simp
  | some msg =>
    by_cases hpos : 0 < histMsgId
    swap
    · simp [hpos]
    simp only [hpos, if_true, forall_const, Option.some.injEq, forall_eq']
    cases hdel : msg.deleted with
    | false =>
      cases hmod : msg.modified with
      | true => simp
      | false =>
        simp only [Bool.false_eq_true, if_false, or_true, forall_const, deletionsOf_removeById,
          mem_erasedById]
        constructor
        · intro h contact e hf hd
          exact (covered_of_ne (by simp [hdel])).mp (h ⟨contact, e, _⟩ ⟨hf, rfl⟩ hd)
        · intro h lost hlost hd
          exact (covered_of_ne (by simp [hdel])).mpr (hlost.2 ▸ h lost.contact lost.message hlost.1 hd)
    | true =>
      simp only [if_true, true_or, forall_const, deletionsOf_removeById, mem_erasedById,
        deletionsOf_insertDeletedMessage, find_insertDeletedMessage]
      constructor
      · intro h contact e hf hd
        by_cases hc : msg.aimid = contact
        · have hl := h ⟨contact, e.mark env ⟨msg.aimid, histMsgId, id, msg.deleteOperation⟩, _⟩
            ⟨by rw [if_pos hc, hf]; rfl, rfl⟩ (deleted_mark hd)
          rw [if_pos hc] at hl
          exact (recorded_mark_iff hpos hdel hc).mp hl
        · have hl := h ⟨contact, e, _⟩ ⟨by rw [if_neg hc, hf]; rfl, rfl⟩ hd
          rw [if_neg hc] at hl
          exact (covered_of_ne fun _ => hc).mp hl
      · rintro h ⟨contact, e', m⟩ ⟨hf, hm⟩ hd
        dsimp only at hf hm hd ⊢
        subst hm
        obtain ⟨e, hf, he⟩ := Option.map_eq_some_iff.mp hf
        by_cases hc : msg.aimid = contact
        · rw [if_pos hc] at he ⊢
          rw [← he]
          refine (recorded_mark_iff hpos hdel hc).mpr ?_
          cases hn : DeleteMessage.names ⟨msg.aimid, m, id, msg.deleteOperation⟩ e with
          | true => exact .inr ⟨hdel, hc, .inr hn⟩
          | false =>
            rw [NotSentMessage.mark, if_neg (by simp [hn])] at he
            exact h contact e hf (he ▸ hd)
        · rw [if_neg hc] at he ⊢
          exact he ▸ (covered_of_ne fun _ => hc).mpr (h contact e hf (he ▸ hd))

theorem lost_iff (action : PendingAction) :
    s.lostBy env action = [] ↔ s.Careful env action := by
  cases action with
  | remove aimid removeIfModified data => exact remove_lost_iff aimid removeIfModified data
  | updateWithImstate id histMsgId beforeHistMsgId => exact imstate_lost_iff id histMsgId _
  | insertMessage => simp [lostBy, erasedBy, Careful]
  | updateMessageIfExist => simp [lostBy, erasedBy, Careful]
  | insertDeletedMessage => simp [lostBy, erasedBy, Careful]
  | failedPendingMessage => simp [lostBy, erasedBy, Careful]

/-- A step of the pending operations, and what was lost so far. -/
def stepLost (env : PendingEnvironment) (s : PendingOperations × List Erased)
    (action : PendingAction) : Option (PendingOperations × List Erased) :=
  some (s.1.step env action, s.2 ++ s.1.lostBy env action)

/-- While every operation is careful no deletion is lost, and the first that is not loses one. -/
theorem run_lost_iff {s₀ : PendingOperations} {lost : List Erased}
    (h : Run (stepLost env) (fun s action => s.1.Careful env action) (s₀, []) (s, lost)) :
    lost = [] ∧ ∀ action, s.lostBy env action = [] ↔ s.Careful env action := by
  have keep {t t' : PendingOperations × List Erased} {action : PendingAction} (ht : t.2 = [])
      (hc : t.1.Careful env action) (hstep : stepLost env t action = some t') : t'.2 = [] := by
    obtain rfl := Option.some.inj hstep
    exact List.append_eq_nil_iff.mpr ⟨ht, (lost_iff action).mpr hc⟩
  exact ⟨h.invariant (P := fun t => t.2 = []) rfl keep, lost_iff⟩

/-- The message `[1]` of the contact `[7]`, which the user deleted for all. -/
def deletedPending : PendingOperations :=
  ({} : PendingOperations).setMessages [7]
    [{ aimid := [7], message := { internalId := [1] }, deleted := true }]

def firstEnvironment : PendingEnvironment := ⟨fun n => List.replicate n 1, false⟩

theorem run_lost_iff_confirmed :
    let block : HistoryMessage := { internalId := [1], msgid := 5 }
    let s := deletedPending.step firstEnvironment (.remove [7] false [block])
    deletedPending.lostBy firstEnvironment (.remove [7] false [block]) = [] ∧
      ∀ action, s.lostBy firstEnvironment action = [] ↔ s.Careful firstEnvironment action := by
  intro block s
  exact run_lost_iff (.step (.remove [7] false [block]) .start
    ⟨fun h => absurd h (by decide), trivial⟩ rfl)

/-- A block of the server without an id takes the deleted message away. -/
theorem unnumbered_block_loses_deletion :
    ¬ ∀ (env : PendingEnvironment) (s₀ s : PendingOperations) (lost : List Erased),
      Run (stepLost env) (fun _ _ => True) (s₀, []) (s, lost) → lost = [] := by
  intro h
  have hlost : deletedPending.lostBy firstEnvironment (.remove [7] false [{ internalId := [1] }]) =
      [] := h firstEnvironment deletedPending _ _
    (.step (.remove [7] false [{ internalId := [1] }]) .start trivial rfl)
  have hc := (lost_iff _).mp hlost
  cases hc.1 (by decide) _ List.mem_cons_self rfl

end PendingOperations

end Icq.Archive
