import Icq.Archive.PendingFiles
import Icq.Lib.KeyMapRange
import Icq.Lib.Run

/-! What is pending stays well formed, over restarts too. -/

namespace Icq.Archive
open Icq.Lib Icq.Tools

/-- A message that waits under its own contact and can be found again after a restart: it is not
kept as JSON, and its ids can be stored. -/
structure NotSentMessage.FiledUnder (contact : Bytes) (e : NotSentMessage) : Prop where
  aimid : e.aimid = contact
  aimid_short : contact.length < 2 ^ 32
  internalId_short : e.internalId.length < 2 ^ 32
  json : e.message.json = []

namespace NotSentMessage

variable {env : PendingEnvironment} {d : DeleteMessage} {e : NotSentMessage} {contact : Bytes}

@[simp] theorem internalId_mark : (e.mark env d).internalId = e.internalId := by
  unfold mark
  split
  · cases d.operation <;> rfl
  · rfl

theorem FiledUnder.mark (h : FiledUnder contact e) : FiledUnder contact (e.mark env d) := by
  refine ⟨?_, h.aimid_short, by rw [internalId_mark]; exact h.internalId_short, ?_⟩
  · unfold NotSentMessage.mark
    split
    · cases d.operation <;> exact h.aimid
    · exact h.aimid
  · unfold NotSentMessage.mark
    split
    · cases d.operation <;> exact h.json
    · exact h.json

theorem withFileSharingOf_cases (e old : NotSentMessage) : e.withFileSharingOf old = e ∨
    ∃ fs, e.withFileSharingOf old =
      { e with message := { e.message with fileSharing := some fs } } := by
  unfold withFileSharingOf
  split
  · exact .inl rfl
  · split
    · exact .inl rfl
    · exact .inr ⟨_, rfl⟩

end NotSentMessage

namespace Removal

variable {env : PendingEnvironment} {aimid : Bytes} {removeIfModified : Bool}

/-- Of the messages there were some are left, each with its id and its place. -/
structure KeepsIds (aimid : Bytes) (ids : List Bytes) (r : Removal) : Prop where
  sublist : ((r.before ++ r.rest).map NotSentMessage.internalId).Sublist ids
  filed : ∀ e ∈ r.before ++ r.rest, e.FiledUnder aimid

theorem visit_keepsIds {ids : List Bytes} {r : Removal} (block : HistoryMessage)
    (h : KeepsIds aimid ids r) : KeepsIds aimid ids (r.visit env aimid removeIfModified block) := by
  obtain ⟨hids, hfiled⟩ := h
  unfold visit
  split
  · exact ⟨hids, hfiled⟩
  rename_i e rest hrest
  rw [hrest] at hids hfiled
  have hless : ((r.before ++ rest).map NotSentMessage.internalId).Sublist ids := by
    refine List.Sublist.trans (List.Sublist.map _ ?_) hids
    exact (List.Sublist.refl r.before).append (List.sublist_cons_self e rest)
  have hleft : ∀ x ∈ r.before ++ rest, x.FiledUnder aimid := fun x hx =>
    hfiled x (List.mem_append.mpr ((List.mem_append.mp hx).imp_right (List.mem_cons_of_mem e)))
  split
  · split
    · have hmap : r.before.map (NotSentMessage.mark env
          ⟨aimid, block.msgid, e.internalId, e.deleteOperation⟩) ++ rest.map (NotSentMessage.mark env
          ⟨aimid, block.msgid, e.internalId, e.deleteOperation⟩) = (r.before ++ rest).map
          (NotSentMessage.mark env ⟨aimid, block.msgid, e.internalId, e.deleteOperation⟩) :=
        List.map_append.symm
      refine ⟨?_, fun x hx => ?_⟩
      · show (List.map _ (_ ++ _)).Sublist ids
        rw [hmap, List.map_map]
        refine (List.map_congr_left fun x _ => ?_) ▸ hless
        exact NotSentMessage.internalId_mark.symm
      · obtain ⟨y, hy, rfl⟩ := List.mem_map.mp (hmap ▸ hx)
        exact (hleft y hy).mark
    · split
      · refine ⟨?_, fun x hx => ?_⟩
        · show (List.map _ (r.before ++ [_] ++ rest)).Sublist ids
          rw [List.append_assoc, List.map_append]
          rw [List.map_append] at hids
          exact hids
        · have hx : x ∈ r.before ++ [_] ++ rest := hx
          rw [List.append_assoc] at hx
          rcases List.mem_append.mp hx with hx | hx
          · exact hfiled x (List.mem_append_left _ hx)
          · rcases List.mem_cons.mp hx with rfl | hx
            · have he := hfiled e (List.mem_append_right _ List.mem_cons_self)
              exact ⟨he.aimid, he.aimid_short, he.internalId_short, he.json⟩
            · exact hleft x (List.mem_append_right _ hx)
      · exact ⟨hless, hleft⟩
  · refine ⟨?_, fun x hx => hfiled x ?_⟩
    · show (List.map _ (r.before ++ [e] ++ rest)).Sublist ids
      rw [List.append_assoc]
      exact hids
    · rw [← List.singleton_append, ← List.append_assoc]
      exact hx

theorem removeBlock_keepsIds {ids : List Bytes} {r : Removal} (block : HistoryMessage)
    (h : KeepsIds aimid ids r) :
    KeepsIds aimid ids (r.removeBlock env aimid removeIfModified block) := by
  obtain ⟨r', hr', hnil, he⟩ := removeBlock_induct env aimid removeIfModified h
    fun _ => visit_keepsIds block
  rw [he]
  refine ⟨?_, fun e he => hr'.filed e ?_⟩
  · have hids := hr'.sublist
    rwa [hnil, List.append_nil] at hids
  · exact List.mem_append_left _ he

end Removal

namespace PendingOperations

variable {env : PendingEnvironment} {w : Surroundings} {s s' : PendingOperations} {contact : Bytes}

/-- Each contact's messages are its own, with different internal ids. -/
structure Filed (s : PendingOperations) : Prop where
  distinct : ∀ contact, ((s.messagesOf contact).map NotSentMessage.internalId).Nodup
  filed : ∀ contact, ∀ e ∈ s.messagesOf contact, e.FiledUnder contact

def NonemptyDeletions (s : PendingOperations) : Prop :=
  ∀ entry ∈ s.pendingDeleteMessages.items, entry.messages ≠ []

/-- The messages of one contact change; the others' stay. -/
theorem Filed.of_contact (h : Filed s) (contact : Bytes)
    (hother : ∀ other, contact ≠ other → s'.messagesOf other = s.messagesOf other)
    (hdistinct : ((s'.messagesOf contact).map NotSentMessage.internalId).Nodup)
    (hfiled : ∀ e ∈ s'.messagesOf contact, e.FiledUnder contact) : Filed s' := by
  constructor
  · intro other
    by_cases hc : contact = other
    · exact hc ▸ hdistinct
    · rw [hother other hc]
      exact h.distinct other
  · intro other
    by_cases hc : contact = other
    · exact hc ▸ hfiled
    · rw [hother other hc]
      exact h.filed other

theorem Filed.setMessages (h : Filed s) {messages : List NotSentMessage}
    (hdistinct : (messages.map NotSentMessage.internalId).Nodup)
    (hfiled : ∀ e ∈ messages, e.FiledUnder contact) : Filed (s.setMessages contact messages) := by
  refine h.of_contact contact (fun other hc => ?_) ?_ ?_
  · rw [messagesOf_setMessages, if_neg hc]
  · rwa [messagesOf_setMessages, if_pos rfl]
  · rwa [messagesOf_setMessages, if_pos rfl]

theorem replaceFirst_ids {id : Bytes} {f : NotSentMessage → NotSentMessage}
    {l l' : List NotSentMessage} (hf : ∀ e, e.internalId = id → (f e).internalId = id)
    (h : replaceFirst id f l = some l') :
    l'.map NotSentMessage.internalId = l.map NotSentMessage.internalId := by
  induction l generalizing l' with
  | nil => cases h
  | cons e l ih =>
    rw [replaceFirst] at h
    split at h
    · rename_i he
      obtain rfl := Option.some.inj h
      rw [List.map_cons, List.map_cons, hf e he, he]
    · obtain ⟨rest, hrest, rfl⟩ := Option.map_eq_some_iff.mp h
      rw [List.map_cons, List.map_cons, ih hrest]

theorem replaceFirst_forall {id : Bytes} {f : NotSentMessage → NotSentMessage}
    {P : NotSentMessage → Prop} {l l' : List NotSentMessage} (hl : ∀ e ∈ l, P e)
    (hf : ∀ e ∈ l, P (f e)) (h : replaceFirst id f l = some l') : ∀ e ∈ l', P e := by
  induction l generalizing l' with
  | nil => cases h
  | cons e l ih =>
    obtain ⟨he, hl⟩ := List.forall_mem_cons.mp hl
    obtain ⟨hfe, hf⟩ := List.forall_mem_cons.mp hf
    rw [replaceFirst] at h
    split at h
    · obtain rfl := Option.some.inj h
      exact List.forall_mem_cons.mpr ⟨hfe, hl⟩
    · obtain ⟨rest, hrest, rfl⟩ := Option.map_eq_some_iff.mp h
      exact List.forall_mem_cons.mpr ⟨he, ih hl hf hrest⟩

theorem replaceFirst_none {id : Bytes} {f : NotSentMessage → NotSentMessage}
    {l : List NotSentMessage} (h : replaceFirst id f l = none) : ∀ e ∈ l, e.internalId ≠ id := by
  induction l with
  | nil => exact fun e he => absurd he List.not_mem_nil
  | cons e l ih =>
    rw [replaceFirst] at h
    split at h
    · cases h
    · rename_i he
      exact List.forall_mem_cons.mpr ⟨he, ih (Option.map_eq_none_iff.mp h)⟩

theorem Filed.insertMessage (h : Filed s) {message : NotSentMessage}
    (hm : message.FiledUnder contact) : Filed (s.insertMessage contact message) := by
  have hinsert : s.insertMessage contact message = s.setMessages contact
      ((replaceFirst message.internalId (fun _ => message) (s.messagesOf contact)).getD
        (s.messagesOf contact ++ [message])) := rfl
  rw [hinsert]
  cases hreplace : replaceFirst message.internalId (fun _ => message) (s.messagesOf contact) with
  | none =>
    refine h.setMessages ?_ fun e he => ?_
    · have hnew := replaceFirst_none hreplace
      rw [Option.getD_none, List.map_append]
      refine (h.distinct contact).append (List.nodup_singleton _) fun id hid hid' => ?_
      obtain ⟨e, he, rfl⟩ := List.mem_map.mp hid
      exact hnew e he (List.mem_singleton.mp hid')
    · rcases List.mem_append.mp he with he | he
      · exact h.filed contact e he
      · rwa [List.mem_singleton.mp he]
  | some l =>
    refine h.setMessages ?_ ?_
    · rw [Option.getD_some, replaceFirst_ids (fun _ _ => rfl) hreplace]
      exact h.distinct contact
    · exact replaceFirst_forall (h.filed contact) (fun _ _ => hm) hreplace

theorem Filed.updateMessageIfExist (h : Filed s) {message : NotSentMessage}
    (hm : message.FiledUnder contact) (hupdate : s.updateMessageIfExist contact message = some s') :
    Filed s' := by
  obtain ⟨l, hreplace, rfl⟩ := Option.map_eq_some_iff.mp hupdate
  refine h.setMessages ?_ (replaceFirst_forall (h.filed contact) (fun old _ => ?_) hreplace)
  · rw [replaceFirst_ids (fun old _ => ?_) hreplace]
    · exact h.distinct contact
    · rcases message.withFileSharingOf_cases old with he | ⟨fs, he⟩
      · rw [he]
      · rw [he]
        rfl
  · rcases message.withFileSharingOf_cases old with he | ⟨fs, he⟩
    · rwa [he]
    · rw [he]
      exact ⟨hm.aimid, hm.aimid_short, hm.internalId_short, hm.json⟩

theorem Filed.insertDeletedMessage (h : Filed s) (d : DeleteMessage) :
    Filed (s.insertDeletedMessage env contact d) := by
  refine h.of_contact contact (fun other hc => ?_) ?_ fun e he => ?_
  · rw [messagesOf_insertDeletedMessage, if_neg hc]
  · rw [messagesOf_insertDeletedMessage, if_pos rfl, List.map_map]
    refine (List.map_congr_left fun e _ => ?_) ▸ h.distinct contact
    exact NotSentMessage.internalId_mark.symm
  · rw [messagesOf_insertDeletedMessage, if_pos rfl] at he
    obtain ⟨x, hx, rfl⟩ := List.mem_map.mp he
    exact (h.filed contact x hx).mark

theorem Filed.removeById (h : Filed s) (id : Bytes) : Filed (s.removeById id) := by
  constructor
  · intro contact
    rw [messagesOf_removeById]
    exact (h.distinct contact).sublist ((List.eraseP_sublist).map _)
  · intro contact e he
    rw [messagesOf_removeById] at he
    exact h.filed contact e (List.eraseP_sublist.subset he)

theorem Filed.remove (h : Filed s) (removeIfModified : Bool) (data : List HistoryMessage) :
    Filed (s.remove env contact removeIfModified data).1 := by
  have hkeeps : Removal.KeepsIds contact ((s.messagesOf contact).map NotSentMessage.internalId)
      (s.removal env contact removeIfModified data) := by
    unfold removal
    refine List.foldlRecOn data _ (motive := Removal.KeepsIds contact _)
      ⟨List.Sublist.refl _, h.filed contact⟩ ?_
    exact fun r hr block _ => Removal.removeBlock_keepsIds block hr
  have hrest := hkeeps.sublist
  rw [List.map_append] at hrest
  refine h.of_contact contact (fun other hc => messagesOf_remove_other s other env contact _ _ hc) ?_ ?_
  · rw [messagesOf_remove]
    split
    · exact List.nodup_nil
    · exact (h.distinct contact).sublist ((List.sublist_append_right _ _).trans hrest)
  · intro e he
    rw [messagesOf_remove] at he
    split at he
    · cases he
    · exact hkeeps.filed e (List.mem_append_right _ he)

theorem Filed.updateWithImstate (h : Filed s) (id : Bytes) (histMsgId beforeHistMsgId : Int64) :
    Filed (s.updateWithImstate env id histMsgId beforeHistMsgId).1 := by
  unfold PendingOperations.updateWithImstate
  split
  · exact h
  · split
    · split
      · exact (h.insertDeletedMessage _).removeById id
      · split
        · exact h
        · exact h.removeById id
    · exact h

theorem Filed.failedPendingMessage (h : Filed s) (id : Bytes) :
    Filed (s.failedPendingMessage id) := by
  unfold PendingOperations.failedPendingMessage
  split
  · exact h
  · rename_i entry hentry
    have hmessages : s.messagesOf entry.contact = entry.messages := by
      rw [messagesOf, KeyMap.find_of_mem (List.mem_of_find?_eq_some hentry)]
      rfl
    have hdistinct := h.distinct entry.contact
    have hfiled := h.filed entry.contact
    rw [hmessages] at hdistinct hfiled
    cases hreplace : replaceFirst id NotSentMessage.setFailed entry.messages with
    | none => exact h.setMessages hdistinct hfiled
    | some l =>
      refine h.setMessages ?_ (replaceFirst_forall hfiled (fun e he => ?_) hreplace)
      · rw [Option.getD_some, replaceFirst_ids (f := NotSentMessage.setFailed) (fun _ he => he) hreplace]
        exact hdistinct
      · have hx := hfiled e he
        exact ⟨hx.aimid, hx.aimid_short, hx.internalId_short, hx.json⟩

theorem Filed.drop (h : Filed s) (aimid : Bytes) : Filed (s.drop aimid) := by
  have hdrop : ∀ contact, (s.drop aimid).messagesOf contact =
      if contact = aimid then [] else s.messagesOf contact := by
    intro contact
    simp only [messagesOf, PendingOperations.drop, KeyMap.find_erase]
    split <;> rfl
  refine h.of_contact aimid (fun other hc => ?_) ?_ ?_
  · rw [hdrop, if_neg (Ne.symm hc)]
  · rw [hdrop, if_pos rfl]
    exact List.nodup_nil
  · rw [hdrop, if_pos rfl]
    exact fun e he => absurd he List.not_mem_nil

theorem Filed.removeDeletedMessage (h : Filed s) (d : DeleteMessage) :
    Filed (s.removeDeletedMessage contact d) := by
  have hmessages : ∀ other, (s.removeDeletedMessage contact d).messagesOf other =
      s.messagesOf other := by
    intro other
    unfold PendingOperations.removeDeletedMessage
    split
    · rfl
    · rfl
  exact ⟨fun other => hmessages other ▸ h.distinct other,
    fun other => hmessages other ▸ h.filed other⟩

section Deletions

theorem NonemptyDeletions.setDeletions (h : NonemptyDeletions s) (contact : Bytes)
    (deletions : List DeleteMessage) :
    NonemptyDeletions (s.setDeletions contact deletions) := by
  intro entry hentry
  unfold PendingOperations.setDeletions at hentry
  split at hentry
  · exact h entry hentry
  · rename_i hne
    rcases KeyMap.mem_put.mp hentry with rfl | hentry
    · exact fun hnil => hne (List.isEmpty_iff.mpr hnil)
    · exact h entry hentry.1

theorem NonemptyDeletions.insertDeletedMessage (h : NonemptyDeletions s) (d : DeleteMessage) :
    NonemptyDeletions (s.insertDeletedMessage env contact d) := by
  unfold PendingOperations.insertDeletedMessage
  refine NonemptyDeletions.setDeletions ?_ _ _
  split
  · exact h
  · exact h

theorem NonemptyDeletions.remove (h : NonemptyDeletions s) (removeIfModified : Bool)
    (data : List HistoryMessage) : NonemptyDeletions (s.remove env contact removeIfModified data).1 := by
  unfold PendingOperations.remove
  split
  · exact h
  · have hset := h.setDeletions contact
      (s.removal env contact removeIfModified data).deletions
    dsimp only
    split
    · exact hset
    · exact hset

theorem NonemptyDeletions.updateWithImstate (h : NonemptyDeletions s) (id : Bytes)
    (histMsgId beforeHistMsgId : Int64) :
    NonemptyDeletions (s.updateWithImstate env id histMsgId beforeHistMsgId).1 := by
  unfold PendingOperations.updateWithImstate
  split
  · exact h
  · split
    · split
      · exact h.insertDeletedMessage _
      · split
        · exact h
        · exact h
    · exact h

theorem NonemptyDeletions.failedPendingMessage (h : NonemptyDeletions s) (id : Bytes) :
    NonemptyDeletions (s.failedPendingMessage id) := by
  unfold PendingOperations.failedPendingMessage
  split
  · exact h
  · exact h

theorem NonemptyDeletions.drop (h : NonemptyDeletions s) (aimid : Bytes) :
    NonemptyDeletions (s.drop aimid) :=
  fun entry hentry => h entry (List.mem_of_mem_filter hentry)

theorem NonemptyDeletions.removeDeletedMessage (h : NonemptyDeletions s) (d : DeleteMessage) :
    NonemptyDeletions (s.removeDeletedMessage contact d) := by
  unfold PendingOperations.removeDeletedMessage
  split
  · exact h
  · rename_i found hfound
    intro entry hentry
    dsimp only at hentry
    split at hentry
    · exact h entry (List.mem_of_mem_filter hentry)
    · rename_i hne
      rcases KeyMap.mem_put.mp hentry with rfl | hentry
      · exact fun hnil => hne (List.isEmpty_iff.mpr hnil)
      · exact h entry hentry.1

/-- With no empty list among them, the first deletion is missing only where there is none. -/
theorem NonemptyDeletions.first (h : NonemptyDeletions s) :
    s.getFirstPendingDeleteMessage = none ↔ ∀ contact, s.deletionsOf contact = [] := by
  unfold getFirstPendingDeleteMessage
  constructor
  · intro hfirst contact
    cases hitems : s.pendingDeleteMessages.items with
    | nil => simp only [deletionsOf, KeyMap.find?, hitems, List.find?_nil, Option.map_none,
        Option.getD_none]
    | cons entry items =>
      rw [KeyMap.first?, hitems] at hfirst
      have hne := h entry (hitems ▸ List.mem_cons_self)
      exact absurd (List.head?_eq_none_iff.mp (Option.map_eq_none_iff.mp hfirst)) hne
  · intro hnone
    cases hfirst : s.pendingDeleteMessages.first? with
    | none => rfl
    | some entry =>
      have hmem : entry ∈ s.pendingDeleteMessages.items := List.mem_of_head? hfirst
      have hentry := hnone entry.contact
      rw [deletionsOf, KeyMap.find_of_mem hmem] at hentry
      exact absurd hentry (h entry hmem)

end Deletions

section Restart

variable {now : Int64}

/-- After a restart a message is what it was as far as its ids go. -/
structure SameIds (e read : NotSentMessage) : Prop where
  aimid : read.aimid = e.aimid
  internalId : read.internalId = e.internalId
  json : read.message.json = []

theorem filter_sameIds {l read : List NotSentMessage} (h : List.Forall₂ SameIds l read) :
    List.Forall₂ SameIds (l.filter fun e => decide (e.aimid = contact))
      (read.filter fun e => decide (e.aimid = contact)) := by
  induction h with
  | nil => exact .nil
  | cons hsame _ ih =>
    rw [List.filter_cons, List.filter_cons, hsame.aimid]
    split
    · exact .cons hsame ih
    · exact ih

theorem map_internalId_sameIds {l read : List NotSentMessage} (h : List.Forall₂ SameIds l read) :
    read.map NotSentMessage.internalId = l.map NotSentMessage.internalId := by
  induction h with
  | nil => rfl
  | cons hsame _ ih => rw [List.map_cons, List.map_cons, hsame.internalId, ih]

theorem mem_sameIds {l read : List NotSentMessage} (h : List.Forall₂ SameIds l read)
    {x : NotSentMessage} (hx : x ∈ read) : ∃ e ∈ l, SameIds e x := by
  induction h with
  | nil => cases hx
  | cons hsame _ ih =>
    rcases List.mem_cons.mp hx with rfl | hx
    · exact ⟨_, List.mem_cons_self, hsame⟩
    · obtain ⟨e, he, hex⟩ := ih hx
      exact ⟨e, List.mem_cons_of_mem _ he, hex⟩

theorem Filed.of_sameIds (h : Filed s)
    (hsame : ∀ contact, List.Forall₂ SameIds (s.messagesOf contact) (s'.messagesOf contact)) :
    Filed s' := by
  constructor
  · intro contact
    rw [map_internalId_sameIds (hsame contact)]
    exact h.distinct contact
  · intro contact read hread
    obtain ⟨e, he, hsame⟩ := mem_sameIds (hsame contact) hread
    have hfiled := h.filed contact e he
    exact ⟨hsame.aimid.trans hfiled.aimid, hfiled.aimid_short,
      hsame.internalId ▸ hfiled.internalId_short, hsame.json⟩

theorem SameIds.of_reloaded {e read : NotSentMessage} (h : e.Reloaded read)
    (hfiled : e.FiledUnder contact) : SameIds e read := by
  refine ⟨?_, ?_, h.json⟩
  · rw [h.aimid, hfiled.aimid, Tlv.textValue_eq hfiled.aimid_short]
  · rw [h.internalId, Tlv.textValue_eq hfiled.internalId_short]

theorem Filed.of_items (h : Filed s) {entry : ContactMessages}
    (hentry : entry ∈ s.pendingMessages.items) :
    ∀ e ∈ entry.messages, e.FiledUnder entry.contact := by
  have hfiled := h.filed entry.contact
  rwa [messagesOf, KeyMap.find_of_mem hentry] at hfiled

/-- Where a block does not hold what is pending, nothing is left, and otherwise all of it. -/
theorem Filed.saveLoad (h : Filed s) (now : Int64) (hsize : (s.sentData w).length < 2 ^ 32) :
    ∃ s', s.saveLoad w now = .ok s' ∧ Filed s' ∧ NonemptyDeletions s' := by
  have hload : ∃ m, loadPendingSentMessages w now (saveFile (s.sentData w)) = .ok m ∧
      ∀ s' : PendingOperations, s'.pendingMessages = m → Filed s' := by
    rw [loadPendingSentMessages, sentData, loadRecords_saveFile hsize]
    split
    · have hlength : ∀ e ∈ s.pendingMessages.items.flatMap ContactMessages.messages,
          (TlvPack.serialize (e.serialize w)).length < 2 ^ 32 := fun e he =>
        Nat.lt_of_le_of_lt (length_le_recordsData (List.mem_map.mpr ⟨e, he, rfl⟩)) hsize
      have hown : ∀ e ∈ s.pendingMessages.items.flatMap ContactMessages.messages,
          ∃ contact, e.FiledUnder contact := by
        intro e he
        obtain ⟨entry, hentry, he⟩ := List.mem_flatMap.mp he
        exact ⟨entry.contact, h.of_items hentry e he⟩
      obtain ⟨read, hall, hfold⟩ := foldlM_loadMessage now ∅ hlength fun e he =>
        (hown e he).elim fun _ hfiled => hfiled.json
      refine ⟨_, hfold, fun s' hs' => h.of_sameIds fun contact => ?_⟩
      have hread : s'.messagesOf contact = read.filter fun e => decide (e.aimid = contact) := by
        rw [messagesOf, hs', find_foldl_pushMessage]
        rfl
      have hsaved := KeyMap.filter_flatMap s.pendingMessages
        (fun entry hentry e he => (h.of_items hentry e he).aimid) contact
      have hnamed : (s.pendingMessages.items.flatMap ContactMessages.messages).filter
          (fun e => decide (e.aimid = contact)) = s.messagesOf contact := by
        rw [messagesOf, ← hsaved]
        exact List.filter_congr fun e _ => Bool.eq_iff_iff.mpr (by simp)
      rw [hread, ← hnamed]
      apply filter_sameIds
      have hboth := (List.forall₂_and_left _ _).mpr ⟨hown, hall⟩
      exact hboth.imp fun e x h => h.1.elim fun _ hfiled => SameIds.of_reloaded h.2 hfiled
    · refine ⟨∅, rfl, fun s' hs' => ?_⟩
      have hnone : ∀ contact, s'.messagesOf contact = [] := fun contact => by
        rw [messagesOf, hs']
        rfl
      exact ⟨fun contact => hnone contact ▸ List.nodup_nil,
        fun contact e he => absurd (hnone contact ▸ he) List.not_mem_nil⟩
  obtain ⟨m, hm, hfiled⟩ := hload
  refine ⟨{ s with pendingMessages := m
                   pendingDeleteMessages := loadPendingDeleteMessages (saveFile s.deleteData) },
    ?_, hfiled _ rfl, loadPendingDeleteMessages_nonempty _⟩
  rw [PendingOperations.saveLoad, hm]
  rfl

end Restart

end PendingOperations

/-- All that happens to what is pending: a restart loads what was saved. -/
inductive PendingCall where
  | act (action : PendingAction)
  | removeById (id : Bytes)
  | drop (aimid : Bytes)
  | removeDeletedMessage (contact : Bytes) (message : DeleteMessage)
  | saveLoad (w : Surroundings) (now : Int64)

namespace PendingOperations

variable {env : PendingEnvironment} {s : PendingOperations}

/-- `none` where the load does not end. -/
def call (env : PendingEnvironment) (s : PendingOperations) : PendingCall → Option PendingOperations
  | .act action => some (s.step env action)
  | .removeById id => some (s.removeById id)
  | .drop aimid => some (s.drop aimid)
  | .removeDeletedMessage contact message => some (s.removeDeletedMessage contact message)
  | .saveLoad w now =>
    match s.saveLoad w now with
    | .ok s' => some s'
    | _ => none

/-- A message is handed over with its own contact, and what is saved has a length that can be
written. -/
def Allowed (s : PendingOperations) : PendingCall → Prop
  | .act (.insertMessage aimid message) => message.FiledUnder aimid
  | .act (.updateMessageIfExist aimid message) => message.FiledUnder aimid
  | .saveLoad w _ => (s.sentData w).length < 2 ^ 32
  | _ => True

structure WellFormed (s : PendingOperations) : Prop where
  distinct : ∀ contact, ((s.messagesOf contact).map NotSentMessage.internalId).Nodup
  nonempty : ∀ entry ∈ s.pendingDeleteMessages.items, entry.messages ≠ []
  first : s.getFirstPendingDeleteMessage = none ↔ ∀ contact, s.deletionsOf contact = []

theorem Filed.step {action : PendingAction} (h : Filed s) (hallowed : s.Allowed (.act action)) :
    Filed (s.step env action) := by
  cases action with
  | insertMessage aimid message => exact h.insertMessage hallowed
  | updateMessageIfExist aimid message =>
    show Filed ((s.updateMessageIfExist aimid message).getD s)
    cases hupdate : s.updateMessageIfExist aimid message with
    | none => exact h
    | some s' => exact h.updateMessageIfExist hallowed hupdate
  | insertDeletedMessage contact message => exact h.insertDeletedMessage message
  | remove aimid removeIfModified data => exact h.remove removeIfModified data
  | updateWithImstate id histMsgId beforeHistMsgId =>
    exact h.updateWithImstate id histMsgId beforeHistMsgId
  | failedPendingMessage id => exact h.failedPendingMessage id

theorem NonemptyDeletions.step (h : NonemptyDeletions s) (action : PendingAction) :
    NonemptyDeletions (s.step env action) := by
  cases action with
  | insertMessage aimid message => exact h
  | updateMessageIfExist aimid message =>
    show NonemptyDeletions ((s.updateMessageIfExist aimid message).getD s)
    cases hupdate : s.updateMessageIfExist aimid message with
    | none => exact h
    | some s' =>
      obtain ⟨_, _, rfl⟩ := Option.map_eq_some_iff.mp hupdate
      exact h
  | insertDeletedMessage contact message => exact h.insertDeletedMessage message
  | remove aimid removeIfModified data => exact h.remove removeIfModified data
  | updateWithImstate id histMsgId beforeHistMsgId =>
    exact h.updateWithImstate id histMsgId beforeHistMsgId
  | failedPendingMessage id => exact h.failedPendingMessage id

/-- A load of what was saved ends. -/
theorem Filed.call_saveLoad {w : Surroundings} (h : Filed s) (env : PendingEnvironment)
    (hsize : (s.sentData w).length < 2 ^ 32) (now : Int64) :
    ∃ s', s.call env (.saveLoad w now) = some s' ∧ Filed s' ∧ NonemptyDeletions s' := by
  obtain ⟨s', hs', hkept⟩ := h.saveLoad now hsize
  exact ⟨s', by simp only [call, hs'], hkept⟩

theorem call_kept {s' : PendingOperations} {c : PendingCall} (h : Filed s ∧ NonemptyDeletions s)
    (hallowed : s.Allowed c) (hcall : s.call env c = some s') : Filed s' ∧ NonemptyDeletions s' := by
  obtain ⟨hfiled, hnonempty⟩ := h
  cases c with
  | act action =>
    obtain rfl := Option.some.inj hcall
    exact ⟨hfiled.step hallowed, hnonempty.step action⟩
  | removeById id =>
    obtain rfl := Option.some.inj hcall
    exact ⟨hfiled.removeById id, hnonempty⟩
  | drop aimid =>
    obtain rfl := Option.some.inj hcall
    exact ⟨hfiled.drop aimid, hnonempty.drop aimid⟩
  | removeDeletedMessage contact message =>
    obtain rfl := Option.some.inj hcall
    exact ⟨hfiled.removeDeletedMessage message, hnonempty.removeDeletedMessage message⟩
  | saveLoad w now =>
    obtain ⟨_, hs', hkept⟩ := hfiled.call_saveLoad env hallowed now
    obtain rfl := Option.some.inj (hcall.symm.trans hs')
    exact hkept

/-- What is pending is well formed in every run from empty files, and it can be loaded again. -/
theorem run_wellFormed (h : Run (call env) Allowed {} s) :
    s.WellFormed ∧ ∀ w now, (s.sentData w).length < 2 ^ 32 →
      (s.call env (.saveLoad w now)).isSome := by
  have hkept : Filed s ∧ NonemptyDeletions s := by
    refine h.invariant ⟨⟨?_, ?_⟩, ?_⟩ call_kept
    · exact fun _ => List.nodup_nil
    · exact fun _ _ he => absurd he List.not_mem_nil
    · exact fun _ hentry => absurd hentry List.not_mem_nil
  obtain ⟨hfiled, hnonempty⟩ := hkept
  refine ⟨⟨hfiled.distinct, hnonempty, hnonempty.first⟩, fun w now hsize => ?_⟩
  obtain ⟨s', hs', -⟩ := hfiled.call_saveLoad env hsize now
  rw [hs']
  rfl

/-- A message with the internal id 7. -/
def note (aimid : Bytes) : NotSentMessage := { aimid, message := { internalId := [7] } }

def noEnvironment : PendingEnvironment := { generateInternalId := fun n => [UInt8.ofNat n]
                                            unset := false }

/-- A message, and a deletion of another one of its contact. -/
def noteAndDeletion : PendingOperations :=
  (({} : PendingOperations).insertMessage [1] (note [1])).insertDeletedMessage noEnvironment [1]
    ⟨[1], 5, [], .delForAll⟩

theorem run_wellFormed_noteAndDeletion : noteAndDeletion.WellFormed ∧
    ∃ s, noteAndDeletion.call noEnvironment (.saveLoad HistoryMessage.blank 0) = some s ∧ s.WellFormed := by
  have hrun : Run (call noEnvironment) Allowed {} noteAndDeletion :=
    .step (.act (.insertDeletedMessage [1] ⟨[1], 5, [], .delForAll⟩))
      (.step (.act (.insertMessage [1] (note [1]))) .start ⟨rfl, by decide, by decide, rfl⟩ rfl)
      trivial rfl
  have hsize : (sentData HistoryMessage.blank noteAndDeletion).length < 2 ^ 32 := by decide +kernel
  obtain ⟨hwell, hload⟩ := run_wellFormed hrun
  obtain ⟨s, hs⟩ := Option.isSome_iff_exists.mp (hload HistoryMessage.blank 0 hsize)
  exact ⟨hwell, s, hs, (run_wellFormed (hrun.step (.saveLoad HistoryMessage.blank 0) hsize hs)).1⟩

/-- The same message, handed over under its own contact and under another. -/
def noteTwice : PendingOperations :=
  (({} : PendingOperations).insertMessage [1] (note [1])).insertMessage [2] (note [1])

/-- A load files both under their own contact. -/
theorem noteTwice_loaded : ∃ s, Run (call noEnvironment) (fun _ _ => True) {} s ∧
    (s.messagesOf [1]).map NotSentMessage.internalId = [[7], [7]] := by
  have hload : (noteTwice.call noEnvironment (.saveLoad HistoryMessage.blank 0)).map
      (fun s => (s.messagesOf [1]).map NotSentMessage.internalId) = some [[7], [7]] := by
    decide +kernel
  obtain ⟨s, hs, hids⟩ := Option.map_eq_some_iff.mp hload
  refine ⟨s, .step (.saveLoad HistoryMessage.blank 0) ?_ trivial hs, hids⟩
  exact .step (.act (.insertMessage [2] (note [1])))
    (.step (.act (.insertMessage [1] (note [1]))) .start trivial rfl) trivial rfl

end PendingOperations

end Icq.Archive
