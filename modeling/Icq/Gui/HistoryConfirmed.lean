import Icq.Gui.HistoryActions
import Icq.Lib.Linked

namespace Icq.Gui
open Icq.Lib

namespace History

section InsertBuddy

variable {option : MessagesBuddiesOpt} {r : BuddiesInsertResult} {msg m : MessageBuddy} {id : Int}

def Knows (r : BuddiesInsertResult) (id : Int) : Prop := (r.messages.find? id).isSome = true

theorem isPrevKnown_iff {messages : KeyMap MessageBuddy.id} :
    isPrevKnown messages msg = true ↔
      (msg.prev = -1 ∨ msg.prev = msg.id) ∨ (messages.find? msg.prev).isSome = true := by
  simp [isPrevKnown, or_assoc]

/-- Only the messages decide what becomes of a message, whatever it resolves. -/
theorem insertBuddy_messages :
    (insertBuddy option r msg).messages =
      match r.messages.find? msg.id with
      | some currentMsg =>
        if currentMsg.needUpdateWith msg then r.messages.put msg else r.messages
      | none =>
        if isCommonDlgState option && !isPrevKnown r.messages msg then r.messages
        else r.messages.put msg := by
  have hkeep : ∀ b : Bool, (if b then resolvePending r msg else r).messages = r.messages := by
    intro b
    cases b <;> rfl
  rw [insertBuddy]
  simp only [hkeep]
  cases r.messages.find? msg.id with
  | some currentMsg =>
    dsimp only
    split
    · rfl
    · exact hkeep _
  | none =>
    dsimp only
    split
    · rfl
    · rfl

/-- A message is let in when its id is there, or when nothing is missing before it. -/
theorem knows_insertBuddy :
    Knows (insertBuddy option r msg) id ↔ Knows r id ∨ id = msg.id ∧
      ((isCommonDlgState option = false ∨ msg.prev = -1 ∨ msg.prev = msg.id) ∨
        Knows r msg.prev) := by
  rw [Knows, insertBuddy_messages]
  cases hfind : r.messages.find? msg.id with
  | some currentMsg =>
    have hid : Knows r msg.id := by
      rw [Knows, hfind]
      rfl
    have hsame : id = msg.id → Knows r id := fun h => h ▸ hid
    dsimp only
    split
    · rw [KeyMap.find_put]
      by_cases h : msg.id = id
      · simp [h, hsame h.symm]
      · simp [h, Ne.symm h, Knows]
    · exact ⟨.inl, fun h => h.elim (fun hk => hk) fun h' => hsame h'.1⟩
  | none =>
    dsimp only
    split
    · rename_i hno
      simp only [Bool.and_eq_true, Bool.not_eq_true', ← Bool.not_eq_true, isPrevKnown_iff] at hno
      refine ⟨.inl, fun h => h.resolve_right fun h' => ?_⟩
      rcases h'.2 with (hopt | hprev) | hprev
      · exact absurd hno.1 (by simp [hopt])
      · exact hno.2 (.inl hprev)
      · exact hno.2 (.inr hprev)
    · rename_i hyes
      rw [Bool.and_eq_true, not_and_or, Bool.not_eq_true, Bool.not_eq_true', Bool.not_eq_false,
        isPrevKnown_iff] at hyes
      have hin : (isCommonDlgState option = false ∨ msg.prev = -1 ∨ msg.prev = msg.id) ∨
          Knows r msg.prev := by
        rcases hyes with h | h | h
        · exact .inl (.inl h)
        · exact .inl (.inr h)
        · exact .inr h
      rw [KeyMap.find_put]
      by_cases h : msg.id = id
      · rw [if_pos h]
        exact iff_of_true rfl (.inr ⟨h.symm, hin⟩)
      · simp [h, Ne.symm h, Knows]

end InsertBuddy

variable (s : History) (c : Buddies)

/-- Where the pending messages of a batch begin. -/
def pendingIdx (c : Buddies) : Nat :=
  if c.havePending || c.option == .pending then c.buddies.findIdx (·.isPending)
  else c.buddies.length

/-- The messages that a batch meets: none when it answers the request for the first ones. -/
def metMessages : KeyMap MessageBuddy.id := if s.isRequiredWaitingSeq c.seq then ∅ else s.messages

def metBounds : ViewBounds := if s.isRequiredWaitingSeq c.seq then {} else s.viewBounds

/-- The history that a batch is inserted into. -/
def met : History := { s with messages := s.metMessages c, viewBounds := s.metBounds c }

/-- The pending part of the batch, inserted. -/
def pendResult : PendingsInsertResult :=
  (s.met c).insertPendings (c.buddies.drop (pendingIdx c))

/-- The first delivered messages of the batch, inserted behind the pending ones. -/
def buddiesResult (range : List MessageBuddy) : BuddiesInsertResult :=
  insertBuddies (s.metMessages c) (s.pendResult c).pendings range c.option

def delivered (c : Buddies) : List MessageBuddy := c.buddies.take (pendingIdx c)

/-- The history that has taken note of the newest id of a batch. -/
def noted : History :=
  { s with
    lastMessageId :=
      max s.lastMessageId (max c.lastMsgid ((c.buddies.getLast?.map (·.id)).getD (-1))) }

/-- The options whose batches are inserted as they come. -/
def IsInserted (option : MessagesBuddiesOpt) : Prop :=
  option ≠ .updated ∧ option ≠ .requestedByIds ∧ option ≠ .search

variable {s c}

theorem insertMessages_messages {prevLastId : Int} :
    (s.insertMessages c prevLastId).1.messages = (s.buddiesResult c (delivered c)).messages := by
  unfold insertMessages buddiesResult pendResult delivered pendingIdx met metMessages metBounds
  cases h : s.isRequiredWaitingSeq c.seq <;> rfl

theorem insertMessages_pendings {prevLastId : Int} :
    (s.insertMessages c prevLastId).1.pendings = (s.buddiesResult c (delivered c)).pendings := by
  unfold insertMessages buddiesResult pendResult delivered pendingIdx met metMessages metBounds
  cases h : s.isRequiredWaitingSeq c.seq <;> rfl

/-- A batch that is ignored is only noted. -/
theorem messageBuddies_skip (h : s.needIgnoreMessages c = true) :
    (s.messageBuddies c).1 = (s.noted c).removeSeq c.seq := by
  have hnoted : (s.noted c).needIgnoreMessages c = true := h
  rw [messageBuddies]
  dsimp only
  rw [← noted, if_pos hnoted]

theorem messageBuddies_update (h : s.needIgnoreMessages c = false) (hupdated : c.option = .updated) :
    (s.messageBuddies c).1 = ((s.noted c).processUpdatedMessage c.buddies).1.removeSeq c.seq := by
  have hnoted : ¬(s.noted c).needIgnoreMessages c = true := Bool.eq_false_iff.mp h
  rw [messageBuddies]
  dsimp only
  rw [← noted, if_neg hnoted, if_pos hupdated]

theorem messageBuddies_byIds (h : s.needIgnoreMessages c = false)
    (hids : c.option = .requestedByIds ∨ c.option = .search) :
    (s.messageBuddies c).1 = ((s.noted c).processRequestedByIds c.buddies).1.removeSeq c.seq := by
  have hnoted : ¬(s.noted c).needIgnoreMessages c = true := Bool.eq_false_iff.mp h
  have hupdated : ¬c.option = .updated := by
    rcases hids with hids | hids <;> rw [hids] <;> decide
  rw [messageBuddies]
  dsimp only
  rw [← noted, if_neg hnoted, if_neg hupdated, if_pos hids]

theorem messageBuddies_insert (h : s.needIgnoreMessages c = false) (hoption : IsInserted c.option) :
    s.messageBuddies c = (((s.noted c).insertMessages c s.lastMessageId).1.removeSeq c.seq,
      ((s.noted c).insertMessages c s.lastMessageId).2) := by
  have hnoted : ¬(s.noted c).needIgnoreMessages c = true := Bool.eq_false_iff.mp h
  rw [messageBuddies]
  rw [← noted, if_neg hnoted, if_neg hoption.1, if_neg (not_or.mpr hoption.2)]

/-- What is not inserted is an update or was asked for by ids. -/
theorem option_cases (option : MessagesBuddiesOpt) : IsInserted option ∨ option = .updated ∨
    option = .requestedByIds ∨ option = .search := by
  by_cases hupdated : option = .updated
  · exact .inr (.inl hupdated)
  · by_cases hids : option = .requestedByIds ∨ option = .search
    · exact .inr (.inr hids)
    · exact .inl ⟨hupdated, not_or.mp hids⟩

/-- The step of a call that is not ignored. -/
theorem messageBuddies_inserted (hignore : s.needIgnoreMessages c = false)
    (hoption : IsInserted c.option) :
    (s.messageBuddies c).1.messages = (s.buddiesResult c (delivered c)).messages ∧
    (s.messageBuddies c).1.pendings = (s.buddiesResult c (delivered c)).pendings := by
  rw [messageBuddies_insert hignore hoption]
  exact ⟨insertMessages_messages, insertMessages_pendings⟩

/-- No other call takes a pending message away. -/
theorem messageBuddies_pendings (h : s.needIgnoreMessages c = true ∨ ¬ IsInserted c.option) :
    (s.messageBuddies c).1.pendings = s.pendings := by
  have hbyIds : ∀ (s : History) (l : List MessageBuddy),
      (s.processRequestedByIds l).1.pendings = s.pendings := by
    intro s l
    rw [processRequestedByIds]
    split <;> rfl
  cases hignore : s.needIgnoreMessages c with
  | true =>
    rw [messageBuddies_skip hignore]
    rfl
  | false =>
    have hoption := h.resolve_left (Bool.eq_false_iff.mp hignore)
    rcases (option_cases c.option).resolve_left hoption with hupdated | hids
    · rw [messageBuddies_update hignore hupdated, removeSeq, processUpdatedMessage]
      dsimp only
      split
      · rfl
      · exact hbyIds _ _
    · rw [messageBuddies_byIds hignore hids]
      exact hbyIds _ _

/-- At its turn in the batch the own message `m` takes the pending one of its key away. -/
structure Confirms (s : History) (c : Buddies) (before : List MessageBuddy) (m : MessageBuddy)
    (after : List MessageBuddy) : Prop where
  handled : s.needIgnoreMessages c = false
  inserted : IsInserted c.option
  delivered : delivered c = before ++ m :: after
  outgoing : m.outgoing = true
  pending : ∃ x ∈ (s.buddiesResult c before).pendings, m.toKey.isEqual x.key = true

/-- Nothing is missing before the message. -/
def Anchored (messages : KeyMap MessageBuddy.id) (m : MessageBuddy) : Prop :=
  m.prev = -1 ∨ m.prev = m.id ∨ (messages.find? m.prev).isSome = true

/-- The ids that a batch leaves in the history. -/
theorem knows_buddiesResult {id : Int} :
    Knows (s.buddiesResult c (delivered c)) id ↔
      ((s.metMessages c).find? id).isSome = true ∨
      ∃ chain, chain.Sublist (delivered c) ∧ Tied
        (fun m => isCommonDlgState c.option = false ∨ Anchored (s.metMessages c) m)
        MessageBuddy.id MessageBuddy.prev chain id := by
  have h := @known_foldl _ _ _ MessageBuddy.id MessageBuddy.prev (insertBuddy c.option) Knows
    (fun m => isCommonDlgState c.option = false ∨ m.prev = -1 ∨ m.prev = m.id)
    (fun _ _ _ => knows_insertBuddy)
    { messages := s.metMessages c, pendings := (s.pendResult c).pendings } (delivered c) id
  simpa only [buddiesResult, insertBuddies, Knows, Anchored, or_assoc] using h

/-- A confirmed message stays exactly when its id was there, or when a chain of messages of the
batch ties it to the history; under an option that is no dialog state it always stays. -/
theorem confirmed_kept_iff {before after : List MessageBuddy} {m : MessageBuddy}
    (h : s.Confirms c before m after) :
    ((s.messageBuddies c).1.messages.find? m.id).isSome = true ↔
      isCommonDlgState c.option = false ∨ ((s.metMessages c).find? m.id).isSome = true ∨
      ∃ chain, chain.Sublist (delivered c) ∧
        Tied (Anchored (s.metMessages c)) MessageBuddy.id MessageBuddy.prev chain m.id := by
  rw [(messageBuddies_inserted h.handled h.inserted).1]
  have hmem : [m].Sublist (delivered c) := by
    rw [List.singleton_sublist, h.delivered]
    exact List.mem_append_right _ List.mem_cons_self
  by_cases hopt : isCommonDlgState c.option = false
  · exact iff_of_true (knows_buddiesResult.mpr (.inr ⟨[m], hmem, .single m (.inl hopt)⟩)) (.inl hopt)
  · have hknows := @knows_buddiesResult s c m.id
    rw [Bool.not_eq_false] at hopt
    simpa only [hopt, Bool.true_eq_false, false_or, Knows] using hknows

section Lost

def ownPendings : Buddies :=
  { buddies := [{ internalId := [120, 45, 55], pendingId := 7, outgoing := true }]
    option := .pending }

/-- A dialog state whose last message is `id`. -/
def dlgState (id prev : Int) (internalId : QString) : Buddies :=
  { buddies := [{ id, prev, internalId, outgoing := true }], option := .dlgState }

/-- An own message waits for its confirmation behind a history of one message. -/
def waiting : History :=
  [HistoryAction.messageBuddies (dlgState 1 (-1) []), .messageBuddies ownPendings].foldl act {}

theorem waiting_confirms (prev : Int) : waiting.Confirms (dlgState 10 prev [120, 45, 55]) []
    { id := 10, prev, internalId := [120, 45, 55], outgoing := true } [] where
  handled := rfl
  inserted := ⟨nofun, nofun, nofun⟩
  delivered := rfl
  outgoing := rfl
  pending := ⟨_, List.mem_singleton.mpr rfl, rfl⟩

theorem confirmed_kept_behind_last :
    ((waiting.messageBuddies (dlgState 10 1 [120, 45, 55])).1.messages.find? 10).isSome = true := by
  apply (confirmed_kept_iff (waiting_confirms 1)).mpr
  refine .inr (.inr ⟨_, List.Sublist.refl _, .single _ ?_⟩)
  exact .inr (.inr rfl)

/-- A message came in between that the history does not have yet. -/
theorem confirmed_lost : ¬ ∀ s, Reachable s → ∀ c before m after, Confirms s c before m after →
    ((s.messageBuddies c).1.messages.find? m.id).isSome = true := by
  intro h
  have := h waiting (reachable_foldl _) _ _ _ _ (waiting_confirms 9)
  exact absurd this (by decide)

end Lost

end History

end Icq.Gui
