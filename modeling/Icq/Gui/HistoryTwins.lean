import Icq.Gui.HistoryById
import Icq.Gui.HistoryPendings

namespace Icq.Gui
open Icq.Lib

/-- No delivered message has the internal id of a pending one. -/
def Apart (messages : KeyMap MessageBuddy.id) (pendings : List MessageWithKey) : Prop :=
  ∀ m ∈ messages.items, m.internalId ∉ pendings.map (·.internalId)

namespace Apart

variable {messages : KeyMap MessageBuddy.id} {pendings pendings' : List MessageWithKey}
  {m : MessageBuddy}

theorem empty : Apart ∅ pendings := fun _ hm => absurd hm List.not_mem_nil

theorem put (h : Apart messages pendings) (hm : m.internalId ∉ pendings.map (·.internalId)) :
    Apart (messages.put m) pendings := by
  intro v hv
  rcases KeyMap.mem_put.mp hv with rfl | hv
  · exact hm
  · exact h v hv.1

theorem subset (h : Apart messages pendings)
    (hsub : pendings'.map (·.internalId) ⊆ pendings.map (·.internalId)) : Apart messages pendings' :=
  fun m hm hmem => h m hm (hsub hmem)

end Apart

namespace History

variable {s : History} {c : Buddies} {option : MessagesBuddiesOpt} {m msg : MessageBuddy}

/-- No own message is held twice. -/
structure NoTwins (s : History) : Prop where
  apart : ∀ x ∈ s.pendings, ∀ m ∈ s.messages.items, m.internalId ≠ [] → x.internalId ≠ m.internalId
  distinct : s.pendings.Pairwise fun x y => x.key.isEqual y.key = false

structure TwinsInv (s : History) : Prop where
  pendings : PendingsOk s.pendings
  apart : Apart s.messages s.pendings

theorem TwinsInv.noTwins (h : s.TwinsInv) : s.NoTwins where
  apart x hx m hm _ heq := h.apart m hm (heq ▸ List.mem_map_of_mem hx)
  distinct := by
    have hnodup := List.pairwise_map.mp h.pendings.nodup
    apply hnodup.imp_of_mem
    intro x y hx _ hne
    rw [Bool.eq_false_iff]
    intro heq
    exact hne ((MessageKey.isEqual_iff (.inl (h.pendings.isOk x hx).1)).mp heq).2.1

section Insert

/-- The internal ids of the pendings are old ones and those of the range. -/
structure InsertedFrom (s : History) (range : List MessageBuddy) (pendings : List MessageWithKey) :
    Prop where
  ids : ∀ id ∈ pendings.map (·.internalId), id ∈ s.pendingIds ∨ id ∈ range.map (·.internalId)
  apart : Apart s.messages pendings

theorem InsertedFrom.step {range : List MessageBuddy} {r : PendingsInsertResult}
    (h : InsertedFrom s range r.pendings) (hok : PendingsOk r.pendings) (hmsg : msg ∈ range) :
    InsertedFrom s range (s.insertPending r msg).pendings := by
  rw [insertPending]
  split
  · split
    · have hkeep : (modifyFirst (fun x => msg.toKey.isEqual x.key) (fun _ => msg.withKey)
          r.pendings).map (·.internalId) = r.pendings.map (·.internalId) :=
        map_modifyFirst fun x hx heq => (hok.isOk x hx).isEqual_iff.mp heq
      refine ⟨?_, h.apart.subset (hkeep ▸ List.Subset.refl _)⟩
      rw [hkeep]
      exact h.ids
    · exact h
  · split
    · exact h
    · rename_i hnew
      refine ⟨fun id hid => ?_, fun m hm hmem => ?_⟩
      · rw [List.map_append, List.mem_append] at hid
        rcases hid with hid | hid
        · exact h.ids id hid
        · rw [List.mem_singleton.mp hid]
          exact .inr (List.mem_map_of_mem hmsg)
      · rw [List.map_append, List.mem_append] at hmem
        rcases hmem with hmem | hmem
        · exact h.apart m hm hmem
        · apply hnew
          rw [containsInternalId, List.any_eq_true]
          exact ⟨m, hm, beq_iff_eq.mpr (List.mem_singleton.mp hmem)⟩

theorem insertedFrom_insertPendings {range : List MessageBuddy} (hok : PendingsOk s.pendings)
    (hapart : Apart s.messages s.pendings) (hrange : ∀ m ∈ range, m.isPending = true) :
    InsertedFrom s range (s.insertPendings range).pendings := by
  have hfold : ∀ (l : List MessageBuddy) (r : PendingsInsertResult), (∀ m ∈ l, m ∈ range) →
      PendingsOk r.pendings → InsertedFrom s range r.pendings →
      InsertedFrom s range (l.foldl s.insertPending r).pendings := by
    intro l
    induction l with
    | nil => exact fun _ _ _ h => h
    | cons m l ih =>
      intro r hl hr h
      have hm := hl m List.mem_cons_self
      exact ih _ (fun x hx => hl x (List.mem_cons_of_mem _ hx))
        (insertPending_ok hr (hrange m hm)) (h.step hr hm)
  have hfrom := hfold range { pendings := s.pendings } (fun m hm => hm) hok
    ⟨fun id hid => .inl hid, hapart⟩
  rw [insertPendings]
  split
  · exact hfrom
  · have hperm : (sortPendings (range.foldl s.insertPending { pendings := s.pendings }).pendings).Perm
        (range.foldl s.insertPending { pendings := s.pendings }).pendings :=
      List.perm_insertionSort _ _
    have hsub := (hperm.map (·.internalId)).subset
    exact ⟨fun id hid => hfrom.ids id (hsub hid), hfrom.apart.subset hsub⟩

theorem insertBuddy_put {r : BuddiesInsertResult} :
    (insertBuddy option r msg).messages = r.messages ∨
    (insertBuddy option r msg).messages = r.messages.put msg := by
  rw [insertBuddy_messages]
  split
  · split
    · exact .inr rfl
    · exact .inl rfl
  · split
    · exact .inl rfl
    · exact .inr rfl

/-- A delivered message leaves no pending twin: its own is taken out. -/
theorem insertBuddy_apart {r : BuddiesInsertResult} (hok : PendingsOk r.pendings)
    (h : Apart r.messages r.pendings)
    (hmsg : msg.outgoing = false → msg.internalId ∉ r.pendings.map (·.internalId)) :
    Apart (insertBuddy option r msg).messages (insertBuddy option r msg).pendings := by
  have hput : ∀ pendings, Apart r.messages pendings →
      msg.internalId ∉ pendings.map (·.internalId) →
      Apart (insertBuddy option r msg).messages pendings := by
    intro pendings hapart hnot
    rcases @insertBuddy_put option msg r with heq | heq
    · rw [heq]
      exact hapart
    · rw [heq]
      exact hapart.put hnot
  rcases @insertBuddy_resolves option msg _ hok with
    ⟨hp, -, hout⟩ | ⟨hp, -, -, hmem⟩
  · rw [hp]
    apply hput _ h
    cases hoff : msg.outgoing with
    | false => exact hmsg hoff
    | true => exact hout hoff
  · rw [hp]
    have hperm := hok.eraseP_perm hmem
    have hnodup := hperm.nodup_iff.mpr hok.nodup
    refine hput _ (h.subset fun id hid => ?_) (List.nodup_cons.mp hnodup).1
    exact hperm.subset (List.mem_cons_of_mem _ hid)

theorem insertBuddies_apart {messages : KeyMap MessageBuddy.id} {pendings : List MessageWithKey}
    {range : List MessageBuddy} (hok : PendingsOk pendings) (h : Apart messages pendings)
    (hrange : ∀ m ∈ range, m.outgoing = false → m.internalId ∉ pendings.map (·.internalId)) :
    Apart (insertBuddies messages pendings range option).messages
      (insertBuddies messages pendings range option).pendings := by
  induction range using List.reverseRecOn with
  | nil => exact h
  | append_singleton range msg ih =>
    have ih := ih fun m hm => hrange m (List.mem_append_left _ hm)
    obtain ⟨hok', hperm⟩ := @insertBuddies_perm option messages _ hok range
    rw [insertBuddies, List.foldl_append, List.foldl_cons, List.foldl_nil, ← insertBuddies]
    apply insertBuddy_apart hok' ih
    intro hout hmem
    apply hrange msg (List.mem_append_right _ (List.mem_singleton.mpr rfl)) hout
    exact hperm.subset (List.mem_append_right _ hmem)

end Insert

section Actions

/-- An answer by ids or an update puts the message. -/
def PlacedById (s : History) (c : Buddies) (m : MessageBuddy) : Prop :=
  s.messages.Spans m.id ∧
    (c.option = .updated → ∀ old, s.messages.find? m.id = some old → NotOlder m old)

/-- What a batch must keep: behind its first pending message only pending ones come, and what is
put without a search for its pending twin has none. -/
def TwinFreeBatch (s : History) (c : Buddies) : Prop :=
  s.needIgnoreMessages c = true ∨
  (IsInserted c.option ∧ RangePending c ∧
    ∀ m ∈ delivered c, m.outgoing = false → m.internalId ∉ s.pendingIds ∧
      m.internalId ∉ (c.buddies.drop (pendingIdx c)).map (·.internalId)) ∨
  (¬ IsInserted c.option ∧ ∀ m ∈ c.buddies, s.PlacedById c m → m.internalId ∉ s.pendingIds)

/-- A modification that replaces a delivered message. -/
def Modifies (s : History) (m : MessageBuddy) : Prop :=
  (m.hasText = true ∨ m.chatEvent = true) ∧ m.hasId = true ∧ s.containsMsgId m.id = true

def TwinFree (s : History) : HistoryAction → Prop
  | .messageBuddies c => s.TwinFreeBatch c
  | .messagesModified modifications =>
    ∀ m ∈ modifications, s.Modifies m → m.internalId ∉ s.pendingIds
  | _ => True

theorem messageBuddies_ignored (h : s.needIgnoreMessages c = true) :
    (s.messageBuddies c).1.messages = s.messages ∧ (s.messageBuddies c).1.pendings = s.pendings := by
  rw [messageBuddies_skip h]
  exact ⟨rfl, rfl⟩

/-- The messages after an answer by ids or an update. -/
theorem mem_messageBuddies_byId (h : s.needIgnoreMessages c = false) (hoption : ¬ IsInserted c.option)
    (hm : m ∈ (s.messageBuddies c).1.messages.items) :
    m ∈ s.messages.items ∨ (m ∈ c.buddies ∧ s.PlacedById c m) := by
  rcases (option_cases c.option).resolve_left hoption with hupdated | hids
  · rw [messageBuddies_update h hupdated] at hm
    exact (mem_processUpdatedMessage hm).imp id fun h => ⟨h.1, h.2.1, fun _ => h.2.2⟩
  · rw [messageBuddies_byIds h hids] at hm
    refine (mem_processRequestedByIds hm).imp id fun h => ⟨h.1, h.2, fun hupdated => ?_⟩
    rw [hupdated] at hids
    exact absurd hids (by decide)

/-- The batch that is inserted: a pending twin of what it puts is taken out. -/
theorem TwinsInv.messageBuddies (h : s.TwinsInv) (hc : s.TwinFreeBatch c) :
    Apart (s.messageBuddies c).1.messages (s.messageBuddies c).1.pendings := by
  cases hignore : s.needIgnoreMessages c with
  | true =>
    obtain ⟨hmessages, hpendings⟩ := messageBuddies_ignored hignore
    rw [hmessages, hpendings]
    exact h.apart
  | false =>
    rcases hc with hc | ⟨hoption, hrange, hout⟩ | ⟨hoption, hplaced⟩
    · rw [hignore] at hc
      cases hc
    · obtain ⟨hmessages, hpendings⟩ := messageBuddies_inserted hignore hoption
      have hmet : Apart (s.met c).messages (s.met c).pendings := by
        change Apart (s.metMessages c) s.pendings
        rw [metMessages]
        split
        · exact .empty
        · exact h.apart
      have hfrom := insertedFrom_insertPendings (s := s.met c) h.pendings hmet hrange
      rw [hmessages, hpendings]
      apply insertBuddies_apart (insertPendings_ok (s := s.met c) h.pendings hrange) hfrom.apart
      intro m hm hoff hmem
      rcases hfrom.ids _ hmem with h' | h'
      · exact (hout m hm hoff).1 h'
      · exact (hout m hm hoff).2 h'
    · rw [messageBuddies_pendings (.inr hoption)]
      intro m hm
      rcases mem_messageBuddies_byId hignore hoption hm with hm | ⟨hm, hp⟩
      · exact h.apart m hm
      · exact hplaced m hm hp

theorem apart_messagesDeleted {buddies : List MessageBuddy} {ids : List QString}
    (h : ∀ m ∈ s.messages.items, m.internalId ∉ ids) :
    ∀ m ∈ (s.messagesDeleted buddies).1.messages.items, m.internalId ∉ ids := by
  have hfold : ∀ (l : List MessageBuddy) (r : History × List MessageBuddy),
      (∀ m ∈ r.1.messages.items, m.internalId ∉ ids) →
      ∀ m ∈ (l.foldl deleteMessage r).1.messages.items, m.internalId ∉ ids := by
    intro l
    induction l with
    | nil => exact fun _ h => h
    | cons m l ih =>
      intro r h
      apply ih
      rw [deleteMessage]
      split
      · split <;> exact h
      · split
        · rename_i old hfind
          intro x hx
          rcases KeyMap.mem_put.mp hx with rfl | hx
          · exact h old (KeyMap.find_mem hfind).1
          · exact h x hx.1
        · exact h
  rw [messagesDeleted]
  split
  · exact h
  · rw [clearPendingsIfPossible_messages]
    exact hfold buddies (s, []) h

theorem containsMsgId_modifyMessage {r : History × List MessageBuddy} {id : Int} :
    (modifyMessage r m).1.containsMsgId id = r.1.containsMsgId id := by
  rw [modifyMessage]
  dsimp only
  split
  · rfl
  · split
    · split
      · rename_i old hfind
        rw [containsMsgId, containsMsgId, KeyMap.find_put]
        split
        · rename_i heq
          rw [← heq, hfind]
          rfl
        · rfl
      · rfl
    · split
      · split <;> rfl
      · rfl

/-- A modification puts the message that it modifies. -/
theorem mem_modifyMessage {r : History × List MessageBuddy}
    (h : msg ∈ (modifyMessage r m).1.messages.items) :
    msg ∈ r.1.messages.items ∨ r.1.Modifies m ∧ msg.internalId = m.internalId := by
  rw [modifyMessage] at h
  dsimp only at h
  split at h
  · exact .inl h
  · rename_i hused
    split at h
    · rename_i hid
      split at h
      · rename_i old hfind
        rcases KeyMap.mem_put.mp h with rfl | h
        · refine .inr ⟨⟨?_, hid, ?_⟩, rfl⟩
          · simp only [Bool.and_eq_true, Bool.not_eq_true', not_and_or, Bool.not_eq_false] at hused
            exact hused
          · rw [containsMsgId, hfind]
            rfl
        · exact .inl h.1
      · exact .inl h
    · split at h
      · split at h <;> exact .inl h
      · exact .inl h

theorem apart_messagesModified {modifications : List MessageBuddy} {ids : List QString}
    (h : ∀ m ∈ s.messages.items, m.internalId ∉ ids)
    (hm : ∀ m ∈ modifications, s.Modifies m → m.internalId ∉ ids) :
    ∀ m ∈ (s.messagesModified modifications).1.messages.items, m.internalId ∉ ids := by
  have hfold : ∀ (l : List MessageBuddy) (r : History × List MessageBuddy),
      (∀ m ∈ r.1.messages.items, m.internalId ∉ ids) →
      (∀ m ∈ l, r.1.Modifies m → m.internalId ∉ ids) →
      ∀ m ∈ (l.foldl modifyMessage r).1.messages.items, m.internalId ∉ ids := by
    intro l
    induction l with
    | nil => exact fun _ h _ => h
    | cons m l ih =>
      intro r h hl
      apply ih
      · intro x hx
        rcases mem_modifyMessage hx with hx | ⟨hmod, hid⟩
        · exact h x hx
        · rw [hid]
          exact hl m List.mem_cons_self hmod
      · intro x hx hmod
        rw [Modifies, containsMsgId_modifyMessage] at hmod
        exact hl x (List.mem_cons_of_mem _ hx) hmod
  exact hfold modifications (s, []) h hm

theorem TwinFree.keepsAsserts {action : HistoryAction} (h : s.TwinFree action) :
    s.KeepsAsserts action := by
  cases action with
  | messageBuddies c =>
    intro hignore hoption
    rcases h with h | h | h
    · rw [hignore] at h
      cases h
    · exact h.2.1
    · exact absurd hoption h.1
  | _ => trivial

theorem TwinsInv.act {action : HistoryAction} (h : s.TwinsInv) (ha : s.TwinFree action) :
    (s.act action).TwinsInv := by
  refine ⟨pendingsOk_act h.pendings ha.keepsAsserts, ?_⟩
  have hids : action.isMessageBuddies = false →
      (∀ m ∈ (s.act action).messages.items, m.internalId ∉ s.pendingIds) →
      Apart (s.act action).messages (s.act action).pendings :=
    fun hne hapart m hm hmem => hapart m hm ((PendingsFrom.act h.pendings hne).ids hmem)
  cases action with
  | messageBuddies c => exact h.messageBuddies ha
  | messagesDeleted buddies => exact hids rfl (apart_messagesDeleted h.apart)
  | messagesDeletedUpTo id =>
    exact hids rfl fun m hm => h.apart m (List.mem_filter.mp hm).1
  | messagesModified modifications => exact hids rfl (apart_messagesModified h.apart ha)
  | pendingAutoRemove key =>
    apply hids rfl
    have hmessages : (s.pendingAutoRemove key).1.messages = s.messages := by
      rw [pendingAutoRemove]
      split
      · split
        · exact clearPendingsIfPossible_messages _
        · rfl
      · rfl
    rw [History.act, hmessages]
    exact h.apart
  | messagesClear => exact .empty
  | initFor id mode only seq =>
    apply hids rfl
    rw [History.act, initFor]
    dsimp only
    split
    · split <;> exact h.apart
    · split
      · exact h.apart
      · exact fun m hm => absurd hm List.not_mem_nil

end Actions

/-- In a run of twin-free steps no own message is ever held twice. -/
theorem no_twins (h : Reached TwinFree s) : s.NoTwins := by
  apply TwinsInv.noTwins
  apply h.invariant (P := TwinsInv) ⟨.nil, .empty⟩
  intro s action s' hs hallowed hstep
  cases hstep
  exact hs.act hallowed

theorem dlgState_twinFree {id prev : Int} {internalId : QString}
    (h : pendingIdx (dlgState id prev internalId) = 1) :
    s.TwinFree (.messageBuddies (dlgState id prev internalId)) := by
  refine .inr (.inl ⟨⟨nofun, nofun, nofun⟩, ?_, ?_⟩)
  · rw [RangePending, h]
    exact fun m hm => absurd hm List.not_mem_nil
  · rw [delivered, h]
    intro m hm hout
    rw [List.mem_singleton.mp hm] at hout
    cases hout

theorem waiting_reached : Reached TwinFree waiting := by
  refine .step (.messageBuddies ownPendings) (.step (.messageBuddies (dlgState 1 (-1) [])) .start
    (dlgState_twinFree rfl) rfl) ?_ rfl
  refine .inr (.inl ⟨⟨nofun, nofun, nofun⟩, ?_, ?_⟩)
  · intro m hm
    rw [List.mem_singleton.mp hm]
    rfl
  · exact fun m hm => absurd hm List.not_mem_nil

/-- An answer by ids with a message of somebody else. -/
def othersAnswer : Buddies :=
  { buddies := [{ id := 10, prev := 1, internalId := [121] }], option := .requestedByIds }

/-- A message of somebody else comes while the own one waits, and then the own one is delivered. -/
theorem no_twins_confirmed : ∃ s, Reached TwinFree s ∧ s.NoTwins ∧ s.pendings = ∅ ∧
    s.messages.items.map (·.internalId) = [[], [121], [], [120, 45, 55]] := by
  have hnewest : Reached TwinFree (waiting.act (.messageBuddies (dlgState 20 1 []))) :=
    .step _ waiting_reached (dlgState_twinFree rfl) rfl
  have hanswer : Reached TwinFree ((waiting.act (.messageBuddies (dlgState 20 1 []))).act
      (.messageBuddies othersAnswer)) := by
    apply Run.step (.messageBuddies othersAnswer) hnewest _ rfl
    refine .inr (.inr ⟨fun h => absurd rfl h.2.1, fun m hm _ => ?_⟩)
    rw [List.mem_singleton.mp hm]
    decide
  have hown := Run.step (.messageBuddies (dlgState 30 20 [120, 45, 55])) hanswer
    (dlgState_twinFree rfl) rfl
  exact ⟨_, hown, no_twins hown, by decide, by decide⟩

/-- An answer by ids brings the own message while its pending twin still waits. -/
theorem twins_byIds : ¬ ∀ s, Reachable s → s.NoTwins := by
  intro h
  let answer : Buddies :=
    { buddies := [{ id := 10, prev := 1, internalId := [120, 45, 55], outgoing := true }]
      option := .requestedByIds }
  have hs := h _ (reachable_foldl [.messageBuddies (dlgState 1 (-1) []),
    .messageBuddies (dlgState 20 1 []), .messageBuddies ownPendings, .messageBuddies answer])
  have htwins := hs.apart ⟨{ internalId := [120, 45, 55], pendingId := 7, outgoing := true, time := 0 },
    { internalId := [120, 45, 55], pendingId := 7, outgoing := true }⟩ (by decide)
    { id := 10, prev := 1, internalId := [120, 45, 55], outgoing := true } (by decide) (by decide)
  exact htwins rfl

end History

end Icq.Gui
