import Icq.Gui.HistoryConfirmed
import Mathlib.Data.List.Perm.Basic

namespace Icq.Gui
open Icq.Lib

namespace MessageKey

variable {k key : MessageKey}

/-- Keys without an id are equal by their internal ids. -/
theorem isEqual_iff (h : k.id = -1 ∨ key.id = -1) : k.isEqual key = true ↔
    k.internalId ≠ [] ∧ k.internalId = key.internalId ∧ k.controlType = key.controlType := by
  have hids : (k.hasId && k.id == key.id) = false := by
    rcases h with h | h
    · simp [hasId, h]
    · simp only [hasId, h, Bool.and_eq_false_iff, bne_eq_false_iff_eq, beq_eq_false_iff_ne]
      exact em _
  simp only [isEqual, hids, Bool.false_or, Bool.and_eq_true, bne_iff_ne, beq_iff_eq,
    Bool.ite_eq_true_distrib, Bool.false_eq_true, if_false_right]
  tauto

theorem isEqual_comm (h : k.id = -1 ∨ key.id = -1) : k.isEqual key = key.isEqual k := by
  rw [Bool.eq_iff_iff, isEqual_iff h, isEqual_iff h.symm]
  constructor
  · intro ⟨hne, hid, hct⟩
    exact ⟨hid ▸ hne, hid.symm, hct.symm⟩
  · intro ⟨hne, hid, hct⟩
    exact ⟨hid ▸ hne, hid.symm, hct.symm⟩

end MessageKey

namespace MessageWithKey

def internalId (x : MessageWithKey) : QString := x.key.internalId

/-- The key of an entry is that of a pending message. -/
def IsOk (x : MessageWithKey) : Prop :=
  x.key.id = -1 ∧ x.key.internalId ≠ [] ∧ x.key.controlType = .message

/-- A message has the key of an entry when it has its internal id. -/
theorem IsOk.isEqual_iff {x : MessageWithKey} {m : MessageBuddy} (h : x.IsOk) :
    m.toKey.isEqual x.key = true ↔ m.internalId = x.internalId := by
  rw [MessageKey.isEqual_iff (.inr h.1)]
  constructor
  · exact fun h' => h'.2.1
  · intro hid
    exact ⟨fun h' => h.2.1 (hid.symm.trans h'), hid, h.2.2.symm⟩

end MessageWithKey

theorem MessageBuddy.isPending_iff {m : MessageBuddy} :
    m.isPending = true ↔ m.id = -1 ∧ m.internalId ≠ [] := by
  simp [isPending]

theorem MessageBuddy.withKey_isOk {m : MessageBuddy} (h : m.isPending = true) : m.withKey.IsOk := by
  rw [isPending_iff] at h
  exact ⟨h.1, h.2, rfl⟩

/-- What the pendings of a history are, sorted or not. -/
structure PendingsOk (pendings : List MessageWithKey) : Prop where
  isOk : ∀ x ∈ pendings, x.IsOk
  nodup : (pendings.map (·.internalId)).Nodup

namespace PendingsOk

variable {pendings l : List MessageWithKey} {x : MessageWithKey} {m : MessageBuddy}

theorem nil : PendingsOk [] := ⟨by simp, by simp⟩

theorem perm (h : PendingsOk pendings) (hperm : l.Perm pendings) : PendingsOk l :=
  ⟨fun x hx => h.isOk x (hperm.subset hx), (hperm.map _).nodup_iff.mpr h.nodup⟩

/-- Entries may change as long as they keep their internal ids. -/
theorem modifyFirst {p : MessageWithKey → Bool} {f : MessageWithKey → MessageWithKey}
    (h : PendingsOk pendings)
    (hf : ∀ x ∈ pendings, p x = true → (f x).IsOk ∧ (f x).internalId = x.internalId) :
    PendingsOk (modifyFirst p f pendings) := by
  refine ⟨fun y hy => ?_, ?_⟩
  · rcases mem_modifyFirst hy with hy | ⟨x, hx, hp, rfl⟩
    · exact h.isOk y hy
    · exact (hf x hx hp).1
  · rw [map_modifyFirst fun x hx hp => (hf x hx hp).2]
    exact h.nodup

theorem any_isEqual (h : PendingsOk pendings) :
    (pendings.any fun x => m.toKey.isEqual x.key) = true ↔
      m.internalId ∈ pendings.map (·.internalId) := by
  rw [List.any_eq_true, List.mem_map]
  constructor
  · exact fun ⟨x, hx, heq⟩ => ⟨x, hx, ((h.isOk x hx).isEqual_iff.mp heq).symm⟩
  · exact fun ⟨x, hx, heq⟩ => ⟨x, hx, (h.isOk x hx).isEqual_iff.mpr heq.symm⟩

theorem append (h : PendingsOk pendings) (hm : m.isPending = true)
    (hnew : m.internalId ∉ pendings.map (·.internalId)) : PendingsOk (pendings ++ [m.withKey]) := by
  refine ⟨fun x hx => ?_, ?_⟩
  · rcases List.mem_append.mp hx with hx | hx
    · exact h.isOk x hx
    · rw [List.mem_singleton.mp hx]
      exact MessageBuddy.withKey_isOk hm
  · rw [List.map_append, List.map_singleton, List.nodup_append]
    refine ⟨h.nodup, List.nodup_singleton _, fun a ha b hb => ?_⟩
    rintro rfl
    rw [List.mem_singleton.mp hb] at ha
    exact hnew ha

/-- The entry that a message resolves is taken out, and only it. -/
theorem eraseP_perm (h : PendingsOk pendings) (hm : m.internalId ∈ pendings.map (·.internalId)) :
    (m.internalId :: (pendings.eraseP fun x => m.toKey.isEqual x.key).map (·.internalId)).Perm
      (pendings.map (·.internalId)) := by
  obtain ⟨x, hx, heq⟩ := List.any_eq_true.mp (h.any_isEqual.mpr hm)
  obtain ⟨y, before, after, -, hy, hsplit, herase⟩ :=
    List.exists_of_eraseP (p := fun x => m.toKey.isEqual x.key) hx heq
  have hymem : y ∈ pendings := by
    rw [hsplit]
    exact List.mem_append_right _ List.mem_cons_self
  have hid := (h.isOk y hymem).isEqual_iff.mp hy
  rw [herase, hsplit, hid, List.map_append, List.map_append, List.map_cons]
  exact List.perm_middle.symm

theorem eraseP (h : PendingsOk pendings) (p : MessageWithKey → Bool) :
    PendingsOk (pendings.eraseP p) :=
  ⟨fun x hx => h.isOk x (List.mem_of_mem_eraseP hx),
    h.nodup.sublist (List.eraseP_sublist.map _)⟩

end PendingsOk

namespace History

variable {s : History} {c : Buddies} {option : MessagesBuddiesOpt} {msg : MessageBuddy}

theorem insertPending_ok {r : PendingsInsertResult} (h : PendingsOk r.pendings)
    (hmsg : msg.isPending = true) : PendingsOk (s.insertPending r msg).pendings := by
  rw [insertPending]
  split
  · split
    · apply h.modifyFirst
      intro x hx heq
      exact ⟨MessageBuddy.withKey_isOk hmsg, (h.isOk x hx).isEqual_iff.mp heq⟩
    · exact h
  · rename_i hnone
    split
    · exact h
    · exact h.append hmsg fun hmem => hnone (h.any_isEqual.mpr hmem)

theorem insertPendings_ok {range : List MessageBuddy} (h : PendingsOk s.pendings)
    (hrange : ∀ m ∈ range, m.isPending = true) : PendingsOk (s.insertPendings range).pendings := by
  have hfold : ∀ r : PendingsInsertResult, PendingsOk r.pendings →
      PendingsOk (range.foldl s.insertPending r).pendings := by
    induction range with
    | nil => exact fun r hr => hr
    | cons m range ih =>
      intro r hr
      apply ih fun m' hm' => hrange m' (List.mem_cons_of_mem _ hm')
      exact insertPending_ok hr (hrange m List.mem_cons_self)
  have hok := hfold { pendings := s.pendings } h
  rw [insertPendings]
  split
  · exact hok
  · exact hok.perm (List.perm_insertionSort _ _)

/-- What a message of the batch does to the pendings and to the resolves. -/
theorem insertBuddy_resolves {r : BuddiesInsertResult} (h : PendingsOk r.pendings) :
    (insertBuddy option r msg).pendings = r.pendings ∧
      (insertBuddy option r msg).pendingResolves = r.pendingResolves ∧
      (msg.outgoing = true → msg.internalId ∉ r.pendings.map (·.internalId)) ∨
    (insertBuddy option r msg).pendings = (r.pendings.eraseP fun x => msg.toKey.isEqual x.key) ∧
      (insertBuddy option r msg).pendingResolves = r.pendingResolves ++ [msg] ∧
      msg.outgoing = true ∧ msg.internalId ∈ r.pendings.map (·.internalId) := by
  have hkeep : ∀ r' : BuddiesInsertResult,
      (if msg.outgoing && r.pendings.any fun x => msg.toKey.isEqual x.key then
        resolvePending r msg else r) = r' →
      (insertBuddy option r msg).pendings = r'.pendings ∧
      (insertBuddy option r msg).pendingResolves = r'.pendingResolves := by
    intro r' hr'
    rw [insertBuddy, hr']
    cases r'.messages.find? msg.id with
    | some currentMsg =>
      dsimp only
      split <;> exact ⟨rfl, rfl⟩
    | none =>
      dsimp only
      split <;> exact ⟨rfl, rfl⟩
  by_cases hres : (msg.outgoing && r.pendings.any fun x => msg.toKey.isEqual x.key) = true
  · rw [if_pos hres] at hkeep
    rw [Bool.and_eq_true, h.any_isEqual] at hres
    exact .inr ⟨(hkeep _ rfl).1, (hkeep _ rfl).2, hres⟩
  · rw [if_neg hres] at hkeep
    rw [Bool.and_eq_true, h.any_isEqual, not_and] at hres
    exact .inl ⟨(hkeep _ rfl).1, (hkeep _ rfl).2, hres⟩

/-- The internal ids of the pendings go over to the resolves. -/
theorem insertBuddies_perm {messages : KeyMap MessageBuddy.id} {pendings : List MessageWithKey}
    (h : PendingsOk pendings) (range : List MessageBuddy) :
    PendingsOk (insertBuddies messages pendings range option).pendings ∧
    ((insertBuddies messages pendings range option).pendingResolves.map (·.internalId) ++
      (insertBuddies messages pendings range option).pendings.map (·.internalId)).Perm
      (pendings.map (·.internalId)) := by
  induction range using List.reverseRecOn with
  | nil => exact ⟨h, List.Perm.refl _⟩
  | append_singleton range msg ih =>
    rw [insertBuddies, List.foldl_append, List.foldl_cons, List.foldl_nil, ← insertBuddies]
    generalize insertBuddies messages pendings range option = r at ih
    rcases @insertBuddy_resolves option msg _ ih.1 with
      ⟨hp, hr, -⟩ | ⟨hp, hr, -, hmem⟩
    · rw [hp, hr]
      exact ih
    · rw [hp, hr]
      refine ⟨ih.1.eraseP _, ?_⟩
      rw [List.map_append, List.map_singleton, List.append_assoc, List.singleton_append]
      exact ((ih.1.eraseP_perm hmem).append_left _).trans ih.2

def pendingIds (s : History) : List QString := s.pendings.map (·.internalId)

/-- The pendings of the later state are in order, and none of them is new. -/
structure PendingsFrom (s s' : History) : Prop where
  isOk : PendingsOk s'.pendings
  ids : s'.pendingIds ⊆ s.pendingIds

namespace PendingsFrom

variable {s s' s'' : History} {m : MessageBuddy} {l : List MessageBuddy}

theorem refl (h : PendingsOk s.pendings) : PendingsFrom s s := ⟨h, List.Subset.refl _⟩

theorem trans (h : PendingsFrom s s') (h' : PendingsFrom s' s'') : PendingsFrom s s'' :=
  ⟨h'.isOk, fun _ hid => h.ids (h'.ids hid)⟩

theorem modifyFirst {p : MessageWithKey → Bool} {f : MessageWithKey → MessageWithKey}
    (h : PendingsOk s.pendings) (heq : s'.pendings = Icq.Lib.modifyFirst p f s.pendings)
    (hf : ∀ x ∈ s.pendings, p x = true → (f x).IsOk ∧ (f x).internalId = x.internalId) :
    PendingsFrom s s' := by
  refine ⟨heq ▸ h.modifyFirst hf, ?_⟩
  rw [pendingIds, pendingIds, heq, map_modifyFirst fun x hx hp => (hf x hx hp).2]
  exact List.Subset.refl _

theorem setDeleted {p : MessageWithKey → Bool} (h : PendingsOk s.pendings)
    (heq : s'.pendings = Icq.Lib.modifyFirst p (·.setDeleted) s.pendings) : PendingsFrom s s' :=
  modifyFirst h heq fun x hx _ => ⟨h.isOk x hx, rfl⟩

theorem clear (h : PendingsOk s.pendings) : PendingsFrom s s.clearPendingsIfPossible := by
  rw [clearPendingsIfPossible]
  split
  · exact ⟨.nil, List.nil_subset _⟩
  · exact .refl h

/-- What one message keeps, the loop over all of them keeps. -/
theorem foldl {f : History × List MessageBuddy → MessageBuddy → History × List MessageBuddy}
    (hf : ∀ (s : History) done m, PendingsOk s.pendings → PendingsFrom s (f (s, done) m).1)
    (h : PendingsOk s.pendings) (done : List MessageBuddy) :
    PendingsFrom s (l.foldl f (s, done)).1 := by
  induction l generalizing s done with
  | nil => exact .refl h
  | cons m l ih =>
    have hstep := hf s done m h
    exact hstep.trans (ih hstep.isOk _)

theorem deleteMessage {done : List MessageBuddy} (h : PendingsOk s.pendings) :
    PendingsFrom s (deleteMessage (s, done) m).1 := by
  rw [History.deleteMessage]
  dsimp only
  split
  · split
    · exact setDeleted h rfl
    · exact .refl h
  · split
    · exact ⟨h, List.Subset.refl _⟩
    · exact .refl h

theorem modifyMessage {done : List MessageBuddy} (h : PendingsOk s.pendings) :
    PendingsFrom s (modifyMessage (s, done) m).1 := by
  rw [History.modifyMessage]
  dsimp only
  split
  · exact .refl h
  · split
    · split
      · exact ⟨h, List.Subset.refl _⟩
      · exact .refl h
    · split
      · rename_i hpending
        split
        · exact modifyFirst h rfl fun x hx heq =>
            ⟨MessageBuddy.withKey_isOk hpending, (h.isOk x hx).isEqual_iff.mp heq⟩
        · exact .refl h
      · exact .refl h

/-- Only new messages make new pendings. -/
theorem act (h : PendingsOk s.pendings) {action : HistoryAction}
    (hne : action.isMessageBuddies = false) : PendingsFrom s (s.act action) := by
  cases action with
  | messageBuddies c => cases hne
  | messagesDeleted buddies =>
    rw [History.act, messagesDeleted]
    split
    · exact .refl h
    · have hfold := foldl (l := buddies) (fun _ _ _ h => deleteMessage h) h []
      exact hfold.trans (clear hfold.isOk)
  | messagesDeletedUpTo id => exact ⟨h, List.Subset.refl _⟩
  | messagesModified modifications => exact foldl (fun _ _ _ h => modifyMessage h) h []
  | pendingAutoRemove key =>
    rw [History.act, pendingAutoRemove]
    split
    · split
      · have hdeleted : PendingsFrom s { s with
            pendings := Icq.Lib.modifyFirst (fun x => !x.key.lessThan key) (·.setDeleted) s.pendings } :=
          setDeleted h rfl
        exact hdeleted.trans (clear hdeleted.isOk)
      · exact .refl h
    · exact .refl h
  | messagesClear => exact ⟨.nil, List.nil_subset _⟩
  | initFor id mode only seq =>
    rw [History.act, initFor]
    dsimp only
    split
    · split <;> exact ⟨h, List.Subset.refl _⟩
    · split <;> exact ⟨h, List.Subset.refl _⟩

end PendingsFrom

/-- What the code asserts of a batch: behind its first pending message only pending ones come. -/
def RangePending (c : Buddies) : Prop := ∀ m ∈ c.buddies.drop (pendingIdx c), m.isPending = true

def KeepsAsserts (s : History) : HistoryAction → Prop
  | .messageBuddies c =>
    s.needIgnoreMessages c = false → IsInserted c.option → RangePending c
  | _ => True

theorem pendingsOk_act (h : PendingsOk s.pendings) {action : HistoryAction}
    (ha : s.KeepsAsserts action) : PendingsOk (s.act action).pendings := by
  cases action with
  | messageBuddies c =>
    by_cases hinserts : s.needIgnoreMessages c = false ∧ IsInserted c.option
    · rw [act, (messageBuddies_inserted hinserts.1 hinserts.2).2]
      have hok := insertPendings_ok (s := s.met c) h (ha hinserts.1 hinserts.2)
      exact (insertBuddies_perm hok _).1
    · rw [act, messageBuddies_pendings]
      · exact h
      · rw [not_and_or, Bool.not_eq_false] at hinserts
        exact hinserts
  | messagesDeleted buddies => exact (PendingsFrom.act h rfl).isOk
  | messagesDeletedUpTo id => exact (PendingsFrom.act h rfl).isOk
  | messagesModified modifications => exact (PendingsFrom.act h rfl).isOk
  | pendingAutoRemove key => exact (PendingsFrom.act h rfl).isOk
  | messagesClear => exact (PendingsFrom.act h rfl).isOk
  | initFor id mode only seq => exact (PendingsFrom.act h rfl).isOk

/-- The pendings of every run over batches that keep the assert. -/
theorem pendingsOk_of_reached (h : Reached KeepsAsserts s) : PendingsOk s.pendings := by
  apply h.invariant (P := fun s => PendingsOk s.pendings) .nil
  intro s action s' hs hallowed hstep
  cases hstep
  exact pendingsOk_act hs hallowed

end History

end Icq.Gui
