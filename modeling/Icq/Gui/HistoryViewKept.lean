import Icq.Gui.HistoryView
import Icq.Gui.MessageKeyOrder

namespace Icq.Gui
open Icq.Lib

namespace ViewBounds

variable {b : ViewBounds} {P : List MessageWithKey} {key : MessageKey} {id i j : Int}

/-- The id lies within the bounds of the delivered messages. -/
def Shows (b : ViewBounds) (id : Int) : Prop := ∃ t ∈ b.top, ∃ u ∈ b.bottom, t ≤ id ∧ id ≤ u

theorem Shows.extend (h : b.Shows id) : (b.extend i j).Shows id := by
  obtain ⟨t, ht, u, hu, htop, hbottom⟩ := h
  refine ⟨_, rfl, _, rfl, ?_, ?_⟩
  · rw [Option.mem_def.mp ht, Option.getD_some]
    exact (min_le_right i t).trans htop
  · rw [Option.mem_def.mp hu, Option.getD_some]
    exact hbottom.trans (le_max_right j u)

theorem extend_shows : (b.extend id id).Shows id :=
  ⟨_, rfl, _, rfl, min_le_left _ _, le_max_left _ _⟩

theorem moveBounds_shows (h : b.Shows id) : (History.moveBounds P b key).Shows id := by
  have hkeep : (History.moveBounds P b key).top = b.top ∧
      (History.moveBounds P b key).bottom = b.bottom := by
    rw [History.moveBounds]
    split
    · exact ⟨rfl, rfl⟩
    · split
      · split <;> exact ⟨rfl, rfl⟩
      · split
        · split <;> exact ⟨rfl, rfl⟩
        · exact ⟨rfl, rfl⟩
  rw [Shows, hkeep.1, hkeep.2]
  exact h

/-- Both pending bounds are unset, or they are in order. -/
def PendingOrdered (b : ViewBounds) : Prop :=
  (b.topPending = none ∧ b.bottomPending = none) ∨
  ∃ t ∈ b.topPending, ∃ u ∈ b.bottomPending, t.le u = true

end ViewBounds

namespace History

open ViewBounds

variable {s : History} {c : Buddies} {b : ViewBounds} {P : List MessageWithKey} {id : Int}

section Shown

theorem showInserted_shows {messages : List MessageBuddy} (seen : List MessageBuddy)
    (h : b.Shows id) : (messages.foldl showInserted (b, seen)).1.Shows id := by
  induction messages generalizing b seen with
  | nil => exact h
  | cons m messages ih =>
    rw [List.foldl_cons, showInserted]
    split
    · exact ih _ h.extend
    · exact ih _ h

theorem needToInsert_shows {messages : KeyMap MessageBuddy.id} {inserted : List MessageBuddy}
    (h : b.Shows id) : (needToInsert messages b inserted).1.Shows id := by
  rw [needToInsert]
  split
  · dsimp only
    split
    · exact h.extend
    · exact showInserted_shows _ h
  · exact h

theorem showPendings_shows {inserted : List MessageBuddy} (h : b.Shows id) :
    (showPendings b inserted).Shows id := by
  rw [showPendings]
  split
  · exact h
  · exact h

/-- What is found in view is shown when the loop ends. -/
theorem resolveInView_shows {R seen : List MessageBuddy} (h : ∀ m ∈ seen, b.Shows m.id) :
    ∀ m ∈ (R.foldl (resolveInView P) (b, seen)).2,
      (R.foldl (resolveInView P) (b, seen)).1.Shows m.id := by
  induction R generalizing b seen with
  | nil => exact h
  | cons m R ih =>
    rw [List.foldl_cons, resolveInView]
    dsimp only
    split
    · apply ih
      intro l hl
      rcases List.mem_append.mp hl with hl | hl
      · exact (moveBounds_shows (h l hl)).extend
      · rw [List.mem_singleton.mp hl]
        exact extend_shows
    · exact ih h

theorem needToInsert_pending {messages : KeyMap MessageBuddy.id} {inserted : List MessageBuddy} :
    (needToInsert messages b inserted).1.topPending = b.topPending ∧
    (needToInsert messages b inserted).1.bottomPending = b.bottomPending := by
  have hfold : ∀ (l seen : List MessageBuddy) (b' : ViewBounds),
      (l.foldl showInserted (b', seen)).1.topPending = b'.topPending ∧
      (l.foldl showInserted (b', seen)).1.bottomPending = b'.bottomPending := by
    intro l
    induction l with
    | nil => exact fun _ _ => ⟨rfl, rfl⟩
    | cons m l ih =>
      intro seen b'
      rw [List.foldl_cons, showInserted]
      split
      · exact ih _ _
      · exact ih _ _
  rw [needToInsert]
  split
  · dsimp only
    split
    · exact ⟨rfl, rfl⟩
    · exact hfold _ _ _
  · exact ⟨rfl, rfl⟩

end Shown

/-- The messages of a batch that confirm pending ones. -/
def resolves (s : History) (c : Buddies) : List MessageBuddy :=
  (s.buddiesResult c (delivered c)).pendingResolves

/-- The pending messages that a batch leaves. -/
def left (s : History) (c : Buddies) : List MessageWithKey :=
  (s.buddiesResult c (delivered c)).pendings

theorem insertMessages_view {prevLastId : Int} (h : s.isRequiredWaitingSeq c.seq = false) :
    (s.insertMessages c prevLastId).1.viewBounds = (s.processInserted (s.pendResult c)
      (s.buddiesResult c (delivered c)) c.option c.seq prevLastId).1 ∧
    (s.insertMessages c prevLastId).2 = (s.processInserted (s.pendResult c)
      (s.buddiesResult c (delivered c)) c.option c.seq prevLastId).2 := by
  unfold insertMessages buddiesResult pendResult delivered pendingIdx met metMessages metBounds
  rw [h]
  exact ⟨rfl, rfl⟩

theorem insertMessages_awaited {prevLastId : Int} (h : s.isRequiredWaitingSeq c.seq = true) :
    (s.insertMessages c prevLastId).1.viewBounds = {} ∧
    ∃ id mode, (s.insertMessages c prevLastId).2 = [.readyInit id mode] := by
  unfold insertMessages
  rw [h]
  exact ⟨rfl, _, _, rfl⟩

theorem messageBuddies_view (hignore : s.needIgnoreMessages c = false)
    (hoption : IsInserted c.option) :
    ∃ s' : History, s'.viewBounds = s.viewBounds ∧ s'.waitingInitSeq = s.waitingInitSeq ∧
      s'.pendResult c = s.pendResult c ∧ s'.buddiesResult c = s.buddiesResult c ∧
      (s.messageBuddies c).1.viewBounds = (s'.insertMessages c s.lastMessageId).1.viewBounds ∧
      (s.messageBuddies c).2 = (s'.insertMessages c s.lastMessageId).2 := by
  rw [messageBuddies_insert hignore hoption]
  exact ⟨s.noted c, rfl, rfl, rfl, rfl, rfl, rfl⟩

/-- The bounds and the in-view list of a batch that may move the view. -/
theorem processInserted_view {pend : PendingsInsertResult} {res : BuddiesInsertResult}
    {option : MessagesBuddiesOpt} {seq prevLastId : Int}
    (hoption : isCommonDlgState option = true ∨ option = .pending) :
    (s.processInserted pend res option seq prevLastId).1 = showPendings
      (needToInsert res.messages (resolvesInView res.pendings s.viewBounds res.pendingResolves).1
        res.inserted).1 pend.inserted ∧
    ∀ inView, .pendingResolves inView res.pendingResolves ∈
        (s.processInserted pend res option seq prevLastId).2 ↔
      res.pendingResolves ≠ [] ∧
        inView = (resolvesInView res.pendings s.viewBounds res.pendingResolves).2 := by
  have hmoves : (isCommonDlgState option || option == .pending ||
      (option == .requested && hasMessagesInBounds res.inserted s.viewBounds)) = true := by
    rcases hoption with h | rfl
    · rw [h, Bool.true_or, Bool.true_or]
    · rfl
  rw [processInserted]
  simp only [hmoves, if_true, true_and]
  intro inView
  have hemit : ∀ {α : Type} (signal : List α → Signal) (l : List α) (all : List MessageBuddy),
      (∀ l, signal l ≠ .pendingResolves inView all) →
      .pendingResolves inView all ∉ emitUnlessEmpty signal l := by
    intro α signal l all hne hmem
    rw [emitUnlessEmpty] at hmem
    split at hmem
    · cases hmem
    · exact hne _ (List.mem_singleton.mp hmem).symm
  simp only [List.mem_append]
  rw [or_iff_left, or_iff_left, or_iff_right]
  · split
    · rename_i hempty
      exact iff_of_false List.not_mem_nil fun h => h.1 (List.isEmpty_iff.mp hempty)
    · rename_i hne
      rw [List.mem_singleton, Signal.pendingResolves.injEq]
      simp [List.isEmpty_iff] at hne
      simp [hne]
  · exact hemit _ _ _ nofun
  · exact hemit _ _ _ nofun
  · split
    · exact List.not_mem_nil
    · rw [List.mem_append, not_or]
      exact ⟨hemit _ _ _ nofun, fun h => nomatch List.mem_singleton.mp h⟩

/-- What a confirmation must keep: what was in view is told to be and is shown, and the pending
bounds are in order. -/
structure ViewKept (s : History) (c : Buddies) : Prop where
  told : ∀ m ∈ s.resolves c, within s.viewBounds m.pendingKey = true →
    ∃ inView, .pendingResolves inView (s.resolves c) ∈ (s.messageBuddies c).2 ∧ m ∈ inView
  shown : ∀ m ∈ s.resolves c, within s.viewBounds m.pendingKey = true →
    (s.messageBuddies c).1.viewBounds.Shows m.id
  ordered : (s.messageBuddies c).1.viewBounds.PendingOrdered

/-- The edges, moved out to the inserted pending messages, are in order. -/
def EdgesMeet (edges : Option MessageKey × Option MessageKey) (inserted : List MessageBuddy) :
    Prop :=
  match inserted.head?, inserted.getLast? with
  | some front, some back =>
    (minKey front.toKey (edges.1.getD front.toKey)).le
      (maxKey back.toKey (edges.2.getD back.toKey)) = true
  | _, _ => edges = (none, none) ∨ ∃ t ∈ edges.1, ∃ u ∈ edges.2, t.le u = true

/-- When it keeps it: each message in view spares those in view behind it in the batch, and the
edges that are left meet. The answer to an awaited request resets the view. -/
def KeepsView (s : History) (c : Buddies) : Prop :=
  if s.isRequiredWaitingSeq c.seq then withinBounds s.viewBounds (s.resolves c) = []
  else
    (withinBounds s.viewBounds (s.resolves c)).Pairwise
      (fun m l => Spares (s.left c) s.viewBounds m.pendingKey l.pendingKey) ∧
    EdgesMeet (boundsAfter (s.left c) s.viewBounds
      ((withinBounds s.viewBounds (s.resolves c)).map (·.pendingKey))) (s.pendResult c).inserted

theorem edgesMeet_iff {b : ViewBounds} {inserted : List MessageBuddy} :
    (showPendings b inserted).PendingOrdered ↔
      EdgesMeet (b.topPending, b.bottomPending) inserted := by
  rw [showPendings, EdgesMeet]
  cases inserted.head? with
  | none => rw [PendingOrdered, Prod.mk.injEq]
  | some front =>
    cases inserted.getLast? with
    | none => rw [PendingOrdered, Prod.mk.injEq]
    | some back =>
      constructor
      · intro h
        obtain ⟨t, ht, u, hu, hle⟩ := h.resolve_left fun h => nomatch h.1
        cases ht
        cases hu
        exact hle
      · exact fun h => .inr ⟨_, rfl, _, rfl, h⟩

/-- The state and the batch that a dialog state or a pending list confirms messages in. The
pendings have internal ids of their own, which every run keeps; the batch keeps its asserts. -/
structure Confirming (s : History) (c : Buddies) : Prop where
  handled : s.needIgnoreMessages c = false
  option : isCommonDlgState c.option = true ∨ c.option = .pending
  bounds : s.viewBounds.PendingOrdered
  pendings : PendingsOk s.pendings
  range : ∀ m ∈ c.buddies.drop (pendingIdx c), m.isPending = true
  /-- The comparison is lawful between the bounds and each confirmed key. -/
  lawful : ∀ m ∈ s.resolves c, ∀ t ∈ s.viewBounds.topPending, ∀ u ∈ s.viewBounds.bottomPending,
    MessageKey.Ordered t u m.pendingKey

namespace Confirming

theorem isInserted (h : s.Confirming c) : IsInserted c.option := by
  rcases h.option with h | h
  · refine ⟨?_, ?_, ?_⟩ <;> exact fun h' => by rw [h'] at h; cases h
  · rw [h]
    exact ⟨nofun, nofun, nofun⟩

theorem confirmed (h : s.Confirming c) :
    Confirmed (s.left c) ((s.resolves c).map (·.pendingKey)) := by
  have hok : PendingsOk (s.pendResult c).pendings :=
    insertPendings_ok (s := s.met c) h.pendings h.range
  have hperm := (@insertBuddies_perm c.option (s.metMessages c) _ hok (delivered c)).2
  have hnodup := (hperm.nodup_iff).mpr hok.nodup
  obtain ⟨hres, -, hdisj⟩ := List.nodup_append.mp hnodup
  refine ⟨?_, ?_, ?_⟩
  · intro k hk
    obtain ⟨m, -, rfl⟩ := List.mem_map.mp hk
    rfl
  · rw [List.map_map]
    exact hres
  · intro x hx k hk
    obtain ⟨m, hm, rfl⟩ := List.mem_map.mp hk
    exact (hdisj _ (List.mem_map_of_mem hm) _ (List.mem_map_of_mem hx)).symm

theorem edgesWithin (h : s.Confirming c) : EdgesWithin s.viewBounds (s.resolves c) := by
  intro m hm hedge
  rcases h.bounds with ⟨htop, hbottom⟩ | ⟨t, ht, u, hu, hle⟩
  · rw [htop, hbottom] at hedge
    rcases hedge with h' | h' <;> cases h'
  · obtain ⟨hweak, heq⟩ := h.lawful m hm t ht u hu
    have hut : ¬ u.lessThan t = true := by
      rw [MessageKey.le, Bool.not_eq_true'] at hle
      rw [hle]
      exact Bool.false_ne_true
    have htk : ¬ m.pendingKey.lessThan t = true ∧ ¬ u.lessThan m.pendingKey = true := by
      rw [Option.mem_def.mp ht, Option.mem_def.mp hu] at hedge
      rcases hedge with h' | h'
      · have hbeside := heq t (by simp) m.pendingKey (by simp) h'
        refine ⟨hbeside.2, fun huk => hut ?_⟩
        exact hweak.lt_of_lt_of_incomp (by simp) (by simp) (by simp) huk ⟨hbeside.2, hbeside.1⟩
      · have hbeside := heq u (by simp) m.pendingKey (by simp) h'
        refine ⟨fun hkt => hut ?_, hbeside.1⟩
        exact hweak.lt_of_incomp (by simp) (by simp) (by simp) hbeside hkt
    rw [within, Option.mem_def.mp ht, Option.mem_def.mp hu, leKey, keyLe]
    simp [MessageKey.le, htk]

end Confirming

section Resolved

variable {R : List MessageBuddy}

theorem withinBounds_none (h : b.bottomPending = none) : withinBounds b R = [] := by
  rw [withinBounds, List.filter_eq_nil_iff]
  intro m _
  rw [within_none h]
  exact Bool.false_ne_true

/-- The loop over the confirmed messages, with its test for pending bounds. -/
theorem resolvesInView_iff (hb : b.PendingOrdered) (hc : Confirmed P (R.map (·.pendingKey)))
    (hedges : EdgesWithin b R) :
    ((∀ m ∈ withinBounds b R, m ∈ (resolvesInView P b R).2) ↔
      (withinBounds b R).Pairwise fun m l => Spares P b m.pendingKey l.pendingKey) ∧
    ((∀ m ∈ withinBounds b R, m ∈ (resolvesInView P b R).2) →
      ((resolvesInView P b R).1.topPending, (resolvesInView P b R).1.bottomPending) =
        boundsAfter P b ((withinBounds b R).map (·.pendingKey))) := by
  rw [resolvesInView]
  rcases hb with ⟨htop, hbottom⟩ | ⟨t, ht, u, hu, -⟩
  · have hno : b.hasPendings = false := by
      rw [hasPendings, htop]
      rfl
    rw [hno, if_neg Bool.false_ne_true, withinBounds_none hbottom, List.map_nil,
      boundsAfter_none htop hbottom, htop, hbottom]
    exact ⟨iff_of_true (by simp) .nil, fun _ => rfl⟩
  · have hyes : b.hasPendings = true := by
      rw [hasPendings, Option.mem_def.mp ht, Option.mem_def.mp hu]
      rfl
    have hd : Derived b b (R.map (·.pendingKey)) := .inr ⟨.inl rfl, .inl rfl⟩
    rw [hyes, if_pos rfl]
    refine ⟨?_, foldl_pending hc hd (fun _ _ _ h => h) hedges⟩
    rw [inView_iff hc hd (fun _ _ _ h => h) hedges]
    exact and_iff_left fun m hm => (List.mem_filter.mp hm).2

theorem resolvesInView_shows : ∀ m ∈ (resolvesInView P b R).2,
    (resolvesInView P b R).1.Shows m.id := by
  rw [resolvesInView]
  split
  · exact resolveInView_shows fun _ hm => absurd hm List.not_mem_nil
  · exact fun _ hm => absurd hm List.not_mem_nil

end Resolved

/-- Confirming pending messages keeps the view exactly when each one in view spares those behind
it, and the edges that are left meet. -/
theorem view_kept_iff (h : s.Confirming c) : s.ViewKept c ↔ s.KeepsView c := by
  obtain ⟨s', hview, hwaiting, hpend, hbuddies, hbounds, hsignals⟩ :=
    messageBuddies_view h.handled h.isInserted
  have hseq' : s'.isRequiredWaitingSeq c.seq = s.isRequiredWaitingSeq c.seq := by
    rw [isRequiredWaitingSeq, hwaiting, isRequiredWaitingSeq]
  have hwithin : ∀ {m}, m ∈ s.resolves c → within s.viewBounds m.pendingKey = true →
      m ∈ withinBounds s.viewBounds (s.resolves c) := fun hm hin => List.mem_filter.mpr ⟨hm, hin⟩
  rw [KeepsView]
  cases hseq : s.isRequiredWaitingSeq c.seq with
  | true =>
    obtain ⟨hempty, id, mode, hready⟩ :=
      @insertMessages_awaited _ _ s.lastMessageId (hseq'.trans hseq)
    rw [if_pos rfl]
    constructor
    · intro hkept
      rw [List.eq_nil_iff_forall_not_mem]
      intro m hm
      obtain ⟨hmR, hin⟩ := List.mem_filter.mp hm
      obtain ⟨inView, hmem, -⟩ := hkept.told m hmR hin
      rw [hsignals, hready] at hmem
      exact nomatch List.mem_singleton.mp hmem
    · intro hnone
      refine ⟨fun m hm hin => ?_, fun m hm hin => ?_, ?_⟩
      · exact absurd (hnone ▸ hwithin hm hin) List.not_mem_nil
      · exact absurd (hnone ▸ hwithin hm hin) List.not_mem_nil
      · rw [hbounds, hempty]
        exact .inl ⟨rfl, rfl⟩
  | false =>
    obtain ⟨hbounds', hsignals'⟩ :=
      @insertMessages_view _ _ s.lastMessageId (hseq'.trans hseq)
    rw [hpend, hbuddies] at hbounds' hsignals'
    obtain ⟨hprocessed, htold⟩ := @processInserted_view s' (s.pendResult c)
      (s.buddiesResult c (delivered c)) _ c.seq s.lastMessageId h.option
    rw [hview] at hprocessed htold
    rw [← hsignals', ← hsignals] at htold
    rw [← hbounds', ← hbounds] at hprocessed
    obtain ⟨hinView, hafter⟩ := resolvesInView_iff h.bounds h.confirmed h.edgesWithin
    have hin : (∀ m ∈ s.resolves c, within s.viewBounds m.pendingKey = true →
        ∃ inView, .pendingResolves inView (s.resolves c) ∈ (s.messageBuddies c).2 ∧ m ∈ inView) ↔
        ∀ m ∈ withinBounds s.viewBounds (s.resolves c),
          m ∈ (resolvesInView (s.left c) s.viewBounds (s.resolves c)).2 := by
      constructor
      · intro hall m hm
        obtain ⟨hmR, hin⟩ := List.mem_filter.mp hm
        obtain ⟨inView, hmem, hm'⟩ := hall m hmR hin
        exact ((htold inView).mp hmem).2 ▸ hm'
      · intro hall m hmR hin
        exact ⟨_, (htold _).mpr ⟨List.ne_nil_of_mem hmR, rfl⟩, hall m (hwithin hmR hin)⟩
    have hordered : (∀ m ∈ withinBounds s.viewBounds (s.resolves c),
          m ∈ (resolvesInView (s.left c) s.viewBounds (s.resolves c)).2) →
        ((s.messageBuddies c).1.viewBounds.PendingOrdered ↔ EdgesMeet (boundsAfter (s.left c)
          s.viewBounds ((withinBounds s.viewBounds (s.resolves c)).map (·.pendingKey)))
          (s.pendResult c).inserted) := by
      intro hall
      rw [hprocessed, edgesMeet_iff, needToInsert_pending.1, needToInsert_pending.2, ← hafter hall]
      exact Iff.rfl
    rw [if_neg Bool.false_ne_true]
    constructor
    · intro hkept
      have hall := hin.mp hkept.told
      exact ⟨hinView.mp hall, (hordered hall).mp hkept.ordered⟩
    · intro ⟨hpair, hmeet⟩
      have hall := hinView.mpr hpair
      refine ⟨hin.mpr hall, fun m hmR hin' => ?_, (hordered hall).mpr hmeet⟩
      rw [hprocessed]
      exact showPendings_shows (needToInsert_shows (resolvesInView_shows m (hall m (hwithin hmR hin'))))

section Lost

/-- A history of one message and two own ones that wait for their confirmation, all in view. -/
def twoWaiting : History :=
  [HistoryAction.messageBuddies (dlgState 1 (-1) []),
    .messageBuddies
      { buddies := [{ internalId := [120, 45, 55], pendingId := 7, outgoing := true },
          { internalId := [120, 45, 56], pendingId := 8, outgoing := true }]
        option := .pending }].foldl act {}

/-- The dialog state that confirms the first of them, and more. -/
def confirmation (more : List MessageBuddy) : Buddies :=
  { buddies := { id := 10, prev := 1, internalId := [120, 45, 55], outgoing := true } :: more
    option := .dlgState }

def secondDelivered : MessageBuddy :=
  { id := 11, prev := 10, internalId := [120, 45, 56], outgoing := true }

def IsSorted (s : History) : Prop := s.pendings.Pairwise fun x y => y.key.lessThan x.key = false

theorem twoWaiting_sorted : twoWaiting.IsSorted := by
  unfold IsSorted
  decide

theorem ordered_of_pending {a b k : MessageKey} (ha : a.OfPending) (hb : b.OfPending)
    (hk : k.OfPending) (hab : a.time = b.time) (hbk : b.time = k.time) :
    MessageKey.Ordered a b k := by
  apply MessageKey.ordered_of_inOrder (MessageKey.built_iff.mpr (.inl ha))
    (MessageKey.built_iff.mpr (.inl hb)) (MessageKey.built_iff.mpr (.inl hk))
  · exact MessageKey.inOrder_of_pending ha hb fun _ => hab
  · exact MessageKey.inOrder_of_pending ha hk fun _ => hab.trans hbk
  · exact MessageKey.inOrder_of_pending hb hk fun _ => hbk

theorem twoWaiting_confirming {more : List MessageBuddy}
    (hmore : more = [] ∨ more = [secondDelivered]) : twoWaiting.Confirming (confirmation more) where
  handled := rfl
  option := .inl rfl
  bounds := .inr ⟨_, rfl, _, rfl, rfl⟩
  pendings := ⟨by
    intro x hx
    rcases List.mem_pair.mp hx with rfl | rfl
    · exact ⟨rfl, List.cons_ne_nil _ _, rfl⟩
    · exact ⟨rfl, List.cons_ne_nil _ _, rfl⟩, by decide⟩
  range := by
    rcases hmore with rfl | rfl
    · exact fun m hm => absurd hm List.not_mem_nil
    · exact fun m hm => absurd hm List.not_mem_nil
  lawful := by
    have hpending : ∀ m ∈ twoWaiting.resolves (confirmation more),
        m.pendingKey.OfPending ∧ m.pendingKey.time = 0 := by
      rcases hmore with rfl | rfl
      · intro m hm
        rw [List.mem_singleton.mp hm]
        exact ⟨⟨rfl, List.cons_ne_nil _ _, rfl⟩, rfl⟩
      · intro m hm
        rcases List.mem_pair.mp hm with rfl | rfl
        · exact ⟨⟨rfl, List.cons_ne_nil _ _, rfl⟩, rfl⟩
        · exact ⟨⟨rfl, List.cons_ne_nil _ _, rfl⟩, rfl⟩
    intro m hm t ht u hu
    cases ht
    cases hu
    exact ordered_of_pending ⟨rfl, List.cons_ne_nil _ _, rfl⟩ ⟨rfl, List.cons_ne_nil _ _, rfl⟩
      (hpending m hm).1 rfl (hpending m hm).2.symm

/-- The first of the two alone: the top edge moves on to the second. -/
theorem view_kept_first : twoWaiting.ViewKept (confirmation []) := by
  apply (view_kept_iff (twoWaiting_confirming (.inl rfl))).mpr
  refine ⟨List.pairwise_singleton _ _, ?_⟩
  exact .inr ⟨_, rfl, _, rfl, rfl⟩

/-- Both at once: the first one unsets the bounds, so the second is not found in view. -/
theorem view_lost_second : ¬ ∀ s, Reachable s → s.IsSorted → ∀ c, s.Confirming c → s.ViewKept c := by
  intro h
  have hkept := h twoWaiting (reachable_foldl _) twoWaiting_sorted _ (twoWaiting_confirming (.inr rfl))
  obtain ⟨inView, htold, hmem⟩ := hkept.told secondDelivered (List.mem_pair.mpr (.inr rfl)) rfl
  have hfirst : inView = [{ id := 10, prev := 1, internalId := [120, 45, 55], outgoing := true }] :=
    (Signal.pendingResolves.inj (List.mem_singleton.mp htold)).1
  rw [hfirst] at hmem
  exact absurd hmem (by decide)

end Lost

end History

end Icq.Gui
