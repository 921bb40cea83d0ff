import Icq.Gui.HistoryPaging

/-! What is shown after any pages is one stretch of the history, and all of it was returned once. -/

namespace Icq.Gui
open Icq.Lib

@[simp] theorem visibleCount_append (a b : List MessageBuddy) :
    visibleCount (a ++ b) = visibleCount a + visibleCount b := List.countP_append

@[simp] theorem messagesOf_append (a b : List MessageWithKey) :
    messagesOf (a ++ b) = messagesOf a ++ messagesOf b := List.map_append

theorem visibleCount_messagesOf (l : List MessageWithKey) :
    visibleCount (messagesOf l) = l.countP (·.message.isVisibleMessage) := List.countP_map

theorem visibleCount_perm {a b : List MessageBuddy} (h : a.Perm b) :
    visibleCount a = visibleCount b := h.countP_eq _

/-- What a window shows of the two stores, and what lies before and behind it. -/
structure Window where
  before : List MessageBuddy
  shown : List MessageBuddy
  after : List MessageBuddy
  pendingBefore : List MessageWithKey
  pendingShown : List MessageWithKey
  pendingAfter : List MessageWithKey

/-- A page can end with the message once these ones are read. -/
def EndsPage (x : MessageBuddy) (read : List MessageBuddy) : Prop :=
  x.isVisibleMessage ∧ preloadCount ∣ visibleCount read

/-- The bound that the message sets parts the pending entries where it stands. -/
def PartsBefore (x : MessageWithKey) (older newer : List MessageWithKey) : Prop :=
  (∀ y ∈ older, y.key.lessThan x.message.toKey) ∧
    ∀ y ∈ newer, ¬ y.key.lessThan x.message.toKey

def PartsBehind (x : MessageWithKey) (older newer : List MessageWithKey) : Prop :=
  (∀ y ∈ older, ¬ x.message.toKey.lessThan y.key) ∧
    ∀ y ∈ newer, x.message.toKey.lessThan y.key

namespace Window

def content (w : Window) : List MessageBuddy := w.shown ++ messagesOf w.pendingShown

def olderPendings (w : Window) (rest loaded : List MessageWithKey) : Window :=
  { w with pendingBefore := rest, pendingShown := loaded ++ w.pendingShown }

def newer (w : Window) (loaded rest : List MessageBuddy)
    (loadedPendings restPendings : List MessageWithKey) : Window :=
  { w with
    shown := w.shown ++ loaded
    after := rest
    pendingShown := w.pendingShown ++ loadedPendings
    pendingAfter := restPendings }

end Window

namespace History

/-- The history can be read in pages from the id: the first page at the bottom does not end in
invisible messages only, and where a page ends at a pending message its key tells the place. -/
structure Pageable (s : History) (messageId : Option Int) : Prop where
  initShows : s.newerOf messageId = [] → s.messages.items = [] ∨
    preloadCount ≤ visibleCount (messagesOf s.pendings) ∨ 0 < visibleCount s.messages.items
  older : s.newerOf messageId = [] → ∀ older x newer, s.pendings = older ++ x :: newer →
    EndsPage x.message (messagesOf (x :: newer)) ∨ older = [] ∧ s.messages.items = [] →
    PartsBefore x older (x :: newer)
  newer : s.messages.items ≠ [] → ∀ older x newer, s.pendings = older ++ x :: newer →
    newer = [] ∨ s.newerOf messageId ≠ [] ∧
      EndsPage x.message (s.newerOf messageId ++ messagesOf (older ++ [x])) →
    PartsBehind x (older ++ [x]) newer

/-- Where the next page towards newer messages begins. -/
def NewerEnd (s : History) (messageId : Option Int) (w : Window) : Prop :=
  (w.after = [] ∧ w.pendingAfter = []) ∨ s.newerOf messageId ≠ [] ∧
    (∃ read, s.newerOf messageId = read ++ w.after ∧
      preloadCount ∣ visibleCount (read ++ messagesOf w.pendingShown)) ∧
    ∀ x ∈ w.pendingShown.getLast?, x.message.isVisibleMessage

/-- The bounds of the window are those of what it shows, which is one stretch of the history. -/
structure Placed (s : History) (messageId : Option Int) (w : Window) : Prop where
  messages : s.messages.items = w.before ++ w.shown ++ w.after
  pendings : s.pendings = w.pendingBefore ++ w.pendingShown ++ w.pendingAfter
  top : s.viewBounds.top = w.shown.head?.map (·.id)
  bottom : s.viewBounds.bottom = w.shown.getLast?.map (·.id)
  topPending : s.viewBounds.topPending = w.pendingShown.head?.map (·.message.toKey)
  bottomPending : s.viewBounds.bottomPending = w.pendingShown.getLast?.map (·.message.toKey)
  olderShown : w.shown ≠ [] → w.pendingBefore = []
  newerShown : w.after ≠ [] → w.pendingShown = []
  onlyPendings : w.shown = [] → w.after = [] ∧ w.pendingAfter = [] ∧ s.newerOf messageId = []
  newerEnd : NewerEnd s messageId w

/-- Where only pending messages are shown, the next page goes on behind their last page. -/
structure Shows (s : History) (messageId : Option Int) (w : Window) : Prop extends
    Placed s messageId w where
  noPendings : w.shown = [] → w.pendingShown = [] → w.before = [] ∧ w.pendingBefore = []
  olderEnd : w.shown = [] → ∀ x ∈ w.pendingShown.head?,
    EndsPage x.message (messagesOf w.pendingShown) ∨ w.pendingBefore = [] ∧ w.before = []

variable {s : History} {messageId : Option Int} {w : Window}

theorem pendingsPage_cases {n : Nat} (hn : n < preloadCount) (l : List MessageWithKey) :
    ∃ rest, l = pendingsPage n l ++ rest ∧ (rest = [] ∨
      n + visibleCount (messagesOf (pendingsPage n l)) = preloadCount ∧
      (∀ x ∈ (pendingsPage n l).getLast?, x.message.isVisibleMessage) ∧ pendingsPage n l ≠ []) := by
  rcases page_cases (·.message.isVisibleMessage) hn l with
    ⟨hall, -⟩ | ⟨front, x, rest, hpage, hread, hx, hcount⟩
  · refine ⟨[], ?_, Or.inl rfl⟩
    rw [List.append_nil]
    exact hall.symm
  · refine ⟨rest, ?_, Or.inr ⟨?_, ?_, ?_⟩⟩
    · rw [pendingsPage, hpage, List.append_assoc]
      exact hread
    · rw [visibleCount_messagesOf, pendingsPage, hpage]
      exact hcount
    · intro y hy
      rw [pendingsPage, hpage, List.getLast?_concat] at hy
      cases hy
      exact hx
    · rw [pendingsPage, hpage]
      simp

section Older

theorem loadToOlder_eq {b : ViewBounds} {before shown after result : List MessageBuddy}
    (messages : s.messages.items = before ++ shown ++ after)
    (top : b.top = shown.head?.map (·.id)) (bottom : b.bottom = shown.getLast?.map (·.id))
    (hafter : shown = [] → after = []) :
    ∃ rest loaded, before = rest ++ loaded ∧
      s.loadToOlder b result =
        ({ b with
          top := (loaded ++ shown).head?.map (·.id)
          bottom := (loaded ++ shown).getLast?.map (·.id) }, result ++ loaded.reverse) ∧
      (loaded = [] → before = []) := by
  have hrange : s.rangeToOlder b.top = before := by
    rw [top, rangeToOlder.eq_def, messages]
    cases shown with
    | nil => simp [hafter rfl]
    | cons x shown =>
      have hsorted := s.messages.sorted
      rw [messages, List.append_assoc] at hsorted
      rw [List.append_assoc]
      apply takeWhile_split
      · intro y hy
        exact decide_eq_true ((List.pairwise_append.mp hsorted).2.2 y hy x (by simp))
      · intro y hy
        cases hy
        simp
  obtain ⟨rest, hrest⟩ := page_isPrefix (·.isVisibleMessage) preloadCount (visibleCount result)
    before.reverse
  obtain ⟨loaded, hloaded⟩ : ∃ loaded, messagesPage (visibleCount result) before.reverse = loaded :=
    ⟨_, rfl⟩
  refine ⟨rest.reverse, loaded.reverse, ?_, ?_, ?_⟩
  · rw [← List.reverse_append, ← hloaded, messagesPage, hrest, List.reverse_reverse]
  · rw [loadToOlder, hrange, hloaded, List.reverse_reverse]
    cases loaded with
    | nil => simp [← top, ← bottom]
    | cons x loaded =>
      have hlast := List.getLast?_eq_some_getLast (List.cons_ne_nil x loaded)
      rw [List.head?_append, List.getLast?_append, List.head?_reverse, List.getLast?_reverse, hlast]
      cases shown with
      | nil => simp [bottom]
      | cons y shown => simp [bottom]
  · intro hnil
    rw [List.reverse_eq_nil_iff, ← hloaded, messagesPage, page_eq_nil] at hnil
    exact List.reverse_eq_nil_iff.mp hnil

theorem Placed.loadToOlder (h : s.Placed messageId w) (hpending : w.pendingBefore = [])
    (result : List MessageBuddy) :
    ∃ w' loaded, Shows { s with viewBounds := (s.loadToOlder s.viewBounds result).1 } messageId w' ∧
      (s.loadToOlder s.viewBounds result).2 = result ++ loaded ∧
      w'.content.Perm (w.content ++ loaded) ∧ (loaded = [] → w.before = []) := by
  obtain ⟨rest, loaded, hbefore, hload, hnil⟩ := @loadToOlder_eq _ _ _ _ _ result h.messages h.top
    h.bottom fun hshown => (h.onlyPendings hshown).1
  have hempty : loaded ++ w.shown = [] → w.shown = [] ∧ loaded = [] ∧ rest = [] := by
    intro hnone
    obtain ⟨hloaded, hshown⟩ := List.append_eq_nil_iff.mp hnone
    have hall := hnil hloaded
    rw [hbefore] at hall
    exact ⟨hshown, hloaded, (List.append_eq_nil_iff.mp hall).1⟩
  rw [hload]
  refine ⟨{ w with before := rest, shown := loaded ++ w.shown }, loaded.reverse, ?_, rfl, ?_, ?_⟩
  · exact {
      messages := by
        rw [← List.append_assoc, ← hbefore]
        exact h.messages
      pendings := h.pendings
      top := rfl
      bottom := rfl
      topPending := h.topPending
      bottomPending := h.bottomPending
      olderShown := fun _ => hpending
      newerShown := h.newerShown
      onlyPendings := fun hnone => h.onlyPendings (hempty hnone).1
      newerEnd := h.newerEnd
      noPendings := fun hnone _ => ⟨(hempty hnone).2.2, hpending⟩
      olderEnd := fun hnone _ _ => Or.inr ⟨hpending, (hempty hnone).2.2⟩ }
  · rw [Window.content, Window.content, List.append_assoc]
    exact List.perm_append_comm.trans (List.Perm.append_left _ (List.reverse_perm loaded).symm)
  · exact fun hloaded => hnil (List.reverse_eq_nil_iff.mp hloaded)

theorem Shows.pendingsToOlder (h : s.Shows messageId w) (hp : s.Pageable messageId)
    (hshown : w.shown = []) (hpendings : w.pendingShown ≠ []) :
    s.pendingsToOlder s.viewBounds.topPending = w.pendingBefore := by
  obtain ⟨hafter, hpendingAfter, hnewer⟩ := h.onlyPendings hshown
  obtain ⟨x, rest, hx⟩ := List.exists_cons_of_ne_nil hpendings
  have hsplit : s.pendings = w.pendingBefore ++ x :: rest := by
    rw [h.pendings, hpendingAfter, hx, List.append_nil]
  have hend : EndsPage x.message (messagesOf (x :: rest)) ∨
      w.pendingBefore = [] ∧ s.messages.items = [] := by
    rcases h.olderEnd hshown x (by rw [hx]; rfl) with hends | ⟨hnone, hbefore⟩
    · exact Or.inl (hx ▸ hends)
    · exact Or.inr ⟨hnone, by rw [h.messages, hbefore, hshown, hafter]; rfl⟩
  obtain ⟨hold, hnew⟩ := hp.older hnewer _ x rest hsplit hend
  rw [h.topPending, hx, pendingsToOlder.eq_def, hsplit]
  apply takeWhile_split hold
  intro y hy
  exact hnew y (List.mem_of_mem_head? hy)

/-- The bounds once a page is loaded above the pending messages that are shown. -/
theorem Placed.pendingsOlder (h : s.Placed messageId w) (hshown : w.shown = [])
    (rest loaded : List MessageWithKey) (hbefore : w.pendingBefore = rest ++ loaded) :
    Placed { s with viewBounds := { s.viewBounds with
      topPending := (loaded ++ w.pendingShown).head?.map (·.message.toKey)
      bottomPending := (loaded ++ w.pendingShown).getLast?.map (·.message.toKey) } } messageId
      (w.olderPendings rest loaded) where
  messages := h.messages
  pendings := by
    rw [Window.olderPendings, ← List.append_assoc, ← hbefore]
    exact h.pendings
  top := h.top
  bottom := h.bottom
  topPending := rfl
  bottomPending := rfl
  olderShown := fun hne => absurd hshown hne
  newerShown := fun hne => absurd (h.onlyPendings hshown).1 hne
  onlyPendings := h.onlyPendings
  newerEnd := Or.inl ⟨(h.onlyPendings hshown).1, (h.onlyPendings hshown).2.1⟩

theorem withOlderPendings_eq {b : ViewBounds} {shown : List MessageWithKey}
    (top : b.topPending = shown.head?.map (·.message.toKey))
    (bottom : b.bottomPending = shown.getLast?.map (·.message.toKey))
    (loaded : List MessageWithKey) :
    b.withOlderPendings (messagesOf loaded) = { b with
      topPending := (loaded.reverse ++ shown).head?.map (·.message.toKey)
      bottomPending := (loaded.reverse ++ shown).getLast?.map (·.message.toKey) } := by
  rw [ViewBounds.withOlderPendings, messagesOf, List.head?_map, List.getLast?_map]
  cases loaded with
  | nil => simp [← top, ← bottom]
  | cons x loaded =>
    have hlast := List.getLast?_eq_some_getLast (List.cons_ne_nil x loaded)
    rw [List.head?_append, List.getLast?_append, List.head?_reverse, List.getLast?_reverse, hlast]
    cases shown with
    | nil => simp [bottom]
    | cons y shown => simp [bottom]

theorem messagesOf_reverse_perm (l : List MessageWithKey) :
    (messagesOf l.reverse).Perm (messagesOf l) := (List.reverse_perm l).map _

theorem content_olderPendings (w : Window) (rest loaded : List MessageWithKey) :
    (w.olderPendings rest loaded.reverse).content.Perm (w.content ++ messagesOf loaded) := by
  rw [Window.content, Window.content, Window.olderPendings, List.append_assoc, messagesOf_append]
  apply List.Perm.append_left
  exact List.perm_append_comm.trans ((messagesOf_reverse_perm loaded).append_left _)

theorem Shows.fetchToOlder_pendings (h : s.Shows messageId w) (hp : s.Pageable messageId)
    (hshown : w.shown = []) (hpendings : w.pendingShown ≠ []) :
    ∃ w', Shows (s.fetchBuddies .toOlder).1 messageId w' ∧
      w'.content.Perm (w.content ++ (s.fetchBuddies .toOlder).2) ∧
      ((s.fetchBuddies .toOlder).2 = [] → w.before = [] ∧ w.pendingBefore = []) := by
  have htop : s.viewBounds.top = none := by rw [h.top, hshown]; rfl
  have hsome : s.pendings.isEmpty = false := by
    rw [h.pendings, List.isEmpty_eq_false_iff]
    exact List.append_ne_nil_of_left_ne_nil (List.append_ne_nil_of_right_ne_nil _ hpendings) _
  obtain ⟨loaded, hloaded⟩ : ∃ loaded, pendingsPage 0 w.pendingBefore.reverse = loaded := ⟨_, rfl⟩
  have hbounds := withOlderPendings_eq h.topPending h.bottomPending loaded
  have hfetch : s.fetchToOlder = if visibleCount (messagesOf loaded) < preloadCount then
      s.loadToOlder (s.viewBounds.withOlderPendings (messagesOf loaded)) (messagesOf loaded)
      else (s.viewBounds.withOlderPendings (messagesOf loaded), messagesOf loaded) := by
    rw [fetchToOlder, htop, hsome, h.pendingsToOlder hp hshown hpendings, hloaded]
    rfl
  rcases page_cases (·.message.isVisibleMessage) (show 0 < preloadCount by decide)
    w.pendingBefore.reverse with ⟨hall, hcount⟩ | ⟨front, x, rest, hpage, hread, hx, hcount⟩
  · -- all of the pending messages, and messages behind them
    have hwhole : loaded = w.pendingBefore.reverse := hloaded.symm.trans hall
    have hshort : visibleCount (messagesOf loaded) < preloadCount := by
      rw [visibleCount_messagesOf, hwhole]
      omega
    have hplaced := h.pendingsOlder hshown [] loaded.reverse
      (by rw [hwhole, List.reverse_reverse]; rfl)
    rw [← hbounds] at hplaced
    obtain ⟨w', more, hshows, hmore, hperm, hnil⟩ := hplaced.loadToOlder rfl (messagesOf loaded)
    rw [if_pos hshort] at hfetch
    have hreturned : (s.fetchBuddies .toOlder).2 = messagesOf loaded ++ more := by
      rw [fetchBuddies, hfetch]
      exact hmore
    refine ⟨w', ?_, ?_, ?_⟩
    · rw [fetchBuddies, hfetch]
      exact hshows
    · rw [hreturned, ← List.append_assoc]
      exact hperm.trans ((content_olderPendings w [] loaded).append_right more)
    · rw [hreturned]
      intro hnone
      obtain ⟨hloadedNone, hmoreNone⟩ := List.append_eq_nil_iff.mp hnone
      rw [hwhole] at hloadedNone
      exact ⟨hnil hmoreNone, List.reverse_eq_nil_iff.mp (List.map_eq_nil_iff.mp hloadedNone)⟩
  · -- a full page of pending messages
    have hfull : loaded = front ++ [x] := hloaded.symm.trans hpage
    have hbefore : w.pendingBefore = rest.reverse ++ loaded.reverse := by
      rw [← List.reverse_reverse w.pendingBefore, hread, hfull]
      simp
    have hvisible : visibleCount (messagesOf loaded) = preloadCount := by
      rw [visibleCount_messagesOf, hfull]
      omega
    have hplaced := h.pendingsOlder hshown rest.reverse loaded.reverse hbefore
    rw [← hbounds] at hplaced
    rw [if_neg (by omega)] at hfetch
    have hends : EndsPage x.message (messagesOf (loaded.reverse ++ w.pendingShown)) := by
      refine ⟨hx, ?_⟩
      obtain ⟨y, shown, hy⟩ := List.exists_cons_of_ne_nil hpendings
      rw [messagesOf_append, visibleCount_append, visibleCount_perm (messagesOf_reverse_perm loaded),
        hvisible]
      apply Nat.dvd_add (dvd_refl _)
      rcases h.olderEnd hshown y (by rw [hy]; rfl) with hold | ⟨hnone, -⟩
      · exact hold.2
      · rw [hnone, hfull] at hbefore
        simp at hbefore
    refine ⟨w.olderPendings rest.reverse loaded.reverse, ?_, ?_, ?_⟩
    · rw [fetchBuddies, hfetch]
      exact {
        toPlaced := hplaced
        noPendings := by
          intro _ hnone
          rw [Window.olderPendings, hfull] at hnone
          simp at hnone
        olderEnd := by
          intro _ y hy
          rw [Window.olderPendings, hfull] at hy
          have hxy : x = y := by simpa using hy
          exact Or.inl (hxy ▸ hends) }
    · rw [fetchBuddies, hfetch]
      exact content_olderPendings w rest.reverse loaded
    · rw [fetchBuddies, hfetch, hfull]
      intro hnone
      simp [messagesOf] at hnone

theorem Shows.fetchToOlder (h : s.Shows messageId w) (hp : s.Pageable messageId) :
    ∃ w', Shows (s.fetchBuddies .toOlder).1 messageId w' ∧
      w'.content.Perm (w.content ++ (s.fetchBuddies .toOlder).2) ∧
      ((s.fetchBuddies .toOlder).2 = [] → w.before = [] ∧ w.pendingBefore = []) := by
  by_cases honly : w.shown = [] ∧ w.pendingShown ≠ []
  · exact h.fetchToOlder_pendings hp honly.1 honly.2
  · have hpending : w.pendingBefore = [] := by
      by_cases hshown : w.shown = []
      · exact (h.noPendings hshown (by_contra fun hne => honly ⟨hshown, hne⟩)).2
      · exact h.olderShown hshown
    have hfetch : s.fetchToOlder = s.loadToOlder s.viewBounds [] := by
      rw [History.fetchToOlder]
      apply if_pos
      rw [h.top, h.pendings, hpending]
      by_cases hshown : w.shown = []
      · have hnone : w.pendingShown = [] := by_contra fun hne => honly ⟨hshown, hne⟩
        rw [hnone, (h.onlyPendings hshown).2.1]
        simp
      · obtain ⟨x, rest, hx⟩ := List.exists_cons_of_ne_nil hshown
        rw [hx]
        rfl
    obtain ⟨w', loaded, hshows, hreturned, hperm, hnil⟩ := h.toPlaced.loadToOlder hpending []
    rw [fetchBuddies, hfetch]
    refine ⟨w', hshows, ?_, ?_⟩
    · rw [hreturned]
      exact hperm
    · rw [hreturned]
      exact fun hnone => ⟨hnil hnone, hpending⟩

end Older

section Newer

theorem withNewer_eq {b : ViewBounds} {shown : List MessageBuddy}
    (bottom : b.bottom = shown.getLast?.map (·.id)) (loaded : List MessageBuddy) :
    b.withNewer loaded = { b with bottom := (shown ++ loaded).getLast?.map (·.id) } := by
  rw [ViewBounds.withNewer.eq_def, List.getLast?_append]
  cases loaded.getLast? with
  | none => simp [← bottom]
  | some x => simp

@[simp] theorem withNewer_topPending (b : ViewBounds) (loaded : List MessageBuddy) :
    (b.withNewer loaded).topPending = b.topPending := by
  rw [ViewBounds.withNewer.eq_def]
  cases loaded.getLast? <;> rfl

@[simp] theorem withNewer_bottomPending (b : ViewBounds) (loaded : List MessageBuddy) :
    (b.withNewer loaded).bottomPending = b.bottomPending := by
  rw [ViewBounds.withNewer.eq_def]
  cases loaded.getLast? <;> rfl

theorem withNewerPendings_eq {b : ViewBounds} {shown : List MessageWithKey}
    (top : b.topPending = shown.head?.map (·.message.toKey))
    (bottom : b.bottomPending = shown.getLast?.map (·.message.toKey))
    (loaded : List MessageWithKey) :
    b.withNewerPendings (messagesOf loaded) = { b with
      topPending := (shown ++ loaded).head?.map (·.message.toKey)
      bottomPending := (shown ++ loaded).getLast?.map (·.message.toKey) } := by
  rw [ViewBounds.withNewerPendings, messagesOf, List.head?_map, List.getLast?_map]
  cases loaded with
  | nil => simp [← top, ← bottom]
  | cons x loaded =>
    have hlast := List.getLast?_eq_some_getLast (List.cons_ne_nil x loaded)
    rw [List.head?_append, List.getLast?_append, hlast]
    cases shown with
    | nil => simp [top]
    | cons y shown => simp [top]

theorem Shows.newer (h : s.Shows messageId w) (hshown : w.shown ≠ [])
    {loaded rest : List MessageBuddy} {loadedPendings restPendings : List MessageWithKey}
    (hafter : w.after = loaded ++ rest) (hpending : w.pendingAfter = loadedPendings ++ restPendings)
    (hrest : rest ≠ [] → loadedPendings = [])
    (hend : NewerEnd s messageId (w.newer loaded rest loadedPendings restPendings)) :
    Shows { s with viewBounds :=
      (s.viewBounds.withNewer loaded).withNewerPendings (messagesOf loadedPendings) } messageId
      (w.newer loaded rest loadedPendings restPendings) := by
  have hne : w.shown ++ loaded ≠ [] := List.append_ne_nil_of_left_ne_nil hshown _
  have htop := (withNewer_topPending s.viewBounds loaded).trans h.topPending
  have hbottom := (withNewer_bottomPending s.viewBounds loaded).trans h.bottomPending
  rw [withNewerPendings_eq htop hbottom, withNewer_eq h.bottom]
  exact {
    messages := by
      rw [h.messages, hafter, Window.newer, List.append_assoc, List.append_assoc,
        List.append_assoc]
    pendings := by
      rw [h.pendings, hpending, Window.newer, List.append_assoc, List.append_assoc,
        List.append_assoc]
    top := by
      rw [Window.newer, List.head?_append_of_ne_nil _ hshown]
      exact h.top
    bottom := rfl
    topPending := rfl
    bottomPending := rfl
    olderShown := fun _ => h.olderShown hshown
    newerShown := by
      intro hmore
      have hsome : w.after ≠ [] := by
        rw [hafter]
        exact List.append_ne_nil_of_right_ne_nil _ hmore
      rw [Window.newer, h.newerShown hsome, hrest hmore]
      rfl
    onlyPendings := fun hnone => absurd hnone hne
    newerEnd := hend
    noPendings := fun hnone => absurd hnone hne
    olderEnd := fun hnone => absurd hnone hne }

theorem Placed.newerRange (h : s.Placed messageId w) {bottom : Int}
    (hbottom : s.viewBounds.bottom = some bottom) :
    (s.messages.items.dropWhile fun m => decide (m.id ≤ bottom)) = w.after := by
  rw [h.bottom] at hbottom
  rcases List.eq_nil_or_concat w.shown with hnone | ⟨front, x, hx⟩
  · rw [hnone] at hbottom
    cases hbottom
  rw [List.concat_eq_append] at hx
  have hid : x.id = bottom := by simpa [hx] using hbottom
  have hsorted := s.messages.sorted
  rw [h.messages] at hsorted
  rw [h.messages]
  have hlast : x ∈ w.before ++ w.shown := by
    rw [hx]
    simp
  apply dropWhile_split
  · intro y hy
    apply decide_eq_true
    rw [← hid]
    have hfront := (List.pairwise_append.mp hsorted).1
    rw [hx, ← List.append_assoc] at hy hfront
    rcases List.mem_append.mp hy with hy | hy
    · exact le_of_lt ((List.pairwise_append.mp hfront).2.2 y hy x (List.mem_singleton.mpr rfl))
    · exact le_of_eq (congrArg _ (List.mem_singleton.mp hy))
  · intro y hy
    have hlt := (List.pairwise_append.mp hsorted).2.2 x hlast y (List.mem_of_mem_head? hy)
    simp only [decide_eq_true_eq]
    omega

theorem Shows.pendingsToNewer (h : s.Shows messageId w) (hp : s.Pageable messageId)
    (hshown : w.shown ≠ []) : s.pendingsToNewer s.viewBounds.bottomPending = w.pendingAfter := by
  have hsplit := h.pendings
  rw [h.olderShown hshown, List.nil_append] at hsplit
  rcases List.eq_nil_or_concat w.pendingShown with hnone | ⟨front, x, hx⟩
  · rw [hnone, List.nil_append] at hsplit
    rw [h.bottomPending, hnone]
    exact hsplit
  · rw [List.concat_eq_append] at hx
    have hafter : w.after = [] := by
      by_contra hmore
      have := h.newerShown hmore
      simp [hx] at this
    have hmessages : s.messages.items ≠ [] := by
      rw [h.messages, hafter]
      simp [hshown]
    rw [hx] at hsplit
    have hends : w.pendingAfter = [] ∨ s.newerOf messageId ≠ [] ∧
        EndsPage x.message (s.newerOf messageId ++ messagesOf (front ++ [x])) := by
      rcases h.newerEnd with ⟨-, hnone⟩ | ⟨hcentre, ⟨read, hread, hdvd⟩, hvisible⟩
      · exact Or.inl hnone
      · rw [hafter, List.append_nil] at hread
        rw [hx] at hdvd hvisible
        exact Or.inr ⟨hcentre, hvisible x (by simp), hread ▸ hdvd⟩
    obtain ⟨hold, hnew⟩ := hp.newer hmessages front x w.pendingAfter
      (by rw [hsplit, List.append_assoc]; rfl) hends
    rw [h.bottomPending, hx, List.getLast?_append, pendingsToNewer.eq_def, hsplit]
    apply dropWhile_split
    · intro y hy
      simpa using hold y hy
    · intro y hy
      simpa using hnew y (List.mem_of_mem_head? hy)

theorem fetchToNewer_eq (h : s.Shows messageId w) (hshown : w.shown ≠ []) :
    s.fetchToNewer =
      let result := messagesPage 0 w.after
      let b := s.viewBounds.withNewer result
      if visibleCount result < preloadCount then s.loadPendingsToNewer b result else (b, result) := by
  obtain ⟨x, hx⟩ : ∃ x, w.shown.getLast? = some x :=
    ⟨_, List.getLast?_eq_some_getLast hshown⟩
  have hbottom : s.viewBounds.bottom = some x.id := by rw [h.bottom, hx]; rfl
  rw [fetchToNewer, hbottom]
  simp only [h.newerRange hbottom]

theorem newer_content (w : Window) (loaded rest : List MessageBuddy)
    (loadedPendings restPendings : List MessageWithKey) :
    (w.newer loaded rest loadedPendings restPendings).content.Perm
      (w.content ++ (loaded ++ messagesOf loadedPendings)) := by
  rw [Window.content, Window.content, Window.newer, messagesOf_append, List.append_assoc,
    List.append_assoc]
  apply List.Perm.append_left
  rw [← List.append_assoc, ← List.append_assoc]
  exact List.perm_append_comm.append_right _

/-- All newer messages are loaded, and pending ones behind them up to the end or a full page. -/
theorem Shows.newerEnd_pendings (h : s.Shows messageId w) {pend rest : List MessageWithKey}
    (hrest : w.pendingAfter = pend ++ rest)
    (hcut : rest = [] ∨ visibleCount w.after + visibleCount (messagesOf pend) = preloadCount ∧
      (∀ x ∈ pend.getLast?, x.message.isVisibleMessage) ∧ pend ≠ []) :
    NewerEnd s messageId (w.newer w.after [] pend rest) := by
  rcases hcut with hnone | ⟨hcount, hlast, hne⟩
  · exact Or.inl ⟨rfl, hnone⟩
  rcases h.newerEnd with ⟨-, hnone⟩ | ⟨hcentre, ⟨read, hread, hdvd⟩, -⟩
  · rw [hrest] at hnone
    exact absurd (List.append_eq_nil_iff.mp hnone).1 hne
  refine Or.inr ⟨hcentre, ⟨read ++ w.after, ?_, ?_⟩, ?_⟩
  · rw [hread, Window.newer, List.append_nil]
  · have hsum : visibleCount (read ++ w.after ++ messagesOf (w.pendingShown ++ pend)) =
        visibleCount (read ++ messagesOf w.pendingShown) + preloadCount := by
      simp only [visibleCount_append, messagesOf_append]
      omega
    rw [Window.newer, hsum]
    exact Nat.dvd_add hdvd (dvd_refl _)
  · intro y hy
    rw [Window.newer, List.getLast?_append_of_ne_nil _ hne] at hy
    exact hlast y hy

/-- A full page of messages is loaded. -/
theorem Shows.newerEnd_page (h : s.Shows messageId w) {loaded rest : List MessageBuddy}
    (hafter : w.after = loaded ++ rest) (hvisible : visibleCount loaded = preloadCount) :
    NewerEnd s messageId (w.newer loaded rest [] w.pendingAfter) := by
  have hsome : w.after ≠ [] := by
    intro hnone
    rw [(List.append_eq_nil_iff.mp (hafter.symm.trans hnone)).1] at hvisible
    exact absurd hvisible (by decide)
  have hnoPendings : w.pendingShown = [] := h.newerShown hsome
  rcases h.newerEnd with ⟨hnone, -⟩ | ⟨hcentre, ⟨read, hread, hdvd⟩, -⟩
  · exact absurd hnone hsome
  refine Or.inr ⟨hcentre, ⟨read ++ loaded, ?_, ?_⟩, ?_⟩
  · rw [hread, hafter, List.append_assoc]
    rfl
  · rw [hnoPendings] at hdvd
    rw [Window.newer, hnoPendings, visibleCount_append, visibleCount_append, hvisible,
      Nat.add_right_comm, ← visibleCount_append]
    exact Nat.dvd_add hdvd (dvd_refl _)
  · intro y hy
    rw [Window.newer, hnoPendings] at hy
    cases hy

theorem Shows.fetchToNewer_shown (h : s.Shows messageId w) (hp : s.Pageable messageId)
    (hshown : w.shown ≠ []) :
    ∃ w', Shows (s.fetchBuddies .toNewer).1 messageId w' ∧
      w'.content.Perm (w.content ++ (s.fetchBuddies .toNewer).2) ∧
      ((s.fetchBuddies .toNewer).2 = [] → w.after = [] ∧ w.pendingAfter = []) := by
  have hfetch := fetchToNewer_eq h hshown
  obtain ⟨loaded, hloaded⟩ : ∃ loaded, messagesPage 0 w.after = loaded := ⟨_, rfl⟩
  rw [hloaded] at hfetch
  rcases page_cases (·.isVisibleMessage) (show 0 < preloadCount by decide)
    w.after with ⟨hall, hcount⟩ | ⟨front, x, rest, hpage, hread, hx, hcount⟩
  · -- all of the messages, and pending ones behind them
    have hwhole : loaded = w.after := hloaded.symm.trans hall
    have hshort : visibleCount loaded < preloadCount := by
      rw [hwhole, visibleCount]
      omega
    obtain ⟨pend, hpend⟩ : ∃ pend, pendingsPage (visibleCount loaded) w.pendingAfter = pend :=
      ⟨_, rfl⟩
    have hload : s.fetchToNewer = ((s.viewBounds.withNewer loaded).withNewerPendings
        (messagesOf pend), loaded ++ messagesOf pend) := by
      rw [hfetch]
      simp only [if_pos hshort]
      rw [loadPendingsToNewer, withNewer_bottomPending, h.pendingsToNewer hp hshown, hpend]
    obtain ⟨rest, hrest, hcut⟩ := pendingsPage_cases hshort w.pendingAfter
    rw [hpend, hwhole] at hcut
    rw [hpend] at hrest
    have hend : NewerEnd s messageId (w.newer loaded [] pend rest) :=
      hwhole ▸ h.newerEnd_pendings hrest hcut
    refine ⟨w.newer loaded [] pend rest, ?_, ?_, ?_⟩
    · rw [fetchBuddies, hload]
      exact h.newer hshown (by rw [hwhole, List.append_nil]) hrest (fun hne => absurd rfl hne) hend
    · rw [fetchBuddies, hload]
      exact newer_content w loaded [] pend rest
    · rw [fetchBuddies, hload]
      intro hnone
      obtain ⟨hnoMessages, hnoPendings⟩ := List.append_eq_nil_iff.mp hnone
      refine ⟨hwhole ▸ hnoMessages, ?_⟩
      rw [List.map_eq_nil_iff.mp hnoPendings] at hpend
      exact page_eq_nil.mp hpend
  · -- a full page of messages
    have hfull : loaded = front ++ [x] := hloaded.symm.trans hpage
    have hafter : w.after = loaded ++ rest := by
      rw [hread, hfull, List.append_assoc]
      rfl
    have hvisible : visibleCount loaded = preloadCount := by
      rw [visibleCount, hfull]
      omega
    rw [if_neg (by omega)] at hfetch
    have hend := h.newerEnd_page hafter hvisible
    refine ⟨w.newer loaded rest [] w.pendingAfter, ?_, ?_, ?_⟩
    · rw [fetchBuddies, hfetch]
      exact h.newer hshown hafter rfl (fun _ => rfl) hend
    · rw [fetchBuddies, hfetch]
      have := newer_content w loaded rest [] w.pendingAfter
      rwa [show messagesOf [] = [] from rfl, List.append_nil] at this
    · rw [fetchBuddies, hfetch, hfull]
      intro hnone
      simp at hnone

theorem Shows.fetchToNewer (h : s.Shows messageId w) (hp : s.Pageable messageId) :
    ∃ w', Shows (s.fetchBuddies .toNewer).1 messageId w' ∧
      w'.content.Perm (w.content ++ (s.fetchBuddies .toNewer).2) ∧
      ((s.fetchBuddies .toNewer).2 = [] → w.after = [] ∧ w.pendingAfter = []) := by
  by_cases hshown : w.shown = []
  · have hbottom : s.viewBounds.bottom = none := by rw [h.bottom, hshown]; rfl
    obtain ⟨hafter, hpending, -⟩ := h.onlyPendings hshown
    rw [fetchBuddies, History.fetchToNewer, hbottom]
    refine ⟨w, h, ?_, fun _ => ⟨hafter, hpending⟩⟩
    rw [List.append_nil]
  · exact h.fetchToNewer_shown hp hshown

end Newer

section Init

theorem shows_atBottom_pendings (hnewer : s.newerOf messageId = []) {front rest : List MessageWithKey}
    {x : MessageWithKey} (hpendings : s.pendings.reverse = front ++ x :: rest)
    (hx : x.message.isVisibleMessage)
    (hcount : visibleCount (messagesOf (front ++ [x])) = preloadCount) :
    Shows { s with viewBounds := ViewBounds.withOlderPendings {} (messagesOf (front ++ [x])) }
      messageId {
        before := s.messages.items, shown := [], after := []
        pendingBefore := rest.reverse, pendingShown := (front ++ [x]).reverse
        pendingAfter := [] } := by
  have hbounds := withOlderPendings_eq (b := {}) (show _ = ([] : List MessageWithKey).head?.map _ from rfl)
    rfl (front ++ [x])
  rw [List.append_nil] at hbounds
  rw [hbounds]
  exact {
    messages := by simp
    pendings := by
      rw [← List.reverse_reverse s.pendings, hpendings]
      simp
    top := rfl
    bottom := rfl
    topPending := rfl
    bottomPending := rfl
    olderShown := fun hne => absurd rfl hne
    newerShown := fun hne => absurd rfl hne
    onlyPendings := fun _ => ⟨rfl, rfl, hnewer⟩
    newerEnd := Or.inl ⟨rfl, rfl⟩
    noPendings := by
      intro _ hnone
      simp at hnone
    olderEnd := by
      intro _ y hy
      have hxy : x = y := by simpa using hy
      left
      refine ⟨hxy ▸ hx, ?_⟩
      rw [visibleCount_perm (messagesOf_reverse_perm _), hcount] }

theorem shows_atBottom_messages (hnewer : s.newerOf messageId = []) {loaded rest : List MessageBuddy}
    (hmessages : s.messages.items = rest ++ loaded) (hnone : loaded = [] → rest = []) :
    Shows { s with viewBounds := { ViewBounds.withOlderPendings {} (messagesOf s.pendings.reverse) with
      top := loaded.head?.map (·.id), bottom := loaded.getLast?.map (·.id) } } messageId {
        before := rest, shown := loaded, after := []
        pendingBefore := [], pendingShown := s.pendings, pendingAfter := [] } := by
  have hbounds := withOlderPendings_eq (b := {}) (show _ = ([] : List MessageWithKey).head?.map _ from rfl)
    rfl s.pendings.reverse
  rw [List.append_nil, List.reverse_reverse] at hbounds
  rw [hbounds]
  exact {
    messages := by rw [hmessages, List.append_nil]
    pendings := by simp
    top := rfl
    bottom := rfl
    topPending := rfl
    bottomPending := rfl
    olderShown := fun _ => rfl
    newerShown := fun hne => absurd rfl hne
    onlyPendings := fun _ => ⟨rfl, rfl, hnewer⟩
    newerEnd := Or.inl ⟨rfl, rfl⟩
    noPendings := fun hloaded _ => ⟨hnone hloaded, rfl⟩
    olderEnd := fun hloaded _ _ => Or.inr ⟨rfl, hnone hloaded⟩ }

theorem withOlderPendings_unset (read : List MessageBuddy) :
    ViewBounds.withOlderPendings {} read =
      { ViewBounds.withOlderPendings {} read with top := none, bottom := none } := by
  rw [ViewBounds.withOlderPendings.eq_def]
  split <;> rfl

theorem shows_initAtBottom (hp : s.Pageable messageId) (hnewer : s.newerOf messageId = []) :
    ∃ w, Shows { s with viewBounds := s.initAtBottom.1 } messageId w ∧
      w.content.Perm s.initAtBottom.2 := by
  obtain ⟨pend, hpend⟩ : ∃ pend, pendingsPage 0 s.pendings.reverse = pend := ⟨_, rfl⟩
  rcases page_cases (·.message.isVisibleMessage) (show 0 < preloadCount by decide)
    s.pendings.reverse with ⟨hall, hcount⟩ | ⟨front, x, rest, hpage, hread, hx, hcount⟩
  · -- all of the pending messages, and messages behind them
    have hwhole : pend = s.pendings.reverse := hpend.symm.trans hall
    have hvisible : visibleCount (messagesOf pend) = visibleCount (messagesOf s.pendings) := by
      rw [hwhole]
      exact visibleCount_perm (messagesOf_reverse_perm _)
    have hshort : visibleCount (messagesOf pend) < preloadCount := by
      rw [visibleCount_messagesOf, hwhole]
      omega
    obtain ⟨loaded, hloaded⟩ :
      ∃ loaded, messagesPage (visibleCount (messagesOf pend)) s.messages.items.reverse = loaded :=
      ⟨_, rfl⟩
    obtain ⟨rest, hrest⟩ : loaded <+: s.messages.items.reverse := hloaded ▸ page_isPrefix ..
    have hmessages : s.messages.items = rest.reverse ++ loaded.reverse := by
      rw [← List.reverse_append, hrest, List.reverse_reverse]
    have hnone : loaded.reverse = [] → rest.reverse = [] := by
      intro hnil
      rw [List.reverse_eq_nil_iff.mp hnil] at hloaded
      have hitems := page_eq_nil.mp hloaded
      rw [← hrest, List.reverse_eq_nil_iff.mp hnil] at hitems
      rw [show rest = [] from hitems]
      rfl
    have hinit : s.initAtBottom = ({ ViewBounds.withOlderPendings {} (messagesOf pend) with
        top := loaded.reverse.head?.map (·.id), bottom := loaded.reverse.getLast?.map (·.id) },
        messagesOf pend ++ loaded) := by
      rw [initAtBottom, hpend, if_pos hshort, hloaded, List.head?_reverse, List.getLast?_reverse]
      by_cases hitems : s.messages.items = []
      · have hempty : loaded = [] := by rw [← hloaded, hitems]; rfl
        have htop := withOlderPendings_unset (messagesOf pend)
        simp only [hempty, List.append_nil, lt_irrefl, if_false]
        rw [Prod.mk.injEq]
        exact ⟨htop, rfl⟩
      · have hsome : 0 < visibleCount loaded := by
          rcases hp.initShows hnewer with hnil | hmany | hsome
          · exact absurd hnil hitems
          · omega
          · rcases page_cases (·.isVisibleMessage) hshort s.messages.items.reverse with
              ⟨hallMessages, -⟩ | ⟨_, _, _, hpage, -, -, hfull⟩
            · rw [← hloaded, messagesPage, hallMessages, visibleCount_perm (List.reverse_perm _)]
              exact hsome
            · rw [← hpage] at hfull
              rw [← hloaded, messagesPage, visibleCount]
              omega
        have hmore : visibleCount (messagesOf pend) < visibleCount (messagesOf pend ++ loaded) := by
          rw [visibleCount_append]
          omega
        simp only [if_pos hmore]
    rw [hinit, hwhole]
    refine ⟨_, shows_atBottom_messages hnewer hmessages hnone, ?_⟩
    rw [Window.content]
    exact List.perm_append_comm.trans
      ((messagesOf_reverse_perm s.pendings).symm.append (List.reverse_perm loaded))
  · -- a full page of pending messages
    have hfull : pend = front ++ [x] := hpend.symm.trans hpage
    have hvisible : visibleCount (messagesOf (front ++ [x])) = preloadCount := by
      rw [visibleCount_messagesOf]
      omega
    have hinit : s.initAtBottom =
        (ViewBounds.withOlderPendings {} (messagesOf (front ++ [x])), messagesOf (front ++ [x])) := by
      rw [initAtBottom, hpend, hfull, if_neg (by omega)]
    rw [hinit]
    refine ⟨_, shows_atBottom_pendings hnewer hread hx hvisible, ?_⟩
    exact messagesOf_reverse_perm _

/-- The bounds of messages in ascending order. -/
def boundsOf (shown : List MessageBuddy) : ViewBounds :=
  { top := shown.head?.map (·.id), bottom := shown.getLast?.map (·.id) }

/-- The older page above the centre is in ascending order. -/
theorem shows_around {before older shown rest : List MessageBuddy} {pend restPend : List MessageWithKey}
    (hmessages : s.messages.items = before ++ older ++ s.newerOf messageId)
    (hcentre : s.newerOf messageId = shown ++ rest) (hshown : shown ≠ [])
    (hpendings : s.pendings = pend ++ restPend) (hrest : rest ≠ [] → pend = [])
    (hend : NewerEnd s messageId ⟨before, older ++ shown, rest, [], pend, restPend⟩) :
    Shows { s with viewBounds := (boundsOf (older ++ shown)).withNewerPendings (messagesOf pend) }
      messageId ⟨before, older ++ shown, rest, [], pend, restPend⟩ := by
  have hne : older ++ shown ≠ [] := List.append_ne_nil_of_right_ne_nil _ hshown
  rw [withNewerPendings_eq (show _ = ([] : List MessageWithKey).head?.map _ from rfl) rfl]
  exact {
    messages := by rw [hmessages, hcentre, List.append_assoc, List.append_assoc, List.append_assoc]
    pendings := by rw [hpendings, List.nil_append]
    top := rfl
    bottom := rfl
    topPending := rfl
    bottomPending := rfl
    olderShown := fun _ => rfl
    newerShown := hrest
    onlyPendings := fun hnone => absurd hnone hne
    newerEnd := hend
    noPendings := fun hnone => absurd hnone hne
    olderEnd := fun hnone => absurd hnone hne }

theorem messages_eq_older_newer (hnewer : s.newerOf messageId ≠ []) :
    s.messages.items = s.olderOf messageId ++ s.newerOf messageId := by
  cases messageId with
  | none => exact absurd rfl hnewer
  | some id => exact List.takeWhile_append_dropWhile.symm

theorem shows_initAround (hnewer : s.newerOf messageId ≠ []) :
    ∃ w, Shows { s with viewBounds :=
        (s.initAround (s.olderOf messageId) (s.newerOf messageId)).1 } messageId w ∧
      w.content.Perm (s.initAround (s.olderOf messageId) (s.newerOf messageId)).2 := by
  obtain ⟨older, holder⟩ : ∃ older, messagesPage 0 (s.olderOf messageId).reverse = older := ⟨_, rfl⟩
  obtain ⟨before, hbefore⟩ : older <+: (s.olderOf messageId).reverse := holder ▸ page_isPrefix ..
  have hmessages : s.messages.items = before.reverse ++ older.reverse ++ s.newerOf messageId := by
    rw [messages_eq_older_newer hnewer, ← List.reverse_append, hbefore, List.reverse_reverse]
  obtain ⟨shown, hshown⟩ : ∃ shown, messagesPage 0 (s.newerOf messageId) = shown := ⟨_, rfl⟩
  have hsome : shown ≠ [] := by
    intro hnil
    rw [hnil] at hshown
    exact hnewer (page_eq_nil.mp hshown)
  rcases page_cases (·.isVisibleMessage) (show 0 < preloadCount by decide)
    (s.newerOf messageId) with ⟨hall, hcount⟩ | ⟨front, x, rest, hpage, hread, hx, hcount⟩
  · -- all from the centre on, and pending messages behind it
    have hwhole : shown = s.newerOf messageId := hshown.symm.trans hall
    have hshort : visibleCount shown < preloadCount := by
      rw [visibleCount, hwhole]
      omega
    obtain ⟨rest, hrest, hcut⟩ := pendingsPage_cases hshort s.pendings
    obtain ⟨pend, hpend⟩ : ∃ pend, pendingsPage (visibleCount shown) s.pendings = pend := ⟨_, rfl⟩
    rw [hpend] at hrest hcut
    have hend : NewerEnd s messageId ⟨before.reverse, older.reverse ++ shown, [], [], pend, rest⟩ := by
      rcases hcut with hnone | ⟨hpageCount, hlast, -⟩
      · exact Or.inl ⟨rfl, hnone⟩
      · right
        refine ⟨hnewer, ⟨shown, ?_, ?_⟩, hlast⟩
        · rw [hwhole, List.append_nil]
        · rw [visibleCount_append, hpageCount]
    have hinit : s.initAround (s.olderOf messageId) (s.newerOf messageId) =
        ((boundsOf (older.reverse ++ shown)).withNewerPendings (messagesOf pend),
          older.reverse ++ shown ++ messagesOf pend) := by
      rw [initAround, holder, hshown, if_pos hshort, hpend, boundsOf]
    rw [hinit]
    refine ⟨_, shows_around hmessages (by rw [hwhole, List.append_nil]) hsome hrest
      (fun hne => absurd rfl hne) hend, ?_⟩
    exact List.Perm.refl _
  · -- a full page from the centre on
    have hfull : shown = front ++ [x] := hshown.symm.trans hpage
    have hcentre : s.newerOf messageId = shown ++ rest := by
      rw [hread, hfull, List.append_assoc]
      rfl
    have hvisible : visibleCount shown = preloadCount := by
      rw [visibleCount, hfull]
      omega
    have hend : NewerEnd s messageId
        ⟨before.reverse, older.reverse ++ shown, rest, [], [], s.pendings⟩ := by
      right
      refine ⟨hnewer, ⟨shown, hcentre, ?_⟩, fun _ h => by cases h⟩
      rw [visibleCount_append, hvisible]
      exact Nat.dvd_add (dvd_refl _) (dvd_zero _)
    have hinit : s.initAround (s.olderOf messageId) (s.newerOf messageId) =
        (boundsOf (older.reverse ++ shown), older.reverse ++ shown) := by
      rw [initAround, holder, hshown, if_neg (by omega), boundsOf]
    rw [hinit]
    refine ⟨_, shows_around hmessages hcentre hsome rfl (fun _ => rfl) hend, ?_⟩
    rw [Window.content]
    exact List.Perm.of_eq (List.append_nil _)

end Init

theorem shows_getInitMessages (hp : s.Pageable messageId) :
    ∃ w, Shows (s.getInitMessages messageId).1 messageId w ∧
      w.content.Perm (s.getInitMessages messageId).2 := by
  rw [getInitMessages]
  by_cases hnewer : s.newerOf messageId = []
  · obtain ⟨w, hshows, hperm⟩ := shows_initAtBottom hp hnewer
    rw [hnewer]
    exact ⟨w, hshows, hperm.trans (List.perm_insertionSort _ _).symm⟩
  · obtain ⟨w, hshows, hperm⟩ := shows_initAround hnewer
    rw [if_neg (by rwa [List.isEmpty_iff])]
    exact ⟨w, hshows, hperm.trans (List.perm_insertionSort _ _).symm⟩

/-- The stores stay, so a history that can be read stays one. -/
theorem Pageable.fetchBuddies (hp : s.Pageable messageId) (direction : FetchDirection) :
    (s.fetchBuddies direction).1.Pageable messageId := ⟨hp.initShows, hp.older, hp.newer⟩

theorem Shows.fetchBuddies (h : s.Shows messageId w) (hp : s.Pageable messageId)
    (direction : FetchDirection) :
    ∃ w', Shows (s.fetchBuddies direction).1 messageId w' ∧
      w'.content.Perm (w.content ++ (s.fetchBuddies direction).2) := by
  cases direction with
  | toOlder =>
    obtain ⟨w', hshows, hperm, -⟩ := h.fetchToOlder hp
    exact ⟨w', hshows, hperm⟩
  | toNewer =>
    obtain ⟨w', hshows, hperm, -⟩ := h.fetchToNewer hp
    exact ⟨w', hshows, hperm⟩

theorem shows_foldl (directions : List FetchDirection) {r : History × List MessageBuddy}
    (hp : r.1.Pageable messageId) (h : ∃ w, r.1.Shows messageId w ∧ w.content.Perm r.2) :
    let r' := directions.foldl readPage r
    (r'.1.Pageable messageId ∧ r'.1.timeline = r.1.timeline) ∧
      ∃ w, r'.1.Shows messageId w ∧ w.content.Perm r'.2 := by
  induction directions generalizing r with
  | nil => exact ⟨⟨hp, rfl⟩, h⟩
  | cons direction directions ih =>
    obtain ⟨w, hshows, hperm⟩ := h
    obtain ⟨w', hshows', hperm'⟩ := hshows.fetchBuddies hp direction
    have hread : (readPage r direction).1.Pageable messageId := hp.fetchBuddies direction
    obtain ⟨⟨hpageable, htimeline⟩, hlast⟩ :=
      ih hread ⟨w', hshows', hperm'.trans (hperm.append_right _)⟩
    exact ⟨⟨hpageable, htimeline⟩, hlast⟩

theorem Shows.content_subperm (h : s.Shows messageId w) : w.content.Subperm s.timeline := by
  rw [Window.content, timeline, h.messages, h.pendings, messagesOf_append, messagesOf_append]
  apply List.Sublist.subperm
  apply List.Sublist.append
  · exact (List.sublist_append_right _ _).trans (List.sublist_append_left _ _)
  · exact (List.sublist_append_right _ _).trans (List.sublist_append_left _ _)

theorem Shows.content_all (h : s.Shows messageId w) (hp : s.Pageable messageId)
    (hOlder : (s.fetchBuddies .toOlder).2 = []) (hNewer : (s.fetchBuddies .toNewer).2 = []) :
    w.content = s.timeline := by
  obtain ⟨-, -, -, hold⟩ := h.fetchToOlder hp
  obtain ⟨-, -, -, hnew⟩ := h.fetchToNewer hp
  obtain ⟨hbefore, hpendingBefore⟩ := hold hOlder
  obtain ⟨hafter, hpendingAfter⟩ := hnew hNewer
  rw [Window.content, timeline, h.messages, h.pendings, hbefore, hafter, hpendingBefore,
    hpendingAfter, List.nil_append, List.append_nil, List.nil_append, List.append_nil]

/-- Pending entries in the strict order of the keys of their messages part everywhere. -/
theorem Pageable.of_ordered (hkeys : ∀ x ∈ s.pendings, x.key = x.message.toKey)
    (hordered : s.pendings.Pairwise fun a b =>
      a.key.lessThan b.key ∧ ¬ b.key.lessThan a.key)
    (hshows : s.newerOf messageId = [] → s.messages.items = [] ∨
      preloadCount ≤ visibleCount (messagesOf s.pendings) ∨ 0 < visibleCount s.messages.items) :
    s.Pageable messageId := by
  have hparts : ∀ older x newer, s.pendings = older ++ x :: newer →
      PartsBefore x older (x :: newer) ∧ PartsBehind x (older ++ [x]) newer := by
    intro older x newer hsplit
    rw [hsplit] at hordered
    obtain ⟨-, hnewer, holder⟩ := List.pairwise_append.mp hordered
    have hnewer := (List.pairwise_cons.mp hnewer).1
    have hx : x.message.toKey = x.key := by
      rw [hkeys x]
      rw [hsplit]
      simp
    have hself : ¬ x.key.lessThan x.key := by
      rw [MessageKey.lessThan_irrefl]
      simp
    refine ⟨⟨?_, ?_⟩, ?_, ?_⟩
    · intro y hy
      rw [hx]
      exact (holder y hy x List.mem_cons_self).1
    · intro y hy
      rw [hx]
      rcases List.mem_cons.mp hy with rfl | hy
      · exact hself
      · exact (hnewer y hy).2
    · intro y hy
      rw [hx]
      rcases List.mem_append.mp hy with hy | hy
      · exact (holder y hy x List.mem_cons_self).2
      · rw [List.mem_singleton.mp hy]
        exact hself
    · intro y hy
      rw [hx]
      exact (hnewer y hy).1
  exact ⟨hshows, fun _ older x newer h _ => (hparts older x newer h).1,
    fun _ older x newer h _ => (hparts older x newer h).2⟩

/-- Every message of the history is shown once, whatever the order of the pages. -/
theorem read_once (s : History) (messageId : Option Int) (hp : s.Pageable messageId)
    (directions : List FetchDirection) : s.ReadOnce messageId directions := by
  have hinit : (s.getInitMessages messageId).1.Pageable messageId :=
    ⟨hp.initShows, hp.older, hp.newer⟩
  obtain ⟨⟨hpageable, htimeline⟩, w, hshows, hperm⟩ :=
    shows_foldl directions hinit (shows_getInitMessages hp)
  have hall : (s.readPages messageId directions).1.timeline = s.timeline := htimeline
  refine ⟨?_, ?_⟩
  · rw [← hall]
    exact hperm.symm.subperm.trans hshows.content_subperm
  · intro hOlder hNewer
    have hcontent := hshows.content_all hpageable hOlder hNewer
    rw [← hall]
    exact hperm.symm.trans (List.Perm.of_eq hcontent)

theorem read_once_around : ReadOnce
    { messages := ((∅ : KeyMap MessageBuddy.id).put { id := 1 }).put { id := 2, deleted := true }
      pendings := [({ internalId := [45, 49], pendingId := 1 } : MessageBuddy).withKey] }
    (some 2) [.toOlder, .toNewer] := by
  apply read_once
  apply Pageable.of_ordered
  · intro x hx
    rw [List.mem_singleton.mp hx]
    rfl
  · exact List.pairwise_singleton _ _
  · exact fun _ => Or.inr (Or.inr (by decide))

/-- The one message of the dialog is deleted. -/
theorem deleted_read_again :
    ¬ ReadOnce { messages := (∅ : KeyMap MessageBuddy.id).put { id := 1, deleted := true } }
      none [.toOlder] := by
  intro h
  have hlength := h.1.length_le
  revert hlength
  decide

/-- What is loaded does not depend on the bounds that are set after it. -/
theorem loadToOlder_snd (s : History) (b : ViewBounds) (result : List MessageBuddy) :
    (s.loadToOlder b result).2 =
      result ++ messagesPage (visibleCount result) (s.rangeToOlder b.top).reverse := by
  rw [loadToOlder]
  generalize messagesPage (visibleCount result) (s.rangeToOlder b.top).reverse = loaded
  cases loaded with
  | nil => exact (List.append_nil result).symm
  | cons x loaded =>
    have hlast := List.getLast?_eq_some_getLast (List.cons_ne_nil x loaded)
    simp only [List.head?_cons, hlast]

/-- Where nothing in the dialog is visible the first page sets no bounds, and the page of older
messages is the same page again. -/
theorem invisible_again (s : History) (hpendings : s.pendings = [])
    (hinvisible : visibleCount s.messages.items = 0) :
    (s.readPages none [.toOlder]).2.Perm (s.messages.items ++ s.messages.items) := by
  have hpage : messagesPage 0 s.messages.items.reverse = s.messages.items.reverse := by
    rcases page_cases (·.isVisibleMessage) (show 0 < preloadCount by decide)
      s.messages.items.reverse with ⟨hall, -⟩ | ⟨front, x, rest, -, hread, hx, -⟩
    · exact hall
    · have hmem : x ∈ s.messages.items := by
        rw [← List.mem_reverse, hread]
        simp
      exact absurd hx (List.countP_eq_zero.mp hinvisible x hmem)
  have hnone : visibleCount s.messages.items.reverse = 0 := by
    rw [visibleCount_perm (List.reverse_perm _), hinvisible]
  have hinit : s.initAtBottom = ({}, s.messages.items.reverse) := by
    rw [initAtBottom, hpendings]
    show (if 0 < preloadCount then _ else _) = _
    rw [if_pos (by decide)]
    show (if 0 < visibleCount (messagesPage 0 s.messages.items.reverse) then _ else _,
      messagesPage 0 s.messages.items.reverse) = _
    rw [hpage, hnone]
    rfl
  have hload : (s.loadToOlder {} []).2 = s.messages.items.reverse := by
    rw [loadToOlder_snd, List.nil_append]
    exact hpage
  have hget : s.getInitMessages none =
      ({ s with viewBounds := {} }, sortBuddies s.messages.items.reverse) := by
    rw [getInitMessages, newerOf, List.isEmpty_nil, if_pos rfl, hinit]
  have hfetch : (fetchBuddies { s with viewBounds := {} } .toOlder).2 = s.messages.items.reverse := by
    rw [fetchBuddies, fetchToOlder, hpendings]
    exact hload
  rw [readPages, List.foldl_cons, List.foldl_nil, readPage, hget, hfetch]
  have hreverse := List.reverse_perm s.messages.items
  exact ((List.perm_insertionSort _ _).trans hreverse).append hreverse

end History

end Icq.Gui
