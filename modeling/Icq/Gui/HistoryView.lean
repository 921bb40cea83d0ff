import Icq.Gui.HistoryPendings

/-! The pending bounds of the view while a batch confirms pending messages. -/

namespace Icq.Gui
open Icq.Lib

namespace ViewBounds

variable {P : List MessageWithKey} {b b' : ViewBounds} {key k l : MessageKey} {i j : Int}

@[simp] theorem extend_topPending : (b.extend i j).topPending = b.topPending := rfl

@[simp] theorem extend_bottomPending : (b.extend i j).bottomPending = b.bottomPending := rfl

def within (b : ViewBounds) (key : MessageKey) : Bool :=
  leKey b.topPending key && keyLe key b.bottomPending

def bothEdges (b : ViewBounds) (key : MessageKey) : Bool :=
  keyEq b.topPending key && b.bottomPending.any (key.isEqual ·)

/-- The first entry left that is not above the top edge. -/
def nextTop (P : List MessageWithKey) (b : ViewBounds) : Option MessageKey :=
  (b.topPending.bind (lowerBound P)).map (·.key)

/-- The last entry left that is above the key of the bottom edge. -/
def nextBottom (P : List MessageWithKey) (key : MessageKey) : Option MessageKey :=
  (P.reverse.find? fun x => x.key.lessThan key).map (·.key)

theorem moveBounds_topPending : (History.moveBounds P b key).topPending =
    if P.isEmpty || bothEdges b key then none
    else if keyEq b.topPending key then (nextTop P b).or b.topPending
    else b.topPending := by
  rw [History.moveBounds, nextTop]
  change (if (P.isEmpty || bothEdges b key) = true then _ else _ : ViewBounds).topPending = _
  split
  · rfl
  · split
    · cases b.topPending.bind (lowerBound P) <;> rfl
    · split
      · split <;> rfl
      · rfl

theorem moveBounds_bottomPending : (History.moveBounds P b key).bottomPending =
    if P.isEmpty || bothEdges b key then none
    else if keyEq b.topPending key then b.bottomPending
    else if keyEq b.bottomPending key then (nextBottom P key).or b.bottomPending
    else b.bottomPending := by
  rw [History.moveBounds, nextBottom]
  change (if (P.isEmpty || bothEdges b key) = true then _ else _ : ViewBounds).bottomPending = _
  split
  · rfl
  · split
    · split <;> rfl
    · split
      · cases P.reverse.find? fun x => x.key.lessThan key <;> rfl
      · rfl

/-- What a confirmed key leaves in view: the entries left have a first and a last one in view,
and the other key is not beyond them. -/
def Spares (P : List MessageWithKey) (b : ViewBounds) (key other : MessageKey) : Prop :=
  P ≠ [] ∧ bothEdges b key = false ∧
  (keyEq b.topPending key = true → ∀ t ∈ nextTop P b, t.le other = true) ∧
  (keyEq b.bottomPending key = true → ∀ t ∈ nextBottom P key, other.le t = true)

/-- Keys that a batch confirms: each is pending and has an internal id of its own, which no
entry left has. -/
structure Confirmed (P : List MessageWithKey) (keys : List MessageKey) : Prop where
  pending : ∀ k ∈ keys, k.id = -1
  nodup : (keys.map (·.internalId)).Nodup
  gone : ∀ x ∈ P, ∀ k ∈ keys, x.internalId ≠ k.internalId

/-- The bound stays, or the rest of the batch is past both its old and its new place. -/
def Past (bound₀ bound : Option MessageKey) (keys : List MessageKey) : Prop :=
  bound = bound₀ ∨ ∀ k ∈ keys, keyEq bound k = false ∧ keyEq bound₀ k = false

/-- The bounds that the loop has come to, with the keys that are still to come. -/
def Derived (b₀ b : ViewBounds) (keys : List MessageKey) : Prop :=
  (b.topPending = none ∧ b.bottomPending = none) ∨
  (Past b₀.topPending b.topPending keys ∧ Past b₀.bottomPending b.bottomPending keys)

variable {keys : List MessageKey} {bound₀ bound : Option MessageKey} {b₀ : ViewBounds}

theorem keyEq_bottom (h : k.id = -1) :
    bound.any (k.isEqual ·) = keyEq bound k := by
  cases bound with
  | none => rfl
  | some t => exact MessageKey.isEqual_comm (.inl h)

theorem bothEdges_eq (h : k.id = -1) :
    bothEdges b k = (keyEq b.topPending k && keyEq b.bottomPending k) := by
  rw [bothEdges, keyEq_bottom h]

/-- One bound is the edge of one key only. -/
theorem keyEq_unique (hk : k.id = -1) (hl : l.id = -1) (hne : k.internalId ≠ l.internalId)
    (h : keyEq bound k = true) : keyEq bound l = false := by
  cases bound with
  | none => rfl
  | some t =>
    have hid : t.internalId = k.internalId := ((MessageKey.isEqual_iff (.inr hk)).mp h).2.1
    rw [Bool.eq_false_iff]
    intro h'
    exact hne (hid.symm.trans ((MessageKey.isEqual_iff (.inr hl)).mp h').2.1)

theorem Confirmed.tail (h : Confirmed P (k :: keys)) : Confirmed P keys where
  pending l hl := h.pending l (List.mem_cons_of_mem _ hl)
  nodup := (List.nodup_cons.mp h.nodup).2
  gone x hx l hl := h.gone x hx l (List.mem_cons_of_mem _ hl)

theorem Confirmed.sublist (h : Confirmed P keys) {keys' : List MessageKey} (hsub : keys'.Sublist keys) :
    Confirmed P keys' where
  pending l hl := h.pending l (hsub.subset hl)
  nodup := h.nodup.sublist (hsub.map _)
  gone x hx l hl := h.gone x hx l (hsub.subset hl)

theorem Confirmed.ne (h : Confirmed P (k :: keys)) (hl : l ∈ keys) :
    k.internalId ≠ l.internalId := by
  have hmem : k.internalId ∉ keys.map (·.internalId) := (List.nodup_cons.mp h.nodup).1
  intro heq
  rw [heq] at hmem
  exact hmem (List.mem_map_of_mem hl)

theorem Confirmed.keyEq_tail (h : Confirmed P (k :: keys)) (hk : keyEq bound k = true)
    (hl : l ∈ keys) : keyEq bound l = false :=
  keyEq_unique (h.pending k List.mem_cons_self) (h.tail.pending l hl) (h.ne hl) hk

/-- No entry left is the edge that a key of the batch would move. -/
theorem Confirmed.keyEq_left (h : Confirmed P keys) {x : MessageWithKey} (hx : x ∈ P)
    (hl : l ∈ keys) : keyEq (some x.key) l = false := by
  rw [Bool.eq_false_iff]
  intro h'
  exact h.gone x hx l hl ((MessageKey.isEqual_iff (.inr (h.pending l hl))).mp h').2.1

theorem nextTop_mem {t : MessageKey} (h : t ∈ nextTop P b) : ∃ x ∈ P, x.key = t := by
  rw [nextTop, Option.mem_def, Option.map_eq_some_iff] at h
  obtain ⟨x, hx, rfl⟩ := h
  obtain ⟨top, -, hx⟩ := Option.bind_eq_some_iff.mp hx
  exact ⟨x, List.mem_of_find?_eq_some hx, rfl⟩

theorem nextBottom_mem {t : MessageKey} (h : t ∈ nextBottom P key) : ∃ x ∈ P, x.key = t := by
  rw [nextBottom, Option.mem_def, Option.map_eq_some_iff] at h
  obtain ⟨x, hx, rfl⟩ := h
  exact ⟨x, List.mem_reverse.mp (List.mem_of_find?_eq_some hx), rfl⟩

theorem Past.keyEq (h : Past bound₀ bound (k :: keys)) : keyEq bound k = keyEq bound₀ k := by
  rcases h with rfl | h
  · rfl
  · rw [(h k List.mem_cons_self).1, (h k List.mem_cons_self).2]

theorem Past.eq_of_edge (h : Past bound₀ bound (k :: keys)) (hk : Icq.Gui.keyEq bound₀ k = true) :
    bound = bound₀ := by
  rcases h with h | h
  · exact h
  · exact absurd hk (by rw [(h k List.mem_cons_self).2]; exact Bool.false_ne_true)

theorem Past.tail (h : Past bound₀ bound (k :: keys)) : Past bound₀ bound keys :=
  h.imp id fun h l hl => h l (List.mem_cons_of_mem _ hl)

/-- A bound that moves from the edge `k` to an entry left is past the rest. -/
theorem Past.moved (hc : Confirmed P (k :: keys)) (hk : Icq.Gui.keyEq bound₀ k = true)
    {next : Option MessageKey} (hnext : ∀ t ∈ next, ∃ x ∈ P, x.key = t) :
    Past bound₀ (next.or bound₀) keys := by
  cases next with
  | none => exact .inl rfl
  | some t =>
    obtain ⟨x, hx, rfl⟩ := hnext t rfl
    exact .inr fun l hl => ⟨hc.tail.keyEq_left hx hl, hc.keyEq_tail hk hl⟩

theorem Past.keyEq_tail (hc : Confirmed P (k :: keys))
    (hk : Icq.Gui.keyEq bound₀ k = true) (h : Past bound₀ bound keys) : ∀ l ∈ keys, Icq.Gui.keyEq bound l = false := by
  intro l hl
  rcases h with rfl | h
  · exact hc.keyEq_tail hk hl
  · exact (h l hl).1

/-- What the key `k` of the batch does to bounds that it is within. -/
theorem Derived.move (hc : Confirmed P (k :: keys)) (h : Derived b₀ b (k :: keys)) :
    Derived b₀ (History.moveBounds P b k) keys := by
  rcases h with h | ⟨htop, hbottom⟩
  · refine .inl ⟨?_, ?_⟩
    · rw [moveBounds_topPending, h.1]
      cases P.isEmpty || bothEdges b k <;> rfl
    · rw [moveBounds_bottomPending, h.1, h.2]
      cases P.isEmpty || bothEdges b k <;> rfl
  · by_cases hcleared : (P.isEmpty || bothEdges b k) = true
    · refine .inl ⟨?_, ?_⟩
      · rw [moveBounds_topPending, if_pos hcleared]
      · rw [moveBounds_bottomPending, if_pos hcleared]
    · refine .inr ⟨?_, ?_⟩
      · rw [moveBounds_topPending, if_neg hcleared]
        split
        · rename_i hedge
          have hedge₀ := htop.keyEq ▸ hedge
          rw [htop.eq_of_edge hedge₀]
          exact .moved hc hedge₀ fun t => nextTop_mem
        · exact htop.tail
      · rw [moveBounds_bottomPending, if_neg hcleared]
        split
        · exact hbottom.tail
        · split
          · rename_i hedge
            have hedge₀ := hbottom.keyEq ▸ hedge
            rw [hbottom.eq_of_edge hedge₀]
            exact .moved hc hedge₀ fun t => nextBottom_mem
          · exact hbottom.tail

theorem Derived.tail (h : Derived b₀ b (k :: keys)) : Derived b₀ b keys :=
  h.imp id fun h => ⟨h.1.tail, h.2.tail⟩

theorem within_none (h : b.bottomPending = none) : within b key = false := by
  rw [within, h]
  exact Bool.and_false _

/-- The other key stays in view when it was, and the confirmed key spares it. -/
theorem within_move (hc : Confirmed P (k :: keys)) (h : Derived b₀ b (k :: keys))
    (hk : within b k = true) (hl₀ : within b₀ l = true) :
    within (History.moveBounds P b k) l = true ↔ within b l = true ∧ Spares P b₀ k l := by
  have hid := hc.pending k List.mem_cons_self
  rcases h with h | ⟨htop, hbottom⟩
  · rw [within_none h.2] at hk
    cases hk
  · have hboth : bothEdges b k = bothEdges b₀ k := by
      rw [bothEdges_eq hid, bothEdges_eq hid, htop.keyEq, hbottom.keyEq]
    obtain ⟨htop₀, hbottom₀⟩ := (Bool.and_eq_true _ _).mp hl₀
    rw [Spares, ← hboth]
    by_cases hcleared : (P.isEmpty || bothEdges b k) = true
    · rw [within_none (by rw [moveBounds_bottomPending, if_pos hcleared])]
      refine iff_of_false Bool.false_ne_true fun h' => ?_
      rw [Bool.or_eq_true, List.isEmpty_iff, h'.2.2.1] at hcleared
      exact hcleared.elim h'.2.1 Bool.false_ne_true
    · rw [Bool.or_eq_true, not_or, List.isEmpty_iff, Bool.not_eq_true] at hcleared
      rw [within, moveBounds_topPending, moveBounds_bottomPending]
      simp only [hcleared.2, ne_eq, hcleared.1, not_false_eq_true, true_and,
        List.isEmpty_eq_false_iff.mpr hcleared.1, Bool.or_self, Bool.false_eq_true, if_false]
      by_cases hT : keyEq b₀.topPending k = true
      · have hB : keyEq b₀.bottomPending k = false := by
          have := hcleared.2
          rw [hboth, bothEdges_eq hid, hT, Bool.true_and] at this
          exact this
        rw [htop.keyEq, htop.eq_of_edge hT, hT, hB]
        have hnext : nextTop P b = nextTop P b₀ := by
          rw [nextTop, nextTop, htop.eq_of_edge hT]
        rw [hnext, within, htop.eq_of_edge hT]
        cases nextTop P b₀ with
        | none => simp
        | some t =>
          simp [leKey]
          tauto
      · rw [Bool.not_eq_true] at hT
        rw [htop.keyEq, hT, hbottom.keyEq]
        by_cases hB : keyEq b₀.bottomPending k = true
        · rw [hbottom.eq_of_edge hB, hB, within, hbottom.eq_of_edge hB]
          cases nextBottom P k with
          | none => simp
          | some t =>
            simp [keyLe]
            tauto
        · rw [Bool.not_eq_true] at hB
          rw [hB, within]
          simp

@[simp] theorem within_extend : within (b.extend i j) key = within b key := rfl

theorem Derived.extend (h : Derived b₀ b keys) : Derived b₀ (b.extend i j) keys := h

end ViewBounds

def MessageBuddy.pendingKey (m : MessageBuddy) : MessageKey := m.toKey.toPurePending

section Loop

open ViewBounds History

variable {P : List MessageWithKey} {b b₀ : ViewBounds} {m : MessageBuddy} {R : List MessageBuddy}

/-- The bounds after one message of the loop. -/
def boundsStep (P : List MessageWithKey) (b : ViewBounds) (m : MessageBuddy) : ViewBounds :=
  if within b m.pendingKey then (moveBounds P b m.pendingKey).extend m.id m.id else b

theorem resolveInView_foldl (seen : List MessageBuddy) :
    R.foldl (resolveInView P) (b, seen) = ((R.foldl (resolveInView P) (b, [])).1,
      seen ++ (R.foldl (resolveInView P) (b, [])).2) := by
  induction R generalizing b seen with
  | nil => simp
  | cons m R ih =>
    rw [List.foldl_cons, List.foldl_cons, resolveInView, resolveInView]
    split
    · rw [ih, ih ([] ++ [m])]
      simp
    · exact ih seen

theorem resolveInView_cons : (m :: R).foldl (resolveInView P) (b, []) =
    ((R.foldl (resolveInView P) (boundsStep P b m, [])).1,
      (if within b m.pendingKey then [m] else []) ++
        (R.foldl (resolveInView P) (boundsStep P b m, [])).2) := by
  rw [List.foldl_cons, resolveInView, boundsStep]
  change R.foldl _ (if within b m.pendingKey = true then _ else _) = _
  split
  · rename_i h
    rw [resolveInView_foldl]
    rfl
  · rfl

theorem inView_sublist : (R.foldl (resolveInView P) (b, [])).2.Sublist R := by
  induction R generalizing b with
  | nil => exact List.Sublist.refl _
  | cons m R ih =>
    rw [resolveInView_cons]
    dsimp only
    split
    · exact (ih).cons_cons m
    · exact (ih).cons m

/-- The confirmed messages whose pending key is within the bounds. -/
def withinBounds (b₀ : ViewBounds) (R : List MessageBuddy) : List MessageBuddy :=
  R.filter fun m => within b₀ m.pendingKey

theorem withinBounds_cons_pos (h : within b₀ m.pendingKey = true) :
    withinBounds b₀ (m :: R) = m :: withinBounds b₀ R := by
  rw [withinBounds, List.filter_cons, if_pos h, withinBounds]

theorem withinBounds_cons_neg (h : within b₀ m.pendingKey = false) :
    withinBounds b₀ (m :: R) = withinBounds b₀ R := by
  rw [withinBounds, List.filter_cons, h, if_neg Bool.false_ne_true, withinBounds]

/-- The keys at the edges lie within the bounds, as they do in every weak order. -/
def EdgesWithin (b₀ : ViewBounds) (R : List MessageBuddy) : Prop :=
  ∀ m ∈ R, keyEq b₀.topPending m.pendingKey = true ∨ keyEq b₀.bottomPending m.pendingKey = true →
    within b₀ m.pendingKey = true

/-- A message that was not within the first bounds does not move them. -/
theorem boundsStep_pending (h : Derived b₀ b ((m :: R).map (·.pendingKey)))
    (hempty : P = [] → within b m.pendingKey = true → within b₀ m.pendingKey = true)
    (hedges : EdgesWithin b₀ (m :: R)) (hout : within b₀ m.pendingKey = false) :
    (boundsStep P b m).topPending = b.topPending ∧
    (boundsStep P b m).bottomPending = b.bottomPending := by
  rw [boundsStep]
  split
  · rename_i hin
    rcases h with h | ⟨htop, hbottom⟩
    · rw [within_none h.2] at hin
      cases hin
    · have hnot := mt (hedges m List.mem_cons_self) (by rw [hout]; exact Bool.false_ne_true)
      rw [not_or, Bool.not_eq_true, Bool.not_eq_true] at hnot
      have hT := htop.keyEq.trans hnot.1
      have hB := hbottom.keyEq.trans hnot.2
      have hP : P.isEmpty = false := by
        rw [List.isEmpty_eq_false_iff]
        intro hP
        rw [hempty hP hin] at hout
        cases hout
      have hboth : bothEdges b m.pendingKey = false := by
        rw [bothEdges, hT, Bool.false_and]
      rw [extend_topPending, extend_bottomPending, moveBounds_topPending, moveBounds_bottomPending,
        hP, hboth, hT, hB]
      exact ⟨rfl, rfl⟩
  · exact ⟨rfl, rfl⟩

/-- Every message within the first bounds is found in view exactly when each spares the later
ones, and they are within the bounds that the loop has come to. -/
theorem inView_iff (hc : Confirmed P (R.map (·.pendingKey)))
    (h : Derived b₀ b (R.map (·.pendingKey)))
    (hempty : P = [] → ∀ m ∈ R, within b m.pendingKey = true → within b₀ m.pendingKey = true)
    (hedges : EdgesWithin b₀ R) :
    (∀ m ∈ withinBounds b₀ R, m ∈ (R.foldl (resolveInView P) (b, [])).2) ↔
      (withinBounds b₀ R).Pairwise (fun m l => Spares P b₀ m.pendingKey l.pendingKey) ∧
      ∀ m ∈ withinBounds b₀ R, within b m.pendingKey = true := by
  induction R generalizing b with
  | nil => simp [withinBounds]
  | cons m R ih =>
    have hnotin : m ∉ R := by
      intro hmem
      exact hc.ne (List.mem_map_of_mem hmem) rfl
    have hnotseen : m ∉ (R.foldl (resolveInView P) (boundsStep P b m, [])).2 :=
      fun hmem => hnotin (inView_sublist.subset hmem)
    have hne : ∀ l ∈ withinBounds b₀ R, l ≠ m := by
      rintro l hl rfl
      exact hnotin (List.mem_filter.mp hl).1
    have hedges' : EdgesWithin b₀ R := fun l hl => hedges l (List.mem_cons_of_mem _ hl)
    rw [resolveInView_cons]
    dsimp only
    by_cases hin₀ : within b₀ m.pendingKey = true
    · rw [withinBounds_cons_pos hin₀, List.pairwise_cons]
      by_cases hin : within b m.pendingKey = true
      · have hstep : boundsStep P b m = (moveBounds P b m.pendingKey).extend m.id m.id := if_pos hin
        have hmove : ∀ l ∈ withinBounds b₀ R, within (boundsStep P b m) l.pendingKey = true ↔
            within b l.pendingKey = true ∧ Spares P b₀ m.pendingKey l.pendingKey := by
          intro l hl
          rw [hstep, within_extend]
          exact within_move hc h hin (List.mem_filter.mp hl).2
        have hih := ih (b := boundsStep P b m) hc.tail (hstep ▸ (h.move hc).extend) (by
          intro hP l hl hwithin
          rw [hstep, within_extend, within_none] at hwithin
          · cases hwithin
          · rw [moveBounds_bottomPending, hP]
            rfl) hedges'
        rw [if_pos hin, List.singleton_append, List.forall_mem_cons, List.forall_mem_cons]
        have hsame : (∀ l ∈ withinBounds b₀ R,
            l ∈ m :: (R.foldl (resolveInView P) (boundsStep P b m, [])).2) ↔
            ∀ l ∈ withinBounds b₀ R, l ∈ (R.foldl (resolveInView P) (boundsStep P b m, [])).2 := by
          refine forall₂_congr fun l hl => ?_
          rw [List.mem_cons]
          exact or_iff_right (hne l hl)
        rw [hsame, hih]
        constructor
        · intro ⟨_, hpair, hwithin⟩
          exact ⟨⟨fun l hl => ((hmove l hl).mp (hwithin l hl)).2, hpair⟩, hin,
            fun l hl => ((hmove l hl).mp (hwithin l hl)).1⟩
        · intro ⟨⟨hspares, hpair⟩, _, hwithin⟩
          exact ⟨List.mem_cons_self, hpair, fun l hl => (hmove l hl).mpr ⟨hwithin l hl, hspares l hl⟩⟩
      · rw [if_neg hin, List.nil_append]
        refine iff_of_false (fun h' => hnotseen (h' m List.mem_cons_self)) fun h' => ?_
        exact hin (h'.2 m List.mem_cons_self)
    · rw [Bool.not_eq_true] at hin₀
      rw [withinBounds_cons_neg hin₀]
      obtain ⟨htop, hbottom⟩ :=
        boundsStep_pending h (fun hP => hempty hP m List.mem_cons_self) hedges hin₀
      have hwithin : ∀ key, within (boundsStep P b m) key = within b key := by
        intro key
        rw [within, within, htop, hbottom]
      have hd : Derived b₀ (boundsStep P b m) (R.map (·.pendingKey)) := by
        rw [Derived, htop, hbottom]
        exact h.tail
      have hih := ih (b := boundsStep P b m) hc.tail hd (by
        intro hP l hl hl'
        rw [hwithin] at hl'
        exact hempty hP l (List.mem_cons_of_mem _ hl) hl') hedges'
      simp only [hwithin] at hih
      rw [← hih]
      refine forall₂_congr fun l hl => ?_
      rw [List.mem_append]
      refine or_iff_right fun h' => ?_
      split at h'
      · exact hne l hl (List.mem_singleton.mp h')
      · exact List.not_mem_nil h'

section After

/-- No pending message in view is left, or only the one message at both edges was in view. -/
def isCleared (P : List MessageWithKey) (b : ViewBounds) (keys : List MessageKey) : Bool :=
  (P.isEmpty && !keys.isEmpty) || keys.any (bothEdges b)

/-- The top edge behind the key that was at it. -/
def topAfter (P : List MessageWithKey) (b : ViewBounds) (keys : List MessageKey) :
    Option MessageKey :=
  if keys.any (keyEq b.topPending) then (nextTop P b).or b.topPending else b.topPending

def bottomAfter (P : List MessageWithKey) (b : ViewBounds) (keys : List MessageKey) :
    Option MessageKey :=
  match keys.find? (keyEq b.bottomPending) with
  | some key => (nextBottom P key).or b.bottomPending
  | none => b.bottomPending

/-- The bounds when all the keys are confirmed, but for the ids. -/
def boundsAfter (P : List MessageWithKey) (b : ViewBounds) (keys : List MessageKey) :
    Option MessageKey × Option MessageKey :=
  if isCleared P b keys then (none, none) else (topAfter P b keys, bottomAfter P b keys)

variable {b' : ViewBounds} {k : MessageKey} {keys : List MessageKey}

theorem boundsAfter_congr (htop : b'.topPending = b.topPending)
    (hbottom : b'.bottomPending = b.bottomPending) : boundsAfter P b' keys = boundsAfter P b keys := by
  have hboth : bothEdges b' = bothEdges b := by
    funext key
    rw [bothEdges, bothEdges, htop, hbottom]
  rw [boundsAfter, boundsAfter, isCleared, isCleared, topAfter, topAfter, bottomAfter, bottomAfter,
    nextTop, nextTop, htop, hbottom, hboth]

theorem boundsAfter_none (htop : b.topPending = none) (hbottom : b.bottomPending = none) :
    boundsAfter P b keys = (none, none) := by
  have hno : keys.find? (keyEq none) = none := List.find?_eq_none.mpr fun _ _ => Bool.false_ne_true
  rw [boundsAfter, topAfter, bottomAfter, nextTop, htop, hbottom, hno]
  split
  · rfl
  · split <;> rfl

theorem boundsAfter_past (hP : P.isEmpty = false)
    (hboth : ∀ l ∈ keys, bothEdges b l = false) :
    boundsAfter P b keys = (topAfter P b keys, bottomAfter P b keys) := by
  have hany : keys.any (bothEdges b) = false := by
    rw [List.any_eq_false]
    intro l hl
    rw [hboth l hl]
    exact Bool.false_ne_true
  rw [boundsAfter, isCleared, hP, hany]
  rfl

theorem topAfter_past (h : ∀ l ∈ keys, keyEq b.topPending l = false) :
    topAfter P b keys = b.topPending := by
  rw [topAfter, if_neg]
  rw [List.any_eq_true]
  intro ⟨l, hl, heq⟩
  rw [h l hl] at heq
  cases heq

theorem bottomAfter_past (h : ∀ l ∈ keys, keyEq b.bottomPending l = false) :
    bottomAfter P b keys = b.bottomPending := by
  rw [bottomAfter, List.find?_eq_none.mpr]
  intro l hl
  rw [h l hl]
  exact Bool.false_ne_true

/-- One step of the loop, on the closed form. -/
theorem boundsAfter_move (hc : Confirmed P (k :: keys)) :
    boundsAfter P (moveBounds P b k) keys = boundsAfter P b (k :: keys) := by
  have hid := hc.pending k List.mem_cons_self
  have hids : ∀ l ∈ keys, l.id = -1 := hc.tail.pending
  have htop := @moveBounds_topPending P b k
  have hbottom := @moveBounds_bottomPending P b k
  by_cases hcleared : (P.isEmpty || bothEdges b k) = true
  · rw [if_pos hcleared] at htop hbottom
    rw [boundsAfter_none htop hbottom, boundsAfter, isCleared, if_pos]
    rw [List.any_cons]
    rcases (Bool.or_eq_true _ _).mp hcleared with h | h
    · rw [h]
      rfl
    · rw [h, Bool.true_or, Bool.or_true]
  · rw [if_neg hcleared] at htop hbottom
    rw [Bool.or_eq_true, not_or, Bool.not_eq_true, Bool.not_eq_true] at hcleared
    obtain ⟨hP, hboth⟩ := hcleared
    by_cases hT : keyEq b.topPending k = true
    · have hB : keyEq b.bottomPending k = false := by
        rw [bothEdges_eq hid, hT, Bool.true_and] at hboth
        exact hboth
      rw [if_pos hT] at htop hbottom
      have hpast : ∀ l ∈ keys, keyEq (moveBounds P b k).topPending l = false := by
        rw [htop]
        exact Past.keyEq_tail hc hT (.moved hc hT fun t => nextTop_mem)
      rw [boundsAfter_past hP, boundsAfter_past hP, topAfter_past hpast, htop, topAfter, bottomAfter,
        bottomAfter, hbottom, if_pos, List.find?_cons_of_neg]
      · rw [hB]
        exact Bool.false_ne_true
      · rw [List.any_cons, hT, Bool.true_or]
      · intro l hl
        rcases List.mem_cons.mp hl with rfl | hl
        · exact hboth
        · rw [bothEdges, hc.keyEq_tail hT hl, Bool.false_and]
      · intro l hl
        rw [bothEdges, hpast l hl, Bool.false_and]
    · rw [if_neg hT] at htop hbottom
      rw [Bool.not_eq_true] at hT
      by_cases hB : keyEq b.bottomPending k = true
      · rw [if_pos hB] at hbottom
        have hpast : ∀ l ∈ keys, keyEq (moveBounds P b k).bottomPending l = false := by
          rw [hbottom]
          exact Past.keyEq_tail hc hB (.moved hc hB fun t => nextBottom_mem)
        rw [boundsAfter_past hP, boundsAfter_past hP, bottomAfter_past hpast, hbottom, topAfter,
          topAfter, bottomAfter, nextTop, htop, List.any_cons, hT, Bool.false_or,
          List.find?_cons_of_pos hB, ← nextTop]
        · intro l hl
          rcases List.mem_cons.mp hl with rfl | hl
          · exact hboth
          · rw [bothEdges_eq (hids l hl), hc.keyEq_tail hB hl, Bool.and_false]
        · intro l hl
          rw [bothEdges_eq (hids l hl), hpast l hl, Bool.and_false]
      · rw [if_neg hB] at hbottom
        rw [boundsAfter_congr htop hbottom, boundsAfter, boundsAfter, isCleared, isCleared, topAfter,
          topAfter, bottomAfter, bottomAfter, hP, List.any_cons, List.any_cons, hboth, hT,
          List.find?_cons_of_neg hB]
        rfl

/-- Where the loop leaves the pending bounds when it finds every message in view. -/
theorem foldl_pending (hc : Confirmed P (R.map (·.pendingKey)))
    (h : Derived b₀ b (R.map (·.pendingKey)))
    (hempty : P = [] → ∀ m ∈ R, within b m.pendingKey = true → within b₀ m.pendingKey = true)
    (hedges : EdgesWithin b₀ R)
    (hall : ∀ m ∈ withinBounds b₀ R, m ∈ (R.foldl (resolveInView P) (b, [])).2) :
    ((R.foldl (resolveInView P) (b, [])).1.topPending,
      (R.foldl (resolveInView P) (b, [])).1.bottomPending) =
      boundsAfter P b ((withinBounds b₀ R).map (·.pendingKey)) := by
  induction R generalizing b with
  | nil =>
    simp [withinBounds, boundsAfter, isCleared, topAfter, bottomAfter]
  | cons m R ih =>
    have hnotin : m ∉ R := fun hmem => hc.ne (List.mem_map_of_mem hmem) rfl
    have hedges' : EdgesWithin b₀ R := fun l hl => hedges l (List.mem_cons_of_mem _ hl)
    rw [resolveInView_cons] at hall ⊢
    dsimp only at hall ⊢
    have hall' : ∀ l ∈ withinBounds b₀ R, l ∈ (R.foldl (resolveInView P) (boundsStep P b m, [])).2 := by
      intro l hl
      have hlR := (List.mem_filter.mp hl).1
      have hmem := hall l (List.mem_filter.mpr
        ⟨List.mem_cons_of_mem _ hlR, (List.mem_filter.mp hl).2⟩)
      refine (List.mem_append.mp hmem).resolve_left fun h' => ?_
      split at h'
      · exact hnotin (List.mem_singleton.mp h' ▸ hlR)
      · exact List.not_mem_nil h'
    by_cases hin₀ : within b₀ m.pendingKey = true
    · have hin : within b m.pendingKey = true := by
        by_contra hin
        have hmem := hall m (List.mem_filter.mpr ⟨List.mem_cons_self, hin₀⟩)
        rw [if_neg hin, List.nil_append] at hmem
        exact hnotin (inView_sublist.subset hmem)
      have hstep : boundsStep P b m = (moveBounds P b m.pendingKey).extend m.id m.id := if_pos hin
      have hih := ih (b := boundsStep P b m) hc.tail (hstep ▸ (h.move hc).extend) (by
        intro hP l hl hwithin
        rw [hstep, within_extend, within_none] at hwithin
        · cases hwithin
        · rw [moveBounds_bottomPending, hP]
          rfl) hedges' hall'
      rw [hih, withinBounds_cons_pos hin₀, List.map_cons, hstep, boundsAfter_congr (extend_topPending)
        (extend_bottomPending)]
      apply boundsAfter_move
      apply hc.sublist
      rw [List.map_cons]
      exact (List.filter_sublist.map _).cons_cons _
    · rw [Bool.not_eq_true] at hin₀
      obtain ⟨htop, hbottom⟩ :=
        boundsStep_pending h (fun hP => hempty hP m List.mem_cons_self) hedges hin₀
      have hd : Derived b₀ (boundsStep P b m) (R.map (·.pendingKey)) := by
        rw [Derived, htop, hbottom]
        exact h.tail
      have hih := ih (b := boundsStep P b m) hc.tail hd (by
        intro hP l hl hl'
        rw [within, htop, hbottom] at hl'
        exact hempty hP l (List.mem_cons_of_mem _ hl) hl') hedges' hall'
      rw [hih, withinBounds_cons_neg hin₀]
      exact boundsAfter_congr htop hbottom

end After

end Loop

end Icq.Gui
