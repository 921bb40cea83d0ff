import Icq.Archive.Holes
import Icq.Lib.KeyMapRange
import Mathlib.Data.List.Chain

/-! Which hole the search for the next one finds. -/

namespace Icq.Archive
open Icq.Lib ArchiveIndex

def visible (h : MessageHeader) : Bool := !hidden h

/-- The visible headers up to an id, the newest first. -/
def visibleFrom (s : ArchiveIndex) (fromId : Int64) : List MessageHeader :=
  (s.headersIndex.items.filter fun h => decide (fromId = -1 ∨ h.id ≤ fromId)).reverse.filter visible

/-- The first `n` headers name those that follow them. -/
def FirstLinks (n : Nat) (v : List MessageHeader) : Prop :=
  (v.take (n + 1)).IsChain fun a b => a.prevId = b.id

/-- After how many links the search stops: it follows at least one. -/
def stopDepth (depth : Int64) : Nat := max 1 depth.toInt.toNat

/-- What a search answers that has passed `passed` headers already. -/
structure HoleAnswer (passed : Nat) (depth : Int64) (hole : ArchiveHole) (v : List MessageHeader)
    (answer : ArchiveHoleError × ArchiveHole) : Prop where
  empty : v = [] → answer = (.ok, hole)
  broken : ∀ front a b rest, v = front ++ a :: b :: rest → FirstLinks front.length v →
    a.prevId ≠ b.id → (depth = -1 ∨ passed + front.length < stopDepth depth) →
    answer = (.ok, { fromId := a.id, toId := b.id, depth := Int64.ofNat (passed + front.length + 1) })
  stopped : depth ≠ -1 → stopDepth depth < passed + v.length →
    FirstLinks (stopDepth depth - passed) v → answer = (.depthReached, hole)
  finished : ∀ front a, v = front ++ [a] → FirstLinks front.length v →
    (depth = -1 ∨ passed + front.length < stopDepth depth) →
    answer = if a.prevId = -1 then (.lastReached, hole) else (.ok, { hole with fromId := a.id })

variable {a b : MessageHeader} {v rest range : List MessageHeader} {n passed : Nat} {depth : Int64}
  {hole : ArchiveHole}

theorem firstLinks_cons : FirstLinks (n + 1) (a :: b :: rest) ↔ a.prevId = b.id ∧ FirstLinks n (b :: rest) := by
  rw [FirstLinks, FirstLinks, List.take_succ_cons, List.take_succ_cons, List.isChain_cons_cons]

theorem filter_skip (range : List MessageHeader) :
    (skipPatchesAndDeletedForward range).filter visible = range.filter visible := by
  induction range with
  | nil => rfl
  | cons h range ih =>
    cases hh : hidden h with
    | true => simpa [skipPatchesAndDeletedForward, hh, visible] using ih
    | false => simp [skipPatchesAndDeletedForward, hh]

namespace HoleAnswer

/-- Behind the last header nothing follows. -/
theorem last (hpassed : depth ≠ -1 → passed < stopDepth depth) : HoleAnswer passed depth hole [a]
    (if a.prevId != -1 then (.ok, { hole with fromId := a.id }) else (.lastReached, hole)) := by
  refine ⟨fun h => (List.cons_ne_nil _ _ h).elim, fun front x y rest h => ?_, fun hne hlt _ => ?_,
    fun front x h _ _ => ?_⟩
  · have hlength := congrArg List.length h
    simp only [List.length_cons, List.length_nil, List.length_append] at hlength
    omega
  · have := hpassed hne
    rw [List.length_singleton] at hlt
    omega
  · cases front with
    | nil =>
      obtain rfl := List.singleton_inj.mp h
      by_cases hp : a.prevId = -1
      · simp [hp]
      · simp [hp]
    | cons y front =>
      have hlength := congrArg List.length h
      simp only [List.length_cons, List.length_nil, List.length_append] at hlength
      omega

theorem broken_link (hne : a.prevId ≠ b.id) (hpassed : depth ≠ -1 → passed < stopDepth depth) :
    HoleAnswer passed depth hole (a :: b :: rest)
      (.ok, { fromId := a.id, toId := b.id, depth := Int64.ofNat (passed + 1) }) := by
  refine ⟨fun h => (List.cons_ne_nil _ _ h).elim, fun front x y rest' h hlinks _ _ => ?_,
    fun hdepth _ hlinks => ?_, fun front x h hlinks _ => ?_⟩
  · cases front with
    | nil =>
      cases h
      rfl
    | cons z front =>
      rw [List.length_cons, firstLinks_cons] at hlinks
      exact absurd hlinks.1 hne
  · have hstop := hpassed hdepth
    obtain ⟨n, hn⟩ : ∃ n, stopDepth depth - passed = n + 1 := ⟨stopDepth depth - passed - 1, by omega⟩
    rw [hn, firstLinks_cons] at hlinks
    exact absurd hlinks.1 hne
  · cases front with
    | nil => cases h
    | cons z front =>
      rw [List.length_cons, firstLinks_cons] at hlinks
      exact absurd hlinks.1 hne

/-- The search stops at a link that holds. -/
theorem stopped_link (hlink : a.prevId = b.id) (hdepth : depth ≠ -1)
    (hstop : stopDepth depth = passed + 1) :
    HoleAnswer passed depth hole (a :: b :: rest) (.depthReached, hole) := by
  refine ⟨fun h => (List.cons_ne_nil _ _ h).elim, fun front x y rest' h _ hne hlt => ?_,
    fun _ _ _ => rfl, fun front x h _ hlt => ?_⟩
  · cases front with
    | nil =>
      cases h
      exact absurd hlink hne
    | cons z front =>
      have := hlt.resolve_left hdepth
      rw [List.length_cons] at this
      omega
  · cases front with
    | nil => cases h
    | cons z front =>
      have := hlt.resolve_left hdepth
      rw [List.length_cons] at this
      omega

/-- The search goes on behind a link that holds. -/
theorem next_link {answer : ArchiveHoleError × ArchiveHole} (hlink : a.prevId = b.id)
    (hpassed : depth ≠ -1 → passed + 1 < stopDepth depth)
    (h : HoleAnswer (passed + 1) depth hole (b :: rest) answer) :
    HoleAnswer passed depth hole (a :: b :: rest) answer := by
  refine ⟨fun h => (List.cons_ne_nil _ _ h).elim, fun front x y rest' hv hlinks hne hlt => ?_,
    fun hdepth hlt hlinks => ?_, fun front x hv hlinks hlt => ?_⟩
  · cases front with
    | nil =>
      cases hv
      exact absurd hlink hne
    | cons z front =>
      obtain ⟨rfl, hv'⟩ := List.cons.inj hv
      rw [List.length_cons] at hlinks hlt ⊢
      rw [h.broken front x y rest' hv' (firstLinks_cons.mp hlinks).2 hne (hlt.imp_right (by omega)),
        Nat.add_right_comm passed, Nat.add_assoc passed]
  · refine h.stopped hdepth (by rw [List.length_cons] at hlt; omega) ?_
    have hn : stopDepth depth - passed = stopDepth depth - (passed + 1) + 1 := by
      have := hpassed hdepth
      omega
    rw [hn] at hlinks
    exact (firstLinks_cons.mp hlinks).2
  · cases front with
    | nil => cases hv
    | cons z front =>
      obtain ⟨rfl, hv'⟩ := List.cons.inj hv
      rw [List.length_cons] at hlinks hlt
      exact h.finished front x hv' (firstLinks_cons.mp hlinks).2 (hlt.imp_right (by omega))

end HoleAnswer

theorem stops_iff (hsmall : passed + 1 < 2 ^ 63)
    (hpassed : passed < stopDepth depth) :
    depth ≤ Int64.ofNat (passed + 1) ↔ stopDepth depth = passed + 1 := by
  rw [Int64.le_iff_toInt_le, Int64.toInt_ofNat_of_lt hsmall, stopDepth]
  rw [stopDepth] at hpassed
  omega

/-- The walk from a visible header down. -/
theorem findHole_answer {fuel : Nat} {below : List MessageHeader} (hv : visible a = true)
    (hfuel : below.length < fuel) (hsmall : passed + (a :: below.filter visible).length < 2 ^ 63)
    (hpassed : depth ≠ -1 → passed < stopDepth depth) :
    HoleAnswer passed depth hole (a :: below.filter visible)
      (findHole depth hole fuel (Int64.ofNat passed) (a :: below)) := by
  induction fuel generalizing a below passed with
  | zero => exact absurd hfuel (Nat.not_lt_zero _)
  | succ fuel ih =>
    have hcount : Int64.ofNat passed + 1 = Int64.ofNat (passed + 1) := (Int64.ofNat_add _ _).symm
    rw [findHole, hcount]
    rw [← filter_skip below] at hsmall ⊢
    cases hs : skipPatchesAndDeletedForward below with
    | nil => exact .last hpassed
    | cons b rest =>
      have hb : visible b = true := by
        rw [visible, skip_visible hs]
        rfl
      have hlength : rest.length < fuel := by
        have := length_skip_le below
        rw [hs, List.length_cons] at this
        omega
      rw [hs, List.filter_cons_of_pos hb, List.length_cons, List.length_cons] at hsmall
      rw [List.filter_cons_of_pos hb]
      dsimp only
      by_cases hlink : a.prevId = b.id
      · rw [if_neg (by simp [hlink])]
        split
        · rename_i hstop
          rw [Bool.and_eq_true, bne_iff_ne, decide_eq_true_iff] at hstop
          exact .stopped_link hlink hstop.1
            ((stops_iff (by omega) (hpassed hstop.1)).mp hstop.2)
        · rename_i hstop
          rw [Bool.and_eq_true, bne_iff_ne, decide_eq_true_iff, not_and] at hstop
          have hnext : depth ≠ -1 → passed + 1 < stopDepth depth := by
            intro hdepth
            refine lt_of_le_of_ne (hpassed hdepth) fun heq => hstop hdepth ?_
            exact (stops_iff (by omega) (hpassed hdepth)).mpr heq.symm
          refine .next_link hlink hnext (ih hb hlength ?_ hnext)
          rw [List.length_cons]
          omega
      · rw [if_pos (by simp [hlink])]
        exact .broken_link hlink hpassed

theorem findHole_visible {cursor : List MessageHeader} (hsmall : (cursor.filter visible).length < 2 ^ 63) :
    HoleAnswer 0 depth hole (cursor.filter visible)
      (match skipPatchesAndDeletedForward cursor with
      | [] => (.ok, hole)
      | visible => findHole depth hole visible.length 0 visible) := by
  rw [← filter_skip] at hsmall ⊢
  cases hs : skipPatchesAndDeletedForward cursor with
  | nil =>
    refine ⟨fun _ => rfl, fun front a b rest h => ?_, fun _ hlt _ => ?_, fun front a h => ?_⟩
    · exact absurd h.symm (by simp)
    · exact absurd hlt (Nat.not_lt_zero _)
    · exact absurd h.symm (by simp)
  | cons a below =>
    have ha : visible a = true := by
      rw [visible, skip_visible hs]
      rfl
    rw [hs, List.filter_cons_of_pos ha] at hsmall
    rw [List.filter_cons_of_pos ha]
    refine findHole_answer ha (Nat.lt_succ_self _) (by rwa [Nat.zero_add]) fun _ => ?_
    rw [stopDepth]
    omega

/-- The first broken link is found, unless the depth or the last header comes before it. -/
theorem getNextHole_answer (s : ArchiveIndex) (fromId : Int64) (hole : ArchiveHole) (depth : Int64)
    (hsize : s.headersIndex.size < 2 ^ 63) (hfrom : fromId = -1 ∨ fromId ∈ s.ids) :
    HoleAnswer 0 depth hole (visibleFrom s fromId) (s.getNextHole fromId hole depth) := by
  have hlength : (visibleFrom s fromId).length < 2 ^ 63 := by
    refine lt_of_le_of_lt (List.length_filter_le _ _) ?_
    rw [List.length_reverse]
    exact lt_of_le_of_lt (List.length_filter_le _ _) hsize
  rw [visibleFrom] at hlength ⊢
  rw [getNextHole]
  cases hlast : s.headersIndex.last? with
  | none =>
    rw [List.getLast?_eq_none_iff.mp hlast]
    exact @findHole_visible _ _ [] (by decide)
  | some last =>
    dsimp only
    by_cases hall : fromId = -1
    · simp only [hall, true_or, decide_true, List.filter_true] at hlength ⊢
      rw [if_pos trivial]
      exact findHole_visible hlength
    · obtain ⟨header, hmem, hid⟩ := List.mem_map.mp (hfrom.resolve_left hall)
      have hle : ¬ last.id < fromId := by
        rw [← hid]
        exact not_lt.mpr (KeyMap.le_last hlast hmem)
      have hfind : s.headersIndex.find? fromId = some header := hid ▸ KeyMap.find_of_mem hmem
      simp only [hall, false_or] at hlength ⊢
      rw [if_neg not_false, if_neg hle, hfind]
      exact findHole_visible hlength

/-- Of four messages in a row the search for two links sees three. -/
theorem getNextHole_answer_fourMessages :
    HoleAnswer 0 2 {} (visibleFrom fourMessages (-1)) (fourMessages.getNextHole (-1) {} 2) :=
  getNextHole_answer fourMessages (-1) {} 2 (by decide +kernel) (.inl rfl)

/-- A search for no link follows one: it answers as for a depth of one. -/
theorem getNextHole_noDepth :
    (visibleFrom fourMessages 1).length = 1 ∧ FirstLinks 0 (visibleFrom fourMessages 1) ∧
      fourMessages.getNextHole 1 {} 0 = (.lastReached, {}) := by
  refine ⟨by decide +kernel, ?_, by decide +kernel⟩
  rw [FirstLinks]
  decide +kernel

end Icq.Archive
