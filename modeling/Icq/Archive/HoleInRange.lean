import Icq.Archive.NextHole

/-! Whether a message's neighbourhood has a hole. -/

namespace Icq.Archive
open Icq.Lib ArchiveIndex

/-- Whether the message is found, the headers since the last hole before it, and those from it on. -/
structure HoleScan where
  found : Bool := false
  after : Int
  before : Int := 0

namespace HoleScan

/-- One more header is counted. -/
def count (scan : HoleScan) (isMsg : Bool) (countAfter : Int) : HoleScan :=
  if scan.found || isMsg then { scan with found := true, before := scan.before + 1 }
  else if scan.after ≠ countAfter then { scan with after := scan.after + 1 }
  else scan

end HoleScan

namespace ArchiveIndex

/-- The scan from the newest header down. -/
def scanHoles (msgid : Int64) (countBefore countAfter : Int) :
    Nat → HoleScan → List MessageHeader → Bool
  | 0, _, _ => false
  | _ + 1, _, [] => false
  | fuel + 1, scan, current :: below =>
    if current.id = msgid ∧ scan.after < countAfter then true
    else
      let scan := scan.count (decide (current.id = msgid)) countAfter
      if scan.found = true ∧ countBefore ≤ scan.before then false
      else
        match skipPatchesAndDeletedForward below with
        | [] => decide (current.prevId ≠ -1) && (!scan.found || decide (scan.before < countBefore))
        | prev :: rest =>
          if current.prevId = prev.id then scanHoles msgid countBefore countAfter fuel scan (prev :: rest)
          else if scan.found then
            if scan.before < countBefore then true
            else scanHoles msgid countBefore countAfter fuel scan (prev :: rest)
          else scanHoles msgid countBefore countAfter fuel { scan with after := 0 } (prev :: rest)

def hasHoleInRange (s : ArchiveIndex) (msgid : Int64) (countBefore countAfter : Int) : Bool :=
  match skipPatchesAndDeletedForward s.headersIndex.items.reverse with
  | [] => true
  | cursor => scanHoles msgid countBefore countAfter cursor.length { after := countAfter } cursor

end ArchiveIndex

variable {a b m : MessageHeader} {older newer below : List MessageHeader} {n : Nat} {msgid : Int64}
  {countBefore countAfter : Int} {fuel : Nat} {scan : HoleScan}

/-- Of the first `n` links one is broken, or the headers end before with a link to another. -/
def Broken (n : Nat) (v : List MessageHeader) : Prop :=
  ¬ FirstLinks n v ∨ (v.length ≤ n ∧ ∃ a ∈ v.getLast?, a.prevId ≠ -1)

theorem not_broken_zero : ¬ Broken 0 (a :: older) := by
  rintro (h | ⟨h, -⟩)
  · exact h (List.IsChain.singleton a)
  · exact absurd h (Nat.not_succ_le_zero _)

theorem broken_cons : Broken (n + 1) (a :: b :: older) ↔ a.prevId ≠ b.id ∨ Broken n (b :: older) := by
  rw [Broken, Broken, firstLinks_cons, List.length_cons, Nat.add_le_add_iff_right, List.getLast?_cons_cons,
    not_and_or, or_assoc]

theorem broken_singleton : Broken (n + 1) [a] ↔ a.prevId ≠ -1 := by
  rw [Broken]
  simp [FirstLinks]

theorem visible_of_skip {range rest : List MessageHeader} {h : MessageHeader}
    (hs : skipPatchesAndDeletedForward range = h :: rest) : visible h = true := by
  rw [visible, skip_visible hs]
  rfl

/-- From the message on. -/
theorem scanHoles_older (hfuel : below.length < fuel)
    (hfound : scan.found = true ∨ a.id = msgid) (hafter : a.id = msgid → countAfter ≤ scan.after)
    (hother : ∀ x ∈ below.filter visible, x.id ≠ msgid) (hcount : scan.before + 1 + n = countBefore) :
    scanHoles msgid countBefore countAfter fuel scan (a :: below) = true ↔
      Broken n (a :: below.filter visible) := by
  induction fuel generalizing a below scan n with
  | zero => exact absurd hfuel (Nat.not_lt_zero _)
  | succ fuel ih =>
    have hscan : scan.count (decide (a.id = msgid)) countAfter =
        { scan with found := true, before := scan.before + 1 } := by
      rw [HoleScan.count, if_pos]
      rcases hfound with hfound | hid
      · rw [hfound, Bool.true_or]
      · rw [decide_eq_true hid, Bool.or_true]
    rw [scanHoles, if_neg fun h => absurd h.2 (not_lt.mpr (hafter h.1)), hscan]
    dsimp only
    cases n with
    | zero =>
      rw [if_pos ⟨rfl, by omega⟩]
      exact iff_of_false Bool.false_ne_true not_broken_zero
    | succ n =>
      have hbefore : scan.before + 1 < countBefore := by omega
      rw [if_neg fun h => absurd h.2 (not_le.mpr hbefore)]
      rw [← filter_skip below] at hother ⊢
      cases hs : skipPatchesAndDeletedForward below with
      | nil =>
        rw [decide_eq_true hbefore, Bool.or_true, Bool.and_true, decide_eq_true_iff]
        exact broken_singleton.symm
      | cons b rest =>
        have hb := visible_of_skip hs
        have hlength := length_skip_le below
        rw [hs, List.length_cons] at hlength
        rw [hs, List.filter_cons_of_pos hb] at hother
        obtain ⟨hid, hother⟩ := List.forall_mem_cons.mp hother
        rw [List.filter_cons_of_pos hb, broken_cons]
        dsimp only
        by_cases hlink : a.prevId = b.id
        · rw [if_pos hlink, or_iff_right (fun h => h hlink)]
          exact ih (by omega) (.inl rfl) (fun h => absurd h hid) hother (by dsimp only; omega)
        · rw [if_neg hlink, if_pos rfl, if_pos hbefore]
          exact iff_of_true rfl (.inl hlink)

/-- The headers just newer than the message, itself, and those just older. -/
def rangeWindow (after n : Nat) (newer : List MessageHeader) (m : MessageHeader)
    (older : List MessageHeader) : List MessageHeader :=
  newer.drop (newer.length - after) ++ m :: older.take n

/-- Two neighbours of the window are not linked, or the headers end in it with a link to another. -/
def RangeHole (after n : Nat) (newer : List MessageHeader) (m : MessageHeader)
    (older : List MessageHeader) : Prop :=
  ¬ (rangeWindow after n newer m older).IsChain (fun a b => a.prevId = b.id) ∨
    (older.length < n ∧ ∃ a ∈ (m :: older).getLast?, a.prevId ≠ -1)

variable {after : Nat} {rest : List MessageHeader}

theorem rangeHole_nil : RangeHole after n [] m older ↔ Broken n (m :: older) := by
  rw [RangeHole, Broken, FirstLinks, rangeWindow, List.drop_nil, List.nil_append, List.take_succ_cons,
    List.length_cons, Nat.succ_le_iff]

theorem rangeHole_outside (h : after ≤ newer.length) :
    RangeHole after n (a :: newer) m older ↔ RangeHole after n newer m older := by
  have hdrop : (a :: newer).length - after = newer.length - after + 1 := by
    rw [List.length_cons]
    omega
  rw [RangeHole, RangeHole, rangeWindow, rangeWindow, hdrop, List.drop_succ_cons]

theorem rangeHole_inside (h : newer.length < after) (hnext : newer ++ m :: older = b :: rest) :
    RangeHole after n (a :: newer) m older ↔ a.prevId ≠ b.id ∨ RangeHole after n newer m older := by
  have hdrop : (a :: newer).length - after = 0 := by
    rw [List.length_cons]
    omega
  have hdrop' : newer.length - after = 0 := by omega
  have hwindow : ∃ rest', newer ++ m :: older.take n = b :: rest' := by
    cases newer with
    | nil => exact ⟨_, by rw [(List.cons.inj hnext).1]; rfl⟩
    | cons x newer => exact ⟨_, by rw [← (List.cons.inj hnext).1]; rfl⟩
  obtain ⟨rest', hrest'⟩ := hwindow
  rw [RangeHole, RangeHole, rangeWindow, rangeWindow, hdrop, hdrop', List.drop_zero, List.drop_zero,
    List.cons_append, hrest', List.isChain_cons_cons, not_and_or, or_assoc]

/-- Down to the message. -/
theorem scanHoles_newer {c : Int} (hfuel : below.length < fuel) (hc : c = after ∨ (0 ≤ c ∧ c < after))
    (hv : a :: below.filter visible = newer ++ m :: older) (hnewer : ∀ x ∈ newer, x.id ≠ m.id)
    (holder : ∀ x ∈ older, x.id ≠ m.id) :
    scanHoles m.id (n + 1 : Nat) after fuel { after := c } (a :: below) = true ↔
      c + newer.length < after ∨ RangeHole after n newer m older := by
  induction newer generalizing a below fuel c with
  | nil =>
    obtain ⟨rfl, hbelow⟩ := List.cons.inj hv
    rw [List.length_nil, rangeHole_nil]
    by_cases hless : c < after
    · obtain ⟨fuel, rfl⟩ := Nat.exists_eq_succ_of_ne_zero (Nat.ne_of_gt (Nat.zero_lt_of_lt hfuel))
      rw [scanHoles, if_pos ⟨rfl, hless⟩]
      exact iff_of_true rfl (.inl (by simpa using hless))
    · rw [or_iff_right (by simpa using hless), ← hbelow]
      refine scanHoles_older hfuel (.inr rfl) (fun _ => not_lt.mp hless) (hbelow ▸ holder) ?_
      dsimp only
      omega
  | cons x newer ih =>
    obtain ⟨rfl, hbelow⟩ := List.cons.inj hv
    obtain ⟨hid, hnewer⟩ := List.forall_mem_cons.mp hnewer
    obtain ⟨fuel, rfl⟩ := Nat.exists_eq_succ_of_ne_zero (Nat.ne_of_gt (Nat.zero_lt_of_lt hfuel))
    obtain ⟨c', hcount, hc'⟩ : ∃ c' : Int,
        HoleScan.count { after := c } (decide (a.id = m.id)) after = { after := c' } ∧
          ((c = after ∧ c' = after) ∨ (c < after ∧ c' = c + 1)) := by
      rw [HoleScan.count, decide_eq_false hid, if_neg (show ¬ (false || false) = true from Bool.false_ne_true)]
      by_cases hfull : c = after
      · exact ⟨c, if_neg (not_not.mpr hfull), .inl ⟨hfull, hfull⟩⟩
      · exact ⟨_, if_pos hfull, .inr ⟨(hc.resolve_left hfull).2, rfl⟩⟩
    rw [scanHoles, if_neg fun h => hid h.1, hcount]
    dsimp only
    rw [if_neg fun h => Bool.false_ne_true h.1]
    rw [← filter_skip below] at hbelow
    cases hs : skipPatchesAndDeletedForward below with
    | nil =>
      rw [hs] at hbelow
      exact absurd hbelow.symm (by simp)
    | cons b rest =>
      have hb := visible_of_skip hs
      have hlength := length_skip_le below
      rw [hs, List.length_cons] at hlength
      rw [hs, List.filter_cons_of_pos hb] at hbelow
      have hrest : rest.length < fuel := by omega
      have hnext := hbelow.symm
      dsimp only
      rw [List.length_cons]
      by_cases hlink : a.prevId = b.id
      · rw [if_pos hlink, ih hrest (by omega) hbelow hnewer]
        rcases Nat.lt_or_ge newer.length after with hlt | hge
        · rw [rangeHole_inside hlt hnext, or_iff_right (a := ¬ a.prevId = b.id) (fun h => h hlink)]
          refine or_congr ?_ Iff.rfl
          omega
        · rw [rangeHole_outside hge]
          refine or_congr ?_ Iff.rfl
          omega
      · rw [if_neg hlink, if_neg Bool.false_ne_true, ih hrest (by omega) hbelow hnewer]
        rcases Nat.lt_or_ge newer.length after with hlt | hge
        · rw [rangeHole_inside hlt hnext]
          exact iff_of_true (.inl (by omega)) (.inr (.inl hlink))
        · rw [rangeHole_outside hge]
          refine or_congr ?_ Iff.rfl
          omega

/-- Whether there is a hole around a visible message. -/
theorem hasHoleInRange_iff (s : ArchiveIndex) (newer : List MessageHeader) (m : MessageHeader)
    (older : List MessageHeader) (countBefore countAfter : Int32)
    (hv : visibleFrom s (-1) = newer ++ m :: older) (hbefore : 1 ≤ countBefore.toInt)
    (hafter : 0 ≤ countAfter.toInt) :
    s.hasHoleInRange m.id countBefore.toInt countAfter.toInt = true ↔
      RangeHole countAfter.toInt.toNat (countBefore.toInt.toNat - 1) newer m older := by
  have hnodup : ((newer ++ m :: older).map MessageHeader.id).Nodup := by
    rw [← hv]
    refine List.Nodup.sublist (List.filter_sublist.map _) ?_
    rw [List.map_reverse, List.nodup_reverse]
    exact s.headersIndex.keys_nodup.sublist (List.filter_sublist.map _)
  rw [List.map_append, List.map_cons, List.nodup_append, List.nodup_cons] at hnodup
  obtain ⟨-, ⟨hm, -⟩, hdisjoint⟩ := hnodup
  have hnewer : ∀ x ∈ newer, x.id ≠ m.id := fun x hx =>
    hdisjoint x.id (List.mem_map_of_mem hx) m.id List.mem_cons_self
  have holder : ∀ x ∈ older, x.id ≠ m.id := fun x hx heq => hm (heq ▸ List.mem_map_of_mem hx)
  simp only [visibleFrom, true_or, decide_true, List.filter_true] at hv
  rw [← filter_skip] at hv
  rw [hasHoleInRange]
  cases hs : skipPatchesAndDeletedForward s.headersIndex.items.reverse with
  | nil =>
    rw [hs] at hv
    exact absurd hv.symm (by simp)
  | cons a below =>
    rw [hs, List.filter_cons_of_pos (visible_of_skip hs)] at hv
    obtain ⟨n, hn⟩ : ∃ n : Nat, countBefore.toInt = (n + 1 : Nat) := ⟨countBefore.toInt.toNat - 1, by omega⟩
    obtain ⟨after, hafter⟩ : ∃ after : Nat, countAfter.toInt = after := ⟨countAfter.toInt.toNat, by omega⟩
    rw [hn, hafter]
    dsimp only
    rw [List.length_cons, scanHoles_newer (Nat.lt_succ_self below.length) (.inl rfl) hv hnewer holder, Int.toNat_natCast,
      Int.toNat_natCast, Nat.add_sub_cancel, or_iff_right (by omega)]

/-- The second of four messages, with one newer and two older ones. -/
theorem hasHoleInRange_iff_fourMessages :
    fourMessages.hasHoleInRange (MessageHeader.id { id := 2, prevId := 1 }) (3 : Int32).toInt
        (1 : Int32).toInt = true ↔
      RangeHole (1 : Int32).toInt.toNat ((3 : Int32).toInt.toNat - 1)
        [{ id := 4, prevId := 3 }, { id := 3, prevId := 2 }] { id := 2, prevId := 1 }
        [{ id := 1, prevId := -1 }] :=
  hasHoleInRange_iff fourMessages _ _ _ 3 1 rfl (by decide) (by decide)

end Icq.Archive
