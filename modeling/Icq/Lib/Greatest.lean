import Mathlib.Data.Finset.Max
import Mathlib.Data.List.Basic

/-! The greatest of a crowd, as many as there is room for. -/

namespace Icq.Lib

variable {α : Type*} [LinearOrder α] {room : Nat} {crowd kept : Finset α} {x y : α}

/-- Those of whom fewer than there is room for are greater. -/
def greatest (room : Nat) (crowd : Finset α) : Finset α :=
  crowd.filter fun x => (crowd.filter (x < ·)).card < room

theorem mem_greatest : x ∈ greatest room crowd ↔
    x ∈ crowd ∧ (crowd.filter (x < ·)).card < room := Finset.mem_filter

theorem greatest_subset (room : Nat) (crowd : Finset α) : greatest room crowd ⊆ crowd :=
  Finset.filter_subset _ _

theorem mem_greatest_of_lt (hx : x ∈ greatest room crowd) (hy : y ∈ crowd) (h : x < y) :
    y ∈ greatest room crowd := by
  obtain ⟨-, hroom⟩ := mem_greatest.mp hx
  refine mem_greatest.mpr ⟨hy, lt_of_le_of_lt (Finset.card_le_card fun z hz => ?_) hroom⟩
  obtain ⟨hz, hyz⟩ := Finset.mem_filter.mp hz
  exact Finset.mem_filter.mpr ⟨hz, lt_trans h hyz⟩

/-- While there is room everybody is in. -/
theorem greatest_of_room (h : crowd.card ≤ room) : greatest room crowd = crowd := by
  refine Finset.filter_true_of_mem fun x hx => lt_of_lt_of_le (Finset.card_lt_card ?_) h
  exact Finset.filter_ssubset.mpr ⟨x, hx, lt_irrefl x⟩

/-- One below a whole crowd is in if there is room for more than the crowd. -/
theorem greatest_insert_least (h : ∀ c ∈ crowd, x < c) :
    greatest room (insert x crowd) =
      if crowd.card < room then insert x (greatest room crowd) else greatest room crowd := by
  have hself : (insert x crowd).filter (x < ·) = crowd := by
    rw [Finset.filter_insert, if_neg (lt_irrefl x)]
    exact Finset.filter_true_of_mem h
  have hothers : ∀ c ∈ crowd, (insert x crowd).filter (c < ·) = crowd.filter (c < ·) := by
    intro c hc
    rw [Finset.filter_insert, if_neg (not_lt_of_gt (h c hc))]
  have hrest : crowd.filter (fun c => ((insert x crowd).filter (c < ·)).card < room) =
      greatest room crowd :=
    Finset.filter_congr fun c hc => by rw [hothers c hc]
  rw [greatest, Finset.filter_insert, hself, hrest]

theorem card_greatest (room : Nat) (crowd : Finset α) :
    (greatest room crowd).card = min room crowd.card := by
  induction crowd using Finset.induction_on_min with
  | empty => exact (Nat.min_zero room).symm
  | insert x crowd h ih =>
    have hx : x ∉ crowd := fun hx => lt_irrefl x (h x hx)
    rw [greatest_insert_least h, Finset.card_insert_of_notMem hx]
    split
    · have hnot : x ∉ greatest room crowd := fun hm => hx (greatest_subset room crowd hm)
      rw [Finset.card_insert_of_notMem hnot, ih]
      omega
    · rw [ih]
      omega

theorem lt_of_not_mem_greatest (hx : x ∈ crowd) (hnot : x ∉ greatest room crowd)
    (hy : y ∈ greatest room crowd) : x < y := by
  refine lt_of_le_of_ne (not_lt.mp fun h => hnot (mem_greatest_of_lt hy hx h)) ?_
  rintro rfl
  exact hnot hy

/-- Who comes is ranked the same among those who were kept as among all. -/
theorem greatest_insert_kept (hgreatest : greatest room crowd ⊆ kept) (hkept : kept ⊆ crowd)
    (x : α) :
    greatest room (insert x kept) = greatest room (insert x crowd) := by
  have hsub : insert x kept ⊆ insert x crowd := Finset.insert_subset_insert x hkept
  have habove : ∀ y, (insert x kept).filter (y < ·) ⊆ (insert x crowd).filter (y < ·) :=
    fun y => Finset.filter_subset_filter _ hsub
  ext y
  constructor
  · intro hy
    obtain ⟨hy, hroom⟩ := mem_greatest.mp hy
    refine mem_greatest.mpr ⟨hsub hy, ?_⟩
    -- one that was not kept has the greatest of the crowd above it, and so has who is below it
    by_cases hsame : (insert x crowd).filter (y < ·) ⊆ (insert x kept).filter (y < ·)
    · exact lt_of_le_of_lt (Finset.card_le_card hsame) hroom
    · obtain ⟨c, hc, hnot⟩ := Finset.not_subset.mp hsame
      obtain ⟨hc, hyc⟩ := Finset.mem_filter.mp hc
      have hc' : c ∉ insert x kept := fun hm => hnot (Finset.mem_filter.mpr ⟨hm, hyc⟩)
      have hcrowd : c ∈ crowd := (Finset.mem_insert.mp hc).resolve_left fun he =>
        hc' (he ▸ Finset.mem_insert_self x kept)
      have hout : c ∉ greatest room crowd := fun hm =>
        hc' (Finset.mem_insert_of_mem (hgreatest hm))
      have hfull : room ≤ crowd.card := by
        have hrank := not_lt.mp fun hlt => hout (mem_greatest.mpr ⟨hcrowd, hlt⟩)
        exact le_trans hrank (Finset.card_le_card (Finset.filter_subset _ _))
      have hroom' : room ≤ ((insert x kept).filter (y < ·)).card := by
        rw [← Nat.min_eq_left hfull, ← card_greatest]
        refine Finset.card_le_card fun t ht => Finset.mem_filter.mpr ?_
        exact ⟨Finset.mem_insert_of_mem (hgreatest ht),
          lt_trans hyc (lt_of_not_mem_greatest hcrowd hout ht)⟩
      exact absurd hroom (not_lt.mpr hroom')
  · intro hy
    obtain ⟨hy, hroom⟩ := mem_greatest.mp hy
    refine mem_greatest.mpr ⟨?_, lt_of_le_of_lt (Finset.card_le_card (habove y)) hroom⟩
    rcases Finset.mem_insert.mp hy with rfl | hy
    · exact Finset.mem_insert_self _ _
    · have hless := Finset.filter_subset_filter (y < ·) (Finset.subset_insert x crowd)
      exact Finset.mem_insert_of_mem (hgreatest (mem_greatest.mpr
        ⟨hy, lt_of_le_of_lt (Finset.card_le_card hless) hroom⟩))

/-- The greatest are at the end of a list in ascending order. -/
theorem toFinset_drop_ascending {l : List α} (h : l.Pairwise (· < ·)) (room : Nat) :
    (l.drop (l.length - room)).toFinset = greatest room l.toFinset := by
  induction l with
  | nil => simp [greatest]
  | cons x l ih =>
    obtain ⟨hx, hl⟩ := List.pairwise_cons.mp h
    have hleast : ∀ c ∈ l.toFinset, x < c := fun c hc => hx c (List.mem_toFinset.mp hc)
    have hnodup : l.Nodup := hl.imp ne_of_lt
    rw [List.toFinset_cons, greatest_insert_least hleast, List.toFinset_card_of_nodup hnodup,
      List.length_cons, ← ih hl]
    by_cases hroom : l.length < room
    · rw [if_pos hroom, Nat.sub_eq_zero_of_le hroom, Nat.sub_eq_zero_of_le (Nat.le_of_lt hroom),
        List.drop_zero, List.drop_zero, List.toFinset_cons]
    · rw [if_neg hroom, Nat.succ_sub (Nat.le_of_not_lt hroom), List.drop_succ_cons]

/-- One below all the greatest is not one of them when there is no room. -/
theorem greatest_insert_full (hfull : room ≤ crowd.card) (hx : ∀ k ∈ greatest room crowd, x < k) :
    greatest room (insert x crowd) = greatest room crowd := by
  have hcard : (greatest room crowd).card = room := by
    rw [card_greatest, Nat.min_eq_left hfull]
  rw [← greatest_insert_kept (Finset.Subset.refl _) (greatest_subset room crowd),
    greatest_insert_least hx, if_neg (Nat.not_lt.mpr (Nat.le_of_eq hcard.symm)),
    greatest_of_room (Nat.le_of_eq hcard)]

/-- Without the least. -/
def eraseLeast (crowd : Finset α) : Finset α := crowd.filter fun x => ∃ y ∈ crowd, y < x

/-- If one is too many the least has to go. -/
theorem greatest_of_one_more (h : crowd.card = room + 1) :
    greatest room crowd = eraseLeast crowd := by
  refine Finset.filter_congr fun x hx => ?_
  have hparts : (crowd.filter (x < ·)).card + (crowd.filter fun y => ¬x < y).card = room + 1 := by
    rw [← h]
    exact Finset.card_filter_add_card_filter_not _
  have hself : x ∈ crowd.filter fun y => ¬x < y := Finset.mem_filter.mpr ⟨hx, lt_irrefl x⟩
  constructor
  · intro hroom
    have hmore : 1 < (crowd.filter fun y => ¬x < y).card := by omega
    obtain ⟨y, hy, hne⟩ := Finset.exists_mem_ne hmore x
    obtain ⟨hy, hle⟩ := Finset.mem_filter.mp hy
    exact ⟨y, hy, lt_of_le_of_ne (not_lt.mp hle) hne⟩
  · rintro ⟨y, hy, hlt⟩
    have hother : y ∈ crowd.filter fun y => ¬x < y := Finset.mem_filter.mpr ⟨hy, lt_asymm hlt⟩
    have hmore := Finset.one_lt_card.mpr ⟨y, hother, x, hself, ne_of_lt hlt⟩
    omega

theorem insert_eraseLeast (hless : ∃ k ∈ crowd, k < x) :
    insert x (eraseLeast crowd) = eraseLeast (insert x crowd) := by
  obtain ⟨k, hk, hkx⟩ := hless
  ext z
  rw [eraseLeast, eraseLeast, Finset.mem_insert, Finset.mem_filter, Finset.mem_filter,
    Finset.mem_insert]
  constructor
  · rintro (rfl | ⟨hz, y, hy, hyz⟩)
    · exact ⟨.inl rfl, k, Finset.mem_insert_of_mem hk, hkx⟩
    · exact ⟨.inr hz, y, Finset.mem_insert_of_mem hy, hyz⟩
  · rintro ⟨rfl | hz, y, hy, hyz⟩
    · exact .inl rfl
    · refine .inr ⟨hz, ?_⟩
      rcases Finset.mem_insert.mp hy with rfl | hy
      · exact ⟨k, hk, lt_trans hkx hyz⟩
      · exact ⟨y, hy, hyz⟩

/-- One above one of the greatest takes the place of the least of them. -/
theorem greatest_insert_above (hfull : room ≤ crowd.card) (hx : x ∉ crowd)
    (hless : ∃ k ∈ greatest room crowd, k < x) :
    greatest room (insert x crowd) = insert x (eraseLeast (greatest room crowd)) := by
  have hnot : x ∉ greatest room crowd := fun hm => hx (greatest_subset room crowd hm)
  have hcard : (insert x (greatest room crowd)).card = room + 1 := by
    rw [Finset.card_insert_of_notMem hnot, card_greatest, Nat.min_eq_left hfull]
  rw [insert_eraseLeast hless, ← greatest_of_one_more hcard,
    greatest_insert_kept (Finset.Subset.refl _) (greatest_subset room crowd)]

/-- One is above one of the greatest if fewer are above it than there is room for. -/
theorem exists_lt_greatest_iff (hfull : room ≤ crowd.card) (hx : x ∉ crowd) :
    (∃ k ∈ greatest room crowd, k < x) ↔ (crowd.filter (x < ·)).card < room := by
  constructor
  · rintro ⟨k, hk, hkx⟩
    refine lt_of_le_of_lt (Finset.card_le_card fun z hz => ?_) (mem_greatest.mp hk).2
    obtain ⟨hz, hxz⟩ := Finset.mem_filter.mp hz
    exact Finset.mem_filter.mpr ⟨hz, lt_trans hkx hxz⟩
  · intro hroom
    by_contra hnone
    have habove : greatest room crowd ⊆ crowd.filter (x < ·) := fun k hk => by
      have hmem := greatest_subset room crowd hk
      have hne : x ≠ k := fun heq => hx (heq ▸ hmem)
      exact Finset.mem_filter.mpr
        ⟨hmem, lt_of_le_of_ne (not_lt.mp fun hlt => hnone ⟨k, hk, hlt⟩) hne⟩
    have hcard := Finset.card_le_card habove
    rw [card_greatest, Nat.min_eq_left hfull] at hcard
    omega

end Icq.Lib
