import Icq.Gui.FStringBuilder

/-! What is left of the formats of a string that is cut off. -/

namespace Icq.Gui
open Icq.Lib Icq.Common

namespace FString

def hasFormatting (s : FString) : Bool := !s.formats.isEmpty

def containsFormat (s : FString) (type : FormatType) : Bool :=
  s.formats.any fun f => decide (f.type = type)

/-- Cut off so many characters, none and all of them at the extremes. -/
def chop (s : FString) (n : Int) : FString :=
  let n := max 0 (min n s.size)
  { string := s.string.take (s.size - n).toNat
    formats := Format.cutAt (s.size - n) s.formats }

def view (s : FString) : FStringView := .ofSource s 0 s.size

end FString

namespace FStringView

def getStyles (v : FStringView) : List RangeFormat :=
  v.source.formats.filterMap fun f =>
    let r := v.cutRangeToFitView f.range
    if 0 < r.size then some { f with range := r } else none

def hasFormatting (v : FStringView) : Bool :=
  v.source.formats.any fun f => decide (0 < (v.cutRangeToFitView f.range).size)

def containsFormat (v : FStringView) (type : FormatType) : Bool :=
  v.getStyles.any fun f => decide (f.type = type)

end FStringView

section Cut

variable {f : RangeFormat} {formats : List RangeFormat} {n p : Int} {t : FormatType} {s : FString}

namespace RangeFormat

/-- A range covers in front of the cut what it covered before. -/
theorem covers_cutRange :
    Covers { f with range := f.range.cut n } p ↔ f.Covers p ∧ p < n := by
  unfold Covers Range.finish Range.cut
  dsimp only
  split
  · dsimp only
    omega
  · split
    · dsimp only
      omega
    · omega

theorem perm_cutAt : (Format.cutAt n formats).Perm
    (formats.map fun info => { info with range := info.range.cut n }) := by
  rw [Format.cutAt]
  split
  · exact List.perm_insertionSort _ _
  · exact List.Perm.refl _

theorem mem_cutAt {g : RangeFormat} : g ∈ Format.cutAt n formats ↔
    ∃ f ∈ formats, { f with range := f.range.cut n } = g :=
  perm_cutAt.mem_iff.trans List.mem_map

theorem dataAt_cutAt (hp : p < n) : dataAt (Format.cutAt n formats) t p = dataAt formats t p := by
  rw [dataAt, dataAt, (perm_cutAt.map _).sum_eq, List.map_map]
  refine congrArg List.sum (List.map_congr_left fun f _ => ?_)
  show dataOf { f with range := f.range.cut n } t p = dataOf f t p
  unfold dataOf
  simp only [covers_cutRange, hp, and_true]

end RangeFormat

namespace FString

theorem chop_size (s : FString) (n : Int) : (s.chop n).size = s.size - max 0 (min n s.size) := by
  rw [chop, size, List.length_take]
  simp only [size]
  omega

/-- Some character is covered by a range of the type. -/
def Shows (s : FString) (t : FormatType) : Prop :=
  ∃ p, 0 ≤ p ∧ p < s.size ∧ ∃ f ∈ s.formats, f.type = t ∧ f.Covers p

/-- What is left of a string that is cut off is what it looks like. -/
structure ChoppedHonestly (s : FString) (n : Int) : Prop where
  string : (s.chop n).string = s.string.take (max 0 (s.size - n)).toNat
  styles : ∀ t p, 0 ≤ p → p < (s.chop n).size →
    RangeFormat.dataAt (s.chop n).formats t p = RangeFormat.dataAt s.formats t p
  contains : ∀ t, (s.chop n).containsFormat t = true ↔ (s.chop n).Shows t
  viewContains : ∀ t, (s.chop n).view.containsFormat t = true ↔ (s.chop n).Shows t
  hasFormatting : (s.chop n).hasFormatting = (s.chop n).view.hasFormatting

theorem view_eq (s : FString) : s.view = { source := s, offset := 0, size := s.size } := by
  have hsize : 0 ≤ s.size := Int.natCast_nonneg _
  rw [view, FStringView.ofSource, if_neg (by omega)]

/-- A range is left of a whole view if it covers something in it. -/
theorem cutRangeToFitView_pos (s : FString) (f : RangeFormat) :
    0 < (s.view.cutRangeToFitView f.range).size ↔ ∃ p, 0 ≤ p ∧ p < s.size ∧ f.Covers p := by
  rw [view_eq]
  unfold FStringView.cutRangeToFitView RangeFormat.Covers Range.finish
  dsimp only
  constructor
  · intro h
    exact ⟨max 0 f.range.offset, by omega, by omega, by omega, by omega⟩
  · rintro ⟨p, h0, hp, hlow, hup⟩
    omega

theorem view_containsFormat (s : FString) (t : FormatType) :
    s.view.containsFormat t = true ↔ s.Shows t := by
  have hsource : s.view.source = s := by rw [view_eq]
  rw [FStringView.containsFormat, FStringView.getStyles, List.any_eq_true, hsource]
  constructor
  · rintro ⟨g, hg, ht⟩
    obtain ⟨f, hf, hcut⟩ := List.mem_filterMap.mp hg
    dsimp only at hcut
    split at hcut
    · rename_i hpos
      obtain rfl := Option.some.inj hcut
      obtain ⟨p, h0, hp, hcovers⟩ := (cutRangeToFitView_pos s f).mp hpos
      exact ⟨p, h0, hp, f, hf, decide_eq_true_iff.mp ht, hcovers⟩
    · exact nomatch hcut
  · rintro ⟨p, h0, hp, f, hf, ht, hcovers⟩
    have hpos := (cutRangeToFitView_pos s f).mpr ⟨p, h0, hp, hcovers⟩
    refine ⟨{ f with range := s.view.cutRangeToFitView f.range }, ?_, decide_eq_true ht⟩
    exact List.mem_filterMap.mpr ⟨f, hf, if_pos hpos⟩

theorem view_hasFormatting (s : FString) : s.view.hasFormatting = true ↔ ∃ t, s.Shows t := by
  have hsource : s.view.source = s := by rw [view_eq]
  rw [FStringView.hasFormatting, List.any_eq_true, hsource]
  constructor
  · rintro ⟨f, hf, hpos⟩
    obtain ⟨p, h0, hp, hcovers⟩ := (cutRangeToFitView_pos s f).mp (decide_eq_true_iff.mp hpos)
    exact ⟨f.type, p, h0, hp, f, hf, rfl, hcovers⟩
  · rintro ⟨t, p, h0, hp, f, hf, -, hcovers⟩
    exact ⟨f, hf, decide_eq_true ((cutRangeToFitView_pos s f).mpr ⟨p, h0, hp, hcovers⟩)⟩

theorem hasFormatting_iff (s : FString) : s.hasFormatting = true ↔ ∃ t, s.containsFormat t = true := by
  obtain ⟨string, formats⟩ := s
  cases formats with
  | nil => exact iff_of_false Bool.false_ne_true fun ⟨t, h⟩ => Bool.false_ne_true h
  | cons f formats =>
    refine iff_of_true rfl ⟨f.type, ?_⟩
    exact List.any_eq_true.mpr ⟨f, List.mem_cons_self, decide_eq_true rfl⟩

/-- No range is lost or put in. -/
theorem chop_containsFormat (s : FString) (n : Int) (t : FormatType) :
    (s.chop n).containsFormat t = true ↔ ∃ f ∈ s.formats, f.type = t := by
  rw [containsFormat, List.any_eq_true]
  constructor
  · rintro ⟨g, hg, ht⟩
    obtain ⟨f, hf, rfl⟩ := RangeFormat.mem_cutAt.mp hg
    exact ⟨f, hf, decide_eq_true_iff.mp ht⟩
  · rintro ⟨f, hf, ht⟩
    exact ⟨_, RangeFormat.mem_cutAt.mpr ⟨f, hf, rfl⟩, decide_eq_true ht⟩

theorem chop_shows (h : s.Inside) (n : Int) (t : FormatType) : (s.chop n).Shows t ↔
    ∃ f ∈ s.formats, f.type = t ∧ f.range.offset < s.size - n ∧ 0 < f.range.size := by
  rw [Shows, chop_size]
  constructor
  · rintro ⟨p, h0, hp, g, hg, ht, hcovers⟩
    obtain ⟨f, hf, rfl⟩ := RangeFormat.mem_cutAt.mp hg
    obtain ⟨hlow, hup⟩ := (RangeFormat.covers_cutRange.mp hcovers).1
    rw [Range.finish] at hup
    exact ⟨f, hf, ht, by omega, by omega⟩
  · rintro ⟨f, hf, ht, hcut, hpos⟩
    obtain ⟨h0, -, hlast⟩ := h f hf
    rw [Range.finish] at hlast
    have hlt : f.range.offset < s.size - max 0 (min n s.size) := by omega
    refine ⟨f.range.offset, h0, hlt, _, RangeFormat.mem_cutAt.mpr ⟨f, hf, rfl⟩, ht, ?_⟩
    refine RangeFormat.covers_cutRange.mpr ⟨⟨le_refl _, ?_⟩, hlt⟩
    rw [Range.finish]
    omega

/-- A string that is cut off is what it looks like if and only if of each type that it has it has a
range of some size that begins in front of the cut. -/
theorem choppedHonestly_iff (h : s.Inside) (n : Int) : s.ChoppedHonestly n ↔
    ∀ f ∈ s.formats, ∃ g ∈ s.formats, g.type = f.type ∧ g.range.offset < s.size - n ∧
      0 < g.range.size := by
  constructor
  · intro hhonest f hf
    have hcontains := (s.chop_containsFormat n f.type).mpr ⟨f, hf, rfl⟩
    exact (chop_shows h n f.type).mp ((hhonest.contains f.type).mp hcontains)
  · intro hleft
    have hcontains : ∀ t, (s.chop n).containsFormat t = true ↔ (s.chop n).Shows t := by
      intro t
      rw [chop_containsFormat, chop_shows h]
      constructor
      · rintro ⟨f, hf, rfl⟩
        exact hleft f hf
      · rintro ⟨f, hf, ht, -⟩
        exact ⟨f, hf, ht⟩
    refine ⟨?_, fun t p _ hp => ?_, hcontains, fun t => view_containsFormat _ t, ?_⟩
    · show s.string.take (s.size - max 0 (min n s.size)).toNat = _
      rw [size, List.take_eq_take_iff]
      omega
    · rw [chop_size] at hp
      exact RangeFormat.dataAt_cutAt hp
    · rw [Bool.eq_iff_iff, hasFormatting_iff, view_hasFormatting]
      exact exists_congr hcontains

/-- Two bold characters of three. -/
def boldTwo : FString :=
  { string := [97, 98, 99], formats := [{ type := .bold, range := { offset := 1, size := 2 } }] }

theorem boldTwo_inside : boldTwo.Inside := by
  intro f hf
  obtain rfl := List.mem_singleton.mp hf
  decide

theorem chopped_boldTwo : boldTwo.ChoppedHonestly 1 := by
  refine (choppedHonestly_iff boldTwo_inside 1).mpr fun f hf => ⟨f, hf, rfl, ?_⟩
  obtain rfl := List.mem_singleton.mp hf
  decide

/-- Both bold characters are cut off, and the string still has the format. -/
theorem format_left_behind : boldTwo.Inside ∧ ¬ boldTwo.ChoppedHonestly 2 := by
  refine ⟨boldTwo_inside, fun h => ?_⟩
  obtain ⟨f, hf, -, hcut, -⟩ := (chop_shows boldTwo_inside 2 .bold).mp
    ((h.contains .bold).mp (by decide))
  obtain rfl := List.mem_singleton.mp hf
  exact absurd hcut (by decide)

end FString

end Cut

end Icq.Gui
