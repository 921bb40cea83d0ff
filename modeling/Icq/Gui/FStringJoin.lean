import Icq.Gui.FString
import Mathlib.Algebra.BigOperators.Group.List.Basic
import Mathlib.Algebra.Order.Group.Multiset

namespace Icq.Gui
open Icq.Lib Icq.Common

namespace RangeFormat

def Covers (f : RangeFormat) (p : Int) : Prop := f.range.offset ≤ p ∧ p < f.range.finish

instance (f : RangeFormat) (p : Int) : Decidable (f.Covers p) := inferInstanceAs (Decidable (_ ∧ _))

/-- The data of a range, where it is of the style and covers the position. -/
def dataOf (f : RangeFormat) (t : FormatType) (p : Int) : Multiset (Option Bytes) :=
  if f.type = t ∧ f.Covers p then {f.data} else 0

/-- The data of all ranges of a style that cover a position. -/
def dataAt (formats : List RangeFormat) (t : FormatType) (p : Int) : Multiset (Option Bytes) :=
  (formats.map fun f => f.dataOf t p).sum

variable {formats : List RangeFormat} {newOne : RangeFormat} {t : FormatType} {p : Int}

@[simp] theorem dataAt_nil : dataAt [] t p = 0 := rfl

@[simp] theorem dataAt_cons {f : RangeFormat} :
    dataAt (f :: formats) t p = f.dataOf t p + dataAt formats t p := by
  rw [dataAt, List.map_cons, List.sum_cons, dataAt]

theorem dataAt_sort : dataAt (Format.sort formats) t p = dataAt formats t p :=
  ((List.perm_insertionSort _ formats).map _).sum_eq

theorem mem_dataAt {d : Option Bytes} :
    d ∈ dataAt formats t p ↔ ∃ f ∈ formats, f.type = t ∧ f.Covers p ∧ f.data = d := by
  induction formats with
  | nil => simp
  | cons f formats ih =>
    rw [dataAt_cons, Multiset.mem_add, ih, dataOf, List.exists_mem_cons_iff]
    by_cases h : f.type = t ∧ f.Covers p
    · simp [h, eq_comm]
    · rw [if_neg h]
      simp only [Multiset.notMem_zero, false_or]
      exact ⟨.inr, fun hd => hd.resolve_left fun hf => h ⟨hf.1, hf.2.1⟩⟩

theorem covers_shift {f : RangeFormat} {n : Int} : (f.shift n).Covers p ↔ f.Covers (p - n) := by
  unfold Covers Range.finish shift
  dsimp only
  omega

theorem dataOf_shift {f : RangeFormat} {n : Int} : (f.shift n).dataOf t p = f.dataOf t (p - n) := by
  simp only [dataOf, covers_shift]
  rfl

theorem dataAt_shift {n : Int} :
    dataAt (formats.map fun f => f.shift n) t p = dataAt formats t (p - n) := by
  rw [dataAt, List.map_map, dataAt]
  exact congrArg List.sum (List.map_congr_left fun _ _ => dataOf_shift)

theorem dataOf_of_not_covers {f : RangeFormat} (h : ¬f.Covers p) : f.dataOf t p = 0 :=
  if_neg fun hf => h hf.2

theorem dataAt_of_not_covers (h : ∀ f ∈ formats, ¬f.Covers p) : dataAt formats t p = 0 := by
  induction formats with
  | nil => rfl
  | cons f formats ih =>
    rw [dataAt_cons, dataOf_of_not_covers (h f List.mem_cons_self),
      ih fun g hg => h g (List.mem_cons_of_mem _ hg), zero_add]

/-- A new range with the data that it gets: that of the range it extends. -/
def filedAs (formats : List RangeFormat) (newOne : RangeFormat) : RangeFormat :=
  { newOne with data := ((formats.find? newOne.continues).map (·.data)).getD newOne.data }

theorem continues_iff {oldOne : RangeFormat} : newOne.continues oldOne = true ↔
    oldOne.type = newOne.type ∧ oldOne.range.finish = newOne.range.offset := by
  rw [continues, Bool.and_eq_true, decide_eq_true_eq, decide_eq_true_eq]

/-- An extended range covers what it covered, and what the new one covers. -/
theorem dataOf_extended {oldOne : RangeFormat} (hold : 0 ≤ oldOne.range.size)
    (hnew : 0 ≤ newOne.range.size) (h : newOne.continues oldOne = true) :
    RangeFormat.dataOf { oldOne with
      range := { oldOne.range with size := oldOne.range.size + newOne.range.size } } t p =
        oldOne.dataOf t p + RangeFormat.dataOf { newOne with data := oldOne.data } t p := by
  obtain ⟨htype, hfinish⟩ := continues_iff.mp h
  unfold Range.finish at hfinish
  unfold dataOf Covers Range.finish
  dsimp only
  rw [htype]
  by_cases ht : newOne.type = t
  · by_cases hp : p < newOne.range.offset
    · have hno : ¬newOne.range.offset ≤ p := by omega
      have hlast : p < oldOne.range.offset + (oldOne.range.size + newOne.range.size) := by omega
      have hlast' : p < oldOne.range.offset + oldOne.range.size := by omega
      simp [ht, hno, hlast, hlast']
    · have hlast : ¬p < oldOne.range.offset + oldOne.range.size := by omega
      have hfirst : oldOne.range.offset ≤ p := by omega
      have hno : newOne.range.offset ≤ p := by omega
      have hsum : oldOne.range.offset + (oldOne.range.size + newOne.range.size) =
          newOne.range.offset + newOne.range.size := by omega
      simp [ht, hlast, hfirst, hno, hsum]
  · simp [ht]

theorem dataAt_extendOrAdd (hsize : ∀ f ∈ formats, 0 ≤ f.range.size)
    (hnew : 0 ≤ newOne.range.size) :
    dataAt (newOne.extendOrAdd formats) t p =
      dataAt formats t p + (newOne.filedAs formats).dataOf t p := by
  induction formats with
  | nil => simp [extendOrAdd, filedAs]
  | cons oldOne rest ih =>
    rw [extendOrAdd, filedAs]
    by_cases h : newOne.continues oldOne = true
    · rw [if_pos h, List.find?_cons_of_pos h, dataAt_cons, dataAt_cons,
        dataOf_extended (hsize _ List.mem_cons_self) hnew h]
      exact add_right_comm _ _ _
    · rw [if_neg h, List.find?_cons_of_neg h, dataAt_cons, dataAt_cons,
        ih fun f hf => hsize f (List.mem_cons_of_mem _ hf), add_assoc]
      rfl

theorem size_extendOrAdd (hsize : ∀ f ∈ formats, 0 ≤ f.range.size) (hnew : 0 ≤ newOne.range.size) :
    ∀ f ∈ newOne.extendOrAdd formats, 0 ≤ f.range.size := by
  induction formats with
  | nil => exact List.forall_mem_singleton.mpr hnew
  | cons oldOne rest ih =>
    have hold := hsize oldOne List.mem_cons_self
    rw [extendOrAdd]
    split
    · refine List.forall_mem_cons.mpr ⟨?_, fun f hf => hsize f (List.mem_cons_of_mem _ hf)⟩
      exact Int.add_nonneg hold hnew
    · exact List.forall_mem_cons.mpr ⟨hold, ih fun f hf => hsize f (List.mem_cons_of_mem _ hf)⟩

/-- The loop over new ranges, with the data that each gets. -/
def filed (formats : List RangeFormat) : List RangeFormat → List RangeFormat
  | [] => []
  | newOne :: rest => newOne.filedAs formats :: filed (newOne.extendOrAdd formats) rest

/-- Whenever a range is extended, the new one is empty or has the same data. -/
def JoinsAgree (formats : List RangeFormat) : List RangeFormat → Prop
  | [] => True
  | newOne :: rest =>
    (newOne.range.size = 0 ∨ ∀ oldOne, formats.find? newOne.continues = some oldOne →
      oldOne.data = newOne.data) ∧ JoinsAgree (newOne.extendOrAdd formats) rest

/-- No character has two different data of one style. -/
def Clear (formats : List RangeFormat) : Prop :=
  ∀ f ∈ formats, ∀ g ∈ formats, f.type = g.type → ∀ p, f.Covers p → g.Covers p → f.data = g.data

variable {added : List RangeFormat}

theorem dataAt_foldl (hsize : ∀ f ∈ formats, 0 ≤ f.range.size)
    (hadded : ∀ f ∈ added, 0 ≤ f.range.size) :
    dataAt (added.foldl (fun newFormats f => f.extendOrAdd newFormats) formats) t p =
      dataAt formats t p + dataAt (filed formats added) t p := by
  induction added generalizing formats with
  | nil => exact (add_zero _).symm
  | cons newOne rest ih =>
    obtain ⟨hnew, hrest⟩ := List.forall_mem_cons.mp hadded
    rw [List.foldl_cons, ih (size_extendOrAdd hsize hnew) hrest, dataAt_extendOrAdd hsize hnew, filed,
      dataAt_cons, add_assoc]

theorem filedAs_data_eq_iff : (newOne.filedAs formats).data = newOne.data ↔
    ∀ oldOne, formats.find? newOne.continues = some oldOne → oldOne.data = newOne.data := by
  rw [filedAs]
  cases formats.find? newOne.continues with
  | none => simp
  | some oldOne => simp

theorem joinsAgree_iff : JoinsAgree formats added ↔
    ∀ q ∈ (filed formats added).zip added, q.2.range.size = 0 ∨ q.1.data = q.2.data := by
  induction added generalizing formats with
  | nil => simp [JoinsAgree, filed]
  | cons newOne rest ih =>
    rw [JoinsAgree, filed, List.zip_cons_cons, List.forall_mem_cons, ih, filedAs_data_eq_iff]

theorem filed_map_range (formats added : List RangeFormat) :
    ∀ q ∈ (filed formats added).zip added, q.1.type = q.2.type ∧ q.1.range = q.2.range := by
  induction added generalizing formats with
  | nil => simp [filed]
  | cons newOne rest ih =>
    rw [filed, List.zip_cons_cons, List.forall_mem_cons]
    exact ⟨⟨rfl, rfl⟩, ih _⟩

theorem mem_filed {f : RangeFormat} (h : f ∈ filed formats added) :
    ∃ g ∈ added, f.type = g.type ∧ f.range = g.range := by
  induction added generalizing formats with
  | nil => cases h
  | cons newOne rest ih =>
    rw [filed] at h
    rcases List.mem_cons.mp h with rfl | h
    · exact ⟨newOne, List.mem_cons_self, rfl, rfl⟩
    · obtain ⟨g, hg, hsame⟩ := ih h
      exact ⟨g, List.mem_cons_of_mem _ hg, hsame⟩

theorem dataAt_filed (h : JoinsAgree formats added) :
    dataAt (filed formats added) t p = dataAt added t p := by
  induction added generalizing formats with
  | nil => rfl
  | cons newOne rest ih =>
    obtain ⟨hhead, hrest⟩ := h
    rw [filed, dataAt_cons, dataAt_cons, ih hrest]
    congr 1
    rcases hhead with hzero | hdata
    · have hempty (q : Int) : ¬newOne.Covers q := by
        unfold Covers Range.finish
        omega
      rw [dataOf_of_not_covers (hempty p)]
      exact dataOf_of_not_covers (hempty p)
    · have heq : newOne.filedAs formats = { newOne with data := newOne.data } :=
        congrArg (fun data => { newOne with data }) (filedAs_data_eq_iff.mpr hdata)
      rw [heq]

/-- Where no character has two different data, the data of all characters tell how ranges were
joined. -/
theorem joinsAgree_of_dataAt (hadded : ∀ f ∈ added, 0 ≤ f.range.size) (hclear : Clear added)
    (h : ∀ f ∈ added, ∀ p, f.Covers p → dataAt (filed formats added) f.type p = dataAt added f.type p) :
    JoinsAgree formats added := by
  rw [joinsAgree_iff]
  intro q hq
  obtain ⟨htype, hrange⟩ := filed_map_range formats added q hq
  obtain ⟨hfiled, hmem⟩ := List.of_mem_zip hq
  have hsize := hadded _ hmem
  by_cases hzero : q.2.range.size = 0
  · exact .inl hzero
  · refine .inr ?_
    have hcovers : q.2.Covers q.2.range.offset := by
      unfold Covers Range.finish
      omega
    have hin : q.1.data ∈ dataAt (filed formats added) q.2.type q.2.range.offset :=
      mem_dataAt.mpr ⟨q.1, hfiled, htype, by rwa [Covers, hrange], rfl⟩
    rw [h _ hmem _ hcovers] at hin
    obtain ⟨f, hf, hftype, hfcovers, hfdata⟩ := mem_dataAt.mp hin
    rw [← hfdata]
    exact hclear f hf q.2 hmem hftype _ hfcovers hcovers

end RangeFormat

namespace FString
open RangeFormat

/-- The ranges lie inside the string. -/
def Inside (s : FString) : Prop :=
  ∀ f ∈ s.formats, 0 ≤ f.range.offset ∧ 0 ≤ f.range.size ∧ f.range.finish ≤ s.size

/-- The styles of a joined string are those of its parts. -/
def StylesKept (s a b : FString) : Prop :=
  s.string = a.string ++ b.string ∧ ∀ t p, 0 ≤ p → p < a.size + b.size →
    dataAt s.formats t p =
      if p < a.size then dataAt a.formats t p else dataAt b.formats t (p - a.size)

def JoinsAgree (a b : FString) : Prop :=
  RangeFormat.JoinsAgree a.formats (b.formats.map fun f => f.shift a.size)

variable {a b : FString} {t : FormatType} {p : Int}

theorem dataAt_append (ha : a.Inside) (hb : b.Inside) :
    dataAt (a.append b).formats t p = dataAt a.formats t p +
      dataAt (filed a.formats (b.formats.map fun f => f.shift a.size)) t p := by
  rw [append, dataAt_sort, ← @List.foldl_map _ _ _ (fun f => RangeFormat.shift f a.size)
    (fun newFormats f => extendOrAdd f newFormats)]
  refine dataAt_foldl (fun f hf => (ha f hf).2.1) (fun f hf => ?_)
  obtain ⟨g, hg, rfl⟩ := List.mem_map.mp hf
  exact (hb g hg).2.1

theorem Inside.dataAt_of_le (ha : a.Inside) (h : a.size ≤ p) : dataAt a.formats t p = 0 := by
  apply dataAt_of_not_covers
  intro f hf hcovers
  exact absurd hcovers.2 (Int.not_lt.mpr (Int.le_trans (ha f hf).2.2 h))

theorem filed_dataAt_of_lt (hb : b.Inside) (h : p < a.size) :
    dataAt (filed a.formats (b.formats.map fun f => f.shift a.size)) t p = 0 := by
  apply dataAt_of_not_covers
  intro f hf hcovers
  obtain ⟨g, hg, -, hrange⟩ := mem_filed hf
  obtain ⟨g', hg', rfl⟩ := List.mem_map.mp hg
  have hfirst := hcovers.1
  have hpos := (hb g' hg').1
  rw [hrange, RangeFormat.shift] at hfirst
  dsimp only at hfirst
  omega

/-- The first part keeps its styles in any case, the second where the loop gives its ranges their
own data. -/
theorem stylesKept_iff (ha : a.Inside) (hb : b.Inside) : StylesKept (a.append b) a b ↔
    ∀ t p, a.size ≤ p → p < a.size + b.size →
      dataAt (filed a.formats (b.formats.map fun f => f.shift a.size)) t p =
        dataAt (b.formats.map fun f => f.shift a.size) t p := by
  constructor
  · rintro ⟨-, h⟩ t p hp hlast
    have heq := h t p (Int.le_trans (Int.natCast_nonneg _) hp) hlast
    rwa [if_neg (Int.not_lt.mpr hp), dataAt_append ha hb, ha.dataAt_of_le hp, zero_add,
      ← dataAt_shift] at heq
  · intro h
    refine ⟨rfl, fun t p _ hlast => ?_⟩
    rw [dataAt_append ha hb]
    split
    next hp => rw [filed_dataAt_of_lt hb hp, add_zero]
    next hp =>
      have hp := Int.not_lt.mp hp
      rw [ha.dataAt_of_le hp, zero_add, h t p hp hlast, dataAt_shift]

theorem JoinsAgree.stylesKept (h : a.JoinsAgree b) (ha : a.Inside) (hb : b.Inside) :
    StylesKept (a.append b) a b :=
  (stylesKept_iff ha hb).mpr fun _ _ _ _ => dataAt_filed h

theorem StylesKept.joinsAgree (h : StylesKept (a.append b) a b) (ha : a.Inside) (hb : b.Inside)
    (hclear : Clear b.formats) : a.JoinsAgree b := by
  apply joinsAgree_of_dataAt
  · intro f hf
    obtain ⟨g, hg, rfl⟩ := List.mem_map.mp hf
    exact (hb g hg).2.1
  · intro f hf g hg htype p hfp hgp
    obtain ⟨f', hf', rfl⟩ := List.mem_map.mp hf
    obtain ⟨g', hg', rfl⟩ := List.mem_map.mp hg
    apply hclear f' hf' g' hg' htype (p - a.size)
    · exact covers_shift.mp hfp
    · exact covers_shift.mp hgp
  · intro f hf p hcovers
    obtain ⟨g, hg, rfl⟩ := List.mem_map.mp hf
    obtain ⟨hpos, hsize, hlast⟩ := hb g hg
    have hcovers := covers_shift.mp hcovers
    unfold Covers at hcovers
    apply (stylesKept_iff ha hb).mp h
    · omega
    · omega

end FString

end Icq.Gui
