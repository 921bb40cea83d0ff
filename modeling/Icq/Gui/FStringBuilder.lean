import Icq.Gui.FStringJoin

namespace Icq.Gui
open Icq.Lib Icq.Common

namespace RangeFormat

def Within (f : RangeFormat) (n : Int) : Prop :=
  0 ≤ f.range.offset ∧ 0 ≤ f.range.size ∧ f.range.finish ≤ n

variable {formats : List RangeFormat} {newOne : RangeFormat} {n : Int}

theorem within_extendOrAdd (h : ∀ f ∈ formats, f.Within n) (hnew : newOne.Within n) :
    ∀ f ∈ newOne.extendOrAdd formats, f.Within n := by
  induction formats with
  | nil => exact List.forall_mem_singleton.mpr hnew
  | cons oldOne rest ih =>
    obtain ⟨hold, hrest⟩ := List.forall_mem_cons.mp h
    rw [extendOrAdd]
    split
    next hc =>
      have hfinish := (continues_iff.mp hc).2
      refine List.forall_mem_cons.mpr ⟨?_, hrest⟩
      unfold Within Range.finish at *
      dsimp only
      omega
    next => exact List.forall_mem_cons.mpr ⟨hold, ih hrest⟩

theorem within_foldl {added : List RangeFormat} (h : ∀ f ∈ formats, f.Within n)
    (hadded : ∀ f ∈ added, f.Within n) :
    ∀ f ∈ added.foldl (fun newFormats f => f.extendOrAdd newFormats) formats, f.Within n := by
  induction added generalizing formats with
  | nil => exact h
  | cons newOne rest ih =>
    obtain ⟨hnew, hrest⟩ := List.forall_mem_cons.mp hadded
    exact ih (within_extendOrAdd h hnew) hrest

theorem mem_sort {f : RangeFormat} : f ∈ Format.sort formats ↔ f ∈ formats :=
  (List.perm_insertionSort _ formats).mem_iff

end RangeFormat

open RangeFormat

theorem FString.Inside.append {a b : FString} (ha : a.Inside) (hb : b.Inside) :
    (a.append b).Inside := by
  have hsize : (a.append b).size = a.size + b.size := by
    simp [FString.size, FString.append]
  have hfirst := Int.natCast_nonneg a.string.length
  have hlast := Int.natCast_nonneg b.string.length
  intro f hf
  rw [hsize]
  rw [FString.append, mem_sort, ← @List.foldl_map _ _ _ (fun f => RangeFormat.shift f a.size)
    (fun newFormats f => extendOrAdd f newFormats)] at hf
  refine within_foldl (fun g hg => ?_) (fun g hg => ?_) f hf
  · obtain ⟨hoffset, hsize, hfinish⟩ := ha g hg
    exact ⟨hoffset, hsize, Int.le_trans hfinish (Int.le_add_of_nonneg_right hlast)⟩
  · obtain ⟨g', hg', rfl⟩ := List.mem_map.mp hg
    have hg := hb g' hg'
    unfold Within shift Range.finish FString.size at *
    dsimp only
    omega

namespace FStringView

variable {v : FStringView} {t : FormatType} {p : Int}

/-- The view lies inside its string. -/
def Inside (v : FStringView) : Prop :=
  v.source.Inside ∧ 0 ≤ v.offset ∧ 0 ≤ v.size ∧ v.offset + v.size ≤ v.source.size

theorem toFString_size (h : v.Inside) : v.toFString.size = v.size := by
  obtain ⟨-, hoffset, hsize, hlast⟩ := h
  rw [toFString, FString.ofString, FString.size, string, if_pos hlast, List.length_take,
    List.length_drop]
  rw [FString.size] at hlast
  omega

theorem toFString_inside (h : v.Inside) : v.toFString.Inside := by
  intro f hf
  rw [toFString_size h]
  obtain ⟨g, -, hcut⟩ := List.mem_filterMap.mp (mem_sort.mp (mem_sort.mp hf))
  dsimp only at hcut
  split at hcut
  next hpos =>
    cases hcut
    unfold cutRangeToFitView Range.finish at *
    dsimp only at hpos ⊢
    omega
  next => cases hcut

/-- A view shows the styles of its string. -/
theorem dataAt_toFString (hp : 0 ≤ p) (hlast : p < v.size) :
    dataAt v.toFString.formats t p = dataAt v.source.formats t (v.offset + p) := by
  rw [toFString, FString.ofString, getFormat, dataAt_sort, dataAt_sort]
  induction v.source.formats with
  | nil => rfl
  | cons f formats ih =>
    rw [List.filterMap_cons, dataAt_cons, ← ih]
    have hcovers : 0 < (v.cutRangeToFitView f.range).size →
        (RangeFormat.Covers { f with range := v.cutRangeToFitView f.range } p ↔
          f.Covers (v.offset + p)) := by
      unfold cutRangeToFitView Covers Range.finish
      dsimp only
      omega
    dsimp only
    by_cases hcut : 0 < (v.cutRangeToFitView f.range).size
    · rw [if_pos hcut, dataAt_cons]
      congr 1
      simp only [dataOf, hcovers hcut]
    · rw [if_neg hcut, dataOf_of_not_covers, zero_add]
      unfold cutRangeToFitView at hcut
      unfold Covers Range.finish
      dsimp only at hcut
      omega

end FStringView

namespace FString

namespace Part

def Inside : Part → Prop
  | fstring part => part.Inside
  | fstringView part => part.Inside
  | qstring _ => True
  | qstringView _ => True

/-- The data of the ranges of a style that cover a position of the part. -/
def dataAt (t : FormatType) (p : Int) : Part → Multiset (Option Bytes)
  | fstring part => RangeFormat.dataAt part.formats t p
  | fstringView part => RangeFormat.dataAt part.source.formats t (part.offset + p)
  | qstring _ => 0
  | qstringView _ => 0

def text : Part → List UInt16
  | fstring part => part.string
  | fstringView part => part.string
  | qstring part => part
  | qstringView part => part

end Part

/-- A part is added to what the parts in front of it gave. -/
def appendPart (result : FString) : Part → FString
  | .fstring part => result.append part
  | .fstringView part => result.append part.toFString
  | .qstring part => result.appendString part
  | .qstringView part => result.appendString part

def PartAgrees (result : FString) : Part → Prop
  | .fstring part => result.JoinsAgree part
  | .fstringView part => result.JoinsAgree part.toFString
  | .qstring _ => True
  | .qstringView _ => True

/-- Every part is joined with ranges of the same data. -/
def PartsAgree (result : FString) : List Part → Prop
  | [] => True
  | part :: parts => result.PartAgrees part ∧ PartsAgree (result.appendPart part) parts

/-- Every part keeps its text and its styles. -/
def PartsKept (s : FString) (parts : List Part) : Prop :=
  s.string = parts.flatMap Part.text ∧
  ∀ before part after, parts = before ++ part :: after → ∀ t p, 0 ≤ p → p < part.size →
    dataAt s.formats t ((before.map Part.size).sum + p) = part.dataAt t p

theorem finalizeFrom_eq (result : FString) (prevUrl : Bytes) (parts : List Part) :
    Builder.finalizeFrom false result prevUrl parts = parts.foldl appendPart result := by
  induction parts generalizing result with
  | nil => rfl
  | cons part parts ih =>
    cases part with
    | fstring part => exact ih _
    | fstringView part => exact ih _
    | qstring part => exact ih _
    | qstringView part => exact ih _

variable {result : FString} {part : Part} {t : FormatType} {p : Int}

theorem appendString_kept (hr : result.Inside) (string : List UInt16) :
    (result.appendString string).Inside ∧ ∀ t p, result.size ≤ p →
      dataAt (result.appendString string).formats t p = 0 := by
  constructor
  · intro f hf
    obtain ⟨hoffset, hsize, hfinish⟩ := hr f hf
    refine ⟨hoffset, hsize, Int.le_trans hfinish ?_⟩
    rw [FString.size, FString.size, appendString, List.length_append]
    omega
  · exact fun t p hp => hr.dataAt_of_le hp

theorem appendPart_size (hp : part.Inside) : (result.appendPart part).size = result.size + part.size := by
  cases part with
  | fstring part => simp [appendPart, append, FString.size, Part.size]
  | fstringView part =>
    rw [Part.size, ← FStringView.toFString_size hp]
    simp [appendPart, append, FString.size]
  | qstring part => simp [appendPart, appendString, FString.size, Part.size]
  | qstringView part => simp [appendPart, appendString, FString.size, Part.size]

/-- One part is added. -/
theorem appendPart_kept (hr : result.Inside) (hp : part.Inside) (hagree : result.PartAgrees part) :
    (result.appendPart part).Inside ∧
    (∀ t p, 0 ≤ p → p < result.size →
      dataAt (result.appendPart part).formats t p = dataAt result.formats t p) ∧
    ∀ t p, 0 ≤ p → p < part.size →
      dataAt (result.appendPart part).formats t (result.size + p) = part.dataAt t p := by
  have hjoin {b : FString} (hb : b.Inside) (h : result.JoinsAgree b) : (result.append b).Inside ∧
      (∀ t p, 0 ≤ p → p < result.size →
        dataAt (result.append b).formats t p = dataAt result.formats t p) ∧
      ∀ t p, 0 ≤ p → p < b.size →
        dataAt (result.append b).formats t (result.size + p) = dataAt b.formats t p := by
    have hkept := (h.stylesKept hr hb).2
    have hresult : 0 ≤ result.size := Int.natCast_nonneg _
    have hb' : 0 ≤ b.size := Int.natCast_nonneg _
    refine ⟨hr.append hb, fun t p hp hlast => ?_, fun t p hp hlast => ?_⟩
    · rw [hkept t p hp (by omega), if_pos hlast]
    · rw [hkept t _ (by omega) (by omega), if_neg (by omega), add_sub_cancel_left]
  cases part with
  | fstring part => exact hjoin hp hagree
  | fstringView part =>
    obtain ⟨hin, hbefore, hkept⟩ := hjoin (FStringView.toFString_inside hp) hagree
    refine ⟨hin, hbefore, fun t p hpos hlast => ?_⟩
    rw [appendPart, hkept t p hpos ((FStringView.toFString_size hp).symm ▸ hlast)]
    exact FStringView.dataAt_toFString hpos hlast
  | qstring part =>
    obtain ⟨hin, hzero⟩ := appendString_kept hr part
    exact ⟨hin, fun _ _ _ _ => rfl, fun t p hpos _ => hzero t _ (Int.le_add_of_nonneg_right hpos)⟩
  | qstringView part =>
    obtain ⟨hin, hzero⟩ := appendString_kept hr part
    exact ⟨hin, fun _ _ _ _ => rfl, fun t p hpos _ => hzero t _ (Int.le_add_of_nonneg_right hpos)⟩

theorem appendPart_string : (result.appendPart part).string = result.string ++ part.text := by
  cases part with
  | fstring part => rfl
  | fstringView part => rfl
  | qstring part => rfl
  | qstringView part => rfl

theorem part_size_nonneg (hp : part.Inside) : 0 ≤ part.size := by
  cases part with
  | fstring part => exact Int.natCast_nonneg _
  | fstringView part => exact hp.2.2.1
  | qstring part => exact Int.natCast_nonneg _
  | qstringView part => exact Int.natCast_nonneg _

theorem foldl_appendPart_string (parts : List Part) :
    (parts.foldl appendPart result).string = result.string ++ parts.flatMap Part.text := by
  induction parts generalizing result with
  | nil => exact (List.append_nil _).symm
  | cons part parts ih =>
    rw [List.foldl_cons, ih, appendPart_string, List.flatMap_cons, List.append_assoc]

/-- What was there keeps its styles, and so does every part. -/
theorem foldl_appendPart_kept {parts : List Part} (hr : result.Inside)
    (hparts : ∀ part ∈ parts, part.Inside) (hagree : result.PartsAgree parts) :
    (∀ t p, 0 ≤ p → p < result.size →
      dataAt (parts.foldl appendPart result).formats t p = dataAt result.formats t p) ∧
    ∀ before part after, parts = before ++ part :: after → ∀ t p, 0 ≤ p → p < part.size →
      dataAt (parts.foldl appendPart result).formats t
        (result.size + ((before.map Part.size).sum + p)) = part.dataAt t p := by
  induction parts generalizing result with
  | nil =>
    refine ⟨fun _ _ _ _ => rfl, fun before part after h => ?_⟩
    exact absurd h.symm (List.append_ne_nil_of_right_ne_nil _ (List.cons_ne_nil _ _))
  | cons first parts ih =>
    obtain ⟨hfirst, hrest⟩ := List.forall_mem_cons.mp hparts
    obtain ⟨hin, hbefore, hkept⟩ := appendPart_kept hr hfirst hagree.1
    obtain ⟨hold, hnew⟩ := ih hin hrest hagree.2
    rw [appendPart_size hfirst] at hold hnew
    have hsize := part_size_nonneg hfirst
    have hresult : 0 ≤ result.size := Int.natCast_nonneg _
    constructor
    · intro t p hp hlast
      rw [List.foldl_cons, hold t p hp (by omega), hbefore t p hp hlast]
    · intro before part after h t p hp hlast
      cases before with
      | nil =>
        obtain ⟨rfl, rfl⟩ := List.cons_eq_cons.mp h
        rw [List.map_nil, List.sum_nil, zero_add, List.foldl_cons, hold t _ (by omega) (by omega)]
        exact hkept t p hp hlast
      | cons first' before =>
        obtain ⟨rfl, rfl⟩ := List.cons_eq_cons.mp h
        rw [List.map_cons, List.sum_cons, List.foldl_cons, add_assoc, ← add_assoc result.size]
        exact hnew before part after rfl t p hp hlast

theorem finalize_kept (b : Builder) (hparts : ∀ part ∈ b.parts, part.Inside)
    (hagree : PartsAgree {} b.parts) : PartsKept (b.finalize false) b.parts := by
  have hempty : Inside {} := fun f hf => absurd hf List.not_mem_nil
  rw [Builder.finalize, finalizeFrom_eq]
  refine ⟨foldl_appendPart_string b.parts, fun before part after h t p hp hlast => ?_⟩
  have hkept := (foldl_appendPart_kept hempty hparts hagree).2 before part after h t p hp hlast
  rwa [show FString.size {} = 0 from rfl, zero_add] at hkept

/-- Joined strings keep their styles where ranges are extended by ranges of the same data, and only
there when no character of the second string has two different data of one style; so do the parts
of a builder. -/
theorem styles_kept {a b : FString} (ha : a.Inside) (hb : b.Inside) (builder : Builder)
    (hparts : ∀ part ∈ builder.parts, part.Inside) :
    (a.JoinsAgree b → StylesKept (a.append b) a b) ∧
    (Clear b.formats → StylesKept (a.append b) a b → a.JoinsAgree b) ∧
    (PartsAgree {} builder.parts → PartsKept (builder.finalize false) builder.parts) :=
  ⟨fun h => h.stylesKept ha hb, fun hclear h => h.joinsAgree ha hb hclear,
    finalize_kept builder hparts⟩

/-- A character that is a link to a target. -/
def linkTo (c : UInt16) (target : Bytes) : FString :=
  { string := [c], formats := [{ type := .link, range := { offset := 0, size := 1 }, data := target }] }

theorem linkTo_inside (c : UInt16) (target : Bytes) : (linkTo c target).Inside :=
  List.forall_mem_singleton.mpr ⟨Int.le_refl 0, Int.zero_le_ofNat 1, Int.le_refl 1⟩

/-- Two links to one target that touch become one link. -/
theorem styles_kept_sameLink :
    StylesKept ((linkTo 0x61 [1]).append (linkTo 0x62 [1])) (linkTo 0x61 [1]) (linkTo 0x62 [1]) ∧
    PartsKept (Builder.finalize (Builder.add {} (.fstring (linkTo 0x61 [1]))) false)
      [.fstring (linkTo 0x61 [1])] := by
  have h := styles_kept (linkTo_inside 0x61 [1]) (linkTo_inside 0x62 [1])
    (Builder.add {} (.fstring (linkTo 0x61 [1])))
    (List.forall_mem_singleton.mpr (linkTo_inside 0x61 [1]))
  constructor
  · refine h.1 ⟨.inr fun oldOne hold => ?_, trivial⟩
    cases hold
    rfl
  · refine h.2.2 ⟨⟨.inr fun oldOne hold => ?_, trivial⟩, trivial⟩
    cases hold

/-- Of two links to different targets that touch, the second gets the target of the first. -/
theorem touching_links_merged :
    ¬ ∀ a b : FString, a.Inside → b.Inside → StylesKept (a.append b) a b := by
  intro h
  have hkept := (h _ _ (linkTo_inside 0x61 [1]) (linkTo_inside 0x62 [2])).2 .link 1 (by decide) (by decide)
  exact absurd hkept (by decide)

end FString

end Icq.Gui
