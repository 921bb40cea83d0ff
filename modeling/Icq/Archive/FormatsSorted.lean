import Icq.Archive.Formats
import Icq.Lib.KeyMap
import Icq.Lib.Run
import Icq.Lib.Sorting
import Mathlib.Data.List.Lex
import Mathlib.Data.Prod.Lex
import Mathlib.Order.WithBot

/-! When the ranges of a format are in order, and what its comparison says then. -/

namespace Icq.Archive
open Icq.Lib Icq.Tools Icq.Common

namespace RangeFormat

variable {f g : RangeFormat}

/-- No data comes before all data. -/
def dataPlace : Option Bytes → WithBot Bytes
  | none => ⊥
  | some data => data

theorem dataPlace_injective : Function.Injective dataPlace := by
  intro data other h
  cases data <;> cases other
  · rfl
  · exact absurd h WithBot.bot_ne_coe
  · exact absurd h WithBot.coe_ne_bot
  · rw [WithBot.coe_inj.mp h]

theorem dataLessThan_iff {data other : Option Bytes} :
    Common.RangeFormat.dataLessThan data other = true ↔ dataPlace data < dataPlace other := by
  cases data with
  | none =>
    cases other with
    | none => exact ⟨fun h => absurd h Bool.false_ne_true, fun h => absurd h (WithBot.not_lt_bot _)⟩
    | some other => exact ⟨fun _ => WithBot.bot_lt_coe other, fun _ => rfl⟩
  | some data =>
    cases other with
    | none => exact ⟨fun h => absurd h Bool.false_ne_true, fun h => absurd h (WithBot.not_lt_bot _)⟩
    | some other => exact decide_eq_true_iff.trans WithBot.coe_lt_coe.symm

/-- What a range is ordered by. -/
def place (f : RangeFormat) : ℤ ×ₗ ℤ ×ₗ ℕ ×ₗ WithBot Bytes :=
  toLex (f.range.offset.toInt,
    toLex (f.range.size.toInt, toLex (f.type.num.toNat, dataPlace f.data)))

theorem place_eq_iff : f.place = g.place ↔
    f.range.offset = g.range.offset ∧ f.range.size = g.range.size ∧ f.type = g.type ∧
      f.data = g.data := by
  constructor
  · intro h
    obtain ⟨hoffset, h⟩ := Prod.mk.inj (toLex.injective h)
    obtain ⟨hsize, h⟩ := Prod.mk.inj (toLex.injective h)
    obtain ⟨htype, hdata⟩ := Prod.mk.inj (toLex.injective h)
    exact ⟨Int32.toInt_inj.mp hoffset, Int32.toInt_inj.mp hsize,
      FormatType.num_injective (UInt32.toNat_inj.mp htype), dataPlace_injective hdata⟩
  · rintro ⟨hoffset, hsize, htype, hdata⟩
    rw [place, place, hoffset, hsize, htype, hdata]

theorem same_iff : f.same g = true ↔ f.place = g.place := by
  rw [place_eq_iff]
  simp only [same, Bool.and_eq_true, decide_eq_true_iff]
  tauto

theorem lessThan_iff : f.lessThan g = true ↔ f.place < g.place := by
  rw [Common.RangeFormat.lessThan, ite_lex, ite_lex, ite_lex, dataLessThan_iff]
  · simp only [place, Prod.Lex.toLex_lt_toLex, Int32.lt_iff_toInt_lt, UInt32.lt_iff_toNat_lt,
      Int32.toInt_inj, UInt32.toNat_inj]
  · exact fun h => h ▸ UInt32.lt_irrefl _
  · exact fun h => h ▸ Int32.lt_irrefl
  · exact fun h => h ▸ Int32.lt_irrefl

end RangeFormat

namespace FormatData

variable {s s' : FormatData}

/-- No range is less than one before it. -/
def Sorted (s : FormatData) : Prop := s.Pairwise fun f g => g.lessThan f = false

instance (s : FormatData) : Decidable s.Sorted :=
  inferInstanceAs (Decidable (List.Pairwise (fun f g => g.lessThan f = false) s))

theorem not_lessThan_iff {f g : RangeFormat} : g.lessThan f = false ↔ f.place ≤ g.place := by
  rw [← Bool.not_eq_true, RangeFormat.lessThan_iff, not_lt]

theorem sorted_iff : s.Sorted ↔ (s.map RangeFormat.place).Pairwise (· ≤ ·) := by
  rw [List.pairwise_map]
  exact ⟨List.Pairwise.imp not_lessThan_iff.mp, List.Pairwise.imp not_lessThan_iff.mpr⟩

theorem sort_sorted (s : FormatData) : Sorted (Format.sort s) := by
  have htotal : Std.Total fun f g : RangeFormat => g.lessThan f = false := by
    refine ⟨fun f g => ?_⟩
    rw [not_lessThan_iff, not_lessThan_iff]
    exact le_total _ _
  have htrans : IsTrans RangeFormat fun f g => g.lessThan f = false := by
    refine ⟨fun f g k hfg hgk => ?_⟩
    rw [not_lessThan_iff] at hfg hgk ⊢
    exact hfg.trans hgk
  exact List.pairwise_insertionSort _ s

theorem same_iff : s.same s' = true ↔ s.map RangeFormat.place = s'.map RangeFormat.place := by
  induction s generalizing s' with
  | nil => cases s' <;> simp [same]
  | cons f s ih =>
    cases s' with
    | nil => simp [same]
    | cons g s' =>
      rw [same, Bool.and_eq_true, RangeFormat.same_iff, ih, List.map_cons, List.map_cons,
        List.cons_eq_cons]

/-- Sorted formats with the same ranges are equal. -/
theorem Sorted.same (h : s.Sorted) (h' : s'.Sorted)
    (hranges : (s.map RangeFormat.place).Perm (s'.map RangeFormat.place)) : s.same s' = true := by
  apply same_iff.mpr
  exact hranges.eq_of_pairwise (fun _ _ _ _ => le_antisymm) (sorted_iff.mp h) (sorted_iff.mp h')

theorem cutAt_sorted (h : s.Sorted) (size : Int32) : (s.cutAt size).Sorted := by
  unfold cutAt Format.cutAt
  dsimp only
  split
  · exact sort_sorted _
  · rename_i hnone
    have hkept : (s.map fun info : RangeFormat => { info with range := info.range.cut size }) = s := by
      conv_rhs => rw [← List.map_id s]
      refine List.map_congr_left fun r hr => ?_
      have hcut : r.range.isCut size = false :=
        Bool.eq_false_iff.mpr fun hr' => hnone (List.any_eq_true.mpr ⟨r, hr, hr'⟩)
      rw [Range.cut_eq hcut, id]
    rwa [hkept]

theorem place_addStartIndexToOrderedList (startIndex : Int32) (s : FormatData) :
    (s.addStartIndexToOrderedList startIndex).map RangeFormat.place = s.map RangeFormat.place := by
  induction s with
  | nil => rfl
  | cons f s ih =>
    rw [addStartIndexToOrderedList]
    split
    · rfl
    · rw [List.map_cons, ih, List.map_cons]

end FormatData

/-- What builds a format anew or changes it. -/
inductive FormatCall where
  | ofRanges (formats : List RangeFormat)
  | extend (added : List RangeFormat)
  | ofJson (node : JsonValue)
  | unserialize (pack : TlvPack)
  | cutAt (size : Int32)
  | removeFormats (pred : FormatType → Bool)
  | addStartIndexToOrderedList (startIndex : Int32)
  | clear

namespace FormatData

variable {s s' : FormatData}

/-- `none` where the reader crashes. -/
def call (s : FormatData) : FormatCall → Option FormatData
  | .ofRanges formats => some (ofRanges formats)
  | .extend added => some (ofRanges (s ++ added))
  | .ofJson node =>
    match ofJson node with
    | .ok formats => some formats
    | _ => none
  | .unserialize pack => some (unserialize pack)
  | .cutAt size => some (s.cutAt size)
  | .removeFormats pred => some (s.removeFormats pred)
  | .addStartIndexToOrderedList startIndex => some (s.addStartIndexToOrderedList startIndex)
  | .clear => some []

def itemsOf : JsonValue → List JsonValue
  | .array items => items
  | _ => []

/-- The ranges that a JSON text lists, one after the other. -/
def listed : JsonValue → List RangeFormat
  | .object members => members.flatMap fun m =>
    (itemsOf m.2).map (RangeFormat.ofJson (.readFormatTypeFromString m.1))
  | _ => []

/-- The ranges that are read are listed in order. -/
def InOrder : FormatCall → Prop
  | .ofJson node => (listed node).Pairwise fun f g => g.lessThan f = false
  | .unserialize pack => pack.Pairwise fun a b =>
    (RangeFormat.unserialize b).lessThan (RangeFormat.unserialize a) = false
  | _ => True

theorem readArrays_eq {members : List (String × JsonValue)} (h : readArrays members = .ok s) :
    s = listed (.object members) := by
  induction members generalizing s with
  | nil =>
    cases h
    rfl
  | cons m members ih =>
    obtain ⟨name, value⟩ := m
    cases value with
    | array items =>
      rw [readArrays] at h
      cases hrest : readArrays members with
      | ok formats =>
        rw [hrest] at h
        cases h
        rw [ih hrest]
        rfl
      | _ =>
        rw [hrest] at h
        cases h
    | _ => cases h

theorem ofJson_eq {node : JsonValue} (h : ofJson node = .ok s) : s = listed node := by
  cases node with
  | object members => exact readArrays_eq h
  | _ =>
    cases h
    rfl

/-- From ranges in order a call gives ranges in order, unless it reads them out of order. -/
theorem call_sorted_iff {c : FormatCall} (h : s.Sorted) (hcall : s.call c = some s') :
    s'.Sorted ↔ InOrder c := by
  cases c with
  | ofJson node =>
    have hread : ofJson node = .ok s' := by
      simp only [call] at hcall
      split at hcall
      · rename_i formats hformats
        rw [hformats, Option.some.inj hcall]
      · cases hcall
    rw [ofJson_eq hread]
    exact Iff.rfl
  | unserialize pack =>
    obtain rfl := Option.some.inj hcall
    exact List.pairwise_map
  | ofRanges formats =>
    obtain rfl := Option.some.inj hcall
    exact iff_of_true (sort_sorted formats) trivial
  | extend added =>
    obtain rfl := Option.some.inj hcall
    exact iff_of_true (sort_sorted _) trivial
  | cutAt size =>
    obtain rfl := Option.some.inj hcall
    exact iff_of_true (cutAt_sorted h size) trivial
  | removeFormats pred =>
    obtain rfl := Option.some.inj hcall
    exact iff_of_true (List.Pairwise.filter _ h) trivial
  | addStartIndexToOrderedList startIndex =>
    obtain rfl := Option.some.inj hcall
    refine iff_of_true ?_ trivial
    rw [sorted_iff, place_addStartIndexToOrderedList]
    exact sorted_iff.mp h
  | clear =>
    obtain rfl := Option.some.inj hcall
    exact iff_of_true List.Pairwise.nil trivial

/-- Formats are sorted as long as no ranges are read out of order, and then two with the same
ranges are equal. -/
theorem run_sorted (h : Run call (fun _ c => InOrder c) [] s) :
    s.Sorted ∧
      (∀ s', Run call (fun _ c => InOrder c) [] s' →
        (s.map RangeFormat.place).Perm (s'.map RangeFormat.place) → s.same s' = true) ∧
      ∀ c s', s.call c = some s' → (s'.Sorted ↔ InOrder c) := by
  have hsorted : ∀ {s}, Run call (fun _ c => InOrder c) [] s → Sorted s := fun h =>
    h.invariant List.Pairwise.nil fun hs hc hcall => (call_sorted_iff hs hcall).mpr hc
  refine ⟨hsorted h, fun s' h' hranges => ?_, fun c s' hcall => ?_⟩
  · exact (hsorted h).same (hsorted h') hranges
  · exact call_sorted_iff (hsorted h) hcall

/-- A bold range behind an italic one. -/
def boldBehindItalic : List RangeFormat :=
  [{ type := .bold, range := { offset := 5, size := 1 } }, { type := .italic, range := { size := 1 } }]

/-- The ranges in order, read from JSON and from a pack, are the same for the comparison. -/
theorem run_sorted_read : ∃ s s', Run call (fun _ c => InOrder c) [] s ∧
    Run call (fun _ c => InOrder c) [] s' ∧ s.Sorted ∧ s'.Sorted ∧ s.same s' = true := by
  have hjson : Run call (fun _ c => InOrder c) [] (ofRanges boldBehindItalic) := by
    apply Run.step (.ofJson (serializeJson id (ofRanges boldBehindItalic))) .start _ rfl
    exact (show Sorted (listed _) by decide)
  have hpack : Run call (fun _ c => InOrder c) [] (unserialize (ofRanges boldBehindItalic).serialize) := by
    apply Run.step (.unserialize (ofRanges boldBehindItalic).serialize) .start _ rfl
    exact List.pairwise_map.mp (show Sorted (unserialize _) by decide)
  obtain ⟨hsorted, hsame, -⟩ := run_sorted hjson
  exact ⟨_, _, hjson, hpack, hsorted, (run_sorted hpack).1, hsame _ hpack (by decide)⟩

/-- The same ranges, read from JSON, where the types are kept apart. -/
theorem json_out_of_order : ∃ s s', Run call (fun _ _ => True) [] s ∧
    Run call (fun _ _ => True) [] s' ∧ s.Perm s' ∧ s.same s' = false ∧ ¬Sorted s := by
  refine ⟨boldBehindItalic, ofRanges boldBehindItalic, ?_, ?_, ?_, ?_, ?_⟩
  · exact .step (.ofJson (serializeJson id boldBehindItalic)) .start trivial (by rfl)
  · exact .step (.ofRanges boldBehindItalic) .start trivial rfl
  · exact (List.perm_insertionSort (fun f g => g.lessThan f = false) boldBehindItalic).symm
  · decide
  · decide

end FormatData

end Icq.Archive
