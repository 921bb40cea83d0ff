import Icq.Lib.Scalar
import Mathlib.Data.List.Sort

/-! The formats of a text: a format gives a range of it a style, a link its target besides. -/

namespace Icq.Common
open Icq.Lib

inductive FormatType where
  | none | bold | italic | underline | strikethrough | monospace | link | mention | quote | pre
  | orderedList | unorderedList
deriving DecidableEq

namespace FormatType

def num : FormatType → UInt32
  | none => 0
  | bold => 1
  | italic => 2
  | underline => 4
  | strikethrough => 8
  | monospace => 16
  | link => 32
  | mention => 64
  | quote => 128
  | pre => 256
  | orderedList => 512
  | unorderedList => 1024

protected def toString : FormatType → String
  | bold => "bold"
  | italic => "italic"
  | underline => "underline"
  | strikethrough => "strikethrough"
  | monospace => "inline_code"
  | link => "link"
  | mention => "mention"
  | quote => "quote"
  | pre => "pre"
  | orderedList => "ordered_list"
  | unorderedList => "unordered_list"
  | none => "none"

def readFormatTypeFromString (name : String) : FormatType :=
  if name = "bold" then bold
  else if name = "italic" then italic
  else if name = "inline_code" then monospace
  else if name = "underline" then underline
  else if name = "strikethrough" then strikethrough
  else if name = "link" then link
  else if name = "mention" then mention
  else if name = "pre" then pre
  else if name = "ordered_list" then orderedList
  else if name = "unordered_list" then unorderedList
  else if name = "quote" then quote
  else none

theorem readFormatTypeFromString_toString (type : FormatType) :
    readFormatTypeFromString type.toString = type := by
  cases type <;> rfl

theorem num_injective : Function.Injective num := by
  intro a b h
  cases a <;> cases b <;> first | rfl | cases h

end FormatType

section

/-- The numbers are those of 32 bits where the ranges are stored, and any where a text is put
together. -/
structure Range (Z : Type) [OfNat Z 0] [OfNat Z 1] where
  offset : Z := 0
  size : Z := 0
  startIndex : Z := 1
deriving DecidableEq

structure RangeFormat (Z : Type) [OfNat Z 0] [OfNat Z 1] where
  type : FormatType := .none
  range : Range Z := {}
  data : Option Bytes := none
deriving DecidableEq

abbrev Format (Z : Type) [OfNat Z 0] [OfNat Z 1] := List (RangeFormat Z)

variable {Z : Type} [OfNat Z 0] [OfNat Z 1]

namespace Range

def finish [Add Z] (r : Range Z) : Z := r.offset + r.size

variable [Sub Z] [LE Z] [DecidableLE Z] [LT Z] [DecidableLT Z]

/-- Cut one range at the end of the string; one behind it is left with no place and no size. -/
def cut (stringSize : Z) (r : Range Z) : Range Z :=
  if stringSize ≤ r.offset then {}
  else if stringSize - r.offset < r.size then { r with size := stringSize - r.offset }
  else r

def isCut (stringSize : Z) (r : Range Z) : Bool :=
  decide (stringSize ≤ r.offset ∨ stringSize - r.offset < r.size)

theorem cut_eq {stringSize : Z} {r : Range Z} (h : r.isCut stringSize = false) :
    r.cut stringSize = r := by
  obtain ⟨hoffset, hsize⟩ := not_or.mp (of_decide_eq_false h)
  simp [cut, hoffset, hsize]

end Range

namespace RangeFormat

def dataLessThan : Option Bytes → Option Bytes → Bool
  | some data, some otherData => decide (data < otherData)
  | none, some _ => true
  | _, none => false

variable [DecidableEq Z] [LT Z] [DecidableLT Z]

def lessThan (f other : RangeFormat Z) : Bool :=
  if f.range.offset = other.range.offset then
    if f.range.size = other.range.size then
      if f.type.num = other.type.num then dataLessThan f.data other.data
      else decide (f.type.num < other.type.num)
    else decide (f.range.size < other.range.size)
  else decide (f.range.offset < other.range.offset)

end RangeFormat

namespace Format

variable [DecidableEq Z] [LT Z] [DecidableLT Z]

/-- Ranges that neither is less than the other may come in any order. -/
def sort (formats : Format Z) : Format Z :=
  formats.insertionSort fun f other => other.lessThan f = false

variable [Sub Z] [LE Z] [DecidableLE Z]

/-- It is sorted again where a range was changed. -/
def cutAt (stringSize : Z) (formats : Format Z) : Format Z :=
  let cut := formats.map fun info => { info with range := info.range.cut stringSize }
  if formats.any fun info => info.range.isCut stringSize then sort cut else cut

end Format

end

end Icq.Common
