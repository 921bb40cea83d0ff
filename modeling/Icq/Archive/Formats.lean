import Icq.Archive.MessageParts
import Icq.Tools.Json

/-! The formats of a stored text: how they are compared, changed, and written as JSON. -/

namespace Icq.Archive
open Icq.Lib Icq.Tools Icq.Common

namespace RangeFormat

/-- Where a list starts to count does not matter. -/
def same (f other : RangeFormat) : Bool :=
  decide (f.type = other.type) &&
    (decide (f.range.offset = other.range.offset) && decide (f.range.size = other.range.size)) &&
    decide (f.data = other.data)

def serializeJson (f : RangeFormat) : JsonValue :=
  .object
    ([("offset", .ofInt32 f.range.offset), ("length", .ofInt32 f.range.size)] ++
      (if 1 < f.range.startIndex then [("startIndex", .ofInt32 f.range.startIndex)] else []) ++
      (match f.data with
        | some data =>
          (if f.type = .link then [("url", .string data)] else []) ++
            (if f.type = .pre then [("lang", .string data)] else [])
        | none => []))

def readData (type : FormatType) (v : JsonValue) : Option Bytes :=
  let name := if type = .link then some "url" else if type = .pre then some "pre" else none
  let text := ((name.bind v.findMember).bind JsonValue.getText).getD []
  if text.isEmpty then none else some text

def ofJson (type : FormatType) (v : JsonValue) : RangeFormat :=
  { type
    range :=
      { offset := ((v.findMember "offset").bind JsonValue.getInt).getD 0
        size := ((v.findMember "length").bind JsonValue.getInt).getD 0
        startIndex := ((v.findMember "startIndex").bind JsonValue.getInt).getD 1 }
    data := readData type v }

end RangeFormat

namespace FormatData

def ofRanges (formats : List RangeFormat) : FormatData := Format.sort formats

/-- `operator==` goes through both lists at once. -/
def same : FormatData → FormatData → Bool
  | [], [] => true
  | f :: formats, other :: others => f.same other && same formats others
  | _, _ => false

def cutAt (formats : FormatData) (size : Int32) : FormatData := Format.cutAt size formats

def removeFormats (formats : FormatData) (pred : FormatType → Bool) : FormatData :=
  formats.filter fun f => !pred f.type

def addStartIndexToOrderedList (startIndex : Int32) : FormatData → FormatData
  | [] => []
  | f :: formats =>
    if f.type = .orderedList then { f with range := { f.range with startIndex } } :: formats
    else f :: addStartIndexToOrderedList startIndex formats

/-- The types that the ranges have, each where it is met first. -/
def types (formats : FormatData) : List FormatType :=
  formats.foldl (fun types f => if f.type ∈ types then types else types ++ [f.type]) []

/-- Each type has an array of its ranges. Which one comes first is up to the hash map. -/
def serializeJson (order : List FormatType → List FormatType) (formats : FormatData) : JsonValue :=
  .object <| (order formats.types).map fun type =>
    (type.toString, .array ((formats.filter (·.type = type)).map RangeFormat.serializeJson))

def readArrays : List (String × JsonValue) → Outcome FormatData
  | [] => .ok []
  | (name, value) :: members => do
    let items ← value.getArray
    let formats ← readArrays members
    pure (items.map (RangeFormat.ofJson (.readFormatTypeFromString name)) ++ formats)

/-- What is no object gives no formats. -/
def ofJson (node : JsonValue) : Outcome FormatData :=
  match node with
  | .object members => readArrays members
  | _ => .ok []

end FormatData

end Icq.Archive
