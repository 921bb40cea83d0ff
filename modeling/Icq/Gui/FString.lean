import Icq.Common.TextFormatting

/-! Strings with formats, and how they are joined and cut. -/

namespace Icq.Gui
open Icq.Lib Icq.Common

abbrev Range := Common.Range Int

abbrev RangeFormat := Common.RangeFormat Int

namespace RangeFormat

def shift (f : RangeFormat) (n : Int) : RangeFormat :=
  { f with range := { f.range with offset := f.range.offset + n } }

/-- A new range continues an old one. -/
def continues (newOne oldOne : RangeFormat) : Bool :=
  decide (oldOne.type = newOne.type) && decide (oldOne.range.finish = newOne.range.offset)

/-- The first range that the new one continues is extended. -/
def extendOrAdd (newOne : RangeFormat) : List RangeFormat → List RangeFormat
  | [] => [newOne]
  | oldOne :: rest =>
    if newOne.continues oldOne then
      { oldOne with range := { oldOne.range with size := oldOne.range.size + newOne.range.size } } ::
        rest
    else oldOne :: extendOrAdd newOne rest

end RangeFormat

/-- The characters are UTF-16 code units. -/
structure FString where
  string : List UInt16 := []
  formats : List RangeFormat := []
deriving DecidableEq

namespace FString

def size (s : FString) : Int := s.string.length

def ofString (string : List UInt16) (formats : List RangeFormat) : FString :=
  { string, formats := Format.sort formats }

def append (s other : FString) : FString :=
  { string := s.string ++ other.string
    formats := Format.sort
      (other.formats.foldl (fun newFormats f => (f.shift s.size).extendOrAdd newFormats) s.formats) }

def appendString (s : FString) (other : List UInt16) : FString :=
  { s with string := s.string ++ other }

/-- The target, where the whole string is a mention. -/
def isMention (s : FString) : Bytes :=
  ((s.formats.find? fun f =>
    decide (f.type = .mention) && decide (f.range.size = s.size) && f.data.isSome).bind (·.data)).getD []

end FString

/-- A part of a string that is there. -/
structure FStringView where
  source : FString
  offset : Int
  size : Int
deriving DecidableEq

namespace FStringView

def ofSource (source : FString) (offset size : Int) : FStringView :=
  if offset < 0 ∨ size < 0 ∨ source.size < offset + size then { source, offset := 0, size := 0 }
  else { source, offset, size }

def string (v : FStringView) : List UInt16 :=
  if v.offset + v.size ≤ v.source.size then
    (v.source.string.drop v.offset.toNat).take v.size.toNat
  else []

def cutRangeToFitView (v : FStringView) (r : Range) : Range :=
  let left := max v.offset r.offset
  let right := min (v.offset + v.size) (r.offset + r.size)
  { r with offset := left - v.offset, size := max 0 (right - left) }

def getFormat (v : FStringView) : List RangeFormat :=
  Format.sort <| v.source.formats.filterMap fun f =>
    let r := v.cutRangeToFitView f.range
    if 0 < r.size then some { f with range := r } else none

def toFString (v : FStringView) : FString := .ofString v.string v.getFormat

end FStringView

namespace FString

inductive Part
  | fstring (part : FString)
  | fstringView (part : FStringView)
  | qstring (part : List UInt16)
  | qstringView (part : List UInt16)

def Part.size : Part → Int
  | .fstring part => part.size
  | .fstringView part => part.size
  | .qstring part => part.length
  | .qstringView part => part.length

structure Builder where
  parts : List Part := []
  size : Int := 0

namespace Builder

def add (b : Builder) (part : Part) : Builder :=
  if part.size = 0 then b else { parts := b.parts ++ [part], size := b.size + part.size }

/-- A mention that follows the same mention is left out. -/
def finalizeFrom (mergeMentions : Bool) (result : FString) (prevUrl : Bytes) : List Part → FString
  | [] => result
  | .qstringView part :: parts => finalizeFrom mergeMentions (result.appendString part) prevUrl parts
  | .qstring part :: parts => finalizeFrom mergeMentions (result.appendString part) prevUrl parts
  | .fstring part :: parts =>
    if mergeMentions then
      let url := part.isMention
      let result := if url.isEmpty || prevUrl ≠ url then result.append part else result
      finalizeFrom mergeMentions result url parts
    else finalizeFrom mergeMentions (result.append part) prevUrl parts
  | .fstringView part :: parts =>
    finalizeFrom mergeMentions (result.append part.toFString) prevUrl parts

def finalize (b : Builder) (mergeMentions : Bool) : FString :=
  finalizeFrom mergeMentions {} [] b.parts

end Builder

end FString

end Icq.Gui
