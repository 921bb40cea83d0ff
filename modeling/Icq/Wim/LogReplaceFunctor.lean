import Icq.Lib.Run
import Icq.Lib.Scalar

/-! What the log keeps of the packets: the values behind markers are masked. -/

namespace Icq.Wim
open Icq.Lib

def quote : UInt8 := 34
def backslash : UInt8 := 92
def bracketOpen : UInt8 := 91
def bracketClose : UInt8 := 93

def isLatin (c : UInt8) : Bool := decide (0x61 ≤ c ∧ c ≤ 0x7a ∨ 0x41 ≤ c ∧ c ≤ 0x5a)

def isDigit (c : UInt8) : Bool := decide (0x30 ≤ c ∧ c ≤ 0x39)

def hexDigit (n : UInt8) : UInt8 := if n < 10 then 0x30 + n else 0x37 + n

/-- Percent encoding; the search for a character that stays also finds the end of its text. -/
def escapeSymbols (text : Bytes) : Bytes :=
  text.flatMap fun c =>
    if isLatin c || isDigit c || (ascii ['-', '.', '_', '~', '\x00']).contains c then [c]
    else [0x25, hexDigit (c / 16), hexDigit (c % 16)]

/-- The space stays. -/
def maskChar (c : UInt8) : UInt8 := if c ≠ 0x20 then 0x2a else c

/-- Which parts of a value to mask, from the first place to the last one. -/
structure RangesEvaluator where
  ranges : Bytes → List (Int × Int)
  /-- No part ends more than one place in front of the value. -/
  ends : ∀ text, ∀ r ∈ ranges text, -1 ≤ r.2

structure Marker where
  pattern : Bytes
  evaluator : Option RangesEvaluator := none
  nonempty : pattern ≠ []

structure LogReplaceFunctor where
  markers : List Marker := []
  markersJson : List Marker := []
  markersJsonEncoded : List Marker := []

/-- How a json value ends, and what looks like its end and is not. -/
structure ValueEnd where
  valueEnd : Bytes
  excluded : Bytes
deriving DecidableEq

/-- The flags that go with the place in a json value. -/
structure ValueScan where
  skipValueEnd : Bool := false
  countToSkip : Int := 0
  braceCounter : Int
  ignoreNextQuote : Bool := false
  inQuotes : Bool := false

/-- A buffer at a place of it. -/
structure LogScan where
  before : Bytes
  ahead : Bytes

def arrayEnd : ValueEnd := ⟨[bracketClose], []⟩
def arrayEndEncoded : ValueEnd := ⟨escapeSymbols [bracketClose], []⟩
def stringEnd : ValueEnd := ⟨[quote], [backslash, quote]⟩
def stringEndEncoded : ValueEnd := ⟨escapeSymbols [quote], escapeSymbols [backslash, quote]⟩

namespace LogReplaceFunctor

def addMarker (f : LogReplaceFunctor) (marker : Bytes) (re : Option RangesEvaluator := none) :
    LogReplaceFunctor :=
  if marker ≠ [] then { f with markers := f.markers ++ [⟨marker ++ ascii ['='], re, by simp [ascii]⟩] }
  else f

def addUrlMarker (f : LogReplaceFunctor) (marker : Bytes) (re : Option RangesEvaluator := none) :
    LogReplaceFunctor :=
  if h : marker ≠ [] then { f with markers := f.markers ++ [⟨marker, re, h⟩] } else f

def addJsonMarker (f : LogReplaceFunctor) (marker : Bytes) (re : Option RangesEvaluator := none) :
    LogReplaceFunctor :=
  { f with
    markersJson := f.markersJson ++
      [⟨quote :: (marker ++ [quote, 0x3a, quote]), re, by simp⟩,
        ⟨quote :: (marker ++ [quote, 0x3a, 0x20, quote]), re, by simp⟩]
    markersJsonEncoded := f.markersJsonEncoded ++
      [⟨escapeSymbols [quote] ++ marker ++ escapeSymbols [quote, 0x3a, quote], re,
        List.append_ne_nil_of_right_ne_nil _ (by decide)⟩] }

def addJsonArrayMarker (f : LogReplaceFunctor) (marker : Bytes)
    (re : Option RangesEvaluator := none) : LogReplaceFunctor :=
  { f with
    markersJson := f.markersJson ++
      [⟨quote :: (marker ++ [quote, 0x3a, bracketOpen]), re, by simp⟩,
        ⟨quote :: (marker ++ [quote, 0x3a, 0x20, bracketOpen]), re, by simp⟩]
    markersJsonEncoded := f.markersJsonEncoded ++
      [⟨escapeSymbols [quote] ++ marker ++ escapeSymbols [quote, 0x3a, bracketOpen], re,
          List.append_ne_nil_of_right_ne_nil _ (by decide)⟩,
        ⟨escapeSymbols [quote] ++ marker ++ escapeSymbols [quote, 0x3a, 0x20, bracketOpen], re,
          List.append_ne_nil_of_right_ne_nil _ (by decide)⟩] }

/-- The marker that stands ahead with something behind it, and the end of a json value. -/
def findMarker (f : LogReplaceFunctor) (ahead : Bytes) : Option (Marker × Option ValueEnd) :=
  let stands (m : Marker) := decide (m.pattern.length < ahead.length) && m.pattern.isPrefixOf ahead
  match f.markers.find? stands with
  | some m => some (m, none)
  | none =>
    match f.markersJson.find? stands with
    | some m =>
      some (m, some (if m.pattern.getLast? = some bracketOpen then arrayEnd else stringEnd))
    | none =>
      (f.markersJsonEncoded.find? stands).map fun m =>
        (m, some (if m.pattern.getLast? = (escapeSymbols [bracketOpen]).getLast? then arrayEndEncoded
          else stringEndEncoded))

end LogReplaceFunctor

namespace ValueScan

/-- What looks like the end of the value and is not is passed by. -/
def exclude (v : ValueScan) (e : ValueEnd) (ahead : Bytes) : ValueScan :=
  if 0 < v.countToSkip then
    { v with skipValueEnd := decide (0 < v.countToSkip - 1), countToSkip := v.countToSkip - 1 }
  else if e.excluded.isPrefixOf ahead then
    { v with skipValueEnd := true, countToSkip := (e.excluded.length : Int) - 1 }
  else v

/-- A character of an array is a part of a string, or may be one of the array's brackets. -/
def mark (v : ValueScan) (c : UInt8) (rest : Bytes)
    (go : ValueScan → Option (Bytes × Bytes)) : Option (Bytes × Bytes) :=
  if !v.inQuotes then
    let v := { v with braceCounter :=
      if c = bracketOpen then v.braceCounter + 1
      else if c = bracketClose then v.braceCounter - 1
      else v.braceCounter }
    if v.braceCounter = 0 then some ([c], rest) else (go v).map (Prod.map (c :: ·) id)
  else (go v).map (Prod.map (maskChar c :: ·) id)

end ValueScan

/-- Masks a json value up to its end. The result is what was gone through and what is ahead, unless
a place behind the buffer is used. -/
def maskValue (e : ValueEnd) (v : ValueScan) : Bytes → Option (Bytes × Bytes)
  | [] => some ([], [])
  | c :: rest =>
    if rest.length + 1 < e.valueEnd.length ∨
        (!v.skipValueEnd && e.valueEnd.isPrefixOf (c :: rest)) = true then
      some ([], c :: rest)
    else
      let v := v.exclude e (c :: rest)
      if e.valueEnd ≠ [bracketClose] then
        (maskValue e v rest).map (Prod.map (maskChar c :: ·) id)
      else if c = backslash then
        match rest with
        | [] => none
        | d :: rest' =>
          { v with ignoreNextQuote := v.ignoreNextQuote || decide (d = quote) }.mark c (d :: rest')
            fun v => maskValue e v (d :: rest')
      else if c = quote then
        if !v.ignoreNextQuote then
          match rest with
          | [] => none
          | d :: rest' =>
            ({ v with inQuotes := !v.inQuotes, ignoreNextQuote := false }.mark d rest'
              fun v => maskValue e v rest').map (Prod.map (c :: ·) id)
        else { v with ignoreNextQuote := false }.mark c rest fun v => maskValue e v rest
      else v.mark c rest fun v => maskValue e v rest

namespace LogScan

def text (s : LogScan) : Bytes := s.before ++ s.ahead

def start (buffer : Bytes) : LogScan := ⟨[], buffer⟩

def forward (s : LogScan) (n : Nat) : LogScan := ⟨s.before ++ s.ahead.take n, s.ahead.drop n⟩

end LogScan

/-- Masks from one place behind `i` to another one; a range that starts in front of the buffer is
passed over, as its places are compared without a sign. -/
def maskRange (i : Nat) (text : Bytes) (r : Int × Int) : Bytes :=
  text.mapIdx fun p c =>
    if 0 ≤ (i : Int) + r.1 ∧ (i : Int) + r.1 ≤ p ∧ (p : Int) ≤ i + r.2 then maskChar c else c

namespace LogReplaceFunctor

/-- One turn of the loop: a marker with its value, or one character. -/
def step (f : LogReplaceFunctor) (s : LogScan) : Option LogScan :=
  match f.findMarker s.ahead with
  | none => some (s.forward 1)
  | some (m, valueEnd) =>
    let s := s.forward m.pattern.length
    match m.evaluator, valueEnd with
    | some re, _ =>
      let text := (re.ranges s.ahead).foldl (maskRange s.before.length) s.text
      some ⟨text.take s.before.length, text.drop s.before.length⟩
    | none, none =>
      let value := s.ahead.takeWhile fun c => decide (c ≠ 0x26 ∧ c ≠ 0x20)
      some ⟨s.before ++ value.map maskChar, s.ahead.drop value.length⟩
    | none, some e =>
      (maskValue e { braceCounter := if e.valueEnd = [bracketClose] then 1 else 0 } s.ahead).map
        fun (done, ahead) => ⟨s.before ++ done, ahead⟩

def scan (f : LogReplaceFunctor) : Nat → LogScan → Option Bytes
  | 0, s => some s.text
  | fuel + 1, s => if s.ahead.length < 2 then some s.text else (f.step s).bind (scan f fuel)

/-- The buffer as it is logged; nothing if a place behind it is used. -/
def apply (f : LogReplaceFunctor) (buffer : Bytes) : Option Bytes := f.scan buffer.length (.start buffer)

/-- Where the loop comes by. -/
abbrev Reaches (f : LogReplaceFunctor) (buffer : Bytes) : LogScan → Prop :=
  Run (fun s (_ : Unit) => f.step s) (fun s _ => 2 ≤ s.ahead.length) (.start buffer)

end LogReplaceFunctor

end Icq.Wim
