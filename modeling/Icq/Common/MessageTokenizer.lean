import Icq.Common.TextFormatting
import Icq.Common.UriMatcher

/-! How a message is taken apart into text and URLs. -/

namespace Icq.Common

structure TextRange where
  offset : Int
  size : Int
  deriving DecidableEq, Repr

namespace TextRange

def stop (r : TextRange) : Int := r.offset + r.size

def ofFormat (format : RangeFormat Int32) : TextRange :=
  { offset := format.range.offset.toInt, size := format.range.size.toInt }

end TextRange

/-- An empty range is discarded. -/
def nonemptyRange (offset size : Int) : List TextRange :=
  if size ≠ 0 then [{ offset, size }] else []

/-- The victim is cut out of the last range. -/
def excludeRange (ranges : List TextRange) (victim : TextRange) : List TextRange :=
  match ranges.getLast? with
  | none => ranges
  | some r =>
    if victim.size = 0 ∨ victim.offset < r.offset ∨ r.stop < victim.stop then ranges
    else if r.offset = victim.offset then
      ranges.dropLast ++ nonemptyRange (r.offset + victim.size) (r.size - victim.size)
    else
      ranges.dropLast ++ nonemptyRange r.offset (victim.offset - r.offset) ++
        nonemptyRange victim.stop (r.stop - victim.stop)

inductive TokenType where
  | text
  | formattedText
  | url (scheme : SchemeType)
  deriving DecidableEq, Repr

structure MessageToken where
  text : WString
  type : TokenType
  formattedSourceOffset : Int
  deriving DecidableEq, Repr

/-- `none` where the beginning is not in the text. -/
def substr (text : WString) (offset size : Int) : Option WString :=
  if offset < 0 ∨ (text.length : Int) < offset then none
  else if size < 0 then some (text.drop offset.toNat)
  else some ((text.drop offset.toNat).take size.toNat)

/-- The first place of a character from `set`. -/
def findFirstOf (set text : WString) : Option Nat := text.findIdx? fun c => decide (c ∈ set)

/-- Some addresses keep the punctuation at their end. -/
def checkPunctUrl (url : WString) : Bool :=
  match findFirstOf (wide "://") url with
  | none => true
  | some start =>
    let path := url.drop start
    if (wide "://u.internal.myteam.mail.ru/profile").isPrefixOf path ||
        (wide "://icq.im").isPrefixOf path then false
    else if (wide "://vk.com").isPrefixOf path && decide (path.getLast? = some 0x3D) then false
    else true

namespace MessageTokenizer

variable (t : UriTraits) (tokenTextType : TokenType)

/-- The text between the tokens. -/
def textToken (message : WString) (pos stop : Nat) : List MessageToken :=
  if pos < stop then
    [{ text := slice message pos stop, type := tokenTextType, formattedSourceOffset := pos }]
  else []

/-- What one search adds, and where it ends in the message. -/
def addSearch (message : WString) (offset pos : Nat) (r : UriSearch) : List MessageToken × Nat :=
  let start := offset + (r.place - r.result.length)
  let gap := textToken tokenTextType message pos start
  let url :=
    if r.result.isEmpty then []
    else [{ text := r.result, type := .url r.scheme, formattedSourceOffset := start }]
  (gap ++ url, start + r.result.length)

/-- The searches from a place of a range on. -/
def parseLoop (message sv : WString) (offset size : Nat) (r : UriSearch) (pos : Nat) :
    Nat → Option (UriMatcher × List MessageToken)
  | 0 => none
  | fuel + 1 =>
    if r.place ≠ sv.length then
      let (tokens, pos) := addSearch tokenTextType message offset pos r
      (r.matcher.search t sv r.place [] true).bind fun r =>
        (parseLoop message sv offset size r pos fuel).map fun (m, rest) => (m, tokens ++ rest)
    else
      let (tokens, pos) :=
        if r.result.isEmpty then ([], pos) else addSearch tokenTextType message offset pos r
      some (r.matcher, tokens ++ textToken tokenTextType message pos (offset + size))

def parseRange (message : WString) (range : TextRange) (m : UriMatcher) :
    Option (UriMatcher × List MessageToken) :=
  (substr message range.offset range.size).bind fun sv =>
    (m.search t sv 0 [] (checkPunctUrl sv)).bind fun r =>
      parseLoop t tokenTextType message sv range.offset.toNat range.size.toNat r range.offset.toNat
        (sv.length + 1)

def parseRanges (message : WString) : List TextRange → UriMatcher →
    Option (UriMatcher × List MessageToken)
  | [], m => some (m, [])
  | range :: ranges, m =>
    (parseRange t tokenTextType message range m).bind fun (m, tokens) =>
      (parseRanges message ranges m).map fun (m, rest) => (m, tokens ++ rest)

def isExcluded (format : RangeFormat Int32) : Bool :=
  format.type = .link || format.type = .mention || format.type = .pre

def messageRange (message : WString) : TextRange :=
  { offset := 0, size := (Int32.ofNat message.length).toInt }

/-- The ranges that are left between the formats that are kept as they are. -/
def unformattedRanges (message : WString) (formats : Format Int32) : List TextRange :=
  (formats.filter isExcluded).foldl (fun ranges f => excludeRange ranges (.ofFormat f))
    [messageRange message]

def formatToken (message : WString) (format : RangeFormat Int32) : Option MessageToken :=
  let range := TextRange.ofFormat format
  (substr message range.offset range.size).map fun text =>
    { text, type := tokenTextType, formattedSourceOffset := range.offset }

/-- The tokens before they are sorted by their places. -/
def parseMessage (m : UriMatcher) (message : WString) (formats : Format Int32) :
    Option (UriMatcher × List MessageToken) :=
  if formats.isEmpty then parseRange t tokenTextType message (messageRange message) m
  else
    ((formats.filter isExcluded).mapM (formatToken tokenTextType message)).bind fun tokens =>
      (parseRanges t tokenTextType message (unformattedRanges message formats) m).map
        fun (m, rest) => (m, tokens ++ rest)

/-- The tokens that the iteration may give: tokens at one place come in any order. -/
def Tokenizes (m : UriMatcher) (message : WString) (formats : Format Int32)
    (tokens : List MessageToken) : Prop :=
  ∃ r, parseMessage t tokenTextType m message formats = some r ∧ tokens.Perm r.2 ∧
    tokens.Pairwise fun x y => x.formattedSourceOffset ≤ y.formattedSourceOffset

end MessageTokenizer

end Icq.Common
