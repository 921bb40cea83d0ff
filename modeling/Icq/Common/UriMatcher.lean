import Icq.Common.UriScheme

/-! The search for URIs in a text. Places are counted from the beginning of the text; `none` is a
search that runs out of the text, or does not end. -/

namespace Icq.Common

/-- What a regular expression matches first, and how much of it: a part of the text. -/
structure UriExpression where
  search : WString → Option (Nat × Nat)
  inside : ∀ {text position length}, search text = some (position, length) →
    position + length ≤ text.length

/-- The expression for a local host begins with its name. -/
structure UriExpressions where
  url : UriExpression
  email : UriExpression
  localhost : UriExpression
  literal : ∀ {text length}, localhost.search text = some (0, length) →
    wide "localhost" <+: text.take length

structure UriTraits where
  expressions : UriExpressions
  settings : SchemeSettings
  /-- The top level domains, `WTLDS`. -/
  domains : List WString
  schemeHash : List UInt8 → Nat
  domainHash : WString → Nat

namespace UriTraits

variable (t : UriTraits)

def schemeHashing : Hashing WChar :=
  .folded 4 (Nat.zero_lt_succ 3) tolowercase asciiLower t.schemeHash

def domainHashing : Hashing WChar :=
  .folded 3 (Nat.zero_lt_succ 2) tolowercase tolowercase t.domainHash

def maxLength : Nat := 4096

def isWhitespace (c : WChar) : Bool :=
  c = 0x20 || c = 0x09 || c = 0x0D || c = 0x0A || c = 0x0B || c = 0x0C || c = 0xFEFF || c = 0xFFFE

def isDigit (c : WChar) : Bool := inRange 0x30 0x39 c

def isAlnum (c : WChar) : Bool :=
  !(c = 0xFEFF || c = 0xFFFE || c = 0x00AB || c = 0x00BB ||
      c = 0x201C || c = 0x201D || c = 0x2018 || c = 0x2019) &&
    ((c = 0x2028 || c = 0x2029 || c = 0x202F || c = 0x3000) ||
      inRange 0x41 0x5A c || inRange 0x61 0x7A c || inRange 0x30 0x39 c ||
      inRange 0x00A0 0xD7FF c || inRange 0xF900 0xFDCF c || inRange 0xFDF0 0xFFEF c ||
      inRange 0xD800 0xDFFF c)

def isAllowedTrailing (c : WChar) : Bool := c = 0x23 || c = 0x2F || c = 0x29 || c = 0x7D

def openBrackets : WString := [0x28, 0x5B, 0x7B, 0x00AB, 0x201C, 0x2018]

def closeBrackets : WString := [0x29, 0x5D, 0x7D, 0x00BB, 0x201D, 0x2019]

end UriTraits

open UriTraits

/-- The characters from `first` to `last`. -/
def slice (text : WString) (first last : Nat) : WString := (text.take last).drop first

/-- `std::find_if`. -/
def findIf (p : WChar → Bool) (text : WString) (first last : Nat) : Nat :=
  first + (slice text first last).findIdx p

/-- How many brackets of each kind are open behind a character. -/
def countOpen (counters : Nat → Nat) (c : WChar) : Nat → Nat :=
  match openBrackets.findIdx? (· = c) with
  | some i => fun j => if j = i then counters j + 1 else counters j
  | none => counters

/-- The first closing bracket that nothing opens. -/
def unmatched (counters : Nat → Nat) : WString → Option Nat
  | [] => none
  | c :: text =>
    let counters := countOpen counters c
    match closeBrackets.findIdx? (· = c) with
    | some i =>
      if counters i ≠ 0 then
        (unmatched (fun j => if j = i then counters j - 1 else counters j) text).map (· + 1)
      else some 0
    | none => (unmatched counters text).map (· + 1)

/-- An end in front of the start is never met, so that only a bracket stops the loop. -/
def bracketsMismatch (text : WString) (first last : Nat) : Option Nat :=
  if first ≤ last then some (((unmatched (fun _ => 0) (slice text first last)).map (first + ·)).getD last)
  else (unmatched (fun _ => 0) (text.drop first)).map (first + ·)

/-- The end of the result, and the result. -/
def putResult (text : WString) (first last : Nat) : Option (Nat × WString) :=
  (bracketsMismatch text first last).map fun last => (last, slice text first last)

def scanFirst (text : WString) (first last : Nat) : Nat := findIf isAlnum text first last

def scanLast (text : WString) (first last : Nat) : Nat := findIf isWhitespace text first last

def skipSpecs (text : WString) (first last : Nat) : Nat := findIf isAlnum text first last

def trimTrailingPunct (text : WString) (first last : Nat) : Nat :=
  last - (slice text first last).reverse.findIdx fun c => isAlnum c || isAllowedTrailing c

def isPlainWord (text : WString) (first last : Nat) : Bool := (slice text first last).all isAlnum

def validateAuthority (text : WString) (first last : Nat) : Bool :=
  if first = last then false
  else
    let stop := findIf (· = 0x2F) text first last
    let mid := findIf (· = 0x40) text first last
    if mid ≠ stop then true else text[first]? ≠ some 0x2E && text[first]? ≠ some 0x2D

def validateDomain (text : WString) (first last tldFirst tldLength : Nat) : Bool :=
  if tldFirst ≠ last then
    let stop := findIf (· = 0x2F) text first last
    let mid := findIf (· = 0x40) text first stop
    let start := if mid = stop then first else mid
    let stop := findIf (fun c => c = 0x3A || c = 0x3F || c = 0x23) text start stop
    decide (tldFirst + tldLength = stop)
  else false

/-- The value and the digits of a section, and how many sections there are. -/
structure IpAddrScan where
  value : Nat := 0
  digits : Nat := 0
  sections : Nat := 1

/-- Whether four sections are needed. -/
def hasIpAddrPart (needFull : Bool) (s : IpAddrScan) : WString → Bool
  | [] => !(decide (255 < s.value)) && !(decide (s.sections ≠ 4) && needFull)
  | c :: text =>
    if 4 < s.sections then false
    else if isDigit c then
      if 0 < s.digits ∧ s.value = 0 then false
      else if 3 < s.digits then false
      else
        hasIpAddrPart needFull
          { s with value := s.value * 10 + (c - 0x30).toNat, digits := s.digits + 1 } text
    else if c = 0x2E then
      if 255 < s.value then false
      else hasIpAddrPart needFull { value := 0, digits := 0, sections := s.sections + 1 } text
    else !(decide (255 < s.value)) && !(decide (s.sections ≠ 4) && needFull)

def hasIpAddr (text : WString) (first last : Nat) : Bool :=
  hasIpAddrPart true {} (slice text first last)

/-- The searchers that a thread has. -/
structure UriMatcher where
  schemes : RkSearcherSset SchemeType
  domains : RkSearcherSset WString

/-- Where a search ends. -/
structure UriSearch where
  matcher : UriMatcher
  place : Nat
  result : WString
  scheme : SchemeType

namespace UriMatcher

variable (t : UriTraits) (text : WString)

def ofTraits : Option UriMatcher :=
  (RkSearcherSset.ofList t.schemeHashing SchemeType.signature SchemeType.all.length
    SchemeType.all).bind fun schemes =>
      (RkSearcherSset.ofList t.domainHashing id 2048 t.domains).map fun domains =>
        { schemes, domains }

/-- The next scheme between `first` and `last`. -/
def searchScheme (m : UriMatcher) (first last : Nat) : UriMatcher × Option (Nat × SchemeType) :=
  let (schemes, found) := m.schemes.search t.schemeHashing SchemeType.signature (text.take last) none first
  ({ m with schemes }, found)

def searchDomain (m : UriMatcher) (first last : Nat) : UriMatcher × Option (Nat × WString) :=
  let (domains, found) := m.domains.search t.domainHashing id (text.take last) none first
  ({ m with domains }, found)

/-- The loop over the domains in front of `last`, until one ends the host. -/
def validDomain (first last : Nat) (m : UriMatcher) (p : Option (Nat × WString)) :
    Nat → Option (UriMatcher × Bool)
  | 0 => none
  | fuel + 1 =>
    match p with
    | none => some (m, false)
    | some (place, domain) =>
      if place < last then
        if validateDomain text first last place domain.length then some (m, true)
        else
          let (m, p) := m.searchDomain t text place last
          validDomain first last m p fuel
      else some (m, false)

/-- As often as a searcher can go on. -/
def domainFuel (m : UriMatcher) (last : Nat) : Nat := (last + 1) * (m.domains.buckets.length + 1) + 1

def hasDomain (m : UriMatcher) (first last : Nat) : Option (UriMatcher × Bool) :=
  let (m, p) := { m with domains := m.domains.reset }.searchDomain t text first last
  m.validDomain t text first last p (m.domainFuel last)

/-- The expression for the URIs of a scheme, at the beginning of a text. -/
def matchAt (e : UriExpression) (first last : Nat) : Option Nat :=
  match e.search (slice text first last) with
  | some (0, length) => some length
  | _ => none

def uriExpression (scheme : SchemeType) : UriExpression :=
  if scheme = .email then t.expressions.email else t.expressions.url

def hasUrl (first last : Nat) (scheme : SchemeType) : Nat :=
  first + (matchAt text (uriExpression t scheme) first last).getD 0

/-- The place behind the URI, and the result, which stays where there is none. -/
def putMatch (e : UriExpression) (first last : Nat) (scheme : SchemeType) (result : WString) :
    Option (Nat × WString) :=
  match matchAt text e first last with
  | some length => putResult text (first - scheme.signature.length) (first + length)
  | none => some (first, result)

def doMatchUrl (first last : Nat) (scheme : SchemeType) (result : WString) :
    Option (Nat × WString) :=
  putMatch text (uriExpression t scheme) first last scheme result

def doMatchLocalhost (first last : Nat) (scheme : SchemeType) (result : WString) :
    Option (Nat × WString) :=
  if scheme ≠ .http ∧ scheme ≠ .https then some (first, result)
  else putMatch text t.expressions.localhost first last scheme result

def doMatchUrlRelaxed (m : UriMatcher) (first last : Nat) (result : WString) :
    Option (UriMatcher × Nat × WString) :=
  match t.expressions.url.search (slice text first last) with
  | none => some (m, first, result)
  | some (position, length) =>
    let ubegin := first + position
    let uend := ubegin + length
    (m.hasDomain t text ubegin uend).bind fun (m, found) =>
      if found || hasIpAddr text ubegin last then
        (putResult text ubegin uend).map fun (uend, result) => (m, uend, result)
      else some (m, first, result)

/-- The loop over the schemes of a word: the scheme that is found, and where the URI was last taken
to end. -/
structure SchemeLoop where
  matcher : UriMatcher
  place : Nat
  found : SchemeType
  uend : Nat
  result : WString
  scheme : SchemeType

/-- The loop goes on with a scheme, it is left for what has none, or the search is over. -/
inductive SchemeStep where
  | again (s : SchemeLoop)
  | relax (last : Nat) (m : UriMatcher) (result : WString)
  | done (r : UriSearch)

namespace SchemeLoop

def schemeEnd (s : SchemeLoop) : Nat := s.place + s.found.signature.length

def done (s : SchemeLoop) (place : Nat) (result : WString) : SchemeStep :=
  .done { matcher := s.matcher, place, result, scheme := s.scheme }

/-- Maybe a local host, else the next scheme. -/
def stepLocalhost (s : SchemeLoop) (last : Nat) : Option SchemeStep :=
  (doMatchLocalhost t text s.schemeEnd last s.scheme s.result).map fun (uend, result) =>
    if uend ≠ s.schemeEnd then s.done uend result
    else
      match s.matcher.searchScheme t text uend last with
      | (matcher, some (place, found)) => .again { s with matcher, place, found, uend, result }
      | (matcher, none) => .relax last matcher result

/-- A URL with a domain or an address, else a local host. -/
def stepUrl (s : SchemeLoop) (last : Nat) (p : Option (Nat × WString)) : Option SchemeStep :=
  let uend := hasUrl t text s.schemeEnd last s.scheme
  if uend ≠ s.schemeEnd then
    (s.matcher.validDomain t text s.schemeEnd uend p (s.matcher.domainFuel uend)).bind
      fun (matcher, hasTld) =>
        let s := { s with matcher }
        if hasTld then
          if !validateAuthority text s.schemeEnd uend then some (s.done uend s.result)
          else (putResult text s.place uend).map fun (uend, result) => s.done uend result
        else if hasIpAddr text s.schemeEnd uend then
          (doMatchUrl t text s.schemeEnd last s.scheme s.result).map fun (uend, result) =>
            s.done uend result
        else s.stepLocalhost t text last
  else s.stepLocalhost t text last

/-- A domain in front of the scheme ends the loop. -/
def stepDomain (s : SchemeLoop) (first last : Nat) : Option SchemeStep :=
  let (matcher, p) := s.matcher.searchDomain t text first last
  if p.any fun p => decide (p.1 < s.place) then some (.relax s.place matcher s.result)
  else { s with matcher }.stepUrl t text last p

/-- A scheme that is not common is not checked further. Where the search has gone on behind another
scheme, the end is that of the other. -/
def step (s : SchemeLoop) (first last : Nat) : Option SchemeStep :=
  if s.schemeEnd = last then some (s.done last s.result)
  else
    let s := { s with scheme := s.found }
    if !t.settings.isAllowed s.found then some (s.done s.uend s.result)
    else if !s.found.isCommonScheme then
      (bracketsMismatch text s.place s.uend).bind fun uend =>
        if s.found.signature.length < uend - s.place then
          (putResult text s.place uend).map fun (uend, result) => s.done uend result
        else s.stepDomain t text first last
    else s.stepDomain t text first last

end SchemeLoop

/-- What is left where no scheme has a URI. -/
def searchRelaxed (m : UriMatcher) (first last : Nat) (result : WString) : Option UriSearch :=
  let ubegin := skipSpecs text first last
  (m.doMatchUrlRelaxed t text ubegin last result).map fun (matcher, uend, result) =>
    { matcher, place := if uend ≠ ubegin then uend else last, result, scheme := .undefined }

def searchSchemes (s : SchemeLoop) (first last : Nat) : Nat → Option UriSearch
  | 0 => none
  | fuel + 1 =>
    match s.step t text first last with
    | none => none
    | some (.again s) => searchSchemes s first last fuel
    | some (.relax last m result) => m.searchRelaxed t text first last result
    | some (.done r) => some r

/-- The word from a place on. -/
def word (first : Nat) (checkPunct : Bool) : Nat × Nat :=
  let last := text.length
  let first := scanFirst text first last
  let last := scanLast text first last
  (first, if checkPunct then trimTrailingPunct text first last else last)

/-- The word is searched for URIs. -/
def isSearched (first last : Nat) : Bool :=
  !isPlainWord text first last && decide (first ≠ last) && !decide (maxLength < last - first)

def reset (m : UriMatcher) : UriMatcher :=
  { schemes := m.schemes.reset, domains := m.domains.reset }

/-- The loop begins with the first scheme. -/
def enter (m : UriMatcher) (first last : Nat) (result : WString) : UriMatcher × Option SchemeLoop :=
  let (matcher, p) := m.reset.searchScheme t text first last
  (matcher, p.map fun (place, found) =>
    { matcher, place, found, uend := last, result, scheme := .undefined })

def search (m : UriMatcher) (i : Nat) (result : WString) (checkPunct : Bool) : Option UriSearch :=
  if i = text.length then some { matcher := m, place := i, result, scheme := .undefined }
  else
    let (first, last) := word text i checkPunct
    if isSearched text first last then
      match m.enter t text first last result with
      | (_, some s) => searchSchemes t text s first last (last + 1)
      | (m, none) => m.searchRelaxed t text first last result
    else some { matcher := m, place := last, result, scheme := .undefined }

end UriMatcher

end Icq.Common
