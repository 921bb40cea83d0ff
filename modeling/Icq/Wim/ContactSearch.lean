import Icq.Lib.Words
import Icq.Wim.ContactList

/-! The search for contacts by a pattern, among all contacts or among what the last search found. -/

namespace Icq.Wim
open Icq.Lib

/-- What the search leaves to the platform: upper case, and the wide characters of a text. -/
structure Letters where
  toUpper : Bytes → Bytes
  fromUtf8 : Bytes → List UInt32

def isSpace (c : UInt8) : Bool := (ascii [' ', '\n', '\t', '\r']).contains c

def getWords (text : Bytes) : List Bytes := words isSpace text

def isEmailSym (c : UInt8) : Bool :=
  decide (0x61 ≤ c ∧ c ≤ 0x7a ∨ 0x41 ≤ c ∧ c ≤ 0x5a) || decide (0x30 ≤ c ∧ c ≤ 0x39) ||
    decide (c = 0x5f ∨ c = 0x2e ∨ c = 0x2d)

def isEmailFrom (alpha : Bool) (name domain dots : Nat) : Bytes → Bool
  | [] => alpha && decide (0 < name) && decide (dots < domain) && decide (0 < dots)
  | c :: value =>
    if c = 0x40 then !alpha && isEmailFrom true name domain dots value
    else if !isEmailSym c then false
    else if !alpha then isEmailFrom alpha (name + 1) domain dots value
    else isEmailFrom alpha name (domain + 1) (if c = 0x2e then dots + 1 else dots) value

def isEmail (value : Bytes) : Bool := isEmailFrom false 0 0 0 value

def searchCacheOf (l : Letters) (aimid : Bytes) (p : ClPresence) : SearchCache :=
  { aimid := l.toUpper aimid
    friendly := l.toUpper p.friendly
    nick := l.toUpper p.nick
    ab := l.toUpper p.abContactName
    smsNumber := p.smsNumber
    friendlyWords := getWords (l.toUpper p.friendly)
    abWords := getWords (l.toUpper p.abContactName) }

def prepareSearchCache (l : Letters) (aimid : Bytes) (p : ClPresence) : ClPresence :=
  if p.searchCache.isEmpty then { p with searchCache := searchCacheOf l aimid p } else p

/-- One way in which a contact matches; the highlights are a set. -/
structure Addition where
  highlights : List Bytes
  priority : Nat

def check (pattern word : Bytes) : List Addition :=
  match findText word pattern with
  | none => []
  | some pos =>
    [⟨[pattern], if word.length = pattern.length ∨ pos = 0 ∨ word[pos - 1]? = some 0x20 then 0
      else 1⟩]

def checkAtStart (pattern word : Bytes) : List Addition :=
  if findText word pattern = some 0 then
    [⟨[pattern], if word.length = pattern.length then 0 else 1⟩]
  else []

def startWords : List Bytes → List Bytes → Bool
  | p :: patterns, w :: words =>
    decide (findText w p = some 0) && (words.isEmpty || startWords patterns words)
  | _, _ => false

def checkMulti (patterns words : List Bytes) : List Addition :=
  if startWords patterns words then [⟨patterns.dedup, 0⟩] else []

/-- The first letters of the words, the pattern's from its last word on. -/
def checkFirstChars (l : Letters) (patterns words : List Bytes) : List Addition :=
  if (patterns.reverse.zip words).all fun (p, w) =>
      match (l.fromUtf8 w).head?, (l.fromUtf8 p).head? with
      | some f, some s => decide (f = s)
      | _, _ => true
  then [⟨[], 0⟩] else []

def checkWords (l : Letters) (patterns words : List Bytes) : List Addition :=
  if words.length = patterns.length then
    checkMulti patterns words ++
      if 2 ≤ patterns.length ∧ patterns.all (·.length = 1) then checkFirstChars l patterns words
      else []
  else []

def withAtCropped (pattern : Bytes) : Bytes :=
  if 1 < pattern.length ∧ pattern.head? = some 0x40 then pattern.tail else []

/-- All ways in which a contact matches the pattern. -/
def checks (l : Letters) (pattern : Bytes) (c : SearchCache) (isChat : Bool) : List Addition :=
  check pattern c.friendly ++
  (if c.nick.isEmpty then []
    else check pattern c.nick ++
      if (withAtCropped pattern).isEmpty || isEmail c.aimid then []
      else checkAtStart (withAtCropped pattern) c.nick) ++
  check pattern c.ab ++
  (if isChat then []
    else check pattern c.aimid ++
      (if (withAtCropped pattern).isEmpty then [] else checkAtStart (withAtCropped pattern) c.aimid) ++
      check pattern c.smsNumber) ++
  checkWords l (getWords pattern) c.friendlyWords ++
  checkWords l (getWords pattern) c.abWords

structure SearchResult where
  aimid : Bytes
  highlights : List Bytes

abbrev SearchPriority : Type := KeyMap (Prod.fst : Bytes × Nat → Bytes)

structure Found where
  cache : ClBuddiesMap := ∅
  priority : SearchPriority := ∅
  results : List SearchResult := []

/-- A match is shown if it is of the whole pattern; a set of highlights is asked for its first one
only where it has no other. -/
def Addition.shown (baseWordCount : Nat) (a : Addition) : Bool :=
  decide (baseWordCount ≤ 1) || decide (1 < a.highlights.length) ||
    a.highlights.head?.any fun h => decide ((getWords h).length = baseWordCount)

def addHighlights (aimid : Bytes) (highlights : List Bytes) : List SearchResult → List SearchResult
  | [] => []
  | r :: results =>
    if r.aimid = aimid then { r with highlights := r.highlights ∪ highlights } :: results
    else r :: addHighlights aimid highlights results

def addToSearchResults (baseWordCount : Nat) (b : ClBuddy) (f : Found) (a : Addition) : Found :=
  let f := { f with cache := f.cache.insert b }
  if a.shown baseWordCount then
    match f.priority.find? b.aimid with
    | some (_, p) => { f with
        priority := f.priority.put (b.aimid, min p a.priority)
        results := addHighlights b.aimid a.highlights f.results }
    | none => { f with
        priority := f.priority.put (b.aimid, a.priority)
        results := f.results ++ [⟨b.aimid, a.highlights⟩] }
  else f

namespace ContactList

def isIgnored (s : ContactList) (aimid : Bytes) : Bool := s.ignorelist.contains aimid

/-- The contacts of the index, and the trusted ones that are not there. -/
def allContacts (s : ContactList) : ClBuddiesMap :=
  s.trustedContacts.items.foldl KeyMap.insert s.contactsIndex

def skipped (s : ContactList) (b : ClBuddy) : Bool :=
  s.isIgnored b.aimid || decide ((s.presences b.object).usertype = ascii ['s', 'm', 's'])

def lookAt (l : Letters) (pattern : Bytes) (sf : ContactList × Found) (b : ClBuddy) :
    ContactList × Found :=
  let (s, f) := sf
  if s.skipped b then (s, f)
  else
    let p := prepareSearchCache l b.aimid (s.presences b.object)
    ({ s with presences := Function.update s.presences b.object p },
      (checks l pattern p.searchCache p.isChat).foldl
        (addToSearchResults (getWords pattern).length b) f)

def needNewCache (s : ContactList) (pattern : Bytes) : Bool :=
  s.needUpdateSearchCache || s.lastSearchPattern.isEmpty ||
    decide (pattern.length < s.lastSearchPattern.length) ||
    decide (pattern.head? = some 0x40) ||
    (findText pattern s.lastSearchPattern).isNone ||
    decide ((getWords s.lastSearchPattern).length ≠ (getWords pattern).length)

/-- Whom a search looks at. -/
def candidates (s : ContactList) (pattern : Bytes) : ClBuddiesMap :=
  if s.needNewCache pattern then s.allContacts else s.searchCache

/-- A search that is not called off; without a pattern it shows all contacts. -/
def search (l : Letters) (s : ContactList) (pattern : Bytes) : ContactList × List SearchResult :=
  if pattern.isEmpty then (s, s.allContacts.items.map fun b => ⟨b.aimid, []⟩)
  else
    let (t, f) := (s.candidates pattern).items.foldl (lookAt l pattern) (s, {})
    ({ t with
       needUpdateSearchCache := s.needUpdateSearchCache && !s.needNewCache pattern
       searchCache := f.cache
       lastSearchPattern := pattern }, f.results)

end ContactList

end Icq.Wim
