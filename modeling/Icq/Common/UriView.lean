import Icq.Common.UriScheme

/-! A URI and its parts. -/

namespace Icq.Common

namespace SchemeType

/-- How long the names are, `SCHEME_OFFSETS`. -/
def offset : SchemeType → Nat
  | undefined => 0
  | https => 5
  | http => 4
  | email => 6
  | sftp => 4
  | tftp => 4
  | ftps => 4
  | ftp => 3
  | ssh => 3
  | smb => 3
  | vnc => 3
  | rdp => 3
  | icq => 3
  | agent => 6
  | biz => 7
  | bizOld => 16
  | dit => 13

def name (scheme : SchemeType) : WString := scheme.signature.take scheme.offset

/-- The scheme with a name in whatever case. -/
def value (text : WString) : SchemeType :=
  (all.find? fun scheme => scheme.name == text.map tolowercase).getD undefined

end SchemeType

structure UriView where
  str : WString := []
  username : WString := []
  password : WString := []
  host : WString := []
  path : WString := []
  query : WString := []
  fragment : WString := []
  scheme : SchemeType := .undefined
  port : Int := -1
  deriving DecidableEq, Repr

namespace UriView

def data (u : UriView) : WString := u.str

def empty (u : UriView) : Bool :=
  u.str.isEmpty || (decide (u.scheme = .undefined) && decide (u.port = -1) && u.username.isEmpty &&
    u.password.isEmpty && u.host.isEmpty && u.path.isEmpty && u.query.isEmpty && u.fragment.isEmpty)

end UriView

namespace UriParser

def isLower (c : WChar) : Bool := inRange 0x61 0x7A c

def isUpper (c : WChar) : Bool := inRange 0x41 0x5A c

def isNumeric (text : WString) : Bool := text.all (inRange 0x30 0x39)

/-- What stands in front of the first place of a character, and behind it. -/
def cut (c : WChar) (text : WString) : Option (WString × WString) :=
  if c ∈ text then some (text.takeWhile (· ≠ c), (text.dropWhile (· ≠ c)).tail) else none

/-- Digits and signs may follow the first letter. -/
def isSchemeChar (c : WChar) : Bool :=
  isLower c || isUpper c || inRange 0x30 0x39 c || decide (c = 0x2B) || decide (c = 0x2D) ||
    decide (c = 0x2E)

def isSchemeText : WString → Bool
  | [] => true
  | c :: text => (isLower c || isUpper c) && text.all isSchemeChar

/-- The place of the last upper case letter, else the beginning. -/
def lastUpper (text : WString) : Nat := text.length - 1 - text.reverse.findIdx isUpper

/-- `none` where it fails; what is no name of a scheme does not. -/
def parseScheme (text : WString) : Option SchemeType :=
  if text = [] then none
  else if !isSchemeText text then some .undefined
  else
    let n := lastUpper text
    some (SchemeType.value ((text.take n).map tolowercase ++ text.drop n))

def parsePort (text : WString) : Option Int :=
  if 5 < text.length ∨ text.length < 1 then none
  else if !isNumeric text then none
  else some (text.foldl (fun value c => value * 10 + (c - 0x30).toNat) 0)

def parseUserinfo (u : UriView) (text : WString) : UriView :=
  match cut 0x3A text with
  | some (username, password) => { u with username, password }
  | none => { u with username := text }

def parseAuthority (u : UriView) (text : WString) : UriView :=
  let (u, text) :=
    match cut 0x40 text with
    | some (userinfo, rest) => (parseUserinfo u userinfo, rest)
    | none => (u, text)
  match cut 0x3A text with
  | some (host, port) => { u with host, port := (parsePort port).getD u.port }
  | none => { u with host := text }

def isDelimiter (c : WChar) : Bool := c = 0x2F || c = 0x23 || c = 0x3F

/-- The end of a path. -/
def endsPath (c : WChar) : Bool := c = 0x23 || c = 0x3F

/-- A query or a fragment begins here. -/
def parseBehind (u : UriView) : WString → UriView
  | [] => u
  | c :: text =>
    if c = 0x23 then { u with fragment := text }
    else
      match cut 0x23 text with
      | some (query, fragment) => { u with query, fragment }
      | none => { u with query := text }

/-- The scheme is known. -/
def parseFrom (scheme : SchemeType) (text : WString) : UriView :=
  let u : UriView := { scheme }
  if text = [] then u
  else
    let u := parseAuthority u (text.takeWhile fun c => !isDelimiter c)
    match text.dropWhile fun c => !isDelimiter c with
    | [] => u
    | c :: text =>
      if c = 0x2F then
        parseBehind { u with path := c :: text.takeWhile fun c => !endsPath c }
          (text.dropWhile fun c => !endsPath c)
      else parseBehind u (c :: text)

/-- The first places of what delimits the parts. -/
structure Marks where
  colon : Option Nat := none
  question : Option Nat := none
  hash : Option Nat := none

/-- A colon counts in front of a question mark, and both in front of a hash. -/
def scan : WString → Nat → Marks → Marks
  | [], _, m => m
  | c :: text, i, m =>
    if c = 0x23 then { m with hash := some i }
    else if m.question.isNone then
      if c = 0x3A ∧ m.colon = none then scan text (i + 1) { m with colon := some i }
      else if c = 0x3F then scan text (i + 1) { m with question := some i }
      else scan text (i + 1) m
    else scan text (i + 1) m

/-- Without a scheme it starts with the text. -/
def findScheme (text : WString) (m : Marks) : SchemeType × Nat :=
  match m.colon with
  | none => (.undefined, 0)
  | some colon =>
    match parseScheme (text.take colon) with
    | some scheme => (scheme, colon + 1)
    | none => (.undefined, 0)

def parseTail (u : UriView) (text : WString) (m : Marks) : UriView :=
  let qpos := m.question.getD text.length
  let hpos := m.hash.getD text.length
  let u := if qpos < hpos then { u with query := (text.take hpos).drop (qpos + 1) } else u
  match m.hash with
  | some hash => { u with fragment := text.drop (hash + 1) }
  | none => u

def parse (text : WString) : UriView :=
  if text = [] then {}
  else
    let m := scan text 0 {}
    let (scheme, hierStart) := findScheme text m
    let hierEnd := min (m.question.getD text.length) (m.hash.getD text.length)
    let hier := (text.take hierEnd).drop hierStart
    if (wide "//").isPrefixOf hier then
      let u := parseAuthority { scheme } ((hier.drop 2).takeWhile (· ≠ 0x2F))
      parseTail { u with path := (hier.drop 2).dropWhile (· ≠ 0x2F) } text m
    else if hier ≠ [] then
      parseFrom scheme (if scheme ≠ .undefined then text.drop hierStart else text)
    else parseTail { scheme } text m

end UriParser

namespace UriView

/-- The scheme is part of the text. -/
def assign (text : WString) : UriView := UriParser.parse text

/-- The scheme is given with the text. -/
def assignScheme (scheme : SchemeType) (uri : WString) : UriView :=
  let sv := scheme.signature
  if uri.length < sv.length then {}
  else if (uri.take sv.length).map tolowercase ≠ sv.map tolowercase then {}
  else { UriParser.parseFrom scheme (uri.drop sv.length) with str := uri.drop sv.length }

end UriView

end Icq.Common
