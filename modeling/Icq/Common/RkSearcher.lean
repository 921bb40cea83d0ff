import Mathlib.Data.List.Sort

/-! Two searchers for many patterns at once. Both look a window of the text up by its hash, and test
the patterns with that hash one by one. -/

namespace Icq.Common

/-- How characters are compared, and what the first of them are hashed to. -/
structure Hashing (α : Type) where
  width : Nat
  width_pos : 0 < width
  equal : α → α → Bool
  hash : List α → Nat

namespace Hashing

/-- The characters of the text are folded where they are compared, and those of both where they are
hashed. -/
def folded {α β : Type} [DecidableEq α] (width : Nat) (hwidth : 0 < width) (fold : α → α)
    (hashFold : α → β) (hash : List β → Nat) : Hashing α where
  width
  width_pos := hwidth
  equal x y := decide (fold x = y)
  hash window := hash (window.map hashFold)

variable {α π : Type} (f : Hashing α) (key : π → List α) (text : List α)

/-- The hash that a pattern is filed under. -/
def code (p : π) : Nat := f.hash ((key p).take f.width)

def window (i : Nat) : List α := (text.drop i).take f.width

/-- The pattern fits between the place and the end, and its characters are equal to those there. -/
def occurs (maxLength : Option Nat) (i : Nat) (p : π) : Bool :=
  (decide ((key p).length ≤ text.length - i) &&
    (match maxLength with
      | none => true
      | some n => decide ((key p).length ≤ n))) &&
    (text.drop i |>.zip (key p)).all fun x => f.equal x.1 x.2

end Hashing

/-- A hash table: which bucket a hash belongs to, and the patterns, in the order in which they are
met in their bucket. -/
structure RkSearcher (π : Type) where
  bucketOf : Nat → Nat
  lookup : List π := []
  /-- What is left of the bucket. -/
  head : List π := []
  patterns : Nat := 0

namespace RkSearcher

variable {α π : Type} (f : Hashing α) (key : π → List α) (text : List α) (maxLength : Option Nat)

/-- A pattern that is there already, or is too short, is left out. -/
def emplace [DecidableEq α] (s : RkSearcher π) (p : π) : RkSearcher π :=
  if (key p).length < f.width then { s with patterns := 0 }
  else if s.lookup.any fun q => key q = key p then { s with patterns := 0 }
  else { s with lookup := s.lookup ++ [p], patterns := 0 }

def ofList [DecidableEq α] (bucketOf : Nat → Nat) (patterns : List π) : RkSearcher π :=
  patterns.foldl (emplace f key) { bucketOf }

def bucket (s : RkSearcher π) (hash : Nat) : List π :=
  s.lookup.filter fun p => s.bucketOf (f.code key p) == s.bucketOf hash

/-- The first of the candidates that occurs, and those after it. -/
def firstOf (occurs : π → Bool) : List π → Option (π × List π)
  | [] => none
  | p :: rest => if occurs p then some (p, rest) else firstOf occurs rest

/-- The loop over the places, of which there are `n`. -/
def searchLoop (s : RkSearcher π) (reset : Bool) (i : Nat) :
    Nat → RkSearcher π × Option (Nat × π)
  | 0 => (s, none)
  | n + 1 =>
    let s := if reset then { s with head := s.bucket f key (f.hash (f.window text i)) } else s
    match firstOf (f.occurs key text maxLength i) s.head with
    | some (p, rest) => ({ s with head := rest }, some (i, p))
    | none => searchLoop { s with head := [] } true (i + 1) n

/-- No result stands for the end of the text. -/
def search (s : RkSearcher π) (i : Nat) : RkSearcher π × Option (Nat × π) :=
  if s.lookup.isEmpty then (s, none)
  else if text.length - i < f.width then (s, none)
  else
    searchLoop f key text maxLength { s with patterns := s.lookup.length }
      (s.patterns != s.lookup.length) i (text.length - (f.width - 1) - i)

def reset (s : RkSearcher π) : RkSearcher π := { s with patterns := 0 }

end RkSearcher

inductive ReorderingPolicy where
  | none
  | mtf
  | transpose

/-- The patterns after a match at `cur` in the bucket, of which `first` was the next to be tested,
and where the pattern is then. -/
def ReorderingPolicy.reorder {π : Type} (policy : ReorderingPolicy) (cur first : Nat)
    (patterns : List π) : List π × Nat :=
  if cur = first then (patterns, cur)
  else
    match policy with
    | .none => (patterns, cur)
    | .mtf =>
      (patterns.take first ++ ((patterns.drop cur).take 1 ++ (patterns.take cur).drop first) ++
        patterns.drop (cur + 1), first)
    | .transpose =>
      (patterns.take (cur - 1) ++ ((patterns.drop cur).take 1 ++ (patterns.drop (cur - 1)).take 1) ++
        patterns.drop (cur + 1), cur - 1)

/-- Hashes and patterns in two arrays. -/
structure RkSearcherSset (π : Type) where
  buckets : List Nat := []
  patterns : List π := []
  offset : Nat := 0
  hashCode : Nat := 0
  count : Nat := 0
  reordering : ReorderingPolicy := .none

namespace RkSearcherSset

variable {α π : Type} (f : Hashing α) (key : π → List α) (text : List α) (maxLength : Option Nat)

def linearSearchThreshold : Nat := 8 * 64

def preferLinearSearch (s : RkSearcherSset π) : Bool := decide (s.buckets.length < linearSearchThreshold)

/-- Behind the hashes that are the same. -/
def insertBehind (h : Nat) (p : π) : List Nat → List π → List Nat × List π
  | b :: buckets, q :: patterns =>
    if b = h then
      let (buckets, patterns) := insertBehind h p buckets patterns
      (b :: buckets, q :: patterns)
    else (h :: b :: buckets, p :: q :: patterns)
  | _, _ => ([h], [p])

/-- A pattern takes the place of the first with its hash where that is equal. -/
def insertPattern [DecidableEq α] (h : Nat) (p : π) : List Nat → List π → List Nat × List π
  | b :: buckets, q :: patterns =>
    if b = h then
      if key q = key p then (b :: buckets, p :: patterns)
      else insertBehind h p (b :: buckets) (q :: patterns)
    else
      let (buckets, patterns) := insertPattern h p buckets patterns
      (b :: buckets, q :: patterns)
  | _, _ => ([h], [p])

/-- `none` where the searcher overflows. -/
def insert [DecidableEq α] (maxSize : Nat) (s : RkSearcherSset π) (p : π) :
    Option (RkSearcherSset π) :=
  if maxSize < s.buckets.length then none
  else if (key p).length < f.width then some s
  else
    let (buckets, patterns) := insertPattern key (f.code key p) p s.buckets s.patterns
    some { s with buckets, patterns }

/-- The two arrays are sorted together by the hashes, where there are many. -/
def sortBuckets (s : RkSearcherSset π) : RkSearcherSset π :=
  if s.preferLinearSearch then s
  else
    let sorted := (s.buckets.zip s.patterns).insertionSort fun a b => a.1 ≤ b.1
    { s with buckets := sorted.map (·.1), patterns := sorted.map (·.2) }

def ofList [DecidableEq α] (maxSize : Nat) (patterns : List π) : Option (RkSearcherSset π) :=
  (patterns.foldlM (fun s p => if (key p).length < f.width then some s else insert f key maxSize s p)
    ({} : RkSearcherSset π)).map sortBuckets

def bucket (s : RkSearcherSset π) (hash : Nat) : Nat :=
  if s.preferLinearSearch then s.buckets.findIdx fun b => b == hash
  else s.buckets.findIdx fun b => decide (hash ≤ b)

/-- How many of the patterns with the hash are passed, and whether one is met that occurs. -/
def scan (occurs : π → Bool) (hash : Nat) : List Nat → List π → Nat × Bool
  | b :: buckets, p :: patterns =>
    if b = hash then
      if occurs p then (0, true)
      else
        let (k, found) := scan occurs hash buckets patterns
        (k + 1, found)
    else (0, false)
  | _, _ => (0, false)

/-- Begin with the bucket of a place. -/
def enter (s : RkSearcherSset π) (i : Nat) : RkSearcherSset π :=
  let hashCode := f.hash (f.window text i)
  { s with hashCode, offset := s.bucket hashCode }

def searchLoop (s : RkSearcherSset π) (reset : Bool) (i : Nat) :
    Nat → RkSearcherSset π × Option (Nat × π)
  | 0 => (s, none)
  | n + 1 =>
    let s := if reset then s.enter f text i else s
    match scan (f.occurs key text maxLength i) s.hashCode (s.buckets.drop s.offset)
      (s.patterns.drop s.offset) with
    | (k, true) =>
      let (patterns, cur) := s.reordering.reorder (s.offset + k) s.offset s.patterns
      ({ s with patterns, offset := s.offset + k + 1 }, patterns[cur]?.map (Prod.mk i))
    | (k, false) => searchLoop { s with offset := s.offset + k } true (i + 1) n

def search (s : RkSearcherSset π) (i : Nat) : RkSearcherSset π × Option (Nat × π) :=
  if s.buckets.isEmpty then (s, none)
  else if text.length - i < f.width then (s, none)
  else
    searchLoop f key text maxLength { s with count := s.buckets.length }
      (s.count != s.buckets.length) i (text.length - (f.width - 1) - i)

def reset (s : RkSearcherSset π) : RkSearcherSset π := { s with count := 0 }

def setReordering (s : RkSearcherSset π) (policy : ReorderingPolicy) : RkSearcherSset π :=
  { s with reordering := policy }

end RkSearcherSset

end Icq.Common
