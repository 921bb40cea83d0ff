import Icq.Lib.OrderedChoice
import Icq.Lib.Scalar
import Icq.Lib.Scan

/-! Whether a word has a pattern, each position of which can be spelled in several ways. -/

namespace Icq.Tools
open Icq.Lib

inductive OutOfRange where
  | outOfRange

/-- What `compare` reads from a place on, which is kept in an `int32_t`. As a `size_t` a negative one
is behind every end. -/
def textAt (word : Bytes) (pos : Nat) : Option Bytes :=
  if pos % 2 ^ 32 < 2 ^ 31 ∧ pos % 2 ^ 32 ≤ word.length then some (word.drop (pos % 2 ^ 32))
  else none

/-- The loop over the spellings of a position. -/
def findSpelling (word : Bytes) (pos : Nat) : List Bytes → Except OutOfRange (Option Bytes)
  | [] => .ok none
  | tt :: spellings =>
    match textAt word pos with
    | none => .error .outOfRange
    | some text => if tt.isPrefixOf text then .ok (some tt) else findSpelling word pos spellings

/-- The positions behind the first one, with what they add to the text that is found. -/
def containsOnPos (word : Bytes) (offset : Nat) :
    List (List Bytes) → Nat → Bytes → Except OutOfRange (Option Bytes)
  | [], _, pattern => return some pattern
  | spellings :: rest, pos, pattern => do
    match ← findSpelling word pos (spellings.drop offset) with
    | none => return none
    | some tt => containsOnPos word offset rest (pos + tt.length) (pattern ++ tt)

structure Containment where
  found : Bool
  pattern : Bytes
  priority : Int

def Containment.of (word pattern : Bytes) (prevPos : Nat) : Containment :=
  ⟨true, pattern, if word.length = pattern.length ∨ prevPos = 0 ∨ word[prevPos - 1]? = some 0x20
    then 0 else 1⟩

/-- The loop over the places of a spelling of the first position. Each is behind the one before. -/
def containsFirst (rest : List (List Bytes)) (word : Bytes) (fixedPatternsCount : Nat) (s : Bytes) :
    Nat → Option Nat → Except OutOfRange (Option Containment)
  | fuel + 1, some pos =>
    -- a spelling that ends the word is not tried
    if s.isEmpty || decide (word.length - 1 < pos + s.length) then return none
    else do
      match ← containsOnPos word fixedPatternsCount rest (pos + s.length) s with
      | some pattern => return some (.of word pattern pos)
      | none =>
        containsFirst rest word fixedPatternsCount s fuel (findFrom word s (pos + s.length))
  | _, _ => return none

def containsLoop (rest : List (List Bytes)) (word : Bytes) (fixedPatternsCount : Nat)
    (startsWith : Bool) : List Bytes → Except OutOfRange Containment
  | [] => return ⟨false, [], -1⟩
  | s :: spellings =>
    let pos := findFrom word s 0
    -- only the first place is asked to be the beginning
    if startsWith && pos != some 0 then
      containsLoop rest word fixedPatternsCount startsWith spellings
    else do
      match ← containsFirst rest word fixedPatternsCount s (word.length + 1) pos with
      | some r => return r
      | none => containsLoop rest word fixedPatternsCount startsWith spellings

/-- The spellings in front of `fixedPatternsCount` are looked for by themselves before. -/
def contains (patterns : List (List Bytes)) (word : Bytes) (fixedPatternsCount : Nat)
    (startsWith : Bool) : Except OutOfRange Containment :=
  match patterns with
  | [] => return ⟨true, [], -1⟩
  | first :: rest =>
    containsLoop rest word fixedPatternsCount startsWith (first.drop fixedPatternsCount)

/-- The spellings a call chooses from. -/
def considered (fixedPatternsCount : Nat) (patterns : List (List Bytes)) : List (List Bytes) :=
  patterns.map (·.drop fixedPatternsCount)

section

variable {first spellings : List Bytes} {rest patterns : List (List Bytes)}
  {word pattern s spelling text : Bytes} {fixed pos p fuel : Nat} {startsWith : Bool}

theorem findSpelling_of_text (h : textAt word pos = some text) :
    findSpelling word pos spellings = .ok (spellings.find? (·.isPrefixOf text)) := by
  induction spellings with
  | nil => rfl
  | cons tt spellings ih =>
    rw [findSpelling, h, List.find?_cons]
    dsimp only
    cases tt.isPrefixOf text with
    | true => rfl
    | false => exact ih

theorem findSpelling_out (h : textAt word pos = none) (hne : spellings ≠ []) :
    findSpelling word pos spellings = .error .outOfRange := by
  obtain ⟨tt, spellings, rfl⟩ := List.exists_cons_of_ne_nil hne
  rw [findSpelling, h]

theorem containsOnPos_next {tt : Bytes} (htext : textAt word pos = some text)
    (hfind : (spellings.drop fixed).find? (·.isPrefixOf text) = some tt) :
    containsOnPos word fixed (spellings :: rest) pos pattern =
      containsOnPos word fixed rest (pos + tt.length) (pattern ++ tt) := by
  rw [containsOnPos, findSpelling_of_text htext, hfind]
  rfl

theorem containsOnPos_out (htext : textAt word pos = none) (hne : spellings.drop fixed ≠ []) :
    containsOnPos word fixed (spellings :: rest) pos pattern = .error .outOfRange := by
  rw [containsOnPos, findSpelling_out htext hne]
  rfl

/-- What one position can do: let the next follow, be looked for out of range, or miss. -/
theorem containsOnPos_cases (spellings : List Bytes) (rest : List (List Bytes)) (word : Bytes)
    (fixed pos : Nat) (pattern : Bytes) :
    (∃ text tt, textAt word pos = some text ∧
      (spellings.drop fixed).find? (·.isPrefixOf text) = some tt ∧
        containsOnPos word fixed (spellings :: rest) pos pattern =
          containsOnPos word fixed rest (pos + tt.length) (pattern ++ tt)) ∨
    (textAt word pos = none ∧ spellings.drop fixed ≠ [] ∧
      containsOnPos word fixed (spellings :: rest) pos pattern = .error .outOfRange) ∨
    containsOnPos word fixed (spellings :: rest) pos pattern = .ok none := by
  cases htext : textAt word pos with
  | none =>
    by_cases hne : spellings.drop fixed = []
    · refine .inr (.inr ?_)
      rw [containsOnPos, hne]
      rfl
    · exact .inr (.inl ⟨rfl, hne, containsOnPos_out htext hne⟩)
  | some text =>
    cases hfind : (spellings.drop fixed).find? (·.isPrefixOf text) with
    | none =>
      refine .inr (.inr ?_)
      rw [containsOnPos, findSpelling_of_text htext, hfind]
      rfl
    | some tt => exact .inl ⟨text, tt, rfl, hfind, containsOnPos_next htext hfind⟩

/-- The positions are gone through to the end just where the first spelling of each that stands
there lets the next one follow. -/
theorem containsOnPos_found {found : Bytes} :
    containsOnPos word fixed rest pos pattern = .ok (some found) ↔
      ∃ ts, Chosen (textAt word) (considered fixed rest) pos ts ∧ found = pattern ++ ts.flatten := by
  induction rest generalizing pos pattern with
  | nil =>
    constructor
    · intro h
      cases h
      exact ⟨[], .nil pos, (List.append_nil _).symm⟩
    · rintro ⟨ts, hts, rfl⟩
      cases hts
      exact congrArg (Except.ok ∘ some) (List.append_nil pattern).symm
  | cons spellings rest ih =>
    constructor
    · intro h
      rcases containsOnPos_cases spellings rest word fixed pos pattern with
        ⟨text, tt, htext, hfind, he⟩ | ⟨-, -, he⟩ | he
      · obtain ⟨ts, hts, rfl⟩ := ih.mp (he ▸ h)
        exact ⟨tt :: ts, .cons htext hfind hts, by rw [List.flatten_cons, List.append_assoc]⟩
      · rw [he] at h
        cases h
      · rw [he] at h
        cases h
    · rintro ⟨ts, hts, rfl⟩
      cases hts with
      | @cons _ _ _ text tt ts htext hfind hts =>
        have hmore : pattern ++ (tt :: ts).flatten = pattern ++ tt ++ ts.flatten := by
          rw [List.flatten_cons, List.append_assoc]
        rw [containsOnPos_next htext hfind]
        exact ih.mpr ⟨ts, hts, hmore⟩

theorem containsOnPos_throws :
    (∃ e, containsOnPos word fixed rest pos pattern = .error e) ↔
      Strays (textAt word) (considered fixed rest) pos := by
  induction rest generalizing pos pattern with
  | nil =>
    constructor
    · rintro ⟨e, he⟩
      cases he
    · intro h
      cases h
  | cons spellings rest ih =>
    constructor
    · rintro ⟨e, hthrows⟩
      rcases containsOnPos_cases spellings rest word fixed pos pattern with
        ⟨text, tt, htext, hfind, he⟩ | ⟨htext, hne, -⟩ | he
      · exact .later htext hfind (ih.mp ⟨e, he ▸ hthrows⟩)
      · exact .here htext hne
      · rw [he] at hthrows
        cases hthrows
    · intro h
      cases h with
      | here htext hne => exact ⟨.outOfRange, containsOnPos_out htext hne⟩
      | @later _ _ _ text tt htext hfind hstrays =>
        rw [containsOnPos_next htext hfind]
        exact ih.mpr hstrays

/-- What comes of a spelling of the first position at a place. -/
def attempt (rest : List (List Bytes)) (word : Bytes) (fixedPatternsCount : Nat) (v : Bytes × Nat) :
    Except OutOfRange (Option Containment) := do
  match ← containsOnPos word fixedPatternsCount rest (v.2 + v.1.length) v.1 with
  | some pattern => return some (.of word pattern v.2)
  | none => return none

/-- From a spelling of the first position on, the others are gone through to the end. -/
def GoesThrough (rest : List (List Bytes)) (word : Bytes) (fixed : Nat) (v : Bytes × Nat) : Prop :=
  ∃ ts, Chosen (textAt word) (considered fixed rest) (v.2 + v.1.length) ts

theorem attempt_eq_found {v : Bytes × Nat} {r : Containment} :
    attempt rest word fixed v = .ok (some r) ↔ ∃ found,
      containsOnPos word fixed rest (v.2 + v.1.length) v.1 = .ok (some found) ∧
        r = .of word found v.2 := by
  rw [attempt]
  cases containsOnPos word fixed rest (v.2 + v.1.length) v.1 with
  | error e =>
    refine iff_of_false nofun ?_
    rintro ⟨found, h, -⟩
    cases h
  | ok o =>
    cases o with
    | none =>
      refine iff_of_false nofun ?_
      rintro ⟨found, h, -⟩
      cases h
    | some found =>
      constructor
      · intro h
        cases h
        exact ⟨found, rfl, rfl⟩
      · rintro ⟨found, h, rfl⟩
        cases h
        rfl

theorem attempt_succeeds {v : Bytes × Nat} :
    Succeeds (attempt rest word fixed) v ↔ GoesThrough rest word fixed v := by
  constructor
  · rintro ⟨r, hr⟩
    obtain ⟨found, hfound, -⟩ := attempt_eq_found.mp hr
    obtain ⟨ts, hts, -⟩ := containsOnPos_found.mp hfound
    exact ⟨ts, hts⟩
  · rintro ⟨ts, hts⟩
    exact ⟨_, attempt_eq_found.mpr ⟨_, containsOnPos_found.mpr ⟨ts, hts, rfl⟩, rfl⟩⟩

theorem attempt_found {v : Bytes × Nat} {r : Containment}
    (h : attempt rest word fixed v = .ok (some r)) : r.found = true := by
  obtain ⟨found, -, rfl⟩ := attempt_eq_found.mp h
  rfl

theorem attempt_throws {v : Bytes × Nat} : Throws (attempt rest word fixed) v ↔
    Strays (textAt word) (considered fixed rest) (v.2 + v.1.length) := by
  rw [← @containsOnPos_throws _ _ v.1, Throws, attempt]
  cases containsOnPos word fixed rest (v.2 + v.1.length) v.1 with
  | error e => exact iff_of_true ⟨e, rfl⟩ ⟨e, rfl⟩
  | ok o =>
    refine iff_of_false ?_ ?_
    · rintro ⟨e, he⟩
      cases o <;> cases he
    · rintro ⟨e, he⟩
      cases he

/-- The places at which a spelling of the first position is tried. -/
def triesOf (word s : Bytes) : List (Bytes × Nat) :=
  if s.isEmpty then []
  else ((scan word s).takeWhile fun p => decide (p + s.length < word.length)).map (s, ·)

def tries (spellings : List Bytes) (word : Bytes) (startsWith : Bool) : List (Bytes × Nat) :=
  spellings.flatMap fun s =>
    if startsWith && !s.isPrefixOf word then [] else triesOf word s

theorem containsFirst_scan (hs : s ≠ []) :
    containsFirst rest word fixed s fuel (findFrom word s pos) =
      (((scanFrom word s fuel pos).takeWhile fun p => decide (p + s.length < word.length)).map
        (s, ·)).findSomeM? (attempt rest word fixed) := by
  induction fuel generalizing pos with
  | zero => rfl
  | succ fuel ih =>
    rw [scanFrom]
    cases findFrom word s pos with
    | none => rfl
    | some p =>
      have hlen := List.length_pos_iff.mpr hs
      have hempty : s.isEmpty = false := List.isEmpty_eq_false_iff.mpr hs
      dsimp only
      rw [containsFirst, List.takeWhile_cons, hempty, Bool.false_or]
      by_cases hin : p + s.length < word.length
      · rw [if_neg (by rw [decide_eq_true_iff]; omega), decide_eq_true hin, if_pos rfl,
          List.map_cons, List.findSomeM?_cons, attempt]
        cases containsOnPos word fixed rest (p + s.length) s with
        | error e => rfl
        | ok o =>
          cases o with
          | some pattern => rfl
          | none => exact ih
      · rw [if_pos (by rw [decide_eq_true_iff]; omega), decide_eq_false hin]
        rfl

theorem containsFirst_eq :
    containsFirst rest word fixed s (word.length + 1) (findFrom word s 0) =
      (triesOf word s).findSomeM? (attempt rest word fixed) := by
  cases hempty : s.isEmpty with
  | true =>
    rw [triesOf, hempty]
    cases findFrom word s 0 with
    | none => rfl
    | some p =>
      rw [containsFirst, hempty]
      rfl
  | false =>
    rw [containsFirst_scan (List.isEmpty_eq_false_iff.mp hempty), triesOf, hempty]
    rfl

theorem skips_iff : (findFrom word s 0 != some 0) = !s.isPrefixOf word := by
  have hat : findFrom word s 0 = some 0 ↔ s.isPrefixOf word = true := by
    rw [findFrom_zero, findText_zero, List.isPrefixOf_iff_prefix]
  rw [Bool.eq_iff_iff, bne_iff_ne, Bool.not_eq_true', ← Bool.not_eq_true]
  exact not_congr hat

theorem containsLoop_eq : containsLoop rest word fixed startsWith spellings = (do
    match ← (tries spellings word startsWith).findSomeM? (attempt rest word fixed) with
    | some r => return r
    | none => return ⟨false, [], -1⟩) := by
  induction spellings with
  | nil => rfl
  | cons s spellings ih =>
    rw [tries, List.flatMap_cons, ← tries, findSomeM?_append, containsLoop, skips_iff,
      containsFirst_eq, ih]
    cases startsWith && !s.isPrefixOf word with
    | true => rfl
    | false =>
      rw [if_neg Bool.false_ne_true, if_neg Bool.false_ne_true]
      cases (triesOf word s).findSomeM? (attempt rest word fixed) with
      | error e => rfl
      | ok o => cases o <;> rfl

/-- A choice of one spelling for each position stands in the word, or the word starts with it. -/
def PatternOccurs (patterns : List (List Bytes)) (word : Bytes) (startsWith : Bool) : Prop :=
  ∃ ts ∈ patterns.sections, if startsWith then ts.flatten <+: word else ts.flatten <:+: word

/-- The search is at an end, and has found the pattern just where it occurs. -/
def FindsPattern (patterns : List (List Bytes)) (word : Bytes) (fixedPatternsCount : Nat)
    (startsWith : Bool) : Prop :=
  ∃ r, contains patterns word fixedPatternsCount startsWith = .ok r ∧
    (r.found = true ↔ PatternOccurs (considered fixedPatternsCount patterns) word startsWith)

theorem contains_found {r : Containment}
    (h : contains (first :: rest) word fixed startsWith = .ok r) : r.found = true ↔
      ∃ v ∈ tries (first.drop fixed) word startsWith, GoesThrough rest word fixed v := by
  rw [contains, containsLoop_eq] at h
  cases htries : (tries (first.drop fixed) word startsWith).findSomeM? (attempt rest word fixed) with
  | error e =>
    rw [htries] at h
    cases h
  | ok o =>
    rw [htries] at h
    rcases findSomeM?_cases htries with ⟨found, rfl, v, hv, hfound⟩ | ⟨rfl, hnone⟩
    · cases h
      exact iff_of_true (attempt_found hfound) ⟨v, hv, attempt_succeeds.mp ⟨_, hfound⟩⟩
    · cases h
      refine iff_of_false Bool.false_ne_true ?_
      rintro ⟨v, hv, hgoes⟩
      obtain ⟨found, hfound⟩ := attempt_succeeds.mpr hgoes
      rw [hnone v hv] at hfound
      cases hfound

theorem contains_returns : (∃ r, contains (first :: rest) word fixed startsWith = .ok r) ↔
    ∀ before v after, tries (first.drop fixed) word startsWith = before ++ v :: after →
      Strays (textAt word) (considered fixed rest) (v.2 + v.1.length) →
        ∃ u ∈ before, GoesThrough rest word fixed u := by
  have hreturns := @findSomeM?_returns _ _ _ (attempt rest word fixed)
    (tries (first.drop fixed) word startsWith)
  simp only [Guarded, attempt_throws, attempt_succeeds] at hreturns
  rw [← hreturns, contains, containsLoop_eq]
  cases (tries (first.drop fixed) word startsWith).findSomeM? (attempt rest word fixed) with
  | error e =>
    refine iff_of_false ?_ ?_
    · rintro ⟨r, hr⟩
      cases hr
    · rintro ⟨o, ho⟩
      cases ho
  | ok o =>
    refine iff_of_true ?_ ⟨o, rfl⟩
    cases o with
    | none => exact ⟨_, rfl⟩
    | some r => exact ⟨r, rfl⟩

theorem mem_triesOf : (s, p) ∈ triesOf word spelling ↔
    s = spelling ∧ s ≠ [] ∧ p ∈ scan word s ∧ p + s.length < word.length := by
  rw [triesOf]
  cases hempty : spelling.isEmpty with
  | true =>
    obtain rfl := List.isEmpty_iff.mp hempty
    refine iff_of_false List.not_mem_nil ?_
    rintro ⟨rfl, hne, -⟩
    exact hne rfl
  | false =>
    have hne := List.isEmpty_eq_false_iff.mp hempty
    rw [if_neg Bool.false_ne_true, List.mem_map]
    constructor
    · rintro ⟨p, hp, he⟩
      cases he
      exact ⟨rfl, hne, (mem_takeWhile_lt scanFrom_pairwise _ _).mp hp⟩
    · rintro ⟨rfl, -, hp⟩
      exact ⟨p, (mem_takeWhile_lt scanFrom_pairwise _ _).mpr hp, rfl⟩

theorem mem_tries : (s, p) ∈ tries spellings word startsWith ↔
    s ∈ spellings ∧ s ≠ [] ∧ (startsWith = true → s <+: word) ∧ p ∈ scan word s ∧
      p + s.length < word.length := by
  rw [tries, List.mem_flatMap]
  constructor
  · rintro ⟨spelling, hmem, h⟩
    split at h
    · cases h
    · rename_i hstart
      obtain ⟨rfl, hne, hscan, hin⟩ := mem_triesOf.mp h
      refine ⟨hmem, hne, fun hs => ?_, hscan, hin⟩
      simpa [hs] using hstart
  · rintro ⟨hmem, hne, hstart, hscan, hin⟩
    refine ⟨s, hmem, ?_⟩
    rw [if_neg (by simpa using hstart)]
    exact mem_triesOf.mpr ⟨rfl, hne, hscan, hin⟩

/-- What a word and the spellings must be like for the search to find the pattern where it
occurs. -/
structure SearchesWell (first : List Bytes) (rest : List (List Bytes)) (word : Bytes)
    (fixed : Nat) (startsWith : Bool) : Prop where
  /-- In front of each try that leads to a place no `int32_t` holds another one goes through. -/
  reached : ∀ before v after,
    tries (first.drop fixed) word startsWith = before ++ v :: after →
      Strays (textAt word) (considered fixed rest) (v.2 + v.1.length) →
        ∃ u ∈ before, GoesThrough rest word fixed u
  /-- Not every occurrence is one that the choice of the first spelling that stands there, or the
  scan for the first position, passes over. -/
  kept : PatternOccurs (considered fixed (first :: rest)) word startsWith →
    ∃ v ∈ tries (first.drop fixed) word startsWith, GoesThrough rest word fixed v
  /-- None is further behind than it was asked for. -/
  asked : ∀ v ∈ tries (first.drop fixed) word startsWith, GoesThrough rest word fixed v →
    PatternOccurs (considered fixed (first :: rest)) word startsWith

theorem contains_right_iff (first : List Bytes) (rest : List (List Bytes)) (word : Bytes)
    (fixedPatternsCount : Nat) (startsWith : Bool) :
    FindsPattern (first :: rest) word fixedPatternsCount startsWith ↔
      SearchesWell first rest word fixedPatternsCount startsWith := by
  constructor
  · rintro ⟨r, hr, hright⟩
    rw [contains_found hr] at hright
    exact ⟨contains_returns.mp ⟨r, hr⟩, hright.mpr, fun v hv hgoes => hright.mp ⟨v, hv, hgoes⟩⟩
  · intro h
    obtain ⟨r, hr⟩ := contains_returns.mpr h.reached
    refine ⟨r, hr, ?_⟩
    rw [contains_found hr]
    exact ⟨fun ⟨v, hv, hgoes⟩ => h.asked v hv hgoes, h.kept⟩

/-- A spelling that ends the word, one that begins another, places that overlap, and a place further
behind than asked. -/
theorem pattern_missed_or_invented :
    ¬ FindsPattern [[ascii ['b']]] (ascii ['a', 'b']) 0 false ∧
    ¬ FindsPattern [[ascii ['x']], [ascii ['a'], ascii ['a', 'b']], [ascii ['c']]]
      (ascii ['x', 'a', 'b', 'c', 'd']) 0 false ∧
    ¬ FindsPattern [[ascii ['a', 'a']], [ascii ['b']]] (ascii ['a', 'a', 'a', 'b']) 0 false ∧
    ¬ FindsPattern [[ascii ['a']], [ascii ['b']]] (ascii ['a', 'a', 'b']) 0 true := by
  refine ⟨?_, ?_, ?_, ?_⟩
  · rintro ⟨r, hr, hright⟩
    cases hr
    exact Bool.false_ne_true (hright.mpr ⟨[ascii ['b']], by decide, by decide⟩)
  · rintro ⟨r, hr, hright⟩
    cases hr
    refine Bool.false_ne_true (hright.mpr ⟨[ascii ['x'], ascii ['a', 'b'], ascii ['c']], ?_, ?_⟩)
    · decide
    · decide
  · rintro ⟨r, hr, hright⟩
    cases hr
    refine Bool.false_ne_true (hright.mpr ⟨[ascii ['a', 'a'], ascii ['b']], ?_, ?_⟩)
    · decide
    · decide
  · rintro ⟨r, hr, hright⟩
    cases hr
    obtain ⟨ts, hts, hat⟩ := hright.mp rfl
    revert ts
    decide

end

section Short

variable {first : List Bytes} {rest : List (List Bytes)} {word s : Bytes} {fixed pos p : Nat}
  {startsWith : Bool}

/-- In a word of fewer bytes than an `int32_t` counts every place can be looked at. -/
theorem textAt_short (hword : word.length < 2 ^ 31) :
    ∀ n ≤ word.length, textAt word n = some (word.drop n) := by
  intro n hn
  have hmod : n % 2 ^ 32 = n := Nat.mod_eq_of_lt (by omega)
  rw [textAt, hmod, if_pos ⟨by omega, hn⟩]

theorem occurs_of_goesThrough (hword : word.length < 2 ^ 31)
    (htry : (s, p) ∈ tries (first.drop fixed) word startsWith)
    (h : GoesThrough rest word fixed (s, p)) :
    ∃ ts ∈ (considered fixed (first :: rest)).sections, ts.flatten <+: word.drop p := by
  obtain ⟨hmem, hne, -, hscan, hin⟩ := mem_tries.mp htry
  obtain ⟨ts, hts⟩ := h
  refine ⟨s :: ts, ?_, ?_⟩
  · have hsections := List.mem_sections.mp hts.sections
    exact List.mem_sections.mpr (.cons hmem hsections)
  · have hrest := hts.flatten_prefix (textAt_short hword) (Nat.le_of_lt hin)
    exact append_prefix_drop.mpr ⟨((mem_scan hne).mp hscan).1, hrest⟩

/-- There the search comes to an end, and whatever it finds stands in the word. -/
theorem searchesWell_short (hword : word.length < 2 ^ 31) :
    SearchesWell first rest word fixed startsWith ↔
      (PatternOccurs (considered fixed (first :: rest)) word startsWith →
        ∃ v ∈ tries (first.drop fixed) word startsWith, GoesThrough rest word fixed v) ∧
      (startsWith = true → ∀ v ∈ tries (first.drop fixed) word startsWith,
        GoesThrough rest word fixed v →
          PatternOccurs (considered fixed (first :: rest)) word startsWith) := by
  refine ⟨fun h => ⟨h.kept, fun _ => h.asked⟩, fun ⟨hkept, hasked⟩ => ⟨?_, hkept, ?_⟩⟩
  · rintro before ⟨s, p⟩ after he hstrays
    have hv : (s, p) ∈ tries (first.drop fixed) word startsWith :=
      he ▸ List.mem_append_right _ List.mem_cons_self
    obtain ⟨-, -, -, -, hin⟩ := mem_tries.mp hv
    exact absurd hstrays (not_strays (textAt_short hword) (Nat.le_of_lt hin))
  · rintro ⟨s, p⟩ hv hgoes
    cases hstart : startsWith with
    | true =>
      subst hstart
      exact hasked rfl _ hv hgoes
    | false =>
      obtain ⟨ts, hts, hat⟩ := occurs_of_goesThrough hword hv hgoes
      exact ⟨ts, hts, hat.isInfix.trans (List.drop_suffix _ _).isInfix⟩

/-- Where no spelling begins another one of its position and none of the first position overlaps
with itself, a pattern of two positions or more is found just where it occurs. -/
theorem contains_right_of_prefixFree {second : List Bytes} (hword : word.length < 2 ^ 31)
    (hne : ∀ spellings ∈ considered fixed (first :: second :: rest), [] ∉ spellings)
    (hfree : ∀ spellings ∈ considered fixed (second :: rest), PrefixFree spellings)
    (hborder : ∀ s ∈ first.drop fixed, Unbordered s) :
    FindsPattern (first :: second :: rest) word fixed false := by
  refine (contains_right_iff _ _ _ _ _).mpr ((searchesWell_short hword).mpr ⟨?_, nofun⟩)
  rintro ⟨ts, hts, hat⟩
  rw [if_neg Bool.false_ne_true] at hat
  obtain ⟨p, hp⟩ := infix_iff_prefix_drop.mp hat
  have hsections := List.mem_sections.mp hts
  cases hsections with
  | @cons s _ ts _ hs hrest =>
    obtain ⟨hhead, htail⟩ := append_prefix_drop.mp hp
    have hspelling : s ≠ [] := fun h => (List.forall_mem_cons.mp hne).1 (h ▸ hs)
    have hin : p + s.length < word.length := by
      cases hrest with
      | @cons t _ ts _ ht _ =>
        have htne : t ≠ [] := fun h => hne _ (List.mem_cons_of_mem _ List.mem_cons_self) (h ▸ ht)
        have hle := length_le_of_prefix_drop htne (append_prefix_drop.mp htail).1
        have hpos := List.length_pos_iff.mpr htne
        omega
    have hscan : p ∈ scan word s := mem_scan_of_unbordered hspelling (hborder s hs) hhead
    refine ⟨(s, p), mem_tries.mpr ⟨hs, hspelling, nofun, hscan, hin⟩, ts, ?_⟩
    exact .of_prefixFree (textAt_short hword) (Nat.le_of_lt hin) hfree
      (List.mem_sections.mpr hrest) htail

end Short

end Icq.Tools
