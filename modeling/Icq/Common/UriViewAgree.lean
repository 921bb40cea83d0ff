import Icq.Common.UriView
import Mathlib.Data.List.TakeWhile

/-! The two ways to build a view of a URI. -/

namespace Icq.Common

/-- A character of ASCII. -/
def isAscii (c : WChar) : Bool := decide (c < 0x80)

theorem ascii_all {p : WChar → Bool} (h : (List.range 128).all (fun n => p (UInt16.ofNat n)) = true)
    {c : WChar} (hc : isAscii c = true) : p c = true := by
  have hlt : c.toNat < 128 := UInt16.lt_iff_toNat_lt.mp (of_decide_eq_true hc)
  have := List.all_eq_true.mp h c.toNat (List.mem_range.mpr hlt)
  rwa [UInt16.ofNat_toNat] at this

/-- Of the characters of ASCII the capital letters alone are changed. -/
theorem tolowercase_ascii {c : WChar} (hc : isAscii c = true) :
    tolowercase c = if UriParser.isUpper c then c + 0x20 else c :=
  of_decide_eq_true (ascii_all
    (p := fun c => decide (tolowercase c = if UriParser.isUpper c then c + 0x20 else c))
    (by decide +kernel) hc)

namespace SchemeType

theorem signature_small : ∀ scheme ∈ all,
    scheme.signature.all (fun c => isAscii c && !UriParser.isUpper c) = true := by
  decide

theorem signature_folded : ∀ scheme ∈ all, scheme.signature.map tolowercase = scheme.signature := by
  intro scheme hscheme
  refine (List.map_congr_left fun c hc => ?_).trans (List.map_id _)
  have hsmall := List.all_eq_true.mp (signature_small scheme hscheme) c hc
  rw [Bool.and_eq_true, Bool.not_eq_true'] at hsmall
  rw [tolowercase_ascii hsmall.1, hsmall.2]
  rfl

theorem value_name : ∀ scheme ∈ all, all.find? (fun other => other.name == scheme.name) = some scheme := by
  decide

/-- Behind the colon. -/
def slashes (scheme : SchemeType) : WString := if scheme = .email then [] else wide "//"

theorem signature_eq : ∀ scheme ∈ all, scheme.signature = scheme.name ++ 0x3A :: scheme.slashes := by
  decide

theorem name_plain : ∀ scheme ∈ all, scheme.name ≠ [] ∧ scheme.name.all (fun c => UriParser.isLower c ||
    decide (c = 0x2D)) = true ∧ scheme.name.head?.all UriParser.isLower = true := by
  decide

end SchemeType

namespace UriParser

variable {text rest front : WString} {i : Nat} {m : Marks} {u : UriView} {scheme : SchemeType}

/-- What ends neither a name nor a path. -/
def isPlain (c : WChar) : Bool := !(c = 0x3A || endsPath c)

theorem scan_plain (h : front.all isPlain = true) :
    scan (front ++ text) i m = scan text (i + front.length) m := by
  induction front generalizing i with
  | nil => rfl
  | cons c front ih =>
    obtain ⟨hc, hfront⟩ := Bool.and_eq_true_iff.mp ((List.all_cons ..).symm.trans h)
    simp only [isPlain, endsPath, Bool.not_eq_true', Bool.or_eq_false_iff, decide_eq_false_iff_not] at hc
    obtain ⟨hcolon, hhash, hquestion⟩ := hc
    rw [List.cons_append, scan, if_neg hhash]
    simp only [hcolon, false_and, if_false, hquestion, ite_self]
    rw [ih hfront, List.length_cons, Nat.add_assoc, Nat.add_comm 1]

/-- Behind the scheme a colon does not count. -/
theorem scan_path {k : Nat} (h : ∀ c ∈ front, endsPath c = false) :
    scan (front ++ text) i { m with colon := some k } =
      scan text (i + front.length) { m with colon := some k } := by
  induction front generalizing i with
  | nil => rfl
  | cons c front ih =>
    obtain ⟨hc, hfront⟩ := List.forall_mem_cons.mp h
    simp only [endsPath, Bool.or_eq_false_iff, decide_eq_false_iff_not] at hc
    rw [List.cons_append, scan, if_neg hc.1]
    simp only [reduceCtorEq, and_false, if_false, hc.2, ite_self]
    rw [ih hfront, List.length_cons, Nat.add_assoc, Nat.add_comm 1]

/-- Behind a question mark only a hash counts. -/
theorem scan_query {question : Nat} (h : m.question = some question) :
    scan text i m = { m with hash :=
      if 0x23 ∈ text then some (i + (text.takeWhile (· ≠ 0x23)).length) else m.hash } := by
  induction text generalizing i with
  | nil => rfl
  | cons c text ih =>
    rw [scan]
    by_cases hc : c = 0x23
    · subst hc
      rw [if_pos rfl, if_pos List.mem_cons_self, List.takeWhile_cons_of_neg (by decide)]
      rfl
    · have hmem : 0x23 ∈ c :: text ↔ 0x23 ∈ text := by
        rw [List.mem_cons, or_iff_right (Ne.symm hc)]
      have hsome : ¬ m.question.isNone = true := by
        rw [h]
        exact Bool.false_ne_true
      rw [if_neg hc, if_neg hsome, ih, List.takeWhile_cons, if_pos (decide_eq_true hc),
        List.length_cons, Nat.add_assoc, Nat.add_comm 1]
      simp only [hmem]

theorem cut_append {c : WChar} (h : c ∉ front) : cut c (front ++ c :: text) = some (front, text) := by
  have hfront : ∀ x ∈ front, decide (x ≠ c) = true := by
    intro x hx
    exact decide_eq_true fun heq => h (heq ▸ hx)
  rw [cut, if_pos (List.mem_append_right _ List.mem_cons_self), List.takeWhile_append_of_pos hfront,
    List.dropWhile_append_of_pos hfront, List.takeWhile_cons_of_neg (by simp),
    List.dropWhile_cons_of_neg (by simp), List.append_nil, List.tail_cons]

theorem cut_eq_none {c : WChar} (h : c ∉ text) : cut c text = none := if_neg h

/-- A text is all in front of a character, or has it. -/
theorem mem_split (c : WChar) (text : WString) :
    c ∉ text ∨ ∃ front behind, text = front ++ c :: behind ∧ c ∉ front := by
  by_cases h : c ∈ text
  · exact .inr (List.eq_append_cons_of_mem h)
  · exact .inl h

theorem drop_behind (front rest : WString) (c : WChar) :
    (front ++ c :: rest).drop (front.length + 1) = rest := by
  rw [List.append_cons]
  exact List.drop_left' List.length_append

theorem length_behind (front rest : WString) (c : WChar) :
    (front ++ c :: rest).length = front.length + 1 + rest.length := by
  rw [List.length_append, List.length_cons, Nat.add_assoc, Nat.add_comm 1]

/-- What is marked behind a path is what is read there. -/
theorem parseTail_behind (hbehind : rest.head?.all endsPath = true) (hquestion : m.question = none)
    (hhash : m.hash = none) :
    min ((scan rest front.length m).question.getD (front ++ rest).length)
        ((scan rest front.length m).hash.getD (front ++ rest).length) = front.length ∧
      parseTail u (front ++ rest) (scan rest front.length m) = parseBehind u rest := by
  cases rest with
  | nil =>
    rw [scan, parseTail, hquestion, hhash, List.append_nil]
    dsimp only [Option.getD_none]
    rw [if_neg (Nat.lt_irrefl _)]
    exact ⟨Nat.min_self _, rfl⟩
  | cons c rest =>
    have hlength := length_behind front rest c
    have hdrop := drop_behind front rest c
    by_cases hc : c = 0x23
    · rw [scan, if_pos hc, parseTail, hquestion, parseBehind, if_pos hc]
      dsimp only [Option.getD_none, Option.getD_some]
      rw [if_neg (by omega), hdrop]
      exact ⟨Nat.min_eq_right (by omega), rfl⟩
    have hmark : c = 0x3F := by
      simpa [endsPath, hc] using hbehind
    have hscan : scan (c :: rest) front.length m =
        { m with question := some front.length, hash :=
          if 0x23 ∈ rest then some (front.length + 1 + (rest.takeWhile (· ≠ 0x23)).length) else none } := by
      rw [scan, if_neg hc, hquestion, Option.isNone_none, if_pos rfl,
        if_neg (fun h => absurd (hmark.symm.trans h.1) (by decide)), if_pos hmark, scan_query rfl, hhash]
    rw [hscan, parseTail, parseBehind, if_neg hc]
    dsimp only [Option.getD_some]
    rcases mem_split 0x23 rest with hnone | ⟨query, fragment, rfl, hquery⟩
    · rw [if_neg hnone, cut_eq_none hnone]
      dsimp only [Option.getD_none]
      rw [if_pos (by omega), List.take_length, hdrop]
      exact ⟨Nat.min_eq_left (by omega), rfl⟩
    · have htake : (query ++ 0x23 :: fragment).takeWhile (· ≠ 0x23) = query := by
        have hcut := @cut_append fragment _ _ hquery
        rw [cut, if_pos (List.mem_append_right _ List.mem_cons_self)] at hcut
        exact congrArg Prod.fst (Option.some.inj hcut)
      have hsplit : front ++ c :: (query ++ 0x23 :: fragment) =
          (front ++ c :: query) ++ 0x23 :: fragment := by
        rw [List.append_assoc, List.cons_append]
      have hmid := length_behind front query c
      rw [if_pos (List.mem_append_right _ List.mem_cons_self), cut_append hquery, htake]
      dsimp only [Option.getD_some]
      rw [if_pos (by omega), hsplit, ← hmid, drop_behind, List.take_left, drop_behind]
      exact ⟨Nat.min_eq_left (by omega), rfl⟩

theorem scan_colon {k : Nat} (h : m.colon = some k) : (scan text i m).colon = some k := by
  induction text generalizing i m with
  | nil => exact h
  | cons c text ih =>
    rw [scan]
    split
    · exact h
    · split
      · split
        · rename_i hcolon
          cases hcolon.2.symm.trans h
        · split
          · exact ih h
          · exact ih h
      · exact ih h

/-- The part of a text up to the query, and what follows. -/
def hier (text : WString) : WString := text.takeWhile fun c => !endsPath c

def behind (text : WString) : WString := text.dropWhile fun c => !endsPath c

theorem hier_append_behind (text : WString) : hier text ++ behind text = text := List.takeWhile_append_dropWhile

theorem hier_plain {c : WChar} (h : c ∈ hier text) : endsPath c = false := by
  have hc := List.mem_takeWhile_imp h
  rwa [Bool.not_eq_true'] at hc

theorem behind_head (text : WString) : (behind text).head?.all endsPath = true := by
  have h := List.head?_dropWhile_not (fun c => !endsPath c) text
  rw [behind]
  cases hd : (text.dropWhile fun c => !endsPath c).head? with
  | none => rfl
  | some c =>
    rw [hd] at h
    simpa using h

/-- The authority is up to the first slash, and the path from there on. -/
def withHier (u : UriView) (hier : WString) : UriView :=
  { parseAuthority u (hier.takeWhile (· ≠ 0x2F)) with path := hier.dropWhile (· ≠ 0x2F) }

theorem parseUserinfo_kept : (parseUserinfo u text).path = u.path ∧ (parseUserinfo u text).str = u.str := by
  rw [parseUserinfo]
  split <;> exact ⟨rfl, rfl⟩

/-- The authority has no part of the path. -/
theorem parseAuthority_kept :
    (parseAuthority u text).path = u.path ∧ (parseAuthority u text).str = u.str := by
  rw [parseAuthority]
  cases cut 0x40 text with
  | none =>
    dsimp only
    split <;> exact ⟨rfl, rfl⟩
  | some p =>
    dsimp only
    split <;> exact parseUserinfo_kept

theorem parseTail_str : (parseTail u text m).str = u.str := by
  rw [parseTail]
  split <;> split <;> rfl

theorem parseBehind_str : (parseBehind u text).str = u.str := by
  cases text with
  | nil => rfl
  | cons c text =>
    rw [parseBehind]
    split
    · rfl
    · split <;> rfl

theorem notDelimiter_iff {c : WChar} :
    (!isDelimiter c) = true ↔ endsPath c = false ∧ c ≠ 0x2F := by
  simp only [isDelimiter, endsPath, Bool.not_eq_true', Bool.or_eq_false_iff, decide_eq_false_iff_not]
  tauto

theorem parseFrom_eq (scheme : SchemeType) (text : WString) :
    parseFrom scheme text = parseBehind (withHier { scheme } (hier text)) (behind text) := by
  by_cases hempty : text = []
  · subst hempty
    rfl
  have htext : (text.takeWhile fun c => !isDelimiter c) ++ (text.dropWhile fun c => !isDelimiter c) =
      text := List.takeWhile_append_dropWhile
  have hauthority : ∀ c ∈ text.takeWhile fun c => !isDelimiter c, endsPath c = false ∧ c ≠ 0x2F :=
    fun c hc => notDelimiter_iff.mp (List.mem_takeWhile_imp (p := fun c => !isDelimiter c) hc)
  have hhead := List.head?_dropWhile_not (fun c => !isDelimiter c) text
  rw [parseFrom, if_neg hempty]
  dsimp only
  rw [hier, behind]
  generalize (text.takeWhile fun c => !isDelimiter c) = authority at htext hauthority ⊢
  generalize (text.dropWhile fun c => !isDelimiter c) = rest at htext hhead ⊢
  subst htext
  have hpath : ∀ c ∈ authority, (!endsPath c) = true := fun c hc => by rw [(hauthority c hc).1]; rfl
  have hslash : ∀ c ∈ authority, decide (c ≠ 0x2F) = true :=
    fun c hc => decide_eq_true (hauthority c hc).2
  rw [List.takeWhile_append_of_pos hpath, List.dropWhile_append_of_pos hpath, withHier,
    List.takeWhile_append_of_pos hslash, List.dropWhile_append_of_pos hslash]
  have hkept : { parseAuthority { scheme } authority with path := [] } =
      parseAuthority { scheme } authority :=
    congrArg (fun path => { parseAuthority { scheme } authority with path })
      (@parseAuthority_kept authority { scheme }).1.symm
  cases rest with
  | nil => exact (congrArg (parseBehind · []) hkept).symm.trans (by simp)
  | cons c rest =>
    have hc : isDelimiter c = true := by simpa using hhead
    dsimp only
    by_cases hc' : c = 0x2F
    · have hends : (!endsPath c) = true := by rw [hc']; rfl
      have hslash : ¬ decide (c ≠ 0x2F) = true := fun h => of_decide_eq_true h hc'
      rw [if_pos hc', List.takeWhile_cons (a := c) (l := rest), List.dropWhile_cons, if_pos hends,
        if_pos hends, List.takeWhile_cons, List.dropWhile_cons, if_neg hslash, if_neg hslash,
        List.append_nil]
    · have hends : ¬ (!endsPath c) = true := by
        simp only [isDelimiter, hc', endsPath, decide_false, Bool.false_or] at hc ⊢
        rw [hc]
        exact Bool.false_ne_true
      rw [if_neg hc', List.takeWhile_cons (a := c) (l := rest), List.dropWhile_cons, if_neg hends,
        if_neg hends, List.takeWhile_nil, List.dropWhile_nil, List.append_nil, hkept]

theorem parseFrom_str (scheme : SchemeType) (text : WString) : (parseFrom scheme text).str = [] := by
  rw [parseFrom_eq, parseBehind_str]
  exact parseAuthority_kept.2

/-- What is read behind a scheme. -/
theorem parse_scheme {name : WString} (hname : name.all isPlain = true)
    (hscheme : parseScheme name = some scheme) (hdefined : scheme ≠ .undefined) :
    parse (name ++ 0x3A :: rest) =
      if (wide "//").isPrefixOf (hier rest) then
        parseBehind (withHier { scheme } ((hier rest).drop 2)) (behind rest)
      else if hier rest ≠ [] then parseFrom scheme rest
      else parseBehind { scheme } (behind rest) := by
  have hsplit : name ++ 0x3A :: rest = (name ++ 0x3A :: hier rest) ++ behind rest := by
    rw [List.append_assoc, List.cons_append, hier_append_behind]
  have hlength := length_behind name (hier rest) 0x3A
  have hscan : scan (name ++ 0x3A :: rest) 0 {} =
      scan (behind rest) (name ++ 0x3A :: hier rest).length { colon := some name.length } := by
    rw [scan_plain hname, Nat.zero_add, scan, if_neg (by decide),
      if_pos (show ({} : Marks).question.isNone = true from rfl), if_pos ⟨rfl, rfl⟩]
    conv_lhs => rw [← hier_append_behind rest]
    rw [hlength]
    exact scan_path fun c hc => hier_plain hc
  have hcolon : (scan (behind rest) (name ++ 0x3A :: hier rest).length
      { colon := some name.length }).colon = some name.length := scan_colon rfl
  have htail := fun u => @parseTail_behind (behind rest) (name ++ 0x3A :: hier rest)
    { colon := some name.length } u (behind_head rest) rfl rfl
  have hfind : findScheme (name ++ 0x3A :: rest)
      (scan (behind rest) (name ++ 0x3A :: hier rest).length { colon := some name.length }) =
      (scheme, name.length + 1) := by
    rw [findScheme, hcolon]
    dsimp only
    rw [List.take_left, hscheme]
  rw [parse, if_neg (List.append_ne_nil_of_right_ne_nil _ (List.cons_ne_nil _ _)), hscan]
  dsimp only
  rw [hfind]
  dsimp only
  rw [if_pos hdefined, drop_behind, hsplit, (htail {}).1, List.take_left, drop_behind, (htail _).2,
    (htail _).2, withHier]

/-- Where a capital letter is in lower case. -/
def folded (c : WChar) : WChar := if isUpper c then c + 0x20 else c

theorem tolowercase_eq {c : WChar} (hc : isAscii c = true) : tolowercase c = folded c :=
  tolowercase_ascii hc

theorem fold_letter {c : WChar} (hc : isAscii c = true) (hlow : isLower (tolowercase c) = true) :
    (isLower c || isUpper c) = true ∧ isPlain c = true := by
  have h := ascii_all (p := fun c => !isLower (folded c) || ((isLower c || isUpper c) && isPlain c))
    (by decide) hc
  rwa [← tolowercase_eq hc, hlow, Bool.not_true, Bool.false_or, Bool.and_eq_true] at h

theorem fold_sign {c : WChar} (hc : isAscii c = true) (hlow : isLower (tolowercase c) = false) :
    tolowercase c = c := by
  have h := ascii_all (p := fun c => isLower (folded c) || decide (folded c = c)) (by decide) hc
  rw [← tolowercase_eq hc, hlow, Bool.false_or] at h
  exact of_decide_eq_true h

/-- A name of a scheme in whatever case. -/
structure Names (scheme : SchemeType) (name : WString) : Prop where
  mem : scheme ∈ SchemeType.all
  ascii : ∀ c ∈ name, isAscii c = true
  folded : name.map tolowercase = scheme.name

namespace Names

variable {name : WString}

theorem char (h : Names scheme name) : ∀ c ∈ name, isPlain c = true ∧ isSchemeChar c = true := by
  intro c hc
  have hall := List.all_eq_true.mp (SchemeType.name_plain scheme h.mem).2.1 (tolowercase c)
    (h.folded ▸ List.mem_map_of_mem hc)
  rcases Bool.or_eq_true_iff.mp hall with hlow | hsign
  · obtain ⟨hletter, hplain⟩ := fold_letter (h.ascii c hc) hlow
    refine ⟨hplain, ?_⟩
    rw [isSchemeChar, hletter]
    rfl
  · have hsign := of_decide_eq_true hsign
    have hfixed := fold_sign (h.ascii c hc) (by rw [hsign]; decide)
    rw [← hfixed, hsign]
    decide

theorem parseScheme (h : Names scheme name) : parseScheme name = some scheme := by
  obtain ⟨hne, -, hfirst⟩ := SchemeType.name_plain scheme h.mem
  have hletter : isSchemeText name = true := by
    cases name with
    | nil => rfl
    | cons c name =>
      have hc : isLower (tolowercase c) = true := by
        rw [← h.folded] at hfirst
        exact hfirst
      rw [isSchemeText, (fold_letter (h.ascii c List.mem_cons_self) hc).1, Bool.true_and,
        List.all_eq_true]
      exact fun x hx => (h.char x (List.mem_cons_of_mem _ hx)).2
  have hbuf : (((name.take (lastUpper name)).map tolowercase ++ name.drop (lastUpper name)).map
      tolowercase) = scheme.name := by
    rw [List.map_append, List.map_map, ← h.folded]
    conv_rhs => rw [← List.take_append_drop (lastUpper name) name, List.map_append]
    refine congrArg (· ++ _) (List.map_congr_left fun c hc => ?_)
    exact tolowercase_tolowercase c
  have hvalue : SchemeType.value ((name.take (lastUpper name)).map tolowercase ++
      name.drop (lastUpper name)) = scheme := by
    rw [SchemeType.value, hbuf, SchemeType.value_name scheme h.mem]
    rfl
  rw [UriParser.parseScheme, if_neg, hletter, Bool.not_true, if_neg Bool.false_ne_true]
  · exact congrArg some hvalue
  · rintro rfl
    exact hne h.folded.symm

end Names

end UriParser

namespace UriView
open UriParser

variable {scheme : SchemeType} {head rest s : WString}

/-- A beginning that is the signature of a scheme, in whatever case. -/
structure Begins (scheme : SchemeType) (head : WString) : Prop where
  mem : scheme ∈ SchemeType.all
  ascii : ∀ c ∈ head, isAscii c = true
  folded : head.map tolowercase = scheme.signature

theorem Begins.split (h : Begins scheme head) :
    ∃ name, Names scheme name ∧ head = name ++ 0x3A :: scheme.slashes := by
  have hfolded := h.folded
  rw [SchemeType.signature_eq scheme h.mem] at hfolded
  obtain ⟨name, behind, rfl, hname, hbehind⟩ := List.map_eq_append_iff.mp hfolded
  have hascii := fun c hc => h.ascii c (List.mem_append_right _ hc)
  refine ⟨name, ⟨h.mem, fun c hc => h.ascii c (List.mem_append_left _ hc), hname⟩, ?_⟩
  refine congrArg (name ++ ·) (Eq.trans ?_ hbehind)
  refine (List.map_id behind).symm.trans (List.map_congr_left fun c hc => ?_)
  refine (fold_sign (hascii c hc) ?_).symm
  have hmem : tolowercase c ∈ 0x3A :: scheme.slashes := hbehind ▸ List.mem_map_of_mem hc
  have hsigns : (0x3A :: scheme.slashes).all (fun x => !isLower x) = true := by
    rw [SchemeType.slashes]
    split <;> decide
  exact Bool.not_eq_true' _ ▸ List.all_eq_true.mp hsigns _ hmem

theorem assignScheme_eq (h : Begins scheme head) :
    assignScheme scheme (head ++ rest) = { parseFrom scheme rest with str := rest } := by
  have hlength : scheme.signature.length = head.length := by rw [← h.folded, List.length_map]
  rw [assignScheme]
  dsimp only
  rw [hlength, List.take_left, List.drop_left, h.folded, SchemeType.signature_folded scheme h.mem,
    if_neg (by rw [List.length_append]; omega), if_neg (fun h => h rfl)]

/-- The views have the same parts, unless two slashes follow the name of a mail address. -/
theorem assign_eq (h : Begins scheme head)
    (hmail : scheme = .email → (wide "//").isPrefixOf rest = false) :
    assign (head ++ rest) = parseFrom scheme rest := by
  have hdefined : scheme ≠ .undefined := fun heq => absurd (heq ▸ h.mem) (by decide)
  obtain ⟨name, hname, rfl⟩ := h.split
  have hplain : name.all isPlain = true :=
    List.all_eq_true.mpr fun c hc => (hname.char c hc).1
  rw [assign, List.append_assoc, List.cons_append, parse_scheme hplain hname.parseScheme hdefined,
    SchemeType.slashes]
  by_cases hemail : scheme = .email
  · have hnot : (wide "//").isPrefixOf (hier rest) = false := by
      refine Bool.eq_false_iff.mpr fun hprefix => ?_
      have hle : hier rest <+: rest := List.takeWhile_prefix _
      have hrest := List.isPrefixOf_iff_prefix.mpr
        ((List.isPrefixOf_iff_prefix.mp hprefix).trans hle)
      exact Bool.false_ne_true ((hmail hemail).symm.trans hrest)
    rw [if_pos hemail, List.nil_append, hnot, if_neg Bool.false_ne_true]
    by_cases hempty : hier rest = []
    · rw [if_neg (fun hne => hne hempty), parseFrom_eq, hempty]
      rfl
    · rw [if_pos hempty]
  · have hslashes : hier (wide "//" ++ rest) = wide "//" ++ hier rest := rfl
    have hbehind : behind (wide "//" ++ rest) = behind rest := rfl
    have hprefix : (wide "//").isPrefixOf (wide "//" ++ hier rest) = true := rfl
    rw [if_neg hemail, hslashes, hbehind, if_pos hprefix, parseFrom_eq]
    rfl

/-- A view that has a host or a path is not empty. -/
def Honest (u : UriView) : Prop := u.host ≠ [] ∨ u.path ≠ [] → u.empty = false

/-- Both ways give the same parts, the same text and the same emptiness. -/
structure Agree (scheme : SchemeType) (s : WString) : Prop where
  same : assign s = assignScheme scheme s
  data : (assign s).data = (assignScheme scheme s).data
  empty : (assign s).empty = (assignScheme scheme s).empty
  honest : Honest (assign s)
  honest_scheme : Honest (assignScheme scheme s)

theorem begins_signature (hscheme : scheme ∈ SchemeType.all) : Begins scheme scheme.signature := by
  have hascii : SchemeType.all.all (fun s => s.signature.all isAscii) = true := by decide
  exact ⟨hscheme, List.all_eq_true.mp (List.all_eq_true.mp hascii scheme hscheme),
    SchemeType.signature_folded scheme hscheme⟩

theorem parse_str (text : WString) : (parse text).str = [] := by
  rw [parse]
  split
  · rfl
  · dsimp only
    split
    · rw [parseTail_str]
      exact parseAuthority_kept.2
    · split
      · exact parseFrom_str _ _
      · exact parseTail_str

/-- Only where nothing follows the signature. -/
theorem assign_agree (scheme : SchemeType) (s : WString) (hscheme : scheme ∈ SchemeType.all)
    (hs : scheme.signature <+: s) : Agree scheme s ↔ s = scheme.signature := by
  have hbegins := begins_signature hscheme
  refine ⟨fun h => ?_, ?_⟩
  · obtain ⟨rest, rfl⟩ := hs
    have hdata := h.data
    rw [assignScheme_eq hbegins] at hdata
    have hrest : rest = [] := hdata.symm.trans (parse_str _)
    rw [hrest, List.append_nil]
  · rintro rfl
    have hassign := @assign_eq _ _ [] hbegins fun _ => rfl
    have hassign' := @assignScheme_eq _ _ [] hbegins
    rw [List.append_nil] at hassign hassign'
    have hsame : assign scheme.signature = assignScheme scheme scheme.signature := by
      rw [hassign, hassign']
      rfl
    have hhonest : Honest (assign scheme.signature) := by
      rw [hassign]
      exact fun h => absurd h (by simp [parseFrom])
    exact ⟨hsame, congrArg data hsame, congrArg empty hsame, hhonest, hsame ▸ hhonest⟩

theorem assign_agree_host : ¬ Agree .http (wide "http://icq.com") := by
  intro h
  exact absurd h.data (by decide +kernel)

theorem assign_agree_bare : Agree .http (wide "http://") :=
  (assign_agree .http (wide "http://") (by decide) (by decide)).mpr rfl

end UriView

end Icq.Common
