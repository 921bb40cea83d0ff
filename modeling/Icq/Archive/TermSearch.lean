import Icq.Lib.Matching
import Icq.Tools.Strings

/-! Looking for the term of a search in the text of a message. -/

namespace Icq.Archive
open Icq.Lib Icq.Tools

structure CodedTerm where
  lowerTerm : Bytes := []
  symbTable : List (Bytes × Nat) := []
  symbs : Bytes := []
  codedString : List Nat := []
  prefixTable : List Nat := []
  symbIndexes : List Nat := []

/-- What a search is started with. -/
def codeTerm (w : CaseMapping) (term : Bytes) : CodedTerm :=
  let (codedString, t) := convertStringToVector w term {}
  { lowerTerm := w.toLower term, symbTable := t.table, symbs := t.symbols, codedString
    prefixTable := buildPrefix codedString, symbIndexes := t.indexes }

def isEqual (str1 str2 : Bytes) (b l : Nat) : Bool :=
  if l = 1 then decide (str1.head? = (str2.drop b).head?)
  else decide (str1.take l = (str2.drop b).take l)

namespace CodedTerm

variable (t : CodedTerm)

/-- The forms from one on, up to the zero behind them. -/
def symbsFrom (i : Nat) : Bytes := (t.symbs ++ [0]).drop (t.symbIndexes.getD i 0)

/-- One of the two forms of a letter is equal to what the text has at a place. -/
def isLetter (j : Nat) (str : Bytes) (i len : Nat) : Bool :=
  isEqual (t.symbsFrom (2 * j)) str i len || isEqual (t.symbsFrom (2 * j + 1)) str i len

/-- The loop over the text, of which so much is read at most. -/
def kmpLoop (str : Bytes) (strSz : Nat) : Nat → Nat → Nat → Int
  | 0, _, _ => -1
  | fuel + 1, i, j =>
    if strSz ≤ i then -1
    else
      let len := utf8CharSize (str.getD i 0)
      let j := advance (fun k => t.prefixTable.getD k 0) (fun j => t.isLetter j str i len) j
      if j = t.codedString.length then (i : Int) - j + 1 else kmpLoop str strSz fuel (i + len) j

/-- The number is below the size of the text, so it stays what it is in 32 bits. -/
def kmpStrstr (str : Option Bytes) (strSz : Nat) : Int :=
  match str with
  | none => -1
  | some str => t.kmpLoop str strSz (strSz + 1) 0 0

/-- A character that is looked for at a place of the term. -/
def looksFor (j : Nat) (c : Char) : Bool :=
  decide (String.utf8EncodeChar c <+: t.symbsFrom (2 * j)) ||
    decide (String.utf8EncodeChar c <+: t.symbsFrom (2 * j + 1))

variable {t}

theorem isEqual_encode {symbs before rest : Bytes} (c : Char) :
    isEqual symbs (before ++ (String.utf8EncodeChar c ++ rest)) before.length
      (String.utf8EncodeChar c).length = decide (String.utf8EncodeChar c <+: symbs) := by
  rw [isEqual, List.drop_left, List.take_left]
  split
  · rename_i hone
    obtain ⟨b, hb⟩ := List.length_eq_one_iff.mp hone
    refine decide_eq_decide.mpr ?_
    rw [hb]
    cases symbs with
    | nil => simp
    | cons a symbs => simp [eq_comm]
  · refine decide_eq_decide.mpr ?_
    rw [List.prefix_iff_eq_take]
    exact eq_comm

theorem isLetter_encode {before rest : Bytes} (j : Nat) (c : Char) :
    t.isLetter j (before ++ (String.utf8EncodeChar c ++ rest)) before.length
      (String.utf8EncodeChar c).length = t.looksFor j c := by
  rw [isLetter, isEqual_encode, isEqual_encode]
  rfl

/-- The loop finds what a search by characters finds. -/
theorem kmpLoop_search {before text : List Char} {fuel j : Nat}
    (htable : BorderTable (fun k => t.codedString[k]?) t.codedString.length
      (fun k => t.prefixTable.getD k 0))
    (hfuel : (utf8 text).length < fuel) (hj : j < t.codedString.length)
    (hle : j ≤ (utf8 before).length) :
    t.kmpLoop (utf8 before ++ utf8 text) (utf8 before ++ utf8 text).length fuel
        (utf8 before).length j ≠ -1 ↔
      search (fun k => t.prefixTable.getD k 0) t.looksFor t.codedString.length j text = true := by
  induction text generalizing before fuel j with
  | nil =>
    obtain ⟨fuel, rfl⟩ : ∃ n, fuel = n + 1 := ⟨fuel - 1, by omega⟩
    rw [kmpLoop, if_pos (by simp [utf8])]
    exact iff_of_false (not_not.mpr rfl) Bool.false_ne_true
  | cons c text ih =>
    obtain ⟨fuel, rfl⟩ : ∃ n, fuel = n + 1 := ⟨fuel - 1, by omega⟩
    have hpos := List.length_pos_iff.mpr (@String.utf8EncodeChar_ne_nil c)
    have hhead : (utf8 before ++ (String.utf8EncodeChar c ++ utf8 text)).getD
        (utf8 before).length 0 = (String.utf8EncodeChar c ++ utf8 text).headD 0 := by
      rw [List.getD_eq_getElem?_getD, List.getElem?_append_right (Nat.le_refl _), Nat.sub_self]
      cases String.utf8EncodeChar c ++ utf8 text <;> rfl
    have hstep : advance (fun k => t.prefixTable.getD k 0)
        (fun j => t.isLetter j (utf8 before ++ (String.utf8EncodeChar c ++ utf8 text))
          (utf8 before).length (String.utf8EncodeChar c).length) j =
          stepBy (fun k => t.prefixTable.getD k 0) t.looksFor j c := by
      simp only [isLetter_encode]
      rfl
    have hsucc : stepBy (fun k => t.prefixTable.getD k 0) t.looksFor j c ≤ j + 1 :=
      stepBy_le_succ htable hj
    rw [utf8_cons, List.length_append] at hfuel
    rw [utf8_cons, search, kmpLoop]
    simp only [hhead, utf8CharSize_encode, hstep]
    rw [if_neg (by simp only [List.length_append]; omega), Bool.or_eq_true, decide_eq_true_iff]
    by_cases hend : stepBy (fun k => t.prefixTable.getD k 0) t.looksFor j c = t.codedString.length
    · rw [if_pos hend]
      exact iff_of_true (by omega) (.inl hend)
    · have hmore : utf8 (before ++ [c]) = utf8 before ++ String.utf8EncodeChar c := by
        simp [utf8]
      have hnext := @ih (before ++ [c]) fuel
        (stepBy (fun k => t.prefixTable.getD k 0) t.looksFor j c) (by omega) (by omega)
        (by rw [hmore, List.length_append]; omega)
      have hplace : (utf8 before ++ String.utf8EncodeChar c).length =
          (utf8 before).length + (String.utf8EncodeChar c).length := List.length_append
      rw [hmore, hplace, List.append_assoc] at hnext
      rw [if_neg hend, or_iff_right hend]
      exact hnext

end CodedTerm

section Term

variable (w : CaseMapping) (term : List Char)

/-- The lower form of a letter of the term. -/
def lowerAt (k : Nat) : Option Bytes := term[k]?.map w.lower

/-- A character that is the lower or the upper form of a letter of the term. -/
def FitsLetter (k : Nat) (c : Char) : Prop :=
  ∃ letter, term[k]? = some letter ∧
    (String.utf8EncodeChar c = w.lower letter ∨ String.utf8EncodeChar c = w.upper letter)

/-- The system's lower case of a character is text. -/
def LowerIsText : Prop := ∀ c : Char, ∃ l : List Char, w.toLower (String.utf8EncodeChar c) = utf8 l

variable {w term}

theorem codeTerm_length : (codeTerm w (utf8 term)).codedString.length = term.length :=
  (convertLoop_codes SymbolTables.Coded.empty (Nat.le_refl _)).2.2.1

theorem codeTerm_borders : BorderTable (fun k => (codeTerm w (utf8 term)).codedString[k]?)
    (codeTerm w (utf8 term)).codedString.length
    (fun k => (codeTerm w (utf8 term)).prefixTable.getD k 0) :=
  buildPrefix_borders _

/-- Two letters have one code if they have one lower form. -/
theorem codeTerm_code {a b : Nat} (ha : a < term.length) (hb : b < term.length) :
    (codeTerm w (utf8 term)).codedString[a]? = (codeTerm w (utf8 term)).codedString[b]? ↔
      lowerAt w term a = lowerAt w term b := by
  obtain ⟨hcoded, -, -, hcodes⟩ :=
    @convertLoop_codes w term _ {} SymbolTables.Coded.empty (Nat.le_refl (utf8 term).length)
  obtain ⟨i, hi, hia⟩ := hcodes a term[a] (List.getElem?_eq_getElem ha)
  obtain ⟨j, hj, hjb⟩ := hcodes b term[b] (List.getElem?_eq_getElem hb)
  have hids : (codeTerm w (utf8 term)).codedString[a]? = some i ∧
      (codeTerm w (utf8 term)).codedString[b]? = some j := ⟨hi, hj⟩
  rw [hids.1, hids.2, lowerAt, lowerAt, List.getElem?_eq_getElem ha, List.getElem?_eq_getElem hb,
    Option.map_some, Option.map_some, Option.some_inj, Option.some_inj]
  constructor
  · intro he
    exact congrArg Prod.fst (List.inj_on_of_nodup_map hcoded.ids hia hjb he)
  · intro he
    exact congrArg Prod.snd (List.inj_on_of_nodup_map hcoded.lowers hia hjb he)

/-- The forms of the first letter that are looked for lie one behind the other. -/
theorem codeTerm_symbsFrom {k : Nat} {c : Char} (h : term[k]? = some c) :
    (codeTerm w (utf8 term)).symbsFrom (2 * k) =
        w.lower c ++ (w.upper c ++ (w.forms (term.drop (k + 1)) ++ [0])) ∧
      (codeTerm w (utf8 term)).symbsFrom (2 * k + 1) =
        w.upper c ++ (w.forms (term.drop (k + 1)) ++ [0]) := by
  obtain ⟨hsymbs, hindexes⟩ := @convertLoop_forms w term _ {} (Nat.le_refl (utf8 term).length)
  obtain ⟨hlow, hup⟩ := @CaseMapping.places_getD w term k c 0 h
  rw [Nat.zero_add] at hlow hup
  have hsplit : w.forms term = w.forms (term.take k) ++
      ((w.lower c ++ w.upper c) ++ w.forms (term.drop (k + 1))) := by
    obtain ⟨hlt, rfl⟩ := List.getElem?_eq_some_iff.mp h
    rw [← CaseMapping.forms_cons, List.getElem_cons_drop, CaseMapping.forms, CaseMapping.forms,
      CaseMapping.forms, ← List.flatMap_append, List.take_append_drop]
  have hall : (codeTerm w (utf8 term)).symbs = w.forms term := hsymbs
  have hat : (codeTerm w (utf8 term)).symbIndexes = w.places 0 term := hindexes
  rw [CodedTerm.symbsFrom, CodedTerm.symbsFrom, hall, hat, hlow, hup, hsplit]
  simp only [List.append_assoc]
  refine ⟨List.drop_left, ?_⟩
  rw [← List.drop_drop, List.drop_left, List.drop_left]

/-- At each place some character is looked for. -/
theorem exists_looksFor (hlower : LowerIsText w) {k : Nat} (hk : k < term.length) :
    ∃ c, (codeTerm w (utf8 term)).looksFor k c = true := by
  have hfirst : ∃ c, String.utf8EncodeChar c <+: w.lower term[k] := by
    rw [CaseMapping.lower, CaseMapping.lowerForm]
    split
    · exact ⟨_, List.prefix_rfl⟩
    · rename_i hsome
      obtain ⟨l, hl⟩ := hlower term[k]
      rw [hl] at hsome ⊢
      cases l with
      | nil => exact absurd (by simp [utf8]) hsome
      | cons c l => exact ⟨c, by rw [utf8_cons]; exact List.prefix_append _ _⟩
  obtain ⟨c, hc⟩ := hfirst
  refine ⟨c, Bool.or_eq_true_iff.mpr (.inl (decide_eq_true ?_))⟩
  rw [(codeTerm_symbsFrom (List.getElem?_eq_getElem hk)).1]
  exact hc.trans (List.prefix_append _ _)

/-- A term that is looked for is found in just the texts it occurs in if and only if what is looked
for at each place are its two forms, and behind forms of the first letters the longest overlap of
the term's lower case from which a character goes on is the longest one of the text. -/
theorem kmpStrstr_finds_iff (hlower : LowerIsText w) (hterm : term ≠ []) :
    (∀ text : List Char,
        (codeTerm w (utf8 term)).kmpStrstr (some (utf8 text)) (utf8 text).length ≠ -1 ↔
          Occurs (FitsLetter w term) term.length text) ↔
      (∀ k < term.length, ∀ c,
          (codeTerm w (utf8 term)).looksFor k c = true ↔ FitsLetter w term k c) ∧
        OverlapsAgree (lowerAt w term) (FitsLetter w term) term.length := by
  have hm : 0 < term.length := List.length_pos_iff.mpr hterm
  have hlen : (codeTerm w (utf8 term)).codedString.length = term.length := codeTerm_length
  have hborders : BorderTable (fun k => (codeTerm w (utf8 term)).codedString[k]?) term.length
      (fun k => (codeTerm w (utf8 term)).prefixTable.getD k 0) := hlen ▸ codeTerm_borders
  have hsearch : ∀ text : List Char,
      (codeTerm w (utf8 term)).kmpStrstr (some (utf8 text)) (utf8 text).length ≠ -1 ↔
        search (fun k => (codeTerm w (utf8 term)).prefixTable.getD k 0)
          (codeTerm w (utf8 term)).looksFor term.length 0 text = true := by
    intro text
    have hloop := @CodedTerm.kmpLoop_search (codeTerm w (utf8 term)) [] text
      ((utf8 text).length + 1) 0 codeTerm_borders (Nat.lt_succ_self _) (hlen ▸ hm) (Nat.zero_le _)
    rwa [hlen] at hloop
  rw [← overlapsAgree_congr fun a ha b hb => codeTerm_code ha hb,
    ← search_right_iff hborders hm fun k hk => exists_looksFor hlower hk]
  exact forall_congr' fun text => iff_congr (hsearch text) Iff.rfl

/-- A character that is one of the two forms of a letter. -/
def IsForm (w : CaseMapping) (letter c : Char) : Prop :=
  String.utf8EncodeChar c = w.lower letter ∨ String.utf8EncodeChar c = w.upper letter

theorem encode_prefix {c d : Char} {rest : Bytes} :
    String.utf8EncodeChar c <+: String.utf8EncodeChar d ++ rest ↔
      String.utf8EncodeChar c = String.utf8EncodeChar d := by
  constructor
  · rintro ⟨rest', h⟩
    rw [encode_append_inj h]
  · intro h
    rw [h]
    exact List.prefix_append _ _

/-- Where the forms are single characters they are what is looked for. -/
theorem looksFor_iff {k : Nat} {letter a b c : Char} (hk : term[k]? = some letter)
    (hlow : w.lower letter = String.utf8EncodeChar a)
    (hup : w.upper letter = String.utf8EncodeChar b) :
    (codeTerm w (utf8 term)).looksFor k c = true ↔ IsForm w letter c := by
  obtain ⟨hfrom, hfrom'⟩ := codeTerm_symbsFrom (w := w) hk
  rw [CodedTerm.looksFor, Bool.or_eq_true, decide_eq_true_iff, decide_eq_true_iff, hfrom, hfrom',
    hlow, hup, encode_prefix, encode_prefix, IsForm, hlow, hup]

/-- A search is right for a term whose forms are single characters, if of all its letters but the
last those with one lower form have one upper form, and the others have no form in common. -/
theorem right_of_letters
    (hforms : ∀ letter ∈ term, ∃ a b, w.lower letter = String.utf8EncodeChar a ∧
      w.upper letter = String.utf8EncodeChar b)
    (hsame : ∀ x ∈ term.dropLast, ∀ y ∈ term.dropLast, w.lower x = w.lower y →
      w.upper x = w.upper y)
    (hapart : ∀ x ∈ term.dropLast, ∀ y ∈ term.dropLast, ∀ c, IsForm w x c → IsForm w y c →
      w.lower x = w.lower y) :
    (∀ k < term.length, ∀ c,
        (codeTerm w (utf8 term)).looksFor k c = true ↔ FitsLetter w term k c) ∧
      OverlapsAgree (lowerAt w term) (FitsLetter w term) term.length := by
  have hmem : ∀ k, k + 1 < term.length → ∃ letter ∈ term.dropLast, term[k]? = some letter := by
    intro k hk
    have hlt : k < term.dropLast.length := by
      rw [List.length_dropLast]
      omega
    refine ⟨term.dropLast[k], List.getElem_mem hlt, ?_⟩
    rw [List.getElem_dropLast]
    exact List.getElem?_eq_getElem _
  refine ⟨fun k hk c => ?_, overlapsAgree_of_codes ?_ ?_⟩
  · have hget := List.getElem?_eq_getElem hk
    obtain ⟨a, b, hlow, hup⟩ := hforms term[k] (List.getElem_mem hk)
    rw [looksFor_iff hget hlow hup]
    constructor
    · exact fun h => ⟨_, hget, h⟩
    · rintro ⟨letter, hletter, h⟩
      obtain rfl := Option.some.inj (hget.symm.trans hletter)
      exact h
  · intro a b ha hb hcode c hc
    obtain ⟨x, hx, hxa⟩ := hmem a ha
    obtain ⟨y, hy, hyb⟩ := hmem b hb
    rw [lowerAt, lowerAt, hxa, hyb] at hcode
    have hlower : w.lower x = w.lower y := Option.some.inj hcode
    obtain ⟨letter, hletter, hform⟩ := hc
    obtain rfl := Option.some.inj (hxa.symm.trans hletter)
    refine ⟨y, hyb, ?_⟩
    rwa [← hlower, ← hsame x hx y hy hlower]
  · intro a b ha hb hcode c hc hc'
    obtain ⟨x, hx, hxa⟩ := hmem a ha
    obtain ⟨y, hy, hyb⟩ := hmem b hb
    obtain ⟨letter, hletter, hform⟩ := hc
    obtain rfl := Option.some.inj (hxa.symm.trans hletter)
    obtain ⟨letter', hletter', hform'⟩ := hc'
    obtain rfl := Option.some.inj (hyb.symm.trans hletter')
    refine hcode ?_
    rw [lowerAt, lowerAt, hxa, hyb, Option.map_some, Option.map_some,
      hapart x hx y hy c hform hform']

/-- The case of small letters, by their capital letters. -/
def smallLetters (capitals : List (Char × Char)) : CaseMapping where
  toLower := id
  toUpper str :=
    match capitals.find? fun p => String.utf8EncodeChar p.1 = str with
    | some p => String.utf8EncodeChar p.2
    | none => str

theorem smallLetters_lower (capitals : List (Char × Char)) : LowerIsText (smallLetters capitals) :=
  fun c => ⟨[c], (utf8_cons c []).symm ▸ (List.append_nil _).symm⟩

/-- A term of two letters. -/
theorem kmpStrstr_finds_ab :
    LowerIsText (smallLetters [('a', 'A'), ('b', 'B')]) ∧
      ∀ text : List Char,
        (codeTerm (smallLetters [('a', 'A'), ('b', 'B')]) (utf8 ['a', 'b'])).kmpStrstr
            (some (utf8 text)) (utf8 text).length ≠ -1 ↔
          Occurs (FitsLetter (smallLetters [('a', 'A'), ('b', 'B')]) ['a', 'b']) 2 text := by
  refine ⟨smallLetters_lower _, ?_⟩
  refine (kmpStrstr_finds_iff (smallLetters_lower _) (List.cons_ne_nil _ _)).mpr ?_
  refine right_of_letters (fun letter hletter => ?_) (fun x hx y hy _ => ?_)
    (fun x hx y hy _ _ _ => ?_)
  · rcases List.mem_cons.mp hletter with rfl | hletter
    · exact ⟨'a', 'A', by decide, by decide⟩
    · obtain rfl := List.mem_singleton.mp hletter
      exact ⟨'b', 'B', by decide, by decide⟩
  · rw [List.mem_singleton.mp hx, List.mem_singleton.mp hy]
  · rw [List.mem_singleton.mp hx, List.mem_singleton.mp hy]

/-- The long s and the s have one capital letter, so a text in capitals fits either, and where the
search falls back it goes by the codes of the small ones. -/
theorem capital_s_not_found :
    (codeTerm (smallLetters [('ſ', 'S'), ('s', 'S'), ('x', 'X')]) (utf8 ['ſ', 's', 'x'])).kmpStrstr
        (some (utf8 ['S', 'S', 'S', 'x'])) (utf8 ['S', 'S', 'S', 'x']).length = -1 ∧
      Occurs (FitsLetter (smallLetters [('ſ', 'S'), ('s', 'S'), ('x', 'X')]) ['ſ', 's', 'x']) 3
        ['S', 'S', 'S', 'x'] := by
  refine ⟨by decide +kernel, ['S', 'S', 'x'], ⟨['S'], [], rfl⟩, rfl, ?_, ?_, ?_, trivial⟩
  · exact ⟨'ſ', rfl, .inr (by decide)⟩
  · exact ⟨'s', rfl, .inr (by decide)⟩
  · exact ⟨'x', rfl, .inl (by decide)⟩

end Term

end Icq.Archive
