import Icq.Lib.Borders
import Icq.Lib.Scalar
import Mathlib.Data.List.Nodup

/-! The letters of a search term, coded for a search in UTF-8. -/

namespace Icq.Tools
open Icq.Lib

def utf8CharSize (b : UInt8) : Nat :=
  if b &&& 0xE0 = 0xC0 then 2
  else if b &&& 0xF0 = 0xE0 then 3
  else if b &&& 0xF8 = 0xF0 then 4
  else if b &&& 0xFC = 0xF8 then 5
  else if b &&& 0xFE = 0xFC then 6
  else 1

/-- The system's changes of case. -/
structure CaseMapping where
  toLower : Bytes → Bytes
  toUpper : Bytes → Bytes

/-- What a letter is looked for as, besides its upper case. -/
def CaseMapping.lowerForm (w : CaseMapping) (str : Bytes) : Bytes :=
  let lower := w.toLower str
  if lower.isEmpty || decide (lower = [0]) then str else lower

/-- The forms of the letters one behind the other, where each begins, and the codes of the lower
forms. There are fewer letters than an `int32_t` counts. -/
structure SymbolTables where
  symbols : Bytes := []
  indexes : List Nat := []
  table : List (Bytes × Nat) := []
  lastSymbId : Nat := 0

def SymbolTables.push (t : SymbolTables) (lower upper : Bytes) : SymbolTables :=
  { t with
    symbols := t.symbols ++ (lower ++ upper)
    indexes := t.indexes ++ [t.symbols.length, t.symbols.length + lower.length] }

/-- The code of a lower form, and the tables with it. -/
def SymbolTables.code (t : SymbolTables) (lower : Bytes) : Nat × SymbolTables :=
  match t.table.find? fun symb => symb.1 = lower with
  | some symb => (symb.2, t)
  | none =>
    (t.lastSymbId + 1,
      { t with
        table := t.table ++ [(lower, t.lastSymbId + 1)], lastSymbId := t.lastSymbId + 1 })

def getCharIndex (w : CaseMapping) (str : Bytes) (t : SymbolTables) : Nat × SymbolTables :=
  let char := str.take (utf8CharSize (str.headD 0))
  let lower := w.lowerForm char
  (t.push lower (w.toUpper char)).code lower

/-- The loop over the letters. Each has at least one byte. -/
def convertLoop (w : CaseMapping) : Nat → Bytes → SymbolTables → List Nat × SymbolTables
  | 0, _, t => ([], t)
  | fuel + 1, str, t =>
    if str.isEmpty then ([], t)
    else
      let (id, t) := getCharIndex w str t
      let (ids, t) := convertLoop w fuel (str.drop (utf8CharSize (str.headD 0))) t
      (id :: ids, t)

def convertStringToVector (w : CaseMapping) (str : Bytes) (t : SymbolTables) :
    List Nat × SymbolTables :=
  convertLoop w str.length str t

/-- The table after so many turns of the loop. -/
def buildPrefixLoop (term : List Nat) (n : Nat) : List Nat :=
  (List.range n).foldl
    (fun table i => table.set (i + 1)
      (advance (fun k => table.getD k 0) (fun k => decide (term[k]? = term[i + 1]?))
        (table.getD i 0)))
    (List.replicate term.length 0)

/-- For each number of letters how long their longest overlap is. -/
def buildPrefix (term : List Nat) : List Nat := buildPrefixLoop term (term.length - 1)

/-- Each turn of the loop gives one more number of letters its longest overlap. -/
theorem buildPrefixLoop_borders {term : List Nat} {n : Nat} (h : n < term.length) :
    (buildPrefixLoop term n).length = term.length ∧
      BorderTable (fun k => term[k]?) (n + 1) (fun k => (buildPrefixLoop term n).getD k 0) := by
  induction n with
  | zero =>
    refine ⟨List.length_replicate, fun i hi => ?_⟩
    obtain rfl : i = 0 := by omega
    have hzero : (List.replicate term.length 0).getD 0 0 = 0 := by
      cases term.length <;> rfl
    simp only [buildPrefixLoop, List.range_zero, List.foldl_nil, hzero]
    exact ⟨border_zero Nat.one_pos, fun l hl => Nat.le_of_lt_succ hl.1⟩
  | succ n ih =>
    obtain ⟨hlen, htable⟩ := ih (Nat.lt_of_succ_lt h)
    rw [buildPrefixLoop, List.range_succ, List.foldl_append, List.foldl_cons, List.foldl_nil,
      ← buildPrefixLoop]
    generalize buildPrefixLoop term n = table at hlen htable
    refine ⟨(List.length_set).trans hlen, fun i hi => ?_⟩
    rcases Nat.lt_succ_iff_lt_or_eq.mp hi with hi | rfl
    · have hsame : (table.set (n + 1) (advance (fun k => table.getD k 0)
          (fun k => decide (term[k]? = term[n + 1]?)) (table.getD n 0))).getD i 0 =
            table.getD i 0 := by
        rw [List.getD_eq_getElem?_getD, List.getElem?_set_ne (by omega),
          List.getD_eq_getElem?_getD]
      simp only [hsame]
      exact htable i hi
    · have hset : (table.set (n + 1) (advance (fun k => table.getD k 0)
          (fun k => decide (term[k]? = term[n + 1]?)) (table.getD n 0))).getD (n + 1) 0 =
            advance (fun k => table.getD k 0) (fun k => decide (term[k]? = term[n + 1]?))
              (table.getD n 0) := by
        rw [List.getD_eq_getElem?_getD, List.getElem?_set_self (by omega), Option.getD_some]
      simp only [hset]
      exact htable.next

/-- The table holds the longest overlap of every number of letters. -/
theorem buildPrefix_borders (term : List Nat) :
    BorderTable (fun k => term[k]?) term.length (fun k => (buildPrefix term).getD k 0) := by
  by_cases hnil : term = []
  · subst hnil
    exact fun i hi => absurd hi (Nat.not_lt_zero i)
  · have hpos := List.length_pos_iff.mpr hnil
    have htable := (buildPrefixLoop_borders (Nat.sub_lt hpos Nat.one_pos)).2
    rwa [Nat.sub_add_cancel hpos] at htable

/-- The bytes of a text. -/
def utf8 (text : List Char) : Bytes := text.flatMap String.utf8EncodeChar

theorem utf8_cons (c : Char) (text : List Char) :
    utf8 (c :: text) = String.utf8EncodeChar c ++ utf8 text := List.flatMap_cons

/-- The first byte of a character tells how many it has. -/
theorem utf8CharSize_encode (c : Char) (rest : Bytes) :
    utf8CharSize ((String.utf8EncodeChar c ++ rest).headD 0) =
      (String.utf8EncodeChar c).length := by
  have hone : ∀ n ≤ 0x7f, utf8CharSize (UInt8.ofNat n) = 1 := by decide
  have htwo : ∀ n < 0x20, utf8CharSize (UInt8.ofNat (n + 0xc0)) = 2 := by decide
  have hthree : ∀ n < 0x10, utf8CharSize (UInt8.ofNat (n + 0xe0)) = 3 := by decide
  have hfour : ∀ n < 0x08, utf8CharSize (UInt8.ofNat (n + 0xf0)) = 4 := by decide
  unfold String.utf8EncodeChar
  simp only
  split
  · rename_i h
    exact hone _ h
  · split
    · exact htwo _ (Nat.mod_lt _ (by decide))
    · split
      · exact hthree _ (Nat.mod_lt _ (by decide))
      · exact hfour _ (Nat.mod_lt _ (by decide))

/-- No character is the beginning of another one. -/
theorem encode_append_inj {c d : Char} {rest rest' : Bytes}
    (h : String.utf8EncodeChar c ++ rest = String.utf8EncodeChar d ++ rest') : c = d := by
  have hbytes := congrArg (fun l : Bytes => ByteArray.utf8DecodeChar? l.toByteArray 0) h
  simp only [List.toByteArray_append, ByteArray.utf8DecodeChar?_utf8EncodeChar_append] at hbytes
  exact Option.some.inj hbytes

namespace CaseMapping

variable (w : CaseMapping)

def lower (c : Char) : Bytes := w.lowerForm (String.utf8EncodeChar c)

def upper (c : Char) : Bytes := w.toUpper (String.utf8EncodeChar c)

/-- The forms of the letters one behind the other. -/
def forms (term : List Char) : Bytes := term.flatMap fun c => w.lower c ++ w.upper c

/-- Where the forms begin. -/
def places : Nat → List Char → List Nat
  | _, [] => []
  | n, c :: term =>
    n :: (n + (w.lower c).length) :: places (n + (w.lower c ++ w.upper c).length) term

theorem forms_cons (c : Char) (term : List Char) :
    w.forms (c :: term) = (w.lower c ++ w.upper c) ++ w.forms term := List.flatMap_cons

theorem places_getD {w : CaseMapping} {term : List Char} {k : Nat} {c : Char} (n : Nat)
    (h : term[k]? = some c) :
    (w.places n term).getD (2 * k) 0 = n + (w.forms (term.take k)).length ∧
      (w.places n term).getD (2 * k + 1) 0 =
        n + (w.forms (term.take k)).length + (w.lower c).length := by
  induction term generalizing n k with
  | nil => cases h
  | cons d term ih =>
    cases k with
    | zero =>
      cases h
      exact ⟨rfl, rfl⟩
    | succ k =>
      obtain ⟨hlow, hup⟩ := ih (n + (w.lower d ++ w.upper d).length) h
      have htake : (w.forms ((d :: term).take (k + 1))).length =
          (w.lower d ++ w.upper d).length + (w.forms (term.take k)).length := by
        rw [List.take_succ_cons, forms_cons, List.length_append]
      rw [htake, ← Nat.add_assoc]
      exact ⟨hlow, hup⟩

end CaseMapping

namespace SymbolTables

/-- Every code stands for one lower form, and every one for one code. -/
structure Coded (t : SymbolTables) : Prop where
  lowers : (t.table.map Prod.fst).Nodup
  ids : (t.table.map Prod.snd).Nodup
  le : ∀ symb ∈ t.table, symb.2 ≤ t.lastSymbId

theorem Coded.empty : Coded {} :=
  ⟨List.nodup_nil, List.nodup_nil, fun _ h => absurd h List.not_mem_nil⟩

/-- Coding a lower form keeps the codes there are. -/
theorem Coded.code {t : SymbolTables} (h : Coded t) (lower : Bytes) :
    Coded (t.code lower).2 ∧ (lower, (t.code lower).1) ∈ (t.code lower).2.table ∧
      t.table ⊆ (t.code lower).2.table := by
  unfold SymbolTables.code
  split
  · rename_i symb hfind
    have hlower := List.find?_some hfind
    refine ⟨h, ?_, List.Subset.refl _⟩
    rw [← of_decide_eq_true hlower]
    exact List.mem_of_find?_eq_some hfind
  · rename_i hnone
    refine ⟨⟨?_, ?_, fun symb hsymb => ?_⟩, by simp, fun symb hsymb => List.mem_append_left _ hsymb⟩
    · rw [List.map_append, List.map_singleton]
      refine List.Nodup.append h.lowers (List.nodup_singleton lower) fun x hx hx' => ?_
      obtain rfl := List.mem_singleton.mp hx'
      obtain ⟨symb, hsymb, he⟩ := List.mem_map.mp hx
      exact List.find?_eq_none.mp hnone symb hsymb (decide_eq_true he)
    · rw [List.map_append, List.map_singleton]
      refine List.Nodup.append h.ids (List.nodup_singleton _) fun x hx hx' => ?_
      obtain rfl := List.mem_singleton.mp hx'
      obtain ⟨symb, hsymb, he⟩ := List.mem_map.mp hx
      have hle := h.le symb hsymb
      omega
    · rcases List.mem_append.mp hsymb with hsymb | hsymb
      · exact Nat.le_succ_of_le (h.le symb hsymb)
      · obtain rfl := List.mem_singleton.mp hsymb
        exact Nat.le_refl _

theorem code_symbols (t : SymbolTables) (lower : Bytes) :
    (t.code lower).2.symbols = t.symbols ∧ (t.code lower).2.indexes = t.indexes := by
  unfold SymbolTables.code
  split
  · exact ⟨rfl, rfl⟩
  · exact ⟨rfl, rfl⟩

end SymbolTables

variable {w : CaseMapping} {term : List Char} {fuel : Nat}

theorem getCharIndex_encode (c : Char) (rest : Bytes) (t : SymbolTables) :
    getCharIndex w (String.utf8EncodeChar c ++ rest) t =
      (t.push (w.lower c) (w.upper c)).code (w.lower c) := by
  rw [getCharIndex, utf8CharSize_encode, List.take_left]
  rfl

theorem convertLoop_cons (c : Char) (term : List Char) (t : SymbolTables) :
    convertLoop w (fuel + 1) (utf8 (c :: term)) t =
      let r := (t.push (w.lower c) (w.upper c)).code (w.lower c)
      (r.1 :: (convertLoop w fuel (utf8 term) r.2).1, (convertLoop w fuel (utf8 term) r.2).2) := by
  have hne : (String.utf8EncodeChar c ++ utf8 term).isEmpty = false :=
    List.isEmpty_eq_false_iff.mpr (List.append_ne_nil_of_left_ne_nil String.utf8EncodeChar_ne_nil _)
  rw [utf8_cons, convertLoop, hne, if_neg Bool.false_ne_true, getCharIndex_encode,
    utf8CharSize_encode, List.drop_left]

/-- The letters are coded by their lower forms. -/
theorem convertLoop_codes {t : SymbolTables} (h : t.Coded) (hfuel : (utf8 term).length ≤ fuel) :
    (convertLoop w fuel (utf8 term) t).2.Coded ∧
      t.table ⊆ (convertLoop w fuel (utf8 term) t).2.table ∧
      (convertLoop w fuel (utf8 term) t).1.length = term.length ∧
      ∀ (k : Nat) c, term[k]? = some c → ∃ id, (convertLoop w fuel (utf8 term) t).1[k]? = some id ∧
        (w.lower c, id) ∈ (convertLoop w fuel (utf8 term) t).2.table := by
  induction term generalizing fuel t with
  | nil =>
    have hnil : convertLoop w fuel (utf8 []) t = ([], t) := by
      cases fuel <;> rfl
    rw [hnil]
    exact ⟨h, List.Subset.refl _, rfl, fun k c hk => nomatch hk⟩
  | cons c term ih =>
    have hpos := List.length_pos_iff.mpr (@String.utf8EncodeChar_ne_nil c)
    rw [utf8_cons, List.length_append] at hfuel
    obtain ⟨fuel, rfl⟩ : ∃ n, fuel = n + 1 := ⟨fuel - 1, by omega⟩
    have hpush : (t.push (w.lower c) (w.upper c)).Coded := ⟨h.lowers, h.ids, h.le⟩
    obtain ⟨hcode, hmem, hsub⟩ := hpush.code (w.lower c)
    rw [convertLoop_cons]
    generalize (t.push (w.lower c) (w.upper c)).code (w.lower c) = r at hcode hmem hsub
    obtain ⟨hall, hmore, hlen, hcodes⟩ := ih hcode (show (utf8 term).length ≤ fuel by omega)
    simp only
    refine ⟨hall, fun _ hs => hmore (hsub hs), congrArg Nat.succ hlen, fun k d hk => ?_⟩
    cases k with
    | zero =>
      cases hk
      exact ⟨r.1, rfl, hmore hmem⟩
    | succ k => exact hcodes k d hk

/-- The forms of the letters are put down one behind the other. -/
theorem convertLoop_forms {t : SymbolTables} (hfuel : (utf8 term).length ≤ fuel) :
    (convertLoop w fuel (utf8 term) t).2.symbols = t.symbols ++ w.forms term ∧
      (convertLoop w fuel (utf8 term) t).2.indexes =
        t.indexes ++ w.places t.symbols.length term := by
  induction term generalizing fuel t with
  | nil =>
    have hnil : convertLoop w fuel (utf8 []) t = ([], t) := by
      cases fuel <;> rfl
    rw [hnil]
    exact ⟨(List.append_nil _).symm, (List.append_nil _).symm⟩
  | cons c term ih =>
    have hpos := List.length_pos_iff.mpr (@String.utf8EncodeChar_ne_nil c)
    rw [utf8_cons, List.length_append] at hfuel
    obtain ⟨fuel, rfl⟩ : ∃ n, fuel = n + 1 := ⟨fuel - 1, by omega⟩
    obtain ⟨hsymbols, hindexes⟩ :=
      SymbolTables.code_symbols (t.push (w.lower c) (w.upper c)) (w.lower c)
    rw [convertLoop_cons]
    generalize (t.push (w.lower c) (w.upper c)).code (w.lower c) = r at hsymbols hindexes
    obtain ⟨hall, hplaces⟩ := @ih fuel r.2 (by omega)
    simp only
    rw [hall, hplaces, hsymbols, hindexes, SymbolTables.push, CaseMapping.forms_cons]
    simp only [List.append_assoc, CaseMapping.places, List.length_append, true_and]
    rfl

end Icq.Tools
