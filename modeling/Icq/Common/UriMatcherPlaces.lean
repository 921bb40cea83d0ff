import Icq.Common.RkSearcherProgress
import Icq.Common.UriMatcher

/-! Where in a word the parts of a search can end. -/

namespace Icq.Common
open UriTraits

variable {text : WString} {first last : Nat}

theorem length_slice (hlast : last ≤ text.length) : (slice text first last).length = last - first := by
  rw [slice, List.length_drop, List.length_take, Nat.min_eq_left hlast]

theorem slice_self (place : Nat) : slice text place place = [] := by
  refine List.drop_eq_nil_of_le ?_
  rw [List.length_take]
  exact Nat.min_le_left _ _

theorem take_slice {n : Nat} (hn : first + n ≤ last) :
    (slice text first last).take n = slice text first (first + n) := by
  rw [slice, slice, List.take_drop, List.take_take, Nat.min_eq_left hn]

theorem slice_append {mid : Nat} (hfirst : first ≤ mid) (hmid : mid ≤ last) :
    slice text first mid ++ slice text mid last = slice text first last := by
  have htake : text.take mid = (text.take last).take mid := by
    rw [List.take_take, Nat.min_eq_left hmid]
  rw [slice, slice, slice, htake]
  have hdrop : (text.take last).drop mid = ((text.take last).drop first).drop (mid - first) := by
    rw [List.drop_drop, Nat.add_sub_cancel' hfirst]
  rw [hdrop, List.drop_take, List.take_append_drop]

theorem le_findIf {p : WChar → Bool} : first ≤ findIf p text first last := Nat.le_add_right _ _

theorem findIf_le {p : WChar → Bool} (hfirst : first ≤ last) (hlast : last ≤ text.length) :
    findIf p text first last ≤ last := by
  have hfound := @List.findIdx_le_length _ p (slice text first last)
  rw [length_slice hlast] at hfound
  rw [findIf]
  omega

theorem isWhitespace_of_isAlnum {c : WChar} (h : isAlnum c = true) : isWhitespace c = false := by
  rw [Bool.eq_false_iff]
  intro hspace
  simp only [isWhitespace, Bool.or_eq_true, decide_eq_true_iff] at hspace
  rcases hspace with ((((((rfl | rfl) | rfl) | rfl) | rfl) | rfl) | rfl) | rfl
  all_goals exact absurd h (by decide)

theorem slice_length_eq (i : Nat) : slice text i text.length = text.drop i := by
  rw [slice, List.take_length]

/-- From its first letter on a word has at least that letter. -/
theorem trimTrailingPunct_lt {c : WChar} {rest : WString} (hc : isAlnum c = true)
    (hlast : last ≤ text.length) (hlt : first < last) (hword : text.drop first = c :: rest) :
    first < trimTrailingPunct text first last := by
  have hmem : c ∈ slice text first last := by
    have hlength : last - first = (last - first - 1) + 1 := by omega
    rw [slice, List.drop_take, hword, hlength, List.take_succ_cons]
    exact List.mem_cons_self
  have hfound : (slice text first last).reverse.findIdx (fun c => isAlnum c || isAllowedTrailing c) <
      (slice text first last).reverse.length := by
    refine List.findIdx_lt_length_of_exists ⟨c, List.mem_reverse.mpr hmem, ?_⟩
    rw [hc, Bool.true_or]
  rw [List.length_reverse, length_slice hlast] at hfound
  rw [trimTrailingPunct]
  omega

/-- A word begins behind the place, and ends behind that. -/
theorem word_le {i : Nat} (hi : i < text.length) (checkPunct : Bool) :
    i ≤ (UriMatcher.word text i checkPunct).1 ∧
      (UriMatcher.word text i checkPunct).1 ≤ (UriMatcher.word text i checkPunct).2 ∧
      i < (UriMatcher.word text i checkPunct).2 ∧
      (UriMatcher.word text i checkPunct).2 ≤ text.length := by
  rw [UriMatcher.word]
  dsimp only
  have hle : i ≤ scanFirst text i text.length := le_findIf
  have hle' : scanFirst text i text.length ≤ text.length := findIf_le (Nat.le_of_lt hi) (Nat.le_refl _)
  have hfirst : scanFirst text i text.length = i + (text.drop i).findIdx isAlnum := by
    rw [scanFirst, findIf, slice_length_eq]
  generalize scanFirst text i text.length = first at hle hle' hfirst ⊢
  have hge : first ≤ scanLast text first text.length := le_findIf
  have hlast : scanLast text first text.length ≤ text.length := findIf_le hle' (Nat.le_refl _)
  have htrim : trimTrailingPunct text first (scanLast text first text.length) ≤
      scanLast text first text.length := Nat.sub_le _ _
  rcases Nat.lt_or_eq_of_le hle' with hlt | heq
  · have hfound : (text.drop i).findIdx isAlnum < (text.drop i).length := by
      rw [List.length_drop]
      omega
    have hc := List.findIdx_getElem (w := hfound)
    have hword := List.drop_eq_getElem_cons hfound
    rw [List.drop_drop, ← hfirst] at hword
    have hlonger : first < scanLast text first text.length := by
      rw [scanLast, findIf, slice_length_eq, hword, List.findIdx_cons, isWhitespace_of_isAlnum hc,
        cond_false]
      omega
    have := trimTrailingPunct_lt hc hlast hlonger hword
    split
    · omega
    · omega
  · have hend : scanLast text first text.length = text.length := Nat.le_antisymm hlast (heq ▸ hge)
    rw [hend, heq, trimTrailingPunct, slice_self]
    split
    · exact ⟨Nat.le_of_lt hi, Nat.le_refl _, hi, Nat.le_refl _⟩
    · exact ⟨Nat.le_of_lt hi, Nat.le_refl _, hi, Nat.le_refl _⟩

/-- The search stops at a closing bracket, or goes on with other counters. -/
theorem unmatched_cons (counters : Nat → Nat) (c : WChar) (l : WString) :
    (c ∈ closeBrackets ∧ unmatched counters (c :: l) = some 0) ∨
      ∃ counters', unmatched counters (c :: l) = (unmatched counters' l).map (· + 1) := by
  rw [unmatched]
  generalize countOpen counters c = counters
  cases hclose : closeBrackets.findIdx? (· = c) with
  | none => exact .inr ⟨counters, rfl⟩
  | some i =>
    obtain ⟨hlt, hi, -⟩ := List.findIdx?_eq_some_iff_getElem.mp hclose
    dsimp only
    split
    · exact .inr ⟨_, rfl⟩
    · exact .inl ⟨of_decide_eq_true hi ▸ List.getElem_mem hlt, rfl⟩

theorem unmatched_lt {counters : Nat → Nat} {l : WString} {k : Nat}
    (h : unmatched counters l = some k) : k < l.length := by
  induction l generalizing counters k with
  | nil => cases h
  | cons c l ih =>
    rcases unmatched_cons counters c l with ⟨-, hstop⟩ | ⟨counters', hgo⟩
    · obtain rfl := Option.some.inj (hstop.symm.trans h)
      exact Nat.zero_lt_succ _
    · obtain ⟨k', hk', rfl⟩ := Option.map_eq_some_iff.mp (hgo.symm.trans h)
      exact Nat.succ_lt_succ (ih hk')

/-- A bracket is not met where there is none. -/
theorem le_unmatched {counters : Nat → Nat} {l : WString} {k n : Nat}
    (hplain : ∀ c ∈ l.take n, c ∉ closeBrackets) (h : unmatched counters l = some k) : n ≤ k := by
  induction l generalizing counters k n with
  | nil => cases h
  | cons c l ih =>
    cases n with
    | zero => exact Nat.zero_le k
    | succ n =>
      obtain ⟨hc, hplain⟩ := List.forall_mem_cons.mp hplain
      rcases unmatched_cons counters c l with ⟨hbracket, -⟩ | ⟨counters', hgo⟩
      · exact absurd hbracket hc
      · obtain ⟨k', hk', rfl⟩ := Option.map_eq_some_iff.mp (hgo.symm.trans h)
        exact Nat.succ_le_succ (ih hplain hk')

theorem bracketsMismatch_le (hfirst : first ≤ last) (hlast : last ≤ text.length) {n : Nat}
    (hn : first + n ≤ last) (hplain : ∀ c ∈ slice text first (first + n), c ∉ closeBrackets) :
    ∃ stop, bracketsMismatch text first last = some stop ∧ first + n ≤ stop ∧ stop ≤ last := by
  rw [bracketsMismatch, if_pos hfirst]
  refine ⟨_, rfl, ?_⟩
  cases h : unmatched (fun _ => 0) (slice text first last) with
  | none => exact ⟨hn, Nat.le_refl last⟩
  | some k =>
    have hlt := unmatched_lt h
    rw [length_slice hlast] at hlt
    have hle := le_unmatched (take_slice hn ▸ hplain) h
    rw [Option.map_some, Option.getD_some]
    omega

/-- Only an end in front of the start is not met. -/
theorem bracketsMismatch_eq_none : bracketsMismatch text first last = none ↔
    last < first ∧ unmatched (fun _ => 0) (text.drop first) = none := by
  rw [bracketsMismatch]
  split
  · rename_i hle
    exact iff_of_false (Option.some_ne_none _) fun h => absurd h.1 (Nat.not_lt.mpr hle)
  · rename_i hlt
    rw [Option.map_eq_none_iff]
    exact (and_iff_right (Nat.lt_of_not_le hlt)).symm

theorem bracketsMismatch_inside {stop : Nat} (hlast : last ≤ text.length)
    (h : bracketsMismatch text first last = some stop) : first ≤ stop ∧ stop ≤ text.length := by
  by_cases hfirst : first ≤ last
  · obtain ⟨stop', hstop', hle, hle'⟩ := bracketsMismatch_le (n := 0) hfirst hlast hfirst fun c hc => by
      rw [Nat.add_zero, slice_self] at hc
      cases hc
    obtain rfl := Option.some.inj (h.symm.trans hstop')
    omega
  · rw [bracketsMismatch, if_neg hfirst] at h
    obtain ⟨k, hk, rfl⟩ := Option.map_eq_some_iff.mp h
    have hlt := unmatched_lt hk
    rw [List.length_drop] at hlt
    omega

theorem putResult_le (hfirst : first ≤ last) (hlast : last ≤ text.length) {n : Nat}
    (hn : first + n ≤ last) (hplain : ∀ c ∈ slice text first (first + n), c ∉ closeBrackets) :
    ∃ stop, putResult text first last = some (stop, slice text first stop) ∧
      first + n ≤ stop ∧ stop ≤ last := by
  obtain ⟨stop, hstop, hle⟩ := bracketsMismatch_le hfirst hlast hn hplain
  exact ⟨stop, congrArg (Option.map _) hstop, hle⟩

/-- The brackets are not letters, and no letter is made one. -/
theorem closeBracket_ne {b : WChar} (hb : b ∈ closeBrackets) (scheme : SchemeType) :
    tolowercase b ∉ scheme.signature := by
  have hbrackets : closeBrackets.all (fun b => tolowercase b == b) = true := by decide +kernel
  have hsignatures : closeBrackets.all (fun b =>
      (SchemeType.undefined :: SchemeType.all).all fun s => !s.signature.contains b) = true := by
    decide +kernel
  have hscheme : scheme ∈ SchemeType.undefined :: SchemeType.all := by cases scheme <;> decide
  have hnone := List.all_eq_true.mp (List.all_eq_true.mp hsignatures b hb) scheme hscheme
  rw [eq_of_beq (List.all_eq_true.mp hbrackets b hb)]
  simpa using hnone

namespace UriMatcher

variable {t : UriTraits} {m m' : UriMatcher}

/-- The scheme searcher has schemes only. -/
def Ready (m : UriMatcher) : Prop := ∀ scheme ∈ m.schemes.patterns, scheme ∈ SchemeType.all

/-- The scheme is a real one, and it stands in the word from this place on. -/
structure SchemeAt (text : WString) (last place : Nat) (found : SchemeType) : Prop where
  mem : found ∈ SchemeType.all
  fits : place + found.signature.length ≤ last
  plain : ∀ c ∈ slice text place (place + found.signature.length), c ∉ closeBrackets

theorem searchScheme_ready (h : m.Ready) (hm : m' = (m.searchScheme t text first last).1) :
    m'.Ready := by
  have hsame := m.schemes.search_same t.schemeHashing SchemeType.signature (text.take last) first
  subst hm
  exact fun scheme hscheme => h scheme (hsame.patterns.mem_iff.mp hscheme)

theorem searchScheme_found {place : Nat} {found : SchemeType} (h : m.Ready)
    (hlast : last ≤ text.length)
    (hsearch : m.searchScheme t text first last = (m', some (place, found))) :
    m'.Ready ∧ first ≤ place ∧ SchemeAt text last place found := by
  obtain ⟨rfl, hfound⟩ := Prod.mk.inj hsearch
  obtain ⟨-, hfinds⟩ := RkSearcherSset.search_finds hfound
  refine ⟨searchScheme_ready h rfl, hfinds.le, ?_⟩
  have hmem := h found hfinds.mem
  obtain ⟨stretch, hprefix, hequal⟩ := Hashing.occurs_iff.mp hfinds.occurs
  have hlength := hprefix.length_le
  rw [hequal.length_eq, List.length_drop, List.length_take, Nat.min_eq_left hlast] at hlength
  have hpos := List.length_pos_iff.mpr (SchemeType.signature_ne_nil hmem)
  have hfits : place + found.signature.length ≤ last := by omega
  refine ⟨hmem, hfits, fun c hc hbracket => ?_⟩
  have hstretch : stretch = slice text place (place + found.signature.length) := by
    rw [← take_slice hfits, ← hequal.length_eq]
    exact List.prefix_iff_eq_take.mp hprefix
  rw [← hstretch] at hc
  have hfold : stretch.map tolowercase = found.signature := by
    rw [← List.forall₂_eq_eq_eq, List.forall₂_map_left_iff]
    exact hequal.imp fun _ _ => of_decide_eq_true
  exact closeBracket_ne hbracket found (hfold ▸ List.mem_map_of_mem hc)

end UriMatcher

end Icq.Common
