import Icq.Common.UriMatcherPlaces
import Mathlib.Logic.Relation

/-! A search for URIs ends behind its beginning, unless it runs out of the text. -/

namespace Icq.Common
open UriTraits

variable {t : UriTraits} {text : WString} {first last : Nat}

namespace UriMatcher

variable {m m' : UriMatcher}

/-- A domain searcher that has found something goes on. -/
def Going (m : UriMatcher) : Option (Nat × WString) → Prop
  | none => True
  | some _ => m.domains.count = m.domains.buckets.length ∧ m.domains.offset ≤ m.domains.buckets.length

theorem searchDomain_going : (m.searchDomain t text first last).1.Going
    (m.searchDomain t text first last).2 := by
  cases h : (m.searchDomain t text first last).2 with
  | none => trivial
  | some p =>
    obtain ⟨hcount, hfinds⟩ := RkSearcherSset.search_finds (show _ = some (p.1, p.2) from h)
    exact ⟨hcount, hfinds.offset_le⟩

theorem searchDomain_le {q : Nat × WString} (h : m.searchDomain t text first last = (m', some q)) :
    first ≤ q.1 := by
  have hfound : (m.domains.search t.domainHashing id (text.take last) none first).2 =
      some (q.1, q.2) := congrArg Prod.snd h
  exact (RkSearcherSset.search_finds hfound).2.le

/-- How far a domain searcher at a place can still go. -/
def domainsLeft (m : UriMatcher) (last place : Nat) : Nat :=
  (last - place) * (m.domains.buckets.length + 1) + (m.domains.buckets.length - m.domains.offset)

theorem searchDomain_left {place place' : Nat} {domain : WString} (hplace : place < last)
    (hgoing : m.domains.count = m.domains.buckets.length)
    (h : m.searchDomain t text place last = (m', some (place', domain))) :
    m'.domainsLeft last place' < m.domainsLeft last place := by
  have hdomains : m'.domains =
      (m.domains.search t.domainHashing id (text.take last) none place).1 :=
    congrArg (fun r => r.1.domains) h.symm
  have hfound : (m.domains.search t.domainHashing id (text.take last) none place).2 =
      some (place', domain) := congrArg Prod.snd h
  obtain ⟨-, hfinds⟩ := RkSearcherSset.search_finds hfound
  have hsame := (m.domains.search_same t.domainHashing id (text.take last) place).buckets
  have hle := hfinds.offset_le
  have hlt' := hfinds.offset_lt (beq_iff_eq.mpr hgoing)
  rw [domainsLeft, domainsLeft, hdomains, hsame]
  rw [hsame] at hle
  generalize m.domains.buckets.length = size at *
  rcases Nat.lt_or_eq_of_le hfinds.le with hlt | heq
  · have hsucc : last - place' + 1 ≤ last - place := by omega
    have hmul := Nat.mul_le_mul_right (size + 1) hsucc
    rw [Nat.add_mul, Nat.one_mul] at hmul
    omega
  · have hlt := hlt' heq.symm
    rw [← heq]
    omega

/-- The loop over the domains ends. -/
theorem validDomain_ends {p : Option (Nat × WString)} {fuel : Nat} (hgoing : m.Going p)
    (hpos : 0 < fuel) (hfuel : ∀ q ∈ p, m.domainsLeft last q.1 < fuel) :
    ∃ m' found, m.validDomain t text first last p fuel = some (m', found) ∧
      m'.schemes = m.schemes := by
  induction fuel generalizing m p with
  | zero => exact absurd hpos (Nat.lt_irrefl 0)
  | succ fuel ih =>
    cases p with
    | none => exact ⟨m, false, rfl, rfl⟩
    | some q =>
      obtain ⟨place, domain⟩ := q
      rw [validDomain]
      split
      · rename_i hplace
        split
        · exact ⟨m, true, rfl, rfl⟩
        · have hleft := hfuel (place, domain) rfl
          have hmul : 1 * 1 ≤ (last - place) * (m.domains.buckets.length + 1) :=
            Nat.mul_le_mul (by omega) (Nat.le_add_left 1 _)
          have hpos' : 0 < fuel := by
            rw [domainsLeft] at hleft
            dsimp only at hleft
            omega
          refine ih searchDomain_going hpos' fun q hq => ?_
          have hless := searchDomain_left hplace hgoing.1
            (show _ = ((m.searchDomain t text place last).1, some (q.1, q.2)) from Prod.ext rfl hq)
          exact Nat.lt_of_lt_of_le hless (Nat.le_of_lt_succ hleft)
      · exact ⟨m, false, rfl, rfl⟩

theorem domainsLeft_lt (place : Nat) : m.domainsLeft last place < m.domainFuel last := by
  have hmul := Nat.mul_le_mul_right (m.domains.buckets.length + 1) (Nat.sub_le last place)
  rw [domainsLeft, domainFuel, Nat.add_mul]
  omega

theorem validDomain_found {p : Option (Nat × WString)} (hgoing : m.Going p) :
    ∃ m' found, m.validDomain t text first last p (m.domainFuel last) = some (m', found) ∧
      m'.schemes = m.schemes :=
  validDomain_ends hgoing (Nat.zero_lt_succ _) fun q _ => domainsLeft_lt q.1

theorem hasDomain_found : ∃ m' found, m.hasDomain t text first last = some (m', found) ∧
    m'.schemes = m.schemes :=
  validDomain_found searchDomain_going

theorem putResult_found (hfirst : first ≤ last) (hlast : last ≤ text.length) :
    ∃ stop, putResult text first last = some (stop, slice text first stop) ∧
      first ≤ stop ∧ stop ≤ last := by
  refine putResult_le (n := 0) hfirst hlast hfirst fun c hc => ?_
  rw [Nat.add_zero, slice_self] at hc
  cases hc

/-- What an expression matches at the beginning is inside. -/
theorem matchAt_le {e : UriExpression} {n : Nat} (hfirst : first ≤ last) (hlast : last ≤ text.length)
    (h : matchAt text e first last = some n) : first + n ≤ last := by
  rw [matchAt] at h
  split at h
  · rename_i hsearch
    have hinside := e.inside hsearch
    obtain rfl := Option.some.inj h
    rw [length_slice hlast] at hinside
    omega
  · cases h

theorem hasUrl_le {scheme : SchemeType} (hfirst : first ≤ last) (hlast : last ≤ text.length) :
    first ≤ hasUrl t text first last scheme ∧ hasUrl t text first last scheme ≤ last := by
  rw [hasUrl]
  cases h : matchAt text (uriExpression t scheme) first last with
  | none => exact ⟨Nat.le_refl first, hfirst⟩
  | some n => exact ⟨Nat.le_add_right _ _, matchAt_le hfirst hlast h⟩

/-- A match behind a scheme, of which the first `n` characters are not brackets. -/
theorem putMatch_stop {e : UriExpression} {place n k : Nat} {scheme : SchemeType} (result : WString)
    (hlast : last ≤ text.length) (hat : SchemeAt text last place scheme)
    (h : matchAt text e (place + scheme.signature.length) last = some n) (hk : k ≤ n)
    (hplain : ∀ c ∈ slice text (place + scheme.signature.length)
      (place + scheme.signature.length + k), c ∉ closeBrackets) :
    ∃ stop, putMatch text e (place + scheme.signature.length) last scheme result =
        some (stop, slice text place stop) ∧
      place + scheme.signature.length + k ≤ stop ∧ stop ≤ last := by
  have hn := matchAt_le hat.fits hlast h
  have hall : ∀ c ∈ slice text place (place + (scheme.signature.length + k)), c ∉ closeBrackets := by
    intro c hc
    rw [← Nat.add_assoc, ← slice_append (Nat.le_add_right _ _) (Nat.le_add_right _ k)] at hc
    rcases List.mem_append.mp hc with hc | hc
    · exact hat.plain c hc
    · exact hplain c hc
  obtain ⟨stop, hstop, hle, hle'⟩ := @putResult_le text place
    (place + scheme.signature.length + n) (by omega) (Nat.le_trans hn hlast)
    (scheme.signature.length + k) (by omega) hall
  refine ⟨stop, ?_, by omega, Nat.le_trans hle' hn⟩
  rw [putMatch, h]
  dsimp only
  rw [Nat.add_sub_cancel]
  exact hstop

theorem putMatch_cases (e : UriExpression) {place : Nat} {scheme : SchemeType} (result : WString)
    (hlast : last ≤ text.length) (hat : SchemeAt text last place scheme) :
    putMatch text e (place + scheme.signature.length) last scheme result =
        some (place + scheme.signature.length, result) ∨
      ∃ stop, putMatch text e (place + scheme.signature.length) last scheme result =
          some (stop, slice text place stop) ∧
        place + scheme.signature.length ≤ stop ∧ stop ≤ last := by
  cases h : matchAt text e (place + scheme.signature.length) last with
  | none =>
    refine .inl ?_
    rw [putMatch, h]
  | some n =>
    refine .inr (putMatch_stop (k := 0) result hlast hat h (Nat.zero_le n) fun c hc => ?_)
    rw [Nat.add_zero, slice_self] at hc
    cases hc

/-- The name of the local host is no bracket, so that something is left of it. -/
theorem doMatchLocalhost_cases {place : Nat} {scheme : SchemeType} (result : WString)
    (hlast : last ≤ text.length) (hat : SchemeAt text last place scheme) :
    doMatchLocalhost t text (place + scheme.signature.length) last scheme result =
        some (place + scheme.signature.length, result) ∨
      ∃ stop, doMatchLocalhost t text (place + scheme.signature.length) last scheme result =
          some (stop, slice text place stop) ∧
        place + scheme.signature.length < stop ∧ stop ≤ last := by
  rw [doMatchLocalhost]
  split
  · exact .inl rfl
  cases h : matchAt text t.expressions.localhost (place + scheme.signature.length) last with
  | none =>
    refine .inl ?_
    rw [putMatch, h]
  | some n =>
    have hn := matchAt_le hat.fits hlast h
    have hliteral : wide "localhost" <+:
        (slice text (place + scheme.signature.length) last).take n := by
      rw [matchAt] at h
      split at h
      · rename_i hsearch
        obtain rfl := Option.some.inj h
        exact t.expressions.literal hsearch
      · cases h
    rw [take_slice hn] at hliteral
    have hlength := hliteral.length_le
    rw [length_slice (Nat.le_trans hn hlast), Nat.add_sub_cancel_left] at hlength
    have hname : slice text (place + scheme.signature.length)
        (place + scheme.signature.length + (wide "localhost").length) = wide "localhost" := by
      rw [← take_slice (Nat.add_le_add_left hlength _)]
      exact (List.prefix_iff_eq_take.mp hliteral).symm
    have hplain : (wide "localhost").all (fun c => !closeBrackets.contains c) = true := by
      decide +kernel
    obtain ⟨stop, hstop, hle, hle'⟩ := putMatch_stop result hlast hat h hlength (by
      rw [hname]
      intro c hc
      simpa using List.all_eq_true.mp hplain c hc)
    refine .inr ⟨stop, hstop, Nat.lt_of_lt_of_le (Nat.lt_add_of_pos_right ?_) hle, hle'⟩
    decide +kernel

end UriMatcher

open UriMatcher

/-- A search from `i` ends behind it, and its result stands right in front of its end. -/
structure UriSearch.From (text : WString) (i : Nat) (r : UriSearch) : Prop where
  ready : r.matcher.Ready
  lt : i < r.place
  le : r.place ≤ text.length
  fits : i + r.result.length ≤ r.place
  result : r.result = slice text (r.place - r.result.length) r.place

namespace UriSearch.From

variable {m : UriMatcher} {i start stop : Nat} {scheme : SchemeType} {r : UriSearch}

theorem of_nil (hready : m.Ready) (hlt : i < stop) (hle : stop ≤ text.length) :
    UriSearch.From text i { matcher := m, place := stop, result := [], scheme } :=
  ⟨hready, hlt, hle, Nat.le_of_lt hlt, (slice_self stop).symm⟩

theorem of_slice (hready : m.Ready) (hi : i ≤ start) (hstart : start ≤ stop) (hlt : i < stop)
    (hle : stop ≤ text.length) :
    UriSearch.From text i { matcher := m, place := stop, result := slice text start stop, scheme } := by
  refine ⟨hready, hlt, hle, ?_, ?_⟩
  · dsimp only
    rw [length_slice hle]
    omega
  · dsimp only
    rw [length_slice hle, Nat.sub_sub_self hstart]

theorem mono {j : Nat} (h : r.From text i) (hj : j ≤ i) : r.From text j :=
  ⟨h.ready, Nat.lt_of_le_of_lt hj h.lt, h.le, Nat.le_trans (Nat.add_le_add_right hj _) h.fits, h.result⟩

end UriSearch.From

namespace UriMatcher

variable {m : UriMatcher}

theorem searchRelaxed_from (hready : m.Ready) (hfirst : first < last) (hlast : last ≤ text.length) :
    ∃ r, m.searchRelaxed t text first last [] = some r ∧ r.From text first := by
  have hle := findIf_le (p := isAlnum) (Nat.le_of_lt hfirst) hlast
  have hge : first ≤ skipSpecs text first last := le_findIf
  rw [searchRelaxed, doMatchUrlRelaxed]
  cases hsearch : t.expressions.url.search (slice text (skipSpecs text first last) last) with
  | none =>
    refine ⟨_, rfl, ?_⟩
    dsimp only
    rw [if_neg (fun h => h rfl)]
    exact .of_nil hready hfirst hlast
  | some found =>
    obtain ⟨position, n⟩ := found
    have hinside := t.expressions.url.inside hsearch
    rw [length_slice hlast] at hinside
    have hstop : skipSpecs text first last + position + n ≤ last := by
      have : skipSpecs text first last ≤ last := hle
      omega
    obtain ⟨m', found, hdomain, hschemes⟩ := @hasDomain_found t text
      (skipSpecs text first last + position) (skipSpecs text first last + position + n) m
    have hready' : m'.Ready := fun scheme hscheme => hready scheme (hschemes ▸ hscheme)
    dsimp only
    rw [hdomain]
    dsimp only [Option.bind_some]
    split
    · obtain ⟨stop, hput, hstart, hle'⟩ := putResult_found
        (Nat.le_add_right (skipSpecs text first last + position) n) (Nat.le_trans hstop hlast)
      rw [hput]
      refine ⟨_, rfl, ?_⟩
      dsimp only
      by_cases hmoved : stop ≠ skipSpecs text first last
      · rw [if_pos hmoved]
        exact .of_slice hready' (by omega) (by omega) (by omega) (by omega)
      · rw [if_neg hmoved, Decidable.not_not.mp hmoved]
        have hempty : slice text (skipSpecs text first last + position) (skipSpecs text first last) =
            [] := by
          refine List.drop_eq_nil_of_le ?_
          rw [List.length_take]
          omega
        rw [hempty]
        exact .of_nil hready' hfirst hlast
    · refine ⟨_, rfl, ?_⟩
      dsimp only
      rw [if_neg (fun h => h rfl)]
      exact .of_nil hready' hfirst hlast

namespace SchemeLoop

/-- The word ends behind the scheme, and only there nothing stops the search for brackets: the end of
another scheme is in front of this one, and no bracket follows. -/
def Overruns (t : UriTraits) (text : WString) (last : Nat) (s : SchemeLoop) : Prop :=
  s.schemeEnd ≠ last ∧ t.settings.isAllowed s.found = true ∧ s.found.isCommonScheme = false ∧
    s.uend < s.place ∧ unmatched (fun _ => 0) (text.drop s.place) = none

/-- The loop is at a scheme of the word, and has no result yet. -/
structure Sound (text : WString) (first last : Nat) (s : SchemeLoop) : Prop where
  ready : s.matcher.Ready
  first_le : first ≤ s.place
  scheme_at : SchemeAt text last s.place s.found
  result : s.result = []
  lt_uend : first < s.uend
  uend_le : s.uend ≤ last

/-- What one step may come to from the scheme at a place. -/
inductive Proper (text : WString) (first last place : Nat) :
    SchemeStep → Prop where
  | again {s : SchemeLoop} : s.Sound text first last → place < s.place → Proper text first last place (.again s)
  | relax {last' : Nat} {m : UriMatcher} : m.Ready → first < last' → last' ≤ last →
      Proper text first last place (.relax last' m [])
  | done {r : UriSearch} : r.From text first → Proper text first last place (.done r)

variable {s : SchemeLoop}

theorem Sound.lt_schemeEnd (h : s.Sound text first last) : s.place < s.schemeEnd :=
  Nat.lt_add_of_pos_right (List.length_pos_iff.mpr (SchemeType.signature_ne_nil h.scheme_at.mem))

theorem Sound.with_matcher (h : s.Sound text first last) (hready : m.Ready) :
    Sound text first last { s with matcher := m } :=
  ⟨hready, h.first_le, h.scheme_at, h.result, h.lt_uend, h.uend_le⟩

theorem Sound.stepLocalhost (h : s.Sound text first last) (hlast : last ≤ text.length)
    (hscheme : s.scheme = s.found) :
    ∃ st, s.stepLocalhost t text last = some st ∧ Proper text first last s.place st := by
  have hplace := h.lt_schemeEnd
  have hfirst := h.first_le
  rw [SchemeLoop.stepLocalhost, hscheme, h.result]
  rcases doMatchLocalhost_cases [] hlast h.scheme_at with hnone | ⟨stop, hstop, hlt, hle⟩
  · rw [schemeEnd, hnone]
    refine ⟨_, rfl, ?_⟩
    dsimp only
    rw [if_neg fun hne => hne rfl]
    cases hsearch : s.matcher.searchScheme t text (s.place + s.found.signature.length) last with
    | mk matcher p =>
      cases p with
      | none =>
        refine .relax ?_ (Nat.lt_of_lt_of_le h.lt_uend h.uend_le) (Nat.le_refl last)
        exact searchScheme_ready h.ready (congrArg Prod.fst hsearch).symm
      | some p =>
        obtain ⟨hready, hle, hat⟩ := searchScheme_found h.ready hlast hsearch
        have hlt : s.place < p.1 := Nat.lt_of_lt_of_le hplace hle
        refine .again ⟨hready, ?_, hat, rfl, ?_, h.scheme_at.fits⟩ hlt
        · exact Nat.le_trans hfirst (Nat.le_of_lt hlt)
        · exact Nat.lt_of_le_of_lt hfirst hplace
  · rw [schemeEnd, hstop]
    refine ⟨_, rfl, ?_⟩
    dsimp only
    rw [if_pos (Nat.ne_of_gt hlt)]
    exact .done (.of_slice h.ready hfirst (by omega) (by omega) (by omega))

theorem Sound.stepUrl (h : s.Sound text first last) (hlast : last ≤ text.length)
    (hscheme : s.scheme = s.found) {p : Option (Nat × WString)} (hgoing : s.matcher.Going p) :
    ∃ st, s.stepUrl t text last p = some st ∧ Proper text first last s.place st := by
  have hplace := h.lt_schemeEnd
  have hfirst := h.first_le
  have hend : s.schemeEnd ≤ last := h.scheme_at.fits
  obtain ⟨hge, hle⟩ := @hasUrl_le t text s.schemeEnd last s.scheme hend hlast
  rw [SchemeLoop.stepUrl]
  split
  · obtain ⟨m', found, hvalid, hschemes⟩ := @validDomain_found t text s.schemeEnd
      (hasUrl t text s.schemeEnd last s.scheme) s.matcher p hgoing
    have hready : m'.Ready := fun scheme hmem => h.ready scheme (hschemes ▸ hmem)
    rw [hvalid, h.result]
    dsimp only [Option.bind_some]
    split
    · split
      · exact ⟨_, rfl, .done (.of_nil hready (by omega) (by omega))⟩
      · obtain ⟨stop, hput, hstart, hstop⟩ := @putResult_le text s.place
          (hasUrl t text s.schemeEnd last s.scheme) (by omega) (by omega)
          s.found.signature.length hge h.scheme_at.plain
        rw [hput]
        have : s.schemeEnd ≤ stop := hstart
        exact ⟨_, rfl, .done (.of_slice hready hfirst (by omega) (by omega) (by omega))⟩
    · split
      · rw [doMatchUrl, hscheme]
        rcases putMatch_cases (uriExpression t s.found) [] hlast h.scheme_at with
          hnone | ⟨stop, hput, hstart, hstop⟩
        · rw [schemeEnd, hnone]
          exact ⟨_, rfl, .done (.of_nil hready (Nat.lt_of_le_of_lt hfirst hplace)
            (Nat.le_trans hend hlast))⟩
        · rw [schemeEnd, hput]
          have : s.schemeEnd ≤ stop := hstart
          exact ⟨_, rfl, .done (.of_slice hready hfirst (by omega) (by omega) (by omega))⟩
      · have hs := (h.with_matcher hready).stepLocalhost (t := t) hlast hscheme
        rwa [h.result] at hs
  · exact h.stepLocalhost hlast hscheme

theorem Sound.stepDomain (h : s.Sound text first last) (hlast : last ≤ text.length)
    (hscheme : s.scheme = s.found) :
    ∃ st, s.stepDomain t text first last = some st ∧ Proper text first last s.place st := by
  have hgoing := @searchDomain_going t text first last s.matcher
  have hready : (s.matcher.searchDomain t text first last).1.Ready := h.ready
  rw [SchemeLoop.stepDomain]
  cases hsearch : s.matcher.searchDomain t text first last with
  | mk matcher p =>
    rw [hsearch] at hgoing hready
    dsimp only
    split
    · rename_i hbefore
      obtain ⟨q, rfl, hq⟩ := (Option.any_eq_true _ _).mp hbefore
      rw [h.result]
      have hfirst := searchDomain_le hsearch
      have hq := of_decide_eq_true hq
      refine ⟨_, rfl, .relax hready (Nat.lt_of_le_of_lt hfirst hq) ?_⟩
      exact Nat.le_trans (Nat.le_of_lt h.lt_schemeEnd) h.scheme_at.fits
    · exact (h.with_matcher hready).stepUrl hlast hscheme hgoing

/-- A step comes to what it may, or runs out of the text. -/
theorem Sound.step (h : s.Sound text first last) (hlast : last ≤ text.length) :
    (s.step t text first last = none ∧ s.Overruns t text last) ∨
      (¬ s.Overruns t text last ∧
        ∃ st, s.step t text first last = some st ∧ Proper text first last s.place st) := by
  have hfirst := h.first_le
  have hlt : first < last := Nat.lt_of_lt_of_le h.lt_uend h.uend_le
  have hnext : Sound text first last { s with scheme := s.found } :=
    ⟨h.ready, h.first_le, h.scheme_at, h.result, h.lt_uend, h.uend_le⟩
  rw [SchemeLoop.step]
  by_cases hend : s.schemeEnd = last
  · rw [if_pos hend, h.result]
    exact .inr ⟨fun hover => hover.1 hend, _, rfl, .done (.of_nil h.ready hlt hlast)⟩
  rw [if_neg hend]
  by_cases hallowed : t.settings.isAllowed s.found = true
  swap
  · rw [if_pos (by rw [Bool.eq_false_iff.mpr hallowed]; rfl), h.result]
    refine .inr ⟨fun hover => hallowed hover.2.1, _, rfl, .done (.of_nil h.ready h.lt_uend ?_)⟩
    exact Nat.le_trans h.uend_le hlast
  rw [if_neg (by rw [hallowed]; exact Bool.false_ne_true)]
  by_cases hcommon : s.found.isCommonScheme = true
  · rw [if_neg (by rw [hcommon]; exact Bool.false_ne_true)]
    refine .inr ⟨fun hover => ?_, hnext.stepDomain hlast rfl⟩
    rw [hover.2.2.1] at hcommon
    cases hcommon
  have hspecial := Bool.eq_false_iff.mpr hcommon
  rw [if_pos (by rw [hspecial]; rfl)]
  dsimp only
  cases hbrackets : bracketsMismatch text s.place s.uend with
  | none =>
    obtain ⟨hbehind, hnone⟩ := bracketsMismatch_eq_none.mp hbrackets
    exact .inl ⟨rfl, hend, hallowed, hspecial, hbehind, hnone⟩
  | some uend =>
    refine .inr ⟨fun hover => ?_, ?_⟩
    · rw [bracketsMismatch_eq_none.mpr ⟨hover.2.2.2.1, hover.2.2.2.2⟩] at hbrackets
      cases hbrackets
    obtain ⟨hge, hle⟩ := bracketsMismatch_inside (Nat.le_trans h.uend_le hlast) hbrackets
    dsimp only [Option.bind_some]
    split
    · rename_i hlong
      obtain ⟨stop, hput, hstart, hstop⟩ := @putResult_le text s.place uend hge hle
        s.found.signature.length (by omega) h.scheme_at.plain
      have hplace := h.lt_schemeEnd
      have : s.schemeEnd ≤ stop := hstart
      rw [hput]
      exact ⟨_, rfl, .done (.of_slice h.ready hfirst (by omega) (by omega) (by omega))⟩
    · exact hnext.stepDomain hlast rfl

/-- The loop goes on from one scheme to another. -/
def Again (t : UriTraits) (text : WString) (first last : Nat) (s s' : SchemeLoop) : Prop :=
  s.step t text first last = some (.again s')

end SchemeLoop

open SchemeLoop Relation

/-- The loop ends, and runs out of the text just where a scheme does that it meets. -/
theorem searchSchemes_cases {s : SchemeLoop} {fuel : Nat} (h : s.Sound text first last)
    (hlast : last ≤ text.length) (hfuel : last - s.place < fuel) :
    (searchSchemes t text s first last fuel = none ∧
      ∃ s', ReflTransGen (Again t text first last) s s' ∧ s'.Overruns t text last) ∨
    ((∀ s', ReflTransGen (Again t text first last) s s' → ¬ s'.Overruns t text last) ∧
      ∃ r, searchSchemes t text s first last fuel = some r ∧ r.From text first) := by
  induction fuel generalizing s with
  | zero => exact absurd hfuel (Nat.not_lt_zero _)
  | succ fuel ih =>
    rw [searchSchemes]
    rcases h.step (t := t) hlast with ⟨hnone, hover⟩ | ⟨hsafe, st, hstep, hproper⟩
    · rw [hnone]
      exact .inl ⟨rfl, s, .refl, hover⟩
    have hstops : ∀ {P : SchemeLoop → Prop}, P s → (∀ s', st ≠ .again s') →
        ∀ s', ReflTransGen (Again t text first last) s s' → P s' := by
      intro P hs hne s' hs'
      rcases ReflTransGen.cases_head hs' with rfl | ⟨s'', hnext, -⟩
      · exact hs
      · exact absurd (Option.some.inj (hstep.symm.trans hnext)) (hne s'')
    rw [hstep]
    cases hproper with
    | again hnext hlt =>
      rename_i s₁
      have hfits := hnext.scheme_at.fits
      have hstart := hnext.lt_schemeEnd
      have hle : s₁.schemeEnd ≤ last := hfits
      rcases ih hnext (by omega) with ⟨hnone, s', hs', hover⟩ | ⟨hall, hr⟩
      · exact .inl ⟨hnone, s', .head hstep hs', hover⟩
      · refine .inr ⟨fun s' hs' => ?_, hr⟩
        rcases ReflTransGen.cases_head hs' with rfl | ⟨s'', hnext', hrest⟩
        · exact hsafe
        · obtain rfl : s₁ = s'' := SchemeStep.again.inj (Option.some.inj (hstep.symm.trans hnext'))
          exact hall s' hrest
    | relax hready hlt hle =>
      refine .inr ⟨hstops hsafe fun _ hne => SchemeStep.noConfusion hne, ?_⟩
      exact searchRelaxed_from hready hlt (Nat.le_trans hle hlast)
    | done hr => exact .inr ⟨hstops hsafe fun _ hne => SchemeStep.noConfusion hne, _, rfl, hr⟩

/-- A search for URIs comes to a scheme of its word. -/
def Meets (t : UriTraits) (text : WString) (m : UriMatcher) (i : Nat) (checkPunct : Bool)
    (s : SchemeLoop) : Prop :=
  let w := word text i checkPunct
  isSearched text w.1 w.2 = true ∧
    ∃ s₀, (m.enter t text w.1 w.2 []).2 = some s₀ ∧ ReflTransGen (Again t text w.1 w.2) s₀ s

/-- A scheme is met where the search runs out of the text. -/
def SearchOverruns (t : UriTraits) (text : WString) (m : UriMatcher) (i : Nat) (checkPunct : Bool) :
    Prop :=
  ∃ s, Meets t text m i checkPunct s ∧ s.Overruns t text (word text i checkPunct).2

theorem enter_found {matcher : UriMatcher} {p : Option SchemeLoop} {result : WString}
    (h : m.enter t text first last result = (matcher, p)) :
    matcher = (m.reset.searchScheme t text first last).1 ∧
      ∀ s, p = some s → m.reset.searchScheme t text first last = (matcher, some (s.place, s.found)) ∧
        s.matcher = matcher ∧ s.result = result ∧ s.uend = last := by
  rw [enter] at h
  cases hsearch : m.reset.searchScheme t text first last with
  | mk m' q =>
    rw [hsearch] at h
    cases h
    refine ⟨rfl, fun s hs => ?_⟩
    obtain ⟨q', rfl, rfl⟩ := Option.map_eq_some_iff.mp hs
    exact ⟨rfl, rfl, rfl, rfl⟩

theorem search_cases {i : Nat} {checkPunct : Bool} (hready : m.Ready) (hi : i < text.length) :
    (m.search t text i [] checkPunct = none ∧ SearchOverruns t text m i checkPunct) ∨
      (¬ SearchOverruns t text m i checkPunct ∧
        ∃ r, m.search t text i [] checkPunct = some r ∧ r.From text i) := by
  obtain ⟨hge, hle, hlt, hlast⟩ := word_le hi checkPunct
  rw [search, if_neg (Nat.ne_of_lt hi), SearchOverruns]
  simp only [Meets]
  generalize word text i checkPunct = w at *
  obtain ⟨first, last⟩ := w
  dsimp only at hge hle hlt hlast ⊢
  by_cases hsearched : isSearched text first last = true
  swap
  · rw [if_neg hsearched]
    refine .inr ⟨fun ⟨_, hmeets, _⟩ => hsearched hmeets.1, _, rfl, .of_nil hready hlt hlast⟩
  have hne : first ≠ last := by
    rw [isSearched, Bool.and_eq_true, Bool.and_eq_true] at hsearched
    exact of_decide_eq_true hsearched.1.2
  have hword : first < last := Nat.lt_of_le_of_ne hle hne
  rw [if_pos hsearched]
  have hreset : m.reset.Ready := hready
  cases henter : m.enter t text first last [] with
  | mk matcher p =>
    obtain ⟨hmatcher, hstart⟩ := enter_found henter
    cases p with
    | none =>
      obtain ⟨r, hr, hfrom⟩ := @searchRelaxed_from t text first last matcher
        (searchScheme_ready hreset hmatcher) hword hlast
      refine .inr ⟨?_, r, hr, hfrom.mono hge⟩
      rintro ⟨s, ⟨-, s₀, hs₀, -⟩, -⟩
      cases hs₀
    | some s₀ =>
      obtain ⟨hsearch, hmatcher, hresult, huend⟩ := hstart s₀ rfl
      obtain ⟨hready', hle', hat⟩ := searchScheme_found hreset hlast hsearch
      have hsound : s₀.Sound text first last :=
        ⟨hmatcher ▸ hready', hle', hat, hresult, huend ▸ hword, Nat.le_of_eq huend⟩
      rcases @searchSchemes_cases t text first last s₀ (last + 1) hsound hlast (by omega) with
        ⟨hnone, s, hs, hover⟩ | ⟨hall, r, hr, hfrom⟩
      · exact .inl ⟨hnone, s, ⟨hsearched, s₀, rfl, hs⟩, hover⟩
      · refine .inr ⟨?_, r, hr, hfrom.mono hge⟩
        rintro ⟨s, ⟨-, s₁, hs₁, hs⟩, hover⟩
        obtain rfl := Option.some.inj hs₁
        exact hall s hs hover

end UriMatcher

end Icq.Common
