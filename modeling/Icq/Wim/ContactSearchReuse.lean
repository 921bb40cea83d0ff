import Icq.Lib.Run
import Icq.Wim.ContactsKept

/-! When a search among the results of the last one shows what a first search would show. -/

namespace Icq.Wim
open Icq.Lib

variable {l : Letters} {s before : ContactList} {pattern : Bytes} {b : ClBuddy}

/-- The highlights of what a pattern gets from a text depend on whether it stands there. -/
theorem check_highlights (pattern word : Bytes) :
    (check pattern word).map Addition.highlights = if pattern <:+: word then [[pattern]] else [] := by
  have h := @findText_isSome _ _ word pattern
  unfold check
  cases hf : findText word pattern with
  | none =>
    rw [hf] at h
    rw [if_neg fun hp => Bool.false_ne_true (h.mpr hp)]
    rfl
  | some pos =>
    rw [hf] at h
    rw [if_pos (h.mp rfl)]
    rfl

theorem check_eq_nil {pattern word : Bytes} : check pattern word = [] ↔ ¬ pattern <:+: word := by
  rw [← List.map_eq_nil_iff (f := Addition.highlights), check_highlights]
  split <;> simp_all

/-- Another number for SMS changes nothing if the pattern is in both or in none. -/
theorem checks_number {c : SearchCache} {number : Bytes} {isChat : Bool}
    (h : isChat = true ∨ (pattern <:+: c.smsNumber ↔ pattern <:+: number)) :
    (checks l pattern { c with smsNumber := number } isChat).map Addition.highlights =
      (checks l pattern c isChat).map Addition.highlights := by
  cases isChat with
  | true => rfl
  | false =>
    have hp := h.resolve_left Bool.false_ne_true
    have hnumber : (check pattern number).map Addition.highlights =
        (check pattern c.smsNumber).map Addition.highlights := by
      simp only [check_highlights, hp]
    simp only [checks, Bool.false_eq_true, if_false, List.map_append, hnumber]

theorem any_shown (n : Nat) (additions : List Addition) : additions.any (Addition.shown n) =
    (additions.map Addition.highlights).any fun h => (Addition.mk h 0).shown n := by
  rw [List.any_map]
  rfl

namespace ContactList

/-- The list as if it had not been searched yet. -/
def fresh (s : ContactList) : ContactList :=
  { s with
    presences := fun object => { s.presences object with searchCache := {} }
    needUpdateSearchCache := false
    searchCache := ∅
    lastSearchPattern := [] }

/-- The search shows the contacts that it would show on a list that was not searched yet. -/
def ShowsFresh (l : Letters) (s : ContactList) (pattern : Bytes) : Prop :=
  ∀ x, x ∈ (s.search l pattern).2.map SearchResult.aimid ↔
    x ∈ (s.fresh.search l pattern).2.map SearchResult.aimid

/-- The contact matches the pattern, by what its presence says now. -/
def Matches (l : Letters) (s : ContactList) (pattern : Bytes) (b : ClBuddy) : Prop :=
  s.fresh.additions l pattern b ≠ []

/-- The number that is remembered of a contact has the pattern just when the number it has now
does. -/
def NumberFits (l : Letters) (s : ContactList) (pattern : Bytes) (b : ClBuddy) : Prop :=
  (s.presences b.object).isChat = true ∨
    (pattern <:+: (s.known l b).searchCache.smsNumber ↔
      pattern <:+: (s.presences b.object).smsNumber)

/-- Who matches the pattern is a contact just when it was one at the last search, and matched the
last pattern then. -/
def Refines (l : Letters) (before s : ContactList) (pattern : Bytes) : Prop :=
  ∀ b, s.Matches l pattern b →
    (b ∈ s.allContacts.items ↔
      b ∈ before.allContacts.items ∧ before.Matches l s.lastSearchPattern b)

/-- A search that no remembered number misleads, and that looks through the last results only if
the pattern refines the last one. -/
def CarefulSearch (l : Letters) (before s : ContactList) (pattern : Bytes) : Prop :=
  pattern ≠ [] → (∀ b ∈ (s.candidates pattern).items, s.NumberFits l pattern b) ∧
    (s.needNewCache pattern = false → before.Refines l s pattern)

/-- The results of the last search are the contacts that matched its pattern. -/
def Recalls (l : Letters) (before s : ContactList) : Prop :=
  s.lastSearchPattern ≠ [] → ∀ b, b ∈ s.searchCache.items ↔
    b ∈ before.allContacts.items ∧ before.Matches l s.lastSearchPattern b

theorem known_fresh : (s.fresh.known l b).searchCache =
    searchCacheOf l b.aimid (s.presences b.object) := rfl

theorem known_searchCache (h : Remembers l b.aimid (s.presences b.object)) :
    (s.known l b).searchCache = { searchCacheOf l b.aimid (s.presences b.object) with
      smsNumber := (s.known l b).searchCache.smsNumber } := by
  unfold known prepareSearchCache
  split
  · rfl
  · rename_i hne
    exact h.resolve_left hne

theorem known_isChat : (s.known l b).isChat = (s.presences b.object).isChat := by
  unfold known prepareSearchCache
  split <;> rfl

/-- A contact matches as on the fresh list, if its number does not mislead. -/
theorem additions_fresh (h : Remembers l b.aimid (s.presences b.object))
    (hnumber : s.NumberFits l pattern b) :
    (s.additions l pattern b).map Addition.highlights =
      (s.fresh.additions l pattern b).map Addition.highlights := by
  have hskip : s.fresh.skipped b = s.skipped b := rfl
  have hchat : (s.fresh.known l b).isChat = (s.presences b.object).isChat := rfl
  unfold additions
  rw [hskip, hchat, known_fresh, known_isChat]
  split
  · rfl
  · rw [known_searchCache h]
    exact checks_number (hnumber.imp id Iff.symm)

theorem additions_ne_nil (h : Remembers l b.aimid (s.presences b.object))
    (hnumber : s.NumberFits l pattern b) :
    s.additions l pattern b ≠ [] ↔ s.Matches l pattern b := by
  have hnil := congrArg List.isEmpty (additions_fresh h hnumber)
  rw [List.isEmpty_map, List.isEmpty_map] at hnil
  rw [Matches, ne_eq, ne_eq, ← List.isEmpty_iff, ← List.isEmpty_iff, hnil]

theorem fresh_candidates (pattern : Bytes) : s.fresh.candidates pattern = s.allContacts := by
  simp [candidates, needNewCache, fresh, allContacts]

/-- A careful search looks at every contact that matches, and at no other buddy that does. -/
theorem mem_candidates (hrecalls : before.Recalls l s) (hp : pattern ≠ [])
    (hcareful : before.CarefulSearch l s pattern) (hm : s.Matches l pattern b) :
    b ∈ (s.candidates pattern).items ↔ b ∈ s.allContacts.items := by
  unfold candidates
  cases hnew : s.needNewCache pattern with
  | true => rfl
  | false =>
    have hlast : s.lastSearchPattern ≠ [] := by
      intro hempty
      simp [needNewCache, hempty] at hnew
    simp only [Bool.false_eq_true, if_false]
    rw [hrecalls hlast b]
    exact ((hcareful hp).2 hnew b hm).symm

theorem Kept.oneEach (h : s.Kept l) (pattern : Bytes) : OneEach (s.candidates pattern).items :=
  fun b hb b' hb' => h.apart b b' (holds_of_candidate hb) (holds_of_candidate hb')

theorem Kept.oneEach_fresh (h : s.Kept l) (pattern : Bytes) :
    OneEach (s.fresh.candidates pattern).items := by
  intro b hb b' hb'
  have hholds {b : ClBuddy} (hb : b ∈ (s.fresh.candidates pattern).items) : s.Holds b := by
    rcases holds_of_candidate hb with hb | hb | hb
    · exact .inl hb
    · exact .inr (.inl hb)
    · exact nomatch hb
  exact h.apart b b' (hholds hb) (hholds hb')

theorem remembers_known (h : Remembers l b.aimid (s.presences b.object)) :
    Remembers l b.aimid (s.known l b) := by
  unfold known prepareSearchCache
  split
  · exact .inr rfl
  · exact h

/-- A search leaves the contacts as they should be. -/
theorem search_kept (h : s.Kept l) (pattern : Bytes) : (s.search l pattern).1.Kept l := by
  by_cases hp : pattern = []
  · subst hp
    exact h
  · obtain ⟨presences, hs, hpresences, -⟩ := search_spec (l := l) hp (h.oneEach pattern)
    rw [hs]
    refine h.changed (fun b hb => ?_) rfl fun b hb => ?_
    · rcases hb with hb | hb | hb
      · exact .inl hb
      · exact .inr (.inl hb)
      · exact holds_of_candidate (List.mem_filter.mp hb).1
    · rcases hpresences b.object with ho | ⟨c, hc, ho, hk⟩
      · simp only [ho]
        exact h.remembers b hb
      · have hcb := h.apart c b (holds_of_candidate hc) hb ho
        simp only [hk, ← hcb]
        exact remembers_known (h.remembers c (holds_of_candidate hc))

/-- A careful search leaves the contacts that match now as its results. -/
theorem search_recalls (h : s.Kept l) (hrecalls : before.Recalls l s) (hp : pattern ≠ [])
    (hcareful : before.CarefulSearch l s pattern) : s.Recalls l (s.search l pattern).1 := by
  obtain ⟨presences, hs, -, -⟩ := search_spec (l := l) hp (h.oneEach pattern)
  intro _ b
  rw [hs]
  dsimp only
  have hbool : (!(s.additions l pattern b).isEmpty) = true ↔ s.additions l pattern b ≠ [] := by simp
  rw [KeyMap.items_filter, List.mem_filter, hbool]
  constructor
  · rintro ⟨hb, ha⟩
    have hm := (additions_ne_nil (h.remembers b (holds_of_candidate hb))
      ((hcareful hp).1 b hb)).mp ha
    exact ⟨(mem_candidates hrecalls hp hcareful hm).mp hb, hm⟩
  · rintro ⟨hb, hm⟩
    have hc := (mem_candidates hrecalls hp hcareful hm).mpr hb
    exact ⟨hc, (additions_ne_nil (h.remembers b (holds_of_candidate hc))
      ((hcareful hp).1 b hc)).mpr hm⟩

/-- A careful search shows what it would show on the fresh list. -/
theorem search_showsFresh (h : s.Kept l) (hrecalls : before.Recalls l s)
    (hcareful : before.CarefulSearch l s pattern) : s.ShowsFresh l pattern := by
  intro x
  by_cases hp : pattern = []
  · subst hp
    rfl
  · obtain ⟨-, -, -, hshows⟩ := search_spec (l := l) hp (h.oneEach pattern)
    obtain ⟨-, -, -, hfresh⟩ := search_spec (l := l) hp (h.oneEach_fresh pattern)
    rw [hshows, hfresh, fresh_candidates]
    have hshown {b : ClBuddy} (hb : b ∈ (s.candidates pattern).items) :
        (s.additions l pattern b).any (Addition.shown (getWords pattern).length) =
          (s.fresh.additions l pattern b).any (Addition.shown (getWords pattern).length) := by
      rw [any_shown, any_shown, additions_fresh (h.remembers b (holds_of_candidate hb))
        ((hcareful hp).1 b hb)]
    have hmatches {b : ClBuddy} (ha : (s.fresh.additions l pattern b).any
        (Addition.shown (getWords pattern).length) = true) : s.Matches l pattern b := by
      intro hnil
      simp [hnil] at ha
    constructor
    · rintro ⟨b, hb, hx, ha⟩
      rw [hshown hb] at ha
      exact ⟨b, (mem_candidates hrecalls hp hcareful (hmatches ha)).mp hb, hx, ha⟩
    · rintro ⟨b, hb, hx, ha⟩
      have hc := (mem_candidates hrecalls hp hcareful (hmatches ha)).mpr hb
      exact ⟨b, hc, hx, (hshown hc).trans ha⟩

end ContactList

/-- The last pattern is one word, or each of its words begins the new pattern's word in its place. -/
def ExtendsWords (last pattern : Bytes) : Prop :=
  getWords last = [last] ∨ List.Forall₂ (· <+: ·) (getWords last) (getWords pattern)

theorem startWords_of_forall {patterns shorter words : List Bytes}
    (h : List.Forall₂ (· <+: ·) shorter patterns) (hs : startWords patterns words = true) :
    startWords shorter words = true := by
  induction h generalizing words with
  | nil => cases hs
  | cons hp _ ih =>
    cases words with
    | nil => cases hs
    | cons w words =>
      simp only [startWords, findText_zero, Bool.and_eq_true, Bool.or_eq_true,
        decide_eq_true_eq] at hs ⊢
      exact ⟨hp.trans hs.1, hs.2.imp id ih⟩

/-- Words of one letter can only be begun by themselves. -/
theorem eq_of_letters {patterns shorter : List Bytes} (h : List.Forall₂ (· <+: ·) shorter patterns)
    (hne : ∀ w ∈ shorter, w ≠ []) (hone : ∀ w ∈ patterns, w.length = 1) : shorter = patterns := by
  induction h with
  | nil => rfl
  | cons hp _ ih =>
    obtain ⟨hw, hne⟩ := List.forall_mem_cons.mp hne
    obtain ⟨hl, hone⟩ := List.forall_mem_cons.mp hone
    have hpos := List.length_pos_of_ne_nil hw
    rw [ih hne hone, hp.eq_of_length (by have := hp.length_le; omega)]

section

variable {last text : Bytes}

/-- Words that the last pattern found nothing in have nothing for one that extends it. -/
theorem checkWords_nil (hin : last <:+: pattern) (hlast : last ≠ [])
    (hlen : (getWords last).length = (getWords pattern).length) (hext : ExtendsWords last pattern)
    (htext : ¬ last <:+: text) (h : checkWords l (getWords last) (getWords text) = []) :
    checkWords l (getWords pattern) (getWords text) = [] := by
  unfold checkWords at h ⊢
  rw [hlen] at h
  split
  · rename_i hsame
    rw [if_pos hsame, List.append_eq_nil_iff] at h
    obtain ⟨hmulti, hfirst⟩ := h
    have hmulti : ¬ startWords (getWords last) (getWords text) = true := by
      intro hs
      simp [checkMulti, hs] at hmulti
    rw [List.append_eq_nil_iff]
    rcases hext with hone | hall
    · -- a single word: its text lies in the one word of the pattern
      rw [hone] at hlen
      obtain ⟨p, hp⟩ := List.length_eq_one_iff.mp hlen.symm
      obtain ⟨w, hw⟩ := List.length_eq_one_iff.mp (hsame.trans hlen.symm)
      have hone' : last ∈ words isSpace last := by
        rw [← getWords, hone]
        exact List.mem_singleton_self _
      have hspace := word_no_space hone'
      obtain ⟨p', hp', hinp⟩ := infix_word hlast hin hspace
      rw [← getWords, hp, List.mem_singleton] at hp'
      have hwt : w <:+: text := word_infix (by rw [← getWords, hw]; exact List.mem_singleton_self _)
      rw [hp, hw]
      refine ⟨if_neg fun hs => htext ?_, if_neg fun hs => absurd hs.1 (by simp)⟩
      have hpw : p <+: w := by simpa [startWords, findText_zero] using hs
      exact ((hp' ▸ hinp).trans hpw.isInfix).trans hwt
    · refine ⟨if_neg fun hs => hmulti (startWords_of_forall hall hs), ?_⟩
      split
      · rename_i hfew
        have heq := eq_of_letters hall (fun w hw => word_ne_nil hw) fun w hw => by
          simpa using List.all_eq_true.mp hfew.2 w hw
        rw [heq, if_pos hfew] at hfirst
        exact hfirst
      · rfl
  · rfl

/-- What the last pattern did not match one that extends it does not. -/
theorem checks_nil {c : SearchCache} {isChat : Bool} (hfriendly : c.friendlyWords = getWords c.friendly)
    (hab : c.abWords = getWords c.ab) (hin : last <:+: pattern) (hlast : last ≠ [])
    (hat : pattern.head? ≠ some 0x40)
    (hlen : (getWords last).length = (getWords pattern).length) (hext : ExtendsWords last pattern)
    (h : checks l last c isChat = []) : checks l pattern c isChat = [] := by
  have hcropped : withAtCropped pattern = [] := if_neg fun hc => hat hc.2
  have hcheck {word : Bytes} (hw : check last word = []) : check pattern word = [] :=
    check_eq_nil.mpr fun hp => check_eq_nil.mp hw (hin.trans hp)
  simp only [checks, List.append_eq_nil_iff] at h
  obtain ⟨⟨⟨⟨⟨h1, h2⟩, h3⟩, h4⟩, h5⟩, h6⟩ := h
  simp only [checks, hcropped, List.append_eq_nil_iff]
  refine ⟨⟨⟨⟨⟨hcheck h1, ?_⟩, hcheck h3⟩, ?_⟩, ?_⟩, ?_⟩
  · split at h2
    · rename_i hnick
      rw [if_pos hnick]
    · rename_i hnick
      rw [if_neg hnick]
      simpa using hcheck (List.append_eq_nil_iff.mp h2).1
  · cases isChat with
    | true => rfl
    | false =>
      simp only [Bool.false_eq_true, if_false, List.append_eq_nil_iff] at h4
      simpa using ⟨hcheck h4.1.1, hcheck h4.2⟩
  · rw [hfriendly] at h5 ⊢
    exact checkWords_nil hin hlast hlen hext (check_eq_nil.mp h1) h5
  · rw [hab] at h6 ⊢
    exact checkWords_nil hin hlast hlen hext (check_eq_nil.mp h3) h6

end

namespace ContactList

/-- What is searched of the contacts is as it was. -/
structure Unchanged (l : Letters) (before s : ContactList) : Prop where
  contacts : s.allContacts = before.allContacts
  skipped : ∀ b ∈ s.allContacts.items, s.skipped b = before.skipped b
  isChat : ∀ b ∈ s.allContacts.items,
    (s.presences b.object).isChat = (before.presences b.object).isChat
  texts : ∀ b ∈ s.allContacts.items, searchCacheOf l b.aimid (s.presences b.object) =
    searchCacheOf l b.aimid (before.presences b.object)

/-- On unchanged contacts a pattern that extends the words of the last one refines it. -/
theorem refines_of_unchanged (h : Unchanged l before s) (hnew : s.needNewCache pattern = false)
    (hext : ExtendsWords s.lastSearchPattern pattern) : before.Refines l s pattern := by
  simp only [needNewCache, Bool.or_eq_false_iff, decide_eq_false_iff_not, Option.isNone_eq_false_iff,
    findText_isSome, not_not, ne_eq] at hnew
  obtain ⟨⟨⟨⟨⟨-, hlast⟩, -⟩, hat⟩, hin⟩, hlen⟩ := hnew
  have hlast : s.lastSearchPattern ≠ [] := by simpa using hlast
  intro b hm
  rw [← h.contacts]
  refine ⟨fun hb => ⟨hb, fun hnil => hm ?_⟩, And.left⟩
  have hskip : s.fresh.skipped b = before.fresh.skipped b := h.skipped b hb
  have hchat : (s.fresh.known l b).isChat = (before.fresh.known l b).isChat := h.isChat b hb
  unfold additions at hnil ⊢
  rw [hskip]
  split
  · rfl
  · rename_i hseen
    rw [if_neg hseen, known_fresh, ← hchat, ← h.texts b hb] at hnil
    exact checks_nil rfl rfl hin hlast hat hlen hext hnil

end ContactList

/-- What happens to a contact list. -/
inductive ListEvent where
  | merge (type : DiffType) (nodes : List GroupNode)
  | presence (aimid : Bytes) (presence : ClPresence)
  | trusted (aimid friendly nick : Bytes) (isTrusted : Bool)
  | search (pattern : Bytes)

namespace ContactList

def handle (l : Letters) (s : ContactList) : ListEvent → ContactList
  | .merge type nodes => (s.mergeFromDiff type (unserializeFromDiff nodes)).1
  | .presence aimid presence => s.updatePresence aimid presence
  | .trusted aimid friendly nick isTrusted => s.updateTrusted aimid friendly nick isTrusted
  | .search pattern => (s.search l pattern).1

/-- The list, and the list as the last search with a pattern found it. -/
def watch (l : Letters) (w : ContactList × ContactList) (event : ListEvent) :
    Option (ContactList × ContactList) :=
  some (w.1.handle l event, match event with
    | .search pattern => if pattern.isEmpty then w.2 else w.1
    | _ => w.2)

def CarefulEvent (l : Letters) (w : ContactList × ContactList) (event : ListEvent) : Prop :=
  ∀ pattern, event = .search pattern → w.2.CarefulSearch l w.1 pattern

theorem Onward.recalls {t : ContactList} (h : s.Onward l t) (hrecalls : before.Recalls l s) :
    before.Recalls l t := by
  unfold Recalls
  rw [h.searchCache, h.lastSearchPattern]
  exact hrecalls

theorem watch_keeps {w w' : ContactList × ContactList} {event : ListEvent}
    (h : w.1.Kept l ∧ w.2.Recalls l w.1) (hcareful : CarefulEvent l w event)
    (hstep : watch l w event = some w') : w'.1.Kept l ∧ w'.2.Recalls l w'.1 := by
  obtain ⟨hkept, hrecalls⟩ := h
  cases hstep
  have honward {t : ContactList} (ht : w.1.Onward l t) : t.Kept l ∧ w.2.Recalls l t :=
    ⟨ht.kept, ht.recalls hrecalls⟩
  cases event with
  | merge type nodes => exact honward (mergeFromDiff_onward hkept type nodes)
  | presence aimid presence => exact honward (updatePresence_onward hkept aimid presence)
  | trusted aimid friendly nick isTrusted =>
    exact honward (updateTrusted_onward hkept aimid friendly nick isTrusted)
  | search pattern =>
    by_cases hp : pattern = []
    · subst hp
      exact ⟨hkept, hrecalls⟩
    · refine ⟨search_kept hkept pattern, ?_⟩
      simp only [List.isEmpty_eq_false_iff.mpr hp]
      exact search_recalls hkept hrecalls hp (hcareful pattern rfl)

/-- While the searches are careful, each shows what it would show on the fresh list. -/
theorem run_showsFresh {nodes : List GroupNode} {ignorelist : List Bytes}
    {w : ContactList × ContactList}
    (h : Run (watch l) (CarefulEvent l)
      (unserialize nodes ignorelist, unserialize nodes ignorelist) w) (pattern : Bytes)
    (hcareful : w.2.CarefulSearch l w.1 pattern) : w.1.ShowsFresh l pattern := by
  obtain ⟨hkept, hlast⟩ := unserialize_kept (l := l) nodes ignorelist
  have hw := h.invariant (P := fun w => w.1.Kept l ∧ w.2.Recalls l w.1)
    ⟨hkept, fun hne => absurd hlast hne⟩ watch_keeps
  exact search_showsFresh hw.1 hw.2 hcareful

/-- Letters that have no case and are one byte each. -/
def plainLetters : Letters := ⟨id, fun text => text.map UInt8.toUInt32⟩

/-- One contact, with a name. -/
def oneContact (friendly : Bytes) : List GroupNode :=
  [{ id := some 1, buddies := [⟨some [0x31], { friendly }⟩] }]

/-- A name is typed letter by letter. -/
theorem run_showsFresh_typed :
    let start := unserialize (oneContact [0x41, 0x42]) []
    (start.search plainLetters [0x41]).1.ShowsFresh plainLetters [0x41, 0x42] := by
  intro start
  have hfirst : start.CarefulSearch plainLetters start [0x41] := fun _ =>
    ⟨fun b hb => .inr (by rw [List.mem_singleton.mp hb]; rfl), fun hnew => nomatch hnew⟩
  refine @run_showsFresh plainLetters (oneContact [0x41, 0x42]) [] _
    (.step (.search [0x41]) .start (fun _ he => by cases he; exact hfirst) rfl) _ fun _ =>
      ⟨fun b hb => .inr (by rw [List.mem_singleton.mp hb]; rfl), fun hnew => ?_⟩
  refine refines_of_unchanged ⟨rfl, fun b hb => ?_, fun b hb => ?_, fun b hb => ?_⟩ hnew
    (.inl (by decide))
  · rw [List.mem_singleton.mp hb]
    rfl
  · rw [List.mem_singleton.mp hb]
    rfl
  · rw [List.mem_singleton.mp hb]
    rfl

/-- A contact that takes the name searched for is not found while the last results are reused. -/
theorem renamed_contact_not_found :
    ¬ ∀ (nodes : List GroupNode) (w : ContactList × ContactList),
      Run (watch plainLetters) (fun _ _ => True) (unserialize nodes [], unserialize nodes []) w →
        ∀ pattern, pattern ≠ [] → w.1.ShowsFresh plainLetters pattern := by
  intro h
  have hrun := h (oneContact [0x41]) _ (.step (.presence [0x31] { friendly := [0x42, 0x43] })
    (.step (.search [0x42]) .start trivial rfl) trivial rfl) [0x42, 0x43] (by decide)
  exact absurd ((hrun [0x31]).mpr (by decide)) (by decide)

end ContactList

end Icq.Wim
