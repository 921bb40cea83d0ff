import Icq.Wim.LogArrays

/-! The log hides an array exactly when its strings keep the scan in step. -/

namespace Icq.Wim
open Icq.Lib

/-- Every quote stands behind a backslash. -/
def Guarded : Bool → Bytes → Prop
  | _, [] => True
  | behind, c :: content => (c = quote → behind = true) ∧ Guarded (decide (c = backslash)) content

/-- Whether the last character, if there is one, is a backslash. -/
def endsEscaping : Bool → Bytes → Bool
  | behind, [] => behind
  | _, c :: content => endsEscaping (decide (c = backslash)) content

section

variable {behind : Bool} {content : Bytes} {c : UInt8}

theorem Guarded.weaken (h : Guarded false content) : Guarded behind content := by
  cases content with
  | nil => trivial
  | cons c content => exact ⟨fun hq => absurd (h.1 hq) (by decide), h.2⟩

theorem Guarded.of_head (h : Guarded behind content) (hq : content.head? ≠ some quote) :
    Guarded false content := by
  cases content with
  | nil => trivial
  | cons c content => exact ⟨fun hc => absurd (congrArg some hc) hq, h.2⟩

theorem guarded_of_json (h : isJsonContent content = true) : Guarded false content := by
  induction content using isJsonContent.induct with
  | case1 => trivial
  | case2 => simp [isJsonContent] at h
  | case3 d content ih =>
    have ih := ih (by simpa [isJsonContent] using h)
    exact ⟨fun hq => absurd hq (by decide), fun _ => rfl, ih.weaken⟩
  | case4 c content hc ih =>
    have h : c ≠ quote ∧ isJsonContent content = true := by
      cases content <;> simpa [isJsonContent, hc] using h
    refine ⟨fun hq => absurd hq h.1, ?_⟩
    rw [decide_eq_false hc]
    exact ih h.2

theorem endsEscaping_cons (c : UInt8) (content : Bytes) :
    endsEscaping behind (c :: content) = decide ((c :: content).getLast? = some backslash) := by
  induction content generalizing behind c with
  | nil => simp [endsEscaping]
  | cons d content ih =>
    rw [endsEscaping, ih, List.getLast?_cons_cons]

/-- A string of more than one character ends as it ends behind its first one. -/
theorem endsEscaping_tail (h : isJsonContent (c :: content) = true) :
    endsEscaping false content = decide ((c :: content).getLast? = some backslash) := by
  cases content with
  | nil =>
    have hc : c ≠ backslash := by
      rintro rfl
      simp [isJsonContent] at h
    simp [endsEscaping, hc]
  | cons d content => rw [endsEscaping_cons, List.getLast?_cons_cons]

end

section

variable {content rest t : Bytes} {c d : UInt8}

/-- In step the characters of a string are masked, and a backslash at its end hides its closing
quote from the scan. -/
theorem arrayText_content {behind : Bool} (h : Guarded behind content) (rest : Bytes) :
    arrayText true (behind && decide ((content ++ quote :: rest).head? = some quote))
        (content ++ quote :: rest) =
      if endsEscaping behind content then
        (arrayText true false rest).map ((content.map maskChar ++ [maskChar quote]) ++ ·)
      else (arrayText true false (quote :: rest)).map (content.map maskChar ++ ·) := by
  induction content generalizing behind with
  | nil =>
    cases behind with
    | true =>
      rw [endsEscaping, if_pos rfl, List.nil_append, List.head?_cons, decide_eq_true rfl,
        Bool.and_self, arrayText_cons, if_neg (by decide), if_pos rfl, if_pos rfl, markText_in]
      rfl
    | false =>
      rw [endsEscaping, if_neg (by decide)]
      simp
  | cons c content ih =>
    have ih := ih h.2
    have hmap (x : Option Bytes) (u : Bytes) :
        (x.map (u ++ ·)).map (maskChar c :: ·) = x.map ((maskChar c :: u) ++ ·) := by
      cases x <;> rfl
    have hnext : arrayText true (behind && decide (((c :: content) ++ quote :: rest).head? = some quote))
          ((c :: content) ++ quote :: rest) =
        (arrayText true (decide (c = backslash) && decide ((content ++ quote :: rest).head? = some quote))
          (content ++ quote :: rest)).map (maskChar c :: ·) := by
      by_cases hq : c = quote
      · subst hq
        rw [h.1 rfl, List.cons_append, List.head?_cons, decide_eq_true rfl, Bool.and_self,
          arrayText_cons, if_neg (by decide), if_pos rfl, if_pos rfl, markText_in]
        rfl
      · have hne : decide (((c :: content) ++ quote :: rest).head? = some quote) = false := by
          simpa using hq
        rw [hne, Bool.and_false]
        by_cases hb : c = backslash
        · subst hb
          obtain ⟨d, u, hu⟩ : ∃ d u, content ++ quote :: rest = d :: u :=
            List.exists_cons_of_ne_nil (by simp)
          rw [List.cons_append, hu, arrayText_cons, if_pos rfl]
          simp [markText_in]
        · rw [List.cons_append, arrayText_plain hq hb, markText_in, decide_eq_false hb, Bool.false_and]
    rw [hnext, ih, endsEscaping]
    split <;> rw [hmap] <;> rfl

/-- A string that is gone through in step. -/
theorem arrayText_string (rest : Bytes) (hj : isJsonContent content = true) (hstart : ¬ [backslash, quote] <+: content)
    (hq : d ≠ quote) (hb : d ≠ backslash) :
    ∃ last, arrayText false false (quote :: (content ++ quote :: d :: rest)) =
      (arrayText (decide (content = [] ∨ content.getLast? = some backslash)) false (d :: rest)).map
        ((quote :: (content.map maskChar ++ [last])) ++ ·) := by
  have hmap (x : Option Bytes) (c : UInt8) (u : Bytes) :
      ((x.map (u ++ ·)).map (c :: ·)).map (quote :: ·) = x.map ((quote :: c :: u) ++ ·) := by
    cases x <;> rfl
  cases content with
  | nil =>
    refine ⟨maskChar quote, ?_⟩
    rw [List.nil_append, arrayText_cons, if_neg (by decide), if_pos rfl]
    simp only [Bool.false_eq_true, if_false, Bool.not_false, markText_in, Option.map_map]
    rfl
  | cons c content =>
    have hg : Guarded false content := by
      have h := guarded_of_json hj
      by_cases hc : c = backslash
      · refine Guarded.of_head h.2 fun hhead => hstart ?_
        obtain ⟨u, rfl⟩ := List.head?_eq_some_iff.mp hhead
        exact hc ▸ ⟨u, rfl⟩
      · have := h.2
        rwa [decide_eq_false hc] at this
    have hfirst : arrayText false false (quote :: ((c :: content) ++ quote :: d :: rest)) =
        ((arrayText true false (content ++ quote :: d :: rest)).map (maskChar c :: ·)).map (quote :: ·) := by
      rw [List.cons_append, arrayText_cons, if_neg (by decide), if_pos rfl]
      simp only [Bool.false_eq_true, if_false, Bool.not_false, markText_in]
    have hcontent := arrayText_content hg (d :: rest)
    rw [Bool.false_and, endsEscaping_tail hj] at hcontent
    rw [hfirst, hcontent]
    by_cases hend : (c :: content).getLast? = some backslash
    · refine ⟨maskChar quote, ?_⟩
      simp only [hend, decide_true, if_true, or_true, hmap]
      rfl
    · refine ⟨quote, ?_⟩
      simp only [hend, decide_false, Bool.false_eq_true, if_false, or_false, reduceCtorEq,
        arrayText_quote hq hb, Bool.not_true, Option.map_map]
      congr 1
      funext u
      simp

/-- Out of step only spaces stay hidden. -/
theorem arrayText_spaces {spaces : Bytes} (h : ∀ c ∈ spaces, maskChar c = c) :
    arrayText false false (spaces ++ rest) = (arrayText false false rest).map (spaces ++ ·) := by
  induction spaces with
  | nil => simp
  | cons c spaces ih =>
    obtain ⟨hc, h⟩ := List.forall_mem_cons.mp h
    have hplain : c ≠ quote ∧ c ≠ backslash ∧ c ≠ bracketOpen ∧ c ≠ bracketClose := by
      refine ⟨?_, ?_, ?_, ?_⟩ <;>
        (rintro rfl; exact absurd hc (by decide))
    rw [List.cons_append, arrayText_plain hplain.1 hplain.2.1, markText_out hplain.2.2.1 hplain.2.2.2,
      ih h, Option.map_map]
    rfl

theorem arrayText_leak {marks : List (UInt8 × Bool)} (hg : Guarded false content)
    (h : ∃ c ∈ content, maskChar c ≠ c) (ht : arrayText false false (content ++ rest) = some t) :
    ¬ Hides (content.map (·, true) ++ marks) t := by
  induction content generalizing t with
  | nil =>
    obtain ⟨c, hc, -⟩ := h
    cases hc
  | cons c content ih =>
    intro hh
    by_cases hc : maskChar c = c
    · have hplain : c ≠ quote ∧ c ≠ backslash ∧ c ≠ bracketOpen ∧ c ≠ bracketClose := by
        refine ⟨?_, ?_, ?_, ?_⟩ <;>
          (rintro rfl; exact absurd hc (by decide))
      rw [List.cons_append, arrayText_plain hplain.1 hplain.2.1,
        markText_out hplain.2.2.1 hplain.2.2.2] at ht
      obtain ⟨u, hu, rfl⟩ := Option.map_eq_some_iff.mp ht
      have hg' := hg.2
      rw [decide_eq_false hplain.2.1] at hg'
      refine ih hg' ?_ hu hh.2
      obtain ⟨x, hx, hne⟩ := h
      rcases List.mem_cons.mp hx with rfl | hx
      · exact absurd hc hne
      · exact ⟨x, hx, hne⟩
    · have hhead := arrayText_head ht
      cases t with
      | nil => cases hhead
      | cons x t =>
        cases hhead
        exact hc (hh.1 rfl).symm

/-- A string that is gone through out of step. -/
theorem arrayText_string_out (h : ∀ c ∈ content, maskChar c = c) (hq : d ≠ quote) (hb : d ≠ backslash) :
    arrayText true false (quote :: (content ++ quote :: d :: rest)) =
      (arrayText (decide (content ≠ [])) false (d :: rest)).map
        ((quote :: (content ++ [quote])) ++ ·) := by
  cases content with
  | nil =>
    rw [List.nil_append, arrayText_cons, if_neg (by decide), if_pos rfl]
    simp only [Bool.false_eq_true, if_false, Bool.not_true,
      markText_out (show quote ≠ bracketOpen by decide) (show quote ≠ bracketClose by decide),
      Option.map_map]
    rfl
  | cons c content =>
    have hc : c ≠ quote ∧ c ≠ backslash := by
      have := h c List.mem_cons_self
      refine ⟨?_, ?_⟩ <;>
        (rintro rfl; exact absurd this (by decide))
    rw [List.cons_append, arrayText_quote hc.1 hc.2, ← List.cons_append, Bool.not_true,
      arrayText_spaces h, arrayText_quote hq hb, Option.map_map, Option.map_map]
    congr 1
    funext u
    simp

theorem string_passes {out : Bool} (rest : Bytes) (hj : isJsonContent content = true) (hp : Passes out content)
    (hq : d ≠ quote) (hb : d ≠ backslash) :
    ∃ content' last, content'.length = content.length ∧ Hides (content.map (·, true)) content' ∧
      arrayText out false (quote :: (content ++ quote :: d :: rest)) =
        (arrayText (outAfter out content) false (d :: rest)).map
          ((quote :: (content' ++ [last])) ++ ·) := by
  cases out with
  | false =>
    obtain ⟨last, he⟩ := arrayText_string rest hj hp hq hb
    exact ⟨_, last, List.length_map _, hides_map _ _, he⟩
  | true =>
    refine ⟨content, quote, rfl, ?_, arrayText_string_out hp hq hb⟩
    have h := hides_map content true
    rwa [List.map_congr_left hp, List.map_id'] at h

theorem string_leaks {out : Bool} {marks : List (UInt8 × Bool)} (hj : isJsonContent content = true)
    (hp : ¬ Passes out content) (ht : arrayText out false (quote :: (content ++ quote :: rest)) = some t) :
    ¬ Hides ((quote, false) :: (content.map (·, true) ++ marks)) t := by
  cases out with
  | false =>
    obtain ⟨u, rfl⟩ := not_not.mp hp
    rw [List.append_assoc, List.cons_append, arrayText_cons, if_neg (by decide), if_pos rfl] at ht
    simp only [Bool.false_eq_true, if_false, Bool.not_false, markText_in, Option.map_map] at ht
    obtain ⟨v, hv, rfl⟩ := Option.map_eq_some_iff.mp ht
    have hhead := arrayText_quote_head hv
    intro hh
    cases v with
    | nil => cases hhead
    | cons x v =>
      cases hhead
      exact absurd (hh.2.2.1 rfl) (by decide)
  | true =>
    have hne : ∃ c ∈ content, maskChar c ≠ c := by simpa [Passes] using hp
    cases content with
    | nil =>
      obtain ⟨c, hc, -⟩ := hne
      cases hc
    | cons c content =>
      intro hh
      by_cases hc : maskChar c = c
      · have hplain : c ≠ quote ∧ c ≠ backslash := by
          refine ⟨?_, ?_⟩ <;>
            (rintro rfl; exact absurd hc (by decide))
        rw [List.cons_append, arrayText_quote hplain.1 hplain.2, ← List.cons_append] at ht
        obtain ⟨u, hu, rfl⟩ := Option.map_eq_some_iff.mp ht
        exact arrayText_leak (guarded_of_json hj) hne hu hh.2
      · rw [List.cons_append, arrayText_cons, if_neg (by decide), if_pos rfl,
          if_neg (by decide)] at ht
        obtain ⟨u, hu, rfl⟩ := Option.map_eq_some_iff.mp ht
        have hhead := markText_head hu
        cases u with
        | nil => cases hhead
        | cons x u =>
          cases hhead
          exact hc (hh.2.1 rfl).symm

end

section

variable {strings : List (Bytes × Bytes)} {lastGap post gap content : Bytes} {out : Bool}

@[simp] theorem map_fst_marks (t : Bytes) (secret : Bool) : (t.map (·, secret)).map Prod.fst = t := by
  simp [Function.comp_def]

/-- Behind a string comes neither a quote nor a backslash. -/
theorem arrayMarks_head (hlast : ∀ c ∈ lastGap, isGap c = true)
    (hgaps : ∀ s ∈ strings, ∀ c ∈ s.1, isGap c = true) (hne : ∀ s ∈ strings, s.1 ≠ []) (post : Bytes) :
    ∃ d u, (arrayMarks strings lastGap).map Prod.fst ++ post = d :: u ∧ d ≠ quote ∧ d ≠ backslash := by
  have hplain {c : UInt8} (h : isGap c = true) : c ≠ quote ∧ c ≠ backslash :=
    ⟨(isGap_plain h).1, (isGap_plain h).2.1⟩
  cases strings with
  | nil =>
    cases lastGap with
    | nil => exact ⟨bracketClose, post, rfl, by decide, by decide⟩
    | cons c lastGap => exact ⟨c, _, rfl, hplain (hlast c List.mem_cons_self)⟩
  | cons s strings =>
    obtain ⟨gap, content⟩ := s
    cases gap with
    | nil => exact absurd rfl (hne _ List.mem_cons_self)
    | cons c gap => exact ⟨c, _, rfl, hplain (hgaps _ List.mem_cons_self c List.mem_cons_self)⟩

theorem arrayMarks_cons (gap content : Bytes) (strings : List (Bytes × Bytes)) (lastGap : Bytes) :
    arrayMarks ((gap, content) :: strings) lastGap = gap.map (·, false) ++ (quote, false) ::
      (content.map (·, true) ++ (quote, false) :: arrayMarks strings lastGap) := by
  simp [arrayMarks, stringMarks]

theorem arrayMarks_text (gap content : Bytes) (strings : List (Bytes × Bytes)) (lastGap post : Bytes) :
    (arrayMarks ((gap, content) :: strings) lastGap).map Prod.fst ++ post =
      gap ++ quote :: (content ++ quote :: ((arrayMarks strings lastGap).map Prod.fst ++ post)) := by
  simp only [arrayMarks_cons, List.map_append, List.map_cons, map_fst_marks, List.append_assoc,
    List.cons_append]

/-- Whatever follows, the scan reaches the end of the array and has masked its strings. -/
def Masks (out : Bool) (strings : List (Bytes × Bytes)) (lastGap : Bytes) : Prop :=
  ∀ post, ∃ t, arrayText out false ((arrayMarks strings lastGap).map Prod.fst ++ post) = some t ∧
    Hides (arrayMarks strings lastGap) t

theorem masks_nil (hlast : ∀ c ∈ lastGap, isGap c = true) : Masks out [] lastGap ↔ out = false := by
  have he (post : Bytes) : arrayText out false ((arrayMarks [] lastGap).map Prod.fst ++ post) =
      (arrayText out false (bracketClose :: post)).map
        ((if out then lastGap.map maskChar else lastGap) ++ ·) := by
    rw [← arrayText_gap hlast, arrayMarks, List.flatMap_nil, List.nil_append, List.map_append,
      map_fst_marks, List.append_assoc]
    rfl
  cases out with
  | false =>
    refine iff_of_true (fun post => ⟨lastGap ++ bracketClose :: post, ?_, ?_⟩) rfl
    · rw [he, arrayText_plain (by decide) (by decide), markText_close]
      rfl
    · rw [arrayMarks, List.flatMap_nil, List.nil_append]
      exact (hides_append (by simp)).mpr ⟨hides_open rfl, fun h => absurd h (by decide), trivial⟩
  | true =>
    -- a quote at the end of the buffer is taken for the beginning of a string
    refine iff_of_false (fun h => ?_) (by decide)
    obtain ⟨t, ht, -⟩ := h [quote]
    rw [he, arrayText_plain (by decide) (by decide), markText_in] at ht
    cases ht

theorem masks_cons (hgap : ∀ c ∈ gap, isGap c = true) (hj : isJsonContent content = true)
    (hhead : ∀ post, ∃ d u, (arrayMarks strings lastGap).map Prod.fst ++ post = d :: u ∧
      d ≠ quote ∧ d ≠ backslash) :
    Masks out ((gap, content) :: strings) lastGap ↔
      Passes out content ∧ Masks (outAfter out content) strings lastGap := by
  have hlen : (if out then gap.map maskChar else gap).length = (gap.map (·, false)).length := by
    split <;> simp
  have hlen' : (if out then gap.map maskChar else gap).length = gap.length := by
    split <;> simp
  have hstart (post : Bytes) : arrayText out false
      ((arrayMarks ((gap, content) :: strings) lastGap).map Prod.fst ++ post) =
      (arrayText out false (quote :: (content ++ quote ::
        ((arrayMarks strings lastGap).map Prod.fst ++ post)))).map
          ((if out then gap.map maskChar else gap) ++ ·) := by
    rw [arrayMarks_text, arrayText_gap hgap]
  by_cases hp : Passes out content
  · rw [and_iff_right hp]
    refine forall_congr' fun post => ?_
    obtain ⟨d, u, hu, hq, hb⟩ := hhead post
    obtain ⟨content', last, hc, hhides, he⟩ := string_passes u hj hp hq hb
    rw [hstart, hu, he, arrayMarks_cons]
    have hiff (t : Bytes) : Hides (gap.map (·, false) ++ (quote, false) ::
        (content.map (·, true) ++ (quote, false) :: arrayMarks strings lastGap))
        ((if out then gap.map maskChar else gap) ++ (quote :: (content' ++ [last]) ++ t)) ↔
        Hides (arrayMarks strings lastGap) t := by
      rw [hides_append hlen, List.cons_append, List.append_assoc, Hides, hides_append (by simpa using hc)]
      simp [hides_open hlen', hhides, Hides]
    constructor
    · rintro ⟨_, he', hh⟩
      rw [Option.map_map] at he'
      obtain ⟨t, ht, rfl⟩ := Option.map_eq_some_iff.mp he'
      exact ⟨t, ht, (hiff t).mp hh⟩
    · rintro ⟨t, ht, hh⟩
      exact ⟨_, by rw [ht]; rfl, (hiff t).mpr hh⟩
  · refine iff_of_false (fun h => ?_) fun h => hp h.1
    obtain ⟨t, ht, hh⟩ := h []
    rw [hstart] at ht
    obtain ⟨u, hu, rfl⟩ := Option.map_eq_some_iff.mp ht
    rw [arrayMarks_cons, hides_append hlen] at hh
    exact string_leaks hj hp hu hh.2

/-- The scan masks an array from a place in front of it exactly when it stays in step. -/
theorem masks_iff (hgaps : ∀ s ∈ strings, ∀ c ∈ s.1, isGap c = true)
    (hlast : ∀ c ∈ lastGap, isGap c = true) (hbetween : ∀ s ∈ strings.tail, s.1 ≠ [])
    (hwhole : ∀ s ∈ strings, isJsonContent s.2 = true) :
    Masks out strings lastGap ↔ InStep out (strings.map Prod.snd) := by
  induction strings generalizing out with
  | nil => exact masks_nil hlast
  | cons s strings ih =>
    obtain ⟨gap, content⟩ := s
    obtain ⟨hgap, hgaps⟩ := List.forall_mem_cons.mp hgaps
    obtain ⟨hj, hwhole⟩ := List.forall_mem_cons.mp hwhole
    rw [masks_cons hgap hj (arrayMarks_head hlast hgaps hbetween),
      ih hgaps (fun s hs => hbetween s (List.mem_of_mem_tail hs)) hwhole]
    rfl

end

end Icq.Wim
