import Icq.Gui.History
import Icq.Lib.KeyMapRange

/-! Where the window scrolls to when the message it should show is not there. -/

namespace Icq.Gui
open Icq.Lib

namespace History

section Nearest

variable (s : History) (id : Int)

/-- A visible message that is the next one above the id, or the last one where none is above. -/
def Nearest (m : MessageBuddy) : Prop :=
  m ∈ s.messages.items ∧ m.isVisibleMessage = true ∧
    ((id < m.id ∧ ∀ v ∈ s.messages.items, v.isVisibleMessage = true → id < v.id → m.id ≤ v.id) ∨
      (m.id < id ∧ ∀ v ∈ s.messages.items, v.isVisibleMessage = true → v.id ≤ m.id))

/-- The message is there to be shown, or none is. -/
def NothingToFix : Prop :=
  (∃ m ∈ s.messages.items, m.isVisibleMessage = true ∧ m.id = id) ∨
    ∀ m ∈ s.messages.items, m.isVisibleMessage = false

def FindsNearest (r : Option (Int × ScrollModeType)) : Prop :=
  (s.NothingToFix id → r = none) ∧
    (¬ s.NothingToFix id → ∃ m, s.Nearest id m ∧ r = some (m.id, .toDeleted))

end Nearest

variable {s : History} {id it : Int}

theorem findsNearest_none (h : s.NothingToFix id) : s.FindsNearest id none :=
  ⟨fun _ => rfl, fun hnot => absurd h hnot⟩

theorem findsNearest_some {m : MessageBuddy} (hself : ∀ v ∈ s.messages.items,
    v.isVisibleMessage = true → v.id ≠ id) (h : s.Nearest id m) :
    s.FindsNearest id (some (m.id, .toDeleted)) := by
  refine ⟨fun hnothing => ?_, fun _ => ⟨m, h, rfl⟩⟩
  rcases hnothing with ⟨v, hv, hvisible, hid⟩ | hnone
  · exact absurd hid (hself v hv hvisible)
  · exact absurd (hnone m h.1) (by rw [h.2.1]; exact Bool.false_ne_true.symm)

/-- What is found first in an ordered list comes before all others. -/
theorem find_first {l : List MessageBuddy} {p : MessageBuddy → Bool}
    {r : MessageBuddy → MessageBuddy → Prop} (hsorted : l.Pairwise r) {m : MessageBuddy}
    (h : l.find? p = some m) : ∀ v ∈ l, p v = true → v = m ∨ r m v := by
  obtain ⟨hm, before, after, rfl, hbefore⟩ := List.find?_eq_some_iff_append.mp h
  intro v hv hp
  obtain ⟨-, hafter, -⟩ := List.pairwise_append.mp hsorted
  rcases List.mem_append.mp hv with hv | hv
  · exact absurd hp (by simpa using hbefore v hv)
  · rcases List.mem_cons.mp hv with rfl | hv
    · exact .inl rfl
    · exact .inr ((List.pairwise_cons.mp hafter).1 v hv)

theorem firstVisible_above {m : MessageBuddy}
    (h : s.messages.items.find? (fun m => decide (it < m.id) && m.isVisibleMessage) = some m) :
    m ∈ s.messages.items ∧ m.isVisibleMessage = true ∧ it < m.id ∧
      ∀ v ∈ s.messages.items, v.isVisibleMessage = true → it < v.id → m.id ≤ v.id := by
  have hfound := List.find?_some h
  rw [Bool.and_eq_true, decide_eq_true_iff] at hfound
  refine ⟨List.mem_of_find?_eq_some h, hfound.2, hfound.1, fun v hv hvisible hlt => ?_⟩
  have hv' : (decide (it < v.id) && v.isVisibleMessage) = true := by
    rw [Bool.and_eq_true, decide_eq_true_iff]
    exact ⟨hlt, hvisible⟩
  rcases find_first s.messages.sorted h v hv hv' with rfl | hle
  · exact le_refl _
  · exact le_of_lt hle

theorem firstVisible_below {m : MessageBuddy}
    (h : s.messages.items.reverse.find? (fun m => decide (m.id < it) && m.isVisibleMessage) =
      some m) :
    m ∈ s.messages.items ∧ m.isVisibleMessage = true ∧ m.id < it ∧
      ∀ v ∈ s.messages.items, v.isVisibleMessage = true → v.id < it → v.id ≤ m.id := by
  have hfound := List.find?_some h
  rw [Bool.and_eq_true, decide_eq_true_iff] at hfound
  refine ⟨List.mem_reverse.mp (List.mem_of_find?_eq_some h), hfound.2, hfound.1,
    fun v hv hvisible hlt => ?_⟩
  have hv' : (decide (v.id < it) && v.isVisibleMessage) = true := by
    rw [Bool.and_eq_true, decide_eq_true_iff]
    exact ⟨hlt, hvisible⟩
  have hdown := List.pairwise_reverse.mpr s.messages.sorted
  rcases find_first hdown h v (List.mem_reverse.mpr hv) hv' with rfl | hle
  · exact le_refl _
  · exact le_of_lt hle

theorem not_visible_of_find {l : List MessageBuddy} {p : MessageBuddy → Prop} [DecidablePred p]
    (h : l.find? (fun m => decide (p m) && m.isVisibleMessage) = none) {v : MessageBuddy}
    (hv : v ∈ l) (hp : p v) : v.isVisibleMessage = false := by
  have hnot := List.find?_eq_none.mp h v hv
  rw [decide_eq_true hp, Bool.true_and, Bool.not_eq_true] at hnot
  exact hnot

/-- The search from a message finds what one from the id would, if no visible message is between
them. -/
theorem firstVisible_nearest
    (hsides : ∀ v ∈ s.messages.items, v.isVisibleMessage = true →
      (it < v.id ↔ id < v.id) ∧ (v.id < it ↔ v.id < id))
    (hself : ∀ v ∈ s.messages.items, v.isVisibleMessage = true → v.id ≠ id) :
    s.FindsNearest id ((s.firstVisible it).map fun id => (id, .toDeleted)) := by
  rw [firstVisible]
  cases hnext : s.messages.items.find? fun m => decide (it < m.id) && m.isVisibleMessage with
  | some m =>
    obtain ⟨hm, hvisible, hlt, hleast⟩ := firstVisible_above hnext
    refine findsNearest_some hself ⟨hm, hvisible, .inl ⟨(hsides m hm hvisible).1.mp hlt, ?_⟩⟩
    exact fun v hv hvv hid => hleast v hv hvv ((hsides v hv hvv).1.mpr hid)
  | none =>
    have hbelow : ∀ v ∈ s.messages.items, v.isVisibleMessage = true → v.id < it := by
      intro v hv hvisible
      have hside := hsides v hv hvisible
      have hne := hself v hv hvisible
      have hnlt : ¬ it < v.id := fun hlt =>
        absurd hvisible (by rw [not_visible_of_find hnext hv hlt]; exact Bool.false_ne_true)
      omega
    cases hprev : s.messages.items.reverse.find? fun m =>
        decide (m.id < it) && m.isVisibleMessage with
    | some m =>
      obtain ⟨hm, hvisible, hlt, hgreatest⟩ := firstVisible_below hprev
      refine findsNearest_some hself ⟨hm, hvisible, .inr ⟨(hsides m hm hvisible).2.mp hlt, ?_⟩⟩
      exact fun v hv hvv => hgreatest v hv hvv (hbelow v hv hvv)
    | none =>
      refine findsNearest_none (.inr fun m hm => Bool.eq_false_of_not_eq_true fun hvisible => ?_)
      have hhidden := not_visible_of_find hprev (List.mem_reverse.mpr hm) (hbelow m hm hvisible)
      exact Bool.false_ne_true (hhidden.symm.trans hvisible)

/-- The message the search starts at is not found by it. -/
theorem firstVisible_ne_self (s : History) (it : Int) : s.firstVisible it ≠ some it := by
  rw [firstVisible]
  cases hnext : s.messages.items.find? fun m => decide (it < m.id) && m.isVisibleMessage with
  | some m =>
    intro h
    exact ne_of_gt (firstVisible_above hnext).2.2.1 (Option.some.inj h)
  | none =>
    intro h
    obtain ⟨m, hm, hid⟩ := Option.map_eq_some_iff.mp h
    exact ne_of_lt (firstVisible_below hm).2.2.1 hid

/-- The nearest message is found unless the id is above all ids and the last message is visible. -/
theorem fixIdAndMode_nearest_iff {mode : ScrollModeType} (hid : 0 < id) (hmode : mode ≠ .unread) :
    s.FindsNearest id (s.fixIdAndMode id mode) ↔
      ∀ m, s.messages.last? = some m → m.isVisibleMessage = true → id ≤ m.id := by
  rw [fixIdAndMode, if_neg (not_or.mpr ⟨not_le.mpr hid, hmode⟩)]
  cases hfind : s.messages.find? id with
  | some m =>
    obtain ⟨hm, rfl⟩ := KeyMap.find_mem hfind
    refine iff_of_true ?_ fun last hlast _ => KeyMap.le_last hlast hm
    dsimp only
    by_cases hvisible : m.isVisibleMessage = true
    · rw [if_pos hvisible]
      exact findsNearest_none (.inl ⟨m, hm, hvisible, rfl⟩)
    · rw [if_neg hvisible]
      refine firstVisible_nearest (fun v _ _ => ⟨Iff.rfl, Iff.rfl⟩) fun v hv hvv he => hvisible ?_
      rwa [← KeyMap.eq_of_key hv hm he]
  | none =>
    have hself : ∀ v ∈ s.messages.items, v.isVisibleMessage = true → v.id ≠ id :=
      fun v hv _ => KeyMap.find_none.mp hfind v hv
    cases hbound : s.messages.lowerBound? id with
    | some m =>
      obtain ⟨hm, hle⟩ := KeyMap.lowerBound_mem hbound
      have hlt : id < m.id := lt_of_le_of_ne hle (KeyMap.find_none.mp hfind m hm).symm
      have hnext : ∀ v ∈ s.messages.items, id < v.id → m.id ≤ v.id := fun v hv h =>
        KeyMap.lowerBound_le hbound hv (le_of_lt h)
      refine iff_of_true ?_ fun last hlast _ => le_trans hle (KeyMap.le_last hlast hm)
      dsimp only
      by_cases hvisible : m.isVisibleMessage = true
      · rw [if_pos hvisible]
        exact findsNearest_some hself
          ⟨hm, hvisible, .inl ⟨hlt, fun v hv _ h => hnext v hv h⟩⟩
      · rw [if_neg hvisible]
        refine firstVisible_nearest (fun v hv hvv => ?_) hself
        have hne : v.id ≠ m.id := fun he => hvisible (KeyMap.eq_of_key hv hm he ▸ hvv)
        have hleast := hnext v hv
        have hoff := hself v hv hvv
        omega
    | none =>
      have hbelow : ∀ v ∈ s.messages.items, v.id < id := KeyMap.lowerBound_none.mp hbound
      cases hlast : s.messages.last? with
      | none =>
        have hempty : s.messages.items = [] := List.getLast?_eq_none_iff.mp hlast
        refine iff_of_true (findsNearest_none (.inr fun m hm => ?_)) fun _ h => nomatch h
        exact absurd (hempty ▸ hm) List.not_mem_nil
      | some m =>
        have hm : m ∈ s.messages.items := List.mem_of_getLast? hlast
        have hmax : ∀ v ∈ s.messages.items, v.id ≤ m.id := fun v hv => KeyMap.le_last hlast hv
        dsimp only
        by_cases hvisible : m.isVisibleMessage = true
        · -- the last message is the nearest one, and the search starts before it
          refine iff_of_false (fun h => ?_) fun h =>
            absurd (h m rfl hvisible) (not_le.mpr (hbelow m hm))
          have hfix : ¬ s.NothingToFix id := by
            rintro (⟨v, hv, hvv, he⟩ | hnone)
            · exact hself v hv hvv he
            · exact Bool.false_ne_true ((hnone m hm).symm.trans hvisible)
          obtain ⟨n, ⟨hn, -, hside⟩, hr⟩ := h.2 hfix
          have hlastn : m.id ≤ n.id := by
            rcases hside with ⟨hlt, -⟩ | ⟨-, hgreatest⟩
            · exact absurd hlt (not_lt.mpr (le_of_lt (hbelow n hn)))
            · exact hgreatest m hm hvisible
          obtain ⟨x, hx, he⟩ := Option.map_eq_some_iff.mp hr
          have hxm : x = m.id :=
            (congrArg Prod.fst he).trans (le_antisymm (hmax n hn) hlastn)
          exact s.firstVisible_ne_self m.id (hx.trans (congrArg some hxm))
        · refine iff_of_true ?_ fun x hx hv => ?_
          · refine firstVisible_nearest (fun v hv hvv => ?_) hself
            have hne : v.id ≠ m.id := fun he => hvisible (KeyMap.eq_of_key hv hm he ▸ hvv)
            have hle := hmax v hv
            have hlt := hbelow v hv
            omega
          · obtain rfl := Option.some.inj hx
            exact absurd hv hvisible

/-- A message that is seen, and a deleted one behind it. -/
def seenAndDeleted : History :=
  { messages := ⟨[{ id := 5 }, { id := 10, deleted := true }], by decide⟩ }

theorem nearest_to_deleted :
    seenAndDeleted.FindsNearest 10 (seenAndDeleted.fixIdAndMode 10 .none) := by
  refine (fixIdAndMode_nearest_iff (by decide) (by decide)).mpr fun m hm _ => ?_
  obtain rfl := Option.some.inj hm
  exact le_refl 10

def oneMessage : History := { messages := ⟨[{ id := 5 }], by decide⟩ }

/-- Behind the only message there is nothing to scroll to. -/
theorem last_message_skipped : ¬ oneMessage.FindsNearest 10 (oneMessage.fixIdAndMode 10 .none) := by
  intro h
  have hfix : ¬ oneMessage.NothingToFix 10 := by
    rintro (⟨m, hm, -, hid⟩ | hnone)
    · obtain rfl := List.mem_singleton.mp hm
      exact absurd hid (by decide)
    · exact absurd (hnone _ (List.mem_singleton_self _)) (by decide)
  obtain ⟨m, -, hr⟩ := h.2 hfix
  exact nomatch hr

end History

end Icq.Gui
