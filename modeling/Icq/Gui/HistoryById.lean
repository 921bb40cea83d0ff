import Icq.Gui.HistoryActions
import Icq.Lib.KeyMapRange

/-! What the answers by ids and the updates put into the history. -/

namespace Icq.Gui
open Icq.Lib Icq.Common

namespace History

variable {s : History} {buddies : List MessageBuddy} {m : MessageBuddy} {k : Int}

/-- The copy is not older than the other one. -/
def NotOlder (m other : MessageBuddy) : Prop :=
  m.updatePatchVersion.lessThan other.updatePatchVersion = false

theorem NotOlder.refl (m : MessageBuddy) : NotOlder m m := PatchVersion.lessThan_irrefl _

theorem NotOlder.trans {a b c : MessageBuddy} (hab : NotOlder a b) (hbc : NotOlder b c) :
    NotOlder a c := PatchVersion.not_textLess_trans hab hbc

section RequestedByIds

/-- Every message put lies between the first and the last id. -/
theorem mem_processRequestedByIds (h : m ∈ (s.processRequestedByIds buddies).1.messages.items) :
    m ∈ s.messages.items ∨ (m ∈ buddies ∧ s.messages.Spans m.id) := by
  rw [processRequestedByIds] at h
  split at h
  · rename_i first last hfirst hlast
    rcases KeyMap.mem_foldl_put h with h | h
    · exact .inl h
    · obtain ⟨hmem, hin⟩ := List.mem_filter.mp h
      exact .inr ⟨hmem, first, hfirst, last, hlast, of_decide_eq_true hin⟩
  · exact .inl h

end RequestedByIds

section Updated

/-- What the loop over an update has done to the messages that it began with. -/
structure UpdatedFrom (messages : KeyMap MessageBuddy.id) (buddies : List MessageBuddy)
    (r : UpdateResult) : Prop where
  keys : r.messages.items.map (·.id) = messages.items.map (·.id)
  stored : ∀ k v, r.messages.find? k = some v → ∃ old, messages.find? k = some old ∧
    (v = old ∨ v ∈ buddies) ∧ NotOlder v old
  inserted : ∀ v ∈ r.inserted, v ∈ buddies ∧ messages.find? v.id = none

theorem find_eq_none_of_keys {messages messages' : KeyMap MessageBuddy.id}
    (h : messages'.items.map (·.id) = messages.items.map (·.id)) :
    messages'.find? k = none ↔ messages.find? k = none := by
  have hkeys : ∀ map : KeyMap MessageBuddy.id, map.find? k = none ↔ k ∉ map.items.map (·.id) := by
    intro map
    rw [KeyMap.find_none, List.mem_map, not_exists]
    exact ⟨fun h v ⟨hv, hk⟩ => h v hv hk, fun h v hv hk => h v ⟨hv, hk⟩⟩
  rw [hkeys, hkeys, h]

theorem UpdatedFrom.step {messages : KeyMap MessageBuddy.id} {r : UpdateResult}
    (h : UpdatedFrom messages buddies r) (hm : m ∈ buddies) :
    UpdatedFrom messages buddies (updateMessage r m) := by
  rw [updateMessage]
  cases hfind : r.messages.find? m.id with
  | none =>
    refine ⟨h.keys, h.stored, fun v hv => ?_⟩
    rcases List.mem_append.mp hv with hv | hv
    · exact h.inserted v hv
    · rw [List.mem_singleton.mp hv]
      exact ⟨hm, (find_eq_none_of_keys h.keys).mp hfind⟩
  | some currentMsg =>
    dsimp only
    split
    · exact h
    · rename_i hold
      rw [Bool.not_eq_true] at hold
      refine ⟨(KeyMap.keys_put_replace hfind).trans h.keys, fun k v hv => ?_, h.inserted⟩
      rw [KeyMap.find_put] at hv
      split at hv
      · rename_i hk
        cases hv
        rw [hk] at hfind
        obtain ⟨old, hstored, -, hnot⟩ := h.stored k currentMsg hfind
        exact ⟨old, hstored, .inr hm, NotOlder.trans hold hnot⟩
      · exact h.stored k v hv

theorem updatedFrom_foldl (messages : KeyMap MessageBuddy.id) (buddies : List MessageBuddy) :
    UpdatedFrom messages buddies (buddies.foldl updateMessage { messages }) := by
  have hfold : ∀ (l : List MessageBuddy) (r : UpdateResult), (∀ m ∈ l, m ∈ buddies) →
      UpdatedFrom messages buddies r → UpdatedFrom messages buddies (l.foldl updateMessage r) := by
    intro l
    induction l with
    | nil => exact fun _ _ h => h
    | cons m l ih =>
      intro r hl h
      exact ih _ (fun x hx => hl x (List.mem_cons_of_mem _ hx)) (h.step (hl m List.mem_cons_self))
  apply hfold buddies _ fun m hm => hm
  refine ⟨rfl, fun k v hv => ⟨v, hv, .inl rfl, NotOlder.refl v⟩, fun v hv => ?_⟩
  exact absurd hv List.not_mem_nil

/-- A message of an update is put when its id is between the first and the last one and the
stored copy is not newer. -/
theorem mem_processUpdatedMessage (h : m ∈ (s.processUpdatedMessage buddies).1.messages.items) :
    m ∈ s.messages.items ∨ (m ∈ buddies ∧ s.messages.Spans m.id ∧
      ∀ old, s.messages.find? m.id = some old → NotOlder m old) := by
  have hfrom := updatedFrom_foldl s.messages buddies
  have hupdated : ∀ v ∈ (buddies.foldl updateMessage { messages := s.messages }).messages.items,
      v ∈ s.messages.items ∨ (v ∈ buddies ∧ s.messages.Spans v.id ∧
        ∀ old, s.messages.find? v.id = some old → NotOlder v old) := by
    intro v hv
    obtain ⟨old, hold, hor, hnot⟩ := hfrom.stored v.id v (KeyMap.find_of_mem hv)
    obtain ⟨hmem, hid⟩ := KeyMap.find_mem hold
    rcases hor with rfl | hin
    · exact .inl hmem
    · refine .inr ⟨hin, hid ▸ KeyMap.spans_of_mem hmem, fun old' hold' => ?_⟩
      rw [hold] at hold'
      cases hold'
      exact hnot
  rw [processUpdatedMessage] at h
  dsimp only at h
  split at h
  · exact hupdated m h
  · rcases mem_processRequestedByIds h with h | ⟨hmem, hspans⟩
    · exact hupdated m h
    · obtain ⟨hin, hnone⟩ := hfrom.inserted m hmem
      refine .inr ⟨hin, (KeyMap.spans_congr hfrom.keys).mp hspans, fun old hold => ?_⟩
      rw [hnone] at hold
      cases hold

end Updated

end History

end Icq.Gui
