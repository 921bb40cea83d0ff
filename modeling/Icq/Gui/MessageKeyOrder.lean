import Icq.Gui.MessageKey
import Icq.Lib.WeakOrder
import Mathlib.Data.Prod.Lex
import Mathlib.Order.Basic

namespace Icq.Gui
open Icq.Lib

namespace QString

theorem digits_toLongLong_nonneg {text : QString} :
    0 ≤ (match digits text with
      | some n => if n < 2 ^ 63 then (n : Int) else 0
      | none => 0) := by
  split
  · split
    · exact Int.natCast_nonneg _
    · exact le_refl _
  · exact le_refl _

theorem toLongLong_nonneg {text : QString} (h : 45 ∉ text) : 0 ≤ text.toLongLong := by
  rw [toLongLong]
  split
  · rename_i rest heq
    have hmem : (45 : UInt16) ∈ (text.dropWhile isSpace).rdropWhile isSpace := by
      rw [heq]
      exact List.mem_cons_self
    have := (List.rdropWhile_prefix isSpace _).subset hmem
    exact absurd ((List.dropWhile_sublist _).subset this) h
  · exact digits_toLongLong_nonneg
  · exact digits_toLongLong_nonneg

theorem dash_notMem_afterLastDash (text : QString) : 45 ∉ text.afterLastDash := by
  intro h
  have := List.mem_rtakeWhile_imp h
  simp at this

@[simp] theorem afterLastDash_cons_dash (text : QString) :
    afterLastDash (45 :: text) = text.afterLastDash := by
  rw [afterLastDash, afterLastDash, List.rtakeWhile, List.rtakeWhile, List.reverse_cons,
    List.takeWhile_append]
  split
  · rename_i hall
    rw [List.takeWhile_cons_of_neg (by decide), List.append_nil]
    exact congrArg List.reverse ((List.takeWhile_prefix _).eq_of_length hall).symm
  · rfl

end QString

theorem makePendingId_nonneg (internalId : QString) : 0 ≤ makePendingId internalId :=
  QString.toLongLong_nonneg internalId.dash_notMem_afterLastDash

@[simp] theorem makePendingId_cons_dash (internalId : QString) :
    makePendingId (45 :: internalId) = makePendingId internalId := by
  rw [makePendingId, makePendingId, QString.afterLastDash_cons_dash]

theorem ControlType.num_pos {a : ControlType} (h : a ≠ date) : 0 < a.num := by
  cases a with
  | date => exact absurd rfl h
  | message => exact Nat.one_pos
  | threadReplies => exact Nat.two_pos
  | newMessages => exact Nat.succ_pos _

namespace MessageKey

/-- The keys of pending messages and of delivered ones, under any control type. -/
inductive Built : MessageKey → Prop
  | pending (m : MessageBuddy) (id : m.id = -1) (internalId : m.internalId ≠ [])
      (pendingId : m.pendingId = makePendingId m.internalId) : Built m.toKey
  | delivered (m : MessageBuddy) (id : 0 < m.id) (pendingId : m.pendingId = -1) : Built m.toKey
  | setControlType (k : MessageKey) (controlType : ControlType) (built : Built k) :
      Built (k.setControlType controlType)

def OfPending (k : MessageKey) : Prop :=
  k.id = -1 ∧ k.internalId ≠ [] ∧ k.pendingId = makePendingId k.internalId

def OfDelivered (k : MessageKey) : Prop := 0 < k.id ∧ k.pendingId = -1

variable {a b c k : MessageKey}

theorem Built.cases (h : Built k) : k.OfPending ∨ k.OfDelivered := by
  induction h with
  | pending m id internalId pendingId => exact .inl ⟨id, internalId, pendingId⟩
  | delivered m id pendingId => exact .inr ⟨id, pendingId⟩
  | setControlType k controlType built ih => exact ih

/-- The message that a key was made from. -/
def buddy (k : MessageKey) : MessageBuddy :=
  { id := k.id, prev := k.prev, internalId := k.internalId, pendingId := k.pendingId,
    time := k.time, outgoing := k.outgoing }

theorem built_iff : Built k ↔ k.OfPending ∨ k.OfDelivered := by
  refine ⟨Built.cases, fun h => ?_⟩
  have : Built (k.buddy.toKey.setControlType k.controlType) := by
    apply Built.setControlType
    rcases h with ⟨id, internalId, pendingId⟩ | ⟨id, pendingId⟩
    · exact .pending k.buddy id internalId pendingId
    · exact .delivered k.buddy id pendingId
  exact this

theorem OfPending.pendingId_ne (h : k.OfPending) : k.pendingId ≠ -1 := by
  have := makePendingId_nonneg k.internalId
  have := h.2.2
  omega

theorem OfDelivered.id_ne (h : k.OfDelivered) : k.id ≠ -1 := by
  have := h.1
  omega

/-- One message, pending in one place and delivered in another, or twice the same. -/
def Twins (a b : MessageKey) : Prop := a.internalId ≠ [] ∧ a.internalId = b.internalId

/-- Delivered messages by id, then pending ones by pending id and time. -/
def rank (k : MessageKey) : Nat ×ₗ Int ×ₗ Int :=
  if k.pendingId = -1 then toLex (0, toLex (k.id, 0)) else toLex (1, toLex (k.pendingId, k.time))

def place (k : MessageKey) : (Nat ×ₗ Int ×ₗ Int) ×ₗ Nat := toLex (k.rank, k.controlType.num)

/-- A pending message older than a delivered one, under another control type. -/
def Inverted (p d : MessageKey) : Prop :=
  p.pendingId ≠ -1 ∧ d.pendingId = -1 ∧ p.controlType ≠ d.controlType ∧ d.controlType ≠ .date ∧
    p.time < d.time

/-- Twins lie in one place up to the control type, or the control type tells their order;
other keys are not inverted. -/
def InOrder (a b : MessageKey) : Prop :=
  (Twins a b → a.rank = b.rank ∨ (a.rank < b.rank ∧ a.controlType.num < b.controlType.num) ∨
    (b.rank < a.rank ∧ b.controlType.num < a.controlType.num)) ∧
  (¬ Twins a b → ¬ Inverted a b ∧ ¬ Inverted b a)

theorem lessThan_irrefl (k : MessageKey) : k.lessThan k = false := by
  simp [lessThan]

theorem Twins.symm (h : Twins a b) : Twins b a := ⟨h.2 ▸ h.1, h.2.symm⟩

theorem InOrder.symm (h : InOrder a b) : InOrder b a := by
  refine ⟨fun htwins => ?_, fun htwins => ?_⟩
  · rcases h.1 htwins.symm with heq | hlt | hgt
    · exact .inl heq.symm
    · exact .inr (.inr hlt)
    · exact .inr (.inl hgt)
  · exact (h.2 fun h' => htwins h'.symm).symm

/-- The comparison of keys that are no twins, by the kinds of their messages. -/
theorem lessThan_twins (h : Twins a b) :
    a.lessThan b = true ↔ a.controlType.num < b.controlType.num := by
  rw [lessThan, if_pos ⟨h.1, h.2⟩, decide_eq_true_eq]

theorem lessThan_pending_delivered (ha : a.OfPending) (hb : b.OfDelivered) (h : ¬ Twins a b) :
    a.lessThan b = true ↔ Inverted a b := by
  have := ha.pendingId_ne
  have hd := hb.2
  rw [lessThan, if_neg (show ¬ (_ ∧ _) from h), if_pos ⟨this, hd⟩]
  by_cases hct : a.controlType = b.controlType
  · simp [Inverted, hct]
  · by_cases hdate : b.controlType = .date
    · simp [Inverted, hdate, ControlType.num]
    · by_cases htime : a.time = b.time
      · simp [Inverted, hct, hdate, htime]
      · simp [Inverted, hct, hdate, htime, this, hd]

theorem lessThan_delivered_pending (ha : a.OfDelivered) (hb : b.OfPending) (h : ¬ Twins a b) :
    a.lessThan b = true ↔ ¬ Inverted b a := by
  have := hb.pendingId_ne
  have hd := ha.2
  rw [lessThan, if_neg (show ¬ (_ ∧ _) from h), if_neg (fun h' => h'.1 hd), if_pos ⟨hd, this⟩]
  by_cases hct : a.controlType = b.controlType
  · simp [Inverted, hct]
  · by_cases hdate : a.controlType = .date
    · have hb' : b.controlType ≠ .date := fun h' => hct (hdate.trans h'.symm)
      have hinv : ¬ Inverted b a := fun h' => h'.2.2.2.1 hdate
      rw [if_neg hct, if_pos hdate, decide_eq_true_eq, hdate]
      exact iff_of_true (ControlType.num_pos hb') hinv
    · by_cases htime : a.time = b.time
      · simp [Inverted, hct, hdate, htime]
      · simp [Inverted, hdate, htime, this, hd, Ne.symm hct, hct]
        omega

theorem lessThan_delivered (ha : a.OfDelivered) (hb : b.OfDelivered) (h : ¬ Twins a b) :
    a.lessThan b = true ↔
      a.id < b.id ∨ a.id = b.id ∧ a.controlType.num < b.controlType.num := by
  rw [lessThan, if_neg (show ¬ (_ ∧ _) from h), if_neg fun h' => h'.1 ha.2,
    if_neg fun h' => h'.2 hb.2]
  by_cases hid : a.id = b.id
  · rw [if_neg fun h' => h'.2.2 hid, if_neg fun h' => h'.1 ha.2, if_neg fun h' => h'.1 ha.2,
      decide_eq_true_eq]
    simp [hid]
  · rw [if_pos ⟨ha.id_ne, hb.id_ne, hid⟩, decide_eq_true_eq]
    simp [hid]

theorem lessThan_pending (ha : a.OfPending) (hb : b.OfPending) (h : ¬ Twins a b) :
    a.lessThan b = true ↔ a.pendingId < b.pendingId ∨ a.pendingId = b.pendingId ∧
      (a.time < b.time ∨ a.time = b.time ∧ a.controlType.num < b.controlType.num) := by
  have hne : a.internalId ≠ b.internalId := fun h' => h ⟨ha.2.1, h'⟩
  rw [lessThan, if_neg (show ¬ (_ ∧ _) from h), if_neg fun h' => hb.pendingId_ne h'.2,
    if_neg fun h' => ha.pendingId_ne h'.1, if_neg fun h' => h'.1 ha.1]
  by_cases hp : a.pendingId = b.pendingId
  · rw [if_neg fun h' => h'.2.2.2 hp]
    by_cases ht : a.time = b.time
    · rw [if_neg fun h' => h'.2.2.2 ht, decide_eq_true_eq]
      simp [hp, ht]
    · rw [if_pos ⟨ha.pendingId_ne, hb.pendingId_ne, hne, ht⟩, decide_eq_true_eq]
      simp [hp, ht]
  · rw [if_pos ⟨ha.pendingId_ne, hb.pendingId_ne, hne, hp⟩, decide_eq_true_eq]
    simp [hp]

theorem OfPending.rank_eq (h : k.OfPending) : k.rank = toLex (1, toLex (k.pendingId, k.time)) := by
  rw [rank, if_neg h.pendingId_ne]

theorem OfDelivered.rank_eq (h : k.OfDelivered) : k.rank = toLex (0, toLex (k.id, 0)) := by
  rw [rank, if_pos h.2]

theorem rank_lt_pending (ha : a.OfPending) (hb : b.OfPending) :
    a.rank < b.rank ↔
      a.pendingId < b.pendingId ∨ a.pendingId = b.pendingId ∧ a.time < b.time := by
  simp [ha.rank_eq, hb.rank_eq, Prod.Lex.toLex_lt_toLex]

theorem rank_eq_pending (ha : a.OfPending) (hb : b.OfPending) :
    a.rank = b.rank ↔ a.pendingId = b.pendingId ∧ a.time = b.time := by
  simp [ha.rank_eq, hb.rank_eq]

theorem rank_lt_delivered (ha : a.OfDelivered) (hb : b.OfDelivered) :
    a.rank < b.rank ↔ a.id < b.id := by
  simp [ha.rank_eq, hb.rank_eq, Prod.Lex.toLex_lt_toLex]

theorem rank_eq_delivered (ha : a.OfDelivered) (hb : b.OfDelivered) :
    a.rank = b.rank ↔ a.id = b.id := by
  simp [ha.rank_eq, hb.rank_eq]

theorem rank_delivered_lt_pending (ha : a.OfDelivered) (hb : b.OfPending) : a.rank < b.rank := by
  simp [ha.rank_eq, hb.rank_eq, Prod.Lex.toLex_lt_toLex]

theorem place_lt : a.place < b.place ↔
    a.rank < b.rank ∨ a.rank = b.rank ∧ a.controlType.num < b.controlType.num := by
  rw [place, place, Prod.Lex.toLex_lt_toLex]

/-- Keys in order are compared by their places. -/
theorem InOrder.lessThan_iff (h : InOrder a b) (ha : Built a) (hb : Built b) :
    a.lessThan b = true ↔ a.place < b.place := by
  rw [place_lt]
  by_cases htwins : Twins a b
  · rw [lessThan_twins htwins]
    rcases h.1 htwins with heq | ⟨hlt, hct⟩ | ⟨hlt, hct⟩
    · simp [heq]
    · simp [hlt, hct]
    · simp [hlt.not_gt, hct.not_gt, hlt.ne']
  · rcases ha.cases with ha | ha
    · rcases hb.cases with hb | hb
      · rw [lessThan_pending ha hb htwins, rank_lt_pending ha hb, rank_eq_pending ha hb]
        tauto
      · have hlt := rank_delivered_lt_pending hb ha
        rw [lessThan_pending_delivered ha hb htwins]
        simp [hlt.not_gt, hlt.ne', (h.2 htwins).1]
    · rcases hb.cases with hb | hb
      · rw [lessThan_delivered_pending ha hb htwins]
        simp [rank_delivered_lt_pending ha hb, (h.2 htwins).2]
      · rw [lessThan_delivered ha hb htwins, rank_lt_delivered ha hb, rank_eq_delivered ha hb]

/-- A key out of order does not come before the key of higher rank. -/
theorem not_lessThan_of_rank_lt (ha : Built a) (hb : Built b) (h : ¬ InOrder a b)
    (hlt : a.rank < b.rank) : ¬ a.lessThan b = true := by
  by_cases htwins : Twins a b
  · rw [lessThan_twins htwins]
    intro hct
    exact h ⟨fun _ => .inr (.inl ⟨hlt, hct⟩), fun h' => absurd htwins h'⟩
  · rcases ha.cases with ha | ha
    · rcases hb.cases with hb | hb
      · refine absurd ⟨fun h' => absurd h' htwins, fun _ => ⟨fun h' => ?_, fun h' => ?_⟩⟩ h
        · exact hb.pendingId_ne h'.2.1
        · exact ha.pendingId_ne h'.2.1
      · exact absurd hlt (rank_delivered_lt_pending hb ha).not_gt
    · rcases hb.cases with hb | hb
      · rw [lessThan_delivered_pending ha hb htwins, not_not]
        by_contra hinv
        exact h ⟨fun h' => absurd h' htwins, fun _ => ⟨fun h' => h'.1 ha.2, hinv⟩⟩
      · refine absurd ⟨fun h' => absurd h' htwins, fun _ => ⟨fun h' => ?_, fun h' => ?_⟩⟩ h
        · exact h'.1 ha.2
        · exact h'.1 hb.2

/-- A key beside the first one, in order with both and before the second. -/
theorem exists_beside (ha : Built a) (hb : Built b) (hlt : a.rank < b.rank)
    (htwins : a.OfPending → b.OfPending → Twins a b) :
    ∃ c, Built c ∧ InOrder a c ∧ InOrder b c ∧ c.place = a.place ∧ c.place < b.place := by
  rcases ha.cases with ha | ha
  · have hb : b.OfPending := by
      refine hb.cases.resolve_right fun hb => ?_
      exact absurd hlt (rank_delivered_lt_pending hb ha).not_gt
    let c : MessageKey := { a with internalId := 45 :: a.internalId }
    have hc : c.OfPending := by
      refine ⟨ha.1, by simp [c], ?_⟩
      rw [makePendingId_cons_dash]
      exact ha.2.2
    have hne : ∀ k : MessageKey, k.internalId = a.internalId → ¬ Twins k c := by
      intro k hk h'
      have := congrArg List.length (hk.symm.trans h'.2)
      simp [c] at this
    have hinv : ∀ k : MessageKey, k.OfPending → k.internalId = a.internalId → InOrder k c := by
      intro k hk hid
      refine ⟨fun h' => absurd h' (hne k hid), fun _ => ⟨fun h' => ?_, fun h' => ?_⟩⟩
      · exact hc.pendingId_ne h'.2.1
      · exact hk.pendingId_ne h'.2.1
    have hplace : c.place = a.place := rfl
    exact ⟨c, built_iff.mpr (.inl hc), hinv a ha rfl, hinv b hb (htwins ha hb).2.symm, hplace,
      place_lt.mpr (.inl hlt)⟩
  · let c : MessageKey := { a with internalId := [], time := b.time }
    have hc : c.OfDelivered := ha
    have hne : ∀ k : MessageKey, ¬ Twins k c := fun k h' => h'.1 h'.2
    have hplace : c.place = a.place := by
      rw [place, place, hc.rank_eq, ha.rank_eq]
    refine ⟨c, built_iff.mpr (.inr hc), ⟨fun h' => absurd h' (hne a), fun _ => ?_⟩,
      ⟨fun h' => absurd h' (hne b), fun _ => ?_⟩, hplace, ?_⟩
    · exact ⟨fun h' => h'.1 ha.2, fun h' => h'.1 hc.2⟩
    · exact ⟨fun h' => absurd h'.2.2.2.2 (lt_irrefl b.time), fun h' => h'.1 hc.2⟩
    · exact hplace ▸ place_lt.mpr (.inl hlt)

/-- Equal keys are never told apart by the order. -/
theorem incomp_of_isEqual (ha : Built a) (hb : Built b) (h : a.isEqual b = true) :
    Incomp (fun k l => lessThan k l = true) a b := by
  simp only [isEqual, hasId, Bool.or_eq_true, Bool.and_eq_true, bne_iff_ne, beq_iff_eq,
    Bool.ite_eq_true_distrib] at h
  split at h
  · rename_i hsame
    by_cases htwins : Twins a b
    · simp [Incomp, lessThan_twins htwins, lessThan_twins htwins.symm, h]
    · have hid := hsame.resolve_right htwins
      have ha' : a.OfDelivered := ha.cases.resolve_left fun h' => hid.1 h'.1
      have hb' : b.OfDelivered := hb.cases.resolve_left fun h' => hid.1 (hid.2.trans h'.1)
      simp [Incomp, lessThan_delivered ha' hb' htwins,
        lessThan_delivered hb' ha' fun h' => htwins h'.symm, h, hid.2]
  · cases h

/-- What the vector of pendings and the searches in it rely on, for three keys. -/
def Ordered (a b c : MessageKey) : Prop :=
  StrictWeakOn (fun k l => lessThan k l = true) {a, b, c} ∧
  ∀ k ∈ ({a, b, c} : Set MessageKey), ∀ l ∈ ({a, b, c} : Set MessageKey),
    k.isEqual l = true → ¬ k.lessThan l = true ∧ ¬ l.lessThan k = true

theorem inOrder_self (a : MessageKey) : InOrder a a := by
  refine ⟨fun _ => .inl rfl, fun _ => ?_⟩
  exact ⟨fun h => lt_irrefl _ h.2.2.2.2, fun h => lt_irrefl _ h.2.2.2.2⟩

theorem ordered_of_inOrder (ha : Built a) (hb : Built b) (hc : Built c) (hab : InOrder a b)
    (hac : InOrder a c) (hbc : InOrder b c) : Ordered a b c := by
  have hbuilt : ∀ k ∈ ({a, b, c} : Set MessageKey), Built k := by
    simp [ha, hb, hc]
  have hin : ∀ k ∈ ({a, b, c} : Set MessageKey), ∀ l ∈ ({a, b, c} : Set MessageKey),
      InOrder k l := by
    simp [inOrder_self, hab, hac, hbc, hab.symm, hac.symm, hbc.symm]
  refine ⟨.of_place place fun k hk l hl => ?_, fun k hk l hl h => ?_⟩
  · exact (hin k hk l hl).lessThan_iff (hbuilt k hk) (hbuilt l hl)
  · exact incomp_of_isEqual (hbuilt k hk) (hbuilt l hl) h

/-- Two keys out of order break the laws with a third one, which is in order with both. -/
theorem exists_not_ordered (ha : Built a) (hb : Built b) (h : ¬ InOrder a b)
    (hlt : a.rank < b.rank) :
    ∃ c, Built c ∧ InOrder a c ∧ InOrder b c ∧
      ∀ s : Set MessageKey, a ∈ s → b ∈ s → c ∈ s →
        ¬ StrictWeakOn (fun k l => lessThan k l = true) s := by
  have htwins : a.OfPending → b.OfPending → Twins a b := by
    intro hap hbp
    by_contra htwins
    refine h ⟨fun h' => absurd h' htwins, fun _ => ⟨fun h' => ?_, fun h' => ?_⟩⟩
    · exact hbp.pendingId_ne h'.2.1
    · exact hap.pendingId_ne h'.2.1
  obtain ⟨c, hc, hac, hbc, hplace, hplaceLt⟩ := exists_beside ha hb hlt htwins
  refine ⟨c, hc, hac, hbc, fun s has hbs hcs hs => ?_⟩
  have hbeside : Incomp (fun k l => lessThan k l = true) a c := by
    simp [Incomp, hac.lessThan_iff ha hc, hac.symm.lessThan_iff hc ha, hplace]
  have hbefore : c.lessThan b = true := (hbc.symm.lessThan_iff hc hb).mpr hplaceLt
  exact not_lessThan_of_rank_lt ha hb h hlt (hs.lt_of_incomp has hcs hbs hbeside hbefore)

/-- Two keys are safe to sort among keys in order with both exactly when they are in order. -/
theorem ordered_iff (ha : Built a) (hb : Built b) :
    (∀ c, Built c → InOrder a c → InOrder b c → Ordered a b c) ↔ InOrder a b := by
  constructor
  · intro hall
    by_contra h
    rcases lt_trichotomy a.rank b.rank with hlt | heq | hgt
    · obtain ⟨c, hc, hac, hbc, hno⟩ := exists_not_ordered ha hb h hlt
      exact hno _ (by simp) (by simp) (by simp) (hall c hc hac hbc).1
    · refine h ⟨fun _ => .inl heq, fun _ => ⟨fun h' => ?_, fun h' => ?_⟩⟩
      · rw [rank, rank, if_neg h'.1, if_pos h'.2.1] at heq
        cases heq
      · rw [rank, rank, if_neg h'.1, if_pos h'.2.1] at heq
        cases heq
    · obtain ⟨c, hc, hbc, hac, hno⟩ := exists_not_ordered hb ha (fun h' => h h'.symm) hgt
      exact hno _ (by simp) (by simp) (by simp) (hall c hc hac hbc).1
  · exact fun h c hc hac hbc => ordered_of_inOrder ha hb hc h hac hbc

/-- Pending keys are in order unless one message has two times. -/
theorem inOrder_of_pending (ha : a.OfPending) (hb : b.OfPending)
    (h : a.internalId = b.internalId → a.time = b.time) : InOrder a b := by
  refine ⟨fun htwins => .inl ?_, fun _ => ⟨fun h' => ?_, fun h' => ?_⟩⟩
  · rw [rank_eq_pending ha hb, ha.2.2, hb.2.2, htwins.2]
    exact ⟨rfl, h htwins.2⟩
  · exact hb.pendingId_ne h'.2.1
  · exact ha.pendingId_ne h'.2.1

/-- An own message, pending and then delivered, and a message that was delivered after it. -/
def ownPending : MessageBuddy :=
  { internalId := [120, 45, 55], pendingId := 7, time := 5, outgoing := true }

def ownDelivered : MessageBuddy :=
  { id := 10, prev := 9, internalId := [120, 45, 55], time := 5, outgoing := true }

def laterDelivered : MessageBuddy := { id := 20, prev := 10, time := 6 }

theorem ownPending_built : Built ownPending.toKey := .pending _ rfl (by simp [ownPending]) rfl

theorem laterDelivered_built : Built laterDelivered.toKey := .delivered _ (by decide) rfl

theorem pending_later_inOrder : InOrder ownPending.toKey laterDelivered.toKey := by
  refine ⟨fun h => absurd h.2 (by decide), fun _ => ⟨fun h => ?_, fun h => absurd rfl h.1⟩⟩
  exact absurd rfl h.2.2.1

/-- The third key is the delivered one again. -/
theorem ordered_pending_later :
    Ordered ownPending.toKey laterDelivered.toKey laterDelivered.toKey :=
  (ordered_iff ownPending_built laterDelivered_built).mpr pending_later_inOrder _
    laterDelivered_built pending_later_inOrder (inOrder_self _)

/-- The pending message stands beside its delivered self, yet behind what was delivered later. -/
theorem pending_beside_delivered :
    ¬ ∀ a b c, Built a → Built b → Built c → Ordered a b c := by
  intro h
  have hd : Built ownDelivered.toKey := .delivered _ (by decide) rfl
  have hlaws := (h _ _ _ hd ownPending_built laterDelivered_built).1
  have hbeside : Incomp (fun k l => lessThan k l = true) ownPending.toKey ownDelivered.toKey :=
    ⟨by decide, by decide⟩
  have hlt := hlaws.lt_of_incomp (by simp) (by simp) (by simp) hbeside
    (show ownDelivered.toKey.lessThan laterDelivered.toKey = true by decide)
  exact absurd hlt (by decide)

end MessageKey

end Icq.Gui
