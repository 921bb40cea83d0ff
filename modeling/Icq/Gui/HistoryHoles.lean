import Icq.Gui.HistoryActions
import Icq.Lib.KeyMapRange

/-! Which holes between two visible messages are seen. -/

namespace Icq.Gui
open Icq.Lib

namespace History

section Links

variable (s : History) (older newer : Int)

/-- The links lead down from a message to the older one, all the way through hidden messages. -/
inductive Chain : Int → Prop
  | last (m : MessageBuddy) (held : m ∈ s.messages.items) (above : older < m.id)
      (link : m.prev = older) : Chain m.id
  | next (m x : MessageBuddy) (held : m ∈ s.messages.items) (hx : x ∈ s.messages.items)
      (link : m.prev = x.id) (lower : x.id < m.id) (hidden : x.isVisibleMessage = false)
      (rest : Chain x.id) : Chain m.id

/-- The messages that the links lead to from the newer one, as long as they lead to held ones
above the older. -/
inductive Led : MessageBuddy → Prop
  | start (m : MessageBuddy) (held : m ∈ s.messages.items) (h : m.id = newer) : Led m
  | next (m x : MessageBuddy) (led : Led m) (hx : x ∈ s.messages.items) (link : m.prev = x.id)
      (above : older < x.id) (lower : x.id < m.id) : Led x

def OnlyHidden : Prop :=
  ∀ m ∈ s.messages.items, older < m.id → m.id < newer → m.isVisibleMessage = false

/-- The lowest message above the older one links to it. -/
def EndsAtOlder : Prop :=
  ∃ m ∈ s.messages.items, older < m.id ∧ m.prev = older ∧
    ∀ x ∈ s.messages.items, older < x.id → m.id ≤ x.id

/-- No link on the way down leads into a missing range. -/
def NoLinkIntoGap : Prop :=
  ∀ m, s.Led older newer m → m.prev = older ∨
    ∃ x ∈ s.messages.items, m.prev = x.id ∧ older < x.id ∧ x.id < m.id

end Links

variable {s : History} {older newer : Int}

theorem Chain.above (h : s.Chain older newer) : older < newer := by
  induction h with
  | last m held above link => exact above
  | next m x held hx link lower hidden rest ih => exact lt_trans ih lower

theorem Led.held {m : MessageBuddy} (h : s.Led older newer m) : m ∈ s.messages.items := by
  cases h with
  | start _ held => exact held
  | next _ _ _ hx => exact hx

theorem Led.le {m : MessageBuddy} (h : s.Led older newer m) : m.id ≤ newer := by
  induction h with
  | start m held h => exact le_of_eq h
  | next m x led hx link above lower ih => exact le_trans (le_of_lt lower) ih

/-- A chain goes on from a message with its link. -/
theorem Chain.cases_link {m : MessageBuddy} (hm : m ∈ s.messages.items)
    (h : s.Chain older m.id) : m.prev = older ∨
      ∃ x ∈ s.messages.items, m.prev = x.id ∧ x.id < m.id ∧ s.Chain older x.id := by
  generalize hid : m.id = id at h
  cases h with
  | last y held above link =>
    obtain rfl := KeyMap.eq_of_key hm held hid
    exact .inl link
  | next y x held hx link lower hidden rest =>
    obtain rfl := KeyMap.eq_of_key hm held hid
    exact .inr ⟨x, hx, link, lower, rest⟩

theorem chain_of_led (hhidden : s.OnlyHidden older newer) (hgap : s.NoLinkIntoGap older newer)
    {n : Nat} {m : MessageBuddy} (hm : s.Led older newer m)
    (hn : m.id - older ≤ n) (hlow : older < m.id) : s.Chain older m.id := by
  induction n generalizing m with
  | zero => omega
  | succ n ih =>
    rcases hgap m hm with hlink | ⟨x, hx, hlink, hxlow, hlower⟩
    · exact .last m hm.held hlow hlink
    · have hled : s.Led older newer x := .next m x hm hx hlink hxlow hlower
      have hhid : x.isVisibleMessage = false := hhidden x hx hxlow (lt_of_lt_of_le hlower hm.le)
      exact .next m x hm.held hx hlink hlower hhid (ih hled (by omega) hxlow)

/-- Between two messages with hidden ones between, there is a chain if and only if no link leads
into a gap. -/
theorem chain_iff {n : MessageBuddy} (hn : n ∈ s.messages.items) (habove : older < n.id)
    (hhidden : s.OnlyHidden older n.id) :
    s.Chain older n.id ↔ s.NoLinkIntoGap older n.id := by
  constructor
  · intro h m hm
    have hchain : s.Chain older m.id := by
      induction hm with
      | start m held hid => rwa [hid]
      | next m x led hx link above lower ih =>
        rcases ih.cases_link led.held with hlink | ⟨y, hy, hlink, -, hrest⟩
        · exact absurd above (by rw [← link, hlink]; exact lt_irrefl older)
        · rwa [← link, hlink]
    rcases hchain.cases_link hm.held with hlink | ⟨x, hx, hlink, hlower, hrest⟩
    · exact .inl hlink
    · exact .inr ⟨x, hx, hlink, hrest.above, hlower⟩
  · intro h
    have hled : s.Led older n.id n := .start n hn rfl
    exact chain_of_led hhidden h hled (Int.self_le_toNat _) habove

theorem holeAbove_eq_false {l : List MessageBuddy} : holeAbove older l = false ↔
    (∀ m ∈ l.tail, m.isVisibleMessage = false) ∧ ∀ m ∈ l.getLast?, m.prev = older := by
  induction l with
  | nil => simp [holeAbove]
  | cons m l ih =>
    cases l with
    | nil => simp [holeAbove]
    | cons x l =>
      rw [holeAbove, List.getLast?_cons_cons, List.tail_cons]
      rw [List.tail_cons] at ih
      by_cases hx : x.isVisibleMessage = true
      · rw [if_pos hx]
        refine iff_of_false Bool.false_ne_true.symm fun h => ?_
        have hhidden := h.1 x List.mem_cons_self
        exact Bool.false_ne_true (hhidden.symm.trans hx)
      · rw [if_neg hx, ih, List.forall_mem_cons, Bool.not_eq_true] at *
        exact ⟨fun h => ⟨⟨hx, h.1⟩, h.2⟩, fun h => ⟨h.1.2, h.2⟩⟩

/-- The messages from the one above the older up to the newer, from the newer down. -/
def downFrom (s : History) (older newer : Int) : List MessageBuddy :=
  (s.messages.items.filter fun m => decide (older < m.id ∧ m.id ≤ newer)).reverse

theorem mem_downFrom {m : MessageBuddy} :
    m ∈ s.downFrom older newer ↔ m ∈ s.messages.items ∧ older < m.id ∧ m.id ≤ newer := by
  rw [downFrom, List.mem_reverse, List.mem_filter, decide_eq_true_iff]

theorem downFrom_descending (s : History) (older newer : Int) :
    (s.downFrom older newer).Pairwise fun a b => b.id < a.id := by
  rw [downFrom, List.pairwise_reverse]
  exact s.messages.sorted.filter _

/-- All but the newer one are below it. -/
theorem mem_tail_downFrom {n m : MessageBuddy} (hn : n ∈ s.messages.items) (habove : older < n.id) :
    m ∈ (s.downFrom older n.id).tail ↔
      m ∈ s.messages.items ∧ older < m.id ∧ m.id < n.id := by
  have hsorted := s.downFrom_descending older n.id
  have hmem : n ∈ s.downFrom older n.id := mem_downFrom.mpr ⟨hn, habove, le_refl _⟩
  have hall : ∀ x ∈ s.downFrom older n.id, x.id ≤ n.id := fun x hx => (mem_downFrom.mp hx).2.2
  have hheld := @mem_downFrom s older n.id m
  cases hdown : s.downFrom older n.id with
  | nil => exact absurd (hdown ▸ hmem) List.not_mem_nil
  | cons head rest =>
    rw [hdown] at hsorted hmem hall hheld
    have hhead : head = n := by
      rcases List.mem_cons.mp hmem with rfl | hrest
      · rfl
      · have hlt := (List.pairwise_cons.mp hsorted).1 n hrest
        exact absurd (hall head List.mem_cons_self) (not_le.mpr hlt)
    subst hhead
    rw [List.tail_cons]
    constructor
    · intro hm
      have hlt := (List.pairwise_cons.mp hsorted).1 m hm
      have hmem := hheld.mp (List.mem_cons_of_mem _ hm)
      exact ⟨hmem.1, hmem.2.1, hlt⟩
    · rintro ⟨hm, hlow, hlt⟩
      rcases List.mem_cons.mp (hheld.mpr ⟨hm, hlow, le_of_lt hlt⟩) with rfl | hrest
      · exact absurd hlt (lt_irrefl _)
      · exact hrest

/-- The last one is the lowest. -/
theorem getLast_downFrom {n : MessageBuddy} (hn : n ∈ s.messages.items) (habove : older < n.id) :
    (∀ m ∈ (s.downFrom older n.id).getLast?, m.prev = older) ↔ s.EndsAtOlder older := by
  have hsorted := s.downFrom_descending older n.id
  have hmem : n ∈ s.downFrom older n.id := mem_downFrom.mpr ⟨hn, habove, le_refl _⟩
  have hne := List.ne_nil_of_mem hmem
  rw [List.getLast?_eq_some_getLast hne]
  have hlast := mem_downFrom.mp (List.getLast_mem hne)
  have hlowest : ∀ x ∈ s.messages.items, older < x.id →
      ((s.downFrom older n.id).getLast hne).id ≤ x.id := by
    intro x hx hlow
    by_cases hxn : x.id ≤ n.id
    · have hxd : x ∈ s.downFrom older n.id := mem_downFrom.mpr ⟨hx, hlow, hxn⟩
      obtain ⟨rest, hrest⟩ := List.getLast?_eq_some_iff.mp (List.getLast?_eq_some_getLast hne)
      rw [hrest] at hsorted hxd
      rcases List.mem_append.mp hxd with hx | hx
      · have hlt := (List.pairwise_append.mp hsorted).2.2 x hx _ (List.mem_singleton_self _)
        exact le_of_lt hlt
      · rw [List.mem_singleton.mp hx]
    · exact le_trans hlast.2.2 (le_of_lt (not_le.mp hxn))
  constructor
  · intro h
    exact ⟨_, hlast.1, hlast.2.1, h _ rfl, hlowest⟩
  · rintro ⟨m, hm, hlow, hlink, hmin⟩ x hx
    obtain rfl := Option.some.inj hx
    have hsame : ((s.downFrom older n.id).getLast hne).id = m.id :=
      le_antisymm (hlowest m hm hlow) (hmin _ hlast.1 hlast.2.1)
    rwa [KeyMap.eq_of_key hlast.1 hm hsame]

theorem isVisibleHoleBetween_eq_false {o n : MessageBuddy} (ho : o ∈ s.messages.items)
    (hn : n ∈ s.messages.items) (hlt : o.id < n.id) :
    s.isVisibleHoleBetween o.id n.id = false ↔
      s.OnlyHidden o.id n.id ∧ s.EndsAtOlder o.id := by
  have hheld : (s.containsMsgId o.id && s.containsMsgId n.id) = true := by
    rw [containsMsgId, containsMsgId, KeyMap.find_of_mem ho, KeyMap.find_of_mem hn]
    rfl
  rw [isVisibleHoleBetween, if_neg (ne_of_lt hlt), if_neg (not_lt.mpr (le_of_lt hlt)),
    if_pos hheld]
  refine (holeAbove_eq_false (l := s.downFrom o.id n.id)).trans ?_
  rw [getLast_downFrom hn hlt]
  refine and_congr_left fun _ => forall_congr' fun m => ?_
  rw [mem_tail_downFrom hn hlt]
  exact ⟨fun h hm hlow hup => h ⟨hm, hlow, hup⟩, fun h hm => h hm.1 hm.2.1 hm.2.2⟩

/-- The newest messages that are seen, as many as are loaded at once. -/
def newestVisible (s : History) : List MessageBuddy :=
  ((s.messages.items.reverse.filter (·.isVisibleMessage)).take preloadCount).reverse

/-- No hole is taken for closed. -/
structure HolesReported (s : History) : Prop where
  between : ∀ o ∈ s.messages.items, ∀ n ∈ s.messages.items, o.isVisibleMessage = true →
    n.isVisibleMessage = true → o.id < n.id → s.isVisibleHoleBetween o.id n.id = false →
      s.Chain o.id n.id ∧ s.OnlyHidden o.id n.id
  bottom : s.hasHoleAtBottom = false →
    ∀ p ∈ s.newestVisible.zip s.newestVisible.tail, s.Chain p.1.id p.2.id

theorem newestVisible_ascending (s : History) :
    s.newestVisible.Pairwise fun a b => a.id < b.id := by
  rw [newestVisible, List.pairwise_reverse]
  have hdown : s.messages.items.reverse.Pairwise fun a b => b.id < a.id :=
    List.pairwise_reverse.mpr s.messages.sorted
  exact (hdown.filter _).sublist (List.take_sublist _ _)

theorem mem_newestVisible {m : MessageBuddy} (h : m ∈ s.newestVisible) :
    m ∈ s.messages.items ∧ m.isVisibleMessage = true := by
  have hmem := List.mem_filter.mp (List.mem_of_mem_take (List.mem_reverse.mp h))
  exact ⟨List.mem_reverse.mp hmem.1, hmem.2⟩

theorem lt_of_mem_zip_tail {l : List MessageBuddy} (h : l.Pairwise fun a b => a.id < b.id)
    {p : MessageBuddy × MessageBuddy} (hp : p ∈ l.zip l.tail) : p.1.id < p.2.id := by
  induction l with
  | nil => exact absurd hp List.not_mem_nil
  | cons a l ih =>
    obtain ⟨ha, hl⟩ := List.pairwise_cons.mp h
    cases l with
    | nil => exact absurd hp List.not_mem_nil
    | cons b l =>
      rcases List.mem_cons.mp hp with rfl | hp
      · exact ha b List.mem_cons_self
      · exact ih hl hp

/-- No hole is taken for closed if and only if between no two visible messages, with only hidden
ones between and a link to the older from the lowest above it, a link leads into a gap. -/
theorem holesReported_iff (s : History) : s.HolesReported ↔
    ∀ o ∈ s.messages.items, ∀ n ∈ s.messages.items, o.isVisibleMessage = true →
      n.isVisibleMessage = true → o.id < n.id → s.OnlyHidden o.id n.id → s.EndsAtOlder o.id →
        s.NoLinkIntoGap o.id n.id := by
  constructor
  · intro h o ho n hn hov hnv hlt hhidden hends
    have hhole := (isVisibleHoleBetween_eq_false ho hn hlt).mpr ⟨hhidden, hends⟩
    have hchain := (h.between o ho n hn hov hnv hlt hhole).1
    exact (chain_iff hn hlt hhidden).mp hchain
  · intro h
    have hbetween : ∀ o ∈ s.messages.items, ∀ n ∈ s.messages.items, o.isVisibleMessage = true →
        n.isVisibleMessage = true → o.id < n.id → s.isVisibleHoleBetween o.id n.id = false →
          s.Chain o.id n.id ∧ s.OnlyHidden o.id n.id := by
      intro o ho n hn hov hnv hlt hhole
      obtain ⟨hhidden, hends⟩ := (isVisibleHoleBetween_eq_false ho hn hlt).mp hhole
      have hgap := h o ho n hn hov hnv hlt hhidden hends
      exact ⟨(chain_iff hn hlt hhidden).mpr hgap, hhidden⟩
    refine ⟨hbetween, fun hbottom p hp => ?_⟩
    obtain ⟨ho, hov⟩ := mem_newestVisible (List.of_mem_zip hp).1
    obtain ⟨hn, hnv⟩ := mem_newestVisible (List.mem_of_mem_tail (List.of_mem_zip hp).2)
    have hlt := lt_of_mem_zip_tail s.newestVisible_ascending hp
    have hhole : s.isVisibleHoleBetween p.1.id p.2.id = false :=
      Bool.eq_false_of_not_eq_true (List.any_eq_false.mp hbottom p hp)
    exact (hbetween p.1 ho p.2 hn hov hnv hlt hhole).1

/-- A deleted message between two others, above which a range is missing. -/
def gapAboveDeleted : History :=
  { messages := ⟨[{ id := 10, prev := 5 }, { id := 50, prev := 10, deleted := true },
      { id := 100, prev := 90 }], by decide⟩ }

theorem gap_above_deleted_not_seen : ¬ gapAboveDeleted.HolesReported := by
  intro h
  obtain ⟨hchain, -⟩ := h.between { id := 10, prev := 5 } (by decide) { id := 100, prev := 90 }
    (by decide) rfl rfl (by decide) (by decide)
  rcases hchain.cases_link (by decide) with hlink | ⟨x, hx, hlink, -⟩
  · exact absurd hlink (by decide)
  · have hlost : (90 : Int) ∉ gapAboveDeleted.messages.items.map (·.id) := by decide
    exact hlost (List.mem_map.mpr ⟨x, hx, hlink.symm⟩)

end History

end Icq.Gui
