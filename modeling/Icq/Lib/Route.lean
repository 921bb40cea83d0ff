import Mathlib.Data.List.Nodup
import Mathlib.Data.List.Infix
import Mathlib.Order.Lattice

namespace Icq.Lib

variable {α : Type} [DecidableEq α]

/-- Nodes of a chain each name the node below them. Removing a node makes the node right
above it, and no other, take over its link. `route` is where the link of a node leads after
the nodes of `gone` were removed in that order, `below` being the nodes under it from the top. -/
def route (bottom : α) (gone : List α) : List α → α
  | [] => bottom
  | a :: below => if a ∈ gone then route bottom (gone.takeWhile (· != a)) below else a

/-- The topmost node that is still there. -/
def nextKept (bottom : α) (isGone : α → Bool) (below : List α) : α :=
  (below.find? (fun a => !isGone a)).getD bottom

/-- The nodes missing right under a node were all removed by `gone`, the lowest first. -/
def LowestFirst (gone : List α) (run : List α) : Prop :=
  (∀ a ∈ run, a ∈ gone) ∧ run.Pairwise (fun a b => gone.idxOf b < gone.idxOf a)

instance (gone run : List α) : Decidable (LowestFirst gone run) :=
  inferInstanceAs (Decidable (_ ∧ _))

theorem route_nil (bottom : α) (below : List α) :
    route bottom [] below = below.head?.getD bottom := by
  cases below <;> simp [route]

theorem route_mem (bottom : α) (gone below : List α) :
    route bottom gone below = bottom ∨ route bottom gone below ∈ below := by
  induction below generalizing gone with
  | nil => exact Or.inl rfl
  | cons a below ih =>
    unfold route
    split
    · rcases ih (gone.takeWhile (· != a)) with h | h
      · exact Or.inl h
      · exact Or.inr (List.mem_cons_of_mem _ h)
    · exact Or.inr List.mem_cons_self

theorem takeWhile_ne_append {a : α} {gone : List α} (h : a ∈ gone) (more : List α) :
    (gone ++ more).takeWhile (· != a) = gone.takeWhile (· != a) := by
  induction gone with
  | nil => cases h
  | cons c gone ih =>
    by_cases hc : c = a
    · simp [hc]
    · rcases List.mem_cons.mp h with rfl | hm
      · exact absurd rfl hc
      · simp [hc, ih hm]

/-- Removing the node right below hands its link over. -/
theorem route_remove_head {bottom a : α} {gone below : List α} (h : a ∉ gone) :
    route bottom (gone ++ [a]) (a :: below) = route bottom gone below := by
  have ht : (gone ++ [a]).takeWhile (· != a) = gone := by
    induction gone with
    | nil => simp
    | cons c gone ih =>
      have hc : c ≠ a := fun he => h (he ▸ List.mem_cons_self)
      simp [hc, ih (fun hm => h (List.mem_cons_of_mem _ hm))]
  simp [route, ht]

/-- Removing any other node, or the same node again, changes nothing. -/
theorem route_remove_other {bottom x : α} {gone below : List α}
    (h : ∀ a, below.head? = some a → a ≠ x ∨ a ∈ gone) :
    route bottom (gone ++ [x]) below = route bottom gone below := by
  cases below with
  | nil => rfl
  | cons a below =>
    by_cases hm : a ∈ gone
    · simp [route, hm, takeWhile_ne_append hm]
    · have hx : a ≠ x := (h a rfl).resolve_right hm
      simp [route, hm, hx]

theorem mem_takeWhile_ne {a c : α} {gone : List α} :
    c ∈ gone.takeWhile (· != a) ↔ gone.idxOf c < gone.idxOf a := by
  induction gone with
  | nil => simp
  | cons d gone ih =>
    by_cases hd : d = a
    · simp [hd]
    · by_cases hc : d = c
      · have hdc : c ≠ a := fun h => hd (hc.trans h)
        simp [hc, hdc, List.idxOf_cons_ne gone hdc]
      · simp [hd, List.idxOf_cons_ne gone hd, List.idxOf_cons_ne gone hc, Ne.symm hc, ih]

theorem idxOf_prefix {a : α} {gone' gone : List α} (hp : gone' <+: gone) (h : a ∈ gone') :
    gone.idxOf a = gone'.idxOf a := by
  obtain ⟨more, rfl⟩ := hp
  exact List.idxOf_append_of_mem h

theorem route_eq_nextKept_prefix {bottom : α} {isGone : α → Bool} {gone gone' below : List α}
    (hg : ∀ a ∈ gone, isGone a = true) (hp : gone' <+: gone) (hn : below.Nodup)
    (hb : bottom ∉ below) :
    route bottom gone' below = nextKept bottom isGone below ↔
      (∀ a ∈ below.takeWhile isGone, a ∈ gone') ∧
        (below.takeWhile isGone).Pairwise (fun a b => gone.idxOf b < gone.idxOf a) := by
  induction below generalizing gone' with
  | nil => simp [route, nextKept]
  | cons a below ih =>
    obtain ⟨han, hn⟩ := List.nodup_cons.mp hn
    have hba : bottom ≠ a := fun h => hb (h ▸ List.mem_cons_self)
    have hbb : bottom ∉ below := fun h => hb (List.mem_cons_of_mem _ h)
    have hsub : ∀ c ∈ below.takeWhile isGone, c ∈ below := fun c hc =>
      (List.takeWhile_prefix isGone).subset hc
    by_cases ha : a ∈ gone'
    · have hga : isGone a = true := hg a (hp.subset ha)
      have hroute : route bottom gone' (a :: below) =
          route bottom (gone'.takeWhile (· != a)) below := by simp [route, ha]
      have hnext : nextKept bottom isGone (a :: below) = nextKept bottom isGone below := by
        simp [nextKept, hga]
      have hrun : (a :: below).takeWhile isGone = a :: below.takeWhile isGone := by simp [hga]
      have hp' : gone'.takeWhile (· != a) <+: gone := (List.takeWhile_prefix _).trans hp
      rw [hroute, hnext, hrun, ih hp' hn hbb, List.pairwise_cons]
      have hmem : ∀ c, c ∈ gone'.takeWhile (· != a) ↔
          c ∈ gone' ∧ gone.idxOf c < gone.idxOf a := by
        intro c
        rw [mem_takeWhile_ne, idxOf_prefix hp ha]
        constructor
        · intro h
          have hc : c ∈ gone' := List.idxOf_lt_length_iff.mp (lt_of_lt_of_le h List.idxOf_le_length)
          exact ⟨hc, idxOf_prefix hp hc ▸ h⟩
        · rintro ⟨hc, h⟩
          exact idxOf_prefix hp hc ▸ h
      constructor
      · rintro ⟨hall, hpw⟩
        refine ⟨?_, fun c hc => ((hmem c).mp (hall c hc)).2, hpw⟩
        intro c hc
        rcases List.mem_cons.mp hc with rfl | hc
        · exact ha
        · exact ((hmem c).mp (hall c hc)).1
      · rintro ⟨hall, hidx, hpw⟩
        exact ⟨fun c hc => (hmem c).mpr ⟨hall c (List.mem_cons_of_mem _ hc), hidx c hc⟩, hpw⟩
    · have hroute : route bottom gone' (a :: below) = a := by simp [route, ha]
      rw [hroute]
      cases hga : isGone a with
      | false => simp [nextKept, hga]
      | true =>
        have hnext : nextKept bottom isGone (a :: below) = nextKept bottom isGone below := by
          simp [nextKept, hga]
        have hne : a ≠ nextKept bottom isGone below := by
          unfold nextKept
          cases hf : below.find? (fun c => !isGone c) with
          | none => exact Ne.symm hba
          | some c => exact fun h => han (h ▸ List.mem_of_find?_eq_some hf)
        rw [hnext]
        constructor
        · exact fun h => absurd h hne
        · rintro ⟨hall, _⟩
          exact absurd (hall a (by simp [hga])) ha

/-- A link leads to the next node that is kept exactly when the nodes missing in between
were removed from the lowest up. -/
theorem route_eq_nextKept_iff {bottom : α} {isGone : α → Bool} {gone below : List α}
    (hg : ∀ a ∈ gone, isGone a = true) (hn : below.Nodup) (hb : bottom ∉ below) :
    route bottom gone below = nextKept bottom isGone below ↔
      LowestFirst gone (below.takeWhile isGone) :=
  route_eq_nextKept_prefix hg (List.prefix_refl gone) hn hb

section Ordered

variable {κ : Type} [LinearOrder κ]

/-- The keys under `x`, from the top. -/
def belowKeys (ks : List κ) (x : κ) : List κ := (ks.filter (fun k => decide (k < x))).reverse

theorem mem_belowKeys {ks : List κ} {x a : κ} : a ∈ belowKeys ks x ↔ a ∈ ks ∧ a < x := by
  simp [belowKeys]

theorem belowKeys_split {ks lo hi : List κ} {x : κ} (hs : ks.Pairwise (· < ·))
    (he : ks = lo ++ x :: hi) : belowKeys ks x = lo.reverse := by
  subst he
  obtain ⟨_, hr, hc⟩ := List.pairwise_append.mp hs
  have hlo : lo.filter (fun k => decide (k < x)) = lo :=
    List.filter_eq_self.mpr (fun k hk => decide_eq_true (hc k hk x List.mem_cons_self))
  have hhi : hi.filter (fun k => decide (k < x)) = [] := by
    apply List.filter_eq_nil_iff.mpr
    intro k hk
    have := (List.pairwise_cons.mp hr).1 k hk
    simp [le_of_lt this]
  simp [belowKeys, hlo, hhi]

theorem belowKeys_nodup {ks : List κ} {x : κ} (hs : ks.Pairwise (· < ·)) :
    (belowKeys ks x).Nodup :=
  List.nodup_reverse.mpr ((hs.imp (fun h => ne_of_lt h)).filter _)

/-- The keys under `x` begin with the greatest of them. -/
theorem belowKeys_cons {ks : List κ} {x a : κ} (hs : ks.Pairwise (· < ·)) (ha : a ∈ ks)
    (hx : a < x) (hmax : ∀ c ∈ ks, c < x → c ≤ a) : belowKeys ks x = a :: belowKeys ks a := by
  obtain ⟨lo, hi, he⟩ := List.append_of_mem ha
  rw [belowKeys_split hs he]
  subst he
  obtain ⟨_, hr, hc⟩ := List.pairwise_append.mp hs
  have hlo : lo.filter (fun k => decide (k < x)) = lo :=
    List.filter_eq_self.mpr
      (fun k hk => decide_eq_true (lt_trans (hc k hk a List.mem_cons_self) hx))
  have hhi : hi.filter (fun k => decide (k < x)) = [] := by
    apply List.filter_eq_nil_iff.mpr
    intro k hk
    have hak := (List.pairwise_cons.mp hr).1 k hk
    intro hkx
    exact absurd (hmax k (by simp [hk]) (of_decide_eq_true hkx)) (not_le.mpr hak)
  simp [belowKeys, hlo, hhi, hx]

theorem belowKeys_head {ks : List κ} {x a : κ} (hs : ks.Pairwise (· < ·))
    (h : (belowKeys ks x).head? = some a) : a ∈ ks ∧ a < x ∧ ∀ c ∈ ks, c < x → c ≤ a := by
  obtain ⟨tl, he⟩ := List.head?_eq_some_iff.mp h
  obtain ⟨ha, hx⟩ := mem_belowKeys.mp (he ▸ List.mem_cons_self)
  refine ⟨ha, hx, ?_⟩
  intro c hc hcx
  have hp : (belowKeys ks x).Pairwise (fun u v => v < u) :=
    List.pairwise_reverse.mpr (hs.filter _)
  have hm : c ∈ a :: tl := he ▸ mem_belowKeys.mpr ⟨hc, hcx⟩
  rcases List.mem_cons.mp hm with rfl | hm
  · exact le_rfl
  · exact le_of_lt ((List.pairwise_cons.mp (he ▸ hp)).1 c hm)

end Ordered

end Icq.Lib
