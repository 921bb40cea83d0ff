import Mathlib.Data.List.Chain
import Mathlib.Order.Lattice

/-! Entries that name the one before them, and what a row of such entries leaves out. -/

namespace Icq.Lib

section

variable {α β : Type*} [LinearOrder α] {there there' known known' : α → Prop} {prev id : α}

/-- What is there in front of an entry is not behind the one it names, or it is known anyway. -/
def Backlink (there known : α → Prop) (prev id : α) : Prop :=
  ∀ m, there m → m < id → m ≤ prev ∨ known m

theorem Backlink.mono (h : Backlink there known prev id)
    (hthere : ∀ m, there' m → m < id → there m) (hknown : ∀ m, there' m → known m → known' m) :
    Backlink there' known' prev id := by
  intro m hm hlt
  exact (h m (hthere m hm hlt) hlt).imp_right (hknown m hm)

variable {key link : β → α} {front : List β} {a : β} {m : α}

/-- In a row of entries where each names the next one, nothing between the first and the last is
unknown. -/
theorem known_of_row (hrow : (front ++ [a]).IsChain fun x y => link x = key y)
    (hknown : ∀ x ∈ front ++ [a], known (key x))
    (hlinks : ∀ x ∈ front, Backlink there known (link x) (key x)) (hm : there m)
    (htop : ∀ top ∈ (front ++ [a]).head?, m ≤ key top) : known m ∨ m < key a := by
  induction front with
  | nil =>
    rcases (htop a (by simp)).eq_or_lt with rfl | hlt
    · exact .inl (hknown a (by simp))
    · exact .inr hlt
  | cons x front ih =>
    rcases (htop x (by simp)).eq_or_lt with rfl | hlt
    · exact .inl (hknown x (by simp))
    · rcases hlinks x (by simp) m hm hlt with hle | hin
      · apply ih hrow.tail
        · exact fun y hy => hknown y (List.mem_cons_of_mem _ hy)
        · exact fun y hy => hlinks y (List.mem_cons_of_mem _ hy)
        · intro top htop
          rwa [← (List.isChain_cons.mp hrow).1 top htop]
      · exact .inl hin

end

end Icq.Lib
