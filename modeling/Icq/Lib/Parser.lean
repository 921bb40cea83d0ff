import Icq.Lib.Scalar

namespace Icq.Lib

/-- How a reading step ends: with a value, with a refusal, or at a null pointer. -/
inductive Outcome (α : Type) where
  | ok (a : α)
  | refused
  | crashed
deriving DecidableEq, Repr

instance : Monad Outcome where
  pure a := .ok a
  bind x f :=
    match x with
    | .ok a => f a
    | .refused => .refused
    | .crashed => .crashed

@[simp] theorem Outcome.ok_bind {α β : Type} (a : α) (f : α → Outcome β) :
    (Outcome.ok a >>= f) = f a := rfl

@[simp] theorem Outcome.pure_eq_ok {α : Type} (a : α) : (pure a : Outcome α) = .ok a := rfl

theorem Outcome.bind_eq_ok {α β : Type} {x : Outcome α} {f : α → Outcome β} {b : β}
    (h : x >>= f = .ok b) : ∃ a, x = .ok a ∧ f a = .ok b := by
  cases x with
  | ok a => exact ⟨a, rfl, h⟩
  | refused => cases h
  | crashed => cases h

/-- Use a pointer without looking whether it is null. -/
def Outcome.deref {α : Type} : Option α → Outcome α
  | some a => .ok a
  | none => .crashed

/-- A reader of a byte string that gives back what it left. -/
def Parser (α : Type) := Bytes → Outcome (α × Bytes)

namespace Parser

variable {α β : Type}

instance : Monad Parser where
  pure a := fun bs => .ok (a, bs)
  bind p f := fun bs =>
    match p bs with
    | .ok (a, rest) => f a rest
    | .refused => .refused
    | .crashed => .crashed

def refuse : Parser α := fun _ => .refused

def refuseIf (c : Bool) : Parser Unit := if c then refuse else pure ()

/-- Refuse unless so many bytes are left. -/
def need (n : Nat) : Parser Unit := fun bs => if bs.length < n then .refused else .ok ((), bs)

/-- Read a value without looking whether it is there. -/
def take (α : Type) [Scalar α] : Parser α := fun bs =>
  match Scalar.read α bs with
  | some p => .ok p
  | none => .crashed

def takeBytes (n : Nat) : Parser Bytes := fun bs =>
  if n = 0 ∨ bs.length < n then .crashed else .ok (bs.take n, bs.drop n)

/-- Read a value if the format has it. -/
def takeIf [Scalar α] (c : Bool) (absent : α) : Parser α := if c then take α else pure absent

theorem pure_apply (a : α) (bs : Bytes) : (pure a : Parser α) bs = .ok (a, bs) := rfl

theorem bind_ok {p : Parser α} {f : α → Parser β} {bs rest : Bytes} {a : α}
    (h : p bs = .ok (a, rest)) : (p >>= f) bs = f a rest := by
  change (match p bs with | .ok (a, rest) => f a rest | .refused => .refused | .crashed => .crashed) = _
  rw [h]

theorem bind_refused {p : Parser α} {f : α → Parser β} {bs : Bytes} (h : p bs = .refused) :
    (p >>= f) bs = .refused := by
  change (match p bs with | .ok (a, rest) => f a rest | .refused => .refused | .crashed => .crashed) = _
  rw [h]

/-- A reader that succeeded read its first step with success. -/
theorem bind_eq_ok {p : Parser α} {f : α → Parser β} {bs rest : Bytes} {b : β}
    (h : (p >>= f) bs = .ok (b, rest)) : ∃ a mid, p bs = .ok (a, mid) ∧ f a mid = .ok (b, rest) := by
  change (match p bs with | .ok (a, rest) => f a rest | .refused => .refused | .crashed => .crashed) = _
    at h
  cases hp : p bs with
  | ok r => exact ⟨r.1, r.2, rfl, by simpa [hp] using h⟩
  | refused => simp [hp] at h
  | crashed => simp [hp] at h

theorem need_ok {n : Nat} {bs : Bytes} (h : n ≤ bs.length) : need n bs = .ok ((), bs) := by
  simp [need, Nat.not_lt.mpr h]

theorem need_refused {n : Nat} {bs : Bytes} (h : bs.length < n) : need n bs = .refused :=
  if_pos h

theorem refuseIf_eq_ok {c : Bool} {bs rest : Bytes} {u : Unit}
    (h : refuseIf c bs = .ok (u, rest)) : c = false ∧ rest = bs := by
  cases c with
  | false =>
    simp only [refuseIf, Bool.false_eq_true, if_false, pure_apply, Outcome.ok.injEq,
      Prod.mk.injEq] at h
    exact ⟨rfl, h.2.symm⟩
  | true => cases h

theorem refuseIf_false (bs : Bytes) : refuseIf false bs = .ok ((), bs) := rfl

theorem take_encode [Scalar α] (a : α) (rest : Bytes) :
    take α (Scalar.encode a ++ rest) = .ok (a, rest) := by
  simp [take]

theorem take_ok [Scalar α] {bs : Bytes} (h : Scalar.width α ≤ bs.length) :
    take α bs = .ok (Scalar.decode bs, bs.drop (Scalar.width α)) := by
  rw [take, Scalar.read_isSome h]

theorem takeBytes_ok {n : Nat} {bs : Bytes} (h0 : n ≠ 0) (hn : n ≤ bs.length) :
    takeBytes n bs = .ok (bs.take n, bs.drop n) := by
  rw [takeBytes, if_neg]
  exact fun h => h.elim h0 (Nat.not_lt.mpr hn)

theorem takeBytes_append {n : Nat} {data rest : Bytes} (hn : data.length = n) (h0 : n ≠ 0) :
    takeBytes n (data ++ rest) = .ok (data, rest) := by
  have hl : ¬ (n = 0 ∨ (data ++ rest).length < n) := by simp [h0, hn]
  rw [takeBytes, if_neg hl, List.take_left' hn, List.drop_left' hn]

/-- A reader of so many bytes that does not look whether they are there. -/
def Takes (p : Parser α) (n : Nat) : Prop :=
  ∀ bs : Bytes, (n ≤ bs.length → ∃ a, p bs = .ok (a, bs.drop n)) ∧ (bs.length < n → p bs = .crashed)

theorem bind_crashed {p : Parser α} {f : α → Parser β} {bs : Bytes} (h : p bs = .crashed) :
    (p >>= f) bs = .crashed := by
  change (match p bs with | .ok (a, rest) => f a rest | .refused => .refused | .crashed => .crashed) = _
  rw [h]

theorem Takes.pure (a : α) : Takes (Pure.pure a : Parser α) 0 :=
  fun _ => ⟨fun _ => ⟨a, rfl⟩, fun h => absurd h (Nat.not_lt_zero _)⟩

theorem Takes.take (α : Type) [Scalar α] : Takes (take α) (Scalar.width α) := by
  intro bs
  refine ⟨fun h => ⟨_, take_ok h⟩, fun h => ?_⟩
  simp only [Parser.take, Scalar.read, if_pos h]

theorem Takes.takeIf [Scalar α] (c : Bool) (absent : α) :
    Takes (takeIf c absent) (if c then Scalar.width α else 0) := by
  cases c with
  | true => exact Takes.take α
  | false => exact Takes.pure absent

/-- Two such readers after each other are one. -/
theorem Takes.bind {p : Parser α} {f : α → Parser β} {n m : Nat} (hp : Takes p n)
    (hf : ∀ a, Takes (f a) m) : Takes (p >>= f) (n + m) := by
  intro bs
  by_cases hn : n ≤ bs.length
  · obtain ⟨a, ha⟩ := (hp bs).1 hn
    have hdrop : (bs.drop n).length = bs.length - n := List.length_drop
    rw [bind_ok ha]
    refine ⟨fun h => ?_, fun h => (hf a _).2 (by omega)⟩
    obtain ⟨b, hb⟩ := (hf a (bs.drop n)).1 (by omega)
    exact ⟨b, by rw [hb, List.drop_drop]⟩
  · exact ⟨fun h => absurd h (by omega), fun _ => bind_crashed ((hp bs).2 (Nat.not_le.mp hn))⟩

theorem refuseIf_true (bs : Bytes) : refuseIf true bs = .refused := rfl

end Parser

end Icq.Lib
