import Icq.Lib.LastOf
import Mathlib.Tactic.Ring

/-! Punycode: a text whose other code points are written behind the basic ones, as the steps from
one insertion to the next. -/

namespace Icq.Lib.Punycode

def encodeDigit (digit : Nat) : Nat := if digit < 26 then 0x61 + digit else 0x30 - 26 + digit

def decodeDigit (c : Nat) : Option Nat :=
  if 0x61 ≤ c ∧ c ≤ 0x7A then some (c - 0x61)
  else if 0x41 ≤ c ∧ c ≤ 0x5A then some (c - 0x41)
  else if 0x30 ≤ c ∧ c ≤ 0x39 then some (c - 0x30 + 26)
  else none

/-- Digits below the threshold of their place are the last of a number. -/
def threshold (bias k : Nat) : Nat :=
  if k ≤ bias then 1 else if bias + 26 ≤ k then 26 else k - bias

def adaptLoop : Nat → Nat → Nat → Nat × Nat
  | 0, delta, count => (delta, count)
  | fuel + 1, delta, count =>
    if 455 < delta then adaptLoop fuel (delta / 35) (count + 36) else (delta, count)

def adaptBias (delta length : Nat) (firstTime : Bool) : Nat :=
  let delta := if firstTime then delta / 700 else delta / 2
  let delta := delta + delta / length
  let r := adaptLoop delta delta 0
  r.2 + 36 * r.1 / (r.1 + 38)

/-- A number with digits of a different base at each place, the lowest first. -/
def encodeDelta : Nat → Nat → Nat → Nat → List Nat
  | 0, _, _, q => [encodeDigit q]
  | fuel + 1, bias, k, q =>
    let t := threshold bias k
    if q < t then [encodeDigit q]
    else
      encodeDigit (t + (q - t) % (36 - t)) ::
        encodeDelta fuel bias (k + 36) ((q - t) / (36 - t))

/-- What was decoded: the code point and the place of the next insertion at the least, and the
number that is being read from `oldI` on. -/
structure Decoder where
  n : Nat := 128
  i : Nat := 0
  bias : Nat := 72
  output : List Nat
  oldI : Nat := 0
  k : Nat := 36
  w : Nat := 1

namespace Decoder

/-- Insert a code point where a whole number says. -/
def insert (s : Decoder) (i : Nat) : Decoder :=
  let length := s.output.length + 1
  let n := s.n + i / length
  { n, i := i % length + 1, oldI := i % length + 1
    bias := adaptBias (i - s.oldI) length (s.oldI = 0)
    output := s.output.insertIdx (i % length) n }

def step (s : Decoder) (c : Nat) : Option Decoder :=
  (decodeDigit c).map fun digit =>
    let i := s.i + digit * s.w
    let t := threshold s.bias s.k
    if digit < t then s.insert i else { s with i, k := s.k + 36, w := s.w * (36 - t) }

end Decoder

/-- The text of a code, if it is one. -/
def decode (input : List Nat) : Option (List Nat) :=
  let front := if 0x2D ∈ input then upToLast 0x2D input else []
  let rest := if front.isEmpty then input else behindLast 0x2D input
  if front.all fun c => decide (c < 128) then
    (rest.foldlM Decoder.step { output := front }).bind fun s =>
      if s.k = 36 then some s.output else none
  else none

structure Encoder where
  n : Nat := 128
  delta : Nat := 0
  bias : Nat := 72
  handled : Nat
  output : List Nat := []

section Encode

variable (room basic limit : Nat) (cps : List Nat)

def Encoder.scan (s : Encoder) (q : Nat) : Encoder :=
  if q < s.n then { s with delta := s.delta + 1 }
  else if q = s.n then
    { s with
      delta := 0, handled := s.handled + 1
      bias := adaptBias s.delta (s.handled + 1) (s.handled = basic)
      output := s.output ++ encodeDelta s.delta s.bias 36 s.delta }
  else s

/-- The least code point that is not below `n`. -/
def nextAbove (n : Nat) : Nat :=
  cps.foldl (fun m q => if n ≤ q ∧ q < m then q else m) 0x7FFFFFFF

/-- The code points in ascending order, until so many are handled; a step without room ends it. -/
def encodeLoop : Nat → Encoder → Option Encoder
  | 0, _ => none
  | fuel + 1, s =>
    if s.handled < limit then
      let m := nextAbove cps s.n
      if (room - s.delta) / (s.handled + 1) < m - s.n then none
      else
        let s := cps.foldl (Encoder.scan basic)
          { s with delta := s.delta + (m - s.n) * (s.handled + 1), n := m }
        encodeLoop fuel { s with delta := s.delta + 1, n := s.n + 1 }
    else some s

end Encode

def below (n : Nat) (cps : List Nat) : List Nat := cps.filter fun q => decide (q < n)

def upTo (n : Nat) (cps : List Nat) : List Nat := cps.filter fun q => decide (q ≤ n)

def basics (cps : List Nat) : List Nat := below 128 cps

/-- The basic code points with a hyphen behind them, if there are any. -/
def encodeBasics (cps : List Nat) : List Nat :=
  if (basics cps).isEmpty then [] else basics cps ++ [0x2D]

/-- The code of a text. -/
def encode (room : Nat) (cps : List Nat) : Option (List Nat) :=
  let basic := (basics cps).length
  (encodeLoop room basic cps.length cps (cps.length + 1) { handled := basic }).map fun s =>
    encodeBasics cps ++ s.output

section Digits

variable {digit fuel bias k q : Nat}

theorem decodeDigit_encodeDigit (h : digit < 36) : decodeDigit (encodeDigit digit) = some digit := by
  rw [encodeDigit]
  by_cases hletter : digit < 26
  · rw [if_pos hletter, decodeDigit, if_pos (by omega), Nat.add_sub_cancel_left]
  · rw [if_neg hletter, decodeDigit, if_neg (by omega), if_neg (by omega), if_pos (by omega)]
    exact congrArg some (by omega)

theorem threshold_bounds (bias k : Nat) : 1 ≤ threshold bias k ∧ threshold bias k ≤ 26 := by
  rw [threshold]
  split
  · omega
  · split <;> omega

theorem rest_lt (hq : threshold bias k ≤ q) :
    (q - threshold bias k) / (36 - threshold bias k) < q := by
  have ht := threshold_bounds bias k
  exact lt_of_le_of_lt (Nat.div_le_self _ _) (by omega)

theorem digit_lt (bias k q : Nat) :
    threshold bias k + (q - threshold bias k) % (36 - threshold bias k) < 36 := by
  have ht := threshold_bounds bias k
  have hmod := Nat.mod_lt (q - threshold bias k) (show 0 < 36 - threshold bias k by omega)
  omega

namespace Decoder

variable {s : Decoder}

theorem step_encodeDigit (h : digit < 36) : s.step (encodeDigit digit) =
    some (if digit < threshold s.bias s.k then s.insert (s.i + digit * s.w)
      else { s with
        i := s.i + digit * s.w, k := s.k + 36, w := s.w * (36 - threshold s.bias s.k) }) := by
  rw [step, decodeDigit_encodeDigit h]
  rfl

/-- A number is read digit by digit, and what it says is inserted. -/
theorem foldlM_encodeDelta (s : Decoder) (hq : q ≤ fuel) :
    (encodeDelta fuel s.bias s.k q).foldlM step s = some (s.insert (s.i + q * s.w)) := by
  have ht := threshold_bounds s.bias s.k
  induction fuel generalizing s q with
  | zero =>
    rw [encodeDelta, List.foldlM_cons, step_encodeDigit (by omega), if_pos (by omega)]
    rfl
  | succ fuel ih =>
    rw [encodeDelta]
    by_cases hlast : q < threshold s.bias s.k
    · rw [if_pos hlast, List.foldlM_cons, step_encodeDigit (by omega), if_pos hlast]
      rfl
    · rw [if_neg hlast, List.foldlM_cons, step_encodeDigit (digit_lt _ _ _), if_neg (by omega)]
      have hless := rest_lt (not_lt.mp hlast)
      have hrest := ih (q := (q - threshold s.bias s.k) / (36 - threshold s.bias s.k)) { s with
        i := s.i + (threshold s.bias s.k +
          (q - threshold s.bias s.k) % (36 - threshold s.bias s.k)) * s.w
        k := s.k + 36, w := s.w * (36 - threshold s.bias s.k) } (by omega) (threshold_bounds _ _)
      refine hrest.trans (congrArg some ?_)
      have hvalue : q = threshold s.bias s.k +
          (q - threshold s.bias s.k) % (36 - threshold s.bias s.k) +
            (q - threshold s.bias s.k) / (36 - threshold s.bias s.k) *
              (36 - threshold s.bias s.k) := by
        have hdiv := Nat.mod_add_div' (q - threshold s.bias s.k) (36 - threshold s.bias s.k)
        omega
      have hsum : s.i + (threshold s.bias s.k +
          (q - threshold s.bias s.k) % (36 - threshold s.bias s.k)) * s.w +
            (q - threshold s.bias s.k) / (36 - threshold s.bias s.k) *
              (s.w * (36 - threshold s.bias s.k)) = s.i + q * s.w := by
        conv_rhs => rw [hvalue]
        ring
      dsimp only
      rw [hsum]
      rfl

end Decoder

end Digits

section Filters

variable {n q : Nat} {seen rest cps : List Nat}

theorem below_cons_of_lt (h : q < n) : below n (q :: rest) = q :: below n rest :=
  List.filter_cons_of_pos (decide_eq_true h)

theorem below_cons_of_le (h : n ≤ q) : below n (q :: rest) = below n rest :=
  List.filter_cons_of_neg fun hlt => not_lt.mpr h (of_decide_eq_true hlt)

theorem upTo_concat_of_le (seen : List Nat) (h : q ≤ n) :
    upTo n (seen ++ [q]) = upTo n seen ++ [q] := by
  rw [upTo, List.filter_append]
  exact congrArg _ (List.filter_cons_of_pos (decide_eq_true h))

theorem upTo_concat_of_lt (seen : List Nat) (h : n < q) : upTo n (seen ++ [q]) = upTo n seen := by
  have hdrop : [q].filter (fun q => decide (q ≤ n)) = [] :=
    List.filter_cons_of_neg fun hle => not_le.mpr h (of_decide_eq_true hle)
  rw [upTo, List.filter_append, hdrop, List.append_nil]
  rfl

theorem upTo_eq_below (n : Nat) (cps : List Nat) : upTo n cps = below (n + 1) cps :=
  List.filter_congr fun _ _ => decide_eq_decide.mpr Nat.lt_succ_iff.symm

theorem mem_below : q ∈ below n cps ↔ q ∈ cps ∧ q < n := by
  rw [below, List.mem_filter, decide_eq_true_iff]

theorem below_below {m : Nat} (h : m ≤ n) (cps : List Nat) : below m (below n cps) = below m cps := by
  rw [below, below, below, List.filter_filter]
  refine List.filter_congr fun q _ => ?_
  rw [← Bool.decide_and]
  exact decide_eq_decide.mpr ⟨And.left, fun hq => ⟨hq, lt_of_lt_of_le hq h⟩⟩

theorem below_mono {m : Nat} (h : m ≤ n) (cps : List Nat) :
    (below m cps).length ≤ (below n cps).length := by
  rw [← below_below h cps]
  exact List.length_filter_le _ _

theorem below_length_le_iff {m : Nat} (h : n ≤ m) :
    (below m cps).length ≤ (below n cps).length ↔ ∀ q ∈ cps, q < m → q < n := by
  have hsub : below n cps = (below m cps).filter fun q => decide (q < n) := (below_below h cps).symm
  constructor
  · intro hle q hq hlt
    rw [hsub] at hle
    have hall := List.length_filter_eq_length_iff.mp (le_antisymm (List.length_filter_le _ _) hle)
    exact of_decide_eq_true (hall q (mem_below.mpr ⟨hq, hlt⟩))
  · intro hall
    rw [hsub, List.filter_eq_self.mpr]
    exact fun q hq => decide_eq_true (hall q (mem_below.mp hq).1 (mem_below.mp hq).2)

end Filters

theorem insertIdx_middle {α : Type} (front rest : List α) (x : α) :
    (front ++ rest).insertIdx front.length x = front ++ x :: rest := by
  induction front with
  | nil => rfl
  | cons y front ih => exact congrArg (y :: ·) ih

/-- Where an encoder is that has seen some of the code points, the decoder of its output has those
up to `n` of them and those below `n` of the rest. -/
structure Synced (basic : Nat) (start : Decoder) (seen rest : List Nat) (s : Encoder)
    (d : Decoder) : Prop where
  read : s.output.foldlM Decoder.step start = some d
  text : d.output = upTo s.n seen ++ below s.n rest
  handled : s.handled = d.output.length
  place : d.n * (s.handled + 1) + d.i + s.delta =
    s.n * (s.handled + 1) + (upTo s.n seen).length
  bias : d.bias = s.bias
  oldI : d.oldI = d.i
  k : d.k = 36
  w : d.w = 1
  fresh : d.oldI = 0 ↔ s.handled = basic
  low : basic ≤ s.handled

section Scan

variable {room basic limit n q : Nat} {start d : Decoder} {seen rest cps : List Nat} {s : Encoder}

theorem Synced.scan_below (h : Synced basic start seen (q :: rest) s d) (hq : q < s.n) :
    Synced basic start (seen ++ [q]) rest { s with delta := s.delta + 1 } d := by
  have hseen := upTo_concat_of_le seen (le_of_lt hq)
  refine { h with text := ?_, place := ?_ }
  · rw [hseen, h.text, below_cons_of_lt hq, List.append_assoc]
    rfl
  · have hplace := h.place
    rw [hseen, List.length_append, List.length_singleton]
    dsimp only
    omega

theorem Synced.scan_above (h : Synced basic start seen (q :: rest) s d) (hq : s.n < q) :
    Synced basic start (seen ++ [q]) rest s d := by
  have hseen := upTo_concat_of_lt seen hq
  refine { h with text := ?_, place := ?_ }
  · rw [hseen, h.text, below_cons_of_le (le_of_lt hq)]
  · rw [hseen]
    exact h.place

/-- The number of steps leads from the place behind the last insertion to this one. -/
theorem Synced.insert (h : Synced basic start seen (q :: rest) s d) (hq : q = s.n) :
    d.insert (d.i + s.delta) =
      { n := s.n, i := (upTo s.n seen).length + 1, oldI := (upTo s.n seen).length + 1
        bias := adaptBias s.delta (s.handled + 1) (s.handled = basic)
        output := upTo s.n seen ++ q :: below s.n rest } := by
  have htext := h.text
  rw [below_cons_of_le (le_of_eq hq.symm)] at htext
  have hplace := h.place
  generalize upTo s.n seen = front at htext hplace ⊢
  have hlength : front.length ≤ s.handled := by
    rw [h.handled, htext, List.length_append]
    exact Nat.le_add_right _ _
  have hn : d.n ≤ s.n := by
    by_contra hlt
    have hmul := Nat.mul_le_mul_right (s.handled + 1) (Nat.succ_le_of_lt (not_le.mp hlt))
    rw [Nat.succ_mul] at hmul
    omega
  have hsum : d.i + s.delta = (s.handled + 1) * (s.n - d.n) + front.length := by
    have hmul := Nat.sub_mul s.n d.n (s.handled + 1)
    have hle := Nat.mul_le_mul_right (s.handled + 1) hn
    rw [Nat.mul_comm (s.handled + 1)]
    omega
  have hdiv : (d.i + s.delta) / (s.handled + 1) = s.n - d.n := by
    rw [hsum, Nat.mul_add_div (Nat.succ_pos _), Nat.div_eq_of_lt (by omega), Nat.add_zero]
  have hmod : (d.i + s.delta) % (s.handled + 1) = front.length := by
    rw [hsum, Nat.mul_add_mod, Nat.mod_eq_of_lt (by omega)]
  have hfirst : decide (d.oldI = 0) = decide (s.handled = basic) := decide_eq_decide.mpr h.fresh
  rw [Decoder.insert, ← h.handled, hdiv, hmod, hfirst, htext, Nat.add_sub_cancel' hn,
    insertIdx_middle, h.oldI, Nat.add_sub_cancel_left, hq]

theorem Synced.scan_here (h : Synced basic start seen (q :: rest) s d) (hq : q = s.n) :
    Synced basic start (seen ++ [q]) rest
      { s with
        delta := 0, handled := s.handled + 1
        bias := adaptBias s.delta (s.handled + 1) (s.handled = basic)
        output := s.output ++ encodeDelta s.delta s.bias 36 s.delta }
      (d.insert (d.i + s.delta)) := by
  have hseen := upTo_concat_of_le seen (le_of_eq hq)
  have hread := Decoder.foldlM_encodeDelta d (le_refl s.delta)
  rw [h.bias, h.k, h.w, Nat.mul_one] at hread
  have hlength : s.handled = (upTo s.n seen).length + (below s.n rest).length := by
    rw [h.handled, h.text, below_cons_of_le (le_of_eq hq.symm), List.length_append]
  have hlow := h.low
  rw [h.insert hq] at hread ⊢
  refine ⟨?_, ?_, ?_, ?_, rfl, rfl, rfl, rfl, ?_, ?_⟩
  · rw [List.foldlM_append, h.read]
    exact hread
  · rw [hseen, List.append_assoc]
    rfl
  · dsimp only
    rw [List.length_append, List.length_cons]
    omega
  · rw [hseen, List.length_append, List.length_singleton]
    dsimp only
    omega
  · dsimp only
    omega
  · dsimp only
    omega

theorem Synced.scan (h : Synced basic start seen (q :: rest) s d) :
    ∃ d', Synced basic start (seen ++ [q]) rest (s.scan basic q) d' := by
  rw [Encoder.scan]
  by_cases hbelow : q < s.n
  · rw [if_pos hbelow]
    exact ⟨d, h.scan_below hbelow⟩
  · rw [if_neg hbelow]
    by_cases hhere : q = s.n
    · rw [if_pos hhere]
      exact ⟨_, h.scan_here hhere⟩
    · rw [if_neg hhere]
      exact ⟨d, h.scan_above (lt_of_le_of_ne (not_lt.mp hbelow) (Ne.symm hhere))⟩

theorem Synced.scan_all (h : Synced basic start seen rest s d) :
    ∃ d', Synced basic start (seen ++ rest) [] (rest.foldl (Encoder.scan basic) s) d' := by
  induction rest generalizing seen s d with
  | nil => exact ⟨d, by rwa [List.append_nil]⟩
  | cons q rest ih =>
    obtain ⟨d', hd'⟩ := h.scan
    rw [List.append_cons]
    exact ih hd'

theorem scan_n (basic : Nat) (s : Encoder) (rest : List Nat) :
    (rest.foldl (Encoder.scan basic) s).n = s.n := by
  induction rest generalizing s with
  | nil => rfl
  | cons q rest ih =>
    rw [List.foldl_cons, ih, Encoder.scan]
    split
    · rfl
    · split <;> rfl

theorem foldl_nextAbove (n m : Nat) (l : List Nat) :
    let r := l.foldl (fun m q => if n ≤ q ∧ q < m then q else m) m
    (r = m ∨ r ∈ l ∧ n ≤ r) ∧ r ≤ m ∧ ∀ q ∈ l, n ≤ q → r ≤ q := by
  induction l generalizing m with
  | nil => exact ⟨.inl rfl, le_refl m, fun q hq => absurd hq List.not_mem_nil⟩
  | cons x l ih =>
    dsimp only
    rw [List.foldl_cons]
    obtain ⟨hmem, hle, hleast⟩ := ih (if n ≤ x ∧ x < m then x else m)
    by_cases hx : n ≤ x ∧ x < m
    · rw [if_pos hx] at hmem hle hleast ⊢
      refine ⟨.inr ?_, le_trans hle (le_of_lt hx.2), List.forall_mem_cons.mpr ⟨fun _ => hle, hleast⟩⟩
      rcases hmem with heq | ⟨hmem, hn⟩
      · rw [heq]
        exact ⟨List.mem_cons_self, hx.1⟩
      · exact ⟨List.mem_cons_of_mem _ hmem, hn⟩
    · rw [if_neg hx] at hmem hle hleast ⊢
      refine ⟨hmem.imp_right fun h => ⟨List.mem_cons_of_mem _ h.1, h.2⟩, hle,
        List.forall_mem_cons.mpr ⟨fun hn => ?_, hleast⟩⟩
      exact le_trans hle (not_lt.mp fun hlt => hx ⟨hn, hlt⟩)

/-- The least of those that are not below `n`. -/
theorem nextAbove_spec (hsmall : ∀ q ∈ cps, q < 0x7FFFFFFF) (hex : ∃ q ∈ cps, n ≤ q) :
    nextAbove cps n ∈ cps ∧ n ≤ nextAbove cps n ∧ ∀ q ∈ cps, n ≤ q → nextAbove cps n ≤ q := by
  obtain ⟨hmem, -, hleast⟩ := foldl_nextAbove n 0x7FFFFFFF cps
  obtain ⟨q, hq, hn⟩ := hex
  rcases hmem with heq | ⟨hmem, habove⟩
  · have hless := hleast q hq hn
    rw [heq] at hless
    exact absurd (hsmall q hq) (not_lt.mpr hless)
  · exact ⟨hmem, habove, hleast⟩

/-- Between two rounds everything below `n` is decoded. -/
theorem Synced.round (h : Synced basic start [] cps s d) {m : Nat} (hm : s.n ≤ m)
    (hnone : ∀ q ∈ cps, q < m → q < s.n) :
    let s' := cps.foldl (Encoder.scan basic)
      { s with delta := s.delta + (m - s.n) * (s.handled + 1), n := m }
    ∃ d', Synced basic start [] cps { s' with delta := s'.delta + 1, n := s'.n + 1 } d' := by
  have hbelow : below m cps = below s.n cps := List.filter_congr fun q hq =>
    decide_eq_decide.mpr ⟨hnone q hq, fun hlt => lt_of_lt_of_le hlt hm⟩
  have hjump : Synced basic start [] cps
      { s with delta := s.delta + (m - s.n) * (s.handled + 1), n := m } d := by
    refine { h with text := ?_, place := ?_ }
    · rw [h.text, hbelow]
      rfl
    · have hplace := h.place
      have hmul := Nat.sub_mul m s.n (s.handled + 1)
      have hle := Nat.mul_le_mul_right (s.handled + 1) hm
      dsimp only [upTo, List.filter_nil, List.length_nil] at hplace ⊢
      omega
  obtain ⟨d', hd'⟩ := hjump.scan_all
  rw [List.nil_append] at hd'
  have htext := hd'.text
  have hplace := hd'.place
  have hhandled := hd'.handled
  have hnil : below (cps.foldl (Encoder.scan basic)
      { s with delta := s.delta + (m - s.n) * (s.handled + 1), n := m }).n [] = [] := rfl
  rw [hnil, List.append_nil] at htext
  rw [htext] at hhandled
  refine ⟨d', { hd' with text := ?_, place := ?_ }⟩
  · rw [htext, upTo_eq_below]
    rfl
  · dsimp only [upTo, List.filter_nil, List.length_nil]
    rw [← hhandled] at hplace
    rw [Nat.succ_mul]
    omega

theorem Synced.handled_round (h : Synced basic start [] cps s d) :
    s.handled = (below s.n cps).length := by
  rw [h.handled, h.text]
  rfl

/-- There is room for each step as long as there is for the greatest code point. -/
theorem Synced.hasRoom (h : Synced basic start [] cps s d) {m : Nat} (hmem : m ∈ cps) (hm : s.n ≤ m)
    (hroom : ∀ q ∈ cps, q * (cps.length + 1) ≤ room) :
    ¬ (room - s.delta) / (s.handled + 1) < m - s.n := by
  have hplace := h.place
  have hhandled : s.handled ≤ cps.length := by
    rw [h.handled_round]
    exact List.length_filter_le _ _
  have hle : m * (s.handled + 1) ≤ m * (cps.length + 1) :=
    Nat.mul_le_mul_left m (Nat.succ_le_succ hhandled)
  have hmul := Nat.sub_mul m s.n (s.handled + 1)
  have hn := Nat.mul_le_mul_right (s.handled + 1) hm
  have hbound := hroom m hmem
  dsimp only [upTo, List.filter_nil, List.length_nil] at hplace
  rw [not_lt, Nat.le_div_iff_mul_le (show 0 < s.handled + 1 by omega)]
  omega

/-- The loop ends with everything decoded below some `n`: as much as the limit asks for, and nothing
in front of which the limit was reached. -/
theorem Synced.loop {fuel : Nat} (h : Synced basic start [] cps s d)
    (hfuel : cps.length < fuel + s.handled) (hlimit : limit ≤ cps.length)
    (hsmall : ∀ q ∈ cps, q < 0x7FFFFFFF) (hroom : ∀ q ∈ cps, q * (cps.length + 1) ≤ room) :
    ∃ s' d', encodeLoop room basic limit cps fuel s = some s' ∧ Synced basic start [] cps s' d' ∧
      s.n ≤ s'.n ∧ limit ≤ s'.handled ∧
        ∀ q ∈ cps, q < s'.n → q < s.n ∨ (below q cps).length < limit := by
  induction fuel generalizing s d with
  | zero =>
    have hle : s.handled ≤ cps.length := by
      rw [h.handled_round]
      exact List.length_filter_le _ _
    omega
  | succ fuel ih =>
    rw [encodeLoop]
    by_cases hmore : s.handled < limit
    · have hex : ∃ q ∈ cps, s.n ≤ q := by
        by_contra hnone
        have hall : below s.n cps = cps := List.filter_eq_self.mpr fun q hq =>
          decide_eq_true (not_le.mp fun hle => hnone ⟨q, hq, hle⟩)
        have hhandled := h.handled_round
        rw [hall] at hhandled
        omega
      obtain ⟨hmem, hm, hleast⟩ := nextAbove_spec hsmall hex
      have hnone : ∀ q ∈ cps, q < nextAbove cps s.n → q < s.n := fun q hq hlt =>
        not_le.mp fun hle => not_lt.mpr (hleast q hq hle) hlt
      obtain ⟨d', hd'⟩ := h.round hm hnone
      rw [if_pos hmore, if_neg (h.hasRoom hmem hm hroom)]
      dsimp only at hd' ⊢
      have hn := scan_n basic { s with
        delta := s.delta + (nextAbove cps s.n - s.n) * (s.handled + 1), n := nextAbove cps s.n } cps
      generalize cps.foldl (Encoder.scan basic) { s with
        delta := s.delta + (nextAbove cps s.n - s.n) * (s.handled + 1)
        n := nextAbove cps s.n } = t at hd' hn ⊢
      dsimp only at hn
      have hgrown : s.handled < t.handled := by
        have hbelow := hd'.handled_round
        dsimp only at hbelow
        rw [h.handled_round, hbelow, hn]
        refine not_le.mp fun hle => ?_
        have hall := (below_length_le_iff (Nat.le_succ_of_le hm)).mp hle
        exact not_lt.mpr hm (hall _ hmem (Nat.lt_succ_self _))
      obtain ⟨s', d'', hloop, hsynced, hgrows, hreached, hlate⟩ := ih hd' (by dsimp only; omega)
      refine ⟨s', d'', hloop, hsynced, ?_, hreached, fun q hq hlt => ?_⟩
      · rw [hn] at hgrows
        exact le_trans (Nat.le_succ_of_le hm) hgrows
      rcases hlate q hq hlt with hlt | hlt
      · rw [hn] at hlt
        rcases lt_or_ge q s.n with hold | hold
        · exact .inl hold
        · have heq : q = nextAbove cps s.n :=
            le_antisymm (Nat.lt_succ_iff.mp hlt) (hleast q hq hold)
          refine .inr (lt_of_le_of_lt ?_ hmore)
          rw [h.handled_round, heq]
          exact (below_length_le_iff hm).mpr hnone
      · exact .inr hlt
    · rw [if_neg hmore]
      exact ⟨s, d, rfl, h, le_refl _, not_lt.mp hmore, fun q _ hlt => .inl hlt⟩

end Scan

section Decode

variable {room limit : Nat} {cps out : List Nat} {s : Encoder} {d start : Decoder}

theorem digits_of_read (h : out.foldlM Decoder.step start = some d) :
    ∀ c ∈ out, ∃ digit, decodeDigit c = some digit := by
  induction out generalizing start with
  | nil => exact fun c hc => absurd hc List.not_mem_nil
  | cons c out ih =>
    obtain ⟨next, hnext, hrest⟩ := Option.bind_eq_some_iff.mp h
    obtain ⟨digit, hdigit, -⟩ := Option.map_eq_some_iff.mp hnext
    exact List.forall_mem_cons.mpr ⟨⟨digit, hdigit⟩, ih hrest⟩

theorem hyphen_notMem (h : out.foldlM Decoder.step start = some d) : 0x2D ∉ out := by
  intro hmem
  obtain ⟨digit, hdigit⟩ := digits_of_read h _ hmem
  exact nomatch hdigit

/-- The basic code points are those in front of the hyphen that no digit is. -/
theorem decode_encodeBasics (cps : List Nat)
    (h : out.foldlM Decoder.step { output := basics cps } = some d) (hk : d.k = 36) :
    decode (encodeBasics cps ++ out) = some d.output := by
  have hhyphen := hyphen_notMem h
  have hbasic : (basics cps).all (fun c => decide (c < 128)) = true :=
    List.all_eq_true.mpr fun c hc => decide_eq_true (mem_below.mp hc).2
  rw [encodeBasics]
  by_cases hempty : (basics cps).isEmpty = true
  · have hnil := List.isEmpty_iff.mp hempty
    rw [hnil] at h
    rw [if_pos hempty, List.nil_append, decode, if_neg hhyphen]
    refine (if_pos rfl).trans ?_
    rw [if_pos (List.isEmpty_iff.mpr rfl), h, Option.bind_some, if_pos hk]
  · have hmem : 0x2D ∈ basics cps ++ 0x2D :: out := List.mem_append_right _ List.mem_cons_self
    rw [if_neg hempty, List.append_assoc, List.singleton_append, decode, if_pos hmem,
      upToLast_last hhyphen, behindLast_last hhyphen]
    rw [if_neg hempty, if_pos hbasic, h, Option.bind_some, if_pos hk]

theorem synced_start (cps : List Nat) :
    Synced (basics cps).length { output := basics cps } [] cps { handled := (basics cps).length }
      { output := basics cps } where
  read := rfl
  text := rfl
  handled := rfl
  place := rfl
  bias := rfl
  oldI := rfl
  k := rfl
  w := rfl
  fresh := iff_of_true rfl rfl
  low := le_refl _

/-- What is encoded up to a limit is decoded to a part of the text: to the basic code points and to
those in front of which, in ascending order, the limit is not reached. -/
theorem decode_encodeLoop (hlimit : limit ≤ cps.length) (hsmall : ∀ q ∈ cps, q < 0x7FFFFFFF)
    (hroom : ∀ q ∈ cps, q * (cps.length + 1) ≤ room) :
    ∃ s, encodeLoop room (basics cps).length limit cps (cps.length + 1)
        { handled := (basics cps).length } = some s ∧
      (∀ c ∈ s.output, ∃ digit, decodeDigit c = some digit) ∧
      decode (encodeBasics cps ++ s.output) =
        some (cps.filter fun q => decide (q < 128 ∨ (below q cps).length < limit)) := by
  have hfuel : cps.length < cps.length + 1 + (basics cps).length := by omega
  obtain ⟨s, d, hloop, hsynced, hgrows, hreached, hlate⟩ :=
    (synced_start cps).loop hfuel hlimit hsmall hroom
  have htext : d.output = below s.n cps := hsynced.text
  refine ⟨s, hloop, digits_of_read hsynced.read, ?_⟩
  rw [decode_encodeBasics cps hsynced.read hsynced.k, htext]
  refine congrArg some (List.filter_congr fun q hq => decide_eq_decide.mpr ⟨hlate q hq, ?_⟩)
  rintro (hbasic | hcount)
  · exact lt_of_lt_of_le hbasic hgrows
  · by_contra hle
    have hsub := below_mono (not_lt.mp hle) cps
    rw [hsynced.handled_round] at hreached
    exact absurd (lt_of_lt_of_le hcount hreached) (not_lt.mpr hsub)

end Decode

section Same

variable {room basic limit bound fuel : Nat} {cps : List Nat} {s t : Encoder} {start d : Decoder}

/-- The values of the basic code points do not matter. -/
theorem encodeLoop_map {f : Nat → Nat} (hf : ∀ q, f q = q ∨ f q < 128 ∧ q < 128)
    (hn : 128 ≤ s.n) : encodeLoop room basic limit (cps.map f) fuel s =
      encodeLoop room basic limit cps fuel s := by
  have hscan : ∀ (t : Encoder), 128 ≤ t.n →
      (cps.map f).foldl (Encoder.scan basic) t = cps.foldl (Encoder.scan basic) t := by
    intro t ht
    induction cps generalizing t with
    | nil => rfl
    | cons q cps ih =>
      have hq : t.scan basic (f q) = t.scan basic q := by
        rcases hf q with heq | ⟨hfq, hq⟩
        · rw [heq]
        · rw [Encoder.scan, Encoder.scan, if_pos (by omega), if_pos (by omega)]
      rw [List.map_cons, List.foldl_cons, List.foldl_cons, hq]
      refine ih _ ?_
      have hkeep := scan_n basic t [q]
      exact le_of_le_of_eq ht hkeep.symm
  have hnext : ∀ n, 128 ≤ n → nextAbove (cps.map f) n = nextAbove cps n := by
    intro n hle
    rw [nextAbove, nextAbove, List.foldl_map]
    refine List.foldl_ext _ _ _ fun m q _ => ?_
    rcases hf q with heq | ⟨hfq, hq⟩
    · rw [heq]
    · rw [if_neg (by omega), if_neg (by omega)]
  induction fuel generalizing s with
  | zero => rfl
  | succ fuel ih =>
    have habove : 128 ≤ nextAbove cps s.n := by
      rcases (foldl_nextAbove s.n 0x7FFFFFFF cps).1 with heq | ⟨-, hle⟩
      · rw [nextAbove, heq]
        decide
      · exact le_trans hn hle
    rw [encodeLoop, encodeLoop]
    dsimp only
    rw [hnext s.n hn, hscan _ habove]
    split
    · split
      · rfl
      · refine ih ?_
        dsimp only
        rw [scan_n]
        exact Nat.le_succ_of_le habove
    · rfl

theorem encodeLoop_mono (h : encodeLoop room basic limit cps fuel s = some t) (more : Nat) :
    encodeLoop room basic limit cps (fuel + more) s = some t := by
  induction fuel generalizing s with
  | zero => exact nomatch h
  | succ fuel ih =>
    rw [Nat.succ_add]
    rw [encodeLoop] at h ⊢
    split at h
    · rename_i hmore
      rw [if_pos hmore]
      dsimp only at h ⊢
      split at h
      · exact nomatch h
      · rename_i hroom
        rw [if_neg hroom]
        exact ih h
    · rename_i hmore
      rw [if_neg hmore]
      exact h

/-- A limit that is reached below a bound is reached without what is not below it. -/
theorem Synced.loop_below (h : Synced basic start [] cps s d) (hn : s.n ≤ bound)
    (hsmall : ∀ q ∈ cps, q < 0x7FFFFFFF) :
    encodeLoop room basic (below bound cps).length cps fuel s =
      encodeLoop room basic (below bound cps).length (below bound cps) fuel s := by
  have hscan : ∀ (t : Encoder), t.n < bound →
      cps.foldl (Encoder.scan basic) t = (below bound cps).foldl (Encoder.scan basic) t := by
    intro t ht
    clear h hsmall
    induction cps generalizing t with
    | nil => rfl
    | cons q cps ih =>
      rw [List.foldl_cons]
      by_cases hq : q < bound
      · have hkeep := scan_n basic t [q]
        rw [below_cons_of_lt hq, List.foldl_cons]
        exact ih _ (lt_of_eq_of_lt hkeep ht)
      · have hsame : t.scan basic q = t := by
          rw [Encoder.scan, if_neg (by omega), if_neg (by omega)]
        rw [below_cons_of_le (not_lt.mp hq), hsame]
        exact ih t ht
  induction fuel generalizing s d with
  | zero => rfl
  | succ fuel ih =>
    rw [encodeLoop, encodeLoop]
    by_cases hmore : s.handled < (below bound cps).length
    · have hex : ∃ q ∈ below bound cps, s.n ≤ q := by
        by_contra hnone
        rw [h.handled_round] at hmore
        refine not_le.mpr hmore ((below_length_le_iff hn).mpr fun q hq hlt => ?_)
        exact not_le.mp fun hle => hnone ⟨q, mem_below.mpr ⟨hq, hlt⟩, hle⟩
      obtain ⟨hmem, hm, hleast⟩ := nextAbove_spec
        (fun q hq => hsmall q (mem_below.mp hq).1) hex
      have hall : ∀ q ∈ cps, s.n ≤ q → nextAbove (below bound cps) s.n ≤ q := fun q hq hle =>
        (lt_or_ge q bound).elim (fun hlt => hleast q (mem_below.mpr ⟨hq, hlt⟩) hle)
          fun hge => le_trans (le_of_lt (mem_below.mp hmem).2) hge
      obtain ⟨hmem', hm', hleast'⟩ := nextAbove_spec hsmall ⟨_, (mem_below.mp hmem).1, hm⟩
      have hnext : nextAbove cps s.n = nextAbove (below bound cps) s.n :=
        le_antisymm (hleast' _ (mem_below.mp hmem).1 hm) (hall _ hmem' hm')
      obtain ⟨d', hd'⟩ := h.round hm fun q hq hlt =>
        not_le.mp fun hle => not_lt.mpr (hall q hq hle) hlt
      rw [if_pos hmore, if_pos hmore]
      dsimp only at hd' ⊢
      rw [hnext, ← hscan _ (mem_below.mp hmem).2]
      split
      · rfl
      · refine ih hd' ?_
        dsimp only
        rw [scan_n]
        exact (mem_below.mp hmem).2
    · rw [if_neg hmore, if_neg hmore]

end Same

end Icq.Lib.Punycode
