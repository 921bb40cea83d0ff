import Mathlib.Order.Lattice
import Mathlib.Order.Basic
import Mathlib.Data.List.Nodup

namespace Icq.Lib

/-- Signed machine words in the order of their values. -/
instance linearOrderInt64 : LinearOrder Int64 where
  le_refl := Int64.le_refl
  le_trans _ _ _ := Int64.le_trans
  le_antisymm _ _ := Int64.le_antisymm
  le_total := Int64.le_total
  lt_iff_le_not_ge a b := by
    rw [Int64.lt_iff_toInt_lt, Int64.le_iff_toInt_le, Int64.le_iff_toInt_le]
    omega
  toDecidableLE := inferInstance
  toDecidableLT := inferInstance
  toDecidableEq := inferInstance

/-- Bytes in the order of their values, which is the order of the characters of a text. -/
instance linearOrderUInt8 : LinearOrder UInt8 where
  le_refl := UInt8.le_refl
  le_trans _ _ _ := UInt8.le_trans
  le_antisymm _ _ := UInt8.le_antisymm
  le_total := UInt8.le_total
  lt_iff_le_not_ge a b := by
    rw [UInt8.lt_iff_toNat_lt, UInt8.le_iff_toNat_le, UInt8.le_iff_toNat_le]
    omega
  toDecidableLE := inferInstance
  toDecidableLT := inferInstance
  toDecidableEq := inferInstance

/-- An ordered map whose entries carry their own key: a list of values with
strictly increasing keys. -/
structure KeyMap {ν κ : Type} [LinearOrder κ] (key : ν → κ) where
  items : List ν
  sorted : items.Pairwise (fun a b => key a < key b)

namespace KeyMap

variable {ν κ : Type} [LinearOrder κ] {key : ν → κ}

@[ext] theorem ext {m m' : KeyMap key} (h : m.items = m'.items) : m = m' := by
  cases m
  cases m'
  cases h
  rfl

def empty : KeyMap key := ⟨[], .nil⟩

instance : EmptyCollection (KeyMap key) := ⟨empty⟩

@[simp] theorem items_empty : (∅ : KeyMap key).items = [] := rfl

def size (m : KeyMap key) : Nat := m.items.length

def find? (m : KeyMap key) (k : κ) : Option ν := m.items.find? (fun v => key v == k)

/-- The first entry whose key is above `k`. -/
def above? (m : KeyMap key) (k : κ) : Option ν := m.items.find? (fun v => decide (k < key v))

/-- The first entry whose key is not below `k`. -/
def lowerBound? (m : KeyMap key) (k : κ) : Option ν := m.items.find? (fun v => decide (k ≤ key v))

def first? (m : KeyMap key) : Option ν := m.items.head?

def last? (m : KeyMap key) : Option ν := m.items.getLast?

/-- Insert a value into an ascending list, replacing the one with its key. -/
def putList (key : ν → κ) (v : ν) : List ν → List ν
  | [] => [v]
  | w :: ws =>
    if key v < key w then v :: w :: ws
    else if key v = key w then v :: ws
    else w :: putList key v ws

theorem mem_putList {v x : ν} {ws : List ν} (h : x ∈ putList key v ws) : x = v ∨ x ∈ ws := by
  induction ws with
  | nil => simpa [putList] using h
  | cons w ws ih =>
    unfold putList at h
    split at h
    · simpa using h
    · split at h
      · rcases List.mem_cons.mp h with he | hm
        · exact Or.inl he
        · exact Or.inr (List.mem_cons_of_mem _ hm)
      · rcases List.mem_cons.mp h with he | hm
        · exact Or.inr (he ▸ List.mem_cons_self)
        · rcases ih hm with he | hm
          · exact Or.inl he
          · exact Or.inr (List.mem_cons_of_mem _ hm)

theorem putList_sorted (v : ν) {ws : List ν} (h : ws.Pairwise (fun a b => key a < key b)) :
    (putList key v ws).Pairwise (fun a b => key a < key b) := by
  induction ws with
  | nil => simp [putList]
  | cons w ws ih =>
    obtain ⟨hw, hs⟩ := List.pairwise_cons.mp h
    unfold putList
    split
    · rename_i hlt
      refine List.pairwise_cons.mpr ⟨?_, h⟩
      intro x hx
      rcases List.mem_cons.mp hx with rfl | hx
      · exact hlt
      · exact lt_trans hlt (hw x hx)
    · split
      · rename_i he
        exact List.pairwise_cons.mpr ⟨fun x hx => he ▸ hw x hx, hs⟩
      · rename_i hlt hne
        refine List.pairwise_cons.mpr ⟨?_, ih hs⟩
        intro x hx
        rcases mem_putList hx with rfl | hx
        · exact lt_of_le_of_ne (not_lt.mp hlt) (Ne.symm hne)
        · exact hw x hx

def put (m : KeyMap key) (v : ν) : KeyMap key := ⟨putList key v m.items, putList_sorted v m.sorted⟩

def filter (m : KeyMap key) (p : ν → Bool) : KeyMap key :=
  ⟨m.items.filter p, m.sorted.filter _⟩

def erase (m : KeyMap key) (k : κ) : KeyMap key := m.filter (fun v => key v != k)

/-- Put a value in where no value with its key is. -/
def insert (m : KeyMap key) (v : ν) : KeyMap key :=
  if (m.find? (key v)).isSome then m else m.put v

/-- Keep only some of the entries, in their order. -/
def restrict (m : KeyMap key) (ws : List ν) (h : ws.Sublist m.items) : KeyMap key :=
  ⟨ws, m.sorted.sublist h⟩

@[simp] theorem items_put (m : KeyMap key) (v : ν) : (m.put v).items = putList key v m.items := rfl

@[simp] theorem items_filter (m : KeyMap key) (p : ν → Bool) :
    (m.filter p).items = m.items.filter p := rfl

/-- Change every entry but its key. -/
def mapValues (m : KeyMap key) (f : ν → ν) (hf : ∀ v, key (f v) = key v) : KeyMap key :=
  ⟨m.items.map f, List.Pairwise.map f (fun a b h => by rwa [hf a, hf b]) m.sorted⟩

@[simp] theorem items_restrict (m : KeyMap key) (ws : List ν) (h : ws.Sublist m.items) :
    (m.restrict ws h).items = ws := rfl

theorem keys_nodup (m : KeyMap key) : (m.items.map key).Nodup :=
  List.Pairwise.map key (fun _ _ h => ne_of_lt h) m.sorted

theorem eq_of_key {m : KeyMap key} {a b : ν} (ha : a ∈ m.items) (hb : b ∈ m.items)
    (h : key a = key b) : a = b :=
  List.inj_on_of_nodup_map m.keys_nodup ha hb h

theorem find_mem {m : KeyMap key} {k : κ} {v : ν} (h : m.find? k = some v) :
    v ∈ m.items ∧ key v = k :=
  ⟨List.mem_of_find?_eq_some h, by simpa using List.find?_some h⟩

theorem find_of_mem {m : KeyMap key} {v : ν} (h : v ∈ m.items) : m.find? (key v) = some v := by
  cases hf : m.find? (key v) with
  | none => exact absurd (List.find?_eq_none.mp hf v h) (by simp)
  | some w =>
    obtain ⟨hw, hk⟩ := find_mem hf
    rw [eq_of_key hw h hk]

theorem find_none {m : KeyMap key} {k : κ} : m.find? k = none ↔ ∀ v ∈ m.items, key v ≠ k := by
  simp [find?, List.find?_eq_none]

theorem find_putList (v : ν) (ws : List ν) (k : κ) :
    (putList key v ws).find? (fun x => key x == k) =
      if key v = k then some v else ws.find? (fun x => key x == k) := by
  induction ws with
  | nil => by_cases h : key v = k <;> simp [putList, h]
  | cons w ws ih =>
    unfold putList
    split
    · by_cases h : key v = k <;> simp [h]
    · split
      · rename_i he
        by_cases h : key v = k
        · simp [h]
        · simp [h, ← he]
      · rename_i hne
        by_cases hw : key w = k
        · simp [hw, show key v ≠ k from fun h => hne (h.trans hw.symm)]
        · simp [hw, ih]

@[simp] theorem find_put (m : KeyMap key) (v : ν) (k : κ) :
    (m.put v).find? k = if key v = k then some v else m.find? k := find_putList v m.items k

theorem mem_put {m : KeyMap key} {v x : ν} :
    x ∈ (m.put v).items ↔ x = v ∨ (x ∈ m.items ∧ key x ≠ key v) := by
  constructor
  · intro h
    have hf := find_of_mem h
    rw [find_put] at hf
    split at hf
    · exact Or.inl (Option.some.inj hf).symm
    · rename_i hne
      exact Or.inr ⟨(find_mem hf).1, Ne.symm hne⟩
  · rintro (rfl | ⟨hx, hne⟩)
    · exact (find_mem (k := key x) (by simp)).1
    · refine (find_mem (k := key x) ?_).1
      rw [find_put, if_neg (Ne.symm hne)]
      exact find_of_mem hx

theorem find_insert (m : KeyMap key) (v : ν) (k : κ) :
    (m.insert v).find? k = (m.find? k).or (if key v = k then some v else none) := by
  unfold insert
  split
  · rename_i h
    split
    · rename_i hk
      rw [hk] at h
      rw [Option.or_of_isSome h]
    · rw [Option.or_none]
  · rename_i h
    rw [find_put]
    split
    · rename_i hk
      rw [hk, Option.not_isSome_iff_eq_none] at h
      rw [h, Option.none_or]
    · rw [Option.or_none]

/-- Replacing the entry of a present key leaves the other entries in place. -/
theorem items_put_replace {m : KeyMap key} {v w : ν} (h : m.find? (key v) = some w) :
    (m.put v).items = m.items.map (fun x => if key x = key v then v else x) := by
  have main : ∀ ws : List ν, ws.Pairwise (fun a b => key a < key b) →
      (∃ x ∈ ws, key x = key v) →
      putList key v ws = ws.map (fun x => if key x = key v then v else x) := by
    intro ws hs hx
    induction ws with
    | nil => simp at hx
    | cons w ws ih =>
      obtain ⟨hw, hs⟩ := List.pairwise_cons.mp hs
      obtain ⟨x, hm, hk⟩ := hx
      by_cases he : key v = key w
      · have hrest : ws.map (fun x => if key x = key v then v else x) = ws := by
          refine (List.map_congr_left ?_).trans (List.map_id ws)
          intro y hy
          exact if_neg (ne_of_gt (he ▸ hw y hy))
        simp [putList, he, he ▸ hrest]
      · have hmem : x ∈ ws := by
          rcases List.mem_cons.mp hm with rfl | hm
          · exact absurd hk.symm he
          · exact hm
        have hlt : ¬ key v < key w := not_lt.mpr (le_of_lt (hk ▸ hw x hmem))
        simp [putList, hlt, he, Ne.symm he, ih hs ⟨x, hmem, hk⟩]
  exact main m.items m.sorted ⟨w, find_mem h⟩

/-- A count does not see an entry replaced by one that counts the same. -/
theorem countP_put_replace {m : KeyMap key} {v w : ν} {p : ν → Bool}
    (h : m.find? (key v) = some w) (hp : p v = p w) : (m.put v).items.countP p = m.items.countP p := by
  rw [items_put_replace h, List.countP_map]
  apply List.countP_congr
  intro x hx
  by_cases hk : key x = key v
  · obtain ⟨hw, hkw⟩ := find_mem h
    have hxw : x = w := eq_of_key hx hw (hk.trans hkw.symm)
    simp [hxw, hkw, hp]
  · simp [hk]

theorem countP_put_new {m : KeyMap key} {v : ν} {p : ν → Bool} (h : m.find? (key v) = none) :
    (m.put v).items.countP p = m.items.countP p + if p v then 1 else 0 := by
  have main : ∀ ws : List ν, (∀ w ∈ ws, key w ≠ key v) →
      (putList key v ws).countP p = ws.countP p + if p v then 1 else 0 := by
    intro ws hne
    induction ws with
    | nil => simp [putList, List.countP_cons]
    | cons w ws ih =>
      have hw := hne w List.mem_cons_self
      unfold putList
      split
      · rw [List.countP_cons]
      · rw [if_neg (Ne.symm hw), List.countP_cons,
          ih (fun x hx => hne x (List.mem_cons_of_mem _ hx)), List.countP_cons]
        omega
  exact main m.items (find_none.mp h)

/-- Filtering a stretch of the entries out by key leaves what is around it. -/
theorem filter_stretch {m : KeyMap key} {lo gone hi : List ν} (h : m.items = lo ++ (gone ++ hi)) :
    (m.filter (fun v => !gone.any (fun d => key d == key v))).items = lo ++ hi := by
  have hs := m.sorted
  rw [h] at hs
  obtain ⟨_, hs', hlo⟩ := List.pairwise_append.mp hs
  obtain ⟨_, _, hhi⟩ := List.pairwise_append.mp hs'
  have hkeep : ∀ ws : List ν, (∀ w ∈ ws, ∀ d ∈ gone, key d ≠ key w) →
      ws.filter (fun v => !gone.any (fun d => key d == key v)) = ws := by
    intro ws hne
    rw [List.filter_eq_self]
    intro w hw
    simpa using hne w hw
  have hlose : gone.filter (fun v => !gone.any (fun d => key d == key v)) = [] := by
    rw [List.filter_eq_nil_iff]
    intro w hw
    simpa using ⟨w, hw, rfl⟩
  rw [items_filter, h, List.filter_append, List.filter_append, hlose, List.nil_append,
    hkeep lo (fun w hw d hd => ne_of_gt (hlo w hw d (List.mem_append_left _ hd))),
    hkeep hi (fun w hw d hd => ne_of_lt (hhi d hd w hw))]

theorem keys_put_replace {m : KeyMap key} {v w : ν} (h : m.find? (key v) = some w) :
    (m.put v).items.map key = m.items.map key := by
  rw [items_put_replace h, List.map_map]
  apply List.map_congr_left
  intro x _
  by_cases hx : key x = key v
  · simp [hx]
  · simp [hx]

/-- A value above every key of the map goes to the end. -/
theorem items_put_last {m : KeyMap key} {v : ν} (h : ∀ w ∈ m.items, key w < key v) :
    (m.put v).items = m.items ++ [v] := by
  have main : ∀ ws : List ν, (∀ w ∈ ws, key w < key v) → putList key v ws = ws ++ [v] := by
    intro ws hs
    induction ws with
    | nil => rfl
    | cons w ws ih =>
      have hw := hs w List.mem_cons_self
      have hlt : ¬ key v < key w := not_lt.mpr (le_of_lt hw)
      simp [putList, hlt, ne_of_gt hw, ih (fun x hx => hs x (List.mem_cons_of_mem _ hx))]
  exact main m.items h

@[simp] theorem find_filter_key (m : KeyMap key) (p : κ → Bool) (k : κ) :
    (m.filter (fun v => p (key v))).find? k = if p k then m.find? k else none := by
  unfold find? filter
  rw [List.find?_filter]
  by_cases hp : p k = true
  · rw [if_pos hp]
    congr 1
    funext v
    by_cases hk : key v = k <;> simp [hk, hp]
  · rw [if_neg hp, List.find?_eq_none]
    intro v _
    by_cases hk : key v = k <;> simp [hk, hp]

@[simp] theorem find_erase (m : KeyMap key) (k j : κ) :
    (m.erase k).find? j = if j = k then none else m.find? j := by
  have h := find_filter_key m (fun x => x != k) j
  by_cases hk : j = k
  · simpa [erase, hk] using h
  · simpa [erase, hk] using h

theorem above_mem {m : KeyMap key} {k : κ} {v : ν} (h : m.above? k = some v) :
    v ∈ m.items ∧ k < key v :=
  ⟨List.mem_of_find?_eq_some h, by simpa using List.find?_some h⟩

/-- `above?` is the least entry above the key. -/
theorem above_le {m : KeyMap key} {k : κ} {v w : ν} (h : m.above? k = some v)
    (hw : w ∈ m.items) (hk : k < key w) : key v ≤ key w := by
  obtain ⟨_, pre, post, he, hpre⟩ := List.find?_eq_some_iff_append.mp h
  have hs := m.sorted
  rw [he] at hs hw
  rcases List.mem_append.mp hw with hm | hm
  · exact absurd hk (by simpa using hpre w hm)
  · rcases List.mem_cons.mp hm with rfl | hm
    · exact le_rfl
    · exact le_of_lt ((List.pairwise_cons.mp (List.pairwise_append.mp hs).2.1).1 w hm)

theorem above_none {m : KeyMap key} {k : κ} : m.above? k = none ↔ ∀ v ∈ m.items, key v ≤ k := by
  simp [above?, List.find?_eq_none]

theorem lowerBound_mem {m : KeyMap key} {k : κ} {v : ν} (h : m.lowerBound? k = some v) :
    v ∈ m.items ∧ k ≤ key v :=
  ⟨List.mem_of_find?_eq_some h, by simpa using List.find?_some h⟩

theorem lowerBound_le {m : KeyMap key} {k : κ} {v w : ν} (h : m.lowerBound? k = some v)
    (hw : w ∈ m.items) (hk : k ≤ key w) : key v ≤ key w := by
  obtain ⟨_, pre, post, he, hpre⟩ := List.find?_eq_some_iff_append.mp h
  have hs := m.sorted
  rw [he] at hs hw
  rcases List.mem_append.mp hw with hm | hm
  · exact absurd hk (by simpa using hpre w hm)
  · rcases List.mem_cons.mp hm with rfl | hm
    · exact le_rfl
    · exact le_of_lt ((List.pairwise_cons.mp (List.pairwise_append.mp hs).2.1).1 w hm)

theorem lowerBound_none {m : KeyMap key} {k : κ} :
    m.lowerBound? k = none ↔ ∀ v ∈ m.items, key v < k := by
  simp [lowerBound?, List.find?_eq_none]

/-- Maps with equal lookups are equal. -/
theorem ext_find {m m' : KeyMap key} (h : ∀ k, m.find? k = m'.find? k) : m = m' := by
  apply ext
  have hperm : m.items.Perm m'.items := by
    have hn : ∀ n : KeyMap key, n.items.Nodup := fun n => List.Nodup.of_map key n.keys_nodup
    apply (List.perm_ext_iff_of_nodup (hn m) (hn m')).mpr
    intro v
    constructor
    · intro hv
      exact (find_mem (h (key v) ▸ find_of_mem hv)).1
    · intro hv
      exact (find_mem ((h (key v)).symm ▸ find_of_mem hv)).1
  exact hperm.eq_of_pairwise (fun a b _ _ hab hba => absurd (lt_trans hab hba) (lt_irrefl _))
    m.sorted m'.sorted

section MapValues

variable {f : ν → ν} {hf : ∀ v, key (f v) = key v}

@[simp] theorem items_mapValues (m : KeyMap key) : (m.mapValues f hf).items = m.items.map f := rfl

theorem find_mapValues (m : KeyMap key) (k : κ) :
    (m.mapValues f hf).find? k = (m.find? k).map f := by
  simp only [find?, items_mapValues, List.find?_map]
  congr 2
  funext v
  simp [hf]

theorem above_mapValues (m : KeyMap key) (k : κ) :
    (m.mapValues f hf).above? k = (m.above? k).map f := by
  simp only [above?, items_mapValues, List.find?_map]
  congr 2
  funext v
  simp [hf]

theorem put_mapValues (m : KeyMap key) (v : ν) :
    (m.put v).mapValues f hf = (m.mapValues f hf).put (f v) := by
  apply ext_find
  intro k
  rw [find_mapValues, find_put, find_put, find_mapValues, hf]
  split <;> rfl

end MapValues

end KeyMap

end Icq.Lib
