import Icq.Lib.JsonText

/-! The properties of an event, as they are written for the tracker. -/

namespace Icq.Stats
open Icq.Lib.JsonText

/-- A text with each of its quotation marks replaced. -/
def replaceQuotes (c : Char) : List Char := if c = '"' then ['\\', '"'] else [c]

def dumpParam (prop : List Char × List Char) : List Char :=
  let val := prop.2.flatMap replaceQuotes
  '"' :: (prop.1 ++ '"' :: ':' :: '"' :: (val ++ ['"']))

/-- The parameters with a comma in front of each but the first. -/
def dumpParams : Bool → List (List Char × List Char) → List Char
  | _, [] => []
  | first, prop :: props =>
    (if first then [] else [',']) ++ dumpParam prop ++ dumpParams false props

def dumpParamsToJson (props : List (List Char × List Char)) : List Char :=
  '{' :: (dumpParams true props ++ ['}'])

/-- A key is written as it is. -/
def KeyStands (key : List Char) : Prop := ∀ c ∈ key, isPlain c = true

def ValueStands (val : List Char) : Prop := ∀ c ∈ val, c ≠ '\\' ∧ isControl c = false

variable {props : List (List Char × List Char)}

theorem writer_key : Writer fun c => [c] where
  length_le c := by
    rw [least]
    split
    · exact le_refl 1
    · exact Nat.le_succ 1
  last _ := rfl
  read c n l h := by
    have hplain : isPlain c = true := by
      by_contra hc
      rw [least, if_neg hc] at h
      exact absurd h (Nat.succ_ne_self 1)
    have hne : c ≠ '"' ∧ c ≠ '\\' := by
      constructor <;> rintro rfl <;> exact absurd hplain (by decide)
    rw [List.singleton_append, readString, if_neg hne.1, readChar, if_neg hne.2, if_pos hplain]
    rfl

theorem writer_value : Writer replaceQuotes where
  length_le c := by
    rw [replaceQuotes]
    split
    · rename_i hc
      rw [hc]
      exact le_refl 2
    · exact writer_key.length_le c
  last c := by
    rw [replaceQuotes]
    split
    · rename_i hc
      rw [hc]
      rfl
    · rfl
  read c n l h := by
    by_cases hc : c = '"'
    · subst hc
      rfl
    · rw [replaceQuotes, if_neg hc] at h ⊢
      exact writer_key.read c n l h

theorem keyStands_iff (key : List Char) : (∀ c ∈ key, least c = [c].length) ↔ KeyStands key := by
  refine forall₂_congr fun c _ => ?_
  rw [least]
  split
  · rename_i hc
    exact iff_of_true rfl hc
  · rename_i hc
    exact iff_of_false (Nat.succ_ne_self 1) hc

theorem valueStands_iff (val : List Char) :
    (∀ c ∈ val, least c = (replaceQuotes c).length) ↔ ValueStands val := by
  refine forall₂_congr fun c _ => ?_
  rw [replaceQuotes]
  by_cases hquote : c = '"'
  · subst hquote
    exact iff_of_true rfl (by decide)
  · rw [if_neg hquote, least, isPlain]
    by_cases hbackslash : c = '\\'
    · subst hbackslash
      exact iff_of_false (by decide) fun h => h.1 rfl
    · cases hcontrol : isControl c with
      | false => exact iff_of_true (by simp [hquote, hbackslash]) ⟨hbackslash, rfl⟩
      | true => exact iff_of_false (by simp) fun h => Bool.noConfusion h.2

/-- What follows a parameter: a comma and the next one, or the end of the object. -/
theorem endsPlain_params (props : List (List Char × List Char)) :
    EndsPlain (dumpParams false props ++ ['}']) := by
  cases props with
  | nil => exact endsPlain_singleton '}'
  | cons prop props => exact endsPlain_quoted (c := ',') rfl _

theorem dumpParam_append (prop : List Char × List Char) (tail : List Char) :
    dumpParam prop ++ tail = '"' :: (prop.1.flatMap (fun c => [c]) ++ '"' :: ':' ::
      '"' :: (prop.2.flatMap replaceQuotes ++ '"' :: tail)) := by
  rw [List.flatMap_singleton', dumpParam, List.cons_append, List.append_assoc, List.cons_append,
    List.cons_append, List.cons_append, List.append_assoc]
  rfl

theorem readMember_dumpParam (prop : List Char × List Char) {tail : List Char}
    (htail : EndsPlain tail) (rest : List Char) : readMember (dumpParam prop ++ tail) = some (prop, rest) ↔
      (KeyStands prop.1 ∧ ValueStands prop.2) ∧ rest = tail := by
  rw [dumpParam_append, ← keyStands_iff, ← valueStands_iff]
  exact readMember_iff writer_key writer_value htail

/-- The parameters are read back if and only if each key and each value is. -/
theorem readMembers_dumpParams (props : List (List Char × List Char)) (hne : props ≠ []) {n : Nat}
    (hn : props.length ≤ n) : readMembers n (dumpParams true props ++ ['}']) = some props ↔
      ∀ prop ∈ props, KeyStands prop.1 ∧ ValueStands prop.2 := by
  induction props generalizing n with
  | nil => exact absurd rfl hne
  | cons prop props ih =>
    obtain ⟨n, rfl⟩ := Nat.exists_eq_succ_of_ne_zero (Nat.ne_of_gt (Nat.lt_of_lt_of_le
      (Nat.succ_pos _) hn))
    have hmember := readMember_dumpParam prop (endsPlain_params props)
    have hrest : (expect ',' (dumpParams false props ++ ['}'])).elim
        (readEnd (dumpParams false props ++ ['}'])) (readMembers n) = some props ↔
          ∀ prop ∈ props, KeyStands prop.1 ∧ ValueStands prop.2 := by
      cases props with
      | nil => exact iff_of_true rfl fun p hp => absurd hp List.not_mem_nil
      | cons next props =>
        have hnext := ih (List.cons_ne_nil _ _) (Nat.le_of_succ_le_succ hn)
        rw [dumpParams, if_pos rfl, List.nil_append, List.append_assoc] at hnext
        rw [dumpParams, if_neg Bool.false_ne_true, List.append_assoc, List.append_assoc,
          List.singleton_append, expect_cons rfl, Option.elim_some]
        exact hnext
    rw [List.forall_mem_cons, ← hrest, dumpParams, if_pos rfl, List.nil_append, List.append_assoc,
      readMembers]
    constructor
    · intro hread
      obtain ⟨m, hm, hread⟩ := Option.bind_eq_some_iff.mp hread
      obtain ⟨more, hmore, heq⟩ := Option.map_eq_some_iff.mp hread
      obtain ⟨hprop, rfl⟩ := List.cons.inj heq
      obtain ⟨hstands, htail⟩ := (hmember m.2).mp (hm.trans (congrArg some (Prod.ext hprop rfl)))
      rw [htail] at hmore
      exact ⟨hstands, hmore⟩
    · rintro ⟨hstands, hmore⟩
      rw [(hmember _).mpr ⟨hstands, rfl⟩, Option.bind_some, hmore]
      rfl

theorem length_dumpParams (first : Bool) (props : List (List Char × List Char)) :
    props.length ≤ (dumpParams first props).length := by
  induction props generalizing first with
  | nil => exact Nat.zero_le _
  | cons prop props ih =>
    have hle := ih false
    rw [dumpParams, List.length_append, List.length_append, dumpParam, List.length_cons,
      List.length_cons]
    omega

/-- The dumped parameters are an object with just the properties if and only if no key has a
quotation mark, a backslash or a control character and no value one of the last two. -/
theorem readObject_dumpParamsToJson (props : List (List Char × List Char)) :
    readObject (dumpParamsToJson props) = some props ↔
      ∀ prop ∈ props, KeyStands prop.1 ∧ ValueStands prop.2 := by
  rw [readObject, dumpParamsToJson, expect_cons rfl, Option.bind_some]
  cases props with
  | nil => exact iff_of_true rfl fun p hp => absurd hp List.not_mem_nil
  | cons prop props =>
    have hend : readEnd (dumpParams true (prop :: props) ++ ['}']) = none := by
      rw [readEnd, dumpParams, if_pos rfl, List.nil_append, List.append_assoc, dumpParam,
        List.cons_append, expect_other rfl (by decide)]
      rfl
    have hlength := length_dumpParams true (prop :: props)
    rw [hend, Option.none_or]
    refine readMembers_dumpParams _ (List.cons_ne_nil _ _) (le_trans hlength ?_)
    rw [List.length_append]
    exact Nat.le_add_right _ _

/-- A backslash at the end of a value takes the quotation mark behind it away. -/
theorem backslash_not_dumped :
    readObject (dumpParamsToJson [(['k'], ['a', '\\'])]) = none := rfl

end Icq.Stats
