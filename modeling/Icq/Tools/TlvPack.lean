import Icq.Tools.Tlv

/-! What the loop that reads a pack does with any bytes. -/

namespace Icq.Tools
open Icq.Lib

/-- The pieces lie in a text apart from each other and in order. -/
inductive Apart : List Bytes → Bytes → Prop
  | nil (text : Bytes) : Apart [] text
  | cons (skipped piece : Bytes) {pieces : List Bytes} {rest : Bytes} :
      Apart pieces rest → Apart (piece :: pieces) (skipped ++ (piece ++ rest))

namespace Tlv

/-- What a reading does with a tag and a length that are there. -/
theorem unserialize_long {bs : Bytes} (h : 8 ≤ bs.length) :
    unserialize bs =
      let length : UInt32 := Scalar.decode (bs.drop 4)
      if length = 0 then .ok ({ type := Scalar.decode bs }, bs.drop 8)
      else if (bs.drop 8).length < length.toNat then .refused
      else
        .ok ({ type := Scalar.decode bs, value := (bs.drop 8).take length.toNat },
          (bs.drop 8).drop length.toNat) := by
  have htype : Parser.take UInt32 bs = .ok (Scalar.decode bs, bs.drop 4) :=
    Parser.take_ok (Nat.le_trans (show 4 ≤ 8 by omega) h)
  have hlength : Parser.take UInt32 (bs.drop 4) =
      .ok (Scalar.decode (bs.drop 4), (bs.drop 4).drop 4) := by
    apply Parser.take_ok
    rw [List.length_drop]
    exact Nat.le_sub_of_add_le h
  rw [List.drop_drop] at hlength
  rw [unserialize, if_neg (Nat.not_lt.mpr h), Parser.bind_ok htype, Parser.bind_ok hlength]
  generalize (Scalar.decode bs : UInt32) = type
  generalize (Scalar.decode (bs.drop 4) : UInt32) = length
  by_cases hz : length = 0
  · rw [if_pos hz]
    exact (if_pos hz).symm
  · have hn : length.toNat ≠ 0 := fun h => hz (UInt32.toNat_inj.mp h)
    rw [if_neg hz]
    show _ = if length = 0 then _ else _
    rw [if_neg hz]
    by_cases hcut : (bs.drop 8).length < length.toNat
    · rw [if_pos hcut, Parser.bind_refused (Parser.need_refused hcut)]
    · have hle := Nat.le_of_not_lt hcut
      rw [if_neg hcut, Parser.bind_ok (Parser.need_ok hle), Parser.bind_ok (Parser.takeBytes_ok hn hle)]
      rfl

/-- What was read with a tag and a length was written there. -/
theorem serialize_of_unserialize {bs rest : Bytes} {t : Tlv} (h8 : 8 ≤ bs.length)
    (h : unserialize bs = .ok (t, rest)) : bs = t.serialize ++ rest := by
  have hlen : (bs.drop 4).length = bs.length - 4 := List.length_drop
  have htype := Scalar.encode_decode (show 4 ≤ bs.length by omega)
  have hlength := Scalar.encode_decode (show 4 ≤ (bs.drop 4).length by omega)
  have hhead : bs.take 4 ++ ((bs.drop 4).take 4 ++ bs.drop 8) = bs := by
    rw [show 8 = 4 + 4 from rfl, ← List.drop_drop, List.take_append_drop, List.take_append_drop]
  rw [unserialize_long h8] at h
  generalize (Scalar.decode bs : UInt32) = type at h htype
  generalize (Scalar.decode (bs.drop 4) : UInt32) = length at h hlength
  simp only at h
  split at h
  · rename_i hz
    cases h
    subst hz
    rw [serialize, List.append_assoc, List.append_assoc, htype]
    exact (hlength ▸ hhead).symm
  · split at h
    · cases h
    · rename_i hcut
      cases h
      have htake : ((bs.drop 8).take length.toNat).length = length.toNat :=
        List.length_take_of_le (Nat.le_of_not_lt hcut)
      rw [serialize, List.append_assoc, List.append_assoc, htype, htake, UInt32.ofNat_toNat, hlength,
        List.take_append_drop]
      exact hhead.symm

/-- What one reading can do: take a value off the front, or refuse one that is cut off. It never
reads at a null pointer. -/
theorem unserialize_cases {bs : Bytes} (hne : bs ≠ []) :
    (∃ t skipped rest, unserialize bs = .ok (t, rest) ∧ bs = skipped ++ (t.value ++ rest) ∧
      skipped ≠ [] ∧ t.value.length < 2 ^ 32) ∨ unserialize bs = .refused := by
  by_cases hshort : bs.length < 8
  · refine .inl ⟨{}, bs, [], if_pos hshort, by simp, hne, by simp⟩
  · have hlong := Nat.le_of_not_lt hshort
    have hhead : bs.take 8 ≠ [] := by
      simp [List.take_eq_nil_iff, hne]
    rw [unserialize_long hlong]
    generalize (Scalar.decode (bs.drop 4) : UInt32) = length
    generalize (Scalar.decode bs : UInt32) = type
    simp only
    split
    · exact .inl ⟨{ type }, bs.take 8, bs.drop 8, rfl, by simp, hhead, by simp⟩
    · split
      · exact .inr rfl
      · refine .inl ⟨{ type, value := (bs.drop 8).take length.toNat }, bs.take 8, _, rfl, ?_, hhead, ?_⟩
        · rw [List.take_append_drop, List.take_append_drop]
        · exact Nat.lt_of_le_of_lt (List.length_take_le _ _) length.toNat_lt

theorem length_value_lt {bs rest : Bytes} {t : Tlv} (h : unserialize bs = .ok (t, rest)) :
    t.value.length < 2 ^ 32 := by
  by_cases hne : bs = []
  · subst hne
    cases h
    exact Nat.two_pow_pos 32
  · rcases unserialize_cases hne with ⟨t', _, rest', hread, -, -, hlt⟩ | hrefused
    · rw [h] at hread
      cases hread
      exact hlt
    · rw [h] at hrefused
      cases hrefused

theorem suffix_of_unserialize {bs rest : Bytes} {t : Tlv} (h : unserialize bs = .ok (t, rest)) :
    rest <:+ bs := by
  by_cases h8 : 8 ≤ bs.length
  · exact ⟨t.serialize, (serialize_of_unserialize h8 h).symm⟩
  · rw [unserialize, if_pos (Nat.not_le.mp h8)] at h
    cases h
    exact List.nil_suffix

theorem length_serialize (t : Tlv) : t.serialize.length = 8 + t.value.length := by
  simp only [serialize, List.length_append, Scalar.length_encode, Scalar.width]
  omega

/-- A look at the next field: whether it is there in whole, its length if it has the tag that was
asked for, and the bytes behind what was read. -/
structure Looked where
  whole : Bool
  length : UInt32
  left : Bytes

/-- A field with another tag is skipped. A field without a value counts as any other one. -/
def tryGetFieldWithType (type : UInt32) (bs : Bytes) : Looked :=
  if bs.length < 8 then { whole := false, length := 0, left := bs }
  else
    let length : UInt32 := Scalar.decode (bs.drop 4)
    let rest := bs.drop 8
    if length = 0 then { whole := true, length := 0, left := rest }
    else if rest.length < length.toNat then { whole := false, length := 0, left := rest }
    else if (Scalar.decode bs : UInt32) = type then { whole := true, length, left := rest }
    else { whole := true, length := 0, left := rest.drop length.toNat }

/-- A value under the tag. -/
def isField (type : UInt32) (t : Tlv) : Bool := decide (t.type = type) && !t.value.isEmpty

theorem tryGetFieldWithType_serialize {t : Tlv} (h : t.value.length < 2 ^ 32) (type : UInt32)
    (rest : Bytes) :
    tryGetFieldWithType type (t.serialize ++ rest) =
      if isField type t then
        { whole := true, length := UInt32.ofNat t.value.length, left := t.value ++ rest }
      else { whole := true, length := 0, left := rest } := by
  have hlen : (UInt32.ofNat t.value.length).toNat = t.value.length := by
    rw [UInt32.toNat_ofNat', Nat.mod_eq_of_lt h]
  have hsplit : t.serialize ++ rest =
      Scalar.encode t.type ++ (Scalar.encode (UInt32.ofNat t.value.length) ++ (t.value ++ rest)) := by
    simp only [serialize, List.append_assoc]
  have htype : (Scalar.decode (t.serialize ++ rest) : UInt32) = t.type := by
    rw [hsplit, Scalar.decode_encode_append]
  have hdrop : (t.serialize ++ rest).drop 4 =
      Scalar.encode (UInt32.ofNat t.value.length) ++ (t.value ++ rest) := by
    rw [hsplit]
    exact List.drop_left' (Scalar.length_encode t.type)
  have hrest : (t.serialize ++ rest).drop 8 = t.value ++ rest := by
    rw [show 8 = 4 + 4 from rfl, ← List.drop_drop, hdrop]
    exact List.drop_left' (Scalar.length_encode _)
  have hlong : ¬ (t.serialize ++ rest).length < 8 := by
    rw [hsplit, List.length_append, List.length_append, Scalar.length_encode, Scalar.length_encode]
    simp only [Scalar.width]
    omega
  rw [tryGetFieldWithType, if_neg hlong, htype, hdrop, hrest, Scalar.decode_encode_append]
  by_cases hnil : t.value = []
  · rw [isField, hnil, List.isEmpty_nil, Bool.not_true, Bool.and_false]
    rfl
  · have hpos := List.length_pos_iff.mpr hnil
    have hzero : UInt32.ofNat t.value.length ≠ 0 := by
      intro h0
      rw [h0] at hlen
      exact absurd hlen.symm (Nat.ne_of_gt hpos)
    have hwhole : ¬ (t.value ++ rest).length < (UInt32.ofNat t.value.length).toNat := by
      rw [hlen, List.length_append]
      omega
    have hempty : t.value.isEmpty = false := List.isEmpty_eq_false_iff.mpr hnil
    rw [if_neg hzero, if_neg hwhole, hlen, List.drop_left, isField, hempty, Bool.not_false,
      Bool.and_true]
    exact (ite_congr (decide_eq_true_eq (p := t.type = type)) (fun _ => rfl) (fun _ => rfl)).symm

end Tlv

namespace TlvPack

theorem serialize_append (pack more : TlvPack) :
    serialize (pack ++ more) = serialize pack ++ serialize more := List.flatMap_append

theorem serialize_cons (t : Tlv) (pack : TlvPack) :
    serialize (t :: pack) = t.serialize ++ serialize pack := rfl

theorem length_serialize_of_mem {pack : TlvPack} {t : Tlv} (h : t ∈ pack) :
    8 + t.value.length ≤ (serialize pack).length := by
  obtain ⟨before, after, rfl⟩ := List.append_of_mem h
  rw [serialize_append, serialize_cons, List.length_append, List.length_append,
    Tlv.length_serialize]
  omega

/-- The rounds of the loop: while something is left a value is taken off the front, which makes
what is left shorter, and the first value that is cut off ends it. -/
inductive Reads : Bytes → Taken → Prop
  | done : Reads [] { complete := true, pack := [], left := [] }
  | item {bs rest : Bytes} {t : Tlv} {taken : Taken} : bs ≠ [] →
      Tlv.unserialize bs = .ok (t, rest) → rest.length < bs.length → Reads rest taken →
      Reads bs { taken with pack := t :: taken.pack }
  | failed {bs : Bytes} : bs ≠ [] → Tlv.unserialize bs = .refused →
      Reads bs { complete := false, pack := [], left := bs.drop 8 }

theorem reads_unserializeLoop {fuel : Nat} {read : TlvPack} {bs : Bytes} (h : bs.length < fuel) :
    ∃ taken, Reads bs taken ∧
      unserializeLoop fuel read bs = { taken with pack := read ++ taken.pack } := by
  induction fuel generalizing read bs with
  | zero => exact absurd h (Nat.not_lt_zero _)
  | succ fuel ih =>
    unfold unserializeLoop
    cases bs with
    | nil => exact ⟨_, .done, by simp⟩
    | cons b bs =>
      have hne : b :: bs ≠ [] := List.cons_ne_nil b bs
      rw [if_neg (by simp)]
      rcases Tlv.unserialize_cases hne with ⟨t, skipped, rest, hread, hsplit, hskip, -⟩ | hread
      · have hshorter : rest.length < (b :: bs).length := by
          have hpos := List.length_pos_iff.mpr hskip
          have hlen := congrArg List.length hsplit
          rw [List.length_append, List.length_append] at hlen
          omega
        obtain ⟨taken, hreads, hloop⟩ := @ih (read ++ [t]) rest (by omega)
        refine ⟨_, .item hne hread hshorter hreads, ?_⟩
        rw [hread]
        show unserializeLoop fuel (read ++ [t]) rest = _
        rw [hloop, List.append_assoc]
        rfl
      · refine ⟨_, .failed hne hread, ?_⟩
        rw [hread, List.append_nil]

/-- The loop ends on any bytes. -/
theorem reads_unserialize (bs : Bytes) : Reads bs (unserialize bs) := by
  obtain ⟨taken, hreads, hloop⟩ := @reads_unserializeLoop (bs.length + 1) [] bs (Nat.lt_succ_self _)
  rw [unserialize, hloop]
  exact hreads

/-- What is left is the end of what there was. -/
theorem Reads.left_suffix {bs : Bytes} {taken : Taken} (h : Reads bs taken) : taken.left <:+ bs := by
  induction h with
  | done => exact List.suffix_rfl
  | item _ hread _ _ ih => exact ih.trans (Tlv.suffix_of_unserialize hread)
  | failed => exact List.drop_suffix _ _

theorem Reads.apart {bs : Bytes} {taken : Taken} (h : Reads bs taken) :
    Apart (taken.pack.map (·.value)) bs := by
  induction h with
  | done => exact .nil []
  | item hne hread _ _ ih =>
    rcases Tlv.unserialize_cases hne with ⟨t, skipped, rest, hread', hsplit, -⟩ | hrefused
    · rw [hread] at hread'
      cases hread'
      rw [hsplit]
      exact .cons skipped _ ih
    · rw [hread] at hrefused
      cases hrefused
  | failed => exact .nil _

/-- What the loop read was written, up to a rest that counts as a value without a tag. -/
theorem Reads.written {bs : Bytes} {taken : Taken} (h : Reads bs taken) :
    ∃ pack tail, bs = TlvPack.serialize pack ++ tail ∧
      (taken.pack = pack ∨ taken.pack = pack ++ [({} : Tlv)]) := by
  induction h with
  | done => exact ⟨[], [], rfl, .inl rfl⟩
  | @item bs rest t taken hne hread hlt hreads ih =>
    obtain ⟨pack, tail, hsplit, hpack⟩ := ih
    by_cases h8 : 8 ≤ bs.length
    · refine ⟨t :: pack, tail, ?_, ?_⟩
      · rw [Tlv.serialize_of_unserialize h8 hread, hsplit, serialize, serialize, List.flatMap_cons,
          List.append_assoc]
      · exact hpack.imp (congrArg (t :: ·)) (congrArg (t :: ·))
    · rw [Tlv.unserialize, if_pos (Nat.not_le.mp h8)] at hread
      cases hread
      cases hreads with
      | done => exact ⟨[], bs, rfl, .inr rfl⟩
      | item hnil => exact absurd rfl hnil
      | failed hnil => exact absurd rfl hnil
  | @failed bs hne hread => exact ⟨[], bs, rfl, .inl rfl⟩

/-- Reading goes through what was written in front of other bytes. -/
theorem Reads.of_append {pack : TlvPack} {rest : Bytes} {taken : Taken}
    (hshort : ∀ t ∈ pack, t.value.length < 2 ^ 32) (h : Reads (serialize pack ++ rest) taken) :
    ∃ later, Reads rest later ∧ taken.pack = pack ++ later.pack := by
  induction pack generalizing taken with
  | nil => exact ⟨taken, h, rfl⟩
  | cons t pack ih =>
    obtain ⟨ht, hshort⟩ := List.forall_mem_cons.mp hshort
    rw [serialize_cons, List.append_assoc] at h
    have hread := Tlv.unserialize_serialize ht (serialize pack ++ rest)
    generalize hbs : t.serialize ++ (serialize pack ++ rest) = bs at h hread
    cases h with
    | done => cases hbs
    | item _ hread' _ hreads =>
      rw [hread] at hread'
      cases hread'
      obtain ⟨later, hlater, hpack⟩ := ih hshort hreads
      exact ⟨later, hlater, congrArg (t :: ·) hpack⟩
    | failed _ hrefused =>
      rw [hread] at hrefused
      cases hrefused

/-- A length prefix of 32 bits has no longer values. -/
theorem Reads.length_value_lt {bs : Bytes} {taken : Taken} (h : Reads bs taken) :
    ∀ t ∈ taken.pack, t.value.length < 2 ^ 32 := by
  induction h with
  | done => exact fun t ht => absurd ht List.not_mem_nil
  | item hne hread _ _ ih =>
    intro x hx
    rcases List.mem_cons.mp hx with rfl | hx
    · rcases Tlv.unserialize_cases hne with ⟨t, skipped, rest, hread', -, -, hlt⟩ | hrefused
      · rw [hread] at hread'
        cases hread'
        exact hlt
      · rw [hread] at hrefused
        cases hrefused
    · exact ih x hx
  | failed => exact fun t ht => absurd ht List.not_mem_nil

/-- A pack is read back when no value is longer than its length prefix can say, and then the packs
within it can be read from their values. Any other bytes are read to an end too, and what was read
of them lies in them in order. -/
theorem read_back_iff (pack : TlvPack) (data : Bytes) :
    ((unserialize pack.serialize).complete = true ∧ (unserialize pack.serialize).pack = pack ↔
      ∀ t ∈ pack, t.value.length < 2 ^ 32) ∧
    ((∀ t ∈ pack, t.value.length < 2 ^ 32) → ∀ type inner, Tlv.ofPack type inner ∈ pack →
      (Tlv.ofPack type inner).getPack = inner) ∧
    Reads data (unserialize data) ∧
    ((unserialize data).complete = true → Apart ((unserialize data).pack.map (·.value)) data) := by
  refine ⟨⟨fun h => ?_, fun h => ?_⟩, fun h type inner hmem => ?_, reads_unserialize data, fun _ => ?_⟩
  · have hlt := (reads_unserialize pack.serialize).length_value_lt
    rwa [h.2] at hlt
  · rw [unserialize_serialize h]
    exact ⟨rfl, rfl⟩
  · exact Tlv.getPack_ofPack (h _ hmem)
  · exact (reads_unserialize data).apart

/-- A value of 4 GiB is written with the length zero. -/
theorem long_value_not_read_back :
    ¬ ∀ pack : TlvPack, (unserialize pack.serialize).complete = true ∧
      (unserialize pack.serialize).pack = pack := by
  intro h
  let pack : TlvPack := [{ type := 5, value := List.replicate (2 ^ 32) 0 }]
  have hlt := (reads_unserialize pack.serialize).length_value_lt
  rw [(h pack).2] at hlt
  have hself := hlt _ List.mem_cons_self
  rw [List.length_replicate] at hself
  exact Nat.lt_irrefl _ hself

end TlvPack

end Icq.Tools
