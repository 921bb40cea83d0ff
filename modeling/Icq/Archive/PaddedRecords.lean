import Icq.Archive.RecordKinds
import Icq.Lib.Words
import Icq.Tools.TlvPack

/-! What reading a padded record gives back. -/

namespace Icq.Archive
open Icq.Lib Icq.Tools

variable {a : Reaction} {items : List Reaction} {data bs tail : Bytes} {pack : TlvPack} {t : Tlv}

namespace Reaction

/-- The item a field stands for, if it is one. -/
def ofField (field : Tlv) : Option Reaction :=
  if field.type = rdReactionItem then Reaction.unserialize field.getPack else none

theorem ofField_eq_none (h : t.type ≠ rdReactionItem) : ofField t = none := if_neg h

theorem ofField_serialize (ht : a.reaction.length < 2 ^ 32)
    (hv : a.serialize.value.length < 2 ^ 32) : ofField a.serialize = some a := by
  have htype : a.serialize.type = rdReactionItem := rfl
  rw [ofField, if_pos htype, Reaction.unserialize_serialize ht hv]

/-- The value of an item has its text, and a counter that is not zero before or behind it. -/
theorem written_of_ofField (h : ofField t = some a) :
    t.type = rdReactionItem ∧ ∃ (front back : TlvPack) (rest : Bytes),
      t.value = front.serialize ++
        ((⟨rdReaction, a.reaction⟩ : Tlv).serialize ++ (back.serialize ++ rest)) ∧
      (a.count ≠ 0 → 16 ≤ front.serialize.length ∨ 16 ≤ back.serialize.length) := by
  have htype : t.type = rdReactionItem := by
    by_contra hn
    rw [ofField_eq_none hn] at h
    cases h
  rw [ofField, if_pos htype, Tlv.getPack] at h
  obtain ⟨pack, rest, hvalue, hpack⟩ := (TlvPack.reads_unserialize t.value).written
  have hget (type : UInt32) (hne : type ≠ 0) :
      (TlvPack.unserialize t.value).pack.getItem type = pack.getItem type := by
    rcases hpack with hp | hp
    · rw [hp]
    · rw [hp, TlvPack.getItem_append, TlvPack.getItem_cons, if_neg (fun h => hne h.symm),
        TlvPack.getItem_nil, Option.or_none]
  rw [Reaction.unserialize, getText, getScalar, hget _ (by decide), hget _ (by decide)] at h
  cases hfound : pack.getItem rdReaction with
  | none => simp [hfound] at h
  | some x =>
    simp only [hfound, Option.map_some, Option.some.injEq] at h
    obtain ⟨htag, front, back, hsplit, -⟩ := List.find?_eq_some_iff_append.mp hfound
    obtain ⟨type, text⟩ := x
    obtain rfl : type = rdReaction := by simpa using htag
    subst h
    refine ⟨htype, front, back, rest, ?_, fun hcount => ?_⟩
    · rw [hvalue, hsplit, TlvPack.serialize_append, TlvPack.serialize_cons, List.append_assoc,
        List.append_assoc]
    · -- a counter that is there lies in a field of eight bytes
      cases hcounter : pack.getItem rdCounter with
      | none => simp [hcounter] at hcount
      | some y =>
        simp only [hcounter, Option.map_some, Option.getD_some] at hcount
        have hlong : 8 ≤ y.value.length := by
          by_contra hn
          have hread : Scalar.read Int64 y.value = none := if_pos (Nat.not_le.mp hn)
          apply hcount
          rw [Tlv.getValue, hread]
          rfl
        have hy : y.type = rdCounter := by simpa using List.find?_some hcounter
        have hmem := List.mem_of_find?_eq_some hcounter
        rw [hsplit, List.mem_append, List.mem_cons] at hmem
        rcases hmem with hm | rfl | hm
        · have := TlvPack.length_serialize_of_mem hm
          exact .inl (by omega)
        · exact absurd (show rdReaction = rdCounter from hy) (by decide)
        · have := TlvPack.length_serialize_of_mem hm
          exact .inr (by omega)

end Reaction

namespace ReactionsData

/-- The bytes of the items. -/
def itemBytes (items : List Reaction) : Bytes := TlvPack.serialize (items.map Reaction.serialize)

theorem itemBytes_cons (ht : a.reaction.length < 2 ^ 32) :
    ∃ head : Bytes, head.length = 8 ∧ itemBytes (a :: items) =
      head ++ ((⟨rdReaction, a.reaction⟩ : Tlv).serialize ++
        ((Tlv.ofScalar rdCounter a.count).serialize ++ itemBytes items)) := by
  refine ⟨Scalar.encode rdReactionItem ++ Scalar.encode (UInt32.ofNat a.serialize.value.length), rfl, ?_⟩
  simp [itemBytes, TlvPack.serialize, Tlv.serialize, Reaction.serialize, Tlv.ofPack, Tlv.ofText,
    Tlv.textValue_eq ht]

/-- The bytes of a counter of zero do not have the tag of a text. -/
theorem not_mem_counter (h : a.count = 0) :
    (4 : UInt8) ∉ (Tlv.ofScalar rdCounter a.count).serialize := by
  rw [h]
  decide

/-- Bytes at the end of some data take items off them only where these were not passed before:
reading items takes as many bytes as writing them. -/
theorem length_itemBytes_le (ht : ∀ x ∈ items, x.reaction.length < 2 ^ 32)
    (hitems : itemBytes items <:+ data) (hbs : bs <:+ data) (hread : bs = TlvPack.serialize pack ++ tail)
    (h : pack.filterMap Reaction.ofField = items) : (itemBytes items).length ≤ bs.length := by
  induction items generalizing bs pack with
  | nil => exact Nat.zero_le _
  | cons a items ih =>
    obtain ⟨ha, ht⟩ := List.forall_mem_cons.mp ht
    obtain ⟨before, o, after, rfl, -, ho, hafter⟩ := List.filterMap_eq_cons_iff.mp h
    obtain ⟨-, front, back, rest, hvalue, hcount⟩ := Reaction.written_of_ofField ho
    obtain ⟨head, hhead, hbytes⟩ := @itemBytes_cons a items ha
    obtain ⟨word, hword⟩ : ∃ w, (⟨rdReaction, a.reaction⟩ : Tlv).serialize = 4 :: w := ⟨_, rfl⟩
    obtain ⟨p, hp⟩ := hitems
    obtain ⟨q, hq⟩ := hbs
    rw [hword] at hbytes hvalue
    have hwritten : data = p ++ head ++ (4 :: word) ++
        ((Tlv.ofScalar rdCounter a.count).serialize ++ itemBytes items) := by
      rw [← hp, hbytes, List.append_assoc, List.append_assoc]
    have hfound : data = q ++ (TlvPack.serialize before ++ ((Scalar.encode o.type ++
          Scalar.encode (UInt32.ofNat o.value.length)) ++ front.serialize)) ++ (4 :: word) ++
        (back.serialize ++ (rest ++ (TlvPack.serialize after ++ tail))) := by
      rw [← hq, hread, TlvPack.serialize_append, TlvPack.serialize_cons, Tlv.serialize, hvalue]
      simp only [List.append_assoc]
    have hlater : (itemBytes items).length ≤ (TlvPack.serialize after ++ tail).length := by
      refine ih ht ?_ ?_ rfl hafter
      · rw [hwritten]
        exact (List.suffix_append _ _).trans (List.suffix_append _ _)
      · rw [hfound]
        exact ((List.suffix_append _ _).trans (List.suffix_append _ _)).trans
          (List.suffix_append _ _)
    have hcounter : (Tlv.ofScalar rdCounter a.count).serialize.length = 16 :=
      Tlv.length_serialize _
    by_contra hshort
    have hbefore : p.length < q.length := by
      have hall := congrArg List.length (hp.trans hq.symm)
      rw [List.length_append, List.length_append] at hall
      omega
    -- the text of the item stands where it was written, and again where it was read
    have htwice := hwritten.symm.trans hfound
    have hroom : q.length + (TlvPack.serialize before).length + front.serialize.length +
        back.serialize.length ≤ p.length + 16 := by
      have hlength := congrArg List.length htwice
      simp only [List.length_append, hhead, hcounter, Scalar.length_encode, Scalar.width] at hlength
      rw [List.length_append] at hlater
      omega
    -- so the tag of the text is a byte of the counter
    have hmem : (4 : UInt8) ∈ (Tlv.ofScalar rdCounter a.count).serialize := by
      refine mem_of_again htwice ?_ ?_
      · simp only [List.length_append, hhead, Scalar.length_encode, Scalar.width]
        omega
      · simp only [List.length_append, hhead, hcounter, Scalar.length_encode, Scalar.width]
        omega
    have hne : a.count ≠ 0 := fun h => not_mem_counter h hmem
    rcases hcount hne with hf | hb
    · omega
    · omega

theorem length_value_serialize (ht : a.reaction.length < 2 ^ 32) :
    a.serialize.value.length = a.reaction.length + 24 := by
  simp only [Reaction.serialize, Tlv.ofPack, TlvPack.serialize, List.flatMap_cons,
    List.flatMap_nil, List.append_nil, List.length_append, Tlv.length_serialize, Tlv.value_ofText,
    Tlv.textValue_eq ht, Tlv.ofScalar, Scalar.length_encode, Scalar.width]
  omega

theorem length_lt_of_ofField (h : Reaction.ofField t = some a) :
    a.reaction.length + 8 ≤ t.value.length := by
  obtain ⟨-, front, back, rest, hvalue, -⟩ := Reaction.written_of_ofField h
  have hlength := congrArg List.length hvalue
  rw [List.length_append, List.length_append, Tlv.length_serialize] at hlength
  simp only at hlength
  omega

/-- The first field read off the items. -/
theorem length_first_field {rest : Bytes} (ht : a.reaction.length < 2 ^ 32)
    (h : Tlv.unserialize (itemBytes (a :: items)) = .ok (t, rest)) :
    t.value.length = (a.reaction.length + 24) % 2 ^ 32 ∧
      (itemBytes (a :: items)).length = 8 + t.value.length + rest.length := by
  have hbytes : itemBytes (a :: items) = a.serialize.serialize ++ itemBytes items := rfl
  have hlong : 8 ≤ (itemBytes (a :: items)).length := by
    rw [hbytes, List.length_append, Tlv.length_serialize]
    omega
  have hwritten := Tlv.serialize_of_unserialize hlong h
  have hlength : (itemBytes (a :: items)).length = 8 + t.value.length + rest.length := by
    rw [hwritten, List.length_append, Tlv.length_serialize]
  refine ⟨?_, hlength⟩
  rw [hbytes, Tlv.serialize, Tlv.serialize, List.append_assoc, List.append_assoc, List.append_assoc,
    List.append_assoc] at hwritten
  obtain ⟨-, htail⟩ := List.append_inj hwritten (by rw [Scalar.length_encode, Scalar.length_encode])
  obtain ⟨hword, -⟩ := List.append_inj htail (by rw [Scalar.length_encode, Scalar.length_encode])
  have hsame := congrArg UInt32.toNat (Scalar.encode_injective hword)
  rw [UInt32.toNat_ofNat', UInt32.toNat_ofNat', length_value_serialize ht] at hsame
  rw [hsame, Nat.mod_eq_of_lt (Tlv.length_value_lt h)]

/-- Items are read back only if the value of each of them fits its length. -/
theorem values_of_read_back {taken : TlvPack.Taken}
    (ht : ∀ x ∈ items, x.reaction.length < 2 ^ 32) (h : TlvPack.Reads (itemBytes items) taken)
    (hitems : taken.pack.filterMap Reaction.ofField = items) :
    ∀ x ∈ items, x.reaction.length + 24 < 2 ^ 32 := by
  induction items generalizing taken with
  | nil => exact fun x hx => absurd hx List.not_mem_nil
  | cons a items ih =>
    obtain ⟨ha, ht'⟩ := List.forall_mem_cons.mp ht
    have hvalue := length_value_serialize ha
    cases h with
    | failed => cases hitems
    | @item _ rest t taken hne hread hlt hreads =>
      obtain ⟨hfirst, hlength⟩ := length_first_field ha hread
      by_cases hfits : a.reaction.length + 24 < 2 ^ 32
      · have hread' : Tlv.unserialize (itemBytes (a :: items)) = .ok (a.serialize, itemBytes items) :=
          Tlv.unserialize_serialize (hvalue ▸ hfits) _
        rw [hread] at hread'
        cases hread'
        have hfield := Reaction.ofField_serialize ha (hvalue ▸ hfits)
        rw [List.filterMap_cons_some hfield] at hitems
        exact List.forall_mem_cons.mpr
          ⟨hfits, ih ht' hreads (List.cons.inj hitems).2⟩
      · exfalso
        cases hfield : Reaction.ofField t with
        | some x =>
          rw [List.filterMap_cons_some hfield] at hitems
          obtain rfl : x = a := (List.cons.inj hitems).1
          have := length_lt_of_ofField hfield
          omega
        | none =>
          rw [List.filterMap_cons_none hfield] at hitems
          obtain ⟨pack, tail, hwritten, hpack⟩ := hreads.written
          have hpackItems : pack.filterMap Reaction.ofField = a :: items := by
            rcases hpack with hp | hp
            · rw [← hp, hitems]
            · rw [hp, List.filterMap_append, List.filterMap_cons_none (by rfl), List.filterMap_nil,
                List.append_nil] at hitems
              exact hitems
          have hle := length_itemBytes_le ht (List.suffix_refl _)
            (Tlv.suffix_of_unserialize hread) hwritten hpackItems
          omega

theorem reactions_foldl (pack : TlvPack) (r : ReactionsData) :
    (pack.foldl readField r).reactions = r.reactions ++ pack.filterMap Reaction.ofField := by
  induction pack generalizing r with
  | nil => exact (List.append_nil _).symm
  | cons t pack ih =>
    have hfield : (readField r t).reactions = r.reactions ++ (Reaction.ofField t).toList := by
      unfold readField Reaction.ofField
      split
      · rename_i h
        rw [if_neg (by rw [h]; decide)]
        exact (List.append_nil _).symm
      · split
        · rename_i h
          rw [if_neg (by rw [h]; decide)]
          exact (List.append_nil _).symm
        · split
          · rfl
          · exact (List.append_nil _).symm
    rw [List.foldl_cons, ih, hfield, List.append_assoc]
    cases hof : Reaction.ofField t with
    | none => rw [List.filterMap_cons_none hof]; rfl
    | some x => rw [List.filterMap_cons_some hof]; rfl

theorem myReaction_foldl (h : ∀ t ∈ pack, t.value.length < 2 ^ 32) {r : ReactionsData}
    (hr : r.myReaction.length < 2 ^ 32) : (pack.foldl readField r).myReaction.length < 2 ^ 32 := by
  refine List.foldlRecOn pack readField
    (motive := fun r : ReactionsData => r.myReaction.length < 2 ^ 32) hr fun r hr t ht => ?_
  unfold readField
  split
  · exact hr
  · split
    · exact h t ht
    · split
      · exact hr
      · exact hr

/-- A record that is read back has no text its fields cannot hold. -/
theorem fits_of_read_back {r : ReactionsData} {left : Bytes}
    (h : ReactionsData.unserialize r.serialize = (some r.kept, left)) :
    r.myReaction.length < 2 ^ 32 ∧ ∀ x ∈ r.reactions, x.reaction.length + 24 < 2 ^ 32 := by
  have hfold : (TlvPack.unserialize r.serialize).pack.foldl readField {} = r.kept := by
    have hfst := congrArg Prod.fst h
    simp only [ReactionsData.unserialize] at hfst
    split at hfst
    · exact Option.some.inj hfst
    · cases hfst
  have hreads := TlvPack.reads_unserialize r.serialize
  have hitems : (TlvPack.unserialize r.serialize).pack.filterMap Reaction.ofField = r.reactions := by
    have hreactions := congrArg ReactionsData.reactions hfold
    have hempty : ({} : ReactionsData).reactions = [] := rfl
    rw [reactions_foldl, hempty, List.nil_append] at hreactions
    exact hreactions
  have htexts : ∀ x ∈ r.reactions, x.reaction.length < 2 ^ 32 := by
    intro x hx
    rw [← hitems] at hx
    obtain ⟨t, ht, hof⟩ := List.mem_filterMap.mp hx
    have := length_lt_of_ofField hof
    have := hreads.length_value_lt t ht
    omega
  refine ⟨?_, ?_⟩
  · have hmy := myReaction_foldl hreads.length_value_lt (r := {}) (Nat.two_pow_pos 32)
    rw [hfold] at hmy
    exact hmy
  · -- the two fields in front of the items are read off first
    let front : TlvPack := [.ofScalar rdMsgId r.msgId, .ofText rdMyReaction r.myReaction]
    have hfront : ∀ t ∈ front, t.value.length < 2 ^ 32 := by
      intro t ht
      rcases List.mem_cons.mp ht with rfl | ht
      · show 8 < 2 ^ 32
        decide
      · rw [List.mem_singleton.mp ht]
        exact Tlv.length_textValue _
    have hbytes : r.serialize = front.serialize ++ itemBytes r.reactions :=
      TlvPack.serialize_append front (r.reactions.map Reaction.serialize)
    obtain ⟨later, hlater, hpack⟩ := TlvPack.Reads.of_append hfront (hbytes ▸ hreads)
    rw [← hbytes] at hpack
    have hid : (Tlv.ofScalar rdMsgId r.msgId).type ≠ rdReactionItem :=
      show rdMsgId ≠ rdReactionItem by decide
    have hmine : (Tlv.ofText rdMyReaction r.myReaction).type ≠ rdReactionItem :=
      show rdMyReaction ≠ rdReactionItem by decide
    have hnone : front.filterMap Reaction.ofField = [] := by
      rw [List.filterMap_cons_none (Reaction.ofField_eq_none hid),
        List.filterMap_cons_none (Reaction.ofField_eq_none hmine), List.filterMap_nil]
    rw [hpack, List.filterMap_append, hnone, List.nil_append] at hitems
    exact values_of_read_back htexts hlater hitems

theorem pack_fits {r : ReactionsData} (hitems : ∀ x ∈ r.reactions, x.reaction.length + 24 < 2 ^ 32) :
    ∀ t ∈ r.pack, t.value.length < 2 ^ 32 := by
  intro t ht
  rcases List.mem_append.mp ht with hfront | hitem
  · rcases List.mem_cons.mp hfront with rfl | hmy
    · show 8 < 2 ^ 32
      decide
    · rw [List.mem_singleton.mp hmy]
      exact Tlv.length_textValue _
  · obtain ⟨x, hx, rfl⟩ := List.mem_map.mp hitem
    have hfits := hitems x hx
    rw [length_value_serialize (by omega)]
    exact hfits

end ReactionsData

namespace ThreadUpdate

/-- The texts of an update that fields can hold. -/
structure Fits (u : ThreadUpdate) : Prop where
  id : u.id.length < 2 ^ 32
  chatId : u.parentTopic.chatId.length < 2 ^ 32
  taskId : u.parentTopic.taskId.length < 2 ^ 32

theorem Fits.ite {p : Prop} [Decidable p] {u v : ThreadUpdate} (hu : u.Fits) (hv : v.Fits) :
    (if p then u else v).Fits := by
  split
  · exact hu
  · exact hv

/-- Of the fields three are texts. -/
theorem Fits.readField {u : ThreadUpdate} (hu : u.Fits) (ht : t.value.length < 2 ^ 32) :
    (readField u t).Fits := by
  refine .ite ⟨ht, hu.chatId, hu.taskId⟩ (.ite ⟨hu.id, hu.chatId, hu.taskId⟩ ?_)
  refine .ite ⟨hu.id, ht, hu.taskId⟩ (.ite ⟨hu.id, hu.chatId, hu.taskId⟩ ?_)
  refine .ite ⟨hu.id, hu.chatId, ht⟩ (.ite ⟨hu.id, hu.chatId, hu.taskId⟩ ?_)
  refine .ite ⟨hu.id, hu.chatId, hu.taskId⟩ (.ite ⟨hu.id, hu.chatId, hu.taskId⟩ ?_)
  refine .ite ⟨hu.id, hu.chatId, hu.taskId⟩ (.ite ⟨hu.id, hu.chatId, hu.taskId⟩ ?_)
  exact .ite ⟨hu.id, hu.chatId, hu.taskId⟩ hu

theorem fits_of_read_back {u : ThreadUpdate} {left : Bytes}
    (h : ThreadUpdate.unserialize u.serialize = (some u, left)) : u.Fits := by
  have hfold : (TlvPack.unserialize u.serialize).pack.foldl ThreadUpdate.readField {} = u := by
    have hfst := congrArg Prod.fst h
    simp only [ThreadUpdate.unserialize] at hfst
    split at hfst
    · exact Option.some.inj hfst
    · cases hfst
  have hshort := (TlvPack.reads_unserialize u.serialize).length_value_lt
  rw [← hfold]
  exact List.foldlRecOn _ ThreadUpdate.readField (motive := Fits)
    ⟨Nat.two_pow_pos 32, Nat.two_pow_pos 32, Nat.two_pow_pos 32⟩
    fun _ hv t ht => hv.readField (hshort t ht)

theorem pack_fits (u : ThreadUpdate) : ∀ t ∈ u.pack, t.value.length < 2 ^ 32 := by
  have htext (text : Bytes) : (Tlv.textValue text).length < 4294967296 := Tlv.length_textValue text
  simp [pack, Tlv.ofScalar, Scalar.width, htext]

end ThreadUpdate

/-- A record is read back under any padding, and all bytes with it, when its texts fit the fields
they are written to. -/
theorem padded_read_back (r : ReactionsData) (u : ThreadUpdate) (hr : r.msgId ≠ 0)
    (hu : u.isValid = true) :
    ((∀ n, ReactionsData.unserialize (r.serialize ++ List.replicate n 0) = (some r.kept, [])) ↔
      r.myReaction.length < 2 ^ 32 ∧ ∀ x ∈ r.reactions, x.reaction.length + 24 < 2 ^ 32) ∧
    ((∀ n, ThreadUpdate.unserialize (u.serialize ++ List.replicate n 0) = (some u, [])) ↔
      u.Fits) := by
  refine ⟨⟨fun h => ?_, fun ⟨hmy, hitems⟩ n => ?_⟩, ⟨fun h => ?_, fun h n => ?_⟩⟩
  · have h0 := h 0
    rw [List.replicate_zero, List.append_nil] at h0
    exact ReactionsData.fits_of_read_back h0
  · have hreadable : r.Readable := ⟨hr, hmy, fun x hx => by have := hitems x hx; omega⟩
    exact ReactionsData.unserialize_padded hreadable (ReactionsData.pack_fits hitems) n
  · have h0 := h 0
    rw [List.replicate_zero, List.append_nil] at h0
    exact ThreadUpdate.fits_of_read_back h0
  · exact ThreadUpdate.unserialize_padded ⟨hu, h.id, h.chatId, h.taskId⟩ u.pack_fits n

/-- Reactions to message 7, two of them without a counter, and the thread under message 7. -/
theorem padded_read_back_reacted :
    (∀ n, ReactionsData.unserialize (ReactionsData.serialize
        { msgId := 7, myReaction := ascii ['+'], reactions := [⟨ascii ['+'], 2⟩, ⟨ascii ['-'], 0⟩] } ++
        List.replicate n 0) =
      (some { msgId := 7, myReaction := ascii ['+'], reactions := [⟨ascii ['+'], 2⟩, ⟨ascii ['-'], 0⟩] }, [])) ∧
    (∀ n, ThreadUpdate.unserialize (ThreadUpdate.serialize
        { id := ascii ['t'], parentTopic := { type := 1, chatId := ascii ['c'], msgId := 7 } } ++
        List.replicate n 0) =
      (some { id := ascii ['t'], parentTopic := { type := 1, chatId := ascii ['c'], msgId := 7 } }, [])) := by
  have h := padded_read_back
    { msgId := 7, myReaction := ascii ['+'], reactions := [⟨ascii ['+'], 2⟩, ⟨ascii ['-'], 0⟩] }
    { id := ascii ['t'], parentTopic := { type := 1, chatId := ascii ['c'], msgId := 7 } }
    (by decide) (by decide)
  exact ⟨h.1.mpr (by decide), h.2.mpr ⟨by decide, by decide, by decide⟩⟩

/-- A reaction of 4 GiB comes back empty. -/
theorem long_reaction_not_read_back :
    ¬ ∀ (r : ReactionsData) (n : Nat), r.msgId ≠ 0 →
      ReactionsData.unserialize (r.serialize ++ List.replicate n 0) = (some r.kept, []) := by
  intro h
  have h0 := h { msgId := 7, myReaction := List.replicate (2 ^ 32) 43 } 0 (by decide)
  rw [List.replicate_zero, List.append_nil] at h0
  have hshort := (ReactionsData.fits_of_read_back h0).1
  rw [List.length_replicate] at hshort
  exact Nat.lt_irrefl _ hshort

end Icq.Archive
