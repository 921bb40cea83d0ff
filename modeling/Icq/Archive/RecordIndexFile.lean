import Icq.Archive.RecordDataFile

/-! The index file of a record storage: one record a message, each replaced in place. -/

namespace Icq.Archive
open Icq.Lib Icq.Tools

namespace IndexRecord

theorem length_serialize (r : IndexRecord) : r.serialize.length = 32 := by
  simp [serialize, TlvPack.serialize, Tlv.serialize, Tlv.ofScalar, Scalar.width]

theorem unserialize_serialize (r : IndexRecord) : unserialize r.serialize = (true, r) := by
  have hsmall : ∀ t ∈ ([.ofScalar tlvIndexOffset r.offset, .ofScalar tlvIndexMsgId r.msgId] : TlvPack),
      t.value.length < 2 ^ 32 := by
    simp [Tlv.ofScalar, Scalar.width]
  have hread := TlvPack.unserialize_serialize hsmall
  simp only [unserialize, serialize, hread]
  simp [getScalar, TlvPack.getItem_cons, tlvIndexOffset, tlvIndexMsgId]

end IndexRecord

namespace RecordStorage

/-- The index record of a message. -/
def entry (index : Offsets) (id : Int64) : IndexRecord :=
  { offset := Int64.ofInt (((index.find? id).map Prod.snd).getD 0), msgId := id }

def entries (index : Offsets) (ids : List Int64) : List Bytes :=
  ids.map fun id => (entry index id).serialize

/-- The index file has a record for each message of the index, in some order. -/
structure IndexFile (bytes : Bytes) (ids : List Int64) (index : Offsets) : Prop where
  bytes : bytes = frames (entries index ids)
  nodup : ids.Nodup
  mem : ∀ id, id ∈ ids ↔ (index.find? id).isSome = true

/-- Where the index records lie. -/
def Places (places : Offsets) (ids : List Int64) : Prop :=
  ∀ id, places.find? id = if id ∈ ids then some (id, ((48 * ids.idxOf id : Nat) : Int)) else none

/-- The offsets are numbers of 64 bits. -/
def Narrow (index : Offsets) : Prop :=
  ∀ id p, index.find? id = some p → (Int64.ofInt p.2).toInt = p.2

theorem putAll_narrow {index : Offsets} (h : Narrow index) (added : List IndexRecord) :
    Narrow (putAll index added) := by
  induction added generalizing index with
  | nil => exact h
  | cons r added ih =>
    apply ih
    intro id p hp
    rw [KeyMap.find_put] at hp
    split at hp
    · cases hp
      rw [Int64.ofInt_toInt]
    · exact h id p hp

theorem length_entries (index : Offsets) (ids : List Int64) : (entries index ids).length = ids.length :=
  List.length_map ..

theorem offsetOf_entries (index : Offsets) {ids : List Int64} {j : Nat} (h : j ≤ ids.length) :
    offsetOf (entries index ids) j = 48 * j := by
  induction j with
  | zero => simp [offsetOf, frames]
  | succ j ih =>
    have hj : j < (entries index ids).length := by rw [length_entries]; omega
    have hlen : (entries index ids)[j].length = 32 := by
      simp [entries, IndexRecord.length_serialize]
    rw [offsetOf_succ hj, ih (by omega), hlen]
    omega

theorem entry_put_self (index : Offsets) (r : IndexRecord) :
    entry (index.put (r.msgId, r.offset.toInt)) r.msgId = r := by
  simp [entry]

theorem entry_put_of_ne (index : Offsets) (r : IndexRecord) {id : Int64} (h : id ≠ r.msgId) :
    entry (index.put (r.msgId, r.offset.toInt)) id = entry index id := by
  simp [entry, Ne.symm h]

theorem entries_put_set {index : Offsets} {ids : List Int64} (hnodup : ids.Nodup) {r : IndexRecord}
    (hin : r.msgId ∈ ids) : (entries index ids).set (ids.idxOf r.msgId) r.serialize =
      entries (index.put (r.msgId, r.offset.toInt)) ids := by
  have hlt : ids.idxOf r.msgId < ids.length := List.idxOf_lt_length_of_mem hin
  refine List.ext_getElem (by simp [entries]) fun j hj hj' => ?_
  have hjl : j < ids.length := by simpa [entries] using hj'
  rw [List.getElem_set]
  split
  · rename_i hidx
    subst hidx
    simp [entries, List.getElem_idxOf hlt, entry_put_self]
  · rename_i hidx
    have hother : ids[j] ≠ r.msgId := fun heq => hidx (by
      rw [← heq, hnodup.idxOf_getElem j hjl])
    simp [entries, entry_put_of_ne index r hother]

theorem entries_put_concat {index : Offsets} {ids : List Int64} {r : IndexRecord}
    (hin : r.msgId ∉ ids) : entries index ids ++ [r.serialize] =
      entries (index.put (r.msgId, r.offset.toInt)) (ids ++ [r.msgId]) := by
  rw [entries, entries, List.map_append, List.map_singleton, entry_put_self]
  congr 1
  refine List.map_congr_left fun id hid => ?_
  rw [entry_put_of_ne index r (fun h => hin (h ▸ hid))]

theorem Places.concat {places : Offsets} {ids : List Int64} (hp : Places places ids) {x : Int64}
    (hin : x ∉ ids) :
    Places (places.put (x, ((48 * ids.length : Nat) : Int))) (ids ++ [x]) := by
  intro id
  rw [KeyMap.find_put, hp id]
  by_cases hid : x = id
  · subst hid
    rw [if_pos rfl, if_pos (List.mem_append_right _ (List.mem_singleton_self _)),
      List.idxOf_append_of_notMem hin]
    simp
  · rw [if_neg hid]
    by_cases hin' : id ∈ ids
    · rw [if_pos hin', if_pos (List.mem_append_left _ hin'), List.idxOf_append_of_mem hin']
    · rw [if_neg hin', if_neg]
      simp [hin', Ne.symm hid]

/-- An index record that is saved takes the place of the older one, or comes behind the others. -/
theorem saveIndexRecord_holds {storage : Storage} {places index : Offsets} {ids : List Int64}
    (hf : IndexFile storage.stream.bytes ids index) (hp : Places places ids)
    (he : storage.stream.AtEnd) (ha : storage.stream.append = false)
    (hr : storage.stream.room = none) (r : IndexRecord) :
    ∃ ids', IndexFile (saveIndexRecord (storage, places) r).1.stream.bytes ids'
        (index.put (r.msgId, r.offset.toInt)) ∧
      Places (saveIndexRecord (storage, places) r).2 ids' ∧
      (saveIndexRecord (storage, places) r).1.stream.AtEnd ∧
      (saveIndexRecord (storage, places) r).1.stream.append = false ∧
      (saveIndexRecord (storage, places) r).1.stream.room = none := by
  have hne : r.serialize ≠ [] := fun hnil => by
    have hlen := r.length_serialize
    rw [hnil] at hlen
    cases hlen
  have hmax : r.serialize.length ≤ maxDataBlockSize.toNat := by
    rw [r.length_serialize]
    decide
  have hmem (id : Int64) : ((index.put (r.msgId, r.offset.toInt)).find? id).isSome = true ↔
      id = r.msgId ∨ id ∈ ids := by
    rw [KeyMap.find_put, hf.mem]
    split
    · rename_i hid
      simp [← hid]
    · rename_i hid
      simp [Ne.symm hid]
  unfold saveIndexRecord
  by_cases hin : r.msgId ∈ ids
  · have hplace := hp r.msgId
    rw [if_pos hin] at hplace
    simp only [hplace]
    have hlt : ids.idxOf r.msgId < ids.length := List.idxOf_lt_length_of_mem hin
    have helt : ids.idxOf r.msgId < (entries index ids).length := by rwa [length_entries]
    obtain ⟨hbytes, hend, happ, hroom⟩ := Storage.writeDataBlockAt_frames hf.bytes he.good ha hr helt
      (p := r.serialize) (by simp [entries, IndexRecord.length_serialize]) hne hmax
    rw [offsetOf_entries index (Nat.le_of_lt hlt)] at hbytes hend happ hroom
    refine ⟨ids, ⟨hbytes.trans (congrArg frames (entries_put_set hf.nodup hin)), hf.nodup,
      fun id => ?_⟩, hp, hend, happ, hroom⟩
    rw [hmem id]
    exact ⟨.inr, fun h => h.elim (fun he => he ▸ hin) fun hm => hm⟩
  · have hplace := hp r.msgId
    rw [if_neg hin] at hplace
    simp only [hplace]
    obtain ⟨hbytes, hend, happ, hroom, hoff⟩ := Storage.writeDataBlock_frames hf.bytes he hr ha hne hmax
    refine ⟨ids ++ [r.msgId], ⟨hbytes.trans (congrArg frames (entries_put_concat hin)), ?_,
      fun id => ?_⟩, ?_, hend, happ, hroom⟩
    · rw [List.nodup_append]
      exact ⟨hf.nodup, by simp, fun a ha b hb => by
        rw [List.mem_singleton.mp hb]
        exact fun h => hin (h ▸ ha)⟩
    · rw [hmem id, List.mem_append, List.mem_singleton, or_comm]
    · rw [hoff, length_entries, offsetOf_entries index (Nat.le_refl _)]
      exact hp.concat hin

theorem saveIndexRecord_fold {storage : Storage} {places index : Offsets} {ids : List Int64}
    (hf : IndexFile storage.stream.bytes ids index) (hp : Places places ids)
    (he : storage.stream.AtEnd) (ha : storage.stream.append = false)
    (hr : storage.stream.room = none) (added : List IndexRecord) :
    ∃ ids', IndexFile (added.foldl saveIndexRecord (storage, places)).1.stream.bytes ids'
        (putAll index added) ∧
      Places (added.foldl saveIndexRecord (storage, places)).2 ids' ∧
      (added.foldl saveIndexRecord (storage, places)).1.stream.room = none := by
  induction added generalizing storage places index ids with
  | nil => exact ⟨ids, hf, hp, hr⟩
  | cons r added ih =>
    obtain ⟨ids', hf', hp', he', ha', hr'⟩ := saveIndexRecord_holds hf hp he ha hr r
    exact ih hf' hp' he' ha' hr'

/-- Loading takes over every index record, over what was there. -/
theorem loadRecords_holds {storage : Storage} {data : BinaryStream} {index : Offsets}
    (hn : Narrow index) {ids : List Int64} {fuel done : Nat} {maps : Offsets × Offsets}
    (hmem : ∀ id ∈ ids, (index.find? id).isSome = true) (hnodup : ids.Nodup)
    (hg : storage.stream.good = true) (hpos : storage.stream.pos = 48 * done)
    (hd : storage.stream.ahead = frames (entries index ids)) (ho : data.Ordered)
    (hu : data.unread = []) (hfuel : ids.length < fuel) :
    (∀ id, (loadRecords fuel storage data ((48 * done : Nat) : Int) maps).1.find? id =
        if id ∈ ids then index.find? id else maps.1.find? id) ∧
      ∀ id, (loadRecords fuel storage data ((48 * done : Nat) : Int) maps).2.find? id =
        if id ∈ ids then some (id, ((48 * (done + ids.idxOf id) : Nat) : Int)) else maps.2.find? id := by
  induction ids generalizing storage data fuel done maps with
  | nil =>
    obtain ⟨fuel, rfl⟩ := Nat.exists_eq_add_one_of_ne_zero (by omega : fuel ≠ 0)
    simp [loadRecords, Storage.readDataBlock_end data hg hd]
  | cons x ids ih =>
    obtain ⟨fuel, rfl⟩ := Nat.exists_eq_add_one_of_ne_zero (by omega : fuel ≠ 0)
    have hlen := (entry index x).length_serialize
    have hmax : (entry index x).serialize.length ≤ maxDataBlockSize.toNat := by
      rw [hlen]
      decide
    obtain ⟨hl, hle⟩ := Storage.size_fits hmax
    have hd' : storage.stream.ahead = frame (entry index x).serialize ++ frames (entries index ids) := hd
    obtain ⟨data', hread, ho', hu'⟩ := Storage.readDataBlock_frame ho hg hd' hl hle
    rw [hu, List.nil_append] at hu'
    have hwhole := IndexRecord.unserialize_serialize (entry index x)
    have hxsome := hmem x List.mem_cons_self
    obtain ⟨p, hp⟩ := Option.isSome_iff_exists.mp hxsome
    have hpx : p.1 = x := (KeyMap.find_mem hp).2
    have hoffset : (entry index x).offset.toInt = p.2 := by
      simp only [entry, hp, Option.map_some, Option.getD_some]
      exact hn x p hp
    obtain ⟨hxnot, hnodup⟩ := List.nodup_cons.mp hnodup
    have htell : (storage.stream.advance 48).tellp = ((48 * (done + 1) : Nat) : Int) := by
      have hfail : storage.stream.failed = false := by
        simp only [FileStream.good, Bool.and_eq_true, Bool.not_eq_true'] at hg
        exact hg.2
      simp [FileStream.tellp, FileStream.advance, hfail, hpos]
      omega
    obtain ⟨h1, h2⟩ := @ih { storage with stream := storage.stream.advance 48 } data'.reset fuel
      (done + 1) (maps.1.put (x, p.2), maps.2.put (x, ((48 * done : Nat) : Int)))
      (fun id hid => hmem id (List.mem_cons_of_mem _ hid)) hnodup hg
      (by simp [FileStream.advance, hpos]; omega)
      (FileStream.ahead_advance hd' (by rw [Storage.frame_length, hlen]))
      (BinaryStream.Ordered.reset data') (by simp) (by simpa using hfuel)
    have hload : loadRecords (fuel + 1) storage data ((48 * done : Nat) : Int) maps =
        loadRecords fuel { storage with stream := storage.stream.advance 48 } data'.reset
          ((48 * (done + 1) : Nat) : Int) (maps.1.put (x, p.2), maps.2.put (x, ((48 * done : Nat) : Int))) := by
      obtain ⟨m1, m2⟩ := maps
      rw [loadRecords, hread, hlen]
      simp only [hu', hwhole, if_true, hoffset, Storage.getOffset, htell]
      rfl
    rw [hload]
    refine ⟨fun id => (h1 id).trans ?_, fun id => (h2 id).trans ?_⟩
    · by_cases hid : id ∈ ids
      · rw [if_pos hid, if_pos (List.mem_cons_of_mem _ hid)]
      · rw [if_neg hid, KeyMap.find_put]
        by_cases hx : x = id
        · subst hx
          rw [if_pos rfl, if_pos List.mem_cons_self, hp, ← hpx]
        · rw [if_neg hx, if_neg]
          simp [hid, Ne.symm hx]
    · by_cases hid : id ∈ ids
      · have hx : x ≠ id := fun h => hxnot (h ▸ hid)
        rw [if_pos hid, if_pos (List.mem_cons_of_mem _ hid), List.idxOf_cons_ne _ hx]
        congr 3
        omega
      · rw [if_neg hid, KeyMap.find_put]
        by_cases hx : x = id
        · subst hx
          simp
        · rw [if_neg hx, if_neg]
          simp [hid, Ne.symm hx]

end RecordStorage

end Icq.Archive
