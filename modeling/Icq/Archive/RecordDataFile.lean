import Icq.Archive.RecordBlocks

/-! What inserting records makes of the data file. -/

namespace Icq.Archive
open Icq.Lib Icq.Tools

namespace RecordBlock

variable {k : RecordKind} {bs : List (RecordBlock k)} {last : Int64 → Option k.Record}

/-- The newest block of every message has the record that was inserted last for it. -/
def Tells (bs : List (RecordBlock k)) (last : Int64 → Option k.Record) : Prop :=
  ∀ id, match last id with
    | none => ∀ b ∈ bs, b.id ≠ id
    | some r => ∃ i, ∃ h : Newest bs id i, (getElem bs i h.1).record = r

theorem tells_append (h : Tells bs last) (b : RecordBlock k) :
    Tells (bs ++ [b]) (Function.update last b.id (some b.record)) := by
  intro id
  have hid := h id
  by_cases hb : id = b.id
  · subst hb
    rw [Function.update_self]
    exact ⟨bs.length, newest_append.mpr (.inl ⟨rfl, rfl⟩), by simp⟩
  · rw [Function.update_of_ne hb]
    cases hl : last id with
    | none =>
      rw [hl] at hid
      intro x hx
      rcases List.mem_append.mp hx with hx | hx
      · exact hid x hx
      · exact List.mem_singleton.mp hx ▸ Ne.symm hb
    | some r =>
      rw [hl] at hid
      obtain ⟨i, hi, hr⟩ := hid
      exact ⟨i, newest_append.mpr (.inr ⟨Ne.symm hb, hi⟩), by rwa [List.getElem_append_left hi.1]⟩

theorem tells_set (h : Tells bs last) {b : RecordBlock k} {i : Nat} (hi : Newest bs b.id i) :
    Tells (bs.set i b) (Function.update last b.id (some b.record)) := by
  have hlt := hi.1
  have hbi := hi.2.1
  intro id
  have hid := h id
  by_cases hb : id = b.id
  · subst hb
    rw [Function.update_self]
    exact ⟨i, (newest_set hlt hbi.symm).mpr hi, by simp⟩
  · rw [Function.update_of_ne hb]
    cases hl : last id with
    | none =>
      rw [hl] at hid
      intro x hx
      rcases List.mem_or_eq_of_mem_set hx with hx | rfl
      · exact hid x hx
      · exact Ne.symm hb
    | some r =>
      rw [hl] at hid
      obtain ⟨j, hj, hr⟩ := hid
      refine ⟨j, (newest_set hlt hbi.symm).mpr hj, ?_⟩
      have hne : i ≠ j := by
        intro he
        subst he
        exact hb (hj.2.1.symm.trans hbi)
      rwa [List.getElem_set_ne hne]

end RecordBlock

namespace RecordStorage
open RecordBlock

/-- The index after index records were taken over. -/
def putAll (index : Offsets) (added : List IndexRecord) : Offsets :=
  added.foldl (fun m r => m.put (r.msgId, r.offset.toInt)) index

theorem toInt_offset {n : Nat} (h : n < 2 ^ 63) : (Int64.ofInt n).toInt = n :=
  Int64.toInt_ofInt_of_le (by omega) (by omega)

section

variable {k : KeptKind} {bs : List (RecordBlock k.toRecordKind)}
  {last : Int64 → Option k.Record} {start : Offsets} {w : Writing}

/-- A record that can be read back lies in a block of its size or a larger one. -/
structure Fits (k : KeptKind) (b : RecordBlock k.toRecordKind) : Prop where
  readable : k.Readable b.record
  room : (k.serialize b.record).length ≤ b.size
  limit : b.size ≤ maxDataBlockSize.toNat

theorem Fits.payload_ne_nil {b : RecordBlock k.toRecordKind} (h : Fits k b) : b.payload ≠ [] := by
  intro hnil
  have hlen := congrArg List.length hnil
  rw [length_payload] at hlen
  have hroom := h.room
  rw [hlen] at hroom
  exact k.serialize_ne_nil b.record (List.length_eq_zero_iff.mp (Nat.le_zero.mp hroom))

/-- The data file while records are written to it: at its end, with these blocks in it. -/
structure Writing.Holds (k : KeptKind) (start : Offsets) (w : Writing)
    (bs : List (RecordBlock k.toRecordKind)) (last : Int64 → Option k.Record) : Prop where
  bytes : w.storage.stream.bytes = frames (payloads bs)
  atEnd : w.storage.stream.AtEnd
  append : w.storage.stream.append = false
  room : w.storage.stream.room = none
  fits : ∀ b ∈ bs, Fits k b
  indexed : Indexed bs w.index
  tells : Tells bs last
  saved : w.index = putAll start w.added

theorem addRecord_holds (h : w.Holds k start bs last) {r : k.Record}
    (hf : Fits k ⟨r, reservedSize (k.serialize r).length⟩)
    (hsmall : Allocation.extent (bs.map slot) < 2 ^ 63) :
    (addRecord k.toRecordKind w r).Holds k start (bs ++ [⟨r, reservedSize (k.serialize r).length⟩])
      (Function.update last (k.msgId r) (some r)) := by
  obtain ⟨b, hb⟩ : ∃ b : RecordBlock k.toRecordKind, b = ⟨r, reservedSize (k.serialize r).length⟩ :=
    ⟨_, rfl⟩
  have hid : b.id = k.msgId r := by rw [hb]; rfl
  have hrec : b.record = r := by rw [hb]
  have hpay : resizeBytes (k.serialize r) (reservedSize (k.serialize r).length) = b.payload := by
    rw [hb]
    rfl
  rw [← hb] at hf ⊢
  obtain ⟨hbytes, hend, happ, hroom, hoff⟩ := Storage.writeDataBlock_frames h.bytes h.atEnd h.room
    h.append hf.payload_ne_nil (by rw [length_payload]; exact hf.limit)
  have hsize : (frames (payloads bs)).length < 2 ^ 63 := by rwa [extent_eq]
  have hput : (addRecord k.toRecordKind w r).index =
      w.index.put (b.id, offsetOf (payloads bs) (payloads bs).length) := by
    rw [addRecord, hpay, hid, ← hoff]
  constructor
  · rw [addRecord, hpay]
    exact hbytes.trans (by simp [payloads])
  · rw [addRecord, hpay]
    exact hend
  · rw [addRecord, hpay]
    exact happ
  · rw [addRecord, hpay]
    exact hroom
  · intro x hx
    rcases List.mem_append.mp hx with hx | hx
    · exact h.fits x hx
    · exact List.mem_singleton.mp hx ▸ hf
  · rw [hput]
    exact indexed_append h.indexed b
  · rw [← hid, ← hrec]
    exact tells_append h.tells b
  · rw [hput, h.saved, addRecord, hpay, putAll, putAll, List.foldl_append]
    simp only [List.foldl_cons, List.foldl_nil, hoff, hid]
    rw [offsetOf_length, toInt_offset hsize]

/-- A record written over the newest block of its message, wherever the position was before. -/
theorem writeOver_holds (h : w.Holds k start bs last) {r : k.Record} {i pos : Nat}
    (hi : Newest bs (k.msgId r) i) (hr : k.Readable r)
    (hfit : (k.serialize r).length ≤ (getElem bs i hi.1).size) :
    Writing.Holds k start { w with storage :=
        ({ w.storage with stream := { w.storage.stream with pos } : Storage }.writeDataBlockAt
          (.ofBytes (resizeBytes (k.serialize r) (getElem bs i hi.1).size))
          (offsetOf (payloads bs) i)).storage }
      (bs.set i ⟨r, (getElem bs i hi.1).size⟩) (Function.update last (k.msgId r) (some r)) := by
  have hlt := hi.1
  have hfi := h.fits bs[i] (List.getElem_mem hlt)
  have hfb : Fits k ⟨r, bs[i].size⟩ := ⟨hr, hfit, hfi.limit⟩
  have hbi : RecordBlock.id (k := k.toRecordKind) ⟨r, bs[i].size⟩ = bs[i].id := hi.2.1.symm
  have hplt : i < (payloads bs).length := by rwa [payloads, List.length_map]
  have hget : (payloads bs)[i] = bs[i].payload := by simp [payloads]
  obtain ⟨hbytes, hend, happ, hroom⟩ := Storage.writeDataBlockAt_frames
    (s := { w.storage with stream := { w.storage.stream with pos } })
    (p := RecordBlock.payload (k := k.toRecordKind) ⟨r, bs[i].size⟩) h.bytes h.atEnd.good h.append
    h.room hplt (by rw [hget, length_payload, length_payload]) hfb.payload_ne_nil
    (by rw [length_payload]; exact hfb.limit)
  refine ⟨?_, hend, happ, hroom, ?_, indexed_set h.indexed hlt hbi rfl, tells_set h.tells hi, h.saved⟩
  · rw [payloads_set]
    exact hbytes
  · intro x hx
    rcases List.mem_or_eq_of_mem_set hx with hx | rfl
    · exact h.fits x hx
    · exact hfb

theorem slots_set {i : Nat} {b : RecordBlock k.toRecordKind} (hi : i < bs.length)
    (hslot : b.slot = bs[i].slot) : (bs.set i b).map slot = bs.map slot := by
  rw [List.map_set, hslot]
  exact List.ext_getElem? fun j => by
    rw [List.getElem?_set]
    split
    · rename_i he
      subst he
      simp [hi]
    · rfl

/-- A record for a message that has a block goes into it, or behind all if it was the last. -/
theorem updateRecordAt_holds (h : w.Holds k start bs last) {r : k.Record} {i : Nat}
    (hi : Newest bs (k.msgId r) i)
    (hf : Fits k ⟨r, reservedSize (k.serialize r).length⟩)
    (hsmall : Allocation.extent (bs.map slot) < 2 ^ 63)
    (hsteady : Allocation.Steady (bs.map slot) (k.msgId r) (k.serialize r).length) :
    ∃ bs', (updateRecordAt k.toRecordKind true w r (offsetOf (payloads bs) i)).Holds k start bs'
        (Function.update last (k.msgId r) (some r)) ∧
      bs'.map slot = Allocation.put (bs.map slot) (k.msgId r) (k.serialize r).length := by
  have hlt := hi.1
  have hplt : i < (payloads bs).length := by rwa [payloads, List.length_map]
  have hget : (payloads bs)[i] = bs[i].payload := by simp [payloads]
  have hfi := h.fits bs[i] (List.getElem_mem hlt)
  obtain ⟨data, hread, ho, hu⟩ := Storage.readDataBlock_frames {} h.bytes h.atEnd.good hplt
    (by rw [hget, length_payload]; exact hfi.limit) BinaryStream.Ordered.empty
  have havail : data.available = bs[i].size := by
    rw [← ho.length_unread, hu, hget]
    simp [BinaryStream.unread]
  have hnewest := size_of_newest hi
  unfold updateRecordAt
  simp only [Storage.readIf, if_true, hread, havail, Bool.true_and, decide_eq_true_eq]
  by_cases hfit : (k.serialize r).length ≤ bs[i].size
  · rw [if_pos hfit, Allocation.put_fits hnewest hfit]
    exact ⟨_, writeOver_holds h hi hf.readable hfit,
      slots_set hlt (Prod.ext hi.2.1.symm rfl)⟩
  · rw [if_neg hfit, Allocation.put_grows hnewest hfit]
    -- the block just read is the last one, so the position is the end of the file
    have hend : i + 1 = bs.length := by
      rcases hsteady with hroom | hlast
      · rw [hnewest] at hroom
        exact absurd (of_decide_eq_true hroom) hfit
      · exact newest_last hi hlast
    have hpos : offsetOf (payloads bs) (i + 1) = w.storage.stream.bytes.length := by
      rw [hend, show bs.length = (payloads bs).length by rw [payloads, List.length_map],
        offsetOf_length, h.bytes]
    have hw : Writing.Holds k start { w with storage := { w.storage with stream :=
        { w.storage.stream with pos := offsetOf (payloads bs) (i + 1) } } } bs last :=
      ⟨h.bytes, ⟨h.atEnd.good, hpos⟩, h.append, h.room, h.fits, h.indexed, h.tells, h.saved⟩
    exact ⟨_, addRecord_holds hw hf hsmall, List.map_append⟩

/-- Records inserted one after another need room, each in its turn. -/
def SteadyAll (k : RecordKind) : Allocation → List k.Record → Prop
  | _, [] => True
  | a, r :: rs =>
    a.Steady (k.msgId r) (k.serialize r).length ∧ a.extent < 2 ^ 63 ∧
      SteadyAll k (a.put (k.msgId r) (k.serialize r).length) rs

instance SteadyAll.decidable (k : RecordKind) :
    (a : Allocation) → (rs : List k.Record) → Decidable (SteadyAll k a rs)
  | _, [] => inferInstanceAs (Decidable True)
  | a, r :: rs =>
    have := SteadyAll.decidable k (a.put (k.msgId r) (k.serialize r).length) rs
    inferInstanceAs (Decidable (_ ∧ _ ∧ _))

/-- The last records, after some were inserted. -/
def lastOf (k : RecordKind) (last : Int64 → Option k.Record) (records : List k.Record) :
    Int64 → Option k.Record :=
  records.foldl (fun last r => Function.update last (k.msgId r) (some r)) last

def allocate (k : RecordKind) (a : Allocation) (records : List k.Record) : Allocation :=
  records.foldl (fun a r => a.put (k.msgId r) (k.serialize r).length) a

/-- Inserting records, read from a file that is open for reading or not read at all. -/
theorem insertRecord_fold {readable : Bool} {records : List k.Record}
    (h : w.Holds k start bs last)
    (hf : ∀ r ∈ records, Fits k ⟨r, reservedSize (k.serialize r).length⟩)
    (hsteady : SteadyAll k.toRecordKind (bs.map slot) records)
    (hread : readable = true ∨ (∀ r ∈ records, ∀ b ∈ bs, b.id ≠ k.msgId r) ∧
      (records.map k.msgId).Nodup) :
    ∃ bs', (records.foldl (insertRecord k.toRecordKind readable) w).Holds k start bs'
        (lastOf k.toRecordKind last records) ∧
      bs'.map slot = allocate k.toRecordKind (bs.map slot) records := by
  induction records generalizing w bs last with
  | nil => exact ⟨bs, h, rfl⟩
  | cons r records ih =>
    obtain ⟨hfr, hf⟩ := List.forall_mem_cons.mp hf
    obtain ⟨hroom, hsmall, hsteady⟩ := hsteady
    have hid := h.indexed (k.msgId r)
    obtain ⟨bs', hw, hslots, hnew⟩ : ∃ bs', (insertRecord k.toRecordKind readable w r).Holds k start bs'
        (Function.update last (k.msgId r) (some r)) ∧
        bs'.map slot = Allocation.put (bs.map slot) (k.msgId r) (k.serialize r).length ∧
        (readable = true ∨ bs' = bs ++ [⟨r, reservedSize (k.serialize r).length⟩]) := by
      unfold insertRecord
      cases hfind : w.index.find? (k.msgId r) with
      | none =>
        rw [hfind] at hid
        refine ⟨_, addRecord_holds h hfr hsmall, ?_, .inr rfl⟩
        rw [Allocation.put_new (size_none hid), List.map_append]
        rfl
      | some o =>
        rw [hfind] at hid
        obtain ⟨i, hi, ho⟩ := hid
        have hr : readable = true := hread.resolve_right fun hn =>
          hn.1 r List.mem_cons_self _ (List.getElem_mem hi.1) hi.2.1
        obtain ⟨bs', hw, hslots⟩ := updateRecordAt_holds h hi hfr hsmall hroom
        exact ⟨bs', by rw [hr]; simpa only [ho] using hw, hslots, .inl hr⟩
    rw [← hslots] at hsteady
    obtain ⟨bs'', hw'', hslots''⟩ := ih hw hf hsteady (by
      rcases hnew with hr | rfl
      · exact .inl hr
      · refine hread.imp id fun ⟨hne, hnodup⟩ => ?_
        rw [List.map_cons, List.nodup_cons] at hnodup
        refine ⟨fun r' hr' b hb => ?_, hnodup.2⟩
        rcases List.mem_append.mp hb with hb | hb
        · exact hne r' (List.mem_cons_of_mem _ hr') b hb
        · rw [List.mem_singleton.mp hb]
          exact fun he => hnodup.1 (List.mem_map.mpr ⟨r', hr', he.symm⟩))
    exact ⟨bs'', hw'', hslots''.trans (by rw [hslots]; rfl)⟩

end

end RecordStorage

end Icq.Archive
