import Icq.Lib.Run
import Icq.Archive.RecordIndexFile
import Icq.Archive.RecordKinds

/-! Over runs with restarts, a record storage gives back what was inserted last. -/

namespace Icq.Archive
open Icq.Lib Icq.Tools

theorem Disk.open_atEnd {d : Disk} (hu : d.Usable) (readable : Bool) :
    Storage.open { write := true, atEnd := true, read := readable } d =
      .ok { stream := { bytes := d.file.getD [], pos := (d.file.getD []).length, room := d.room } } := by
  simp [Storage.open, hu.folder, hu.2, FileStream.seekEnd]

theorem Disk.usable_close {d : Disk} (hu : d.Usable) (s : Storage) : (d.close s).Usable :=
  ⟨by simp [Disk.close], hu.2⟩

namespace RecordStorage
open RecordBlock

variable {k : KeptKind} {s : RecordStorage} {bs : List (RecordBlock k.toRecordKind)}
  {last : Int64 → Option k.Record} {ids : List Int64} {index : Offsets}

/-- The files of a storage and what its object knows of them. -/
structure Sound (k : KeptKind) (s : RecordStorage) (bs : List (RecordBlock k.toRecordKind))
    (last : Int64 → Option k.Record) (ids : List Int64) (index : Offsets) : Prop where
  dataUsable : s.dataDisk.Usable
  dataRoom : s.dataDisk.room = none
  indexUsable : s.indexDisk.Usable
  indexRoom : s.indexDisk.room = none
  data : s.dataDisk.file.getD [] = frames (payloads bs)
  fits : ∀ b ∈ bs, Fits k b
  indexed : Indexed bs index
  tells : Tells bs last
  narrow : Narrow index
  indexFile : IndexFile (s.indexDisk.file.getD []) ids index
  memory : (s.index = ∅ ∧ s.indexOffsets = ∅ ∧ s.indexLoaded = false) ∨
    (s.index = index ∧ Places s.indexOffsets ids)

theorem Sound.absent (h : Sound k s bs last ids index) {id : Int64} (hid : id ∉ ids) :
    index.find? id = none := by
  rw [← Option.not_isSome_iff_eq_none, ← h.indexFile.mem]
  exact hid

theorem Sound.ids_nil (h : Sound k s bs last ids index) (hf : s.indexDisk.file = none) : ids = [] := by
  have hlen := congrArg List.length h.indexFile.bytes
  have hle := Storage.length_le_frames (entries index ids)
  rw [length_entries] at hle
  rw [hf, Option.getD_none] at hlen
  exact List.length_eq_zero_iff.mp (Nat.le_zero.mp (Nat.le_trans hle (Nat.le_of_eq hlen.symm)))

/-- Reading the index file completes what the object knew. -/
theorem Sound.reload (h : Sound k s bs last ids index) {bytes : Bytes}
    (hf : s.indexDisk.file = some bytes) :
    let maps := loadRecords (bytes.length + 1) { stream := { bytes, room := s.indexDisk.room } } {} 0
      (s.index, s.indexOffsets)
    maps.1 = index ∧ Places maps.2 ids := by
  intro maps
  have hbytes : bytes = frames (entries index ids) := by
    have := h.indexFile.bytes
    rwa [hf, Option.getD_some] at this
  have hfuel : ids.length < bytes.length + 1 := by
    have hle := Storage.length_le_frames (entries index ids)
    rw [length_entries] at hle
    rw [hbytes]
    exact Nat.lt_succ_of_le hle
  obtain ⟨h1, h2⟩ := @loadRecords_holds { stream := { bytes, room := s.indexDisk.room } } {} index
    h.narrow ids _ 0 (s.index, s.indexOffsets)
    (fun id hid => (h.indexFile.mem id).mp hid) h.indexFile.nodup rfl rfl
    (by simpa [FileStream.ahead] using hbytes) BinaryStream.Ordered.empty
    (by simp [BinaryStream.unread]) hfuel
  have hindex (id : Int64) : maps.1.find? id = if id ∈ ids then index.find? id else s.index.find? id :=
    h1 id
  have hplaces (id : Int64) : maps.2.find? id = if id ∈ ids then
      some (id, ((48 * (0 + ids.idxOf id) : Nat) : Int)) else s.indexOffsets.find? id := h2 id
  refine ⟨KeyMap.ext_find fun id => ?_, fun id => ?_⟩
  · rw [hindex]
    split
    · rfl
    · rename_i hid
      rw [h.absent hid]
      rcases h.memory with ⟨hi, -, -⟩ | ⟨hi, -⟩
      · rw [hi]
        rfl
      · rw [hi, h.absent hid]
  · rw [hplaces, Nat.zero_add]
    split
    · rfl
    · rename_i hid
      rcases h.memory with ⟨-, ho, -⟩ | ⟨-, hp⟩
      · rw [ho]
        rfl
      · rw [hp id, if_neg hid]

/-- What an object knows once it has looked for the index file. -/
theorem loadIndex_sound (h : Sound k s bs last ids index) :
    Sound k s.loadIndex bs last ids index ∧ s.loadIndex.index = index ∧
      Places s.loadIndex.indexOffsets ids ∧ s.loadIndex.dataDisk = s.dataDisk := by
  have hkeep (hi : s.index = index) (hp : Places s.indexOffsets ids) :
      Sound k s bs last ids index ∧ s.index = index ∧ Places s.indexOffsets ids ∧
        s.dataDisk = s.dataDisk := ⟨h, hi, hp, rfl⟩
  unfold loadIndex
  cases hloaded : s.indexLoaded with
  | true =>
    rcases h.memory with ⟨-, -, hl⟩ | ⟨hi, hp⟩
    · rw [hloaded] at hl
      cases hl
    · exact hkeep hi hp
  | false =>
    simp only [Bool.false_eq_true, if_false]
    cases hf : s.indexDisk.file with
    | none =>
      have hopen : Storage.open { read := true } s.indexDisk = .error .fileNotExist := by
        simp [Storage.open, hf]
      rw [hopen]
      rcases h.memory with ⟨hi, ho, -⟩ | ⟨hi, hp⟩
      · refine hkeep (hi.trans (KeyMap.ext_find fun id => ?_)) fun id => ?_
        · rw [h.absent (by simp [h.ids_nil hf])]
          rfl
        · rw [ho, h.ids_nil hf]
          rfl
      · exact hkeep hi hp
    | some bytes =>
      obtain ⟨hindex, hplaces⟩ := h.reload hf
      rw [Disk.open_read h.indexUsable hf]
      exact ⟨{ h with memory := .inr ⟨hindex, hplaces⟩ }, hindex, hplaces, rfl⟩

theorem payload_eq {b : RecordBlock k.toRecordKind} (h : Fits k b) :
    b.payload = k.serialize b.record ++ List.replicate (b.size - (k.serialize b.record).length) 0 := by
  rw [payload, resizeBytes, List.take_of_length_le h.room]

/-- The records of the messages that have one, and the other messages. -/
theorem getEach_sound {storage : Storage} (hb : storage.stream.bytes = frames (payloads bs))
    (hg : storage.stream.good = true) (hf : ∀ b ∈ bs, Fits k b) (hi : Indexed bs index)
    (ht : Tells bs last) (wanted : List Int64) :
    getEach k.toRecordKind index storage [] wanted =
      (wanted.filterMap fun id => (last id).map k.kept, wanted.filter fun id => (last id).isNone) := by
  induction wanted generalizing storage with
  | nil => rfl
  | cons id wanted ih =>
    have hid := hi id
    have htell := ht id
    unfold getEach getRecord
    cases hfind : index.find? id with
    | none =>
      rw [hfind] at hid
      have hlast : last id = none := by
        cases hl : last id with
        | none => rfl
        | some r =>
          rw [hl] at htell
          obtain ⟨i, hn, -⟩ := htell
          exact absurd hn.2.1 (hid _ (List.getElem_mem hn.1))
      simp only [ih hb hg, List.filterMap_cons, List.filter_cons, hlast]
      rfl
    | some p =>
      rw [hfind] at hid
      obtain ⟨i, hn, ho⟩ := hid
      have hlast : last id = some (getElem bs i hn.1).record := by
        cases hl : last id with
        | none =>
          rw [hl] at htell
          exact absurd hn.2.1 (htell _ (List.getElem_mem hn.1))
        | some r =>
          rw [hl] at htell
          obtain ⟨j, hn', hr⟩ := htell
          obtain rfl := newest_unique hn hn'
          rw [hr]
      have hplt : i < (payloads bs).length := by
        rw [payloads, List.length_map]
        exact hn.1
      have hget : (payloads bs)[i] = (getElem bs i hn.1).payload := by simp [payloads]
      have hfi := hf _ (List.getElem_mem hn.1)
      obtain ⟨data, hread, -, hu⟩ := Storage.readDataBlock_frames (.ofBytes []) hb hg hplt
        (by rw [hget, length_payload]; exact hfi.limit) (BinaryStream.ordered_ofBytes [])
      have hsmall : (k.serialize (getElem bs i hn.1).record).length < 2 ^ 32 :=
        Nat.lt_of_le_of_lt (Nat.le_trans hfi.room hfi.limit) (by decide)
      rw [BinaryStream.unread_ofBytes, List.nil_append, hget, payload_eq hfi] at hu
      simp only [ho, hread, if_true, hu, k.unserialize_padded hfi.readable hsmall]
      rw [@ih { storage with stream := { storage.stream with
        pos := offsetOf (payloads bs) (i + 1) } } hb hg]
      simp only [List.filterMap_cons, List.filter_cons, hlast]
      rfl

theorem getRecords_sound (h : Sound k s bs last ids index) (wanted : List Int64) :
    Sound k (getRecords k.toRecordKind s wanted).1 bs last ids index ∧
      (getRecords k.toRecordKind s wanted).2 = (wanted.filterMap fun id => (last id).map k.kept,
        wanted.filter fun id => (last id).isNone) := by
  obtain ⟨hs, hindex, -, hdisk⟩ := loadIndex_sound h
  unfold getRecords
  dsimp only
  rw [hdisk]
  cases hf : s.dataDisk.file with
  | none =>
    have hopen : Storage.open { read := true } s.dataDisk = .error .fileNotExist := by
      simp [Storage.open, hf]
    have hnone (id : Int64) : last id = none := by
      cases hl : last id with
      | none => rfl
      | some r =>
        have ht := h.tells id
        rw [hl] at ht
        obtain ⟨i, hn, -⟩ := ht
        have hlen := congrArg List.length h.data
        have hpos := Storage.length_le_frames (payloads bs)
        rw [hf, Option.getD_none] at hlen
        have hbs : bs.length ≤ (frames (payloads bs)).length := by
          rwa [payloads, List.length_map] at hpos
        have := hn.1
        simp at hlen
        omega
    simp only [hopen]
    exact ⟨hs, by simp [hnone]⟩
  | some bytes =>
    rw [Disk.open_read h.dataUsable hf]
    simp only
    refine ⟨hs, ?_⟩
    have hbytes := h.data
    rw [hf, Option.getD_some] at hbytes
    rw [hindex]
    exact getEach_sound hbytes rfl h.fits h.indexed h.tells wanted

theorem Sound.no_blocks (h : Sound k s bs last ids index) (hf : s.dataDisk.file = none) : bs = [] := by
  have hlen := congrArg List.length h.data
  have hle := Storage.length_le_frames (payloads bs)
  rw [payloads, List.length_map] at hle
  rw [hf, Option.getD_none] at hlen
  exact List.length_eq_zero_iff.mp (Nat.le_zero.mp (Nat.le_trans hle (Nat.le_of_eq hlen.symm)))

/-- Inserting records that find room leaves a sound storage with the new records. -/
theorem insertRecords_sound (h : Sound k s bs last ids index) {records : List k.Record}
    (hf : ∀ r ∈ records, Fits k ⟨r, reservedSize (k.serialize r).length⟩)
    (hsteady : SteadyAll k.toRecordKind (bs.map slot) records)
    (hnew : s.dataDisk.file = none → (records.map k.msgId).Nodup) :
    ∃ bs' ids' index', Sound k (insertRecords k.toRecordKind s records) bs'
        (lastOf k.toRecordKind last records) ids' index' ∧
      bs'.map slot = allocate k.toRecordKind (bs.map slot) records := by
  obtain ⟨hs, hindex, hplaces, hdisk⟩ := loadIndex_sound h
  have hstart : Writing.Holds k index
      { storage := { stream := { bytes := s.dataDisk.file.getD []
                                 pos := (s.dataDisk.file.getD []).length
                                 room := s.dataDisk.room } }
        index := s.loadIndex.index } bs last :=
    ⟨h.data, ⟨rfl, rfl⟩, rfl, h.dataRoom, h.fits, hindex ▸ h.indexed, h.tells, hindex⟩
  have hread : s.dataDisk.file.isSome = true ∨
      (∀ r ∈ records, ∀ b ∈ bs, b.id ≠ k.msgId r) ∧ (records.map k.msgId).Nodup := by
    cases hfile : s.dataDisk.file with
    | none =>
      refine .inr ⟨fun r _ b hb => absurd hb ?_, hnew hfile⟩
      rw [h.no_blocks hfile]
      exact List.not_mem_nil
    | some bytes => exact .inl rfl
  obtain ⟨bs', hw, hslots⟩ := insertRecord_fold hstart hf hsteady hread
  obtain ⟨ids', hfile, hplaces', hroom⟩ := @saveIndexRecord_fold
    { stream := { bytes := s.loadIndex.indexDisk.file.getD []
                  pos := (s.loadIndex.indexDisk.file.getD []).length
                  room := s.loadIndex.indexDisk.room } }
    _ _ _ hs.indexFile hplaces ⟨rfl, rfl⟩ rfl hs.indexRoom _
  rw [← hw.saved] at hfile
  unfold insertRecords saveIndexRecords
  simp only [hdisk, Disk.open_atEnd h.dataUsable, Disk.open_atEnd hs.indexUsable]
  exact ⟨bs', ids', _,
    { dataUsable := Disk.usable_close h.dataUsable _
      dataRoom := hw.room
      indexUsable := Disk.usable_close hs.indexUsable _
      indexRoom := hroom
      data := hw.bytes
      fits := hw.fits
      indexed := hw.indexed
      tells := hw.tells
      narrow := hw.saved ▸ putAll_narrow h.narrow _
      indexFile := hfile
      memory := .inr ⟨rfl, hplaces'⟩ }, hslots⟩

theorem restart_sound (h : Sound k s bs last ids index) : Sound k s.restart bs last ids index :=
  { h with memory := .inl ⟨rfl, rfl, rfl⟩ }

/-- A storage, the records that were inserted last, and the blocks they make. -/
structure Watched (k : RecordKind) where
  storage : RecordStorage
  last : Int64 → Option k.Record
  blocks : Allocation

inductive StoreAction (k : RecordKind) where
  | insert (records : List k.Record)
  | get (ids : List Int64)
  | restart

namespace Watched

/-- No files yet. -/
def start (k : RecordKind) : Watched k :=
  { storage := { indexDisk := {}, dataDisk := {} }, last := fun _ => none, blocks := [] }

def step (k : RecordKind) (w : Watched k) : StoreAction k → Option (Watched k)
  | .insert records => some
    { storage := insertRecords k w.storage records
      last := lastOf k w.last records
      blocks := allocate k w.blocks records }
  | .get ids => some { w with storage := (getRecords k w.storage ids).1 }
  | .restart => some { w with storage := w.storage.restart }

/-- The records can be read back, each finds room, and those that make the data file are of
different messages. -/
structure Roomy (k : KeptKind) (w : Watched k.toRecordKind) (records : List k.Record) : Prop where
  readable : ∀ r ∈ records, k.Readable r
  limit : ∀ r ∈ records, reservedSize (k.serialize r).length ≤ maxDataBlockSize.toNat
  steady : SteadyAll k.toRecordKind w.blocks records
  first : w.storage.dataDisk.file = none → (records.map k.msgId).Nodup

def Allowed (k : KeptKind) (w : Watched k.toRecordKind) : StoreAction k.toRecordKind → Prop
  | .insert records => w.Roomy k records
  | _ => True

/-- The storage gives the record inserted last for every message that has one, as far as it is
kept, and reports the other messages. -/
def Answers (k : KeptKind) (w : Watched k.toRecordKind) : Prop :=
  ∀ ids, (getRecords k.toRecordKind w.storage ids).2 =
    (ids.filterMap fun id => (w.last id).map k.kept, ids.filter fun id => (w.last id).isNone)

theorem run_answers {w : Watched k.toRecordKind}
    (h : Run (step k.toRecordKind) (Allowed k) (start k.toRecordKind) w) : w.Answers k := by
  have hsound : ∃ bs ids index, Sound k w.storage bs w.last ids index ∧ bs.map slot = w.blocks := by
    refine h.invariant (P := fun w => ∃ bs ids index,
      Sound k w.storage bs w.last ids index ∧ bs.map slot = w.blocks) ?_ ?_
    · refine ⟨[], [], ∅, ⟨⟨rfl, rfl⟩, rfl, ⟨rfl, rfl⟩, rfl, rfl, by simp, fun id => by simp [KeyMap.find?],
        fun id => by simp [start], fun id p hp => by simp [KeyMap.find?] at hp,
        ⟨rfl, by simp, fun id => by simp [KeyMap.find?]⟩, .inl ⟨rfl, rfl, rfl⟩⟩, rfl⟩
    · rintro w action w' ⟨bs, ids, index, hs, hslots⟩ hallowed hstep
      cases action with
      | insert records =>
        cases hstep
        obtain ⟨bs', ids', index', hs', hslots'⟩ := insertRecords_sound hs
          (fun r hr => ⟨hallowed.readable r hr, Nat.le_add_right .., hallowed.limit r hr⟩)
          (hslots ▸ hallowed.steady) hallowed.first
        exact ⟨bs', ids', index', hs', hslots ▸ hslots'⟩
      | get wanted =>
        cases hstep
        exact ⟨bs, ids, index, (getRecords_sound hs wanted).1, hslots⟩
      | restart =>
        cases hstep
        exact ⟨bs, ids, index, restart_sound hs, hslots⟩
  obtain ⟨bs, ids, index, hs, -⟩ := hsound
  exact fun wanted => (getRecords_sound hs wanted).2

end Watched

end RecordStorage

def ReactionsData.keptKind : KeptKind :=
  { ReactionsData.kind with
    Readable := ReactionsData.Readable
    kept := ReactionsData.kept
    serialize_ne_nil := fun r h => by
      have hlen := congrArg List.length h
      simp [ReactionsData.kind, ReactionsData.serialize, ReactionsData.pack, TlvPack.serialize,
        Tlv.serialize, Scalar.width] at hlen
    unserialize_padded := fun hr h n =>
      ReactionsData.unserialize_padded hr (length_lt_of_serialize h) n }

def ThreadUpdate.keptKind : KeptKind :=
  { ThreadUpdate.kind with
    Readable := ThreadUpdate.Readable
    kept := fun u => u
    serialize_ne_nil := fun u h => by
      have hlen := congrArg List.length h
      simp [ThreadUpdate.kind, ThreadUpdate.serialize, ThreadUpdate.pack, TlvPack.serialize,
        Tlv.serialize, Scalar.width] at hlen
    unserialize_padded := fun hu h n =>
      ThreadUpdate.unserialize_padded hu (length_lt_of_serialize h) n }

namespace RecordStorage.Watched

/-- Both storages answer with the last records in runs where every record finds room. -/
theorem storages_answer {w : Watched ReactionsData.kind} {u : Watched ThreadUpdate.kind}
    (hw : Run (step ReactionsData.kind) (Allowed ReactionsData.keptKind) (start ReactionsData.kind) w)
    (hu : Run (step ThreadUpdate.kind) (Allowed ThreadUpdate.keptKind) (start ThreadUpdate.kind) u)
    (ids : List Int64) :
    (getReactions w.storage ids).2 =
      (ids.filterMap fun id => (w.last id).map ReactionsData.kept,
        ids.filter fun id => (w.last id).isNone) ∧
    (getThreadUpdates u.storage ids).2 =
      (ids.filterMap u.last, ids.filter fun id => (u.last id).isNone) := by
  refine ⟨run_answers (k := ReactionsData.keptKind) hw ids, ?_⟩
  refine (run_answers (k := ThreadUpdate.keptKind) hu ids).trans ?_
  simp [ThreadUpdate.keptKind]

/-- A reaction is changed after a restart, where it fits its block. -/
theorem storages_answer_changed :
    ∃ w : Watched ReactionsData.kind,
      Run (step ReactionsData.kind) (Allowed ReactionsData.keptKind) (start ReactionsData.kind) w ∧
      (getReactions w.storage [1, 2, 3]).2 =
        ([{ msgId := 1, myReaction := [1, 2] }, { msgId := 2 }], [3]) := by
  have hrun : Run (step ReactionsData.kind) (Allowed ReactionsData.keptKind)
      (start ReactionsData.kind) _ :=
    .step (.insert [{ msgId := 1, myReaction := [1, 2] }])
      (.step .restart (.step (.insert [{ msgId := 1 }, { msgId := 2 }]) .start ?_ rfl) trivial rfl) ?_ rfl
  · exact ⟨_, hrun, (storages_answer hrun .start [1, 2, 3]).1⟩
  · refine ⟨?_, ?_, ?_, by decide⟩
    · exact List.forall_mem_cons.mpr ⟨⟨by decide, by decide, by simp⟩,
        List.forall_mem_singleton.mpr ⟨by decide, by decide, by simp⟩⟩
    · exact List.forall_mem_cons.mpr ⟨by decide, List.forall_mem_singleton.mpr (by decide)⟩
    · change SteadyAll ReactionsData.kind _ _
      decide
  · refine ⟨?_, ?_, ?_, by decide⟩
    · exact List.forall_mem_singleton.mpr ⟨by decide, by decide, by simp⟩
    · exact List.forall_mem_singleton.mpr (by decide)
    · change SteadyAll ReactionsData.kind _ _
      decide

/-- A reaction that outgrew its block takes the place of the one behind it. -/
theorem outgrown_reaction_overwrites :
    ¬ ∀ w : Watched ReactionsData.kind,
      Run (step ReactionsData.kind) (fun _ _ => True) (start ReactionsData.kind) w →
        ∀ ids, (getReactions w.storage ids).2 =
          (ids.filterMap fun id => (w.last id).map ReactionsData.kept,
            ids.filter fun id => (w.last id).isNone) := by
  intro h
  have hrun : Run (step ReactionsData.kind) (fun _ _ => True) (start ReactionsData.kind) _ :=
    .step (.insert [{ msgId := 1, myReaction := [1, 2, 3, 4, 5] }])
      (.step (.insert [{ msgId := 1 }, { msgId := 2 }]) .start trivial rfl) trivial rfl
  exact absurd (h _ hrun [2]) (by decide +kernel)

end RecordStorage.Watched

end Icq.Archive
