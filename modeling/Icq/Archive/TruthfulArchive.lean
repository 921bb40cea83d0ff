import Icq.Archive.TruthfulIndex

/-! What the archive of a contact makes of messages that are told as they are on the server. -/

namespace Icq.Archive
open Icq.Lib Icq.Tools Icq.Common ArchiveIndex

namespace MessagesData

variable {w : Surroundings} {disk : Disk} {messages : List HistoryMessage}

/-- What the index takes from a message, apart from where its data lie. -/
def linkOf (m : HistoryMessage) : Int64 × Int64 × MessageFlags := (m.msgid, m.prevMsgid, m.flags)

theorem writeMessages_links (s : Storage) (messages : List HistoryMessage) :
    (writeMessages w s messages).2.1.map linkOf = messages.map linkOf := by
  induction messages generalizing s with
  | nil => rfl
  | cons m rest ih =>
    unfold writeMessages
    simp only
    split
    · rfl
    · simp only [List.map_cons, ih]
      rfl

theorem update_links (disk : Disk) (messages : List HistoryMessage) :
    (update w disk messages).2.1.map linkOf = messages.map linkOf := by
  unfold update
  split
  · rfl
  · exact writeMessages_links _ messages

/-- The device opens the file and never runs full. -/
structure Reliable (disk : Disk) : Prop where
  usable : disk.Usable
  room : disk.room = none

theorem writeMessages_reliable (messages : List HistoryMessage) {s : Storage} (h : s.stream.AtEnd) (hr : s.stream.room = none) :
    (writeMessages w s messages).2.2.stream.room = none ∧
      ((∀ m ∈ messages, Storage.accepted (m.serialize w) = true) →
        (writeMessages w s messages).1.result = true) := by
  induction messages generalizing s with
  | nil => exact ⟨hr, fun _ => rfl⟩
  | cons m rest ih =>
    obtain ⟨hend, hroom, -, hresult, -⟩ := Storage.writeDataBlock_block (m.serialize w) h hr
    unfold writeMessages
    simp only [hresult]
    split
    · rename_i hrefused
      refine ⟨hroom, fun hall => ?_⟩
      simp [hall m (by simp)] at hrefused
    · refine ⟨(ih hend hroom).1, fun hall => (ih hend hroom).2 ?_⟩
      exact fun x hx => hall x (List.mem_cons_of_mem _ hx)

theorem Reliable.update (h : Reliable disk) (messages : List HistoryMessage) :
    Reliable (update w disk messages).2.2 ∧
      ((∀ m ∈ messages, Storage.accepted (m.serialize w) = true) →
        (MessagesData.update w disk messages).1.result = true) := by
  let stream : FileStream := { bytes := disk.file.getD [], append := true, room := disk.room }
  have hopen : Storage.open { write := true, append := true } disk =
      .ok { stream := stream.seekEnd } := by
    simp [Storage.open, h.usable.folder, h.usable.2, stream]
  obtain ⟨-, hend⟩ := Disk.open_append hopen
  obtain ⟨hroom, hwritten⟩ :=
    writeMessages_reliable (w := w) messages hend h.room
  unfold MessagesData.update
  rw [hopen]
  exact ⟨⟨⟨by simp [Disk.close], h.usable.2⟩, hroom⟩, hwritten⟩

theorem applyModifications_flags (m : HistoryMessage) (modifications : List HistoryMessage) :
    (m.applyModifications modifications).flags = m.flags := by
  induction modifications generalizing m with
  | nil => rfl
  | cons modification rest ih =>
    refine (ih _).trans ?_
    unfold HistoryMessage.applyModification
    split
    · rfl
    · split <;> rfl

/-- What is read for a header is as deleted as the header. -/
theorem readMessage_deleted {s s' : Storage} {data data' : BinaryStream} {header : MessageHeader}
    {fetched : Fetched} (h : readMessage w s data header = .ok (fetched, data', s')) :
    fetched.message.flags.deleted = header.isDeleted := by
  unfold readMessage at h
  split at h
  · cases h
    rfl
  · split at h
    · cases h
    · cases h
      rfl
    · split at h
      · cases h
        rfl
      · obtain ⟨r, -, hr⟩ := Outcome.bind_eq_ok h
        cases hr
        rw [applyModifications_flags]
        rfl

/-- One message at most is read for one header, and it is the header's. -/
theorem getMessages_one {header : MessageHeader} {errors : List (Int64 × Int32)}
    (h : getMessages w disk [header] [] = .ok (errors, messages)) :
    messages = [] ∨ ∃ m, messages = [m] ∧ m.msgid = header.id ∧ m.flags.deleted = header.isDeleted := by
  unfold getMessages at h
  split at h
  · cases h
    exact .inl rfl
  · obtain ⟨⟨fetched, s'⟩, hread, he⟩ := Outcome.bind_eq_ok h
    cases he
    obtain ⟨⟨f, data, s''⟩, hone, hrest⟩ := Outcome.bind_eq_ok hread
    cases hrest
    exact .inr ⟨_, rfl, readMessage_msgid hone, readMessage_deleted hone⟩

/-- A message fits a block of the data file, whatever it is linked to. -/
def Storable (w : Surroundings) (m : HistoryMessage) : Prop :=
  ∀ prevMsgid, Storage.accepted ({ m with prevMsgid }.serialize w) = true

end MessagesData

open MessagesData

variable {w : Surroundings} {a : ContactArchive} {server : ServerHistory} {currentTime : Int}
  {s s' : ArchiveIndex}

theorem TrueHeader.congr {h h' : MessageHeader} (hh : TrueHeader server s h)
    (he : (h'.id, h'.prevId, h'.flags) = (h.id, h.prevId, h.flags)) : TrueHeader server s h' := by
  obtain ⟨hid, hprev, hflags⟩ : h'.id = h.id ∧ h'.prevId = h.prevId ∧ h'.flags = h.flags := by
    simpa using he
  refine ⟨hid ▸ hh.logged, ?_, ?_, hid ▸ hprev ▸ hh.link⟩
  · unfold MessageHeader.isDeleted
    rw [hflags]
    exact hh.deleted
  · unfold MessageHeader.isPatch
    rw [hflags, hid]
    exact hh.patch

/-- A message that is told as it is on the server. -/
def TrueMessage (server : ServerHistory) (s : ArchiveIndex) (m : HistoryMessage) : Prop :=
  TrueHeader server s m.received.header

namespace ContactArchive

theorem store_truthful (currentTime : Int) {messages : List HistoryMessage} (ht : Truthful server a.index)
    (hm : ∀ m ∈ messages, TrueMessage server a.index m) :
    Keeps server a.index (a.store w messages currentTime).2.2.index ∧
      ((MessagesData.update w a.dataDisk messages).1.result = true →
        ∀ m ∈ messages, (a.store w messages currentTime).2.2.index.Shows m.msgid) := by
  have hlinks := update_links (w := w) a.dataDisk messages
  unfold ContactArchive.store
  generalize MessagesData.update w a.dataDisk messages = written at hlinks
  obtain ⟨result, messages', disk⟩ := written
  simp only at hlinks ⊢
  split
  · rename_i hrefused
    refine ⟨ht.keeps rfl, fun hresult => ?_⟩
    simp [hresult] at hrefused
  · have htrue : ∀ h ∈ (messages'.map HistoryMessage.received).map ReceivedMessage.header,
        TrueHeader server a.index h := by
      intro h hh
      simp only [List.map_map, List.mem_map] at hh
      obtain ⟨m', hm', rfl⟩ := hh
      have hmem : linkOf m' ∈ messages.map linkOf := hlinks ▸ List.mem_map_of_mem hm'
      obtain ⟨m, hmem, he⟩ := List.mem_map.mp hmem
      exact (hm m hmem).congr he.symm
    obtain ⟨hkept, hshown⟩ := ht.insertHeaders currentTime htrue
    rw [← insertBlock_fst] at hkept hshown
    refine ⟨hkept, fun _ m hmem => ?_⟩
    have hmem' : linkOf m ∈ messages'.map linkOf := hlinks ▸ List.mem_map_of_mem hmem
    obtain ⟨m', hm', he⟩ := List.mem_map.mp hmem'
    have hid : m'.msgid = m.msgid := congrArg Prod.fst he
    rw [← hid]
    exact hshown _ (List.mem_map_of_mem (List.mem_map_of_mem hm'))

/-- What is put in of a true message is true; what is left out is shown already, or gone. -/
theorem insertedMessage_true {arrived : ArrivedMessage} (ht : Truthful server a.index)
    (hbound : ∀ id, server.Has id → a.state.delUpTo < id)
    (hm : TrueMessage server a.index arrived.message) :
    (∀ m, a.insertedMessage arrived = some m → TrueMessage server a.index m ∧
      m.msgid = arrived.message.msgid ∧
      (Storable w arrived.message → Storage.accepted (m.serialize w) = true)) ∧
    (a.insertedMessage arrived = none → server.Has arrived.message.msgid →
      a.index.Shows arrived.message.msgid) := by
  unfold ContactArchive.insertedMessage
  simp only
  split
  · rename_i hknown
    refine ⟨fun m he => absurd he.symm (Option.some_ne_none m), fun _ _ => ?_⟩
    obtain ⟨header, hheader, -⟩ := (Option.any_eq_true _ _).mp hknown
    obtain ⟨hmem, hid⟩ := KeyMap.find_mem hheader
    exact ⟨header, hmem, hid, hm.visible_of_mem ht hmem hid⟩
  · split
    · rename_i hgone
      refine ⟨fun m he => absurd he.symm (Option.some_ne_none m), fun _ hthere => ?_⟩
      exact absurd (hbound _ hthere) (not_lt.mpr hgone.2)
    · split
      · rename_i hprev
        refine ⟨fun m he => ?_, fun he => absurd he (Option.some_ne_none _)⟩
        obtain rfl := Option.some.inj he
        refine ⟨⟨hm.logged, hm.deleted, hm.patch, ?_⟩, rfl, fun hs => hs _⟩
        intro id hid hlt
        rcases hm.link id hid hlt with hle | hin
        · exact absurd (hbound id hid) (not_lt.mpr (hle.trans hprev.2))
        · exact .inr hin
      · refine ⟨?_, nofun⟩
        rintro m ⟨⟩
        exact ⟨hm, rfl, fun hs => hs _⟩

theorem invalidate_shape (errors : List (Int64 × Int32)) (s : ArchiveIndex) :
    SameShape s (errors.foldl (fun (s : ArchiveIndex) e =>
      if 0 < e.1 then s.invalidateMessageData e.1 true else s) s) := by
  induction errors generalizing s with
  | nil => rfl
  | cons e errors ih =>
    rw [List.foldl_cons]
    refine (ih _).trans ?_
    split
    · exact invalidateMessageData_shape s e.1 true
    · rfl

/-- The message of one id is read without a change to the links. -/
theorem getMessagesBuddiesFromIds_one {fromId : Int64} {found : Bool}
    {messages : List HistoryMessage} {a' : ContactArchive}
    (hr : a.getMessagesBuddiesFromIds w [fromId] = .ok (found, messages, a')) :
    SameShape a.index a'.index ∧ a'.state = a.state ∧ a'.dataDisk = a.dataDisk ∧
      (messages = [] ∨ ∃ m, messages = [m] ∧ ∃ header ∈ a.index.headersIndex.items,
        header.id = fromId ∧ m.msgid = fromId ∧ m.flags.deleted = header.isDeleted) := by
  unfold ContactArchive.getMessagesBuddiesFromIds getMessagesBuddiesFromHeaders at hr
  split at hr
  · cases hr
    exact ⟨rfl, rfl, rfl, .inl rfl⟩
  · rename_i hsome
    obtain ⟨⟨errors, messages'⟩, hget, he⟩ := Outcome.bind_eq_ok hr
    cases he
    refine ⟨invalidate_shape errors a.index, rfl, rfl, ?_⟩
    cases hheader : a.index.getHeader fromId with
    | none => simp [hheader] at hsome
    | some header =>
      obtain ⟨hmem, hid⟩ := KeyMap.find_mem hheader
      cases hpatch : header.isPatch with
      | true => simp [hheader, hpatch] at hsome
      | false =>
        have hone : (([fromId].filterMap a.index.getHeader).filter (!·.isPatch)) = [header] := by
          simp [hheader, hpatch]
        rw [hone] at hget
        rcases getMessages_one hget with hnil | ⟨m, hm, hmid, hdeleted⟩
        · exact .inl hnil
        · exact .inr ⟨m, hm, header, hmem, hid, hmid.trans hid, hdeleted⟩

/-- Where a header comes from after messages were stored that are no patches. -/
theorem mem_store {messages : List HistoryMessage} {x : MessageHeader}
    (ht : Truthful server a.index)
    (hm : ∀ m ∈ messages, TrueMessage server a.index m ∧ m.isPatch = false)
    (hx : x ∈ (a.store w messages currentTime).2.2.index.headersIndex.items) :
    x ∈ a.index.headersIndex.items ∨ ∃ m ∈ messages, x.id = m.msgid ∧ x.prevId = m.prevMsgid := by
  have hlinks := update_links (w := w) a.dataDisk messages
  unfold ContactArchive.store at hx
  generalize MessagesData.update w a.dataDisk messages = written at hlinks hx
  obtain ⟨result, messages', disk⟩ := written
  simp only at hlinks hx
  split at hx
  · exact .inl hx
  · have hback : ∀ m' ∈ messages', ∃ m ∈ messages, linkOf m = linkOf m' := by
      intro m' hm'
      have hmem : linkOf m' ∈ messages.map linkOf := hlinks ▸ List.mem_map_of_mem hm'
      exact List.mem_map.mp hmem
    have htrue : ∀ h ∈ (messages'.map HistoryMessage.received).map ReceivedMessage.header,
        TrueHeader server a.index h ∧ h.isPatch = false := by
      intro h hh
      simp only [List.map_map, List.mem_map] at hh
      obtain ⟨m', hm', rfl⟩ := hh
      obtain ⟨m, hmem, he⟩ := hback m' hm'
      obtain ⟨hmtrue, hmpatch⟩ := hm m hmem
      refine ⟨hmtrue.congr he.symm, ?_⟩
      have hflags : m'.flags = m.flags := (congrArg (fun l => l.2.2) he).symm
      exact (congrArg MessageFlags.patch hflags).trans hmpatch
    simp only [ArchiveIndex.update, insertBlock_fst] at hx
    rcases ht.mem_insertHeaders currentTime htrue hx with hx | ⟨h, hh, hid, hprev⟩
    · exact .inl hx
    · simp only [List.map_map, List.mem_map] at hh
      obtain ⟨m', hm', rfl⟩ := hh
      obtain ⟨m, hmem, he⟩ := hback m' hm'
      refine .inr ⟨m, hmem, hid.trans ?_, hprev.trans ?_⟩
      · exact (congrArg Prod.fst he).symm
      · exact (congrArg (fun l => l.2.1) he).symm

theorem store_rest (currentTime : Int) (messages : List HistoryMessage) :
    (a.store w messages currentTime).2.2.state = a.state ∧
      (a.store w messages currentTime).2.2.dataDisk =
        (MessagesData.update w a.dataDisk messages).2.2 := by
  unfold ContactArchive.store
  simp only
  split <;> exact ⟨rfl, rfl⟩

/-- What is known after a block of true messages was put in: all links are still true, and if the
device took what was written, all that the server has of the block is shown. -/
structure Inserted (w : Surroundings) (server : ServerHistory) (data : List ArrivedMessage)
    (a a' : ContactArchive) : Prop where
  keeps : Keeps server a.index a'.index
  state : a'.state = a.state
  reliable : Reliable a.dataDisk → Reliable a'.dataDisk
  shows : Reliable a.dataDisk → (∀ arrived ∈ data, Storable w arrived.message) →
    ∀ arrived ∈ data, server.Has arrived.message.msgid → a'.index.Shows arrived.message.msgid

theorem Inserted.store {messages : List HistoryMessage} {data : List ArrivedMessage}
    (ht : Truthful server a.index) (hm : ∀ m ∈ messages, TrueMessage server a.index m)
    (hshows : (∀ arrived ∈ data, Storable w arrived.message) →
      (∀ m ∈ messages, Storage.accepted (m.serialize w) = true) ∧
      ∀ arrived ∈ data, server.Has arrived.message.msgid →
        a.index.Shows arrived.message.msgid ∨ ∃ m ∈ messages, m.msgid = arrived.message.msgid) :
    Inserted w server data a (a.store w messages currentTime).2.2 := by
  obtain ⟨hkeeps, hall⟩ := store_truthful (w := w) currentTime ht hm
  obtain ⟨hstate, hdisk⟩ := store_rest (w := w) (a := a) currentTime messages
  refine ⟨hkeeps, hstate, ?_, ?_⟩
  · intro hr
    rw [hdisk]
    exact (hr.update messages).1
  · intro hr hstorable arrived hmem hhas
    obtain ⟨haccepted, hcases⟩ := hshows hstorable
    rcases hcases arrived hmem hhas with hin | ⟨m, hm, hid⟩
    · exact hkeeps.shows _ hhas.2 hin
    · rw [← hid]
      exact hall ((hr.update messages).2 haccepted) m hm

theorem Inserted.then_store {messages : List HistoryMessage} {data : List ArrivedMessage}
    {a' : ContactArchive} (h : Inserted w server data a a')
    (hm : ∀ m ∈ messages, TrueMessage server a'.index m) :
    Inserted w server data a (a'.store w messages currentTime).2.2 := by
  obtain ⟨hkeeps, -⟩ := store_truthful (w := w) currentTime h.keeps.truthful hm
  obtain ⟨hstate, hdisk⟩ := store_rest (w := w) (a := a') currentTime messages
  refine ⟨h.keeps.trans hkeeps, hstate.trans h.state, ?_, ?_⟩
  · intro hr
    rw [hdisk]
    exact ((h.reliable hr).update messages).1
  · intro hr hstorable arrived hmem hhas
    exact hkeeps.shows _ hhas.2 (h.shows hr hstorable arrived hmem hhas)

theorem insertHistoryBlock_inserted {data : List ArrivedMessage} {fromId : Int64}
    {hasOlder : Bool} {r : ResultType × List MessageHeader × ContactArchive}
    (ht : Truthful server a.index) (hbound : ∀ id, server.Has id → a.state.delUpTo < id)
    (hdata : ∀ arrived ∈ data, TrueMessage server a.index arrived.message)
    (hfirst : fromId ≠ -1 → hasOlder = false →
      (∀ x ∈ a.index.headersIndex.items, x.id = fromId → visible x = true) ∧
      ∀ id, server.Has id → id < fromId → ∃ arrived ∈ data, arrived.message.msgid = id)
    (hr : a.insertHistoryBlock w data currentTime fromId hasOlder = .ok r) :
    Inserted w server data a r.2.2 := by
  have hone := fun arrived hmem => insertedMessage_true (w := w) ht hbound (hdata arrived hmem)
  unfold ContactArchive.insertHistoryBlock at hr
  simp only at hr
  split at hr
  · rename_i hempty
    have hshown : ∀ arrived ∈ data, server.Has arrived.message.msgid →
        a.index.Shows arrived.message.msgid := by
      intro arrived hmem
      apply (hone arrived hmem).2
      rw [List.isEmpty_iff, List.filterMap_eq_nil_iff] at hempty
      exact hempty arrived hmem
    split at hr
    · rename_i hfix
      obtain ⟨⟨found, messages, a'⟩, hget, he⟩ := Outcome.bind_eq_ok hr
      obtain ⟨hshape, hstate, hdisk, hcases⟩ := getMessagesBuddiesFromIds_one hget
      have hsame : Inserted w server data a a' := by
        refine ⟨ht.keeps hshape, hstate, fun h => hdisk ▸ h, ?_⟩
        exact fun _ _ arrived hmem hhas => hshape.shows (hshown arrived hmem hhas)
      simp only at he
      split at he
      · cases he
        apply hsame.then_store
        rcases hcases with rfl | ⟨m, rfl, header, hheader, hid, hmid, hdeleted⟩
        · simp
        · simp only [Bool.and_eq_true, bne_iff_ne, Bool.not_eq_true'] at hfix
          obtain ⟨hnot, hall⟩ := hfirst hfix.1 hfix.2
          have hv := hnot header hheader hid
          have hshown' : a'.index.Shows m.msgid :=
            hshape.shows ⟨header, hheader, hid.trans hmid.symm, hv⟩
          intro m' hm'
          obtain rfl := List.mem_singleton.mp hm'
          refine ⟨.inr hshown', hdeleted.trans (visible_iff.mp hv).2, .inr hshown', ?_⟩
          intro id hhas hlt
          obtain ⟨arrived, hmem, rfl⟩ := hall id hhas (hmid ▸ hlt)
          exact .inr (hshape.shows (hshown arrived hmem hhas))
      · cases he
        exact hsame
    · cases hr
      exact ⟨ht.keeps rfl, rfl, fun h => h, fun _ _ => hshown⟩
  · cases hr
    apply Inserted.store ht
    · intro m hm
      obtain ⟨arrived, hmem, hins⟩ := List.mem_filterMap.mp hm
      exact ((hone arrived hmem).1 m hins).1
    · intro hstorable
      constructor
      · intro m hm
        obtain ⟨arrived, hmem, hins⟩ := List.mem_filterMap.mp hm
        exact ((hone arrived hmem).1 m hins).2.2 (hstorable arrived hmem)
      · intro arrived hmem hhas
        cases hins : a.insertedMessage arrived with
        | none => exact .inl ((hone arrived hmem).2 hins hhas)
        | some m =>
          exact .inr ⟨m, List.mem_filterMap.mpr ⟨arrived, hmem, hins⟩,
            ((hone arrived hmem).1 m hins).2.1⟩

end ContactArchive

/-- What is above the bound stays; the one header whose link changes named the bound. -/
theorem deleteUpTo_links (s : ArchiveIndex) (upTo : Int64) :
    (∀ x ∈ (s.deleteUpTo upTo).1.headersIndex.items, ∃ y ∈ s.headersIndex.items,
      y.id = x.id ∧ visible y = visible x ∧ (x.prevId = y.prevId ∨ x.prevId = -1 ∧ y.prevId = upTo)) ∧
    ∀ y ∈ s.headersIndex.items, upTo < y.id →
      ∃ x ∈ (s.deleteUpTo upTo).1.headersIndex.items, x.id = y.id ∧ visible x = visible y := by
  unfold deleteUpTo
  split
  · rename_i hlb
    refine ⟨fun x hx => absurd hx List.not_mem_nil, fun y hy hlt => ?_⟩
    exact absurd hlt (not_lt.mpr (le_of_lt (KeyMap.lowerBound_none.mp hlb y hy)))
  · rename_i header hlb
    split
    · simp only
      split
      · refine ⟨fun x hx => ⟨x, (List.mem_filter.mp hx).1, rfl, rfl, .inl rfl⟩, fun y hy hlt => ?_⟩
        exact ⟨y, List.mem_filter.mpr ⟨hy, decide_eq_true hlt⟩, rfl, rfl⟩
      · rename_i after hfirst
        have hafter := List.mem_of_mem_head? hfirst
        split
        · rename_i hprev
          constructor
          · intro x hx
            rcases KeyMap.mem_put.mp hx with rfl | ⟨hx, -⟩
            · exact ⟨after, (List.mem_filter.mp hafter).1, rfl, rfl, .inr ⟨rfl, hprev⟩⟩
            · exact ⟨x, (List.mem_filter.mp hx).1, rfl, rfl, .inl rfl⟩
          · intro y hy hlt
            have hmem : y ∈ (s.headersIndex.filter fun h => decide (upTo < h.id)).items :=
              List.mem_filter.mpr ⟨hy, decide_eq_true hlt⟩
            by_cases he : y.id = after.id
            · obtain rfl := KeyMap.eq_of_key hmem hafter he
              exact ⟨_, KeyMap.mem_put.mpr (.inl rfl), rfl, rfl⟩
            · exact ⟨y, KeyMap.mem_put.mpr (.inr ⟨hmem, he⟩), rfl, rfl⟩
        · refine ⟨fun x hx => ⟨x, (List.mem_filter.mp hx).1, rfl, rfl, .inl rfl⟩, fun y hy hlt => ?_⟩
          exact ⟨y, List.mem_filter.mpr ⟨hy, decide_eq_true hlt⟩, rfl, rfl⟩
    · split
      · exact ⟨fun x hx => ⟨x, hx, rfl, rfl, .inl rfl⟩, fun y hy _ => ⟨y, hy, rfl, rfl⟩⟩
      · split
        · exact ⟨fun x hx => ⟨x, hx, rfl, rfl, .inl rfl⟩, fun y hy _ => ⟨y, hy, rfl, rfl⟩⟩
        · refine ⟨fun x hx => ⟨x, (List.mem_filter.mp hx).1, rfl, rfl, .inl rfl⟩, fun y hy hlt => ?_⟩
          exact ⟨y, List.mem_filter.mpr ⟨hy, decide_eq_true (le_of_lt hlt)⟩, rfl, rfl⟩

theorem Truthful.deleteUpTo {upTo : Int64} (ht : Truthful server s) (hup : upTo ≤ server.bound) :
    Keeps server s (s.deleteUpTo upTo).1 := by
  obtain ⟨hfrom, hstay⟩ := deleteUpTo_links s upTo
  have hshows : ∀ id, server.bound < id → s.Shows id → (s.deleteUpTo upTo).1.Shows id := by
    intro id hid ⟨y, hy, he, hv⟩
    obtain ⟨x, hx, hxid, hxv⟩ := hstay y hy (he ▸ lt_of_le_of_lt hup hid)
    exact ⟨x, hx, hxid.trans he, hxv.trans hv⟩
  refine ⟨⟨?_, ?_, ?_⟩, hshows, ?_⟩
  · intro x hx
    obtain ⟨y, hy, hid, -⟩ := hfrom x hx
    exact hid ▸ ht.issued y hy
  · intro x hx hlog
    obtain ⟨y, hy, hid, hv, -⟩ := hfrom x hx
    exact hv ▸ ht.shown y hy (hid ▸ hlog)
  · intro x hx hvisible
    obtain ⟨y, hy, hid, hv, hprev⟩ := hfrom x hx
    have hlink := (ht.links y hy (hv.trans hvisible)).mono (fun _ hm _ => hm)
      fun id hid => hshows id hid.2
    rw [hid] at hlink
    rcases hprev with hprev | ⟨-, hprev⟩
    · rwa [hprev]
    · intro m hm hlt
      rcases hlink m hm hlt with hle | hin
      · exact absurd hm.2 (not_lt.mpr ((hle.trans hprev.le).trans hup))
      · exact .inr hin
  · intro x hx hvisible
    obtain ⟨y, hy, hid, hv, -⟩ := hfrom x hx
    exact ⟨y, hy, hid, hv.trans hvisible⟩

end Icq.Archive
