import Icq.Archive.ContactArchive
import Icq.Archive.MessageRoundTrip
import Icq.Archive.Persisted
import Icq.Lib.KeyMapRange
import Icq.Lib.Run

/-! Whether history that was erased comes back. -/

namespace Icq.Archive
open Icq.Lib Icq.Tools Icq.Common

/-- Every header of the index is behind a bound. -/
def Above (bound : Int64) (s : ArchiveIndex) : Prop := ∀ x ∈ s.headersIndex.items, bound < x.id

section

variable {bound : Int64} {s : ArchiveIndex}

theorem Above.insertHeader {h : MessageHeader} (hs : Above bound s) (hh : bound < h.id)
    (currentTime : Int) : Above bound (s.insertHeader h currentTime).1 := by
  unfold Above
  rw [ArchiveIndex.insertHeader_headersIndex]
  exact ArchiveIndex.forall_insertMap hs hh (fun e he _ => he) (fun x v hx => hx)

theorem Above.insertHeaders {headers : List MessageHeader} (hs : Above bound s)
    (hh : ∀ h ∈ headers, bound < h.id) (currentTime : Int) :
    Above bound (s.insertHeaders (headers.map (·, currentTime))) :=
  ArchiveIndex.insertHeaders_induct hs fun _ h ht hm => ht.insertHeader (hh h hm) currentTime

theorem Above.update (disk : Disk) {data : List ReceivedMessage} (hs : Above bound s)
    (hd : ∀ m ∈ data, bound < m.msgid) (currentTime : Int) :
    Above bound (s.update disk data currentTime).2.2.1 := by
  have hheaders : ∀ h ∈ data.map ReceivedMessage.header, bound < h.id := by
    intro h hh
    obtain ⟨m, hm, rfl⟩ := List.mem_map.mp hh
    exact hd m hm
  have := hs.insertHeaders hheaders currentTime
  rw [← ArchiveIndex.insertBlock_fst] at this
  exact this

theorem Above.invalidateMessageData (hs : Above bound s) (msgid : Int64) (mark : Bool) :
    Above bound (s.invalidateMessageData msgid mark) := by
  unfold ArchiveIndex.invalidateMessageData
  split
  · exact hs
  · rename_i header hfind
    have hheader := hs header (KeyMap.find_mem hfind).1
    intro x hx
    rcases KeyMap.mem_put.mp hx with rfl | ⟨hm, -⟩
    · split
      · exact hheader
      · exact hheader
    · exact hs x hm

end

namespace MessagesData

variable {w : Surroundings}

theorem readMessages_msgid {s s' : Storage} {data : BinaryStream} {headers : List MessageHeader}
    {fetched : List Fetched} (h : readMessages w s data headers = .ok (fetched, s')) :
    fetched.map (·.message.msgid) = headers.map MessageHeader.id := by
  induction headers generalizing s data fetched with
  | nil =>
    cases h
    rfl
  | cons header rest ih =>
    obtain ⟨⟨f, data', s₁⟩, hone, hrest⟩ := Outcome.bind_eq_ok h
    obtain ⟨r, hr, he⟩ := Outcome.bind_eq_ok hrest
    cases he
    simp only [List.map_cons, readMessage_msgid hone, ih hr]

/-- A message that is got for headers has the id of one of them. -/
theorem getMessages_msgid {disk : Disk} {headers : List MessageHeader}
    {errors : List (Int64 × Int32)} {messages : List HistoryMessage}
    (h : getMessages w disk headers [] = .ok (errors, messages)) :
    ∀ m ∈ messages, ∃ header ∈ headers, m.msgid = header.id := by
  unfold getMessages at h
  split at h
  · cases h
    simp
  · obtain ⟨⟨fetched, s'⟩, hread, he⟩ := Outcome.bind_eq_ok h
    cases he
    intro m hm
    rw [List.nil_append] at hm
    obtain ⟨f, hf, rfl⟩ := List.mem_map.mp hm
    have hid : f.message.msgid ∈ headers.map MessageHeader.id := by
      rw [← readMessages_msgid hread]
      exact List.mem_map_of_mem hf
    obtain ⟨header, hheader, he⟩ := List.mem_map.mp hid
    exact ⟨header, hheader, he.symm⟩

theorem writeMessages_msgid (s : Storage) (messages : List HistoryMessage) :
    (writeMessages w s messages).2.1.map HistoryMessage.msgid =
      messages.map HistoryMessage.msgid := by
  induction messages generalizing s with
  | nil => rfl
  | cons m rest ih =>
    unfold writeMessages
    simp only
    split
    · rfl
    · simp only [List.map_cons, ih]

theorem update_msgid (disk : Disk) (messages : List HistoryMessage) :
    (update w disk messages).2.1.map HistoryMessage.msgid = messages.map HistoryMessage.msgid := by
  unfold update
  split
  · rfl
  · exact writeMessages_msgid _ messages

end MessagesData

namespace ContactArchive

/-- What is done with an archive that was loaded. -/
inductive Call where
  | insertHistoryBlock (data : List ArrivedMessage) (currentTime : Int) (fromId : Int64)
      (hasOlderMessageId : Bool)
  | deleteMessagesUpTo (now : Option Int64) (upTo : Int64)

/-- The archive behind a call, unless the program ended at a null pointer. -/
def step (w : Surroundings) (a : ContactArchive) : Call → Option ContactArchive
  | .insertHistoryBlock data currentTime fromId hasOlderMessageId =>
    match a.insertHistoryBlock w data currentTime fromId hasOlderMessageId with
    | .ok r => some r.2.2
    | _ => none
  | .deleteMessagesUpTo now upTo => some (a.deleteMessagesUpTo now upTo)

/-- History is deleted up to the bound that the state of the dialog has. -/
def ToBound (a : ContactArchive) : Call → Prop
  | .insertHistoryBlock .. => True
  | .deleteMessagesUpTo _ upTo => upTo = a.state.delUpTo

/-- Nothing that was erased is in the index. -/
def Erased (a : ContactArchive) : Prop := Above a.state.delUpTo a.index

variable {w : Surroundings} {a : ContactArchive}

theorem deleteMessagesUpTo_delUpTo (a : ContactArchive) (now : Option Int64) (upTo : Int64) :
    (a.deleteMessagesUpTo now upTo).state.delUpTo = a.state.delUpTo := by
  unfold deleteMessagesUpTo
  simp only
  split
  · rw [DlgState.mergeState_delUpTo]
    · exact max_self _
    · simp [DlgState.isBehind, DlgState.hasLastMsgid]
  · rfl

theorem deleteMessagesUpTo_erased (a : ContactArchive) (now : Option Int64) :
    (a.deleteMessagesUpTo now a.state.delUpTo).Erased := by
  unfold Erased
  rw [deleteMessagesUpTo_delUpTo]
  exact fun x hx => (ArchiveIndex.mem_deleteUpTo hx).1

theorem Erased.store {messages : List HistoryMessage} (h : a.Erased)
    (hm : ∀ m ∈ messages, a.state.delUpTo < m.msgid) (currentTime : Int) :
    (a.store w messages currentTime).2.2.Erased := by
  unfold ContactArchive.store
  simp only
  split
  · exact h
  · refine Above.update a.indexDisk h ?_ currentTime
    intro r hr
    obtain ⟨m, hmem, rfl⟩ := List.mem_map.mp hr
    have hid : m.msgid ∈ messages.map HistoryMessage.msgid := by
      rw [← MessagesData.update_msgid (w := w) a.dataDisk messages]
      exact List.mem_map_of_mem hmem
    obtain ⟨m', hm', he⟩ := List.mem_map.mp hid
    have hlt := hm m' hm'
    rw [he] at hlt
    exact hlt

theorem insertedMessage_above {arrived : ArrivedMessage} {m : HistoryMessage}
    (h : a.insertedMessage arrived = some m) : a.state.delUpTo < m.msgid := by
  unfold insertedMessage at h
  simp only at h
  split at h
  · cases h
  · split at h
    · cases h
    · rename_i hnew
      have hlt : a.state.delUpTo < arrived.message.msgid :=
        not_le.mp fun hle => hnew ⟨arrived.hasMsgid, hle⟩
      split at h
      · cases h
        exact hlt
      · cases h
        exact hlt

/-- The messages that are read for a block without news are in the index already. -/
theorem Erased.getMessagesBuddiesFromIds {ids : List Int64} {found : Bool}
    {messages : List HistoryMessage} {a' : ContactArchive} (h : a.Erased)
    (hr : a.getMessagesBuddiesFromIds w ids = .ok (found, messages, a')) :
    a'.Erased ∧ ∀ m ∈ messages, a'.state.delUpTo < m.msgid := by
  unfold ContactArchive.getMessagesBuddiesFromIds getMessagesBuddiesFromHeaders at hr
  split at hr
  · cases hr
    exact ⟨h, by simp⟩
  · obtain ⟨⟨errors, messages'⟩, hget, he⟩ := Outcome.bind_eq_ok hr
    cases he
    constructor
    · suffices hfold : ∀ (errors : List (Int64 × Int32)) (s : ArchiveIndex),
          Above a.state.delUpTo s → Above a.state.delUpTo (errors.foldl (fun (s : ArchiveIndex) e =>
            if 0 < e.1 then s.invalidateMessageData e.1 true else s) s) from hfold errors a.index h
      intro errors
      induction errors with
      | nil => exact fun s hs => hs
      | cons e errors ih =>
        intro s hs
        refine ih _ ?_
        dsimp only
        split
        · exact hs.invalidateMessageData _ _
        · exact hs
    · intro m hm
      obtain ⟨header, hheader, he⟩ := MessagesData.getMessages_msgid hget m hm
      rw [he]
      obtain ⟨id, -, hfind⟩ := List.mem_filterMap.mp (List.mem_filter.mp hheader).1
      exact h header (KeyMap.find_mem hfind).1

theorem Erased.insertHistoryBlock {data : List ArrivedMessage} {currentTime : Int} {fromId : Int64}
    {hasOlder : Bool} {r : ResultType × List MessageHeader × ContactArchive} (h : a.Erased)
    (hr : a.insertHistoryBlock w data currentTime fromId hasOlder = .ok r) : r.2.2.Erased := by
  unfold ContactArchive.insertHistoryBlock at hr
  simp only at hr
  split at hr
  · split at hr
    · obtain ⟨⟨found, messages, a'⟩, hget, he⟩ := Outcome.bind_eq_ok hr
      obtain ⟨ha', hm⟩ := h.getMessagesBuddiesFromIds hget
      simp only at he
      split at he
      · cases he
        refine ha'.store ?_ currentTime
        cases messages with
        | nil => simp
        | cons first rest =>
          intro m hmem
          rcases List.mem_cons.mp hmem with rfl | hrest
          · exact hm first List.mem_cons_self
          · exact hm m (List.mem_cons_of_mem _ hrest)
      · cases he
        exact ha'
    · cases hr
      exact h
  · cases hr
    refine h.store ?_ currentTime
    intro m hm
    obtain ⟨arrived, -, hins⟩ := List.mem_filterMap.mp hm
    exact insertedMessage_above hins

theorem Erased.step {a' : ContactArchive} {call : Call} (h : a.Erased) (hb : a.ToBound call)
    (hs : a.step w call = some a') : a'.Erased := by
  cases call with
  | insertHistoryBlock data currentTime fromId hasOlder =>
    simp only [ContactArchive.step] at hs
    split at hs
    · rename_i r hr
      cases hs
      exact h.insertHistoryBlock hr
    · cases hs
  | deleteMessagesUpTo now upTo =>
    cases hs
    cases hb
    exact a.deleteMessagesUpTo_erased now

/-- The headers of a loaded index have positive ids. -/
theorem loadFromLocal_positive {disk : Disk} {currentTime : Int} {ok : Bool} {index : ArchiveIndex}
    (h : ({} : ArchiveIndex).loadFromLocal disk currentTime = some (ok, index)) : Above 0 index := by
  have hread : ∀ {ok index}, ({} : ArchiveIndex).readLocal disk currentTime = some (ok, index) →
      Above 0 index := by
    intro ok index h
    rcases ArchiveIndex.readLocal_induct (P := Above 0) h (fun x hx => by cases hx)
      (fun s h hs hnew => hs.insertHeader hnew.positive currentTime)
      (fun s h _ hmem => by cases hmem) with ⟨-, e, rfl⟩ | ⟨t, ht, hindex, -⟩
    · intro x hx
      cases hx
    · intro x hx
      rw [hindex] at hx
      exact ht x hx
  unfold ArchiveIndex.loadFromLocal at h
  split at h
  · cases h
  · rename_i s hs
    cases h
    exact hread hs
  · rename_i s hs
    cases h
    exact fun x hx => hread hs x (ArchiveIndex.mem_dropOutdatedHeaders hx)

theorem getFirstMsgid_eq {s : ArchiveIndex} {first : MessageHeader}
    (h : s.headersIndex.first? = some first) : s.getFirstMsgid = first.id := by
  rw [ArchiveIndex.getFirstMsgid, h]

/-- Loading leaves an index whose first header is the bound, and else nothing that was erased. -/
theorem loadFromLocal_erased {indexDisk dataDisk : Disk} {state : DlgState} {now : Option Int64}
    {currentTime : Int} {ok : Bool} {index : ArchiveIndex} {loaded : ContactArchive}
    (hindex : ({} : ArchiveIndex).loadFromLocal indexDisk currentTime = some (ok, index))
    (h : loadFromLocal { indexDisk, dataDisk, state } now currentTime = some loaded) :
    loaded.Erased ↔ index.headersIndex.first?.map MessageHeader.id ≠ some state.delUpTo := by
  have hpos := loadFromLocal_positive hindex
  simp only [loadFromLocal, hindex, Bool.false_eq_true, if_false] at h
  split at h
  · -- the first id is in front of the bound, and the index is cut
    rename_i hcut
    cases h
    refine iff_of_true (deleteMessagesUpTo_erased _ now) ?_
    intro hfirst
    obtain ⟨first, hf, hid⟩ := Option.map_eq_some_iff.mp hfirst
    rw [getFirstMsgid_eq hf, hid] at hcut
    exact absurd hcut.2.2 (lt_irrefl _)
  · rename_i hcut
    cases h
    constructor
    · intro her hfirst
      obtain ⟨first, hf, hid⟩ := Option.map_eq_some_iff.mp hfirst
      have hlt := her first (List.mem_of_mem_head? hf)
      rw [hid] at hlt
      exact absurd hlt (lt_irrefl _)
    · intro hne x hx
      cases hfirst : index.headersIndex.first? with
      | none =>
        rw [List.head?_eq_none_iff.mp hfirst] at hx
        cases hx
      | some first =>
        rw [hfirst] at hne
        rw [getFirstMsgid_eq hfirst] at hcut
        have hle := KeyMap.first_le hfirst hx
        have hfirstPos := hpos first (List.mem_of_mem_head? hfirst)
        refine lt_of_lt_of_le ?_ hle
        by_cases hdel : 0 < state.delUpTo
        · refine lt_of_le_of_ne (not_lt.mp fun hlt => hcut ⟨hfirstPos, ?_, hlt⟩) ?_
          · exact decide_eq_true hdel
          · exact fun he => hne (congrArg some he.symm)
        · exact lt_of_le_of_lt (not_lt.mp hdel) hfirstPos

/-- Erased history never comes back, if and only if the saved index does not begin with the header
up to which it was erased. -/
theorem stays_erased_iff (w : Surroundings) (indexDisk dataDisk : Disk) (state : DlgState)
    (now : Option Int64) (currentTime : Int) :
    (∀ loaded a, loadFromLocal { indexDisk, dataDisk, state } now currentTime = some loaded →
      Run (step w) ToBound loaded a → a.Erased) ↔
    ∀ ok index, ({} : ArchiveIndex).loadFromLocal indexDisk currentTime = some (ok, index) →
      index.headersIndex.first?.map MessageHeader.id ≠ some state.delUpTo := by
  constructor
  · intro h ok index hindex
    cases hload : loadFromLocal { indexDisk, dataDisk, state } now currentTime with
    | none =>
      simp only [loadFromLocal, hindex, Bool.false_eq_true, if_false] at hload
      split at hload <;> cases hload
    | some loaded => exact (loadFromLocal_erased hindex hload).mp (h loaded loaded hload .start)
  · intro h loaded a hload hrun
    have hloaded : loaded.Erased := by
      cases hindex : ({} : ArchiveIndex).loadFromLocal indexDisk currentTime with
      | none => simp [loadFromLocal, hindex] at hload
      | some r => exact (loadFromLocal_erased hindex hload).mpr (h r.1 r.2 hindex)
    exact hrun.invariant hloaded fun her hb hs => her.step hb hs

section

/-- The header of a message that was deleted with all before it. -/
def boundHeader : MessageHeader := { id := 5 }

/-- A saved index of this header. -/
def boundDisk : Disk := { file := some (ArchiveIndex.blockFile [[boundHeader]]) }

def boundIndex : ArchiveIndex :=
  { ArchiveIndex.insertHeaders {} [(boundHeader.stored, 0)] with loadedFromLocal := true }

theorem loadFromLocal_bound :
    ({} : ArchiveIndex).loadFromLocal boundDisk 0 = some (true, boundIndex) := by
  have hload : ArchiveIndex.Loadable [[boundHeader]] := by
    constructor
    · simp only [List.mem_singleton, forall_eq]
      exact ⟨by decide, by decide⟩
    · simp only [List.mem_singleton, forall_eq]
      decide +kernel
  have husable : boundDisk.Usable := ⟨rfl, rfl⟩
  have hread : ArchiveIndex.readLocal {} boundDisk 0 = some (true, boundIndex) :=
    ArchiveIndex.readLocal_blockFile 0 hload husable rfl
  rw [ArchiveIndex.loadFromLocal, hread]
  simp only
  rw [ArchiveIndex.dropOutdatedHeaders_recent]
  decide

/-- A message that was deleted with all before it is back when the index is loaded. -/
theorem bound_comes_back :
    ¬ ∀ loaded a, loadFromLocal { indexDisk := boundDisk, state := { delUpTo := 5 } } none 0 =
      some loaded → Run (step HistoryMessage.blank) ToBound loaded a → a.Erased := by
  intro h
  cases hload : loadFromLocal { indexDisk := boundDisk, state := { delUpTo := 5 } } none 0 with
  | none =>
    simp only [loadFromLocal, loadFromLocal_bound, Bool.false_eq_true, if_false] at hload
    split at hload <;> cases hload
  | some loaded =>
    have hfirst := (loadFromLocal_erased loadFromLocal_bound hload).mp (h loaded loaded hload .start)
    exact hfirst (by decide)

end

end ContactArchive

end Icq.Archive
