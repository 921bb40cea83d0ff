import Icq.Archive.FastRead
import Icq.Archive.FieldScan
import Icq.Archive.TermSearch
import Icq.Lib.FirstMatch
import Icq.Lib.Greatest
import Icq.Lib.KeyMap
import Mathlib.Data.List.Lex

/-! A search through the blocks of several contacts that lie in one buffer. -/

namespace Icq.Archive
open Icq.Lib Icq.Tools

/-- The messages found of one contact. -/
structure FoundContact where
  contact : Bytes
  messages : List HistoryMessage

abbrev FoundMessages := KeyMap FoundContact.contact

namespace FoundMessages

def messagesOf (found : FoundMessages) (contact : Bytes) : List HistoryMessage :=
  ((found.find? contact).map FoundContact.messages).getD []

def hasId (id : Int64) (m : HistoryMessage) : Bool := m.msgid == id

/-- Put a message in the place of the one with its id, or behind the others. -/
def add (found : FoundMessages) (contact : Bytes) (id : Int64) (m : HistoryMessage) :
    FoundMessages :=
  let messages := messagesOf found contact
  found.put
    { contact
      messages := if messages.any (hasId id) then modifyFirst (hasId id) (fun _ => m) messages
        else messages ++ [m] }

def remove (found : FoundMessages) (contact : Bytes) (id : Int64) : FoundMessages :=
  match found.find? contact with
  | none => found
  | some entry => found.put { entry with messages := entry.messages.eraseP (hasId id) }

def Has (found : FoundMessages) (contact : Bytes) (id : Int64) : Prop :=
  ∃ m ∈ messagesOf found contact, m.msgid = id

end FoundMessages

def getLimitSearchResults : Nat := 100

/-- The best ids so far, and what was found. -/
structure ArchiveSearch where
  topIds : Finset Int64 := ∅
  found : FoundMessages := ∅

section Contend

variable {α : Type} [LinearOrder α]

/-- Make room for an id among the best ones, if there are too many already and it is better than
one of them. -/
def makeRoom (limit : Nat) (top : Finset α) (x : α) : Option (Finset α) :=
  if limit < top.card then
    if ∃ k ∈ top, k < x then some (insert x (eraseLeast top)) else none
  else some top

def withId (x : α) (top : Finset α) : Finset α := insert x top

/-- How many of a crowd are above one. -/
def above (x : α) (crowd : Finset α) : Nat := (crowd.filter (x < ·)).card

/-- Who contends for the best: at first only those found, when they are too many all that come. -/
def contend (limit : Nat) (found : Bool) (crowd : Finset α) (x : α) : Finset α :=
  if found = true ∨ limit < crowd.card then insert x crowd else crowd

end Contend

namespace ArchiveSearch

/-- A message of which the scan knows the id. -/
def visitMessage (w : Surroundings) (t : CodedTerm) (contact : Bytes) (id : Int64) (block : Bytes)
    (s : ArchiveSearch) : Outcome ArchiveSearch :=
  if HistoryMessage.isSticker block then .ok s
  else if HistoryMessage.isChatEvent block then .ok s
  else
    let text := HistoryMessage.jumpToTextField block 0
    if text.1 = 0 then .ok s
    else
      let pointer := if text.2.isEmpty then none else some text.2
      -- A debug build also takes a message whose id the term is.
      if t.kmpStrstr pointer text.1.toNat ≠ -1 then
        match HistoryMessage.unserialize w block with
        | .ok m =>
          .ok { topIds := withId id s.topIds, found := FoundMessages.add s.found contact id m }
        | .refused => .ok s
        | .crashed => .crashed
      else .ok { s with found := FoundMessages.remove s.found contact id }

def visitBlock (w : Surroundings) (t : CodedTerm) (minId : Int64) (contact block : Bytes)
    (s : ArchiveSearch) : Outcome ArchiveSearch := do
  let id ← HistoryMessage.getIdField block
  if id = -1 ∨ id ≤ minId then .ok s
  else
    match makeRoom getLimitSearchResults s.topIds id with
    | none => .ok s
    | some topIds => visitMessage w t contact id block { s with topIds }

/-- The blocks of one contact; also where the scan stopped. -/
def searchBlocks (visit : Bytes → ArchiveSearch → Outcome ArchiveSearch) (endPos : Nat) :
    Nat → BinaryStream → Nat → ArchiveSearch → Outcome (ArchiveSearch × Nat)
  | 0, _, pos, s => .ok (s, pos)
  | fuel + 1, buffer, pos, s =>
    let r := Storage.fastReadDataBlock buffer pos 0 endPos
    if r.found then do
      let s ← visit r.buffer.unread s
      searchBlocks visit endPos fuel r.buffer r.currentPos s
    else .ok (s, r.currentPos)

/-- How far the next search in the file of a contact starts behind this one. -/
def nextOffset (contact : Bytes) (start stop : Nat) (offset : Int) : Int :=
  let offset := if stop = start ∧ contact.isEmpty = false then -1 else offset
  if offset ≠ -1 then offset + (stop - start : Int) else offset

/-- The contacts one after the other, each up to where the next one begins. The cursors of the
buffer are set anew for each block. -/
def searchContacts (w : Surroundings) (t : CodedTerm) (minId : Int64) (data : Bytes) :
    List (Bytes × Nat) → List Int → ArchiveSearch → Outcome (ArchiveSearch × List Int)
  | (contact, start) :: (next, endPos) :: rest, offset :: offsets, s => do
    let r ← searchBlocks (visitBlock w t minId contact) endPos (endPos - start + 1)
      { buffer := data } start s
    let others ← searchContacts w t minId data ((next, endPos) :: rest) offsets r.1
    .ok (others.1, nextOffset contact start r.2 offset :: others.2)
  | _, offsets, s => .ok (s, offsets)

end ArchiveSearch

/-- What was found then, and the offsets. -/
def searchInArchive (w : Surroundings) (t : CodedTerm) (minId : Int64) (data : Bytes)
    (archive : List (Bytes × Nat)) (offsets : List Int) (found : FoundMessages) :
    Outcome (FoundMessages × List Int) := do
  let r ← ArchiveSearch.searchContacts w t minId data archive offsets { found }
  .ok (r.1.found, r.2)

section Contend

variable {α : Type} [LinearOrder α] {limit : Nat} {crowd : Finset α} {x y : α} {found : Bool}

theorem above_le (x : α) (crowd : Finset α) : above x crowd ≤ crowd.card :=
  Finset.card_le_card (Finset.filter_subset _ _)

theorem contend_full (h : limit < crowd.card) : contend limit found crowd x = insert x crowd :=
  if_pos (.inr h)

theorem contend_found : contend limit true crowd x = insert x crowd := if_pos (.inl rfl)

theorem contend_open (h : ¬limit < crowd.card) : contend limit false crowd x = crowd :=
  if_neg fun hor => hor.elim Bool.false_ne_true h

theorem contend_subset : contend limit found crowd x ⊆ insert x crowd := by
  unfold contend
  split
  · exact Finset.Subset.refl _
  · exact Finset.subset_insert x crowd

/-- One is admitted if no more are above it among all who contended than the limit. -/
theorem makeRoom_eq (hx : x ∉ crowd) : makeRoom limit (greatest (limit + 1) crowd) x =
    if above x crowd ≤ limit then some (greatest (limit + 1) (contend limit false crowd x))
    else none := by
  have hcard := card_greatest (limit + 1) crowd
  rw [makeRoom]
  by_cases hfull : limit < crowd.card
  · have hiff : (∃ k ∈ greatest (limit + 1) crowd, k < x) ↔ above x crowd ≤ limit :=
      (exists_lt_greatest_iff hfull hx).trans Nat.lt_succ_iff
    rw [if_pos (by omega), contend_full hfull]
    by_cases hless : ∃ k ∈ greatest (limit + 1) crowd, k < x
    · rw [if_pos hless, if_pos (hiff.mp hless), greatest_insert_above hfull hx hless]
    · rw [if_neg hless, if_neg (mt hiff.mpr hless)]
  · have hle := above_le x crowd
    rw [if_neg (by omega), if_pos (by omega), contend_open hfull,
      greatest_of_room (by omega)]

theorem greatest_contend_refused (hx : x ∉ crowd) (h : ¬above x crowd ≤ limit) :
    greatest (limit + 1) (contend limit found crowd x) = greatest (limit + 1) crowd := by
  have hle := above_le x crowd
  have hfull : limit < crowd.card := by omega
  rw [contend_full hfull]
  refine greatest_insert_full hfull fun k hk => ?_
  have hne : x ≠ k := fun heq => hx (heq ▸ greatest_subset _ _ hk)
  refine lt_of_le_of_ne (not_lt.mp fun hlt => h ?_) hne
  exact Nat.le_of_lt_succ ((exists_lt_greatest_iff hfull hx).mp ⟨k, hk, hlt⟩)

theorem withId_greatest (h : above x crowd ≤ limit) :
    withId x (greatest (limit + 1) (contend limit false crowd x)) =
      greatest (limit + 1) (contend limit true crowd x) := by
  rw [withId, contend_found]
  by_cases hfull : limit < crowd.card
  · rw [contend_full hfull]
    refine Finset.insert_eq_of_mem (mem_greatest.mpr ⟨Finset.mem_insert_self x crowd, ?_⟩)
    rw [Finset.filter_insert, if_neg (lt_irrefl x)]
    exact Nat.lt_succ_of_le h
  · have hcard := Finset.card_insert_le x crowd
    rw [contend_open hfull, greatest_of_room (by omega), greatest_of_room (by omega)]

end Contend

namespace FoundMessages

variable {found : FoundMessages} {contact other : Bytes} {id id' : Int64} {m : HistoryMessage}

theorem messagesOf_put (found : FoundMessages) (entry : FoundContact) (other : Bytes) :
    messagesOf (found.put entry) other =
      if entry.contact = other then entry.messages else messagesOf found other := by
  rw [messagesOf, KeyMap.find_put]
  split <;> rfl

theorem has_add (hid : m.msgid = id) : Has (add found contact id m) other id' ↔
    Has found other id' ∨ contact = other ∧ id = id' := by
  rw [Has, add, messagesOf_put]
  dsimp only
  by_cases hcontact : contact = other
  · subst hcontact
    rw [if_pos rfl, and_iff_right rfl]
    by_cases hany : (messagesOf found contact).any (hasId id) = true
    · obtain ⟨old, hold, holdId⟩ := List.any_eq_true.mp hany
      have hids : (modifyFirst (hasId id) (fun _ => m) (messagesOf found contact)).map
          HistoryMessage.msgid = (messagesOf found contact).map HistoryMessage.msgid :=
        map_modifyFirst fun a _ ha => hid.trans (beq_iff_eq.mp ha).symm
      rw [if_pos hany, ← List.mem_map, hids, List.mem_map, ← Has]
      refine (or_iff_left_of_imp fun heq => ?_).symm
      exact ⟨old, hold, (beq_iff_eq.mp holdId).trans heq⟩
    · rw [if_neg hany, Has, ← hid]
      simp only [List.mem_append, List.mem_singleton, or_and_right, exists_or, exists_eq_left]
  · rw [if_neg hcontact, or_iff_left fun h => hcontact h.1]
    rfl

theorem has_remove_other (hne : id' ≠ id) :
    Has (remove found contact id) other id' ↔ Has found other id' := by
  rw [remove]
  cases hfind : found.find? contact with
  | none => rfl
  | some entry =>
    have hkey : entry.contact = contact := (KeyMap.find_mem hfind).2
    dsimp only
    rw [Has, messagesOf_put]
    dsimp only
    rw [hkey]
    by_cases hcontact : contact = other
    · have hmessages : messagesOf found other = entry.messages := by
        rw [messagesOf, ← hcontact, hfind]
        rfl
      rw [if_pos hcontact, Has, hmessages]
      refine exists_congr fun m => and_congr_left fun hm => List.mem_eraseP_of_neg fun hhas => ?_
      exact hne (hm.symm.trans (beq_iff_eq.mp hhas))
    · rw [if_neg hcontact]
      rfl

end FoundMessages

/-- The search for the term finds it in the text where it lies in the block. -/
def isHit (w : Surroundings) (t : CodedTerm) (m : HistoryMessage) : Bool :=
  decide (t.kmpStrstr (some ((m.serialize w).drop 8)) m.text.length ≠ -1)

/-- A text message whose block the scanner accepts, and that can be read from there. -/
structure IsTextMessage (w : Surroundings) (minId : Int64) (m : HistoryMessage) : Prop where
  readable : ∃ read, HistoryMessage.unserialize w (m.serialize w) = .ok read ∧
    read.msgid = m.msgid
  sticker : m.sticker = none
  chatEvent : m.chatEvent = none
  text : m.text ≠ []
  textLength : m.text.length < 2 ^ 32
  size : (m.serialize w).length ≤ maxDataBlockSize.toNat
  newer : minId < m.msgid

/-- What a block is read as. -/
def readBack (w : Surroundings) (m : HistoryMessage) : HistoryMessage :=
  match HistoryMessage.unserialize w (m.serialize w) with
  | .ok read => read
  | _ => m

/-- A text message comes to a search. -/
def ArchiveSearch.meet (w : Surroundings) (t : CodedTerm) (s : ArchiveSearch) (contact : Bytes)
    (m : HistoryMessage) : ArchiveSearch :=
  if m.msgid = -1 then s
  else
    match makeRoom getLimitSearchResults s.topIds m.msgid with
    | none => s
    | some topIds =>
      if isHit w t m then
        { topIds := withId m.msgid topIds
          found := FoundMessages.add s.found contact m.msgid (readBack w m) }
      else { topIds, found := FoundMessages.remove s.found contact m.msgid }

section Readable

variable {w : Surroundings} {m : HistoryMessage}

theorem fits_of_size (h : (m.serialize w).length ≤ maxDataBlockSize.toNat) :
    Fits (m.serializePack w []) := by
  intro t ht
  have hlength := TlvPack.length_serialize_of_mem ht
  have hsize : (TlvPack.serialize (m.serializePack w [])).length ≤ 1048576 := h
  omega

/-- A message without JSON is read back under its id. -/
theorem reads_back (hfits : Fits (m.serializePack w [])) (hjson : Tlv.textValue m.json = []) :
    ∃ read, HistoryMessage.unserialize w (m.serialize w) = .ok read ∧ read.msgid = m.msgid := by
  have hread := @HistoryMessage.unserializeCall_stored w m [] [] hfits (.inl hjson)
  refine ⟨m.stored w, ?_, rfl⟩
  rw [HistoryMessage.unserialize, HistoryMessage.serialize, hread]
  rfl

end Readable

namespace IsTextMessage

variable {w : Surroundings} {minId : Int64} {m : HistoryMessage}

theorem fits (h : IsTextMessage w minId m) : Fits (m.serializePack w []) := fits_of_size h.size

theorem unserialize (h : IsTextMessage w minId m) :
    HistoryMessage.unserialize w (m.serialize w) = .ok (readBack w m) ∧
      (readBack w m).msgid = m.msgid := by
  obtain ⟨read, hread, hid⟩ := h.readable
  have hback : readBack w m = read := by
    delta readBack
    rw [hread]
  rw [hback]
  exact ⟨hread, hid⟩

theorem scannable (h : IsTextMessage w minId m) : Storage.Scannable (m.serialize w) := by
  refine ⟨fun hnil => ?_, h.size⟩
  obtain ⟨rest, hpack, -⟩ := @HistoryMessage.serializePack_text w m []
  have hlength := TlvPack.length_serialize_of_mem (hpack ▸ List.mem_cons_self)
  have hzero : (TlvPack.serialize (m.serializePack w [])).length = 0 :=
    congrArg List.length hnil
  omega

theorem visitBlock (h : IsTextMessage w minId m) (t : CodedTerm) (contact : Bytes)
    (s : ArchiveSearch) :
    ArchiveSearch.visitBlock w t minId contact (m.serialize w) s = .ok (s.meet w t contact m) := by
  have hnew : ¬m.msgid ≤ minId := not_le.mpr h.newer
  rw [ArchiveSearch.visitBlock, HistoryMessage.getIdField_serialize h.fits, Outcome.ok_bind,
    ArchiveSearch.meet]
  by_cases hminus : m.msgid = -1
  · rw [if_pos (.inl hminus), if_pos hminus]
  · rw [if_neg fun hor => hor.elim hminus hnew, if_neg hminus]
    cases makeRoom getLimitSearchResults s.topIds m.msgid with
    | none => rfl
    | some topIds =>
      have hsticker : HistoryMessage.isSticker (m.serialize w) = false := by
        rw [HistoryMessage.isSticker, HistoryMessage.seekField_message_whole h.fits,
          HistoryMessage.any_sticker, h.sticker]
        rfl
      have hevent : HistoryMessage.isChatEvent (m.serialize w) = false := by
        rw [HistoryMessage.isChatEvent, HistoryMessage.seekField_message_whole h.fits,
          HistoryMessage.any_chatEvent, h.chatEvent]
        rfl
      obtain ⟨hlength, hplace⟩ := HistoryMessage.jumpToTextField_serialize h.fits 0
      rw [Tlv.textValue_eq h.textLength] at hlength hplace
      obtain ⟨hleft, hprefix⟩ := hplace h.text
      have htext : (HistoryMessage.jumpToTextField (m.serialize w) 0).1 ≠ 0 := fun hzero => by
        rw [hzero] at hlength
        exact h.text (List.length_eq_zero_iff.mp hlength.symm)
      have hsome : ¬((m.serialize w).drop 8).isEmpty = true := fun hnil =>
        h.text (List.prefix_nil.mp (List.isEmpty_iff.mp hnil ▸ hprefix))
      dsimp only
      rw [ArchiveSearch.visitMessage, hsticker, hevent, if_neg Bool.false_ne_true,
        if_neg Bool.false_ne_true]
      dsimp only
      rw [if_neg htext, hleft, if_neg hsome, hlength]
      by_cases hhit : t.kmpStrstr (some ((m.serialize w).drop 8)) m.text.length ≠ -1
      · rw [if_pos hhit, h.unserialize.1, isHit, decide_eq_true hhit]
        rfl
      · rw [if_neg hhit, isHit, decide_eq_false hhit]
        rfl

end IsTextMessage

namespace ArchiveSearch

section Blocks

variable {visit : Bytes → ArchiveSearch → Outcome ArchiveSearch} {endPos : Nat}

/-- The search goes by the blocks that the scanner finds. -/
theorem searchBlocks_eq (fuel : Nat) (buffer : BinaryStream) (pos : Nat) (s : ArchiveSearch) :
    searchBlocks visit endPos fuel buffer pos s =
      (Storage.scanBlocks endPos fuel buffer pos).1.foldlM (fun s block => visit block s) s >>=
        fun s => .ok (s, (Storage.scanBlocks endPos fuel buffer pos).2) := by
  induction fuel generalizing buffer pos s with
  | zero => rfl
  | succ fuel ih =>
    rw [searchBlocks, Storage.scanBlocks]
    dsimp only
    by_cases hfound : (Storage.fastReadDataBlock buffer pos 0 endPos).found = true
    · rw [if_pos hfound, if_pos hfound, List.foldlM_cons]
      cases visit (Storage.fastReadDataBlock buffer pos 0 endPos).buffer.unread s with
      | ok s => exact ih _ _ s
      | refused => rfl
      | crashed => rfl
    · rw [if_neg hfound, if_neg hfound]
      rfl

end Blocks

section Contacts

variable {w : Surroundings} {minId : Int64} (t : CodedTerm)

/-- What the file of a contact holds. -/
def fileOf (w : Surroundings) (messages : List HistoryMessage) : Bytes :=
  (messages.map fun m => frame (m.serialize w)).flatten

/-- Where the files of the contacts begin, and where the last of them ends. -/
def archiveFrom (w : Surroundings) : Nat → List (Bytes × List HistoryMessage) →
    List (Bytes × Nat)
  | start, [] => [([], start)]
  | start, c :: contacts => (c.1, start) :: archiveFrom w (start + (fileOf w c.2).length) contacts

/-- The messages in the order in which the search comes to them, each with its contact. -/
def visits (contacts : List (Bytes × List HistoryMessage)) : List (Bytes × HistoryMessage) :=
  contacts.flatMap fun c => c.2.map fun m => (c.1, m)

theorem visits_cons (c : Bytes × List HistoryMessage)
    (contacts : List (Bytes × List HistoryMessage)) :
    visits (c :: contacts) = c.2.map (fun m => (c.1, m)) ++ visits contacts := List.flatMap_cons

theorem foldlM_visitBlock {messages : List HistoryMessage}
    (h : ∀ m ∈ messages, IsTextMessage w minId m) (contact : Bytes) (s : ArchiveSearch) :
    (messages.map fun m => m.serialize w).foldlM
        (fun s block => visitBlock w t minId contact block s) s =
      .ok (messages.foldl (fun s m => s.meet w t contact m) s) := by
  induction messages generalizing s with
  | nil => rfl
  | cons m messages ih =>
    obtain ⟨hm, hmessages⟩ := List.forall_mem_cons.mp h
    rw [List.map_cons, List.foldlM_cons, hm.visitBlock, Outcome.ok_bind, ih hmessages,
      List.foldl_cons]

/-- The file of one contact between other bytes. -/
theorem searchBlocks_file {messages : List HistoryMessage}
    (h : ∀ m ∈ messages, IsTextMessage w minId m) (contact before after : Bytes)
    (s : ArchiveSearch) :
    searchBlocks (visitBlock w t minId contact) (before.length + (fileOf w messages).length)
        (before.length + (fileOf w messages).length - before.length + 1)
        { buffer := before ++ (fileOf w messages ++ after) } before.length s =
      .ok (messages.foldl (fun s m => s.meet w t contact m) s,
        before.length + (fileOf w messages).length) := by
  have hp : ∀ p ∈ messages.map fun m => m.serialize w, Storage.Scannable p :=
    List.forall_mem_map.mpr fun m hm => (h m hm).scannable
  have hfile : fileOf w messages = ((messages.map fun m => m.serialize w).map frame).flatten := by
    rw [fileOf, List.map_map]
    rfl
  have hscan := Storage.scanRegion_whole before after hp hfile
  rw [Storage.scanRegion] at hscan
  rw [searchBlocks_eq, hscan, foldlM_visitBlock t h, Outcome.ok_bind]

theorem archiveFrom_head (w : Surroundings) (start : Nat)
    (contacts : List (Bytes × List HistoryMessage)) :
    ∃ next more, archiveFrom w start contacts = (next, start) :: more := by
  cases contacts with
  | nil => exact ⟨[], [], rfl⟩
  | cons c contacts => exact ⟨c.1, _, rfl⟩

/-- All contacts are searched, and the search comes to all their messages. -/
theorem searchContacts_eq {contacts : List (Bytes × List HistoryMessage)} {offsets : List Int}
    (h : ∀ c ∈ contacts, ∀ m ∈ c.2, IsTextMessage w minId m)
    (hoffsets : offsets.length = contacts.length) (before after : Bytes) (s : ArchiveSearch) :
    ∃ moved, searchContacts w t minId
        (before ++ ((contacts.map fun c => fileOf w c.2).flatten ++ after))
        (archiveFrom w before.length contacts) offsets s =
      .ok ((visits contacts).foldl (fun s v => s.meet w t v.1 v.2) s, moved) := by
  induction contacts generalizing offsets before s with
  | nil => exact ⟨offsets, rfl⟩
  | cons c contacts ih =>
    obtain ⟨hc, hcontacts⟩ := List.forall_mem_cons.mp h
    obtain ⟨offset, offsets, rfl⟩ := List.exists_cons_of_length_eq_add_one hoffsets
    obtain ⟨next, more, hmore⟩ :=
      archiveFrom_head w (before.length + (fileOf w c.2).length) contacts
    have hfile := searchBlocks_file t hc c.1 before
      ((contacts.map fun c => fileOf w c.2).flatten ++ after) s
    obtain ⟨moved, hothers⟩ := ih hcontacts (Nat.succ.inj hoffsets) (before ++ fileOf w c.2)
      (c.2.foldl (fun s m => s.meet w t c.1 m) s)
    rw [List.length_append, hmore, List.append_assoc] at hothers
    rw [archiveFrom, hmore, searchContacts, List.map_cons, List.flatten_cons, List.append_assoc,
      hfile, Outcome.ok_bind]
    dsimp only
    rw [hothers, Outcome.ok_bind, visits_cons, List.foldl_append, List.foldl_map]
    exact ⟨_, rfl⟩

end Contacts

section Run

variable {w : Surroundings} {t : CodedTerm} {s : ArchiveSearch} {crowd : Finset Int64}
  {v : Bytes × HistoryMessage} {l : List (Bytes × HistoryMessage)} {contact : Bytes} {id : Int64}

/-- Who contends for the best after one more message. -/
def contenders (w : Surroundings) (t : CodedTerm) (crowd : Finset Int64)
    (v : Bytes × HistoryMessage) : Finset Int64 :=
  if v.2.msgid = -1 then crowd
  else contend getLimitSearchResults (isHit w t v.2) crowd v.2.msgid

/-- The best ids are the best of those who contended, one more than the limit. -/
def Tops (s : ArchiveSearch) (crowd : Finset Int64) : Prop :=
  s.topIds = greatest (getLimitSearchResults + 1) crowd

theorem contenders_subset : contenders w t crowd v ⊆ insert v.2.msgid crowd := by
  unfold contenders
  split
  · exact Finset.subset_insert _ _
  · exact contend_subset

/-- A message is admitted if no more ids contended above its own than the limit. -/
theorem meet_cases (h : Tops s crowd) (hnew : v.2.msgid ∉ crowd) :
    Tops (s.meet w t v.1 v.2) (contenders w t crowd v) ∧
      ((s.meet w t v.1 v.2).found =
        if v.2.msgid ≠ -1 ∧ above v.2.msgid crowd ≤ getLimitSearchResults then
          if isHit w t v.2 then FoundMessages.add s.found v.1 v.2.msgid (readBack w v.2)
          else FoundMessages.remove s.found v.1 v.2.msgid
        else s.found) := by
  rw [meet, contenders]
  by_cases hminus : v.2.msgid = -1
  · rw [if_pos hminus, if_pos hminus, if_neg fun h => h.1 hminus]
    exact ⟨h, rfl⟩
  · rw [if_neg hminus, if_neg hminus, h, makeRoom_eq hnew]
    by_cases hle : above v.2.msgid crowd ≤ getLimitSearchResults
    · rw [if_pos hle, if_pos ⟨hminus, hle⟩]
      dsimp only
      by_cases hhit : isHit w t v.2 = true
      · rw [if_pos hhit, if_pos hhit, hhit]
        exact ⟨withId_greatest hle, rfl⟩
      · rw [if_neg hhit, if_neg hhit, Bool.eq_false_iff.mpr hhit]
        exact ⟨rfl, rfl⟩
    · rw [if_neg hle, if_neg fun h => hle h.2]
      exact ⟨h.trans (greatest_contend_refused hnew hle).symm, rfl⟩

theorem foldl_contenders_subset (w : Surroundings) (t : CodedTerm) {x : Int64}
    (h : x ∈ l.foldl (contenders w t) crowd) : x ∈ crowd ∨ ∃ v ∈ l, v.2.msgid = x := by
  induction l generalizing crowd with
  | nil => exact .inl h
  | cons v l ih =>
    rcases ih h with h | ⟨u, hu, hx⟩
    · rcases Finset.mem_insert.mp (contenders_subset h) with hx | h
      · exact .inr ⟨v, List.mem_cons_self, hx.symm⟩
      · exact .inl h
    · exact .inr ⟨u, List.mem_cons_of_mem _ hu, hx⟩

/-- A message changes nothing about another id. -/
theorem has_meet_other (h : Tops s crowd) (hnew : v.2.msgid ∉ crowd)
    (hread : (readBack w v.2).msgid = v.2.msgid) (hne : id ≠ v.2.msgid) :
    FoundMessages.Has (s.meet w t v.1 v.2).found contact id ↔
      FoundMessages.Has s.found contact id := by
  rw [(meet_cases h hnew).2]
  split
  · split
    · rw [FoundMessages.has_add hread]
      exact or_iff_left fun h => hne h.2.symm
    · exact FoundMessages.has_remove_other hne
  · rfl

theorem run_spec (h : Tops s crowd) (hread : ∀ v ∈ l, (readBack w v.2).msgid = v.2.msgid)
    (hnodup : (l.map fun v => v.2.msgid).Nodup) (hnew : ∀ v ∈ l, v.2.msgid ∉ crowd) :
    Tops (l.foldl (fun s v => s.meet w t v.1 v.2) s) (l.foldl (contenders w t) crowd) ∧
      ∀ contact id, (∀ v ∈ l, id ≠ v.2.msgid) →
        (FoundMessages.Has (l.foldl (fun s v => s.meet w t v.1 v.2) s).found contact id ↔
          FoundMessages.Has s.found contact id) := by
  induction l generalizing s crowd with
  | nil => exact ⟨h, fun _ _ _ => Iff.rfl⟩
  | cons v l ih =>
    rw [List.map_cons, List.nodup_cons] at hnodup
    obtain ⟨hv, hl⟩ := List.forall_mem_cons.mp hread
    obtain ⟨hvnew, hlnew⟩ := List.forall_mem_cons.mp hnew
    have hnext : ∀ u ∈ l, u.2.msgid ∉ contenders w t crowd v := fun u hu hmem => by
      rcases Finset.mem_insert.mp (contenders_subset hmem) with heq | hmem
      · exact hnodup.1 (List.mem_map.mpr ⟨u, hu, heq⟩)
      · exact hlnew u hu hmem
    obtain ⟨htops, hothers⟩ := ih (meet_cases (t := t) h hvnew).1 hl hnodup.2 hnext
    refine ⟨htops, fun contact id hne => ?_⟩
    obtain ⟨hidv, hidl⟩ := List.forall_mem_cons.mp hne
    exact (hothers contact id hidl).trans (has_meet_other h hvnew hv hidv)

/-- A message that the search finds is there in the end if it was there before or was admitted. -/
theorem has_run_iff {before later : List (Bytes × HistoryMessage)} (h : Tops s ∅)
    (hread : ∀ u ∈ before ++ v :: later, (readBack w u.2).msgid = u.2.msgid)
    (hnodup : ((before ++ v :: later).map fun v => v.2.msgid).Nodup)
    (hhit : isHit w t v.2 = true) :
    FoundMessages.Has ((before ++ v :: later).foldl (fun s v => s.meet w t v.1 v.2) s).found
        v.1 v.2.msgid ↔
      FoundMessages.Has s.found v.1 v.2.msgid ∨ v.2.msgid ≠ -1 ∧
        above v.2.msgid (before.foldl (contenders w t) ∅) ≤ getLimitSearchResults := by
  obtain ⟨hreadBefore, hreadRest⟩ := List.forall_mem_append.mp hread
  obtain ⟨hreadV, hreadLater⟩ := List.forall_mem_cons.mp hreadRest
  rw [List.map_append, List.map_cons, List.nodup_append] at hnodup
  obtain ⟨hnodupBefore, hnodupRest, hapart⟩ := hnodup
  obtain ⟨hnotLater, hnodupLater⟩ := List.nodup_cons.mp hnodupRest
  have hidBefore : ∀ u ∈ before, v.2.msgid ≠ u.2.msgid := fun u hu heq =>
    hapart _ (List.mem_map.mpr ⟨u, hu, rfl⟩) _ List.mem_cons_self heq.symm
  have hidLater : ∀ u ∈ later, v.2.msgid ≠ u.2.msgid := fun u hu heq =>
    hnotLater (List.mem_map.mpr ⟨u, hu, heq.symm⟩)
  have hcrowd : ∀ u ∈ v :: later, u.2.msgid ∉ before.foldl (contenders w t) ∅ := fun u hu hmem => by
    rcases foldl_contenders_subset w t hmem with hmem | ⟨u', hu', heq⟩
    · exact Finset.notMem_empty _ hmem
    · have hmem : u.2.msgid ∈ (v :: later).map fun v => v.2.msgid :=
        List.mem_map.mpr ⟨u, hu, rfl⟩
      exact hapart _ (List.mem_map.mpr ⟨u', hu', rfl⟩) _ hmem heq
  obtain ⟨hnewV, hnewLater⟩ := List.forall_mem_cons.mp hcrowd
  obtain ⟨htops, hframe⟩ := run_spec (t := t) h hreadBefore hnodupBefore
    fun u _ => Finset.notMem_empty _
  obtain ⟨htopsV, hfound⟩ := meet_cases (t := t) htops hnewV
  have hnext : ∀ u ∈ later, u.2.msgid ∉ contenders w t (before.foldl (contenders w t) ∅) v :=
    fun u hu hmem => (Finset.mem_insert.mp (contenders_subset hmem)).elim
      (fun heq => hidLater u hu heq.symm) (hnewLater u hu)
  obtain ⟨-, hframeLater⟩ := run_spec (t := t) htopsV hreadLater hnodupLater hnext
  rw [List.foldl_append, List.foldl_cons, hframeLater _ _ hidLater, hfound,
    ← hframe v.1 v.2.msgid hidBefore]
  by_cases hadmitted : v.2.msgid ≠ -1 ∧
      above v.2.msgid (before.foldl (contenders w t) ∅) ≤ getLimitSearchResults
  · rw [if_pos hadmitted, if_pos hhit, FoundMessages.has_add hreadV]
    exact iff_of_true (.inr ⟨rfl, rfl⟩) (.inr hadmitted)
  · rw [if_neg hadmitted, or_iff_left hadmitted]

end Run

section Newest

variable {w : Surroundings} {minId : Int64} {contacts : List (Bytes × List HistoryMessage)}
  {offsets : List Int}

/-- Fewer messages than the limit are found that have greater ids. -/
def IsNewest (w : Surroundings) (t : CodedTerm) (contacts : List (Bytes × List HistoryMessage))
    (id : Int64) : Prop :=
  (visits contacts).countP (fun v => isHit w t v.2 && decide (id < v.2.msgid)) <
    getLimitSearchResults

/-- After a search all the newest messages with the term are found. -/
def FindsNewest (w : Surroundings) (t : CodedTerm) (minId : Int64)
    (contacts : List (Bytes × List HistoryMessage)) (after : Bytes) (offsets : List Int)
    (found : FoundMessages) : Prop :=
  ∃ out moved, searchInArchive w t minId ((contacts.map fun c => fileOf w c.2).flatten ++ after)
      (archiveFrom w 0 contacts) offsets found = .ok (out, moved) ∧
    ∀ v ∈ visits contacts, isHit w t v.2 = true → IsNewest w t contacts v.2.msgid →
      FoundMessages.Has out v.1 v.2.msgid

/-- Each of the newest messages with the term was found before, or has, when the search comes to
it, no more ids above its own than the limit among the ids found until they are more than the limit
and all ids from then on. -/
def AdmitsNewest (w : Surroundings) (t : CodedTerm)
    (contacts : List (Bytes × List HistoryMessage)) (found : FoundMessages) : Prop :=
  ∀ (before : List (Bytes × HistoryMessage)) (v : Bytes × HistoryMessage) later,
    visits contacts = before ++ v :: later → isHit w t v.2 = true →
    IsNewest w t contacts v.2.msgid → FoundMessages.Has found v.1 v.2.msgid ∨
      v.2.msgid ≠ -1 ∧
        above v.2.msgid (before.foldl (contenders w t) ∅) ≤ getLimitSearchResults

theorem searchInArchive_eq (h : ∀ c ∈ contacts, ∀ m ∈ c.2, IsTextMessage w minId m)
    (hoffsets : offsets.length = contacts.length) (t : CodedTerm) (after : Bytes)
    (found : FoundMessages) :
    ∃ moved, searchInArchive w t minId ((contacts.map fun c => fileOf w c.2).flatten ++ after)
        (archiveFrom w 0 contacts) offsets found =
      .ok (((visits contacts).foldl (fun (s : ArchiveSearch) v => s.meet w t v.1 v.2)
        { found }).found, moved) := by
  obtain ⟨moved, hrun⟩ := searchContacts_eq t h hoffsets [] after { found }
  rw [List.nil_append, List.length_nil] at hrun
  refine ⟨moved, ?_⟩
  rw [searchInArchive, hrun]
  rfl

theorem msgid_readBack (h : ∀ c ∈ contacts, ∀ m ∈ c.2, IsTextMessage w minId m) :
    ∀ v ∈ visits contacts, (readBack w v.2).msgid = v.2.msgid := by
  intro v hv
  obtain ⟨c, hc, hv⟩ := List.mem_flatMap.mp hv
  obtain ⟨m, hm, rfl⟩ := List.mem_map.mp hv
  exact (h c hc m hm).unserialize.2

/-- The newest messages are found if and only if each of them is admitted. -/
theorem findsNewest_iff (h : ∀ c ∈ contacts, ∀ m ∈ c.2, IsTextMessage w minId m)
    (hids : ((visits contacts).map fun v => v.2.msgid).Nodup)
    (hoffsets : offsets.length = contacts.length) (t : CodedTerm) (after : Bytes)
    (found : FoundMessages) :
    FindsNewest w t minId contacts after offsets found ↔ AdmitsNewest w t contacts found := by
  obtain ⟨moved, hsearch⟩ := searchInArchive_eq h hoffsets t after found
  have hread := msgid_readBack h
  have hiff := fun before v later (hsplit : visits contacts = before ++ v :: later) =>
    has_run_iff (s := { found }) (v := v) (t := t) rfl (hsplit ▸ hread) (hsplit ▸ hids)
  constructor
  · rintro ⟨out, moved', hout, hall⟩ before v later hsplit hhit hnewest
    rw [hsearch] at hout
    cases hout
    have hmem : v ∈ visits contacts := hsplit ▸ List.mem_append_right _ List.mem_cons_self
    have hhas := hall v hmem hhit hnewest
    rw [hsplit] at hhas
    exact (hiff before v later hsplit hhit).mp hhas
  · intro hall
    refine ⟨_, moved, hsearch, fun v hv hhit hnewest => ?_⟩
    obtain ⟨before, later, hsplit⟩ := List.append_of_mem hv
    rw [hsplit]
    exact (hiff before v later hsplit hhit).mpr (hall before v later hsplit hhit hnewest)

/-- A text of one byte. -/
def note (id : Int64) (c : UInt8) : HistoryMessage := { msgid := id, text := [c] }

/-- All notes take the same room. -/
theorem length_note (id : Int64) (c : UInt8) :
    ((note id c).serialize HistoryMessage.blank).length =
      ((note 0 0).serialize HistoryMessage.blank).length := by
  simp only [HistoryMessage.serialize, HistoryMessage.serializeCall, HistoryMessage.serializePack,
    note, TlvPack.serialize, List.length_flatMap, HistoryMessage.serializeHead, List.map_append,
    List.sum_append, Tlv.length_serialize, List.map_cons, List.sum_cons]
  rfl

theorem note_isTextMessage {id : Int64} {c : UInt8} (h : minId < id) :
    IsTextMessage HistoryMessage.blank minId (note id c) := by
  have hsize : ((note id c).serialize HistoryMessage.blank).length ≤ maxDataBlockSize.toNat := by
    rw [length_note]
    decide +kernel
  exact
    { readable := reads_back (fits_of_size hsize) rfl
      sticker := rfl
      chatEvent := rfl
      text := List.cons_ne_nil _ _
      textLength := show 1 < 2 ^ 32 by decide
      size := hsize
      newer := h }

/-- A contact with one letter in each message. -/
def noteContact (notes : List (Int64 × UInt8)) : List (Bytes × List HistoryMessage) :=
  [([49], notes.map fun n => note n.1 n.2)]

theorem noteContact_isTextMessage {notes : List (Int64 × UInt8)}
    (h : (notes.all fun n => decide (minId < n.1)) = true) :
    ∀ c ∈ noteContact notes, ∀ m ∈ c.2, IsTextMessage HistoryMessage.blank minId m := by
  refine List.forall_mem_singleton.mpr (List.forall_mem_map.mpr fun n hn => ?_)
  exact note_isTextMessage (of_decide_eq_true (List.all_eq_true.mp h n hn))

/-- The term is the letter a. -/
def termA : CodedTerm := codeTerm (smallLetters [('a', 'A')]) [97]

/-- Two letters and another one between them. -/
def threeNotes : List (Int64 × UInt8) := [(5, 97), (7, 98), (9, 97)]

theorem findsNewest_notes : ∃ out moved,
    searchInArchive HistoryMessage.blank termA (-1)
        (((noteContact threeNotes).map fun c => fileOf HistoryMessage.blank c.2).flatten ++ [])
        (archiveFrom HistoryMessage.blank 0 (noteContact threeNotes)) [0] ∅ = .ok (out, moved) ∧
      FoundMessages.Has out [49] 5 ∧ FoundMessages.Has out [49] 9 := by
  have hadmits : AdmitsNewest HistoryMessage.blank termA (noteContact threeNotes) ∅ := by
    intro before v later hsplit _ _
    have hplace : ∀ k < 3, ((visits (noteContact threeNotes))[k]?.all fun v =>
        decide (v.2.msgid ≠ -1 ∧ above v.2.msgid (((visits (noteContact threeNotes)).take k).foldl
          (contenders HistoryMessage.blank termA) ∅) ≤ getLimitSearchResults)) = true := by
      decide +kernel
    have hk : before.length < 3 := by
      have hlength := congrArg List.length hsplit
      rw [List.length_append, List.length_cons] at hlength
      have hthree : (visits (noteContact threeNotes)).length = 3 := rfl
      omega
    have hhere := hplace before.length hk
    rw [hsplit] at hhere
    exact .inr (by simpa using hhere)
  have htext : ∀ c ∈ noteContact threeNotes, ∀ m ∈ c.2, IsTextMessage HistoryMessage.blank (-1) m :=
    noteContact_isTextMessage (by decide +kernel)
  obtain ⟨out, moved, hsearch, hall⟩ :=
    (findsNewest_iff htext (by decide) (show [(0 : Int)].length = _ from rfl) termA [] ∅).mpr hadmits
  refine ⟨out, moved, hsearch, ?_, ?_⟩
  · apply hall ([49], note 5 97) (.head _)
    · decide +kernel
    · exact (show _ < _ by decide +kernel)
  · apply hall ([49], note 9 97) (.tail _ (.tail _ (.head _)))
    · decide +kernel
    · exact (show _ < _ by decide +kernel)

/-- There are 101 messages with the letter, and two newer ones without it, which drive out the two
oldest. -/
def crowdedNotes : List (Int64 × UInt8) :=
  ([1, 2] ++ (List.range 99).map fun k => 1001 + Int64.ofNat k).map (fun id => (id, 97)) ++
    [(2000, 98), (2001, 98)]

/-- One more message with the letter is the hundredth newest and is not found. -/
theorem newest_lost :
    ¬FindsNewest HistoryMessage.blank termA (-1) (noteContact (crowdedNotes ++ [(500, 97)])) [] [0]
      ∅ := by
  have htext : ∀ c ∈ noteContact (crowdedNotes ++ [(500, 97)]), ∀ m ∈ c.2,
      IsTextMessage HistoryMessage.blank (-1) m :=
    noteContact_isTextMessage (by decide +kernel)
  obtain ⟨moved, hsearch⟩ :=
    searchInArchive_eq htext (show [(0 : Int)].length = _ from rfl) termA [] ∅
  rintro ⟨out, moved', hout, hall⟩
  have hsame := (Prod.mk.inj (Outcome.ok.inj (hsearch.symm.trans hout))).1
  have hsplit : visits (noteContact (crowdedNotes ++ [(500, 97)])) =
      (crowdedNotes.map fun n => ([49], note n.1 n.2)) ++ ([49], note 500 97) :: [] := by
    rw [visits, noteContact, List.flatMap_singleton, List.map_map, List.map_append]
    rfl
  have hhas := hall ([49], note 500 97)
    (hsplit ▸ List.mem_append_right _ List.mem_cons_self) (by decide +kernel)
    (show _ < _ by decide +kernel)
  rw [← hsame, hsplit] at hhas
  have hread := hsplit ▸ msgid_readBack htext
  rcases (has_run_iff (s := {}) rfl hread (by decide +kernel) (by decide +kernel)).mp hhas with
    ⟨m, hm, -⟩ | ⟨-, hle⟩
  · exact absurd hm List.not_mem_nil
  · exact absurd hle (by decide +kernel)

end Newest

end ArchiveSearch

end Icq.Archive
