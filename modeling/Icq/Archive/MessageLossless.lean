import Icq.Archive.ServerEvents

/-! Which messages are read back as they were written. -/

namespace Icq.Archive
open Icq.Lib Icq.Tools Icq.Common Icq.Tasks Tlv

section Parts

variable {α : Type}

theorem option_bind_eq_self_iff {f : α → Option α} {o : Option α} :
    o.bind f = o ↔ ∀ a, o = some a → f a = some a := by
  cases o with
  | none => simp
  | some a => simp

/-- A part that may be absent is read back as it was where it can be stored. -/
theorem map_stored_iff {stored : α → α} {Storable : α → Prop}
    (hstored : ∀ a, stored a = a ↔ Storable a) {o : Option α} :
    o.map stored = o ↔ ∀ a, o = some a → Storable a :=
  option_map_eq_self_iff.trans (forall₂_congr fun a _ => hstored a)

theorem list_stored_iff {stored : α → α} {Storable : α → Prop}
    (hstored : ∀ a, stored a = a ↔ Storable a) {l : List α} :
    l.map stored = l ↔ ∀ a ∈ l, Storable a :=
  list_map_eq_self_iff.trans (forall₂_congr fun a _ => hstored a)

theorem filter_map_eq_self_iff {f : α → α} {p : α → Bool} {l : List α} :
    (l.map f).filter p = l ↔ ∀ a ∈ l, f a = a ∧ p a = true := by
  constructor
  · intro h
    have hall : (l.map f).filter p = l.map f := by
      apply List.filter_sublist.eq_of_length
      rw [h, List.length_map]
    rw [hall] at h
    have hsame := list_map_eq_self_iff.mp h
    intro a ha
    refine ⟨hsame a ha, List.filter_eq_self.mp hall a ?_⟩
    rwa [h]
  · intro h
    rw [list_map_eq_self_iff.mpr fun a ha => (h a ha).1]
    exact List.filter_eq_self.mpr fun a ha => (h a ha).2

end Parts

def StickerData.Storable (s : StickerData) : Prop := ShortText s.id

/-- A call that is one: of a known type, between people with ids and names. -/
structure VoipData.Storable (v : VoipData) : Prop where
  type : validType v.type = true
  sid : ShortText v.sid
  senderAimid : ShortText v.senderAimid ∧ v.senderAimid ≠ []
  senderFriendly : ShortText v.senderFriendly ∧ v.senderFriendly ≠ []
  durationSec : 0 ≤ v.durationSec ∨ v.durationSec = -1
  isIncoming : 0 ≤ v.isIncoming ∨ v.isIncoming = -1
  confMembers : ∀ m ∈ v.confMembers, ShortText m ∧ m ≠ []

/-- Of the person a chat has only the name and the flag, and the flag is known. -/
structure ChatData.Storable (c : ChatData) : Prop where
  sender : ShortText c.sender
  name : ShortText c.name
  friendly : ShortText c.friendly.friendly
  person : c.friendly = { friendly := c.friendly.friendly, official := c.friendly.official }
  official : c.friendly.official ≠ none

/-- A file has a link or a path. -/
def FileSharingData.Storable (f : FileSharingData) : Prop :=
  if f.uri = [] then ShortText f.localPath else ShortText f.uri ∧ f.localPath = []

theorem StickerData.stored_eq_self_iff (s : StickerData) : s.stored = s ↔ s.Storable := by
  obtain ⟨id⟩ := s
  simp only [stored, StickerData.mk.injEq, textValue_eq_self_iff]
  rfl

theorem VoipData.stored_eq_self_iff (v : VoipData) : v.stored = some v ↔ v.Storable := by
  have hdirection (n : Int32) : (if 0 ≤ n then n else -1) = n ↔ 0 ≤ n ∨ n = -1 := by
    by_cases hn : 0 ≤ n
    · simp [hn]
    · simp [hn, eq_comm]
  rw [stored]
  split
  · rename_i hunknown
    refine iff_of_false (Option.some_ne_none _ ∘ Eq.symm) fun h => ?_
    rw [textValue_eq h.senderAimid.1, textValue_eq h.senderFriendly.1, h.type] at hunknown
    simp [h.senderAimid.2, h.senderFriendly.2] at hunknown
  · rename_i hknown
    obtain ⟨type, sid, aimid, friendly, duration, incoming, isVideo, members⟩ := v
    simp only [Bool.or_eq_true, Bool.not_eq_true', not_or, Bool.not_eq_false,
      List.isEmpty_iff] at hknown
    simp only [Option.some.injEq, VoipData.mk.injEq, textValue_eq_self_iff, hdirection,
      filter_map_eq_self_iff, true_and]
    constructor
    · intro h
      obtain ⟨hsid, haimid, hfriendly, hduration, hincoming, hmembers⟩ := h
      refine ⟨hknown.1.1, hsid, ⟨haimid, ?_⟩, ⟨hfriendly, ?_⟩, hduration, hincoming, ?_⟩
      · simpa [textValue_eq haimid] using hknown.1.2
      · simpa [textValue_eq hfriendly] using hknown.2
      · simpa using hmembers
    · intro h
      exact ⟨h.sid, h.senderAimid.1, h.senderFriendly.1, h.durationSec, h.isIncoming,
        by simpa using h.confMembers⟩

theorem ChatData.stored_eq_self_iff (unset : Bool) (c : ChatData) :
    c.stored unset = c ↔ c.Storable := by
  obtain ⟨sender, ⟨friendly, nick, first, middle, last, official⟩, name⟩ := c
  simp only [stored, ChatData.mk.injEq, Person.mk.injEq, textValue_eq_self_iff]
  constructor
  · intro h
    obtain ⟨hsender, ⟨hfriendly, rfl, rfl, rfl, rfl, hofficial⟩, hname⟩ := h
    exact ⟨hsender, hname, hfriendly, rfl, fun hnone => by simp_all⟩
  · intro h
    have hperson := h.person
    simp only [Person.mk.injEq, true_and, and_true] at hperson
    obtain ⟨rfl, rfl, rfl, rfl⟩ := hperson
    refine ⟨h.sender, ⟨h.friendly, rfl, rfl, rfl, rfl, ?_⟩, h.name⟩
    obtain ⟨flag, rfl⟩ := Option.ne_none_iff_exists'.mp h.official
    rfl

theorem FileSharingData.stored_eq_self_iff (f : FileSharingData) : f.stored = f ↔ f.Storable := by
  obtain ⟨uri, localPath, duration, type⟩ := f
  rw [stored, Storable]
  by_cases huri : uri = []
  · simp [huri, textValue_eq_self_iff]
  · simp only [List.isEmpty_iff, huri, if_false, FileSharingData.mk.injEq, textValue_eq_self_iff,
      and_true]
    exact and_congr_right' eq_comm

theorem MessageReactions.stored_eq_self_iff (r : MessageReactions) : r.stored = r ↔ r.data = none := by
  obtain ⟨exist, data⟩ := r
  simp only [stored, MessageReactions.mk.injEq, true_and]
  exact eq_comm

namespace ChatEventData

/-- The same event. A flag that is not what the event is about is not initialised and holds
anything. -/
structure Same (e e' : ChatEventData) : Prop where
  rest : { e' with
      newJoinModeration := e.newJoinModeration, newPublic := e.newPublic
      newTrustRequired := e.newTrustRequired, newThreadsEnabled := e.newThreadsEnabled } = e
  newJoinModeration : e.type = ChatEventType.chatJoinModerationModified →
    e'.newJoinModeration = e.newJoinModeration
  newPublic : e.type = ChatEventType.chatPublicModified → e'.newPublic = e.newPublic
  newTrustRequired : e.type = ChatEventType.chatTrustRequiedModified →
    e'.newTrustRequired = e.newTrustRequired
  newThreadsEnabled : e.type = ChatEventType.chatThreadsEnabledModified →
    e'.newThreadsEnabled = e.newThreadsEnabled

/-- A text that an event of another type does not have. -/
def TextOf (applies : Bool) (text : Bytes) : Prop :=
  if applies = true then ShortText text else text = []

def MembersOf (applies : Bool) (members : List Bytes) : Prop :=
  if applies = true then ∀ m ∈ members, ShortText m else members = []

/-- An event has what belongs to its type and nothing besides, and the flags that are not written
are found in the memory. -/
structure Storable (unset : Bool) (e : ChatEventData) : Prop extends FlagsKept unset e where
  senderAimid : TextOf (hasSenderAimid e.type) e.senderAimid
  senderFriendly : TextOf (hasSenderAimid e.type) e.senderFriendly
  members : MembersOf (hasMchatMembers e.type) e.members
  membersFriendly : MembersOf (hasMchatMembers e.type) e.membersFriendly
  requestedBy : TextOf (hasMchatMembers e.type) e.requestedBy
  requestedByFriendly : TextOf (hasMchatMembers e.type) e.requestedByFriendly
  newName : TextOf (e.type == ChatEventType.chatNameModified) e.newName
  newDescription : TextOf (e.type == ChatEventType.chatDescriptionModified) e.newDescription
  newRules : TextOf (e.type == ChatEventType.chatRulesModified) e.newRules
  newStamp : TextOf (e.type == ChatEventType.chatStampModified) e.newStamp
  senderStatus : TextOf (hasStatusReply e.type) e.senderStatus
  senderStatusDescription : TextOf (hasStatusReply e.type) e.senderStatusDescription
  ownerStatus : TextOf (hasStatusReply e.type) e.ownerStatus
  ownerStatusDescription : TextOf (hasStatusReply e.type) e.ownerStatusDescription
  editor : TextOf (e.type == ChatEventType.taskChanged) e.editor
  change : if e.type = ChatEventType.taskChanged then StorableChange e.change else e.change = {}
  generic : TextOf (hasGenericText e.type) e.generic

theorem textIf_eq_self_iff {applies : Bool} {text : Bytes} :
    textIf applies text = text ↔ TextOf applies text := by
  cases applies with
  | false => exact eq_comm
  | true => exact textValue_eq_self_iff

theorem membersIf_eq_self_iff {applies : Bool} {members : List Bytes} :
    membersIf applies members = members ↔ MembersOf applies members := by
  cases applies with
  | false => exact eq_comm
  | true =>
    exact list_map_eq_self_iff.trans (forall₂_congr fun m _ => textValue_eq_self_iff)

theorem same_stored_iff (unset : Bool) (e : ChatEventData) :
    Same e (e.stored unset) ↔ e.Storable unset := by
  have hchange : (if e.type == ChatEventType.taskChanged then storedChange e.change else {}) =
      e.change ↔
      if e.type = ChatEventType.taskChanged then StorableChange e.change else e.change = {} := by
    by_cases ht : e.type = ChatEventType.taskChanged
    · simp only [ht, beq_self_eq_true, if_true, storedChange_eq_self_iff]
    · simp only [ht, beq_iff_eq, if_false]
      exact eq_comm
  constructor
  · intro h
    have hrest := h.rest
    exact
      { senderAimid := textIf_eq_self_iff.mp (congrArg (·.senderAimid) hrest)
        senderFriendly := textIf_eq_self_iff.mp (congrArg (·.senderFriendly) hrest)
        members := membersIf_eq_self_iff.mp (congrArg (·.members) hrest)
        membersFriendly := membersIf_eq_self_iff.mp (congrArg (·.membersFriendly) hrest)
        requestedBy := textIf_eq_self_iff.mp (congrArg (·.requestedBy) hrest)
        requestedByFriendly := textIf_eq_self_iff.mp (congrArg (·.requestedByFriendly) hrest)
        newName := textIf_eq_self_iff.mp (congrArg (·.newName) hrest)
        newDescription := textIf_eq_self_iff.mp (congrArg (·.newDescription) hrest)
        newRules := textIf_eq_self_iff.mp (congrArg (·.newRules) hrest)
        newStamp := textIf_eq_self_iff.mp (congrArg (·.newStamp) hrest)
        senderStatus := textIf_eq_self_iff.mp (congrArg (·.senderStatus) hrest)
        senderStatusDescription :=
          textIf_eq_self_iff.mp (congrArg (·.senderStatusDescription) hrest)
        ownerStatus := textIf_eq_self_iff.mp (congrArg (·.ownerStatus) hrest)
        ownerStatusDescription :=
          textIf_eq_self_iff.mp (congrArg (·.ownerStatusDescription) hrest)
        editor := textIf_eq_self_iff.mp (congrArg (·.editor) hrest)
        change := hchange.mp (congrArg (·.change) hrest)
        generic := textIf_eq_self_iff.mp (congrArg (·.generic) hrest)
        newJoinModeration := fun ht => (h.newJoinModeration ht).symm
        newPublic := fun ht => (h.newPublic ht).symm
        newTrustRequired := fun ht => (h.newTrustRequired ht).symm }
  · intro h
    refine ⟨?_, fun ht => (h.newJoinModeration ht).symm, fun ht => (h.newPublic ht).symm,
      fun ht => (h.newTrustRequired ht).symm, fun ht => if_pos (beq_iff_eq.mpr ht)⟩
    rw [stored, textIf_eq_self_iff.mpr h.senderAimid, textIf_eq_self_iff.mpr h.senderFriendly,
      membersIf_eq_self_iff.mpr h.members, membersIf_eq_self_iff.mpr h.membersFriendly,
      textIf_eq_self_iff.mpr h.requestedBy, textIf_eq_self_iff.mpr h.requestedByFriendly,
      textIf_eq_self_iff.mpr h.newName, textIf_eq_self_iff.mpr h.newDescription,
      textIf_eq_self_iff.mpr h.newRules, textIf_eq_self_iff.mpr h.newStamp,
      textIf_eq_self_iff.mpr h.generic, textIf_eq_self_iff.mpr h.senderStatus,
      textIf_eq_self_iff.mpr h.ownerStatus, textIf_eq_self_iff.mpr h.senderStatusDescription,
      textIf_eq_self_iff.mpr h.ownerStatusDescription, textIf_eq_self_iff.mpr h.editor,
      hchange.mpr h.change]

end ChatEventData

namespace HistoryMessage

section Mentions

theorem mem_emplace {m : MentionsMap} {sn friendly : Bytes} {x : Bytes × Bytes}
    (h : x ∈ (m.emplace sn friendly).items) : x ∈ m.items ∨ x = (sn, friendly) := by
  unfold MentionsMap.emplace at h
  split at h
  · exact .inl h
  · exact (KeyMap.mem_put.mp h).symm.imp And.left id

/-- Who is mentioned was written, and has an id and a name. -/
theorem mem_foldl_storeMention {written : List (Bytes × Bytes)} {read : MentionsMap}
    {x : Bytes × Bytes} (h : x ∈ (written.foldl storeMention read).items) :
    x ∈ read.items ∨ ∃ m ∈ written, x = (textValue m.1, textValue m.2) ∧ x.1 ≠ [] ∧ x.2 ≠ [] := by
  induction written generalizing read with
  | nil => exact .inl h
  | cons m written ih =>
    rcases ih h with h | ⟨m', hm', hx⟩
    · unfold storeMention at h
      split at h
      · rename_i hsome
        simp only [Bool.and_eq_true, Bool.not_eq_true', List.isEmpty_eq_false_iff] at hsome
        rcases mem_emplace h with h | rfl
        · exact .inl h
        · exact .inr ⟨m, List.mem_cons_self, rfl, hsome⟩
      · exact .inl h
    · exact .inr ⟨m', List.mem_cons_of_mem m hm', hx⟩

/-- A mention has an id and a name. -/
def StorableMention (m : Bytes × Bytes) : Prop :=
  (ShortText m.1 ∧ m.1 ≠ []) ∧ ShortText m.2 ∧ m.2 ≠ []

theorem storeMention_eq {m : Bytes × Bytes} (h : StorableMention m) (read : MentionsMap) :
    storeMention read m = read.emplace m.1 m.2 := by
  obtain ⟨⟨hsn, hsn'⟩, hfriendly, hfriendly'⟩ := h
  rw [storeMention, textValue_eq hsn, textValue_eq hfriendly]
  simp [hsn', hfriendly']

/-- Mentions of different people are all read. -/
theorem items_foldl_storeMention {written : List (Bytes × Bytes)} {read : MentionsMap}
    (hnew : written.Pairwise fun a b => a.1 < b.1)
    (hbehind : ∀ x ∈ read.items, ∀ m ∈ written, x.1 < m.1)
    (h : ∀ m ∈ written, StorableMention m) :
    (written.foldl storeMention read).items = read.items ++ written := by
  induction written generalizing read with
  | nil => exact (List.append_nil _).symm
  | cons m written ih =>
    obtain ⟨hfirst, hnew⟩ := List.pairwise_cons.mp hnew
    obtain ⟨hm, h⟩ := List.forall_mem_cons.mp h
    have hlast : ∀ x ∈ read.items, x.1 < m.1 := fun x hx => hbehind x hx m List.mem_cons_self
    have hput : (storeMention read m).items = read.items ++ [m] := by
      have hnone : read.find? m.1 = none := KeyMap.find_none.mpr fun x hx => ne_of_lt (hlast x hx)
      rw [storeMention_eq hm, MentionsMap.emplace, hnone]
      exact KeyMap.items_put_last hlast
    rw [List.foldl_cons, ih hnew ?_ h, hput, List.append_assoc, List.singleton_append]
    intro x hx m' hm'
    rw [hput] at hx
    rcases List.mem_append.mp hx with hx | hx
    · exact hbehind x hx m' (List.mem_cons_of_mem m hm')
    · rw [List.mem_singleton.mp hx]
      exact hfirst m' hm'

theorem mentions_stored_iff (mentions : MentionsMap) :
    mentions.items.foldl storeMention ∅ = mentions ↔ ∀ m ∈ mentions.items, StorableMention m := by
  constructor
  · intro h x hx
    rw [← h] at hx
    rcases mem_foldl_storeMention hx with hx | ⟨m, -, rfl, hsn, hfriendly⟩
    · exact absurd hx List.not_mem_nil
    · exact ⟨⟨length_textValue m.1, hsn⟩, length_textValue m.2, hfriendly⟩
  · intro h
    apply KeyMap.ext
    exact items_foldl_storeMention mentions.sorted (fun _ hx => absurd hx List.not_mem_nil) h

end Mentions

section Message

variable {w : Surroundings} {m : HistoryMessage} {aimid a : Bytes}

/-- The same in all that is written, and as a new message in the rest: where it lies in the file,
and whether it is supported. -/
structure SameWritten (m m' : HistoryMessage) : Prop where
  rest : m' =
    { m with chatEvent := m'.chatEvent, dataOffset := -1, dataSize := 0, unsupported := false }
  chatEvent : Option.Rel ChatEventData.Same m.chatEvent m'.chatEvent

/-- A message has nothing that is not written of it, and no JSON beside reactions. -/
structure Storable (w : Surroundings) (m : HistoryMessage) : Prop where
  text : ShortText m.text
  internalId : ShortText m.internalId
  senderFriendly : ShortText m.senderFriendly
  patchVersion : ShortText m.updatePatchVersion.versionString
  description : ShortText m.description
  url : ShortText m.url
  senderAimid : ShortText m.senderAimid
  threadId : ShortText m.threadId
  json : if m.reactions = none then ShortText m.json else m.json = []
  buttonsJson : ShortText m.buttonsJson
  buttons : m.buttons = unserializeButtons w m.buttonsJson
  format : ∀ f, m.format = some f → FormatData.Storable f
  descriptionFormat : ∀ f, m.descriptionFormat = some f → FormatData.Storable f
  chat : ∀ c, m.chat = some c → c.Storable
  sticker : ∀ s, m.sticker = some s → s.Storable
  voip : ∀ v, m.voip = some v → v.Storable
  fileSharing : ∀ f, m.fileSharing = some f → f.Storable
  chatEvent : ∀ e, m.chatEvent = some e → e.Storable w.unset
  quotes : ∀ q ∈ m.quotes, q.Storable
  mentions : ∀ mention ∈ m.mentions.items, StorableMention mention
  snippets : ∀ s ∈ m.snippets, s.Storable
  sharedContact : ∀ c, m.sharedContact = some c → c.Storable
  geo : ∀ g, m.geo = some g → g.Storable
  poll : ∀ p, m.poll = some p → p.Storable
  task : ∀ t, m.task = some t → StorableTask t
  reactions : ∀ r, m.reactions = some r → r.data = none

theorem json_stored_iff (m : HistoryMessage) :
    (if m.reactions.isNone then textValue m.json else []) = m.json ↔
      if m.reactions = none then ShortText m.json else m.json = [] := by
  cases m.reactions with
  | none => simp [textValue_eq_self_iff]
  | some r => simp [eq_comm]

theorem rel_same_iff {o : Option ChatEventData} {unset : Bool} :
    Option.Rel ChatEventData.Same o (o.map (ChatEventData.stored unset)) ↔
      ∀ e, o = some e → e.Storable unset := by
  cases o with
  | none => exact iff_of_true .none fun _ h => by cases h
  | some e => simp [ChatEventData.same_stored_iff]

theorem sameWritten_stored_iff (w : Surroundings) (m : HistoryMessage) :
    SameWritten m (m.stored w) ↔ m.Storable w := by
  constructor
  · intro h
    have hrest := h.rest
    have hbuttonsJson : textValue m.buttonsJson = m.buttonsJson := congrArg (·.buttonsJson) hrest
    have hbuttons : unserializeButtons w (textValue m.buttonsJson) = m.buttons :=
      congrArg (·.buttons) hrest
    exact
      { text := textValue_eq_self_iff.mp (congrArg (·.text) hrest)
        internalId := textValue_eq_self_iff.mp (congrArg (·.internalId) hrest)
        senderFriendly := textValue_eq_self_iff.mp (congrArg (·.senderFriendly) hrest)
        patchVersion :=
          textValue_eq_self_iff.mp (congrArg (·.updatePatchVersion.versionString) hrest)
        description := textValue_eq_self_iff.mp (congrArg (·.description) hrest)
        url := textValue_eq_self_iff.mp (congrArg (·.url) hrest)
        senderAimid := textValue_eq_self_iff.mp (congrArg (·.senderAimid) hrest)
        threadId := textValue_eq_self_iff.mp (congrArg (·.threadId) hrest)
        json := (json_stored_iff m).mp (congrArg (·.json) hrest)
        buttonsJson := textValue_eq_self_iff.mp hbuttonsJson
        buttons := by rw [← hbuttons, hbuttonsJson]
        format := (map_stored_iff FormatData.stored_eq_self_iff).mp (congrArg (·.format) hrest)
        descriptionFormat := (map_stored_iff FormatData.stored_eq_self_iff).mp
          (congrArg (·.descriptionFormat) hrest)
        chat := (map_stored_iff (ChatData.stored_eq_self_iff w.unset)).mp
          (congrArg (·.chat) hrest)
        sticker := (map_stored_iff StickerData.stored_eq_self_iff).mp (congrArg (·.sticker) hrest)
        voip := fun v hv => v.stored_eq_self_iff.mp
          (option_bind_eq_self_iff.mp (congrArg (·.voip) hrest) v hv)
        fileSharing := (map_stored_iff FileSharingData.stored_eq_self_iff).mp
          (congrArg (·.fileSharing) hrest)
        chatEvent := rel_same_iff.mp h.chatEvent
        quotes := (list_stored_iff Quote.stored_eq_self_iff).mp (congrArg (·.quotes) hrest)
        mentions := (mentions_stored_iff m.mentions).mp (congrArg (·.mentions) hrest)
        snippets := (list_stored_iff UrlSnippet.stored_eq_self_iff).mp
          (congrArg (·.snippets) hrest)
        sharedContact := (map_stored_iff SharedContactData.stored_eq_self_iff).mp
          (congrArg (·.sharedContact) hrest)
        geo := (map_stored_iff GeoData.stored_eq_self_iff).mp (congrArg (·.geo) hrest)
        poll := (map_stored_iff PollData.stored_eq_self_iff).mp (congrArg (·.poll) hrest)
        task := (map_stored_iff storedTask_eq_self_iff).mp (congrArg (·.task) hrest)
        reactions := (map_stored_iff MessageReactions.stored_eq_self_iff).mp
          (congrArg (·.reactions) hrest) }
  · intro h
    have hvoip := option_bind_eq_self_iff.mpr fun v hv =>
      (VoipData.stored_eq_self_iff v).mpr (h.voip v hv)
    refine ⟨?_, rel_same_iff.mpr h.chatEvent⟩
    rw [stored, storedHead, (json_stored_iff m).mpr h.json,
      (mentions_stored_iff m.mentions).mpr h.mentions, hvoip,
      (map_stored_iff FormatData.stored_eq_self_iff).mpr h.format,
      (map_stored_iff FormatData.stored_eq_self_iff).mpr h.descriptionFormat,
      (map_stored_iff (ChatData.stored_eq_self_iff w.unset)).mpr h.chat,
      (map_stored_iff StickerData.stored_eq_self_iff).mpr h.sticker,
      (map_stored_iff FileSharingData.stored_eq_self_iff).mpr h.fileSharing,
      (list_stored_iff Quote.stored_eq_self_iff).mpr h.quotes,
      (list_stored_iff UrlSnippet.stored_eq_self_iff).mpr h.snippets,
      (map_stored_iff SharedContactData.stored_eq_self_iff).mpr h.sharedContact,
      (map_stored_iff GeoData.stored_eq_self_iff).mpr h.geo,
      (map_stored_iff PollData.stored_eq_self_iff).mpr h.poll,
      (map_stored_iff storedTask_eq_self_iff).mpr h.task,
      (map_stored_iff MessageReactions.stored_eq_self_iff).mpr h.reactions,
      textValue_eq h.text, textValue_eq h.internalId, textValue_eq h.senderFriendly,
      textValue_eq h.patchVersion, textValue_eq h.description, textValue_eq h.url,
      textValue_eq h.senderAimid, textValue_eq h.threadId, textValue_eq h.buttonsJson, ← h.buttons]

/-- A message that has its JSON and a sender is not read from its fields. -/
def KeptAsJson (m : HistoryMessage) : Prop := textValue m.json ≠ [] ∧ textValue m.senderAimid ≠ []

instance (m : HistoryMessage) : Decidable m.KeptAsJson := inferInstanceAs (Decidable (_ ∧ _))

/-- The message of an event. -/
def moderatedMessage : HistoryMessage :=
  { msgid := 7, time := 100, chatEvent := some ChatEventData.moderated }

/-- The case of the reactions has no break, and what is left behind them is taken for the JSON: a
message without a sender loses its own. -/
theorem json_lost_beside_reactions (hfits : Fits (m.serializePack w aimid))
    (hreactions : m.reactions ≠ none) (hsender : textValue m.senderAimid = []) :
    ∃ m' id, unserializeCall w a (m.serializeCall w aimid) = .ok (m', id) ∧ m'.json = [] := by
  refine ⟨m.stored w, textValue aimid, unserializeCall_stored hfits (.inr hsender), ?_⟩
  obtain ⟨r, hr⟩ := Option.ne_none_iff_exists'.mp hreactions
  simp [stored, hr]

end Message

end HistoryMessage

end Icq.Archive
