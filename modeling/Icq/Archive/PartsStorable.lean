import Icq.Archive.MessageRoundTrip

/-! Which of the records inside a message are read back as they were. -/

namespace Icq.Archive
open Icq.Lib Icq.Tools Icq.Common Icq.Tasks Tlv

/-- The length of a text is written into four bytes. -/
def ShortText (text : Bytes) : Prop := text.length < 2 ^ 32

theorem textValue_eq_self_iff {text : Bytes} : textValue text = text ↔ ShortText text := by
  refine ⟨fun h => ?_, textValue_eq⟩
  have hlength := length_textValue text
  rwa [h] at hlength

theorem option_map_eq_self_iff {α : Type} {f : α → α} {o : Option α} :
    o.map f = o ↔ ∀ a, o = some a → f a = a := by
  cases o with
  | none => simp
  | some a => simp

theorem list_map_eq_self_iff {α : Type} {f : α → α} {l : List α} :
    l.map f = l ↔ ∀ a ∈ l, f a = a := by
  induction l with
  | nil => simp
  | cons a l ih => rw [List.map_cons, List.cons.injEq, List.forall_mem_cons, ih]

/-- There is no format of the type none among those that are written. -/
structure RangeFormat.Storable (r : RangeFormat) : Prop where
  type : r.type ≠ .none
  data : ∀ data, r.data = some data → ShortText data

def FormatData.Storable (f : FormatData) : Prop := ∀ r ∈ f, r.Storable

structure SharedContactData.Storable (c : SharedContactData) : Prop where
  name : ShortText c.name
  phone : ShortText c.phone
  sn : ShortText c.sn

def GeoData.Storable (g : GeoData) : Prop := ShortText g.name

/-- Nobody has voted. -/
structure PollAnswer.Storable (a : PollAnswer) : Prop where
  votes : a.votes = 0
  text : ShortText a.text
  answerId : a.answerId = []

/-- A poll as a message has it, before anything is known about the votes. -/
structure PollData.Storable (p : PollData) : Prop where
  id : ShortText p.id
  type : ShortText p.type
  myAnswerId : p.myAnswerId = []
  answers : ∀ a ∈ p.answers, a.Storable
  closed : p.closed = false
  canStop : p.canStop = false

/-- A task that the server knows is its id, and one that waits to be sent is what is sent of it. -/
def StorableTask (t : TaskData) : Prop :=
  if t.id = [] then
    t = { params :=
            { title := t.params.title, assignee := t.params.assignee, endTime := t.params.endTime } } ∧
      ShortText t.params.title ∧ ShortText t.params.assignee ∧ t.params.endTime.Whole
  else t = { id := t.id } ∧ ShortText t.id

/-- The task that is changed is not named, and its new status is known. -/
structure StorableChange (c : TaskChange) : Prop where
  id : c.id = []
  title : ∀ title, c.title = some title → ShortText title
  assignee : ∀ assignee, c.assignee = some assignee → ShortText assignee
  endTime : ∀ t, c.endTime = some t → t.Whole
  status : c.status ≠ some .unknown

/-- The flags that are not written are found in the memory by chance. -/
structure ChatEventData.FlagsKept (unset : Bool) (e : ChatEventData) : Prop where
  newJoinModeration :
    e.type = ChatEventType.chatJoinModerationModified → e.newJoinModeration = unset
  newPublic : e.type = ChatEventType.chatPublicModified → e.newPublic = unset
  newTrustRequired :
    e.type = ChatEventType.chatTrustRequiedModified → e.newTrustRequired = unset

structure UrlSnippet.Storable (s : UrlSnippet) : Prop where
  url : ShortText s.url
  contentType : ShortText s.contentType
  previewUrl : ShortText s.previewUrl
  title : ShortText s.title
  description : ShortText s.description

structure Quote.Storable (q : Quote) : Prop where
  text : ShortText q.text
  format : ∀ f, q.format = some f → f.Storable
  sender : ShortText q.sender
  chat : ShortText q.chat
  chatStamp : ShortText q.chatStamp
  chatName : ShortText q.chatName
  senderFriendly : ShortText q.senderFriendly
  url : ShortText q.url
  description : ShortText q.description
  descriptionFormat : ∀ f, q.descriptionFormat = some f → f.Storable
  sharedContact : ∀ c, q.sharedContact = some c → c.Storable
  geo : ∀ g, q.geo = some g → g.Storable
  poll : ∀ p, q.poll = some p → p.Storable
  task : ∀ t, q.task = some t → StorableTask t

theorem storedType_eq_self_iff (type : FormatType) : storedType type = type ↔ type ≠ .none := by
  cases type <;> decide

theorem RangeFormat.stored_eq_self_iff (r : RangeFormat) : r.stored = r ↔ r.Storable := by
  obtain ⟨type, range, data⟩ := r
  simp only [stored, Common.RangeFormat.mk.injEq, storedType_eq_self_iff, option_map_eq_self_iff,
    textValue_eq_self_iff, true_and]
  exact ⟨fun h => ⟨h.1, h.2⟩, fun h => ⟨h.type, h.data⟩⟩

theorem FormatData.stored_eq_self_iff (f : FormatData) : stored f = f ↔ f.Storable := by
  rw [stored, list_map_eq_self_iff]
  exact forall₂_congr fun r _ => r.stored_eq_self_iff

theorem SharedContactData.stored_eq_self_iff (c : SharedContactData) :
    c.stored = c ↔ c.Storable := by
  obtain ⟨name, phone, sn⟩ := c
  simp only [stored, SharedContactData.mk.injEq, textValue_eq_self_iff]
  exact ⟨fun h => ⟨h.1, h.2.1, h.2.2⟩, fun h => ⟨h.name, h.phone, h.sn⟩⟩

theorem GeoData.stored_eq_self_iff (g : GeoData) : g.stored = g ↔ g.Storable := by
  obtain ⟨name, lat, long⟩ := g
  simp only [stored, GeoData.mk.injEq, textValue_eq_self_iff, and_true]
  rfl

theorem PollData.stored_eq_self_iff (p : PollData) : p.stored = p ↔ p.Storable := by
  have hanswer : ∀ a : PollAnswer, ({ text := textValue a.text } : PollAnswer) = a ↔ a.Storable := by
    intro a
    obtain ⟨votes, text, answerId⟩ := a
    simp only [PollAnswer.mk.injEq, textValue_eq_self_iff]
    exact ⟨fun h => ⟨h.1.symm, h.2.1, h.2.2.symm⟩, fun h => ⟨h.votes.symm, h.text, h.answerId.symm⟩⟩
  obtain ⟨id, type, myAnswerId, answers, closed, canStop⟩ := p
  simp only [stored, PollData.mk.injEq, textValue_eq_self_iff, list_map_eq_self_iff, hanswer]
  constructor
  · rintro ⟨hid, htype, hmine, hanswers, hclosed, hstop⟩
    exact ⟨hid, htype, hmine.symm, hanswers, hclosed.symm, hstop.symm⟩
  · intro h
    exact ⟨h.id, h.type, h.myAnswerId.symm, h.answers, h.closed.symm, h.canStop.symm⟩

theorem storedTask_eq_self_iff (t : TaskData) : storedTask t = t ↔ StorableTask t := by
  rw [storedTask, StorableTask]
  by_cases hid : t.id = []
  · simp only [hid, List.isEmpty_nil, if_true]
    constructor
    · intro h
      have htitle : textValue t.params.title = t.params.title := congrArg (·.params.title) h
      have hassignee : textValue t.params.assignee = t.params.assignee :=
        congrArg (·.params.assignee) h
      have hend : TimePoint.fromSeconds t.params.endTime.toSeconds = t.params.endTime :=
        congrArg (·.params.endTime) h
      rw [htitle, hassignee, hend] at h
      exact ⟨h.symm, textValue_eq_self_iff.mp htitle, textValue_eq_self_iff.mp hassignee,
        (TimePoint.fromSeconds_toSeconds_iff _).mp hend⟩
    · intro h
      obtain ⟨hall, htitle, hassignee, hend⟩ := h
      rw [textValue_eq htitle, textValue_eq hassignee,
        (TimePoint.fromSeconds_toSeconds_iff _).mpr hend]
      exact hall.symm
  · simp only [hid, List.isEmpty_iff, if_false]
    constructor
    · intro h
      have htext : textValue t.id = t.id := congrArg TaskData.id h
      rw [htext] at h
      exact ⟨h.symm, textValue_eq_self_iff.mp htext⟩
    · intro h
      rw [textValue_eq h.2]
      exact h.1.symm

theorem storedStatus_eq_self_iff (status : Status) :
    storedStatus status = status ↔ status ≠ .unknown := by
  cases status <;> decide

theorem storedChange_eq_self_iff (c : TaskChange) : storedChange c = c ↔ StorableChange c := by
  obtain ⟨id, title, assignee, endTime, status⟩ := c
  have hstatus : (∀ s, status = some s → s ≠ .unknown) ↔ status ≠ some .unknown :=
    ⟨fun h hs => h _ hs rfl, fun h s hs he => h (he ▸ hs)⟩
  simp only [storedChange, TaskChange.mk.injEq, option_map_eq_self_iff, textValue_eq_self_iff,
    storedStatus_eq_self_iff, TimePoint.fromSeconds_toSeconds_iff, hstatus]
  constructor
  · intro h
    obtain ⟨hid, htitle, hassignee, hend, hstatus⟩ := h
    exact ⟨hid.symm, htitle, hassignee, hend, hstatus⟩
  · intro h
    exact ⟨h.id.symm, h.title, h.assignee, h.endTime, h.status⟩

theorem UrlSnippet.stored_eq_self_iff (s : UrlSnippet) : s.stored = s ↔ s.Storable := by
  obtain ⟨url, contentType, previewUrl, width, height, title, description⟩ := s
  simp only [stored, UrlSnippet.mk.injEq, textValue_eq_self_iff, true_and]
  exact ⟨fun ⟨hurl, htype, hpreview, htitle, hdescription⟩ =>
      ⟨hurl, htype, hpreview, htitle, hdescription⟩,
    fun h => ⟨h.url, h.contentType, h.previewUrl, h.title, h.description⟩⟩

theorem Quote.stored_eq_self_iff (q : Quote) : q.stored = q ↔ q.Storable := by
  obtain ⟨text, format, sender, chat, chatStamp, chatName, friendly, url, description,
    descriptionFormat, time, setId, stickerId, msgId, isForward, contact, geo, poll, task⟩ := q
  simp only [stored, Quote.mk.injEq, textValue_eq_self_iff, option_map_eq_self_iff, true_and,
    FormatData.stored_eq_self_iff, SharedContactData.stored_eq_self_iff,
    GeoData.stored_eq_self_iff, PollData.stored_eq_self_iff, storedTask_eq_self_iff]
  refine ⟨fun h => ?_, fun h => ?_⟩
  · obtain ⟨htext, hformat, hsender, hchat, hstamp, hname, hfriendly, hurl, hdescription, hmore,
      hcontact, hgeo, hpoll, htask⟩ := h
    exact ⟨htext, hformat, hsender, hchat, hstamp, hname, hfriendly, hurl, hdescription, hmore,
      hcontact, hgeo, hpoll, htask⟩
  · exact ⟨h.text, h.format, h.sender, h.chat, h.chatStamp, h.chatName, h.senderFriendly, h.url,
      h.description, h.descriptionFormat, h.sharedContact, h.geo, h.poll, h.task⟩

/-- A record written alone. -/
theorem fits_singleton {t : Tlv} (h : t.value.length < 2 ^ 32) : Fits [t] := by
  intro x hx
  rwa [List.mem_singleton.mp hx]

/-- Each record comes back as what is stored of it, which is itself only if there is nothing in it
that a message does not keep. -/
theorem parts_stored (q : Quote) (f : FormatData) (s : UrlSnippet) (p : PollData) (t : TaskData)
    (hq : Fits q.serialize) (hf : Fits (FormatData.serialize f))
    (hp : p.serialize.value.length < 2 ^ 32) (ht : (serializeTask t).value.length < 2 ^ 32) :
    (Quote.unserialize q.serialize = q.stored ∧ (q.stored = q ↔ q.Storable)) ∧
      (FormatData.unserialize (FormatData.serialize f) = FormatData.stored f ∧
        (FormatData.stored f = f ↔ FormatData.Storable f)) ∧
      (UrlSnippet.unserialize s.serialize = s.stored ∧ (s.stored = s ↔ s.Storable)) ∧
      (PollData.unserialize p.serialize.getPack = p.stored ∧ (p.stored = p ↔ p.Storable)) ∧
      unserializeTask (serializeTask t).getPack = storedTask t ∧
        (storedTask t = t ↔ StorableTask t) :=
  ⟨⟨Quote.unserialize_serialize hq, q.stored_eq_self_iff⟩,
    ⟨FormatData.unserialize_serialize hf, FormatData.stored_eq_self_iff f⟩,
    ⟨UrlSnippet.unserialize_serialize s, s.stored_eq_self_iff⟩,
    ⟨PollData.unserialize_serialize (fits_singleton hp) (List.mem_singleton_self _),
      p.stored_eq_self_iff⟩,
    unserializeTask_serializeTask (fits_singleton ht) (List.mem_singleton_self _),
    storedTask_eq_self_iff t⟩

theorem parts_stored_short :
    PollData.unserialize (PollData.serialize { id := [1], answers := [{ text := [2] }] }).getPack =
      { id := [1], answers := [{ text := [2] }] } := by
  have hanswer : PollAnswer.Storable { text := [2] } := ⟨rfl, Nat.one_lt_two_pow (by decide), rfl⟩
  have hpoll : PollData.Storable { id := [1], answers := [{ text := [2] }] } :=
    ⟨Nat.one_lt_two_pow (by decide), Nat.two_pow_pos 32, rfl, fun a ha => by
      rwa [List.mem_singleton.mp ha], rfl, rfl⟩
  have h := (parts_stored { text := [1] } [{ type := .bold }] { url := [1] }
    { id := [1], answers := [{ text := [2] }] } { id := [1] } (by unfold Fits; decide)
    (by unfold Fits; decide) (by decide) (by decide)).2.2.2.1
  exact h.1.trans (h.2.mpr hpoll)

/-- The answer that was given is not kept, nor the name of a task, nor who made it, nor parts of a
second. -/
theorem given_answer_lost :
    PollData.unserialize (PollData.serialize { id := [1], myAnswerId := [2] }).getPack ≠
        { id := [1], myAnswerId := [2] } ∧
      unserializeTask (serializeTask { id := [1], params := { title := [2] } }).getPack ≠
        { id := [1], params := { title := [2] } } ∧
      unserializeTask (serializeTask { params := { title := [2], creator := [3] } }).getPack ≠
        { params := { title := [2], creator := [3] } } ∧
      unserializeTask (serializeTask { params := { title := [2], endTime := 1 } }).getPack ≠
        { params := { title := [2], endTime := 1 } } ∧
      FormatData.unserialize (FormatData.serialize [{}]) ≠ [{}] := by
  decide

end Icq.Archive
