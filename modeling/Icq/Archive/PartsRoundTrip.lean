import Icq.Archive.MessageParts

/-! What is left of the records of a message once they were written and read. A part that is not
written, or that the reader drops, is absent from the `stored` record. -/

namespace Icq.Archive
open Icq.Lib Icq.Tools Icq.Common Icq.Tasks Tlv

section Pack

variable {α : Type}

@[simp] theorem getItem_pushIf (c : Bool) (t : Tlv) (tag : UInt32) :
    (pushIf c t).getItem tag = if c = true ∧ t.type = tag then some t else none := by
  cases c <;> simp [pushIf, TlvPack.getItem_cons]

theorem getItem_pushSome (a : Option α) (f : α → Tlv) (tag : UInt32) :
    (pushSome a f).getItem tag = a.bind (fun x => if (f x).type = tag then some (f x) else none) := by
  cases a <;> simp [pushSome, TlvPack.getItem_cons]

theorem mem_pushIf {c : Bool} {t x : Tlv} : x ∈ pushIf c t ↔ c = true ∧ x = t := by
  cases c <;> simp [pushIf]

theorem mem_pushSome {a : Option α} {f : α → Tlv} {x : Tlv} :
    x ∈ pushSome a f ↔ ∃ y, a = some y ∧ f y = x := by
  cases a <;> simp [pushSome, eq_comm]

@[simp] theorem textValue_nil : textValue [] = [] := rfl

/-- All values of a pack are short enough for their length to be written. -/
def Fits (pack : TlvPack) : Prop := ∀ t ∈ pack, t.value.length < 2 ^ 32

theorem Fits.getPack {type : UInt32} {pack outer : TlvPack} (h : Fits outer)
    (hm : ofPack type pack ∈ outer) : (ofPack type pack).getPack = pack :=
  getPack_ofPack (h _ hm)

/-- What lies inside a value that fits does so too. -/
theorem Fits.inner {type : UInt32} {pack outer : TlvPack} (h : Fits outer)
    (hm : ofPack type pack ∈ outer) : Fits pack :=
  fun _ ht => Nat.lt_of_le_of_lt (TlvPack.length_value_le ht) (h _ hm)

theorem Fits.cons {t : Tlv} {pack : TlvPack} :
    Fits (t :: pack) ↔ t.value.length < 2 ^ 32 ∧ Fits pack :=
  List.forall_mem_cons

theorem Fits.append {before after : TlvPack} : Fits (before ++ after) ↔ Fits before ∧ Fits after :=
  List.forall_mem_append

theorem getItem_numbered {members : List Bytes} {k i : Nat} (hk : k ≤ i)
    (hi : i < k + members.length) (hl : k + members.length ≤ 2 ^ 32) :
    TlvPack.getItem ((members.zipIdx k).map (fun m => .ofText (UInt32.ofNat m.2) m.1))
      (UInt32.ofNat i) = (members[i - k]?).map (.ofText (UInt32.ofNat i)) := by
  induction members generalizing k with
  | nil => simp at hi; omega
  | cons m members ih =>
    simp only [List.length_cons] at hi hl
    rw [List.zipIdx_cons, List.map_cons, TlvPack.getItem_cons, type_ofText]
    by_cases he : k = i
    · subst he
      simp
    · have hne : UInt32.ofNat k ≠ UInt32.ofNat i := by
        intro h
        have h := congrArg UInt32.toNat h
        rw [UInt32.toNat_ofNat', UInt32.toNat_ofNat', Nat.mod_eq_of_lt (by omega),
          Nat.mod_eq_of_lt (by omega)] at h
        exact he h
      obtain ⟨d, rfl⟩ : ∃ d, i = k + 1 + d := ⟨i - (k + 1), by omega⟩
      rw [if_neg hne, ih (by omega) (by omega) (by omega)]
      congr 1
      rw [show k + 1 + d - k = d + 1 by omega, List.getElem?_cons_succ]
      congr 1
      omega

theorem length_numbered (members : List Bytes) : (numbered members).length = members.length := by
  simp [numbered]

theorem readNumbered_numbered {members : List Bytes} (h : members.length < 2 ^ 32) :
    readNumbered (numbered members) = members.map (fun m => some (textValue m)) := by
  rw [readNumbered, length_numbered, UInt32.toNat_ofNat', Nat.mod_eq_of_lt h]
  apply List.ext_getElem
  · simp
  · intro i hi _
    have hi : i < members.length := by simpa using hi
    have hget := getItem_numbered (Nat.zero_le i) (by omega : i < 0 + members.length) (by omega)
    simp only [List.getElem_map, List.getElem_range, getText]
    rw [numbered, hget]
    simp [hi]

/-- Members that fit into a value are few enough to be counted. -/
theorem length_members {members : List Bytes} {type : UInt32} {outer : TlvPack} (h : Fits outer)
    (hm : ofPack type (numbered members) ∈ outer) : members.length < 2 ^ 32 := by
  have hlen := TlvPack.length_le_serialize (numbered members)
  rw [length_numbered] at hlen
  exact Nat.lt_of_le_of_lt hlen (h _ hm)

end Pack

namespace SharedContactData

def stored (c : SharedContactData) : SharedContactData :=
  { name := textValue c.name, phone := textValue c.phone, sn := textValue c.sn }

@[simp] theorem type_serialize (c : SharedContactData) : c.serialize.type = mfSharedContact := rfl

theorem unserialize_serialize {c : SharedContactData} {outer : TlvPack} (h : Fits outer)
    (hm : c.serialize ∈ outer) : unserialize c.serialize.getPack = some c.stored := by
  rw [serialize, h.getPack hm]
  simp +decide [unserialize, stored, getText, TlvPack.getItem_cons]

end SharedContactData

namespace GeoData

def stored (g : GeoData) : GeoData := { g with name := textValue g.name }

@[simp] theorem type_serialize (g : GeoData) : g.serialize.type = mfGeo := rfl

theorem unserialize_serialize {g : GeoData} {outer : TlvPack} (h : Fits outer)
    (hm : g.serialize ∈ outer) : unserialize g.serialize.getPack = some g.stored := by
  rw [serialize, h.getPack hm]
  simp +decide [unserialize, stored, getText, getScalar, TlvPack.getItem_cons]

end GeoData

namespace MessageReactions

/-- Of the reactions only the mark that there are some is written. -/
def stored (r : MessageReactions) : MessageReactions := { exist := r.exist }

@[simp] theorem type_serialize (r : MessageReactions) : r.serialize.type = mfReactions := rfl

theorem length_value_serialize (r : MessageReactions) : r.serialize.value.length < 2 ^ 32 := by
  simp [serialize, ofPack, TlvPack.serialize, Tlv.serialize, ofScalar, Scalar.width]

theorem unserialize_serialize (r : MessageReactions) :
    unserialize r.serialize.getPack = some r.stored := by
  have hpack : r.serialize.getPack = [.ofScalar mfReactionsExist r.exist] :=
    getPack_ofPack r.length_value_serialize
  rw [hpack]
  simp [unserialize, getScalar, TlvPack.getItem_cons, stored]

end MessageReactions

def StickerData.stored (s : StickerData) : StickerData := { id := textValue s.id }

theorem StickerData.unserialize_serialize (s : StickerData) : unserialize s.serialize = s.stored := by
  simp [unserialize, serialize, getText, TlvPack.getItem_cons, stored]

namespace VoipData

/-- Durations and directions below zero are not written, and an empty member is not read. -/
def stored (v : VoipData) : Option VoipData :=
  if !validType v.type || (textValue v.senderAimid).isEmpty || (textValue v.senderFriendly).isEmpty
  then none
  else
    some
      { v with
        sid := textValue v.sid, senderAimid := textValue v.senderAimid
        senderFriendly := textValue v.senderFriendly
        durationSec := if 0 ≤ v.durationSec then v.durationSec else -1
        isIncoming := if 0 ≤ v.isIncoming then v.isIncoming else -1
        confMembers := (v.confMembers.map textValue).filter (fun m => !m.isEmpty) }

theorem members_serialize {v : VoipData} (h : Fits v.serialize) :
    (readNumbered ((getNested v.serialize mfVoipConfMembers).getD [])).filterMap
      (fun m => m.filter (fun m => !m.isEmpty)) =
    (v.confMembers.map textValue).filter (fun m => !m.isEmpty) := by
  have hitem : v.serialize.getItem mfVoipConfMembers =
      if v.confMembers = [] then none
      else some (.ofPack mfVoipConfMembers (numbered v.confMembers)) := by
    simp +decide [serialize, TlvPack.getItem_append, TlvPack.getItem_cons]
  rw [getNested, hitem]
  by_cases hc : v.confMembers = []
  · simp [hc, readNumbered]
  · have hm : Tlv.ofPack mfVoipConfMembers (numbered v.confMembers) ∈ v.serialize := by
      simp [serialize, mem_pushIf, hc]
    rw [if_neg hc, Option.map_some, Option.getD_some, h.getPack hm,
      readNumbered_numbered (length_members h hm), List.filterMap_map, ← List.filterMap_eq_filter,
      List.filterMap_map]
    congr 1

theorem unserialize_serialize {v : VoipData} (h : Fits v.serialize) :
    unserialize v.serialize = v.stored := by
  have hmembers := members_serialize h
  have htype : getScalar Int32 v.serialize mfVoipEventType = some v.type := by
    simp +decide [serialize, getScalar, TlvPack.getItem_cons]
  have haimid : getText v.serialize mfVoipSenderAimid = some (textValue v.senderAimid) := by
    simp +decide [serialize, getText, TlvPack.getItem_cons]
  have hfriendly : getText v.serialize mfVoipSenderFriendly = some (textValue v.senderFriendly) := by
    simp +decide [serialize, getText, TlvPack.getItem_cons]
  have hsid : getText v.serialize mfVoipSid = some (textValue v.sid) := by
    simp +decide [serialize, getText, TlvPack.getItem_append, TlvPack.getItem_cons]
  have hduration : (getScalar Int32 v.serialize mfVoipDuration).getD (-1) =
      if 0 ≤ v.durationSec then v.durationSec else -1 := by
    simp only [serialize, getScalar, TlvPack.getItem_append, TlvPack.getItem_cons]
    by_cases hd : 0 ≤ v.durationSec <;> simp +decide [hd]
  have hincoming : (getScalar Int32 v.serialize mfVoipIsIncoming).getD (-1) =
      if 0 ≤ v.isIncoming then v.isIncoming else -1 := by
    simp only [serialize, getScalar, TlvPack.getItem_append, TlvPack.getItem_cons]
    by_cases hd : 0 ≤ v.isIncoming <;> simp +decide [hd]
  have hvideo : (getScalar Bool v.serialize mfVoipIsVideo).getD false = v.isVideo := by
    simp only [serialize, getScalar, TlvPack.getItem_append, TlvPack.getItem_cons]
    cases hd : v.isVideo <;> simp +decide
  unfold unserialize
  rw [htype, haimid, hfriendly]
  simp only [hmembers, hsid, hduration, hincoming, hvideo]
  rfl

end VoipData

namespace ChatData

/-- Of the person only the name and the flag are written. -/
def stored (unset : Bool) (c : ChatData) : ChatData :=
  { sender := textValue c.sender, name := textValue c.name
    friendly :=
      { friendly := textValue c.friendly.friendly
        official := some (c.friendly.official.getD unset) } }

theorem unserialize_serialize (unset : Bool) (c : ChatData) :
    unserialize (c.serialize unset) = c.stored unset := by
  have hofficial : getScalar Bool (c.serialize unset) mfFriendlyOfficial =
      some (c.friendly.official.getD unset) := by
    simp +decide [serialize, getScalar, TlvPack.getItem_cons, officialBytes, getValue]
  unfold unserialize
  simp only [hofficial]
  simp +decide [serialize, getText, TlvPack.getItem_cons, stored]

end ChatData

namespace FileSharingData

/-- A file with a link is known by it, and by its path otherwise. -/
def stored (f : FileSharingData) : FileSharingData :=
  if f.uri.isEmpty then { f with uri := [], localPath := textValue f.localPath }
  else { f with uri := textValue f.uri, localPath := [] }

theorem unserialize_serialize (f : FileSharingData) : unserialize f.serialize = .ok f.stored := by
  have hduration : getScalar Int64 f.serialize mfFileSharingDuration = f.duration := by
    by_cases hu : f.uri.isEmpty <;> cases hd : f.duration <;>
      simp +decide [serialize, getScalar, TlvPack.getItem_append, TlvPack.getItem_cons,
        getItem_pushSome, hu, hd]
  have htype : getScalar Int32 f.serialize mfFileSharingBaseContentType = f.baseContentType := by
    by_cases hu : f.uri.isEmpty <;> cases hd : f.baseContentType <;>
      simp +decide [serialize, getScalar, TlvPack.getItem_append, TlvPack.getItem_cons,
        getItem_pushSome, hu, hd]
  unfold unserialize
  simp only [hduration, htype]
  by_cases hu : f.uri.isEmpty <;>
    simp +decide [serialize, getText, TlvPack.getItem_append, TlvPack.getItem_cons,
      getItem_pushSome, stored, hu]

end FileSharingData

def storedType : FormatType → FormatType
  | .none => .bold
  | type => type

theorem fromMfType_toMfType (type : FormatType) : fromMfType (toMfType type) = storedType type := by
  cases type <;> decide

def RangeFormat.stored (r : RangeFormat) : RangeFormat :=
  { r with type := storedType r.type, data := r.data.map textValue }

theorem RangeFormat.unserialize_serialize {r : RangeFormat} {outer : TlvPack} (h : Fits outer)
    (hm : r.serialize ∈ outer) : unserialize r.serialize = r.stored := by
  rw [unserialize, serialize, h.getPack hm]
  cases hd : r.data <;>
    simp +decide [pushSome, readField, stored, fromMfType_toMfType, hd]

namespace FormatData

def stored (f : FormatData) : FormatData := f.map RangeFormat.stored

theorem unserialize_serialize {f : FormatData} (h : Fits (serialize f)) :
    unserialize (serialize f) = stored f := by
  rw [unserialize, serialize, List.map_map]
  apply List.map_congr_left
  intro r hr
  exact RangeFormat.unserialize_serialize h (List.mem_map_of_mem hr)

theorem unserialize_inner {f : FormatData} {type : UInt32} {outer : TlvPack} (h : Fits outer)
    (hm : ofPack type (serialize f) ∈ outer) :
    unserialize (ofPack type (serialize f)).getPack = stored f := by
  rw [h.getPack hm, unserialize_serialize (h.inner hm)]

end FormatData

namespace PollData

/-- A poll keeps its id, its type and the texts of its answers. -/
def stored (p : PollData) : PollData :=
  { id := textValue p.id, type := textValue p.type
    answers := p.answers.map (fun a => { text := textValue a.text }) }

theorem foldl_answers (answers : List PollAnswer) (p : PollData) :
    (answers.map (fun a => Tlv.ofText mfPollAnswer a.text)).foldl readField p =
      { p with answers := p.answers ++ answers.map (fun a => { text := textValue a.text }) } := by
  induction answers generalizing p with
  | nil => simp
  | cons a answers ih => simp [ih, readField]

@[simp] theorem type_serialize (p : PollData) : p.serialize.type = mfPoll := rfl

theorem unserialize_serialize {p : PollData} {outer : TlvPack} (h : Fits outer)
    (hm : p.serialize ∈ outer) : unserialize p.serialize.getPack = p.stored := by
  rw [serialize, h.getPack hm, unserialize, List.foldl_append, List.foldl_append, foldl_answers]
  simp +decide [readField, stored]

end PollData

section Task

/-- A task that has an id keeps nothing else, and one without keeps what is sent of it. -/
def storedTask (t : TaskData) : TaskData :=
  if t.id.isEmpty then
    { params :=
        { title := textValue t.params.title, assignee := textValue t.params.assignee
          endTime := TimePoint.fromSeconds t.params.endTime.toSeconds } }
  else { id := textValue t.id }

@[simp] theorem type_serializeTask (t : TaskData) : (serializeTask t).type = mfTask := rfl

theorem unserializeTask_serializeTask {t : TaskData} {outer : TlvPack} (h : Fits outer)
    (hm : serializeTask t ∈ outer) : unserializeTask (serializeTask t).getPack = storedTask t := by
  rw [serializeTask, h.getPack hm]
  by_cases hi : t.id.isEmpty <;>
    simp +decide [unserializeTask, storedTask, getText, getScalar, TlvPack.getItem_cons, hi]

def storedStatus : Status → Status
  | .unknown => .newTask
  | status => status

theorem ofText_toText (status : Status) :
    Status.ofText (textValue status.toText) = storedStatus status := by
  cases status <;> decide

end Task

end Icq.Archive
