import Icq.Archive.DlgState
import Icq.Archive.ServerEvents
import Icq.Lib.KeyMapRange

/-! The patches that come with a history, each for one message, and the messages they become. -/

namespace Icq.Wim
open Icq.Lib Icq.Tools Icq.Archive

inductive PatchType where
  | min | deleted | modified | pinned | unpinned | updated | clear | setReactions | addThread | max
deriving DecidableEq

namespace PatchType

def isValidType : PatchType → Bool
  | deleted | modified | pinned | unpinned | updated | clear | setReactions | addThread => true
  | min | max => false

def ofText (type : Bytes) : PatchType :=
  if type = bytesOf "delete" then .deleted
  else if type = bytesOf "modify" then .modified
  else if type = bytesOf "update" then .updated
  else if type = bytesOf "pinned" then .pinned
  else if type = bytesOf "unpinned" then .unpinned
  else if type = bytesOf "clear" then .clear
  else if type = bytesOf "setReactions" then .setReactions
  else if type = bytesOf "addThread" then .addThread
  else .min

def isPinRelated (type : PatchType) : Bool := type = .unpinned || type = .pinned

end PatchType

structure HistoryPatch where
  type : PatchType
  messageId : Int64
deriving DecidableEq

/-- Only an integer of 64 bits may be asked for as one. -/
def getInt64 (v : JsonValue) : Outcome Int64 :=
  match v with
  | .int n => if -2 ^ 63 ≤ n ∧ n < 2 ^ 63 then .ok (Int64.ofInt n) else .crashed
  | _ => .crashed

def getStringView (v : JsonValue) : Outcome Bytes :=
  match v with
  | .string text => .ok text
  | _ => .crashed

/-- The patch of a node, if it has an id and a known type. -/
def parsePatchNode (node : JsonValue) : Outcome (Option HistoryPatch) := do
  let msgId ← askMember node "msgId"
  let type ← askMember node "type"
  match msgId, type with
  | some msgId, some type =>
    let messageId ← getInt64 msgId
    let text ← getStringView type
    let patchType := PatchType.ofText text
    .ok (if patchType.isValidType then some { type := patchType, messageId } else none)
  | _, _ => .ok none

/-- The patches by their messages, those of pins apart from those of contents. -/
structure PatchMaps where
  contentRelated : KeyMap HistoryPatch.messageId := ∅
  pinRelated : KeyMap HistoryPatch.messageId := ∅

namespace PatchMaps

variable (maps : PatchMaps)

def emplace (patch : HistoryPatch) : PatchMaps :=
  if patch.type.isPinRelated then { maps with pinRelated := maps.pinRelated.put patch }
  else
    match maps.contentRelated.find? patch.messageId with
    | some it =>
      if it.type ≠ .deleted then { maps with contentRelated := maps.contentRelated.put patch }
      else maps
    | none => { maps with contentRelated := maps.contentRelated.put patch }

def emplaceNode (node : JsonValue) : Outcome PatchMaps := do
  match ← parsePatchNode node with
  | some patch => .ok (maps.emplace patch)
  | none => .ok maps

def items : List HistoryPatch := maps.contentRelated.items ++ maps.pinRelated.items

end PatchMaps

def parsePatchesJson (nodePatch : JsonValue) : Outcome (List HistoryPatch) :=
  match nodePatch with
  | .array nodes => do
    let maps ← nodes.foldlM PatchMaps.emplaceNode {}
    .ok maps.items
  | _ => .ok []

section Messages

variable (archiveId : Int64) (internalId : Bytes)

def makeDeletedPatch : HistoryMessage :=
  { msgid := archiveId, internalId, flags := { deleted := true, patch := true } }

def makeUpdatedPatch : HistoryMessage :=
  { msgid := archiveId, internalId, flags := { updated := true, patch := true } }

/-- `unset` is what a flag of an event that nobody sets holds. -/
def makeModifiedPatch (unset : Bool) (chatEvent : Option ChatEventData) : HistoryMessage :=
  let result := makeUpdatedPatch archiveId internalId
  { result with
    flags := { result.flags with modified := true }
    chatEvent := chatEvent.or (some (.ofType unset ChatEventType.messageDeleted)) }

def makeClearPatch : HistoryMessage :=
  { msgid := archiveId, internalId, flags := { clear := true, patch := true } }

def makeSetReactionsPatch : HistoryMessage := makeUpdatedPatch archiveId internalId

end Messages

/-- A block of messages with the state of its dialog. -/
structure PatchedHistory where
  block : List HistoryMessage
  unpinned : Bool := false
  dlgState : DlgState := {}

def eventOf (block : List HistoryMessage) (messageId : Int64) : Option ChatEventData :=
  (block.find? fun m => m.msgid == messageId).bind (·.chatEvent)

namespace PatchedHistory

variable (h : PatchedHistory)

def emplaceBack (m : HistoryMessage) : PatchedHistory := { h with block := h.block ++ [m] }

def applyPatch (unset : Bool) (patch : HistoryPatch) : PatchedHistory :=
  let id := patch.messageId
  let chatEvent := eventOf h.block id
  match patch.type with
  | .deleted => h.emplaceBack (makeDeletedPatch id [])
  | .modified => h.emplaceBack (makeModifiedPatch id [] unset chatEvent)
  | .updated => h.emplaceBack (makeUpdatedPatch id [])
  | .unpinned =>
    let pinned := h.dlgState.pinnedMessage
    let cleared := pinned.hasMsgid && pinned.msgid == id
    { h with
      dlgState := if cleared then { h.dlgState with pinnedMessage := {} } else h.dlgState
      unpinned := true }
  | .clear => h.emplaceBack (makeClearPatch id [])
  | .setReactions => h.emplaceBack (makeSetReactionsPatch id [])
  | .addThread => h.emplaceBack (makeUpdatedPatch id [])
  | _ => h

def applyPatches (unset : Bool) (patches : List HistoryPatch) : PatchedHistory :=
  patches.foldl (fun h patch => h.applyPatch unset patch) h

end PatchedHistory

/-- A node that can be read: where it has both, its id is an integer and its type a text. -/
def PatchNode (node : JsonValue) : Prop :=
  ∃ members, node = .object members ∧
    ∀ msgId type, node.findMember "msgId" = some msgId → node.findMember "type" = some type →
      (∃ n, msgId = .int n ∧ -2 ^ 63 ≤ n ∧ n < 2 ^ 63) ∧ ∃ text, type = .string text

def patchOf (node : JsonValue) : Option HistoryPatch :=
  match parsePatchNode node with
  | .ok patch => patch
  | _ => none

/-- What becomes of the contents of a message: a deletion counts whenever it comes, else the last
patch. -/
def contentPatch (patches : List HistoryPatch) (id : Int64) : Option PatchType :=
  let own := patches.filter fun p => p.messageId == id && !p.type.isPinRelated
  if own.any (·.type == .deleted) then some .deleted else own.getLast?.map (·.type)

/-- The message that a patch of the contents becomes. -/
def patchMessage (unset : Bool) (block : List HistoryMessage) (id : Int64) :
    PatchType → List HistoryMessage
  | .deleted => [makeDeletedPatch id []]
  | .modified => [makeModifiedPatch id [] unset (eventOf block id)]
  | .updated | .setReactions | .addThread => [makeUpdatedPatch id []]
  | .clear => [makeClearPatch id []]
  | .pinned | .unpinned | .min | .max => []

section Parse

variable {node : JsonValue} {nodes : List JsonValue} {maps : PatchMaps} {patch : HistoryPatch}
  {patches : List HistoryPatch} {id : Int64}

theorem PatchNode.parse (h : PatchNode node) : parsePatchNode node = .ok (patchOf node) := by
  obtain ⟨members, rfl, hread⟩ := h
  have hok : ∃ patch, parsePatchNode (.object members) = .ok patch := by
    rw [parsePatchNode]
    simp only [askMember, Outcome.ok_bind]
    cases hid : (JsonValue.object members).findMember "msgId" with
    | none => exact ⟨none, rfl⟩
    | some msgId =>
      cases htype : (JsonValue.object members).findMember "type" with
      | none => exact ⟨none, rfl⟩
      | some type =>
        obtain ⟨⟨n, rfl, hlow, hup⟩, text, rfl⟩ := hread msgId type hid htype
        dsimp only
        rw [getInt64, if_pos ⟨hlow, hup⟩]
        exact ⟨_, rfl⟩
  obtain ⟨patch, hpatch⟩ := hok
  rw [patchOf, hpatch]

/-- The nodes go into the maps one after the other. -/
theorem foldlM_emplaceNode (h : ∀ node ∈ nodes, PatchNode node) (maps : PatchMaps) :
    nodes.foldlM PatchMaps.emplaceNode maps =
      .ok ((nodes.filterMap patchOf).foldl PatchMaps.emplace maps) := by
  induction nodes generalizing maps with
  | nil => rfl
  | cons node nodes ih =>
    obtain ⟨hnode, hnodes⟩ := List.forall_mem_cons.mp h
    rw [List.foldlM_cons, PatchMaps.emplaceNode, hnode.parse, List.filterMap_cons]
    cases patchOf node with
    | none => exact ih hnodes maps
    | some patch => exact ih hnodes (maps.emplace patch)

theorem contentPatch_deleted : contentPatch patches id = some .deleted ↔
    (patches.filter fun p => p.messageId == id && !p.type.isPinRelated).any
      (·.type == .deleted) = true := by
  rw [contentPatch]
  constructor
  · intro h
    by_contra hnone
    rw [if_neg hnone] at h
    obtain ⟨p, hp, htype⟩ := Option.map_eq_some_iff.mp h
    exact hnone (List.any_eq_true.mpr ⟨p, List.mem_of_getLast? hp, beq_iff_eq.mpr htype⟩)
  · intro h
    rw [if_pos h]

/-- A patch of another message or of a pin changes nothing; any other one counts, unless the
message was deleted. -/
theorem contentPatch_concat (patches : List HistoryPatch) (patch : HistoryPatch) (id : Int64) :
    contentPatch (patches ++ [patch]) id =
      if patch.messageId = id ∧ patch.type.isPinRelated = false ∧
          contentPatch patches id ≠ some .deleted then some patch.type
      else contentPatch patches id := by
  by_cases hown : patch.messageId = id ∧ patch.type.isPinRelated = false
  · obtain ⟨hid, hpin⟩ := hown
    have hkeep : (patch.messageId == id && !patch.type.isPinRelated) = true := by
      rw [hid, hpin, beq_self_eq_true]
      rfl
    by_cases hdeleted : contentPatch patches id = some .deleted
    · rw [if_neg fun h => h.2.2 hdeleted, hdeleted, contentPatch_deleted, List.filter_append,
        List.any_append, contentPatch_deleted.mp hdeleted, Bool.true_or]
    · rw [if_pos ⟨hid, hpin, hdeleted⟩, contentPatch, List.filter_append, List.filter_singleton,
        hkeep, cond_true, List.any_append, List.getLast?_concat]
      have hnone := mt contentPatch_deleted.mpr hdeleted
      rw [Bool.not_eq_true] at hnone
      rw [hnone, Bool.false_or, List.any_cons, List.any_nil, Bool.or_false]
      split
      · rename_i htype
        rw [beq_iff_eq.mp htype]
      · rfl
  · have hdrop : (patch.messageId == id && !patch.type.isPinRelated) = false := by
      rw [Bool.eq_false_iff]
      intro h
      obtain ⟨hid, hpin⟩ := Bool.and_eq_true_iff.mp h
      exact hown ⟨beq_iff_eq.mp hid, (Bool.not_eq_true' _).mp hpin⟩
    rw [if_neg fun h => hown ⟨h.1, h.2.1⟩, contentPatch, List.filter_append,
      List.filter_singleton, hdrop, cond_false, List.append_nil]
    rfl

/-- What the maps hold after some patches. -/
structure PatchMaps.Filled (maps : PatchMaps) (patches : List HistoryPatch) : Prop where
  content : ∀ id, (maps.contentRelated.find? id).map (·.type) = contentPatch patches id
  contents : ∀ p ∈ maps.contentRelated.items, p.type.isPinRelated = false
  pins : ∀ p ∈ maps.pinRelated.items, p.type.isPinRelated = true

theorem PatchMaps.filled_empty : PatchMaps.Filled {} [] where
  content _ := rfl
  contents _ h := absurd h List.not_mem_nil
  pins _ h := absurd h List.not_mem_nil

theorem PatchMaps.Filled.emplace (h : maps.Filled patches) (patch : HistoryPatch) :
    (maps.emplace patch).Filled (patches ++ [patch]) := by
  by_cases hpin : patch.type.isPinRelated = true
  · rw [PatchMaps.emplace, if_pos hpin]
    refine ⟨fun id => ?_, h.contents, fun p hp => ?_⟩
    · rw [contentPatch_concat, if_neg fun hown => absurd hpin (Bool.eq_false_iff.mp hown.2.1)]
      exact h.content id
    · rcases KeyMap.mem_put.mp hp with rfl | ⟨hp, -⟩
      · exact hpin
      · exact h.pins p hp
  · have hput : ∀ p ∈ (maps.contentRelated.put patch).items, p.type.isPinRelated = false := by
      intro p hp
      rcases KeyMap.mem_put.mp hp with rfl | ⟨hp, -⟩
      · exact Bool.eq_false_iff.mpr hpin
      · exact h.contents p hp
    have hcontent : contentPatch patches patch.messageId ≠ some .deleted → ∀ id,
        ((maps.contentRelated.put patch).find? id).map (·.type) =
          contentPatch (patches ++ [patch]) id := by
      intro hlive id
      rw [KeyMap.find_put, contentPatch_concat]
      by_cases hid : patch.messageId = id
      · rw [if_pos hid, if_pos ⟨hid, Bool.eq_false_iff.mpr hpin, hid ▸ hlive⟩]
        rfl
      · rw [if_neg hid, if_neg fun hown => hid hown.1]
        exact h.content id
    have hfound := h.content patch.messageId
    rw [PatchMaps.emplace, if_neg hpin]
    cases hfind : maps.contentRelated.find? patch.messageId with
    | none =>
      rw [hfind] at hfound
      refine ⟨hcontent ?_, hput, h.pins⟩
      rw [← hfound]
      exact (Option.some_ne_none _).symm
    | some it =>
      rw [hfind, Option.map_some] at hfound
      dsimp only
      by_cases hlive : it.type ≠ .deleted
      · rw [if_pos hlive]
        exact ⟨hcontent fun heq => hlive (Option.some.inj (hfound.trans heq)), hput, h.pins⟩
      · rw [if_neg hlive]
        refine ⟨fun id => ?_, h.contents, h.pins⟩
        rw [contentPatch_concat, if_neg]
        · exact h.content id
        · rintro ⟨rfl, -, hnone⟩
          exact hnone (hfound ▸ congrArg some (not_not.mp hlive))

theorem PatchMaps.filled_foldl (patches : List HistoryPatch) :
    (patches.foldl PatchMaps.emplace {}).Filled patches := by
  induction patches using List.reverseRecOn with
  | nil => exact PatchMaps.filled_empty
  | append_singleton patches patch ih =>
    rw [List.foldl_append]
    exact ih.emplace patch

end Parse

section Apply

variable {unset : Bool} {block : List HistoryMessage} {patch : HistoryPatch} {h : PatchedHistory}
  {patches : List HistoryPatch} {id : Int64}

theorem msgid_of_mem_patchMessage {type : PatchType} {m : HistoryMessage}
    (hm : m ∈ patchMessage unset block id type) : m.msgid = id := by
  cases type <;> first | exact absurd hm List.not_mem_nil | rw [List.mem_singleton.mp hm]; rfl

theorem applyPatch_block (unset : Bool) (h : PatchedHistory) (patch : HistoryPatch) :
    (h.applyPatch unset patch).block =
      h.block ++ patchMessage unset h.block patch.messageId patch.type := by
  rw [PatchedHistory.applyPatch]
  cases patch.type <;> first | exact (List.append_nil _).symm | rfl

/-- Messages of other ids change no event. -/
theorem eventOf_append {more : List HistoryMessage} (hmore : ∀ m ∈ more, m.msgid ≠ id) :
    eventOf (block ++ more) id = eventOf block id := by
  have hnone : more.find? (fun m => m.msgid == id) = none :=
    List.find?_eq_none.mpr fun m hm heq => hmore m hm (beq_iff_eq.mp heq)
  rw [eventOf, List.find?_append, hnone, Option.or_none]
  rfl

theorem patchMessage_congr {block' : List HistoryMessage} (type : PatchType)
    (hevent : eventOf block' id = eventOf block id) :
    patchMessage unset block' id type = patchMessage unset block id type := by
  cases type <;> first | rfl | exact congrArg (fun e => [makeModifiedPatch id [] unset e]) hevent

/-- Patches of different messages see only the events of the block they started from. -/
theorem applyPatches_contents (hsorted : patches.Pairwise fun p q => p.messageId < q.messageId)
    (hnew : ∀ p ∈ patches, eventOf h.block p.messageId = eventOf block p.messageId) :
    (h.applyPatches unset patches).block =
      h.block ++ patches.flatMap fun p => patchMessage unset block p.messageId p.type := by
  induction patches generalizing h with
  | nil => exact (List.append_nil _).symm
  | cons patch patches ih =>
    obtain ⟨hfirst, hsorted⟩ := List.pairwise_cons.mp hsorted
    obtain ⟨hpatch, hpatches⟩ := List.forall_mem_cons.mp hnew
    have hstep := applyPatch_block unset h patch
    rw [PatchedHistory.applyPatches, List.foldl_cons, ← PatchedHistory.applyPatches, ih hsorted,
      hstep, patchMessage_congr patch.type hpatch, List.flatMap_cons, List.append_assoc]
    intro p hp
    rw [hstep, eventOf_append]
    · exact hpatches p hp
    · intro m hm
      rw [msgid_of_mem_patchMessage hm]
      exact ne_of_lt (hfirst p hp)

theorem applyPatches_pins (hpins : ∀ p ∈ patches, p.type.isPinRelated = true) :
    (h.applyPatches unset patches).block = h.block := by
  induction patches generalizing h with
  | nil => rfl
  | cons patch patches ih =>
    obtain ⟨hpatch, hpatches⟩ := List.forall_mem_cons.mp hpins
    rw [PatchedHistory.applyPatches, List.foldl_cons, ← PatchedHistory.applyPatches, ih hpatches,
      applyPatch_block]
    obtain ⟨type, messageId⟩ := patch
    cases type <;> first | exact List.append_nil _ | exact absurd hpatch Bool.false_ne_true

/-- For each message exactly one patch is appended, which is the deletion if there is one, and else
the last patch of its contents. -/
theorem patches_appended {nodes : List JsonValue} (hnodes : ∀ node ∈ nodes, PatchNode node)
    (unset : Bool) (h : PatchedHistory) :
    ∃ patches, parsePatchesJson (.array nodes) = .ok patches ∧ ∃ appended,
      (h.applyPatches unset patches).block = h.block ++ appended ∧
        ∀ id, appended.filter (·.msgid == id) =
          ((contentPatch (nodes.filterMap patchOf) id).map
            (patchMessage unset h.block id)).getD [] := by
  have hfilled := PatchMaps.filled_foldl (nodes.filterMap patchOf)
  generalize hmaps : (nodes.filterMap patchOf).foldl PatchMaps.emplace {} = maps at hfilled
  refine ⟨maps.items, ?_, maps.contentRelated.items.flatMap fun p =>
    patchMessage unset h.block p.messageId p.type, ?_, fun id => ?_⟩
  · rw [parsePatchesJson, foldlM_emplaceNode hnodes, hmaps]
    rfl
  · rw [PatchMaps.items, PatchedHistory.applyPatches, List.foldl_append,
      ← PatchedHistory.applyPatches, ← PatchedHistory.applyPatches, applyPatches_pins hfilled.pins]
    exact applyPatches_contents maps.contentRelated.sorted fun _ _ => rfl
  · rw [KeyMap.filter_flatMap maps.contentRelated fun p _ m hm => msgid_of_mem_patchMessage hm,
      ← hfilled.content id]
    cases hfind : maps.contentRelated.find? id with
    | none => rfl
    | some p =>
      obtain ⟨-, rfl⟩ := KeyMap.find_mem hfind
      rfl

def patchNodeOf (msgId : Int) (type : String) : JsonValue :=
  .object [("msgId", .int msgId), ("type", .string (bytesOf type))]

def editedThenUpdated : List JsonValue := [patchNodeOf 5 "modify", patchNodeOf 5 "update"]

theorem patches_appended_edited :
    ∃ patches, parsePatchesJson (.array editedThenUpdated) = .ok patches ∧ ∃ appended,
      (PatchedHistory.applyPatches { block := [] } false patches).block = [] ++ appended ∧
        ∀ id, appended.filter (·.msgid == id) =
          ((contentPatch (editedThenUpdated.filterMap patchOf) id).map
            (patchMessage false [] id)).getD [] := by
  refine patches_appended (fun node hnode => ?_) false { block := [] }
  have hread : ∀ type, PatchNode (patchNodeOf 5 type) := fun type =>
    ⟨_, rfl, fun msgId text hid htext =>
      ⟨⟨5, (Option.some.inj hid).symm, by decide, by decide⟩, _, (Option.some.inj htext).symm⟩⟩
  rcases List.mem_cons.mp hnode with rfl | hnode
  · exact hread "modify"
  · rw [List.mem_singleton.mp hnode]
    exact hread "update"

/-- An update that follows an edit takes its place. -/
theorem edit_hidden_by_update :
    parsePatchesJson (.array editedThenUpdated) =
        .ok [{ type := .updated, messageId := 5 }] ∧
      (PatchedHistory.applyPatches { block := [] } false
        [{ type := .updated, messageId := 5 }]).block.any (·.flags.modified) = false := by
  exact ⟨rfl, rfl⟩

end Apply

end Icq.Wim
