import Icq.Gui.MessageKey
import Mathlib.Order.Lattice

/-! Which messages of a dialog count as read, as they are shown. -/

namespace Icq.Gui

structure ReadState where
  unreadCount : Int := 0
  lastReadMention : Int := -1
  lastMsgId : Int := -1
  yoursLastRead : Int := -1
  unreadMentionsCount : Int := 0

structure LastReads where
  text : Int := -1
  mention : Int := -1
  flag : Bool := false

/-- What the reader tells the page, and what it sends to the core. -/
inductive ReadSignal
  | mentionRead (messageId : Int)
  | lastReadMention (messageId : Int)
  | partialLastRead (messageId : Int)
deriving DecidableEq

structure MessageReader where
  aimId : QString := []
  enabled : Bool := true
  lastReads : LastReads := {}
  mentions : List MessageBuddy := []
  /-- A set. -/
  pendingVisibleMessages : List Int := []

namespace MessageReader

variable (r : MessageReader)

def onReadAllMentions : MessageReader × List ReadSignal :=
  ({ r with mentions := [] }, r.mentions.map fun m => .mentionRead m.id)

def onReadAllMentionsLess (messageId : Int) : MessageReader × List ReadSignal :=
  let kept := fun m : MessageBuddy => decide (messageId < m.id ∨ messageId ≤ 0)
  ({ r with mentions := r.mentions.filter kept },
    (r.mentions.filter (!kept ·)).map fun m => .mentionRead m.id)

def onMessageItemReadVisible (dlgState : ReadState) (messageId : Int) :
    MessageReader × List ReadSignal :=
  if messageId = -1 then (r, [])
  else
    let (r, signals) :=
      if dlgState.lastMsgId = messageId then r.onReadAllMentions
      else r.onReadAllMentionsLess messageId
    let reads := r.lastReads
    let lastReadMention := max reads.mention dlgState.lastReadMention
    let yoursLastRead := dlgState.yoursLastRead
    let needResetUnreadCount := decide (dlgState.unreadCount ≠ 0 ∧ yoursLastRead = messageId)
    if yoursLastRead < messageId ∨ needResetUnreadCount then
      if min reads.mention reads.text < messageId ∨ needResetUnreadCount then
        let mention := max messageId (max reads.mention reads.text)
        ({ r with lastReads := { reads with mention, text := mention } },
          signals ++ [.partialLastRead mention])
      else (r, signals)
    else if lastReadMention < messageId then
      ({ r with lastReads := { reads with mention := messageId } },
        signals ++ [.lastReadMention messageId])
    else (r, signals)

def setDlgState (dlgState : ReadState) : MessageReader × List ReadSignal :=
  let mention := max r.lastReads.mention dlgState.lastReadMention
  let text := dlgState.yoursLastRead
  let mention := if !r.lastReads.flag ∧ mention = -1 then text else mention
  let r := { r with lastReads := { text, mention, flag := true } }
  if dlgState.unreadMentionsCount = 0 then r.onReadAllMentions else (r, [])

def setEnabled (value : Bool) : MessageReader := { r with enabled := value }

/-- An item came into view or went out of it. With `true` a timer is started for it. -/
def onMessageItemRead (messageId : Int) (visible : Bool) : MessageReader × Bool :=
  if !r.enabled then (r, false)
  else if !visible then
    ({ r with pendingVisibleMessages := r.pendingVisibleMessages.erase messageId }, false)
  else if messageId ∈ r.pendingVisibleMessages then (r, false)
  else ({ r with pendingVisibleMessages := messageId :: r.pendingVisibleMessages }, true)

/-- The item's time is up, and it counts unless it has gone out of view. -/
def onReadTimeout (dlgState : ReadState) (messageId : Int) : MessageReader × List ReadSignal :=
  if messageId ∈ r.pendingVisibleMessages then
    let r := { r with pendingVisibleMessages := r.pendingVisibleMessages.erase messageId }
    if r.enabled then r.onMessageItemReadVisible dlgState messageId else (r, [])
  else (r, [])

/-- The first mention of a message is taken out. -/
def deletedOne (message : MessageBuddy) : MessageReader × List ReadSignal :=
  if r.mentions.any (·.id == message.id) then
    ({ r with mentions := r.mentions.eraseP (·.id == message.id) }, [.mentionRead message.id])
  else (r, [])

def deleted (messages : List MessageBuddy) : MessageReader × List ReadSignal :=
  if r.mentions.isEmpty then (r, [])
  else
    messages.foldl (fun read message =>
      ((read.1.deletedOne message).1, read.2 ++ (read.1.deletedOne message).2)) (r, [])

/-- The state is that of the contact in the list of recent dialogs. -/
def mentionMe (contact : QString) (state : ReadState) (mention : MessageBuddy) : MessageReader :=
  if contact ≠ r.aimId then r
  else if mention.id ≤ state.yoursLastRead ∨ mention.id ≤ state.lastReadMention then r
  else if r.mentions.any (·.id == mention.id) then r
  else { r with mentions := r.mentions ++ [mention] }

end MessageReader

inductive ReaderAction
  | setDlgState (dlgState : ReadState)
  | readVisible (messageId : Int)
  | itemRead (messageId : Int) (visible : Bool)
  | timeout (messageId : Int)
  | readAllMentions
  | readAllMentionsLess (messageId : Int)
  | mentionMe (contact : QString) (state : ReadState) (mention : MessageBuddy)
  | deleted (messages : List MessageBuddy)
  | setEnabled (value : Bool)

/-- A reader, the latest state of its dialog, the timers that run and everything it sent. -/
structure Reading where
  reader : MessageReader := {}
  dlgState : ReadState := {}
  timers : List Int := []
  sent : List ReadSignal := []

/-- The positions that are sent for the text. -/
def partialReads (signals : List ReadSignal) : List Int :=
  signals.filterMap fun
    | .partialLastRead messageId => some messageId
    | _ => none

namespace Reading

def act (s : Reading) : ReaderAction → Reading × List ReadSignal
  | .setDlgState dlgState =>
    let (reader, signals) := s.reader.setDlgState dlgState
    ({ s with reader, dlgState, sent := s.sent ++ signals }, signals)
  | .readVisible messageId =>
    let (reader, signals) := s.reader.onMessageItemReadVisible s.dlgState messageId
    ({ s with reader, sent := s.sent ++ signals }, signals)
  | .itemRead messageId visible =>
    let (reader, started) := s.reader.onMessageItemRead messageId visible
    ({ s with reader, timers := if started then messageId :: s.timers else s.timers }, [])
  | .timeout messageId =>
    if messageId ∈ s.timers then
      let (reader, signals) := s.reader.onReadTimeout s.dlgState messageId
      ({ s with reader, timers := s.timers.erase messageId, sent := s.sent ++ signals }, signals)
    else (s, [])
  | .readAllMentions =>
    let (reader, signals) := s.reader.onReadAllMentions
    ({ s with reader, sent := s.sent ++ signals }, signals)
  | .readAllMentionsLess messageId =>
    let (reader, signals) := s.reader.onReadAllMentionsLess messageId
    ({ s with reader, sent := s.sent ++ signals }, signals)
  | .mentionMe contact state mention =>
    ({ s with reader := s.reader.mentionMe contact state mention }, [])
  | .deleted messages =>
    let (reader, signals) := s.reader.deleted messages
    ({ s with reader, sent := s.sent ++ signals }, signals)
  | .setEnabled value => ({ s with reader := s.reader.setEnabled value }, [])

def run (aimId : QString) (actions : List ReaderAction) : Reading :=
  actions.foldl (fun s action => (s.act action).1) { reader := { aimId } }

/-- What is sent by an action after others. -/
def sends (aimId : QString) (before : List ReaderAction) (action : ReaderAction) : List Int :=
  partialReads ((run aimId before).act action).2

end Reading

namespace ReaderAction

/-- The ids that were shown, and those that the server says were read. -/
def read : ReaderAction → List Int
  | setDlgState dlgState => [dlgState.yoursLastRead]
  | readVisible messageId => [messageId]
  | itemRead messageId true => [messageId]
  | _ => []

/-- The same, and the mentions that the server says were read. -/
def readOrMentioned : ReaderAction → List Int
  | setDlgState dlgState => [dlgState.yoursLastRead, dlgState.lastReadMention]
  | action => action.read

end ReaderAction

/-- Everything sent is at most one of the ids reported so far, and not below what was sent before. -/
def MarksWithin (reports : ReaderAction → List Int) (aimId : QString) (before : List ReaderAction)
    (action : ReaderAction) : Prop :=
  ∀ id ∈ Reading.sends aimId before action,
    (∃ x ∈ (before ++ [action]).flatMap reports, id ≤ x) ∧
      ∀ earlier ∈ partialReads (Reading.run aimId before).sent, earlier ≤ id

section Sends

variable {r : MessageReader} {d : ReadState} {messageId : Int}

@[simp] theorem partialReads_append (a b : List ReadSignal) :
    partialReads (a ++ b) = partialReads a ++ partialReads b := List.filterMap_append

theorem partialReads_mentions (l : List MessageBuddy) :
    partialReads (l.map fun m => .mentionRead m.id) = [] := by
  induction l with
  | nil => rfl
  | cons m l ih => exact ih

namespace MessageReader

/-- The mentions do not matter for the positions. -/
theorem readMentions_positions (r : MessageReader) (d : ReadState) (messageId : Int) :
    let read := if d.lastMsgId = messageId then r.onReadAllMentions
      else r.onReadAllMentionsLess messageId
    read.1.lastReads = r.lastReads ∧ read.1.pendingVisibleMessages = r.pendingVisibleMessages ∧
      partialReads read.2 = [] := by
  dsimp only
  split
  · exact ⟨rfl, rfl, partialReads_mentions _⟩
  · exact ⟨rfl, rfl, partialReads_mentions _⟩

/-- Either nothing is sent, and the position of the mentions may go up to the id, or both positions
become one that is sent. -/
theorem onMessageItemReadVisible_cases (r : MessageReader) (d : ReadState) (messageId : Int) :
    let result := r.onMessageItemReadVisible d messageId
    (partialReads result.2 = [] ∧ (result.1.lastReads = r.lastReads ∨
        result.1.lastReads = { r.lastReads with mention := messageId } ∧
          r.lastReads.mention < messageId)) ∨
      ((d.yoursLastRead < messageId ∨ d.unreadCount ≠ 0) ∧
        ∃ mention, mention = max messageId (max r.lastReads.mention r.lastReads.text) ∧
          partialReads result.2 = [mention] ∧
            result.1.lastReads = { r.lastReads with mention, text := mention }) := by
  obtain ⟨hreads, -, hmentions⟩ := readMentions_positions r d messageId
  dsimp only
  rw [onMessageItemReadVisible]
  by_cases hnone : messageId = -1
  · rw [if_pos hnone]
    exact .inl ⟨rfl, .inl rfl⟩
  rw [if_neg hnone]
  generalize (if d.lastMsgId = messageId then r.onReadAllMentions
    else r.onReadAllMentionsLess messageId) = read at hreads hmentions ⊢
  obtain ⟨reader, signals⟩ := read
  dsimp only at hreads hmentions ⊢
  rw [hreads]
  by_cases htext : d.yoursLastRead < messageId ∨
      decide (d.unreadCount ≠ 0 ∧ d.yoursLastRead = messageId) = true
  · rw [if_pos htext]
    split
    · refine .inr ⟨htext.imp_right fun h => (decide_eq_true_iff.mp h).1, _, rfl, ?_, rfl⟩
      rw [partialReads_append, hmentions]
      rfl
    · exact .inl ⟨hmentions, .inl hreads⟩
  · rw [if_neg htext]
    split
    · rename_i hmention
      refine .inl ⟨?_, .inr ⟨rfl, lt_of_le_of_lt (le_max_left _ _) hmention⟩⟩
      rw [partialReads_append, hmentions]
      rfl
    · exact .inl ⟨hmentions, .inl hreads⟩

theorem setDlgState_reads (r : MessageReader) (d : ReadState) :
    (r.setDlgState d).1.lastReads =
        { text := d.yoursLastRead
          mention := if !r.lastReads.flag ∧ max r.lastReads.mention d.lastReadMention = -1 then
            d.yoursLastRead else max r.lastReads.mention d.lastReadMention
          flag := true } ∧ partialReads (r.setDlgState d).2 = [] := by
  rw [setDlgState]
  split
  · exact ⟨rfl, partialReads_mentions _⟩
  · exact ⟨rfl, rfl⟩

theorem onMessageItemReadVisible_pending (r : MessageReader) (d : ReadState) (messageId : Int) :
    (r.onMessageItemReadVisible d messageId).1.pendingVisibleMessages =
      r.pendingVisibleMessages := by
  obtain ⟨-, hpending, -⟩ := readMentions_positions r d messageId
  rw [onMessageItemReadVisible]
  by_cases hnone : messageId = -1
  · rw [if_pos hnone]
  rw [if_neg hnone]
  generalize (if d.lastMsgId = messageId then r.onReadAllMentions
    else r.onReadAllMentionsLess messageId) = read at hpending ⊢
  obtain ⟨reader, signals⟩ := read
  dsimp only at hpending ⊢
  split_ifs <;> exact hpending

theorem setDlgState_pending (r : MessageReader) (d : ReadState) :
    (r.setDlgState d).1.pendingVisibleMessages = r.pendingVisibleMessages := by
  rw [setDlgState]
  split_ifs <;> rfl

theorem deletedOne_quiet (r : MessageReader) (message : MessageBuddy) :
    (r.deletedOne message).1.lastReads = r.lastReads ∧
      (r.deletedOne message).1.pendingVisibleMessages = r.pendingVisibleMessages ∧
      partialReads (r.deletedOne message).2 = [] := by
  rw [deletedOne]
  split_ifs <;> exact ⟨rfl, rfl, rfl⟩

/-- Mentions are taken out, and nothing else changes. -/
theorem deleted_quiet (r : MessageReader) (messages : List MessageBuddy) :
    (r.deleted messages).1.lastReads = r.lastReads ∧
      (r.deleted messages).1.pendingVisibleMessages = r.pendingVisibleMessages ∧
      partialReads (r.deleted messages).2 = [] := by
  rw [deleted]
  split_ifs
  · exact ⟨rfl, rfl, rfl⟩
  induction messages using List.reverseRecOn with
  | nil => exact ⟨rfl, rfl, rfl⟩
  | append_singleton messages message ih =>
    rw [List.foldl_append, List.foldl_cons, List.foldl_nil]
    generalize messages.foldl (fun read message =>
      ((read.1.deletedOne message).1, read.2 ++ (read.1.deletedOne message).2)) (r, []) = read at ih ⊢
    obtain ⟨hreads, hpending, hnone⟩ := ih
    obtain ⟨hreads', hpending', hnone'⟩ := read.1.deletedOne_quiet message
    refine ⟨hreads'.trans hreads, hpending'.trans hpending, ?_⟩
    rw [partialReads_append, hnone, hnone', List.append_nil]

theorem mentionMe_quiet (r : MessageReader) (contact : QString) (state : ReadState)
    (mention : MessageBuddy) : (r.mentionMe contact state mention).lastReads = r.lastReads ∧
      (r.mentionMe contact state mention).pendingVisibleMessages = r.pendingVisibleMessages := by
  rw [mentionMe]
  split_ifs <;> exact ⟨rfl, rfl⟩

/-- What waits for its time was shown. -/
theorem onMessageItemRead_pending {r : MessageReader} {messageId id : Int} {visible : Bool}
    (h : id ∈ (r.onMessageItemRead messageId visible).1.pendingVisibleMessages) :
    id ∈ r.pendingVisibleMessages ∨ visible = true ∧ id = messageId := by
  rw [onMessageItemRead] at h
  split_ifs at h with _ hvisible
  · exact .inl h
  · exact .inl (List.mem_of_mem_erase h)
  · exact .inl h
  · rcases List.mem_cons.mp h with rfl | h
    · exact .inr ⟨by simpa using hvisible, rfl⟩
    · exact .inl h

theorem onMessageItemRead_reads (r : MessageReader) (messageId : Int) (visible : Bool) :
    (r.onMessageItemRead messageId visible).1.lastReads = r.lastReads := by
  rw [onMessageItemRead]
  split_ifs <;> rfl

end MessageReader

end Sends

/-- Below one of the reported ids, or still as it was before the first state. -/
def Reported (flag : Bool) (reports : List Int) (position : Int) : Prop :=
  (∃ x ∈ reports, position ≤ x) ∨ (flag = false ∧ position = -1)

/-- What holds of the positions of a reader after the reports. -/
structure Positions (s : Reading) (reports : List Int) : Prop where
  mention : Reported s.reader.lastReads.flag reports s.reader.lastReads.mention
  text : Reported s.reader.lastReads.flag reports s.reader.lastReads.text
  fresh : s.reader.lastReads.flag = false → s.dlgState.yoursLastRead = -1 ∧
    s.dlgState.unreadCount = 0 ∧ ∀ id ∈ partialReads s.sent, -1 < id
  sent : ∀ id ∈ partialReads s.sent, id ≤ s.reader.lastReads.mention
  pending : ∀ id ∈ s.reader.pendingVisibleMessages, id ∈ reports

/-- What an action may send after the reports. -/
def SendsWithin (s : Reading) (reports : List Int) (signals : List ReadSignal) : Prop :=
  ∀ id ∈ partialReads signals, (∃ x ∈ reports, id ≤ x) ∧
    ∀ earlier ∈ partialReads s.sent, earlier ≤ id

section Run

variable {s s' : Reading} {reports : List Int} {d : ReadState} {messageId : Int}

theorem Reported.append {flag : Bool} {position : Int} (h : Reported flag reports position)
    (more : List Int) : Reported flag (reports ++ more) position :=
  h.imp (fun ⟨x, hx, hle⟩ => ⟨x, List.mem_append_left _ hx, hle⟩) fun h => h

theorem Reported.exists_le {flag : Bool} {position : Int} (h : Reported flag reports position)
    (hself : messageId ∈ reports) (hstart : flag = false → -1 < messageId) :
    ∃ x ∈ reports, position ≤ x := by
  rcases h with ⟨x, hx, hle⟩ | ⟨hf, rfl⟩
  · exact ⟨x, hx, hle⟩
  · exact ⟨messageId, hself, le_of_lt (hstart hf)⟩

theorem SendsWithin.none {signals : List ReadSignal} (h : partialReads signals = []) :
    SendsWithin s reports signals := fun _ hid => absurd (h ▸ hid) List.not_mem_nil

theorem Positions.append (h : Positions s reports) (more : List Int) :
    Positions s (reports ++ more) :=
  ⟨h.mention.append more, h.text.append more, h.fresh, h.sent,
    fun id hid => List.mem_append_left _ (h.pending id hid)⟩

/-- Nothing is sent, and the position of the mentions does not go back. -/
theorem Positions.raised (h : Positions s reports) {mention : Int}
    (hdlg : s'.dlgState = s.dlgState) (hsent : partialReads s'.sent = partialReads s.sent)
    (hreads : s'.reader.lastReads = { s.reader.lastReads with mention })
    (hle : s.reader.lastReads.mention ≤ mention)
    (hmention : Reported s.reader.lastReads.flag reports mention)
    (hpending : ∀ id ∈ s'.reader.pendingVisibleMessages, id ∈ reports) :
    Positions s' reports := by
  refine ⟨?_, ?_, fun hf => ?_, fun id hid => ?_, hpending⟩
  · rw [hreads]
    exact hmention
  · rw [hreads]
    exact h.text
  · rw [hdlg, hsent]
    rw [hreads] at hf
    exact h.fresh hf
  · rw [hreads]
    exact (h.sent id (hsent ▸ hid)).trans hle

/-- Nothing is sent, and the positions stay. -/
theorem Positions.quiet (h : Positions s reports) (hdlg : s'.dlgState = s.dlgState)
    (hsent : partialReads s'.sent = partialReads s.sent)
    (hreads : s'.reader.lastReads = s.reader.lastReads)
    (hpending : ∀ id ∈ s'.reader.pendingVisibleMessages, id ∈ reports) : Positions s' reports :=
  h.raised hdlg hsent hreads (le_refl _) h.mention hpending

theorem positions_start (aimId : QString) : Positions { reader := { aimId } } [] where
  mention := .inr ⟨rfl, rfl⟩
  text := .inr ⟨rfl, rfl⟩
  fresh _ := ⟨rfl, rfl, fun _ h => absurd h List.not_mem_nil⟩
  sent _ h := absurd h List.not_mem_nil
  pending _ h := absurd h List.not_mem_nil

theorem Positions.setDlgState (h : Positions s reports) (d : ReadState) :
    Positions (s.act (.setDlgState d)).1 (reports ++ [d.yoursLastRead, d.lastReadMention]) := by
  obtain ⟨hreads, hnone⟩ := s.reader.setDlgState_reads d
  have hyours : d.yoursLastRead ∈ reports ++ [d.yoursLastRead, d.lastReadMention] := by simp
  have hmentioned : d.lastReadMention ∈ reports ++ [d.yoursLastRead, d.lastReadMention] := by simp
  have hsent : partialReads (s.act (.setDlgState d)).1.sent = partialReads s.sent := by
    show partialReads (s.sent ++ (s.reader.setDlgState d).2) = _
    rw [partialReads_append, hnone, List.append_nil]
  have hflag : (s.act (.setDlgState d)).1.reader.lastReads.flag = true :=
    congrArg LastReads.flag hreads
  have hmention : (s.act (.setDlgState d)).1.reader.lastReads.mention = _ :=
    congrArg LastReads.mention hreads
  have htext : (s.act (.setDlgState d)).1.reader.lastReads.text = d.yoursLastRead :=
    congrArg LastReads.text hreads
  dsimp only at hmention
  refine ⟨?_, .inl ⟨_, hyours, le_of_eq htext⟩, fun hf => ?_, fun id hid => ?_, fun id hid => ?_⟩
  · rw [hmention]
    split
    · exact .inl ⟨_, hyours, le_refl _⟩
    · rename_i hkept
      rcases le_total s.reader.lastReads.mention d.lastReadMention with hle | hle
      · exact .inl ⟨_, hmentioned, le_of_eq (max_eq_right hle)⟩
      · rcases h.mention with ⟨x, hx, hxle⟩ | ⟨hf, hstart⟩
        · exact .inl ⟨x, List.mem_append_left _ hx, by rw [max_eq_left hle]; exact hxle⟩
        · exact absurd ⟨by rw [hf]; rfl, (max_eq_left hle).trans hstart⟩ hkept
  · exact absurd (hf.symm.trans hflag) Bool.false_ne_true
  · rw [hsent] at hid
    have hle := h.sent id hid
    rw [hmention]
    split
    · rename_i hfirst
      -- whatever was sent before the first state is above its default
      have hf : s.reader.lastReads.flag = false := by simpa using hfirst.1
      have hpos := (h.fresh hf).2.2 id hid
      have hmax := le_max_left s.reader.lastReads.mention d.lastReadMention
      omega
    · exact le_trans hle (le_max_left _ _)
  · have hpending := s.reader.setDlgState_pending d
    exact List.mem_append_left _ (h.pending id (hpending ▸ hid))

/-- A message that is shown gives at most one position, the greatest of those there are. -/
theorem Positions.readVisible (h : Positions s reports) (hself : messageId ∈ reports) :
    Positions (s.act (.readVisible messageId)).1 reports ∧
      SendsWithin s reports (s.act (.readVisible messageId)).2 := by
  have hsent : (s.act (.readVisible messageId)).1.sent =
      s.sent ++ (s.act (.readVisible messageId)).2 := rfl
  have hpending : ∀ id ∈ (s.act (.readVisible messageId)).1.reader.pendingVisibleMessages,
      id ∈ reports := by
    have hsame := s.reader.onMessageItemReadVisible_pending s.dlgState messageId
    exact fun id hid => h.pending id (hsame ▸ hid)
  have hcases := s.reader.onMessageItemReadVisible_cases s.dlgState messageId
  dsimp only at hcases
  rcases hcases with ⟨hnone, hreads⟩ | ⟨hread, mention, hmax, hone, hreads⟩
  · have hold : partialReads (s.act (.readVisible messageId)).1.sent = partialReads s.sent := by
      rw [hsent, partialReads_append]
      show _ ++ partialReads (s.reader.onMessageItemReadVisible s.dlgState messageId).2 = _
      rw [hnone, List.append_nil]
    refine ⟨?_, .none hnone⟩
    rcases hreads with hreads | ⟨hreads, hless⟩
    · exact h.quiet rfl hold hreads hpending
    · exact h.raised rfl hold hreads (le_of_lt hless) (.inl ⟨_, hself, le_refl _⟩) hpending
  · have hnew : (s.act (.readVisible messageId)).1.reader.lastReads =
        { s.reader.lastReads with mention, text := mention } := hreads
    have hsends : partialReads (s.act (.readVisible messageId)).2 = [mention] := hone
    have hstart : s.reader.lastReads.flag = false → -1 < messageId := by
      intro hf
      obtain ⟨hyours, hunread, -⟩ := h.fresh hf
      rcases hread with hlt | hne
      · rwa [hyours] at hlt
      · exact absurd hunread hne
    have hmention : ∃ x ∈ reports, mention ≤ x := by
      rcases max_choice messageId (max s.reader.lastReads.mention s.reader.lastReads.text) with hm | hm
      · exact ⟨messageId, hself, le_of_eq (hmax.trans hm)⟩
      · rcases max_choice s.reader.lastReads.mention s.reader.lastReads.text with hm' | hm'
        · rw [hmax, hm, hm']
          exact h.mention.exists_le hself hstart
        · rw [hmax, hm, hm']
          exact h.text.exists_le hself hstart
    have hup : s.reader.lastReads.mention ≤ mention := by
      rw [hmax]
      exact le_trans (le_max_left _ _) (le_max_right _ _)
    have hall : ∀ id ∈ partialReads (s.act (.readVisible messageId)).1.sent,
        id ∈ partialReads s.sent ∨ id = mention := by
      intro id hid
      rw [hsent, partialReads_append, hsends] at hid
      exact (List.mem_append.mp hid).imp_right fun hid => List.mem_singleton.mp hid
    refine ⟨⟨?_, ?_, fun hf => ?_, fun id hid => ?_, hpending⟩, fun id hid => ?_⟩
    · rw [hnew]
      exact .inl hmention
    · rw [hnew]
      exact .inl hmention
    · rw [hnew] at hf
      obtain ⟨hyours, hunread, hpos⟩ := h.fresh hf
      refine ⟨hyours, hunread, fun id hid => ?_⟩
      rcases hall id hid with hid | rfl
      · exact hpos id hid
      · rw [hmax]
        exact lt_of_lt_of_le (hstart hf) (le_max_left _ _)
    · rw [hnew]
      rcases hall id hid with hid | rfl
      · exact le_trans (h.sent id hid) hup
      · exact le_refl _
    · rw [hsends, List.mem_singleton] at hid
      subst hid
      exact ⟨hmention, fun earlier hearlier => le_trans (h.sent earlier hearlier) hup⟩

/-- An item whose time is up was shown before. -/
theorem Positions.timeout (h : Positions s reports) (messageId : Int) :
    Positions (s.act (.timeout messageId)).1 reports ∧
      SendsWithin s reports (s.act (.timeout messageId)).2 := by
  have hstays : ∀ s' : Reading, s'.dlgState = s.dlgState → s'.sent = s.sent →
      s'.reader.lastReads = s.reader.lastReads →
      s'.reader.pendingVisibleMessages ⊆ s.reader.pendingVisibleMessages → Positions s' reports :=
    fun s' hdlg hsent hreads hpending =>
      h.quiet hdlg (by rw [hsent]) hreads fun id hid => h.pending id (hpending hid)
  rw [Reading.act]
  by_cases htimer : messageId ∈ s.timers
  · rw [if_pos htimer, MessageReader.onReadTimeout]
    by_cases hpending : messageId ∈ s.reader.pendingVisibleMessages
    · rw [if_pos hpending]
      let taken : Reading := { s with
        reader := { s.reader with
          pendingVisibleMessages := s.reader.pendingVisibleMessages.erase messageId }
        timers := s.timers.erase messageId }
      have htaken : Positions taken reports :=
        hstays taken rfl rfl rfl (List.erase_subset)
      dsimp only
      split_ifs
      · exact htaken.readVisible (h.pending messageId hpending)
      · exact ⟨hstays _ rfl (List.append_nil _) rfl List.erase_subset, .none rfl⟩
    · rw [if_neg hpending]
      exact ⟨hstays _ rfl (List.append_nil _) rfl (List.Subset.refl _), .none rfl⟩
  · rw [if_neg htimer]
    exact ⟨h, .none rfl⟩

/-- What one action does. -/
theorem Positions.act (h : Positions s reports) (action : ReaderAction) :
    Positions (s.act action).1 (reports ++ action.readOrMentioned) ∧
      SendsWithin s (reports ++ action.readOrMentioned) (s.act action).2 := by
  have hmentions : ∀ l : List MessageBuddy,
      partialReads (s.sent ++ l.map fun m => .mentionRead m.id) = partialReads s.sent := by
    intro l
    rw [partialReads_append, partialReads_mentions, List.append_nil]
  have hreported := h.append action.readOrMentioned
  cases action with
  | setDlgState d => exact ⟨h.setDlgState d, .none (s.reader.setDlgState_reads d).2⟩
  | readVisible messageId => exact hreported.readVisible (by simp [ReaderAction.readOrMentioned, ReaderAction.read])
  | itemRead messageId visible =>
    refine ⟨hreported.quiet rfl rfl (s.reader.onMessageItemRead_reads _ _) fun id hid => ?_, .none rfl⟩
    rcases MessageReader.onMessageItemRead_pending hid with hid | ⟨rfl, rfl⟩
    · exact hreported.pending id hid
    · simp [ReaderAction.readOrMentioned, ReaderAction.read]
  | timeout messageId => exact hreported.timeout messageId
  | readAllMentions =>
    exact ⟨hreported.quiet rfl (hmentions _) rfl hreported.pending, .none (partialReads_mentions _)⟩
  | readAllMentionsLess messageId =>
    exact ⟨hreported.quiet rfl (hmentions _) rfl hreported.pending, .none (partialReads_mentions _)⟩
  | mentionMe contact state mention =>
    obtain ⟨hreads, hpending⟩ := s.reader.mentionMe_quiet contact state mention
    exact ⟨hreported.quiet rfl rfl hreads fun id hid => hreported.pending id (hpending ▸ hid), .none rfl⟩
  | deleted messages =>
    obtain ⟨hreads, hpending, hnone⟩ := s.reader.deleted_quiet messages
    have hsent : partialReads (s.sent ++ (s.reader.deleted messages).2) = partialReads s.sent := by
      rw [partialReads_append, hnone, List.append_nil]
    exact ⟨hreported.quiet rfl hsent hreads fun id hid => hreported.pending id (hpending ▸ hid),
      .none hnone⟩
  | setEnabled value => exact ⟨hreported.quiet rfl rfl rfl hreported.pending, .none rfl⟩

theorem run_concat (aimId : QString) (before : List ReaderAction) (action : ReaderAction) :
    Reading.run aimId (before ++ [action]) = ((Reading.run aimId before).act action).1 := by
  rw [Reading.run, List.foldl_append]
  rfl

theorem positions_run (aimId : QString) (before : List ReaderAction) :
    Positions (Reading.run aimId before) (before.flatMap ReaderAction.readOrMentioned) := by
  induction before using List.reverseRecOn with
  | nil => exact positions_start aimId
  | append_singleton before action ih =>
    rw [run_concat, List.flatMap_append, List.flatMap_singleton]
    exact (ih.act action).1

/-- In every run the positions sent for the text are at most the greatest id that was shown or that
the server says was read, as text or as a mention, and they never go back. -/
theorem marks_within (aimId : QString) (before : List ReaderAction) (action : ReaderAction) :
    MarksWithin ReaderAction.readOrMentioned aimId before action := by
  intro id hid
  rw [List.flatMap_append, List.flatMap_singleton]
  exact ((positions_run aimId before).act action).2 id hid

/-- A mention read elsewhere makes the position of the text pass what was shown. -/
theorem mention_passes_shown :
    ¬ ∀ before action, MarksWithin ReaderAction.read [] before action := by
  intro h
  have hsend := h [.setDlgState { yoursLastRead := 5, lastReadMention := 100 }] (.readVisible 10) 100
    (by decide)
  obtain ⟨⟨x, hx, hle⟩, -⟩ := hsend
  rcases List.mem_cons.mp hx with rfl | hx
  · exact absurd hle (by decide)
  · obtain rfl := List.mem_singleton.mp hx
    exact absurd hle (by decide)

end Run

end Icq.Gui
