import Icq.Wim.DownloadHolesRuns

/-! A search for holes that is left alone comes to an end, and then nothing is missing. -/

namespace Icq.Archive
open Icq.Lib Icq.Tools Icq.Common ArchiveIndex

/-- The message in front of another one on the server, or -1. -/
structure ServerHistory.IsPrev (server : ServerHistory) (prev id : Int64) : Prop where
  named : prev = -1 ∨ server.Has prev ∧ prev < id
  last : ∀ m, server.Has m → m < id → m ≤ prev

/-- The newest message on the server, or -1. -/
structure ServerHistory.Newest (server : ServerHistory) (id : Int64) : Prop where
  named : id = -1 ∨ server.Has id
  last : ∀ m, server.Has m → m ≤ id

/-- An index that shows nothing but what is on the server, and names in front of each message the
one that is there. -/
structure ExactIndex (server : ServerHistory) (s : ArchiveIndex) : Prop where
  issued : ∀ x ∈ s.headersIndex.items, 0 < x.id ∧ x.id ≤ server.issued
  shown : ∀ x ∈ s.headersIndex.items, x.id ∈ server.log → visible x = true
  has : ∀ x ∈ s.headersIndex.items, visible x = true → server.Has x.id
  prev : ∀ x ∈ s.headersIndex.items, visible x = true → server.IsPrev x.prevId x.id

variable {server : ServerHistory} {s s' : ArchiveIndex} {p : Int64}

theorem ExactIndex.truthful (h : ExactIndex server s) : Truthful server s where
  issued := h.issued
  shown := h.shown
  links := fun x hx hv m hm hlt => .inl ((h.prev x hx hv).last m hm hlt)

theorem ExactIndex.has_of_shows {id : Int64} (h : ExactIndex server s) (hid : s.Shows id) :
    server.Has id := by
  obtain ⟨x, hx, rfl, hv⟩ := hid
  exact h.has x hx hv

open Classical in
/-- How many messages the index lacks. -/
noncomputable def missing (server : ServerHistory) (s : ArchiveIndex) : Nat :=
  (server.log.toFinset.filter fun id => server.Has id ∧ ¬ s.Shows id).card

theorem missing_lt (hkeeps : ∀ id, server.Has id → s.Shows id → s'.Shows id) (hp : server.Has p)
    (hlacks : ¬ s.Shows p) (hshows : s'.Shows p) : missing server s' < missing server s := by
  classical
  apply Finset.card_lt_card
  rw [Finset.ssubset_iff_of_subset]
  · refine ⟨p, ?_, ?_⟩
    · simp [hp, hp.1, hlacks]
    · simp [hshows]
  · intro id hid
    simp only [Finset.mem_filter] at hid ⊢
    exact ⟨hid.1, hid.2.1, fun hold => hid.2.2 (hkeeps id hid.2.1 hold)⟩

end Icq.Archive

namespace Icq.Wim
open Icq.Lib Icq.Tools Icq.Archive ServerHistory

/-- What a search meets at a step: the clock, and what the server answers to a request. -/
structure HolesInput where
  clock : HolesClock := {}
  reply : ArchiveHole → HistoryReply

/-- The next step of a search to which the server answers. -/
def HolesStage.lone (w : Surroundings) (input : HolesInput) (a : ContactArchive) :
    HolesStage → Option (ContactArchive × HolesStage)
  | .ask round => some (a, .received round (input.reply round.hole))
  | stage => stage.next w input.clock a

/-- A search that is left alone for so many steps. -/
def drive (w : Surroundings) (inputs : Nat → HolesInput) :
    Nat → Nat → ContactArchive × HolesStage → ContactArchive × HolesStage
  | _, 0, state => state
  | time, n + 1, state =>
    match state.2.lone w (inputs time) state.1 with
    | none => state
    | some state => drive w inputs (time + 1) n state

section

variable {w : Surroundings} {inputs : Nat → HolesInput} {k n : Nat} {a a' : ContactArchive}
  {stage : HolesStage} {state : ContactArchive × HolesStage} {server : ServerHistory}
  {reply : HistoryReply} {messages : List HistoryMessage} {round : HoleRound} {hole : ArchiveHole}
  {older : Int64}

theorem drive_step (h : stage.lone w (inputs k) a = some state) :
    drive w inputs k (n + 1) (a, stage) = drive w inputs (k + 1) n state := by
  rw [drive]
  simp only [h]

theorem drive_searchHole {request : HoleRequest} (h : searchHole a request = stage) :
    drive w inputs k (n + 1) (a, .search request) = drive w inputs (k + 1) n (a, stage) :=
  drive_step (congrArg (fun stage => some (a, stage)) h)

/-- Each message of an answer names one before it, or the older one. -/
theorem parse_prev (h : (older :: messages.map (·.msgid)).Pairwise (· < ·)) :
    ∀ m' ∈ parseHistoryMessagesArray older (messages.map some),
      m'.prevMsgid ∈ older :: messages.map (·.msgid) ∧ m'.prevMsgid < m'.msgid := by
  induction messages generalizing older with
  | nil => simp [parseHistoryMessagesArray]
  | cons m rest ih =>
    obtain ⟨hfirst, hrest⟩ := List.pairwise_cons.mp h
    have hlt : older < m.msgid := hfirst m.msgid (by simp)
    intro m' hm'
    rw [List.map_cons, parseHistoryMessagesArray, if_neg (ne_of_lt hlt)] at hm'
    rcases List.mem_cons.mp hm' with rfl | hm'
    · exact ⟨List.mem_cons_self, hlt⟩
    · obtain ⟨hmem, hless⟩ := ih hrest m' hm'
      exact ⟨List.mem_cons_of_mem _ (by simpa using hmem), hless⟩

theorem HistoryAnswer.ids (h : HistoryAnswer w server hole reply messages) :
    reply.messages.map (·.msgid) = messages.map (·.msgid) ∧
      (reply.olderMsgid :: messages.map (·.msgid)).Pairwise (· < ·) := by
  have hordered : (reply.olderMsgid :: messages.map (·.msgid)).Pairwise (· < ·) :=
    List.pairwise_cons.mpr ⟨fun id hid => ((h.exact id).mp hid).2.1, h.ordered⟩
  refine ⟨?_, hordered⟩
  rw [HistoryReply.messages, h.nodes]
  exact (parse_links hordered).1

theorem HistoryAnswer.isPrev (h : HistoryAnswer w server hole reply messages) :
    ∀ m ∈ reply.messages, server.IsPrev m.prevMsgid m.msgid := by
  intro m hm
  refine ⟨?_, h.told.links m hm⟩
  have hordered := h.ids.2
  rw [HistoryReply.messages, h.nodes] at hm
  obtain ⟨hmem, hlt⟩ := parse_prev hordered m hm
  rcases List.mem_cons.mp hmem with heq | hmem
  · rcases h.older with hnone | hhas
    · exact .inl (heq.trans hnone)
    · exact .inr ⟨heq ▸ hhas, hlt⟩
  · exact .inr ⟨((h.exact _).mp hmem).1, hlt⟩

/-- The newest message in front of where a hole begins is in the answer, if it is in the hole. -/
theorem HistoryAnswer.newest {p : Int64} (h : HistoryAnswer w server hole reply messages)
    (hp : server.Has p) (hto : hole.toId < p) (hfrom : hole.fromId = -1 ∨ p < hole.fromId)
    (hlast : ∀ id, server.Has id → (hole.fromId = -1 ∨ id < hole.fromId) → id ≤ p) :
    ∃ m ∈ reply.messages, m.msgid = p := by
  obtain ⟨m, hm⟩ := List.exists_mem_of_ne_nil _ (h.progress p hp hto hfrom)
  obtain ⟨hhas, holder, hmfrom⟩ := (h.exact m.msgid).mp (List.mem_map_of_mem hm)
  have hmem : p ∈ messages.map (·.msgid) :=
    (h.exact p).mpr ⟨hp, lt_of_lt_of_le holder (hlast _ hhas hmfrom), hfrom⟩
  rw [← h.ids.1] at hmem
  simpa using hmem

/-- The message of an answer that the index lacks is put in as it is. -/
theorem insertedMessage_new {arrived : ArrivedMessage} (hexact : ExactIndex server a.index)
    (hdel : a.state.delUpTo ≤ server.bound) (hlog : arrived.message.msgid ∈ server.log)
    (hbound : server.bound < arrived.message.msgid)
    (hprev : server.IsPrev arrived.message.prevMsgid arrived.message.msgid) :
    (∀ m, a.insertedMessage arrived = some m → m = arrived.message) ∧
      (¬ a.index.Shows arrived.message.msgid → a.insertedMessage arrived ≠ none) := by
  have hgone : ¬ (arrived.message.hasMsgid = true ∧ arrived.message.msgid ≤ a.state.delUpTo) :=
    fun h => absurd (lt_of_le_of_lt hdel hbound) (not_lt.mpr h.2)
  have hlink : ¬ (arrived.message.hasPrevMsgid = true ∧
      arrived.message.prevMsgid ≤ a.state.delUpTo) := by
    intro ⟨hpos, hle⟩
    rcases hprev.named with hnone | hhas
    · simp [HistoryMessage.hasPrevMsgid, hnone] at hpos
    · exact absurd (lt_of_le_of_lt hdel hhas.1.2) (not_lt.mpr hle)
  unfold ContactArchive.insertedMessage
  simp only [hgone, hlink, if_false]
  constructor
  · intro m hm
    split at hm
    · exact absurd hm.symm (Option.some_ne_none m)
    · exact (Option.some.inj hm).symm
  · intro hlacks
    have hnone : a.index.getHeader arrived.message.msgid = none := by
      rw [ArchiveIndex.getHeader, KeyMap.find_none]
      intro x hx hid
      exact hlacks ⟨x, hx, hid, hexact.shown x hx (hid ▸ hlog)⟩
    simp [hnone]

/-- The archive as it is between two rounds: it is exact, and has nothing newer than the server. -/
structure Quiet (server : ServerHistory) (newest : Int64) (a : ContactArchive) : Prop where
  exact : ExactIndex server a.index
  delUpTo : a.state.delUpTo ≤ server.bound
  reliable : MessagesData.Reliable a.dataDisk
  newest : ∀ x ∈ a.index.headersIndex.items, x.id ≤ newest

variable {newest : Int64} {clock : HolesClock}

theorem HistoryAnswer.has (h : HistoryAnswer w server hole reply messages) :
    ∀ m ∈ reply.messages, server.Has m.msgid := by
  intro m hm
  have hmem : m.msgid ∈ messages.map (·.msgid) := h.ids.1 ▸ List.mem_map_of_mem hm
  exact ((h.exact _).mp hmem).1

/-- An answer that brings something, or the tail, is put in, and nothing else with it. -/
theorem insertHistoryBlock_quiet (currentTime : Int) (hq : Quiet server newest a)
    (h : HistoryAnswer w server hole reply messages)
    (hnew : hole.fromId = -1 ∨ ∃ m ∈ reply.messages, ¬ a.index.Shows m.msgid) :
    ∃ r, a.insertHistoryBlock w (arrivedMessages reply.messages) currentTime hole.fromId
        reply.hasOlderMsgid = .ok r ∧
      ∀ x ∈ r.2.2.index.headersIndex.items, x ∈ a.index.headersIndex.items ∨
        ∃ m ∈ reply.messages, x.id = m.msgid ∧ x.prevId = m.prevMsgid := by
  have htold := h.told
  have hone : ∀ arrived ∈ arrivedMessages reply.messages,
      (∀ m, a.insertedMessage arrived = some m → m = arrived.message) ∧
        (¬ a.index.Shows arrived.message.msgid → a.insertedMessage arrived ≠ none) := by
    intro arrived harrived
    have hmem := mem_arrivedMessages harrived
    obtain ⟨hlog, hbound⟩ := h.has _ hmem
    exact insertedMessage_new hq.exact hq.delUpTo hlog hbound (h.isPrev _ hmem)
  unfold ContactArchive.insertHistoryBlock
  simp only
  split
  · rename_i hempty
    rcases hnew with hfrom | ⟨m, hm, hlacks⟩
    · simp only [hfrom]
      exact ⟨_, rfl, fun x hx => .inl hx⟩
    · rw [List.isEmpty_iff, List.filterMap_eq_nil_iff] at hempty
      have hmem := arrivedMessages_mem hm (htold.hasMsgid hm)
      exact absurd (hempty _ hmem) ((hone _ hmem).2 hlacks)
  · have hdata : ∀ m ∈ (arrivedMessages reply.messages).filterMap a.insertedMessage,
        m ∈ reply.messages := by
      intro m hm
      obtain ⟨arrived, harrived, hins⟩ := List.mem_filterMap.mp hm
      rw [(hone arrived harrived).1 m hins]
      exact mem_arrivedMessages harrived
    refine ⟨_, rfl, fun x hx => ?_⟩
    have htrue : ∀ m ∈ (arrivedMessages reply.messages).filterMap a.insertedMessage,
        TrueMessage server a.index m ∧ m.isPatch = false := fun m hm =>
      ⟨htold.trueMessage (hdata m hm) a.index, (htold.shown m (hdata m hm)).1⟩
    rcases ContactArchive.mem_store hq.exact.truthful htrue hx with hold | ⟨m, hm, he⟩
    · exact .inl hold
    · exact .inr ⟨m, hdata m hm, he⟩

theorem insertReply_quiet (round : HoleRound) (currentTime : Int) (hq : Quiet server newest a)
    (hlast : ∀ id, server.Has id → id ≤ newest)
    (hknown : HoleKnown server a.index (some newest) round.hole)
    (h : HistoryAnswer w server round.hole reply messages)
    (hnew : round.hole.fromId = -1 ∨ ∃ m ∈ reply.messages, ¬ a.index.Shows m.msgid) :
    ∃ a', insertReply w a currentTime round reply.messages reply.hasOlderMsgid =
        some (a', .validate round) ∧ Quiet server newest a' ∧
      Keeps server a.index a'.index ∧ ∀ m ∈ reply.messages, a'.index.Shows m.msgid := by
  have htold := h.told
  obtain ⟨⟨result, headers, a'⟩, hinsert, horigin⟩ :=
    insertHistoryBlock_quiet currentTime hq h hnew
  have hinserted := ContactArchive.insertHistoryBlock_inserted hq.exact.truthful
    (fun id hid => lt_of_le_of_lt hq.delUpTo hid.2)
    (fun arrived hmem => htold.trueMessage (mem_arrivedMessages hmem) a.index)
    (fun hfrom hnone => ⟨(hknown.resolve_left hfrom).unhidden, fun id hid hlt => by
      obtain ⟨m, hm, he⟩ := htold.first hfrom hnone id hid hlt
      exact ⟨_, arrivedMessages_mem hm (htold.hasMsgid hm), he⟩⟩) hinsert
  have ht := hinserted.keeps.truthful
  refine ⟨a', by rw [insertReply, hinsert], ⟨⟨ht.issued, ht.shown, ?_, ?_⟩, ?_, ?_, ?_⟩,
    hinserted.keeps, ?_⟩
  · intro x hx hv
    rcases horigin x hx with hold | ⟨m, hm, hid, -⟩
    · exact hq.exact.has x hold hv
    · exact hid ▸ h.has m hm
  · intro x hx hv
    rcases horigin x hx with hold | ⟨m, hm, hid, hprev⟩
    · exact hq.exact.prev x hold hv
    · exact hid ▸ hprev ▸ h.isPrev m hm
  · exact hinserted.state ▸ hq.delUpTo
  · exact hinserted.reliable hq.reliable
  · intro x hx
    rcases horigin x hx with hold | ⟨m, hm, hid, -⟩
    · exact hq.newest x hold
    · exact hid ▸ hlast _ (h.has m hm)
  · intro m hm
    refine hinserted.shows hq.reliable (fun arrived harrived => ?_) _
      (arrivedMessages_mem hm (htold.hasMsgid hm)) (h.has m hm)
    exact htold.storable _ (mem_arrivedMessages harrived)

/-- A tail that is asked for now is not behind the index. -/
theorem isTailBehind_quiet (hq : Quiet server newest a)
    (h : HistoryAnswer w server hole reply messages)
    (htail : hole.fromId = -1 → reply.messages = [] ∨ ∃ m ∈ reply.messages, m.msgid = newest) :
    isTailBehind a (hole.fromId == -1) reply.messages = false := by
  unfold isTailBehind
  by_cases hfrom : hole.fromId = -1
  · rcases htail hfrom with hnil | ⟨m, hm, hid⟩
    · simp [hnil]
    · have hmem : newest ∈ reply.messages.map (·.msgid) := hid ▸ List.mem_map_of_mem hm
      simp only [hfrom, beq_self_eq_true, Bool.true_and]
      cases hmax : (reply.messages.map (·.msgid)).max? with
      | none => rfl
      | some top =>
        have hle : newest ≤ top := (List.max?_le_iff hmax).mp le_rfl newest hmem
        have hpos : 0 < newest := hid ▸ server.positive _ (h.has m hm).1
        have hlast : a.index.getLastMsgid ≤ newest := by
          unfold ArchiveIndex.getLastMsgid
          split
          · exact le_trans (by decide) (le_of_lt hpos)
          · rename_i x hx
            exact hq.newest x (List.mem_of_getLast? hx)
        simp [hlast.trans hle]
  · simp [hfrom]

/-- A hole in which the server has something, this being the newest of it. -/
structure RealHole (server : ServerHistory) (s : ArchiveIndex) (hole : ArchiveHole) (p : Int64) :
    Prop where
  has : server.Has p
  above : hole.toId < p
  below : hole.fromId = -1 ∨ p < hole.fromId
  last : ∀ id, server.Has id → hole.fromId = -1 ∨ id < hole.fromId → id ≤ p
  lacks : ¬ s.Shows p

theorem RealHole.eq_newest {s : ArchiveIndex} {p : Int64} (hp : RealHole server s hole p)
    (hnewest : server.Newest newest) (hfrom : hole.fromId = -1) : p = newest := by
  have hle := hnewest.last p hp.has
  rcases hnewest.named with hnone | hhas
  · have hpos := server.positive p hp.has.1
    rw [hnone] at hle
    exact absurd (lt_of_lt_of_le hpos hle) (by decide)
  · exact le_antisymm hle (hp.last newest hhas (.inl hfrom))

/-- A hole that is worth a request, or the one of a server that has nothing. -/
def Askable (server : ServerHistory) (s : ArchiveIndex) (hole : ArchiveHole) : Prop :=
  (∃ p, RealHole server s hole p) ∨ hole.fromId = -1 ∧ ∀ id, ¬ server.Has id

theorem receiveReply_quiet (round : HoleRound)
    (h : HistoryAnswer w server round.hole reply messages)
    (htail : isTailBehind a (round.hole.fromId == -1) reply.messages = false) :
    ∃ history, receiveReply w.unset a round reply = (a, .merge round history reply.hasOlderMsgid) ∧
      history.block = reply.messages ∧ history.dlgState.delUpTo ≤ server.bound := by
  unfold receiveReply
  rw [parseResults_unpatched h.patches]
  simp only [htail]
  refine ⟨_, rfl, rfl, ?_⟩
  rw [completeDlgState_delUpTo, setLastMessage_delUpTo]
  exact h.delUpTo

/-- A round of the search: the newest message in the hole is shown afterwards. -/
theorem drive_round {request : HoleRequest} (hq : Quiet server newest a)
    (hnewest : server.Newest newest)
    (hanswers : ∀ k hole, ∃ messages, HistoryAnswer w server hole ((inputs k).reply hole) messages)
    (hdepth : request.depth = -1) (hasked : isRequestObsolete hole a.state = false)
    (hknown : HoleKnown server a.index (some newest) hole) (haskable : Askable server a.index hole) :
    ∃ a', Quiet server newest a' ∧ Keeps server a.index a'.index ∧
      (∀ p, RealHole server a.index hole p → a'.index.Shows p) ∧
      Filled server a'.index hole ∧ ∃ pageSize, ∀ n,
        drive w inputs k (n + 6) (a, .check request hole) =
          drive w inputs (k + 6) n (a', validateHole a' pageSize { request, hole }) := by
  let round : HoleRound := { request, hole }
  obtain ⟨messages, hanswer⟩ := hanswers (k + 1) hole
  have hnamed : ∀ p, RealHole server a.index hole p →
      ∃ m ∈ ((inputs (k + 1)).reply hole).messages, m.msgid = p := fun p hp =>
    hanswer.newest hp.has hp.above hp.below hp.last
  have hnew : hole.fromId = -1 ∨
      ∃ m ∈ ((inputs (k + 1)).reply hole).messages, ¬ a.index.Shows m.msgid := by
    rcases haskable with ⟨p, hp⟩ | ⟨hfrom, -⟩
    · obtain ⟨m, hm, hid⟩ := hnamed p hp
      exact .inr ⟨m, hm, hid ▸ hp.lacks⟩
    · exact .inl hfrom
  have htail := isTailBehind_quiet hq hanswer fun hfrom => haskable.elim
    (fun ⟨p, hp⟩ => by
      obtain ⟨m, hm, hid⟩ := hnamed p hp
      exact .inr ⟨m, hm, hid.trans (hp.eq_newest hnewest hfrom)⟩)
    (fun ⟨_, hnone⟩ => .inl (List.eq_nil_iff_forall_not_mem.mpr fun m hm =>
      hnone _ (hanswer.has m hm)))
  obtain ⟨history, hreceive, hblock, hdel⟩ := receiveReply_quiet (a := a) round hanswer htail
  let merged := a.setDlgState (inputs (k + 3)).clock.now history.dlgState
  have hmerged : Quiet server newest merged :=
    ⟨hq.exact, setDlgState_delUpTo hq.delUpTo hdel, hq.reliable, hq.newest⟩
  have hmerge : mergeReply a (inputs (k + 3)).clock.now round history
      ((inputs (k + 1)).reply hole).hasOlderMsgid = (merged, .insert round history.block
        ((inputs (k + 1)).reply hole).hasOlderMsgid) :=
    mergeReply_ok (show StageOk w server a.index (some newest) (.merge round history _) from
      ⟨hknown, hdel, hblock ▸ hanswer.told⟩)
  obtain ⟨a', hinsert, hquiet, hkeeps, hshown⟩ := insertReply_quiet round
    (inputs (k + 4)).clock.currentTime hmerged hnewest.last hknown hanswer hnew
  refine ⟨a', hquiet, hkeeps, ?_, ?_, (inputs (k + 5)).clock.pageSize, fun n => ?_⟩
  · intro p hp
    obtain ⟨m, hm, rfl⟩ := hnamed p hp
    exact hshown m hm
  · intro hfrom id hid hto hlt
    obtain ⟨m, hm, hge, hlt'⟩ := hanswer.told.filled hfrom id hid hto hlt
    exact ⟨m.msgid, hshown m hm, hge, hlt'⟩
  · let reply := (inputs (k + 1)).reply hole
    have hcheck : (HolesStage.check request hole).lone w (inputs k) a = some (a, .ask round) := by
      simp [HolesStage.lone, HolesStage.next, checkHole, hasked, hdepth, round]
    have hreceived : (HolesStage.received round reply).lone w (inputs (k + 2)) a =
        some (a, .merge round history reply.hasOlderMsgid) :=
      congrArg some hreceive
    have hmerging : (HolesStage.merge round history reply.hasOlderMsgid).lone w (inputs (k + 3)) a =
        some (merged, .insert round reply.messages reply.hasOlderMsgid) :=
      congrArg some (hmerge.trans (by rw [hblock]))
    calc drive w inputs k (n + 6) (a, .check request hole)
        = drive w inputs (k + 1) (n + 5) (a, .ask round) := drive_step hcheck
      _ = drive w inputs (k + 2) (n + 4) (a, .received round reply) := drive_step rfl
      _ = drive w inputs (k + 3) (n + 3) (a, .merge round history reply.hasOlderMsgid) :=
        drive_step hreceived
      _ = drive w inputs (k + 4) (n + 2)
            (merged, .insert round reply.messages reply.hasOlderMsgid) := drive_step hmerging
      _ = drive w inputs (k + 5) (n + 1) (a', .validate round) := drive_step hinsert
      _ = drive w inputs (k + 6) n (a', validateHole a' _ round) := drive_step rfl

/-- Where a search goes on that has been through everything above. -/
def Going (server : ServerHistory) (s : ArchiveIndex) (newest fromId : Int64) : Prop :=
  fromId = -1 ∧ s.Shows newest ∨ s.Shows fromId ∧ HoldsBetween server s fromId newest

theorem Going.reaches {s : ArchiveIndex} {fromId : Int64} (h : Going server s newest fromId) :
    Reaches server s fromId newest ∧ visibleFrom s fromId ≠ [] := by
  rcases h with ⟨hfrom, y, hy, hid, hv⟩ | ⟨hshows, hcovers⟩
  · have hmem : y ∈ visibleFrom s fromId := mem_visibleFrom.mpr ⟨hy, hv, .inl hfrom⟩
    refine ⟨fun id _ hle => .inr fun x hx => hle.trans ?_, List.ne_nil_of_mem hmem⟩
    exact hid ▸ le_head hx hmem
  · refine ⟨hcovers.reaches fun _ => hshows, ?_⟩
    obtain ⟨y, hy, hid, hv⟩ := hshows
    exact List.ne_nil_of_mem (mem_visibleFrom.mpr ⟨hy, hv, .inr hid.le⟩)

/-- A message that a header names and that is not shown is in the hole behind the header. -/
theorem realHole_of_link {s : ArchiveIndex} {fromId toId depth : Int64}
    {front rest : List MessageHeader} {x : MessageHeader} (hexact : ExactIndex server s)
    (hv : visibleFrom s fromId = front ++ x :: rest) (hprev : x.prevId ≠ -1)
    (hto : rest = [] ∧ toId = -1 ∨ ∃ y rest', rest = y :: rest' ∧ toId = y.id ∧ x.prevId ≠ y.id) :
    RealHole server s { fromId := x.id, toId, depth } x.prevId := by
  have hx : x ∈ visibleFrom s fromId := by simp [hv]
  obtain ⟨hmem, hvisible, hle⟩ := mem_visibleFrom.mp hx
  obtain ⟨hnamed, hlast⟩ := hexact.prev x hmem hvisible
  obtain ⟨hhas, hlt⟩ := hnamed.resolve_left hprev
  have hsorted := visibleFrom_sorted s fromId
  rw [hv] at hsorted
  obtain ⟨-, hpairs, hfront⟩ := List.pairwise_append.mp hsorted
  obtain ⟨hrest, hpairs⟩ := List.pairwise_cons.mp hpairs
  have habove : toId < x.prevId := by
    rcases hto with ⟨-, rfl⟩ | ⟨y, rest', rfl, rfl, hne⟩
    · exact lt_trans (by decide) (server.positive _ hhas.1)
    · obtain ⟨hymem, hyv, -⟩ := mem_visibleFrom.mp (show y ∈ visibleFrom s fromId by simp [hv])
      exact lt_of_le_of_ne (hlast y.id (hexact.has y hymem hyv) (hrest y (by simp))) hne.symm
  refine ⟨hhas, habove, .inr hlt, fun id hid hin => hlast id hid (hin.resolve_left ?_), ?_⟩
  · exact ne_of_gt (lt_trans (by decide) (hexact.issued x hmem).1)
  · rintro ⟨z, hz, hid, hzv⟩
    have hzx : z.id < x.id := hid ▸ hlt
    have hzmem : z ∈ visibleFrom s fromId :=
      mem_visibleFrom.mpr ⟨hz, hzv, hle.imp_right (le_of_lt hzx).trans⟩
    rw [hv] at hzmem
    rcases List.mem_append.mp hzmem with hz | hz
    · exact absurd (hfront z hz x (by simp)) (not_lt.mpr (le_of_lt hzx))
    · rcases List.mem_cons.mp hz with rfl | hz
      · exact absurd hzx (lt_irrefl _)
      · rcases hto with ⟨rfl, -⟩ | ⟨y, rest', rfl, rfl, hne⟩
        · exact absurd hz List.not_mem_nil
        · rcases List.mem_cons.mp hz with rfl | hz
          · exact absurd hid.symm hne
          · have hzy := (List.pairwise_cons.mp hpairs).1 z hz
            exact absurd habove (not_lt.mpr (hid ▸ le_of_lt hzy))

/-- A search that goes on finds a real hole, or nothing is missing. -/
theorem getNextHole_going {fromId : Int64} (hq : Quiet server newest a)
    (hlast : ∀ id, server.Has id → id ≤ newest) (h : Going server a.index newest fromId) :
    a.index.getNextHole fromId {} (-1) = (.lastReached, {}) ∧
        (∀ id, server.Has id → a.index.Shows id) ∨
      ∃ hole p, a.index.getNextHole fromId {} (-1) = (.ok, hole) ∧ a.index.Shows hole.fromId ∧
        (hole.toId = -1 ∨ a.index.Shows hole.toId) ∧ RealHole server a.index hole p := by
  obtain ⟨hreaches, hne⟩ := h.reaches
  have ht := hq.exact.truthful
  have hfrom : fromId = -1 ∨ fromId ∈ a.index.ids := by
    rcases h with ⟨hfrom, -⟩ | ⟨⟨x, hx, hid, -⟩, -⟩
    · exact .inl hfrom
    · exact .inr (List.mem_map.mpr ⟨x, hx, hid⟩)
  rcases getNextHole_cases a.index fromId {} (-1) ht.size hfrom with
    ⟨hnil, -⟩ | ⟨hdepth, -⟩ | ⟨front, x, hfirst, hcases⟩
  · exact absurd hnil hne
  · exact absurd rfl hdepth
  · have hx : x ∈ visibleFrom a.index fromId := by
      rcases hcases with ⟨hv, -⟩ | ⟨y, rest, hv, -⟩ <;> simp [hv]
    rcases hcases with ⟨hv, hanswer⟩ | ⟨y, rest, hv, hbroken, hanswer⟩
    · by_cases hprev : x.prevId = -1
      · rw [if_pos hprev] at hanswer
        exact .inl ⟨hanswer, fun id hid => hreaches.all ht hv hfirst hprev hid (hlast id hid)⟩
      · rw [if_neg hprev] at hanswer
        exact .inr ⟨_, x.prevId, hanswer, shows_of_mem hx, .inl rfl,
          realHole_of_link hq.exact hv hprev (.inl ⟨rfl, rfl⟩)⟩
    · have hy : y ∈ visibleFrom a.index fromId := by simp [hv]
      obtain ⟨hxmem, hxv, -⟩ := mem_visibleFrom.mp hx
      obtain ⟨hymem, hyv, -⟩ := mem_visibleFrom.mp hy
      have hsorted := visibleFrom_sorted a.index fromId
      rw [hv] at hsorted
      have hlt := (List.pairwise_cons.mp (List.pairwise_append.mp hsorted).2.1).1 y (by simp)
      have hprev : x.prevId ≠ -1 := by
        intro hnone
        have hle := (hq.exact.prev x hxmem hxv).last y.id (hq.exact.has y hymem hyv) hlt
        rw [hnone] at hle
        exact absurd (lt_of_lt_of_le (hq.exact.issued y hymem).1 hle) (by decide)
      exact .inr ⟨_, x.prevId, hanswer, shows_of_mem hx, .inr (shows_of_mem hy),
        realHole_of_link hq.exact hv hprev (.inr ⟨y, rest, rfl, rfl, hbroken⟩)⟩

theorem Going.of_stageOk {s : ArchiveIndex} {request : HoleRequest}
    (hok : StageOk w server s (some newest) (.search request)) (hnewest : s.Shows newest)
    (habove : request.fromId ≠ -1 → server.bound < request.fromId) :
    Going server s newest request.fromId := by
  by_cases hfrom : request.fromId = -1
  · exact .inl ⟨hfrom, hnewest⟩
  · obtain ⟨hcovers, hshows⟩ := (hok.resolve_left hfrom).resolve_left (Option.some_ne_none newest)
    exact .inr ⟨hshows (habove hfrom), hcovers newest rfl⟩

theorem not_obsolete (hq : Quiet server newest a) (hfrom : hole.fromId = -1 ∨ server.bound < hole.fromId)
    (hto : hole.toId = -1 ∨ server.bound < hole.toId) : isRequestObsolete hole a.state = false := by
  have hone : ∀ id, id = -1 ∨ server.bound < id → 0 < id → a.state.delUpTo < id := by
    rintro id (rfl | hlt) hpos
    · exact absurd hpos (by decide)
    · exact lt_of_le_of_lt hq.delUpTo hlt
  simp only [isRequestObsolete, ArchiveHole.hasFrom, ArchiveHole.hasTo, Bool.or_eq_false_iff,
    Bool.and_eq_false_imp, decide_eq_true_eq, decide_eq_false_iff_not, not_le]
  exact ⟨hone _ hfrom, hone _ hto⟩

theorem recursion_succ {recursion : Int32} {n : Nat} (h : recursion.toInt = n) (hn : n ≤ 30000) :
    (recursion + 1).toInt = (n + 1 : Nat) := by
  rw [Int32.toInt_add, h]
  exact Int.bmod_eq_of_le (by simp; omega) (by simp; omega)

/-- After the round of a real hole the search goes on with less missing. -/
theorem drive_hole {request : HoleRequest} {p : Int64} (hq : Quiet server newest a)
    (hnewest : server.Newest newest)
    (hanswers : ∀ k hole, ∃ messages, HistoryAnswer w server hole ((inputs k).reply hole) messages)
    (hdepth : request.depth = -1) (hasked : isRequestObsolete hole a.state = false)
    (hknown : HoleKnown server a.index (some newest) hole) (hp : RealHole server a.index hole p)
    (hshows : hole.fromId = -1 ∨ a.index.Shows newest ∧ a.index.Shows hole.fromId) :
    ∃ a' next, Quiet server newest a' ∧ missing server a'.index < missing server a.index ∧
      a'.index.Shows newest ∧ Going server a'.index newest next.fromId ∧ next.depth = -1 ∧
      next.recursion = request.recursion + 1 ∧
      ∀ n, drive w inputs k (n + 6) (a, .check request hole) =
        drive w inputs (k + 6) n (a', .search next) := by
  obtain ⟨a', hquiet, hkeeps, hshown, hfilled, pageSize, hdrive⟩ :=
    drive_round (k := k) hq hnewest hanswers hdepth hasked hknown (.inl ⟨p, hp⟩)
  have hstay : ∀ id, a.index.Shows id → a'.index.Shows id :=
    fun id hid => hkeeps.shows id (hq.exact.has_of_shows hid).2 hid
  have hnewest' : a'.index.Shows newest := by
    rcases hshows with hfrom | ⟨hshows, -⟩
    · exact hp.eq_newest hnewest hfrom ▸ hshown p hp
    · exact hstay newest hshows
  have hissued : ∀ t ∈ some newest, t ≤ server.issued := by
    intro t ht
    obtain rfl := Option.some.inj ht
    exact server.log_issued _ (hquiet.exact.has_of_shows hnewest').1
  have hknown' : HoleKnown server a'.index (some newest) hole :=
    hknown.imp_right fun hok => hok.meanwhile (meanwhile_of_keeps hkeeps) hissued
  have hlacks := missing_lt (fun id _ => hstay id) hp.has hp.lacks (hshown p hp)
  refine ⟨a', _, hquiet, hlacks, hnewest', ?_, rfl, rfl, hdrive⟩
  have hok : StageOk w server a'.index (some newest) (validateHole a' pageSize { request, hole }) :=
    validateHole_ok hknown' hfilled
  refine Going.of_stageOk hok hnewest' fun hfrom => ?_
  rcases validateHoleRequest_cases a'.index hole (-pageSize).toInt32 with hsame | hbelow
  · simp only [hsame] at hfrom ⊢
    exact (hq.exact.has_of_shows (hshows.resolve_left hfrom).2).2
  · obtain ⟨-, -, x, hx, hv, -, hresult, -⟩ := hbelow
    simp only [hresult]
    exact (hquiet.exact.has x hx hv).2

/-- A search that has been through everything above is over after seven steps for each message that
is missing. -/
theorem drive_search {request : HoleRequest} {recursion : Nat} (hq : Quiet server newest a)
    (hnewest : server.Newest newest)
    (hanswers : ∀ k hole, ∃ messages, HistoryAnswer w server hole ((inputs k).reply hole) messages)
    (hdepth : request.depth = -1) (hrecursion : request.recursion.toInt = recursion)
    (hlimit : recursion + missing server a.index ≤ 30000) (hshows : a.index.Shows newest)
    (hgoing : Going server a.index newest request.fromId) :
    ∃ n ≤ 7 * missing server a.index + 1, ∃ a', Quiet server newest a' ∧
      (∀ id, server.Has id → a'.index.Shows id) ∧
      drive w inputs k n (a, .search request) = (a', .ignored (.noHole .lastReached)) := by
  induction hmissing : missing server a.index using Nat.strong_induction_on
    generalizing k a request recursion with
  | _ count ih =>
    rcases getNextHole_going hq hnewest.last hgoing with
      ⟨hanswer, hall⟩ | ⟨hole, p, hanswer, hfrom, hto, hp⟩
    · refine ⟨1, by omega, a, hq, hall, ?_⟩
      have hsearch : searchHole a request = .ignored (.noHole .lastReached) := by
        rw [searchHole, hdepth, hanswer]
      exact drive_searchHole hsearch
    · have hpos : 0 < hole.fromId := server.positive _ (hq.exact.has_of_shows hfrom).1
      have hne : hole.fromId ≠ -1 := ne_of_gt (lt_trans (by decide) hpos)
      have hsearch : searchHole a request = .check request hole := by
        have hsafe : ¬ 30000 < request.recursion := by
          rw [Int32.lt_iff_toInt_lt, hrecursion]
          simp
          omega
        rw [searchHole, hdepth, hanswer]
        simp [hne, hsafe]
      have hasked := not_obsolete hq (.inr (hq.exact.has_of_shows hfrom).2)
        (hto.imp_right fun hshown => (hq.exact.has_of_shows hshown).2)
      have hknown : StageOk w server a.index (some newest) (searchHole a request) :=
        searchHole_ok hq.exact.truthful fun t ht => Option.some.inj ht ▸ hgoing.reaches.1
      rw [hsearch] at hknown
      obtain ⟨a', next, hquiet, hless, hshows', hgoing', hdepth', hnext, hdrive⟩ :=
        drive_hole (k := k + 1) hq hnewest hanswers hdepth hasked hknown hp (.inr ⟨hshows, hfrom⟩)
      obtain ⟨n, hn, a'', hquiet', hall, hend⟩ := ih _ (hmissing ▸ hless) (k := k + 7) hquiet
        hdepth' (hnext ▸ recursion_succ hrecursion (by omega)) (by omega) hshows' hgoing' rfl
      refine ⟨n + 7, by omega, a'', hquiet', hall, ?_⟩
      exact (drive_searchHole hsearch).trans ((hdrive n).trans hend)

/-- What the index answers if it lacks the newest message. -/
theorem getNextHole_behind (hq : Quiet server newest a) (hne : newest ≠ -1)
    (habsent : newest ∉ a.index.ids) :
    ∃ toId, a.index.getNextHole newest {} (-1) = (.ok, { toId }) ∧
      (toId = -1 ∨ ∃ x ∈ a.index.headersIndex.items, toId = x.id) := by
  unfold ArchiveIndex.getNextHole
  cases hlast : a.index.headersIndex.last? with
  | none => exact ⟨-1, rfl, .inl rfl⟩
  | some last =>
    have hmem : last ∈ a.index.headersIndex.items := List.mem_of_getLast? hlast
    have hlt : last.id < newest := by
      refine lt_of_le_of_ne (hq.newest last hmem) fun he => habsent ?_
      exact List.mem_map.mpr ⟨last, hmem, he⟩
    exact ⟨last.id, by simp [hne, hlt], .inr ⟨last, hmem, rfl⟩⟩

/-- What the index answers if it shows nothing. -/
theorem getNextHole_nothing (hq : Quiet server newest a) (hnone : ∀ id, ¬ server.Has id) :
    a.index.getNextHole (-1) {} (-1) = (.ok, {}) := by
  have hempty : visibleFrom a.index (-1) = [] := by
    rw [List.eq_nil_iff_forall_not_mem]
    intro x hx
    exact hnone _ (hq.exact.has_of_shows (shows_of_mem hx))
  rcases getNextHole_cases a.index (-1) {} (-1) hq.exact.truthful.size (.inl rfl) with
    ⟨-, hanswer⟩ | ⟨hdepth, -⟩ | ⟨front, x, -, hcases⟩
  · exact hanswer
  · exact absurd rfl hdepth
  · rcases hcases with ⟨hv, -⟩ | ⟨y, rest, hv, -⟩ <;> simp [hv] at hempty

/-- A search of a server that has nothing asks once. -/
theorem drive_nothing (hq : Quiet server newest a) (hnewest : server.Newest newest)
    (hnone : ∀ id, ¬ server.Has id)
    (hanswers : ∀ k hole, ∃ messages, HistoryAnswer w server hole ((inputs k).reply hole) messages) :
    ∃ a', Quiet server newest a' ∧ drive w inputs k 8 (a, .search { fromId := -1 }) =
      (a', .ignored .recursion) := by
  have hsearch : searchHole a { fromId := -1 } = .check { fromId := -1 } {} := by
    rw [searchHole, getNextHole_nothing hq hnone]
    rfl
  have haskable : Askable server a.index {} := .inr ⟨rfl, hnone⟩
  have hdepth : ({ fromId := -1 } : HoleRequest).depth = -1 := rfl
  obtain ⟨a', hquiet, -, -, -, pageSize, hdrive⟩ := drive_round (k := k + 1) hq hnewest hanswers
    hdepth (not_obsolete hq (.inl rfl) (.inl rfl)) (.inl rfl) haskable
  have hagain : searchHole a' { fromId := -1, recursion := 1 } = .ignored .recursion := by
    rw [searchHole, getNextHole_nothing hquiet hnone]
    rfl
  exact ⟨a', hquiet, (drive_searchHole hsearch).trans ((hdrive 1).trans (drive_searchHole hagain))⟩

/-- A search whose index lacks the newest message asks for the tail first. -/
theorem drive_behind (hq : Quiet server newest a) (hnewest : server.Newest newest)
    (hhas : server.Has newest) (hlacks : ¬ a.index.Shows newest)
    (habove : ∀ x ∈ a.index.headersIndex.items, a.state.delUpTo < x.id)
    (hlimit : missing server a.index < 30000)
    (hanswers : ∀ k hole, ∃ messages, HistoryAnswer w server hole ((inputs k).reply hole) messages) :
    ∃ n ≤ 7 * missing server a.index + 1, ∃ a', Quiet server newest a' ∧
      (∀ id, server.Has id → a'.index.Shows id) ∧
      drive w inputs k n (a, .search { fromId := newest }) =
        (a', .ignored (.noHole .lastReached)) := by
  have hpos : 0 < newest := server.positive _ hhas.1
  have habsent : newest ∉ a.index.ids := by
    intro hid
    obtain ⟨x, hx, rfl⟩ := List.mem_map.mp hid
    exact hlacks ⟨x, hx, rfl, hq.exact.shown x hx hhas.1⟩
  obtain ⟨toId, hanswer, hto⟩ :=
    getNextHole_behind hq (ne_of_gt (lt_trans (by decide) hpos)) habsent
  have hsearch : searchHole a { fromId := newest } = .check { fromId := newest } { toId } := by
    rw [searchHole, hanswer]
    rfl
  have hreal : RealHole server a.index { toId } newest := by
    refine ⟨hhas, ?_, .inl rfl, fun id hid _ => hnewest.last id hid, hlacks⟩
    rcases hto with rfl | ⟨x, hx, rfl⟩
    · exact lt_trans (by decide) hpos
    · refine lt_of_le_of_ne (hq.newest x hx) fun he => habsent ?_
      exact List.mem_map.mpr ⟨x, hx, he⟩
  have hasked : isRequestObsolete { toId } a.state = false := by
    rcases hto with rfl | ⟨x, hx, rfl⟩
    · exact not_obsolete hq (.inl rfl) (.inl rfl)
    · simp [isRequestObsolete, ArchiveHole.hasFrom, habove x hx]
  have hdepth : ({ fromId := newest } : HoleRequest).depth = -1 := rfl
  obtain ⟨a', next, hquiet, hless, hshows, hgoing, hdepth', hnext, hdrive⟩ :=
    drive_hole (k := k + 1) hq hnewest hanswers hdepth hasked (.inl rfl) hreal (.inl rfl)
  obtain ⟨n, hn, a'', hquiet', hall, hend⟩ := drive_search (k := k + 7) hquiet hnewest hanswers
    hdepth' (hnext ▸ recursion_succ (n := 0) rfl (by omega)) (by omega) hshows hgoing
  exact ⟨n + 7, by omega, a'', hquiet', hall, (drive_searchHole hsearch).trans ((hdrive n).trans hend)⟩

/-- A search for the holes of a dialog that is left alone comes to an end: it asks as often as
messages are missing, and then the index shows all that the server has. -/
theorem downloadHoles_complete (hq : Quiet server newest a) (hnewest : server.Newest newest)
    (hstate : a.state.lastMsgid = newest)
    (habove : ∀ x ∈ a.index.headersIndex.items, a.state.delUpTo < x.id)
    (hlimit : missing server a.index < 30000)
    (hanswers : ∀ k hole, ∃ messages, HistoryAnswer w server hole ((inputs k).reply hole) messages) :
    ∃ n ≤ 7 * missing server a.index + 8, ∃ a' why,
      drive w inputs 0 n (a, downloadHoles a.state (-1)) = (a', .ignored why) ∧
      Quiet server newest a' ∧ ∀ id, server.Has id → a'.index.Shows id := by
  unfold downloadHoles DlgState.hasLastMsgid
  rw [hstate]
  rcases hnewest.named with hnone | hhas
  · have hfrom : (if decide (0 < newest) = true then newest else -1) = -1 := by simp [hnone]
    rw [hfrom]
    have hempty : ∀ id, ¬ server.Has id := by
      intro id hid
      have hle := hnewest.last id hid
      rw [hnone] at hle
      exact absurd (lt_of_lt_of_le (server.positive id hid.1) hle) (by decide)
    obtain ⟨a', hquiet, hdrive⟩ := drive_nothing (k := 0) hq hnewest hempty hanswers
    exact ⟨8, by omega, a', .recursion, hdrive, hquiet, fun id hid => absurd hid (hempty id)⟩
  · have hpos : 0 < newest := server.positive _ hhas.1
    simp only [hpos, decide_true, if_true]
    by_cases hshows : a.index.Shows newest
    · have hgoing : Going server a.index newest ({ fromId := newest } : HoleRequest).fromId := by
        refine .inr ⟨hshows, fun id hid hge hle => ?_⟩
        exact le_antisymm hge hle ▸ hshows
      have hstart : ({ fromId := newest } : HoleRequest).recursion.toInt = (0 : Nat) := rfl
      obtain ⟨n, hn, a', hquiet, hall, hend⟩ :=
        drive_search (k := 0) hq hnewest hanswers rfl hstart (by omega) hshows hgoing
      exact ⟨n, by omega, a', _, hend, hquiet, hall⟩
    · obtain ⟨n, hn, a', hquiet, hall, hend⟩ :=
        drive_behind (k := 0) hq hnewest hhas hshows habove hlimit hanswers
      exact ⟨n, by omega, a', _, hend, hquiet, hall⟩

theorem missing_le_length (s : ArchiveIndex) : missing server s ≤ server.log.length := by
  classical
  exact (Finset.card_filter_le _ _).trans (List.toFinset_card_le server.log)

def twoSent : ServerHistory :=
  { log := [1, 2], issued := 2, ordered := by simp, positive := by simp, log_issued := by simp }

/-- Of two messages the server gives one at a time. -/
def twoReplies (hole : ArchiveHole) : HistoryReply :=
  let dlgState : DlgState := { lastMsgid_ok := DlgState.noLastMsgid_ok }
  if hole.fromId = -1 ∨ 2 < hole.fromId then
    { olderMsgid := 1, nodes := [some { msgid := 2 }], dlgState }
  else if 1 < hole.fromId then { nodes := [some { msgid := 1 }], dlgState }
  else { dlgState }

theorem twoReplies_answer (w : Surroundings) (hole : ArchiveHole) :
    ∃ messages, HistoryAnswer w twoSent hole (twoReplies hole) messages := by
  have hhas : ∀ id, twoSent.Has id ↔ id = 1 ∨ id = 2 := by
    intro id
    simp only [twoSent, ServerHistory.Has, List.mem_cons, List.not_mem_nil, or_false,
      and_iff_left_iff_imp]
    rintro (rfl | rfl) <;> decide
  have hshown : ∀ id, ∀ m ∈ [({ msgid := id } : HistoryMessage)],
      m.isPatch = false ∧ m.flags.deleted = false := by
    intro id m hm
    obtain rfl := List.mem_singleton.mp hm
    exact ⟨rfl, rfl⟩
  have hstorable : ∀ id, ∀ m ∈ [({ msgid := id } : HistoryMessage)],
      MessagesData.Storable w m := by
    intro id m hm
    obtain rfl := List.mem_singleton.mp hm
    exact fun _ => rfl
  unfold twoReplies
  split
  · rename_i hfrom
    refine ⟨[{ msgid := 2 }], rfl, List.pairwise_singleton _ _, fun id => ?_, by simp,
      .inr ((hhas 1).mpr (.inl rfl)), hshown 2, hstorable 2, rfl, le_rfl⟩
    rw [hhas]
    simp only [List.map_cons, List.map_nil, List.mem_singleton]
    constructor
    · rintro rfl
      exact ⟨.inr rfl, by decide, hfrom⟩
    · rintro ⟨rfl | rfl, hlt, -⟩
      · exact absurd hlt (by decide)
      · rfl
  · rename_i hfrom
    rw [not_or, not_lt] at hfrom
    split
    · rename_i hbegin
      refine ⟨[{ msgid := 1 }], rfl, List.pairwise_singleton _ _, fun id => ?_, by simp,
        .inl rfl, hshown 1, hstorable 1, rfl, le_rfl⟩
      rw [hhas]
      simp only [List.map_cons, List.map_nil, List.mem_singleton]
      constructor
      · rintro rfl
        exact ⟨.inl rfl, by decide, .inr hbegin⟩
      · rintro ⟨rfl | rfl, -, hlt⟩
        · rfl
        · exact absurd (hlt.resolve_left hfrom.1) (not_lt.mpr hfrom.2)
    · rename_i hbegin
      have hnone : ∀ id, twoSent.Has id →
          ¬ (hole.fromId = -1 ∨ id < hole.fromId) := by
        intro id hid hin
        have hlt := hin.resolve_left hfrom.1
        rcases (hhas id).mp hid with rfl | rfl
        · exact hbegin hlt
        · exact absurd hlt (not_lt.mpr hfrom.2)
      refine ⟨[], rfl, List.Pairwise.nil, fun id => ?_, fun id hid _ hin => absurd hin (hnone id hid),
        .inl rfl, by simp, by simp, rfl, le_rfl⟩
      simp only [List.map_nil, List.not_mem_nil, false_iff]
      rintro ⟨hid, -, hin⟩
      exact hnone id hid hin

/-- An archive that has nothing but the id of the last message gets both. -/
theorem downloadHoles_complete_two :
    ∃ n ≤ 22, ∃ a' why,
      drive ⟨fun _ => [], fun _ _ _ => .refused, false⟩ (fun _ => { reply := twoReplies }) 0 n
        ({ state := { lastMsgid := 2 } }, downloadHoles { lastMsgid := 2 } (-1)) =
          (a', .ignored why) ∧ a'.index.Shows 1 ∧ a'.index.Shows 2 := by
  let w : Surroundings := ⟨fun _ => [], fun _ _ _ => .refused, false⟩
  let inputs : Nat → HolesInput := fun _ => { reply := twoReplies }
  let a : ContactArchive := { state := { lastMsgid := 2 } }
  have hhas : twoSent.Has 1 ∧ twoSent.Has 2 := ⟨⟨by decide, by decide⟩, by decide, by decide⟩
  have hnone : ∀ x, x ∉ a.index.headersIndex.items := fun _ => List.not_mem_nil
  have hq : Quiet twoSent 2 a := by
    refine ⟨⟨?_, ?_, ?_, ?_⟩, le_rfl, ⟨⟨rfl, rfl⟩, rfl⟩, ?_⟩ <;>
      exact fun x hx => absurd hx (hnone x)
  have hnewest : twoSent.Newest 2 := by
    refine ⟨.inr hhas.2, fun m hm => ?_⟩
    have hmem : m ∈ ([1, 2] : List Int64) := hm.1
    rcases List.mem_cons.mp hmem with rfl | hmem
    · decide
    · exact (List.mem_singleton.mp hmem).le
  have hmissing : missing twoSent a.index ≤ 2 := missing_le_length a.index
  have hanswers : ∀ k hole, ∃ messages,
      HistoryAnswer w twoSent hole ((inputs k).reply hole) messages :=
    fun _ hole => twoReplies_answer w hole
  obtain ⟨n, hn, a', why, hend, -, hall⟩ := downloadHoles_complete hq hnewest rfl
    (fun x hx => absurd hx (hnone x)) (by omega) hanswers
  exact ⟨n, by omega, a', why, hend, hall 1 hhas.1, hall 2 hhas.2⟩

end

end Icq.Wim
