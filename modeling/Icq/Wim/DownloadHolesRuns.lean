import Icq.Archive.CoveredHistory
import Icq.Lib.Run
import Icq.Wim.DownloadHoles

/-! Any number of searches for the holes of one contact, whose steps come between each other, between
new messages and between deletions. -/

namespace Icq.Archive

namespace ServerHistory

/-- Someone writes a message; its id is above all that were given. -/
def post (server : ServerHistory) (id : Int64) : Option ServerHistory :=
  if h : server.issued < id ∧ 0 < id then
    some
      { server with
        log := server.log ++ [id], issued := id
        ordered := by
          rw [List.pairwise_append]
          refine ⟨server.ordered, List.pairwise_singleton _ _, ?_⟩
          intro a ha b hb
          rw [List.mem_singleton.mp hb]
          exact lt_of_le_of_lt (server.log_issued a ha) h.1
        positive := by
          intro a ha
          rcases List.mem_append.mp ha with ha | ha
          · exact server.positive a ha
          · exact List.mem_singleton.mp ha ▸ h.2
        log_issued := by
          intro a ha
          rcases List.mem_append.mp ha with ha | ha
          · exact (server.log_issued a ha).trans (le_of_lt h.1)
          · exact (List.mem_singleton.mp ha).le }
  else none

def eraseUpTo (server : ServerHistory) (upTo : Int64) : ServerHistory :=
  { server with bound := max server.bound upTo }

/-- What becomes of a history on the server. -/
structure Later (server server' : ServerHistory) : Prop where
  log : ∀ id ∈ server.log, id ∈ server'.log
  old : ∀ id ∈ server'.log, id ≤ server.issued → id ∈ server.log
  bound : server.bound ≤ server'.bound
  issued : server.issued ≤ server'.issued

variable {server server' : ServerHistory} {id : Int64}

theorem Later.refl : Later server server :=
  ⟨fun _ h => h, fun _ h _ => h, le_rfl, le_rfl⟩

theorem Later.has (h : Later server server') (hid : server'.Has id) (hle : id ≤ server.issued) :
    server.Has id :=
  ⟨h.old id hid.1 hle, lt_of_le_of_lt h.bound hid.2⟩

theorem post_later (h : server.post id = some server') : Later server server' := by
  unfold post at h
  split at h
  · rename_i hnew
    obtain rfl := Option.some.inj h
    refine ⟨fun a ha => List.mem_append_left _ ha, ?_, le_rfl, le_of_lt hnew.1⟩
    intro a ha hle
    rcases List.mem_append.mp ha with ha | ha
    · exact ha
    · exact absurd (List.mem_singleton.mp ha ▸ hnew.1) (not_lt.mpr hle)
  · cases h

theorem eraseUpTo_later (server : ServerHistory) (upTo : Int64) :
    Later server (server.eraseUpTo upTo) :=
  ⟨fun _ h => h, fun _ h _ => h, le_max_left _ _, le_rfl⟩

end ServerHistory

/-- A truthful index stays so whatever becomes of the history on the server. -/
theorem Truthful.later {server server' : ServerHistory} {s : ArchiveIndex} (ht : Truthful server s)
    (h : server.Later server') : Truthful server' s where
  issued := fun x hx => ⟨(ht.issued x hx).1, (ht.issued x hx).2.trans h.issued⟩
  shown := fun x hx hlog => ht.shown x hx (h.old x.id hlog (ht.issued x hx).2)
  links := by
    intro x hx hv
    refine (ht.links x hx hv).mono ?_ fun _ _ hid => hid
    exact fun id hid hlt => h.has hid ((le_of_lt hlt).trans (ht.issued x hx).2)

end Icq.Archive

namespace Icq.Wim
open Icq.Lib Icq.Tools Icq.Archive ServerHistory

/-- A search, and the newest header it began at, which the code does not keep. -/
structure HolesSearch where
  stage : HolesStage
  top : Option Int64 := none

/-- The history of one contact on the server and in the archive, with all that goes on about it. -/
structure HolesSync where
  server : ServerHistory
  archive : ContactArchive
  searches : List HolesSearch := []
  failed : Option HoleRequest := none

inductive HolesAction where
  | post (id : Int64)
  | eraseOnServer (upTo : Int64)
  | eraseLocally (now : Option Int64) (upTo : Int64)
  | setDlgState (now : Option Int64) (state : DlgState)
  | insertBlock (data : List ArrivedMessage) (currentTime : Int)
  | start (request : HoleRequest)
  | retry
  | advance (search : Nat) (clock : HolesClock)
  | answer (search : Nat) (reply : HistoryReply)
  | refuse (search : Nat) (error : Int32)

namespace HolesSearch

/-- A search that begins anew at the newest header forgets what it has been through. -/
def nextTop (a : ContactArchive) (x : HolesSearch) : Option Int64 :=
  match x.stage with
  | .search request =>
    if request.fromId = -1 ∨ x.top = none then
      (visibleFrom a.index request.fromId).head?.map MessageHeader.id
    else x.top
  | _ => x.top

def advance (w : Surroundings) (clock : HolesClock) (a : ContactArchive) (x : HolesSearch) :
    Option (ContactArchive × HolesSearch) :=
  (x.stage.next w clock a).map fun (a', stage) => (a', { stage, top := x.nextTop a })

/-- The error of a request: some are tried again later. -/
def refuse (failed : Option HoleRequest) (error : Int32) (x : HolesSearch) :
    Option (HolesSearch × Option HoleRequest) :=
  match x.stage with
  | .ask round =>
    some ({ x with stage := .failed error },
      if needsToRepeatFailed error then addFailedRequest failed round.request else failed)
  | _ => none

def answer (reply : HistoryReply) (x : HolesSearch) : Option HolesSearch :=
  match x.stage with
  | .ask round => some { x with stage := .received round reply }
  | _ => none

end HolesSearch

namespace HolesSync

variable (w : Surroundings)

def start (s : HolesSync) (request : HoleRequest) : HolesSync :=
  { s with searches := s.searches ++ [{ stage := .search request }] }

def step (s : HolesSync) : HolesAction → Option HolesSync
  | .post id => (s.server.post id).map fun server => { s with server }
  | .eraseOnServer upTo => some { s with server := s.server.eraseUpTo upTo }
  | .eraseLocally now upTo => some { s with archive := s.archive.deleteMessagesUpTo now upTo }
  | .setDlgState now state => some { s with archive := s.archive.setDlgState now state }
  | .insertBlock data currentTime =>
    match s.archive.insertHistoryBlock w data currentTime (-1) true with
    | .ok (_, _, archive) => some { s with archive }
    | _ => none
  | .start request => some (s.start request)
  | .retry => s.failed.map fun request => { s with failed := none }.start request
  | .advance search clock => do
    let x ← s.searches[search]?
    let (archive, x) ← x.advance w clock s.archive
    some { s with archive, searches := s.searches.set search x }
  | .answer search reply => do
    let x ← s.searches[search]?
    let x ← x.answer reply
    some { s with searches := s.searches.set search x }
  | .refuse search error => do
    let x ← s.searches[search]?
    let (x, failed) ← x.refuse s.failed error
    some { s with searches := s.searches.set search x, failed }

end HolesSync

section Told

variable {w : Surroundings} {server server' : ServerHistory} {hole : ArchiveHole}
  {reply : HistoryReply} {messages block : List HistoryMessage} {older : Int64} {hasOlder : Bool}
  {m : HistoryMessage}

/-- What the server answers: all its messages between an older one and the begin of the hole, at
least one if there is any inside the hole, and no patches. -/
structure HistoryAnswer (w : Surroundings) (server : ServerHistory) (hole : ArchiveHole)
    (reply : HistoryReply) (messages : List HistoryMessage) : Prop where
  nodes : reply.nodes = messages.map some
  ordered : (messages.map (·.msgid)).Pairwise (· < ·)
  exact : ∀ id, id ∈ messages.map (·.msgid) ↔
    server.Has id ∧ reply.olderMsgid < id ∧ (hole.fromId = -1 ∨ id < hole.fromId)
  progress : ∀ id, server.Has id → hole.toId < id → (hole.fromId = -1 ∨ id < hole.fromId) →
    messages ≠ []
  older : reply.olderMsgid = -1 ∨ server.Has reply.olderMsgid
  shown : ∀ m ∈ messages, m.isPatch = false ∧ m.flags.deleted = false
  storable : ∀ m ∈ messages, MessagesData.Storable w m
  patches : reply.patches = []
  delUpTo : reply.dlgState.delUpTo ≤ server.bound

/-- What stays true of the messages of an answer while it is on its way. -/
structure Told (w : Surroundings) (server : ServerHistory) (hole : ArchiveHole)
    (block : List HistoryMessage) (hasOlder : Bool) : Prop where
  logged : ∀ m ∈ block, m.msgid ∈ server.log
  shown : ∀ m ∈ block, m.isPatch = false ∧ m.flags.deleted = false
  storable : ∀ m ∈ block, MessagesData.Storable w m
  links : ∀ m ∈ block, ∀ id, server.Has id → id < m.msgid → id ≤ m.prevMsgid
  first : hole.fromId ≠ -1 → hasOlder = false →
    ∀ id, server.Has id → id < hole.fromId → ∃ m ∈ block, m.msgid = id
  filled : hole.fromId ≠ -1 → ∀ id, server.Has id → hole.toId < id → id < hole.fromId →
    ∃ m ∈ block, id ≤ m.msgid ∧ m.msgid < hole.fromId

/-- Messages in order are all kept, each linked to the one before. -/
theorem parse_links (h : (older :: messages.map (·.msgid)).Pairwise (· < ·)) :
    (parseHistoryMessagesArray older (messages.map some)).map (·.msgid) = messages.map (·.msgid) ∧
      ∀ m' ∈ parseHistoryMessagesArray older (messages.map some), older ≤ m'.prevMsgid ∧
        (∀ id ∈ messages.map (·.msgid), id < m'.msgid → id ≤ m'.prevMsgid) ∧
        ∃ m ∈ messages, m' = { m with prevMsgid := m'.prevMsgid } := by
  induction messages generalizing older with
  | nil => simp [parseHistoryMessagesArray]
  | cons m rest ih =>
    obtain ⟨hfirst, hrest⟩ := List.pairwise_cons.mp h
    obtain ⟨hids, hlinks⟩ := ih hrest
    have hlt : older < m.msgid := hfirst m.msgid (by simp)
    have hparse : parseHistoryMessagesArray older ((m :: rest).map some) =
        { m with prevMsgid := older } :: parseHistoryMessagesArray m.msgid (rest.map some) := by
      rw [List.map_cons, parseHistoryMessagesArray, if_neg (ne_of_lt hlt)]
    rw [hparse]
    refine ⟨by simp [hids], ?_⟩
    intro m' hm'
    rcases List.mem_cons.mp hm' with rfl | hm'
    · refine ⟨le_rfl, ?_, m, by simp, rfl⟩
      intro id hid hid'
      rcases List.mem_cons.mp hid with rfl | hid
      · exact absurd hid' (lt_irrefl _)
      · exact absurd hid' (not_lt.mpr (le_of_lt ((List.pairwise_cons.mp hrest).1 id hid)))
    · obtain ⟨hle, hall, y, hy, he⟩ := hlinks m' hm'
      refine ⟨(le_of_lt hlt).trans hle, ?_, y, List.mem_cons_of_mem _ hy, he⟩
      intro id hid hid'
      rcases List.mem_cons.mp hid with rfl | hid
      · exact hle
      · exact hall id hid hid'

theorem HistoryAnswer.told (h : HistoryAnswer w server hole reply messages) :
    Told w server hole reply.messages reply.hasOlderMsgid := by
  have hordered : (reply.olderMsgid :: messages.map (·.msgid)).Pairwise (· < ·) :=
    List.pairwise_cons.mpr ⟨fun id hid => ((h.exact id).mp hid).2.1, h.ordered⟩
  obtain ⟨hids, hlinks⟩ := parse_links hordered
  have hmessages : reply.messages =
      parseHistoryMessagesArray reply.olderMsgid (messages.map some) := by
    rw [HistoryReply.messages, h.nodes]
  rw [← hmessages] at hids hlinks
  have hmem : ∀ id, id ∈ messages.map (·.msgid) → ∃ m ∈ reply.messages, m.msgid = id := by
    intro id hid
    rw [← hids] at hid
    simpa using hid
  refine ⟨?_, ?_, ?_, ?_, ?_, ?_⟩
  · intro m hm
    exact ((h.exact m.msgid).mp (hids ▸ List.mem_map_of_mem hm)).1.1
  · intro m hm
    obtain ⟨-, -, y, hy, he⟩ := hlinks m hm
    rw [he]
    exact h.shown y hy
  · intro m hm
    obtain ⟨-, -, y, hy, he⟩ := hlinks m hm
    rw [he]
    exact fun prevMsgid => h.storable y hy prevMsgid
  · intro m hm id hid hlt
    obtain ⟨hle, hall, -⟩ := hlinks m hm
    by_cases hold : id ≤ reply.olderMsgid
    · exact hold.trans hle
    · refine hall id ((h.exact id).mpr ⟨hid, not_le.mp hold, ?_⟩) hlt
      exact (((h.exact m.msgid).mp (hids ▸ List.mem_map_of_mem hm)).2.2).imp_right hlt.trans
  · intro _ hnone id hid hlt
    have holder : reply.olderMsgid = -1 := by simpa [HistoryReply.hasOlderMsgid] using hnone
    apply hmem
    refine (h.exact id).mpr ⟨hid, ?_, .inr hlt⟩
    rw [holder]
    exact lt_trans (by decide) (server.positive id hid.1)
  · intro hfrom id hid hto hlt
    obtain ⟨m, hm⟩ := List.exists_mem_of_ne_nil _ (h.progress id hid hto (.inr hlt))
    obtain ⟨-, hmolder, hmfrom⟩ := (h.exact m.msgid).mp (List.mem_map_of_mem hm)
    by_cases hold : reply.olderMsgid < id
    · obtain ⟨y, hy, rfl⟩ := hmem id ((h.exact id).mpr ⟨hid, hold, .inr hlt⟩)
      exact ⟨y, hy, le_rfl, hlt⟩
    · obtain ⟨y, hy, he⟩ := hmem m.msgid (List.mem_map_of_mem hm)
      rw [← he] at hmolder hmfrom
      exact ⟨y, hy, (not_lt.mp hold).trans (le_of_lt hmolder), hmfrom.resolve_left hfrom⟩

theorem Told.later (h : Told w server hole block hasOlder) (hlater : server.Later server')
    (hissued : hole.fromId = -1 ∨ hole.fromId ≤ server.issued) :
    Told w server' hole block hasOlder where
  logged := fun m hm => hlater.log _ (h.logged m hm)
  shown := h.shown
  storable := h.storable
  links := by
    intro m hm id hid hlt
    have hle := (le_of_lt hlt).trans (server.log_issued _ (h.logged m hm))
    exact h.links m hm id (hlater.has hid hle) hlt
  first := by
    intro hfrom hnone id hid hlt
    have hle := (le_of_lt hlt).trans (hissued.resolve_left hfrom)
    exact h.first hfrom hnone id (hlater.has hid hle) hlt
  filled := by
    intro hfrom id hid hto hlt
    have hle := (le_of_lt hlt).trans (hissued.resolve_left hfrom)
    exact h.filled hfrom id (hlater.has hid hle) hto hlt

end Told

section Kept

variable {w : Surroundings} {server server' : ServerHistory} {s s' : ArchiveIndex}
  {top : Option Int64} {hole : ArchiveHole} {stage : HolesStage} {block : List HistoryMessage}

/-- What is known of a hole that begins at a header: from there to the top nothing is missing, and
where it ends another header is shown. -/
structure HoleOk (server : ServerHistory) (s : ArchiveIndex) (top : Option Int64)
    (hole : ArchiveHole) : Prop where
  issued : hole.fromId ≤ server.issued
  shows : server.bound < hole.fromId → s.Shows hole.fromId
  unhidden : ∀ x ∈ s.headersIndex.items, x.id = hole.fromId → visible x = true
  covers : ∀ t ∈ top, HoldsBetween server s hole.fromId t
  below : server.bound < hole.toId → 0 < hole.toId → hole.toId < hole.fromId ∧ s.Shows hole.toId

/-- The answer was put in: of what the server has in the hole, something is shown. -/
def Filled (server : ServerHistory) (s : ArchiveIndex) (hole : ArchiveHole) : Prop :=
  hole.fromId ≠ -1 → ∀ id, server.Has id → hole.toId < id → id < hole.fromId →
    ∃ id', s.Shows id' ∧ id ≤ id' ∧ id' < hole.fromId

def HoleKnown (server : ServerHistory) (s : ArchiveIndex) (top : Option Int64)
    (hole : ArchiveHole) : Prop :=
  hole.fromId = -1 ∨ HoleOk server s top hole

def StageOk (w : Surroundings) (server : ServerHistory) (s : ArchiveIndex) (top : Option Int64) :
    HolesStage → Prop
  | .search request => request.fromId = -1 ∨ top = none ∨
      (∀ t ∈ top, HoldsBetween server s request.fromId t) ∧
        (server.bound < request.fromId → s.Shows request.fromId)
  | .check _ hole => HoleKnown server s top hole
  | .ask round => HoleKnown server s top round.hole
  | .received round reply => HoleKnown server s top round.hole ∧ reply.patches = [] ∧
      reply.dlgState.delUpTo ≤ server.bound ∧
      Told w server round.hole reply.messages reply.hasOlderMsgid
  | .merge round history hasOlder => HoleKnown server s top round.hole ∧
      history.dlgState.delUpTo ≤ server.bound ∧ Told w server round.hole history.block hasOlder
  | .insert round block hasOlder => HoleKnown server s top round.hole ∧
      Told w server round.hole block hasOlder
  | .validate round => HoleKnown server s top round.hole ∧ Filled server s round.hole
  | .ignored (.noHole .lastReached) => ∀ t ∈ top, ∀ id, server.Has id → id ≤ t → s.Shows id
  | _ => True

/-- What happens meanwhile: the history on the server goes on, and the index keeps what it shows. -/
structure Meanwhile (server server' : ServerHistory) (s s' : ArchiveIndex) : Prop where
  later : server.Later server'
  shows : ∀ id, server'.bound < id → s.Shows id → s'.Shows id
  unhidden : ∀ x ∈ s'.headersIndex.items, visible x = false →
    ∃ y ∈ s.headersIndex.items, y.id = x.id ∧ visible y = false

theorem meanwhile_of_keeps (h : Keeps server s s') : Meanwhile server server s s' :=
  ⟨.refl, h.shows, h.unhidden⟩

theorem meanwhile_of_later (h : server.Later server') : Meanwhile server server' s s :=
  ⟨h, fun _ _ hid => hid, fun x hx hv => ⟨x, hx, rfl, hv⟩⟩

variable (hm : Meanwhile server server' s s')

include hm

theorem covers_meanwhile {low t : Int64} (h : HoldsBetween server s low t) (ht : t ≤ server.issued) :
    HoldsBetween server' s' low t := by
  intro id hid hge hle
  exact hm.shows id hid.2 (h id (hm.later.has hid (hle.trans ht)) hge hle)

theorem HoleOk.meanwhile (h : HoleOk server s top hole) (ht : ∀ t ∈ top, t ≤ server.issued) :
    HoleOk server' s' top hole where
  issued := h.issued.trans hm.later.issued
  shows := fun hlt => hm.shows _ hlt (h.shows (lt_of_le_of_lt hm.later.bound hlt))
  unhidden := by
    intro x hx hid
    by_contra hv
    obtain ⟨y, hy, hyid, hyv⟩ := hm.unhidden x hx (by simpa using hv)
    simp [h.unhidden y hy (hyid.trans hid)] at hyv
  covers := fun t htop => covers_meanwhile hm (h.covers t htop) (ht t htop)
  below := by
    intro hlt hpos
    obtain ⟨hbelow, hshows⟩ := h.below (lt_of_le_of_lt hm.later.bound hlt) hpos
    exact ⟨hbelow, hm.shows _ hlt hshows⟩

theorem StageOk.meanwhile (h : StageOk w server s top stage) (ht : ∀ t ∈ top, t ≤ server.issued) :
    StageOk w server' s' top stage := by
  have hhole : ∀ {hole : ArchiveHole}, HoleKnown server s top hole → HoleKnown server' s' top hole :=
    fun hknown => hknown.imp_right fun hok => hok.meanwhile hm ht
  have hissued : ∀ {hole : ArchiveHole}, HoleKnown server s top hole →
      hole.fromId = -1 ∨ hole.fromId ≤ server.issued :=
    fun hknown => hknown.imp_right HoleOk.issued
  cases stage with
  | search request =>
    refine h.imp_right fun h => h.imp_right fun ⟨hcovers, hshows⟩ => ⟨?_, ?_⟩
    · exact fun t htop => covers_meanwhile hm (hcovers t htop) (ht t htop)
    · exact fun hlt => hm.shows _ hlt (hshows (lt_of_le_of_lt hm.later.bound hlt))
  | check request hole => exact hhole h
  | ask round => exact hhole h
  | received round reply =>
    obtain ⟨hknown, hpatches, hdel, htold⟩ := h
    exact ⟨hhole hknown, hpatches, hdel.trans hm.later.bound,
      htold.later hm.later (hissued hknown)⟩
  | merge round history hasOlder =>
    obtain ⟨hknown, hdel, htold⟩ := h
    exact ⟨hhole hknown, hdel.trans hm.later.bound, htold.later hm.later (hissued hknown)⟩
  | insert round block hasOlder =>
    obtain ⟨hknown, htold⟩ := h
    exact ⟨hhole hknown, htold.later hm.later (hissued hknown)⟩
  | validate round =>
    obtain ⟨hknown, hfilled⟩ := h
    refine ⟨hhole hknown, fun hfrom id hid hto hlt => ?_⟩
    have hle := (le_of_lt hlt).trans ((hissued hknown).resolve_left hfrom)
    obtain ⟨id', hshows, hge, hlt'⟩ := hfilled hfrom id (hm.later.has hid hle) hto hlt
    exact ⟨id', hm.shows id' (lt_of_lt_of_le hid.2 hge) hshows, hge, hlt'⟩
  | ignored why =>
    cases why with
    | noHole error =>
      cases error with
      | lastReached =>
        intro t htop id hid hle
        exact hm.shows id hid.2 (h t htop id (hm.later.has hid (hle.trans (ht t htop))) hle)
      | _ => trivial
    | _ => trivial
  | _ => trivial

end Kept

section Steps

variable {w : Surroundings} {server : ServerHistory} {a a' : ContactArchive} {clock : HolesClock}
  {top : Option Int64} {round : HoleRound} {reply : HistoryReply} {stage : HolesStage}

/-- A search finds a hole that is real, or it has been through everything. -/
theorem searchHole_ok {request : HoleRequest} (ht : Truthful server a.index)
    (hreach : ∀ t ∈ top, Reaches server a.index request.fromId t) :
    StageOk w server a.index top (searchHole a request) := by
  have hcheck : ∀ hole, HoleKnown server a.index top hole → StageOk w server a.index top
      (if 0 < request.recursion && hole.fromId == -1 then .ignored .recursion
        else if 30000 < request.recursion then .ignored .safetyLimit
        else .check request hole) := by
    intro hole hknown
    split
    · trivial
    · split
      · trivial
      · exact hknown
  unfold searchHole
  by_cases hfrom : request.fromId = -1 ∨ request.fromId ∈ a.index.ids
  · rcases getNextHole_cases a.index request.fromId {} request.depth ht.size hfrom with
      ⟨-, hanswer⟩ | ⟨-, hanswer⟩ | ⟨front, x, hfirst, hcases⟩
    · rw [hanswer]
      exact hcheck _ (.inl rfl)
    · rw [hanswer]
      trivial
    · rcases hcases with ⟨hv, hanswer⟩ | ⟨y, rest, hv, -, hanswer⟩
      · have hx : x ∈ visibleFrom a.index request.fromId := by simp [hv]
        obtain ⟨hmem, hvisible, -⟩ := mem_visibleFrom.mp hx
        by_cases hlast : x.prevId = -1
        · rw [hanswer, if_pos hlast]
          exact fun t htop id hid hle => (hreach t htop).all ht hv hfirst hlast hid hle
        · rw [hanswer, if_neg hlast]
          refine hcheck _ (.inr ⟨(ht.issued x hmem).2, fun _ => shows_of_mem hx, ?_, ?_, ?_⟩)
          · intro z hz hid
            rw [KeyMap.eq_of_key hz hmem hid]
            exact hvisible
          · exact fun t htop => (hreach t htop).covers ht hv hfirst
          · exact fun _ hpos => absurd hpos (show ¬ (0 : Int64) < -1 by decide)
      · have hx : x ∈ visibleFrom a.index request.fromId := by simp [hv]
        have hy : y ∈ visibleFrom a.index request.fromId := by simp [hv]
        obtain ⟨hmem, hvisible, -⟩ := mem_visibleFrom.mp hx
        have hsorted := visibleFrom_sorted a.index request.fromId
        rw [hv] at hsorted
        have hlt := (List.pairwise_cons.mp (List.pairwise_append.mp hsorted).2.1).1 y (by simp)
        rw [hanswer]
        refine hcheck _ (.inr ⟨(ht.issued x hmem).2, fun _ => shows_of_mem hx, ?_, ?_, ?_⟩)
        · intro z hz hid
          rw [KeyMap.eq_of_key hz hmem hid]
          exact hvisible
        · exact fun t htop => (hreach t htop).covers ht hv hfirst
        · exact fun _ _ => ⟨hlt, shows_of_mem hy⟩
  · rw [not_or] at hfrom
    rcases getNextHole_absent hfrom.1 hfrom.2 with hanswer | ⟨toId, hanswer⟩
    · rw [hanswer]
      trivial
    · rw [hanswer]
      exact hcheck _ (.inl rfl)

theorem checkHole_ok {request : HoleRequest} {hole : ArchiveHole} {pageSize : Int64}
    (h : HoleKnown server a.index top hole) :
    StageOk w server a.index top (checkHole a pageSize request hole) := by
  unfold checkHole
  split
  · trivial
  · split
    · simp only
      split
      · trivial
      · exact h
    · exact h

theorem parseResults_unpatched (h : reply.patches = []) :
    reply.parseResults w.unset =
      { block := reply.messages, dlgState := reply.dlgState.setLastMessage reply.messages } := by
  unfold HistoryReply.parseResults
  rw [h]
  rfl

theorem setLastMessage_delUpTo (state : DlgState) (block : List HistoryMessage) :
    (state.setLastMessage block).delUpTo = state.delUpTo := by
  unfold DlgState.setLastMessage
  split
  · rfl
  · split <;> rfl

theorem completeDlgState_delUpTo (stored : DlgState) (isTail : Bool) (patches : List HistoryPatch)
    (history : PatchedHistory) :
    (completeDlgState stored isTail patches history).delUpTo = history.dlgState.delUpTo := by
  unfold completeDlgState
  simp only
  split
  · split <;> rfl
  · split <;> rfl

theorem receiveReply_ok (h : StageOk w server a.index top (.received round reply))
    (htail : isTailBehind a (round.hole.fromId == -1) reply.messages = false) :
    ∃ stage, receiveReply w.unset a round reply = (a, stage) ∧ StageOk w server a.index top stage := by
  obtain ⟨hknown, hpatches, hdel, htold⟩ := h
  unfold receiveReply
  rw [parseResults_unpatched hpatches]
  simp only [htail]
  refine ⟨_, rfl, hknown, ?_, htold⟩
  rw [completeDlgState_delUpTo, setLastMessage_delUpTo]
  exact hdel

theorem setDlgState_delUpTo {now : Option Int64} {state : DlgState}
    (hbound : a.state.delUpTo ≤ server.bound) (hstate : state.delUpTo ≤ server.bound) :
    (a.setDlgState now state).state.delUpTo ≤ server.bound := by
  unfold ContactArchive.setDlgState
  cases hbehind : a.state.isBehind state with
  | true =>
    unfold DlgState.mergeState
    simp only [hbehind, if_true]
    exact hbound
  | false =>
    simp only [DlgState.mergeState_delUpTo hbehind]
    exact max_le hbound hstate

theorem mergeReply_ok {now : Option Int64} {history : PatchedHistory} {hasOlder : Bool}
    (h : StageOk w server a.index top (.merge round history hasOlder)) :
    mergeReply a now round history hasOlder =
      (a.setDlgState now history.dlgState, .insert round history.block hasOlder) := by
  obtain ⟨-, -, htold⟩ := h
  unfold mergeReply
  have hclear : (history.block.any fun m => m.isPatch && m.flags.clear) = false := by
    rw [List.any_eq_false]
    intro m hm
    simp [(htold.shown m hm).1]
  simp [hclear]

theorem mem_arrivedMessages {block : List HistoryMessage} {arrived : ArrivedMessage}
    (h : arrived ∈ arrivedMessages block) : arrived.message ∈ block := by
  obtain ⟨m, hm, he⟩ := List.mem_filterMap.mp h
  split at he
  · obtain rfl := Option.some.inj he
    exact hm
  · cases he

theorem arrivedMessages_mem {block : List HistoryMessage} {m : HistoryMessage} (hm : m ∈ block)
    (hid : m.hasMsgid = true) : ⟨m, hid⟩ ∈ arrivedMessages block :=
  List.mem_filterMap.mpr ⟨m, hm, by rw [dif_pos hid]⟩

theorem Told.trueMessage {hole : ArchiveHole} {block : List HistoryMessage} {hasOlder : Bool}
    {m : HistoryMessage} (h : Told w server hole block hasOlder) (hm : m ∈ block)
    (s : ArchiveIndex) : TrueMessage server s m where
  logged := .inl (h.logged m hm)
  deleted := (h.shown m hm).2
  patch := .inl (h.shown m hm).1
  link := fun id hid hlt => .inl (h.links m hm id hid hlt)

theorem Told.hasMsgid {hole : ArchiveHole} {block : List HistoryMessage} {hasOlder : Bool}
    {m : HistoryMessage} (h : Told w server hole block hasOlder) (hm : m ∈ block) :
    m.hasMsgid = true :=
  decide_eq_true (server.positive _ (h.logged m hm))

theorem insertReply_ok {currentTime : Int} {block : List HistoryMessage} {hasOlder : Bool}
    (ht : Truthful server a.index) (hbound : a.state.delUpTo ≤ server.bound)
    (hdisk : MessagesData.Reliable a.dataDisk) (htop : ∀ t ∈ top, t ≤ server.issued)
    (h : StageOk w server a.index top (.insert round block hasOlder))
    (hr : insertReply w a currentTime round block hasOlder = some (a', stage)) :
    Keeps server a.index a'.index ∧ a'.state = a.state ∧ MessagesData.Reliable a'.dataDisk ∧
      StageOk w server a'.index top stage := by
  obtain ⟨hknown, htold⟩ := h
  unfold insertReply at hr
  split at hr
  · rename_i result headers archive hinsert
    cases hr
    have hinserted := ContactArchive.insertHistoryBlock_inserted ht
      (fun id hid => lt_of_le_of_lt hbound hid.2)
      (fun arrived hmem => htold.trueMessage (mem_arrivedMessages hmem) a.index)
      (fun hfrom hnone => ⟨((hknown.resolve_left hfrom)).unhidden, fun id hid hlt => by
        obtain ⟨m, hm, he⟩ := htold.first hfrom hnone id hid hlt
        exact ⟨_, arrivedMessages_mem hm (htold.hasMsgid hm), he⟩⟩) hinsert
    have hmeanwhile := meanwhile_of_keeps hinserted.keeps
    refine ⟨hinserted.keeps, hinserted.state, hinserted.reliable hdisk,
      hknown.imp_right fun hok => hok.meanwhile hmeanwhile htop, ?_⟩
    intro hfrom id hid hto hlt
    obtain ⟨m, hm, hge, hlt'⟩ := htold.filled hfrom id hid hto hlt
    refine ⟨m.msgid, ?_, hge, hlt'⟩
    have hmem := arrivedMessages_mem hm (htold.hasMsgid hm)
    exact hinserted.shows hdisk (fun arrived harrived =>
      htold.storable _ (mem_arrivedMessages harrived)) _ hmem
      ⟨htold.logged m hm, lt_of_lt_of_le hid.2 hge⟩
  · cases hr

/-- Where the search goes on, nothing was left out. -/
theorem validateHole_ok {pageSize : Int64} (hknown : HoleKnown server a.index top round.hole)
    (hfilled : Filled server a.index round.hole) :
    StageOk w server a.index top (validateHole a pageSize round) := by
  unfold validateHole
  by_cases hfrom : round.hole.fromId = -1
  · refine .inl ?_
    rcases validateHoleRequest_cases a.index round.hole (-pageSize).toInt32 with hsame | hbelow
    · exact hsame.trans hfrom
    · rw [hfrom] at hbelow
      exact absurd hbelow.1 (by decide)
  · have hok := hknown.resolve_left hfrom
    refine .inr (.inr ?_)
    rcases validateHoleRequest_cases a.index round.hole (-pageSize).toInt32 with hsame | hbelow
    · simp only [hsame]
      exact ⟨hok.covers, hok.shows⟩
    · obtain ⟨-, hto, x, hx, hv, hlt, hresult, hmax⟩ := hbelow
      simp only [hresult]
      refine ⟨fun t htop id hid hge hle => ?_, fun _ => ⟨x, hx, rfl, hv⟩⟩
      by_cases hin : round.hole.fromId ≤ id
      · exact hok.covers t htop id hid hin hle
      · rw [not_le] at hin
        have hequal : ∀ id', a.index.Shows id' → id ≤ id' → id' < round.hole.fromId →
            a.index.Shows id := by
          intro id' hshows hge' hlt'
          obtain ⟨y, hy, rfl, hyv⟩ := hshows
          have hle' := hge'.trans (hmax y hy hyv hlt')
          rw [le_antisymm hle' hge]
          exact ⟨x, hx, rfl, hv⟩
        by_cases hinside : round.hole.toId < id
        · obtain ⟨id', hshows, hge', hlt'⟩ := hfilled hfrom id hid hinside hin
          exact hequal id' hshows hge' hlt'
        · rw [not_lt] at hinside
          obtain ⟨hbelow, hshows⟩ := hok.below (lt_of_lt_of_le hid.2 hinside) hto
          exact hequal _ hshows hinside hbelow

/-- A search begins at the top, or where it has been through everything above. -/
theorem nextTop_reaches {x : HolesSearch} {request : HoleRequest} (ht : Truthful server a.index)
    (hstage : x.stage = .search request) (htop : ∀ t ∈ x.top, t ≤ server.issued)
    (h : StageOk w server a.index x.top (.search request)) :
    ∀ t ∈ x.nextTop a, t ≤ server.issued ∧ Reaches server a.index request.fromId t := by
  intro t hmem
  unfold HolesSearch.nextTop at hmem
  simp only [hstage] at hmem
  split at hmem
  · obtain ⟨y, hy, rfl⟩ := Option.map_eq_some_iff.mp hmem
    have hin := (mem_visibleFrom.mp (List.mem_of_mem_head? hy)).1
    exact ⟨(ht.issued y hin).2, reaches_head hy⟩
  · rename_i hcontinues
    rw [not_or] at hcontinues
    obtain ⟨hcovers, hshows⟩ := (h.resolve_left hcontinues.1).resolve_left hcontinues.2
    exact ⟨htop t hmem, (hcovers t hmem).reaches hshows⟩

theorem nextTop_eq {x : HolesSearch} (h : ∀ request, x.stage ≠ .search request) :
    x.nextTop a = x.top := by
  unfold HolesSearch.nextTop
  split
  · rename_i request hstage
    exact absurd hstage (h request)
  · rfl

/-- The answer that a search has got is no tail that is behind the index. -/
def NotBehind (a : ContactArchive) (x : HolesSearch) : Prop :=
  ∀ round reply, x.stage = .received round reply →
    isTailBehind a (round.hole.fromId == -1) reply.messages = false

/-- The step of one search. -/
theorem advance_ok {x x' : HolesSearch} (ht : Truthful server a.index)
    (hbound : a.state.delUpTo ≤ server.bound) (hdisk : MessagesData.Reliable a.dataDisk)
    (htop : ∀ t ∈ x.top, t ≤ server.issued) (h : StageOk w server a.index x.top x.stage)
    (htail : NotBehind a x) (hstep : x.advance w clock a = some (a', x')) :
    Keeps server a.index a'.index ∧ a'.state.delUpTo ≤ server.bound ∧
      MessagesData.Reliable a'.dataDisk ∧ (∀ t ∈ x'.top, t ≤ server.issued) ∧
      StageOk w server a'.index x'.top x'.stage := by
  obtain ⟨⟨a₁, stage'⟩, hnext, he⟩ := Option.map_eq_some_iff.mp hstep
  simp only [Prod.mk.injEq] at he
  obtain ⟨rfl, rfl⟩ := he
  have hsame : Keeps server a.index a.index := ht.keeps rfl
  cases hstage : x.stage with
  | search request =>
    simp only [hstage, HolesStage.next, Option.some.injEq, Prod.mk.injEq] at hnext
    obtain ⟨rfl, rfl⟩ := hnext
    have hreach := nextTop_reaches ht hstage htop (hstage ▸ h)
    exact ⟨hsame, hbound, hdisk, fun t hmem => (hreach t hmem).1,
      searchHole_ok ht fun t hmem => (hreach t hmem).2⟩
  | check request hole =>
    simp only [hstage, HolesStage.next, Option.some.injEq, Prod.mk.injEq] at hnext
    obtain ⟨rfl, rfl⟩ := hnext
    rw [nextTop_eq (by simp [hstage])]
    rw [hstage] at h
    exact ⟨hsame, hbound, hdisk, htop, checkHole_ok h⟩
  | received round reply =>
    rw [nextTop_eq (by simp [hstage])]
    rw [hstage] at h hnext
    obtain ⟨stage, hreceive, hok⟩ := receiveReply_ok h (htail round reply hstage)
    simp only [HolesStage.next, hreceive, Option.some.injEq, Prod.mk.injEq] at hnext
    obtain ⟨rfl, rfl⟩ := hnext
    exact ⟨hsame, hbound, hdisk, htop, hok⟩
  | merge round history hasOlder =>
    rw [nextTop_eq (by simp [hstage])]
    rw [hstage] at h hnext
    simp only [HolesStage.next, mergeReply_ok h, Option.some.injEq, Prod.mk.injEq] at hnext
    obtain ⟨rfl, rfl⟩ := hnext
    exact ⟨hsame, setDlgState_delUpTo hbound h.2.1, hdisk, htop, h.1, h.2.2⟩
  | insert round block hasOlder =>
    rw [nextTop_eq (by simp [hstage])]
    rw [hstage] at h hnext
    obtain ⟨hkeeps, hstate, hreliable, hok⟩ := insertReply_ok ht hbound hdisk htop h hnext
    exact ⟨hkeeps, hstate ▸ hbound, hreliable, htop, hok⟩
  | validate round =>
    simp only [hstage, HolesStage.next, Option.some.injEq, Prod.mk.injEq] at hnext
    obtain ⟨rfl, rfl⟩ := hnext
    rw [nextTop_eq (by simp [hstage])]
    rw [hstage] at h
    exact ⟨hsame, hbound, hdisk, htop, validateHole_ok h.1 h.2⟩
  | _ => simp [hstage, HolesStage.next] at hnext

end Steps

section Runs

variable {w : Surroundings} {s s' first : HolesSync} {x x' : HolesSearch} {search : Nat}

/-- What holds between any two steps. -/
structure HolesKept (w : Surroundings) (s : HolesSync) : Prop where
  truthful : Truthful s.server s.archive.index
  delUpTo : s.archive.state.delUpTo ≤ s.server.bound
  reliable : MessagesData.Reliable s.archive.dataDisk
  searches : ∀ x ∈ s.searches, (∀ t ∈ x.top, t ≤ s.server.issued) ∧
    StageOk w s.server s.archive.index x.top x.stage

/-- Server and archive are told what is so: nothing is deleted that the server still has, blocks
and answers are what it has, and no tail comes so late that all history is dropped for it. -/
def Honest (w : Surroundings) (s : HolesSync) : HolesAction → Prop
  | .eraseLocally _ upTo => upTo ≤ s.server.bound
  | .setDlgState _ state => state.delUpTo ≤ s.server.bound
  | .insertBlock data _ =>
    ∀ arrived ∈ data, TrueMessage s.server s.archive.index arrived.message
  | .advance search _ => ∀ x ∈ s.searches[search]?, NotBehind s.archive x
  | .answer search reply => ∀ x ∈ s.searches[search]?, ∀ round, x.stage = .ask round →
      ∃ messages, HistoryAnswer w s.server round.hole reply messages
  | _ => True

/-- What happens beside the searches changes none of them. -/
theorem HolesKept.meanwhile {server : ServerHistory} {archive : ContactArchive} (h : HolesKept w s)
    (hm : Meanwhile s.server server s.archive.index archive.index)
    (ht : Truthful server archive.index) (hbound : archive.state.delUpTo ≤ server.bound)
    (hdisk : MessagesData.Reliable archive.dataDisk) :
    HolesKept w { s with server, archive } where
  truthful := ht
  delUpTo := hbound
  reliable := hdisk
  searches := by
    intro x hx
    obtain ⟨htop, hok⟩ := h.searches x hx
    exact ⟨fun t hmem => (htop t hmem).trans hm.later.issued, hok.meanwhile hm htop⟩

/-- One search is where it may be, and the others stay. -/
theorem HolesKept.set (h : HolesKept w s) (htop : ∀ t ∈ x.top, t ≤ s.server.issued)
    (hok : StageOk w s.server s.archive.index x.top x.stage) (failed : Option HoleRequest) :
    HolesKept w { s with searches := s.searches.set search x, failed } :=
  { h with
    searches := by
      intro y hy
      rcases List.mem_or_eq_of_mem_set hy with hy | rfl
      · exact h.searches y hy
      · exact ⟨htop, hok⟩ }

theorem HolesKept.start (h : HolesKept w s) (request : HoleRequest) :
    HolesKept w (s.start request) :=
  { h with
    searches := by
      intro x hx
      rcases List.mem_append.mp hx with hx | hx
      · exact h.searches x hx
      · obtain rfl := List.mem_singleton.mp hx
        exact ⟨by simp, .inr (.inl rfl)⟩ }

theorem HolesKept.step {action : HolesAction} (h : HolesKept w s) (ha : Honest w s action)
    (hstep : s.step w action = some s') : HolesKept w s' := by
  cases action with
  | post id =>
    obtain ⟨server, hpost, rfl⟩ := Option.map_eq_some_iff.mp hstep
    have hlater := post_later hpost
    exact h.meanwhile (meanwhile_of_later hlater) (h.truthful.later hlater)
      (h.delUpTo.trans hlater.bound) h.reliable
  | eraseOnServer upTo =>
    obtain rfl := Option.some.inj hstep
    have hlater := eraseUpTo_later s.server upTo
    exact h.meanwhile (meanwhile_of_later hlater) (h.truthful.later hlater)
      (h.delUpTo.trans hlater.bound) h.reliable
  | eraseLocally now upTo =>
    obtain rfl := Option.some.inj hstep
    have hkeeps := h.truthful.deleteUpTo ha
    refine h.meanwhile (meanwhile_of_keeps hkeeps) hkeeps.truthful ?_ h.reliable
    exact (ContactArchive.deleteMessagesUpTo_delUpTo s.archive now upTo).le.trans h.delUpTo
  | setDlgState now state =>
    obtain rfl := Option.some.inj hstep
    exact h.meanwhile (meanwhile_of_keeps (h.truthful.keeps rfl)) h.truthful (setDlgState_delUpTo h.delUpTo ha)
      h.reliable
  | insertBlock data currentTime =>
    simp only [HolesSync.step] at hstep
    split at hstep
    · rename_i result headers archive hinsert
      obtain rfl := Option.some.inj hstep
      have hinserted := ContactArchive.insertHistoryBlock_inserted h.truthful
        (fun id hid => lt_of_le_of_lt h.delUpTo hid.2) ha (fun hfrom => absurd rfl hfrom) hinsert
      exact h.meanwhile (meanwhile_of_keeps hinserted.keeps) hinserted.keeps.truthful
        (hinserted.state ▸ h.delUpTo) (hinserted.reliable h.reliable)
    · cases hstep
  | start request =>
    obtain rfl := Option.some.inj hstep
    exact h.start request
  | retry =>
    obtain ⟨request, -, rfl⟩ := Option.map_eq_some_iff.mp hstep
    exact HolesKept.start (s := { s with failed := none }) { h with } request
  | advance search clock =>
    obtain ⟨x, hx, hrest⟩ := Option.bind_eq_some_iff.mp hstep
    obtain ⟨⟨archive, x'⟩, hadvance, he⟩ := Option.bind_eq_some_iff.mp hrest
    obtain rfl := Option.some.inj he
    obtain ⟨htop, hok⟩ := h.searches x (List.mem_of_getElem? hx)
    obtain ⟨hkeeps, hbound, hdisk, htop', hok'⟩ :=
      advance_ok h.truthful h.delUpTo h.reliable htop hok (ha x hx) hadvance
    have hmeanwhile := h.meanwhile (meanwhile_of_keeps hkeeps) hkeeps.truthful hbound hdisk
    exact hmeanwhile.set htop' hok' s.failed
  | answer search reply =>
    obtain ⟨x, hx, hrest⟩ := Option.bind_eq_some_iff.mp hstep
    obtain ⟨x', hanswer, he⟩ := Option.bind_eq_some_iff.mp hrest
    obtain rfl := Option.some.inj he
    obtain ⟨htop, hok⟩ := h.searches x (List.mem_of_getElem? hx)
    unfold HolesSearch.answer at hanswer
    split at hanswer
    · rename_i round hstage
      obtain rfl := Option.some.inj hanswer
      obtain ⟨messages, htold⟩ := ha x hx round hstage
      rw [hstage] at hok
      exact h.set (x := { x with stage := .received round reply }) htop
        ⟨hok, htold.patches, htold.delUpTo, htold.told⟩ s.failed
    · cases hanswer
  | refuse search error =>
    obtain ⟨x, hx, hrest⟩ := Option.bind_eq_some_iff.mp hstep
    obtain ⟨⟨x', failed⟩, hrefuse, he⟩ := Option.bind_eq_some_iff.mp hrest
    obtain rfl := Option.some.inj he
    obtain ⟨htop, -⟩ := h.searches x (List.mem_of_getElem? hx)
    unfold HolesSearch.refuse at hrefuse
    split at hrefuse
    · simp only [Option.some.injEq, Prod.mk.injEq] at hrefuse
      obtain ⟨rfl, rfl⟩ := hrefuse
      exact h.set (x := { x with stage := .failed error }) htop trivial _
    · cases hrefuse

/-- However the searches of a contact, new messages and deletions come between each other: a search
that says it has reached the last message leaves nothing out of what the server still has up to
where it began, and no later step makes that untrue. -/
theorem lastReached_complete (hstart : HolesKept w first) (h : Run (HolesSync.step w) (Honest w) first s) :
    Truthful s.server s.archive.index ∧
      ∀ x ∈ s.searches, x.stage = .ignored (.noHole .lastReached) →
        ∀ t ∈ x.top, ∀ id, s.server.Has id → id ≤ t → s.archive.index.Shows id := by
  have hkept : HolesKept w s := h.invariant hstart fun hk ha hs => hk.step ha hs
  refine ⟨hkept.truthful, fun x hx hstage => ?_⟩
  have hok := (hkept.searches x hx).2
  rw [hstage] at hok
  exact hok

/-- Four messages that the archive has all. -/
def fourMessagesSync : HolesSync :=
  { server :=
      { log := [1, 2, 3, 4], issued := 4, ordered := by simp, positive := by simp
        log_issued := by simp }
    archive := { index := fourMessages, state := { lastMsgid_ok := DlgState.noLastMsgid_ok } } }

theorem fourMessages_truthful : Truthful fourMessagesSync.server fourMessages := by
  have hlinks : ∀ x ∈ fourMessages.headersIndex.items,
      ([1, 2, 3, 4] : List Int64).all fun id => decide (id < x.id → id ≤ x.prevId) := by
    decide +kernel
  refine ⟨?_, ?_, fun x hx _ id hid hlt => ?_⟩
  · show ∀ x ∈ fourMessages.headersIndex.items, 0 < x.id ∧ x.id ≤ 4
    decide +kernel
  · show ∀ x ∈ fourMessages.headersIndex.items, x.id ∈ ([1, 2, 3, 4] : List Int64) →
      visible x = true
    decide +kernel
  · exact .inl (of_decide_eq_true (List.all_eq_true.mp (hlinks x hx) id hid.1) hlt)

theorem fourMessagesSync_kept : HolesKept w fourMessagesSync where
  truthful := fourMessages_truthful
  delUpTo := le_refl (-1)
  reliable := ⟨⟨rfl, rfl⟩, rfl⟩
  searches := fun _ hx => absurd hx List.not_mem_nil

/-- A fifth message is written before the search looks at the index. -/
def fourMessagesSearched : HolesSync :=
  { server :=
      { log := [1, 2, 3, 4, 5], issued := 5, ordered := by simp, positive := by simp
        log_issued := by simp }
    archive := { index := fourMessages, state := { lastMsgid_ok := DlgState.noLastMsgid_ok } }
    searches := [{ stage := .ignored (.noHole .lastReached), top := some 4 }] }

theorem fourMessages_searched :
    Run (HolesSync.step w) (Honest w) fourMessagesSync fourMessagesSearched := by
  have hhole : fourMessages.getNextHole (-1) {} (-1) = (.lastReached, {}) := by decide +kernel
  have htop : (visibleFrom fourMessages (-1)).head?.map MessageHeader.id = some 4 := by
    decide +kernel
  refine .step (.advance 0 {}) (.step (.post 5) (.step (.start { fromId := -1 }) .start trivial rfl)
    trivial rfl) ?_ ?_
  · rintro x ⟨⟩ round reply ⟨⟩
  · simp [HolesSync.step, HolesSync.start, HolesSearch.advance, HolesStage.next, searchHole,
      HolesSearch.nextTop, fourMessagesSync, fourMessagesSearched, hhole, htop]

theorem lastReached_complete_fourMessages :
    Truthful fourMessagesSearched.server fourMessagesSearched.archive.index ∧
      fourMessagesSearched.archive.index.Shows 3 := by
  have hcomplete := lastReached_complete (w := ⟨fun _ => [], fun _ _ _ => .refused, false⟩)
    fourMessagesSync_kept fourMessages_searched
  refine ⟨hcomplete.1, hcomplete.2 _ List.mem_cons_self rfl 4 rfl 3 ⟨?_, ?_⟩ (by decide)⟩
  · show (3 : Int64) ∈ [1, 2, 3, 4, 5]
    decide
  · show (-1 : Int64) < 3
    decide

end Runs

end Icq.Wim
