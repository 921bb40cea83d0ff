import Icq.Archive.HistoryMessage
import Icq.Lib.Contest

/-! The draft of a chat, of which the newest is kept. -/

namespace Icq.Archive
open Icq.Lib Icq.Tools

inductive DraftState
  | local
  | syncing
  | synced
deriving DecidableEq

def DraftState.toInt : DraftState → Int32
  | .local => 0
  | .syncing => 1
  | .synced => 2

/-- The time of the server in seconds, and the time of the device in milliseconds; a draft from
the server has none of the device. -/
structure DraftTime where
  timestamp : Int32 := 0
  localTimestamp : Int64 := 0
deriving DecidableEq

structure Draft extends DraftTime where
  state : DraftState := .local
  message : Option HistoryMessage := none
  friendly : Bytes := []

def tlvState : UInt32 := 1
def tlvTimestamp : UInt32 := 2
def tlvMessage : UInt32 := 3
def tlvLocalTimestamp : UInt32 := 4
def tlvFriendly : UInt32 := 5

/-- The times of the device are compared where both drafts have one. -/
def isFirstSameOrNewer (first second : DraftTime) : Bool :=
  let bothHaveLocalTimestamps := decide (0 < min first.localTimestamp second.localTimestamp)
  if bothHaveLocalTimestamps then decide (second.localTimestamp ≤ first.localTimestamp)
  else decide (second.timestamp ≤ first.timestamp)

def Draft.serialize (w : Surroundings) (d : Draft) : Bytes :=
  TlvPack.serialize
    [.ofScalar tlvState d.state.toInt, .ofScalar tlvTimestamp d.timestamp,
      .ofScalar tlvLocalTimestamp d.localTimestamp, .ofText tlvFriendly d.friendly,
      { type := tlvMessage, value := (d.message.map (HistoryMessage.serialize w)).getD [] }]

structure DraftStorage where
  draft : Draft := {}
  file : Option Bytes := none

namespace DraftStorage

def writeFile (w : Surroundings) (s : DraftStorage) : DraftStorage :=
  { s with file := some (s.draft.serialize w) }

def setDraft (w : Surroundings) (s : DraftStorage) (draft : Draft) : DraftStorage :=
  if isFirstSameOrNewer draft.toDraftTime s.draft.toDraftTime then
    { s with draft }.writeFile w
  else s

def setDrafts (w : Surroundings) (s : DraftStorage) (drafts : List Draft) : DraftStorage :=
  drafts.foldl (setDraft w) s

end DraftStorage

theorem isFirstSameOrNewer_total (a b : DraftTime) :
    isFirstSameOrNewer a b = true ∨ isFirstSameOrNewer b a = true := by
  simp only [isFirstSameOrNewer, min_comm b.localTimestamp]
  split
  · simpa using Int64.le_total b.localTimestamp a.localTimestamp
  · simpa using Int32.le_total b.timestamp a.timestamp

namespace DraftStorage

variable {w : Surroundings} {s : DraftStorage} {drafts : List Draft}

/-- The storage keeps the draft that holds its place against the others. -/
theorem draft_setDrafts (w : Surroundings) (s : DraftStorage) (drafts : List Draft) :
    (s.setDrafts w drafts).draft =
      contest Draft.toDraftTime (fun a b => isFirstSameOrNewer a b = true) s.draft drafts := by
  induction drafts generalizing s with
  | nil => rfl
  | cons d drafts ih =>
    have hstep : (s.setDraft w d).draft =
        if isFirstSameOrNewer d.toDraftTime s.draft.toDraftTime = true then d else s.draft := by
      unfold setDraft
      split
      · rfl
      · rfl
    rw [contest_cons, ← hstep]
    exact ih (s.setDraft w d)

/-- The file has the draft that is kept, once one was. -/
theorem file_setDraft (h : s.file = some (s.draft.serialize w) ∨ s.file = none) (d : Draft) :
    (s.setDraft w d).file = some ((s.setDraft w d).draft.serialize w) ∨
      (s.setDraft w d).file = none := by
  unfold setDraft
  split
  · exact .inl rfl
  · exact h

/-- The kept draft is as new as all that were offered, and of the same times in every order, just
when some draft, offered or stored, is: every other offered one is older than it or has its times,
and the stored one is not newer. -/
theorem setDrafts_newest_iff (w : Surroundings) (s : DraftStorage) (drafts : List Draft) :
    ((∀ d ∈ drafts,
        isFirstSameOrNewer (s.setDrafts w drafts).draft.toDraftTime d.toDraftTime = true) ∧
      ∀ drafts', drafts'.Perm drafts →
        (s.setDrafts w drafts').draft.toDraftTime = (s.setDrafts w drafts).draft.toDraftTime) ↔
    ∃ m ∈ s.draft :: drafts, isFirstSameOrNewer m.toDraftTime s.draft.toDraftTime = true ∧
      ∀ d ∈ drafts, d.toDraftTime = m.toDraftTime ∨
        ¬ isFirstSameOrNewer d.toDraftTime m.toDraftTime = true := by
  simp only [draft_setDrafts]
  exact contest_settled_iff isFirstSameOrNewer_total

/-- A draft typed by a clock that was ahead, one from the server, and one typed after the clock
was put right. -/
def typedAhead : Draft := { timestamp := 10, localTimestamp := 3610000 }

def fromServer : Draft := { timestamp := 20, state := .synced }

def typedAfter : Draft := { timestamp := 30, localTimestamp := 30000 }

/-- With the draft of the server between them the one typed after the clock was put right replaces
the one typed before it, which is newer by the clock. -/
theorem setDrafts_cycle :
    ¬ ∀ (w : Surroundings) (drafts : List Draft),
      (∀ d ∈ drafts, isFirstSameOrNewer
        (({} : DraftStorage).setDrafts w drafts).draft.toDraftTime d.toDraftTime = true) ∧
      ∀ drafts', drafts'.Perm drafts →
        (({} : DraftStorage).setDrafts w drafts').draft.toDraftTime =
          (({} : DraftStorage).setDrafts w drafts).draft.toDraftTime := by
  intro h
  have hkept := (h { parseButtons := fun _ => [], parseMessage := fun m _ _ => .ok m, unset := false }
    [typedAhead, fromServer, typedAfter]).1 typedAhead List.mem_cons_self
  rw [draft_setDrafts] at hkept
  exact absurd hkept (by decide)

end DraftStorage

end Icq.Archive
