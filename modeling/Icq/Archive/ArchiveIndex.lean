import Icq.Lib.KeyMap
import Icq.Archive.MessageHeader
import Icq.Archive.Storage

namespace Icq.Archive
open Icq.Lib Icq.Common

abbrev HeadersMap := KeyMap MessageHeader.id

/-- The index of one contact's history, as it stands in memory. -/
structure ArchiveIndex where
  lastError : Error := .ok
  headersIndex : HeadersMap := ∅
  outgoingCount : Int := 0
  loadedFromLocal : Bool := false
  mergedCount : Nat := 0

structure ArchiveHole where
  fromId : Int64 := -1
  toId : Int64 := -1
  depth : Int64 := 0
deriving DecidableEq

inductive ArchiveHoleError where
  | ok | lastReached | depthReached | indexNotFound | noHole
deriving DecidableEq, Repr

def outgoingCountTimeSpan : Int := 24 * 21 * 3600
def reactionsHeaderVersion : UInt8 := 4
def dropHeadersCount : Nat := 100
def maxIndexSize : Nat := 25000
def indexSizeNeedOptimize : Nat := 30000

/-- An outgoing message not older than three weeks; the clock counts seconds. -/
def isOutgoingHeader (header : MessageHeader) (currentTime : Int) : Bool :=
  header.isOutgoing && decide (currentTime - header.time.toInt64.toInt ≤ outgoingCountTimeSpan)

def hidden (h : MessageHeader) : Bool := h.isPatch || h.isDeleted

/-- The rest of a range from its first header that is neither a patch nor deleted. -/
def skipPatchesAndDeletedForward (range : List MessageHeader) : List MessageHeader :=
  range.dropWhile hidden

namespace ArchiveIndex

def getOutgoingCount (s : ArchiveIndex) : Int :=
  if !s.loadedFromLocal then -1 else s.outgoingCount

/-- Deleting a header routes its successor around it; restoring one routes it back. -/
def relinkNext (index : HeadersMap) (existing header : MessageHeader) : HeadersMap :=
  match index.above? existing.id with
  | none => index
  | some next =>
    if header.isDeleted then
      if next.prevId = existing.id then index.put (next.setPrevMsgid existing.prevId) else index
    else if existing.isDeleted then
      if next.prevId = existing.prevId then index.put (next.setPrevMsgid existing.id) else index
    else index

/-- At most the link of the next header changes. -/
theorem relinkNext_cases (index : HeadersMap) (existing header : MessageHeader) :
    relinkNext index existing header = index ∨
      ∃ next v, index.above? existing.id = some next ∧
        relinkNext index existing header = index.put (next.setPrevMsgid v) := by
  unfold relinkNext
  cases ha : index.above? existing.id with
  | none => exact Or.inl rfl
  | some next =>
    simp only
    split
    · split
      · exact Or.inr ⟨next, _, rfl, rfl⟩
      · exact Or.inl rfl
    · split
      · split
        · exact Or.inr ⟨next, _, rfl, rfl⟩
        · exact Or.inl rfl
      · exact Or.inl rfl

theorem find_relinkNext_existing {index : HeadersMap} {existing header : MessageHeader}
    (h : index.find? existing.id = some existing) :
    (relinkNext index existing header).find? existing.id = some existing := by
  rcases relinkNext_cases index existing header with he | ⟨next, v, ha, he⟩
  · rw [he, h]
  · rw [he, KeyMap.find_put, if_neg, h]
    exact ne_of_gt (KeyMap.above_mem ha).2

/-- Insert one header. The caller's header is passed by reference and may come back changed. -/
def insertHeader (s : ArchiveIndex) (header : MessageHeader) (currentTime : Int) :
    ArchiveIndex × MessageHeader :=
  match s.headersIndex.find? header.id with
  | none =>
    ({ s with
        outgoingCount :=
          if isOutgoingHeader header currentTime then s.outgoingCount + 1 else s.outgoingCount
        headersIndex := s.headersIndex.put header }, header)
  | some existing =>
    let index := relinkNext s.headersIndex existing header
    let merged := existing.mergeWith header
    let header := if !merged.isDeleted && !merged.isModified then merged else header
    ({ s with
        headersIndex := index.put merged
        mergedCount :=
          if !(header.isPatch && header.isModified) then s.mergedCount + 1 else s.mergedCount },
      header)

theorem insertHeader_new {s : ArchiveIndex} {header : MessageHeader} {currentTime : Int}
    (h : s.headersIndex.find? header.id = none) :
    (s.insertHeader header currentTime).1.headersIndex = s.headersIndex.put header ∧
      (s.insertHeader header currentTime).2 = header := by
  simp [insertHeader, h]

theorem insertHeader_existing {s : ArchiveIndex} {header existing : MessageHeader}
    {currentTime : Int} (h : s.headersIndex.find? header.id = some existing) :
    (s.insertHeader header currentTime).1.headersIndex =
      (relinkNext s.headersIndex existing header).put (existing.mergeWith header) := by
  simp [insertHeader, h]

theorem insertHeader_returned {s : ArchiveIndex} {header existing : MessageHeader}
    {currentTime : Int} (h : s.headersIndex.find? header.id = some existing) :
    (s.insertHeader header currentTime).2 =
      if !(existing.mergeWith header).isDeleted && !(existing.mergeWith header).isModified then
        existing.mergeWith header
      else header := by
  simp only [insertHeader, h]

/-- Insert headers in order, giving back the list as it stands afterwards. -/
def insertBlock (s : ArchiveIndex) (currentTime : Int) :
    List MessageHeader → ArchiveIndex × List MessageHeader
  | [] => (s, [])
  | header :: rest =>
    let (s, header) := s.insertHeader header currentTime
    let (s, rest) := s.insertBlock currentTime rest
    (s, header :: rest)

/-- Insert headers one call after another, each at its own time. -/
def insertHeaders (s : ArchiveIndex) (calls : List (MessageHeader × Int)) : ArchiveIndex :=
  calls.foldl (fun s c => (s.insertHeader c.1 c.2).1) s

theorem insertHeaders_append (s : ArchiveIndex) (calls more : List (MessageHeader × Int)) :
    s.insertHeaders (calls ++ more) = (s.insertHeaders calls).insertHeaders more :=
  List.foldl_append

theorem insertBlock_fst (s : ArchiveIndex) (currentTime : Int) (headers : List MessageHeader) :
    (s.insertBlock currentTime headers).1 = s.insertHeaders (headers.map (·, currentTime)) := by
  induction headers generalizing s with
  | nil => rfl
  | cons h headers ih => exact ih _

def getHeader (s : ArchiveIndex) (msgid : Int64) : Option MessageHeader := s.headersIndex.find? msgid

def getLastMsgid (s : ArchiveIndex) : Int64 :=
  match s.headersIndex.last? with
  | none => -1
  | some h => h.id

def getFirstMsgid (s : ArchiveIndex) : Int64 :=
  match s.headersIndex.first? with
  | none => -1
  | some h => h.id

def dropHeader (s : ArchiveIndex) (msgid : Int64) : ArchiveIndex :=
  { s with headersIndex := s.headersIndex.erase msgid }

/-- Erase everything up to a bound. The second result tells whether the index is saved anew. -/
def deleteUpTo (s : ArchiveIndex) (upTo : Int64) : ArchiveIndex × Bool :=
  match s.headersIndex.lowerBound? upTo with
  | none => ({ s with headersIndex := ∅ }, true)
  | some header =>
    if header.id = upTo then
      let rest := s.headersIndex.filter (fun h => decide (upTo < h.id))
      match rest.first? with
      | none => ({ s with headersIndex := rest }, true)
      | some after =>
        if after.prevId = upTo then
          ({ s with headersIndex := rest.put (after.setPrevMsgid (-1)) }, true)
        else ({ s with headersIndex := rest }, true)
    else
      match s.headersIndex.first? with
      | none => (s, false)
      | some first =>
        if first.id = header.id then (s, false)
        else ({ s with headersIndex := s.headersIndex.filter (fun h => decide (upTo ≤ h.id)) }, true)

/-- An index whose newest headers predate reactions loses them, except the very last. -/
def dropOutdatedHeaders (s : ArchiveIndex) (currentTime : Int) : ArchiveIndex :=
  let items := s.headersIndex.items
  let start := items.length - min dropHeadersCount items.length
  match items.drop start with
  | [] => s
  | it :: _ =>
    if it.version < reactionsHeaderVersion then
      let dropped := (items.drop start).dropLast
      { s with
        outgoingCount :=
          s.outgoingCount - (dropped.countP (fun h => isOutgoingHeader h currentTime) : Nat)
        headersIndex := s.headersIndex.filter (fun h => !dropped.any (fun d => d.id == h.id)) }
    else s

theorem mem_dropOutdatedHeaders {s : ArchiveIndex} {currentTime : Int} {x : MessageHeader}
    (h : x ∈ (s.dropOutdatedHeaders currentTime).headersIndex.items) :
    x ∈ s.headersIndex.items := by
  unfold dropOutdatedHeaders at h
  simp only at h
  split at h
  · exact h
  · split at h
    · exact (List.mem_filter.mp h).1
    · exact h

/-- Nothing up to the bound is left, and what is left may have got another link only. -/
theorem mem_deleteUpTo {s : ArchiveIndex} {upTo : Int64} {x : MessageHeader}
    (h : x ∈ (s.deleteUpTo upTo).1.headersIndex.items) :
    upTo < x.id ∧ ∃ y ∈ s.headersIndex.items, ∃ v, x = y.setPrevMsgid v := by
  have hsame : ∀ y ∈ s.headersIndex.items, ∃ z ∈ s.headersIndex.items, ∃ v, y = z.setPrevMsgid v :=
    fun y hy => ⟨y, hy, y.prevId, y.setPrevMsgid_self.symm⟩
  have hrest : ∀ y ∈ (s.headersIndex.filter (fun h => decide (upTo < h.id))).items,
      upTo < y.id ∧ y ∈ s.headersIndex.items := by
    intro y hy
    obtain ⟨hm, hlt⟩ := List.mem_filter.mp hy
    exact ⟨of_decide_eq_true hlt, hm⟩
  unfold deleteUpTo at h
  split at h
  · cases h
  · rename_i header hlb
    split at h
    · simp only at h
      split at h
      · obtain ⟨hlt, hm⟩ := hrest x h
        exact ⟨hlt, hsame x hm⟩
      · rename_i after hfirst
        obtain ⟨hlt, hm⟩ := hrest after (List.mem_of_mem_head? hfirst)
        split at h
        · rcases KeyMap.mem_put.mp h with rfl | ⟨hx, _⟩
          · exact ⟨hlt, after, hm, -1, rfl⟩
          · exact ⟨(hrest x hx).1, hsame x (hrest x hx).2⟩
        · exact ⟨(hrest x h).1, hsame x (hrest x h).2⟩
    · rename_i hne
      obtain ⟨hm, hle⟩ := KeyMap.lowerBound_mem hlb
      have hlt : upTo < header.id := lt_of_le_of_ne hle (Ne.symm hne)
      split at h
      · rename_i hnone
        rw [KeyMap.first?, List.head?_eq_none_iff] at hnone
        rw [hnone] at hm
        cases hm
      · rename_i first hfirst
        split at h
        · rename_i heq
          have hmin : first.id ≤ x.id := by
            obtain ⟨rest, hitems⟩ := List.head?_eq_some_iff.mp hfirst
            have hs := s.headersIndex.sorted
            rw [hitems] at hs h
            rcases List.mem_cons.mp h with rfl | hx
            · exact le_rfl
            · exact le_of_lt ((List.pairwise_cons.mp hs).1 x hx)
          exact ⟨lt_of_lt_of_le hlt (heq ▸ hmin), hsame x h⟩
        · obtain ⟨hx, hge⟩ := List.mem_filter.mp h
          have hge := of_decide_eq_true hge
          exact ⟨lt_of_lt_of_le hlt (KeyMap.lowerBound_le hlb hx hge), hsame x hx⟩

/-- The tenth of the headers is compared without division. -/
def needOptimize (s : ArchiveIndex) : Bool :=
  decide (s.headersIndex.size > indexSizeNeedOptimize) ||
    (s.loadedFromLocal && !s.headersIndex.items.isEmpty &&
      decide (s.headersIndex.size ≤ 10 * s.mergedCount))

/-- Erase the oldest headers; what is then the first one starts the history. -/
def trim (s : ArchiveIndex) (toRemove : Nat) : ArchiveIndex :=
  let kept := s.headersIndex.restrict (s.headersIndex.items.drop toRemove) (List.drop_sublist _ _)
  match kept.first? with
  | none => { s with headersIndex := kept }
  | some first => { s with headersIndex := kept.put (first.setPrevMsgid (-1)) }

/-- Keep the newest headers of an overgrown index. The second result tells whether it is saved. -/
def optimize (s : ArchiveIndex) : ArchiveIndex × Bool :=
  if !s.needOptimize then (s, false)
  else
    let toRemove := s.headersIndex.size - maxIndexSize
    let s := if 0 < toRemove then s.trim toRemove else s
    ({ s with mergedCount := 0 }, true)

def free (s : ArchiveIndex) : ArchiveIndex :=
  { s with headersIndex := ∅, loadedFromLocal := false, mergedCount := 0 }

/-- Walk down from a visible header, comparing each link with the next visible header. -/
def findHole (depth : Int64) (hole : ArchiveHole) :
    Nat → Int64 → List MessageHeader → ArchiveHoleError × ArchiveHole
  | 0, _, _ => (.noHole, hole)
  | _ + 1, _, [] => (.noHole, hole)
  | fuel + 1, currentDepth, current :: below =>
    let currentDepth := currentDepth + 1
    match skipPatchesAndDeletedForward below with
    | [] =>
      if current.prevId != -1 then (.ok, { hole with fromId := current.id })
      else (.lastReached, hole)
    | prev :: rest =>
      if current.prevId != prev.id then
        (.ok, { fromId := current.id, toId := prev.id, depth := currentDepth })
      else if depth != -1 && decide (depth ≤ currentDepth) then (.depthReached, hole)
      else findHole depth hole fuel currentDepth (prev :: rest)

def getNextHole (s : ArchiveIndex) (fromId : Int64) (hole : ArchiveHole) (depth : Int64) :
    ArchiveHoleError × ArchiveHole :=
  match s.headersIndex.last? with
  | none => (.ok, hole)
  | some last =>
    let search (cursor : List MessageHeader) :=
      match skipPatchesAndDeletedForward cursor with
      | [] => (.ok, hole)
      | visible => findHole depth hole visible.length 0 visible
    if fromId = -1 then search s.headersIndex.items.reverse
    else if last.id < fromId then (.ok, { hole with fromId := -1, toId := last.id })
    else
      match s.headersIndex.find? fromId with
      | none => (.indexNotFound, hole)
      | some _ => search (s.headersIndex.items.filter (fun h => decide (h.id ≤ fromId))).reverse

end ArchiveIndex

end Icq.Archive
