import Icq.Archive.IndexFile
import Icq.Archive.Persisted
import Icq.Lib.Run

namespace Icq.Archive
open Icq.Lib Icq.Tools Icq.Common MessageHeader ArchiveIndex

/-- The headers a block makes the loader insert, and whether it was read to its end. -/
def blockHeaders : Nat → Bytes → Option (Bool × List MessageHeader)
  | 0, _ => some (true, [])
  | fuel + 1, data =>
    if data.length = 0 then some (true, [])
    else if data.length < 8 then some (false, [])
    else
      let tlvLength : UInt32 := Scalar.decode (data.drop 4)
      if data.length < tlvLength.toNat then some (false, [])
      else
        match MessageHeader.unserialize (data.drop 8) with
        | .ok (header, rest) => (blockHeaders fuel rest).map (fun r => (r.1, header :: r.2))
        | .refused => some (false, [])
        | .crashed => none

/-- The headers a file makes the loader insert. -/
def fileHeaders : Nat → Storage → BinaryStream → Option (List MessageHeader)
  | 0, _, _ => some []
  | fuel + 1, storage, dataStream =>
    match storage.readDataBlock (-1) dataStream with
    | (false, _, _) => some []
    | (true, dataStream, storage) =>
      match blockHeaders (dataStream.unread.length + 1) dataStream.unread with
      | none => none
      | some (false, headers) => some headers
      | some (true, headers) => (fileHeaders fuel storage dataStream.reset).map (headers ++ ·)

/-- What loading from a disk inserts; nothing if the file cannot be opened. -/
def Disk.headers (d : Disk) : Option (List MessageHeader) :=
  match Storage.open { read := true } d with
  | .error _ => some []
  | .ok storage => fileHeaders (storage.stream.bytes.length + 1) storage {}

theorem unserializeBlock_eq (currentTime : Int) (fuel : Nat) (s : ArchiveIndex) (data : Bytes) :
    unserializeBlock currentTime fuel s data = (blockHeaders fuel data).map
      (fun r => (r.1, s.insertHeaders (r.2.map (·, currentTime)))) := by
  induction fuel generalizing s data with
  | zero => rfl
  | succ fuel ih =>
    unfold unserializeBlock blockHeaders
    split
    · rfl
    · split
      · rfl
      · simp only
        split
        · rfl
        · cases MessageHeader.unserialize (data.drop 8) with
          | ok r =>
            obtain ⟨header, rest⟩ := r
            simp only [ih, Option.map_map]
            rfl
          | refused => rfl
          | crashed => rfl

theorem loadBlocks_eq {currentTime : Int} {fuel : Nat} {storage storage' : Storage}
    {data : BinaryStream} {s s' : ArchiveIndex} {ok : Bool}
    (h : loadBlocks currentTime fuel storage data s = some (ok, storage', s')) :
    ∃ headers, fileHeaders fuel storage data = some headers ∧
      s' = s.insertHeaders (headers.map (·, currentTime)) := by
  induction fuel generalizing storage data s with
  | zero =>
    simp only [loadBlocks, Option.some.injEq, Prod.mk.injEq] at h
    exact ⟨[], rfl, h.2.2.symm⟩
  | succ fuel ih =>
    unfold loadBlocks at h
    unfold fileHeaders
    cases hread : storage.readDataBlock (-1) data with
    | mk ok1 rest =>
      obtain ⟨data1, storage1⟩ := rest
      rw [hread] at h
      cases ok1 with
      | false =>
        simp only [Option.some.injEq, Prod.mk.injEq] at h
        exact ⟨[], rfl, h.2.2.symm⟩
      | true =>
        simp only [unserializeBlock_eq] at h
        simp only
        cases hb : blockHeaders (data1.unread.length + 1) data1.unread with
        | none => simp [hb] at h
        | some r =>
          obtain ⟨ok2, headers⟩ := r
          rw [hb] at h
          cases ok2 with
          | false =>
            simp only [Option.map_some, Option.some.injEq, Prod.mk.injEq] at h
            exact ⟨headers, rfl, h.2.2.symm⟩
          | true =>
            obtain ⟨more, hmore, hs⟩ := ih h
            refine ⟨headers ++ more, by rw [hmore]; rfl, ?_⟩
            rw [hs, List.map_append, insertHeaders_append]

/-- How many headers of the index are outgoing and not older than three weeks. -/
def ArchiveIndex.outgoingHeaders (s : ArchiveIndex) (currentTime : Int) : Nat :=
  s.headersIndex.items.countP (fun h => isOutgoingHeader h currentTime)

/-- The headers of one message are all counted or none of them is. -/
def CountAgrees (currentTime : Int) (headers : List MessageHeader) : Prop :=
  ∀ a ∈ headers, ∀ b ∈ headers, a.id = b.id →
    isOutgoingHeader a currentTime = isOutgoingHeader b currentTime

instance (currentTime : Int) (headers : List MessageHeader) :
    Decidable (CountAgrees currentTime headers) :=
  inferInstanceAs (Decidable (∀ a ∈ headers, ∀ b ∈ headers, a.id = b.id → _ = _))

/-- The counter is right, and inserting the pending headers will keep it so. -/
structure Counts (currentTime : Int) (pending : List MessageHeader) (s : ArchiveIndex) : Prop where
  count : s.outgoingCount = s.outgoingHeaders currentTime
  agrees : CountAgrees currentTime (s.headersIndex.items ++ pending)

theorem insertHeader_loaded (s : ArchiveIndex) (h : MessageHeader) (currentTime : Int) :
    (s.insertHeader h currentTime).1.loadedFromLocal = s.loadedFromLocal := by
  unfold insertHeader
  split <;> rfl

theorem insertHeaders_loaded (s : ArchiveIndex) (calls : List (MessageHeader × Int)) :
    (s.insertHeaders calls).loadedFromLocal = s.loadedFromLocal := by
  induction calls generalizing s with
  | nil => rfl
  | cons c calls ih => exact (ih _).trans (insertHeader_loaded s c.1 c.2)

theorem countP_relinkNext (m : HeadersMap) (e h : MessageHeader) (currentTime : Int) :
    (relinkNext m e h).items.countP (fun x => isOutgoingHeader x currentTime) =
      m.items.countP (fun x => isOutgoingHeader x currentTime) := by
  rcases relinkNext_cases m e h with he | ⟨next, v, ha, he⟩
  · rw [he]
  · have hf := KeyMap.find_of_mem (KeyMap.above_mem ha).1
    rw [he]
    exact KeyMap.countP_put_replace (v := next.setPrevMsgid v) hf rfl

/-- Inserting a header that agrees with the one it meets keeps the counter right. -/
theorem Counts.insert {currentTime : Int} {h : MessageHeader} {pending : List MessageHeader}
    {s : ArchiveIndex} (hc : Counts currentTime (h :: pending) s) :
    Counts currentTime pending (s.insertHeader h currentTime).1 := by
  obtain ⟨hcount, hagrees⟩ := hc
  refine ⟨?_, ?_⟩
  · unfold outgoingHeaders at hcount ⊢
    rw [insertHeader_headersIndex]
    cases hf : s.headersIndex.find? h.id with
    | none =>
      rw [insertMap, hf, KeyMap.countP_put_new hf]
      simp only [insertHeader, hf]
      split <;> omega
    | some e =>
      obtain ⟨he, hid⟩ := KeyMap.find_mem hf
      have hkept : (relinkNext s.headersIndex e h).find? (e.mergeWith h).id = some e :=
        find_relinkNext_existing (KeyMap.find_of_mem he)
      have hsame : isOutgoingHeader (e.mergeWith h) currentTime = isOutgoingHeader e currentTime :=
        hagrees h (by simp) e (by simp [he]) hid.symm
      rw [insertMap, hf]
      simp only
      rw [KeyMap.countP_put_replace hkept hsame, countP_relinkNext, ← hcount]
      simp only [insertHeader, hf]
  · have hfrom : ∀ x ∈ (s.insertHeader h currentTime).1.headersIndex.items ++ pending,
        ∃ y ∈ s.headersIndex.items ++ h :: pending,
          x.id = y.id ∧ isOutgoingHeader x currentTime = isOutgoingHeader y currentTime := by
      intro x hx
      rcases List.mem_append.mp hx with hx | hx
      · rw [insertHeader_headersIndex] at hx
        rcases mem_insertMap hx with rfl | ⟨e, he, hid, rfl⟩ | ⟨y, hy, v, rfl⟩
        · exact ⟨x, by simp, rfl, rfl⟩
        · exact ⟨h, by simp, hid, rfl⟩
        · exact ⟨y, by simp [hy], rfl, rfl⟩
      · exact ⟨x, by simp [hx], rfl, rfl⟩
    intro a ha b hb hid
    obtain ⟨a', ha', hida, hca⟩ := hfrom a ha
    obtain ⟨b', hb', hidb, hcb⟩ := hfrom b hb
    rw [hca, hcb]
    exact hagrees a' ha' b' hb' (hida.symm.trans (hid.trans hidb))

theorem Counts.insertHeaders {currentTime : Int} {headers pending : List MessageHeader}
    {s : ArchiveIndex} (hc : Counts currentTime (headers ++ pending) s) :
    Counts currentTime pending (s.insertHeaders (headers.map (·, currentTime))) := by
  induction headers generalizing s with
  | nil => exact hc
  | cons h headers ih => exact ih hc.insert

/-- Loading leaves the index alone, or rebuilds it from the file and from what it held. -/
theorem readLocal_cases {s s' : ArchiveIndex} {disk : Disk} {currentTime : Int} {ok : Bool}
    (h : s.readLocal disk currentTime = some (ok, s')) :
    (ok = false ∧ ∃ e, s' = { s with lastError := e }) ∨
      ∃ headers t, disk.headers = some headers ∧
        t = insertHeaders { s with lastError := .ok, headersIndex := ∅, outgoingCount := 0,
                                   mergedCount := 0 }
              ((headers ++ s.headersIndex.items).map (·, currentTime)) ∧
        s'.headersIndex = t.headersIndex ∧ s'.outgoingCount = t.outgoingCount := by
  unfold readLocal at h
  cases ho : Storage.open { read := true } disk with
  | error e =>
    rw [ho] at h
    simp only [Option.some.injEq, Prod.mk.injEq] at h
    exact Or.inl ⟨h.1.symm, e, h.2.symm⟩
  | ok storage =>
    rw [ho] at h
    refine Or.inr ?_
    simp only at h
    split at h
    · cases h
    · rename_i hload
      obtain ⟨headers, hh, ht⟩ := loadBlocks_eq hload
      simp only [Option.some.injEq, Prod.mk.injEq] at h
      obtain ⟨_, rfl⟩ := h
      refine ⟨headers, _, by simp only [Disk.headers, ho, hh], rfl, ?_, ?_⟩
      all_goals rw [ht, List.map_append, insertHeaders_append]
    · rename_i hload
      obtain ⟨headers, hh, ht⟩ := loadBlocks_eq hload
      refine ⟨headers, _, by simp only [Disk.headers, ho, hh], rfl, ?_⟩
      rw [List.map_append, insertHeaders_append, ← ht]
      split at h
      all_goals
        simp only [Option.some.injEq, Prod.mk.injEq] at h
        obtain ⟨_, rfl⟩ := h
        exact ⟨rfl, rfl⟩

/-- The counter is right. -/
def Exact (currentTime : Int) (s : ArchiveIndex) : Prop :=
  s.outgoingCount = s.outgoingHeaders currentTime

theorem countP_filter_uncounted {p q : MessageHeader → Bool} {l : List MessageHeader}
    (h : ∀ x ∈ l, q x = false → p x = false) : (l.filter q).countP p = l.countP p := by
  rw [List.countP_filter]
  apply List.countP_congr
  intro x hx
  cases hq : q x with
  | false => simp [h x hx hq]
  | true => simp

/-- Outdated headers are taken off the counter as they are erased. -/
theorem Exact.dropOutdatedHeaders {s : ArchiveIndex} {currentTime : Int}
    (h : Exact currentTime s) : Exact currentTime (s.dropOutdatedHeaders currentTime) := by
  unfold ArchiveIndex.dropOutdatedHeaders
  simp only
  split
  · exact h
  · rename_i it rest hdrop
    split
    · generalize s.headersIndex.items.length - min dropHeadersCount s.headersIndex.items.length =
        start at hdrop ⊢
      have hne : s.headersIndex.items.drop start ≠ [] := by simp [hdrop]
      have hitems : s.headersIndex.items = s.headersIndex.items.take start ++
          ((s.headersIndex.items.drop start).dropLast ++
            [(s.headersIndex.items.drop start).getLast hne]) := by
        rw [List.dropLast_append_getLast, List.take_append_drop]
      have hcount := congrArg (List.countP (fun x => isOutgoingHeader x currentTime)) hitems
      unfold Exact outgoingHeaders at h ⊢
      simp only
      rw [KeyMap.filter_stretch hitems, h]
      simp only [List.countP_append] at hcount ⊢
      omega
    · exact h

theorem Exact.deleteUpTo {s : ArchiveIndex} {currentTime : Int} {upTo : Int64}
    (h : Exact currentTime s)
    (hfew : ∀ x ∈ s.headersIndex.items, x.id ≤ upTo → isOutgoingHeader x currentTime = false) :
    Exact currentTime (s.deleteUpTo upTo).1 := by
  have hrest : (s.headersIndex.filter (fun x => decide (upTo < x.id))).items.countP
      (fun x => isOutgoingHeader x currentTime) =
        s.headersIndex.items.countP (fun x => isOutgoingHeader x currentTime) := by
    apply countP_filter_uncounted
    intro x hx hq
    exact hfew x hx (not_lt.mp (of_decide_eq_false hq))
  have hbelow : (s.headersIndex.filter (fun x => decide (upTo ≤ x.id))).items.countP
      (fun x => isOutgoingHeader x currentTime) =
        s.headersIndex.items.countP (fun x => isOutgoingHeader x currentTime) := by
    apply countP_filter_uncounted
    intro x hx hq
    exact hfew x hx (le_of_lt (not_le.mp (of_decide_eq_false hq)))
  unfold Exact outgoingHeaders at h ⊢
  unfold ArchiveIndex.deleteUpTo
  split
  · rename_i hlb
    have hall : s.headersIndex.items.countP (fun x => isOutgoingHeader x currentTime) = 0 := by
      rw [List.countP_eq_zero]
      intro x hx
      have hlt := KeyMap.lowerBound_none.mp hlb x hx
      simp [hfew x hx (le_of_lt hlt)]
    rw [h, hall]
    rfl
  · split
    · simp only
      split
      · rw [h, ← hrest]
      · rename_i after hfirst
        have hafter := KeyMap.find_of_mem (List.mem_of_mem_head? hfirst)
        split
        · simp only
          rw [KeyMap.countP_put_replace (v := after.setPrevMsgid (-1)) hafter rfl, h, ← hrest]
        · rw [h, ← hrest]
    · split
      · exact h
      · split
        · exact h
        · rw [h, ← hbelow]

theorem Exact.dropHeader {s : ArchiveIndex} {currentTime : Int} {msgid : Int64}
    (h : Exact currentTime s)
    (hfew : ∀ x ∈ s.headersIndex.items, x.id = msgid → isOutgoingHeader x currentTime = false) :
    Exact currentTime (s.dropHeader msgid) := by
  unfold Exact outgoingHeaders at h ⊢
  refine h.trans (congrArg _ (Eq.symm (countP_filter_uncounted ?_)))
  intro x hx hq
  exact hfew x hx (by simpa using hq)

theorem countP_drop_uncounted {p : MessageHeader → Bool} {l : List MessageHeader} {n : Nat}
    (h : ∀ x ∈ l.take n, p x = false) : (l.drop n).countP p = l.countP p := by
  have hzero : (l.take n).countP p = 0 := by
    rw [List.countP_eq_zero]
    intro x hx
    simp [h x hx]
  have hsplit := congrArg (List.countP p) (List.take_append_drop n l)
  rw [← hsplit, List.countP_append, hzero, Nat.zero_add]

theorem Exact.trim {s : ArchiveIndex} {currentTime : Int} {toRemove : Nat}
    (h : Exact currentTime s)
    (hfew : ∀ x ∈ s.headersIndex.items.take toRemove, isOutgoingHeader x currentTime = false) :
    Exact currentTime (s.trim toRemove) := by
  unfold Exact outgoingHeaders at h ⊢
  rw [← countP_drop_uncounted hfew] at h
  unfold ArchiveIndex.trim
  simp only
  split
  · exact h
  · rename_i first hfirst
    have hf := KeyMap.find_of_mem (List.mem_of_mem_head? hfirst)
    exact h.trans (congrArg _
      (KeyMap.countP_put_replace (v := first.setPrevMsgid (-1)) hf rfl).symm)

theorem optimize_cases (s : ArchiveIndex) : s.optimize.1 = s ∨
    s.needOptimize = true ∧ ∃ t, (t = s ∨ t = s.trim (s.headersIndex.size - maxIndexSize)) ∧
      s.optimize.1 = { t with mergedCount := 0 } := by
  unfold ArchiveIndex.optimize
  cases s.needOptimize with
  | false => exact Or.inl rfl
  | true =>
    refine Or.inr ⟨rfl, _, ?_, rfl⟩
    split
    · exact Or.inr rfl
    · exact Or.inl rfl

theorem Exact.optimize {s : ArchiveIndex} {currentTime : Int} (h : Exact currentTime s)
    (hfew : s.needOptimize = true →
      ∀ x ∈ s.headersIndex.items.take (s.headersIndex.size - maxIndexSize),
        isOutgoingHeader x currentTime = false) :
    Exact currentTime s.optimize.1 := by
  rcases optimize_cases s with he | ⟨hneed, t, ht, he⟩
  · rw [he]
    exact h
  · have hexact : Exact currentTime t := by
      rcases ht with ht | ht
      · rw [ht]
        exact h
      · rw [ht]
        exact h.trim (hfew hneed)
    rw [he]
    exact hexact

/-- A loading that keeps the messages together leaves the counter right if the index says it is
loaded. -/
theorem exact_loadFromLocal {s s' : ArchiveIndex} {disk : Disk} {currentTime : Int} {ok : Bool}
    (hs : s.loadedFromLocal = true → Exact currentTime s)
    (hagrees : ∀ headers, disk.headers = some headers →
      CountAgrees currentTime (headers ++ s.headersIndex.items))
    (h : s.loadFromLocal disk currentTime = some (ok, s')) (hl : s'.loadedFromLocal = true) :
    Exact currentTime s' := by
  have hread : ∀ {ok t}, s.readLocal disk currentTime = some (ok, t) → t.loadedFromLocal = true →
      Exact currentTime t := by
    intro ok t ht hl
    rcases readLocal_cases ht with ⟨_, e, rfl⟩ | ⟨headers, u, hheaders, hu, hindex, hcount⟩
    · exact hs hl
    · have hempty : Counts currentTime (headers ++ s.headersIndex.items ++ [])
          { s with lastError := .ok, headersIndex := ∅, outgoingCount := 0, mergedCount := 0 } := by
        refine ⟨rfl, ?_⟩
        rw [List.append_nil]
        exact hagrees headers hheaders
      have hc := hempty.insertHeaders.count
      rw [← hu] at hc
      unfold Exact outgoingHeaders
      rw [hindex, hcount]
      exact hc
  unfold loadFromLocal at h
  split at h
  · cases h
  · rename_i hr
    simp only [Option.some.injEq, Prod.mk.injEq] at h
    obtain ⟨_, rfl⟩ := h
    exact hread hr hl
  · rename_i hr
    simp only [Option.some.injEq, Prod.mk.injEq] at h
    obtain ⟨_, rfl⟩ := h
    have hloaded : ∀ t : ArchiveIndex,
        (t.dropOutdatedHeaders currentTime).loadedFromLocal = t.loadedFromLocal := by
      intro t
      unfold ArchiveIndex.dropOutdatedHeaders
      simp only
      split
      · rfl
      · split <;> rfl
    exact (hread hr (hloaded _ ▸ hl)).dropOutdatedHeaders

/-- What is done to an index from outside. -/
inductive IndexAction where
  | insertBlock (headers : List MessageHeader)
  | deleteUpTo (upTo : Int64)
  | dropHeader (msgid : Int64)
  | optimize
  | loadFromLocal (disk : Disk)
  | free

namespace IndexAction

def run (currentTime : Int) (s : ArchiveIndex) : IndexAction → Option ArchiveIndex
  | .insertBlock headers => some (s.insertBlock currentTime headers).1
  | .deleteUpTo upTo => some (s.deleteUpTo upTo).1
  | .dropHeader msgid => some (s.dropHeader msgid)
  | .optimize => some s.optimize.1
  | .loadFromLocal disk => (s.loadFromLocal disk currentTime).map (fun r => r.2)
  | .free => some s.free

/-- No counted header is erased, and headers of one message that meet are counted alike. -/
def KeepsCount (currentTime : Int) (s : ArchiveIndex) : IndexAction → Prop
  | .insertBlock headers => s.loadedFromLocal = true →
      CountAgrees currentTime (s.headersIndex.items ++ headers)
  | .deleteUpTo upTo => s.loadedFromLocal = true →
      ∀ x ∈ s.headersIndex.items, x.id ≤ upTo → isOutgoingHeader x currentTime = false
  | .dropHeader msgid => s.loadedFromLocal = true →
      ∀ x ∈ s.headersIndex.items, x.id = msgid → isOutgoingHeader x currentTime = false
  | .optimize => s.loadedFromLocal = true → s.needOptimize = true →
      ∀ x ∈ s.headersIndex.items.take (s.headersIndex.size - maxIndexSize),
        isOutgoingHeader x currentTime = false
  | .loadFromLocal disk => ∀ headers, disk.headers = some headers →
      CountAgrees currentTime (headers ++ s.headersIndex.items)
  | .free => True

end IndexAction

theorem deleteUpTo_loaded (s : ArchiveIndex) (upTo : Int64) :
    (s.deleteUpTo upTo).1.loadedFromLocal = s.loadedFromLocal := by
  unfold ArchiveIndex.deleteUpTo
  split
  · rfl
  · split
    · simp only
      split
      · rfl
      · split <;> rfl
    · split
      · rfl
      · split <;> rfl

theorem trim_loaded (s : ArchiveIndex) (n : Nat) : (s.trim n).loadedFromLocal = s.loadedFromLocal := by
  unfold ArchiveIndex.trim
  simp only
  split <;> rfl

theorem optimize_loaded (s : ArchiveIndex) :
    s.optimize.1.loadedFromLocal = s.loadedFromLocal := by
  rcases optimize_cases s with he | ⟨_, t, ht, he⟩
  · rw [he]
  · have hloaded : t.loadedFromLocal = s.loadedFromLocal := by
      rcases ht with ht | ht
      · exact congrArg loadedFromLocal ht
      · exact (congrArg loadedFromLocal ht).trans (trim_loaded s _)
    rw [he]
    exact hloaded

/-- One action keeps the counter of a loaded index right. -/
theorem exact_step {s s' : ArchiveIndex} {action : IndexAction} {currentTime : Int}
    (hs : s.loadedFromLocal = true → Exact currentTime s)
    (ha : action.KeepsCount currentTime s) (h : action.run currentTime s = some s') :
    s'.loadedFromLocal = true → Exact currentTime s' := by
  intro hl
  cases action with
  | insertBlock headers =>
    simp only [IndexAction.run, Option.some.injEq] at h
    rw [insertBlock_fst] at h
    subst h
    rw [insertHeaders_loaded] at hl
    have hc : Counts currentTime (headers ++ []) s := ⟨hs hl, by simpa using ha hl⟩
    exact hc.insertHeaders.count
  | deleteUpTo upTo =>
    simp only [IndexAction.run, Option.some.injEq] at h
    subst h
    rw [deleteUpTo_loaded] at hl
    exact (hs hl).deleteUpTo (ha hl)
  | dropHeader msgid =>
    simp only [IndexAction.run, Option.some.injEq] at h
    subst h
    exact Exact.dropHeader (hs hl) (ha hl)
  | optimize =>
    simp only [IndexAction.run, Option.some.injEq] at h
    subst h
    rw [optimize_loaded] at hl
    exact (hs hl).optimize (ha hl)
  | loadFromLocal disk =>
    obtain ⟨r, hr, rfl⟩ := Option.map_eq_some_iff.mp h
    exact exact_loadFromLocal hs ha hr hl
  | free =>
    simp only [IndexAction.run, Option.some.injEq] at h
    subst h
    cases hl

/-- The cached counter of a loaded index is what a count would give, in every run that erases no
counted header and in which the headers of a message that meet are counted alike. -/
theorem outgoingCount_exact {s : ArchiveIndex} {currentTime : Int}
    (h : Run (IndexAction.run currentTime) (fun s a => a.KeepsCount currentTime s) {} s)
    (hl : s.loadedFromLocal = true) : s.getOutgoingCount = s.outgoingHeaders currentTime := by
  have hexact := h.invariant (P := fun s => s.loadedFromLocal = true → Exact currentTime s)
    (fun h => by cases h) exact_step
  unfold getOutgoingCount
  rw [hl]
  exact hexact hl

/-- A new index that has loaded an empty file. -/
def emptyLoaded : ArchiveIndex := { lastError := .ok, loadedFromLocal := true }

theorem load_empty :
    IndexAction.run 0 {} (.loadFromLocal { file := some [] }) = some emptyLoaded := rfl

def outgoingMessage : MessageHeader := { id := 1, flags := { outgoing := true } }

theorem empty_keepsCount :
    IndexAction.KeepsCount 0 {} (.loadFromLocal { file := some [] }) := by
  intro headers h
  have hnone : Disk.headers { file := some [] } = some [] := rfl
  obtain rfl : [] = headers := Option.some.inj (hnone.symm.trans h)
  intro a ha
  cases ha

/-- A message from the other side, and the own answer to it. -/
def answered : List MessageHeader := [{ id := 1 }, { outgoingMessage with id := 2 }]

/-- The own message comes once more, and the other one is erased. -/
theorem outgoingCount_exact_answered : ∃ s : ArchiveIndex,
    Run (IndexAction.run 0) (fun s a => a.KeepsCount 0 s) {} s ∧
      s.headersIndex.items.map (·.id) = [2] ∧ s.getOutgoingCount = s.outgoingHeaders 0 ∧
      s.outgoingHeaders 0 = 1 := by
  let again : List MessageHeader := [{ outgoingMessage with id := 2, time := 1 }]
  have hloaded : Run (IndexAction.run 0) (fun s a => a.KeepsCount 0 s) {} emptyLoaded :=
    .step _ .start empty_keepsCount load_empty
  have hanswered : Run (IndexAction.run 0) (fun s a => a.KeepsCount 0 s) {}
      (emptyLoaded.insertBlock 0 answered).1 := by
    apply Run.step (.insertBlock answered) hloaded _ rfl
    exact fun _ => show CountAgrees 0 _ by decide
  have hagain : Run (IndexAction.run 0) (fun s a => a.KeepsCount 0 s) {}
      ((emptyLoaded.insertBlock 0 answered).1.insertBlock 0 again).1 := by
    apply Run.step (.insertBlock again) hanswered _ rfl
    exact fun _ => show CountAgrees 0 _ by decide
  have herased : Run (IndexAction.run 0) (fun s a => a.KeepsCount 0 s) {}
      (((emptyLoaded.insertBlock 0 answered).1.insertBlock 0 again).1.deleteUpTo 1).1 := by
    apply Run.step (.deleteUpTo 1) hagain _ rfl
    intro _ x hx hid
    revert x
    decide
  exact ⟨_, herased, by decide, outgoingCount_exact herased rfl, by decide⟩

/-- Erasing an outgoing message leaves it counted. -/
theorem outgoingCount_stale :
    ∃ s, Run (IndexAction.run 0) (fun _ _ => True) {} s ∧ s.loadedFromLocal = true ∧
      s.getOutgoingCount ≠ s.outgoingHeaders 0 := by
  refine ⟨_, .step (.deleteUpTo 1) (.step (.insertBlock [outgoingMessage])
    (.step _ .start trivial load_empty) trivial rfl) trivial rfl, rfl, ?_⟩
  decide

end Icq.Archive
