import Icq.Lib.LastOf
import Icq.Wim.AsyncLoader

/-! The id and the source of a shared file, as the window and the core read them from a link. -/

namespace Icq.Gui
open Icq.Lib Icq.Wim

inductive CategoryType
  | undefined | image | video | filesharing | site | email | ftp | icqprotocol | profile
deriving DecidableEq

structure FileSharingId where
  fileId : Bytes := []
  sourceId : Option Bytes := none
deriving DecidableEq

/-- What a parser has found; texts are bytes here as in the core. -/
structure UrlParser where
  urlStr : Bytes := []
  formattedUrl : Bytes := []
  category : CategoryType := .undefined

/-- The last place of a byte, or -1. -/
def lastIndexOf (text : Bytes) (c : UInt8) : Int := text.length - 1 - text.reverse.idxOf c

/-- So many bytes from a place on; a negative number stands for all. -/
def mid (text : Bytes) (position length : Int) : Bytes :=
  let rest := text.drop position.toNat
  if length < 0 then rest else rest.take length.toNat

def UrlParser.getFilesharingId (p : UrlParser) : FileSharingId :=
  if !p.urlStr.isEmpty ∧ p.category = .filesharing then
    let lastSlash := lastIndexOf p.formattedUrl 47
    if lastSlash ≠ -1 then
      let lastQuestion := lastIndexOf p.formattedUrl 63
      let lastEqual := lastIndexOf p.formattedUrl 61
      let idLength := if lastQuestion = -1 then -1 else lastQuestion - lastSlash - 1
      { fileId := mid p.formattedUrl (lastSlash + 1) idLength
        sourceId := if lastEqual = -1 then none
          else some (mid p.formattedUrl (lastEqual + 1) (-1)) }
    else {}
  else {}

/-- The bytes that part a link. -/
def isPlainByte (c : UInt8) : Bool := c ≠ 47 && c ≠ 63 && c ≠ 61 && c ≠ 38

def joinParams : List Bytes → Bytes
  | [] => []
  | [param] => param
  | param :: params => param ++ 38 :: joinParams params

/-- The value of the parameter with the name source. -/
def sourceOf (param : Bytes) : Option Bytes :=
  if (ascii "source=".toList).isPrefixOf param then some (param.drop 7) else none

/-- A link to a shared file: what stands in front of the slash before its id, the id, maybe a slash
behind it, and maybe parameters. -/
structure SharedLink where
  front : Bytes
  fileId : Bytes
  slash : Bool := false
  params : Option (List Bytes) := none
  fileId_ne_nil : fileId ≠ []
  fileId_plain : ∀ c ∈ fileId, isPlainByte c = true
  params_apart : ∀ ps ∈ params, ∀ p ∈ ps, 38 ∉ p

namespace SharedLink

variable (l : SharedLink)

def query : Option Bytes := l.params.map joinParams

def source : Option Bytes := l.params.bind fun ps => ps.findSome? sourceOf

def behindId : Bytes := (if l.slash then [47] else []) ++ l.query.elim [] (63 :: ·)

def text : Bytes := l.front ++ 47 :: (l.fileId ++ l.behindId)

end SharedLink

/-- What a text says by its last slash, question mark and equals sign. -/
def idBehindLast (text : Bytes) : FileSharingId :=
  { fileId := upToLast 63 (behindLast 47 text)
    sourceId := if text.contains 61 then some (behindLast 61 text) else none }

section Last

variable {a b text : Bytes} {c : UInt8}

theorem idBehindLast_eq (text : Bytes) : idBehindLast text =
    { fileId := upToLast 63 (behindLast 47 text)
      sourceId := if 61 ∈ text then some (behindLast 61 text) else none } := by
  rw [idBehindLast]
  simp only [List.contains_iff_mem]

theorem lastIndexOf_last (h : c ∉ b) : lastIndexOf (a ++ c :: b) c = a.length := by
  have hnot : c ∉ b.reverse := fun hmem => h (List.mem_reverse.mp hmem)
  rw [lastIndexOf, List.reverse_append, List.reverse_cons, List.append_assoc,
    List.idxOf_append_of_notMem hnot, List.singleton_append, List.idxOf_cons_self,
    List.length_append, List.length_cons, List.length_reverse]
  omega

theorem lastIndexOf_none (h : c ∉ text) : lastIndexOf text c = -1 := by
  have hnot : c ∉ text.reverse := fun hmem => h (List.mem_reverse.mp hmem)
  rw [lastIndexOf, List.idxOf_of_notMem hnot, List.length_reverse]
  omega

theorem drop_behind (a b : Bytes) (c : UInt8) :
    (a ++ c :: b).drop ((a.length : Int) + 1).toNat = b := by
  rw [show ((a.length : Int) + 1).toNat = a.length + 1 by omega, ← List.drop_drop, List.drop_left]
  rfl

theorem mid_behind {length : Int} (h : length < 0) :
    mid (a ++ c :: b) (a.length + 1) length = b := by
  rw [mid, drop_behind]
  exact if_pos h

/-- A question mark in front of the slash makes the length negative. -/
theorem mid_behindLast (h : 47 ∉ b) :
    mid (a ++ 47 :: b) (a.length + 1)
        (if lastIndexOf (a ++ 47 :: b) 63 = -1 then -1
          else lastIndexOf (a ++ 47 :: b) 63 - a.length - 1) = upToLast 63 b := by
  by_cases hmem : 63 ∈ b
  · obtain ⟨x, y, rfl, hy⟩ := exists_last hmem
    have hindex : lastIndexOf (a ++ 47 :: (x ++ 63 :: y)) 63 = a.length + 1 + x.length := by
      have hlast := lastIndexOf_last (a := a ++ 47 :: x) hy
      rw [List.append_assoc, List.cons_append, List.length_append, List.length_cons] at hlast
      rw [hlast]
      omega
    rw [hindex, if_neg (by omega), upToLast_last hy, mid, if_neg (by omega), drop_behind,
      show ((a.length : Int) + 1 + x.length - a.length - 1).toNat = x.length by omega,
      List.take_left]
  · rw [upToLast_none hmem]
    refine mid_behind ?_
    by_cases hfront : 63 ∈ a
    · obtain ⟨x, y, rfl, hy⟩ := exists_last hfront
      have hrest : 63 ∉ y ++ 47 :: b := by
        rw [List.mem_append, List.mem_cons]
        rintro (h | h | h)
        · exact hy h
        · exact absurd h (by decide)
        · exact hmem h
      rw [List.append_assoc, List.cons_append, lastIndexOf_last hrest, List.length_append,
        List.length_cons]
      split <;> omega
    · have hnone : 63 ∉ a ++ 47 :: b := by
        rw [List.mem_append, List.mem_cons]
        rintro (h | h | h)
        · exact hfront h
        · exact absurd h (by decide)
        · exact hmem h
      rw [lastIndexOf_none hnone, if_pos rfl]
      decide

end Last

/-- A parser that has found a shared file. -/
structure UrlParser.Found (p : UrlParser) (link : Bytes) : Prop where
  urlStr : p.urlStr ≠ []
  category : p.category = .filesharing
  formattedUrl : p.formattedUrl = link

theorem UrlParser.Found.getFilesharingId {p : UrlParser} {link : Bytes} (h : p.Found link)
    (hslash : 47 ∈ link) : p.getFilesharingId = idBehindLast link := by
  have hurl : (!p.urlStr.isEmpty) = true := by
    rw [List.isEmpty_eq_false_iff.mpr h.urlStr]
    rfl
  obtain ⟨a, b, rfl, hb⟩ := exists_last hslash
  have hindex := lastIndexOf_last (a := a) hb
  rw [UrlParser.getFilesharingId, if_pos ⟨hurl, h.category⟩, h.formattedUrl, hindex,
    if_pos (by omega), idBehindLast_eq, behindLast_last hb]
  dsimp only
  rw [mid_behindLast hb]
  by_cases hequal : 61 ∈ a ++ 47 :: b
  · obtain ⟨x, y, heq, hy⟩ := exists_last hequal
    rw [if_pos hequal, heq, lastIndexOf_last hy, if_neg (by omega), behindLast_last hy,
      mid_behind (by decide)]
  · rw [if_neg hequal, lastIndexOf_none hequal, if_pos rfl]

/-- The core reads a link that does not end in a slash in the same way. -/
theorem getFileId_eq {link : Bytes} (hslash : 47 ∈ link) (hend : link.getLast? ≠ some 47) :
    getFileId link = (idBehindLast link).fileId ∧
      getSourceId link = (idBehindLast link).sourceId := by
  have htrim : link.rdropWhile (· == 47) = link := by
    rw [List.rdropWhile_eq_self_iff]
    intro hne hlast
    exact hend ((List.getLast?_eq_some_getLast hne).trans (congrArg some (beq_iff_eq.mp hlast)))
  rw [getFileId, getSourceId, htrim, idBehindLast_eq]
  exact ⟨if_pos hslash, rfl⟩

namespace SharedLink

variable (l : SharedLink)

/-- The slash in front of the id is the last one and the question mark behind it too, or the query
happens to end as if it had the id in it. -/
def FileIdLast : Prop :=
  l.query.elim (l.slash = false) fun q =>
    (47 ∈ q → upToLast 63 (behindLast 47 q) = l.fileId) ∧ (47 ∉ q → l.slash = false ∧ 63 ∉ q)

/-- Without a source there is no equals sign, and with one nothing else is behind the last. -/
def SourceLast : Prop :=
  l.source.elim (61 ∉ l.front ∧ ∀ q ∈ l.query, 61 ∉ q) fun source =>
    ∀ q ∈ l.query, behindLast 61 q = source

variable {l}

theorem notMem_fileId {c : UInt8} (hc : isPlainByte c = false) : c ∉ l.fileId :=
  fun hmem => Bool.false_ne_true (hc.symm.trans (l.fileId_plain c hmem))

theorem slash_mem_text : 47 ∈ l.text := List.mem_append_right _ List.mem_cons_self

/-- Without a slash in the query everything behind the last slash is known. -/
theorem behindLast_text (hquery : ∀ q ∈ l.query, 47 ∉ q) :
    behindLast 47 l.text =
      if l.slash then l.query.elim [] (63 :: ·) else l.fileId ++ l.behindId := by
  have hrest : 47 ∉ l.query.elim [] (63 :: ·) := by
    cases hq : l.query with
    | none => exact List.not_mem_nil
    | some q =>
      intro hmem
      exact (List.mem_cons.mp hmem).elim (fun h => absurd h (by decide)) (hquery q hq)
  rw [text, behindId]
  cases l.slash with
  | false =>
    refine behindLast_last fun hmem => ?_
    exact (List.mem_append.mp hmem).elim (notMem_fileId rfl) hrest
  | true =>
    rw [if_pos rfl, if_pos rfl, List.singleton_append, ← List.cons_append, ← List.append_assoc]
    exact behindLast_last hrest

theorem fileId_iff : (idBehindLast l.text).fileId = l.fileId ↔ l.FileIdLast := by
  rw [idBehindLast_eq, FileIdLast]
  dsimp only
  have hlast := l.behindLast_text
  cases hquery : l.query with
  | none =>
    rw [hlast (by rw [hquery]; exact fun q hq => nomatch hq), behindId, hquery]
    cases l.slash with
    | false =>
      refine iff_of_true ?_ rfl
      rw [if_neg Bool.false_ne_true, if_neg Bool.false_ne_true]
      exact (congrArg (upToLast 63) (List.append_nil _)).trans (upToLast_none (notMem_fileId rfl))
    | true => exact iff_of_false (fun h => l.fileId_ne_nil h.symm) (fun h => nomatch h)
  | some q =>
    rw [Option.elim_some]
    by_cases hslash : 47 ∈ q
    · have hmem : 47 ∈ 63 :: q := List.mem_cons_of_mem _ hslash
      rw [and_iff_left fun h => absurd hslash h, forall_prop_of_true hslash, text, behindId, hquery,
        Option.elim_some, ← List.cons_append,
        ← List.append_assoc, ← List.append_assoc, behindLast_append hmem, ← List.singleton_append,
        behindLast_append hslash]
    · rw [and_iff_right fun h => absurd h hslash, forall_prop_of_true hslash,
        hlast (by rw [hquery]; exact fun _ hq => Option.some.inj hq ▸ hslash),
        behindId, hquery, Option.elim_some]
      cases l.slash with
      | false =>
        rw [if_neg Bool.false_ne_true, if_neg Bool.false_ne_true, List.nil_append]
        by_cases hquestion : 63 ∈ q
        · refine iff_of_false (fun h => ?_) fun h => h.2 hquestion
          obtain ⟨x, y, rfl, hy⟩ := exists_last hquestion
          rw [← List.cons_append, ← List.append_assoc, upToLast_last hy] at h
          have hlength := congrArg List.length h
          rw [List.length_append, List.length_cons] at hlength
          omega
        · exact iff_of_true (upToLast_last hquestion) ⟨rfl, hquestion⟩
      | true =>
        refine iff_of_false (fun h => ?_) fun h => nomatch h.1
        rw [if_pos rfl] at h
        by_cases hquestion : 63 ∈ q
        · obtain ⟨x, y, rfl, hy⟩ := exists_last hquestion
          rw [← List.cons_append, upToLast_last hy] at h
          exact notMem_fileId (c := 63) rfl (h ▸ List.mem_cons_self)
        · rw [← List.nil_append (63 :: q), upToLast_last hquestion] at h
          exact l.fileId_ne_nil h.symm

theorem mem_joinParams {c : UInt8} {param : Bytes} {params : List Bytes} (hc : c ∈ param)
    (hparam : param ∈ params) : c ∈ joinParams params := by
  induction params with
  | nil => exact absurd hparam List.not_mem_nil
  | cons p params ih =>
    cases params with
    | nil => rwa [← List.mem_singleton.mp hparam]
    | cons p' params =>
      show c ∈ p ++ 38 :: joinParams (p' :: params)
      rw [List.mem_append]
      rcases List.mem_cons.mp hparam with rfl | hparam
      · exact .inl hc
      · exact .inr (List.mem_cons_of_mem _ (ih hparam))

/-- The parameter of a source has an equals sign. -/
theorem equals_mem_query {source : Bytes} (h : l.source = some source) :
    ∃ q, l.query = some q ∧ 61 ∈ q := by
  obtain ⟨params, hparams, hfind⟩ := Option.bind_eq_some_iff.mp h
  obtain ⟨param, hparam, hsource⟩ := List.exists_of_findSome?_eq_some hfind
  rw [sourceOf] at hsource
  split at hsource
  · rename_i hfront
    have hmem : 61 ∈ param := (List.isPrefixOf_iff_prefix.mp hfront).subset (by decide)
    exact ⟨_, congrArg (Option.map joinParams) hparams, mem_joinParams hmem hparam⟩
  · exact nomatch hsource

theorem equals_mem_text : 61 ∈ l.text ↔ 61 ∈ l.front ∨ ∃ q ∈ l.query, 61 ∈ q := by
  have hid : 61 ∉ l.fileId := notMem_fileId rfl
  have hslash : (61 : UInt8) ∉ if l.slash then [47] else [] := by
    split <;> decide
  rw [text, behindId, List.mem_append, List.mem_cons, List.mem_append, List.mem_append]
  cases l.query with
  | none =>
    constructor
    · rintro (h | h | h | h | h)
      · exact .inl h
      · exact absurd h (by decide)
      · exact absurd h hid
      · exact absurd h hslash
      · exact absurd h List.not_mem_nil
    · rintro (h | ⟨q, hq, -⟩)
      · exact .inl h
      · exact nomatch hq
  | some q =>
    constructor
    · rintro (h | h | h | h | h)
      · exact .inl h
      · exact absurd h (by decide)
      · exact absurd h hid
      · exact absurd h hslash
      · exact .inr ⟨q, rfl, (List.mem_cons.mp h).resolve_left (by decide)⟩
    · rintro (h | ⟨q', hq, h⟩)
      · exact .inl h
      · rw [← Option.some.inj hq] at h
        exact .inr (.inr (.inr (.inr (List.mem_cons_of_mem _ h))))

theorem sourceId_iff : (idBehindLast l.text).sourceId = l.source ↔ l.SourceLast := by
  rw [idBehindLast_eq, SourceLast]
  dsimp only
  cases hsource : l.source with
  | none =>
    have hmem := l.equals_mem_text
    by_cases hequal : 61 ∈ l.text
    · rw [if_pos hequal]
      refine iff_of_false (fun h => nomatch h) fun h => ?_
      rcases hmem.mp hequal with hfront | ⟨q, hq, hmemq⟩
      · exact h.1 hfront
      · exact h.2 q hq hmemq
    · rw [if_neg hequal]
      exact iff_of_true rfl ⟨fun h => hequal (hmem.mpr (.inl h)),
        fun q hq h => hequal (hmem.mpr (.inr ⟨q, hq, h⟩))⟩
  | some source =>
    obtain ⟨q, hq, hequal⟩ := equals_mem_query hsource
    have htext : l.text =
        (l.front ++ 47 :: (l.fileId ++ ((if l.slash then [47] else []) ++ [63]))) ++ q := by
      rw [text, behindId, hq, Option.elim_some, List.append_assoc, List.cons_append,
        List.append_assoc, List.append_assoc]
      rfl
    have hlast : behindLast 61 l.text = behindLast 61 q := by
      rw [htext]
      exact behindLast_append hequal
    rw [if_pos (equals_mem_text.mpr (.inr ⟨q, hq, hequal⟩)), hlast, hq, Option.some_inj]
    exact ⟨fun h q' hq' => Option.some.inj hq' ▸ h, fun h => h q rfl⟩

/-- A link whose id is found does not end in a slash. -/
theorem FileIdLast.getLast_text (h : l.FileIdLast) : l.text.getLast? ≠ some 47 := by
  have hid : (l.fileId).getLast? ≠ some 47 := fun hlast =>
    notMem_fileId (c := 47) rfl (List.mem_of_getLast? hlast)
  have hfound := fileId_iff.mpr h
  intro hend
  obtain ⟨front, hfront⟩ := List.getLast?_eq_some_iff.mp hend
  rw [idBehindLast_eq, hfront] at hfound
  have hnil : behindLast 47 (front ++ [47]) = [] := behindLast_last List.not_mem_nil
  dsimp only at hfound
  rw [hnil] at hfound
  exact l.fileId_ne_nil hfound.symm

/-- The core and the window both read a link right if and only if its last slash, its last question
mark and its last equals sign are those of the id and of the source. -/
theorem readRight_iff {p : UrlParser} (hp : p.Found l.text) :
    ((getFileId l.text = l.fileId ∧ getSourceId l.text = l.source) ∧
        p.getFilesharingId = { fileId := l.fileId, sourceId := l.source }) ↔
      l.FileIdLast ∧ l.SourceLast := by
  rw [hp.getFilesharingId slash_mem_text, ← fileId_iff, ← sourceId_iff]
  constructor
  · rintro ⟨-, h⟩
    rw [h]
    exact ⟨rfl, rfl⟩
  · rintro ⟨hid, hsource⟩
    obtain ⟨hcoreId, hcoreSource⟩ :=
      getFileId_eq slash_mem_text (fileId_iff.mp hid).getLast_text
    refine ⟨⟨hcoreId.trans hid, hcoreSource.trans hsource⟩, ?_⟩
    rw [← hid, ← hsource]

/-- The link `h/ab?a=1&source=c`. -/
def sourceAtEnd : SharedLink :=
  { front := ascii "h".toList, fileId := ascii "ab".toList
    params := some [ascii "a=1".toList, ascii "source=c".toList]
    fileId_ne_nil := by decide, fileId_plain := by decide +kernel
    params_apart := by decide +kernel }

theorem readRight_sourceAtEnd :
    (getFileId sourceAtEnd.text = ascii "ab".toList ∧
        getSourceId sourceAtEnd.text = some (ascii "c".toList)) ∧
      ({ urlStr := sourceAtEnd.text, formattedUrl := sourceAtEnd.text, category := .filesharing } :
        UrlParser).getFilesharingId =
          { fileId := ascii "ab".toList, sourceId := some (ascii "c".toList) } :=
  (readRight_iff ⟨by decide, rfl, rfl⟩).mpr
    ⟨fileId_iff.mp (by decide), sourceId_iff.mp (by decide)⟩

/-- The link `h/ab/?a=1`. -/
def slashBehindId : SharedLink :=
  { front := ascii "h".toList, fileId := ascii "ab".toList, slash := true
    params := some [ascii "a=1".toList]
    fileId_ne_nil := by decide, fileId_plain := by decide +kernel
    params_apart := by decide +kernel }

/-- The id is empty, and the source is that of another parameter. -/
theorem slashBehindId_read_wrong : slashBehindId.source = none ∧
    getFileId slashBehindId.text = [] ∧ getSourceId slashBehindId.text = some (ascii "1".toList) ∧
      ({ urlStr := slashBehindId.text, formattedUrl := slashBehindId.text
         category := .filesharing } : UrlParser).getFilesharingId =
        { fileId := [], sourceId := some (ascii "1".toList) } := by
  decide

end SharedLink

end Icq.Gui
