import Icq.Common.FixedHash
import Icq.Common.RkSearcherSsetComplete

/-! How patterns are filed in both searchers. -/

namespace Icq.Common
open Icq.Lib

variable {α π : Type} {f : Hashing α} {key : π → List α}

/-- All patterns that are distinct and long enough are in the table. -/
theorem RkSearcher.foldl_emplace [DecidableEq α] {patterns : List π} {s : RkSearcher π}
    (hdistinct : ((s.lookup ++ patterns).map key).Nodup)
    (hlong : ∀ p ∈ patterns, f.width ≤ (key p).length) (hstart : s.patterns = 0) :
    patterns.foldl (emplace f key) s = { s with lookup := s.lookup ++ patterns } := by
  induction patterns generalizing s with
  | nil =>
    rw [List.append_nil]
    rfl
  | cons p patterns ih =>
    obtain ⟨hp, hlong⟩ := List.forall_mem_cons.mp hlong
    have hsplit : s.lookup ++ p :: patterns = s.lookup ++ [p] ++ patterns := by
      rw [List.append_assoc, List.singleton_append]
    have hnew : ¬ (s.lookup.any fun q => key q = key p) = true := by
      intro hany
      obtain ⟨q, hq, hqp⟩ := List.any_eq_true.mp hany
      rw [List.map_append, List.nodup_append] at hdistinct
      exact hdistinct.2.2 _ (List.mem_map_of_mem hq) _ (List.mem_map_of_mem List.mem_cons_self)
        (of_decide_eq_true hqp)
    rw [List.foldl_cons, emplace, if_neg (Nat.not_lt.mpr hp), if_neg hnew, ← hstart, hsplit]
    rw [hsplit] at hdistinct
    exact ih hdistinct hlong hstart

theorem RkSearcher.ofList_eq [DecidableEq α] {patterns : List π} (hdistinct : (patterns.map key).Nodup)
    (hlong : ∀ p ∈ patterns, f.width ≤ (key p).length) (bucketOf : Nat → Nat) :
    ofList f key bucketOf patterns = { bucketOf, lookup := patterns } :=
  foldl_emplace (s := { bucketOf }) hdistinct hlong rfl

namespace RkSearcherSset

/-- The hashes that are the same stand together. -/
def Grouped : List Nat → Prop
  | [] => True
  | b :: buckets => (b ∈ buckets → buckets.head? = some b) ∧ Grouped buckets

theorem Grouped.takeWhile_eq_filter {b : Nat} {buckets : List Nat} (h : Grouped (b :: buckets)) :
    buckets.takeWhile (fun c => decide (c = b)) = buckets.filter fun c => decide (c = b) := by
  induction buckets with
  | nil => rfl
  | cons c buckets ih =>
    by_cases hc : c = b
    · have h' : Grouped (b :: buckets) := hc ▸ h.2
      rw [List.takeWhile_cons, List.filter_cons, if_pos (decide_eq_true hc),
        if_pos (decide_eq_true hc), ih h']
    · have hnot : b ∉ c :: buckets := fun hmem => hc (Option.some.inj (h.1 hmem))
      rw [List.takeWhile_cons, if_neg (by simpa using hc), eq_comm, List.filter_eq_nil_iff]
      intro d hd hdb
      exact hnot (of_decide_eq_true hdb ▸ hd)

/-- The linear search finds the first of them. -/
theorem Grouped.findable {buckets : List Nat} (h : Grouped buckets) :
    Findable buckets fun hash => buckets.findIdx fun b => b == hash := by
  intro hash
  dsimp only
  induction buckets with
  | nil => rfl
  | cons b buckets ih =>
    by_cases hb : b = hash
    · subst hb
      rw [List.findIdx_cons, beq_self_eq_true, cond_true, List.drop_zero,
        List.takeWhile_cons, List.filter_cons, if_pos (decide_eq_true rfl),
        if_pos (decide_eq_true rfl), h.takeWhile_eq_filter]
    · rw [List.findIdx_cons, beq_false_of_ne hb, cond_false, List.drop_succ_cons, ih h.2,
        List.filter_cons, if_neg (by simpa using hb)]

theorem takeWhile_eq_filter_of_le {hash : Nat} {buckets : List Nat}
    (hsorted : buckets.Pairwise (· ≤ ·)) (hle : ∀ b ∈ buckets, hash ≤ b) :
    buckets.takeWhile (fun c => decide (c = hash)) = buckets.filter fun c => decide (c = hash) := by
  induction buckets with
  | nil => rfl
  | cons b buckets ih =>
    obtain ⟨hfirst, hrest⟩ := List.pairwise_cons.mp hsorted
    obtain ⟨hb, hrestLe⟩ := List.forall_mem_cons.mp hle
    rcases Nat.lt_or_eq_of_le hb with hb | rfl
    · rw [List.takeWhile_cons, if_neg (by simpa using hb.ne'), eq_comm, List.filter_eq_nil_iff]
      intro c hc
      have hbc : b ≤ c := by
        rcases List.mem_cons.mp hc with rfl | hc
        · exact le_refl c
        · exact hfirst c hc
      simpa using (Nat.lt_of_lt_of_le hb hbc).ne'
    · rw [List.takeWhile_cons, List.filter_cons, if_pos (decide_eq_true rfl),
        if_pos (decide_eq_true rfl), ih hrest hrestLe]

/-- Where the hashes are sorted the binary search finds the first as well. -/
theorem findable_of_sorted {buckets : List Nat} (hsorted : buckets.Pairwise (· ≤ ·)) :
    Findable buckets fun hash => buckets.findIdx fun b => decide (hash ≤ b) := by
  intro hash
  dsimp only
  induction buckets with
  | nil => rfl
  | cons b buckets ih =>
    by_cases hb : hash ≤ b
    · rw [List.findIdx_cons, decide_eq_true hb, cond_true, List.drop_zero]
      refine takeWhile_eq_filter_of_le hsorted fun c hc => ?_
      rcases List.mem_cons.mp hc with rfl | hc
      · exact hb
      · exact Nat.le_trans hb ((List.pairwise_cons.mp hsorted).1 c hc)
    · have hne : b ≠ hash := fun h => hb (Nat.le_of_eq h.symm)
      rw [List.findIdx_cons, decide_eq_false hb, cond_false, List.drop_succ_cons,
        ih (List.pairwise_cons.mp hsorted).2, List.filter_cons, if_neg (by simpa using hne)]

/-- A pattern is put behind those with its hash. -/
theorem insertBehind_spec (p : π) (l : List π) : ∃ l', l'.Perm (p :: l) ∧
    insertBehind (f.code key p) p (l.map (f.code key)) l = (l'.map (f.code key), l') ∧
    (l'.map (f.code key)).head? = some (f.code key p) ∧
    (Grouped (f.code key p :: l.map (f.code key)) → Grouped (l'.map (f.code key))) := by
  induction l with
  | nil => exact ⟨[p], List.Perm.refl _, rfl, rfl, id⟩
  | cons q l ih =>
    by_cases hq : f.code key q = f.code key p
    · obtain ⟨l', hperm, hinsert, hhead, hgrouped⟩ := ih
      refine ⟨q :: l', (hperm.cons q).trans (List.Perm.swap p q l), ?_, congrArg some hq, ?_⟩
      · rw [List.map_cons, insertBehind, if_pos hq, hinsert]
        rfl
      · intro h
        rw [List.map_cons, hq] at h ⊢
        exact ⟨fun _ => hhead, hgrouped h.2⟩
    · refine ⟨p :: q :: l, List.Perm.refl _, ?_, rfl, ?_⟩
      · rw [List.map_cons, insertBehind, if_neg hq]
        rfl
      · exact id

theorem insertPattern_spec [DecidableEq α] {p : π} {l : List π} (hnew : key p ∉ l.map key) :
    ∃ l', l'.Perm (p :: l) ∧
      insertPattern key (f.code key p) p (l.map (f.code key)) l = (l'.map (f.code key), l') ∧
      (∀ q ∈ l.head?, l'.head? = some q) ∧
      (Grouped (l.map (f.code key)) → Grouped (l'.map (f.code key))) := by
  induction l with
  | nil => exact ⟨[p], List.Perm.refl _, rfl, by simp, fun _ => ⟨fun h => absurd h List.not_mem_nil, trivial⟩⟩
  | cons q l ih =>
    obtain ⟨hq, hnew⟩ := List.ne_and_not_mem_of_not_mem_cons hnew
    by_cases hcode : f.code key q = f.code key p
    · obtain ⟨l', hperm, hinsert, hhead, hgrouped⟩ := @insertBehind_spec _ _ f key p l
      refine ⟨q :: l', (hperm.cons q).trans (List.Perm.swap p q l), ?_, by simp, ?_⟩
      · rw [List.map_cons, insertPattern, if_pos hcode, if_neg (Ne.symm hq), insertBehind,
          if_pos hcode, hinsert]
        rfl
      · intro h
        rw [List.map_cons, hcode] at h ⊢
        exact ⟨fun _ => hhead, hgrouped h⟩
    · obtain ⟨l', hperm, hinsert, hhead, hgrouped⟩ := ih hnew
      refine ⟨q :: l', (hperm.cons q).trans (List.Perm.swap p q l), ?_, by simp, ?_⟩
      · rw [List.map_cons, insertPattern, if_neg hcode, hinsert]
        rfl
      · intro h
        refine ⟨fun hmem => ?_, hgrouped h.2⟩
        have hmem : f.code key q ∈ l.map (f.code key) := by
          rw [((hperm.map (f.code key)).mem_iff), List.map_cons] at hmem
          exact (List.mem_cons.mp hmem).resolve_left hcode
        have hfirst := h.1 hmem
        rw [List.head?_map, Option.map_eq_some_iff] at hfirst ⊢
        obtain ⟨r, hr, hrcode⟩ := hfirst
        exact ⟨r, hhead r hr, hrcode⟩

/-- Where the patterns are while the searcher is filled. -/
structure Filled (f : Hashing α) (key : π → List α) (patterns : List π) (s : RkSearcherSset π) :
    Prop where
  buckets : s.buckets = s.patterns.map (f.code key)
  grouped : Grouped s.buckets
  patterns : s.patterns.Perm patterns
  count : s.count = 0

/-- The arrays are sorted together, and so a pattern keeps its hash. -/
theorem Filled.sortBuckets {s : RkSearcherSset π} {patterns : List π} (h : s.Filled f key patterns) :
    s.sortBuckets.Filed f key patterns ∧ s.sortBuckets.count = 0 := by
  rw [RkSearcherSset.sortBuckets]
  by_cases hlinear : s.preferLinearSearch = true
  · rw [if_pos hlinear]
    refine ⟨⟨h.buckets, ?_, h.patterns⟩, h.count⟩
    have hbucket : s.bucket = fun hash => s.buckets.findIdx fun b => b == hash :=
      funext fun hash => if_pos hlinear
    exact hbucket ▸ h.grouped.findable
  rw [if_neg hlinear]
  have : Std.Total fun a b : Nat × π => a.1 ≤ b.1 := ⟨fun a b => Nat.le_total a.1 b.1⟩
  have : IsTrans (Nat × π) fun a b => a.1 ≤ b.1 := ⟨fun _ _ _ => Nat.le_trans⟩
  have hsorted := List.pairwise_insertionSort (fun a b : Nat × π => a.1 ≤ b.1)
    (s.buckets.zip s.patterns)
  have hperm := List.perm_insertionSort (fun a b : Nat × π => a.1 ≤ b.1) (s.buckets.zip s.patterns)
  generalize (s.buckets.zip s.patterns).insertionSort (fun a b => a.1 ≤ b.1) = sorted at hsorted hperm ⊢
  have hzip : s.buckets.zip s.patterns = s.patterns.map fun p => (f.code key p, p) := by
    rw [h.buckets, List.map_prod_right_eq_zip]
  rw [hzip] at hperm
  dsimp only
  refine ⟨⟨?_, ?_, ?_⟩, h.count⟩
  · rw [List.map_map]
    refine List.map_congr_left fun b hb => ?_
    obtain ⟨p, -, rfl⟩ := List.mem_map.mp (hperm.mem_iff.mp hb)
    rfl
  · have hbucket : ({ s with buckets := sorted.map (·.1), patterns := sorted.map (·.2) } :
        RkSearcherSset π).bucket = fun hash => (sorted.map (·.1)).findIdx fun b => decide (hash ≤ b) := by
      refine funext fun hash => if_neg ?_
      rw [preferLinearSearch, List.length_map, hperm.length_eq, List.length_map]
      rwa [preferLinearSearch, h.buckets, List.length_map] at hlinear
    rw [hbucket]
    exact findable_of_sorted (List.pairwise_map.mpr hsorted)
  · refine (hperm.map (·.2)).trans ?_
    rw [List.map_map]
    exact (List.map_id _).symm ▸ h.patterns

/-- Only a searcher that is full does not take one more pattern. -/
theorem Filled.insert [DecidableEq α] {s : RkSearcherSset π} {patterns : List π} {p : π}
    (h : s.Filled f key patterns) (hlong : f.width ≤ (key p).length) (hnew : key p ∉ patterns.map key)
    (maxSize : Nat) : if maxSize < patterns.length then s.insert f key maxSize p = none
      else ∃ s', s.insert f key maxSize p = some s' ∧ s'.Filled f key (p :: patterns) := by
  have hlength : s.buckets.length = patterns.length := by
    rw [h.buckets, List.length_map, h.patterns.length_eq]
  rw [RkSearcherSset.insert, hlength, if_neg (Nat.not_lt.mpr hlong)]
  split
  · rfl
  have hnew : key p ∉ s.patterns.map key := fun hmem =>
    hnew ((h.patterns.map key).mem_iff.mp hmem)
  obtain ⟨l', hperm, hinsert, -, hgrouped⟩ := insertPattern_spec (f := f) hnew
  rw [h.buckets, hinsert]
  exact ⟨_, rfl, rfl, hgrouped (h.buckets ▸ h.grouped), hperm.trans (h.patterns.cons p), h.count⟩

theorem Filled.foldlM [DecidableEq α] {s : RkSearcherSset π} {rest filled : List π}
    (h : s.Filled f key filled) (hdistinct : ((rest ++ filled).map key).Nodup)
    (hlong : ∀ p ∈ rest, f.width ≤ (key p).length) (maxSize : Nat) :
    let result := rest.foldlM (fun s p =>
      if (key p).length < f.width then some s else s.insert f key maxSize p) s
    (result = none ∧ maxSize + 1 < (rest ++ filled).length) ∨
      ∃ s', result = some s' ∧ s'.Filled f key (rest ++ filled) ∧
        (rest ≠ [] → (rest ++ filled).length ≤ maxSize + 1) := by
  induction rest generalizing s filled with
  | nil => exact .inr ⟨s, rfl, h, fun hne => absurd rfl hne⟩
  | cons p rest ih =>
    obtain ⟨hp, hlong⟩ := List.forall_mem_cons.mp hlong
    have hperm : (rest ++ p :: filled).Perm (p :: rest ++ filled) := List.perm_middle
    have hdistinct' := ((hperm.map key).nodup_iff).mpr hdistinct
    have hnew : key p ∉ filled.map key := by
      rw [List.cons_append, List.map_cons, List.nodup_cons, List.map_append] at hdistinct
      exact fun hmem => hdistinct.1 (List.mem_append_right _ hmem)
    have hinsert := h.insert hp hnew maxSize
    rw [List.foldlM_cons, if_neg (Nat.not_lt.mpr hp)]
    by_cases hfull : maxSize < filled.length
    · rw [if_pos hfull] at hinsert
      rw [hinsert]
      refine .inl ⟨rfl, ?_⟩
      rw [List.length_append, List.length_cons]
      omega
    · rw [if_neg hfull] at hinsert
      obtain ⟨s', hs', hfilled⟩ := hinsert
      rw [hs', Option.bind_eq_bind, Option.bind_some]
      rcases ih hfilled hdistinct' hlong with ⟨hnone, hover⟩ | ⟨s'', hs'', hfilled', hfits⟩
      · exact .inl ⟨hnone, hperm.length_eq ▸ hover⟩
      · refine .inr ⟨s'', hs'', ⟨hfilled'.buckets, hfilled'.grouped, hfilled'.patterns.trans hperm,
          hfilled'.count⟩, fun _ => ?_⟩
        by_cases hrest : rest = []
        · subst hrest
          rw [List.singleton_append, List.length_cons]
          omega
        · exact hperm.length_eq ▸ hfits hrest

/-- A searcher overflows or has all the patterns. -/
theorem ofList_spec [DecidableEq α] {patterns : List π} (hdistinct : (patterns.map key).Nodup)
    (hlong : ∀ p ∈ patterns, f.width ≤ (key p).length) (maxSize : Nat) :
    (ofList f key maxSize patterns = none ∧ maxSize + 1 < patterns.length) ∨
      ∃ s, ofList f key maxSize patterns = some s ∧ s.Filed f key patterns ∧ s.count = 0 ∧
        patterns.length ≤ maxSize + 1 := by
  have hempty : ({} : RkSearcherSset π).Filled f key [] := ⟨rfl, trivial, List.Perm.refl _, rfl⟩
  have hnodup : ((patterns ++ []).map key).Nodup := by rwa [List.append_nil]
  have hfold := hempty.foldlM hnodup hlong maxSize
  rw [List.append_nil] at hfold
  rw [ofList]
  rcases hfold with ⟨hnone, hover⟩ | ⟨s, hs, hfilled, hfits⟩
  · rw [hnone]
    exact .inl ⟨rfl, hover⟩
  · rw [hs]
    obtain ⟨hfiled, hcount⟩ := hfilled.sortBuckets
    refine .inr ⟨_, rfl, hfiled, hcount, ?_⟩
    by_cases hnil : patterns = []
    · rw [hnil]
      exact Nat.zero_le _
    · exact hfits hnil

theorem Filed.setReordering {s : RkSearcherSset π} {patterns : List π} (h : s.Filed f key patterns)
    (policy : ReorderingPolicy) : (s.setReordering policy).Filed f key patterns :=
  ⟨h.buckets, h.findable, h.patterns⟩

end RkSearcherSset

/-- The results of calling the searchers again and again, each time from the place of the last
result: both find all patterns, whatever the order in the buckets and however they are reordered. -/
def SearchersComplete [DecidableEq α] (f : Hashing α) (key : π → List α) (patterns : List π) :
    Prop :=
  ∀ (text : List α) (bucketOf : Nat → Nat) (order : List π),
    order.Perm (RkSearcher.ofList f key bucketOf patterns).lookup →
    ∀ (maxSize : Nat) (policy : ReorderingPolicy),
    ∃ results, Complete f key text patterns results ∧
      Enumerates (fun s i => RkSearcher.search f key text none s i)
        { RkSearcher.ofList f key bucketOf patterns with lookup := order } 0 results ∧
      (RkSearcherSset.ofList f key maxSize patterns = none ↔ maxSize + 1 < patterns.length) ∧
      ∀ s, RkSearcherSset.ofList f key maxSize patterns = some s →
        ∃ results', Complete f key text patterns results' ∧ results.Perm results' ∧
          Enumerates (fun s i => RkSearcherSset.search f key text none s i)
            (s.setReordering policy) 0 results'

/-- Patterns that are distinct are found if the hash suits them. -/
theorem complete_of_suits [DecidableEq α] {patterns : List π} (hdistinct : (patterns.map key).Nodup)
    (hsuits : f.Suits key patterns) : SearchersComplete f key patterns := by
  intro text bucketOf order horder maxSize policy
  rw [RkSearcher.ofList_eq hdistinct hsuits.long] at horder ⊢
  have hnodup : patterns.Nodup := hdistinct.of_map key
  obtain ⟨results, henum, hcomplete⟩ := @RkSearcher.search_complete _ _ f key text
    { bucketOf, lookup := order } (horder.nodup_iff.mpr hnodup)
    (hsuits.perm horder) rfl
  refine ⟨results, hcomplete.of_perm horder, henum, ?_⟩
  rcases RkSearcherSset.ofList_spec hdistinct hsuits.long maxSize with
    ⟨hnone, hover⟩ | ⟨s, hs, hfiled, hcount, hfits⟩
  · rw [hnone]
    exact ⟨iff_of_true rfl hover, fun s hs => (Option.some_ne_none s hs.symm).elim⟩
  · rw [hs]
    refine ⟨iff_of_false (Option.some_ne_none s) (Nat.not_lt.mpr hfits), fun s' hs' => ?_⟩
    obtain rfl := Option.some.inj hs'
    obtain ⟨results', henum', hcomplete'⟩ :=
      @RkSearcherSset.search_complete _ _ f key text _ _ (hfiled.setReordering policy) hnodup hsuits
        hcount
    exact ⟨results', hcomplete', (hcomplete.of_perm horder).perm hcomplete', henum'⟩

/-- A pattern is only found where the text has its hash. -/
theorem suits_of_complete [DecidableEq α] {patterns : List π} (hdistinct : (patterns.map key).Nodup)
    (hlong : ∀ p ∈ patterns, f.width ≤ (key p).length) (h : SearchersComplete f key patterns) :
    f.Suits key patterns := by
  refine ⟨hlong, fun p hp found hequal => ?_⟩
  have hlength : f.width ≤ found.length := hequal.length_eq ▸ hlong p hp
  have horder : patterns.Perm (RkSearcher.ofList f key id patterns).lookup := by
    rw [RkSearcher.ofList_eq hdistinct hlong]
  obtain ⟨_, -, -, -, hsset⟩ := h found id patterns horder patterns.length .none
  rcases RkSearcherSset.ofList_spec hdistinct hlong patterns.length with
    ⟨-, hover⟩ | ⟨s, hs, hfiled, hcount, -⟩
  · omega
  obtain ⟨results, hcomplete, -, henum⟩ := hsset s hs
  obtain ⟨results', henum', hmet, -⟩ := @RkSearcherSset.finds_met _ _ f key found _ _
    (hfiled.setReordering .none) (List.ne_nil_of_mem hp) hlength hcount
  have hoccurs : f.OccursAt key found 0 p := ⟨found, List.prefix_refl _, hequal⟩
  have hin : (0, p) ∈ results' := henum.unique henum' ▸ (hcomplete.exact 0 p).mpr ⟨hp, hoccurs⟩
  have hmeets := (mem_pairsFrom.mp (hmet.mem_iff.mp hin)).2.2
  simp only [Hashing.meets, Bool.and_eq_true, decide_eq_true_eq] at hmeets
  exact hmeets.2.symm

/-- Patterns that are distinct and as long as the hash are found by both searchers, if and only if
they have the hash of all that they are the lower case of. -/
theorem rkSearchers_complete [DecidableEq α] (h : FixedHash α) {width : Nat} (hwidth : 0 < width)
    (caseFolding : Bool) (key : π → List α) (patterns : List π)
    (hdistinct : (patterns.map key).Nodup) (hlong : ∀ p ∈ patterns, width ≤ (key p).length) :
    SearchersComplete (h.hashing hwidth caseFolding) key patterns ↔
      ∀ p ∈ patterns, h.HashesFolded width caseFolding (key p) :=
  ⟨fun hcomplete => (FixedHash.suits_iff hlong).mp (suits_of_complete hdistinct hlong hcomplete),
    fun hhash => complete_of_suits hdistinct ((FixedHash.suits_iff hlong).mpr hhash)⟩

def runsOfA : List WString := [wide "aaa", wide "aaaa"]

theorem three_positive : 0 < 3 := Nat.zero_lt_succ 2

/-- The hash of ASCII characters with a comparison that makes the text lower case. -/
def asciiHashing : Hashing WChar :=
  (FixedHash.ascii .wchar fun _ => 0).hashing three_positive true

/-- Whatever the text, and in capital letters too. -/
theorem rkSearchers_complete_runsOfA : SearchersComplete asciiHashing id runsOfA ∧
    ∃ results, Enumerates (fun s i => RkSearcher.search asciiHashing id (wide "AAAAA") none s i)
      (RkSearcher.ofList asciiHashing id id runsOfA) 0 results ∧
        (2, wide "aaa") ∈ results ∧ (3, wide "aaa") ∉ results := by
  have hlong : ∀ p ∈ runsOfA, 3 ≤ p.length := by decide
  have hcomplete : SearchersComplete asciiHashing id runsOfA := by
    refine (rkSearchers_complete _ three_positive true id runsOfA (by decide) hlong).mpr ?_
    intro p hp
    have hascii : ∀ p ∈ runsOfA, (p.take 3).all (· < 128) = true := by decide
    exact FixedHash.hashesFolded_ascii (by simpa using hascii p hp) true
  obtain ⟨results, hresults, henum, -⟩ :=
    hcomplete (wide "AAAAA") id _ (List.Perm.refl _) 2 .mtf
  refine ⟨hcomplete, results, henum, ?_, ?_⟩
  · refine (hresults.exact _ _).mpr ⟨by decide, wide "AAA", ?_, ?_⟩
    · decide
    · exact FixedHash.equal_iff.mpr (by decide +kernel)
  · intro hin
    have hfits := ((hresults.exact _ _).mp hin).2.lt (by decide)
    exact absurd hfits (by decide)

def smallZhes : WString := [0x436, 0x436, 0x436]

def capitalZhes : WString := [0x416, 0x416, 0x416]

/-- Three capital letters are not found, though they are the pattern in lower case: the hash is made
of their low bytes, which are no letters and differ. -/
theorem capitals_not_found : asciiHashing.OccursAt id capitalZhes 0 smallZhes ∧
    (∀ results, Enumerates (fun s i => RkSearcher.search asciiHashing id capitalZhes none s i)
        (RkSearcher.ofList asciiHashing id id [smallZhes]) 0 results → results = []) ∧
    ∃ s, RkSearcherSset.ofList asciiHashing id 1 [smallZhes] = some s ∧
      ∀ results, Enumerates (fun s i => RkSearcherSset.search asciiHashing id capitalZhes none s i)
        s 0 results → results = [] := by
  refine ⟨⟨capitalZhes, List.prefix_refl _, ?_⟩, fun results h => ?_, _, rfl, fun results h => ?_⟩
  · exact FixedHash.equal_iff.mpr (by decide +kernel)
  · exact h.unique (.done rfl)
  · exact h.unique (.done rfl)

end Icq.Common
