import Icq.Archive.GallerySorted

/-! A gallery is read page by page, from the newest item on. -/

namespace Icq.Archive
open Icq.Lib

/-- What a loop over the items found, its counter, and the items it did not come to. -/
structure GalleryScan where
  found : List GalleryItem
  count : Int
  rest : List GalleryItem

/-- The loops of `get_items`: one item more than a page has is found. -/
def scanItems (accept : GalleryItem → Bool) (limit count : Int) :
    List GalleryItem → GalleryScan
  | [] => ⟨[], count, []⟩
  | item :: rest =>
    if count = limit then ⟨[], count, item :: rest⟩
    else if accept item then
      let r := scanItems accept limit (count + 1) rest
      { r with found := item :: r.found }
    else scanItems accept limit count rest

/-- The item too many is taken back. -/
def GalleryScan.page (r : GalleryScan) (pageSize : Int) : List GalleryItem :=
  if r.count = pageSize.natAbs then r.found.dropLast else r.found

namespace GalleryStorage

/-- The items, and whether there are no more. -/
def getItems (s : GalleryStorage) (from_ : GalleryEntryId) (types : List Bytes) (pageSize : Int)
    (exhausted : Bool) : List GalleryItem × Bool :=
  if s.items.isEmpty then ([], true)
  else
    let atEnd := !s.state.firstEntry.empty
    if from_.empty then
      let r := scanItems (fun i => (from_.empty || i.id.lessThan from_) && types.contains i.type)
        pageSize (-1) s.items.reverse
      (r.page pageSize, if r.rest.isEmpty then atEnd else exhausted)
    else
      let before := s.items.takeWhile (·.id ≠ from_)
      match s.items.dropWhile (·.id ≠ from_) with
      | [] => ([], true)
      | _ :: after =>
        if 0 < pageSize && before.isEmpty then ([], atEnd)
        else if 0 < pageSize then
          -- the iterator stays at the first item and never comes to the end
          ((scanItems (fun i => types.contains i.type) pageSize.natAbs (-1) before.reverse).page pageSize,
            exhausted)
        else
          let r := scanItems (fun i => types.contains i.type) pageSize.natAbs (-1) after
          (r.page pageSize, if r.rest.isEmpty then atEnd else exhausted)

/-- The item after which the next call goes on. -/
def following (from_ : GalleryEntryId) (page : List GalleryItem) : GalleryEntryId :=
  match page.getLast? with
  | none => from_
  | some item => item.id

/-- The pages of the calls up to the one that says that there are no more. -/
inductive Calls (s : GalleryStorage) (types : List Bytes) (pageSize : Nat) :
    GalleryEntryId → List (List GalleryItem) → Prop
  | last {from_ : GalleryEntryId} {page : List GalleryItem} :
      s.getItems from_ types pageSize false = (page, true) → Calls s types pageSize from_ [page]
  | next {from_ : GalleryEntryId} {page : List GalleryItem} {pages : List (List GalleryItem)} :
      s.getItems from_ types pageSize false = (page, false) →
      Calls s types pageSize (following from_ page) pages →
      Calls s types pageSize from_ (page :: pages)

/-- The items of the types, the newest first. -/
def requested (s : GalleryStorage) (types : List Bytes) : List GalleryItem :=
  s.items.reverse.filter fun i => types.contains i.type

/-- The calls end, and their pages have the right size and are everything. -/
def PagesComplete (s : GalleryStorage) (types : List Bytes) (pageSize : Nat) : Prop :=
  ∃ pages, Calls s types pageSize {} pages ∧ (∀ page ∈ pages, page.length ≤ pageSize) ∧
    pages.flatten = s.requested types

/-- The items at the ends of pages have ids. -/
def EndsNamed (pageSize : Nat) (items : List GalleryItem) : Prop :=
  ∀ i item, items[i]? = some item → (pageSize ∣ i + 1 ∨ i + 1 = items.length) →
    item.id.empty = false

section Scan

variable {accept : GalleryItem → Bool} {items : List GalleryItem}

theorem scanItems_limit (accept : GalleryItem → Bool) (limit : Int) (items : List GalleryItem) :
    scanItems accept limit limit items = ⟨[], limit, items⟩ := by
  cases items with
  | nil => rfl
  | cons item rest => rw [scanItems, if_pos rfl]

/-- Either all is seen, or the loop stops behind the item that is one too many. -/
theorem scanItems_cases (accept : GalleryItem → Bool) {limit count : Int} (n : Nat)
    (hcount : count + (n + 1 : Nat) = limit) (items : List GalleryItem) :
    (items.countP accept ≤ n ∧ scanItems accept limit count items =
      ⟨items.filter accept, count + items.countP accept, []⟩) ∨
    ∃ front item rest, items = front ++ item :: rest ∧ accept item = true ∧
      front.countP accept = n ∧ scanItems accept limit count items =
        ⟨front.filter accept ++ [item], limit, rest⟩ := by
  induction items generalizing count n with
  | nil => exact Or.inl ⟨Nat.zero_le n, by simp [scanItems]⟩
  | cons item rest ih =>
    have hne : count ≠ limit := by omega
    rw [scanItems, if_neg hne]
    by_cases haccept : accept item = true
    · rw [if_pos haccept]
      cases n with
      | zero =>
        have hlimit : count + 1 = limit := by omega
        refine Or.inr ⟨[], item, rest, rfl, haccept, rfl, ?_⟩
        rw [hlimit, scanItems_limit]
        rfl
      | succ n =>
        have hcount : count + 1 + (n + 1 : Nat) = limit := by omega
        obtain ⟨hle, h⟩ | ⟨front, x, after, hrest, hx, hfront, h⟩ := ih n hcount
        · refine Or.inl ⟨by rw [List.countP_cons_of_pos haccept]; omega, ?_⟩
          rw [h, List.filter_cons_of_pos haccept, List.countP_cons_of_pos haccept]
          simp only [GalleryScan.mk.injEq, true_and, and_true]
          omega
        · refine Or.inr ⟨item :: front, x, after, by rw [hrest]; rfl, hx, ?_, ?_⟩
          · rw [List.countP_cons_of_pos haccept, hfront]
          · rw [h, List.filter_cons_of_pos haccept]
            rfl
    · rw [if_neg haccept]
      obtain ⟨hle, h⟩ | ⟨front, x, after, hrest, hx, hfront, h⟩ := ih n hcount
      · refine Or.inl ⟨by rwa [List.countP_cons_of_neg haccept], ?_⟩
        rw [h, List.filter_cons_of_neg haccept, List.countP_cons_of_neg haccept]
      · refine Or.inr ⟨item :: front, x, after, by rw [hrest]; rfl, hx, ?_, ?_⟩
        · rw [List.countP_cons_of_neg haccept, hfront]
        · rw [h, List.filter_cons_of_neg haccept]

/-- A page, and where the loop stops. -/
theorem page_cases (accept : GalleryItem → Bool) (pageSize : Nat) (items : List GalleryItem) :
    let r := scanItems accept pageSize (-1) items
    (items.countP accept ≤ pageSize ∧ r.page pageSize = items.filter accept ∧ r.rest = []) ∨
    ∃ front item rest, items = front ++ item :: rest ∧ accept item = true ∧
      front.countP accept = pageSize ∧ r.page pageSize = front.filter accept ∧ r.rest = rest := by
  intro r
  have hlimit : (-1 : Int) + (pageSize + 1 : Nat) = pageSize := by omega
  obtain ⟨hle, h⟩ | ⟨front, x, rest, hitems, hx, hfront, h⟩ :=
    scanItems_cases accept pageSize hlimit items
  · refine Or.inl ⟨hle, ?_, congrArg GalleryScan.rest h⟩
    have hcount : r.count ≠ (pageSize : Int).natAbs := by
      rw [Int.natAbs_natCast, congrArg GalleryScan.count h]
      dsimp only
      omega
    rw [GalleryScan.page, if_neg hcount, congrArg GalleryScan.found h]
  · refine Or.inr ⟨front, x, rest, hitems, hx, hfront, ?_, congrArg GalleryScan.rest h⟩
    have hcount : r.count = (pageSize : Int).natAbs := by
      rw [Int.natAbs_natCast, congrArg GalleryScan.count h]
    rw [GalleryScan.page, if_pos hcount, congrArg GalleryScan.found h, List.dropLast_concat]

/-- The last item that is found stands in front of items that are not. -/
theorem split_last {last : GalleryItem} (h : (items.filter accept).getLast? = some last) :
    ∃ front rest, items = front ++ last :: rest ∧ accept last = true ∧ rest.filter accept = [] := by
  obtain ⟨found, hfound⟩ := List.getLast?_eq_some_iff.mp h
  obtain ⟨front, tail, hitems, -, htail⟩ := List.filter_eq_append_iff.mp hfound
  obtain ⟨skipped, rest, htail, -, hlast, hrest⟩ := List.filter_eq_cons_iff.mp htail
  exact ⟨front ++ skipped, rest, by rw [hitems, htail, List.append_assoc], hlast, hrest⟩

theorem filter_split (accept : GalleryItem → Bool) {last : GalleryItem}
    (hlast : accept last = true) (front rest : List GalleryItem) :
    (front ++ last :: rest).filter accept =
      (front.filter accept ++ [last]) ++ rest.filter accept := by
  rw [List.filter_append, List.filter_cons_of_pos hlast, List.append_assoc]
  rfl

theorem filter_skipped (accept : GalleryItem → Bool) {skipped : List GalleryItem}
    {item : GalleryItem} (hskipped : skipped.filter accept = []) (hitem : accept item = true)
    (rest : List GalleryItem) :
    (skipped ++ item :: rest).filter accept = item :: rest.filter accept := by
  rw [List.filter_append, hskipped, List.filter_cons_of_pos hitem]
  rfl

/-- A page ends with its last item, and behind it there is another one. -/
theorem page_split (accept : GalleryItem → Bool) {pageSize : Nat} (hpos : 0 < pageSize)
    (items : List GalleryItem) :
    let r := scanItems accept pageSize (-1) items
    (items.countP accept ≤ pageSize ∧ r.page pageSize = items.filter accept ∧ r.rest = []) ∨
    ∃ front last skipped item rest, items = front ++ last :: (skipped ++ item :: rest) ∧
      accept last = true ∧ skipped.filter accept = [] ∧ accept item = true ∧
      (front.filter accept ++ [last]).length = pageSize ∧
      r.page pageSize = front.filter accept ++ [last] ∧ r.rest = rest := by
  intro r
  obtain h | ⟨front, item, rest, hitems, hitem, hfront, hpage, hrest⟩ :=
    page_cases accept pageSize items
  · exact Or.inl h
  rw [List.countP_eq_length_filter] at hfront
  obtain ⟨last, hlast⟩ := Option.isSome_iff_exists.mp
    (List.getLast?_isSome.mpr (List.ne_nil_of_length_pos (hfront ▸ hpos)))
  obtain ⟨before, skipped, hsplit, haccept, hskipped⟩ := split_last hlast
  have hfilter : front.filter accept = before.filter accept ++ [last] := by
    rw [hsplit, List.filter_append, List.filter_cons_of_pos haccept, hskipped]
  refine Or.inr ⟨before, last, skipped, item, rest, ?_, haccept, hskipped, hitem, ?_, ?_, hrest⟩
  · rw [hitems, hsplit, List.append_assoc]
    rfl
  · rw [← hfilter, hfront]
  · rw [hpage, hfilter]

end Scan

section Ends

variable {items front : List GalleryItem} {pageSize : Nat}

theorem EndsNamed.nil (pageSize : Nat) : EndsNamed pageSize [] := by
  intro i item h
  rw [List.getElem?_nil] at h
  cases h

/-- The end of the first page, if there is a whole one. -/
theorem EndsNamed.first (h : EndsNamed pageSize (front ++ items)) (hfront : front.length = pageSize)
    {last : GalleryItem} (hlast : front.getLast? = some last) : last.id.empty = false := by
  have hpos : 0 < front.length := List.length_pos_of_ne_nil fun hnil => by
    rw [hnil] at hlast
    cases hlast
  refine h (front.length - 1) last ?_ (Or.inl ?_)
  · rw [List.getElem?_append_left (by omega), ← List.getLast?_eq_getElem?, hlast]
  · rw [Nat.sub_add_cancel hpos, hfront]

theorem EndsNamed.whole (h : EndsNamed pageSize items) {last : GalleryItem}
    (hlast : items.getLast? = some last) : last.id.empty = false := by
  have hpos : 0 < items.length := List.length_pos_of_ne_nil fun hnil => by
    rw [hnil] at hlast
    cases hlast
  refine h (items.length - 1) last ?_ (Or.inr (Nat.sub_add_cancel hpos))
  rw [← List.getLast?_eq_getElem?, hlast]

theorem EndsNamed.behind (h : EndsNamed pageSize (front ++ items))
    (hfront : front.length = pageSize) : EndsNamed pageSize items := by
  intro i item hitem hend
  refine h (front.length + i) item ?_ (hend.imp (fun hdvd => ?_) fun hlast => ?_)
  · rw [List.getElem?_append_right (Nat.le_add_right _ _), Nat.add_sub_cancel_left, hitem]
  · rw [hfront, Nat.add_assoc]
    exact (Nat.dvd_add_right (dvd_refl pageSize)).mpr hdvd
  · rw [List.length_append, Nat.add_assoc, hlast]

/-- One more page. -/
theorem EndsNamed.append (h : EndsNamed pageSize items) (hne : items ≠ [])
    (hfront : front.length = pageSize)
    (hlast : ∀ last, front.getLast? = some last → last.id.empty = false) :
    EndsNamed pageSize (front ++ items) := by
  have hpos := List.length_pos_of_ne_nil hne
  intro i item hitem hend
  rw [List.length_append] at hend
  by_cases hi : i < front.length
  · rw [List.getElem?_append_left hi] at hitem
    have hlen : i = front.length - 1 := by
      rcases hend with hdvd | hend
      · have := Nat.le_of_dvd (Nat.succ_pos i) hdvd
        omega
      · omega
    rw [hlen, ← List.getLast?_eq_getElem?] at hitem
    exact hlast item hitem
  · obtain ⟨j, rfl⟩ := Nat.exists_eq_add_of_le (Nat.le_of_not_lt hi)
    rw [List.getElem?_append_right (Nat.le_add_right _ _), Nat.add_sub_cancel_left] at hitem
    refine h j item hitem (hend.imp (fun hdvd => ?_) fun hend => by omega)
    rw [hfront, Nat.add_assoc] at hdvd
    exact (Nat.dvd_add_right (dvd_refl pageSize)).mp hdvd

/-- A page that is not whole ends with the last item. -/
theorem EndsNamed.of_length_le (hlen : items.length ≤ pageSize)
    (hlast : ∀ last, items.getLast? = some last → last.id.empty = false) :
    EndsNamed pageSize items := by
  intro i item hitem hend
  obtain ⟨hi, -⟩ := List.getElem?_eq_some_iff.mp hitem
  refine hlast item ?_
  rw [List.getLast?_eq_getElem?, ← hitem]
  have hi : items.length - 1 = i := by
    rcases hend with hdvd | hend
    · have := Nat.le_of_dvd (Nat.succ_pos i) hdvd
      omega
    · omega
  rw [hi]

end Ends

section Calls

variable {s : GalleryStorage} {types : List Bytes} {pageSize : Nat} {from_ : GalleryEntryId}
  {pages : List (List GalleryItem)} {page newer older : List GalleryItem} {y : GalleryItem}

theorem Calls.next_inv (h : Calls s types pageSize from_ pages)
    (hget : s.getItems from_ types pageSize false = (page, false)) :
    ∃ later, pages = page :: later ∧ Calls s types pageSize (following from_ page) later := by
  cases h with
  | last hlast =>
    rw [hget] at hlast
    cases hlast
  | next hnext hlater =>
    rw [hget] at hnext
    cases hnext
    exact ⟨_, rfl, hlater⟩

theorem Calls.last_inv (h : Calls s types pageSize from_ pages)
    (hget : s.getItems from_ types pageSize false = (page, true)) : pages = [page] := by
  cases h with
  | last hlast =>
    rw [hget] at hlast
    cases hlast
    rfl
  | next hnext hlater =>
    rw [hget] at hnext
    cases hnext

theorem Calls.unique {pages' : List (List GalleryItem)} (h : Calls s types pageSize from_ pages)
    (h' : Calls s types pageSize from_ pages') : pages = pages' := by
  induction h generalizing pages' with
  | last hget => exact (h'.last_inv hget).symm
  | next hget hlater ih =>
    obtain ⟨later, rfl, hlater'⟩ := h'.next_inv hget
    rw [ih hlater']

theorem following_of_getLast (hlast : page.getLast? = some y) : following from_ page = y.id := by
  rw [following, hlast]

theorem empty_iff {id : GalleryEntryId} : id.empty = true ↔ id = {} := by
  rw [GalleryEntryId.empty, Bool.and_eq_true, beq_iff_eq, beq_iff_eq, GalleryEntryId.mk.injEq]

/-- The loop of the first page. -/
theorem getItems_first (types : List Bytes) (pageSize : Nat) (hfirst : s.state.firstEntry.empty = false) (hsome : s.items ≠ []) :
    s.getItems {} types pageSize false =
      let r := scanItems (types.contains ·.type) pageSize (-1) s.items.reverse
      (r.page pageSize, r.rest.isEmpty) := by
  have haccept : (fun i : GalleryItem => (GalleryEntryId.empty {} || i.id.lessThan {}) &&
      types.contains i.type) = (types.contains ·.type) := rfl
  rw [getItems, if_neg (by rwa [List.isEmpty_iff]), hfirst]
  dsimp only
  rw [if_pos (by rfl), haccept]
  refine congrArg (Prod.mk _) ?_
  generalize (scanItems (types.contains ·.type) pageSize (-1) s.items.reverse).rest.isEmpty = atEnd
  cases atEnd
  · rfl
  · rfl

theorem takeWhile_older (hasc : Ascending s.items) (hitems : s.items.reverse = newer ++ y :: older) :
    s.items.takeWhile (·.id ≠ y.id) = older.reverse ∧
      s.items.dropWhile (·.id ≠ y.id) = y :: newer.reverse := by
  have hitems : s.items = older.reverse ++ y :: newer.reverse := by
    rw [← List.reverse_reverse s.items, hitems]
    simp
  have hne : ∀ item ∈ older.reverse, decide (item.id ≠ y.id) = true := by
    intro item hitem
    rw [Ascending, hitems, ids_append] at hasc
    have hlt := (List.pairwise_append.mp hasc).2.2 item.id (List.mem_map_of_mem hitem) y.id
      List.mem_cons_self
    exact decide_eq_true (ne_of_lt hlt)
  rw [hitems, List.takeWhile_append_of_pos hne, List.dropWhile_append_of_pos hne,
    List.takeWhile_cons_of_neg (by simp), List.dropWhile_cons_of_neg (by simp)]
  exact ⟨List.append_nil _, rfl⟩

theorem getItems_from (types : List Bytes) (hasc : Ascending s.items) (hpos : 0 < pageSize)
    (hitems : s.items.reverse = newer ++ y :: older) (hy : y.id.empty = false) :
    s.getItems y.id types pageSize false =
      if older.isEmpty then ([], !s.state.firstEntry.empty)
      else ((scanItems (types.contains ·.type) pageSize (-1) older).page pageSize, false) := by
  obtain ⟨htake, hdrop⟩ := takeWhile_older hasc hitems
  have hsome : s.items ≠ [] := fun hnil => by
    rw [hnil] at hdrop
    cases hdrop
  have hpos : decide ((0 : Int) < pageSize) = true := decide_eq_true (Int.natCast_pos.mpr hpos)
  rw [getItems, if_neg (by rwa [List.isEmpty_iff])]
  dsimp only
  rw [if_neg (by rw [hy]; exact Bool.false_ne_true), htake, hdrop, hpos, Bool.true_and,
    List.isEmpty_reverse, List.reverse_reverse, Int.natAbs_natCast]
  dsimp only
  split
  · rfl
  · rw [if_pos (of_decide_eq_true hpos)]

/-- The oldest of all items has one of the types. -/
def OldestRequested (s : GalleryStorage) (types : List Bytes) : Prop :=
  ∃ oldest, s.items.head? = some oldest ∧ types.contains oldest.type = true

theorem OldestRequested.filter_ne_nil (h : OldestRequested s types)
    (hitems : s.items.reverse = newer ++ older) (hsome : older ≠ []) :
    older.filter (types.contains ·.type) ≠ [] := by
  obtain ⟨oldest, hhead, htype⟩ := h
  rw [← List.getLast?_reverse, hitems, List.getLast?_append_of_ne_nil _ hsome] at hhead
  exact List.ne_nil_of_mem (List.mem_filter.mpr ⟨List.mem_of_getLast? hhead, htype⟩)

theorem oldestRequested_of_last (hitems : s.items.reverse = newer ++ [y])
    (hy : types.contains y.type = true) : OldestRequested s types := by
  refine ⟨y, ?_, hy⟩
  rw [← List.getLast?_reverse, hitems, List.getLast?_concat]

/-- All later calls up to the last one. -/
theorem exists_calls {newer older : List GalleryItem} {y : GalleryItem}
    (hasc : Ascending s.items) (hfirst : s.state.firstEntry.empty = false)
    (hpos : 0 < pageSize) (holdest : OldestRequested s types)
    (hitems : s.items.reverse = newer ++ y :: older) (hy : y.id.empty = false)
    (hends : EndsNamed pageSize (older.filter (types.contains ·.type))) :
    ∃ pages, Calls s types pageSize y.id pages ∧ (∀ page ∈ pages, page.length ≤ pageSize) ∧
      pages.flatten = older.filter (types.contains ·.type) := by
  have hget := getItems_from types hasc hpos hitems hy
  have hnone : ∀ {newer z}, s.items.reverse = newer ++ [z] → z.id.empty = false →
      s.getItems z.id types pageSize false = ([], true) := by
    intro newer z hz hempty
    rw [getItems_from types hasc hpos hz hempty, hfirst]
    rfl
  by_cases hnil : older = []
  · rw [hnil] at hitems ⊢
    exact ⟨[[]], .last (hnone hitems hy), by simp, rfl⟩
  rw [if_neg (by rwa [List.isEmpty_iff])] at hget
  obtain ⟨hle, hpage, -⟩ | ⟨front, last, skipped, item, rest, holder, hlast, hskipped, hitem, hlen,
    hpage, -⟩ := page_split (types.contains ·.type) hpos older
  · rw [hpage] at hget
    have hitems' : s.items.reverse = (newer ++ [y]) ++ older := by rw [hitems]; simp
    obtain ⟨last, hlast⟩ := Option.isSome_iff_exists.mp
      (List.getLast?_isSome.mpr (holdest.filter_ne_nil hitems' hnil))
    obtain ⟨front, skipped, hsplit, -, hskipped⟩ := split_last hlast
    have hend : skipped = [] := by
      by_contra hne
      have hitems : s.items.reverse = (newer ++ y :: (front ++ [last])) ++ skipped := by
        rw [hitems, hsplit]
        simp
      exact holdest.filter_ne_nil hitems hne hskipped
    have hlastItems : s.items.reverse = (newer ++ y :: front) ++ [last] := by
      rw [hitems, hsplit, hend]
      simp
    refine ⟨[_, []], .next hget ?_, ?_, List.append_nil _⟩
    · rw [following_of_getLast hlast]
      exact .last (hnone hlastItems (hends.whole hlast))
    · rw [List.countP_eq_length_filter] at hle
      simpa using hle
  · rw [hpage] at hget
    rw [holder, filter_split (types.contains ·.type) hlast] at hends ⊢
    have hlastId := hends.first hlen List.getLast?_concat
    have hitems : s.items.reverse = (newer ++ y :: front) ++ last :: (skipped ++ item :: rest) := by
      rw [hitems, holder]
      simp
    obtain ⟨pages, hcalls, hsize, hflat⟩ := exists_calls hasc hfirst hpos holdest hitems hlastId
      (hends.behind hlen)
    refine ⟨_ :: pages, .next hget ?_, ?_, ?_⟩
    · rwa [following_of_getLast List.getLast?_concat]
    · exact List.forall_mem_cons.mpr ⟨Nat.le_of_eq hlen, hsize⟩
    · rw [List.flatten_cons, hflat]
  termination_by older.length
  decreasing_by
    rw [holder]
    simp only [List.length_append, List.length_cons]
    omega

/-- The calls come back to the first page, or find nothing more without coming to the oldest item. -/
def Endless (s : GalleryStorage) (types : List Bytes) (pageSize : Nat) (from_ : GalleryEntryId) :
    Prop :=
  from_ = {} ∨ ∃ newer y older, s.items.reverse = newer ++ y :: older ∧ from_ = y.id ∧
    types.contains y.type = true ∧
    (OldestRequested s types → ¬EndsNamed pageSize (older.filter (types.contains ·.type)))

section Endless

variable {front rest : List GalleryItem} {last : GalleryItem}

theorem Endless.of_split
    (hbad : OldestRequested s types → ¬EndsNamed pageSize (older.filter (types.contains ·.type)))
    (hitems : s.items.reverse = newer ++ older) (holder : older = front ++ last :: rest)
    (hlast : types.contains last.type = true)
    (hlen : (front.filter (types.contains ·.type) ++ [last]).length = pageSize)
    (hrest : rest.filter (types.contains ·.type) ≠ []) : Endless s types pageSize last.id := by
  by_cases hempty : last.id.empty = true
  · exact Or.inl (empty_iff.mp hempty)
  · refine Or.inr ⟨newer ++ front, last, rest, by rw [hitems, holder]; simp, rfl, hlast, ?_⟩
    intro holdest hends
    apply hbad holdest
    rw [holder, filter_split (types.contains ·.type) hlast]
    refine hends.append hrest hlen fun z hz => ?_
    rw [List.getLast?_concat, Option.some.injEq] at hz
    rw [← hz]
    exact Bool.eq_false_iff.mpr hempty

theorem filter_skipped_ne_nil {skipped : List GalleryItem}
    (hlast : types.contains last.type = true) :
    (skipped ++ last :: rest).filter (types.contains ·.type) ≠ [] :=
  List.ne_nil_of_mem (List.mem_filter.mpr ⟨List.mem_append_right _ List.mem_cons_self, hlast⟩)

/-- No call says that there are no more. -/
theorem Endless.step (hasc : Ascending s.items) (hfirst : s.state.firstEntry.empty = false)
    (hpos : 0 < pageSize) (hmany : pageSize < (s.requested types).length)
    (hmore : (s.getItems {} types pageSize false).2 = false)
    (hbad : OldestRequested s types → ¬EndsNamed pageSize (s.requested types))
    (h : Endless s types pageSize from_) :
    ∃ page, s.getItems from_ types pageSize false = (page, false) ∧
      Endless s types pageSize (following from_ page) := by
  have hsome : s.items ≠ [] := fun hnil => by
    rw [requested, hnil] at hmany
    exact Nat.not_lt_zero _ hmany
  by_cases hempty : from_.empty = true
  · rw [empty_iff.mp hempty]
    have hget := getItems_first types pageSize hfirst hsome
    obtain ⟨hle, -⟩ | ⟨front, last, skipped, item, rest, hitems, hlast, -, hitem, hlen, hpage, -⟩ :=
      page_split (types.contains ·.type) hpos s.items.reverse
    · rw [List.countP_eq_length_filter] at hle
      exact absurd hle (Nat.not_le.mpr hmany)
    · have hpage := (congrArg Prod.fst hget).trans hpage
      refine ⟨_, Prod.ext hpage hmore, ?_⟩
      rw [following_of_getLast List.getLast?_concat]
      exact Endless.of_split hbad (List.nil_append _).symm hitems hlast hlen
        (filter_skipped_ne_nil hitem)
  obtain hnil | ⟨newer, y, older, hitems, rfl, hy, hbad⟩ := h
  · exact absurd (empty_iff.mpr hnil) hempty
  have hget := getItems_from types hasc hpos hitems (Bool.eq_false_iff.mpr hempty)
  have holder : older ≠ [] := fun hnil => by
    rw [hnil] at hitems hbad
    exact hbad (oldestRequested_of_last hitems hy) (EndsNamed.nil pageSize)
  rw [if_neg (by rwa [List.isEmpty_iff])] at hget
  refine ⟨_, hget, ?_⟩
  obtain ⟨hle, hpage, -⟩ | ⟨front, last, skipped, item, rest, hsplit, hlast, -, hitem, hlen, hpage,
    -⟩ := page_split (types.contains ·.type) hpos older
  · rw [hpage]
    cases hlast : (older.filter (types.contains ·.type)).getLast? with
    | none =>
      rw [following, hlast]
      exact Or.inr ⟨newer, y, older, hitems, rfl, hy, hbad⟩
    | some last =>
      obtain ⟨front, skipped, hsplit, htype, hskipped⟩ := split_last hlast
      rw [following_of_getLast hlast]
      by_cases hid : last.id.empty = true
      · exact Or.inl (empty_iff.mp hid)
      · refine Or.inr ⟨newer ++ y :: front, last, skipped, by rw [hitems, hsplit]; simp, rfl, htype,
          fun holdest => absurd ?_ (hbad holdest)⟩
        refine EndsNamed.of_length_le (by rwa [← List.countP_eq_length_filter]) fun z hz => ?_
        rw [hlast, Option.some.injEq] at hz
        rw [← hz]
        exact Bool.eq_false_iff.mpr hid
  · rw [hpage, following_of_getLast List.getLast?_concat]
    have hitems : s.items.reverse = (newer ++ [y]) ++ older := by
      rw [hitems, List.append_assoc]
      rfl
    exact Endless.of_split hbad hitems hsplit hlast hlen (filter_skipped_ne_nil hitem)

theorem Calls.not_of_step {P : GalleryEntryId → Prop}
    (hstep : ∀ from_, P from_ → ∃ page, s.getItems from_ types pageSize false = (page, false) ∧
      P (following from_ page))
    (h : Calls s types pageSize from_ pages) : ¬P from_ := by
  induction h with
  | last hget =>
    intro hfrom
    obtain ⟨page, hmore, -⟩ := hstep _ hfrom
    rw [hget] at hmore
    cases hmore
  | next hget hlater ih =>
    intro hfrom
    obtain ⟨page, hmore, hfollowing⟩ := hstep _ hfrom
    rw [hget] at hmore
    cases hmore
    exact ih hfollowing

end Endless

/-- All items fit on the first page, or the oldest item is of the types and not the only one behind
the first page, and the last item of a page has an id. -/
theorem getItems_complete_iff (s : GalleryStorage) (types : List Bytes) (pageSize : Nat)
    (hasc : Ascending s.items) (hfirst : s.state.firstEntry.empty = false) (hpos : 0 < pageSize) :
    PagesComplete s types pageSize ↔ (s.requested types).length ≤ pageSize ∨
      (OldestRequested s types ∧ (s.requested types).length ≠ pageSize + 1 ∧
        EndsNamed pageSize (s.requested types)) := by
  by_cases hsome : s.items = []
  · have hget : s.getItems {} types pageSize false = ([], true) := by
      rw [getItems, if_pos (by rw [hsome]; rfl)]
    have hnone : s.requested types = [] := by
      rw [requested, hsome]
      rfl
    rw [hnone]
    exact iff_of_true ⟨[[]], .last hget, by simp, by rw [hnone]; rfl⟩ (Or.inl (Nat.zero_le _))
  have hget := getItems_first types pageSize hfirst hsome
  obtain ⟨hle, hpage, hrest⟩ | ⟨front, last, skipped, item, rest, hitems, hlast, hskipped, hitem,
    hlen, hpage, hrest⟩ := page_split (types.contains ·.type) hpos s.items.reverse
  · rw [List.countP_eq_length_filter] at hle
    dsimp only at hget
    rw [hpage, hrest] at hget
    exact iff_of_true ⟨[_], .last hget, by simpa using hle, List.append_nil _⟩ (Or.inl hle)
  dsimp only at hget
  rw [hpage, hrest] at hget
  have hrequested : s.requested types = (front.filter (types.contains ·.type) ++ [last]) ++
      item :: rest.filter (types.contains ·.type) := by
    rw [requested, hitems, filter_split (types.contains ·.type) hlast,
      filter_skipped (types.contains ·.type) hskipped hitem]
  have hmany : pageSize < (s.requested types).length := by
    rw [hrequested, List.length_append, hlen, List.length_cons]
    omega
  rw [or_iff_right (Nat.not_le.mpr hmany)]
  cases rest with
  | nil =>
    -- the item too many is the oldest
    constructor
    · rintro ⟨pages, hcalls, -, hflat⟩
      rw [hcalls.last_inv hget, hrequested] at hflat
      simp at hflat
    · rintro ⟨-, hne, -⟩
      rw [hrequested, List.length_append, hlen] at hne
      exact absurd rfl hne
  | cons older rest =>
    constructor
    · rintro ⟨pages, hcalls, -⟩
      by_contra hbad
      have hbad : OldestRequested s types → ¬EndsNamed pageSize (s.requested types) := by
        intro holdest hends
        refine hbad ⟨holdest, ?_, hends⟩
        have hitems : s.items.reverse = (front ++ last :: (skipped ++ [item])) ++ older :: rest := by
          rw [hitems]
          simp
        have := List.length_pos_of_ne_nil (holdest.filter_ne_nil hitems (List.cons_ne_nil _ _))
        rw [hrequested, List.length_append, hlen, List.length_cons]
        omega
      exact hcalls.not_of_step (fun _ =>
        Endless.step hasc hfirst hpos hmany (congrArg Prod.snd hget) hbad) (Or.inl rfl)
    · rintro ⟨holdest, -, hends⟩
      rw [hrequested] at hends
      have hbehind : (skipped ++ item :: older :: rest).filter (types.contains ·.type) =
          item :: (older :: rest).filter (types.contains ·.type) :=
        filter_skipped (types.contains ·.type) hskipped hitem _
      obtain ⟨pages, hcalls, hsize, hflat⟩ := exists_calls hasc hfirst hpos holdest hitems
        (hends.first hlen List.getLast?_concat) (hbehind ▸ hends.behind hlen)
      refine ⟨_ :: pages, .next hget ?_, List.forall_mem_cons.mpr ⟨Nat.le_of_eq hlen, hsize⟩, ?_⟩
      · rwa [following_of_getLast List.getLast?_concat]
      · rw [List.flatten_cons, hflat, hbehind, hrequested]

def imageGallery (n : Nat) : GalleryStorage where
  state := { firstEntry := ⟨1, 1⟩ }
  items := (List.range n).map fun i => { id := ⟨.ofNat (i + 1), 1⟩, type := [0x69] }

theorem getItems_three_images : PagesComplete (imageGallery 3) [[0x69]] 1 :=
  (getItems_complete_iff (imageGallery 3) [[0x69]] 1
    (show (ids (imageGallery 3).items).Pairwise (· < ·) by decide) rfl Nat.one_pos).mpr
    (Or.inr ⟨⟨_, rfl, rfl⟩, by decide, fun i item h _ => by
      have hid : ∀ item ∈ (imageGallery 3).requested [[0x69]], item.id.empty = false := by decide
      exact hid item (List.mem_of_getElem? h)⟩)

/-- The older of two images is lost when a page has one. -/
theorem second_image_lost : ¬PagesComplete (imageGallery 2) [[0x69]] 1 := by
  rintro ⟨pages, hcalls, -, hflat⟩
  have hget : (imageGallery 2).getItems {} [[0x69]] (1 : Nat) false =
      (((imageGallery 2).requested [[0x69]]).take 1, true) := by decide
  rw [hcalls.last_inv hget] at hflat
  exact absurd (congrArg List.length hflat) (by decide)

end Calls

end GalleryStorage

end Icq.Archive
