import Icq.Archive.FormatsSorted

/-! What of a format is left when it is written as JSON and read again. -/

namespace Icq.Archive
open Icq.Lib Icq.Tools Icq.Common

namespace RangeFormat

variable {r : RangeFormat}

/-- The data of a link that has some come back, and no other. -/
def KeepsData (r : RangeFormat) : Prop := r.data = none ∨ r.type = .link ∧ r.data ≠ some []

/-- What is read of a range that was written. -/
def reread (r : RangeFormat) : RangeFormat :=
  { r with
    range := { r.range with startIndex := if 1 < r.range.startIndex then r.range.startIndex else 1 }
    data := if r.type = .link ∧ r.data ≠ some [] then r.data else none }

theorem findMember_startIndex (r : RangeFormat) : r.serializeJson.findMember "startIndex" =
    if 1 < r.range.startIndex then some (.ofInt32 r.range.startIndex) else none := by
  by_cases hs : 1 < r.range.startIndex
  · rw [serializeJson, JsonValue.findMember_append, JsonValue.findMember_append, if_pos hs, if_pos hs]
    rfl
  · rw [serializeJson, JsonValue.findMember_append, JsonValue.findMember_append, if_neg hs, if_neg hs]
    cases hdata : r.data with
    | none => rfl
    | some data =>
      by_cases hlink : r.type = .link
      · simp [JsonValue.findMember_cons, hlink]
      · by_cases hpre : r.type = .pre
        · simp [JsonValue.findMember_cons, hpre]
        · simp [JsonValue.findMember_cons, hlink, hpre]

/-- Of the data only a link's are found again. -/
theorem findMember_data (r : RangeFormat) {name : String} (hoffset : "offset" ≠ name)
    (hlength : "length" ≠ name) (hindex : "startIndex" ≠ name) (hlang : "lang" ≠ name) :
    r.serializeJson.findMember name =
      if r.type = .link ∧ "url" = name then r.data.map .string else none := by
  have hhead : (JsonValue.object [("offset", .ofInt32 r.range.offset),
      ("length", .ofInt32 r.range.size)]).findMember name = none := by
    rw [JsonValue.findMember_cons, if_neg hoffset, JsonValue.findMember_cons, if_neg hlength]
    rfl
  have hstart : (JsonValue.object (if 1 < r.range.startIndex then
      [("startIndex", .ofInt32 r.range.startIndex)] else [])).findMember name = none := by
    split
    · rw [JsonValue.findMember_cons, if_neg hindex]
      rfl
    · rfl
  rw [serializeJson, JsonValue.findMember_append, JsonValue.findMember_append, hhead, hstart]
  cases hdata : r.data with
  | none => simp
  | some data =>
    by_cases hlink : r.type = .link
    · simp [JsonValue.findMember_cons, hlink]
    · by_cases hpre : r.type = .pre
      · simp [JsonValue.findMember_cons, hpre, hlang]
      · simp [hlink, hpre]

theorem readData_serializeJson (r : RangeFormat) : readData r.type r.serializeJson =
    if r.type = .link ∧ r.data ≠ some [] then r.data else none := by
  have hurl := @findMember_data r "url" (by decide) (by decide) (by decide) (by decide)
  have hpre := @findMember_data r "pre" (by decide) (by decide) (by decide) (by decide)
  unfold readData
  by_cases hlink : r.type = .link
  · cases hdata : r.data with
    | none => simp [hlink, hurl, hdata]
    | some data => cases data <;> simp [hlink, hurl, hdata]
  · by_cases hp : r.type = .pre
    · simp [hp, hpre]
    · simp [hlink, hp]

theorem ofJson_serializeJson (r : RangeFormat) : ofJson r.type r.serializeJson = r.reread := by
  have hoffset : r.serializeJson.findMember "offset" = some (.ofInt32 r.range.offset) := rfl
  have hlength : r.serializeJson.findMember "length" = some (.ofInt32 r.range.size) := rfl
  rw [ofJson, hoffset, hlength, findMember_startIndex, readData_serializeJson, reread]
  by_cases hs : 1 < r.range.startIndex
  · simp [hs]
  · simp [hs]

/-- A range comes back as it was where its data do. -/
theorem place_reread : r.reread.place = r.place ↔ r.KeepsData := by
  rw [place_eq_iff]
  constructor
  · rintro ⟨-, -, -, hdata⟩
    rw [reread] at hdata
    dsimp only at hdata
    split at hdata
    · rename_i hlink
      exact .inr hlink
    · exact .inl hdata.symm
  · rintro (hnone | hlink)
    · exact ⟨rfl, rfl, rfl, by rw [reread]; dsimp only; rw [hnone]; exact ite_self _⟩
    · exact ⟨rfl, rfl, rfl, if_pos hlink⟩

end RangeFormat

namespace FormatData

variable {f g : FormatData}

theorem mem_types {r : RangeFormat} (h : r ∈ f) : r.type ∈ types f := by
  have hkept : ∀ (f : FormatData) (met : List FormatType), (∀ type ∈ met, type ∈ f.foldl
      (fun types f => if f.type ∈ types then types else types ++ [f.type]) met) ∧
      ∀ r ∈ f, r.type ∈ f.foldl
        (fun types f => if f.type ∈ types then types else types ++ [f.type]) met := by
    intro f
    induction f with
    | nil => exact fun met => ⟨fun _ h => h, fun _ h => absurd h List.not_mem_nil⟩
    | cons r f ih =>
      intro met
      obtain ⟨hmet, hf⟩ := ih (if r.type ∈ met then met else met ++ [r.type])
      refine ⟨fun type h => hmet type ?_, List.forall_mem_cons.mpr ⟨hmet r.type ?_, hf⟩⟩
      · split
        · exact h
        · exact List.mem_append_left _ h
      · split
        · assumption
        · exact List.mem_append_right _ (List.mem_singleton.mpr rfl)
  exact (hkept f []).2 r h

theorem nodup_types (f : FormatData) : (types f).Nodup := by
  refine List.foldlRecOn f _ List.nodup_nil ?_
  intro met hmet r _
  split
  · exact hmet
  · rename_i hnew
    exact hmet.append (List.nodup_singleton _) (List.disjoint_singleton.mpr hnew)

theorem map_type_eq (h : f.map RangeFormat.place = g.map RangeFormat.place) :
    f.map Common.RangeFormat.type = g.map Common.RangeFormat.type := by
  induction f generalizing g with
  | nil => rw [List.map_eq_nil_iff.mp h.symm]
  | cons r f ih =>
    cases g with
    | nil => cases h
    | cons r' g =>
      obtain ⟨hr, hf⟩ := List.cons_eq_cons.mp h
      rw [List.map_cons, ih hf, (RangeFormat.place_eq_iff.mp hr).2.2.1, List.map_cons]

/-- The ranges as the JSON text has them, type by type. -/
def grouped (ks : List FormatType) (f : FormatData) : FormatData :=
  ks.flatMap fun type => f.filter fun r => decide (r.type = type)

theorem readArrays_groups (f : FormatData) (ks : List FormatType) :
    readArrays (ks.map fun type =>
      (type.toString, .array ((f.filter (·.type = type)).map RangeFormat.serializeJson))) =
      .ok ((grouped ks f).map RangeFormat.reread) := by
  induction ks with
  | nil => rfl
  | cons type ks ih =>
    rw [List.map_cons, readArrays, ih]
    show Outcome.ok _ = _
    conv_rhs => rw [grouped, List.flatMap_cons, List.map_append]
    rw [FormatType.readFormatTypeFromString_toString, List.map_map]
    congr 2
    refine List.map_congr_left fun r hr => ?_
    have htype := of_decide_eq_true (List.mem_filter.mp hr).2
    exact htype ▸ r.ofJson_serializeJson

/-- A format comes back from JSON exactly when its ranges stand type by type as the hash map hands
out the types, and no data but a link's are to be kept. -/
theorem ofJson_serializeJson_iff (order : List FormatType → List FormatType)
    (horder : ∀ types, (order types).Perm types) (f : FormatData) :
    (∃ g, ofJson (serializeJson order f) = .ok g ∧ g.same f = true) ↔
      KeysInOrder (order f.types) (f.map Common.RangeFormat.type) ∧ ∀ r ∈ f, r.KeepsData := by
  have hread : ofJson (serializeJson order f) =
      .ok ((grouped (order f.types) f).map RangeFormat.reread) := readArrays_groups f _
  have hnodup : (order f.types).Nodup := (horder _).nodup_iff.mpr (nodup_types f)
  have hmem : ∀ r ∈ f, r.type ∈ order f.types := fun r hr =>
    (horder _).mem_iff.mpr (mem_types hr)
  have hsame : (∃ g, ofJson (serializeJson order f) = .ok g ∧ g.same f = true) ↔
      ((grouped (order f.types) f).map RangeFormat.reread).map RangeFormat.place =
        f.map RangeFormat.place := by
    rw [hread, ← same_iff]
    exact ⟨fun ⟨_, hg, hs⟩ => Outcome.ok.inj hg ▸ hs, fun hs => ⟨_, rfl, hs⟩⟩
  rw [hsame]
  constructor
  · intro h
    have hinOrder : KeysInOrder (order f.types) (f.map Common.RangeFormat.type) := by
      have htypes := map_type_eq h
      rw [List.map_map] at htypes
      rw [← htypes]
      exact keysInOrder_flatMap hnodup f
    rw [grouped, flatMap_filter_eq hnodup hmem hinOrder, List.map_map] at h
    exact ⟨hinOrder, fun r hr => RangeFormat.place_reread.mp (List.map_inj_left.mp h r hr)⟩
  · rintro ⟨hinOrder, hkeeps⟩
    rw [grouped, flatMap_filter_eq hnodup hmem hinOrder, List.map_map]
    exact List.map_congr_left fun r hr => RangeFormat.place_reread.mpr (hkeeps r hr)

/-- A link and a quote around it. -/
def linkInQuote : FormatData :=
  [{ type := .link, range := { size := 1 }, data := some [97] },
    { type := .quote, range := { size := 2 } }]

theorem ofJson_serializeJson_linkInQuote :
    ∃ g, ofJson (serializeJson id linkInQuote) = .ok g ∧ g.same linkInQuote = true :=
  (ofJson_serializeJson_iff id (fun types => List.Perm.refl types) linkInQuote).mpr
    ⟨by unfold KeysInOrder; decide, by unfold RangeFormat.KeepsData; decide⟩

/-- The language of a block of code is written under one name and read under another. -/
theorem lang_not_read : 
    ofJson (serializeJson id [{ type := .pre, range := { size := 1 }, data := some [99] }]) =
      .ok [{ type := .pre, range := { size := 1 } }] ∧
    same [{ type := .pre, range := { size := 1 } }]
      [{ type := .pre, range := { size := 1 }, data := some [99] }] = false :=
  ⟨by rfl, by decide⟩

end FormatData

end Icq.Archive
