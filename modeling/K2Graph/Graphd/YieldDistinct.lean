import Mathlib.Data.Fintype.Pigeonhole
import K2Graph.Filter.Expression

/-!
# Distinct rows

`YIELD DISTINCT` keeps of every record that is emitted a combined hash, and leaves out a record
whose hash is there already.

## Main results

* `distinctRows_iff` — **the rows are the distinct records if and only if no two different records
  have one hash.**
* `not_distinctRows` — no hash function has that for all lists of records.
-/

namespace K2Graph.Graphd

open List Filter

/-- What the hash of a record is made with: `boost::hash<VariantType>` and `hash_combine`. -/
structure Hashing where
  hashValue : VariantType → UInt64
  hashCombine : UInt64 → UInt64 → UInt64

variable (H : Hashing)

/-- `boost::hash_range`. -/
def Hashing.hashRange (record : List VariantType) : UInt64 :=
  record.foldl (fun seed v => H.hashCombine seed (H.hashValue v)) 0

/-- The records with which `processFinalResult` calls `cb`, when `distinct_` is set. -/
def processFinalResult (uniqResult : List UInt64) :
    List (List VariantType) → List (List VariantType)
  | [] => []
  | record :: records =>
      if H.hashRange record ∈ uniqResult then processFinalResult uniqResult records
      else record :: processFinalResult (H.hashRange record :: uniqResult) records

/-- **The rows are the distinct records**: each once, and none is left out. -/
def DistinctRows (records : List (List VariantType)) : Prop :=
  (processFinalResult H [] records).Nodup ∧
    ∀ record, record ∈ processFinalResult H [] records ↔ record ∈ records

variable {H}

/-- What is emitted has new hashes, each once, and what is not has one that is there. -/
theorem processFinalResult_spec (uniqResult : List UInt64) (records : List (List VariantType)) :
    let rows := processFinalResult H uniqResult records
    rows.Sublist records ∧ (rows.map H.hashRange).Nodup ∧
      (∀ hash ∈ uniqResult, hash ∉ rows.map H.hashRange) ∧
      ∀ record ∈ records, H.hashRange record ∈ uniqResult ++ rows.map H.hashRange := by
  induction records generalizing uniqResult with
  | nil => simp [processFinalResult]
  | cons record records ih =>
    rw [processFinalResult]
    split_ifs with hseen
    · obtain ⟨hsub, hnodup, hnew, hall⟩ := ih uniqResult
      exact ⟨hsub.cons _, hnodup, hnew,
        forall_mem_cons.mpr ⟨mem_append_left _ hseen, hall⟩⟩
    obtain ⟨hsub, hnodup, hnew, hall⟩ := ih (H.hashRange record :: uniqResult)
    obtain ⟨hrecord, hnew⟩ := forall_mem_cons.mp hnew
    refine ⟨hsub.cons_cons _, nodup_cons.mpr ⟨hrecord, hnodup⟩, fun hash hmem => ?_, ?_⟩
    · rw [map_cons, mem_cons, not_or]
      exact ⟨fun heq => hseen (heq ▸ hmem), hnew hash hmem⟩
    · refine forall_mem_cons.mpr ⟨by simp, fun r hr => ?_⟩
      simpa [or_left_comm] using hall r hr

theorem DistinctRows.eq_of_hash (h : DistinctRows H records) (ha : a ∈ records) (hb : b ∈ records)
    (heq : H.hashRange a = H.hashRange b) : a = b :=
  inj_on_of_nodup_map (processFinalResult_spec [] records).2.1 ((h.2 a).mpr ha) ((h.2 b).mpr hb) heq

/-- **The rows are the distinct records if and only if no two different records have one hash.** -/
theorem distinctRows_iff (H : Hashing) (records : List (List VariantType)) :
    DistinctRows H records ↔
      ∀ a ∈ records, ∀ b ∈ records, H.hashRange a = H.hashRange b → a = b := by
  obtain ⟨hsub, hnodup, -, hall⟩ := processFinalResult_spec (H := H) [] records
  refine ⟨fun h a ha b hb => h.eq_of_hash ha hb, fun hinj => ⟨hnodup.of_map _, fun record => ?_⟩⟩
  refine ⟨fun h => hsub.subset h, fun h => ?_⟩
  obtain ⟨row, hrow, heq⟩ := mem_map.mp (hall record h)
  rwa [← hinj row (hsub.subset hrow) record h heq]

/-- **Some record is lost, whatever the hash function**: there are more records than hashes. -/
theorem not_distinctRows : ¬ ∃ H, ∀ records, DistinctRows H records := by
  rintro ⟨H, h⟩
  have : Finite UInt64 := .of_injective UInt64.toFin fun a b => UInt64.toFin_inj.mp
  have : Nonempty VariantType := ⟨.bool true⟩
  obtain ⟨a, b, hne, heq⟩ := Finite.exists_ne_map_eq_of_infinite H.hashRange
  exact hne ((h [a, b]).eq_of_hash (by simp) (by simp) heq)

end K2Graph.Graphd
