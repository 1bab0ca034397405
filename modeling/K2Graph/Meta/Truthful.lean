import K2Graph.Meta.Handler

/-!
# When the answer to a creation is true

An answer is true if it says `SUCCEEDED` only after all calls of K2 have succeeded, and if
with any other answer the maps are what they were.  The handlers change the maps first and
never change them back, so for a new name nothing but the success of all calls will do.  A
name that is there already has no new entry in the maps of spaces, and one under the id −1
in the map of tags.

`future_createEdge` always answers `SUCCEEDED`.

## Main results

* `truthful_iff` — **an answer is true if and only if the condition holds.**
* `not_truthful` — an edge type for which K2 made no schema is answered with `SUCCEEDED`.
-/

namespace K2Graph.Meta

open Request

open Storage (Outcome toInt32)

def Request.AllOk : Request → Prop
  | space o _ => o.collection = .ok ∧ o.tagName = .ok ∧ o.vertexTag = .ok ∧ o.vertexEdge = .ok
  | tag o _ => o.schema = .ok ∧ o.beginTxn = true ∧ o.write = .ok ∧ o.endTxn = .ok
  | edge o _ => o = .ok

/-- The response has the code `SUCCEEDED`. -/
def Reply.Succeeded : Reply → Prop
  | resp code _ => code = .succeeded
  | threw => False
  | crashed => False

/-- **The answer is true**: `SUCCEEDED` means that all calls succeeded, and with any other
answer the maps have no new entry. -/
def Request.Truthful (r : Request) (s : Server) : Prop :=
  ((r.handle s).2.Succeeded → r.AllOk) ∧ (¬(r.handle s).2.Succeeded → s.SameMaps (r.handle s).1)

/-- When an answer is true: all calls succeed, or the name is there already, and then

* of a space, that no endpoints are known, the collection's call throws, one of the schemas'
  calls fails, or no call succeeds;
* of a tag, that the transaction does not succeed and the same request was made before. -/
def Request.TruthfulWhen (s : Server) : Request → Prop
  | space o req =>
    (name2Eps req.spaceName ≠ [] ∧ (space o req).AllOk) ∨
    s.hasSpace req.spaceName ∧ (name2Eps req.spaceName = [] ∨ o.collection = .threw ∨
      (∃ p ∈ o.schemas, p.2 = .failed) ∨ o.collection = .failed ∧ ∀ p ∈ o.schemas, p.2 = .threw)
  | tag o req =>
    (tag o req).AllOk ∨
    s.hasSchema req.spaceId req.name ∧
      s.spaceTagMap.lookup (req.spaceId, -1) = some (req.item (-1)) ∧
      ¬(o.beginTxn = true ∧ o.write = .ok ∧ o.endTxn = .ok)
  | edge o _ => o = .ok

/-! ### Spaces -/

variable (o : SpaceOutcomes) (req : CreateSpaceReq) (s : Server)

/-- The answer of `future_createSpace` behind the collection. -/
theorem createSystem_succeeded (id : ℤ) (code : ErrorCode) (s : Server) :
    (createSystem o id code s).2.Succeeded ↔
      (∀ p ∈ o.schemas, p.2 ≠ .failed) ∧ ((∃ p ∈ o.schemas, p.2 = .ok) ∨ code = .succeeded) := by
  rw [createSystem]
  by_cases hfail : ∃ p ∈ o.schemas, p.2 = .failed
  · obtain ⟨k', h⟩ := createSchemas_failed id code s.k2 hfail
    obtain ⟨p, hp, hpf⟩ := hfail
    rw [h]
    exact ⟨fun h => (by cases h), fun h => absurd hpf (h.1 p hp)⟩
  have hf : ∀ p ∈ o.schemas, p.2 ≠ .failed := fun p hp hpf => hfail ⟨p, hp, hpf⟩
  obtain ⟨k', -, h⟩ := createSchemas_ok id code s.k2 hf
  rw [h]
  by_cases hex : ∃ p ∈ o.schemas, p.2 = .ok
  · rw [if_pos hex]
    exact ⟨fun _ => ⟨hf, .inl hex⟩, fun _ => rfl⟩
  · rw [if_neg hex]
    exact ⟨fun hc => ⟨hf, .inr hc⟩, fun hc => hc.2.resolve_left hex⟩

/-- The answer of `future_createSpace`: without endpoints or with an exception in place of
the collection there is none. -/
theorem createSpace_succeeded :
    (createSpace o req s).2.Succeeded ↔
      name2Eps req.spaceName ≠ [] ∧ o.collection ≠ .threw ∧ (∀ p ∈ o.schemas, p.2 ≠ .failed) ∧
        ((∃ p ∈ o.schemas, p.2 = .ok) ∨ o.collection = .ok ∨ s.hasSpace req.spaceName = false) := by
  rw [createSpace]
  split
  case h_1 hcol => simp [Reply.Succeeded, hcol]
  case h_2 heps _ => simp [Reply.Succeeded, heps]
  case h_3 heps hcol =>
    rw [createSystem_succeeded, heps, hcol]
    cases s.hasSpace req.spaceName <;> simp
  case h_4 heps hcol =>
    rw [createSystem_succeeded, heps, hcol]
    simp

theorem createSpace_sameMaps_iff :
    s.SameMaps (createSpace o req s).1 ↔ s.hasSpace req.spaceName = true := by
  obtain ⟨k, hmaps⟩ := createSpace_maps o req s
  rw [hmaps]
  constructor
  · intro h
    by_contra hnew
    have hid := h.spaces (toInt32 (s.spaceIdNameMap.keys.length + 1))
    rw [if_neg hnew, AList.lookup_insert] at hid
    exact hnew (Server.hasSpace_iff.mpr ⟨_, hid.symm⟩)
  · intro hrep
    simp only [hrep]
    exact ⟨fun _ => rfl, fun _ => rfl, fun _ => rfl, fun _ => rfl⟩

theorem truthful_space_iff :
    (space o req).Truthful s ↔ (space o req).TruthfulWhen s := by
  have hall : (∀ p ∈ o.schemas, p.2 = .ok) ↔
      o.tagName = .ok ∧ o.vertexTag = .ok ∧ o.vertexEdge = .ok := by
    simp [SpaceOutcomes.schemas]
  simp only [Truthful, TruthfulWhen, handle, AllOk]
  rw [createSpace_succeeded, createSpace_sameMaps_iff, ← hall]
  by_cases heps : name2Eps req.spaceName = []
  · simp [heps]
  by_cases hthrew : o.collection = .threw
  · simp [hthrew]
  by_cases hfail : ∃ p ∈ o.schemas, p.2 = .failed
  · -- a failure that ends the handler; then not all calls succeeded
    obtain ⟨p, hp, hpf⟩ := hfail
    have hnot : ¬∀ p ∈ o.schemas, p.2 ≠ .failed := fun h => h p hp hpf
    have hnall : ¬∀ p ∈ o.schemas, p.2 = .ok := fun h => by simp [h p hp] at hpf
    have hex : ∃ p ∈ o.schemas, p.2 = .failed := ⟨p, hp, hpf⟩
    simp only [hnot, hnall, hex, and_false, false_and, false_implies, not_false_eq_true,
      true_implies, true_and, false_or, true_or, or_true, and_true]
  have hnf : ∀ p ∈ o.schemas, p.2 ≠ .failed := fun p hp hpf => hfail ⟨p, hp, hpf⟩
  -- no failure: then the calls that do not succeed are those that throw
  have hcol : o.collection = .failed ↔ o.collection ≠ .ok := by
    cases h : o.collection <;> simp_all
  have hthrows : (∀ p ∈ o.schemas, p.2 = .threw) ↔ ¬∃ p ∈ o.schemas, p.2 = .ok := by
    rw [not_exists]
    refine forall_congr' fun p => ?_
    rw [not_and]
    refine forall_congr' fun hp => ?_
    have := hnf p hp
    cases h : p.2 <;> simp_all
  rw [hcol, hthrows]
  simp only [heps, hthrew, hfail, ne_eq, not_false_eq_true, true_and, false_or]
  constructor
  · rintro ⟨hok, hsame⟩
    by_cases hsucc : (∃ p ∈ o.schemas, p.2 = .ok) ∨ o.collection = .ok ∨ s.hasSpace req.spaceName =
      false
    · exact .inl (hok ⟨hnf, hsucc⟩)
    · refine .inr ⟨hsame fun h => hsucc h.2, fun h => hsucc (.inr (.inl h)),
      fun h => hsucc (.inl h)⟩
  rintro (hall | ⟨hrep, hcol, hnone⟩)
  · exact ⟨fun _ => hall, fun h => absurd ⟨hnf, .inr (.inl hall.1)⟩ h⟩
  refine ⟨?_, fun _ => hrep⟩
  rintro ⟨-, h | h | h⟩
  · exact absurd h hnone
  · exact absurd h hcol
  · rw [hrep] at h
    cases h

/-! ### Tags and edge types -/

theorem createTag_succeeded (o : TagOutcomes) (req : CreateSchemaReq) (s : Server) :
    (createTag o req s).2.Succeeded ↔ o.beginTxn = true ∧ o.write = .ok ∧ o.endTxn = .ok := by
  rw [createTag]
  cases hb : o.beginTxn with
  | false =>
    have hw : o.written = false := by simp [TagOutcomes.written, hb]
    simp only [hw]
    split <;> simp [Reply.Succeeded]
  | true =>
    have he : o.ended = o.endTxn := by simp [TagOutcomes.ended, hb]
    have hw : o.written = true ↔ o.write = .ok := by simp [TagOutcomes.written, hb]
    rw [he]
    cases hend : o.endTxn with
    | threw | failed => simp [Reply.Succeeded]
    | ok =>
      dsimp only
      split
      · rename_i h
        simp [Reply.Succeeded, hw.mp h]
      · rename_i h
        simp [Reply.Succeeded, mt hw.mpr h]

/-- A tag leaves the maps alone only if its name is there, with an entry for the id −1 that
is the same. -/
theorem createTag_sameMaps_iff (o : TagOutcomes) (req : CreateSchemaReq) (s : Server) :
    s.SameMaps (createTag o req s).1 ↔ s.hasSchema req.spaceId req.name = true ∧
      s.spaceTagMap.lookup (req.spaceId, -1) = some (req.item (-1)) := by
  obtain ⟨k, hmaps⟩ := createTag_maps o req s
  rw [hmaps]
  cases hrep : s.hasSchema req.spaceId req.name with
  | false =>
    simp only [Bool.false_eq_true, false_and, iff_false]
    intro h
    have hname := h.names (req.spaceId, req.name)
    simp only [Server.bindName, hrep] at hname
    simp [Server.hasSchema, ← hname] at hrep
  | true =>
    have hid : s.schemaId req.spaceId req.name = -1 := by simp [Server.schemaId, hrep]
    have hbind : s.bindName req.spaceId req.name = s := by simp [Server.bindName, hrep]
    rw [hid, hbind]
    simp only [true_and]
    constructor
    · intro h
      rw [← h.tags (req.spaceId, -1)]
      exact AList.lookup_insert _
    intro htag
    refine ⟨fun _ => rfl, fun _ => rfl, fun key => ?_, fun _ => rfl⟩
    by_cases hk : key = (req.spaceId, -1)
    · subst hk
      rw [AList.lookup_insert, htag]
    · exact AList.lookup_insert_ne hk

theorem truthful_tag_iff (o : TagOutcomes) (req : CreateSchemaReq) (s : Server) :
    (tag o req).Truthful s ↔ (tag o req).TruthfulWhen s := by
  simp only [Truthful, TruthfulWhen, handle, AllOk]
  rw [createTag_succeeded, createTag_sameMaps_iff]
  by_cases hsucc : o.beginTxn = true ∧ o.write = .ok ∧ o.endTxn = .ok
  · simp [hsucc]
  · simp only [hsucc, false_implies, true_and, not_false_eq_true, true_implies, and_false,
      false_or, and_true]

/-- **An answer is true if and only if the condition holds.** -/
theorem truthful_iff (r : Request) (s : Server) : r.Truthful s ↔ r.TruthfulWhen s := by
  cases r with
  | space o req => exact truthful_space_iff o req s
  | tag o req => exact truthful_tag_iff o req s
  | edge o req =>
    -- the answer is always `SUCCEEDED`
    exact ⟨fun h => h.1 rfl, fun h => ⟨fun _ => h, fun hn => absurd rfl hn⟩⟩

/-- K2 has no schema for the edge type, and the answer is `SUCCEEDED`. -/
theorem not_truthful :
    (createEdge .failed ⟨1, "follow", ⟨[], none, none⟩, false⟩ .empty).2 =
        .resp .succeeded (some 3) ∧
      (createEdge .failed ⟨1, "follow", ⟨[], none, none⟩, false⟩ .empty).1.k2.schemas = ∅ ∧
      ¬(edge .failed ⟨1, "follow", ⟨[], none, none⟩, false⟩).Truthful .empty := by
  refine ⟨by decide +kernel, rfl, fun h => ?_⟩
  cases h.1 rfl

end K2Graph.Meta
