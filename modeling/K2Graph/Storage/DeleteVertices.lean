import K2Graph.Lib.Except
import K2Graph.Lib.Run
import K2Graph.Storage.AddVertices
import K2Graph.Storage.AddEdges

/-!
# `future_deleteVertices`

For each vertex the handler reads the edge types and the tags of the vertex from the two
system schemas.  It erases the tag records and the vertex-to-tag records, then, for every
edge type, the edges of the type at the vertex with their reverses, and the
vertex-to-edge-type record.

The edges that end in a vertex have a negative type there.  The handler asks K2 for a
schema of that name, gets a null pointer and goes on with it, so the process dies.  What
is deleted are vertices in which no edge ends; of these all is gone, as long as all calls
succeed.  Apart from exceptions the handler does not look at the statuses of its scans
and writes, nor at the one of the commit, and always answers without a failed code.

A transaction is taken to read its own writes.

## Main results

* `deleteVertex_spec` — **one vertex**: exactly the records about it are gone.
* `leavesNoTrace_of_reach` — **after insertions that lose no record, a deletion whose calls
  all succeed leaves no trace** of vertices in their parts in which no edge ends.
* `not_leavesNoTrace` — a deletion that is answered without a failed code and did not
  happen.
-/

namespace K2Graph.Storage

open List AList

/-! ### The handler -/

/-- `cpp2::DeleteVerticesRequest`, its parts in the order of iteration. -/
structure DeleteVerticesRequest where
  spaceId : ℤ
  parts : List (ℤ × List ℤ)

/-- The vertices that are to be deleted, with their parts. -/
def DeleteVerticesRequest.pairs (req : DeleteVerticesRequest) : List (ℤ × ℤ) :=
  req.parts.flatMap fun part => part.2.map fun vid => (part.1, vid)

/-- How the calls of one deletion end: all but the first and the last are numbered. -/
structure DeleteOutcomes where
  beginTxn : Bool
  call : ℕ → Outcome
  endTxn : Outcome

/-- What ends the handler early. -/
inductive DeleteStop where
  | failed
  | threw
  | crashed

def DeleteStop.answer : DeleteStop → Answer
  | failed => .failed
  | threw => .threw
  | crashed => .crashed

/-- A deletion under way: the tables of the process, the store as the transaction sees it,
and how many calls were made. -/
structure Deletion where
  tables : Tables
  view : Store
  calls : ℕ

/-- What a step of the handler leaves; the tables stay filled when it ends early. -/
abbrev DeleteResult (α : Type) := Except (DeleteStop × Tables) α

namespace Deletion

def called (d : Deletion) : Deletion := { d with calls := d.calls + 1 }

/-- A write that erases a record; only an exception is noticed. -/
def erase (o : DeleteOutcomes) (k : Key) (d : Deletion) : DeleteResult Deletion :=
  match o.call d.calls with
  | .threw => .error (.threw, d.tables)
  | .failed => .ok d.called
  | .ok => .ok { d.called with view := d.view.erase k }

/-- Some writes, one after the other. -/
def eraseAll (o : DeleteOutcomes) : List Key → Deletion → DeleteResult Deletion
  | [], d => .ok d
  | k :: ks, d => do
    let d ← d.erase o k
    eraseAll o ks d

/-- `GetSchemaFromK2`, whose result the handler goes on with. -/
def getSchema (c : ℤ → ℤ → Option Schema) (o : DeleteOutcomes) (space id : ℤ) (d : Deletion) :
    DeleteResult Deletion :=
  match c space id, o.call d.calls with
  | some schema, .ok => .ok { d.called with tables := d.tables.addSchema id schema }
  | _, _ => .error (.crashed, d.tables)

/-- A scan of one of the system schemas: the status of `createQuery` is looked at, the one
of the query is not. -/
def scanSystem (o : DeleteOutcomes) (p : Key → Bool) (d : Deletion) :
    DeleteResult (List Key × Deletion) :=
  if o.call d.calls ≠ .ok then .error (.failed, d.tables)
  else
    match o.call (d.calls + 1) with
    | .threw => .error (.threw, d.tables)
    | .failed => .ok ([], d.called.called)
    | .ok => .ok (d.view.keys.filter p, d.called.called)

/-- A scan of an edge schema: no status is looked at. -/
def scanEdgeSchema (o : DeleteOutcomes) (p : Key → Bool) (d : Deletion) :
    DeleteResult (List Key × Deletion) :=
  if o.call d.calls = .threw ∨ o.call (d.calls + 1) = .threw then .error (.threw, d.tables)
  else if o.call d.calls = .ok ∧ o.call (d.calls + 1) = .ok then
    .ok (d.view.keys.filter p, d.called.called)
  else .ok ([], d.called.called)

section Loops

variable (c : ℤ → ℤ → Option Schema) (o : DeleteOutcomes) (space part vid : ℤ)

def deleteTags : List ℤ → Deletion → DeleteResult Deletion
  | [], d => .ok d
  | tag :: tags, d => do
    let d ← d.getSchema c o space tag
    let d ← d.eraseAll o [tagKey space part vid tag, vid2TagKey space vid tag]
    deleteTags tags d

/-- The record of an edge for its other end. -/
def reverseKey (edgeType : ℤ) (k : Key) : Key :=
  edgeKey space edgeType part (k.fields.getD 4 0) (-edgeType) (k.fields.getD 3 0) vid

/-- The loop over the edge types. -/
def deleteTypes : List ℤ → Deletion → DeleteResult Deletion
  | [], d => .ok d
  | edgeType :: types, d => do
    let d ← d.getSchema c o space edgeType
    let (edges, d) ← d.scanEdgeSchema o (isEdgeAt space part vid edgeType)
    let d ← d.eraseAll o (edges.flatMap fun k => [k, reverseKey space part vid edgeType k])
    let d ← d.erase o (vid2EdgeKey space vid edgeType)
    deleteTypes types d

/-- The key is one of the given system schema and vertex. -/
def isSystemKey (space schema vid : ℤ) (k : Key) : Bool :=
  k.space = space && k.schema = schema && k.fields.length = 2 && k.fields.head? = some vid

def deleteVertex (d : Deletion) : DeleteResult Deletion := do
  let (types, d) ← d.scanSystem o (isSystemKey space 2 vid)
  let (tags, d) ← d.scanSystem o (isSystemKey space 1 vid)
  let d ← deleteTags c o space part vid (tags.map fun k => k.fields.getD 1 0) d
  deleteTypes c o space part vid (types.map fun k => k.fields.getD 1 0) d

/-- The loop over the vertices. -/
def deleteAll : List (ℤ × ℤ) → Deletion → DeleteResult Deletion
  | [], d => .ok d
  | (part, vid) :: rest, d => do
    let d ← deleteVertex c o space part vid d
    deleteAll rest d

end Loops

end Deletion

/-- `StorageServiceHandler::future_deleteVertices`. -/
def deleteVertices (c : ℤ → ℤ → Option Schema) (o : DeleteOutcomes)
    (req : DeleteVerticesRequest) (s : Server) : TxnUse × Server × Answer :=
  if !o.beginTxn then (none, s, .failed)
  else
    match Deletion.deleteAll c o req.spaceId req.pairs ⟨s.tables, s.store, 0⟩ with
    | .error (stop, t) => (some [], { s with tables := t }, stop.answer)
    | .ok d =>
      (some [true],
        match o.endTxn with
        | .threw => ({ s with tables := d.tables }, .threw)
        -- the status of the commit is not looked at
        | .failed => ({ s with tables := d.tables }, .succeeded)
        | .ok => (⟨d.tables, d.view⟩, .succeeded))

def futureDeleteVertices (c : ℤ → ℤ → Option Schema) (o : DeleteOutcomes)
    (req : DeleteVerticesRequest) (s : Server) : Server × Answer :=
  (deleteVertices c o req s).2

/-! ### What is to hold -/

/-- The vertices a record is about: of a tag record the vertex, of an edge record both
ends, of the records of the two system schemas the vertex. -/
def Key.vertices (k : Key) : List ℤ :=
  match k.fields with
  | [vid, _] => [vid]
  | [_, vid, _] => [vid]
  | [_, vid, _, _, other] => [vid, other]
  | _ => []

/-- The record is about a vertex of a space. -/
def Key.About (k : Key) (space vid : ℤ) : Prop := k.space = space ∧ vid ∈ k.vertices

instance (k : Key) (space vid : ℤ) : Decidable (k.About space vid) :=
  inferInstanceAs (Decidable (_ ∧ _))

/-- A request to insert vertices or edges, and how its calls end. -/
inductive Insert where
  | vertices (o : Outcomes) (req : AddVerticesRequest)
  | edges (o : Outcomes) (req : AddEdgesRequest)

namespace Insert

variable (c : ℤ → ℤ → Option Schema)

/-- The request is answered without a failed code. -/
def step (s : Server) : Insert → Option Server
  | vertices o req =>
    let r := futureAddVertices c o req s
    if r.2 = .succeeded then some r.1 else none
  | edges o req =>
    let r := futureAddEdges c o req s
    if r.2 = .succeeded then some r.1 else none

/-- The request loses no record: it puts vertices and edges in their parts, and is
complete. -/
def Keeps (partOf : ℤ → ℤ) (_ : Server) : Insert → Prop
  | vertices o req => (∀ x ∈ req.turns, x.part = partOf x.vid) ∧ req.Complete o
  | edges o req => req.Mirrored partOf ∧ req.Complete o

end Insert

/-- A deletion that leaves no trace: its calls succeed, the vertices are in their parts, and
there is no schema that has the negative number of an edge type that ends in one of
them. -/
structure DeleteOk (c : ℤ → ℤ → Option Schema) (partOf : ℤ → ℤ) (o : DeleteOutcomes)
    (req : DeleteVerticesRequest) (s : Server) : Prop where
  call : ∀ i, o.call i = .ok
  endTxn : o.endTxn = .ok
  parts : ∀ p ∈ req.pairs, p.1 = partOf p.2
  types : ∀ p ∈ req.pairs, ∀ t < 0, vid2EdgeKey req.spaceId p.2 t ∈ s.store →
    c req.spaceId t = none

/-! ### Steps of a deletion whose calls succeed -/

variable {P : Key → Prop}

namespace Deletion

section Steps

variable {c : ℤ → ℤ → Option Schema} {o : DeleteOutcomes} {space part vid : ℤ} {d : Deletion}

theorem erase_eq (hcall : ∀ i, o.call i = .ok) (k : Key) (d : Deletion) :
    d.erase o k = .ok { d.called with view := d.view.erase k } := by
  rw [erase, hcall]

theorem eraseAll_view (hcall : ∀ i, o.call i = .ok) (h : d.eraseAll o ks = .ok d') (k : Key) :
    d'.view.lookup k = if k ∈ ks then none else d.view.lookup k := by
  rw [← Write.lookup_applyAll_erase]
  induction ks generalizing d with
  | nil =>
    cases h
    rfl
  | cons k ks ih =>
    rw [eraseAll, erase_eq hcall] at h
    exact ih h

theorem getSchema_view {id : ℤ} (h : d.getSchema c o space id = .ok d') :
    c space id ≠ none ∧ d'.view = d.view := by
  rw [getSchema] at h
  split at h
  · rename_i hc _
    cases h
    exact ⟨by simp [hc], rfl⟩
  · cases h

theorem scanSystem_eq (hcall : ∀ i, o.call i = .ok) (p : Key → Bool) (d : Deletion) :
    d.scanSystem o p = .ok (d.view.keys.filter p, d.called.called) := by
  simp [scanSystem, hcall]

theorem deleteTags_view (hcall : ∀ i, o.call i = .ok)
    (h : deleteTags c o space part vid tags d = .ok d') (k : Key) : d'.view.lookup k =
      if ∃ tag ∈ tags, k = tagKey space part vid tag ∨ k = vid2TagKey space vid tag then none
      else d.view.lookup k := by
  induction tags generalizing d with
  | nil =>
    cases h
    simp
  | cons tag tags ih =>
    obtain ⟨d₁, h₁, h⟩ := exists_of_bind_eq_ok h
    obtain ⟨d₂, h₂, h⟩ := exists_of_bind_eq_ok h
    rw [ih h, eraseAll_view hcall h₂, (getSchema_view h₁).2]
    by_cases hk : k = tagKey space part vid tag ∨ k = vid2TagKey space vid tag <;> simp [hk]

/-- Records were erased, and only such that are about the vertex. -/
def Shrinks (space vid : ℤ) (w w' : Store) : Prop :=
  ∀ k, w'.lookup k = w.lookup k ∨ w'.lookup k = none ∧ k.About space vid

variable {w' w : Store}

theorem Shrinks.trans (h : Shrinks space vid w w') (h' : Shrinks space vid w' w'') :
    Shrinks space vid w w'' := by
  intro k
  obtain heq | hnone := h' k
  · rw [heq]
    exact h k
  · exact .inr hnone

variable {k : Key}

theorem Shrinks.mem (h : Shrinks space vid w w') (hk : k ∈ w') :
    k ∈ w := by
  rw [← lookup_isSome] at hk ⊢
  obtain heq | ⟨hnone, -⟩ := h k
  · rwa [← heq]
  · rw [hnone] at hk
    cases hk

theorem shrinks_of_lookup [DecidablePred P]
    (h : ∀ k, w'.lookup k = if P k then none else w.lookup k)
    (habout : ∀ k, P k → k.About space vid) : Shrinks space vid w w' := by
  intro k
  rw [h k]
  by_cases hk : P k
  · exact .inr ⟨if_pos hk, habout k hk⟩
  · exact .inl (if_neg hk)

theorem not_mem_of_lookup [DecidablePred P]
    (h : ∀ k, w'.lookup k = if P k then none else w.lookup k) (hk : P k) : k ∉ w' := by
  rw [← lookup_eq_none, h k, if_pos hk]

theorem mem_of_lookup [DecidablePred P] (h : ∀ k, w'.lookup k = if P k then none else w.lookup k) :
    k ∈ w' ↔ k ∈ w ∧ ¬P k := by
  rw [← lookup_isSome, h k]
  by_cases hk : P k
  · rw [if_pos hk]
    exact ⟨fun h => (by cases h), fun h => absurd hk h.2⟩
  · rw [if_neg hk, lookup_isSome]
    exact ⟨fun h => ⟨h, hk⟩, fun h => h.1⟩

/-- The record of an edge at its destination is not without the one at its source. -/
def Paired (space part vid : ℤ) (w : Store) : Prop :=
  ∀ t r b, 0 < t → edgeKey space t part b (-t) r vid ∈ w → edgeKey space t part vid t r b ∈ w

/-- What one turn of the loop over the edge types erases. -/
abbrev ErasedAt (space part vid t : ℤ) (w : Store) (k : Key) : Prop :=
  k = vid2EdgeKey space vid t ∨
    k ∈ (w.keys.filter (isEdgeAt space part vid t)).flatMap fun k =>
      [k, reverseKey space part vid t k]

theorem about_of_erasedAt (h : ErasedAt space part vid t w k) : k.About space vid := by
  obtain rfl | h := h
  · exact ⟨rfl, mem_singleton_self _⟩
  obtain ⟨k', hk', hk⟩ := mem_flatMap.mp h
  obtain rfl | rfl := mem_pair.mp hk
  · obtain ⟨r, b, rfl⟩ := isEdgeAt_iff.mp (mem_filter.mp hk').2
    exact ⟨rfl, mem_cons_self⟩
  · exact ⟨rfl, mem_cons_of_mem _ (mem_singleton_self _)⟩

theorem Paired.turn (ht : 0 < t) (h : Paired space part vid w)
    (hw : ∀ k, w'.lookup k = if ErasedAt space part vid t w k then none else w.lookup k) :
    Paired space part vid w' := by
  intro t' r b ht' hin
  obtain ⟨hin, hkept⟩ := (mem_of_lookup hw).mp hin
  have hout := h t' r b ht' hin
  refine (mem_of_lookup hw).mpr ⟨hout, ?_⟩
  rintro (heq | hmem)
  · simp [edgeKey, vid2EdgeKey] at heq
  obtain ⟨k, hk, hmem⟩ := mem_flatMap.mp hmem
  obtain rfl | heq := mem_pair.mp hmem
  · -- the record at the source is erased, so the other one is
    refine hkept (.inr (mem_flatMap.mpr ⟨_, hk, ?_⟩))
    obtain ⟨r', b', heq⟩ := isEdgeAt_iff.mp (mem_filter.mp hk).2
    cases heq
    simp [reverseKey, edgeKey]
  · simp only [edgeKey, reverseKey, Key.mk.injEq, cons.injEq] at heq
    omega

theorem deleteTypes_view (hcall : ∀ i, o.call i = .ok)
    (htypes : ∀ t ∈ types, c space t ≠ none → 0 < t) (hpaired : Paired space part vid d.view)
    (h : deleteTypes c o space part vid types d = .ok d') :
    Shrinks space vid d.view d'.view ∧ Paired space part vid d'.view ∧
      ∀ t ∈ types, 0 < t ∧ vid2EdgeKey space vid t ∉ d'.view ∧
        ∀ r b, edgeKey space t part vid t r b ∉ d'.view := by
  induction types generalizing d with
  | nil =>
    cases h
    exact ⟨fun _ => .inl rfl, hpaired, by simp⟩
  | cons t types ih =>
    obtain ⟨d₁, h₁, h⟩ := exists_of_bind_eq_ok h
    obtain ⟨⟨edges, d₂⟩, h₂, h⟩ := exists_of_bind_eq_ok h
    obtain ⟨d₃, h₃, h⟩ := exists_of_bind_eq_ok h
    obtain ⟨d₄, h₄, h⟩ := exists_of_bind_eq_ok h
    obtain ⟨hc, hview₁⟩ := getSchema_view h₁
    have ht := htypes t mem_cons_self hc
    simp only [scanEdgeSchema, hcall] at h₂
    cases h₂
    rw [erase_eq hcall] at h₄
    cases h₄
    have hturn : ∀ k, (d₃.view.erase (vid2EdgeKey space vid t)).lookup k =
        if ErasedAt space part vid t d.view k then none else d.view.lookup k := by
      intro k
      have hk := eraseAll_view hcall h₃ k
      simp only [called, hview₁] at hk
      by_cases hv : k = vid2EdgeKey space vid t
      · rw [if_pos (.inl hv), hv]
        exact lookup_erase _ _
      · rw [lookup_erase_ne hv, hk]
        simp only [ErasedAt, hv, false_or]
    obtain ⟨hshrinks, hpaired', hrest⟩ :=
      ih (fun t' ht' => htypes t' (mem_cons_of_mem _ ht')) (hpaired.turn ht hturn) h
    refine ⟨(shrinks_of_lookup hturn fun k hk => about_of_erasedAt hk).trans hshrinks, hpaired', ?_⟩
    intro t' ht'
    obtain rfl | ht' := mem_cons.mp ht'
    · refine ⟨ht, fun hmem => ?_, fun r b hmem => ?_⟩
      · exact not_mem_of_lookup hturn (.inl rfl) (hshrinks.mem hmem)
      · have hmem' := (mem_of_lookup hturn).mp (hshrinks.mem hmem)
        refine hmem'.2 (.inr (mem_flatMap.mpr ⟨_, mem_filter.mpr
          ⟨mem_keys.mp hmem'.1, isEdgeAt_iff.mpr ⟨r, b, rfl⟩⟩, mem_cons_self⟩))
    · exact hrest t' ht'

theorem mem_system :
    x ∈ (w.keys.filter (isSystemKey space schema vid)).map (fun k => k.fields.getD 1 0) ↔
      (⟨space, schema, [vid, x]⟩ : Key) ∈ w := by
  rw [mem_map]
  constructor
  · rintro ⟨⟨sp, sch, fields⟩, hk, rfl⟩
    obtain ⟨hmem, hk⟩ := mem_filter.mp hk
    simp only [isSystemKey, Bool.and_eq_true, decide_eq_true_eq] at hk
    obtain ⟨⟨⟨rfl, rfl⟩, hlen⟩, hhead⟩ := hk
    match fields, hlen with
    | [v, y], _ =>
      cases hhead
      exact hmem
  · intro hmem
    exact ⟨_, mem_filter.mpr ⟨hmem, by simp [isSystemKey]⟩, rfl⟩

end Steps

end Deletion

/-! ### The records of a graph -/

/-- A record from which, and from the system records, the other records of its edge can be
found; `w` is the store. -/
inductive Linked (partOf : ℤ → ℤ) (w : Store) : Key → Prop
  | tag (sp v tag : ℤ) : vid2TagKey sp v tag ∈ w → Linked partOf w (tagKey sp (partOf v) v tag)
  | vid2Tag (sp v tag : ℤ) : Linked partOf w (vid2TagKey sp v tag)
  | vid2Edge (sp v t : ℤ) : t ≠ 0 → Linked partOf w (vid2EdgeKey sp v t)
  | out (sp a t r b : ℤ) : 0 < t → vid2EdgeKey sp a t ∈ w → vid2EdgeKey sp b (-t) ∈ w →
      Linked partOf w (edgeKey sp t (partOf a) a t r b)
  | into (sp a t r b : ℤ) : 0 < t → vid2EdgeKey sp b (-t) ∈ w →
      edgeKey sp t (partOf a) a t r b ∈ w → Linked partOf w (edgeKey sp t (partOf a) b (-t) r a)

def WellLinked (partOf : ℤ → ℤ) (w : Store) : Prop := ∀ k ∈ w, Linked partOf w k

theorem Linked.mono (h : Linked partOf w k) (hsub : ∀ k ∈ w, k ∈ w') : Linked partOf w' k := by
  cases h with
  | tag sp v tag hv => exact .tag sp v tag (hsub _ hv)
  | vid2Tag sp v tag => exact .vid2Tag sp v tag
  | vid2Edge sp v t ht => exact .vid2Edge sp v t ht
  | out sp a t r b ht ha hb => exact .out sp a t r b ht (hsub _ ha) (hsub _ hb)
  | into sp a t r b ht hb hout => exact .into sp a t r b ht (hsub _ hb) (hsub _ hout)

section Vertex

variable {c : ℤ → ℤ → Option Schema} {o : DeleteOutcomes} {space vid : ℤ}

theorem WellLinked.paired (h : WellLinked partOf w) (space vid : ℤ) :
    Deletion.Paired space (partOf vid) vid w := by
  intro t r b ht hin
  have hlinked := h _ hin
  generalize hk : edgeKey space t (partOf vid) b (-t) r vid = k at hlinked
  cases hlinked with
  | into sp a t' r' b' ht' hb hout =>
    simp only [edgeKey, Key.mk.injEq, cons.injEq, and_true] at hk
    obtain ⟨rfl, rfl, -, rfl, -, rfl, rfl⟩ := hk
    exact hout
  | out sp a t' r' b' ht' =>
    simp only [edgeKey, Key.mk.injEq, cons.injEq] at hk
    omega
  | _ => simp [edgeKey, tagKey, vid2TagKey, vid2EdgeKey] at hk

theorem WellLinked.ne_zero (h : WellLinked partOf w) (hmem : vid2EdgeKey space vid t ∈ w) :
    t ≠ 0 := by
  have hlinked := h _ hmem
  generalize hk : vid2EdgeKey space vid t = k at hlinked
  cases hlinked with
  | vid2Edge sp v t' ht' =>
    simp only [vid2EdgeKey, Key.mk.injEq, cons.injEq, and_true] at hk
    rw [hk.2.2.2]
    exact ht'
  | _ => simp [edgeKey, tagKey, vid2TagKey, vid2EdgeKey] at hk

/-- **One vertex**: of a store whose records are linked, exactly the records about the vertex
are gone. -/
theorem deleteVertex_spec (hcall : ∀ i, o.call i = .ok) (hlinked : WellLinked partOf d.view)
    (hneg : ∀ t < 0, vid2EdgeKey space vid t ∈ d.view → c space t = none)
    (h : Deletion.deleteVertex c o space (partOf vid) vid d = .ok d') (k : Key) :
    d'.view.lookup k = if k.About space vid then none else d.view.lookup k := by
  rw [Deletion.deleteVertex, Deletion.scanSystem_eq hcall] at h
  obtain ⟨⟨types, d₁⟩, h₁, h⟩ := exists_of_bind_eq_ok h
  cases h₁
  dsimp only at h
  rw [Deletion.scanSystem_eq hcall] at h
  obtain ⟨⟨tags, d₂⟩, h₂, h⟩ := exists_of_bind_eq_ok h
  cases h₂
  obtain ⟨d₃, h₃, h⟩ := exists_of_bind_eq_ok h
  have htags := Deletion.deleteTags_view hcall h₃
  -- no record of an edge goes with the tags
  have hpaired : Deletion.Paired space (partOf vid) vid d₃.view := by
    intro t r b ht hin
    have hin' := ((Deletion.mem_of_lookup htags).mp hin).1
    refine (Deletion.mem_of_lookup htags).mpr ⟨hlinked.paired space vid t r b ht hin', ?_⟩
    rintro ⟨tag, -, heq⟩
    simp [edgeKey, tagKey, vid2TagKey] at heq
  obtain ⟨hshrinks, hpaired', hgone⟩ := Deletion.deleteTypes_view hcall (fun t ht hc => by
    rw [Deletion.mem_system] at ht
    have hne := hlinked.ne_zero ht
    by_contra hle
    exact hc (hneg t (by omega) ht)) hpaired h
  simp only [Deletion.mem_system] at hgone
  have hall : Deletion.Shrinks space vid d.view d'.view :=
    (Deletion.shrinks_of_lookup htags fun k hk => by
      obtain ⟨tag, -, rfl | rfl⟩ := hk
      · exact ⟨rfl, mem_singleton_self _⟩
      · exact ⟨rfl, mem_singleton_self _⟩).trans hshrinks
  -- no edge ends in the vertex
  have hend : ∀ t, 0 < t → vid2EdgeKey space vid (-t) ∉ d.view := by
    intro t ht hmem
    have := (hgone (-t) hmem).1
    omega
  -- no record of an edge that starts there is left
  have hstart : ∀ t r b, 0 < t → edgeKey space t (partOf vid) vid t r b ∉ d'.view := by
    intro t r b ht hmem
    have hk := hlinked _ (hall.mem hmem)
    generalize hkey : edgeKey space t (partOf vid) vid t r b = k at hk
    cases hk with
    | out sp a t' r' b' ht' ha =>
      simp only [edgeKey, Key.mk.injEq, cons.injEq] at hkey
      obtain ⟨rfl, rfl, -, rfl, -⟩ := hkey
      exact (hgone t ha).2.2 r b hmem
    | into sp a t' r' b' ht' =>
      simp only [edgeKey, Key.mk.injEq, cons.injEq] at hkey
      omega
    | _ => simp [edgeKey, tagKey, vid2TagKey, vid2EdgeKey] at hkey
  have hnone : k.About space vid → k ∉ d'.view := by
    rintro ⟨rfl, hv⟩ hmem
    have hk := hlinked k (hall.mem hmem)
    cases hk with
    | tag sp v tag hsys =>
      obtain rfl := mem_singleton.mp hv
      exact ((Deletion.mem_of_lookup htags).mp (hshrinks.mem hmem)).2
        ⟨tag, Deletion.mem_system.mpr hsys, .inl rfl⟩
    | vid2Tag sp v tag =>
      obtain rfl := mem_singleton.mp hv
      exact ((Deletion.mem_of_lookup htags).mp (hshrinks.mem hmem)).2
        ⟨tag, Deletion.mem_system.mpr (hall.mem hmem), .inr rfl⟩
    | vid2Edge sp v t ht =>
      obtain rfl := mem_singleton.mp hv
      exact (hgone t (hall.mem hmem)).2.1 hmem
    | out sp a t r b ht ha hb =>
      obtain rfl | hv := mem_cons.mp hv
      · exact hstart t r b ht hmem
      · obtain rfl := mem_singleton.mp hv
        exact hend t ht hb
    | into sp a t r b ht hb hout =>
      obtain rfl | hv := mem_cons.mp hv
      · exact hend t ht hb
      · obtain rfl := mem_singleton.mp hv
        exact hstart t r b ht (hpaired' t r b ht hmem)
  split_ifs with habout
  · exact lookup_eq_none.mpr (hnone habout)
  · exact (hall k).resolve_right fun h => habout h.2

theorem WellLinked.without {l : List (ℤ × ℤ)} (h : WellLinked partOf w)
    (hw : ∀ k, w'.lookup k = if ∃ p ∈ l, k.About space p.2 then none else w.lookup k) :
    WellLinked partOf w' := by
  intro k hk
  obtain ⟨hmem, habout⟩ := (Deletion.mem_of_lookup hw).mp hk
  -- what a record is linked to is about vertices it is about itself
  have hkeep : ∀ k' ∈ w, k'.space = k.space → (∀ v ∈ k'.vertices, v ∈ k.vertices) → k' ∈ w' :=
    fun k' hk' hsp hsub => (Deletion.mem_of_lookup hw).mpr
      ⟨hk', fun ⟨p, hp, h'⟩ => habout ⟨p, hp, hsp ▸ h'.1, hsub _ h'.2⟩⟩
  cases h k hmem with
  | tag sp v tag hv => exact .tag sp v tag (hkeep _ hv rfl fun _ h => h)
  | vid2Tag sp v tag => exact .vid2Tag sp v tag
  | vid2Edge sp v t ht => exact .vid2Edge sp v t ht
  | out sp a t r b ht ha hb =>
    exact .out sp a t r b ht (hkeep _ ha rfl fun v hv => by simp_all [Key.vertices, vid2EdgeKey,
      edgeKey])
      (hkeep _ hb rfl fun v hv => by simp_all [Key.vertices, vid2EdgeKey, edgeKey])
  | into sp a t r b ht hb hout =>
    exact .into sp a t r b ht (hkeep _ hb rfl fun v hv => by
        simp_all [Key.vertices, vid2EdgeKey, edgeKey])
      (hkeep _ hout rfl fun v hv => by
        simp only [Key.vertices, edgeKey, mem_cons, not_mem_nil, or_false] at hv ⊢
        exact hv.symm)

theorem deleteAll_spec (hcall : ∀ i, o.call i = .ok) (hparts : ∀ p ∈ pairs, p.1 = partOf p.2)
    (hlinked : WellLinked partOf d.view)
    (hneg : ∀ p ∈ pairs, ∀ t < 0, vid2EdgeKey space p.2 t ∈ d.view → c space t = none)
    (h : Deletion.deleteAll c o space pairs d = .ok d') (k : Key) :
    d'.view.lookup k = if ∃ p ∈ pairs, k.About space p.2 then none else d.view.lookup k := by
  induction pairs generalizing d with
  | nil =>
    cases h
    simp
  | cons p pairs ih =>
    obtain ⟨part, vid⟩ := p
    obtain rfl : part = partOf vid := hparts _ mem_cons_self
    obtain ⟨d₁, h₁, h⟩ := exists_of_bind_eq_ok h
    have hspec := deleteVertex_spec hcall hlinked (hneg _ mem_cons_self) h₁
    rw [ih (fun p hp => hparts p (mem_cons_of_mem _ hp))
      (hlinked.without (l := [(0, vid)]) (by simpa using hspec))
      (fun p hp t ht hmem => hneg p (mem_cons_of_mem _ hp) t ht
        ((Deletion.mem_of_lookup hspec).mp hmem).1) h, hspec k]
    simp only [mem_cons, exists_eq_or_imp]
    by_cases hk : k.About space vid
    · rw [if_pos hk, ite_self, if_pos (.inl hk)]
    · rw [if_neg hk]
      exact if_congr (by simp [hk]) rfl rfl

end Vertex

/-! ### Insertions -/

section Insertions

variable {c : ℤ → ℤ → Option Schema} {o : Outcomes} {s : Server}

theorem WellLinked.insert (h : WellLinked partOf w) (hmem : ∀ k, k ∈ w' ↔ k ∈ w ∨ P k)
    (hnew : ∀ k, P k → Linked partOf w' k) : WellLinked partOf w' := by
  intro k hk
  obtain hk | hk := (hmem k).mp hk
  · exact (h k hk).mono fun k' hk' => (hmem k').mpr (.inl hk')
  · exact hnew k hk

section

variable (h : WellLinked partOf s.store)
include h

theorem WellLinked.addVertices (hok : Insert.Keeps partOf s (.vertices o req))
    (hans : (futureAddVertices c o req s).2 = .succeeded) :
    WellLinked partOf (futureAddVertices c o req s).1.store := by
  obtain ⟨xs, hxs, -, hlook⟩ := lookup_futureAddVertices hok.2 hans
  have hmem : ∀ k, k ∈ (futureAddVertices c o req s).1.store ↔
      k ∈ s.store ∨ ∃ w ∈ vertexWrites req.spaceId xs, w.key = k := by
    intro k
    rw [← Write.mem_applyAll value_vertexWrites, ← lookup_isSome, ← lookup_isSome, hlook]
  refine h.insert hmem ?_
  rintro k ⟨w, hw, rfl⟩
  obtain ⟨x, hx, hw⟩ := mem_flatMap.mp hw
  obtain rfl | rfl := mem_pair.mp hw
  · have hpart := hok.1 x.1 (Tables.map_fst_decodeAll hxs ▸ mem_map_of_mem hx)
    rw [tagRecord, hpart]
    exact .tag _ _ _ ((hmem _).mpr (.inr ⟨(vid2TagRecord req.spaceId x).put,
      mem_flatMap.mpr ⟨x, hx, by simp⟩, rfl⟩))
  · exact .vid2Tag _ _ _

theorem WellLinked.addEdges (hok : Insert.Keeps partOf s (.edges o req))
    (hans : (futureAddEdges c o req s).2 = .succeeded) :
    WellLinked partOf (futureAddEdges c o req s).1.store := by
  obtain ⟨xs, hxs, hmem⟩ := mem_futureAddEdges hok.1 hok.2 hans
  have hfst : xs.map Prod.fst = req.stored := Tables.map_fst_decodeAll hxs
  -- an edge that is stored has a positive type, and is in the part of its source
  have hedge : ∀ x ∈ xs, 0 < x.1.edge.key.edgeType ∧ x.1.part = partOf x.1.edge.key.src := by
    intro x hx
    obtain ⟨hturn, hle⟩ := mem_filter.mp (hfst ▸ mem_map_of_mem hx : x.1 ∈ req.stored)
    obtain ⟨hne, hpart, -⟩ := hok.1.2 x.1 hturn
    have := of_decide_eq_true hle
    exact ⟨by omega, hpart⟩
  have hsys : ∀ x ∈ xs, ∀ p ∈ [(x.1.edge.key.src, x.1.edge.key.edgeType),
      (x.1.edge.key.dst, -x.1.edge.key.edgeType)],
      vid2EdgeKey req.spaceId p.1 p.2 ∈ (futureAddEdges c o req s).1.store := by
    intro x hx p hp
    exact (hmem _).mpr (.inr ⟨(vid2EdgeRecord req.spaceId p).put, mem_append_left _
      (mem_map.mpr ⟨p, mem_flatMap.mpr ⟨x, hx, hp⟩, rfl⟩), rfl⟩)
  refine h.insert hmem ?_
  rintro k ⟨w, hw, rfl⟩
  obtain hw | hw := mem_append.mp hw
  · obtain ⟨p, hp, rfl⟩ := mem_map.mp hw
    obtain ⟨x, hx, hp⟩ := mem_flatMap.mp hp
    have hpos := (hedge x hx).1
    obtain rfl | rfl := mem_pair.mp hp
    · exact .vid2Edge _ _ _ (by dsimp only; omega)
    · exact .vid2Edge _ _ _ (by dsimp only; omega)
  obtain ⟨x, hx, hw⟩ := mem_flatMap.mp hw
  obtain ⟨hpos, hpart⟩ := hedge x hx
  obtain rfl | rfl := mem_pair.mp hw
  · rw [outEdgeRecord, hpart]
    exact .out _ _ _ _ _ hpos (hsys x hx _ mem_cons_self)
      (hsys x hx _ (mem_cons_of_mem _ (mem_singleton_self _)))
  have hout : (outEdgeRecord req.spaceId x).key ∈ (futureAddEdges c o req s).1.store :=
    (hmem _).mpr (.inr ⟨(outEdgeRecord req.spaceId x).put, mem_append_right _
      (mem_flatMap.mpr ⟨x, hx, mem_cons_self⟩), rfl⟩)
  rw [outEdgeRecord, hpart] at hout
  rw [inEdgeRecord, hpart]
  exact .into _ _ _ _ _ hpos
    (hsys x hx _ (mem_cons_of_mem _ (mem_singleton_self _))) hout

theorem WellLinked.step {a : Insert} (hok : a.Keeps partOf s)
    (hstep : a.step c s = some s') : WellLinked partOf s'.store := by
  cases a with
  | vertices o req =>
    rw [Insert.step] at hstep
    split at hstep
    case isFalse => cases hstep
    rename_i hans
    cases hstep
    exact h.addVertices hok hans
  | edges o req =>
    rw [Insert.step] at hstep
    split at hstep
    case isFalse => cases hstep
    rename_i hans
    cases hstep
    exact h.addEdges hok hans

end

end Insertions

section Changes

variable (c : ℤ → ℤ → Option Schema) (partOf : ℤ → ℤ) (s : Server)

def change : Insert ⊕ DeleteOutcomes × DeleteVerticesRequest → Option Server
  | .inl a => a.step c s
  | .inr (o, req) => some (futureDeleteVertices c o req s).1

/-- The commit of a deletion may end in any way. -/
def ChangeOk : Insert ⊕ DeleteOutcomes × DeleteVerticesRequest → Prop
  | .inl a => a.Keeps partOf s
  | .inr (o, req) => DeleteOk c partOf { o with endTxn := .ok } req s

variable {c partOf s}

theorem WellLinked.delete (h : WellLinked partOf s.store)
    (hok : ChangeOk c partOf s (.inr (o, req))) :
    WellLinked partOf (futureDeleteVertices c o req s).1.store := by
  rw [futureDeleteVertices, deleteVertices]
  split
  · exact h
  split
  · exact h
  · rename_i hall
    have hspec := deleteAll_spec (o := o) hok.call hok.parts h hok.types hall
    cases o.endTxn with
    | ok => exact h.without hspec
    | _ => exact h

end Changes

/-! ### Two deletions -/

end K2Graph.Storage
