import K2Graph.Lib.Run
import K2Graph.Storaged.Newest

/-!
# Index consistency

The requests that write to a partition are carried out one after another, each with the
time that the clock shows.  With `enable_multi_versions` the version in a key is the
largest number less the time, most significant byte first, so that later rows come first;
without it the version is zero, and a row is written over.

Every request that succeeds gives the items that it touches new newest rows, or removes
them, and changes the index keys with them.  So after any run the index keys of the
partition are those of the newest rows.

## Main results

* `exists_effect_process` — what a request does.
* `indexConsistent_of_reach` — the index after any run.
-/

namespace K2Graph.Storaged

open List LittleEndian Kvstore

/-! ### Versions -/

/-- `folly::Endian::big` on a machine that stores the least significant byte first. -/
def endianBig (x : Int64) : Int64 := .ofInt (toInt (ofInt 8 x.toInt).reverse)

theorem ofInt_endianBig (x : Int64) : ofInt 8 (endianBig x).toInt = (ofInt 8 x.toInt).reverse := by
  have hlen : (ofInt 8 x.toInt).reverse.length = 8 := by rw [length_reverse, length_ofInt]
  have hfits := fits_toInt (ofInt 8 x.toInt).reverse
  rw [hlen] at hfits
  have hint : (endianBig x).toInt = toInt (ofInt 8 x.toInt).reverse := by
    rw [Fits] at hfits
    rw [endianBig, Int64.toInt_ofInt_of_le (by omega) (by omega)]
  refine toInt_inj (by rw [length_ofInt, hlen]) ?_
  rw [hint, toInt_ofInt hfits]

variable (S : Space)

/-- The version of a row that is written at a time. -/
def Space.version (now : Int64) : Int64 :=
  if S.multiVersions then endianBig (Int64.maxValue - now) else 0

theorem Space.version_le (hclock : 0 ≤ clock) (h : clock ≤ now) :
    ofInt 8 (S.version now).toInt ≤ ofInt 8 (S.version clock).toInt := by
  rw [version, version]
  split_ifs
  · have hbytes (t : Int64) (ht : 0 ≤ t) :
        ofInt 8 (endianBig (Int64.maxValue - t)).toInt =
          bigEndian 8 (2 ^ 63 - 1 - t.toInt).toNat := by
      rw [Int64.le_iff_toInt_le] at ht
      have hzero : (0 : Int64).toInt = 0 := rfl
      have hmax : Int64.maxValue.toInt = 2 ^ 63 - 1 := rfl
      have hlt := t.toInt_lt
      have hsub : (Int64.maxValue - t).toInt = 2 ^ 63 - 1 - t.toInt := by
        rw [Int64.toInt_sub, hmax, Int.bmod_eq_of_le (by omega) (by omega)]
      rw [ofInt_endianBig, hsub, ofInt, bigEndian, Int.emod_eq_of_lt (by omega) (by omega)]
    have hnow : 0 ≤ now := Int64.le_trans hclock h
    rw [hbytes now hnow, hbytes clock hclock]
    rw [Int64.le_iff_toInt_le] at h hclock
    have hzero : (0 : Int64).toInt = 0 := rfl
    exact bigEndian_le_bigEndian (by omega) (by omega)
  · exact List.le_refl _

/-! ### Requests -/

/-- The tag ids that a key holds. -/
abbrev TagId := { tagId : Int32 // tagId &&& tagMaskSet = tagId }

/-- An edge of a type that a key holds. -/
abbrev TypedEdge := { edge : EdgeKey // typeOfWord (edge.edgeType ||| edgeMaskSet) = edge.edgeType }

/-- A request to the partition.  With what is deleted comes the number of logs that are
committed before it is looked for. -/
inductive Request
  | addVertices (failed : List (Bytes × ℕ)) (vertices : List NewVertex)
  | addEdges (failed : List (Bytes × ℕ)) (edges : List NewEdge)
  | updateVertex (vId : Int64) (tagId : TagId) (req : UpdateRequest)
  | updateEdge (edge : TypedEdge) (req : UpdateRequest)
  | deleteVertices (timed : List (ℕ × Int64))
  | deleteEdges (timed : List (ℕ × TypedEdge))

/-- No scan for the old row of a row that is added fails. -/
def Request.scanned : Request → Bool
  | .addVertices failed _ | .addEdges failed _ => failed.isEmpty
  | _ => true

/-- Deleting, in the plain way if there are no indexes. -/
def processDelete {α : Type} (found : α → Engine → List Bytes)
    (delete : List α → Engine → Except Stop (List WriteOp)) (indexes : List IndexItem)
    (timed : List (ℕ × α)) (e : Engine) : Report × Engine :=
  if indexes = [] then (.succeeded, removeEach found timed [] e)
  else atomicOp ((delete (timed.map Prod.snd) e).map .batch) e

def Space.process (now : Int64) : Request → Engine → Report × Engine
  | .addVertices failed vertices, e =>
      addVertices S.schemas S.indexes.tags S.part failed (S.version now) vertices e
  | .addEdges failed edges, e =>
      addEdges S.schemas S.indexes.edges S.part failed (S.version now) edges e
  | .updateVertex vId tagId req, e =>
      updateVertex S.schemas S.indexes.tags S.part vId tagId.1 (S.version now) req e
  | .updateEdge edge req, e =>
      updateEdge S.schemas S.indexes.edges S.part edge.1 (S.version now) req e
  | .deleteVertices timed, e =>
      processDelete (foundVertexKeys S.part) (deleteVertices S.schemas S.indexes.tags S.part)
        S.indexes.tags timed e
  | .deleteEdges timed, e =>
      processDelete (foundEdgeKeys S.part) (deleteEdges S.schemas S.indexes.edges S.part)
        S.indexes.edges (timed.map fun x => (x.1, x.2.1)) e

/-- A partition and the time of the last request. -/
structure PartState where
  engine : Engine
  clock : Int64

def PartState.empty : PartState := ⟨∅, 0⟩

/-- A request that succeeds, at a time that is not before that of the last one. -/
def Space.step (s : PartState) (a : Int64 × Request) : Option PartState :=
  if s.clock ≤ a.1 then
    match S.process a.1 a.2 s.engine with
    | (.succeeded, e) => some ⟨e, a.1⟩
    | _ => none
  else none

/-! ### What a run keeps -/

def keyVersion (key : Bytes) : Bytes := key.drop (key.length - 8)

theorem keyWithNoVersion_append_keyVersion (key : Bytes) :
    keyWithNoVersion key ++ keyVersion key = key := take_append_drop _ key

theorem Versioned.keyVersion (h : Versioned part version key) :
    keyVersion key = ofInt 8 version.toInt := by
  have hdrop (p : Bytes) :
      (p ++ ofInt 8 version.toInt).drop ((p ++ ofInt 8 version.toInt).length - 8) =
        ofInt 8 version.toInt := by
    rw [length_append, length_ofInt, Nat.add_sub_cancel, drop_left]
  rcases h with ⟨vId, tagId, rfl⟩ | ⟨edge, rfl⟩
  · exact hdrop (tagPrefix part vId tagId)
  · exact hdrop (edgePrefix part edge)

/-- The invariant of a run: the data keys are of vertices and edges, with versions that are
not later than the clock, and the index is right. -/
structure Invariant (S : Space) (s : PartState) : Prop where
  clock : 0 ≤ s.clock
  wellKeyed : WellKeyed S.part s.engine
  versions : ∀ key ∈ s.engine, keyItem S.part .data <+: key →
    ofInt 8 (S.version s.clock).toInt ≤ keyVersion key
  consistent : IndexConsistent S s.engine

theorem invariant_empty : Invariant S .empty where
  clock := by decide
  wellKeyed key hkey := absurd hkey (AList.notMem_empty key)
  versions key hkey := absurd hkey (AList.notMem_empty key)
  consistent := by
    intro k _
    refine iff_of_false (AList.notMem_empty k) ?_
    rintro ⟨row, hnew, -⟩
    exact AList.notMem_empty row.1 (mem_of_mem_dataRows hnew.mem_dataRows)

variable {indexes : List IndexItem}

section Steps

variable {S : Space} {s : PartState} {kind : Kind}

theorem Effect.invariant (h : Effect S (S.version now) s.engine e' touched) (hinv : Invariant S s)
    (hnow : s.clock ≤ now) : Invariant S ⟨e', now⟩ where
  clock := Int64.le_trans hinv.clock hnow
  wellKeyed := h.wellKeyed hinv.wellKeyed
  versions := by
    intro key hkey hdata
    rcases h.keys key hkey hdata with hold | hnew
    · exact List.le_trans (S.version_le hinv.clock hnow) (hinv.versions key hold hdata)
    · rw [hnew.keyVersion]
      exact List.le_refl _
  consistent := h.consistent hinv.wellKeyed hinv.consistent

theorem effect_refl (S : Space) (version : Int64) (e : Engine) :
    Effect S version e e fun _ => False where
  keys key hkey _ := .inl hkey
  data key _ _ := rfl
  index k hk := by simp

variable {read : Bytes → Read RowReader} {key old : Bytes} {k : Bytes} (vId : Int64)
  (edge : TypedEdge)

theorem Invariant.le_of_versioned (hinv : Invariant S s) (hnow : s.clock ≤ now)
    (hkey : Versioned S.part (S.version now) key) (hmem : key' ∈ s.engine)
    (hdata : keyItem S.part .data <+: key') (hitem : keyWithNoVersion key' = keyWithNoVersion key) :
    key ≤ key' := by
  rw [← keyWithNoVersion_append_keyVersion key, ← keyWithNoVersion_append_keyVersion key', hitem,
    append_le_append_iff, hkey.keyVersion]
  exact List.le_trans (S.version_le hinv.clock hnow) (hinv.versions key' hmem hdata)

theorem not_hasKey_nil : ¬ (S.table kind).HasKey indexes key [] k := by
  cases kind with
  | tag =>
    show ¬ HasIndexKey _ (S.schemas.getTagPropReader _ []) _ _ _
    rw [S.emptyTag]
    exact not_hasIndexKey_null
  | edge =>
    show ¬ HasIndexKey _ (S.schemas.getEdgePropReader _ []) _ _ _
    rw [S.emptyEdge]
    exact not_hasIndexKey_null

/-- The index keys of the newest row of an item; the value is empty if there is none. -/
theorem WellKeyed.obsolete_iff (hkeys : WellKeyed S.part e) (hkey : GraphKey S.part kind key) :
    (((e.scan (keyWithNoVersion key)).head?.map Prod.snd).getD [] ≠ [] ∧
      (S.table kind).HasKey (S.items kind) key
        (((e.scan (keyWithNoVersion key)).head?.map Prod.snd).getD []) k) ↔
      ∃ old, IsNewest (S.dataRows e) old ∧ keyWithNoVersion old.1 = keyWithNoVersion key ∧
        (S.table kind).HasKey (S.items kind) old.1 old.2 k := by
  have hcongr {old : Bytes × Bytes} (hnew : IsNewest (S.dataRows e) old)
      (hitem : keyWithNoVersion old.1 = keyWithNoVersion key) :
      (S.table kind).HasKey (S.items kind) key old.2 k ↔
        (S.table kind).HasKey (S.items kind) old.1 old.2 k := by
    obtain ⟨kind', hgraph⟩ := hkeys.of_mem_dataRows hnew.mem_dataRows
    obtain rfl := hgraph.kind_eq hkey hitem
    exact hkey.hasKey_congr hgraph hitem.symm
  cases hhead : (e.scan (keyWithNoVersion key)).head? with
  | none =>
    refine iff_of_false (fun h => h.1 rfl) ?_
    rintro ⟨old, hnew, hitem, -⟩
    cases hhead.symm.trans ((hkeys.head?_scan hkey).mpr ⟨hnew, hitem⟩)
  | some old =>
    obtain ⟨hnew, hitem⟩ := (hkeys.head?_scan hkey).mp hhead
    rw [Option.map_some, Option.getD_some]
    constructor
    · rintro ⟨-, hhas⟩
      exact ⟨old, hnew, hitem, (hcongr hnew hitem).mp hhas⟩
    rintro ⟨old', hnew', hitem', hhas⟩
    obtain rfl := hnew'.eq hnew (hitem'.trans hitem.symm)
    refine ⟨fun hempty => ?_, (hcongr hnew hitem).mpr hhas⟩
    rw [hempty] at hhas
    exact not_hasKey_nil hhas

/-! ### Adding -/

theorem notUndone_keys (oi ni : List Bytes) :
    (oi.map WriteOp.remove ++ ni.map fun key => WriteOp.put key []).Pairwise NotUndone := by
  rw [pairwise_append]
  refine ⟨?_, ?_, ?_⟩
  · refine pairwise_map.mpr (pairwise_of_forall fun _ _ k v h => ?_)
    cases h
  · exact pairwise_map.mpr (pairwise_of_forall fun _ _ k v _ => nofun)
  · intro a ha b hb k v hput
    obtain ⟨_, -, rfl⟩ := mem_map.mp ha
    cases hput

theorem pairwise_items (S : Space) (kind : Kind) :
    (S.items kind).Pairwise fun index index' => index.indexId ≠ index'.indexId := by
  have hids := S.indexes.ids
  rw [map_append, nodup_append] at hids
  cases kind with
  | tag => exact pairwise_map.mp hids.1
  | edge => exact pairwise_map.mp hids.2.1

/-- What is put to one index and what is removed from another one have different ids. -/
theorem notUndone_of_ne (hindex : index ∈ S.items kind) (hindex' : index' ∈ S.items kind)
    (hne : index.indexId ≠ index'.indexId)
    (hops : Describes ops removed fun k v => v = [] ∧ (S.table kind).HasKey [index] key val k)
    (hops' : Describes ops' (fun k => old ≠ [] ∧ (S.table kind).HasKey [index'] key old k) put) :
    ∀ a ∈ ops, ∀ b ∈ ops', NotUndone a b := by
  rintro a ha b hb k v rfl rfl
  obtain ⟨-, hput⟩ := (hops.put_mem k v).mp ha
  obtain ⟨-, hremove⟩ := (hops'.remove_mem k).mp hb
  obtain ⟨i, hi, -, hstart, -⟩ := indexPrefix_of_hasKey hput
  obtain ⟨i', hi', -, hstart', -⟩ := indexPrefix_of_hasKey hremove
  obtain rfl := mem_singleton.mp hi
  obtain rfl := mem_singleton.mp hi'
  obtain ⟨-, rfl⟩ := index_eq_of_indexPrefix hindex hindex' hstart hstart'
  exact hne rfl

/-- Nothing is undone within the writes for a row. -/
theorem notUndone_indexed (hsub : indexes.Sublist (S.items kind))
    {f : IndexItem → Except Stop (List WriteOp)}
    (hf : ∀ index ops, f index = .ok ops → ops.Pairwise NotUndone ∧
      Describes ops (fun k => old ≠ [] ∧ (S.table kind).HasKey [index] key old k) fun k v => v =
        [] ∧ (S.table kind).HasKey [index] key val k)
    (h : indexes.mapM f = .ok opss) :
    (opss.flatten ++ [WriteOp.put key val]).Pairwise NotUndone := by
  refine pairwise_append.mpr ⟨?_, pairwise_singleton _ _, ?_⟩
  · refine pairwise_flatten_of_mapM h (fun index _ ops hops => (hf index ops hops).1) ?_
    refine List.Pairwise.imp_of_mem (fun {index index'} hindex hindex' hne => ?_)
      ((pairwise_items S kind).sublist hsub)
    intro ops ops' hops hops'
    exact notUndone_of_ne (hsub.subset hindex) (hsub.subset hindex') hne (hf index ops hops).2
      (hf index' ops' hops').2
  · intro a _ b hb k v _ hremove
    rw [mem_singleton.mp hb] at hremove
    cases hremove

theorem notUndone_addRow (h : (S.table kind).addRow [] (S.items kind) e row = .ok ops) :
    ops.Pairwise NotUndone := by
  rw [Table.addRow_nil] at h
  obtain ⟨opss, hopss, h⟩ := exists_of_bind_eq_ok h
  cases h
  refine notUndone_indexed (.refl _) (fun index ops hops => ⟨?_, Table.describes_indexWrites hops⟩)
    hopss
  obtain ⟨oi, -, hops⟩ := exists_of_bind_eq_ok hops
  obtain ⟨ni, -, hops⟩ := exists_of_bind_eq_ok hops
  cases hops
  exact notUndone_keys oi ni

/-- **What the addition of rows does to the items.** -/
theorem replaces_add (hinv : Invariant S s) (hnow : s.clock ≤ now)
    (hrows : ∀ row ∈ rows, GraphKey S.part kind row.1 ∧ Versioned S.part (S.version now) row.1)
    (h : (newRows rows).mapM ((S.table kind).addRow [] (S.items kind) s.engine) = .ok opss) :
    Replaces S kind (S.version now) s.engine (newRows rows) opss.flatten := by
  have hkeys (row : Bytes × Bytes) (hrow : row ∈ newRows rows) : GraphKey S.part kind row.1 :=
    (hrows row (mem_of_mem_newRows hrow)).1
  have hversion (row : Bytes × Bytes) (hrow : row ∈ newRows rows) :
      Versioned S.part (S.version now) row.1 := (hrows row (mem_of_mem_newRows hrow)).2
  have hone : ∀ row ∈ newRows rows, ∀ row' ∈ newRows rows,
      keyWithNoVersion row.1 = keyWithNoVersion row'.1 → row = row' := by
    intro row hrow row' hrow' hitem
    have hkey : row.1 = row'.1 := by
      rw [← keyWithNoVersion_append_keyVersion row.1, ← keyWithNoVersion_append_keyVersion row'.1,
        hitem, (hversion row hrow).keyVersion, (hversion row' hrow').keyVersion]
    have hmem : (row.1, row'.2) ∈ newRows rows := by
      rw [hkey]
      exact hrow'
    exact Prod.ext hkey (value_eq_of_mem_newRows hrow hmem)
  have hobsolete (row : Bytes × Bytes) (hrow : row ∈ newRows rows) (k : Bytes) :
      ((S.table kind).findObsoleteIndex true s.engine row.1 ≠ [] ∧
        (S.table kind).HasKey (S.items kind) row.1
          ((S.table kind).findObsoleteIndex true s.engine row.1) k) ↔
      ∃ old, IsNewest (S.dataRows s.engine) old ∧
        keyWithNoVersion old.1 = keyWithNoVersion row.1 ∧
        (S.table kind).HasKey (S.items kind) old.1 old.2 k := by
    rw [Table.findObsoleteIndex, if_pos rfl, (hkeys row hrow).versions]
    exact hinv.wellKeyed.obsolete_iff (hkeys row hrow)
  have hdescribes := Table.describes_add h
  refine ⟨hkeys, fun row hrow => .inr (hversion row hrow), fun row hrow key hmem hdata hitem =>
    hinv.le_of_versioned hnow (hversion row hrow) hmem hdata hitem, hone,
    ⟨fun k => ?_, hdescribes.put_mem, hdescribes.no_range⟩, ?_⟩
  · rw [hdescribes.remove_mem]
    refine exists_congr fun row => and_congr_right fun hrow => hobsolete row hrow k
  refine pairwise_flatten_of_mapM h (fun row _ ops hops => notUndone_addRow hops) ?_
  have hne : (newRows rows).Pairwise fun row row' => row.1 ≠ row'.1 := by
    refine List.Pairwise.imp (fun {row row'} hlt heq => ?_) (Engine.pairwise_scan _ _)
    rw [heq] at hlt
    exact List.lt_irrefl _ hlt
  refine List.Pairwise.imp_of_mem (fun {row row'} hrow hrow' hne => ?_) hne
  rintro ops ops' hops hops' a ha b hb k v rfl rfl
  -- a key that is put for one row and removed for another one would be of two items
  obtain ⟨old, hnew, hitem, hremove⟩ := (hobsolete row' hrow' k).mp
    (((Table.describes_addRow hops').remove_mem k).mp hb)
  obtain ⟨kind', hgraph⟩ := hinv.wellKeyed.of_mem_dataRows hnew.mem_dataRows
  obtain rfl := hgraph.kind_eq (hkeys row' hrow') hitem
  rcases ((Table.describes_addRow hops).put_mem k v).mp ha with ⟨-, hput⟩ | ⟨hk, -⟩
  · have hsame := (hkeys row hrow).item_eq hgraph hput hremove
    exact hne (congrArg Prod.fst (hone row hrow row' hrow' (hsame.trans hitem)))
  · rw [hk] at hremove
    exact not_data_of_index (keyItem_of_hasKey hremove) (hkeys row hrow).data

theorem lookup_write_multiPut_of_ne (h : ∀ row ∈ rows, row.1 ≠ key) (e : Engine) :
    (e.write (Operation.multiPut rows).writes).lookup key = e.lookup key := by
  have htouch : ∀ op ∈ (Operation.multiPut rows).writes, ¬ touches key op = true := by
    intro op hop
    obtain ⟨row, hrow, rfl⟩ := mem_map.mp hop
    simpa [touches] using h row hrow
  rw [lookup_write_of_put (v := []) fun op hop hop' => absurd hop' (htouch op hop), if_neg]
  exact fun hput => htouch _ hput (by simp [touches])

theorem exists_effect_add (kind : Kind) (hinv : Invariant S s) (hnow : s.clock ≤ now)
    (hrows : ∀ row ∈ rows, GraphKey S.part kind row.1 ∧ Versioned S.part (S.version now) row.1)
    (h : (S.table kind).process [] (S.items kind) rows s.engine = (.succeeded, e')) :
    ∃ touched, Effect S (S.version now) s.engine e' touched := by
  rw [Table.process] at h
  split_ifs at h with hitems
  · obtain ⟨-, rfl⟩ := Prod.mk.inj h
    have hnew : ∀ key ∈ s.engine.write (Operation.multiPut rows).writes,
        key ∈ s.engine ∨ Versioned S.part (S.version now) key := by
      intro key hkey
      by_cases hrow : ∃ row ∈ rows, row.1 = key
      · obtain ⟨row, hrow, rfl⟩ := hrow
        exact .inr (hrows row hrow).2
      · have hsome := AList.lookup_isSome.mpr hkey
        rw [lookup_write_multiPut_of_ne fun row hmem heq => hrow ⟨row, hmem, heq⟩] at hsome
        exact .inl (AList.lookup_isSome.mp hsome)
    refine ⟨_, effect_of_no_items hitems hinv.wellKeyed ?_ (fun key hkey _ => hnew key hkey) ?_⟩
    · intro key hkey hdata
      rcases hnew key hkey with hold | hnew
      · exact hinv.wellKeyed key hold hdata
      · exact GraphKey.of_versioned hnew
    · intro key hkey
      refine lookup_write_multiPut_of_ne (fun row hrow heq => hkey ?_) _
      rw [← heq]
      exact (hrows row hrow).1
  · rw [Table.add] at h
    cases hops : (newRows rows).mapM ((S.table kind).addRow [] (S.items kind) s.engine) with
    | ok opss =>
      rw [hops] at h
      obtain ⟨-, rfl⟩ := Prod.mk.inj h
      exact ⟨_, (replaces_add hinv hnow hrows hops).effect hinv.wellKeyed⟩
    | error stop =>
      rw [hops] at h
      cases stop with
      | fatal => cases h
      | none =>
        obtain ⟨-, rfl⟩ := Prod.mk.inj h
        exact ⟨_, effect_refl S _ _⟩

/-! ### Updating -/

theorem mem_presentKeys {read : Read RowReader} {keys : List Bytes}
    (h : presentKeys schemaId read indexKey index = .ok keys) (k : Bytes) :
    k ∈ keys ↔ HasIndexKey schemaId read indexKey [index] k := by
  unfold presentKeys at h
  cases read with
  | null =>
    cases h
    exact iff_of_false not_mem_nil not_hasIndexKey_null
  | fatal | ok reader => exact mem_indexKeyOf_iff h k

theorem describes_updateIndex (h : updateIndex schemaId read indexKey old nVal index = .ok ops) :
    ops.Pairwise NotUndone ∧
      Describes ops (fun k => old ≠ [] ∧ HasIndexKey schemaId (read old) indexKey [index] k)
        fun k v => v = [] ∧ HasIndexKey schemaId (read nVal) indexKey [index] k := by
  obtain ⟨oi, hoi, h⟩ := exists_of_bind_eq_ok h
  obtain ⟨ni, hni, h⟩ := exists_of_bind_eq_ok h
  cases h
  refine ⟨notUndone_keys oi ni, describes_keys (fun k => ?_) (mem_presentKeys hni)⟩
  rw [replacedKeys] at hoi
  split_ifs at hoi with hold
  · cases hoi
    simp [hold]
  · rw [mem_presentKeys hoi, and_iff_right hold]

/-- **What an update does to its item.** -/
theorem replaces_writeBack (hkeys : WellKeyed S.part e) (hkey : GraphKey S.part kind key)
    (hfresh : key ∈ e ∨ Versioned S.part version key)
    (hleast : ∀ key' ∈ e, keyItem S.part .data <+: key' → keyWithNoVersion key' =
      keyWithNoVersion key → key ≤ key')
    (hold : ((e.scan (keyWithNoVersion key)).head?.map Prod.snd).getD [] = old)
    (hsub : indexes.Sublist (S.items kind))
    (hsame : ∀ val k, (S.table kind).HasKey indexes key val k ↔
      (S.table kind).HasKey (S.items kind) key val k)
    (h : writeBack ((S.table kind).schemaId key) ((S.table kind).read ((S.table kind).schemaId key))
      ((S.table kind).indexKey key) indexes key old nVal = .ok op) :
    ∃ batch, op = .batch batch ∧ Replaces S kind version e [(key, nVal)] batch := by
  obtain ⟨opss, hopss, h⟩ := exists_of_bind_eq_ok h
  cases h
  refine ⟨_, rfl, ?_⟩
  have hall : Describes (opss.flatten ++ [.put key nVal])
      (fun k => old ≠ [] ∧ (S.table kind).HasKey indexes key old k)
      fun k v => (v = [] ∧ (S.table kind).HasKey indexes key nVal k) ∨ (k = key ∧ v = nVal) :=
    Table.describes_indexed (fun _ _ hops => (describes_updateIndex hops).2) hopss
  have hundone := notUndone_indexed hsub (fun _ _ hops => describes_updateIndex hops) hopss
  simp only [hsame] at hall
  refine ⟨?_, ?_, ?_, ?_, ⟨fun k => ?_, fun k v => ?_, hall.no_range⟩, hundone⟩
  · exact forall_mem_singleton.mpr hkey
  · exact forall_mem_singleton.mpr hfresh
  · exact forall_mem_singleton.mpr hleast
  · intro row hrow row' hrow' _
    rw [mem_singleton.mp hrow, mem_singleton.mp hrow']
  · rw [hall.remove_mem, ← hold, hkeys.obsolete_iff hkey]
    simp
  · rw [hall.put_mem]
    simp

variable {write : Bytes → Bytes → Evaluated → Except Stop Operation}

theorem exists_of_updateRow (h : updateRow newest read req newKey write = .ok op) :
    (∃ row ev, newest = some row ∧ write row.1 row.2 ev = .ok op) ∨
      (newest = none ∧ ∃ ev, write newKey [] ev = .ok op) := by
  cases newest with
  | none =>
    rw [updateRow] at h
    split_ifs at h
    exact .inr ⟨rfl, _, h⟩
  | some row =>
    rw [updateRow] at h
    cases hread : read row.2 with
    | fatal | null => simp [hread] at h
    | ok reader =>
      simp only [hread] at h
      exact .inl ⟨row, _, rfl, h⟩

theorem exists_of_atomicOp (h : atomicOp result e = (.succeeded, e')) :
    ∃ op, result = .ok op ∧ e' = e.write op.writes := by
  cases result with
  | error stop => cases stop <;> cases h
  | ok op => exact ⟨op, rfl, (Prod.mk.inj h).2.symm⟩

/-- What an update writes: an empty log, or the new row with its index keys. -/
def WritesBack (S : Space) (kind : Kind) (item : Bytes)
    (write : Bytes → Bytes → Evaluated → Except Stop Operation) : Prop :=
  ∀ key old ev op, GraphKey S.part kind key → keyWithNoVersion key = item →
    write key old ev = .ok op → op = .sync ∨ ∃ nVal indexes, indexes.Sublist (S.items kind) ∧
      (∀ val k, (S.table kind).HasKey indexes key val k ↔
        (S.table kind).HasKey (S.items kind) key val k) ∧
      writeBack ((S.table kind).schemaId key) ((S.table kind).read ((S.table kind).schemaId key))
        ((S.table kind).indexKey key) indexes key old nVal = .ok op

theorem exists_effect_update (kind : Kind) (hinv : Invariant S s) (hnow : s.clock ≤ now)
    (hgraph : GraphKey S.part kind newKey)
    (hversion : Versioned S.part (S.version now) newKey)
    (hwrite : WritesBack S kind (keyWithNoVersion newKey) write)
    (h : atomicOp (updateRow (s.engine.scan (keyWithNoVersion newKey)).head? read req newKey write)
      s.engine = (.succeeded, e')) :
    ∃ touched, Effect S (S.version now) s.engine e' touched := by
  obtain ⟨op, hop, rfl⟩ := exists_of_atomicOp h
  rcases exists_of_updateRow hop with ⟨row, ev, hhead, hop⟩ | ⟨hhead, ev, hop⟩
  · obtain ⟨hnew, hitem⟩ := (hinv.wellKeyed.head?_scan hgraph).mp hhead
    have hrow := hnew.mem_dataRows
    obtain ⟨kind', hkey⟩ := hinv.wellKeyed.of_mem_dataRows hrow
    obtain rfl := hkey.kind_eq hgraph hitem
    rcases hwrite row.1 row.2 ev op hkey hitem hop with rfl | ⟨nVal, indexes, hsub, hsame, hback⟩
    · exact ⟨_, effect_refl S _ _⟩
    -- the row stays where it is
    have hleast : ∀ key' ∈ s.engine, keyItem S.part .data <+: key' →
        keyWithNoVersion key' = keyWithNoVersion row.1 → row.1 ≤ key' := by
      intro key' hmem hdata hitem'
      obtain ⟨row', hrow', rfl⟩ := Engine.exists_mem_scan_iff.mpr ⟨hmem, hdata⟩
      exact (isNewest_scan_iff.mp hnew).2 row' hrow' hitem'
    obtain ⟨batch, rfl, hreplaces⟩ := replaces_writeBack hinv.wellKeyed hkey
      (.inl (mem_of_mem_dataRows hrow)) hleast (by rw [hitem, hhead]; rfl) hsub hsame hback
    exact ⟨_, hreplaces.effect hinv.wellKeyed⟩
  · rcases hwrite newKey [] ev op hgraph rfl hop with rfl | ⟨nVal, indexes, hsub, hsame, hback⟩
    · exact ⟨_, effect_refl S _ _⟩
    obtain ⟨batch, rfl, hreplaces⟩ := replaces_writeBack hinv.wellKeyed hgraph (.inr hversion)
      (fun key' hmem hdata hitem => hinv.le_of_versioned hnow hversion hmem hdata hitem)
      (by rw [hhead]; rfl) hsub hsame hback
    exact ⟨_, hreplaces.effect hinv.wellKeyed⟩

theorem schemaId_vertexKey (tagId : TagId) (tv : Int64) :
    (S.table .tag).schemaId (vertexKey S.part vId tagId.1 tv) = tagId.1 :=
  (int32At_vertexKey _ _ _ _).trans tagId.2

theorem indexKey_vertexKey (tagId : Int32) (tv : Int64) :
    (S.table .tag).indexKey (vertexKey S.part vId tagId tv) =
      fun indexId => vertexIndexKey S.part indexId vId := by
  show (fun indexId => vertexIndexKey S.part indexId (int64At _ 4)) = _
  rw [int64At_vertexKey]

theorem schemaId_edgeKey (ev : Int64) :
    (S.table .edge).schemaId (edgeKey S.part edge.1 ev) = edge.1.edgeType := by
  show typeOfWord (int32At _ 12) = _
  rw [int32At_edgeKey, edge.2]

theorem indexKey_edgeKey (ev : Int64) :
    (S.table .edge).indexKey (edgeKey S.part edge.1 ev) =
      fun indexId => edgeIndexKey S.part indexId edge.1 := by
  show (fun indexId => edgeIndexKey S.part indexId (edgeOfKey _)) = _
  rw [edgeOfKey_edgeKey, edge.2]

theorem writesBack_writeVertex (tagId : TagId) (version : Int64) :
    WritesBack S .tag (keyWithNoVersion (vertexKey S.part vId tagId.1 version))
      (writeVertex S.schemas S.indexes.tags S.part vId tagId.1) := by
  intro key old ev op hkey hitem h
  have hnew : GraphKey S.part .tag (vertexKey S.part vId tagId.1 version) := ⟨vId, _, _, rfl⟩
  obtain ⟨hid, hindex⟩ := hkey.congr hnew hitem
  cases ev with
  | fatal | rejected => cases h
  | unencodable =>
    cases h
    exact .inl rfl
  | row nVal =>
    refine .inr ⟨nVal, S.items .tag, .refl _, fun val k => Iff.rfl, ?_⟩
    rw [hid, hindex, schemaId_vertexKey, indexKey_vertexKey]
    exact h

theorem writesBack_writeEdge (version : Int64) :
    WritesBack S .edge (keyWithNoVersion (edgeKey S.part edge.1 version))
      (writeEdge S.schemas S.indexes.edges S.part edge.1) := by
  intro key old ev op hkey hitem h
  have hnew : GraphKey S.part .edge (edgeKey S.part edge.1 version) := ⟨edge.1, _, rfl⟩
  obtain ⟨hid, hindex⟩ := hkey.congr hnew hitem
  cases ev with
  | fatal | rejected | unencodable => cases h
  | row nVal =>
    refine .inr ⟨nVal, if 0 < edge.1.edgeType then S.indexes.edges else [], ?_, fun val k => ?_, ?_⟩
    · split_ifs
      · exact .refl _
      · exact nil_sublist _
    · split_ifs with hpos
      · exact Iff.rfl
      -- a reverse edge has no index
      refine iff_of_false ?_ ?_
      · rintro ⟨index, hmem, -⟩
        cases hmem
      rintro ⟨index, hmem, hschema, -⟩
      have hpositive := S.indexes.positive index hmem
      rw [hschema, hid, schemaId_edgeKey] at hpositive
      exact hpos hpositive
    · rw [hid, hindex, schemaId_edgeKey, indexKey_edgeKey]
      exact h

/-! ### Deleting -/

/-- Removals of the keys of a kind without indexes. -/
theorem exists_effect_removeEach (kind : Kind) (hkeys : WellKeyed S.part s.engine)
    (hitems : S.items kind = []) {found : α → Engine → List Bytes} {asked : α → Bytes → Bool}
    (hfound : ∀ x e k, k ∈ found x e ↔ k ∈ e ∧ asked x k = true)
    (hkind : ∀ x k, k ∈ s.engine → asked x k = true → GraphKey S.part kind k) (timed : List (ℕ × α))
    (version : Int64) :
    ∃ touched, Effect S version s.engine (removeEach found timed [] s.engine) touched := by
  have hlookup := lookup_removeEach hfound timed [] s.engine
  have hmem : ∀ key ∈ removeEach found timed [] s.engine, key ∈ s.engine := by
    intro key hkey
    have hsome := AList.lookup_isSome.mpr hkey
    rw [hlookup] at hsome
    split_ifs at hsome
    · cases hsome
    · exact AList.lookup_isSome.mp hsome
  refine ⟨_, effect_of_no_items hitems hkeys (fun key hkey hdata => hkeys key (hmem key hkey) hdata)
    (fun key hkey _ => .inl (hmem key hkey)) fun key hkey => ?_⟩
  rw [hlookup]
  split_ifs with hasked
  · rcases hasked with hnil | ⟨x, -, hasked⟩
    · cases hnil
    · have hout : key ∉ s.engine := fun hin => hkey (hkind x key hin hasked)
      exact (AList.lookup_eq_none.mpr hout).symm
  · rfl

theorem exists_of_delete {α : Type} {f : α → Except Stop (List Bytes)} {xs : List α}
    (h : atomicOp ((do let keys ← xs.mapM f; return keys.flatten.map WriteOp.remove).map .batch) e =
      (.succeeded, e')) :
    ∃ keys, xs.mapM f = .ok keys ∧ e' = e.write (keys.flatten.map .remove) := by
  obtain ⟨op, hop, rfl⟩ := exists_of_atomicOp h
  cases hkeys : xs.mapM f with
  | error stop =>
    rw [hkeys] at hop
    cases hop
  | ok keys =>
    rw [hkeys] at hop
    cases hop
    exact ⟨keys, rfl, rfl⟩

theorem GraphKey.vertexPrefix_iff (h : GraphKey part kind key) :
    vertexPrefix part vertex <+: keyWithNoVersion key ↔ vertexPrefix part vertex <+: key := by
  have hcut : keyWithNoVersion key <+: key := take_prefix _ _
  refine ⟨fun hpre => hpre.trans hcut, fun hpre => ?_⟩
  refine prefix_of_prefix_length_le hpre hcut ?_
  rw [length_vertexPrefix, h.length]
  cases kind <;> simp only <;> omega

section

variable (hkeys : WellKeyed S.part e)
include hkeys

theorem WellKeyed.indexed_iff (hkey : GraphKey S.part kind key)
    (hhead : (e.scan (keyWithNoVersion key)).head? = some row) :
    IsNewest (S.dataRows e) row ∧ keyWithNoVersion row.1 = keyWithNoVersion key ∧
      (S.Indexed row k ↔ (S.table kind).HasKey (S.items kind) key row.2 k) := by
  obtain ⟨hnew, hitem⟩ := (hkeys.head?_scan hkey).mp hhead
  obtain ⟨kind', hgraph⟩ := hkeys.of_mem_dataRows hnew.mem_dataRows
  obtain rfl := hgraph.kind_eq hkey hitem
  refine ⟨hnew, hitem, ?_⟩
  rw [hgraph.indexed_iff, hgraph.hasKey_congr hkey hitem]

theorem WellKeyed.indexed_of_tag (tagId : TagId)
    (hhead : (e.scan (tagPrefix S.part vertex tagId.1)).head? = some row) :
    IsNewest (S.dataRows e) row ∧ keyWithNoVersion row.1 = tagPrefix S.part vertex tagId.1 ∧
      (S.Indexed row k ↔ HasIndexKey tagId.1 (S.schemas.getTagPropReader tagId.1 row.2)
        (fun indexId => vertexIndexKey S.part indexId vertex) S.indexes.tags k) := by
  rw [← keyWithNoVersion_vertexKey _ _ _ 0] at hhead ⊢
  have hkey : GraphKey S.part .tag (vertexKey S.part vertex tagId.1 0) := ⟨vertex, _, _, rfl⟩
  have h := hkeys.indexed_iff (k := k) hkey hhead
  rw [Table.HasKey, schemaId_vertexKey, indexKey_vertexKey] at h
  exact h

theorem WellKeyed.indexed_of_edge {edge : TypedEdge}
    (hhead : (e.scan (edgePrefix S.part edge.1)).head? = some row) :
    IsNewest (S.dataRows e) row ∧ keyWithNoVersion row.1 = edgePrefix S.part edge.1 ∧
      (S.Indexed row k ↔
        HasIndexKey edge.1.edgeType (S.schemas.getEdgePropReader edge.1.edgeType row.2)
          (fun indexId => edgeIndexKey S.part indexId edge.1) S.indexes.edges k) := by
  rw [← keyWithNoVersion_edgeKey _ _ 0] at hhead ⊢
  have hkey : GraphKey S.part .edge (edgeKey S.part edge.1 0) := ⟨edge.1, _, rfl⟩
  have h := hkeys.indexed_iff (k := k) hkey hhead
  rw [Table.HasKey, schemaId_edgeKey, indexKey_edgeKey] at h
  exact h

end

section

variable (hinv : Invariant S s)
include hinv

theorem exists_effect_deleteVertices
    (h : processDelete (foundVertexKeys S.part)
      (deleteVertices S.schemas S.indexes.tags S.part) S.indexes.tags timed s.engine =
        (.succeeded, e')) :
    ∃ touched, Effect S (S.version now) s.engine e' touched := by
  have hgraph := hinv.wellKeyed
  rw [processDelete] at h
  split_ifs at h with hitems
  · obtain ⟨-, rfl⟩ := Prod.mk.inj h
    refine exists_effect_removeEach .tag hgraph hitems mem_foundVertexKeys
      (fun vertex k hin hasked => ?_) timed _
    rw [Bool.and_eq_true, isPrefixOf_iff_prefix] at hasked
    rcases hgraph.content.of_vertexPrefix hin hasked.1 with hkey | ⟨edge, ev, -, rfl⟩
    · exact ⟨vertex, hkey⟩
    · rw [isVertex_edgeKey] at hasked
      cases hasked.2
  obtain ⟨keys, hkeys, rfl⟩ := exists_of_delete h
  refine ⟨fun p => ∃ vertex ∈ timed.map Prod.snd, vertexPrefix S.part vertex <+: p,
    effect_of_removed (fun key hin hdata => ?_) fun k hk => ?_⟩
  · obtain ⟨kind, hkey⟩ := hgraph key hin hdata
    refine mem_flatten_iff_of_mapM hkeys fun vertex _ removed hremoved => ?_
    rw [hgraph.content.mem_vertexRemovals_of_data hremoved (hasType_of_keyItem hdata .data),
      hkey.vertexPrefix_iff]
    exact and_iff_right hin
  rw [mem_flatten_of_mapM hkeys]
  constructor
  · rintro ⟨vertex, hvertex, removed, hremoved, hmem⟩
    rcases (hgraph.content.mem_vertexRemovals hremoved).mp hmem with ⟨-, hpre⟩ | hindex
    · exact absurd ((prefix_append _ _).trans hpre) (not_data_of_index hk)
    obtain ⟨tagId, row, hmask, hhead, hindexed⟩ := hindex
    obtain ⟨hnew, hitem, hiff⟩ := hgraph.indexed_of_tag ⟨tagId, hmask⟩ hhead
    refine ⟨row, ⟨vertex, hvertex, ?_⟩, hnew, hiff.mpr hindexed⟩
    rw [hitem]
    exact prefix_append _ _
  rintro ⟨row, ⟨vertex, hvertex, hpre⟩, hnew, hindexed⟩
  obtain ⟨removed, hremoved⟩ := (exists_mapM_eq_ok_iff _ _).mp ⟨keys, hkeys⟩ vertex hvertex
  refine ⟨vertex, hvertex, removed, hremoved,
    (hgraph.content.mem_vertexRemovals hremoved).mpr (.inr ?_)⟩
  have hrow := hnew.mem_dataRows
  obtain ⟨kind, hkey⟩ := hgraph.of_mem_dataRows hrow
  have hin := mem_of_mem_dataRows hrow
  rcases hgraph.content.of_vertexPrefix hin (hkey.vertexPrefix_iff.mp hpre) with
    ⟨tagId, tv, hvertexKey⟩ | ⟨edge, ev, hsrc, hedgeKey⟩
  · have hmask : (tagId &&& tagMaskSet) &&& tagMaskSet = tagId &&& tagMaskSet := by
      rw [Int32.and_assoc, Int32.and_self]
    have hhead : (s.engine.scan (tagPrefix S.part vertex (tagId &&& tagMaskSet))).head? =
        some row := by
      rw [tagPrefix_and, ← keyWithNoVersion_vertexKey _ _ _ tv, ← hvertexKey]
      exact (hgraph.head?_scan hkey).mpr ⟨hnew, rfl⟩
    exact ⟨_, row, hmask, hhead, (hgraph.indexed_of_tag ⟨_, hmask⟩ hhead).2.2.mp hindexed⟩
  · -- an edge would have ended the process
    have hnone := (hgraph.content.exists_vertexRemovals_iff.mp ⟨removed, hremoved⟩).1 edge ev
      hsrc
    exact absurd (hedgeKey ▸ hin) hnone

theorem exists_effect_deleteEdges {timed : List (ℕ × TypedEdge)}
    (h : processDelete (foundEdgeKeys S.part) (deleteEdges S.schemas S.indexes.edges S.part)
      S.indexes.edges (timed.map fun x => (x.1, x.2.1)) s.engine = (.succeeded, e')) :
    ∃ touched, Effect S (S.version now) s.engine e' touched := by
  have hgraph := hinv.wellKeyed
  rw [processDelete] at h
  split_ifs at h with hitems
  · obtain ⟨-, rfl⟩ := Prod.mk.inj h
    refine exists_effect_removeEach .edge hgraph hitems mem_foundEdgeKeys
      (fun edge k hin hasked => ?_) _ _
    obtain ⟨rest, rfl, -⟩ := inRange_edgeKey.mp hasked
    exact ⟨edge, hgraph.content.of_edgePrefix hin (prefix_append _ _)⟩
  obtain ⟨keys, hkeys, rfl⟩ := exists_of_delete h
  rw [map_map] at hkeys
  have hedges : (timed.map (Prod.snd ∘ fun x : ℕ × TypedEdge => (x.1, x.2.1))) =
      (timed.map Prod.snd).map Subtype.val := by
    rw [map_map]
    rfl
  rw [hedges] at hkeys
  refine ⟨fun p => ∃ edge ∈ timed.map Prod.snd, edgePrefix S.part edge.1 = p,
    effect_of_removed (fun key hin hdata => ?_) fun k hk => ?_⟩
  · obtain ⟨kind, hkey⟩ := hgraph key hin hdata
    have hitem (edge : EdgeKey) :
        edgePrefix S.part edge <+: key ↔ edgePrefix S.part edge = keyWithNoVersion key := by
      have hedge : GraphKey S.part .edge (edgeKey S.part edge 0) := ⟨edge, _, rfl⟩
      rw [← keyWithNoVersion_edgeKey _ _ 0, hedge.prefix_iff hkey, eq_comm]
    have hmem : key ∈ keys.flatten ↔ ∃ edge ∈ (timed.map Prod.snd).map Subtype.val,
        edgePrefix S.part edge = keyWithNoVersion key := by
      refine mem_flatten_iff_of_mapM hkeys fun edge _ removed hremoved => ?_
      rw [mem_edgeRemovals_of_data hremoved (hasType_of_keyItem hdata .data), hitem]
      exact and_iff_right hin
    rw [hmem]
    simp only [mem_map, exists_exists_and_eq_and]
  rw [mem_flatten_of_mapM hkeys]
  constructor
  · rintro ⟨_, hmap, removed, hremoved, hmem⟩
    obtain ⟨edge, hedge, rfl⟩ := mem_map.mp hmap
    rcases (mem_edgeRemovals hremoved).mp hmem with ⟨row, hrow, rfl⟩ | ⟨row, hhead, hindexed⟩
    · refine absurd (List.IsPrefix.trans ?_ (Engine.mem_scan.mp hrow).2) (not_data_of_index hk)
      exact keyItem_prefix_edgePrefix S.part edge.1
    · obtain ⟨hnew, hitem, hiff⟩ := hgraph.indexed_of_edge hhead
      exact ⟨row, ⟨edge, hedge, hitem.symm⟩, hnew, hiff.mpr hindexed⟩
  · rintro ⟨row, ⟨edge, hedge, heq⟩, hnew, hindexed⟩
    obtain ⟨removed, hremoved⟩ := (exists_mapM_eq_ok_iff _ _).mp ⟨keys, hkeys⟩ edge.1
      (mem_map_of_mem hedge)
    obtain ⟨kind, hkey⟩ := hgraph.of_mem_dataRows hnew.mem_dataRows
    have hhead : (s.engine.scan (edgePrefix S.part edge.1)).head? = some row := by
      rw [heq]
      exact (hgraph.head?_scan hkey).mpr ⟨hnew, rfl⟩
    exact ⟨edge.1, mem_map_of_mem hedge, removed, hremoved, (mem_edgeRemovals hremoved).mpr
        (.inr ⟨row, hhead, (hgraph.indexed_of_edge hhead).2.2.mp hindexed⟩)⟩

/-! ### Runs -/

theorem exists_effect_process (hnow : s.clock ≤ now) {req : Request} (hscans : req.scanned = true)
    (h : S.process now req s.engine = (.succeeded, e')) :
    ∃ touched, Effect S (S.version now) s.engine e' touched := by
  cases req with
  | addVertices failed vertices =>
    obtain rfl : failed = [] := isEmpty_iff.mp hscans
    refine exists_effect_add .tag hinv hnow (fun row hrow => ?_) h
    obtain ⟨v, -, hrow⟩ := mem_flatMap.mp hrow
    obtain ⟨tag, -, rfl⟩ := mem_map.mp hrow
    exact ⟨⟨v.id, tag.1, _, rfl⟩, .inl ⟨v.id, tag.1, rfl⟩⟩
  | addEdges failed edges =>
    obtain rfl : failed = [] := isEmpty_iff.mp hscans
    refine exists_effect_add .edge hinv hnow (fun row hrow => ?_) h
    obtain ⟨edge, -, rfl⟩ := mem_map.mp hrow
    exact ⟨⟨edge.key, _, rfl⟩, .inr ⟨edge.key, rfl⟩⟩
  | updateVertex vId tagId req =>
    exact exists_effect_update .tag hinv hnow ⟨vId, tagId.1, _, rfl⟩
      (.inl ⟨vId, tagId.1, rfl⟩) (writesBack_writeVertex vId tagId _) h
  | updateEdge edge req =>
    change atomicOp (updateRow (s.engine.scan (edgePrefix S.part edge.1)).head? _ _ _ _) _ = _ at h
    rw [← keyWithNoVersion_edgeKey _ _ (S.version now)] at h
    exact exists_effect_update .edge hinv hnow ⟨edge.1, _, rfl⟩
      (.inr ⟨edge.1, rfl⟩) (writesBack_writeEdge edge _) h
  | deleteVertices timed => exact exists_effect_deleteVertices hinv h
  | deleteEdges timed => exact exists_effect_deleteEdges hinv h

theorem Invariant.step {s' : PartState} {a : Int64 × Request} (hscans : a.2.scanned = true)
    (h : S.step s a = some s') : Invariant S s' := by
  rw [Space.step] at h
  split_ifs at h with hnow
  split at h
  · rename_i e hprocess
    cases h
    obtain ⟨touched, heffect⟩ := exists_effect_process hinv hnow hscans hprocess
    exact heffect.invariant hinv hnow
  · cases h

end

end Steps

/-- **Index consistency.**  After any run of requests that succeed, from an empty partition
and with a clock that does not go back, the index keys of the partition are those of the
newest rows, if every scan for an old row succeeds. -/
theorem indexConsistent_of_reach (S : Space) {s : PartState}
    (h : Reach S.step (fun _ a => a.2.scanned = true) .empty s) : IndexConsistent S s.engine := by
  have hinv : Invariant S s :=
    h.invariant (invariant_empty S) fun _ _ _ hinv hscans hstep => hinv.step hscans hstep
  exact hinv.consistent

/-! ### A run -/

/-- The first byte of a row is the value of all its properties. -/
def byteSchemas : SchemaManager where
  getTagPropReader _ row := match row with
    | [] => .null
    | b :: _ => .ok ⟨fun _ => .ok (.int (.ofInt b.toNat))⟩
  getEdgePropReader _ row := match row with
    | [] => .null
    | b :: _ => .ok ⟨fun _ => .ok (.int (.ofInt b.toNat))⟩

/-- An index of a tag and an index of an edge type, with many versions. -/
def byteSpace : Space where
  schemas := byteSchemas
  indexes := ⟨[⟨1, 5, [⟨[], .int⟩]⟩], [⟨2, 7, [⟨[], .int⟩]⟩], by decide, by decide⟩
  part := 1
  multiVersions := true
  emptyTag _ := rfl
  emptyEdge _ := rfl

/-- A vertex and an edge are added, the vertex is added once more and updated, and the edge
is deleted. -/
def byteRun : List (Int64 × Request) :=
  [(10, .addVertices [] [⟨1, [(5, [3])]⟩]), (10, .addEdges [] [⟨outEdge, [4]⟩]),
    (20, .addVertices [] [⟨1, [(5, [6])]⟩]),
    (30, .updateVertex 1 ⟨5, by decide⟩ ⟨false, fun _ => .row [9]⟩),
    (40, .deleteEdges [(0, ⟨outEdge, by decide⟩)])]

/-- After the run there is one index key, of the last value. -/
theorem indexConsistent_byteRun :
    ∃ s : PartState, (s.engine.keys.filter (fun k => hasType k .index) =
        [vertexIndexKey 1 1 1 [(.int, encodeInt64 9)]]) ∧ IndexConsistent byteSpace s.engine := by
  obtain ⟨s, hreach, hs⟩ := exists_reach_of_run byteSpace.step
    (fun _ a => a.2.scanned = true) .empty
    (fun s => s.engine.keys.filter (fun k => hasType k .index) =
        [vertexIndexKey 1 1 1 [(.int, encodeInt64 9)]]) byteRun (by decide +kernel)
  exact ⟨s, of_decide_eq_true hs, indexConsistent_of_reach byteSpace hreach⟩

/-- The vertex is added twice, and the scan for its first row fails. -/
def blindRun : List (Int64 × Request) :=
  [(10, .addVertices [] [⟨1, [(5, [3])]⟩]),
    (20, .addVertices [(vertexKey 1 1 5 (byteSpace.version 20), 0)] [⟨1, [(5, [6])]⟩])]

/-- **The index key of the old row stays**, although both requests succeed. -/
theorem not_indexConsistent_blindRun :
    ∃ s, Reach byteSpace.step (fun _ _ => True) .empty s ∧
      ¬ IndexConsistent byteSpace s.engine := by
  obtain ⟨s, hreach, hs⟩ := exists_reach_of_run byteSpace.step (fun _ _ => True) .empty
    (fun s => decide (vertexIndexKey 1 1 1 [(.int, encodeInt64 3)] ∈ s.engine ∧
      ∀ row ∈ byteSpace.dataRows s.engine, (byteSpace.dataRows s.engine).find?
          (fun x => keyWithNoVersion x.1 = keyWithNoVersion row.1) = some row →
        row = (vertexKey 1 1 5 (byteSpace.version 20), [6]))) blindRun (by decide +kernel)
  obtain ⟨hold, hrows⟩ := of_decide_eq_true hs
  refine ⟨s, hreach, fun h => ?_⟩
  obtain ⟨row, hnew, kind, hkind, hkey⟩ := (h _ (by decide)).mp hold
  obtain rfl := hrows row (mem_of_find?_eq_some hnew) hnew
  cases kind with
  | tag =>
    have hkeys : indexKeyOf 5 (byteSchemas.getTagPropReader 5 [6])
        (fun indexId values => vertexIndexKey 1 indexId 1 values) ⟨1, 5, [⟨[], .int⟩]⟩ =
          .ok [vertexIndexKey 1 1 1 [(.int, encodeInt64 6)]] := rfl
    exact absurd ((mem_indexKeyOf_iff hkeys _).mpr hkey) (by decide)
  | edge => exact absurd hkind (by decide)

end K2Graph.Storaged
