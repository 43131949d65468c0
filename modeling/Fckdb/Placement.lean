import Fckdb.LogSafety

/-! # Where documents are placed

A compaction puts each document into the shard its id hashes to, and a query routes the tail the same
way. The two agree as long as the shard count does not change under shards that are in place
(`Reaches.placement`). It can: a namespace whose shards are hollow, or about to be installed, still
takes a shard count (`miscounted_not_placement`). -/

namespace Fckdb

/-! ## What the objects of a shard hold -/

/-- The ids of the documents that an object stores. -/
def Blob.storedIds : Blob → List Id
  | .records rs => rs.map Record.id
  | .ids xs => xs
  | _ => []

/-- The object under a name was written, and stores documents with such ids only. -/
def Store.Stores (s : Store) (name : ObjectName) (P : Id → Prop) : Prop :=
  ∃ p, s.written name = some p ∧ ∀ id ∈ p.blob.storedIds, P id

theorem Store.Stores.imp {s : Store} {name : ObjectName} {P Q : Id → Prop} (h : s.Stores name P)
    (hpq : ∀ id, P id → Q id) : s.Stores name Q := by
  obtain ⟨p, hp, hids⟩ := h
  exact ⟨p, hp, fun id hid => hpq id (hids id hid)⟩

theorem Grows.stores {who : Nat → Prop} {s s' : Store} (h : Grows who s s') {name : ObjectName}
    {P : Id → Prop} (hs : s.Stores name P) : s'.Stores name P := by
  obtain ⟨p, hp, hids⟩ := hs
  exact ⟨p, h.written hp, hids⟩

theorem Store.Wrote.stores {s : Store} {t : Nat} {name : ObjectName} {blob : Blob} {P : Id → Prop}
    (h : s.Wrote t name blob) (hids : ∀ id ∈ blob.storedIds, P id) : s.Stores name P := by
  obtain ⟨p, hp, rfl, -⟩ := h
  exact ⟨p, hp, hids⟩

/-- The contents of an object that is built from documents. -/
inductive Blob.Of (docs : List Doc) : Blob → Prop
  | upserts (ds : List Doc) (h : ds ⊆ docs) : Blob.Of docs (upserts ds)
  | ids : Blob.Of docs (.ids (docs.map Doc.id))
  | centroids (flat : List F32) : Blob.Of docs (.centroids flat)
  | attr (x : AttrIndex) : Blob.Of docs (.attr x)
  | fts (x : FtsIndex) : Blob.Of docs (.fts x)
  | sparse (x : SparseIndex) : Blob.Of docs (.sparse x)

section Built

variable [Crates] {s : Store} {t : Nat} {schema : Schema} {docs : List Doc} {i : IndexMeta}

omit [Crates] in
/-- The ids of upserts are the ids of their documents. -/
theorem storedIds_upserts (docs : List Doc) : (upserts docs).storedIds = docs.map Doc.id := by
  rw [upserts, Blob.storedIds, List.map_map]
  rfl

omit [Crates] in
theorem Blob.Of.storedIds {blob : Blob} (h : Blob.Of docs blob) {id : Id} (hid : id ∈ blob.storedIds) :
    id ∈ docs.map Doc.id := by
  cases h with
  | upserts ds hds =>
      rw [storedIds_upserts] at hid
      exact List.map_subset _ hds hid
  | ids => exact hid
  | centroids | attr | fts | sparse => cases hid

/-- What is written for an index is of its documents. -/
theorem Blob.Of.indexWrites {groups : List (List Doc)} {w : Write} (hgroups : ∀ g ∈ groups, g ⊆ docs)
    (hw : w ∈ Fckdb.indexWrites docs groups schema) : Blob.Of docs w.blob := by
  rw [Fckdb.indexWrites] at hw
  simp only [List.mem_append, List.mem_map, List.mem_singleton] at hw
  rcases hw with (⟨g, hg, rfl⟩ | rfl) | (⟨p, -, rfl⟩ | ⟨p, -, rfl⟩) | ⟨p, -, rfl⟩
  · exact .upserts g (hgroups g hg)
  · exact .ids
  · exact .attr _
  · exact .fts _
  · exact .sparse _

/-- The objects of an index are the centroids and what was written after them. -/
theorem mem_objects_indexMeta {dim bytes : Nat} {groups : List (List Doc)} {centroids : DataName}
    {names : List DataName} {name : DataName}
    (h : name ∈ (indexMeta docs dim bytes groups schema centroids names).objects) :
    name = centroids ∨ name ∈ names := by
  have hdrop (n : Nat) : names.drop n ⊆ names := List.drop_subset n names
  simp only [IndexMeta.objects, indexMeta, List.mem_cons, List.mem_append, List.cons_append] at h
  rcases h with rfl | (h | h) | (h | h) | h
  · exact .inl rfl
  · exact .inr (List.take_subset _ _ h)
  · obtain hhead := Option.mem_toList.mp h
    exact .inr (hdrop _ (List.mem_of_mem_head? hhead))
  all_goals
    obtain ⟨p, hp, rfl⟩ := List.mem_map.mp (SortedMap.mem_values_ofList h)
    have := (List.of_mem_zip hp).2
    rw [List.drop_drop] at this
  · exact .inr (hdrop _ this)
  · rw [List.drop_drop] at this
    exact .inr (hdrop _ this)
  · rw [List.drop_drop] at this
    exact .inr (hdrop _ this)

/-- **The objects of an index** are of its documents. -/
theorem IndexBuilt.of_mem_objects (h : IndexBuilt s t schema docs i) {name : DataName}
    (hname : name ∈ i.objects) : ∃ blob, s.Wrote t (.data name) blob ∧ Blob.Of docs blob := by
  obtain ⟨flat, groups, centroids, names, hbuild, hcentroids, hnames, rfl⟩ := h
  have hgroups : ∀ g ∈ groups, g ⊆ docs := fun g hg d hd =>
    (ivfBuild_perm hbuild).subset (List.mem_flatten_of_mem hg hd)
  rcases mem_objects_indexMeta hname with rfl | hmem
  · exact ⟨_, hcentroids, .centroids flat⟩
  · obtain ⟨n, hn, rfl⟩ := List.mem_iff_getElem.mp hmem
    have hlen := hnames.length_eq
    exact ⟨_, hnames.get (by omega) hn, .indexWrites hgroups (List.get_mem _ _)⟩

/-- **The objects of a shard** are of its documents. -/
theorem ShardBuilt.of_mem_objects {buildIndex : Bool} {shard : Shard}
    (h : ShardBuilt s t schema docs buildIndex shard) {name : ObjectName} (hname : name ∈ shard.objects) :
    ∃ blob, s.Wrote t name blob ∧ Blob.Of docs blob := by
  rw [ShardBuilt] at h
  by_cases hnil : docs = []
  · rw [if_pos hnil] at h
    rw [h] at hname
    cases hname
  rw [if_neg hnil] at h
  obtain ⟨seg, index, hw, rfl, hindex⟩ := h
  rcases List.mem_append.mp hname with hmem | hmem
  · obtain rfl := List.mem_singleton.mp hmem
    exact ⟨_, hw, .upserts docs fun _ h => h⟩
  · cases buildIndex with
    | false =>
        obtain rfl : index = none := hindex
        cases hmem
    | true =>
        obtain ⟨i, rfl, hi⟩ := hindex
        rw [Option.toList_some, List.flatMap_singleton] at hmem
        obtain ⟨n, hn, rfl⟩ := List.mem_map.mp hmem
        exact hi.of_mem_objects hn

/-- The objects of a shard store the ids of its documents only. -/
theorem ShardBuilt.stores {buildIndex : Bool} {shard : Shard}
    (h : ShardBuilt s t schema docs buildIndex shard) {name : ObjectName} (hname : name ∈ shard.objects) :
    s.Stores name fun id => id ∈ docs.map Doc.id := by
  obtain ⟨blob, hw, hof⟩ := h.of_mem_objects hname
  exact hw.stores fun id hid => hof.storedIds hid

end Built

/-! ## Placed manifests -/

/-- The shards are none or as many as the schema says, and each stores the documents that hash to it. -/
structure Placed (s : Store) (m : Manifest) : Prop where
  count : m.shards = [] ∨ m.shards.length = m.schema.shards
  placed : ∀ i shard, m.shards[i]? = some shard → ∀ name ∈ shard.objects,
    s.Stores name fun id => shardOf id m.schema.shards = i

theorem Placed.init (s : Store) : Placed s {} := ⟨.inl rfl, fun _ _ h => nomatch h⟩

theorem Placed.grows {who : Nat → Prop} {s s' : Store} {m : Manifest} (h : Placed s m)
    (hg : Grows who s s') : Placed s' m :=
  ⟨h.count, fun i shard hi name hname => hg.stores (h.placed i shard hi name hname)⟩

/-- A schema with the same shard count, or no shards. -/
theorem Placed.schema {s : Store} {m m' : Manifest} (h : Placed s m) (hshards : m'.shards = m.shards)
    (hcount : m.shards = [] ∨ m'.schema.shards = m.schema.shards) : Placed s m' := by
  rcases hcount with hnil | heq
  · refine ⟨.inl (hshards.trans hnil), fun i shard hi => ?_⟩
    rw [hshards, hnil] at hi
    cases hi
  · refine ⟨?_, ?_⟩
    · rw [hshards, heq]
      exact h.count
    · rw [hshards, heq]
      exact h.placed

/-- **Built shards are placed.** -/
theorem Placed.built [Crates] {s : Store} {t : Nat} {schema : Schema} {buildIndex : Bool}
    {docs : List Doc} {shards : List Shard} {m : Manifest}
    (h : List.Forall₂ (fun docs shard => ShardBuilt s t schema docs buildIndex shard)
      (buckets docs m.schema.shards) shards) (hm : m.shards = shards) : Placed s m := by
  have hlen := h.length_eq
  rw [buckets, List.length_map, List.length_range] at hlen
  refine ⟨.inr (hm ▸ hlen.symm), fun i shard hi name hname => ?_⟩
  rw [hm] at hi
  obtain ⟨hlt, rfl⟩ := List.getElem?_eq_some_iff.mp hi
  have hb := h.get (by rw [buckets, List.length_map, List.length_range, hlen]; exact hlt) hlt
  refine (hb.stores hname).imp fun id hid => ?_
  -- the documents of bucket `i` hash to `i`
  obtain ⟨d, hd, rfl⟩ := List.mem_map.mp hid
  rw [List.get_eq_getElem] at hd
  simp only [buckets, List.getElem_map, List.getElem_range] at hd
  exact of_decide_eq_true (List.mem_filter.mp hd).2

/-! ## Runs -/

/-- Runs in which a commit changes the shard count only of a manifest without shards, and an install is
made on the shard count its shards were built for. -/
def placeTerms : Terms where
  call := Call.Keeps
  op
    | _, s, .putManifest m mode (.commit _) => s.admits mode = true →
      s.manifest.shards = [] ∨ m.schema.shards = s.manifest.schema.shards
    | _, s, .putManifest _ mode (.compaction base _) => s.admits mode = true →
      s.manifest.schema.shards = (s.manifestAt base).schema.shards
    | _, _, _ => True
  env _ _ := True

section Runs

variable [Crates] [HashOrder]

omit [HashOrder] in
/-- **A move keeps the current manifest placed.** -/
theorem Placed.move {t : Nat} {call : Call} {s s' : Store} (hdrop : s.dropped = 0)
    (h : Placed s s.manifest) (hg : Guar placeTerms t call s s') (hcall : call.Keeps) :
    s'.dropped = 0 ∧ Placed s' s'.manifest := by
  obtain ⟨hgrows, hmove⟩ := hg
  have hpush (v : Version) : (s.push v).manifest = v.manifest := by
    rw [Store.manifest, Store.push, hdrop, List.drop_zero, lastManifest_append]
  cases hmove with
  | calm hv hdel hdropped _ =>
      refine ⟨hdropped.trans hdrop, ?_⟩
      rw [Store.manifest, hv, hdropped]
      exact h.grows hgrows
  | commit prepare schema batch uuid now mode asked prepared stored first allowed admitted result =>
      subst result
      refine ⟨hdrop, ?_⟩
      rw [hpush]
      exact (h.grows hgrows).schema rfl (allowed admitted)
  | install handle buildIndex base read m records shards now mode asked based later known documents
      built distinct same first allowed admitted result =>
      subst result
      refine ⟨hdrop, ?_⟩
      rw [hpush]
      have hcount : s.manifest.schema.shards = m.schema.shards := based.eq ▸ allowed admitted
      rw [← hcount] at built
      exact (Placed.built (m := s.manifest.install (m.wal.map (·.name)) shards now) built rfl).grows
        hgrows
  | delete handle _ _ _ _ _ _ asked =>
      rw [asked] at hcall
      exact hcall.elim
  | drop handle asked =>
      rw [asked] at hcall
      exact hcall.elim
  | list handle _ asked =>
      rw [asked] at hcall
      exact hcall.elim
  | wipe handle _ asked =>
      rw [asked] at hcall
      exact hcall.elim

theorem Reaches.placed {p : Namespace} (h : Reaches placeTerms p) :
    Placed p.shared p.shared.manifest := by
  refine (h.store_invariant (J := fun s => s.dropped = 0 ∧ Placed s s.manifest) ⟨rfl, .init _⟩
    (fun t call s s' hcall hg hs => ?_) fun s nanos hs => ?_).2
  · exact Placed.move hs.1 hs.2 hg hcall
  · exact ⟨hs.1, hs.2.grows (tick_rely rfl 0)⟩

/-! ## The tail -/

omit [Crates] [HashOrder] in
/-- The slices of the tail are by hash over the resident shards. -/
theorem Placed.tails_eq {s : Store} {m : Manifest} (h : Placed s m) (tail : List Record) :
    tails m.schema (residentShards m) tail = (List.range (residentShards m).length).map fun i =>
      tail.filter fun r => shardOf r.id (residentShards m).length = i := by
  have hone (n : Nat) (hn : n ≤ 1) (tail : List Record) :
      tail.filter (fun r => shardOf r.id n = 0) = tail := by
    rw [List.filter_eq_self]
    intro r _
    rw [shardOf, if_pos hn]
    rfl
  have hpos : 0 < (residentShards m).length := by
    rw [residentShards]
    split_ifs with hempty
    · exact Nat.one_pos
    · exact List.length_pos_of_ne_nil (fun hnil => hempty (List.isEmpty_iff.mpr hnil))
  have hcount : (residentShards m).length = 1 ∨ m.schema.shards = (residentShards m).length := by
    rw [residentShards]
    split_ifs with hempty
    · exact .inl rfl
    · rcases h.count with hnil | heq
      · exact absurd (List.isEmpty_iff.mpr hnil) hempty
      · exact .inr heq.symm
  rw [tails]
  split_ifs with hsmall
  · -- one shard takes all
    have hle : (residentShards m).length = 1 := by omega
    rw [hle, List.range_one, List.map_singleton, hone 1 (Nat.le_refl 1)]
  · rw [hcount.resolve_left (by omega)]

/-- **Shard placement.** The shards of the current manifest are none or as many as the schema says; what
shard `i` stores hashes to `i`, so that no id is in two shards; and the slice of the tail that a query
gives a shard has exactly the records that hash to it. -/
structure Placement (p : Namespace) : Prop where
  count : p.shared.manifest.shards = [] ∨
    p.shared.manifest.shards.length = p.shared.manifest.schema.shards
  placed : ∀ i shard, p.shared.manifest.shards[i]? = some shard → ∀ name ∈ shard.objects,
    ∃ put, p.shared.written name = some put ∧
      ∀ id ∈ put.blob.storedIds, shardOf id p.shared.manifest.schema.shards = i
  apart : ∀ (i j : Nat) (si sj : Shard), p.shared.manifest.shards[i]? = some si → p.shared.manifest.shards[j]? = some sj →
    ∀ ni ∈ si.objects, ∀ nj ∈ sj.objects, ∀ pi pj, p.shared.written ni = some pi →
      p.shared.written nj = some pj → ∀ id ∈ pi.blob.storedIds, id ∈ pj.blob.storedIds → i = j
  slices : ∀ tail, tails p.shared.manifest.schema (residentShards p.shared.manifest) tail =
    (List.range (residentShards p.shared.manifest).length).map fun i =>
      tail.filter fun r => shardOf r.id (residentShards p.shared.manifest).length = i

omit [Crates] [HashOrder] in
theorem Placed.lands {p : Namespace} (h : Placed p.shared p.shared.manifest) : Placement p := by
  refine ⟨h.count, h.placed, ?_, h.tails_eq⟩
  intro i j si sj hi hj ni hni nj hnj pi pj hpi hpj id hidi hidj
  obtain ⟨p₁, hp₁, h₁⟩ := h.placed i si hi ni hni
  obtain ⟨p₂, hp₂, h₂⟩ := h.placed j sj hj nj hnj
  obtain rfl := Option.some.inj (hp₁.symm.trans hpi)
  obtain rfl := Option.some.inj (hp₂.symm.trans hpj)
  exact (h₁ id hidi).symm.trans (h₂ id hidj)

/-- **Documents are where they hash to** in every interleaving, if the shard count changes under no
shards. -/
theorem Reaches.placement {p : Namespace} (h : Reaches placeTerms p) : Placement p :=
  h.placed.lands

end Runs

instance (call : Call) : Decidable (placeTerms.call call) := inferInstanceAs (Decidable call.Keeps)

instance (t : Nat) (s : Store) : (r : Request) → Decidable (placeTerms.op t s r)
  | .putManifest m mode (.commit _) => inferInstanceAs (Decidable (s.admits mode = true →
      s.manifest.shards = [] ∨ m.schema.shards = s.manifest.schema.shards))
  | .putManifest _ mode (.compaction base _) => inferInstanceAs (Decidable (s.admits mode = true →
      s.manifest.schema.shards = (s.manifestAt base).schema.shards))
  | .getManifest | .putNew _ _ | .get _ | .delete _ | .list _ | .next _ | .deleteManifest | .listAll
  | .nextAny | .now _ | .view _ | .remember _ _ _ | .forget _ | .choose => isTrue trivial

instance (s : Store) (nanos : Nat) : Decidable (placeTerms.env s nanos) := isTrue trivial

/-- Two documents are written to a namespace of two shards, and compacted. -/
def shardedRun : List Act :=
  .spawn (.commitRecords 0 [.upsert (.bare 1), .upsert (.bare 2)] { numShards := some 2 }) ::
      goes 0 6 ++
    .spawn (.compact 0 false) :: goes 1 5 ++ .run 1 (.turn true) :: goes 1 7

theorem shardedRun_placement :
    let _ := Crates.inert
    let _ := HashOrder.sorted
    ∃ p, execute service.step ⟨{}, []⟩ shardedRun = some p ∧
      p.shared.manifest.shards.map (·.segments.length) = [1, 1] ∧ Placement p := by
  intro _ _
  have hrun : (execute service.step ⟨{}, []⟩ shardedRun).any
      (fun p => p.shared.manifest.shards.map (·.segments.length) = [1, 1]) = true := by
    decide +kernel
  obtain ⟨p, hp, hshards⟩ := (Option.any_eq_true _ _).mp hrun
  have hallowed : Allowed service.step (fun p a => placeTerms.Meets p a) ⟨{}, []⟩ shardedRun := by
    decide +kernel
  exact ⟨p, hp, of_decide_eq_true hshards,
    Reaches.placement (Reachable.init.execute hallowed hp)⟩

/-! ## A shard count over hollow shards -/

/-- An empty namespace is compacted, and then takes a shard count. -/
def miscountedRun : List Act :=
  .spawn (.compact 0 false) :: goes 0 6 ++
    .spawn (.commitRecords 0 [.upsert (.bare 1)] { numShards := some 4 }) :: goes 1 5

/-- **One shard, and a shard count of four.** -/
theorem miscounted_not_placement :
    let _ := Crates.inert
    let _ := HashOrder.sorted
    ¬ ∀ p, Reaches keepTerms p → Placement p := by
  intro _ _ h
  have hrun : (execute service.step ⟨{}, []⟩ miscountedRun).any
      (fun p => p.shared.manifest.shards ≠ [] ∧
        p.shared.manifest.shards.length ≠ p.shared.manifest.schema.shards) = true := by
    decide +kernel
  obtain ⟨p, hp, hcount⟩ := (Option.any_eq_true _ _).mp hrun
  have hallowed : Allowed service.step (fun p a => keepTerms.Meets p a) ⟨{}, []⟩ miscountedRun := by
    decide +kernel
  obtain ⟨hnonempty, hlength⟩ := of_decide_eq_true hcount
  exact (h p (Reachable.init.execute hallowed hp)).count.elim hnonempty hlength

end Fckdb
