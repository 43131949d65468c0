import Fckdb.Recompact
import Fckdb.SchemaRuns
import Fckdb.WriteRequest

/-! # One dimension

The first vector fixes the dimension of a namespace, and rows without a vector are refused. An empty array in
a column of vectors is not: while no dimension is fixed its document is taken as it is, and stays when another
one fixes the dimension (`gapped_not_uniform`). If the write that brings the first vector brings one for each
of its documents, and no document came before, then all documents of every manifest have vectors of one length,
and the index builds of compactions succeed (`Reaches.uniform`). -/

namespace Fckdb

/-! ## Vectors of records -/

/-- The vector that a record brings. -/
def Record.vector? : Record → Option (List F32)
  | .upsert d => some d.vector
  | _ => none

namespace Schema

variable [Crates] {s s' : Schema}

/-- The vector of a record that is absorbed is empty and there is no dimension, or it has the dimension that is
then set. -/
theorem absorbRecord_vector {r r' : Record} (h : s.absorbRecord r = .ok (s', r')) {v : List F32}
    (hv : v ∈ r'.vector?) : v = [] ∧ s.dim = none ∨ v ≠ [] ∧ s'.dim = some v.length := by
  cases r with
  | upsert doc =>
      obtain ⟨⟨s₁, id⟩, h₁, h⟩ := bind_eq_ok.mp h
      obtain ⟨s₂, h₂, h⟩ := bind_eq_ok.mp h
      obtain ⟨⟨s₃, attrs⟩, h₃, h⟩ := bind_eq_ok.mp h
      cases h
      obtain rfl := Option.some.inj hv
      rcases absorbVector_eq_ok h₂ with ⟨hnil, hdim, -⟩ | ⟨hne, -, rfl⟩
      · refine .inl ⟨hnil, ?_⟩
        cases hd : s.dim with
        | none => rfl
        | some d => cases hdim.symm.trans ((absorbId_extends h₁).dim d hd)
      · exact .inr ⟨hne, (absorbAttrs_extends h₃).dim _ rfl⟩
  | patch id attrs =>
      obtain ⟨⟨s₁, id⟩, h₁, h⟩ := bind_eq_ok.mp h
      obtain ⟨⟨s₂, attrs⟩, h₂, h⟩ := bind_eq_ok.mp h
      cases h
      cases hv
  | delete id =>
      obtain ⟨⟨s₁, id⟩, h₁, h⟩ := bind_eq_ok.mp h
      cases h
      cases hv

/-- A record keeps its vector. -/
theorem absorbRecord_vector? {r r' : Record} (h : s.absorbRecord r = .ok (s', r')) :
    r'.vector? = r.vector? := by
  cases r with
  | upsert doc =>
      obtain ⟨⟨s₁, id⟩, -, h⟩ := bind_eq_ok.mp h
      obtain ⟨s₂, -, h⟩ := bind_eq_ok.mp h
      obtain ⟨⟨s₃, attrs⟩, -, h⟩ := bind_eq_ok.mp h
      cases h
      rfl
  | patch id attrs =>
      obtain ⟨⟨s₁, id⟩, -, h⟩ := bind_eq_ok.mp h
      obtain ⟨⟨s₂, attrs⟩, -, h⟩ := bind_eq_ok.mp h
      cases h
      rfl
  | delete id =>
      obtain ⟨⟨s₁, id⟩, -, h⟩ := bind_eq_ok.mp h
      cases h
      rfl

/-- The vectors of a batch that is absorbed are empty and there is no dimension, or they have the dimension that
is then set. -/
theorem absorb_vector {rs rs' : List Record} (h : s.absorb rs = .ok (s', rs')) {r : Record} (hr : r ∈ rs')
    {v : List F32} (hv : v ∈ r.vector?) : v = [] ∧ s.dim = none ∨ v ≠ [] ∧ s'.dim = some v.length := by
  induction rs generalizing s rs' with
  | nil =>
      cases h
      cases hr
  | cons first rs ih =>
      obtain ⟨⟨s₁, r₁⟩, h₁, h⟩ := bind_eq_ok.mp h
      obtain ⟨⟨s₂, rs₂⟩, h₂, h⟩ := bind_eq_ok.mp h
      cases h
      rcases List.mem_cons.mp hr with rfl | hr
      · exact (absorbRecord_vector h₁ hv).imp_right fun hfixed =>
          ⟨hfixed.1, (absorb_extends h₂).dim _ hfixed.2⟩
      · refine (ih h₂ hr).imp_left fun hnone => ⟨hnone.1, ?_⟩
        cases hd : s.dim with
        | none => rfl
        | some d => cases hnone.2.symm.trans ((absorbRecord_extends h₁).dim d hd)

/-- A batch without a vector leaves the dimension alone. -/
theorem absorb_dim_eq {rs rs' : List Record} (h : s.absorb rs = .ok (s', rs'))
    (hbare : ∀ r ∈ rs', ∀ v ∈ r.vector?, v = []) : s'.dim = s.dim := by
  induction rs generalizing s rs' with
  | nil =>
      cases h
      rfl
  | cons first rs ih =>
      obtain ⟨⟨s₁, r₁⟩, h₁, h⟩ := bind_eq_ok.mp h
      obtain ⟨⟨s₂, rs₂⟩, h₂, h⟩ := bind_eq_ok.mp h
      cases h
      obtain ⟨hfirst, hrest⟩ := List.forall_mem_cons.mp hbare
      rw [ih h₂ hrest]
      obtain heq | ⟨doc, rfl, hne, -⟩ := absorbRecord_dim h₁
      · exact heq
      · exact absurd (hfirst _ (absorbRecord_vector? h₁)) hne

end Schema

/-- A batch brings a vector. -/
def BringsVector (batch : List Record) : Prop := ∃ r ∈ batch, ∃ v ∈ r.vector?, v ≠ []

/-- A batch without a vector leaves the dimension alone. -/
theorem prepareRecords_dim [Crates] {records batch : List Record} {config : WriteConfig} {m : Manifest}
    {schema : Schema} (h : prepareRecords records config m = .ok (schema, batch)) (hbare : ¬ BringsVector batch) :
    schema.dim = m.schema.dim := by
  have hconfigured : schema.dim = (m.schema.configured config).dim :=
    Schema.absorb_dim_eq (prepareRecords_eq_ok h).1 fun r hr v hv =>
      of_not_not fun hne => hbare ⟨r, hr, v, hv, hne⟩
  exact hconfigured

/-- **The vectors of a batch that is accepted** have the dimension that is then set, if all documents of the
batch that brings the first have one. -/
theorem prepareRecords_vectors [Crates] {records batch : List Record} {config : WriteConfig} {m : Manifest}
    {schema : Schema} (h : prepareRecords records config m = .ok (schema, batch))
    (hfull : m.schema.dim = none → BringsVector batch → ∀ r ∈ batch, ∀ v ∈ r.vector?, v ≠ []) :
    ∀ r ∈ batch, ∀ v ∈ r.vector?, v.length = schema.dim.getD 0 := by
  intro r hr v hv
  rcases Schema.absorb_vector (prepareRecords_eq_ok h).1 hr hv with ⟨rfl, hnone⟩ | ⟨-, hdim⟩
  · have hbare : ¬ BringsVector batch := fun hbrings => hfull hnone hbrings r hr [] hv rfl
    have hdim : schema.dim = none := (prepareRecords_dim h hbare).trans hnone
    rw [hdim]
    rfl
  · rw [hdim]
    rfl

/-- Documents have the vectors of records. -/
theorem exists_vector_of_mem_materialize {rs : List Record} {d : Doc} (h : d ∈ (materialize rs).values) :
    ∃ r ∈ rs, r.vector? = some d.vector := by
  have hreplay (live : Live) (seen : List Record) (hlive : ∀ id d, live.get id = some d →
      ∃ r ∈ seen, r.vector? = some d.vector) : ∀ id d, (replay apply live rs).get id = some d →
      ∃ r ∈ seen ++ rs, r.vector? = some d.vector := by
    clear h
    induction rs generalizing live seen with
    | nil => rwa [List.append_nil]
    | cons r rs ih =>
        rw [replay_cons, List.append_cons]
        refine ih _ _ fun id d hd => ?_
        rw [get_apply] at hd
        have hold {d : Doc} (hd : live.get id = some d) : ∃ r' ∈ seen ++ [r], r'.vector? = some d.vector := by
          obtain ⟨r', hr', hv⟩ := hlive id d hd
          exact ⟨r', List.mem_append_left _ hr', hv⟩
        split_ifs at hd with hid
        · cases r with
          | upsert doc =>
              obtain rfl := Option.some.inj hd
              exact ⟨_, List.mem_append_right _ (List.mem_singleton_self _), rfl⟩
          | patch i attrs =>
              -- a patch leaves the vector
              obtain ⟨doc, hdoc, rfl⟩ := Option.map_eq_some_iff.mp hd
              obtain ⟨r', hr', hv⟩ := hold hdoc
              exact ⟨r', hr', hv⟩
          | delete i => cases hd
        · exact hold hd
  obtain ⟨id, hid⟩ := SortedMap.mem_values_iff.mp h
  exact hreplay .empty [] nofun id d hid

/-! ## Vectors of manifests -/

/-- The objects that a manifest reads hold records, and all their vectors meet `Q`. -/
def Store.Vectors (s : Store) (m : Manifest) (Q : List F32 → Prop) : Prop :=
  ∀ name ∈ m.recordObjects, ∃ rs, s.HasRecords name rs ∧ ∀ r ∈ rs, ∀ v ∈ r.vector?, Q v

namespace Store.Vectors

variable {s s' : Store} {m : Manifest} {Q Q' : List F32 → Prop}

theorem init (s : Store) (Q : List F32 → Prop) : s.Vectors {} Q := nofun

theorem mono (h : s.Vectors m Q) (hQ : ∀ v, Q v → Q' v) : s.Vectors m Q' := by
  intro name hname
  obtain ⟨rs, hrs, hvs⟩ := h name hname
  exact ⟨rs, hrs, fun r hr v hv => hQ v (hvs r hr v hv)⟩

theorem grows {who : Nat → Prop} (h : s.Vectors m Q) (hg : Grows who s s') : s'.Vectors m Q := by
  intro name hname
  obtain ⟨rs, hrs, hvs⟩ := h name hname
  exact ⟨rs, hg.hasRecords hrs, hvs⟩

/-- What a full read finds. -/
theorem reads (h : s.Vectors m Q) : ∃ rs, s.Reads m.recordObjects rs :=
  Store.reads_of_forall fun name hname => by
    obtain ⟨rs, hrs, -⟩ := h name hname
    exact ⟨rs, hrs⟩

/-- The documents that a manifest stands for. -/
theorem documents (h : s.Vectors m Q) {rs : List Record} (hreads : s.Reads m.recordObjects rs) {d : Doc}
    (hd : d ∈ (materialize rs).values) : Q d.vector := by
  obtain ⟨r, hr, hv⟩ := exists_vector_of_mem_materialize hd
  obtain ⟨rss, hrss, rfl⟩ := hreads
  obtain ⟨found, hfound, hr⟩ := List.mem_flatten.mp hr
  obtain ⟨n, hn, rfl⟩ := List.mem_iff_getElem.mp hfound
  have hlen := hrss.length_eq
  obtain ⟨rs, hrs, hvs⟩ := h _ (List.getElem_mem (hlen ▸ hn))
  obtain rfl := hrs.unique (hrss.get (hlen ▸ hn) hn)
  exact hvs r hr _ hv

theorem push (h : s.Vectors m Q) {schema : Schema} {wal : WalName} {batch : List Record} {now : Nat}
    (hbatch : ∀ r ∈ batch, ∀ v ∈ r.vector?, Q v) (hstored : s.HasRecords (.wal wal) batch) :
    s.Vectors (m.push schema wal batch now) Q := by
  intro name hname
  rw [Manifest.recordObjects, Manifest.allSegments, Manifest.push_shards, Manifest.push_wal, List.map_append,
    ← List.append_assoc] at hname
  rcases List.mem_append.mp hname with hold | hnew
  · exact h name hold
  · obtain rfl := List.mem_singleton.mp hnew
    exact ⟨batch, hstored, hbatch⟩

/-- The segments of new shards hold their documents. -/
theorem built [Crates] {t : Nat} {schema : Schema} {buildIndex : Bool} {dss : List (List Doc)}
    {shards : List Shard} (hdocs : ∀ ds ∈ dss, ∀ d ∈ ds, Q d.vector)
    (h : List.Forall₂ (fun docs shard => ShardBuilt s t schema docs buildIndex shard) dss shards)
    {name : ObjectName} (hname : name ∈ (shards.flatMap (·.segments)).map fun e => .data e.name) :
    ∃ rs, s.HasRecords name rs ∧ ∀ r ∈ rs, ∀ v ∈ r.vector?, Q v := by
  induction h with
  | nil => cases hname
  | cons hb _ ih =>
      obtain ⟨hfirst, hrest⟩ := List.forall_mem_cons.mp hdocs
      rw [List.flatMap_cons, List.map_append] at hname
      rcases List.mem_append.mp hname with hmem | hmem
      · obtain ⟨rfl, rfl⟩ | ⟨seg, hw, hseg⟩ := hb.segment
        · cases hmem
        · rw [hseg] at hmem
          obtain rfl := List.mem_singleton.mp hmem
          refine ⟨_, hw.hasRecords, fun r hr v hv => ?_⟩
          obtain ⟨d, hd, rfl⟩ := List.mem_map.mp hr
          obtain rfl := Option.some.inj hv
          exact hfirst d hd
      · exact ih hrest hmem

theorem install [Crates] (h : s.Vectors m Q) {t : Nat} {schema : Schema} {buildIndex : Bool}
    {dss : List (List Doc)} {shards : List Shard} {consumed : List WalName} {now : Nat}
    (hdocs : ∀ ds ∈ dss, ∀ d ∈ ds, Q d.vector)
    (hbuilt : List.Forall₂ (fun docs shard => ShardBuilt s t schema docs buildIndex shard) dss shards) :
    s.Vectors (m.install consumed shards now) Q := by
  intro name hname
  rw [Manifest.recordObjects, Manifest.allSegments, Manifest.install_shards, Manifest.install_wal] at hname
  rcases List.mem_append.mp hname with hseg | hwal
  · exact built hdocs hbuilt hseg
  · exact h name (List.mem_append_right _ (List.map_subset _ List.filter_sublist.subset hwal))

end Store.Vectors

/-! ## The invariant -/

/-- A version commits a document. -/
def Version.Upserts (v : Version) : Prop :=
  match v.reason with
  | .commit batch => ∃ r ∈ batch, r.vector?.isSome = true
  | .compaction _ _ => False

/-- Some version commits a document. -/
def Store.Upserted (s : Store) : Prop := ∃ v ∈ s.versions, v.Upserts

/-- A batch may be committed: if it brings the first vector, it brings one for each of its documents, and no
document was committed before. -/
def Store.Admissible (s : Store) (batch : List Record) : Prop :=
  s.manifest.schema.dim = none → BringsVector batch →
    (∀ r ∈ batch, ∀ v ∈ r.vector?, v ≠ []) ∧ ¬ s.Upserted

/-- The dimension of a schema; 0 if there is none. -/
def Schema.dimension (schema : Schema) : Nat := schema.dim.getD 0

/-- The vectors of every manifest have the dimension of all later manifests. -/
structure DimInv (s : Store) : Prop where
  dropped : s.dropped = 0
  lengths : ∀ i j, i ≤ j → s.Vectors (s.after i) (·.length = (s.after j).schema.dimension)
  brought : ∀ i, s.Vectors (s.after i) fun _ => s.Upserted

namespace DimInv

variable {s s' : Store}

theorem init : DimInv {} where
  dropped := rfl
  lengths i j _ := by
    rw [Store.after, List.take_nil]
    exact .init _ _
  brought i := by
    rw [Store.after, List.take_nil]
    exact .init _ _

theorem manifest_eq (h : DimInv s) : s.manifest = s.after s.versions.length := by
  rw [Store.manifest, h.dropped, List.drop_zero, Store.after_length]

theorem grows {who : Nat → Prop} (h : DimInv s) (hg : Grows who s s') (hv : s'.versions = s.versions)
    (hdrop : s'.dropped = s.dropped) : DimInv s' := by
  have hafter (n : Nat) : s'.after n = s.after n := by rw [Store.after, hv, Store.after]
  refine ⟨hdrop.trans h.dropped, fun i j hij => ?_, fun i => ?_⟩
  · rw [hafter, hafter]
    exact (h.lengths i j hij).grows hg
  · rw [hafter, Store.Upserted, hv]
    exact (h.brought i).grows hg

/-- **One more version**: the vectors of the old manifests have the dimension of the new one. -/
theorem push {who : Nat → Prop} {v : Version} (h : DimInv s) (hg : Grows who s (s.push v))
    (hold : ∀ i, i ≤ s.versions.length → s.Vectors (s.after i) (·.length = v.manifest.schema.dimension))
    (hnew : s.Vectors v.manifest (·.length = v.manifest.schema.dimension))
    (hbrought : s.Vectors v.manifest fun _ => (s.push v).Upserted) : DimInv (s.push v) := by
  refine ⟨h.dropped, fun i j hij => ?_, fun i => ?_⟩
  · rw [Store.after_push, Store.after_push]
    split_ifs with hi hj hj
    · exact (h.lengths i j hij).grows hg
    · exact (hold i hi).grows hg
    · omega
    · exact hnew.grows hg
  · rw [Store.after_push]
    split_ifs
    · refine ((h.brought i).grows hg).mono fun _ => ?_
      rintro ⟨w, hw, hups⟩
      exact ⟨w, List.mem_append_left _ hw, hups⟩
    · exact hbrought.grows hg

variable [Crates]

/-- **A commit** that may be made. -/
theorem commit {t : Nat} (h : DimInv s) {records batch : List Record} {config : WriteConfig} {schema : Schema}
    {uuid now : Nat} (prepared : prepareRecords records config s.manifest = .ok (schema, batch))
    (stored : s.Wrote t (.wal ⟨s.manifest.nextSeq, uuid⟩) (.records batch)) (hadmissible : s.Admissible batch)
    (hg : Grows (· = t) s (s.push ⟨s.manifest.push schema ⟨s.manifest.nextSeq, uuid⟩ batch now, t,
      .commit batch, s.clock⟩)) :
    DimInv (s.push ⟨s.manifest.push schema ⟨s.manifest.nextSeq, uuid⟩ batch now, t, .commit batch,
      s.clock⟩) := by
  have hman := h.manifest_eq
  -- the old vectors have the dimension that is now set, or there are none
  have hold : ∀ i, i ≤ s.versions.length → s.Vectors (s.after i) (·.length = schema.dimension) := by
    intro i hi
    by_cases hfirst : s.manifest.schema.dim = none ∧ BringsVector batch
    · have hnone := (hadmissible hfirst.1 hfirst.2).2
      exact (h.brought i).mono fun _ hups => absurd hups hnone
    · have hsame : schema.dim = s.manifest.schema.dim := by
        cases hd : s.manifest.schema.dim with
        | some d =>
            have hextends := (Schema.absorb_extends (prepareRecords_eq_ok prepared).1).dim d hd
            exact hextends
        | none => exact (prepareRecords_dim prepared fun hbrings => hfirst ⟨hd, hbrings⟩).trans hd
      rw [Schema.dimension, hsame, hman]
      exact h.lengths i _ hi
  refine h.push hg (fun i hi => ?_) ?_ ?_
  · rw [Manifest.push_schema]
    exact hold i hi
  · rw [Manifest.push_schema]
    have hcurrent := hold s.versions.length (Nat.le_refl _)
    rw [← hman] at hcurrent
    exact hcurrent.push (prepareRecords_vectors prepared fun hnone hbrings => (hadmissible hnone hbrings).1)
      stored.hasRecords
  · have hcurrent := h.brought s.versions.length
    rw [← hman] at hcurrent
    refine Store.Vectors.push (hcurrent.mono fun _ hups => ?_) (fun r hr v hv => ?_) stored.hasRecords
    · obtain ⟨w, hw, hups⟩ := hups
      exact ⟨w, List.mem_append_left _ hw, hups⟩
    · exact ⟨_, List.mem_append_right _ (List.mem_singleton_self _), r, hr, Option.isSome_of_mem hv⟩

/-- **An install** of what was read from an earlier manifest. -/
theorem install {t : Nat} (h : DimInv s) {buildIndex : Bool} {read : Option Nat} {base : Option Nat}
    {m : Manifest} {records : List Record} {shards : List Shard} {now : Nat}
    (known : seen read ≤ s.versions.length)
    (documents : s.Reads (s.manifestAt read).recordObjects records)
    (built : List.Forall₂ (fun docs shard => ShardBuilt s t m.schema docs buildIndex shard)
      (buckets (materialize records).values m.schema.shards) shards)
    (hg : Grows (· = t) s (s.push ⟨s.manifest.install (m.wal.map (·.name)) shards now, t,
      .compaction base read, s.clock⟩)) :
    DimInv (s.push ⟨s.manifest.install (m.wal.map (·.name)) shards now, t, .compaction base read,
      s.clock⟩) := by
  have hman := h.manifest_eq
  have hinstall {Q : List F32 → Prop} (hread : s.Vectors (s.after (seen read)) Q)
      (hcurrent : s.Vectors s.manifest Q) :
      s.Vectors (s.manifest.install (m.wal.map (·.name)) shards now) Q := by
    refine hcurrent.install (fun ds hds d hd => ?_) built
    obtain ⟨i, -, rfl⟩ := List.mem_map.mp hds
    exact hread.documents documents (List.mem_of_mem_filter hd)
  refine h.push hg (fun i hi => ?_) ?_ ?_
  · rw [Manifest.install_schema, hman]
    exact h.lengths i _ hi
  · rw [Manifest.install_schema]
    refine hinstall ?_ ?_
    · rw [hman]
      exact h.lengths _ _ known
    · rw [hman]
      exact h.lengths _ _ (Nat.le_refl _)
  · refine (hinstall (h.brought _) (hman ▸ h.brought _)).mono fun _ hups => ?_
    obtain ⟨w, hw, hups⟩ := hups
    exact ⟨w, List.mem_append_left _ hw, hups⟩

variable [HashOrder]

omit [HashOrder] in
/-- **A move keeps the dimension**, if every commit may be made. -/
theorem move {ok : Terms} {t : Nat} {call : Call} (h : DimInv s) (hg : Guar ok t call s s')
    (hcommit : ∀ handle batch, call ≠ .commitBatch handle batch) (hdestroy : ∀ handle, call ≠ .destroy handle)
    (hop : ∀ m mode batch, ok.op t s (.putManifest m mode (.commit batch)) → s.admits mode = true →
      s.Admissible batch) : DimInv s' := by
  obtain ⟨hgrows, hmove⟩ := hg
  cases hmove with
  | calm hv _ hdrop _ => exact h.grows hgrows hv hdrop
  | commit prepare schema batch uuid now mode asked prepared stored first allowed admitted result =>
      subst result
      cases call with
      | commitRecords handle records config =>
          cases asked
          exact h.commit prepared stored (hop _ _ _ allowed admitted) hgrows
      | commitBatch handle batch => exact absurd rfl (hcommit handle batch)
      | _ => cases asked
  | install handle buildIndex base read m records shards now mode asked based later known documents
      built distinct same first allowed admitted result =>
      subst result
      exact h.install known documents built hgrows
  | delete _ _ _ _ _ _ _ _ _ _ _ _ _ _ result =>
      subst result
      exact h.grows hgrows rfl rfl
  | drop handle asked => exact absurd asked (hdestroy handle)
  | list _ _ _ _ _ result =>
      subst result
      exact h.grows hgrows rfl rfl
  | wipe _ _ _ _ result =>
      subst result
      exact h.grows hgrows rfl rfl

end DimInv

/-! ## Runs -/

/-- Runs of `commit_records`, `compact`, `gc` and queries in which the first vector of the namespace comes with
or before every document. -/
def vectorTerms : Terms where
  call := schemaTerms.call
  op
    | _, s, .putManifest _ mode (.commit batch) => s.admits mode = true → s.Admissible batch
    | _, _, _ => True
  env _ _ := True

/-- **One dimension**: what every manifest of the history stands for can be read, and its documents have vectors
of one length; index builds over them succeed; and a compaction that is alone succeeds if no object that it
reads has been deleted. -/
structure Uniform [Crates] (s : Store) : Prop where
  lengths : ∀ n, ∃ rs k, s.Reads (s.after n).recordObjects rs ∧
    ∀ d ∈ (materialize rs).values, d.vector.length = k
  builds : ∀ n rs, s.Reads (s.after n).recordObjects rs → ∀ count params,
    ∀ docs ∈ buckets (materialize rs).values count, docs ≠ [] → ∃ x, ivfBuild docs params = .ok x
  compacts : (∀ name ∈ s.manifest.recordObjects, name ∉ s.deleted) → ∀ t handle,
    ∃ s' resp, Runs t (compact handle true) s s' (.ok resp)

section Runs

/-- What the invariant says about documents. -/
theorem DimInv.documents {s : Store} (h : DimInv s) {n : Nat} {rs : List Record}
    (hreads : s.Reads (s.after n).recordObjects rs) {d : Doc} (hd : d ∈ (materialize rs).values) :
    d.vector.length = (s.after n).schema.dimension :=
  (h.lengths n n (Nat.le_refl n)).documents hreads hd

variable [Crates]

/-- It makes index builds succeed. -/
theorem DimInv.builds {s : Store} (h : DimInv s) {n : Nat} {rs : List Record}
    (hreads : s.Reads (s.after n).recordObjects rs) (params : IvfParams) {count : Nat} {docs : List Doc}
    (hdocs : docs ∈ buckets (materialize rs).values count) (hne : docs ≠ []) :
    ∃ x, ivfBuild docs params = .ok x := by
  refine ivfBuild_isOk params hne fun d hd => h.documents hreads ?_
  obtain ⟨i, -, rfl⟩ := List.mem_map.mp hdocs
  exact List.mem_of_mem_filter hd

theorem DimInv.builds_all {s : Store} (h : DimInv s) (hs : s.Sound) : Uniform s := by
  refine ⟨fun n => ?_, fun n rs hreads count params docs hdocs hne => h.builds hreads params hdocs hne,
    fun hkept t handle => ?_⟩
  · obtain ⟨rs, hrs⟩ := (h.lengths n n (Nat.le_refl n)).reads
    exact ⟨rs, _, hrs, fun d hd => h.documents hrs hd⟩
  · cases hdue : s.manifest.compacted true with
    | true =>
        obtain ⟨resp, hrun⟩ := Runs.exists_compact_finished t handle hdue
        exact ⟨_, resp, hrun⟩
    | false =>
        have hman := h.manifest_eq
        obtain ⟨rs, hrs⟩ := (h.lengths s.versions.length _ (Nat.le_refl _)).reads
        have hbuilds : ∀ docs ∈ buckets (materialize rs).values s.manifest.schema.shards, docs ≠ [] →
            ∃ x, ivfBuild docs ((IvfParams.forDocs docs.length).withMetric
              s.manifest.schema.distanceMetric) = .ok x :=
          fun docs hdocs hne => h.builds hrs _ hdocs hne
        rw [← hman] at hrs
        exact Runs.compact_ok t handle hs hrs hkept hdue fun docs hdocs hne _ => hbuilds docs hdocs hne

variable [HashOrder]

theorem Reaches.dimInv {p : Namespace} (h : Reaches vectorTerms p) : DimInv p.shared := by
  refine h.store_invariant .init (fun t call s s' hcall hg hs => ?_) fun s nanos hs => ?_
  · refine hs.move hg (fun handle batch heq => ?_) (fun handle heq => ?_) fun _ _ _ hop hadm => hop hadm
    · rw [heq] at hcall
      exact hcall
    · rw [heq] at hcall
      exact hcall
  · exact hs.grows (tick_rely rfl 0) rfl rfl

/-- **Every namespace has one dimension**, in every interleaving in which the first vector comes with or before
every document. -/
theorem Reaches.uniform {p : Namespace} (h : Reaches vectorTerms p) : Uniform p.shared :=
  h.dimInv.builds_all h.sound

end Runs

instance (v : Version) : Decidable v.Upserts :=
  match h : v.reason with
  | .commit batch => decidable_of_iff (∃ r ∈ batch, r.vector?.isSome = true) (by rw [Version.Upserts, h])
  | .compaction _ _ => isFalse (by rw [Version.Upserts, h]; exact id)

instance (s : Store) : Decidable s.Upserted := inferInstanceAs (Decidable (∃ v ∈ s.versions, v.Upserts))

instance (batch : List Record) : Decidable (BringsVector batch) :=
  inferInstanceAs (Decidable (∃ r ∈ batch, ∃ v ∈ r.vector?, v ≠ []))

instance (s : Store) (batch : List Record) : Decidable (s.Admissible batch) :=
  inferInstanceAs (Decidable (_ → _ → _ ∧ _))

instance (call : Call) : Decidable (vectorTerms.call call) := inferInstanceAs (Decidable (schemaTerms.call call))

instance (t : Nat) (s : Store) : (r : Request) → Decidable (vectorTerms.op t s r)
  | .putManifest _ mode (.commit batch) =>
    inferInstanceAs (Decidable (s.admits mode = true → s.Admissible batch))
  | .putManifest _ _ (.compaction _ _) => isTrue trivial
  | .getManifest | .putNew _ _ | .get _ | .delete _ | .list _ | .next _ | .deleteManifest | .listAll
  | .nextAny | .now _ | .view _ | .remember _ _ _ | .forget _ | .choose => isTrue trivial

instance (s : Store) (nanos : Nat) : Decidable (vectorTerms.env s nanos) := isTrue trivial

/-- A document is written and compacted while another one is written, and then one more. -/
def measuredRun : List Act :=
  .spawn (.commitRecords 0 [.upsert (.flat 1)] {}) :: goes 0 6 ++
    .spawn (.compact 0 false) :: goes 1 5 ++
    .spawn (.commitRecords 0 [.upsert (.flat 2), .delete (.uint 1)] {}) :: goes 2 5 ++ goes 1 6 ++
    .spawn (.commitRecords 1 [.upsert (.flat 3)] {}) :: goes 3 6

theorem measuredRun_uniform :
    let _ := Crates.inert
    let _ := HashOrder.sorted
    ∃ p, execute service.step ⟨{}, []⟩ measuredRun = some p ∧ p.shared.versions.map (·.thread) = [0, 2, 1, 3] ∧
      p.shared.manifest.schema.dim = some 1 ∧ Uniform p.shared := by
  intro _ _
  have hrun : (execute service.step ⟨{}, []⟩ measuredRun).any
      (fun p => p.shared.versions.map (·.thread) = [0, 2, 1, 3] ∧
        p.shared.manifest.schema.dim = some 1) = true := by
    decide +kernel
  obtain ⟨p, hp, hfound⟩ := (Option.any_eq_true _ _).mp hrun
  have hallowed : Allowed service.step (fun p a => vectorTerms.Meets p a) ⟨{}, []⟩ measuredRun := by
    decide +kernel
  obtain ⟨hthreads, hdim⟩ := of_decide_eq_true hfound
  exact ⟨p, hp, hthreads, hdim, Reaches.uniform (Reachable.init.execute hallowed hp)⟩

/-! ## A column with a gap -/

/-- The records that some write request expands to. -/
def Requested [Crates] [SerdeJson] (records : List Record) : Prop :=
  ∃ (body : WriteRequest) (deletes : List Id × Bool) (patches : List Record × Bool) (plan : Plan),
    body.plan deletes patches = .ok plan ∧ plan.records = records

/-- Runs of write requests, `compact`, `gc` and queries. -/
def requestTerms [Crates] [SerdeJson] : Terms where
  call
    | .commitRecords _ records _ => Requested records
    | call => schemaTerms.call call
  op _ _ _ := True
  env _ _ := True

/-- Two documents in columns; the vector of the first one is empty. -/
def gappedColumns : Columns := .ofList [
  ("id", [.number (.posInt 1), .number (.posInt 2)]),
  ("vector", [.array [], .array [.number (.posInt 1)]])]

/-- The records of these columns. -/
def gappedRecords : List Record :=
  [.upsert ⟨.uint 1, [], .empty⟩, .upsert ⟨.uint 2, [⟨0x3F800000⟩], .empty⟩]

/-- They are written to a namespace that is new. -/
def gappedRun : List Act := .spawn (.commitRecords 0 gappedRecords {}) :: goes 0 6

/-- **The documents of an accepted write can differ in the lengths of their vectors**. -/
theorem gapped_not_uniform :
    let _ := Crates.inert
    let _ := HashOrder.sorted
    let _ := SerdeJson.exact
    ¬ ∀ p, Reaches requestTerms p → Uniform p.shared := by
  intro _ _ _ h
  have hplan : WriteRequest.plan { upsertColumns := some gappedColumns } ([], false) ([], false) =
      .ok ⟨gappedRecords, 2, 0, 0, false⟩ := rfl
  have hrun : ∃ p, execute service.step ⟨{}, []⟩ gappedRun = some p ∧
      p.shared.Reads (p.shared.after 1).recordObjects gappedRecords :=
    ⟨_, rfl, [_], .cons ⟨_, rfl, rfl⟩ .nil, rfl⟩
  obtain ⟨p, hp, hreads⟩ := hrun
  have hallowed : Allowed service.step (fun p a => requestTerms.Meets p a) ⟨{}, []⟩ gappedRun := by
    refine Allowed.of_mem (fun a ha p => ?_) _
    rcases List.mem_cons.mp ha with rfl | ha
    · exact ⟨_, _, _, _, hplan, rfl⟩
    · obtain rfl := List.eq_of_mem_replicate ha
      exact fun _ _ _ _ _ => trivial
  obtain ⟨rs, k, hrs, hlengths⟩ := (h p (Reachable.init.execute hallowed hp)).lengths 1
  obtain rfl := hrs.unique hreads
  have hvectors : (materialize gappedRecords).values.map (·.vector.length) = [0, 1] := by decide +kernel
  have hall : ∀ n ∈ [0, 1], n = k := by
    rw [← hvectors]
    exact List.forall_mem_map.mpr hlengths
  exact absurd ((hall 0 (by decide)).trans (hall 1 (by decide)).symm) Nat.zero_ne_one

end Fckdb
