import Fckdb.Committer
import Fckdb.Placement

/-! # What the manifest references

Every object that the current manifest references was written before the manifest was, in every
interleaving (`Reaches.grounded`). Whether it is still there is another matter: a collection and a destroy
delete objects. -/

namespace Fckdb

/-! ## Manifests -/

namespace Manifest

/-- A manifest references its WAL entries and the objects of its shards. -/
theorem mem_referenced {m : Manifest} {name : ObjectName} :
    name ∈ m.referenced ↔ name ∈ m.walObjects ∨ ∃ shard ∈ m.shards, name ∈ shard.objects := by
  simp only [referenced, walObjects, allSegments, allIndexes, Shard.objects, List.mem_append,
    List.map_flatMap, List.mem_flatMap, List.mem_filterMap, Option.mem_toList, or_assoc]
  refine or_congr_right ⟨?_, ?_⟩
  · rintro (⟨shard, hshard, hname⟩ | ⟨i, ⟨shard, hshard, hi⟩, hname⟩)
    · exact ⟨shard, hshard, .inl hname⟩
    · exact ⟨shard, hshard, .inr ⟨i, hi, hname⟩⟩
  · rintro ⟨shard, hshard, hname | ⟨i, hi, hname⟩⟩
    · exact .inl ⟨shard, hshard, hname⟩
    · exact .inr ⟨i, ⟨shard, hshard, hi⟩, hname⟩

theorem recordObjects_subset (m : Manifest) : m.recordObjects ⊆ m.referenced := by
  intro name hname
  rw [referenced, List.append_assoc]
  rcases List.mem_append.mp hname with hseg | hwal
  · exact List.mem_append_right _ (List.mem_append_left _ hseg)
  · exact List.mem_append_left _ hwal

/-- A commit references one object more. -/
theorem mem_referenced_push {m : Manifest} {schema : Schema} {wal : WalName} {batch : List Record}
    {now : Nat} {name : ObjectName} (h : name ∈ (m.push schema wal batch now).referenced) :
    name ∈ m.referenced ∨ name = .wal wal := by
  rcases mem_referenced.mp h with hwal | hshard
  · rw [walObjects, push_wal, List.map_append] at hwal
    rcases List.mem_append.mp hwal with hwal | hwal
    · exact .inl (mem_referenced.mpr (.inl hwal))
    · exact .inr (List.mem_singleton.mp hwal)
  · exact .inl (mem_referenced.mpr (.inr hshard))

/-- An install references entries of the WAL, and the objects of the new shards. -/
theorem mem_referenced_install [Crates] {m : Manifest} {consumed : List WalName} {shards : List Shard}
    {now : Nat} {name : ObjectName} (h : name ∈ (m.install consumed shards now).referenced) :
    name ∈ m.walObjects ∨ ∃ shard ∈ shards, name ∈ shard.objects := by
  rcases mem_referenced.mp h with hwal | hshard
  · refine .inl ?_
    rw [walObjects, install_wal] at hwal
    exact List.map_subset _ (List.filter_sublist).subset hwal
  · exact .inr hshard

end Manifest

/-! ## The current manifest -/

/-- What is written next is current. -/
theorem Store.push_manifest {s : Store} (h : s.dropped ≤ s.versions.length) (v : Version) :
    (s.push v).manifest = v.manifest := by
  rw [manifest, push, List.drop_append_of_le_length h, lastManifest_append]

section Runs

variable [Crates] [HashOrder] {ok : Terms} {p : Namespace} {J : Store → Manifest → Prop}

omit [Crates] [HashOrder] in
/-- What holds of the default manifest and of some versions' manifests holds of the last one's. -/
theorem forall_lastManifest {P : Manifest → Prop} (hinit : P {}) {vs : List Version}
    (h : ∀ v ∈ vs, P v.manifest) : P (lastManifest vs) := by
  rw [lastManifest]
  cases hlast : vs.getLast? with
  | none => exact hinit
  | some v => exact h v (List.mem_of_getLast? hlast)

/-- **A fact about manifests** that is kept as the store grows, by every commit and by every install, holds
of every version in every interleaving. -/
theorem Reaches.version_invariant (h : Reaches ok p) (hinit : ∀ s, J s {})
    (hgrows : ∀ who s s' m, J s m → Grows who s s' → J s' m)
    (hcommit : ∀ (s : Store) (t : Nat) (call : Call) (prepare : Manifest → Except Error (Schema × List Record))
      (schema : Schema) (batch : List Record) (uuid now : Nat), J s s.manifest →
      call.prepare = some prepare → prepare s.manifest = .ok (schema, batch) →
      s.Wrote t (.wal ⟨s.manifest.nextSeq, uuid⟩) (.records batch) →
      J s (s.manifest.push schema ⟨s.manifest.nextSeq, uuid⟩ batch now))
    (hinstall : ∀ (s : Store) (t : Nat) (buildIndex : Bool) (m : Manifest) (records : List Record)
      (shards : List Shard) (now : Nat), J s s.manifest →
      List.Forall₂ (fun docs shard => ShardBuilt s t m.schema docs buildIndex shard)
        (buckets (materialize records).values m.schema.shards) shards →
      (shards.flatMap Shard.objects).Nodup →
      J s (s.manifest.install (m.wal.map (·.name)) shards now)) : ∀ v ∈ p.shared.versions, J p.shared v.manifest := by
  refine (h.store_invariant (J := fun s => s.Sound ∧ ∀ v ∈ s.versions, J s v.manifest)
    ⟨⟨nofun, Nat.le_refl _⟩, List.forall_mem_nil _⟩ (fun t call s s' _ hg hs => ?_) fun s nanos hs => ?_).2
  · refine ⟨hg.1.sound hs.1, ?_⟩
    have ⟨hgrown, hmove⟩ := hg
    have hkept : ∀ v ∈ s.versions, J s' v.manifest := fun v hv => hgrows _ _ _ _ (hs.2 v hv) hgrown
    have hcurrent : J s s.manifest :=
      forall_lastManifest (hinit s) fun v hv => hs.2 v (List.mem_of_mem_drop hv)
    -- one version more
    have hpush : ∀ v : Version, s' = s.push v → J s v.manifest → ∀ v ∈ s'.versions, J s' v.manifest := by
      rintro v rfl hnew v' hv'
      rcases List.mem_append.mp hv' with hold | hlast
      · exact hkept v' hold
      · rw [List.mem_singleton.mp hlast]
        exact hgrows _ _ _ _ hnew hgrown
    cases hmove with
    | calm hv hdel hdrop _ => rwa [hv]
    | commit prepare schema batch uuid now mode asked prepared stored first allowed admitted result =>
        exact hpush _ result (hcommit _ t call _ _ _ _ _ hcurrent asked prepared stored)
    | install handle buildIndex base read m records shards now mode asked based later known documents
        built distinct same first allowed admitted result =>
        exact hpush _ result (hinstall _ t buildIndex m records _ _ hcurrent built distinct)
    | delete _ _ _ _ _ _ _ _ _ _ _ _ _ _ result => subst result; exact hkept
    | drop _ _ _ result => subst result; exact hkept
    | list _ _ _ _ _ result => subst result; exact hkept
    | wipe _ _ _ _ result => subst result; exact hkept
  · exact ⟨(tick_rely rfl 0).sound hs.1, fun v hv => hgrows _ _ _ _ (hs.2 v hv) (tick_rely rfl 0)⟩

/-- It holds of the current manifest. -/
theorem Reaches.manifest_invariant (h : Reaches ok p) (hinit : ∀ s, J s {})
    (hgrows : ∀ who s s' m, J s m → Grows who s s' → J s' m)
    (hcommit : ∀ (s : Store) (t : Nat) (call : Call) (prepare : Manifest → Except Error (Schema × List Record))
      (schema : Schema) (batch : List Record) (uuid now : Nat), J s s.manifest →
      call.prepare = some prepare → prepare s.manifest = .ok (schema, batch) →
      s.Wrote t (.wal ⟨s.manifest.nextSeq, uuid⟩) (.records batch) →
      J s (s.manifest.push schema ⟨s.manifest.nextSeq, uuid⟩ batch now))
    (hinstall : ∀ (s : Store) (t : Nat) (buildIndex : Bool) (m : Manifest) (records : List Record)
      (shards : List Shard) (now : Nat), J s s.manifest →
      List.Forall₂ (fun docs shard => ShardBuilt s t m.schema docs buildIndex shard)
        (buckets (materialize records).values m.schema.shards) shards →
      (shards.flatMap Shard.objects).Nodup →
      J s (s.manifest.install (m.wal.map (·.name)) shards now)) : J p.shared p.shared.manifest :=
  forall_lastManifest (hinit _) fun v hv =>
    h.version_invariant hinit hgrows hcommit hinstall v (List.mem_of_mem_drop hv)

end Runs

/-- Every object that a manifest references was written, and those of a full read hold records. -/
structure Grounded (s : Store) (m : Manifest) : Prop where
  written : ∀ name ∈ m.referenced, ∃ put, s.written name = some put
  records : ∀ name ∈ m.recordObjects, ∃ rs, s.HasRecords name rs

namespace Grounded

variable {s s' : Store} {m : Manifest}

theorem init (s : Store) : Grounded s {} := ⟨List.forall_mem_nil _, List.forall_mem_nil _⟩

theorem grows {who : Nat → Prop} (h : Grounded s m) (hg : Grows who s s') : Grounded s' m where
  written name hname := by
    obtain ⟨put, hput⟩ := h.written name hname
    exact ⟨put, hg.written hput⟩
  records name hname := by
    obtain ⟨rs, hrs⟩ := h.records name hname
    exact ⟨rs, hg.hasRecords hrs⟩

/-- A full read finds records everywhere. -/
theorem reads (h : Grounded s m) : ∃ rs, s.Reads m.recordObjects rs :=
  Store.reads_of_forall h.records

theorem push (h : Grounded s m) {schema : Schema} {wal : WalName} {batch : List Record} {now : Nat}
    (hstored : s.HasRecords (.wal wal) batch) : Grounded s (m.push schema wal batch now) where
  written name hname := by
    rcases Manifest.mem_referenced_push hname with hold | rfl
    · exact h.written name hold
    · obtain ⟨put, hput, -⟩ := hstored
      exact ⟨put, hput⟩
  records name hname := by
    rcases List.mem_append.mp hname with hseg | hwal
    · exact h.records name (List.mem_append_left _ hseg)
    · rw [Manifest.push_wal, List.map_append] at hwal
      rcases List.mem_append.mp hwal with hwal | hwal
      · exact h.records name (List.mem_append_right _ hwal)
      · obtain rfl := List.mem_singleton.mp hwal
        exact ⟨batch, hstored⟩

variable [Crates]

theorem install (h : Grounded s m) {t : Nat} {schema : Schema} {buildIndex : Bool}
    {dss : List (List Doc)} {shards : List Shard} {consumed : List WalName} {now : Nat}
    (built : List.Forall₂ (fun docs shard => ShardBuilt s t schema docs buildIndex shard) dss shards) :
    Grounded s (m.install consumed shards now) where
  written name hname := by
    rcases Manifest.mem_referenced_install hname with hwal | ⟨shard, hshard, hobject⟩
    · exact h.written name (Manifest.mem_referenced.mpr (.inl hwal))
    · obtain ⟨n, hn, rfl⟩ := List.mem_iff_getElem.mp hshard
      have hb := built.get (by rw [built.length_eq]; exact hn) hn
      obtain ⟨put, hput, -⟩ := hb.stores hobject
      exact ⟨put, hput⟩
  records name hname := by
    rcases List.mem_append.mp hname with hseg | hwal
    · obtain ⟨rss, hrss, -⟩ := reads_built built
      obtain ⟨n, hn, rfl⟩ := List.mem_iff_getElem.mp hseg
      exact ⟨_, hrss.get hn (by rw [← hrss.length_eq]; exact hn)⟩
    · rw [Manifest.install_wal] at hwal
      exact h.records name (List.mem_append_right _ (List.map_subset _ List.filter_sublist.subset hwal))

end Grounded

section Runs

variable [Crates] [HashOrder] {ok : Terms} {p : Namespace}

/-- **What the current manifest references was written**, in every interleaving. -/
theorem Reaches.grounded (h : Reaches ok p) : Grounded p.shared p.shared.manifest := by
  refine h.manifest_invariant .init (fun _ _ _ _ hm hg => hm.grows hg) ?_ ?_
  · intro s t call prepare schema batch uuid now hm asked prepared stored
    exact hm.push stored.hasRecords
  · intro s t buildIndex m records shards now hm built distinct
    exact hm.install built

end Runs

end Fckdb
