import Fckdb.QuietQuery

/-! # The objects of an index

The index of a shard names one object for its ids and one for each indexed, full-text and sparse
attribute; each holds what was built from the documents of the shard (`IndexBuilt.ids`,
`IndexBuilt.attribute`, `IndexBuilt.fts`, `IndexBuilt.sparse`). -/

namespace Fckdb

variable [Crates] {s : Store} {t : Nat} {schema : Schema} {docs : List Doc} {shard : Shard} {i : IndexMeta}
  {attr : String} {name : DataName}

/-! ## What was written -/

omit [Crates] in
/-- What was written under a name that stands beside a key. -/
theorem hasBlob_of_mem_zip {α : Type*} {key : α → String} {write : α → Write} {l : List α}
    {rest : List Write} {names : List DataName}
    (h : List.Forall₂ (fun w name => s.Wrote t (.data name) w.blob) (l.map write ++ rest) names)
    (hmem : (attr, name) ∈ (l.map key).zip names) :
    ∃ a ∈ l, key a = attr ∧ s.HasBlob (.data name) (write a).blob := by
  induction l generalizing names with
  | nil => cases hmem
  | cons a l ih =>
      cases h with
      | cons hw h =>
          rw [List.map_cons, List.zip_cons_cons, List.mem_cons] at hmem
          rcases hmem with heq | hmem
          · obtain ⟨rfl, rfl⟩ := Prod.mk.inj heq
            obtain ⟨p, hp, hblob, -⟩ := hw
            exact ⟨_, List.mem_cons_self, rfl, p, hp, hblob⟩
          · obtain ⟨a, ha, h⟩ := ih h hmem
            exact ⟨a, List.mem_cons_of_mem _ ha, h⟩

/-- What was written after the ids, `skip` objects further on. -/
theorem written_after_ids {groups : List (List Doc)} {names : List DataName}
    (h : List.Forall₂ (fun (w : Write) name => s.Wrote t (.data name) w.blob)
      (indexWrites docs groups schema) names) (skip : Nat) :
    List.Forall₂ (fun (w : Write) name => s.Wrote t (.data name) w.blob)
      (List.drop skip ((attrIndexes schema.attributes docs).map (fun p => (⟨.att, .attr p.2⟩ : Write)) ++
        (ftsIndexes schema.fts docs).map (fun p => ⟨.fts, .fts p.2⟩) ++
          (sparseIndexes schema.attributes docs).map fun p => ⟨.spx, .sparse p.2⟩))
      (((names.drop groups.length).drop 1).drop skip) := by
  have hdrop := List.forall₂_drop 1 (List.forall₂_drop groups.length h)
  rw [indexWrites, List.append_assoc, List.drop_left' (List.length_map _), List.singleton_append,
    List.drop_one, List.tail_cons] at hdrop
  exact List.forall₂_drop skip hdrop

omit [Crates] in
/-- The keys that were given names. -/
theorem isSome_get_zip {α : Type*} {key : α → String} {write : α → Write} {l : List α}
    {rest : List Write} {names : List DataName}
    (h : List.Forall₂ (fun w name => s.Wrote t (.data name) w.blob) (l.map write ++ rest) names) :
    ((SortedMap.ofList ((l.map key).zip names)).get attr).isSome ↔ attr ∈ l.map key := by
  have hlen := h.length_eq
  rw [List.length_append, List.length_map] at hlen
  rw [SortedMap.isSome_get_ofList, List.map_fst_zip (by rw [List.length_map, ← hlen]; exact Nat.le_add_right _ _)]

/-- What was written for the sparse attributes. -/
theorem written_sparse {groups : List (List Doc)} {names : List DataName}
    (h : List.Forall₂ (fun (w : Write) name => s.Wrote t (.data name) w.blob)
      (indexWrites docs groups schema) names) :
    List.Forall₂ (fun (w : Write) name => s.Wrote t (.data name) w.blob)
      ((sparseIndexes schema.attributes docs).map (fun p => (⟨.spx, .sparse p.2⟩ : Write)) ++ [])
      (((names.drop groups.length).drop 1).drop (((attrIndexes schema.attributes docs).map (·.1)).length +
        ((ftsIndexes schema.fts docs).map (·.1)).length)) := by
  have hafter := written_after_ids h
    (((attrIndexes schema.attributes docs).map (·.1)).length + ((ftsIndexes schema.fts docs).map (·.1)).length)
  rw [List.drop_left' (by simp only [List.length_append, List.length_map])] at hafter
  rwa [List.append_nil]

/-- What was written for the full-text attributes, and after them. -/
theorem written_fts {groups : List (List Doc)} {names : List DataName}
    (h : List.Forall₂ (fun (w : Write) name => s.Wrote t (.data name) w.blob)
      (indexWrites docs groups schema) names) :
    List.Forall₂ (fun (w : Write) name => s.Wrote t (.data name) w.blob)
      ((ftsIndexes schema.fts docs).map (fun p => (⟨.fts, .fts p.2⟩ : Write)) ++
        (sparseIndexes schema.attributes docs).map fun p => ⟨.spx, .sparse p.2⟩)
      (((names.drop groups.length).drop 1).drop ((attrIndexes schema.attributes docs).map (·.1)).length) := by
  have hafter := written_after_ids h ((attrIndexes schema.attributes docs).map (·.1)).length
  rwa [List.append_assoc, List.drop_left' (by simp only [List.length_map])] at hafter

/-- What was written for the indexed attributes, and after them. -/
theorem written_attrs {groups : List (List Doc)} {names : List DataName}
    (h : List.Forall₂ (fun (w : Write) name => s.Wrote t (.data name) w.blob)
      (indexWrites docs groups schema) names) :
    List.Forall₂ (fun (w : Write) name => s.Wrote t (.data name) w.blob)
      ((attrIndexes schema.attributes docs).map (fun p => (⟨.att, .attr p.2⟩ : Write)) ++
        ((ftsIndexes schema.fts docs).map (fun p => (⟨.fts, .fts p.2⟩ : Write)) ++
          (sparseIndexes schema.attributes docs).map fun p => ⟨.spx, .sparse p.2⟩))
      ((names.drop groups.length).drop 1) := by
  have hafter := written_after_ids h 0
  rwa [List.drop_zero, List.drop_zero, List.append_assoc] at hafter

/-! ## What the objects of an index hold -/

/-- **The ids object** holds the ids of the documents. -/
theorem IndexBuilt.ids (h : IndexBuilt s t schema docs i) :
    ∃ name, i.ids = some name ∧ s.HasBlob (.data name) (.ids (docs.map Doc.id)) := by
  obtain ⟨flat, groups, centroids, names, -, -, hnames, rfl⟩ := h
  -- it comes after the clusters
  have hdrop := List.forall₂_drop groups.length hnames
  rw [indexWrites, List.append_assoc, List.drop_left' (List.length_map _), List.singleton_append] at hdrop
  obtain ⟨name, rest, hw, -, hcons⟩ := List.forall₂_cons_left_iff.mp hdrop
  refine ⟨name, ?_, hw.hasBlob⟩
  rw [indexMeta]
  dsimp only
  rw [hcons, List.head?_cons]

/-- **The object of an indexed attribute** holds the index of its values. -/
theorem IndexBuilt.attribute (h : IndexBuilt s t schema docs i) (hattr : i.attributes.get attr = some name) :
    ∃ x, (attr, x) ∈ attrIndexes schema.attributes docs ∧ s.HasBlob (.data name) (.attr x) := by
  obtain ⟨flat, groups, centroids, names, -, -, hnames, rfl⟩ := h
  obtain ⟨p, hp, rfl, hblob⟩ := hasBlob_of_mem_zip (written_attrs hnames)
    (SortedMap.mem_of_get_ofList hattr)
  exact ⟨p.2, hp, hblob⟩

/-- **The object of a sparse attribute** holds the index of its vectors. -/
theorem IndexBuilt.sparse (h : IndexBuilt s t schema docs i) (hattr : i.sparse.get attr = some name) :
    s.HasBlob (.data name) (.sparse (SparseIndex.build (attributeVectors docs attr) docs.length)) := by
  obtain ⟨flat, groups, centroids, names, -, -, hnames, rfl⟩ := h
  obtain ⟨p, hp, rfl, hblob⟩ := hasBlob_of_mem_zip (written_sparse hnames)
    (SortedMap.mem_of_get_ofList hattr)
  obtain ⟨e, -, rfl⟩ := List.mem_map.mp (List.mem_of_mem_filter hp)
  exact hblob

/-- **The object of a full-text attribute** holds the index of its texts. -/
theorem IndexBuilt.fts (h : IndexBuilt s t schema docs i) (hattr : i.fts.get attr = some name) :
    ∃ config, schema.fts.get attr = some config ∧
      s.HasBlob (.data name) (.fts (FtsIndex.build (attributeTexts docs attr) docs.length config)) := by
  obtain ⟨flat, groups, centroids, names, -, -, hnames, rfl⟩ := h
  obtain ⟨p, hp, rfl, hblob⟩ := hasBlob_of_mem_zip (written_fts hnames)
    (SortedMap.mem_of_get_ofList hattr)
  obtain ⟨e, he, rfl⟩ := List.mem_map.mp (List.mem_of_mem_filter hp)
  exact ⟨e.2, SortedMap.get_eq_some_iff.mpr he, hblob⟩

/-- **Which sparse attributes are indexed**: those of which anything is. -/
theorem IndexBuilt.isSome_sparse (h : IndexBuilt s t schema docs i) :
    (i.sparse.get attr).isSome ↔ attr ∈ (sparseIndexes schema.attributes docs).map (·.1) := by
  obtain ⟨flat, groups, centroids, names, -, -, hnames, rfl⟩ := h
  exact isSome_get_zip (written_sparse hnames)

theorem IndexBuilt.isSome_fts (h : IndexBuilt s t schema docs i) :
    (i.fts.get attr).isSome ↔ attr ∈ (ftsIndexes schema.fts docs).map (·.1) := by
  obtain ⟨flat, groups, centroids, names, -, -, hnames, rfl⟩ := h
  exact isSome_get_zip (written_fts hnames)


/-! ## Where they are -/

omit [Crates] in
/-- An object that is there is read. -/
theorem Store.Gives.readHeld {name : ObjectName} {blob : Blob} (h : s.HasBlob name blob)
    (hkept : name ∉ s.deleted) : s.Gives (Fckdb.readBlob name) (.ok blob) := by
  obtain ⟨p, hp, rfl⟩ := h
  exact readBlob (by rw [Store.object, if_neg hkept, hp])

omit [Crates] in
theorem Store.Yields.readHeld {name : ObjectName} {blob : Blob} (h : s.HasBlob name blob)
    (hkept : name ∉ s.deleted) : s.Yields (Fckdb.readBlob name) (.ok blob) :=
  (Gives.readHeld h hkept).yields

omit [Crates] in
/-- The objects of an index are objects of its shard. -/
theorem mem_objects_of_index (hi : shard.index = some i) (hname : name ∈ i.objects) :
    ObjectName.data name ∈ shard.objects := by
  refine List.mem_append_right _ ?_
  rw [hi, Option.toList_some, List.flatMap_singleton]
  exact List.mem_map_of_mem hname

omit [Crates] in
theorem mem_objects_of_sparse (h : i.sparse.get attr = some name) : name ∈ i.objects :=
  List.mem_append_right _ (List.mem_append_right _ (SortedMap.mem_values_iff.mpr ⟨attr, h⟩))

omit [Crates] in
theorem mem_objects_of_fts (h : i.fts.get attr = some name) : name ∈ i.objects :=
  List.mem_append_right _ (List.mem_append_left _ (List.mem_append_right _
    (SortedMap.mem_values_iff.mpr ⟨attr, h⟩)))

omit [Crates] in
theorem mem_objects_of_attr (h : i.attributes.get attr = some name) : name ∈ i.objects :=
  List.mem_append_right _ (List.mem_append_left _ (List.mem_append_left _
    (SortedMap.mem_values_iff.mpr ⟨attr, h⟩)))

omit [Crates] in
theorem mem_objects_of_ids (h : i.ids = some name) : name ∈ i.objects :=
  List.mem_append_left _ (List.mem_append_right _ (Option.mem_toList.mpr h))

end Fckdb
