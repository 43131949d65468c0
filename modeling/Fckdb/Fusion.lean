import Fckdb.Scoring

/-! # Reciprocal rank fusion

Several ranked lists become one: each list gives a row a share that depends on the row's rank alone, and
rows are ordered by what their ids were given. In exact arithmetic the fusion is a function of the ranks
(`isFusion_rrf`), whatever the order of the lists (`scoresOf_perm`). -/

namespace Fckdb

/-- One result row: `id`, `$dist`, and the attributes. -/
structure V2Row (S : Type) where
  id : Id
  dist : Option S
  attrs : Attrs

section Rrf

variable {S : Type} [Score S]

/-- `1.0 / (k + rank as f32 + 1.0)`. -/
def contribution (k : S) (rank : Nat) : S :=
  Scalar.div Scalar.one (Scalar.add (Scalar.add k (Scalar.ofNat rank)) Scalar.one)

/-- What a row, with its rank, makes of the entry of its id. -/
def fuse (k : S) (entry : Option (S × V2Row S)) (p : V2Row S × Nat) : S × V2Row S :=
  match entry with
  | some (score, existing) =>
    (Scalar.add score (contribution k p.2),
      -- keep whichever copy actually carries attributes
      if existing.attrs.entries.isEmpty && !p.1.attrs.entries.isEmpty
      then { existing with attrs := p.1.attrs } else existing)
  | none => (contribution k p.2, p.1)

/-- The rows of all lists with their ranks. -/
def rankedRows (lists : List (List (V2Row S))) : List (V2Row S × Nat) := lists.flatMap List.zipIdx

/-- `rrf`: fuse, sort by score and id, cut. -/
def rrf (lists : List (List (V2Row S))) (k : S) (limit : Nat) : List (V2Row S) :=
  let fused := joinAll (fun p => p.1.id) (fuse k) .empty (rankedRows lists)
  let out := fused.values.insertionSort fun a b =>
    (Score.totalCmp b.1 a.1).then (compare a.2.id b.2.id) ≠ .gt
  -- the fused score replaces the per-list one
  (out.take limit).map fun e => { e.2 with dist := some e.1 }

end Rrf

/-! ## What a fusion is -/

/-- The rank of an id in a list. -/
def rankOf {S : Type} (id : Id) (list : List (V2Row S)) : Option Nat := list.findIdx? (·.id = id)

/-- The ids of a list of rows. -/
def idsOf {S : Type} (list : List (V2Row S)) : List Id := list.map V2Row.id

/-- The score of an id: the sum, over the lists that contain it, of `1 / (k + rank + 1)`. -/
noncomputable def rrfScore (k : ℝ) (lists : List (List (V2Row ℝ))) (id : Id) : ℝ :=
  (lists.filterMap fun list => (rankOf id list).map fun rank : ℕ => 1 / (k + rank + 1)).sum

/-- By score, descending, then by id. -/
def Before (k : ℝ) (lists : List (List (V2Row ℝ))) (i j : Id) : Prop :=
  rrfScore k lists j < rrfScore k lists i ∨ rrfScore k lists i = rrfScore k lists j ∧ i < j

/-- **What a fusion of lists is**, cut to a limit. -/
structure IsFusion (k : ℝ) (lists : List (List (V2Row ℝ))) (limit : Nat) (out : List (V2Row ℝ)) :
    Prop where
  /-- Ids come from the lists. -/
  from_lists : ∀ id ∈ idsOf out, ∃ list ∈ lists, id ∈ idsOf list
  /-- No id twice. -/
  once : (idsOf out).Nodup
  score : ∀ row ∈ out, row.dist = some (rrfScore k lists row.id)
  sorted : (idsOf out).Pairwise (Before k lists)
  /-- What the limit cuts off comes after all that is kept, and is cut off only at the limit. -/
  cut : ∀ list ∈ lists, ∀ id ∈ idsOf list, id ∉ idsOf out →
    out.length = limit ∧ ∀ kept ∈ idsOf out, Before k lists kept id
  within : out.length ≤ limit
  /-- Attributes are those of a list's row, of one that has some if there is one. -/
  attrs : ∀ row ∈ out, ∃ list ∈ lists, ∃ r ∈ list, r.id = row.id ∧ row.attrs = r.attrs ∧
    ((∃ list' ∈ lists, ∃ r' ∈ list', r'.id = row.id ∧ r'.attrs ≠ .empty) → r.attrs ≠ .empty)

/-! ## The fused entries -/

/-- What the entry of an id is after some of its copies, with their ranks. -/
structure Fused (k : ℝ) (copies : List (V2Row ℝ × Nat)) (e : ℝ × V2Row ℝ) : Prop where
  id : ∀ p ∈ copies, p.1.id = e.2.id
  score : e.1 = (copies.map fun p => contribution k p.2).sum
  attrs : ∃ p ∈ copies, e.2.attrs = p.1.attrs
  kept : ∀ p ∈ copies, p.1.attrs ≠ .empty → e.2.attrs ≠ .empty

theorem Fused.first (k : ℝ) (p : V2Row ℝ × Nat) : Fused k [p] (fuse k none p) where
  id := by simp [fuse]
  score := by simp [fuse]
  attrs := ⟨p, List.mem_singleton_self p, rfl⟩
  kept := by simp [fuse]

/-- One more copy. -/
theorem Fused.next {k : ℝ} {copies : List (V2Row ℝ × Nat)} {e : ℝ × V2Row ℝ} (h : Fused k copies e)
    {p : V2Row ℝ × Nat} (hp : p.1.id = e.2.id) : Fused k (copies ++ [p]) (fuse k (some e) p) := by
  have hscore : (fuse k (some e) p).1 = e.1 + contribution k p.2 := rfl
  have hsum : e.1 + contribution k p.2 = ((copies ++ [p]).map fun p => contribution k p.2).sum := by
    rw [List.map_append, List.sum_append, ← h.score]
    simp
  obtain ⟨q, hq, hattrs⟩ := h.attrs
  by_cases hfill : e.2.attrs.entries.isEmpty && !p.1.attrs.entries.isEmpty
  · have hrow : (fuse k (some e) p).2 = { e.2 with attrs := p.1.attrs } := if_pos hfill
    have hsome : p.1.attrs ≠ .empty := by
      simpa [SortedMap.entries_eq_nil_iff] using (Bool.and_eq_true_iff.mp hfill).2
    refine ⟨?_, hscore.trans hsum, ⟨p, by simp, by rw [hrow]⟩, fun _ _ _ => by rwa [hrow]⟩
    intro r hr
    rw [hrow]
    rcases List.mem_append.mp hr with hr | hr
    · exact h.id r hr
    · rwa [List.mem_singleton.mp hr]
  · have hrow : (fuse k (some e) p).2 = e.2 := if_neg hfill
    refine ⟨?_, hscore.trans hsum, ⟨q, List.mem_append_left _ hq, by rw [hrow, hattrs]⟩, ?_⟩
    · intro r hr
      rw [hrow]
      rcases List.mem_append.mp hr with hr | hr
      · exact h.id r hr
      · rwa [List.mem_singleton.mp hr]
    · intro r hr hsome
      rw [hrow]
      rcases List.mem_append.mp hr with hr | hr
      · exact h.kept r hr hsome
      · rw [List.mem_singleton.mp hr] at hsome
        intro hempty
        simp [SortedMap.entries_eq_nil_iff, hempty, hsome] at hfill

/-- All copies of an id, one after the other. -/
theorem Fused.run {k : ℝ} {id : Id} (copies : List (V2Row ℝ × Nat)) (hid : ∀ p ∈ copies, p.1.id = id)
    {seen : List (V2Row ℝ × Nat)} {e : ℝ × V2Row ℝ} (h : Fused k seen e) (he : e.2.id = id) :
    ∃ e', copies.foldl (fun entry p => some (fuse k entry p)) (some e) = some e' ∧
      Fused k (seen ++ copies) e' := by
  induction copies generalizing seen e with
  | nil => exact ⟨e, rfl, by rwa [List.append_nil]⟩
  | cons p copies ih =>
      have hp : p.1.id = e.2.id := (hid p List.mem_cons_self).trans he.symm
      have hnext := h.next hp
      have hnextId : (fuse k (some e) p).2.id = id :=
        (hnext.id p (List.mem_append_right _ (List.mem_singleton_self p))).symm.trans (hp.trans he)
      obtain ⟨e', hfold, hfused⟩ := ih (fun q hq => hid q (List.mem_cons_of_mem _ hq)) hnext hnextId
      exact ⟨e', hfold, by rwa [List.append_assoc] at hfused⟩

/-- The copies of an id in the lists, with their ranks. -/
def copiesOf (lists : List (List (V2Row ℝ))) (id : Id) : List (V2Row ℝ × Nat) :=
  (rankedRows lists).filter (·.1.id = id)

/-- The entries once every row has been fused. -/
noncomputable def fusedEntries (k : ℝ) (lists : List (List (V2Row ℝ))) : SortedMap Id (ℝ × V2Row ℝ) :=
  joinAll (fun p => p.1.id) (fuse k) .empty (rankedRows lists)

/-- **The entry of an id** is what its copies make. -/
theorem get_fusedEntries {k : ℝ} {lists : List (List (V2Row ℝ))} {id : Id} {e : ℝ × V2Row ℝ}
    (h : (fusedEntries k lists).get id = some e) : e.2.id = id ∧ Fused k (copiesOf lists id) e := by
  have hid : ∀ p ∈ copiesOf lists id, p.1.id = id := fun p hp => by simpa using (List.mem_filter.mp hp).2
  rw [fusedEntries, get_joinAll] at h
  change (copiesOf lists id).foldl _ none = some e at h
  cases hcopies : copiesOf lists id with
  | nil =>
      rw [hcopies] at h
      cases h
  | cons p copies =>
      rw [hcopies] at h hid
      have hp : p.1.id = id := hid p List.mem_cons_self
      obtain ⟨e', hfold, hfused⟩ := Fused.run copies (fun q hq => hid q (List.mem_cons_of_mem _ hq))
        (Fused.first k p) hp
      obtain rfl : e' = e := Option.some.inj (hfold.symm.trans h)
      exact ⟨(hfused.id p List.mem_cons_self).symm.trans hp, hfused⟩

/-- The fused ids are those of the lists. -/
theorem isSome_get_fusedEntries {k : ℝ} {lists : List (List (V2Row ℝ))} {id : Id} :
    ((fusedEntries k lists).get id).isSome ↔ ∃ list ∈ lists, id ∈ idsOf list := by
  rw [fusedEntries, isSome_get_joinAll]
  constructor
  · rintro ⟨⟨row, rank⟩, hp, rfl⟩
    obtain ⟨list, hlist, hrow⟩ := List.mem_flatMap.mp hp
    exact ⟨list, hlist, List.mem_map_of_mem (List.fst_mem_of_mem_zipIdx hrow)⟩
  · rintro ⟨list, hlist, hid⟩
    obtain ⟨row, hrow, rfl⟩ := List.mem_map.mp hid
    obtain ⟨rank, hrank⟩ := List.mem_iff_getElem?.mp hrow
    have hp : (row, rank) ∈ list.zipIdx := List.mk_mem_zipIdx_iff_getElem?.mpr hrank
    exact ⟨(row, rank), List.mem_flatMap.mpr ⟨list, hlist, hp⟩, rfl⟩

/-! ## Scores -/

/-- In a list without repeated ids the copies of an id are one, at its rank, or none. -/
theorem filter_zipIdx {list : List (V2Row ℝ)} (h : (idsOf list).Nodup) (id : Id) (start : Nat) :
    ((list.zipIdx start).filter (·.1.id = id)).map (·.2) =
      ((rankOf id list).map (start + ·)).toList := by
  induction list generalizing start with
  | nil => rfl
  | cons row list ih =>
      obtain ⟨hrow, hlist⟩ := List.nodup_cons.mp h
      rw [List.zipIdx_cons, rankOf, List.findIdx?_cons]
      by_cases hid : row.id = id
      · have hnone : (list.zipIdx (start + 1)).filter (·.1.id = id) = [] := by
          refine List.filter_eq_nil_iff.mpr fun p hp heq => hrow ?_
          have hmem : p.1 ∈ list := List.fst_mem_of_mem_zipIdx hp
          exact List.mem_map.mpr ⟨p.1, hmem, (of_decide_eq_true heq).trans hid.symm⟩
        rw [List.filter_cons_of_pos (by simpa using hid), hnone, if_pos (by simpa using hid)]
        rfl
      · rw [List.filter_cons_of_neg (by simpa using hid), ih hlist, if_neg (by simpa using hid), rankOf]
        cases list.findIdx? (·.id = id) with
        | none => rfl
        | some rank =>
            have hnext : start + 1 + rank = start + (rank + 1) := by omega
            simp [hnext]

theorem sum_filterMap {α : Type} (f : α → Option ℝ) (l : List α) :
    (l.filterMap f).sum = (l.map fun a => (f a).getD 0).sum := by
  induction l with
  | nil => rfl
  | cons a l ih =>
      cases ha : f a with
      | none => simp [List.filterMap_cons_none ha, ha, ih]
      | some x => simp [List.filterMap_cons_some ha, ha, ih]

/-- **The score of an id** is what the fusion adds up. -/
theorem sum_copiesOf (k : ℝ) {lists : List (List (V2Row ℝ))}
    (h : ∀ list ∈ lists, (idsOf list).Nodup) (id : Id) :
    ((copiesOf lists id).map fun p => contribution k p.2).sum = rrfScore k lists id := by
  rw [rrfScore, sum_filterMap, copiesOf, rankedRows]
  induction lists with
  | nil => rfl
  | cons list lists ih =>
      have hlist : (((list.zipIdx).filter (·.1.id = id)).map fun p => contribution k p.2).sum =
          ((rankOf id list).map fun rank : ℕ => 1 / (k + rank + 1)).getD 0 := by
        have hranks := congrArg (List.map (contribution k)) (filter_zipIdx (h list List.mem_cons_self) id 0)
        rw [List.map_map] at hranks
        refine (congrArg List.sum hranks).trans ?_
        cases rankOf id list with
        | none => rfl
        | some rank => simp [contribution, Scalar.div, Scalar.add, Scalar.one, Scalar.ofNat]
      rw [List.flatMap_cons, List.filter_append, List.map_append, List.sum_append, hlist,
        ih fun l hl => h l (List.mem_cons_of_mem _ hl)]
      rfl

/-! ## The fused list -/

/-- What entries are sorted by. -/
def entryRank (e : ℝ × V2Row ℝ) : ℝᵒᵈ ×ₗ Id := toLex (OrderDual.toDual e.1, e.2.id)

/-- The row of an entry. -/
def entryRow (e : ℝ × V2Row ℝ) : V2Row ℝ := { e.2 with dist := some e.1 }

theorem rrf_eq (lists : List (List (V2Row ℝ))) (k : ℝ) (limit : Nat) :
    rrf lists k limit = (best entryRank limit (fusedEntries k lists).values).map entryRow := by
  have hle (a b : ℝ × V2Row ℝ) : (Score.totalCmp b.1 a.1).then (compare a.2.id b.2.id) ≠ .gt ↔
      entryRank a ≤ entryRank b := compare_then_ne_gt
  simp only [rrf, hle]
  rfl

section Entries

variable {k : ℝ} {lists : List (List (V2Row ℝ))} {limit : Nat} {e : ℝ × V2Row ℝ}

/-- An entry is that of its row's id. -/
theorem mem_fusedEntries : e ∈ (fusedEntries k lists).values ↔ (fusedEntries k lists).get e.2.id = some e := by
  constructor
  · intro he
    obtain ⟨id, hget⟩ := SortedMap.mem_values_iff.mp he
    rwa [(get_fusedEntries hget).1]
  · exact fun hget => SortedMap.mem_values_iff.mpr ⟨_, hget⟩

theorem map_id_values : ((fusedEntries k lists).values.map fun e => e.2.id) = (fusedEntries k lists).keys := by
  rw [SortedMap.values, SortedMap.keys, List.map_map]
  refine List.map_congr_left fun p hp => ?_
  exact (get_fusedEntries (SortedMap.get_eq_some_iff.mpr hp)).1

theorem nodup_entryRank : ((fusedEntries k lists).values.map entryRank).Nodup := by
  have hkeys : (fusedEntries k lists).keys.Nodup :=
    List.pairwise_map.mpr ((fusedEntries k lists).sorted.imp ne_of_lt)
  have hid : ((fusedEntries k lists).values.map fun e => e.2.id) =
      ((fusedEntries k lists).values.map entryRank).map fun r => (ofLex r).2 := by
    rw [List.map_map]
    rfl
  rw [← map_id_values, hid] at hkeys
  exact hkeys.of_map _

theorem score_entry (h : ∀ list ∈ lists, (idsOf list).Nodup) (he : e ∈ (fusedEntries k lists).values) :
    e.1 = rrfScore k lists e.2.id := by
  have hfused := (get_fusedEntries (mem_fusedEntries.mp he)).2
  rw [← sum_copiesOf k h, hfused.score]

/-- Entries in order are ids in order. -/
theorem before_of_entryRank (h : ∀ list ∈ lists, (idsOf list).Nodup) {e' : ℝ × V2Row ℝ}
    (he : e ∈ (fusedEntries k lists).values) (he' : e' ∈ (fusedEntries k lists).values)
    (hlt : entryRank e < entryRank e') : Before k lists e.2.id e'.2.id := by
  rw [entryRank, entryRank, Prod.Lex.toLex_lt_toLex, OrderDual.toDual_lt_toDual, OrderDual.toDual_inj,
    score_entry h he, score_entry h he'] at hlt
  exact hlt

end Entries

/-- **What `rrf` computes**, in exact arithmetic. -/
theorem isFusion_rrf {lists : List (List (V2Row ℝ))} (h : ∀ list ∈ lists, (idsOf list).Nodup) (k : ℝ)
    (limit : Nat) : IsFusion k lists limit (rrf lists k limit) := by
  have hids : idsOf (rrf lists k limit) =
      (best entryRank limit (fusedEntries k lists).values).map fun e => e.2.id := by
    rw [rrf_eq, idsOf, List.map_map]
    rfl
  have hmem : ∀ e ∈ best entryRank limit (fusedEntries k lists).values,
      e ∈ (fusedEntries k lists).values := fun e he => best_subset he
  have hsorted : (idsOf (rrf lists k limit)).Pairwise (Before k lists) := by
    rw [hids, List.pairwise_map]
    exact (best_pairwise nodup_entryRank).imp_of_mem fun he he' hlt =>
      before_of_entryRank h (hmem _ he) (hmem _ he') hlt
  refine ⟨?_, ?_, ?_, hsorted, ?_, ?_, ?_⟩
  · intro id hid
    rw [hids] at hid
    obtain ⟨e, he, rfl⟩ := List.mem_map.mp hid
    exact isSome_get_fusedEntries.mp (Option.isSome_of_mem (mem_fusedEntries.mp (hmem e he)))
  · refine hsorted.imp fun hbefore heq => ?_
    subst heq
    exact hbefore.elim (lt_irrefl _) fun hlt => lt_irrefl _ hlt.2
  · intro row hrow
    rw [rrf_eq] at hrow
    obtain ⟨e, he, rfl⟩ := List.mem_map.mp hrow
    exact congrArg some (score_entry h (hmem e he))
  · intro list hlist id hid hcut
    obtain ⟨e, hget⟩ := Option.isSome_iff_exists.mp
      (isSome_get_fusedEntries (k := k).mpr ⟨list, hlist, hid⟩)
    obtain rfl := (get_fusedEntries hget).1
    have he := mem_fusedEntries.mpr hget
    have hnot : e ∉ best entryRank limit (fusedEntries k lists).values := by
      intro hin
      rw [hids] at hcut
      exact hcut (List.mem_map.mpr ⟨e, hin, rfl⟩)
    obtain ⟨hlength, hrest⟩ := best_of_not_mem nodup_entryRank he hnot
    refine ⟨by rw [rrf_eq, List.length_map, hlength], fun kept hkept => ?_⟩
    rw [hids] at hkept
    obtain ⟨e', he', rfl⟩ := List.mem_map.mp hkept
    exact before_of_entryRank h (hmem e' he') he (hrest e' he')
  · rw [rrf_eq, List.length_map, best]
    exact List.length_take_le _ _
  · intro row hrow
    rw [rrf_eq] at hrow
    obtain ⟨e, he, rfl⟩ := List.mem_map.mp hrow
    obtain ⟨-, hfused⟩ := get_fusedEntries (mem_fusedEntries.mp (hmem e he))
    obtain ⟨⟨r, rank⟩, hp, hattrs⟩ := hfused.attrs
    obtain ⟨list, hlist, hr⟩ := List.mem_flatMap.mp (List.mem_filter.mp hp).1
    refine ⟨list, hlist, r, List.fst_mem_of_mem_zipIdx hr, hfused.id _ hp, hattrs, ?_⟩
    rintro ⟨list', hlist', r', hr', hid', hsome⟩
    obtain ⟨rank', hrank'⟩ := List.mem_iff_getElem?.mp hr'
    have hcopy : (r', rank') ∈ copiesOf lists e.2.id := by
      refine List.mem_filter.mpr ⟨List.mem_flatMap.mpr ⟨list', hlist', ?_⟩, decide_eq_true hid'⟩
      exact List.mk_mem_zipIdx_iff_getElem?.mpr hrank'
    exact hattrs ▸ hfused.kept _ hcopy hsome

/-! ## Orders of lists -/

theorem rrfScore_perm {k : ℝ} {lists lists' : List (List (V2Row ℝ))} (h : lists.Perm lists') (id : Id) :
    rrfScore k lists id = rrfScore k lists' id := (h.filterMap _).sum_eq

/-- The scores of all ids. -/
noncomputable def scoresOf (k : ℝ) (lists : List (List (V2Row ℝ))) : SortedMap Id ℝ :=
  (fusedEntries k lists).mapValues fun _ e => e.1

theorem get_scoresOf {k : ℝ} {lists : List (List (V2Row ℝ))}
    (h : ∀ list ∈ lists, (idsOf list).Nodup) {id : Id} {x : ℝ} :
    (scoresOf k lists).get id = some x ↔
      (∃ list ∈ lists, id ∈ idsOf list) ∧ x = rrfScore k lists id := by
  rw [scoresOf, SortedMap.get_mapValues, Option.map_eq_some_iff, ← isSome_get_fusedEntries (k := k)]
  constructor
  · rintro ⟨e, hget, rfl⟩
    obtain rfl := (get_fusedEntries hget).1
    exact ⟨Option.isSome_of_mem hget, score_entry h (mem_fusedEntries.mpr hget)⟩
  · rintro ⟨hsome, rfl⟩
    obtain ⟨e, hget⟩ := Option.isSome_iff_exists.mp hsome
    obtain rfl := (get_fusedEntries hget).1
    exact ⟨e, hget, score_entry h (mem_fusedEntries.mpr hget)⟩

/-- **The order of the lists does not matter** for the scores. -/
theorem scoresOf_perm {k : ℝ} {lists lists' : List (List (V2Row ℝ))} (h : lists.Perm lists')
    (hdistinct : ∀ list ∈ lists, (idsOf list).Nodup) : scoresOf k lists = scoresOf k lists' := by
  have hdistinct' : ∀ list ∈ lists', (idsOf list).Nodup := fun l hl => hdistinct l (h.mem_iff.mpr hl)
  ext id x
  rw [get_scoresOf hdistinct, get_scoresOf hdistinct', rrfScore_perm h]
  simp only [h.mem_iff]

/-- Ids and scores of a fusion are the best of all ids and scores. -/
theorem map_rrf (lists : List (List (V2Row ℝ))) (k : ℝ) (limit : Nat) :
    (rrf lists k limit).map (fun row => (row.id, row.dist)) =
      (best (fun p : Id × ℝ => toLex (OrderDual.toDual p.2, p.1)) limit (scoresOf k lists).entries).map
        fun p => (p.1, some p.2) := by
  have hentries : (scoresOf k lists).entries =
      (fusedEntries k lists).values.map fun e => (e.2.id, e.1) := by
    rw [scoresOf, SortedMap.mapValues, SortedMap.values, List.map_map]
    refine List.map_congr_left fun p hp => ?_
    have hid := (get_fusedEntries (SortedMap.get_eq_some_iff.mpr hp)).1
    exact congrArg (·, p.2.1) hid.symm
  have hbest : best (fun p : Id × ℝ => toLex (OrderDual.toDual p.2, p.1)) limit
      ((fusedEntries k lists).values.map fun e => (e.2.id, e.1)) =
        (best entryRank limit (fusedEntries k lists).values).map fun e => (e.2.id, e.1) :=
    best_map fun _ => rfl
  rw [rrf_eq, hentries, hbest, List.map_map, List.map_map]
  rfl

/-! ## One list -/

/-- A row stands at the rank of its id. -/
theorem rankOf_of_mem_zipIdx {list : List (V2Row ℝ)} (h : (idsOf list).Nodup) {row : V2Row ℝ} {i : Nat}
    (hrow : (row, i) ∈ list.zipIdx) : rankOf row.id list = some i := by
  have hcopy : i ∈ ((list.zipIdx 0).filter (·.1.id = row.id)).map (·.2) :=
    List.mem_map.mpr ⟨(row, i), List.mem_filter.mpr ⟨hrow, decide_eq_true rfl⟩, rfl⟩
  rw [filter_zipIdx h] at hcopy
  simpa using hcopy

theorem rrfScore_single {list : List (V2Row ℝ)} (h : (idsOf list).Nodup) (k : ℝ) {row : V2Row ℝ} {i : Nat}
    (hrow : (row, i) ∈ list.zipIdx) : rrfScore k [list] row.id = contribution k i := by
  rw [rrfScore, List.filterMap_cons_some (b := 1 / (k + i + 1)) (by rw [rankOf_of_mem_zipIdx h hrow]; rfl)]
  exact add_zero _

/-- The ids of one list with what their ranks contribute. -/
noncomputable def contributionsOf (k : ℝ) (list : List (V2Row ℝ)) : List (Id × ℝ) :=
  list.zipIdx.map fun p => (p.1.id, contribution k p.2)

theorem map_fst_contributionsOf (k : ℝ) (list : List (V2Row ℝ)) :
    (contributionsOf k list).map (·.1) = idsOf list := by
  rw [contributionsOf, List.map_map, idsOf]
  conv_rhs => rw [← List.zipIdx_map_fst 0 list, List.map_map]
  rfl

/-- The scores of one list, rank by rank. -/
theorem scoresOf_single {list : List (V2Row ℝ)} (h : (idsOf list).Nodup) (k : ℝ) :
    (scoresOf k [list]).entries.Perm (contributionsOf k list) := by
  have hdistinct : ∀ l ∈ [list], (idsOf l).Nodup := fun l hl => by rwa [List.mem_singleton.mp hl]
  have hnodup : (contributionsOf k list).Nodup := List.Nodup.of_map (·.1) (map_fst_contributionsOf k list ▸ h)
  refine (List.perm_ext_iff_of_nodup (scoresOf k [list]).nodup_entries hnodup).mpr fun ⟨id, x⟩ => ?_
  rw [← SortedMap.get_eq_some_iff, get_scoresOf hdistinct, contributionsOf, List.mem_map]
  constructor
  · rintro ⟨⟨l, hl, hid⟩, rfl⟩
    rw [List.mem_singleton.mp hl] at hid
    obtain ⟨row, hrow, rfl⟩ := List.mem_map.mp hid
    obtain ⟨i, hi⟩ := List.mem_iff_getElem?.mp hrow
    have hp : (row, i) ∈ list.zipIdx := List.mk_mem_zipIdx_iff_getElem?.mpr hi
    exact ⟨(row, i), hp, by rw [rrfScore_single h k hp]⟩
  · rintro ⟨⟨row, i⟩, hp, heq⟩
    cases heq
    have hid : row.id ∈ idsOf list := List.mem_map_of_mem (List.fst_mem_of_mem_zipIdx hp)
    exact ⟨⟨list, List.mem_singleton_self _, hid⟩, (rrfScore_single h k hp).symm⟩

/-- Later ranks contribute less. -/
theorem contribution_lt {k : ℝ} (hk : 0 < k) {i j : Nat} (h : i < j) : contribution k j < contribution k i := by
  show 1 / (k + j + 1) < 1 / (k + i + 1)
  have hpos : 0 < k + (i : ℝ) + 1 := by positivity
  have hij : (i : ℝ) < j := Nat.cast_lt.mpr h
  exact one_div_lt_one_div_of_lt hpos (by linarith)

/-- **One list keeps its order.** -/
theorem idsOf_rrf_single {list : List (V2Row ℝ)} (h : (idsOf list).Nodup) {k : ℝ} (hk : 0 < k)
    (limit : Nat) : idsOf (rrf [list] k limit) = (idsOf list).take limit := by
  let rank := fun p : Id × ℝ => toLex (OrderDual.toDual p.2, p.1)
  have hnodup : ((scoresOf k [list]).entries.map rank).Nodup := by
    refine List.Nodup.map (fun p q hpq => ?_) (scoresOf k [list]).nodup_entries
    have hpair : (OrderDual.toDual p.2, p.1) = (OrderDual.toDual q.2, q.1) := toLex.injective hpq
    exact Prod.ext (congrArg Prod.snd hpair) (congrArg Prod.fst hpair)
  have hsorted : (contributionsOf k list).Pairwise (rank · ≤ rank ·) := by
    have hranks : (list.zipIdx.map (·.2)).Pairwise (· < ·) := by
      rw [List.zipIdx_map_snd]
      exact List.pairwise_lt_range'
    refine List.pairwise_map.mpr ((List.pairwise_map.mp hranks).imp fun hlt => ?_)
    exact (Prod.Lex.toLex_lt_toLex.mpr (.inl (contribution_lt hk hlt))).le
  calc idsOf (rrf [list] k limit)
      = ((rrf [list] k limit).map fun row => (row.id, row.dist)).map (·.1) := by
        rw [List.map_map]
        rfl
    _ = (best rank limit (scoresOf k [list]).entries).map (·.1) := by
        rw [map_rrf, List.map_map]
        rfl
    _ = ((contributionsOf k list).take limit).map (·.1) := by
        rw [best_perm hnodup (scoresOf_single h k), best_eq_take hsorted]
    _ = (idsOf list).take limit := by rw [List.map_take, map_fst_contributionsOf]

/-- **Reciprocal rank fusion**: the fused list is the one the ranks determine; one list keeps its order,
and permuting the lists changes neither ids, scores nor order. -/
theorem rrf_fuses {lists : List (List (V2Row ℝ))} (h : ∀ list ∈ lists, (idsOf list).Nodup) {k : ℝ}
    (hk : 0 < k) (limit : Nat) :
    IsFusion k lists limit (rrf lists k limit) ∧
      (∀ list, lists = [list] → idsOf (rrf lists k limit) = (idsOf list).take limit) ∧
      ∀ lists', lists.Perm lists' →
        (rrf lists' k limit).map (fun row => (row.id, row.dist)) =
          (rrf lists k limit).map fun row => (row.id, row.dist) := by
  refine ⟨isFusion_rrf h k limit, ?_, fun lists' hperm => ?_⟩
  · rintro list rfl
    exact idsOf_rrf_single (h list (List.mem_singleton_self list)) hk limit
  · rw [map_rrf, map_rrf, scoresOf_perm hperm h]

/-- Two lists, one of them without attributes. -/
theorem rrf_fuses_two :
    let title : Attrs := SortedMap.empty.insert "title" (.string "kept")
    let lists : List (List (V2Row ℝ)) :=
      [[⟨.uint 1, none, .empty⟩, ⟨.uint 2, none, .empty⟩], [⟨.uint 2, none, title⟩]]
    IsFusion 60 lists 5 (rrf lists 60 5) ∧
      (∀ list, lists = [list] → idsOf (rrf lists 60 5) = (idsOf list).take 5) ∧
      ∀ lists', lists.Perm lists' →
        (rrf lists' 60 5).map (fun row => (row.id, row.dist)) =
          (rrf lists 60 5).map fun row => (row.id, row.dist) := by
  intro title lists
  have hdistinct : ∀ list ∈ lists, (idsOf list).Nodup := by
    intro list hlist
    rcases List.mem_cons.mp hlist with rfl | hlist
    · exact (by decide : [Id.uint 1, Id.uint 2].Nodup)
    · rw [List.mem_singleton.mp hlist]
      exact List.nodup_singleton _
  exact rrf_fuses hdistinct (by norm_num) 5

end Fckdb
