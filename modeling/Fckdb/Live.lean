import Fckdb.Doc
import Fckdb.Lib.Replay

/-! # The live set

Records applied in order make the live set: later upserts win, tombstones remove, a patch merges into
a document that is there and is lost otherwise. Seen at one id, a record sets, clears, keeps or
updates the document (`applyAt`), and such actions are idempotent as runs: replaying records that
are already folded in changes nothing (`apply_replayIdempotent`). -/

namespace Fckdb

/-- The live documents by id. -/
abbrev Live := SortedMap Id Doc

/-- Merge a patch into attributes: a null removes its key. -/
def mergeAttrs (attrs : Attrs) : List (String × Value) → Attrs
  | [] => attrs
  | (k, v) :: rest => mergeAttrs (if v.isNull then attrs.erase k else attrs.insert k v) rest

/-- `apply`: one record on the live set. A patch on an absent document is a no-op. -/
def apply (live : Live) : Record → Live
  | .upsert d => live.insert d.id d
  | .delete id => live.erase id
  | .patch id attrs =>
    match live.get id with
    | some doc => live.insert id { doc with attrs := mergeAttrs doc.attrs attrs.entries }
    | none => live

/-- `Namespace::materialize`: apply records in order to nothing. -/
def materialize (records : List Record) : Live := replay apply .empty records

/-! ## One id at a time -/

/-- What a record does to the document under its own id. -/
def applyAt : Record → Option Doc → Option Doc
  | .upsert d, _ => some d
  | .delete _, _ => none
  | .patch _ attrs, doc => doc.map fun d => { d with attrs := mergeAttrs d.attrs attrs.entries }

/-- A record acts on its own id only. -/
theorem get_apply (live : Live) (r : Record) (id : Id) :
    (apply live r).get id = if r.id = id then applyAt r (live.get id) else live.get id := by
  cases r with
  | upsert d => exact SortedMap.get_insert live d.id id d
  | delete i => exact SortedMap.get_erase live i id
  | patch i attrs =>
      simp only [apply, applyAt, Record.id]
      cases h : live.get i with
      | none =>
          by_cases hi : i = id
          · simp [← hi, h]
          · simp [hi]
      | some doc =>
          simp only [SortedMap.get_insert]
          by_cases hi : i = id
          · simp [← hi, h]
          · simp [hi]

/-- What a list of records does to the document under `id`. -/
def effectAt (id : Id) : List Record → Option Doc → Option Doc
  | [], doc => doc
  | r :: rs, doc => effectAt id rs (if r.id = id then applyAt r doc else doc)

theorem effectAt_append (id : Id) (xs ys : List Record) (doc : Option Doc) :
    effectAt id (xs ++ ys) doc = effectAt id ys (effectAt id xs doc) := by
  induction xs generalizing doc with
  | nil => rfl
  | cons r rs ih => exact ih _

/-- **Locality**: after a replay, the document under `id` depends on what was there and on the
records about it. -/
theorem get_replay (live : Live) (rs : List Record) (id : Id) :
    (replay apply live rs).get id = effectAt id rs (live.get id) := by
  induction rs generalizing live with
  | nil => rfl
  | cons r rs ih => rw [replay_cons, ih, get_apply]; rfl

theorem get_materialize (rs : List Record) (id : Id) :
    (materialize rs).get id = effectAt id rs none := get_replay _ _ _

/-- Records about other ids do not matter. -/
theorem effectAt_filter {p : Record → Bool} {id : Id} {rs : List Record}
    (h : ∀ r ∈ rs, r.id = id → p r = true) (doc : Option Doc) :
    effectAt id (rs.filter p) doc = effectAt id rs doc := by
  induction rs generalizing doc with
  | nil => rfl
  | cons r rs ih =>
      have ih := ih fun r hr => h r (List.mem_cons_of_mem _ hr)
      by_cases hr : r.id = id
      · rw [List.filter_cons_of_pos (h r List.mem_cons_self hr)]
        exact ih _
      · by_cases hp : p r
        · rw [List.filter_cons_of_pos hp]
          exact ih _
        · rw [List.filter_cons_of_neg hp, ih]
          simp only [effectAt, if_neg hr]

/-- No record about `id` means no effect on it. -/
theorem effectAt_of_forall_ne {id : Id} {rs : List Record} (h : ∀ r ∈ rs, r.id ≠ id)
    (doc : Option Doc) : effectAt id rs doc = doc := by
  induction rs with
  | nil => rfl
  | cons r rs ih =>
      rw [effectAt, if_neg (h r List.mem_cons_self)]
      exact ih fun r hr => h r (List.mem_cons_of_mem _ hr)

/-! ## Replaying twice -/

/-- Updates that merge attributes key by key, each key constantly or not at all. -/
def Merges (g : Doc → Doc) : Prop :=
  ∃ h : Attrs → Attrs, (∀ d, g d = { d with attrs := h d.attrs }) ∧
    ∀ key, ∃ f, ConstOrId f ∧ ∀ a, (h a).get key = f (a.get key)

/-- Merging a patch acts on each key constantly or not at all. -/
theorem get_mergeAttrs (es : List (String × Value)) (key : String) :
    ∃ f, ConstOrId f ∧ ∀ a, (mergeAttrs a es).get key = f (a.get key) := by
  induction es with
  | nil => exact ⟨_, ConstOrId.id, fun a => rfl⟩
  | cons e es ih =>
      obtain ⟨k, v⟩ := e
      obtain ⟨f, hf, h⟩ := ih
      refine ⟨fun x => f (if k = key then (if v.isNull then none else some v) else x), ?_, ?_⟩
      · refine hf.comp ?_
        by_cases hk : k = key
        · exact Or.inl ⟨_, fun x => if_pos hk⟩
        · exact Or.inr fun x => if_neg hk
      · intro a
        rw [mergeAttrs, h]
        split_ifs <;> simp_all [SortedMap.get_erase, SortedMap.get_insert]

theorem Merges.mergeAttrs (es : List (String × Value)) :
    Merges fun d => { d with attrs := Fckdb.mergeAttrs d.attrs es } :=
  ⟨fun a => Fckdb.mergeAttrs a es, fun _ => rfl, get_mergeAttrs es⟩

theorem Merges.comp {g f : Doc → Doc} (hg : Merges g) (hf : Merges f) :
    Merges fun d => g (f d) := by
  obtain ⟨h, hg, hk⟩ := hg
  obtain ⟨h', hf, hk'⟩ := hf
  refine ⟨fun a => h (h' a), fun d => by simp only [hg, hf], fun key => ?_⟩
  obtain ⟨u, hu, e⟩ := hk key
  obtain ⟨u', hu', e'⟩ := hk' key
  exact ⟨fun x => u (u' x), hu.comp hu', fun a => by rw [e, e']⟩

theorem Merges.idem {g : Doc → Doc} (hg : Merges g) (d : Doc) : g (g d) = g d := by
  obtain ⟨h, hg, hk⟩ := hg
  have : h (h d.attrs) = h d.attrs := by
    ext1 key
    obtain ⟨u, hu, e⟩ := hk key
    rw [e, e, hu.idem]
  rw [hg, hg]
  simp only [this]

theorem applyAt_overlay (r : Record) : Overlay Merges (applyAt r) := by
  cases r with
  | upsert d => exact Or.inl ⟨some d, fun _ => rfl⟩
  | delete id => exact Or.inl ⟨none, fun _ => rfl⟩
  | patch id attrs => exact Or.inr ⟨_, Merges.mergeAttrs attrs.entries, fun _ => rfl⟩

theorem effectAt_overlay (id : Id) (rs : List Record) : Overlay Merges (effectAt id rs) := by
  induction rs with
  | nil =>
      refine Or.inr ⟨fun d => d, ⟨fun a => a, fun _ => rfl, fun _ => ⟨_, ConstOrId.id, ?_⟩⟩, ?_⟩
      · exact fun _ => rfl
      · exact fun x => Option.map_id'.symm
  | cons r rs ih =>
      by_cases h : r.id = id
      · have := Overlay.comp (fun _ _ hg hf => hg.comp hf) ih (applyAt_overlay r)
        simpa only [effectAt, if_pos h] using this
      · simpa only [effectAt, if_neg h] using ih

/-- **Replaying a run of records right after itself changes nothing.** -/
theorem apply_replayIdempotent : ReplayIdempotent apply := by
  intro live xs
  ext1 id
  simp only [get_replay]
  exact (effectAt_overlay id xs).idem (fun _ hg => hg.idem) _

/-- **A suffix the segments already contain may be replayed once more**: compaction keeps WAL
entries whose records it has folded in. -/
theorem replay_suffix_again (live : Live) (xs ys : List Record) :
    replay apply live (xs ++ ys ++ ys) = replay apply live (xs ++ ys) := by
  rw [replay_append apply live (xs ++ ys), replay_append apply live xs]
  exact apply_replayIdempotent _ ys

/-! ## One mutation of many documents -/

/-- The same patch of many documents. -/
theorem effectAt_patches (ids : List Id) (attrs : Attrs) (id : Id) (doc : Option Doc) :
    effectAt id (ids.map fun i => .patch i attrs) doc =
      if id ∈ ids then applyAt (.patch id attrs) doc else doc := by
  induction ids generalizing doc with
  | nil => exact (if_neg List.not_mem_nil).symm
  | cons i ids ih =>
      rw [List.map_cons, effectAt, ih]
      by_cases hi : i = id
      · subst hi
        rw [if_pos (show (Record.patch i attrs).id = i from rfl), if_pos List.mem_cons_self]
        split_ifs
        · cases doc with
          | none => rfl
          | some d => exact congrArg some ((Merges.mergeAttrs attrs.entries).idem d)
        · rfl
      · rw [if_neg (show (Record.patch i attrs).id ≠ id from hi)]
        simp only [List.mem_cons, Ne.symm hi, false_or]

/-- Many documents deleted. -/
theorem effectAt_deletes (ids : List Id) (id : Id) (doc : Option Doc) :
    effectAt id (ids.map .delete) doc = if id ∈ ids then none else doc := by
  induction ids generalizing doc with
  | nil => exact (if_neg List.not_mem_nil).symm
  | cons i ids ih =>
      rw [List.map_cons, effectAt, ih]
      by_cases hi : i = id
      · subst hi
        rw [if_pos (show (Record.delete i).id = i from rfl), if_pos List.mem_cons_self]
        exact ite_self _
      · rw [if_neg (show (Record.delete i).id ≠ id from hi)]
        simp only [List.mem_cons, Ne.symm hi, false_or]

/-! ## Documents sit under their own ids -/

/-- Every document of the live set is stored under its id. -/
def Live.WellKeyed (live : Live) : Prop := ∀ id d, live.get id = some d → d.id = id

theorem Live.WellKeyed.apply {live : Live} (h : live.WellKeyed) (r : Record) :
    Live.WellKeyed (Fckdb.apply live r) := by
  intro id d hd
  rw [get_apply] at hd
  split_ifs at hd with hr
  · cases r with
    | upsert d' =>
        obtain rfl := Option.some.inj hd
        exact hr
    | delete i => cases hd
    | patch i attrs =>
        obtain ⟨d', hd', rfl⟩ := Option.map_eq_some_iff.mp hd
        exact h id d' hd'
  · exact h id d hd

theorem Live.WellKeyed.replay {live : Live} (h : live.WellKeyed) (rs : List Record) :
    Live.WellKeyed (replay Fckdb.apply live rs) := by
  induction rs generalizing live with
  | nil => exact h
  | cons r rs ih => exact ih (h.apply r)

theorem materialize_wellKeyed (rs : List Record) : (materialize rs).WellKeyed :=
  Live.WellKeyed.replay (fun _ _ h => by cases h) rs

/-- The ids of a well-keyed live set, read off its documents, are its keys. -/
theorem Live.WellKeyed.map_id_values {live : Live} (h : live.WellKeyed) :
    live.values.map Doc.id = live.keys := by
  rw [SortedMap.values, SortedMap.keys, List.map_map]
  refine List.map_congr_left fun e he => ?_
  exact h e.1 e.2 (SortedMap.get_eq_some_iff.mpr he)

theorem Live.WellKeyed.nodup_ids {live : Live} (h : live.WellKeyed) :
    (live.values.map Doc.id).Nodup := by
  rw [h.map_id_values]
  exact (live.sorted.imp (fun h => ne_of_lt h)).map _ (fun _ _ h => h)

/-- The documents under some of the keys. -/
theorem Live.WellKeyed.values_filterKeys {live : Live} (h : live.WellKeyed) (p : Id → Bool) :
    SortedMap.values (live.filterKeys p) = live.values.filter fun d => p d.id := by
  rw [SortedMap.values, SortedMap.values, SortedMap.filterKeys, List.filter_map]
  refine congrArg _ (List.filter_congr fun e he => ?_)
  have hid : e.2.id = e.1 := h e.1 e.2 (SortedMap.get_eq_some_iff.mpr he)
  rw [Function.comp, hid]

theorem Live.WellKeyed.filterKeys {live : Live} (h : live.WellKeyed) (p : Id → Bool) :
    Live.WellKeyed (SortedMap.filterKeys p live) := by
  intro id d hd
  rw [SortedMap.get_filterKeys] at hd
  split_ifs at hd
  exact h id d hd

/-! ## Segments: upserts of distinct documents -/

/-- What upserts of documents with distinct ids do at `id`: set it to the one with that id. -/
theorem effectAt_upserts {docs : List Doc} (hd : (docs.map Doc.id).Nodup) (id : Id)
    (doc : Option Doc) :
    effectAt id (docs.map .upsert) doc = (docs.find? (fun d => d.id = id)).or doc := by
  induction docs generalizing doc with
  | nil => rfl
  | cons d ds ih =>
      rw [List.map_cons, List.nodup_cons] at hd
      rw [List.map_cons, effectAt, ih hd.2]
      by_cases h : d.id = id
      · have hnone : ds.find? (fun d => d.id = id) = none := by
          rw [List.find?_eq_none]
          intro x hx hid
          refine hd.1 (List.mem_map.mpr ⟨x, hx, ?_⟩)
          rw [h]
          exact of_decide_eq_true hid
        rw [hnone, List.find?_cons_of_pos (by simpa using h), Option.none_or, Option.some_or,
          if_pos (show (Record.upsert d).id = id from h)]
        rfl
      · rw [List.find?_cons_of_neg (by simpa using h), if_neg (show (Record.upsert d).id ≠ id from h)]

/-- Documents with distinct ids, found by id, in any list of the same documents. -/
theorem find?_id_eq_some {docs : List Doc} (hd : (docs.map Doc.id).Nodup) {id : Id} {d : Doc} :
    docs.find? (fun d => d.id = id) = some d ↔ d ∈ docs ∧ d.id = id := by
  refine ⟨fun h => ⟨List.mem_of_find?_eq_some h, by simpa using List.find?_some h⟩, ?_⟩
  rintro ⟨hmem, hid⟩
  induction docs with
  | nil => cases hmem
  | cons x xs ih =>
      rw [List.map_cons, List.nodup_cons] at hd
      by_cases hx : x.id = id
      · rw [List.find?_cons_of_pos (by simpa using hx)]
        rcases List.mem_cons.mp hmem with rfl | hmem
        · rfl
        · exact absurd (List.mem_map.mpr ⟨d, hmem, hid.trans hx.symm⟩) hd.1
      · rw [List.find?_cons_of_neg (by simpa using hx)]
        rcases List.mem_cons.mp hmem with rfl | hmem
        · exact absurd hid hx
        · exact ih hd.2 hmem

/-- **Segments hold the live set**: upserting the documents of a well-keyed live set, in any order,
gives it back. -/
theorem materialize_upserts {live : Live} (h : live.WellKeyed) {docs : List Doc}
    (hp : docs.Perm live.values) : materialize (docs.map .upsert) = live := by
  have hnodup : (docs.map Doc.id).Nodup := ((hp.map Doc.id).nodup_iff).mpr h.nodup_ids
  ext1 id
  rw [get_materialize, effectAt_upserts hnodup, Option.or_none]
  apply Option.ext
  intro d
  rw [find?_id_eq_some hnodup, hp.mem_iff, SortedMap.mem_values_iff]
  constructor
  · rintro ⟨⟨k, hk⟩, rfl⟩
    rwa [h k d hk]
  · intro hd
    exact ⟨⟨id, hd⟩, h id d hd⟩

end Fckdb
