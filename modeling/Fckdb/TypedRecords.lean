import Fckdb.IndexParts
import Fckdb.References

/-! # Records that fit their schema

A record fits a schema if its id has the id type and its values have the types of their attributes. A batch
that is absorbed fits the schema that it leaves (`Schema.absorb_fits`), which keeps what was set
(`prepareRecords_kept`); and what a compaction makes of records that fit, fits too
(`ShardBuilt.fits`). -/

namespace Fckdb

/-! ## Schemas that keep what is set -/

/-- Two full-text configurations are alike: the same one, or equal under `PartialEq`, where a zero may
change its sign. -/
def FtsConfig.Alike (a b : FtsConfig) : Prop := a = b ∨ a.same b = true

/-- From `s` to `s'` nothing that was set changed, with full-text configurations compared by `alike`. -/
structure Schema.Kept (alike : FtsConfig → FtsConfig → Prop) (s s' : Schema) : Prop where
  attributes : ∀ key ty, s.attributes.get key = some ty → s'.attributes.get key = some ty
  fts : ∀ key c, s.fts.get key = some c → ∃ c', s'.fts.get key = some c' ∧ alike c c'
  embed : ∀ key e, s.embed.get key = some e → s'.embed.get key = some e
  idType : ∀ ty, s.idType = some ty → s'.idType = some ty
  dim : ∀ d, s.dim = some d → s'.dim = some d
  numShards : ∀ n, s.numShards = some n → s'.numShards = some n

theorem F32.feq_trans {a b c : F32} (h : a.feq b = true) (h' : b.feq c = true) : a.feq c = true := by
  simp only [F32.feq, Bool.and_eq_true, Bool.or_eq_true, beq_iff_eq] at h h' ⊢
  obtain ⟨⟨ha, -⟩, hab⟩ := h
  obtain ⟨⟨-, hc⟩, hbc⟩ := h'
  refine ⟨⟨ha, hc⟩, ?_⟩
  rcases hab with hab | ⟨hza, hzb⟩
  · obtain rfl : a = b := by
      obtain ⟨a⟩ := a
      exact congrArg _ hab
    exact hbc
  · rcases hbc with hbc | ⟨-, hzc⟩
    · obtain rfl : b = c := by
        obtain ⟨b⟩ := b
        exact congrArg _ hbc
      exact .inr ⟨hza, hzb⟩
    · exact .inr ⟨hza, hzc⟩

namespace FtsConfig.Alike

theorem refl (c : FtsConfig) : c.Alike c := .inl rfl

theorem trans {a b c : FtsConfig} (h : a.Alike b) (h' : b.Alike c) : a.Alike c := by
  rcases h with rfl | h
  · exact h'
  rcases h' with rfl | h'
  · exact .inr h
  simp only [FtsConfig.same, Bool.and_eq_true, decide_eq_true_eq] at h h'
  refine .inr ?_
  simp only [FtsConfig.same, Bool.and_eq_true, decide_eq_true_eq]
  exact ⟨⟨h.1.1.trans h'.1.1, F32.feq_trans h.1.2 h'.1.2⟩, F32.feq_trans h.2 h'.2⟩

end FtsConfig.Alike

namespace Schema.Kept

variable {s s' s'' : Schema}

theorem refl (s : Schema) : s.Kept FtsConfig.Alike s :=
  ⟨fun _ _ h => h, fun _ c h => ⟨c, h, .refl c⟩, fun _ _ h => h, fun _ h => h, fun _ h => h,
    fun _ h => h⟩

theorem trans (h : s.Kept FtsConfig.Alike s') (h' : s'.Kept FtsConfig.Alike s'') :
    s.Kept FtsConfig.Alike s'' where
  attributes key ty hty := h'.attributes key ty (h.attributes key ty hty)
  fts key c hc := by
    obtain ⟨c', hc', hcc'⟩ := h.fts key c hc
    obtain ⟨c'', hc'', hcc''⟩ := h'.fts key c' hc'
    exact ⟨c'', hc'', hcc'.trans hcc''⟩
  embed key e he := h'.embed key e (h.embed key e he)
  idType ty hty := h'.idType ty (h.idType ty hty)
  dim d hd := h'.dim d (h.dim d hd)
  numShards n hn := h'.numShards n (h.numShards n hn)

/-- A batch keeps what is set, if it keeps the id type. -/
theorem of_extends (h : s.Extends s') (hid : ∀ ty, s.idType = some ty → s'.idType = some ty) :
    s.Kept FtsConfig.Alike s' where
  attributes := h.attributes
  fts _ c hc := ⟨c, h.fts ▸ hc, .refl c⟩
  embed _ _ he := h.embed ▸ he
  idType := hid
  dim := h.dim
  numShards _ hn := h.numShards.trans hn

end Schema.Kept

/-! ## Declarations -/

/-- Declared settings that are adopted are related to those they replace. -/
theorem declareInto_keeps {α : Type} {R : α → α → Prop} {same : α → α → Bool}
    {conflict : String → α → α → Error} (hrefl : ∀ a, R a a) (htrans : ∀ a b c, R a b → R b c → R a c)
    (hsame : ∀ a b, same a b = true → R a b) {es : List (String × α)} {m m' : SortedMap String α}
    (h : declareInto same conflict es m = .ok m') {key : String} {a : α} (ha : m.get key = some a) :
    ∃ b, m'.get key = some b ∧ R a b := by
  induction es generalizing m a with
  | nil =>
      cases h
      exact ⟨a, ha, hrefl a⟩
  | cons e es ih =>
      rw [declareInto] at h
      by_cases hkey : e.1 = key
      · rw [hkey, ha] at h
        dsimp only at h
        split_ifs at h with hs
        obtain ⟨b, hb, hR⟩ := ih h (SortedMap.get_insert_self m key e.2)
        exact ⟨b, hb, htrans _ _ _ (hsame _ _ hs) hR⟩
      · have hget : (m.insert e.1 e.2).get key = some a := by
          rw [SortedMap.get_insert_of_ne _ _ hkey, ha]
        split at h
        · split_ifs at h
          exact ih h hget
        · exact ih h hget

/-- Declared settings that are compared bit by bit stay what they were. -/
theorem declareInto_stays {α : Type} [DecidableEq α] {conflict : String → α → α → Error}
    {es : List (String × α)} {m m' : SortedMap String α}
    (h : declareInto (fun a b => a = b) conflict es m = .ok m') {key : String} {a : α}
    (ha : m.get key = some a) : m'.get key = some a := by
  obtain ⟨b, hb, rfl⟩ := declareInto_keeps (R := Eq) (fun _ => rfl) (fun _ _ _ => Eq.trans)
    (fun _ _ => of_decide_eq_true) h ha
  exact hb

namespace Schema

variable [Crates] {s s' : Schema}

theorem declare_kept {declared : SortedMap String Ty} (h : s.declare declared = .ok s') :
    s.Kept FtsConfig.Alike s' := by
  obtain ⟨attributes, ha, h⟩ := bind_eq_ok.mp h
  cases h
  exact { Kept.refl s with attributes := fun key ty hty => declareInto_stays ha hty }

theorem declareFts_kept {declared : FtsSchema} (h : s.declareFts declared = .ok s') :
    s.Kept FtsConfig.Alike s' := by
  obtain ⟨fts, hf, h⟩ := bind_eq_ok.mp h
  cases h
  exact { Kept.refl s with
    fts := fun key c hc => declareInto_keeps FtsConfig.Alike.refl (fun _ _ _ => .trans)
      (fun _ _ => .inr) hf hc }

theorem declareEmbed_kept {declared : SortedMap String EmbedSpec}
    (h : s.declareEmbed declared = .ok s') : s.Kept FtsConfig.Alike s' := by
  obtain ⟨embed, he, h⟩ := bind_eq_ok.mp h
  cases h
  exact { Kept.refl s with embed := fun key e hkey => declareInto_stays he hkey }

omit [Crates] in
theorem setShards_kept {n : Nat} {hasData : Bool} (h : s.setShards n hasData = .ok s') :
    s.Kept FtsConfig.Alike s' := by
  obtain ⟨rfl, -, -, hold⟩ := setShards_eq_ok h
  refine { Kept.refl s with numShards := fun k hk => ?_ }
  rcases hold with hsome | ⟨hnone, -⟩
  · exact hsome.symm.trans hk
  · cases hnone.symm.trans hk

omit [Crates] in
theorem setMetric_kept {metric : DistanceMetric} {hasData : Bool}
    (h : s.setMetric metric hasData = .ok s') :
    s.Kept FtsConfig.Alike s' ∧ (hasData = true → s'.distanceMetric = s.distanceMetric) := by
  obtain rfl := setMetric_eq_ok h
  refine ⟨{ Kept.refl s with }, fun hdata => ?_⟩
  rw [setMetric, if_pos hdata] at h
  split_ifs at h with heq
  exact heq.symm

/-! ## Absorbed records fit -/

/-- The record's id has the id type of the schema, and its values have the types of their attributes;
null has no type. -/
structure Fits (s : Schema) (r : Record) : Prop where
  id : s.idType = some r.id.typeOf
  attrs : ∀ key v ty, r.attrs.get key = some v → v.typeOf = some ty → s.attributes.get key = some ty

omit [Crates] in
theorem Fits.kept {alike : FtsConfig → FtsConfig → Prop} {r : Record} (h : s.Fits r)
    (hs : s.Kept alike s') : s'.Fits r :=
  ⟨hs.idType _ h.id, fun key v ty hv hty => hs.attributes key ty (h.attrs key v ty hv hty)⟩

end Schema

/-- Coercing an id gives one of the type. -/
theorem Id.typeOf_coerce [Crates] {id id' : Id} {ty : IdType} (h : id.coerce ty = .ok id') :
    id'.typeOf = ty := by
  rw [Id.coerce.eq_def] at h
  split_ifs at h with hty
  · cases h
    exact hty
  · split at h
    · split at h
      · cases h
        rfl
      · cases h
    · obtain ⟨n, -, rfl⟩ := map_eq_ok.mp h
      rfl
    · cases h
      rfl
    · cases h
      rfl
    · cases h

namespace Schema

variable [Crates] {s s' : Schema}

/-- An id that is absorbed has the id type, which is kept. -/
theorem absorbId_fits {id id' : Id} (h : s.absorbId id = .ok (s', id')) :
    s'.idType = some id'.typeOf ∧ ∀ ty, s.idType = some ty → s'.idType = some ty := by
  rw [absorbId] at h
  split at h
  · next hnone =>
    cases h
    refine ⟨rfl, fun ty hty => ?_⟩
    rw [hnone] at hty
    cases hty
  · next ty hsome =>
    obtain ⟨i, hi, hs⟩ := map_eq_ok.mp h
    cases hs
    exact ⟨hsome.trans (congrArg some (Id.typeOf_coerce (mapErr_eq_ok.mp hi)).symm), fun _ h => h⟩

/-- A value that is absorbed has the type of its attribute. -/
theorem absorbValue_fits {types types' : SortedMap String Ty} {id : Id} {key : String}
    {value value' : Value} (h : absorbValue types id key value = .ok (types', value')) {ty : Ty}
    (hty : value'.typeOf = some ty) : types'.get key = some ty := by
  rw [absorbValue] at h
  split at h
  · next declared hsome =>
    obtain ⟨v, hv, heq⟩ := map_eq_ok.mp h
    cases heq
    rcases Value.typeOf_coerce (mapErr_eq_ok.mp hv) with hnull | hd
    · obtain rfl := Value.eq_null_of_isNull hnull
      cases hty
    · exact hsome.trans (hd.symm.trans hty)
  · split at h
    · next inferred hinferred =>
      cases h
      rw [SortedMap.get_insert_self]
      exact hinferred.symm.trans hty
    · next hnone =>
      cases h
      cases hnone.symm.trans hty

theorem absorbEntries_fits {id : Id} {types types' : SortedMap String Ty}
    {es es' : List (String × Value)} (h : absorbEntries id types es = .ok (types', es')) :
    ∀ e ∈ es', ∀ ty, e.2.typeOf = some ty → types'.get e.1 = some ty := by
  induction es generalizing types es' with
  | nil =>
      cases h
      exact nofun
  | cons e es ih =>
      obtain ⟨⟨types₁, v⟩, h₁, h⟩ := bind_eq_ok.mp h
      obtain ⟨⟨types₂, rest⟩, h₂, h⟩ := bind_eq_ok.mp h
      cases h
      intro e' he' ty hty
      rcases List.mem_cons.mp he' with rfl | he'
      · exact absorbEntries_extends h₂ _ _ (absorbValue_fits h₁ hty)
      · exact ih h₂ e' he' ty hty

theorem absorbAttrs_fits {attrs attrs' : Attrs} {id : Id}
    (h : s.absorbAttrs attrs id = .ok (s', attrs')) :
    s'.idType = s.idType ∧ ∀ key v ty, attrs'.get key = some v → v.typeOf = some ty →
      s'.attributes.get key = some ty := by
  obtain ⟨⟨types, es⟩, hes, h⟩ := bind_eq_ok.mp h
  cases h
  exact ⟨rfl, fun key v ty hv hty => absorbEntries_fits hes (key, v) (SortedMap.mem_of_get_ofList hv) ty
    hty⟩

omit [Crates] in
theorem absorbVector_idType {vector : List F32} {id : Id} [Crates]
    (h : s.absorbVector vector id = .ok s') : s'.idType = s.idType := by
  obtain ⟨-, -, rfl⟩ | ⟨-, -, rfl⟩ := absorbVector_eq_ok h
  · rfl
  · rfl

/-- A record that is absorbed fits the schema it leaves, which keeps the id type. -/
theorem absorbRecord_fits {r r' : Record} (h : s.absorbRecord r = .ok (s', r')) :
    s'.Fits r' ∧ ∀ ty, s.idType = some ty → s'.idType = some ty := by
  cases r with
  | upsert doc =>
      obtain ⟨⟨s₁, id⟩, h₁, h⟩ := bind_eq_ok.mp h
      obtain ⟨s₂, h₂, h⟩ := bind_eq_ok.mp h
      obtain ⟨⟨s₃, attrs⟩, h₃, h⟩ := bind_eq_ok.mp h
      cases h
      obtain ⟨hid, hkeep⟩ := absorbId_fits h₁
      obtain ⟨heq, hattrs⟩ := absorbAttrs_fits h₃
      have hsame : s'.idType = s₁.idType := heq.trans (absorbVector_idType h₂)
      exact ⟨⟨hsame.trans hid, hattrs⟩, fun ty hty => hsame.trans (hkeep ty hty)⟩
  | patch id attrs =>
      obtain ⟨⟨s₁, id⟩, h₁, h⟩ := bind_eq_ok.mp h
      obtain ⟨⟨s₂, attrs⟩, h₂, h⟩ := bind_eq_ok.mp h
      cases h
      obtain ⟨hid, hkeep⟩ := absorbId_fits h₁
      obtain ⟨heq, hattrs⟩ := absorbAttrs_fits h₂
      exact ⟨⟨heq.trans hid, hattrs⟩, fun ty hty => heq.trans (hkeep ty hty)⟩
  | delete id =>
      obtain ⟨⟨s₁, id⟩, h₁, h⟩ := bind_eq_ok.mp h
      cases h
      obtain ⟨hid, hkeep⟩ := absorbId_fits h₁
      exact ⟨⟨hid, nofun⟩, hkeep⟩

theorem absorbRecord_kept {r r' : Record} (h : s.absorbRecord r = .ok (s', r')) :
    s.Kept FtsConfig.Alike s' := .of_extends (absorbRecord_extends h) (absorbRecord_fits h).2

/-- **A batch that is absorbed** fits the schema it leaves, which keeps what was set. -/
theorem absorb_fits {s s' : Schema} {rs rs' : List Record} (h : s.absorb rs = .ok (s', rs')) :
    (∀ r ∈ rs', s'.Fits r) ∧ s.Kept FtsConfig.Alike s' := by
  induction rs generalizing s rs' with
  | nil =>
      cases h
      exact ⟨nofun, .refl _⟩
  | cons r rs ih =>
      obtain ⟨⟨s₁, r₁⟩, h₁, h⟩ := bind_eq_ok.mp h
      obtain ⟨⟨s₂, rs₂⟩, h₂, h⟩ := bind_eq_ok.mp h
      cases h
      obtain ⟨hfits, hkept⟩ := ih h₂
      refine ⟨fun r' hr' => ?_, (absorbRecord_kept h₁).trans hkept⟩
      rcases List.mem_cons.mp hr' with rfl | hr'
      · exact (absorbRecord_fits h₁).1.kept hkept
      · exact hfits r' hr'

end Schema

/-- **A write that is accepted** keeps what was set, the metric if there is data, and its batch fits. -/
theorem prepareRecords_kept [Crates] {records batch : List Record} {config : WriteConfig} {m : Manifest}
    {schema : Schema} (h : prepareRecords records config m = .ok (schema, batch)) :
    m.schema.Kept FtsConfig.Alike schema ∧ (∀ r ∈ batch, schema.Fits r) ∧
      (m.hasData = true → schema.distanceMetric = m.schema.distanceMetric) := by
  obtain ⟨s₁, s₂, s₃, s₄, s₅, h₁, h₂, h₃, h₄, h₅, habsorb⟩ := prepareRecords_steps h
  obtain ⟨hfits, hkept⟩ := Schema.absorb_fits habsorb
  have hmetric : m.schema.Kept FtsConfig.Alike s₁ ∧
      (m.hasData = true → s₁.distanceMetric = m.schema.distanceMetric) := by
    cases hm : config.metric with
    | none =>
        rw [hm] at h₁
        cases h₁
        exact ⟨.refl _, fun _ => rfl⟩
    | some metric =>
        rw [hm] at h₁
        exact Schema.setMetric_kept h₁
  have hshards : s₃.Kept FtsConfig.Alike s₄ ∧ s₄.distanceMetric = s₃.distanceMetric := by
    cases hn : config.numShards with
    | none =>
        rw [hn] at h₄
        cases h₄
        exact ⟨.refl _, rfl⟩
    | some n =>
        rw [hn] at h₄
        refine ⟨Schema.setShards_kept h₄, ?_⟩
        obtain ⟨rfl, -⟩ := Schema.setShards_eq_ok h₄
        rfl
  refine ⟨hmetric.1.trans ((Schema.declare_kept h₂).trans ((Schema.declareFts_kept h₃).trans
    (hshards.1.trans ((Schema.declareEmbed_kept h₅).trans hkept)))), hfits, fun hdata => ?_⟩
  -- only the first step adopts a metric
  obtain ⟨attributes, -, h₂⟩ := bind_eq_ok.mp h₂
  obtain ⟨fts, -, h₃⟩ := bind_eq_ok.mp h₃
  obtain ⟨embed, -, h₅⟩ := bind_eq_ok.mp h₅
  cases h₂
  cases h₃
  cases h₅
  calc schema.distanceMetric = s₄.distanceMetric := (Schema.absorb_extends habsorb).distanceMetric
    _ = s₁.distanceMetric := hshards.2
    _ = m.schema.distanceMetric := hmetric.2 hdata

/-! ## What is made of records -/

section Stored

variable {schema schema' : Schema}

/-- A merge takes every value from the document or from the patch. -/
theorem of_get_mergeAttrs {attrs : Attrs} {es : List (String × Value)} {key : String} {v : Value}
    (h : (mergeAttrs attrs es).get key = some v) : attrs.get key = some v ∨ (key, v) ∈ es := by
  induction es generalizing attrs with
  | nil => exact .inl h
  | cons e es ih =>
      rw [mergeAttrs] at h
      rcases ih h with hget | hmem
      · by_cases hkey : e.1 = key
        · subst hkey
          split_ifs at hget
          · rw [SortedMap.get_erase_self] at hget
            cases hget
          · rw [SortedMap.get_insert_self] at hget
            obtain rfl := Option.some.inj hget
            exact .inr List.mem_cons_self
        · split_ifs at hget
          · rw [SortedMap.get_erase_of_ne _ hkey] at hget
            exact .inl hget
          · rw [SortedMap.get_insert_of_ne _ _ hkey] at hget
            exact .inl hget
      · exact .inr (List.mem_cons_of_mem _ hmem)

/-- Every document of a live set fits. -/
def Live.Fits (schema : Schema) (live : Live) : Prop :=
  ∀ id d, live.get id = some d → schema.Fits (.upsert d)

theorem Live.Fits.apply {live : Live} (h : Live.Fits schema live) {r : Record} (hr : schema.Fits r) :
    Live.Fits schema (Fckdb.apply live r) := by
  intro id d hd
  rw [get_apply] at hd
  split_ifs at hd with hid
  · cases r with
    | upsert doc =>
        obtain rfl := Option.some.inj hd
        exact hr
    | patch i attrs =>
        obtain ⟨doc, hdoc, rfl⟩ := Option.map_eq_some_iff.mp hd
        have hold := h id doc hdoc
        refine ⟨hold.id, fun key v ty hv hty => ?_⟩
        rcases of_get_mergeAttrs hv with hget | hmem
        · exact hold.attrs key v ty hget hty
        · exact hr.attrs key v ty (SortedMap.get_eq_some_iff.mpr hmem) hty
    | delete i => cases hd
  · exact h id d hd

/-- **The documents of records that fit** fit. -/
theorem materialize_fits {rs : List Record} (h : ∀ r ∈ rs, schema.Fits r) :
    ∀ d ∈ (materialize rs).values, schema.Fits (.upsert d) := by
  have hreplay (live : Live) (hlive : Live.Fits schema live) :
      Live.Fits schema (replay apply live rs) := by
    induction rs generalizing live with
    | nil => exact hlive
    | cons r rs ih =>
        rw [replay_cons]
        exact ih (fun r' hr' => h r' (List.mem_cons_of_mem _ hr')) _
          (hlive.apply (h r List.mem_cons_self))
  intro d hd
  obtain ⟨id, hid⟩ := SortedMap.mem_values_iff.mp hd
  exact hreplay .empty nofun id d hid

/-- The records and the ids that an object stores fit. -/
def Blob.Fits (schema : Schema) : Blob → Prop
  | .records rs => ∀ r ∈ rs, schema.Fits r
  | .ids xs => ∀ id ∈ xs, schema.idType = some id.typeOf
  | _ => True

theorem Blob.Fits.kept {alike : FtsConfig → FtsConfig → Prop} {b : Blob} (h : b.Fits schema)
    (hs : schema.Kept alike schema') : b.Fits schema' := by
  cases b with
  | records rs => exact fun r hr => (h r hr).kept hs
  | ids xs => exact fun id hid => hs.idType _ (h id hid)
  | centroids | attr | fts | sparse => trivial

/-- What is built from documents that fit, fits. -/
theorem Blob.Of.fits {docs : List Doc} {b : Blob} (h : Blob.Of docs b)
    (hdocs : ∀ d ∈ docs, schema.Fits (.upsert d)) : b.Fits schema := by
  cases h with
  | upserts ds hds =>
      intro r hr
      obtain ⟨d, hd, rfl⟩ := List.mem_map.mp hr
      exact hdocs d (hds hd)
  | ids =>
      intro id hid
      obtain ⟨d, hd, rfl⟩ := List.mem_map.mp hid
      exact (hdocs d hd).id
  | centroids | attr | fts | sparse => trivial

end Stored

end Fckdb
