import Fckdb.Namespace

/-! # What a write makes of the schema

A batch only adds: it fixes the id type and the dimension and declares attribute types, and keeps every
other setting (`Schema.Extends`). A configuration is adopted as a whole or refused: the schema a
successful write starts its batch from is `Schema.configured`. -/

namespace Fckdb

/-! ## Batches -/

namespace Schema

/-- From `s` to `s'` nothing set was changed, and only the id type, the dimension and attribute types
were added. -/
structure Extends (s s' : Schema) : Prop where
  distanceMetric : s'.distanceMetric = s.distanceMetric
  numShards : s'.numShards = s.numShards
  fts : s'.fts = s.fts
  embed : s'.embed = s.embed
  dim : ∀ d, s.dim = some d → s'.dim = some d
  attributes : ∀ key ty, s.attributes.get key = some ty → s'.attributes.get key = some ty

namespace Extends

variable {s s' s'' : Schema}

theorem refl (s : Schema) : s.Extends s := ⟨rfl, rfl, rfl, rfl, fun _ h => h, fun _ _ h => h⟩

theorem trans (h : s.Extends s') (h' : s'.Extends s'') : s.Extends s'' :=
  ⟨h'.distanceMetric.trans h.distanceMetric, h'.numShards.trans h.numShards, h'.fts.trans h.fts,
    h'.embed.trans h.embed, fun d hd => h'.dim d (h.dim d hd),
    fun key ty hty => h'.attributes key ty (h.attributes key ty hty)⟩

end Extends

variable [Crates] {s s' : Schema}

theorem absorbId_extends {id id' : Id} (h : s.absorbId id = .ok (s', id')) : s.Extends s' := by
  rw [absorbId] at h
  split at h
  · cases h
    exact ⟨rfl, rfl, rfl, rfl, fun _ h => h, fun _ _ h => h⟩
  · obtain ⟨i, -, hi⟩ := map_eq_ok.mp h
    cases hi
    exact .refl s

/-- **An accepted vector** is empty on a schema without a dimension, or fixes or meets the dimension. -/
theorem absorbVector_eq_ok {vector : List F32} {id : Id} (h : s.absorbVector vector id = .ok s') :
    vector = [] ∧ s.dim = none ∧ s' = s ∨
      vector ≠ [] ∧ (s.dim = none ∨ s.dim = some vector.length) ∧
        s' = { s with dim := some vector.length } := by
  rw [absorbVector] at h
  by_cases hempty : vector.isEmpty = true
  · rw [if_pos hempty] at h
    split_ifs at h with hdim
    cases h
    exact .inl ⟨List.isEmpty_iff.mp hempty, Option.not_isSome_iff_eq_none.mp hdim, rfl⟩
  rw [if_neg hempty] at h
  refine .inr ⟨fun hnil => hempty (List.isEmpty_iff.mpr hnil), ?_⟩
  cases hd : s.dim with
  | none =>
      rw [hd] at h
      simp only [pure_bind] at h
      split_ifs at h
      · cases h
      · cases h
        exact ⟨.inl rfl, rfl⟩
  | some dim =>
      rw [hd] at h
      dsimp only at h
      by_cases hlen : dim = vector.length
      · rw [if_neg (not_not.mpr hlen)] at h
        simp only [pure_bind] at h
        split_ifs at h
        · cases h
        · cases h
          subst hlen
          exact ⟨.inr rfl, by rw [← hd]⟩
      · rw [if_pos hlen] at h
        cases h

theorem absorbVector_extends {vector : List F32} {id : Id} (h : s.absorbVector vector id = .ok s') :
    s.Extends s' := by
  obtain ⟨-, -, rfl⟩ | ⟨-, hdim, rfl⟩ := absorbVector_eq_ok h
  · exact .refl _
  · refine ⟨rfl, rfl, rfl, rfl, fun d hd => ?_, fun _ _ h => h⟩
    rcases hdim with hnone | hsome
    · exact nomatch hnone.symm.trans hd
    · exact hsome ▸ hd

theorem absorbValue_extends {types types' : SortedMap String Ty} {id : Id} {key : String}
    {value value' : Value} (h : absorbValue types id key value = .ok (types', value')) (k : String)
    (ty : Ty) (hk : types.get k = some ty) : types'.get k = some ty := by
  rw [absorbValue] at h
  split at h
  · obtain ⟨v, -, hv⟩ := map_eq_ok.mp h
    cases hv
    exact hk
  · next hnone =>
    split at h
    · cases h
      -- a new key is declared
      have hne : key ≠ k := by
        rintro rfl
        rw [hnone] at hk
        cases hk
      rw [SortedMap.get_insert_of_ne _ _ hne]
      exact hk
    · cases h
      exact hk

theorem absorbEntries_extends {id : Id} {types types' : SortedMap String Ty}
    {es es' : List (String × Value)} (h : absorbEntries id types es = .ok (types', es')) (k : String)
    (ty : Ty) (hk : types.get k = some ty) : types'.get k = some ty := by
  induction es generalizing types es' with
  | nil =>
      cases h
      exact hk
  | cons e es ih =>
      obtain ⟨⟨types₁, v⟩, h₁, h⟩ := bind_eq_ok.mp h
      obtain ⟨⟨types₂, rest⟩, h₂, h⟩ := bind_eq_ok.mp h
      cases h
      exact ih h₂ (absorbValue_extends h₁ k ty hk)

theorem absorbAttrs_extends {attrs attrs' : Attrs} {id : Id}
    (h : s.absorbAttrs attrs id = .ok (s', attrs')) : s.Extends s' := by
  obtain ⟨⟨types, es⟩, hes, h⟩ := bind_eq_ok.mp h
  cases h
  exact ⟨rfl, rfl, rfl, rfl, fun _ h => h, absorbEntries_extends hes⟩

theorem absorbRecord_extends {r r' : Record} (h : s.absorbRecord r = .ok (s', r')) : s.Extends s' := by
  cases r with
  | upsert doc =>
      obtain ⟨⟨s₁, id⟩, h₁, h⟩ := bind_eq_ok.mp h
      obtain ⟨s₂, h₂, h⟩ := bind_eq_ok.mp h
      obtain ⟨⟨s₃, attrs⟩, h₃, h⟩ := bind_eq_ok.mp h
      cases h
      exact ((absorbId_extends h₁).trans (absorbVector_extends h₂)).trans (absorbAttrs_extends h₃)
  | patch id attrs =>
      obtain ⟨⟨s₁, id⟩, h₁, h⟩ := bind_eq_ok.mp h
      obtain ⟨⟨s₂, attrs⟩, h₂, h⟩ := bind_eq_ok.mp h
      cases h
      exact (absorbId_extends h₁).trans (absorbAttrs_extends h₂)
  | delete id =>
      obtain ⟨⟨s₁, id⟩, h₁, h⟩ := bind_eq_ok.mp h
      cases h
      exact absorbId_extends h₁

/-- **A batch only adds to the schema.** -/
theorem absorb_extends {s s' : Schema} {rs rs' : List Record} (h : s.absorb rs = .ok (s', rs')) :
    s.Extends s' := by
  induction rs generalizing s rs' with
  | nil =>
      cases h
      exact .refl _
  | cons r rs ih =>
      obtain ⟨⟨s₁, r₁⟩, h₁, h⟩ := bind_eq_ok.mp h
      obtain ⟨⟨s₂, rs₂⟩, h₂, h⟩ := bind_eq_ok.mp h
      cases h
      exact (absorbRecord_extends h₁).trans (ih h₂)

/-- The dimension changes to the length of a vector only. -/
theorem absorbRecord_dim {r r' : Record} (h : s.absorbRecord r = .ok (s', r')) :
    s'.dim = s.dim ∨ ∃ doc, r = .upsert doc ∧ doc.vector ≠ [] ∧ s'.dim = some doc.vector.length := by
  have hid {s s' : Schema} {id id' : Id} (h : s.absorbId id = .ok (s', id')) : s'.dim = s.dim := by
    rw [absorbId] at h
    split at h
    · cases h
      rfl
    · obtain ⟨i, -, hi⟩ := map_eq_ok.mp h
      cases hi
      rfl
  have hattrs {s s' : Schema} {attrs attrs' : Attrs} {id : Id}
      (h : s.absorbAttrs attrs id = .ok (s', attrs')) : s'.dim = s.dim := by
    obtain ⟨⟨types, es⟩, -, h⟩ := bind_eq_ok.mp h
    cases h
    rfl
  cases r with
  | upsert doc =>
      obtain ⟨⟨s₁, id⟩, h₁, h⟩ := bind_eq_ok.mp h
      obtain ⟨s₂, h₂, h⟩ := bind_eq_ok.mp h
      obtain ⟨⟨s₃, attrs⟩, h₃, h⟩ := bind_eq_ok.mp h
      cases h
      obtain ⟨-, -, rfl⟩ | ⟨hne, -, rfl⟩ := absorbVector_eq_ok h₂
      · exact .inl ((hattrs h₃).trans (hid h₁))
      · exact .inr ⟨doc, rfl, hne, hattrs h₃⟩
  | patch id attrs =>
      obtain ⟨⟨s₁, id⟩, h₁, h⟩ := bind_eq_ok.mp h
      obtain ⟨⟨s₂, attrs⟩, h₂, h⟩ := bind_eq_ok.mp h
      cases h
      exact .inl ((hattrs h₂).trans (hid h₁))
  | delete id =>
      obtain ⟨⟨s₁, id⟩, h₁, h⟩ := bind_eq_ok.mp h
      cases h
      exact .inl (hid h₁)

/-- A dimension that is fixed is not zero. -/
theorem absorb_dim_ne_zero {s s' : Schema} {rs rs' : List Record} (h : s.absorb rs = .ok (s', rs'))
    (hs : s.dim ≠ some 0) : s'.dim ≠ some 0 := by
  induction rs generalizing s rs' with
  | nil =>
      cases h
      exact hs
  | cons r rs ih =>
      obtain ⟨⟨s₁, r₁⟩, h₁, h⟩ := bind_eq_ok.mp h
      obtain ⟨⟨s₂, rs₂⟩, h₂, h⟩ := bind_eq_ok.mp h
      cases h
      refine ih h₂ ?_
      obtain heq | ⟨doc, -, hne, heq⟩ := absorbRecord_dim h₁
      · rwa [heq]
      · rw [heq]
        exact fun h => hne (List.eq_nil_of_length_eq_zero (Option.some.inj h))

end Schema

/-! ## Configurations -/

/-- Declared settings that are adopted are all there, over what was. -/
theorem declareInto_eq_ok {α : Type} {same : α → α → Bool} {conflict : String → α → α → Error}
    {es : List (String × α)} {m m' : SortedMap String α} (h : declareInto same conflict es m = .ok m') :
    m' = m.insertAll es := by
  induction es generalizing m with
  | nil =>
      cases h
      rfl
  | cons e es ih =>
      rw [declareInto] at h
      rw [SortedMap.insertAll_cons]
      split at h
      · split_ifs at h
        exact ih h
      · exact ih h

/-- A schema with a configuration adopted. -/
def Schema.configured (s : Schema) (c : WriteConfig) : Schema :=
  { s with
    distanceMetric := c.metric.getD s.distanceMetric
    attributes := s.attributes.insertAll c.declaredTypes.entries
    fts := s.fts.insertAll c.declaredFts.entries
    numShards := c.numShards.or s.numShards
    embed := s.embed.insertAll c.declaredEmbed.entries }

/-- A shard count that is adopted is the one already set, or the first of a namespace without data. -/
theorem Schema.setShards_eq_ok {s s' : Schema} {n : Nat} {hasData : Bool}
    (h : s.setShards n hasData = .ok s') :
    s' = { s with numShards := some n } ∧ 0 < n ∧ n ≤ 256 ∧
      (s.numShards = some n ∨ s.numShards = none ∧ hasData = false) := by
  rw [Schema.setShards] at h
  split at h
  · cases h
  next hn =>
  rw [not_or, Nat.not_lt] at hn
  split at h
  · next hnone =>
    split at h
    · cases h
    next hdata =>
    cases h
    exact ⟨rfl, Nat.pos_of_ne_zero hn.1, hn.2, .inr ⟨hnone, Bool.not_eq_true _ ▸ hdata⟩⟩
  · next current hsome =>
    split_ifs at h with heq
    cases h
    subst heq
    refine ⟨?_, Nat.pos_of_ne_zero hn.1, hn.2, .inl hsome⟩
    rw [← hsome]

theorem Schema.setMetric_eq_ok {s s' : Schema} {metric : DistanceMetric} {hasData : Bool}
    (h : s.setMetric metric hasData = .ok s') : s' = { s with distanceMetric := metric } := by
  rw [Schema.setMetric] at h
  split_ifs at h with hdata heq
  · cases h
    subst heq
    rfl
  · cases h
    rfl

variable [Crates]

/-- The steps of a write that is accepted. -/
theorem prepareRecords_steps {records batch : List Record} {config : WriteConfig} {m : Manifest}
    {schema : Schema} (h : prepareRecords records config m = .ok (schema, batch)) :
    ∃ s₁ s₂ s₃ s₄ s₅, config.metric.elim (.ok m.schema) (m.schema.setMetric · m.hasData) = .ok s₁ ∧
      s₁.declare config.declaredTypes = .ok s₂ ∧ s₂.declareFts config.declaredFts = .ok s₃ ∧
      config.numShards.elim (.ok s₃) (s₃.setShards · m.hasData) = .ok s₄ ∧
      s₄.declareEmbed config.declaredEmbed = .ok s₅ ∧ s₅.absorb records = .ok (schema, batch) := by
  have hseq : prepareRecords records config m = (do
      let s ← config.metric.elim (.ok m.schema) (m.schema.setMetric · m.hasData)
      let s ← s.declare config.declaredTypes
      let s ← s.declareFts config.declaredFts
      let s ← config.numShards.elim (.ok s) (s.setShards · m.hasData)
      let s ← s.declareEmbed config.declaredEmbed
      s.absorb records) := by
    rw [prepareRecords]
    cases config.metric <;> cases config.numShards <;> rfl
  rw [hseq] at h
  obtain ⟨s₁, h₁, h⟩ := bind_eq_ok.mp h
  obtain ⟨s₂, h₂, h⟩ := bind_eq_ok.mp h
  obtain ⟨s₃, h₃, h⟩ := bind_eq_ok.mp h
  obtain ⟨s₄, h₄, h⟩ := bind_eq_ok.mp h
  obtain ⟨s₅, h₅, h⟩ := bind_eq_ok.mp h
  exact ⟨s₁, s₂, s₃, s₄, s₅, h₁, h₂, h₃, h₄, h₅, h⟩

/-- **A write that is accepted** adopts its whole configuration, then absorbs its records. -/
theorem prepareRecords_eq_ok {records batch : List Record} {config : WriteConfig} {m : Manifest}
    {schema : Schema} (h : prepareRecords records config m = .ok (schema, batch)) :
    (m.schema.configured config).absorb records = .ok (schema, batch) ∧
      ∀ n, config.numShards = some n → 0 < n ∧ n ≤ 256 ∧
        (m.schema.numShards = some n ∨ m.schema.numShards = none ∧ m.hasData = false) := by
  obtain ⟨s₁, s₂, s₃, s₄, s₅, h₁, h₂, h₃, h₄, h₅, h⟩ := prepareRecords_steps h
  have hmetric : s₁ = { m.schema with
      distanceMetric := config.metric.getD m.schema.distanceMetric } := by
    cases hm : config.metric with
    | none =>
        rw [hm] at h₁
        cases h₁
        rfl
    | some metric =>
        rw [hm] at h₁
        exact Schema.setMetric_eq_ok h₁
  obtain ⟨attributes, ha, h₂⟩ := bind_eq_ok.mp h₂
  obtain ⟨fts, hf, h₃⟩ := bind_eq_ok.mp h₃
  obtain ⟨embed, he, h₅⟩ := bind_eq_ok.mp h₅
  obtain rfl := declareInto_eq_ok ha
  obtain rfl := declareInto_eq_ok hf
  obtain rfl := declareInto_eq_ok he
  cases h₂
  cases h₃
  cases h₅
  subst hmetric
  -- the shard count is adopted last of what may be refused for the data that is there
  cases hn : config.numShards with
  | none =>
      rw [hn] at h₄
      cases h₄
      refine ⟨?_, nofun⟩
      rw [Schema.configured, hn]
      exact h
  | some n =>
      rw [hn] at h₄
      obtain ⟨rfl, hpos, hle, hold⟩ := Schema.setShards_eq_ok h₄
      refine ⟨?_, fun k hk => Option.some.inj hk ▸ ⟨hpos, hle, hold⟩⟩
      rw [Schema.configured, hn]
      exact h

end Fckdb
