import Fckdb.Committer
import Fckdb.Compat
import Fckdb.TypedRecords
import Fckdb.WriteAlone

/-! # The vectors of embedded rows

A `/v2` write logs a document for each of its rows. A row with a vector keeps it; one without gets the vector that
the endpoint made of its own text, by the model of the first spec (`Compat.Row.logged`). The schema that the
write leaves has the specs that were there and those declared (`Schema.Adopts`), so the model is that of the
attribute the text is from only where their specs agree (`Compat.V2Write.embedsEach_iff`). -/

namespace Fckdb

/-! ## Related lists -/

section Related

variable {α β : Type} {R : α → β → Prop}

/-- What is related to two lists after each other is two such lists. -/
theorem forall₂_append {a b : List α} {l : List β} (h : List.Forall₂ R (a ++ b) l) :
    ∃ l₁ l₂, l = l₁ ++ l₂ ∧ List.Forall₂ R a l₁ ∧ List.Forall₂ R b l₂ := by
  induction a generalizing l with
  | nil => exact ⟨[], l, rfl, .nil, h⟩
  | cons x a ih =>
      obtain ⟨y, rest, hxy, hrest, rfl⟩ := List.forall₂_cons_left_iff.mp h
      obtain ⟨l₁, l₂, rfl, h₁, h₂⟩ := ih hrest
      exact ⟨y :: l₁, l₂, rfl, .cons hxy h₁, h₂⟩

/-- An element is related to the one at its place. -/
theorem forall₂_getElem? {a : List α} {l : List β} (h : List.Forall₂ R a l) {i : Nat} {x : α}
    (hx : a[i]? = some x) : ∃ y, l[i]? = some y ∧ R x y := by
  obtain ⟨hi, rfl⟩ := List.getElem?_eq_some_iff.mp hx
  have hi' : i < l.length := h.length_eq ▸ hi
  exact ⟨l[i], List.getElem?_eq_getElem hi', h.get hi hi'⟩

end Related

namespace Compat

/-! ## Rows and texts -/

/-- The text in one attribute of a row. -/
def Row.textAt (row : Row) (key : String) : Option String := (row.attrs.get key).bind attributeText

section Rows

variable {rows : List Row} {row : Row} {embed : SortedMap String EmbedSpec} {i : Nat} {text : String}

/-- The text of a row is in an attribute to embed. -/
theorem Row.textAt_of_text (h : row.text embed = some text) :
    ∃ key spec, embed.get key = some spec ∧ row.textAt key = some text := by
  obtain ⟨key, hkey, htext⟩ := List.exists_of_findSome?_eq_some h
  obtain ⟨e, he, rfl⟩ := List.mem_map.mp hkey
  exact ⟨e.1, e.2, SortedMap.get_eq_some_iff.mpr he, htext⟩

/-- **The rows to embed** are those without a vector that have a text, each with its own. -/
theorem mem_rowsNeedingEmbedding :
    (i, text) ∈ rowsNeedingEmbedding rows embed ↔
      ∃ row, rows[i]? = some row ∧ row.vector = none ∧ row.text embed = some text := by
  rw [rowsNeedingEmbedding]
  split_ifs with hempty
  · refine iff_of_false List.not_mem_nil ?_
    rintro ⟨row, -, -, htext⟩
    obtain ⟨key, spec, hspec, -⟩ := Row.textAt_of_text htext
    rw [SortedMap.get_eq_some_iff, List.isEmpty_iff.mp hempty] at hspec
    cases hspec
  · rw [List.mem_filterMap]
    constructor
    · rintro ⟨⟨row, j⟩, hmem, hslot⟩
      obtain ⟨t, htext, heq⟩ := Option.map_eq_some_iff.mp hslot
      obtain ⟨rfl, rfl⟩ := Prod.mk.inj heq
      obtain ⟨hrow, hnone⟩ := List.mem_filter.mp hmem
      exact ⟨row, List.mem_zipIdx_iff_getElem?.mp hrow, Option.isNone_iff_eq_none.mp hnone, htext⟩
    · rintro ⟨row, hrow, hnone, htext⟩
      refine ⟨(row, i), List.mem_filter.mpr ⟨List.mem_zipIdx_iff_getElem?.mpr hrow, ?_⟩, ?_⟩
      · exact Option.isNone_iff_eq_none.mpr hnone
      · exact Option.map_eq_some_iff.mpr ⟨text, htext, rfl⟩

/-- Attaching vectors changes a row at most in its vector, for one that is attached to it. -/
theorem attachVectors_getElem? (resolved : List (Nat × List F32)) (h : rows[i]? = some row) :
    ∃ row', (attachVectors rows resolved)[i]? = some row' ∧
      (row' = row ∨ ∃ v, (i, v) ∈ resolved ∧ row' = { row with vector := some v }) := by
  induction resolved generalizing rows row with
  | nil => exact ⟨row, h, .inl rfl⟩
  | cons r resolved ih =>
      obtain ⟨index, vector⟩ := r
      by_cases heq : index = i
      · subst heq
        have hmodified : (rows.modify index fun row => { row with vector := some vector })[index]? =
            some { row with vector := some vector } := by
          rw [List.getElem?_modify_eq, h]
          rfl
        obtain ⟨row', hrow', hattached⟩ := ih hmodified
        refine ⟨row', hrow', .inr ?_⟩
        rcases hattached with rfl | ⟨v, hv, rfl⟩
        · exact ⟨vector, List.mem_cons_self, rfl⟩
        · exact ⟨v, List.mem_cons_of_mem _ hv, rfl⟩
      · have hother : (rows.modify index fun row => { row with vector := some vector })[i]? = some row := by
          rwa [List.getElem?_modify_ne _ _ heq]
        obtain ⟨row', hrow', hattached⟩ := ih hother
        exact ⟨row', hrow', hattached.imp_right fun ⟨v, hv, hset⟩ => ⟨v, List.mem_cons_of_mem _ hv, hset⟩⟩

theorem length_attachVectors (rows : List Row) (resolved : List (Nat × List F32)) :
    (attachVectors rows resolved).length = rows.length := by
  induction resolved generalizing rows with
  | nil => rfl
  | cons r resolved ih => exact (ih _).trans (List.length_modify _ _ _)

end Rows

section Call

variable {embedder : Option Embedder} {schema : Schema} {body : V2Write} {call : EmbedCall}

/-- What the call is about. -/
theorem V2Write.embedCall_eq_ok (h : body.embedCall embedder schema = .ok call) :
    call.slots = rowsNeedingEmbedding body.upsertRows (body.embedSpec schema) ∧
      call.model = body.embedModel schema ∧
      embedMany embedder (call.slots.map (·.2)) call.model = .ok call.vectors := by
  obtain ⟨vectors, hvectors, h⟩ := bind_eq_ok.mp h
  cases h
  exact ⟨rfl, rfl, hvectors⟩

/-- **What embedding does to a row**: one with a vector stays as it is, and one without stays as it is or
gets the vector that answers its own text. -/
theorem V2Write.embedded_getElem? (h : body.embedCall embedder schema = .ok call) {i : Nat} {row : Row}
    (hrow : body.upsertRows[i]? = some row) :
    ∃ row', (body.embedded call).upsertRows[i]? = some row' ∧ row'.id = row.id ∧ row'.attrs = row.attrs ∧
      (row'.vector = row.vector ∨ row.vector = none ∧ ∃ (k : Nat) (text : String) (v : List F32),
        call.slots[k]? = some (i, text) ∧ call.vectors[k]? = some v ∧ row'.vector = some v) := by
  obtain ⟨row', hrow', hattached⟩ :=
    attachVectors_getElem? ((call.slots.map (·.1)).zip call.vectors) hrow
  refine ⟨row', hrow', ?_⟩
  rcases hattached with rfl | ⟨v, hv, rfl⟩
  · exact ⟨rfl, rfl, .inl rfl⟩
  refine ⟨rfl, rfl, .inr ?_⟩
  obtain ⟨k, hk⟩ := List.mem_iff_getElem?.mp hv
  obtain ⟨hindex, hvector⟩ := List.getElem?_zip_eq_some.mp hk
  rw [List.getElem?_map] at hindex
  obtain ⟨⟨j, text⟩, hslot, rfl⟩ := Option.map_eq_some_iff.mp hindex
  -- only a row without a vector has a slot
  have hmem := List.mem_of_getElem? hslot
  rw [(embedCall_eq_ok h).1, mem_rowsNeedingEmbedding] at hmem
  obtain ⟨row', hrow', hnone, -⟩ := hmem
  obtain rfl := Option.some.inj (hrow.symm.trans hrow')
  exact ⟨hnone, k, text, v, hslot, hvector, rfl⟩

/-- A slot has the text of its row. -/
theorem V2Write.text_of_slot (h : body.embedCall embedder schema = .ok call) {i k : Nat} {row : Row}
    {text : String} (hrow : body.upsertRows[i]? = some row) (hslot : call.slots[k]? = some (i, text)) :
    row.text (body.embedSpec schema) = some text := by
  have hmem := List.mem_of_getElem? hslot
  rw [(embedCall_eq_ok h).1, mem_rowsNeedingEmbedding] at hmem
  obtain ⟨row', hrow', -, htext⟩ := hmem
  obtain rfl := Option.some.inj (hrow.symm.trans hrow')
  exact htext

end Call

/-! ## Documents -/

section Docs

variable [Crates]

/-- The documents of rows have their ids, their attributes and their vectors. -/
theorem rowDocs_forall₂ {rows : List Row} {docs : List Doc} (h : rowDocs rows = .ok docs) :
    List.Forall₂ (fun row doc => row.vector = some doc.vector ∧ doc.id = row.id ∧ doc.attrs = row.attrs)
      rows docs := by
  induction rows generalizing docs with
  | nil =>
      cases h
      exact .nil
  | cons row rows ih =>
      rw [rowDocs] at h
      split at h
      · cases h
      · next vector hvector =>
        obtain ⟨rest, hrest, h⟩ := bind_eq_ok.mp h
        cases h
        exact .cons ⟨hvector, rfl, rfl⟩ (ih hrest)

end Docs

end Compat

section Absorbed

variable [Crates]

/-- The records of row upserts are their documents. -/
theorem rowUpserts_eq_ok {docs : List Doc} {records : List Record} (h : rowUpserts docs = .ok records) :
    records = docs.map .upsert := by
  induction docs generalizing records with
  | nil =>
      cases h
      rfl
  | cons doc docs ih =>
      rw [rowUpserts] at h
      split_ifs at h
      obtain ⟨rest, hrest, h⟩ := bind_eq_ok.mp h
      cases h
      rw [ih hrest, List.map_cons]

/-- A document is absorbed with its vector. -/
theorem Record.AbsorbedAs.of_upsert {doc : Doc} {r : Record} (h : (Record.upsert doc).AbsorbedAs r) :
    ∃ doc', r = .upsert doc' ∧ doc'.vector = doc.vector := by
  obtain ⟨s, s', h⟩ := h
  obtain ⟨⟨s₁, id⟩, -, h⟩ := bind_eq_ok.mp h
  obtain ⟨s₂, -, h⟩ := bind_eq_ok.mp h
  obtain ⟨⟨s₃, attrs⟩, -, h⟩ := bind_eq_ok.mp h
  cases h
  exact ⟨_, rfl, rfl⟩

/-- The documents of column rows have their vectors. -/
theorem rowDocs_forall₂ {rows : List Row} {records : List Record} (h : rowDocs rows = .ok records) :
    List.Forall₂ (fun row r => ∃ v, row.vector = some v ∧ r = .upsert ⟨row.id, v, row.attrs⟩) rows records := by
  induction rows generalizing records with
  | nil =>
      cases h
      exact .nil
  | cons row rows ih =>
      rw [rowDocs] at h
      split at h
      · cases h
      · next vector hvector =>
        obtain ⟨rest, hrest, h⟩ := bind_eq_ok.mp h
        cases h
        exact .cons ⟨vector, hvector, rfl⟩ (ih hrest)

end Absorbed

/-! ## The specs that a write leaves -/

/-- From `before` to `after` the specs declared are adopted, and no others. -/
def Schema.Adopts (declared : SortedMap String EmbedSpec) (before after : Schema) : Prop :=
  ∀ key spec, after.embed.get key = some spec ↔
    declared.get key = some spec ∨ before.embed.get key = some spec

namespace Schema.Adopts

variable {declared : SortedMap String EmbedSpec} {s₁ s₂ s₃ : Schema}

theorem trans (h : Adopts declared s₁ s₂) (h' : Adopts declared s₂ s₃) : Adopts declared s₁ s₃ := by
  intro key spec
  rw [h' key spec, h key spec, ← or_assoc, or_self]

end Schema.Adopts

/-- **A batch that is accepted** adopts the specs of its write. -/
theorem prepareRecords_adopts [Crates] {records batch : List Record} {config : WriteConfig} {m : Manifest}
    {schema : Schema} (h : prepareRecords records config m = .ok (schema, batch)) :
    Schema.Adopts config.declaredEmbed m.schema schema := by
  intro key spec
  have hembed : schema.embed = m.schema.embed.insertAll config.declaredEmbed.entries :=
    (Schema.absorb_extends (prepareRecords_eq_ok h).1).embed
  have hget : schema.embed.get key = (config.declaredEmbed.get key).or (m.schema.embed.get key) := by
    rw [hembed, SortedMap.get_insertAll config.declaredEmbed.sorted]
    rfl
  constructor
  · intro hspec
    rw [hget, Option.or_eq_some_iff] at hspec
    exact hspec.imp_right And.right
  · rintro (hdeclared | hbefore)
    · rw [hget, hdeclared]
      rfl
    · exact (prepareRecords_kept h).1.embed key spec hbefore

namespace Runs

variable [Crates] {t handle : Nat} {config : WriteConfig} {s s' : Store} {l : Ledger}
  {batches : List (List Record)}

/-- **Batches that are committed one after the other**, by a write with any settings. -/
theorem commitBatches_adopts (hne : ∀ b ∈ batches, b ≠ []) (hbatches : batches ≠ [])
    (h : Settled handle s) (hl : Carries l s) {replies : List (Except Flat Nat)}
    (hruns : Runs t (Fckdb.commitBatches handle config batches) s s' (.ok replies)) {seq n : Nat}
    (hreplies : awaitReplies seq replies = .ok n) :
    ∃ schema rs, Carries ⟨schema, l.log ++ rs⟩ s' ∧ List.Forall₂ Record.AbsorbedAs batches.flatten rs ∧
      Schema.Adopts config.declaredEmbed s.manifest.schema schema := by
  induction batches generalizing s l seq replies with
  | nil => exact absurd rfl hbatches
  | cons b batches ih =>
      obtain ⟨σ₁, rs₁, rest, hb, hrest, hreplies⟩ :=
        of_commitBatches_cons (hne b List.mem_cons_self) h hruns hreplies
      have hwritten : Written handle ⟨σ₁, l.log ++ rs₁⟩ (s.committed t handle σ₁ rs₁) := .committed hl
      have habsorbed := Schema.absorb_forall₂ (prepareRecords_eq_ok hb).1
      rw [List.flatten_cons]
      cases batches with
      | nil =>
          obtain ⟨rfl, -⟩ := unique hrest (done _)
          refine ⟨σ₁, rs₁, hwritten.carries, ?_, prepareRecords_adopts hb⟩
          rwa [List.flatten_nil, List.append_nil]
      | cons b' batches =>
          obtain ⟨schema, rs₂, hcarries, hlater, hadopts⟩ :=
            ih (fun c hc => hne c (List.mem_cons_of_mem _ hc)) (List.cons_ne_nil _ _)
              hwritten.settled hwritten.carries hrest hreplies
          rw [hwritten.carries.schema] at hadopts
          refine ⟨schema, rs₁ ++ rs₂, ?_, List.rel_append habsorbed hlater,
            (prepareRecords_adopts hb).trans hadopts⟩
          rwa [← List.append_assoc]

/-- **A write with any settings** that went well: its records are absorbed, and its specs adopted. -/
theorem writeAll_adopts {cut : Cut} {records : List Record} (hne : records ≠ []) (h : Settled handle s)
    (hl : Carries l s) {n : Nat} (hruns : Runs t (Fckdb.writeAll handle cut records config) s s' (.ok n)) :
    ∃ schema rs, Carries ⟨schema, l.log ++ rs⟩ s' ∧ List.Forall₂ Record.AbsorbedAs records rs ∧
      Schema.Adopts config.declaredEmbed s.manifest.schema schema := by
  obtain ⟨s₁, replies, hbatches, hawait⟩ := of_seq hruns
  obtain ⟨rfl, hreplies⟩ := unique hawait (done _)
  obtain ⟨schema, rs, hcarries, habsorbed, hadopts⟩ :=
    commitBatches_adopts (cut.nonempty records) (cut.ne_nil hne) h hl hbatches hreplies.symm
  rw [cut.flatten] at habsorbed
  exact ⟨schema, rs, hcarries, habsorbed, hadopts⟩

end Runs

/-! ## Writes -/

namespace Compat

section Writes

variable [Crates]

/-- In the documents logged for the rows of a write, a row with a vector keeps it; one without has the
vector made of its own text in some attribute, by the model that the schema has for that attribute. -/
def V2Write.EmbedsEach (body : V2Write) (call : EmbedCall) (schema : Schema) (logged : List Record) : Prop :=
  ∀ i row, body.upsertRows[i]? = some row →
    ∃ doc, logged[i]? = some (.upsert doc) ∧
      (Record.upsert ⟨row.id, doc.vector, row.attrs⟩).AbsorbedAs (.upsert doc) ∧
      (∀ v, row.vector = some v → doc.vector = v) ∧
      (row.vector = none → ∃ (key : String) (spec : EmbedSpec) (text : String) (k : Nat),
        schema.embed.get key = some spec ∧ row.textAt key = some text ∧ call.slots[k]? = some (i, text) ∧
          call.vectors[k]? = some doc.vector ∧ call.model = spec.model)

omit [Crates] in
/-- Every row without a vector has its text in an attribute whose spec has the model of the first. -/
def V2Write.ModelsAgree (body : V2Write) (schema : Schema) : Prop :=
  ∀ row ∈ body.upsertRows, row.vector = none →
    ∃ key spec, (body.declaredEmbed.get key = some spec ∨ schema.embed.get key = some spec) ∧
      row.textAt key = row.text (body.embedSpec schema) ∧ spec.model = body.embedModel schema

/-- The columns of a write are logged with the vectors that they have. -/
def V2Write.ColumnsKept [SerdeJson] (body : V2Write) (logged : List Record) : Prop :=
  ∀ c, body.upsertColumns = some c → ∃ rows, c.transpose = .ok rows ∧
    ∀ (i : Nat) (row : Fckdb.Row), rows[i]? = some row →
      ∃ doc, logged[i]? = some (.upsert doc) ∧
        (Record.upsert ⟨row.id, doc.vector, row.attrs⟩).AbsorbedAs (.upsert doc) ∧ row.vector = some doc.vector

variable {embedder : Option Embedder} {schema : Schema} {body : V2Write} {call : EmbedCall}
  {docs : List Doc} {logged : List Record}

/-- **A row that is logged** has its own vector, or the one that answers its slot. -/
theorem V2Write.logged_row (h : body.embedCall embedder schema = .ok call)
    (hdocs : rowDocs (body.embedded call).upsertRows = .ok docs)
    (hlogged : List.Forall₂ Record.AbsorbedAs (docs.map .upsert) logged) {i : Nat} {row : Row}
    (hrow : body.upsertRows[i]? = some row) :
    ∃ doc, logged[i]? = some (.upsert doc) ∧
      (Record.upsert ⟨row.id, doc.vector, row.attrs⟩).AbsorbedAs (.upsert doc) ∧
      (row.vector = some doc.vector ∨ row.vector = none ∧ ∃ (k : Nat) (text : String),
        call.slots[k]? = some (i, text) ∧ call.vectors[k]? = some doc.vector) := by
  obtain ⟨row', hrow', hid, hattrs, hvector⟩ := embedded_getElem? h hrow
  obtain ⟨given, hgiven, hown, hgid, hgattrs⟩ := forall₂_getElem? (rowDocs_forall₂ hdocs) hrow'
  have hupsert : (docs.map Record.upsert)[i]? = some (.upsert given) := by
    rw [List.getElem?_map, hgiven]
    rfl
  obtain ⟨r, hr, habsorbed⟩ := forall₂_getElem? hlogged hupsert
  obtain ⟨doc, rfl, hkept⟩ := habsorbed.of_upsert
  have hgiven' : given = ⟨row.id, doc.vector, row.attrs⟩ := by
    rw [hkept, ← hid, ← hattrs, ← hgid, ← hgattrs]
  refine ⟨doc, hr, hgiven' ▸ habsorbed, ?_⟩
  rw [hkept]
  rcases hvector with hsame | ⟨hnone, k, text, v, hslot, hv, hset⟩
  · exact .inl (hsame.symm.trans hown)
  · obtain rfl := Option.some.inj (hset.symm.trans hown)
    exact .inr ⟨hnone, k, text, hslot, hv⟩

/-- A row that is embedded as its attribute asks has its text where the models agree. -/
theorem V2Write.EmbedsEach.modelsAgree {before : Schema} (hembeds : body.EmbedsEach call schema logged)
    (h : body.embedCall embedder before = .ok call)
    (hadopts : Schema.Adopts body.declaredEmbed before schema) : body.ModelsAgree before := by
  intro row hmem hnone
  obtain ⟨i, hrow⟩ := List.mem_iff_getElem?.mp hmem
  obtain ⟨doc, -, -, -, hmade⟩ := hembeds i row hrow
  obtain ⟨key, spec, text, k, hspec, htext, hslot, -, hmodel⟩ := hmade hnone
  refine ⟨key, spec, (hadopts key spec).mp hspec, ?_, ?_⟩
  · rw [htext, text_of_slot h hrow hslot]
  · rw [← hmodel, (embedCall_eq_ok h).2.1]

/-- **Each row is embedded as its attribute asks** if the models agree. -/
theorem V2Write.ModelsAgree.embedsEach {before : Schema} (hagree : body.ModelsAgree before)
    (h : body.embedCall embedder before = .ok call)
    (hdocs : rowDocs (body.embedded call).upsertRows = .ok docs)
    (hlogged : List.Forall₂ Record.AbsorbedAs (docs.map .upsert) logged)
    (hadopts : Schema.Adopts body.declaredEmbed before schema) : body.EmbedsEach call schema logged := by
  intro i row hrow
  obtain ⟨doc, hdoc, habsorbed, hvector⟩ := logged_row h hdocs hlogged hrow
  refine ⟨doc, hdoc, habsorbed, ?_, ?_⟩
  · intro v hv
    rcases hvector with hown | ⟨hnone, -⟩
    · exact Option.some.inj (hown.symm.trans hv)
    · cases hnone.symm.trans hv
  · intro hnone
    rcases hvector with hown | ⟨-, k, text, hslot, hv⟩
    · cases hnone.symm.trans hown
    obtain ⟨key, spec, hspec, htext, hmodel⟩ := hagree row (List.mem_of_getElem? hrow) hnone
    refine ⟨key, spec, text, k, (hadopts key spec).mpr hspec, ?_, hslot, hv, ?_⟩
    · rw [htext, text_of_slot h hrow hslot]
    · rw [(embedCall_eq_ok h).2.1, hmodel]

/-- The records that a request with rows comes to: those of the filters, of its columns, and of its rows. -/
theorem V2Write.plan_records [SerdeJson] {native : WriteRequest} (h : body.intoNative = .ok native)
    {deletes : List Id × Bool} {patches : List Record × Bool} {plan : Plan}
    (hplan : native.plan deletes patches = .ok plan) :
    ∃ docs columns others, rowDocs body.upsertRows = .ok docs ∧
      columnRecords Columns.upserts body.upsertColumns = .ok columns ∧
      plan.records = deletes.1.map .delete ++ patches.1 ++ columns ++ others ++ docs.map .upsert ++
        (body.patchRows.map (fun row => .patch row.id row.attrs) ++ body.deletes.map .delete) := by
  obtain ⟨docs, hdocs, h⟩ := bind_eq_ok.mp h
  cases h
  obtain ⟨columns, hcolumns, hplan⟩ := bind_eq_ok.mp hplan
  obtain ⟨others, -, hplan⟩ := bind_eq_ok.mp hplan
  obtain ⟨upserts, hupserts, hplan⟩ := bind_eq_ok.mp hplan
  dsimp only at hplan
  split_ifs at hplan
  cases hplan
  refine ⟨docs, columns, others, hdocs, hcolumns, ?_⟩
  dsimp only
  rw [rowUpserts_eq_ok hupserts, List.map_map, List.append_assoc]
  rfl

/-- The columns of a write are logged with their vectors. -/
theorem V2Write.columnsKept_of_logged [SerdeJson] {columns : List Record}
    (h : columnRecords Columns.upserts body.upsertColumns = .ok columns)
    (hlogged : List.Forall₂ Record.AbsorbedAs columns logged) : body.ColumnsKept logged := by
  intro c hc
  rw [hc] at h
  obtain ⟨rows, hrows, hrecords⟩ := bind_eq_ok.mp h
  refine ⟨rows, mapError_eq_ok.mp hrows, fun i row hrow => ?_⟩
  obtain ⟨r, hr, v, hv, rfl⟩ := forall₂_getElem? (Fckdb.rowDocs_forall₂ hrecords) hrow
  obtain ⟨r', hr', habsorbed⟩ := forall₂_getElem? hlogged hr
  obtain ⟨doc, rfl, rfl⟩ := habsorbed.of_upsert
  exact ⟨doc, hr', habsorbed, hv⟩

/-- What a write is to leave: after the records that were there, its columns and its rows are logged, the
columns with their vectors, and each row with its own or with one made as the schema says. -/
def V2Write.Embeds [SerdeJson] (body : V2Write) (embedder : Option Embedder) (l : Ledger) (s s' : Store) : Prop :=
  ∃ call front columns others rows back, body.embedCall embedder s.manifest.schema = .ok call ∧
    Carries ⟨s'.manifest.schema, l.log ++ (front ++ columns ++ others ++ rows ++ back)⟩ s' ∧
    rows.length = body.upsertRows.length ∧ back.length = body.patchRows.length + body.deletes.length ∧
    body.ColumnsKept columns ∧ body.EmbedsEach call s'.manifest.schema rows

variable [HashOrder] [SerdeJson] {t handle : Nat} {s s' : Store} {l : Ledger} {cut : Cut}

/-- What a write that went well logged. -/
theorem V2Write.logged_of_runs (hc : Coherent handle s) (hl : Carries l s) (hs : s.Searchable)
    {resp : V2WriteResponse} (h : Runs t (v2Write embedder handle cut body) s s' (.ok resp)) :
    ∃ call docs front columns others rows back, body.embedCall embedder s.manifest.schema = .ok call ∧
      rowDocs (body.embedded call).upsertRows = .ok docs ∧
      Carries ⟨s'.manifest.schema, l.log ++ (front ++ columns ++ others ++ rows ++ back)⟩ s' ∧
      List.Forall₂ Record.AbsorbedAs (docs.map .upsert) rows ∧ body.ColumnsKept columns ∧
      back.length = body.patchRows.length + body.deletes.length ∧
      Schema.Adopts body.declaredEmbed s.manifest.schema s'.manifest.schema := by
  have hsettled : Settled handle (s.loaded handle) := .of_loaded hc
  obtain ⟨-, h⟩ := Runs.of_check h
  obtain ⟨s₁, base, hload, h⟩ := Runs.of_seq h
  obtain ⟨rfl, hbase⟩ := Runs.unique (Runs.of_ofProc hload) Runs.load
  obtain rfl := Except.ok.inj hbase
  obtain ⟨-, h⟩ := Runs.of_check h
  obtain ⟨call, hcall, h⟩ := Runs.of_ofExcept h
  obtain ⟨native, hnative, h⟩ := Runs.of_ofExcept h
  have hembed := mapError_eq_ok.mp hcall
  obtain ⟨s₂, plan, hassemble, h⟩ := Runs.of_seq h
  obtain ⟨rfl, hplan⟩ :=
    Runs.unique hassemble (Runs.assemble hsettled (hl.loaded handle) (hs.loaded handle) native)
  obtain ⟨deletes, -, hplan⟩ := bind_eq_ok.mp hplan.symm
  obtain ⟨patches, -, hplan⟩ := bind_eq_ok.mp hplan
  obtain ⟨docs, columns, others, hdocs, hcolumns, hrecords⟩ :=
    plan_records (mapError_eq_ok.mp hnative) hplan
  obtain ⟨s₃, n, hwrite, h⟩ := Runs.of_seq h
  obtain ⟨rfl, -⟩ := Runs.unique h (Runs.done _)
  obtain ⟨schema, rs, hcarries, habsorbed, hadopts⟩ := Runs.writeAll_adopts
    (WriteRequest.plan_ne_nil hplan) hsettled (hl.loaded handle) (Runs.of_ofProc hwrite)
  obtain rfl : s'.manifest.schema = schema := hcarries.schema
  rw [Store.loaded_manifest] at hadopts
  rw [hrecords] at habsorbed
  obtain ⟨rs₄, back, rfl, habsorbed, hback⟩ := forall₂_append habsorbed
  obtain ⟨rs₃, rows, rfl, habsorbed, hrows⟩ := forall₂_append habsorbed
  obtain ⟨rs₂, others, rfl, habsorbed, -⟩ := forall₂_append habsorbed
  obtain ⟨front, columns, rfl, -, hkept⟩ := forall₂_append habsorbed
  refine ⟨call, docs, front, columns, others, rows, back, hembed, hdocs, hcarries, hrows,
    columnsKept_of_logged hcolumns hkept, ?_, hadopts⟩
  rw [← hback.length_eq, List.length_append, List.length_map, List.length_map]
  rfl

/-- **The right model embeds each row** exactly if every row without a vector has its text in an attribute
whose spec has the model of the first one. -/
theorem V2Write.embeds_iff (hc : Coherent handle s) (hl : Carries l s) (hs : s.Searchable)
    {resp : V2WriteResponse} (h : Runs t (v2Write embedder handle cut body) s s' (.ok resp)) :
    body.Embeds embedder l s s' ↔ body.ModelsAgree s.manifest.schema := by
  obtain ⟨call, docs, front, columns, others, rows, back, hcall, hdocs, hcarries, hrows, hcolumns, hback,
    hadopts⟩ := logged_of_runs hc hl hs h
  constructor
  · rintro ⟨call', -, -, -, rows', -, hcall', -, -, -, -, hembeds⟩
    exact hembeds.modelsAgree hcall' hadopts
  · intro hagree
    refine ⟨call, front, columns, others, rows, back, hcall, hcarries, ?_, hback, hcolumns,
      hagree.embedsEach hcall hdocs hrows hadopts⟩
    calc rows.length = docs.length := hrows.length_eq.symm.trans (List.length_map _)
      _ = (body.embedded call).upsertRows.length := (rowDocs_forall₂ hdocs).length_eq.symm
      _ = body.upsertRows.length := length_attachVectors _ _

end Writes

/-! ## Two models -/

/-- An endpoint that answers every text with the same vector. -/
def sameForAll : Embedder := fun texts _ => .ok (texts.map fun _ => [⟨0x3f800000⟩])

/-- Two attributes to embed by models of their own, and a row that has a text in one of them. -/
def V2Write.twoModels (key : String) : V2Write where
  upsertRows := [{ id := .uint 1, attrs := SortedMap.empty.insert key (.string "hello") }]
  schema := some (.ofList [("abstract", { ty := .string, embed := some ⟨some "m1"⟩ }),
    ("title", { ty := .string, embed := some ⟨some "m2"⟩ })])

/-- A namespace without anything. -/
theorem carries_init : Carries ⟨{}, []⟩ {} := ⟨rfl, .nil, nofun, nofun, le_rfl⟩

/-- The first attribute is embedded by its own model. -/
theorem V2Write.embeds_abstract :
    let _ := Crates.inert
    let _ := HashOrder.sorted
    let _ := SerdeJson.exact
    ∃ s' resp, Runs 0 (v2Write (some sameForAll) 0 .whole (twoModels "abstract")) {} s' (.ok resp) ∧
      (twoModels "abstract").Embeds (some sameForAll) ⟨{}, []⟩ {} s' := by
  intro _ _ _
  obtain ⟨s', resp, hruns⟩ : ∃ s' resp,
      Runs 0 (v2Write (some sameForAll) 0 .whole (twoModels "abstract")) {} s' (.ok resp) := ⟨_, _, rfl⟩
  refine ⟨s', resp, hruns, (V2Write.embeds_iff (fun _ => rfl) carries_init nofun hruns).mpr fun row hrow _ => ?_⟩
  obtain rfl := List.mem_singleton.mp hrow
  exact ⟨"abstract", ⟨some "m1"⟩, .inl (by decide +kernel), by decide +kernel, by decide +kernel⟩

/-- **The second attribute is embedded by the model of the first.** -/
theorem V2Write.not_embeds :
    let _ := Crates.inert
    let _ := HashOrder.sorted
    let _ := SerdeJson.exact
    ¬ ∀ (embedder : Option Embedder) (t handle : Nat) (cut : Cut) (body : V2Write) (l : Ledger) (s s' : Store)
      (resp : V2WriteResponse), Coherent handle s → Carries l s → s.Searchable →
        Runs t (v2Write embedder handle cut body) s s' (.ok resp) → body.Embeds embedder l s s' := by
  intro _ _ _ h
  obtain ⟨s', resp, hruns, hembed⟩ : ∃ s' resp,
      Runs 0 (v2Write (some sameForAll) 0 .whole (twoModels "title")) {} s' (.ok resp) ∧
        s'.manifest.schema.embed = (twoModels "title").declaredEmbed := ⟨_, _, rfl, rfl⟩
  obtain ⟨call, -, -, -, rows, -, hcall, -, -, -, -, hrows⟩ :=
    h (some sameForAll) 0 0 .whole (twoModels "title") ⟨{}, []⟩ {} s' resp (fun _ => rfl) carries_init nofun hruns
  obtain ⟨doc, -, -, -, hmade⟩ := hrows 0 _ rfl
  obtain ⟨key, spec, text, k, hspec, htext, -, -, hmodel⟩ := hmade rfl
  -- the text is in the second attribute
  obtain rfl : key = "title" := by
    by_contra hne
    rw [Row.textAt, SortedMap.get_insert_of_ne _ _ (Ne.symm hne)] at htext
    cases htext
  rw [hembed] at hspec
  have hdeclared : (twoModels "title").declaredEmbed.get "title" = some ⟨some "m2"⟩ := by decide +kernel
  obtain rfl := Option.some.inj (hdeclared.symm.trans hspec)
  have hfirst : (twoModels "title").embedModel {} = some "m1" := by decide +kernel
  rw [(embedCall_eq_ok hcall).2.1] at hmodel
  exact absurd (hfirst.symm.trans hmodel) (by decide)

end Compat

end Fckdb
