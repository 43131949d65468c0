import Fckdb.V2Answers

/-! # Multi-queries

A multi-query embeds the texts of all sub-queries in one call and runs the sub-queries at once. It is answered what
they are answered when each is sent alone (`V2Query.multi_iff`). -/

namespace Fckdb

/-- The texts of a batch are embedded as each of them alone. -/
def Embedder.Batches (embed : Embedder) : Prop :=
  ∀ texts model vectors, embed texts model = .ok vectors ↔
    List.Forall₂ (fun text vector => embed [text] model = .ok [vector]) texts vectors

namespace Compat

/-! ## Embedding -/

section Embedding

variable {embedder : Option Embedder}

/-- A text alone. -/
theorem embedOne_eq_ok_iff {embed : Embedder} (hbatch : embed.Batches) {text : String} {model : Option String}
    {vector : List F32} : embedOne (some embed) text model = .ok vector ↔ embed [text] model = .ok [vector] := by
  rw [embedOne]
  constructor
  · intro h
    split at h
    · cases h
    rename_i vectors hvectors
    obtain ⟨v, rest, hv, hrest, rfl⟩ :=
      List.forall₂_cons_left_iff.mp ((hbatch _ _ _).mp (mapError_eq_ok.mp hvectors))
    obtain rfl := List.forall₂_nil_left_iff.mp hrest
    obtain rfl : v = vector := Except.ok.inj h
    exact hv
  · intro h
    rw [mapError_eq_ok.mpr h]
    rfl

/-- A batch, text by text. -/
theorem embedMany_eq_ok_iff (hbatch : ∀ embed ∈ embedder, Embedder.Batches embed) {texts : List String}
    {model : Option String} {vectors : List (List F32)} : embedMany embedder texts model = .ok vectors ↔
      List.Forall₂ (fun text vector => embedOne embedder text model = .ok vector) texts vectors := by
  cases texts with
  | nil =>
      rw [List.forall₂_nil_left_iff]
      exact ⟨fun h => (Except.ok.inj h).symm, fun h => h ▸ rfl⟩
  | cons text texts =>
      cases embedder with
      | none =>
          constructor
          · intro h
            cases h
          · intro h
            obtain ⟨vector, -, hvector, -⟩ := List.forall₂_cons_left_iff.mp h
            cases hvector
      | some embed =>
          have hone := hbatch embed rfl
          rw [embedMany, List.isEmpty_cons, if_neg Bool.false_ne_true, mapError_eq_ok, hone]
          simp only [embedOne_eq_ok_iff hone]

/-- Put vectors in the place of the texts, in order. -/
def fillTexts : List V2Query → List (List F32) → List V2Query
  | [], _ => []
  | q :: qs, vectors =>
    match q.pendingEmbed, vectors with
    | some _, vector :: vectors => q.resolveEmbed vector :: fillTexts qs vectors
    | _, _ => q :: fillTexts qs vectors

theorem modify_length_append {α : Type} (done rest : List α) (a : α) (f : α → α) :
    (done ++ a :: rest).modify done.length f = done ++ f a :: rest := by
  induction done with
  | nil => rfl
  | cons b done ih =>
      rw [List.cons_append, List.length_cons, List.modify_succ_cons, ih]
      rfl

/-- The vectors go to the sub-queries that their texts are of. -/
theorem resolveAll_eq (subs : List V2Query) (vectors : List (List F32)) :
    resolveAll subs (((pendingTexts subs).map (·.1)).zip vectors) = fillTexts subs vectors := by
  -- by induction on the sub-queries that are left, after any that are done
  suffices h : ∀ done : List V2Query, resolveAll (done ++ subs) ((((subs.zipIdx done.length).filterMap fun p =>
      p.1.pendingEmbed.map (p.2, ·)).map (·.1)).zip vectors) = done ++ fillTexts subs vectors from h []
  intro done
  induction subs generalizing done vectors with
  | nil => rfl
  | cons q qs ih =>
      -- whatever has become of this sub-query, the later vectors go past it
      have hrest : ∀ q' vectors, resolveAll (done ++ q' :: qs) ((((qs.zipIdx (done.length + 1)).filterMap fun p =>
          p.1.pendingEmbed.map (p.2, ·)).map (·.1)).zip vectors) = done ++ q' :: fillTexts qs vectors := by
        intro q' vectors
        have h := ih vectors (done ++ [q'])
        rwa [List.length_append, List.length_singleton, List.append_assoc, List.append_assoc] at h
      rw [List.zipIdx_cons, List.filterMap_cons]
      cases hpending : q.pendingEmbed with
      | none => simpa only [Option.map_none, fillTexts, hpending] using hrest q vectors
      | some p =>
          cases vectors with
          | nil => simpa only [List.zip_nil_right, fillTexts, hpending] using hrest q []
          | cons vector vectors =>
              simpa only [Option.map_some, List.map_cons, List.zip_cons_cons, resolveAll, modify_length_append,
                fillTexts, hpending] using hrest (q.resolveEmbed vector) vectors

theorem pendingTexts_map (subs : List V2Query) :
    (pendingTexts subs).map (·.2) = subs.filterMap V2Query.pendingEmbed := by
  have hcomp : (fun p : V2Query × Nat => (p.1.pendingEmbed.map (p.2, ·)).map (·.2)) =
      V2Query.pendingEmbed ∘ Prod.fst := by
    funext p
    rw [Option.map_map]
    exact Option.map_id'
  rw [pendingTexts, List.map_filterMap, hcomp, ← List.filterMap_map, List.zipIdx_map_fst]

theorem embedQuery_of_none {sub q : V2Query} (h : sub.pendingEmbed = none) :
    embedQuery embedder sub = .ok q ↔ sub = q := by
  rw [embedQuery, h]
  exact ⟨Except.ok.inj, congrArg _⟩

theorem embedQuery_of_some {sub q : V2Query} {text : String} {model : Option String}
    (h : sub.pendingEmbed = some (text, model)) : embedQuery embedder sub = .ok q ↔
      ∃ vector, embedOne embedder text model = .ok vector ∧ sub.resolveEmbed vector = q := by
  simp only [embedQuery, h, map_eq_ok, mapError_eq_ok]

/-- Queries embedded one by one are those whose texts are filled in, if they ask for one model. -/
theorem forall₂_embedQuery_iff {model : Option String} {subs qs : List V2Query}
    (hmodel : ∀ p ∈ subs.filterMap V2Query.pendingEmbed, p.2 = model) :
    List.Forall₂ (fun sub q => embedQuery embedder sub = .ok q) subs qs ↔ ∃ vectors,
      List.Forall₂ (fun text vector => embedOne embedder text model = .ok vector)
        ((subs.filterMap V2Query.pendingEmbed).map (·.1)) vectors ∧ fillTexts subs vectors = qs := by
  induction subs generalizing qs with
  | nil =>
      rw [List.forall₂_nil_left_iff]
      exact ⟨fun h => ⟨[], .nil, h.symm⟩, fun ⟨_, _, h⟩ => h.symm⟩
  | cons sub subs ih =>
      rw [List.forall₂_cons_left_iff]
      rw [List.filterMap_cons] at hmodel ⊢
      cases hpending : sub.pendingEmbed with
      | none =>
          simp only [hpending, fillTexts, embedQuery_of_none hpending] at hmodel ⊢
          constructor
          · rintro ⟨q, qs, rfl, hqs, rfl⟩
            obtain ⟨vectors, hvectors, rfl⟩ := (ih hmodel).mp hqs
            exact ⟨vectors, hvectors, rfl⟩
          · rintro ⟨vectors, hvectors, rfl⟩
            exact ⟨sub, _, rfl, (ih hmodel).mpr ⟨vectors, hvectors, rfl⟩, rfl⟩
      | some p =>
          obtain ⟨text, model'⟩ := p
          simp only [hpending, fillTexts, embedQuery_of_some hpending] at hmodel ⊢
          obtain ⟨hhead, hmodel⟩ := List.forall_mem_cons.mp hmodel
          obtain rfl : model' = model := hhead
          rw [List.map_cons]
          constructor
          · rintro ⟨q, qs, ⟨vector, hvector, rfl⟩, hqs, rfl⟩
            obtain ⟨vectors, hvectors, rfl⟩ := (ih hmodel).mp hqs
            exact ⟨vector :: vectors, .cons hvector hvectors, rfl⟩
          · rintro ⟨vectors, hvectors, rfl⟩
            obtain ⟨vector, rest, hvector, hrest, rfl⟩ := List.forall₂_cons_left_iff.mp hvectors
            exact ⟨_, _, ⟨vector, hvector, rfl⟩, (ih hmodel).mpr ⟨rest, hrest, rfl⟩, rfl⟩

/-- The sub-queries with a text ask for one model. -/
def OneModel (subs : List V2Query) : Prop :=
  ∃ model, ∀ p ∈ subs.filterMap V2Query.pendingEmbed, p.2 = model

/-- **One call for all texts** embeds what a call for each would, if one model is asked for. -/
theorem embedSubqueries_eq_ok_iff (hbatch : ∀ embed ∈ embedder, Embedder.Batches embed) {subs qs : List V2Query} :
    embedSubqueries embedder subs = .ok qs ↔
      OneModel subs ∧ List.Forall₂ (fun sub q => embedQuery embedder sub = .ok q) subs qs := by
  have hmap := pendingTexts_map subs
  rw [embedSubqueries]
  split
  · -- no text at all
    rename_i hnone
    rw [hnone] at hmap
    have hmodel : ∀ p ∈ subs.filterMap V2Query.pendingEmbed, p.2 = none := by
      rw [← hmap]
      exact List.forall_mem_nil _
    have hfill : fillTexts subs [] = subs := by
      rw [← resolveAll_eq, List.zip_nil_right]
      rfl
    rw [forall₂_embedQuery_iff hmodel, ← hmap]
    constructor
    · intro h
      exact ⟨⟨none, hmodel⟩, [], .nil, hfill.trans (Except.ok.inj h)⟩
    · rintro ⟨-, vectors, hvectors, rfl⟩
      obtain rfl := List.forall₂_nil_left_iff.mp hvectors
      rw [hfill]
  · -- the model of the first text decides
    rename_i index text model rest hsome
    dsimp only
    rw [← hsome]
    have hmem : (text, model) ∈ subs.filterMap V2Query.pendingEmbed := by
      rw [← hmap, hsome]
      exact List.mem_cons_self
    split_ifs with hany
    · constructor
      · intro h
        cases h
      · rintro ⟨⟨common, hcommon⟩, -⟩
        obtain ⟨p, hp, hne⟩ := List.any_eq_true.mp hany
        have hp' : p.2 ∈ subs.filterMap V2Query.pendingEmbed := hmap ▸ List.mem_map_of_mem hp
        exact absurd ((hcommon _ hp').trans (hcommon _ hmem).symm) (of_decide_eq_true hne)
    · have hmodel : ∀ p ∈ subs.filterMap V2Query.pendingEmbed, p.2 = model := by
        rw [← hmap]
        intro p hp
        obtain ⟨e, he, rfl⟩ := List.mem_map.mp hp
        by_contra hne
        exact hany (List.any_eq_true.mpr ⟨e, he, decide_eq_true hne⟩)
      have htexts : (pendingTexts subs).map (fun p => p.2.1) = (subs.filterMap V2Query.pendingEmbed).map (·.1) := by
        rw [← hmap, List.map_map]
        rfl
      rw [forall₂_embedQuery_iff hmodel, bind_eq_ok, htexts]
      simp only [mapError_eq_ok, embedMany_eq_ok_iff hbatch, resolveAll_eq]
      constructor
      · rintro ⟨vectors, hvectors, h⟩
        exact ⟨⟨model, hmodel⟩, vectors, hvectors, Except.ok.inj h⟩
      · rintro ⟨-, vectors, hvectors, rfl⟩
        exact ⟨vectors, hvectors, rfl⟩

/-- Whether a request is to be fresh has nothing to do with its text. -/
theorem embedQuery_with_consistency {sub q : V2Query} {consistency : Option ConsistencyLevel} :
    embedQuery embedder { sub with consistency } = .ok q ↔
      ∃ q', embedQuery embedder sub = .ok q' ∧ { q' with consistency } = q := by
  have hresolve : ∀ vector, V2Query.resolveEmbed { sub with consistency } vector =
      { sub.resolveEmbed vector with consistency } := by
    intro vector
    cases sub with
    | mk rankBy =>
        cases rankBy with
        | none => rfl
        | some rankBy => cases rankBy <;> rfl
  have hpending : V2Query.pendingEmbed { sub with consistency } = sub.pendingEmbed := rfl
  cases hsub : sub.pendingEmbed with
  | none =>
      simp only [embedQuery_of_none (hpending.trans hsub), embedQuery_of_none hsub, exists_eq_left']
  | some p =>
      simp only [embedQuery_of_some (hpending.trans hsub), embedQuery_of_some hsub, hresolve]
      constructor
      · rintro ⟨vector, hvector, rfl⟩
        exact ⟨_, ⟨vector, hvector, rfl⟩, rfl⟩
      · rintro ⟨_, ⟨vector, hvector, rfl⟩, rfl⟩
        exact ⟨vector, hvector, rfl⟩

end Embedding

/-! ## Answers -/

section Answers

/-- A sub-query is not a multi-query. -/
theorem V2Query.queries_of_splitMulti {body : V2Query} {subs : List V2Query} {rerank : Option RerankBy} {limit : Nat}
    (h : body.splitMulti = .ok (some (subs, rerank, limit))) : ∀ sub ∈ subs, sub.queries = none := by
  rw [splitMulti] at h
  split at h
  · cases h
  split_ifs at h
  split at h
  · split_ifs at h
  rename_i hfind
  cases h
  intro sub hsub
  have hplain := List.find?_eq_none.mp hfind sub hsub
  rw [Bool.or_eq_true, not_or, Option.not_isSome_iff_eq_none] at hplain
  exact hplain.2

/-- Two relations, one after the other, along lists. -/
theorem forall₂_exists_iff {α β γ : Type} {r : α → β → Prop} {r' : β → γ → Prop} {as : List α} {cs : List γ} :
    List.Forall₂ (fun a c => ∃ b, r a b ∧ r' b c) as cs ↔ ∃ bs, List.Forall₂ r as bs ∧ List.Forall₂ r' bs cs := by
  constructor
  · intro h
    induction h with
    | nil => exact ⟨[], .nil, .nil⟩
    | cons h _ ih =>
        obtain ⟨b, hab, hbc⟩ := h
        obtain ⟨bs, hbs, hcs⟩ := ih
        exact ⟨b :: bs, .cons hab hbs, .cons hbc hcs⟩
  · rintro ⟨bs, hbs, hcs⟩
    induction hbs generalizing cs with
    | nil =>
        obtain rfl := List.forall₂_nil_left_iff.mp hcs
        exact .nil
    | cons hab _ ih =>
        obtain ⟨c, rest, hbc, hrest, rfl⟩ := List.forall₂_cons_left_iff.mp hcs
        exact .cons ⟨_, hab, hbc⟩ (ih hrest)

variable [Crates] [HashOrder] {s : Store} {handle : Nat} {embedder : Option Embedder}

/-- A query sent alone. -/
theorem responds_alone_iff {body : V2Query} (hqueries : body.queries = none) {response : V2QueryResponse} :
    s.Responds (v2Query embedder handle body) (.ok (.single response)) ↔ ∃ q, embedQuery embedder body = .ok q ∧
      s.Responds (runV2Query handle q s.manifest.schema.distanceMetric) (.ok response) := by
  have hsplit : body.splitMulti = .ok none := by rw [V2Query.splitMulti, hqueries]
  refine (Store.Responds.seq_iff (.of_eq (mapError_eq_ok.mpr hsplit))).trans ?_
  constructor
  · intro h
    obtain ⟨q, hq, h⟩ := h.of_seq
    obtain ⟨⟨m, version⟩, hload, h⟩ := h.of_seq
    obtain ⟨rfl, -⟩ := Prod.mk.inj (Except.ok.inj ((Store.Yields.load handle).unique hload.of_ofProc))
    obtain ⟨response', hresponse, hret⟩ := h.of_seq
    obtain rfl := V2Answer.single.inj (Except.ok.inj ((Store.Responds.ret _).unique hret))
    exact ⟨q, (Store.Responds.ofExcept _).unique hq, hresponse⟩
  · rintro ⟨q, hq, hresponse⟩
    refine (Store.Responds.seq_iff (.of_eq hq)).mpr ?_
    refine (Store.Responds.seq_iff (.ofProc _ (Store.Yields.load handle))).mpr ?_
    exact (Store.Responds.seq_iff hresponse).mpr (.ret _)

/-- A sub-query sent alone, as fresh as the whole. -/
theorem responds_sub_iff {sub : V2Query} (hqueries : sub.queries = none) {consistency : Option ConsistencyLevel}
    {response : V2QueryResponse} :
    s.Responds (v2Query embedder handle { sub with consistency }) (.ok (.single response)) ↔
      ∃ q, embedQuery embedder sub = .ok q ∧ s.Responds
        (runV2Query handle { q with consistency } s.manifest.schema.distanceMetric) (.ok response) := by
  have halone : V2Query.queries { sub with consistency } = none := hqueries
  rw [responds_alone_iff halone]
  simp only [embedQuery_with_consistency]
  constructor
  · rintro ⟨_, ⟨q, hq, rfl⟩, hrun⟩
    exact ⟨q, hq, hrun⟩
  · rintro ⟨q, hq, hrun⟩
    exact ⟨_, ⟨q, hq, rfl⟩, hrun⟩

/-- A multi-query, of the sub-queries whose texts are embedded. -/
theorem responds_multi_iff {body : V2Query} {subs : List V2Query} {rerank : Option RerankBy} {limit : Nat}
    (hsplit : body.splitMulti = .ok (some (subs, rerank, limit))) {answer : V2Answer} :
    s.Responds (v2Query embedder handle body) (.ok answer) ↔ ∃ qs, embedSubqueries embedder subs = .ok qs ∧
      ∃ results, List.Forall₂ (fun (q : V2Query) result => s.Responds (runV2Query handle
        { q with consistency := body.consistency } s.manifest.schema.distanceMetric) (.ok result)) qs results ∧
        fuseResults rerank limit results = .ok answer := by
  refine (Store.Responds.seq_iff (.of_eq (mapError_eq_ok.mpr hsplit))).trans ?_
  constructor
  · intro h
    obtain ⟨qs, hqs, h⟩ := h.of_seq
    obtain ⟨⟨m, version⟩, hload, h⟩ := h.of_seq
    obtain ⟨rfl, -⟩ := Prod.mk.inj (Except.ok.inj ((Store.Yields.load handle).unique hload.of_ofProc))
    obtain ⟨results, hresults, hfuse⟩ := h.of_seq
    exact ⟨qs, (Store.Responds.ofExcept _).unique hqs, results,
      List.forall₂_map_left_iff.mp (joinApi_eq_ok_iff.mp hresults), (Store.Responds.ofExcept _).unique hfuse⟩
  · rintro ⟨qs, hqs, results, hresults, hfuse⟩
    refine (Store.Responds.seq_iff (.of_eq hqs)).mpr ?_
    refine (Store.Responds.seq_iff (.ofProc _ (Store.Yields.load handle))).mpr ?_
    have hjoin := joinApi_eq_ok_iff.mpr (List.forall₂_map_left_iff.mpr hresults)
    exact (Store.Responds.seq_iff hjoin).mpr (.of_eq hfuse)

/-- **Multi-queries**: one that is answered asks for one model, each sub-query is answered when it is sent alone, as
fresh as the whole, and the answer is what these answers are put together to; and conversely. -/
theorem V2Query.multi_iff (hbatch : ∀ embed ∈ embedder, Embedder.Batches embed) {body : V2Query}
    {subs : List V2Query} {rerank : Option RerankBy} {limit : Nat}
    (hsplit : body.splitMulti = .ok (some (subs, rerank, limit))) {answer : V2Answer} :
    s.Responds (v2Query embedder handle body) (.ok answer) ↔ OneModel subs ∧ ∃ results,
      List.Forall₂ (fun (sub : V2Query) result => s.Responds
        (v2Query embedder handle { sub with consistency := body.consistency }) (.ok (.single result))) subs results ∧
        fuseResults rerank limit results = .ok answer := by
  -- a sub-query is no multi-query, so sent alone it takes the other branch of the handler
  have hplain := queries_of_splitMulti hsplit
  rw [responds_multi_iff hsplit]
  simp only [embedSubqueries_eq_ok_iff hbatch]
  constructor
  · rintro ⟨qs, ⟨hmodel, hqs⟩, results, hresults, hfuse⟩
    have hall := forall₂_exists_iff.mpr ⟨qs, hqs, hresults⟩
    refine ⟨hmodel, results, ?_, hfuse⟩
    exact ((List.forall₂_and_left _ _).mpr ⟨hplain, hall⟩).imp fun sub result h => (responds_sub_iff h.1).mpr h.2
  · rintro ⟨hmodel, results, hresults, hfuse⟩
    have hall := ((List.forall₂_and_left _ _).mpr ⟨hplain, hresults⟩).imp fun sub result h => (responds_sub_iff h.1).mp h.2
    obtain ⟨qs, hqs, hresults⟩ := forall₂_exists_iff.mp hall
    exact ⟨qs, ⟨hmodel, hqs⟩, results, hresults, hfuse⟩

end Answers

/-! ## Two texts at once -/

/-- Every text has the same vector. -/
def constantly (vector : List F32) : Embedder := fun texts _ => .ok (texts.map fun _ => vector)

theorem batches_constantly (vector : List F32) : Embedder.Batches (constantly vector) := by
  intro texts model vectors
  have heach : ∀ (text : String) v, constantly vector [text] model = .ok [v] ↔ vector = v :=
    fun _ _ => ⟨fun h => (List.cons.inj (Except.ok.inj h)).1, fun h => h ▸ rfl⟩
  simp only [heach]
  rw [← List.forall₂_map_left_iff (f := fun _ => vector) (R := Eq), List.forall₂_eq_eq_eq]
  exact ⟨Except.ok.inj, congrArg _⟩

/-- The nearest two, without the index and with it. -/
def nearestBody : V2Query :=
  { queries := some [{ rankBy := some (.knn "vector" (.embed "heavy" none)), topK := some 2 },
      { rankBy := some (.ann "vector" (.embed "light" none)), topK := some 1 }] }

/-- Two shards and a tail: both texts are embedded in one call. -/
theorem weighedRun_multi :
    let _ := Crates.inert
    let _ := HashOrder.sorted
    ∃ (p : Namespace) (subs : List V2Query) (results : List V2QueryResponse), Reaches schemaTerms p ∧
      p.shared.manifest.shards.length = 2 ∧ nearestBody.splitMulti = .ok (some (subs, none, 10)) ∧
      results.map (fun result => result.rows.map List.length) = [some 2, some 1] ∧
      List.Forall₂ (fun (sub : V2Query) result => p.shared.Responds (v2Query (some (constantly [⟨0⟩])) 0
        { sub with consistency := nearestBody.consistency }) (.ok (.single result))) subs results := by
  intro _ _
  have hrun : (execute service.step ⟨{}, []⟩ weighedRun).any (fun p => p.shared.manifest.shards.length = 2 ∧
      (Prog.eval p.shared.peek (v2Query (some (constantly [⟨0⟩])) 0 nearestBody)).any fun r =>
        r.toOption.any fun answer =>
          match answer with
          | .multi results => results.map (fun result => result.rows.map List.length) = [some 2, some 1]
          | .single _ => false) = true := by
    decide +kernel
  have hschema : Allowed service.step (fun p a => schemaTerms.Meets p a) ⟨{}, []⟩ weighedRun := by
    decide +kernel
  obtain ⟨p, hp, hfound⟩ := (Option.any_eq_true _ _).mp hrun
  obtain ⟨htwo, hanswer⟩ := of_decide_eq_true hfound
  obtain ⟨found, hquery, hanswer⟩ := (Option.any_eq_true _ _).mp hanswer
  cases found with
  | error e => cases hanswer
  | ok answer =>
      cases answer with
      | single response => cases hanswer
      | multi results =>
          have hbatch : ∀ embed ∈ some (constantly [⟨0⟩]), Embedder.Batches embed := by
            rintro _ ⟨⟩
            exact batches_constantly _
          have hsplit : nearestBody.splitMulti = .ok (some (nearestBody.queries.getD [], none, 10)) := rfl
          obtain ⟨-, results', halone, hfuse⟩ := (V2Query.multi_iff hbatch hsplit).mp hquery
          obtain rfl := V2Answer.multi.inj (Except.ok.inj hfuse)
          exact ⟨p, _, results', Reachable.init.execute hschema hp, htwo, hsplit, of_decide_eq_true hanswer, halone⟩

end Compat

end Fckdb
