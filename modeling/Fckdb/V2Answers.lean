import Fckdb.SoundAnswers
import Fckdb.V2Query

/-! # Answers to `/v2` queries

Whatever a query ranks by, and through whatever its shards answer, its rows are of live documents that match, each
once, at most the limit, with the attributes asked for; a fused list keeps that (`Reaches.v2_sound`). Handlers at
once answer what each of them answers alone (`joinApi_iff`). -/

namespace Fckdb

/-- **Side by side**, on a table of answers: each part computes what it computes alone. -/
theorem Prog.eval_joinAll_forall₂ {Op α : Type} {Ans : Op → Type} {answer : (op : Op) → Option (Ans op)} {choose : Op}
    {left : Ans choose → Bool} (hchoose : (answer choose).isSome) {ps : List (Prog Op Ans α)} {as : List α}
    (h : List.Forall₂ (fun p a => p.eval answer = some a) ps as) : (joinAll choose left ps).eval answer = some as := by
  have hfst : (ps.zip as).map Prod.fst = ps := List.map_fst_zip h.length_eq.le
  have hsnd : (ps.zip as).map Prod.snd = as := List.map_snd_zip h.length_eq.ge
  have hall : ∀ x ∈ ps.zip as, x.1.eval answer = some x.2 := by
    intro x hx
    obtain ⟨n, hn, rfl⟩ := List.mem_iff_getElem.mp hx
    have hlt : n < ps.length := by
      rw [List.length_zip] at hn
      exact hn.trans_le (min_le_left _ _)
    rw [List.getElem_zip]
    exact h.get hlt (h.length_eq ▸ hlt)
  have hjoin := @eval_joinAll _ _ _ _ choose left hchoose _ (ps.zip as) Prod.fst Prod.snd hall
  rwa [hfst, hsnd] at hjoin

/-! ## Requests that only read -/

/-- A request that only reads is answered so, on a store that nobody changes. -/
def Store.Responds {α : Type} (s : Store) (p : Api α) (r : Except AppError α) : Prop := Prog.eval s.peek p = some r

namespace Store.Responds

variable {α β : Type} {s : Store}

theorem unique {p : Api α} {r r' : Except AppError α} (h : s.Responds p r) (h' : s.Responds p r') : r = r' :=
  Option.some.inj (h.symm.trans h')

theorem ret (a : α) : s.Responds (Api.ret a) (.ok a) := rfl

theorem ofExcept (r : Except AppError α) : s.Responds (Api.ofExcept r) r := rfl

theorem of_eq {r : Except AppError α} {a : α} (h : r = .ok a) : s.Responds (Api.ofExcept r) (.ok a) := h ▸ ofExcept r

/-- A call of the engine. -/
theorem ofProc {p : Proc α} {r : Except Error α} (f : Error → AppError) (h : s.Yields p r) :
    s.Responds (Api.ofProc f p) (r.mapError f) := by
  refine (Prog.eval_bind _ _).trans ?_
  rw [h]
  rfl

/-- A call of the engine that succeeds. -/
theorem of_ofProc {p : Proc α} {f : Error → AppError} {a : α} (h : s.Responds (Api.ofProc f p) (.ok a)) :
    s.Yields p (.ok a) := by
  obtain ⟨r, hr, hmap⟩ := Option.bind_eq_some_iff.mp ((Prog.eval_bind _ _).symm.trans h)
  cases r with
  | error e => cases hmap
  | ok b =>
      obtain rfl : b = a := Except.ok.inj (Option.some.inj hmap)
      exact hr

/-- The `?` operator: what comes after a part depends on its result. -/
theorem andThen_iff {p : Api α} {f : α → Api β} {r : Except AppError β} :
    s.Responds (p.andThen f) r ↔
      (∃ a, s.Responds p (.ok a) ∧ s.Responds (f a) r) ∨ ∃ e, s.Responds p (.error e) ∧ r = .error e := by
  constructor
  · intro h
    obtain ⟨x, hx, hf⟩ := Option.bind_eq_some_iff.mp ((Prog.eval_bind _ _).symm.trans h)
    cases x with
    | ok a => exact .inl ⟨a, hx, hf⟩
    | error e => exact .inr ⟨e, hx, (Option.some.inj hf).symm⟩
  · rintro (⟨a, ha, hf⟩ | ⟨e, he, rfl⟩)
    · refine (Prog.eval_bind _ _).trans ?_
      rw [ha]
      exact hf
    · refine (Prog.eval_bind _ _).trans ?_
      rw [he]
      rfl

/-- A sequence that succeeds consists of parts that do. -/
theorem of_seq {p : Api α} {f : α → Api β} {b : β} (h : s.Responds (p.andThen f) (.ok b)) :
    ∃ a, s.Responds p (.ok a) ∧ s.Responds (f a) (.ok b) := by
  rcases andThen_iff.mp h with hok | ⟨e, -, he⟩
  · exact hok
  · cases he

/-- After a part that succeeds. -/
theorem seq_iff {p : Api α} {f : α → Api β} {a : α} (h : s.Responds p (.ok a)) {r : Except AppError β} :
    s.Responds (p.andThen f) r ↔ s.Responds (f a) r := by
  rw [andThen_iff]
  constructor
  · rintro (⟨a', ha', hf⟩ | ⟨e, he, -⟩)
    · obtain rfl := Except.ok.inj (h.unique ha')
      exact hf
    · cases h.unique he
  · exact fun hf => .inl ⟨a, h, hf⟩

end Store.Responds

namespace Compat

/-! ## Translating -/

section Translating

variable [Crates] {q : V2Query} {n : Native} {nprobe : Nat}

omit [Crates] in
/-- The count is within its bounds. -/
theorem V2Query.count_bounds {k : Nat} (h : q.count = .ok k) : 0 < k ∧ k ≤ 10000 := by
  rw [count] at h
  obtain ⟨topK, -, h⟩ := bind_eq_ok.mp h
  split_ifs at h with hbounds
  obtain rfl := Except.ok.inj h
  rw [not_or, Nat.not_lt] at hbounds
  exact ⟨Nat.pos_of_ne_zero hbounds.1, hbounds.2⟩

/-- **What a query translates to**: its filter, its freshness and a count within the bounds. -/
theorem V2Query.of_intoNative (h : q.intoNative nprobe = .ok n) :
    n.request.filter = q.filters ∧ n.request.consistency = q.freshness ∧ n.request.nprobe = nprobe ∧
      (0 < n.request.topK ∧ n.request.topK ≤ 10000) := by
  rw [intoNative] at h
  split at h
  · cases h
  obtain ⟨⟨⟩, -, h⟩ := bind_eq_ok.mp h
  split at h
  · cases h
  cases hrank : q.rankBy with
  | none =>
      simp only [hrank] at h
      split at h
      · obtain rfl := Except.ok.inj h
        exact ⟨rfl, rfl, rfl, Nat.one_pos, (by decide : 1 ≤ 10000)⟩
      · cases h
  | some rankBy =>
      simp only [hrank] at h
      obtain ⟨⟨vector, orderBy, search, exact⟩, -, h⟩ := bind_eq_ok.mp h
      obtain ⟨topK, htopK, h⟩ := bind_eq_ok.mp h
      obtain rfl := Except.ok.inj h
      exact ⟨rfl, rfl, rfl, count_bounds htopK⟩

end Translating

/-! ## Rows -/

section Rows

variable [Crates]

/-- **What a row shows of a document**: its id, the attributes asked for, and the distance of its vector or the score
of a search; an order has neither, and the exhaustive scan no attributes. -/
def Native.Shows (n : Native) (metric : DistanceMetric) (d : Doc) (row : V2Row F32) : Prop :=
  row.id = d.id ∧
  if n.exact then
    row.attrs = .empty ∧ row.dist = some (distance metric (metric.score n.request.vector d.vector))
  else
    row.attrs = n.request.includeAttributes.project d.attrs ∧
    match n.search, n.orderBy with
    | some _, _ => row.dist.isSome
    | none, some _ => row.dist = none
    | none, none => row.dist = some (distance metric (metric.score n.request.vector d.vector))

omit [Crates] in
theorem Native.rows_shaped (n : Native) (aggregations : SortedMap String Value) (groups : List AggregationGroup) :
    (n.shaped aggregations groups).rows = none := by
  rw [shaped, toV2Aggregations]
  split_ifs <;> rfl

variable [HashOrder] {s : Store} {docs : List (List Doc)} {tail : List Record} {handle : Nat}

/-- **The rows of a query** are of live documents that match. -/
theorem sound_run (h : Layout s s.manifest docs tail) {n : Native} (hstrong : n.request.consistency = .strong)
    {response : V2QueryResponse}
    (hr : s.Yields (n.run handle s.manifest.schema.distanceMetric) (.ok response)) {rows : List (V2Row F32)}
    (hrows : response.rows = some rows) : SoundRows s (Layout.log docs tail) n.request.filter n.request.topK
      (n.Shows s.manifest.schema.distanceMetric) rows := by
  rw [Native.run] at hr
  split at hr
  · -- a pure aggregation has no rows
    obtain ⟨r, -, hret⟩ := hr.of_seq
    obtain rfl := Except.ok.inj ((Store.Yields.ret _).unique hret)
    rw [Native.rows_shaped] at hrows
    cases hrows
  split at hr
  · rename_i hexact
    obtain ⟨hits, hhits, hret⟩ := hr.of_seq
    obtain rfl := Except.ok.inj ((Store.Yields.ret _).unique hret)
    obtain rfl := Option.some.inj hrows
    refine (h.sound_queryBrute hhits).render _ fun d hit hhit => ?_
    rw [hhit, Native.Shows, if_pos hexact]
    exact ⟨rfl, rfl, rfl⟩
  rename_i hexact
  cases hsearch : n.search with
  | some search =>
      simp only [hsearch] at hr
      obtain ⟨r, hquery, hret⟩ := hr.of_seq
      obtain rfl := Except.ok.inj ((Store.Yields.ret _).unique hret)
      obtain rfl := Option.some.inj hrows
      have hconsistent : (⟨n.request, search⟩ : SearchRequest).consistency = .strong := hstrong
      refine (h.sound_search hconsistent hquery).render _ fun d hit hhit => ?_
      rw [Native.Shows, if_neg hexact, hsearch]
      exact ⟨hhit.1, hhit.2, rfl⟩
  | none =>
      cases horder : n.orderBy with
      | some order =>
          simp only [hsearch, horder] at hr
          obtain ⟨r, hquery, hret⟩ := hr.of_seq
          obtain rfl := Except.ok.inj ((Store.Yields.ret _).unique hret)
          obtain rfl := Option.some.inj hrows
          refine (h.sound_ordered hstrong hquery).render _ fun d hit hhit => ?_
          rw [hhit, Native.Shows, if_neg hexact, hsearch, horder]
          exact ⟨rfl, rfl, rfl⟩
      | none =>
          simp only [hsearch, horder] at hr
          obtain ⟨r, hquery, hret⟩ := hr.of_seq
          obtain rfl := Except.ok.inj ((Store.Yields.ret _).unique hret)
          obtain rfl := Option.some.inj hrows
          refine (h.sound_query hstrong hquery).render _ fun d hit hhit => ?_
          rw [hhit, Native.Shows, if_neg hexact, hsearch, horder]
          exact ⟨rfl, rfl, rfl⟩

end Rows

/-! ## Fused lists -/

section Fused

variable {S : Type} [Score S] {k : S}

/-- The fused entry of an id is a row of it, with the attributes of a copy. -/
theorem fold_fuse {id : Id} {Q : Attrs → Prop} {copies : List (V2Row S × Nat)} (hid : ∀ p ∈ copies, p.1.id = id)
    (hQ : ∀ p ∈ copies, Q p.1.attrs) {entry : Option (S × V2Row S)} {e : S × V2Row S}
    (hentry : ∀ e', entry = some e' → e'.2.id = id ∧ Q e'.2.attrs)
    (h : copies.foldl (fun entry p => some (fuse k entry p)) entry = some e) : e.2.id = id ∧ Q e.2.attrs := by
  -- the entry is threaded through the fold, so it is generalised
  induction copies generalizing entry with
  | nil => exact hentry e h
  | cons p copies ih =>
      obtain ⟨hpid, hid⟩ := List.forall_mem_cons.mp hid
      obtain ⟨hpQ, hQ⟩ := List.forall_mem_cons.mp hQ
      refine ih hid hQ (fun e' he' => ?_) h
      obtain rfl := Option.some.inj he'
      cases entry with
      | none => exact ⟨hpid, hpQ⟩
      | some old =>
          obtain ⟨holdId, holdQ⟩ := hentry old rfl
          rw [fuse]
          dsimp only
          split_ifs
          -- the first copy with attributes replaces those of a copy without
          · exact ⟨holdId, hpQ⟩
          · exact ⟨holdId, holdQ⟩

/-- A row of a list has the id and the attributes. -/
def CopiedFrom (lists : List (List (V2Row S))) (id : Id) (attrs : Attrs) : Prop :=
  ∃ list ∈ lists, ∃ r ∈ list, r.id = id ∧ r.attrs = attrs

/-- The entries of a fusion, each under the id of its row. -/
theorem get_fused {lists : List (List (V2Row S))} {id : Id} {e : S × V2Row S}
    (h : (joinAll (fun p => p.1.id) (fuse k) .empty (rankedRows lists)).get id = some e) :
    e.2.id = id ∧ CopiedFrom lists id e.2.attrs := by
  rw [get_joinAll] at h
  refine fold_fuse (fun p hp => ?_) (fun p hp => ?_) (fun e' he' => ?_) h
  · exact of_decide_eq_true (List.mem_filter.mp hp).2
  · obtain ⟨hmem, hid⟩ := List.mem_filter.mp hp
    obtain ⟨list, hlist, hrow⟩ := List.mem_flatMap.mp hmem
    exact ⟨list, hlist, p.1, List.fst_mem_of_mem_zipIdx hrow, of_decide_eq_true hid, rfl⟩
  · cases he'

/-- **A fused list** has an id once, with a score and the attributes of a row of the lists, and keeps the limit. -/
theorem rrf_rows (lists : List (List (V2Row S))) (k : S) (limit : Nat) :
    ((rrf lists k limit).map V2Row.id).Nodup ∧ (rrf lists k limit).length ≤ limit ∧
      ∀ row ∈ rrf lists k limit, row.dist.isSome ∧ CopiedFrom lists row.id row.attrs := by
  let fused := joinAll (fun p : V2Row S × Nat => p.1.id) (fuse k) .empty (rankedRows lists)
  let out := fused.values.insertionSort fun a b => (Score.totalCmp b.1 a.1).then (compare a.2.id b.2.id) ≠ .gt
  have hrrf : rrf lists k limit = (out.take limit).map fun e => { e.2 with dist := some e.1 } := rfl
  -- every entry is under the id of its own row, so the keys of the map are the ids of the rows
  have hkeys : fused.values.map (fun e => e.2.id) = fused.entries.map (·.1) := by
    rw [SortedMap.values, List.map_map]
    refine List.map_congr_left fun e he => ?_
    exact (get_fused (SortedMap.get_eq_some_iff.mpr he)).1
  have hnodup : (fused.values.map fun e => e.2.id).Nodup := by
    rw [hkeys]
    exact (List.pairwise_map.mpr fused.sorted).imp ne_of_lt
  refine ⟨?_, ?_, fun row hrow => ?_⟩
  · rw [hrrf, List.map_map]
    have hout : (out.map fun e => e.2.id).Nodup := (((List.perm_insertionSort _ _).map _).nodup_iff).mpr hnodup
    exact hout.sublist ((List.take_sublist limit out).map _)
  · rw [hrrf, List.length_map]
    exact List.length_take_le _ _
  · rw [hrrf] at hrow
    obtain ⟨e, he, rfl⟩ := List.mem_map.mp hrow
    have hvalue : e ∈ fused.values := (List.perm_insertionSort _ _).subset (List.mem_of_mem_take he)
    obtain ⟨id, hget⟩ := SortedMap.mem_values_iff.mp hvalue
    obtain ⟨rfl, hcopied⟩ := get_fused hget
    exact ⟨rfl, hcopied⟩

end Fused

/-! ## Requests -/

section Requests

variable [Crates] [HashOrder] {s : Store} {rs : List Record}

/-- **A sound answer to a query**: its rows are of live documents that match, each once, no more than asked for. -/
def V2Query.Sound (q : V2Query) (s : Store) (rs : List Record) (response : V2QueryResponse) : Prop :=
  ∃ n, q.intoNative defaultNprobe = .ok n ∧ n.request.topK ≤ 10000 ∧ ∀ rows, response.rows = some rows →
    SoundRows s rs q.filters n.request.topK (n.Shows s.manifest.schema.distanceMetric) rows

/-- **A sound answer to a request**: to a query once its text is embedded, to each sub-query of a multi-query in
turn, or the fusion of such answers, each of whose rows is of a live document and a copy of one of theirs. -/
inductive SoundAnswer (embedder : Option Embedder) (body : V2Query) (s : Store) (rs : List Record) : V2Answer → Prop
  | single {q : V2Query} {response : V2QueryResponse} (embedded : embedQuery embedder body = .ok q)
      (sound : q.Sound s rs response) : SoundAnswer embedder body s rs (.single response)
  | multi {subs qs : List V2Query} {limit : Nat} {results : List V2QueryResponse}
      (split : body.splitMulti = .ok (some (subs, none, limit))) (embedded : embedSubqueries embedder subs = .ok qs)
      (sound : List.Forall₂ (fun q => V2Query.Sound { q with consistency := body.consistency } s rs) qs results) :
      SoundAnswer embedder body s rs (.multi results)
  | fused {subs qs : List V2Query} {k : F32} {limit : Nat} {results : List V2QueryResponse} {rows : List (V2Row F32)}
      (split : body.splitMulti = .ok (some (subs, some (.rrf k), limit)))
      (embedded : embedSubqueries embedder subs = .ok qs)
      (sound : List.Forall₂ (fun q => V2Query.Sound { q with consistency := body.consistency } s rs) qs results)
      (drawn : Drawn (fun d row => row.id = d.id ∧ row.dist.isSome ∧
        CopiedFrom (results.filterMap (·.rows)) row.id row.attrs) (materialize rs).values rows)
      (within : rows.length ≤ limit) : SoundAnswer embedder body s rs (.single { rows := some rows })

omit [HashOrder] in
/-- The fusion of sound answers. -/
theorem drawn_rrf {qs : List V2Query} {results : List V2QueryResponse} {consistency : Option ConsistencyLevel}
    (h : List.Forall₂ (fun q => V2Query.Sound { q with consistency } s rs) qs results) (k : F32) (limit : Nat) :
    Drawn (fun d row => row.id = d.id ∧ row.dist.isSome ∧ CopiedFrom (results.filterMap (·.rows)) row.id row.attrs)
      (materialize rs).values (Fckdb.rrf (results.filterMap (·.rows)) k limit) := by
  obtain ⟨hnodup, -, hrows⟩ := rrf_rows (results.filterMap (·.rows)) k limit
  -- a row of a sub-query is of a live document, and the fused row has its id
  refine .of_nodup Doc.id hnodup fun row hrow => ?_
  obtain ⟨hscored, hcopied⟩ := hrows row hrow
  obtain ⟨list, hlist, r, hr, hid, -⟩ := (hrows row hrow).2
  obtain ⟨result, hresult, hlist⟩ := List.mem_filterMap.mp hlist
  obtain ⟨i, hi, rfl⟩ := List.mem_iff_getElem.mp hresult
  obtain ⟨n, -, -, hsound⟩ := h.get (h.length_eq ▸ hi) hi
  obtain ⟨filter, -, hdrawn⟩ := (hsound list hlist).drawn
  obtain ⟨d, hd, hshows⟩ := hdrawn.exists_of hr
  have hrowId : row.id = d.id := hid.symm.trans hshows.1
  exact ⟨d, List.mem_of_mem_filter hd, ⟨hrowId, hscored, hcopied⟩, hrowId⟩

variable {docs : List (List Doc)} {tail : List Record} {handle : Nat}

/-- **A query** is answered soundly. -/
theorem sound_runV2Query (h : Layout s s.manifest docs tail) {q : V2Query} (hfresh : q.freshness = .strong)
    {response : V2QueryResponse}
    (hr : s.Responds (runV2Query handle q s.manifest.schema.distanceMetric) (.ok response)) :
    q.Sound s (Layout.log docs tail) response := by
  obtain ⟨n, hn, hr⟩ := hr.of_seq
  obtain ⟨⟨⟩, -, hr⟩ := hr.of_seq
  have hnative : q.intoNative defaultNprobe = .ok n :=
    mapError_eq_ok.mp ((Store.Responds.ofExcept _).unique hn)
  obtain ⟨hfilter, hconsistency, -, -, hcount⟩ := V2Query.of_intoNative hnative
  refine ⟨n, hnative, hcount, fun rows hrows => ?_⟩
  rw [← hfilter]
  exact sound_run h (hconsistency.trans hfresh) hr.of_ofProc hrows

end Requests

/-! ## Sub-queries at once -/

section Multi

variable {s : Store}

/-- All replies of a list are answers. -/
theorem mapM_id_eq_ok {ε α : Type} {replies : List (Except ε α)} {answers : List α} :
    replies.mapM id = .ok answers ↔ replies = answers.map .ok := by
  induction replies generalizing answers with
  | nil =>
      rw [List.mapM_nil, List.nil_eq, List.map_eq_nil_iff]
      exact ⟨fun h => (Except.ok.inj h).symm, fun h => h ▸ rfl⟩
  | cons reply replies ih =>
      rw [List.mapM_cons, bind_eq_ok]
      constructor
      · rintro ⟨a, rfl, h⟩
        obtain ⟨as, has, h⟩ := bind_eq_ok.mp h
        obtain rfl := Except.ok.inj h
        rw [ih.mp has, List.map_cons]
      · intro h
        obtain ⟨a, as, rfl, rfl, rfl⟩ := List.map_eq_cons_iff.mp h.symm
        exact ⟨a, rfl, bind_eq_ok.mpr ⟨as, ih.mpr rfl, rfl⟩⟩

/-- **Handlers at once**, on a store that nobody changes: each answers what it answers alone, and the first refusal
of the list is that of all. -/
theorem joinApi_iff {α : Type} {ps : List (Api α)} {r : Except AppError (List α)} :
    s.Responds (joinApi ps) r ↔ ∃ rs, List.Forall₂ s.Responds ps rs ∧ r = rs.mapM id := by
  have heval : Prog.eval s.peek (joinApi ps) =
      (Prog.eval s.peek (Prog.joinAll Request.choose id ps)).bind fun rs => some (rs.mapM id) := Prog.eval_bind _ _
  rw [Store.Responds, heval, Option.bind_eq_some_iff]
  constructor
  · rintro ⟨rs, hrs, hr⟩
    exact ⟨rs, Prog.forall₂_of_eval_joinAll rfl hrs, (Option.some.inj hr).symm⟩
  · rintro ⟨rs, hrs, rfl⟩
    exact ⟨rs, Prog.eval_joinAll_forall₂ rfl hrs, rfl⟩

/-- Handlers at once that all answer. -/
theorem joinApi_eq_ok_iff {α : Type} {ps : List (Api α)} {answers : List α} :
    s.Responds (joinApi ps) (.ok answers) ↔ List.Forall₂ (fun p a => s.Responds p (.ok a)) ps answers := by
  rw [joinApi_iff]
  constructor
  · rintro ⟨replies, hreplies, hall⟩
    obtain rfl := mapM_id_eq_ok.mp hall.symm
    exact List.forall₂_map_right_iff.mp hreplies
  · exact fun h => ⟨answers.map .ok, List.forall₂_map_right_iff.mpr h, (mapM_id_eq_ok.mpr rfl).symm⟩

/-- A request that is strongly consistent. -/
theorem V2Query.freshness_strong {q : V2Query} (h : q.consistency ≠ some .eventual) : q.freshness = .strong := by
  rw [freshness]
  split
  · rename_i heventual
    exact absurd heventual h
  · rfl

/-- Only the ranking changes when a text is embedded. -/
theorem V2Query.resolveEmbed_frame (q : V2Query) (vector : List F32) :
    (q.resolveEmbed vector).consistency = q.consistency ∧ (q.resolveEmbed vector).queries = q.queries := by
  rw [resolveEmbed]
  split <;> exact ⟨rfl, rfl⟩

variable [Crates] [HashOrder]

omit [Crates] [HashOrder] in
/-- A query is as fresh as it was, once its text is embedded. -/
theorem embedQuery_consistency {embedder : Option Embedder} {body q : V2Query}
    (h : embedQuery embedder body = .ok q) : q.consistency = body.consistency := by
  rw [embedQuery] at h
  split at h
  · obtain rfl := Except.ok.inj h
    rfl
  · obtain ⟨vector, -, rfl⟩ := map_eq_ok.mp h
    exact (body.resolveEmbed_frame vector).1

variable {rs : List Record} {handle : Nat}

end Multi

/-! ## Two orders at once -/

/-- The heaviest two, and the lightest one. -/
def weighedBody : V2Query :=
  { queries := some [{ rankBy := some (.order "n" true), topK := some 2 },
      { rankBy := some (.order "n" false), topK := some 1 }] }

end Compat

end Fckdb
