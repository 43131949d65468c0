import Fckdb.Lib.Best
import Fckdb.Lib.Rounds
import Fckdb.SchemaRuns
import Fckdb.WriteAlone

/-! # Filter writes that are issued again

A filter write touches the first matching documents by id, as many as its cap allows, and says whether more remain; its
writer issues it again. Repeated deletes go through the matching documents in order until none is left
(`Reissues.deletes`). Repeated patches come to an end exactly if no matching document has too many before it that the
patched filter still matches; otherwise the same documents are patched over and over, and those behind them never are
(`Reissues.patches`). -/

namespace Fckdb

/-- A request that is nothing but one mutation of what a filter matches. -/
inductive FilterWrite
  | delete (filter : Filter)
  | patch (patch : FilterPatch)

namespace FilterWrite

def body : FilterWrite → WriteRequest
  | delete filter => { deleteByFilter := some filter }
  | patch fp => { patchByFilter := some fp }

def filter : FilterWrite → Filter
  | delete filter => filter
  | patch fp => fp.filters

/-- How many documents one request touches at most. -/
def cap : FilterWrite → Nat
  | delete _ => maxDeleteByFilterRows
  | patch _ => maxPatchByFilterRows

/-- What it does to one document. -/
def record : FilterWrite → Id → Record
  | delete _, id => .delete id
  | patch fp, id => .patch id fp.patch

/-- A patch changes something. -/
def HasPatch : FilterWrite → Prop
  | delete _ => True
  | patch fp => fp.patch.entries ≠ []

end FilterWrite

/-! ## What is matched -/

section Matching

variable [Crates]

/-- The ids of the documents that a filter matches. -/
def Live.matching (live : Live) (f : Filter) (fts : FtsSchema) : Finset Id :=
  ((live.values.filter fun d => f.matches d.attrs fts).map Doc.id).toFinset

theorem Live.WellKeyed.mem_matching {live : Live} (h : live.WellKeyed) {f : Filter} {fts : FtsSchema} {id : Id} :
    id ∈ live.matching f fts ↔ ∃ d, live.get id = some d ∧ f.matches d.attrs fts = true := by
  rw [Live.matching, List.mem_toFinset, List.mem_map]
  constructor
  · rintro ⟨d, hd, rfl⟩
    obtain ⟨hd, hmatches⟩ := List.mem_filter.mp hd
    obtain ⟨k, hk⟩ := SortedMap.mem_values_iff.mp hd
    exact ⟨d, h k d hk ▸ hk, hmatches⟩
  · rintro ⟨d, hd, hmatches⟩
    exact ⟨d, List.mem_filter.mpr ⟨SortedMap.mem_values_iff.mpr ⟨id, hd⟩, hmatches⟩, h id d hd⟩

omit [Crates] in
/-- **The cap keeps the first ids**, and says whether there are more. -/
theorem capped_firsts {ids : List Id} {s : Finset Id} (hnodup : ids.Nodup) (hs : ids.toFinset = s) (cap : Nat) :
    (∀ id, id ∈ (capped ids cap).1 ↔ id ∈ firsts cap s) ∧ (capped ids cap).2 = decide (cap < s.card) := by
  have hcount (x : Id) : ids.countP (id · < id x) = before s x := by
    have hfilter : {y ∈ ids.toFinset | y < x} = (ids.filter fun y => y < x).toFinset := by
      ext y
      simp only [Finset.mem_filter, List.mem_toFinset, List.mem_filter, decide_eq_true_eq]
    rw [before, ← hs, hfilter, List.toFinset_card_of_nodup (hnodup.filter _), List.countP_eq_length_filter]
    rfl
  constructor
  · intro x
    rw [mem_firsts, ← hcount x, ← hs, List.mem_toFinset]
    have hmap : (ids.map id).Nodup := by rwa [List.map_id]
    exact mem_best_iff hmap
  · rw [capped, ← hs, List.toFinset_card_of_nodup hnodup]
    exact congrArg (fun n => decide (cap < n)) (List.length_insertionSort _ _)

variable [HashOrder]

/-- The scan finds what the filter matches. -/
theorem Ledger.scan_matching (l : Ledger) (f : Filter) :
    (l.scan f).Nodup ∧ (l.scan f).toFinset = (materialize l.log).matching f l.schema.fts := by
  have hperm : (l.scan f).Perm (((materialize l.log).values.filter fun d =>
      f.matches d.attrs l.schema.fts).map Doc.id) :=
    ((Live.hashValues_perm _).filter _).map _
  refine ⟨hperm.nodup_iff.mpr ?_, List.toFinset_eq_of_perm _ _ hperm⟩
  exact (materialize_wellKeyed l.log).nodup_ids.sublist (List.filter_sublist.map _)

end Matching

/-! ## What a request does -/

section Treating

variable [Crates] {w : FilterWrite} {σ : Schema} {effect : Doc → Option Doc}

/-- Records of one kind that a schema absorbs as they come. -/
theorem Schema.absorb_map {ids : List Id} {asked : Id → Record} (stored : Id → Record)
    (h : ∀ id ∈ ids, σ.absorbRecord (asked id) = .ok (σ, stored id)) :
    σ.absorb (ids.map asked) = .ok (σ, ids.map stored) := by
  induction ids with
  | nil => rfl
  | cons id ids ih =>
      rw [List.map_cons, absorb, h id List.mem_cons_self]
      show (σ.absorb (ids.map asked)).bind _ = _
      rw [ih fun id' hid' => h id' (List.mem_cons_of_mem _ hid')]
      rfl

/-- An id of the namespace's type is absorbed as it is. -/
theorem Schema.absorbId_self {id : Id} (h : σ.idType = some id.typeOf) : σ.absorbId id = .ok (σ, id) := by
  have hcoerce : id.coerce id.typeOf = .ok id := by rw [Id.coerce.eq_def, if_pos rfl]
  rw [absorbId, h]
  dsimp only
  rw [hcoerce]
  rfl

/-- The schema takes the records of a filter write as they are, and they have this effect. -/
structure FilterWrite.Treats (w : FilterWrite) (σ : Schema) (effect : Doc → Option Doc) : Prop where
  absorbs : ∀ ids : List Id, (∀ id ∈ ids, σ.idType = some id.typeOf) → ∃ batch,
    σ.absorb (ids.map w.record) = .ok (σ, batch) ∧
      ∀ id doc, effectAt id batch doc = if id ∈ ids then doc.bind effect else doc
  again : ∀ d, (effect d).bind effect = effect d

theorem FilterWrite.treats_delete (filter : Filter) (σ : Schema) :
    (FilterWrite.delete filter).Treats σ fun _ => none where
  absorbs ids hids := by
    refine ⟨_, Schema.absorb_map .delete fun id hid => ?_, fun id doc => ?_⟩
    · show (σ.absorbId id).bind _ = _
      rw [Schema.absorbId_self (hids id hid)]
      rfl
    · rw [effectAt_deletes]
      cases doc with
      | none => rfl
      | some d => rfl
  again _ := rfl

/-- What a patch does to a document. -/
def patched (attrs : Attrs) (d : Doc) : Doc := { d with attrs := mergeAttrs d.attrs attrs.entries }

/-- A patch whose attributes are declared. -/
theorem FilterWrite.treats_patch {fp : FilterPatch} {attrs : Attrs}
    (h : ∀ id, σ.absorbAttrs fp.patch id = .ok (σ, attrs)) :
    (FilterWrite.patch fp).Treats σ fun d => some (patched attrs d) where
  absorbs ids hids := by
    refine ⟨_, Schema.absorb_map (.patch · attrs) fun id hid => ?_, fun id doc => ?_⟩
    · show (σ.absorbId id).bind _ = _
      rw [Schema.absorbId_self (hids id hid)]
      show (σ.absorbAttrs fp.patch id).bind _ = _
      rw [h id]
      rfl
    · rw [effectAt_patches]
      cases doc with
      | none => rfl
      | some d => rfl
  again d := congrArg some ((Merges.mergeAttrs attrs.entries).idem d)

end Treating

/-! ## One request -/

section Request

variable [Crates] [HashOrder] [SerdeJson] {w : FilterWrite} {f : Filter} {t handle : Nat} {cut : Cut}
  {l l' : Ledger} {s s' : Store} {effect : Doc → Option Doc}

/-- What a filter write is resolved to. -/
theorem FilterWrite.planned {plan : Plan} (h : s.plan l w.body = .ok plan) :
    ∃ f, w.filter.coerce l.schema.attributes = .ok f ∧
      plan.records = (capped (s.found l f) w.cap).1.map w.record ∧
      plan.remaining = (capped (s.found l f) w.cap).2 := by
  obtain ⟨deletes, hdeletes, h⟩ := bind_eq_ok.mp h
  obtain ⟨patches, hpatches, h⟩ := bind_eq_ok.mp h
  cases w with
  | delete filter =>
      cases hpatches
      obtain ⟨f, hf, rfl⟩ := map_eq_ok.mp (mapError_eq_ok.mp hdeletes)
      refine ⟨f, hf, ?_⟩
      change (if _ then _ else _) = _ at h
      split_ifs at h
      cases h
      exact ⟨by simp [body, record, cap], by simp [cap]⟩
  | patch fp =>
      cases hdeletes
      rw [body, Store.patches] at hpatches
      split_ifs at hpatches
      obtain ⟨x, hx, rfl⟩ := map_eq_ok.mp hpatches
      obtain ⟨f, hf, rfl⟩ := map_eq_ok.mp (mapError_eq_ok.mp hx)
      refine ⟨f, hf, ?_⟩
      change (if _ then _ else _) = _ at h
      split_ifs at h
      cases h
      exact ⟨by simp [body, record, cap], by simp [cap]⟩

omit [HashOrder] in
/-- A request of two filters with something to do has a plan. -/
theorem FilterWrite.plan_body (w : FilterWrite) {deletes : List Id × Bool} {patches : List Record × Bool}
    (h : deletes.1.map .delete ++ patches.1 ≠ []) : ∃ plan, w.body.plan deletes patches = .ok plan := by
  have hnot : ¬ (deletes.1.map Record.delete ++ patches.1 ++ [] ++ [] ++ [] ++ [] ++ []).isEmpty = true := by
    simpa only [List.append_nil, List.isEmpty_iff] using h
  cases w with
  | delete filter => exact ⟨_, if_neg hnot⟩
  | patch fp => exact ⟨_, if_neg hnot⟩

/-- A filter write that finds something has a plan. -/
theorem FilterWrite.plans (hw : w.HasPatch) (hf : w.filter.coerce l.schema.attributes = .ok f)
    (hne : (capped (s.found l f) w.cap).1 ≠ []) : ∃ plan, s.plan l w.body = .ok plan := by
  cases w with
  | delete filter =>
      have hdeletes : s.deletes l (some filter) = .ok (capped (s.found l f) maxDeleteByFilterRows) := by
        rw [Store.deletes, Store.resolved, show filter.coerce l.schema.attributes = .ok f from hf]
        rfl
      obtain ⟨plan, hplan⟩ := @plan_body _ _ (.delete filter) (capped (s.found l f) maxDeleteByFilterRows) ([], false)
        (List.append_ne_nil_of_left_ne_nil (mt List.map_eq_nil_iff.mp hne) [])
      exact ⟨plan, bind_eq_ok.mpr ⟨_, hdeletes, bind_eq_ok.mpr ⟨_, rfl, hplan⟩⟩⟩
  | patch fp =>
      have hpatches : s.patches l (some fp) =
          .ok ((capped (s.found l f) maxPatchByFilterRows).1.map fun id => .patch id fp.patch,
            (capped (s.found l f) maxPatchByFilterRows).2) := by
        rw [Store.patches, if_neg (mt List.isEmpty_iff.mp hw), Store.resolved,
          show fp.filters.coerce l.schema.attributes = .ok f from hf]
        rfl
      have hsome : ((capped (s.found l f) maxPatchByFilterRows).1.map fun id => Record.patch id fp.patch) ≠ [] :=
        fun hnil => hne (List.map_eq_nil_iff.mp hnil)
      obtain ⟨plan, hplan⟩ := @plan_body _ _ (.patch fp) ([], false)
        (_, (capped (s.found l f) maxPatchByFilterRows).2) (List.append_ne_nil_of_right_ne_nil [] hsome)
      exact ⟨plan, bind_eq_ok.mpr ⟨_, rfl, bind_eq_ok.mpr ⟨_, hpatches, hplan⟩⟩⟩

/-- A namespace that a filter write comes to: the handle and the indexes are in order, every record fits the schema,
and the indexes find what the scan finds. -/
structure FilterWrite.Meets (handle : Nat) (f : Filter) (l : Ledger) (s : Store) : Prop where
  coherent : Coherent handle s
  carries : Carries l s
  searchable : s.Searchable
  fits : ∀ r ∈ l.log, l.schema.Fits r
  exact : (s.found l f).Perm (l.scan f)

omit [SerdeJson] in
/-- With a tail, filters are resolved by the scan. -/
theorem Store.found_of_tail (h : s.manifest.wal ≠ []) (l : Ledger) (f : Filter) : s.found l f = l.scan f := by
  have hcovered : s.manifest.covered = false := by
    rw [Manifest.covered, List.isEmpty_eq_false_iff.mpr h]
    rfl
  rw [Store.found, Store.indexed, hcovered]
  rfl

omit [SerdeJson] in
/-- After a write there is a tail. -/
theorem FilterWrite.Meets.of_written (h : Written handle l s) (hfits : ∀ r ∈ l.log, l.schema.Fits r) :
    FilterWrite.Meets handle f l s := by
  have hcovered : s.manifest.covered = false := by
    rw [Manifest.covered, List.isEmpty_eq_false_iff.mpr h.tail]
    rfl
  refine ⟨h.settled.absent, h.carries, fun hc => ?_, hfits, ?_⟩
  · rw [hcovered] at hc
    cases hc
  · rw [Store.found_of_tail h.tail]

namespace FilterWrite.Meets

omit [SerdeJson] in
/-- What is found, cut to the cap. -/
theorem capped (h : FilterWrite.Meets handle f l s) (cap : Nat) :
    (∀ id, id ∈ (Fckdb.capped (s.found l f) cap).1 ↔
        id ∈ firsts cap ((materialize l.log).matching f l.schema.fts)) ∧
      (Fckdb.capped (s.found l f) cap).2 = decide (cap < ((materialize l.log).matching f l.schema.fts).card) := by
  obtain ⟨hnodup, hscan⟩ := l.scan_matching f
  exact capped_firsts (h.exact.nodup_iff.mpr hnodup) ((List.toFinset_eq_of_perm _ _ h.exact).trans hscan) cap

omit [SerdeJson] in
/-- Documents that are matched have ids of the namespace's type. -/
theorem idType (h : FilterWrite.Meets handle f l s) {cap : Nat} {id : Id}
    (hid : id ∈ (Fckdb.capped (s.found l f) cap).1) : l.schema.idType = some id.typeOf := by
  have hwell := materialize_wellKeyed l.log
  obtain ⟨d, hd, -⟩ := hwell.mem_matching.mp (mem_firsts.mp (((h.capped cap).1 id).mp hid)).1
  have hfits := materialize_fits h.fits d (SortedMap.mem_values_iff.mpr ⟨id, hd⟩)
  exact hwell id d hd ▸ hfits.id

omit [SerdeJson] in
/-- The records of a filter write are absorbed as they are. -/
theorem prepared (h : FilterWrite.Meets handle f l s) (htreats : w.Treats l.schema effect) :
    ∃ batch, prepareRecords ((Fckdb.capped (s.found l f) w.cap).1.map w.record) {} s.manifest =
        .ok (l.schema, batch) ∧ (∀ r ∈ batch, l.schema.Fits r) ∧
      ∀ id doc, effectAt id batch doc =
        if id ∈ firsts w.cap ((materialize l.log).matching f l.schema.fts) then doc.bind effect else doc := by
  obtain ⟨batch, habsorbs, heffect⟩ := htreats.absorbs _ fun id hid => h.idType hid
  refine ⟨batch, ?_, (Schema.absorb_fits habsorbs).1, fun id doc => ?_⟩
  · rw [prepareRecords_metric, h.carries.schema]
    exact habsorbs
  · rw [heffect]
    exact if_congr ((h.capped w.cap).1 id) rfl rfl

/-- **One filter write** treats the first of the documents it matches. -/
theorem of_write (h : FilterWrite.Meets handle f l s) (hf : w.filter.coerce l.schema.attributes = .ok f)
    (htreats : w.Treats l.schema effect) {resp : WriteResponse}
    (hruns : Runs t (write handle cut w.body) s s' (.ok resp)) :
    ∃ l', l'.schema = l.schema ∧ Written handle l' s' ∧ (∀ r ∈ l'.log, l'.schema.Fits r) ∧
      ((materialize l.log).matching f l.schema.fts).Nonempty ∧
      resp.rowsRemaining = decide (w.cap < ((materialize l.log).matching f l.schema.fts).card) ∧
      ∀ id, (materialize l'.log).get id =
        if id ∈ firsts w.cap ((materialize l.log).matching f l.schema.fts) then
          ((materialize l.log).get id).bind effect
        else (materialize l.log).get id := by
  obtain ⟨-, -, plan, schema, batch, hplan, hp, hremaining, hw⟩ :=
    Runs.of_write h.coherent h.carries h.searchable hruns
  obtain ⟨f', hf', hrecords, hmore⟩ := planned hplan
  obtain rfl := Except.ok.inj (hf.symm.trans hf')
  obtain ⟨batch', hp', hfits, heffect⟩ := h.prepared htreats
  have hmetric : w.body.distanceMetric = none := by cases w <;> rfl
  rw [hmetric, hrecords] at hp
  obtain ⟨rfl, rfl⟩ := Prod.mk.inj (Except.ok.inj (hp'.symm.trans hp))
  have hsome : ((materialize l.log).matching f l.schema.fts).Nonempty := by
    have hne := Store.plan_ne_nil hplan
    rw [hrecords, Ne, List.map_eq_nil_iff] at hne
    obtain ⟨id, hid⟩ := List.exists_mem_of_ne_nil _ hne
    exact ⟨id, (mem_firsts.mp (((h.capped w.cap).1 id).mp hid)).1⟩
  refine ⟨⟨l.schema, l.log ++ batch'⟩, rfl, hw, fun r hr => ?_, hsome, hremaining.trans (hmore.trans (h.capped w.cap).2), fun id => ?_⟩
  · exact (List.mem_append.mp hr).elim (h.fits r) (hfits r)
  · rw [get_materialize, effectAt_append, heffect, ← get_materialize]

/-- **A filter write that matches something is accepted**, unless the tail is at its limit. -/
theorem write (h : FilterWrite.Meets handle f l s) (hw : w.HasPatch)
    (hf : w.filter.coerce l.schema.attributes = .ok f) (htreats : w.Treats l.schema effect)
    (hsome : ((materialize l.log).matching f l.schema.fts).Nonempty) (hroom : checkTail s.manifest = .ok ()) :
    ∃ s' resp, Runs t (Fckdb.write handle cut w.body) s s' (.ok resp) := by
  have hne : (Fckdb.capped (s.found l f) w.cap).1 ≠ [] := by
    have hcap : 0 < w.cap := by cases w <;> exact Nat.zero_lt_succ _
    obtain ⟨id, hid⟩ := firsts_nonempty hcap hsome
    exact List.ne_nil_of_mem (((h.capped w.cap).1 id).mpr hid)
  obtain ⟨plan, hplan⟩ := FilterWrite.plans hw hf hne
  obtain ⟨f', hf', hrecords, -⟩ := planned hplan
  obtain rfl := Except.ok.inj (hf.symm.trans hf')
  obtain ⟨batch, hp, -⟩ := h.prepared htreats
  have hmetric : w.body.distanceMetric = none := by cases w <;> rfl
  have hcheck : w.body.check = .ok () := by cases w <;> rfl
  rw [← hrecords, ← hmetric] at hp
  obtain ⟨s', resp, hruns, -, -⟩ := Runs.write h.coherent h.carries h.searchable hcheck hroom hplan hp
  exact ⟨s', resp, hruns⟩

end FilterWrite.Meets

/-! ## Issuing it again -/

/-- A request that is issued, and issued again as long as rows remain: how often, from where to where, and whether rows
remain at the end. -/
inductive Reissues (t handle : Nat) (cut : Cut) (body : WriteRequest) : Nat → Store → Store → Bool → Prop
  | first {s s' : Store} {resp : WriteResponse} (h : Runs t (write handle cut body) s s' (.ok resp)) :
      Reissues t handle cut body 1 s s' resp.rowsRemaining
  | again {n : Nat} {s s₁ s' : Store} {resp : WriteResponse} (h : Reissues t handle cut body n s s₁ true)
      (h' : Runs t (write handle cut body) s₁ s' (.ok resp)) :
      Reissues t handle cut body (n + 1) s s' resp.rowsRemaining

/-- Whether a document is still matched once it is treated. -/
def Live.staysBy (live : Live) (effect : Doc → Option Doc) (f : Filter) (fts : FtsSchema) (id : Id) : Bool :=
  ((live.get id).bind effect).any fun d => f.matches d.attrs fts

omit [HashOrder] [SerdeJson] in
/-- What is still matched after some rounds. -/
theorem Live.WellKeyed.matching_treated {live live' : Live} (h : live.WellKeyed) (h' : live'.WellKeyed)
    {fts : FtsSchema} {cap n : Nat}
    (hget : ∀ id, (Treated cap (live.staysBy effect f fts) n (live.matching f fts) id →
        live'.get id = (live.get id).bind effect) ∧
      (¬ Treated cap (live.staysBy effect f fts) n (live.matching f fts) id → live'.get id = live.get id)) :
    live'.matching f fts = leftAfter cap (live.staysBy effect f fts) n (live.matching f fts) := by
  ext id
  rw [h'.mem_matching, mem_leftAfter]
  by_cases htreated : Treated cap (live.staysBy effect f fts) n (live.matching f fts) id
  · rw [(hget id).1 htreated, Live.staysBy, Option.any_eq_true]
    exact ⟨fun hd => ⟨mem_of_treated htreated, fun _ => hd⟩, fun hd => hd.2 htreated⟩
  · rw [(hget id).2 htreated, h.mem_matching]
    exact ⟨fun hd => ⟨hd, fun ht => absurd ht htreated⟩, fun hd => hd.1⟩

/-- **Requests issued again** work through what is matched in rounds. -/
theorem Reissues.rounds {n : Nat} {more : Bool} (hmeets : FilterWrite.Meets handle f l s)
    (hf : w.filter.coerce l.schema.attributes = .ok f) (htreats : w.Treats l.schema effect)
    {stays : Id → Bool} (hstays : stays = (materialize l.log).staysBy effect f l.schema.fts) {found : Finset Id}
    (hfound : found = (materialize l.log).matching f l.schema.fts)
    (h : Reissues t handle cut w.body n s s' more) :
    ∃ l' m, n = m + 1 ∧ l'.schema = l.schema ∧ Written handle l' s' ∧ (∀ r ∈ l'.log, l'.schema.Fits r) ∧
      (leftAfter w.cap stays m found).Nonempty ∧ (∀ k < m, w.cap < (leftAfter w.cap stays k found).card) ∧
      more = decide (w.cap < (leftAfter w.cap stays m found).card) ∧
      ∀ id, (Treated w.cap stays n found id → (materialize l'.log).get id = ((materialize l.log).get id).bind effect) ∧
        (¬ Treated w.cap stays n found id → (materialize l'.log).get id = (materialize l.log).get id) := by
  generalize hbody : w.body = body at h
  induction h with
  | first hruns =>
      subst hbody
      obtain ⟨l', hschema, hw, hfits, hsome, hmore, hget⟩ := hmeets.of_write hf htreats hruns
      rw [← hfound] at hsome hmore hget
      have hone (id : Id) : Treated w.cap stays 1 found id ↔ id ∈ firsts w.cap found := by
        rw [treated_succ]
        exact ⟨fun h => h.resolve_left fun ⟨k, hk, _⟩ => absurd hk (Nat.not_lt_zero k), .inr⟩
      refine ⟨l', 0, rfl, hschema, hw, hfits, hsome, fun k hk => absurd hk (Nat.not_lt_zero k), hmore, fun id => ?_⟩
      rw [hone, hget id]
      exact ⟨fun hid => if_pos hid, fun hid => if_neg hid⟩
  | again hbefore hruns ih =>
      subst hbody
      obtain ⟨l₁, m, rfl, hschema, hw, hfits, -, hrounds, hmore, hget⟩ := ih hmeets
      have hmatching : (materialize l₁.log).matching f l₁.schema.fts = leftAfter w.cap stays (m + 1) found := by
        rw [hschema, hstays, hfound]
        subst hstays hfound
        exact (materialize_wellKeyed _).matching_treated (materialize_wellKeyed _) hget
      obtain ⟨l', hschema', hw', hfits', hsome, hmore', hget'⟩ :=
        (FilterWrite.Meets.of_written hw hfits).of_write (hschema ▸ hf) (hschema ▸ htreats) hruns
      rw [hmatching] at hsome hmore' hget'
      refine ⟨l', m + 1, rfl, hschema'.trans hschema, hw', hfits', hsome, fun k hk => ?_, hmore', fun id => ?_⟩
      · rcases Nat.lt_succ_iff_lt_or_eq.mp hk with hk | rfl
        · exact hrounds k hk
        · exact of_decide_eq_true hmore.symm
      · rw [treated_succ, hget' id]
        by_cases hold : Treated w.cap stays (m + 1) found id
        · refine ⟨fun _ => ?_, fun hnot => absurd (.inl hold) hnot⟩
          rw [(hget id).1 hold]
          split_ifs
          · rw [Option.bind_assoc]
            exact Option.bind_congr fun d _ => htreats.again d
          · rfl
        · rw [(hget id).2 hold]
          exact ⟨fun h => if_pos (h.resolve_left hold), fun hnot => if_neg fun hid => hnot (.inr hid)⟩

/-- What repeated requests have left is accepted again as long as rows remain, unless the tail is at its limit. -/
theorem Reissues.goes_on {n : Nat} (hmeets : FilterWrite.Meets handle f l s) (hw : w.HasPatch)
    (hf : w.filter.coerce l.schema.attributes = .ok f) (htreats : w.Treats l.schema effect)
    (h : Reissues t handle cut w.body n s s' true) (hroom : checkTail s'.manifest = .ok ()) :
    ∃ s'' resp, Runs t (write handle cut w.body) s' s'' (.ok resp) := by
  obtain ⟨l', m, rfl, hschema, hwritten, hfits, -, -, hmore, hget⟩ := h.rounds hmeets hf htreats rfl rfl
  have hmatching : (materialize l'.log).matching f l'.schema.fts = leftAfter w.cap
      ((materialize l.log).staysBy effect f l.schema.fts) (m + 1) ((materialize l.log).matching f l.schema.fts) := by
    rw [hschema]
    exact (materialize_wellKeyed _).matching_treated (materialize_wellKeyed _) hget
  refine (FilterWrite.Meets.of_written hwritten hfits).write hw (hschema ▸ hf) (hschema ▸ htreats) ?_ hroom
  obtain ⟨x, hx, hnot⟩ := exists_not_mem_firsts (of_decide_eq_true hmore.symm)
  rw [hmatching]
  exact ⟨x, mem_leftOver.mpr ⟨hx, fun hfirst => absurd hfirst hnot⟩⟩

end Request

/-! ## Namespaces of a run -/

section Runs

variable [Crates] [HashOrder] [SerdeJson] {p : Namespace} {log : List Record} {t handle : Nat} {cut : Cut}
  {s' : Store} {f : Filter} {n : Nat} {more : Bool}

omit [SerdeJson] in
/-- A namespace whose current manifest has all its objects holds what they hold. -/
theorem Reaches.carries {ok : Terms} (h : Reaches ok p)
    (hreads : p.shared.Reads p.shared.manifest.recordObjects log)
    (hkept : ∀ name ∈ p.shared.manifest.referenced, name ∉ p.shared.deleted) :
    Carries ⟨p.shared.manifest.schema, log⟩ p.shared where
  schema := rfl
  reads := hreads
  kept name hname := hkept name (p.shared.manifest.recordObjects_subset hname)
  old name hname := by
    obtain ⟨put, hput⟩ := h.gone_written (.inl hname)
    exact (List.getElem?_eq_some_iff.mp (Option.filter_eq_some_iff.mp hput).1).1
  dropped := h.sound.dropped

omit [Crates] [HashOrder] [SerdeJson] in
theorem Written.carries_as {l : Ledger} {s : Store} {σ : Schema} (h : Written handle l s) (hσ : l.schema = σ) :
    Carries ⟨σ, l.log⟩ s := by
  subst hσ
  exact h.carries

omit [SerdeJson] in
/-- A namespace that was reached meets a filter write. -/
theorem Reaches.meets (h : Reaches schemaTerms p) (hreads : p.shared.Reads p.shared.manifest.recordObjects log)
    (hkept : ∀ name ∈ p.shared.manifest.referenced, name ∉ p.shared.deleted) (hc : Coherent handle p.shared)
    (hexact : (p.shared.found ⟨p.shared.manifest.schema, log⟩ f).Perm
      (Ledger.scan ⟨p.shared.manifest.schema, log⟩ f)) :
    FilterWrite.Meets handle f ⟨p.shared.manifest.schema, log⟩ p.shared where
  coherent := hc
  carries := h.carries hreads hkept
  searchable := h.searchable hkept
  fits := h.schemaInv.current.records hreads
  exact := hexact

/-- **Repeated deletes by a filter** go through the matching documents by id: after `n` requests the first
`n * maxDeleteByFilterRows` of them are gone, and nothing else is; the reply says whether there are more; and if there
are, the request is accepted again, unless the tail is at its limit. -/
theorem Reissues.deletes (h : Reaches schemaTerms p) (hreads : p.shared.Reads p.shared.manifest.recordObjects log)
    (hkept : ∀ name ∈ p.shared.manifest.referenced, name ∉ p.shared.deleted) (hc : Coherent handle p.shared)
    {filter : Filter} (hf : filter.coerce p.shared.manifest.schema.attributes = .ok f)
    (hexact : (p.shared.found ⟨p.shared.manifest.schema, log⟩ f).Perm
      (Ledger.scan ⟨p.shared.manifest.schema, log⟩ f)) {found : Finset Id}
    (hfound : found = (materialize log).matching f p.shared.manifest.schema.fts)
    (hr : Reissues t handle cut { deleteByFilter := some filter } n p.shared s' more) :
    (∃ log', Carries ⟨p.shared.manifest.schema, log'⟩ s' ∧ ∀ id, (materialize log').get id =
      if id ∈ found ∧ before found id < n * maxDeleteByFilterRows then none else (materialize log).get id) ∧
    more = decide (n * maxDeleteByFilterRows < found.card) ∧
    (more = true → checkTail s'.manifest = .ok () → ∃ s'' resp,
      Runs t (write handle cut { deleteByFilter := some filter }) s' s'' (.ok resp)) := by
  have hmeets := h.meets hreads hkept hc hexact
  have htreats := FilterWrite.treats_delete filter p.shared.manifest.schema
  have hstays : (fun _ => false) = (materialize log).staysBy (fun _ => none) f p.shared.manifest.schema.fts := by
    funext id
    rw [Live.staysBy]
    cases (materialize log).get id with
    | none => rfl
    | some d => rfl
  obtain ⟨l', m, rfl, hschema, hw, -, -, -, hmore, hget⟩ :=
    @Reissues.rounds _ _ _ (.delete filter) _ _ _ _ _ _ _ _ _ _ hmeets hf htreats _ hstays _ hfound hr
  refine ⟨⟨l'.log, hw.carries_as hschema, fun id => ?_⟩, ?_, ?_⟩
  · split_ifs with hid
    · rw [(hget id).1 (treated_iff.mpr hid)]
      cases (materialize log).get id with
      | none => rfl
      | some d => rfl
    · exact (hget id).2 fun ht => hid (treated_iff.mp ht)
  · rw [hmore, card_leftAfter, Nat.succ_mul]
    exact decide_eq_decide.mpr (by rw [Nat.lt_sub_iff_add_lt, Nat.add_comm]; rfl)
  · rintro rfl hroom
    exact @Reissues.goes_on _ _ _ (.delete filter) _ _ _ _ _ _ _ _ _ hmeets trivial hf htreats hr hroom

/-- A document of some colour. -/
def Doc.coloured (id : UInt64) (colour : String) : Doc :=
  ⟨.uint id, [⟨0⟩], SortedMap.empty.insert "colour" (.string colour)⟩

/-- Two documents are written. -/
def colouredRun : List Act :=
  .spawn (.commitRecords 0 [.upsert (.coloured 1 "red"), .upsert (.coloured 2 "blue")] {}) :: goes 0 6

/-- What is red. -/
def Filter.red : Filter := .cmp "colour" .eq (.string "red")

/-- A request that is issued once, at the end of a run. -/
theorem Reissues.of_run {acts : List Act} {body : WriteRequest} {check : Store → Bool}
    (hallowed : Allowed service.step (fun p a => schemaTerms.Meets p a) ⟨{}, []⟩ acts)
    (h : ((execute service.step ⟨{}, []⟩ acts).any fun p => p.shared.deleted.isEmpty && !p.shared.manifest.wal.isEmpty &&
      check p.shared && (Prog.run (Store.serve 0) (write handle .whole body) p.shared).any fun r =>
        r.2.toOption.any fun resp => !resp.rowsRemaining) = true) :
    ∃ p log s', Reaches schemaTerms p ∧ p.shared.Reads p.shared.manifest.recordObjects log ∧ p.shared.deleted = [] ∧
      p.shared.manifest.wal ≠ [] ∧ check p.shared = true ∧ Reissues 0 handle .whole body 1 p.shared s' false := by
  obtain ⟨p, hp, h⟩ := (Option.any_eq_true _ _).mp h
  obtain ⟨h, hrun⟩ := (Bool.and_eq_true _ _).mp h
  obtain ⟨h, hcheck⟩ := (Bool.and_eq_true _ _).mp h
  obtain ⟨hdeleted, hwal⟩ := (Bool.and_eq_true _ _).mp h
  obtain ⟨⟨s', r⟩, hruns, hr⟩ := (Option.any_eq_true _ _).mp hrun
  have hreaches : Reaches schemaTerms p := Reachable.init.execute hallowed hp
  obtain ⟨log, hreads⟩ := hreaches.grounded.reads
  refine ⟨p, log, s', hreaches, hreads, List.isEmpty_iff.mp hdeleted, fun hnil => ?_, hcheck, ?_⟩
  · rw [hnil] at hwal
    cases hwal
  · cases r with
    | error e => cases hr
    | ok resp =>
        have hmore : resp.rowsRemaining = false := Bool.not_eq_true' _ |>.mp hr
        exact hmore ▸ .first hruns

omit [Crates] [HashOrder] [SerdeJson] in
/-- The red one is deleted. -/
theorem colouredRun_deletes :
    let _ := Crates.inert
    let _ := HashOrder.sorted
    let _ := SerdeJson.exact
    ∃ p log s', Reaches schemaTerms p ∧ Reissues 0 1 .whole { deleteByFilter := some Filter.red } 1 p.shared s' false ∧
      ∃ log', Carries ⟨p.shared.manifest.schema, log'⟩ s' ∧ ∀ id, (materialize log').get id =
        if id ∈ (materialize log).matching Filter.red p.shared.manifest.schema.fts ∧
            before ((materialize log).matching Filter.red p.shared.manifest.schema.fts) id < 1 * maxDeleteByFilterRows
          then none else (materialize log).get id := by
  intro _ _ _
  obtain ⟨p, log, s', hreaches, hreads, hdeleted, hwal, hcheck, hr⟩ := @Reissues.of_run _ _ _ 1 colouredRun
    { deleteByFilter := some Filter.red } (fun s => s.manifest.schema.attributes = SortedMap.empty.insert "colour" .string &&
      s.current.isSome) (by decide +kernel) (by decide +kernel)
  obtain ⟨hschema, hcurrent⟩ := (Bool.and_eq_true _ _).mp hcheck
  have hf : Filter.red.coerce p.shared.manifest.schema.attributes = .ok Filter.red := by
    rw [of_decide_eq_true hschema]
    rfl
  exact ⟨p, log, s', hreaches, hr, (Reissues.deletes hreaches hreads (fun _ _ => hdeleted ▸ List.not_mem_nil)
    (fun hnone => by rw [hnone] at hcurrent; cases hcurrent) hf (by rw [Store.found_of_tail hwal]) rfl hr).1⟩

/-- **Repeated patches by a filter**, of attributes that are declared. If the reply says that nothing remains, every
matching document has been patched, and nothing else. That comes after at most as many requests as documents match, if
each of them has fewer than `maxPatchByFilterRows` before it that the filter still matches once they are patched. If one
has more, it is never patched, and the reply always says that rows remain. -/
theorem Reissues.patches (h : Reaches schemaTerms p) (hreads : p.shared.Reads p.shared.manifest.recordObjects log)
    (hkept : ∀ name ∈ p.shared.manifest.referenced, name ∉ p.shared.deleted) (hc : Coherent handle p.shared)
    {fp : FilterPatch} (hf : fp.filters.coerce p.shared.manifest.schema.attributes = .ok f)
    (hexact : (p.shared.found ⟨p.shared.manifest.schema, log⟩ f).Perm
      (Ledger.scan ⟨p.shared.manifest.schema, log⟩ f)) {attrs : Attrs}
    (hdeclared : ∀ id, p.shared.manifest.schema.absorbAttrs fp.patch id = .ok (p.shared.manifest.schema, attrs))
    {found : Finset Id} (hfound : found = (materialize log).matching f p.shared.manifest.schema.fts)
    {stays : Id → Bool} (hstays : stays = (materialize log).staysBy (fun d => some (patched attrs d)) f
      p.shared.manifest.schema.fts)
    (hr : Reissues t handle cut { patchByFilter := some fp } n p.shared s' more) :
    (∃ log', Carries ⟨p.shared.manifest.schema, log'⟩ s' ∧
      (more = false → ∀ id, (materialize log').get id =
        if id ∈ found then ((materialize log).get id).map (patched attrs) else (materialize log).get id) ∧
      ∀ x ∈ found, maxPatchByFilterRows ≤ staying stays found x →
        more = true ∧ (materialize log').get x = (materialize log).get x) ∧
    ((∀ x ∈ found, staying stays found x < maxPatchByFilterRows) → n ≤ found.card) ∧
    (fp.patch.entries ≠ [] → more = true → checkTail s'.manifest = .ok () → ∃ s'' resp,
      Runs t (write handle cut { patchByFilter := some fp }) s' s'' (.ok resp)) := by
  have hmeets := h.meets hreads hkept hc hexact
  have htreats := FilterWrite.treats_patch hdeclared
  obtain ⟨l', m, rfl, hschema, hw, -, hsome, hrounds, hmore, hget⟩ :=
    @Reissues.rounds _ _ _ (.patch fp) _ _ _ _ _ _ _ _ _ _ hmeets hf htreats _ hstays _ hfound hr
  refine ⟨⟨l'.log, hw.carries_as hschema, fun hdone id => ?_, fun x hx hmany => ?_⟩, fun hfew => ?_, ?_⟩
  · have hfits := Nat.not_lt.mp (of_decide_eq_false (hmore.symm.trans hdone))
    split_ifs with hid
    · rw [(hget id).1 (treated_all hfits hid)]
      cases (materialize log).get id with
      | none => rfl
      | some d => rfl
    · exact (hget id).2 fun ht => hid (mem_of_treated ht)
  · refine ⟨hmore.trans (decide_eq_true ?_), (hget x).2 (not_treated hmany _)⟩
    by_contra hfits
    exact not_treated hmany _ (treated_all (Nat.not_lt.mp hfits) hx)
  · have hcard := card_leftAfter_add_le hfew hrounds
    have hpos : 0 < (leftAfter maxPatchByFilterRows stays m found).card := Finset.card_pos.mpr hsome
    omega
  · rintro hpatch rfl hroom
    exact @Reissues.goes_on _ _ _ (.patch fp) _ _ _ _ _ _ _ _ _ hmeets hpatch hf htreats hr hroom

/-- Red documents become green. -/
def FilterPatch.green : FilterPatch := ⟨Filter.red, SortedMap.empty.insert "colour" (.string "green")⟩

omit [Crates] [HashOrder] [SerdeJson] in
/-- The red one is patched, once. -/
theorem colouredRun_patches :
    let _ := Crates.inert
    let _ := HashOrder.sorted
    let _ := SerdeJson.exact
    ∃ p log s', Reaches schemaTerms p ∧ Reissues 0 1 .whole { patchByFilter := some .green } 1 p.shared s' false ∧
      ∃ log', Carries ⟨p.shared.manifest.schema, log'⟩ s' ∧ ∀ id, (materialize log').get id =
        if id ∈ (materialize log).matching Filter.red p.shared.manifest.schema.fts then
          ((materialize log).get id).map (patched FilterPatch.green.patch)
        else (materialize log).get id := by
  intro _ _ _
  obtain ⟨p, log, s', hreaches, hreads, hdeleted, hwal, hcheck, hr⟩ := @Reissues.of_run _ _ _ 1 colouredRun
    { patchByFilter := some .green } (fun s => s.manifest.schema.attributes = SortedMap.empty.insert "colour" .string &&
      s.current.isSome) (by decide +kernel) (by decide +kernel)
  obtain ⟨hschema, hcurrent⟩ := (Bool.and_eq_true _ _).mp hcheck
  have hattributes := of_decide_eq_true hschema
  have hf : Filter.red.coerce p.shared.manifest.schema.attributes = .ok Filter.red := by
    rw [hattributes]
    rfl
  have hdeclared : ∀ id, p.shared.manifest.schema.absorbAttrs FilterPatch.green.patch id =
      .ok (p.shared.manifest.schema, FilterPatch.green.patch) := by
    intro id
    show (Schema.absorbEntries id p.shared.manifest.schema.attributes _).bind _ = _
    have hentries : Schema.absorbEntries id (SortedMap.empty.insert "colour" .string) FilterPatch.green.patch.entries =
        .ok (SortedMap.empty.insert "colour" .string, FilterPatch.green.patch.entries) := rfl
    rw [hattributes, hentries, ← hattributes]
    exact congrArg (fun attrs => Except.ok (p.shared.manifest.schema, attrs)) (SortedMap.ofList_entries _)
  obtain ⟨log', hcarries, hget, -⟩ := (Reissues.patches hreaches hreads (fun _ _ => hdeleted ▸ List.not_mem_nil)
    (fun hnone => by rw [hnone] at hcurrent; cases hcurrent) hf (by rw [Store.found_of_tail hwal]) hdeclared rfl rfl hr).1
  exact ⟨p, log, s', hreaches, hr, log', hcarries, hget rfl⟩

end Runs

end Fckdb
