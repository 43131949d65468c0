import Fckdb.GroupKeys
import Fckdb.Lib.Postings

/-! # Grouping

The aggregator keeps its groups in the order of their tuples, and feeds a document to the group that
compares equal to each of its tuples: what documents fed it is `stateOf`, unless an aggregation cannot read
one of them (`feedAll_eq_ok_iff`). -/

namespace Fckdb

variable {N : Type} [Numbers N]

/-! ## One aggregation -/

section Step

/-- The aggregation can read the document: what it adds up is a number. -/
def Agg.Readable (N : Type) [Numbers N] (agg : Agg) (attrs : Attrs) : Prop :=
  match agg with
  | .sum _ | .avg _ =>
    (agg.read attrs).getD .null = .null ∨ (numeric (N := N) ((agg.read attrs).getD .null)).isSome
  | _ => True

/-- What a document that can be read adds to a sum. -/
def Accumulator.addStep (acc : Accumulator N) (v : Value) : Accumulator N :=
  match numeric (N := N) v with
  | none => acc
  | some n => { acc with
      integral := acc.integral && v.isInteger
      sum := Numbers.add acc.sum n
      count := acc.count + 1
      seen := true }

/-- What a document that can be read contributes. -/
def Accumulator.step (acc : Accumulator N) (agg : Agg) (attrs : Attrs) : Accumulator N :=
  let value := (agg.read attrs).getD .null
  match agg with
  | .count none => { acc with count := acc.count + 1 }
  | .count (some _) => if value.isNull then acc else { acc with count := acc.count + 1 }
  | .sum _ | .avg _ => if value.isNull then acc else acc.addStep value
  | .min _ => if value.isNull then acc else
      { acc with min := better .lt acc.min value, count := acc.count + 1 }
  | .max _ => if value.isNull then acc else
      { acc with max := better .gt acc.max value, count := acc.count + 1 }

variable [Crates]

theorem addValue_eq (acc : Accumulator N) (name attr : String) (v : Value)
    (h : v = .null ∨ (numeric (N := N) v).isSome) :
    addValue acc name attr v = .ok (if v.isNull then acc else acc.addStep v) := by
  rw [addValue]
  cases hnull : v.isNull with
  | true => rfl
  | false =>
      have hsome := h.resolve_left fun hv => by rw [hv] at hnull; cases hnull
      obtain ⟨n, hn⟩ := Option.isSome_iff_exists.mp hsome
      simp [Accumulator.addStep, hn]

/-- **A document that can be read** is accumulated. -/
theorem accumulate_eq (acc : Accumulator N) {agg : Agg} {attrs : Attrs} (h : agg.Readable N attrs) :
    accumulate acc agg attrs = .ok (acc.step agg attrs) := by
  cases agg with
  | count attr => cases attr <;> rfl
  | sum attr => exact addValue_eq acc _ _ _ h
  | avg attr => exact addValue_eq acc _ _ _ h
  | min attr => rfl
  | max attr => rfl

/-- One that cannot be is refused, whatever was accumulated before. -/
theorem accumulate_error (acc : Accumulator N) {agg : Agg} {attrs : Attrs} (h : ¬ agg.Readable N attrs) :
    ∃ e, accumulate acc agg attrs = .error e := by
  have hadd : ∀ name attr v, ¬ (v = Value.null ∨ (numeric (N := N) v).isSome) →
      ∃ e, addValue acc name attr v = .error e := by
    intro name attr v hv
    obtain ⟨hne, hnone⟩ := not_or.mp hv
    have hnull : v.isNull = false := by
      cases hnull : v.isNull with
      | true => exact absurd (Value.eq_null_of_isNull hnull) hne
      | false => rfl
    rw [Option.not_isSome_iff_eq_none] at hnone
    exact ⟨_, by rw [addValue, hnull, hnone]; rfl⟩
  cases agg with
  | count attr => exact absurd trivial h
  | sum attr => exact hadd _ _ _ h
  | avg attr => exact hadd _ _ _ h
  | min attr => exact absurd trivial h
  | max attr => exact absurd trivial h

end Step

/-! ## The state of a group -/

/-- What some documents add up to. -/
def accumulated (N : Type) [Numbers N] (agg : Agg) (fed : List Attrs) : Accumulator N :=
  fed.foldl (fun acc attrs => acc.step agg attrs) .new

/-- The state of a group that was fed some documents. -/
def slotOf (N : Type) [Numbers N] (aggs : List (String × Agg)) (fed : List Attrs) : Slot N :=
  aggs.map fun e => (e.1, accumulated N e.2 fed)

theorem accumulated_concat (agg : Agg) (fed : List Attrs) (attrs : Attrs) :
    accumulated N agg (fed ++ [attrs]) = (accumulated N agg fed).step agg attrs := List.foldl_concat ..

section Slots

variable [Crates] {aggs : List (String × Agg)} {attrs : Attrs}

theorem accumulateAll_eq (h : ∀ e ∈ aggs, e.2.Readable N attrs) (fed : List Attrs) :
    Aggregator.accumulateAll attrs aggs (slotOf N aggs fed) = .ok (slotOf N aggs (fed ++ [attrs])) := by
  induction aggs with
  | nil => rfl
  | cons e aggs ih =>
      obtain ⟨label, agg⟩ := e
      have hfirst := accumulate_eq (accumulated N agg fed) (h _ List.mem_cons_self)
      have hrest := ih fun e he => h e (List.mem_cons_of_mem _ he)
      rw [slotOf, List.map_cons, Aggregator.accumulateAll, hfirst]
      rw [slotOf] at hrest
      show (Aggregator.accumulateAll attrs aggs (aggs.map fun e => (e.1, accumulated N e.2 fed)) >>= fun slot =>
        Except.ok ((label, (accumulated N agg fed).step agg attrs) :: slot)) = _
      rw [hrest, slotOf, slotOf, List.map_cons, accumulated_concat]
      rfl

theorem accumulateAll_error (h : ¬ ∀ e ∈ aggs, e.2.Readable N attrs) (fed : List Attrs) :
    ∃ err, Aggregator.accumulateAll attrs aggs (slotOf N aggs fed) = .error err := by
  induction aggs with
  | nil => exact absurd (fun _ he => absurd he List.not_mem_nil) h
  | cons e aggs ih =>
      obtain ⟨label, agg⟩ := e
      rw [slotOf, List.map_cons, Aggregator.accumulateAll]
      by_cases hfirst : agg.Readable N attrs
      · obtain ⟨err, herr⟩ := ih fun hrest => h (List.forall_mem_cons.mpr ⟨hfirst, hrest⟩)
        rw [slotOf] at herr
        exact ⟨err, by rw [accumulate_eq _ hfirst, herr]; rfl⟩
      · obtain ⟨err, herr⟩ := accumulate_error (accumulated N agg fed) hfirst
        exact ⟨err, by rw [herr]; rfl⟩

end Slots

/-! ## The groups -/

/-- A tuple joins the documents of its group, which goes by the first tuple it was fed. -/
def joinGroup (entry : Option (List Value × List Attrs)) (p : List Value × Attrs) : List Value × List Attrs :=
  match entry with
  | none => (p.1, [p.2])
  | some (tuple, fed) => (tuple, fed ++ [p.2])

section Groups

variable {κ : Type} [LinearOrder κ] (k : List Value → κ)

/-- The groups of what was fed, by the keys of their tuples. -/
def grouped (fed : List (List Value × Attrs)) : SortedMap κ (List Value × List Attrs) :=
  joinAll (fun p => k p.1) joinGroup .empty fed

/-- The group that entries stand for. -/
def groupOf (N : Type) [Numbers N] (aggs : List (String × Agg)) (e : κ × List Value × List Attrs) : Group N :=
  (e.2.1, slotOf N aggs e.2.2)

variable {k}

theorem foldl_joinGroup (tuple : List Value) (fed : List Attrs) (l : List (List Value × Attrs)) :
    l.foldl (fun entry p => some (joinGroup entry p)) (some (tuple, fed)) =
      some (tuple, fed ++ l.map (·.2)) := by
  induction l generalizing fed with
  | nil => rw [List.foldl_nil, List.map_nil, List.append_nil]
  | cons p l ih =>
      rw [List.foldl_cons, joinGroup, ih, List.map_cons, List.append_assoc, List.singleton_append]

/-- **A group** goes by a tuple it was fed, and has what was fed to tuples of its key. -/
theorem get_grouped {fed : List (List Value × Attrs)} {key : κ} {tuple : List Value} {docs : List Attrs}
    (h : (grouped k fed).get key = some (tuple, docs)) :
    k tuple = key ∧ (∃ p ∈ fed, p.1 = tuple) ∧ docs = (fed.filter (k ·.1 = key)).map (·.2) := by
  rw [grouped, get_joinAll] at h
  cases hfilter : fed.filter (k ·.1 = key) with
  | nil =>
      rw [hfilter] at h
      cases h
  | cons p l =>
      rw [hfilter] at h
      have hp : p ∈ fed.filter (k ·.1 = key) := hfilter ▸ List.mem_cons_self
      have hentry := (foldl_joinGroup p.1 [p.2] l).symm.trans h
      obtain ⟨rfl, rfl⟩ := Prod.mk.inj (Option.some.inj hentry)
      obtain ⟨hmem, hkey⟩ := List.mem_filter.mp hp
      exact ⟨of_decide_eq_true hkey, ⟨p, hmem, rfl⟩, rfl⟩

theorem isSome_get_grouped {fed : List (List Value × Attrs)} {key : κ} :
    ((grouped k fed).get key).isSome ↔ ∃ p ∈ fed, k p.1 = key := isSome_get_joinAll

/-! ## Feeding -/

section Update

variable [Crates] {tys : List Ty} {aggs : List (String × Agg)} {attrs : Attrs} {tuple : List Value}
  {l : List (κ × List Value × List Attrs)}

/-- **Updating the groups** is joining the group of the tuple's key. -/
theorem updateGroup_eq (hk : ∀ tuple tuple', List.Forall₂ NullOr tys tuple → List.Forall₂ NullOr tys tuple' →
      orderKeys tuple tuple' = cmp (k tuple) (k tuple'))
    (hl : ∀ e ∈ l, k e.2.1 = e.1 ∧ List.Forall₂ NullOr tys e.2.1) (hsorted : l.Pairwise fun a b => a.1 < b.1)
    (htuple : List.Forall₂ NullOr tys tuple) (h : ∀ e ∈ aggs, e.2.Readable N attrs) :
    updateGroup tuple (slotOf N aggs []) (Aggregator.accumulateAll attrs aggs) (l.map (groupOf N aggs)) =
      .ok ((SortedMap.insertIn (k tuple) (joinGroup (SortedMap.lookupIn (k tuple) l) (tuple, attrs)) l).map
        (groupOf N aggs)) := by
  induction l with
  | nil =>
      rw [List.map_nil, updateGroup, accumulateAll_eq h]
      rfl
  | cons e l ih =>
      obtain ⟨key, first, docs⟩ := e
      obtain ⟨hkey, htyped⟩ := hl _ List.mem_cons_self
      obtain ⟨habove, hrest⟩ := List.pairwise_cons.mp hsorted
      obtain rfl : k first = key := hkey
      rw [List.map_cons, groupOf, updateGroup, hk tuple first htuple htyped, SortedMap.insertIn,
        SortedMap.lookupIn]
      rcases lt_trichotomy (k tuple) (k first) with hlt | heq | hgt
      · have hnone : SortedMap.lookupIn (k tuple) l = none :=
          SortedMap.lookupIn_eq_none_of_lt fun e he => hlt.trans (habove e he)
        rw [(cmp_eq_lt_iff _ _).mpr hlt, if_pos hlt, if_neg hlt.ne', hnone]
        simp only [accumulateAll_eq h]
        rfl
      · rw [(cmp_eq_eq_iff _ _).mpr heq, if_neg heq.not_lt, if_pos heq, if_pos heq.symm]
        simp only [accumulateAll_eq h]
        rfl
      · rw [(cmp_eq_gt_iff _ _).mpr hgt, if_neg hgt.not_gt, if_neg hgt.ne', if_neg hgt.ne]
        simp only [ih (fun e he => hl e (List.mem_cons_of_mem _ he)) hrest]
        rfl

omit [LinearOrder κ] in
theorem updateGroup_error (h : ¬ ∀ e ∈ aggs, e.2.Readable N attrs) :
    ∃ err, updateGroup tuple (slotOf N aggs []) (Aggregator.accumulateAll attrs aggs)
      (l.map (groupOf N aggs)) = .error err := by
  induction l with
  | nil =>
      obtain ⟨err, herr⟩ := accumulateAll_error h []
      exact ⟨err, by rw [List.map_nil, updateGroup, herr]; rfl⟩
  | cons e l ih =>
      rw [List.map_cons, groupOf, updateGroup]
      cases orderKeys tuple e.2.1 with
      | lt =>
          obtain ⟨err, herr⟩ := accumulateAll_error h []
          exact ⟨err, by simp only [herr]; rfl⟩
      | eq =>
          obtain ⟨err, herr⟩ := accumulateAll_error h e.2.2
          exact ⟨err, by simp only [herr]; rfl⟩
      | gt =>
          obtain ⟨err, herr⟩ := ih
          exact ⟨err, by simp only [herr]; rfl⟩

end Update

/-- What documents feed to the groups: each of their tuples. -/
def fedBy (groupBy : List GroupKey) (docs : List Doc) : List (List Value × Attrs) :=
  docs.flatMap fun d => (expandKeys groupBy d.attrs).map (·, d.attrs)

/-- The aggregator after some tuples were fed. -/
def stateOf (N : Type) [Numbers N] (k : List Value → κ) (aggs : SortedMap String Agg) (groupBy : List GroupKey)
    (fed : List (List Value × Attrs)) : Aggregator N :=
  ⟨aggs, groupBy, (grouped k fed).entries.map (groupOf N aggs.entries)⟩

section Feeding

variable [Crates] {tys : List Ty} {aggs : SortedMap String Agg} {groupBy : List GroupKey}
  {fed : List (List Value × Attrs)} {attrs : Attrs}

/-- `k` is a key of the order of tuples of these types. -/
def TupleKey (k : List Value → κ) (tys : List Ty) : Prop :=
  ∀ tuple tuple', List.Forall₂ NullOr tys tuple → List.Forall₂ NullOr tys tuple' →
    orderKeys tuple tuple' = cmp (k tuple) (k tuple')

theorem feedKey_eq (hk : TupleKey k tys) (hfed : ∀ p ∈ fed, List.Forall₂ NullOr tys p.1)
    {tuple : List Value} (htuple : List.Forall₂ NullOr tys tuple)
    (h : ∀ e ∈ aggs.entries, e.2.Readable N attrs) :
    (stateOf N k aggs groupBy fed).feedKey attrs tuple =
      .ok (stateOf N k aggs groupBy (fed ++ [(tuple, attrs)])) := by
  have hentries : ∀ e ∈ (grouped k fed).entries, k e.2.1 = e.1 ∧ List.Forall₂ NullOr tys e.2.1 := by
    intro e he
    obtain ⟨hkey, ⟨p, hp, hfirst⟩, -⟩ := get_grouped (SortedMap.get_eq_some_iff.mpr he)
    exact ⟨hkey, hfirst ▸ hfed p hp⟩
  have hupdate := updateGroup_eq hk hentries (grouped k fed).sorted htuple h
  have hnext : grouped k (fed ++ [(tuple, attrs)]) = (grouped k fed).insert (k tuple)
      (joinGroup ((grouped k fed).get (k tuple)) (tuple, attrs)) := List.foldl_concat ..
  have hfresh : (stateOf N k aggs groupBy fed).fresh = slotOf N aggs.entries [] := rfl
  rw [Aggregator.feedKey, hfresh]
  rw [stateOf, hupdate, stateOf, hnext]
  rfl

theorem feedKey_error (h : ¬ ∀ e ∈ aggs.entries, e.2.Readable N attrs) (tuple : List Value) :
    ∃ err, (stateOf N k aggs groupBy fed).feedKey attrs tuple = .error err := by
  obtain ⟨err, herr⟩ := updateGroup_error (l := (grouped k fed).entries) h
  exact ⟨err, by rw [Aggregator.feedKey]; exact congrArg (· >>= _) herr⟩

/-- **Feeding a document.** -/
theorem feed_eq (hk : TupleKey k tys) (hfed : ∀ p ∈ fed, List.Forall₂ NullOr tys p.1) {d : Doc}
    (htuples : ∀ tuple ∈ expandKeys groupBy d.attrs, List.Forall₂ NullOr tys tuple)
    (h : ∀ e ∈ aggs.entries, e.2.Readable N d.attrs) :
    (stateOf N k aggs groupBy fed).feed d = .ok (stateOf N k aggs groupBy (fed ++ fedBy groupBy [d])) := by
  have hall : ∀ tuples : List (List Value), (∀ tuple ∈ tuples, List.Forall₂ NullOr tys tuple) →
      ∀ fed : List (List Value × Attrs), (∀ p ∈ fed, List.Forall₂ NullOr tys p.1) →
        tuples.foldlM (fun a key => a.feedKey d.attrs key) (stateOf N k aggs groupBy fed) =
          .ok (stateOf N k aggs groupBy (fed ++ tuples.map (·, d.attrs))) := by
    intro tuples
    induction tuples with
    | nil => exact fun _ fed _ => by rw [List.map_nil, List.append_nil]; rfl
    | cons tuple tuples ih =>
        intro htyped fed hfed
        have htuple := htyped tuple List.mem_cons_self
        rw [List.foldlM_cons, feedKey_eq hk hfed htuple h]
        refine (ih (fun t ht => htyped t (List.mem_cons_of_mem _ ht)) _ ?_).trans ?_
        · intro p hp
          rcases List.mem_append.mp hp with hp | hp
          · exact hfed p hp
          · rwa [List.mem_singleton.mp hp]
        · rw [List.append_assoc, List.map_cons, List.singleton_append]
  rw [fedBy, List.flatMap_singleton]
  exact hall _ htuples fed hfed

/-- **Feeding documents**: all of them are read, or one is refused. -/
theorem feedAll_eq_ok_iff (hk : TupleKey k tys) {docs : List Doc}
    (htuples : ∀ d ∈ docs, ∀ tuple ∈ expandKeys groupBy d.attrs, List.Forall₂ NullOr tys tuple)
    (hsome : ∀ d ∈ docs, expandKeys groupBy d.attrs ≠ [])
    (hfed : ∀ p ∈ fed, List.Forall₂ NullOr tys p.1) {a : Aggregator N} :
    (stateOf N k aggs groupBy fed).feedAll docs = .ok a ↔
      (∀ d ∈ docs, ∀ e ∈ aggs.entries, e.2.Readable N d.attrs) ∧
        a = stateOf N k aggs groupBy (fed ++ fedBy groupBy docs) := by
  induction docs generalizing fed with
  | nil =>
      rw [fedBy, List.flatMap_nil, List.append_nil]
      exact ⟨fun h => ⟨fun _ hd => absurd hd List.not_mem_nil, (Except.ok.inj h).symm⟩, fun h => by rw [h.2]; rfl⟩
  | cons d docs ih =>
      have hd := htuples d List.mem_cons_self
      rw [Aggregator.feedAll, List.foldlM_cons, List.forall_mem_cons]
      by_cases hread : ∀ e ∈ aggs.entries, e.2.Readable N d.attrs
      · have hfed' : ∀ p ∈ fed ++ fedBy groupBy [d], List.Forall₂ NullOr tys p.1 := by
          intro p hp
          rcases List.mem_append.mp hp with hp | hp
          · exact hfed p hp
          · rw [fedBy, List.flatMap_singleton] at hp
            obtain ⟨tuple, htuple, rfl⟩ := List.mem_map.mp hp
            exact hd tuple htuple
        have hrest := ih (fun d hd => htuples d (List.mem_cons_of_mem _ hd))
          (fun d hd => hsome d (List.mem_cons_of_mem _ hd)) hfed'
        have happend : fed ++ fedBy groupBy [d] ++ fedBy groupBy docs = fed ++ fedBy groupBy (d :: docs) := by
          rw [List.append_assoc, fedBy, fedBy, fedBy, ← List.flatMap_append, List.singleton_append]
        rw [feed_eq hk hfed hd hread]
        refine hrest.trans ?_
        rw [happend]
        exact ⟨fun h => ⟨⟨hread, h.1⟩, h.2⟩, fun h => ⟨h.1.2, h.2⟩⟩
      · refine iff_of_false (fun h => ?_) fun h => hread h.1.1
        obtain ⟨tuple, tuples, hcons⟩ := List.exists_cons_of_ne_nil (hsome d List.mem_cons_self)
        obtain ⟨err, herr⟩ := @feedKey_error N _ κ _ k _ aggs groupBy fed _ hread tuple
        have hfail : (stateOf N k aggs groupBy fed).feed d = .error err := by
          have hkeys : expandKeys (stateOf N k aggs groupBy fed).groupBy d.attrs = tuple :: tuples := hcons
          rw [Aggregator.feed, hkeys, List.foldlM_cons, herr]
          rfl
        rw [hfail] at h
        cases h

end Feeding

end Groups

end Fckdb
