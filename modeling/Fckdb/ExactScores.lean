import Fckdb.Compact
import Fckdb.Scoring

/-! # The two scorers agree

In exact arithmetic, what an index adds up for a document from its inverted lists is what the document's
own vector or text scores: `SparseIndex.mem_score` and `FtsIndex.mem_score`. -/

namespace Fckdb

/-! ## Positions -/

section Positions

variable {α β : Type}

/-- What `h` finds in the elements of a list, with their positions. -/
def positioned (h : α → Option β) (l : List α) : List (Nat × β) :=
  l.zipIdx.filterMap fun p => (h p.1).map (p.2, ·)

theorem filter_positioned_from (h : α → Option β) (l : List α) (start o : Nat) :
    ((l.zipIdx start).filterMap fun p => (h p.1).map (p.2, ·)).filter (·.1 = start + o) =
      (((l[o]?).bind h).map (start + o, ·)).toList := by
  induction l generalizing start o with
  | nil => rfl
  | cons a l ih =>
      have hrest (o : Nat) : ((l.zipIdx (start + 1)).filterMap
          fun p => (h p.1).map (p.2, ·)).filter (·.1 = start + 1 + o) =
            (((l[o]?).bind h).map (start + 1 + o, ·)).toList := ih (start + 1) o
      have habove : ((l.zipIdx (start + 1)).filterMap
          fun p => (h p.1).map (p.2, ·)).filter (·.1 = start) = [] := by
        refine List.filter_eq_nil_iff.mpr fun q hq => ?_
        obtain ⟨p, hp, hpq⟩ := List.mem_filterMap.mp hq
        obtain ⟨b, -, rfl⟩ := Option.map_eq_some_iff.mp hpq
        have hle := List.le_snd_of_mem_zipIdx hp
        simpa using Nat.ne_of_gt hle
      rw [List.zipIdx_cons]
      cases o with
      | zero =>
          rw [Nat.add_zero]
          cases ha : h a with
          | none => simp [ha, habove]
          | some b => simp [ha, habove]
      | succ o =>
          have hshift : start + (o + 1) = start + 1 + o := by omega
          rw [hshift, List.getElem?_cons_succ, ← hrest o]
          cases ha : h a with
          | none => simp [ha]
          | some b => simp [ha, Nat.ne_of_lt (show start < start + 1 + o by omega)]

/-- **At one position** a list has what is found in the element there. -/
theorem filter_positioned (h : α → Option β) (l : List α) (o : Nat) :
    (positioned h l).filter (·.1 = o) = (((l[o]?).bind h).map (o, ·)).toList := by
  simpa [positioned] using filter_positioned_from h l 0 o

theorem share_positioned {M : Type} [AddCommMonoid M] (h : α → Option β) (f : β → M) (l : List α) (o : Nat) :
    share ((positioned h l).map fun p => (p.1, f p.2)) o = (((l[o]?).bind h).map f).getD 0 := by
  have hfilter : ((positioned h l).map fun p => (p.1, f p.2)).filter (·.1 = o) =
      ((positioned h l).filter (·.1 = o)).map fun p => (p.1, f p.2) := by
    rw [List.filter_map]
    rfl
  rw [share, hfilter, filter_positioned]
  cases (l[o]?).bind h <;> simp

end Positions

/-! ## Exact numbers -/

theorem F32.magnitude_of_isZero {w : F32} (h : w.isZero = true) : w.magnitude = 0 := by
  have hmod : w.bits.toNat % 2 ^ 31 = 0 := of_decide_eq_true h
  have hexponent : w.bits.toNat / 2 ^ 23 % 2 ^ 8 = 0 := by omega
  have hfraction : w.bits.toNat % 2 ^ 23 = 0 := by omega
  rw [F32.magnitude, if_pos hexponent, hfraction, Nat.cast_zero, mul_zero, zero_mul]

theorem scalarSum_eq (xs : List ℝ) : scalarSum xs = xs.sum := by
  rw [List.sum_eq_foldl]
  rfl

/-- What the ranked ordinals are: the totals that pass the test. -/
theorem mem_rankOrdinals {S : Type} [Score S] {l : List (Nat × S)} {p : Nat × S} :
    p ∈ rankOrdinals l ↔ p ∈ l := (List.perm_insertionSort _ _).mem_iff

theorem nodup_rankOrdinals {S : Type} [Score S] {m : SortedMap Nat S} (keep : Nat × S → Bool) :
    ((rankOrdinals (m.entries.filter keep)).map (·.1)).Nodup := by
  refine (((List.perm_insertionSort _ _).map _).nodup_iff).mpr ?_
  refine List.Nodup.sublist (List.filter_sublist.map _) ?_
  exact (List.pairwise_map.mpr m.sorted).imp ne_of_lt

/-- The accumulated totals that are kept. -/
theorem mem_totals {l : List (Nat × ℝ)} {keep : ℝ → Prop} [DecidablePred keep] (hzero : ¬ keep 0)
    {o : Nat} {x : ℝ} :
    (o, x) ∈ rankOrdinals ((addUp Scalar.add Scalar.zero .empty l).entries.filter
      fun p => decide (keep p.2)) ↔ x = share l o ∧ keep x := by
  have htotal : ((addUp Scalar.add Scalar.zero .empty l).get o).getD 0 = share l o := by
    refine (getD_addUp .empty l o).trans ?_
    exact zero_add _
  rw [mem_rankOrdinals, List.mem_filter, ← SortedMap.get_eq_some_iff, decide_eq_true_iff]
  constructor
  · rintro ⟨hget, hkeep⟩
    rw [hget] at htotal
    exact ⟨htotal, hkeep⟩
  · rintro ⟨rfl, hkeep⟩
    refine ⟨?_, hkeep⟩
    cases hget : (addUp Scalar.add Scalar.zero .empty l).get o with
    | none =>
        rw [← htotal, hget] at hkeep
        exact absurd hkeep hzero
    | some y =>
        rw [hget] at htotal
        exact congrArg some htotal

/-! ## Sparse vectors -/

section Sparse

/-- The entries of one vector that are filed, under their dimensions. -/
def weightsOf (d : Nat × SortedMap String F32) : List (String × Nat × F32) :=
  (d.2.entries.filter fun e => !F32.feq e.2 ⟨0⟩).map fun e => (e.1, d.1, e.2)

theorem addWeights_eq (postings : SortedMap String (List (Nat × F32))) (ordinal : Nat)
    (vector : SortedMap String F32) :
    addWeights postings ordinal vector = fileAll postings (weightsOf (ordinal, vector)) := by
  rw [addWeights, weightsOf, fileAll]
  generalize vector.entries = es
  induction es generalizing postings with
  | nil => rfl
  | cons e es ih =>
      rw [List.foldl_cons]
      cases hzero : F32.feq e.2 ⟨0⟩ with
      | true =>
          rw [if_pos rfl, List.filter_cons_of_neg (by simp [hzero])]
          exact ih postings
      | false =>
          rw [if_neg (by decide), List.filter_cons_of_pos (by simp [hzero])]
          exact ih _

namespace SparseIndex

theorem build_dims (docs : List (Nat × SortedMap String F32)) (docCount : Nat) :
    (build docs docCount).dims = ((fileAll .empty (docs.flatMap weightsOf)).mapValues
      fun _ l => l.insertionSort fun a b => a.1 ≤ b.1).entries := by
  have hfold (m : SortedMap String (List (Nat × F32))) :
      docs.foldl (fun postings d => addWeights postings d.1 d.2) m =
        fileAll m (docs.flatMap weightsOf) := by
    induction docs generalizing m with
    | nil => rfl
    | cons d docs ih => rw [List.foldl_cons, ih, List.flatMap_cons, fileAll_append, addWeights_eq]
  rw [build, hfold]
  rfl

/-- **The inverted list of a dimension**, up to its order. -/
theorem postings_perm (docs : List (Nat × SortedMap String F32)) (docCount : Nat) (dim : String) :
    (((build docs docCount).postings dim).getD []).Perm
      (((docs.flatMap weightsOf).filter (·.1 = dim)).map (·.2)) := by
  have hfile := get_fileAll .empty (docs.flatMap weightsOf) dim
  rw [SortedMap.get_empty, Option.getD_none, List.nil_append] at hfile
  rw [postings, build_dims, searchKey_eq _ (SortedMap.sorted _), ← hfile]
  have hget := SortedMap.get_mapValues (fun _ (l : List (Nat × F32)) =>
    l.insertionSort fun a b => a.1 ≤ b.1) (fileAll .empty (docs.flatMap weightsOf)) dim
  rw [SortedMap.get] at hget
  rw [hget]
  cases (fileAll .empty (docs.flatMap weightsOf)).get dim with
  | none => exact List.Perm.refl _
  | some l => exact List.perm_insertionSort _ _

end SparseIndex

/-- The weight of a dimension; zero where there is none. -/
noncomputable def weightAt (v : SortedMap String F32) (dim : String) : ℝ :=
  ((v.get dim).map F32.magnitude).getD 0

theorem share_weightsOf (d : Nat × SortedMap String F32) (dim : String) (o : Nat) :
    share ((((weightsOf d).filter (·.1 = dim)).map (·.2)).map fun p => (p.1, F32.magnitude p.2)) o =
      if d.1 = o then weightAt d.2 dim else 0 := by
  -- the vector has at most one entry of the dimension, dropped when it is zero
  have hlist : (((weightsOf d).filter (·.1 = dim)).map (·.2)).map (fun p => (p.1, F32.magnitude p.2)) =
      ((((d.2.get dim).map (dim, ·)).toList.filter fun e => !F32.feq e.2 ⟨0⟩).map
        fun e => (d.1, F32.magnitude e.2)) := by
    rw [← SortedMap.filter_entries, List.filter_filter, weightsOf, List.filter_map, List.map_map,
      List.map_map, List.filter_filter]
    simp only [Function.comp_def, Bool.and_comm]
  rw [hlist, weightAt]
  cases d.2.get dim with
  | none => simp
  | some w =>
      cases hzero : F32.feq w ⟨0⟩ with
      | true => simp [hzero, F32.magnitude_of_isZero (F32.isZero_of_feq hzero)]
      | false => simp [hzero, share_cons]

/-- The sparse vector of a document. -/
def vectorOf (attr : String) (d : Doc) : Option (SortedMap String F32) :=
  match d.attrs.get attr with
  | some (.sparse v) => some v
  | _ => none

theorem attributeVectors_eq {docs : List Doc} (hlen : docs.length ≤ 2 ^ 32) (attr : String) :
    attributeVectors docs attr = positioned (vectorOf attr) docs := by
  refine List.filterMap_congr fun p hp => ?_
  have hlt : p.2 < 2 ^ 32 := Nat.lt_of_lt_of_le (List.snd_lt_of_mem_zipIdx hp) (by simpa using hlen)
  rw [asU32_of_lt hlt, vectorOf]
  cases p.1.attrs.get attr with
  | none => rfl
  | some v => cases v <;> rfl

/-- The dot product, over the dimensions of the second vector. -/
noncomputable def pairing (v query : SortedMap String F32) : ℝ :=
  (query.entries.map fun e => F32.magnitude e.2 * weightAt v e.1).sum

/-- **What the index owes a document**: the dot product of its vector with the query. -/
theorem share_contributions {docs : List Doc} (hlen : docs.length ≤ 2 ^ 32) (attr : String)
    (docCount : Nat) (query : SortedMap String F32) (o : Nat) :
    share ((SparseIndex.build (attributeVectors docs attr) docCount).contributions query) o =
      (((docs[o]?).bind (vectorOf attr)).map fun v => pairing v query).getD 0 := by
  -- one dimension of the query
  have hdim (e : String × F32) : share ((((SparseIndex.build (attributeVectors docs attr)
      docCount).postings e.1).getD []).map fun p => (p.1, (Scalar.mul (Score.ofF32 e.2)
        (Score.ofF32 p.2) : ℝ))) o =
      F32.magnitude e.2 * (((docs[o]?).bind (vectorOf attr)).map fun v => weightAt v e.1).getD 0 := by
    rw [share_perm ((SparseIndex.postings_perm _ docCount e.1).map _)]
    have hscale (l : List (Nat × F32)) : share (l.map fun p => (p.1, (Scalar.mul (Score.ofF32 e.2)
        (Score.ofF32 p.2) : ℝ))) o =
        F32.magnitude e.2 * share (l.map fun p => (p.1, F32.magnitude p.2)) o := by
      induction l with
      | nil => simp
      | cons p l ih =>
          rw [List.map_cons, List.map_cons, share_cons, share_cons, ih, mul_add, mul_ite, mul_zero]
          rfl
    rw [hscale]
    congr 1
    rw [List.filter_flatMap, List.map_flatMap, List.map_flatMap, share_flatMap]
    simp only [share_weightsOf]
    rw [attributeVectors_eq hlen, ← share_positioned]
    generalize positioned (vectorOf attr) docs = l
    induction l with
    | nil => rfl
    | cons d l ih => rw [List.map_cons, List.map_cons, List.sum_cons, ih, share_cons]
  rw [SparseIndex.contributions, share_flatMap]
  simp only [hdim]
  cases (docs[o]?).bind (vectorOf attr) with
  | none => simp
  | some v =>
      rw [Option.map_some, Option.getD_some, pairing]
      generalize query.entries = es
      induction es with
      | nil => rfl
      | cons e es ih =>
          rw [List.map_cons, List.sum_cons, ← ih]
          cases hzero : F32.feq e.2 ⟨0⟩ with
          | true =>
              rw [List.filter_cons_of_neg (by simp [hzero]),
                F32.magnitude_of_isZero (F32.isZero_of_feq hzero), zero_mul, zero_add]
          | false =>
              rw [List.filter_cons_of_pos (by simp [hzero]), List.map_cons, List.sum_cons]
              rfl

theorem weightAt_eq (v : SortedMap String F32) (dim : String) :
    weightAt v dim = (v.entries.map fun e => if e.1 = dim then F32.magnitude e.2 else 0).sum := by
  have hshare : weightAt v dim = share (v.entries.map fun e => (e.1, F32.magnitude e.2)) dim := by
    have hfilter : (v.entries.map fun e => (e.1, F32.magnitude e.2)).filter (·.1 = dim) =
        (v.entries.filter (·.1 = dim)).map fun e => (e.1, F32.magnitude e.2) := by
      rw [List.filter_map]
      rfl
    rw [share, hfilter, SortedMap.filter_entries, weightAt]
    cases v.get dim <;> simp
  rw [hshare]
  generalize v.entries = es
  induction es with
  | nil => rfl
  | cons e es ih => rw [List.map_cons, List.map_cons, share_cons, List.sum_cons, ih]

/-- A product over shared dimensions may go through either vector. -/
theorem pairing_comm (a b : SortedMap String F32) : pairing a b = pairing b a := by
  have hpair (a b : SortedMap String F32) : pairing a b = (b.entries.map fun e =>
      (a.entries.map fun e' => if e'.1 = e.1 then F32.magnitude e.2 * F32.magnitude e'.2 else 0).sum).sum := by
    rw [pairing]
    congr 1
    refine List.map_congr_left fun e _ => ?_
    rw [weightAt_eq, ← List.sum_map_mul_left]
    simp only [mul_ite, mul_zero]
  rw [hpair a b, hpair b a]
  have hswap := Multiset.sum_map_sum_map (b.entries : Multiset (String × F32))
    (a.entries : Multiset (String × F32))
    (f := fun e e' => if e'.1 = e.1 then F32.magnitude e.2 * F32.magnitude e'.2 else 0)
  simp only [Multiset.map_coe, Multiset.sum_coe] at hswap
  rw [hswap]
  simp only [eq_comm, mul_comm]

/-- **`dot` is the dot product**, whichever vector it goes through. -/
theorem sparseDot_eq (a b : SortedMap String F32) : (sparseDot a b : ℝ) = pairing a b := by
  have hover (short long : SortedMap String F32) : scalarSum (short.entries.filterMap fun e =>
      (long.get e.1).map fun o => (Scalar.mul (Score.ofF32 e.2) (Score.ofF32 o) : ℝ)) =
      pairing long short := by
    rw [scalarSum_eq, pairing]
    generalize short.entries = es
    induction es with
    | nil => rfl
    | cons e es ih =>
        rw [List.map_cons, List.sum_cons, ← ih, weightAt]
        cases hget : long.get e.1 with
        | none => rw [List.filterMap_cons_none (by simp [hget])]; simp
        | some w => rw [List.filterMap_cons_some (by rw [hget]; rfl), List.sum_cons]; rfl
  rw [sparseDot]
  split_ifs with hsize
  · exact (hover a b).trans (pairing_comm b a)
  · exact hover b a

namespace SparseIndex

/-- **The index agrees with the documents**: it scores a position exactly when the document there has a
score, and that one. -/
theorem mem_score {docs : List Doc} (hlen : docs.length ≤ 2 ^ 32) (attr : String) (docCount : Nat)
    (query : SortedMap String F32) (o : Nat) (x : ℝ) :
    (o, x) ∈ (build (attributeVectors docs attr) docCount).score query ↔
      ∃ d, docs[o]? = some d ∧ sparseScore attr query d = some x := by
  have hkeep (p : Nat × ℝ) : (!Scalar.isZero p.2) = decide (¬ p.2 = 0) := (decide_not).symm
  rw [score]
  simp only [hkeep]
  rw [@mem_totals _ (fun x => ¬ x = 0) _ (not_not.mpr rfl), share_contributions hlen]
  cases hd : docs[o]? with
  | none => simp
  | some d =>
      have hscore : (sparseScore attr query d : Option ℝ) =
          (vectorOf attr d).bind fun v => if pairing v query = 0 then none else some (pairing v query) := by
        rw [sparseScore, vectorOf]
        cases d.attrs.get attr with
        | none => rfl
        | some w =>
            cases w with
            | sparse v =>
                dsimp only
                rw [sparseDot_eq, Option.bind_some]
                by_cases hzero : pairing v query = 0
                · rw [if_pos hzero, if_pos]
                  exact decide_eq_true hzero
                · rw [if_neg hzero, if_neg]
                  exact fun h => hzero (of_decide_eq_true h)
            | _ => rfl
      simp only [Option.some.injEq, exists_eq_left', hscore, Option.bind_some]
      cases vectorOf attr d with
      | none => simp
      | some v =>
          by_cases hzero : pairing v query = 0
          · simp [hzero]
          · simp only [Option.map_some, Option.getD_some, Option.bind_some, if_neg hzero, Option.some.injEq]
            exact ⟨fun h => h.1.symm, fun h => ⟨h.symm, h ▸ hzero⟩⟩

theorem nodup_score (x : SparseIndex) (query : SortedMap String F32) :
    (x.score query : List (Nat × ℝ)).Nodup := (nodup_rankOrdinals _).of_map

end SparseIndex

end Sparse

/-! ## Full text -/

section FullText

variable [Crates]

/-- The postings of one text, under their terms. -/
def occurrencesOf (t : Tokenizer) (d : Nat × String) : List (String × Posting) :=
  (t.tokenize d.2).dedup.map fun token => (token, ⟨d.1, positionsOf (t.tokenize d.2) token⟩)

omit [Crates] in
theorem length_positionsOf (tokens : List String) (token : String) :
    (positionsOf tokens token).length = tokens.count token := by
  have hfrom (start : Nat) :
      ((tokens.zipIdx start).filter fun p => p.1 = token).length = tokens.count token := by
    induction tokens generalizing start with
    | nil => rfl
    | cons t tokens ih =>
        rw [List.zipIdx_cons, List.count_cons]
        by_cases h : t = token
        · rw [List.filter_cons_of_pos (by simpa using h), List.length_cons, ih, if_pos (by simpa using h)]
        · rw [List.filter_cons_of_neg (by simpa using h), ih, if_neg (by simpa using h), Nat.add_zero]
  rw [positionsOf, List.length_map, hfrom]

/-- A text has one posting under each of its terms. -/
theorem filter_occurrencesOf (t : Tokenizer) (d : Nat × String) (token : String) :
    ((occurrencesOf t d).filter (·.1 = token)).map (·.2) =
      if token ∈ t.tokenize d.2 then [⟨d.1, positionsOf (t.tokenize d.2) token⟩] else [] := by
  have hfilter : (t.tokenize d.2).dedup.filter (· = token) =
      if token ∈ t.tokenize d.2 then [token] else [] := by
    rw [List.filter_eq, List.count_dedup]
    split_ifs <;> rfl
  rw [occurrencesOf, List.filter_map, List.map_map]
  have hcomp : (fun p : String × Posting => decide (p.1 = token)) ∘
      (fun token => (token, (⟨d.1, positionsOf (t.tokenize d.2) token⟩ : Posting))) =
        fun x => decide (x = token) := rfl
  rw [hcomp, hfilter]
  split_ifs <;> rfl

/-- The text of a document under an attribute. -/
def textOf (attr : String) (d : Doc) : Option String := (d.attrs.get attr).bind attributeText

omit [Crates] in
theorem attributeTexts_eq {docs : List Doc} (hlen : docs.length ≤ 2 ^ 32) (attr : String) :
    attributeTexts docs attr = positioned (textOf attr) docs := by
  refine List.filterMap_congr fun p hp => ?_
  have hlt : p.2 < 2 ^ 32 := Nat.lt_of_lt_of_le (List.snd_lt_of_mem_zipIdx hp) (by simpa using hlen)
  rw [asU32_of_lt hlt]
  rfl

omit [Crates] in
/-- A list after assignments at positions. -/
theorem getElem?_foldl_set {α β : Type} (f : α → β) (L : List (Nat × α)) (l : List β) (o : Nat) :
    (L.foldl (fun acc d => acc.set d.1 (f d.2)) l)[o]? =
      (L.filter (·.1 = o)).foldl (fun x d => x.map fun _ => f d.2) l[o]? := by
  induction L generalizing l with
  | nil => rfl
  | cons d L ih =>
      rw [List.foldl_cons, ih]
      by_cases h : d.1 = o
      · rw [List.filter_cons_of_pos (by simpa using h), List.foldl_cons, h, List.getElem?_set_self']
        rfl
      · rw [List.filter_cons_of_neg (by simpa using h), List.getElem?_set_ne h]

namespace FtsIndex

variable (docs : List Doc) (attr : String) (total : Nat) (config : FtsConfig)

theorem build_terms (texts : List (Nat × String)) :
    (build texts total config).terms = ((fileAll .empty (texts.flatMap (occurrencesOf
      config.tokenizer))).mapValues fun _ l => l.insertionSort fun a b => a.ordinal ≤ b.ordinal).entries := by
  have hadd (P : SortedMap String (List Posting)) (d : Nat × String) :
      addPostings P d.1 (config.tokenizer.tokenize d.2) =
        fileAll P (occurrencesOf config.tokenizer d) := by
    rw [addPostings, occurrencesOf, fileAll, List.foldl_map]
  have hfold (m : SortedMap String (List Posting)) :
      texts.foldl (fun acc d => addPostings acc d.1 (config.tokenizer.tokenize d.2)) m =
        fileAll m (texts.flatMap (occurrencesOf config.tokenizer)) := by
    induction texts generalizing m with
    | nil => rfl
    | cons d texts ih => rw [List.foldl_cons, ih, List.flatMap_cons, fileAll_append, hadd]
  rw [build, hfold]
  rfl

/-- **The inverted list of a term**, up to its order. -/
theorem postings_perm (texts : List (Nat × String)) (term : String) :
    (((build texts total config).postings term).getD []).Perm
      (((texts.flatMap (occurrencesOf config.tokenizer)).filter (·.1 = term)).map (·.2)) := by
  have hfile := get_fileAll .empty (texts.flatMap (occurrencesOf config.tokenizer)) term
  rw [SortedMap.get_empty, Option.getD_none, List.nil_append] at hfile
  rw [postings, build_terms, searchKey_eq _ (SortedMap.sorted _), ← hfile]
  have hget := SortedMap.get_mapValues (fun _ (l : List Posting) =>
    l.insertionSort fun a b => a.ordinal ≤ b.ordinal)
    (fileAll .empty (texts.flatMap (occurrencesOf config.tokenizer))) term
  rw [SortedMap.get] at hget
  rw [hget]
  cases (fileAll .empty (texts.flatMap (occurrencesOf config.tokenizer))).get term with
  | none => exact List.Perm.refl _
  | some l => exact List.perm_insertionSort _ _

variable {docs attr}

/-- What the postings of a term contribute to a document. -/
theorem share_postings (hlen : docs.length ≤ 2 ^ 32) (term : String) (F : Posting → ℝ) (o : Nat) :
    share ((((build (attributeTexts docs attr) total config).postings term).getD []).map
      fun p => (p.ordinal, F p)) o =
      (((docs[o]?).bind (textOf attr)).map fun t => if term ∈ config.tokenizer.tokenize t then
        F ⟨o, positionsOf (config.tokenizer.tokenize t) term⟩ else 0).getD 0 := by
  rw [share_perm ((postings_perm total config _ term).map _), List.filter_flatMap, List.map_flatMap,
    List.map_flatMap, share_flatMap, attributeTexts_eq hlen, ← share_positioned]
  simp only [filter_occurrencesOf]
  generalize positioned (textOf attr) docs = l
  induction l with
  | nil => rfl
  | cons d l ih =>
      rw [List.map_cons, List.map_cons, List.sum_cons, ih, share_cons]
      congr 1
      by_cases hterm : term ∈ config.tokenizer.tokenize d.2
      · rw [if_pos hterm, if_pos hterm, List.map_singleton, share_cons, share_nil, add_zero]
        split_ifs with ho
        · rw [ho]
        · rfl
      · rw [if_neg hterm, if_neg hterm, List.map_nil, share_nil, ite_self]

theorem length_docLengths (texts : List (Nat × String)) :
    (build texts total config).docLengths.length = total := by
  have hset (l : List Nat) : (texts.foldl (fun acc d =>
      acc.set d.1 (asU32 (config.tokenizer.tokenize d.2).length)) l).length = l.length := by
    induction texts generalizing l with
    | nil => rfl
    | cons d texts ih => rw [List.foldl_cons, ih, List.length_set]
  rw [build]
  exact (hset _).trans List.length_replicate

/-- The length of a document that has a text. -/
theorem docLengths_eq (hlen : docs.length ≤ 2 ^ 32) {o : Nat} {d : Doc} {t : String}
    (hd : docs[o]? = some d) (ht : textOf attr d = some t) :
    (build (attributeTexts docs attr) docs.length config).docLengths[o]? =
      some (asU32 (config.tokenizer.tokenize t).length) := by
  have hlt : o < docs.length := (List.getElem?_eq_some_iff.mp hd).1
  rw [build]
  dsimp only
  rw [getElem?_foldl_set (fun t => asU32 (config.tokenizer.tokenize t).length), attributeTexts_eq hlen,
    filter_positioned, hd, Option.bind_some, ht, List.getElem?_replicate, if_pos hlt]
  rfl

omit [Crates] in
/-- Where a document has a token, the average length is positive. -/
theorem averageLength_pos {x : FtsIndex} {o n : Nat} (h : x.docLengths[o]? = some n) (hn : 0 < n) :
    0 < x.averageLength ℝ := by
  have hmem := List.mem_of_getElem? h
  have hne : x.docLengths.isEmpty = false := by
    rw [List.isEmpty_eq_false_iff]
    exact List.ne_nil_of_mem hmem
  rw [averageLength, if_neg (by simp [hne])]
  have hsum : 0 < x.docLengths.sum := Nat.lt_of_lt_of_le hn (List.le_sum_of_mem hmem)
  have hlen : 0 < x.docLengths.length := List.length_pos_of_mem hmem
  exact div_pos (Nat.cast_pos.mpr hsum) (Nat.cast_pos.mpr hlen)

/-- What a query term adds to the score of a text, on the statistics of the index. -/
noncomputable def gain (x : FtsIndex) (doc : List String) (term : String) : ℝ :=
  if term ∈ doc then x.termScore (Scalar.ofNat x.docLengths.length)
    (Scalar.ofNat ((x.postings term).elim 0 List.length)) (Scalar.ofNat (doc.count term))
    (x.relativeLength (Scalar.ofNat doc.length) Scalar.one) else 0

/-- **What the index owes a document**: the gains of the query's terms. -/
theorem share_contributions (hlen : docs.length ≤ 2 ^ 32) (hshort : ∀ d ∈ docs, ∀ t,
      textOf attr d = some t → (config.tokenizer.tokenize t).length < 2 ^ 32)
    (tokens : List String) (o : Nat) :
    share ((build (attributeTexts docs attr) docs.length config).contributions tokens) o =
      (((docs[o]?).bind (textOf attr)).map fun t => ((uniqueTokens tokens).map
        ((build (attributeTexts docs attr) docs.length config).gain (config.tokenizer.tokenize t))).sum).getD
        0 := by
  set x := build (attributeTexts docs attr) docs.length config with hx
  -- one term of the query
  have hterm (token : String) : share (((x.postings token).getD []).map fun p =>
      (p.ordinal, (x.termScore (Scalar.ofNat x.docLengths.length)
        (Scalar.ofNat ((x.postings token).getD []).length) (Scalar.ofNat p.positions.length)
        (x.relativeLength (Scalar.ofNat ((x.docLengths[p.ordinal]?).getD 0)) Scalar.zero) : ℝ))) o =
      (((docs[o]?).bind (textOf attr)).map fun t => x.gain (config.tokenizer.tokenize t) token).getD
        0 := by
    rw [hx, share_postings docs.length config hlen, ← hx]
    cases ht : (docs[o]?).bind (textOf attr) with
    | none => rfl
    | some t =>
        obtain ⟨d, hd, ht⟩ := Option.bind_eq_some_iff.mp ht
        have hdl : x.docLengths[o]? = some (config.tokenizer.tokenize t).length := by
          rw [hx, docLengths_eq config hlen hd ht,
            asU32_of_lt (hshort d (List.mem_of_getElem? hd) t ht)]
        simp only [Option.map_some, Option.getD_some, gain, hdl, length_positionsOf]
        split_ifs with hmem
        · -- the text has a token, so the average length is positive
          have hpos := averageLength_pos hdl (List.length_pos_of_mem hmem)
          have hrelative (orElse : ℝ) : x.relativeLength
              (Scalar.ofNat (config.tokenizer.tokenize t).length) orElse =
              Scalar.div (Scalar.ofNat (config.tokenizer.tokenize t).length) (x.averageLength ℝ) :=
            if_pos (decide_eq_true hpos)
          rw [hrelative, hrelative]
          cases x.postings token <;> rfl
        · rfl
  rw [contributions, share_flatMap]
  simp only [hterm]
  cases (docs[o]?).bind (textOf attr) with
  | none => simp
  | some t => rfl

omit [Crates] in
/-- **A term that occurs gains something**, for parameters in their usual ranges. -/
theorem termScore_pos {x : FtsIndex} (hk : 0 ≤ F32.magnitude x.params.k1)
    (hb : 0 ≤ F32.magnitude x.params.b) (hb' : F32.magnitude x.params.b ≤ 1) {n df tf norm : ℝ}
    (hdf : 0 ≤ df) (hn : df ≤ n) (htf : 0 < tf) (hnorm : 0 ≤ norm) : 0 < x.termScore n df tf norm := by
  have hidf : 0 < Real.log (1 + (n - df + 1 / 2) / (df + 1 / 2)) := by
    refine Real.log_pos (lt_add_of_pos_right _ (div_pos ?_ ?_))
    · linarith
    · linarith
  have hlength : 0 ≤ 1 - F32.magnitude x.params.b + F32.magnitude x.params.b * norm :=
    add_nonneg (sub_nonneg.mpr hb') (mul_nonneg hb hnorm)
  refine div_pos (mul_pos hidf (mul_pos htf ?_)) (add_pos_of_pos_of_nonneg htf (mul_nonneg hk hlength))
  exact add_pos_of_nonneg_of_pos hk one_pos

/-- The score of a text is the sum of the gains. -/
theorem scoreText_eq {x : FtsIndex} (hne : x.docLengths ≠ []) (text query : String) :
    (x.scoreText text query : ℝ) = ((uniqueTokens (x.tokenizer.tokenize query)).map
      (x.gain (x.tokenizer.tokenize text))).sum := by
  have hcount : max x.docLengths.length 1 = x.docLengths.length :=
    max_eq_left (List.length_pos_of_ne_nil hne)
  rw [scoreText]
  split_ifs with hempty
  · rcases Bool.or_eq_true_iff.mp hempty with hterms | hdoc
    · rw [List.isEmpty_iff.mp hterms]
      rfl
    · rw [List.isEmpty_iff.mp hdoc]
      refine (List.sum_eq_zero fun y hy => ?_).symm
      obtain ⟨term, -, rfl⟩ := List.mem_map.mp hy
      exact if_neg List.not_mem_nil
  · rw [scalarSum_eq, hcount]
    congr 1
    refine List.map_congr_left fun term _ => ?_
    have hzero : (Scalar.isZero (Scalar.ofNat ((x.tokenizer.tokenize text).count term) : ℝ)) = true ↔
        term ∉ x.tokenizer.tokenize text := by
      rw [← List.count_eq_zero]
      exact decide_eq_true_iff.trans Nat.cast_eq_zero
    rw [gain]
    dsimp only
    by_cases hmem : term ∈ x.tokenizer.tokenize text
    · rw [if_neg (mt hzero.mp (not_not.mpr hmem)), if_pos hmem]
    · rw [if_pos (hzero.mpr hmem), if_neg hmem]
      rfl

/-- **The index agrees with the documents**: it scores a position exactly when the text of the document
there has a positive score, and with that one. -/
theorem mem_score (hlen : docs.length ≤ 2 ^ 32) (hshort : ∀ d ∈ docs, ∀ t, textOf attr d = some t →
      (config.tokenizer.tokenize t).length < 2 ^ 32) (query : String) (o : Nat) (x : ℝ) :
    (o, x) ∈ (build (attributeTexts docs attr) docs.length config).score query ↔
      ∃ d, docs[o]? = some d ∧
        textScore (build (attributeTexts docs attr) docs.length config) attr query d = some x := by
  set index := build (attributeTexts docs attr) docs.length config with hindex
  have hkept (y : ℝ) : (if Scalar.lt Scalar.zero y then some y else none) = some x ↔ x = y ∧ 0 < x := by
    have hlt : Scalar.lt Scalar.zero y = true ↔ 0 < y := decide_eq_true_iff
    simp only [hlt, Option.ite_none_right_eq_some, Option.some.injEq]
    exact ⟨fun h => ⟨h.2.symm, h.2 ▸ h.1⟩, fun h => ⟨h.1 ▸ h.2, h.1.symm⟩⟩
  rw [score]
  split_ifs with hempty
  · -- no terms, or no documents
    refine iff_of_false List.not_mem_nil ?_
    rintro ⟨d, hd, hscore⟩
    rcases Bool.or_eq_true_iff.mp hempty with hterms | hnone
    · obtain ⟨t, -, hscore⟩ := Option.bind_eq_some_iff.mp hscore
      have hzero : (index.scoreText t query : ℝ) = 0 := by
        rw [scoreText, hterms]
        rfl
      obtain ⟨rfl, hpos⟩ := (hkept _).mp hscore
      exact hpos.ne' hzero
    · have hlength := length_docLengths docs.length config (attributeTexts docs attr)
      rw [← hindex, List.isEmpty_iff.mp hnone] at hlength
      rw [List.eq_nil_of_length_eq_zero hlength.symm] at hd
      cases hd
  · obtain ⟨-, hne⟩ := not_or.mp (mt Bool.or_eq_true_iff.mpr hempty)
    have hne : index.docLengths ≠ [] := fun hnil => hne (List.isEmpty_iff.mpr hnil)
    refine (@mem_totals _ (fun y => 0 < y) _ (lt_irrefl 0) o x).trans ?_
    rw [share_contributions config hlen hshort, ← hindex]
    cases docs[o]? with
    | none => simpa using fun h : x = 0 => h.le
    | some d =>
        have hscore : textScore index attr query d = (textOf attr d).bind fun t =>
            if Scalar.lt Scalar.zero (index.scoreText t query : ℝ) then some (index.scoreText t query)
            else none := rfl
        simp only [Option.some.injEq, exists_eq_left', hscore, Option.bind_some]
        cases textOf attr d with
        | none => simpa using fun h : x = 0 => h.le
        | some t =>
            rw [Option.bind_some, hkept, scoreText_eq hne]
            rfl

theorem nodup_score (x : FtsIndex) (query : String) : (x.score query : List (Nat × ℝ)).Nodup := by
  rw [score]
  split_ifs
  · exact List.nodup_nil
  · exact (nodup_rankOrdinals _).of_map

end FtsIndex

end FullText

end Fckdb
