import Fckdb.HashOrder
import Fckdb.Lib.Postings
import Fckdb.Ranking
import Fckdb.Sparse
import Mathlib.Analysis.SpecialFunctions.Log.Basic

/-! # Scores of sparse-vector and full-text search

Two scorers for each kind of search: from the inverted lists of an index, and from the document itself,
for what the index has not seen. They are written over the numbers they compute with, `f32` or exact
ones. -/

namespace Fckdb

/-! ## Numbers -/

/-- What scores are computed in. -/
class Score (S : Type) extends Scalar S where
  /-- A stored weight or parameter. -/
  ofF32 : F32 → S
  /-- `0.5`. -/
  half : S
  ln : S → S
  totalCmp : S → S → Ordering

instance : Score F32 where
  ofF32 w := w
  half := ⟨0x3f000000⟩
  ln a := ⟨(Float32.ofBits a.bits).log.toBits⟩
  totalCmp := F32.totalCmp

/-- The number that the bits of a finite `f32` stand for. -/
noncomputable def F32.magnitude (w : F32) : ℝ :=
  let exponent : Nat := w.bits.toNat / 2 ^ 23 % 2 ^ 8
  let fraction : Nat := w.bits.toNat % 2 ^ 23
  (if w.bits.toNat < 2 ^ 31 then 1 else -1) *
    (if exponent = 0 then (fraction : ℝ) else 2 ^ 23 + fraction) * 2 ^ (((max exponent 1 : Nat) : ℤ) - 150)

/-- Exact arithmetic. -/
noncomputable instance : Score ℝ where
  zero := 0
  sumUnit := 0
  one := 1
  infinity := 0
  add := (· + ·)
  sub := (· - ·)
  mul := (· * ·)
  div := (· / ·)
  neg := (- ·)
  sqrt := Real.sqrt
  lt a b := decide (a < b)
  isZero a := decide (a = 0)
  ofNat n := n
  ofF32 := F32.magnitude
  half := 1 / 2
  ln := Real.log
  totalCmp a b := compare a b

variable {S : Type} [Score S]

/-- Scored ordinals, best first, ties by ordinal. -/
def rankOrdinals (scores : List (Nat × S)) : List (Nat × S) :=
  scores.insertionSort fun a b => ((Score.totalCmp b.2 a.2).then (compare a.1 b.1)) ≠ .gt

/-! ## Sparse vectors -/

namespace SparseIndex

/-- The inverted list of a dimension. -/
def postings (x : SparseIndex) (dim : String) : Option (List (Nat × F32)) := searchKey dim x.dims

/-- What each dimension of the query adds to each document, in turn. -/
def contributions (x : SparseIndex) (query : SortedMap String F32) : List (Nat × S) :=
  (query.entries.filter fun e => !F32.feq e.2 ⟨0⟩).flatMap fun e =>
    ((x.postings e.1).getD []).map fun p => (p.1, Scalar.mul (Score.ofF32 e.2) (Score.ofF32 p.2))

/-- `SparseIndex::score`: the dot product with every document that shares a dimension. -/
def score (x : SparseIndex) (query : SortedMap String F32) : List (Nat × S) :=
  rankOrdinals ((addUp Scalar.add Scalar.zero .empty (x.contributions query)).entries.filter
    fun p => !Scalar.isZero p.2)

end SparseIndex

/-- `sparse::dot`: over the dimensions of the shorter vector. -/
def sparseDot (a b : SortedMap String F32) : S :=
  let (short, long) := if a.size ≤ b.size then (a, b) else (b, a)
  scalarSum (short.entries.filterMap fun e =>
    (long.get e.1).map fun o => Scalar.mul (Score.ofF32 e.2) (Score.ofF32 o))

/-! ## Full text -/

section FullText

variable [Crates]

/-- The terms of a query: repeated ones count once. -/
def uniqueTokens (tokens : List String) : List String := (tokens.insertionSort (· ≤ ·)).dedup

namespace FtsIndex

/-- The inverted list of a term. -/
def postings (x : FtsIndex) (term : String) : Option (List Posting) := searchKey term x.terms

/-- The average document length, as `build` computes it. -/
def averageLength (S : Type) [Score S] (x : FtsIndex) : S :=
  if x.docLengths.isEmpty then Scalar.zero
  else Scalar.div (Scalar.ofNat x.docLengths.sum) (Scalar.ofNat x.docLengths.length)

/-- In machine numbers that is what the index stores. -/
theorem averageLength_build (docs : List (Nat × String)) (totalDocs : Nat) (config : FtsConfig) :
    (build docs totalDocs config).averageLength F32 = (build docs totalDocs config).avgdl := rfl

/-- Robertson-Sparck-Jones IDF, among `n` documents of which `df` have the term. -/
def idf (n df : S) : S :=
  Score.ln (Scalar.add Scalar.one
    (Scalar.div (Scalar.add (Scalar.sub n df) Score.half) (Scalar.add df Score.half)))

/-- What a term that occurs `tf` times adds to the score of a document. -/
def termScore (x : FtsIndex) (n df tf norm : S) : S :=
  let k1 := Score.ofF32 x.params.k1
  let b := Score.ofF32 x.params.b
  Scalar.div (Scalar.mul (idf n df) (Scalar.mul tf (Scalar.add k1 Scalar.one)))
    (Scalar.add tf (Scalar.mul k1 (Scalar.add (Scalar.sub Scalar.one b) (Scalar.mul b norm))))

/-- A document's length relative to the average; `orElse` when nothing is indexed. -/
def relativeLength (x : FtsIndex) (dl orElse : S) : S :=
  if Scalar.lt Scalar.zero (x.averageLength S) then Scalar.div dl (x.averageLength S) else orElse

/-- What each term of the query adds to each document, in turn. -/
def contributions (x : FtsIndex) (tokens : List String) : List (Nat × S) :=
  (uniqueTokens tokens).flatMap fun token =>
    let list := (x.postings token).getD []
    list.map fun p =>
      let dl : S := Scalar.ofNat ((x.docLengths[p.ordinal]?).getD 0)
      (p.ordinal, x.termScore (Scalar.ofNat x.docLengths.length) (Scalar.ofNat list.length)
        (Scalar.ofNat p.positions.length) (x.relativeLength dl Scalar.zero))

/-- `FtsIndex::score`: the BM25 score of every document with a term of the query. -/
def score (x : FtsIndex) (query : String) : List (Nat × S) :=
  let tokens := x.tokenizer.tokenize query
  if tokens.isEmpty || x.docLengths.isEmpty then []
  else rankOrdinals ((addUp Scalar.add Scalar.zero .empty (x.contributions tokens)).entries.filter
    fun p => Scalar.lt Scalar.zero p.2)

/-- `FtsIndex::score_text`: a text against the statistics of the index. -/
def scoreText (x : FtsIndex) (text query : String) : S :=
  let terms := x.tokenizer.tokenize query
  let doc := x.tokenizer.tokenize text
  if terms.isEmpty || doc.isEmpty then Scalar.zero
  else
    let n : S := Scalar.ofNat (max x.docLengths.length 1)
    let norm := x.relativeLength (Scalar.ofNat doc.length) Scalar.one
    scalarSum ((uniqueTokens terms).map fun term =>
      let tf : S := Scalar.ofNat (doc.count term)
      if Scalar.isZero tf then Scalar.zero
      -- a term absent from the corpus is maximally rare
      else
        let df : S := Scalar.ofNat ((x.postings term).elim 0 List.length)
        x.termScore n df tf norm)

end FtsIndex

end FullText

/-! ## Hits -/

/-- One ranked result. -/
structure ScoredHit (S : Type) where
  id : Id
  score : S
  attrs : Attrs

/-- `b.score.total_cmp(&a.score).then_with(|| a.id.cmp(&b.id))`. -/
def ScoredHit.cmp (a b : ScoredHit S) : Ordering :=
  (Score.totalCmp b.score a.score).then (compare a.id b.id)

/-- Sort hits, best first, and keep `k` of them. -/
def takeBestScored (k : Nat) (hits : List (ScoredHit S)) : List (ScoredHit S) :=
  (hits.insertionSort fun a b => a.cmp b ≠ .gt).take k

/-- The ids the tail touched: a set, in some order. -/
def touchedIds (tail : List Record) : List Id := (tail.map Record.id).dedup

/-- The live document at `ordinal`, unless the tail touched it or removed it. -/
def untouched (segRecords : List Record) (ordinal : Nat) (touched : List Id) (live : Live) : Option Doc :=
  match segRecords[ordinal]? with
  | some (.upsert indexed) => if indexed.id ∈ touched then none else live.get indexed.id
  | _ => none

variable [Crates]

/-- What a query asks of a document besides its score. -/
structure Ask where
  filter : Option Filter
  includeAttributes : Include
  fts : FtsSchema

/-- `push_hit`: the hit of a document that passes the filter. -/
def pushHit (ask : Ask) (d : Doc) (score : S) : Option (ScoredHit S) :=
  if passes ask.filter ask.fts d then some ⟨d.id, score, ask.includeAttributes.project d.attrs⟩ else none

/-- The hits of a shard: what the index scored and the tail left alone, and what the tail touched,
scored again by `rescore`. -/
def overlayHits (ask : Ask) (scored : List (Nat × S)) (rescore : Doc → Option S)
    (segRecords tail : List Record) : List (ScoredHit S) :=
  let live := materialize (segRecords ++ tail)
  let touched := touchedIds tail
  (scored.filterMap fun p => (untouched segRecords p.1 touched live).bind fun d => pushHit ask d p.2) ++
    touched.filterMap fun id => (live.get id).bind fun d => (rescore d).bind fun s => pushHit ask d s

/-- The score of a document for a sparse query; none when it is zero. -/
def sparseScore (attr : String) (vector : SortedMap String F32) (d : Doc) : Option S :=
  match d.attrs.get attr with
  | some (.sparse v) =>
    let score := sparseDot v vector
    if Scalar.isZero score then none else some score
  | _ => none

/-- The score of a document for a text query; none unless it is positive. -/
def textScore (fts : FtsIndex) (attr query : String) (d : Doc) : Option S :=
  ((d.attrs.get attr).bind attributeText).bind fun t =>
    let score := fts.scoreText t query
    if Scalar.lt Scalar.zero score then some score else none

/-- The sparse path of a shard, on what it read. -/
def sparseHits (ask : Ask) (index : SparseIndex) (attr : String) (vector : SortedMap String F32)
    (segRecords tail : List Record) : List (ScoredHit S) :=
  overlayHits ask (index.score vector) (sparseScore attr vector) segRecords tail

/-- The full-text path of a shard, on what it read. -/
def textHits (ask : Ask) (fts : FtsIndex) (attr query : String) (segRecords tail : List Record) :
    List (ScoredHit S) :=
  overlayHits ask (fts.score query) (textScore fts attr query) segRecords tail

end Fckdb
