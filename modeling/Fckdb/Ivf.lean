import Fckdb.Doc
import Fckdb.Lib.Replay
import Mathlib.Data.Nat.Sqrt
import Mathlib.Data.List.Sort

/-! # The vector index

Clusters of documents around centroids. `build` clusters by Lloyd's algorithm from a strided sample;
`probe` ranks the centroids for a query. -/

namespace Fckdb

variable {S : Type} [Scalar S]

/-- The parameters of a build. -/
structure IvfParams where
  k : Nat
  iters : Nat
  metric : DistanceMetric
  deriving DecidableEq

/-- `(n as f64).sqrt().ceil() as usize`, exact far beyond the `u32` number of documents. -/
def ceilSqrt (n : Nat) : Nat := if n.sqrt * n.sqrt = n then n.sqrt else n.sqrt + 1

/-- About `sqrt n` clusters. -/
def IvfParams.forDocs (n : Nat) : IvfParams := ⟨max (ceilSqrt n) 1, 10, default⟩

/-- With the namespace's metric. -/
def IvfParams.withMetric (p : IvfParams) (metric : DistanceMetric) : IvfParams := { p with metric }

/-- Scan for a strictly closer centroid, from position `i`. -/
def nearestFrom (metric : DistanceMetric) (v : List S) : List (List S) → Nat → Nat → S → Nat
  | [], _, best, _ => best
  | c :: cs, i, best, bestD =>
    let d := metric.distance c v
    if Scalar.lt d bestD then nearestFrom metric v cs (i + 1) i d
    else nearestFrom metric v cs (i + 1) best bestD

/-- The first centroid at the least distance; the first of all when no distance is below infinity. -/
def nearest (centroids : List (List S)) (v : List S) (metric : DistanceMetric) : Nat :=
  nearestFrom metric v centroids 0 0 Scalar.infinity

/-- One round of Lloyd's algorithm: each centroid that has vectors moves to their mean. -/
def lloydStep (vectors : List (List S)) (metric : DistanceMetric) (centroids : List (List S)) :
    List (List S) :=
  centroids.zipIdx.map fun ci =>
    let members := vectors.filter fun v => nearest centroids v metric = ci.2
    if members.isEmpty then ci.1
    else
      let sums := members.foldl (fun sums v => List.zipWith Scalar.add sums v)
        (List.replicate ((vectors.headD []).length) Scalar.zero)
      List.zipWith (fun _ sum => Scalar.div sum (Scalar.ofNat members.length)) ci.1 sums

/-- `kmeans`: a strided sample, then `iters` rounds. -/
def kmeans (vectors : List (List S)) (k iters : Nat) (metric : DistanceMetric) : List (List S) :=
  let n := vectors.length
  let k := max 1 (min k n)
  (lloydStep vectors metric)^[iters] ((List.range k).map fun i => vectors.getD (i * n / k) [])

section Build

variable [Crates]

/-- Cluster the documents: the centroids that have documents, flattened, and their documents.
A list without documents or with vectors of different lengths is refused. -/
def ivfBuild (docs : List Doc) (params : IvfParams) :
    Except Error (List F32 × List (List Doc)) :=
  match docs with
  | [] => .error (.bail "cannot build an index over zero documents")
  | d :: _ =>
    let dim := d.vector.length
    match docs.find? fun d => d.vector.length ≠ dim with
    | some bad => .error (.bail ("dimension mismatch: doc " ++ bad.id.display ++ " has " ++
        toString bad.vector.length ++ " dims, expected " ++ toString dim))
    | none =>
      let centroids := kmeans (docs.map Doc.vector) (min params.k docs.length) params.iters
        params.metric
      let groups := centroids.zipIdx.map fun ci =>
        (ci.1, docs.filter fun d => nearest centroids d.vector params.metric = ci.2)
      let kept := groups.filter fun g => !g.2.isEmpty
      .ok (kept.flatMap (·.1), kept.map (·.2))

end Build

/-! ### What a build yields -/

/-- A scan from position `i` ends at its start or at a position it passed. -/
theorem nearestFrom_lt (metric : DistanceMetric) (v : List S) (cs : List (List S)) (i best : Nat)
    (bestD : S) (h : best < i + cs.length) :
    nearestFrom metric v cs i best bestD < i + cs.length := by
  induction cs generalizing i best bestD with
  | nil => exact h
  | cons c cs ih =>
      rw [List.length_cons] at h ⊢
      rw [nearestFrom]
      split_ifs
      · have := ih (i + 1) i (metric.distance c v) (by omega)
        omega
      · have := ih (i + 1) best bestD (by omega)
        omega

theorem nearest_lt {centroids : List (List S)} (v : List S) (metric : DistanceMetric)
    (h : centroids ≠ []) : nearest centroids v metric < centroids.length := by
  have := nearestFrom_lt metric v centroids 0 0 Scalar.infinity
    (by rw [Nat.zero_add]; exact List.length_pos_of_ne_nil h)
  rwa [Nat.zero_add] at this

theorem length_kmeans (vectors : List (List S)) (k iters : Nat) (metric : DistanceMetric) :
    (kmeans vectors k iters metric).length = max 1 (min k vectors.length) := by
  rw [kmeans]
  have hstep : ∀ cs : List (List S), (lloydStep vectors metric cs).length = cs.length := fun cs => by
    rw [lloydStep, List.length_map, List.length_zipIdx]
  have hiter : ∀ (n : Nat) (cs : List (List S)),
      ((lloydStep vectors metric)^[n] cs).length = cs.length := by
    intro n
    induction n with
    | zero => exact fun _ => rfl
    | succ n ih => exact fun cs => (ih _).trans (hstep cs)
  rw [hiter, List.length_map, List.length_range]

/-- **The clusters partition the documents.** -/
theorem ivfBuild_perm [Crates] {docs : List Doc} {params : IvfParams} {flat : List F32}
    {groups : List (List Doc)} (h : ivfBuild docs params = .ok (flat, groups)) :
    groups.flatten.Perm docs := by
  cases docs with
  | nil => cases h
  | cons first rest =>
    rw [ivfBuild.eq_def] at h
    dsimp only at h
    split at h
    · cases h
    generalize hcs : kmeans ((first :: rest).map Doc.vector) (min params.k (first :: rest).length)
      params.iters params.metric = centroids at h
    generalize first :: rest = docs at h hcs ⊢
    cases h
    have hne : centroids ≠ [] := by
      intro hnil
      have := length_kmeans (docs.map Doc.vector) (min params.k docs.length) params.iters params.metric
      rw [hcs, hnil, List.length_nil] at this
      omega
    -- dropping the empty clusters drops no document
    have hkept : ∀ gs : List (List F32 × List Doc),
        ((gs.filter fun g => !g.2.isEmpty).map (·.2)).flatten = (gs.map (·.2)).flatten := by
      intro gs
      induction gs with
      | nil => rfl
      | cons g gs ih =>
          cases hg : g.2 with
          | nil => simp [hg, ih]
          | cons d ds => simp [hg, ih]
    rw [hkept, List.map_map]
    have hrange : (centroids.zipIdx.map (Prod.snd ∘ fun ci : List F32 × Nat =>
        (ci.1, docs.filter fun d => nearest centroids d.vector params.metric = ci.2))) =
        (List.range centroids.length).map fun i =>
          docs.filter fun d => nearest centroids d.vector params.metric = i := by
      rw [List.range_eq_range', ← List.zipIdx_map_snd 0 centroids, List.map_map]
      rfl
    rw [hrange, ← List.flatMap_def]
    exact perm_flatMap_filter (fun d : Doc => nearest centroids d.vector params.metric)
      fun d _ => nearest_lt d.vector params.metric hne

/-- A sum of vectors of one length has that length. -/
theorem length_foldl_add {n : Nat} {vs : List (List S)} (h : ∀ v ∈ vs, v.length = n) :
    ∀ sums : List S, sums.length = n →
      (vs.foldl (fun sums v => List.zipWith Scalar.add sums v) sums).length = n := by
  induction vs with
  | nil => exact fun _ hs => hs
  | cons v vs ih =>
      intro sums hs
      refine ih (fun u hu => h u (List.mem_cons_of_mem _ hu)) _ ?_
      rw [List.length_zipWith, hs, h v List.mem_cons_self, Nat.min_self]

/-- Centroids keep the length of the vectors. -/
theorem length_of_mem_lloydStep {n : Nat} {vectors centroids : List (List S)} {metric : DistanceMetric}
    (hv : ∀ v ∈ vectors, v.length = n) (hc : ∀ c ∈ centroids, c.length = n) :
    ∀ c ∈ lloydStep vectors metric centroids, c.length = n := by
  intro c hmem
  obtain ⟨ci, hci, rfl⟩ := List.mem_map.mp hmem
  have hlen := hc ci.1 (List.fst_mem_of_mem_zipIdx hci)
  dsimp only
  split_ifs with hempty
  · exact hlen
  -- the mean of the members
  generalize hmembers : (vectors.filter fun v => nearest centroids v metric = ci.2) = members at hempty ⊢
  have hsub : ∀ v ∈ members, v.length = n := fun v hmem => hv v (by
    rw [← hmembers] at hmem
    exact List.mem_of_mem_filter hmem)
  have hfirst : (vectors.headD []).length = n := by
    cases vectors with
    | nil =>
        rw [← hmembers] at hempty
        exact absurd rfl hempty
    | cons v _ => exact hv v List.mem_cons_self
  rw [List.length_zipWith, hlen, length_foldl_add hsub _ (by rw [List.length_replicate, hfirst]),
    Nat.min_self]

theorem length_of_mem_kmeans {n : Nat} {vectors : List (List S)} {k iters : Nat}
    {metric : DistanceMetric} (hne : vectors ≠ []) (hv : ∀ v ∈ vectors, v.length = n) :
    ∀ c ∈ kmeans vectors k iters metric, c.length = n := by
  have hiter : ∀ (rounds : Nat) (cs : List (List S)), (∀ c ∈ cs, c.length = n) →
      ∀ c ∈ (lloydStep vectors metric)^[rounds] cs, c.length = n := by
    intro rounds
    induction rounds with
    | zero => exact fun _ h => h
    | succ rounds ih => exact fun cs h => ih _ (length_of_mem_lloydStep hv h)
  refine hiter iters _ fun c hc => ?_
  obtain ⟨i, hi, rfl⟩ := List.mem_map.mp hc
  have hpos := List.length_pos_of_ne_nil hne
  have hi := List.mem_range.mp hi
  -- the sample is taken within the vectors
  have hlt : i * vectors.length / max 1 (min k vectors.length) < vectors.length := by
    rw [Nat.div_lt_iff_lt_mul (by omega), Nat.mul_comm vectors.length]
    exact Nat.mul_lt_mul_of_pos_right hi hpos
  rw [List.getD_eq_getElem?_getD, List.getElem?_eq_getElem hlt, Option.getD_some]
  exact hv _ (List.getElem_mem hlt)

/-- Documents that are clustered have one dimension. -/
theorem ivfBuild_dim [Crates] {docs : List Doc} {params : IvfParams} {x : List F32 × List (List Doc)}
    (h : ivfBuild docs params = .ok x) :
    ∀ d ∈ docs, d.vector.length = (docs.headD default).vector.length := by
  cases docs with
  | nil => cases h
  | cons first rest =>
    rw [ivfBuild.eq_def] at h
    dsimp only at h
    split at h
    · cases h
    · next hdims =>
      intro d hd
      simpa using List.find?_eq_none.mp hdims d hd

/-- **The centroids** are as many as the clusters, and of the length of the vectors. -/
theorem ivfBuild_length [Crates] {docs : List Doc} {params : IvfParams} {flat : List F32}
    {groups : List (List Doc)} (h : ivfBuild docs params = .ok (flat, groups)) :
    flat.length = groups.length * (docs.headD default).vector.length := by
  have hdim := ivfBuild_dim h
  cases docs with
  | nil => cases h
  | cons first rest =>
    rw [ivfBuild.eq_def] at h
    dsimp only at h
    split at h
    · cases h
    have hall : ∀ v ∈ (first :: rest).map Doc.vector, v.length = first.vector.length := by
      intro v hv
      obtain ⟨d, hd, rfl⟩ := List.mem_map.mp hv
      exact hdim d hd
    have hlen := @length_of_mem_kmeans _ _ first.vector.length ((first :: rest).map Doc.vector)
      (min params.k (first :: rest).length) params.iters params.metric (by simp) hall
    cases h
    have hflat : ∀ gs : List (List F32 × List Doc), (∀ g ∈ gs, g.1.length = first.vector.length) →
        (gs.flatMap (·.1)).length = gs.length * first.vector.length := by
      intro gs hgs
      induction gs with
      | nil => rw [List.flatMap_nil, List.length_nil, List.length_nil, Nat.zero_mul]
      | cons g gs ih =>
          rw [List.flatMap_cons, List.length_append, hgs g List.mem_cons_self,
            ih fun g' hg' => hgs g' (List.mem_cons_of_mem _ hg'), List.length_cons, Nat.succ_mul,
            Nat.add_comm]
    rw [List.length_map]
    refine hflat _ fun g hg => ?_
    obtain ⟨ci, hci, rfl⟩ := List.mem_map.mp (List.mem_of_mem_filter hg)
    exact hlen ci.1 (List.fst_mem_of_mem_zipIdx hci)

/-- **Documents of one dimension can be clustered.** -/
theorem ivfBuild_isOk [Crates] {docs : List Doc} (params : IvfParams) {n : Nat} (hne : docs ≠ [])
    (h : ∀ d ∈ docs, d.vector.length = n) : ∃ x, ivfBuild docs params = .ok x := by
  cases docs with
  | nil => exact absurd rfl hne
  | cons first rest =>
    have hfind : (first :: rest).find? (fun d => d.vector.length ≠ first.vector.length) = none := by
      rw [List.find?_eq_none]
      intro d hd
      rw [h d hd, h first List.mem_cons_self]
      simp
    rw [ivfBuild.eq_def]
    dsimp only
    rw [hfind]
    exact ⟨_, rfl⟩

/-- The centroids closest to `q`, nearest first; at least one. -/
def probe (centroids : List (List F32)) (q : List F32) (nprobe : Nat) (metric : DistanceMetric) :
    List Nat :=
  let scored := centroids.zipIdx.map fun ci => (metric.distance ci.1 q, ci.2)
  ((scored.insertionSort fun a b => a.1.totalCmp b.1 ≠ .gt).take (max nprobe 1)).map (·.2)

/-- The chunks of `n` of a list whose length is a multiple of `n`. -/
def chunksExact {α : Type} (n : Nat) (l : List α) : List (List α) :=
  (List.range (l.length / n)).map fun i => (l.drop (i * n)).take n

/-- `decode_centroids`. -/
def decodeCentroids (flat : List F32) (dim : Nat) : Except Error (List (List F32)) :=
  if dim = 0 ∨ flat.length % dim ≠ 0 then
    .error (.bail ("centroid blob of " ++ toString (flat.length * 4) ++
      " bytes is not a multiple of dim " ++ toString dim))
  else .ok (chunksExact dim flat)

/-- **Probing at least as many clusters as there are** goes through each once. -/
theorem probe_perm {centroids : List (List F32)} {nprobe : Nat} (q : List F32)
    (metric : DistanceMetric) (h : centroids.length ≤ nprobe) :
    (probe centroids q nprobe metric).Perm (List.range centroids.length) := by
  rw [probe, List.take_of_length_le]
  · refine ((List.perm_insertionSort _ _).map _).trans (.of_eq ?_)
    rw [List.map_map, List.range_eq_range', ← List.zipIdx_map_snd 0 centroids]
    rfl
  · rw [List.length_insertionSort, List.length_map, List.length_zipIdx]
    omega

/-- Centroids of one length are decoded. -/
theorem decodeCentroids_eq_ok {flat : List F32} {dim count : Nat} (hdim : dim ≠ 0)
    (h : flat.length = count * dim) :
    ∃ centroids, decodeCentroids flat dim = .ok centroids ∧ centroids.length = count := by
  rw [decodeCentroids, if_neg]
  · refine ⟨_, rfl, ?_⟩
    rw [chunksExact, List.length_map, List.length_range, h,
      Nat.mul_div_cancel _ (Nat.pos_of_ne_zero hdim)]
  · rw [h, Nat.mul_mod_left, not_or]
    exact ⟨hdim, not_not.mpr rfl⟩

end Fckdb
