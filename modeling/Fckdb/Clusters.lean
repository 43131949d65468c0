import Fckdb.Ivf
import Fckdb.Lib.Best
import Mathlib.Data.Real.Basic

/-! # The structure of the vector index

What `build` returns clusters the documents around the nearest of the returned centroids, and `probe` finds
the cluster of a document from its vector. Distances are taken as exact: the two comparisons of the code,
`<` and `total_cmp`, are then those of numbers (`ExactDistances`). -/

namespace Fckdb

/-- The distances from these centroids to these vectors compare as the numbers they stand for, and are below
infinity. -/
structure ExactDistances (number : F32 → ℝ) (metric : DistanceMetric) (centroids vectors : List (List F32)) :
    Prop where
  below : ∀ c ∈ centroids, ∀ v ∈ vectors, Scalar.lt (metric.distance c v) Scalar.infinity = true
  lt_iff : ∀ c ∈ centroids, ∀ c' ∈ centroids, ∀ v ∈ vectors,
    Scalar.lt (metric.distance c v) (metric.distance c' v) = true ↔
      number (metric.distance c v) < number (metric.distance c' v)
  totalCmp : ∀ c ∈ centroids, ∀ c' ∈ centroids, ∀ v ∈ vectors,
    number (metric.distance c v) < number (metric.distance c' v) →
      (metric.distance c v).totalCmp (metric.distance c' v) = .lt

variable {number : F32 → ℝ} {metric : DistanceMetric} {centroids : List (List F32)} {v : List F32}

/-! ## The nearest centroid -/

/-- The centroid at a position is at the least distance from a vector. -/
def IsNearest (number : F32 → ℝ) (metric : DistanceMetric) (centroids : List (List F32)) (v : List F32)
    (i : Nat) : Prop :=
  ∃ c, centroids[i]? = some c ∧
    ∀ c' ∈ centroids, number (metric.distance c v) ≤ number (metric.distance c' v)

/-- **The scan**: it goes on from the nearest of the centroids it passed, and ends at the nearest of all. -/
theorem isNearest_nearestFrom {vectors : List (List F32)}
    (h : ExactDistances number metric centroids vectors) (hv : v ∈ vectors) {passed rest : List (List F32)}
    (hsplit : centroids = passed ++ rest) {best : Nat} {c : List F32} (hbest : passed[best]? = some c)
    (hleast : ∀ c' ∈ passed, number (metric.distance c v) ≤ number (metric.distance c' v)) :
    IsNearest number metric centroids v
      (nearestFrom metric v rest passed.length best (metric.distance c v)) := by
  induction rest generalizing passed best c with
  | nil =>
      rw [List.append_nil] at hsplit
      subst hsplit
      exact ⟨c, hbest, hleast⟩
  | cons c₁ rest ih =>
      have hc : c ∈ centroids := hsplit ▸ List.mem_append_left _ (List.mem_of_getElem? hbest)
      have hc₁ : c₁ ∈ centroids := hsplit ▸ List.mem_append_right _ List.mem_cons_self
      have hnext : centroids = (passed ++ [c₁]) ++ rest := by rw [hsplit, List.append_assoc, List.singleton_append]
      have hlength : passed.length + 1 = (passed ++ [c₁]).length := by rw [List.length_append]; rfl
      rw [nearestFrom]
      by_cases hlt : Scalar.lt (metric.distance c₁ v) (metric.distance c v) = true
      · have hcloser := (h.lt_iff c₁ hc₁ c hc v hv).mp hlt
        rw [if_pos hlt, hlength]
        refine ih hnext List.getElem?_concat_length fun c' hc' => ?_
        rcases List.mem_append.mp hc' with hc' | hc'
        · exact hcloser.le.trans (hleast c' hc')
        · rw [List.mem_singleton.mp hc']
      · have hfarther := not_lt.mp (mt (h.lt_iff c₁ hc₁ c hc v hv).mpr hlt)
        rw [if_neg hlt, hlength]
        have hstill : (passed ++ [c₁])[best]? = some c :=
          (List.getElem?_append_left (List.getElem?_eq_some_iff.mp hbest).1).trans hbest
        refine ih hnext hstill fun c' hc' => ?_
        rcases List.mem_append.mp hc' with hc' | hc'
        · exact hleast c' hc'
        · rwa [List.mem_singleton.mp hc']

/-- **`nearest` finds a centroid at the least distance.** -/
theorem isNearest_nearest {vectors : List (List F32)} (h : ExactDistances number metric centroids vectors)
    (hv : v ∈ vectors) (hne : centroids ≠ []) :
    IsNearest number metric centroids v (nearest centroids v metric) := by
  cases hcs : centroids with
  | nil => exact absurd hcs hne
  | cons c cs =>
      have hbelow := h.below c (hcs ▸ List.mem_cons_self) v hv
      rw [nearest, nearestFrom, if_pos hbelow]
      rw [hcs] at h
      have hfirst : ∀ c' ∈ [c], number (metric.distance c v) ≤ number (metric.distance c' v) := fun c' hc' => by
        rw [List.mem_singleton.mp hc']
      have hsplit : c :: cs = [c] ++ cs := rfl
      exact isNearest_nearestFrom h hv hsplit rfl hfirst

/-! ## What is returned -/

/-- The kept clusters with their centroids. -/
def keptClusters (centroids : List (List F32)) (docs : List Doc) (metric : DistanceMetric) :
    List (List F32 × List Doc) :=
  (centroids.zipIdx.map fun ci =>
    (ci.1, docs.filter fun d => nearest centroids d.vector metric = ci.2)).filter fun g => !g.2.isEmpty

/-- The centroids that a build clusters around. -/
def trained (docs : List Doc) (params : IvfParams) : List (List F32) :=
  kmeans (docs.map Doc.vector) (min params.k docs.length) params.iters params.metric

theorem mem_keptClusters {docs : List Doc} {g : List F32 × List Doc}
    (h : g ∈ keptClusters centroids docs metric) :
    g.2 ≠ [] ∧ ∃ i, centroids[i]? = some g.1 ∧
      g.2 = docs.filter fun d => nearest centroids d.vector metric = i := by
  obtain ⟨hmem, hsome⟩ := List.mem_filter.mp h
  obtain ⟨ci, hci, rfl⟩ := List.mem_map.mp hmem
  exact ⟨by simpa using hsome, ci.2, List.mk_mem_zipIdx_iff_getElem?.mp hci, rfl⟩

/-- **What a build returns.** -/
theorem ivfBuild_eq [Crates] {docs : List Doc} {params : IvfParams} {n : Nat} (hne : docs ≠ [])
    (hdim : ∀ d ∈ docs, d.vector.length = n) :
    ivfBuild docs params = .ok ((keptClusters (trained docs params) docs params.metric).flatMap (·.1),
      (keptClusters (trained docs params) docs params.metric).map (·.2)) := by
  cases docs with
  | nil => exact absurd rfl hne
  | cons first rest =>
    have hfind : (first :: rest).find? (fun d => d.vector.length ≠ first.vector.length) = none := by
      rw [List.find?_eq_none]
      intro d hd
      rw [hdim d hd, hdim first List.mem_cons_self]
      simp
    rw [ivfBuild.eq_def]
    dsimp only
    rw [hfind]
    rfl

/-- The flattened centroids are read back. -/
theorem decodeCentroids_flatten {cs : List (List F32)} {n : Nat} (hn : n ≠ 0) (h : ∀ c ∈ cs, c.length = n) :
    decodeCentroids cs.flatten n = .ok cs := by
  have hlength : cs.flatten.length = cs.length * n := by
    rw [List.length_flatten, List.map_congr_left h, List.map_const', List.sum_replicate_nat]
  have hchunks : chunksExact n cs.flatten = cs := by
    rw [chunksExact, hlength, Nat.mul_div_cancel _ (Nat.pos_of_ne_zero hn)]
    clear hlength
    induction cs with
    | nil => rfl
    | cons c cs ih =>
        have hc : c.length = n := h c List.mem_cons_self
        have hdrop (i : Nat) : (c ++ cs.flatten).drop ((i + 1) * n) = cs.flatten.drop (i * n) := by
          rw [Nat.succ_mul, Nat.add_comm, ← List.drop_drop, List.drop_left' hc]
        rw [List.length_cons, List.range_succ_eq_map, List.map_cons, List.map_map, List.flatten_cons,
          Nat.zero_mul, List.drop_zero, List.take_left' hc]
        refine congrArg (c :: ·) (Eq.trans (List.map_congr_left fun i _ => ?_)
          (ih fun c' hc' => h c' (List.mem_cons_of_mem _ hc')))
        exact congrArg (List.take n) (hdrop i)
  rw [decodeCentroids, if_neg, hchunks]
  rw [hlength, Nat.mul_mod_left, not_or]
  exact ⟨hn, not_not.mpr rfl⟩

/-- **Probing finds the one nearest centroid.** -/
theorem probe_one {vectors : List (List F32)} (h : ExactDistances number metric centroids vectors)
    (hv : v ∈ vectors) {kept : List (List F32)} (hkept : ∀ c ∈ kept, c ∈ centroids) {i : Nat} {c : List F32}
    (hi : kept[i]? = some c) (hunique : ∀ j c', kept[j]? = some c' → j ≠ i →
      number (metric.distance c v) < number (metric.distance c' v)) :
    probe kept v 1 metric = [i] := by
  let rank := fun p : F32 × Nat => totalKey 32 p.1.bits.toNat
  have hle (a b : F32 × Nat) : a.1.totalCmp b.1 ≠ .gt ↔ rank a ≤ rank b := by
    rw [F32.totalCmp, Ne, cmp_eq_gt_iff, not_lt]
  have hprobe : probe kept v 1 metric =
      ((ranked rank (kept.zipIdx.map fun ci => (metric.distance ci.1 v, ci.2))).take 1).map (·.2) := by
    simp only [probe, hle]
    rfl
  have hperm := ranked_perm rank (kept.zipIdx.map fun ci => (metric.distance ci.1 v, ci.2))
  have horder := @ranked_pairwise_le _ _ _ rank (kept.zipIdx.map fun ci => (metric.distance ci.1 v, ci.2))
  have hself : (metric.distance c v, i) ∈
      ranked rank (kept.zipIdx.map fun ci => (metric.distance ci.1 v, ci.2)) :=
    hperm.mem_iff.mpr (List.mem_map.mpr ⟨(c, i), List.mk_mem_zipIdx_iff_getElem?.mpr hi, rfl⟩)
  rw [hprobe]
  cases hsorted : ranked rank (kept.zipIdx.map fun ci => (metric.distance ci.1 v, ci.2)) with
  | nil =>
      rw [hsorted] at hself
      cases hself
  | cons head rest =>
      rw [hsorted] at hself horder hperm
      obtain ⟨⟨c', j⟩, hj, rfl⟩ := List.mem_map.mp (hperm.mem_iff.mp List.mem_cons_self)
      have hj := List.mk_mem_zipIdx_iff_getElem?.mp hj
      by_contra hne
      have hji : j ≠ i := fun heq => hne (by rw [heq]; rfl)
      -- the nearest stands behind a centroid that is farther away
      have hrest : (metric.distance c v, i) ∈ rest :=
        (List.mem_cons.mp hself).resolve_left fun heq => hji (congrArg Prod.snd heq).symm
      have hcloser := h.totalCmp c (hkept c (List.mem_of_getElem? hi)) c' (hkept c' (List.mem_of_getElem? hj))
        v hv (hunique j c' hj hji)
      rw [F32.totalCmp, cmp_eq_lt_iff] at hcloser
      exact absurd hcloser (not_lt.mpr ((List.pairwise_cons.mp horder).1 _ hrest))

/-- What an index of documents with vectors of length `n` is. -/
structure IsIndex (number : F32 → ℝ) (metric : DistanceMetric) (docs : List Doc) (n : Nat)
    (flat : List F32) (groups : List (List Doc)) (centroids : List (List F32)) : Prop where
  /-- The flat centroids are these, all of the length of the vectors. -/
  flattened : flat = centroids.flatten
  lengths : ∀ c ∈ centroids, c.length = n
  decoded : n ≠ 0 → decodeCentroids flat n = .ok centroids
  /-- There are as many of them as clusters. -/
  aligned : centroids.length = groups.length
  /-- Each document is in one cluster. -/
  partition : groups.flatten.Perm docs
  nonempty : ∀ g ∈ groups, g ≠ []
  closest : ∀ i g, groups[i]? = some g → ∀ d ∈ g, IsNearest number metric centroids d.vector i
  /-- A document with one nearest centroid is found by its own vector. -/
  probed : ∀ i g c, groups[i]? = some g → centroids[i]? = some c → ∀ d ∈ g,
    (∀ j c', centroids[j]? = some c' → j ≠ i →
      number (metric.distance c d.vector) < number (metric.distance c' d.vector)) →
    probe centroids d.vector 1 metric = [i]

/-- **The structure of the index.** -/
theorem ivfBuild_isIndex [Crates] {docs : List Doc} {params : IvfParams} {n : Nat} (hne : docs ≠ [])
    (hdim : ∀ d ∈ docs, d.vector.length = n)
    (h : ExactDistances number params.metric (trained docs params) (docs.map Doc.vector)) :
    ∃ flat groups centroids, ivfBuild docs params = .ok (flat, groups) ∧
      IsIndex number params.metric docs n flat groups centroids := by
  have hbuilt := @ivfBuild_eq _ docs params n hne hdim
  have hmem := @mem_keptClusters params.metric (trained docs params) docs
  generalize keptClusters (trained docs params) docs params.metric = clusters at hbuilt hmem
  have htrained : ∀ c ∈ clusters.map (·.1), c ∈ trained docs params := by
    intro c hc
    obtain ⟨g, hg, rfl⟩ := List.mem_map.mp hc
    obtain ⟨-, i, hi, -⟩ := hmem hg
    exact List.mem_of_getElem? hi
  have hlengths : ∀ c ∈ clusters.map (·.1), c.length = n := by
    have hvectors : ∀ v ∈ docs.map Doc.vector, v.length = n := List.forall_mem_map.mpr hdim
    have hsome : docs.map Doc.vector ≠ [] := fun hnil => hne (List.map_eq_nil_iff.mp hnil)
    exact fun c hc => length_of_mem_kmeans hsome hvectors c (htrained c hc)
  have hnearest : ∀ i g, (clusters.map (·.2))[i]? = some g → ∀ d ∈ g,
      d ∈ docs ∧ IsNearest number params.metric (clusters.map (·.1)) d.vector i := by
    intro i g hg d hd
    rw [List.getElem?_map] at hg
    obtain ⟨cluster, hcluster, rfl⟩ := Option.map_eq_some_iff.mp hg
    obtain ⟨-, j, hj, hfilter⟩ := hmem (List.mem_of_getElem? hcluster)
    rw [hfilter] at hd
    obtain ⟨hdoc, hat⟩ := List.mem_filter.mp hd
    have hsome : trained docs params ≠ [] := fun hnil => by simp [hnil] at hj
    obtain ⟨c, hc, hleast⟩ := isNearest_nearest h (List.mem_map_of_mem hdoc) hsome
    -- the centroid of the cluster is the one that was nearest
    rw [of_decide_eq_true hat, hj] at hc
    cases hc
    refine ⟨hdoc, cluster.1, by rw [List.getElem?_map, hcluster]; rfl, fun c' hc' => ?_⟩
    exact hleast c' (htrained c' hc')
  refine ⟨_, _, clusters.map (·.1), hbuilt, ?_, hlengths, fun hn => ?_, ?_, ivfBuild_perm hbuilt, ?_,
    fun i g hg d hd => (hnearest i g hg d hd).2, fun i g c hg hc d hd hunique => ?_⟩
  · rw [List.flatMap_def]
  · rw [List.flatMap_def]
    exact decodeCentroids_flatten hn hlengths
  · rw [List.length_map, List.length_map]
  · exact List.forall_mem_map.mpr fun g hg => (hmem hg).1
  · exact probe_one h (List.mem_map_of_mem (hnearest i g hg d hd).1) htrained hc hunique

/-- Four documents on a line, in two clusters. -/
def lineDocs : List Doc :=
  [0x3f800000, 0x40000000, 0x41200000, 0x41300000].zipIdx.map fun p => ⟨.uint (.ofNat p.2), [⟨p.1⟩], .empty⟩

/-- The index of documents on a line, whose distances are told apart by their bits. -/
theorem lineDocs_isIndex :
    let _ := Crates.inert
    ∃ flat groups centroids, ivfBuild lineDocs ⟨2, 10, .euclideanSquared⟩ = .ok (flat, groups) ∧
      IsIndex (fun f => (totalKey 32 f.bits.toNat : ℝ)) .euclideanSquared lineDocs 1 flat groups centroids := by
  intro _
  have hbelow : ∀ c ∈ trained lineDocs ⟨2, 10, .euclideanSquared⟩, ∀ v ∈ lineDocs.map Doc.vector,
      Scalar.lt (DistanceMetric.euclideanSquared.distance c v) Scalar.infinity = true := by decide +kernel
  have hlt : ∀ c ∈ trained lineDocs ⟨2, 10, .euclideanSquared⟩,
      ∀ c' ∈ trained lineDocs ⟨2, 10, .euclideanSquared⟩, ∀ v ∈ lineDocs.map Doc.vector,
        Scalar.lt (DistanceMetric.euclideanSquared.distance c v)
            (DistanceMetric.euclideanSquared.distance c' v) = true ↔
          totalKey 32 (DistanceMetric.euclideanSquared.distance c v).bits.toNat <
            totalKey 32 (DistanceMetric.euclideanSquared.distance c' v).bits.toNat := by decide +kernel
  refine ivfBuild_isIndex (by decide) (by decide) ⟨hbelow, fun c hc c' hc' v hv => ?_, fun c _ c' _ v _ h => ?_⟩
  · exact (hlt c hc c' hc' v hv).trans Int.cast_lt.symm
  · exact (cmp_eq_lt_iff _ _).mpr (Int.cast_lt.mp h)

end Fckdb
