import Fckdb.References

/-! # Collecting beside writers

A collection loads the manifest first and computes its cutoff later. If what was committed in between is
younger than the grace period at the cutoff, no referenced object is ever deleted
(`Reaches.spared`). A slow collection deletes what was committed in between, and a grace period too long
for `chrono::Duration` counts as none (`unspared`). -/

namespace Fckdb

/-! ## Young objects -/

/-- The object was written less than `grace` ago. -/
def Store.Young (s : Store) (grace : Nat) (name : ObjectName) : Prop :=
  ∃ put, s.written name = some put ∧ s.clock < put.time + grace

instance (s : Store) (grace : Nat) (name : ObjectName) : Decidable (s.Young grace name) :=
  match h : s.written name with
  | none => isFalse fun ⟨_, hput, _⟩ => nomatch h.symm.trans hput
  | some put => decidable_of_iff (s.clock < put.time + grace)
      ⟨fun hlt => ⟨put, h, hlt⟩, fun ⟨_, hput, hlt⟩ => Option.some.inj (h.symm.trans hput) ▸ hlt⟩

/-- What a manifest references and another one does not was written less than `grace` ago. -/
def Store.Fresh (s : Store) (grace : Nat) (old new : Manifest) : Prop :=
  ∀ name ∈ new.referenced, name ∉ old.referenced → s.Young grace name

instance (s : Store) (grace : Nat) (old new : Manifest) : Decidable (s.Fresh grace old new) :=
  inferInstanceAs (Decidable (∀ name ∈ new.referenced, name ∉ old.referenced → s.Young grace name))

/-! ## Runs -/

/-- Runs of commits, compactions, collections with a grace period of at least `grace`, and queries, in
which every object is referenced within less than `grace` of its PUT. -/
def promptTerms (grace : Nat) : Terms where
  call
    | .gc _ period => grace ≤ period
    | .destroy _ => False
    | _ => True
  op
    | _, s, .putManifest m mode _ => s.admits mode = true → s.Fresh grace s.manifest m
    | _, _, _ => True
  env _ _ := True

/-- Runs in which, besides, every grace period fits into a `chrono::Duration`, and what was committed since
a collection loaded the manifest is younger than `grace` when it reads the clock for its cutoff. -/
def collectTerms (grace : Nat) : Terms where
  call
    | .gc _ period => grace ≤ period ∧ period ≤ durationMax
    | .destroy _ => False
    | _ => True
  op
    | _, s, .putManifest m mode _ => s.admits mode = true → s.Fresh grace s.manifest m
    | _, s, .now (.cutoff loaded) => s.Fresh grace loaded s.manifest
    | _, _, _ => True
  env _ _ := True

/-- **No deleted object is referenced** by the current manifest. -/
def Spared (s : Store) : Prop := ∀ name ∈ s.deleted, name ∉ s.manifest.referenced

instance (s : Store) : Decidable (Spared s) :=
  inferInstanceAs (Decidable (∀ name ∈ s.deleted, name ∉ s.manifest.referenced))

/-! ## The history of references -/

/-- The object was written at least `grace` ago. -/
def Store.Aged (s : Store) (grace : Nat) (name : ObjectName) : Prop :=
  ∃ put, s.written name = some put ∧ put.time + grace ≤ s.clock

theorem Store.Aged.not_young {s : Store} {grace : Nat} {name : ObjectName} (h : s.Aged grace name) :
    ¬ s.Young grace name := by
  rintro ⟨put, hput, hlt⟩
  obtain ⟨put', hput', hle⟩ := h
  obtain rfl := Option.some.inj (hput.symm.trans hput')
  omega

theorem Grows.aged {who : Nat → Prop} {s s' : Store} (h : Grows who s s') {grace : Nat}
    {name : ObjectName} (ha : s.Aged grace name) : s'.Aged grace name := by
  obtain ⟨put, hput, hle⟩ := ha
  exact ⟨put, h.written hput, hle.trans h.clock⟩

/-- What a version references and the versions before it do not was written less than `grace` before the
version. -/
structure Prompt (grace : Nat) (s : Store) : Prop where
  dropped : s.dropped = 0
  fresh : ∀ i v, s.versions[i]? = some v → ∀ name ∈ v.manifest.referenced,
    name ∉ (lastManifest (s.versions.take i)).referenced →
    ∃ put, s.written name = some put ∧ v.time < put.time + grace

namespace Prompt

variable {grace : Nat} {s s' : Store}

theorem manifest_eq (h : Prompt grace s) : s.manifest = lastManifest s.versions := by
  rw [Store.manifest, h.dropped, List.drop_zero]

theorem grows {who : Nat → Prop} (h : Prompt grace s) (hg : Grows who s s')
    (hv : s'.versions = s.versions) (hd : s'.dropped = s.dropped) : Prompt grace s' where
  dropped := hd.trans h.dropped
  fresh i v hi name hname hold := by
    rw [hv] at hi hold
    obtain ⟨put, hput, hlt⟩ := h.fresh i v hi name hname hold
    exact ⟨put, hg.written hput, hlt⟩

theorem push (h : Prompt grace s) {v : Version} {who : Nat → Prop} (hg : Grows who s (s.push v))
    (htime : v.time = s.clock) (hfresh : s.Fresh grace s.manifest v.manifest) :
    Prompt grace (s.push v) where
  dropped := h.dropped
  fresh i w hi name hname hold := by
    rw [Store.push] at hi hold
    rcases Nat.lt_or_ge i s.versions.length with hlt | hge
    · rw [List.getElem?_append_left hlt] at hi
      rw [List.take_append_of_le_length hlt.le] at hold
      obtain ⟨put, hput, hlt'⟩ := h.fresh i w hi name hname hold
      exact ⟨put, hg.written hput, hlt'⟩
    · have hi' := (List.getElem?_eq_some_iff.mp hi).1
      obtain rfl : i = s.versions.length := by
        rw [List.length_append, List.length_singleton] at hi'
        omega
      rw [List.getElem?_concat_length] at hi
      obtain rfl := Option.some.inj hi
      rw [List.take_left, ← h.manifest_eq] at hold
      obtain ⟨put, hput, hlt⟩ := hfresh name hname hold
      exact ⟨put, hg.written hput, htime ▸ hlt⟩

/-- **An aged object is not referenced again**: what is referenced now and was not at an earlier time was
not aged then. -/
theorem referenced_before (h : Prompt grace s) {s₀ : Store} (hg : Grows (fun _ => True) s₀ s)
    {name : ObjectName} {put : Put} (hname : name ∈ s.manifest.referenced)
    (hput : s.written name = some put) (hle : put.time + grace ≤ s₀.clock) :
    name ∈ (lastManifest s₀.versions).referenced := by
  obtain ⟨vs, hvs, htimes⟩ := hg.versions
  rw [h.manifest_eq, hvs] at hname
  -- backwards through the versions since then
  have hback (n : Nat) : n ≤ vs.length →
      name ∈ (lastManifest (s₀.versions ++ vs.take n)).referenced →
      name ∈ (lastManifest s₀.versions).referenced := by
    induction n with
    | zero =>
        intro _ hmem
        rwa [List.take_zero, List.append_nil] at hmem
    | succ n ih =>
        intro hn hmem
        refine ih (Nat.le_of_succ_le hn) ?_
        by_contra hnot
        have hget : vs[n]? = some vs[n] := List.getElem?_eq_getElem hn
        rw [List.take_add_one, hget, Option.toList_some, ← List.append_assoc, lastManifest_append] at hmem
        have hi : s.versions[s₀.versions.length + n]? = some vs[n] := by
          rw [hvs, List.getElem?_append_right (Nat.le_add_right _ _), Nat.add_sub_cancel_left, hget]
        have htake : s.versions.take (s₀.versions.length + n) = s₀.versions ++ vs.take n := by
          rw [hvs, List.take_length_add_append]
        obtain ⟨put', hput', hlt⟩ := h.fresh _ _ hi name hmem (htake ▸ hnot)
        obtain rfl := Option.some.inj (hput.symm.trans hput')
        have := (htimes vs[n] (List.getElem_mem hn)).2
        omega
  exact hback vs.length (Nat.le_refl _) (by rwa [List.take_length])

end Prompt

/-! ## Every run -/

section Runs

variable [Crates] [HashOrder] {grace : Nat} {p : Namespace}

/-- What is deleted is aged and unreferenced. -/
structure Swept (grace : Nat) (s : Store) : Prop extends Prompt grace s where
  sound : s.Sound
  swept : ∀ name ∈ s.deleted, s.Aged grace name ∧ name ∉ s.manifest.referenced

omit [Crates] [HashOrder] in
theorem Swept.grows {s s' : Store} {who : Nat → Prop} (h : Swept grace s) (hg : Grows who s s')
    (hv : s'.versions = s.versions) (hd : s'.dropped = s.dropped) (hdel : s'.deleted = s.deleted) :
    Swept grace s' where
  toPrompt := h.toPrompt.grows hg hv hd
  sound := hg.sound h.sound
  swept name hname := by
    rw [hdel] at hname
    obtain ⟨haged, hnot⟩ := h.swept name hname
    rw [Store.manifest, hv, hd]
    exact ⟨hg.aged haged, hnot⟩

omit [Crates] [HashOrder] in
/-- A manifest that references nothing aged anew. -/
theorem Swept.push {s : Store} {who : Nat → Prop} {v : Version} (h : Swept grace s)
    (hg : Grows who s (s.push v)) (htime : v.time = s.clock)
    (hfresh : s.Fresh grace s.manifest v.manifest) : Swept grace (s.push v) where
  toPrompt := h.toPrompt.push hg htime hfresh
  sound := hg.sound h.sound
  swept name hname := by
    obtain ⟨haged, hnot⟩ := h.swept name hname
    rw [Store.push_manifest h.sound.dropped]
    exact ⟨hg.aged haged, fun hmem => haged.not_young (hfresh name hmem hnot)⟩

omit [HashOrder] in
/-- **A move of a run deletes nothing that is referenced.** -/
theorem Swept.move {t : Nat} {call : Call} {s s' : Store} (h : Swept grace s)
    (hg : Guar (collectTerms grace) t call s s') (hcall : (collectTerms grace).call call) :
    Swept grace s' := by
  obtain ⟨hgrows, hmove⟩ := hg
  cases hmove with
  | calm hv hdel hd _ => exact h.grows hgrows hv hd hdel
  | commit prepare schema batch uuid now mode asked prepared stored first allowed admitted result =>
      subst result
      exact h.push hgrows rfl (allowed admitted)
  | install handle buildIndex base read m records shards now mode asked based later known documents
      built distinct same first allowed admitted result =>
      subst result
      exact h.push hgrows rfl (allowed admitted)
  | delete handle period loaded version s₀ name put asked past known allowed unreferenced stored old
      result =>
      subst result
      rw [asked] at hcall
      obtain ⟨hperiod, hmax⟩ := hcall
      rw [fromStd, if_pos hmax] at old
      have hold : put.time + grace ≤ s₀.clock := by omega
      refine ⟨h.toPrompt.grows hgrows rfl rfl, hgrows.sound h.sound, fun other hother => ?_⟩
      rcases List.mem_append.mp hother with hother | hother
      · obtain ⟨haged, hnot⟩ := h.swept other hother
        exact ⟨hgrows.aged haged, hnot⟩
      obtain rfl := List.mem_singleton.mp hother
      refine ⟨⟨put, stored, hold.trans past.clock⟩, fun hmem => ?_⟩
      -- referenced when the clock was read, so referenced by what was loaded, or young
      have hbefore := h.toPrompt.referenced_before past hmem stored hold
      have hdropped : s₀.dropped = 0 := Nat.le_zero.mp (past.dropped.trans_eq h.dropped)
      obtain ⟨put', hput', hlt⟩ := allowed other (by
        rwa [Store.manifest, hdropped, List.drop_zero]) unreferenced
      obtain rfl := Option.some.inj (stored.symm.trans (past.written hput'))
      omega
  | drop handle asked =>
      rw [asked] at hcall
      exact hcall.elim
  | list handle _ asked =>
      rw [asked] at hcall
      exact hcall.elim
  | wipe handle _ asked =>
      rw [asked] at hcall
      exact hcall.elim

theorem Reaches.swept (h : Reaches (collectTerms grace) p) : Swept grace p.shared := by
  refine h.store_invariant ⟨⟨rfl, fun _ _ h => nomatch h⟩, ⟨nofun, Nat.le_refl _⟩, List.forall_mem_nil _⟩
    (fun t call s s' hcall hg hs => hs.move hg hcall) fun s nanos hs => ?_
  exact hs.grows (tick_rely rfl 0) rfl rfl rfl

/-- **Collecting deletes nothing that is referenced**, then or later, in any timed interleaving, if what
was committed since a collection loaded the manifest is young when it reads the clock. -/
theorem Reaches.spared (h : Reaches (collectTerms grace) p) : Spared p.shared := fun name hname =>
  (h.swept.swept name hname).2

end Runs

instance (grace : Nat) : (call : Call) → Decidable ((promptTerms grace).call call)
  | .gc _ period => inferInstanceAs (Decidable (grace ≤ period))
  | .destroy _ => isFalse id
  | .commitRecords _ _ _ | .commitBatch _ _ | .compact _ _ | .query _ _ => isTrue trivial

instance (grace t : Nat) (s : Store) : (r : Request) → Decidable ((promptTerms grace).op t s r)
  | .putManifest m mode _ =>
    inferInstanceAs (Decidable (s.admits mode = true → s.Fresh grace s.manifest m))
  | .getManifest | .putNew _ _ | .get _ | .delete _ | .list _ | .next _ | .deleteManifest | .listAll
  | .nextAny | .now _ | .view _ | .remember _ _ _ | .forget _ | .choose => isTrue trivial

instance (grace : Nat) (s : Store) (nanos : Nat) : Decidable ((promptTerms grace).env s nanos) :=
  isTrue trivial

instance (grace : Nat) : (call : Call) → Decidable ((collectTerms grace).call call)
  | .gc _ period => inferInstanceAs (Decidable (grace ≤ period ∧ period ≤ durationMax))
  | .destroy _ => isFalse id
  | .commitRecords _ _ _ | .commitBatch _ _ | .compact _ _ | .query _ _ => isTrue trivial

instance (grace t : Nat) (s : Store) : (r : Request) → Decidable ((collectTerms grace).op t s r)
  | .putManifest m mode _ =>
    inferInstanceAs (Decidable (s.admits mode = true → s.Fresh grace s.manifest m))
  | .now (.cutoff loaded) => inferInstanceAs (Decidable (s.Fresh grace loaded s.manifest))
  | .now .stamp | .getManifest | .putNew _ _ | .get _ | .delete _ | .list _ | .next _ | .deleteManifest
  | .listAll | .nextAny | .view _ | .remember _ _ _ | .forget _ | .choose => isTrue trivial

instance (grace : Nat) (s : Store) (nanos : Nat) : Decidable ((collectTerms grace).env s nanos) :=
  isTrue trivial

/-- A thread goes through the listings of a collection. -/
def listings (t : Nat) (wal data : List ObjectName) : List Act :=
  .run t (.count wal.length) :: wal.map (fun name => .run t (.entry name)) ++
    .run t (.count data.length) :: data.map fun name => .run t (.entry name)

/-- What a compaction has folded is collected while another document is being written. -/
def sweptRun : List Act :=
  .spawn (.commitRecords 0 [.upsert (.bare 1)] {}) :: goes 0 6 ++ .spawn (.compact 0 false) :: goes 1 11 ++
    .env 200 :: .spawn (.commitRecords 0 [.upsert (.bare 2)] {}) :: goes 2 3 ++
    .spawn (.gc 1 100) :: goes 3 3 ++
    listings 3 [.wal ⟨0, 0⟩, .wal ⟨1, 2⟩] [.data ⟨1, .bin⟩] ++ goes 2 2 ++ goes 3 1

theorem sweptRun_spared :
    let _ := Crates.inert
    let _ := HashOrder.sorted
    ∃ p, execute service.step ⟨{}, []⟩ sweptRun = some p ∧ p.shared.deleted = [.wal ⟨0, 0⟩] ∧
      p.shared.manifest.referenced = [.wal ⟨1, 2⟩, .data ⟨1, .bin⟩] ∧ Spared p.shared := by
  intro _ _
  have hrun : (execute service.step ⟨{}, []⟩ sweptRun).any (fun p =>
      p.shared.deleted = [.wal ⟨0, 0⟩] ∧
      p.shared.manifest.referenced = [.wal ⟨1, 2⟩, .data ⟨1, .bin⟩]) = true := by decide +kernel
  obtain ⟨p, hp, hcheck⟩ := (Option.any_eq_true _ _).mp hrun
  obtain ⟨hdeleted, hreferenced⟩ := of_decide_eq_true hcheck
  have hallowed : Allowed service.step (fun p a => (collectTerms 100).Meets p a) ⟨{}, []⟩ sweptRun := by
    decide +kernel
  exact ⟨p, hp, hdeleted, hreferenced, Reaches.spared (Reachable.init.execute hallowed hp)⟩

/-! ## What is deleted although it is referenced -/

/-- A commit that has put its WAL object creates the manifest once a collection has loaded it; the
collection reads the clock when the object is as old as the grace period. -/
def slowRun : List Act :=
  .spawn (.commitRecords 0 [.upsert (.bare 1)] {}) :: goes 0 4 ++ .spawn (.gc 1 100) :: goes 1 1 ++
    goes 0 2 ++ .env 100 :: goes 1 1 ++ listings 1 [.wal ⟨0, 0⟩] [] ++ goes 1 1

/-- The grace period is too long for a `chrono::Duration`: a collection deletes what a commit has just put
and then references. -/
def overlongRun : List Act :=
  .spawn (.commitRecords 0 [.upsert (.bare 1)] {}) :: goes 0 4 ++
    .spawn (.gc 1 (durationMax + 1)) :: goes 1 2 ++ listings 1 [.wal ⟨0, 0⟩] [] ++ goes 0 2 ++ goes 1 1

/-- **A referenced object is deleted**: by a slow collection, and by one with an overlong grace period. -/
theorem unspared :
    let _ := Crates.inert
    let _ := HashOrder.sorted
    (¬ ∀ p, Reaches (promptTerms 100) p → Spared p.shared) ∧
      ¬ ∀ p, Reaches (promptTerms (durationMax + 1)) p → Spared p.shared := by
  intro _ _
  have key {grace : Nat} {run : List Act}
      (hrun : (execute service.step ⟨{}, []⟩ run).any (fun p => ¬ Spared p.shared) = true)
      (hallowed : Allowed service.step (fun p a => (promptTerms grace).Meets p a) ⟨{}, []⟩ run) :
      ¬ ∀ p, Reaches (promptTerms grace) p → Spared p.shared := by
    intro h
    obtain ⟨p, hp, hdeleted⟩ := (Option.any_eq_true _ _).mp hrun
    exact of_decide_eq_true hdeleted (h p (Reachable.init.execute hallowed hp))
  exact ⟨@key 100 slowRun (by decide +kernel) (by decide +kernel),
    @key (durationMax + 1) overlongRun (by decide +kernel) (by decide +kernel)⟩

end Fckdb
