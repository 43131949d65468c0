import Fckdb.References

/-! # Destroying a namespace that is being written

A destroy deletes what its listing turned up, whether or not a manifest references it by then. If no
listed object is referenced, the manifest stays whole (`Reaches.intact`). But a commit can create the
manifest after its WAL object was listed (`undermined_not_intact`). -/

namespace Fckdb

/-! ## Whole namespaces -/

/-- A compaction that started from a manifest with this entry has installed its shards since the manifest
was last deleted. -/
def Store.Folded (s : Store) (e : WalEntry) : Prop :=
  ∃ v ∈ s.versions.drop s.dropped, ∃ base read m, v.reason = .compaction base read ∧ s.At m base ∧
    e.name ∈ m.wal.map (·.name)

/-- **Nothing dangles**: there is no manifest, or all it references is there. So a full read succeeds, and
it finds every commit since the manifest was last deleted that no compaction has folded. -/
structure Intact (s : Store) : Prop where
  objects : s.current = none ∨ ∀ name ∈ s.manifest.referenced, (s.object name).isSome
  readable : ∀ handle, ∃ version rs, s.Yields (allRecords handle) (.ok (version, rs)) ∧
    ∀ c ∈ logOf (s.versions.drop s.dropped), c.batch ⊆ rs ∨ s.Folded c.entry

section Intact

variable [Crates] [HashOrder]

/-! ## What a step does to the manifest -/

omit [Crates] [HashOrder] in
/-- A request writes a manifest, deletes it, lists an object, or leaves all this alone. -/
theorem Store.exec_cases {t : Nat} {s s' : Store} {r : Request} {c : Choice} {x : r.Answer}
    (h : s.exec t r c = some (s', x)) :
    (s'.versions = s.versions ∧ s'.dropped = s.dropped ∧ s'.listed = s.listed) ∨
    (∃ m mode reason, r = .putManifest m mode reason ∧ s.admits mode = true ∧
      s' = s.push ⟨m, t, reason, s.clock⟩) ∨
    (r = .deleteManifest ∧ s' = { s with dropped := s.versions.length }) ∨
    ∃ name, r = .nextAny ∧ c = .entry name ∧ s' = { s with listed := s.listed ++ [name] } := by
  cases r with
  | putManifest m mode reason =>
      cases c with
      | go =>
          rw [exec.eq_def] at h
          dsimp only at h
          split_ifs at h with hadm
          · cases h
            exact .inr (.inl ⟨m, mode, reason, rfl, hadm, rfl⟩)
          · cases h
            exact .inl ⟨rfl, rfl, rfl⟩
      | _ => cases h <;> exact .inl ⟨rfl, rfl, rfl⟩
  | deleteManifest =>
      cases c with
      | go =>
          cases h
          exact .inr (.inr (.inl ⟨rfl, rfl⟩))
      | _ => cases h <;> exact .inl ⟨rfl, rfl, rfl⟩
  | nextAny =>
      cases c with
      | entry name =>
          rw [exec.eq_def] at h
          dsimp only at h
          split_ifs at h
          cases h
          exact .inr (.inr (.inr ⟨name, rfl, rfl, rfl⟩))
      | manifestEntry =>
          rw [exec.eq_def] at h
          dsimp only at h
          split_ifs at h
          cases h
          exact .inl ⟨rfl, rfl, rfl⟩
      | _ => cases h <;> exact .inl ⟨rfl, rfl, rfl⟩
  | get name =>
      refine .inl ?_
      cases c with
      | go =>
          rw [exec.eq_def] at h
          dsimp only at h
          split at h <;> cases h <;> exact ⟨rfl, rfl, rfl⟩
      | _ => cases h <;> exact ⟨rfl, rfl, rfl⟩
  | next sub =>
      refine .inl ?_
      cases c with
      | entry name =>
          rw [exec.eq_def] at h
          dsimp only at h
          split at h
          · split_ifs at h
            cases h
            exact ⟨rfl, rfl, rfl⟩
          · cases h
      | _ => cases h <;> exact ⟨rfl, rfl, rfl⟩
  | _ => cases c <;> cases h <;> exact .inl ⟨rfl, rfl, rfl⟩

/-! ## Runs -/

/-- Runs without collections in which no manifest is written that references an object which a destroy has
listed. -/
def destroyTerms : Terms where
  call
    | .gc _ _ => False
    | _ => True
  op
    | _, s, .putManifest m mode _ => s.admits mode = true → ∀ name ∈ m.referenced, name ∉ s.listed
    | _, _, _ => True
  env _ _ := True

omit [Crates] [HashOrder] in
/-- The thread is at a listing of the whole namespace. -/
def Namespace.lists (p : Namespace) (t : Nat) : Bool :=
  match p.threads[t]? with
  | some ⟨_, .ask .nextAny _⟩ => true
  | _ => false

omit [Crates] [HashOrder] in
/-- A listing turns up no object that the current manifest references. -/
def Namespace.ListsLoose (p : Namespace) : Act → Prop
  | .run t (.entry name) => Namespace.lists p t = true → name ∉ p.shared.manifest.referenced
  | _ => True

/-- The states reached by such runs. -/
abbrev ReachesLoose (p : Namespace) : Prop :=
  Reachable service.step (fun (p : Namespace) a => destroyTerms.Meets p a ∧ Namespace.ListsLoose p a) ⟨{}, []⟩ p

variable {p : Namespace}

theorem ReachesLoose.reaches (h : ReachesLoose p) : Reaches destroyTerms p :=
  h.mono fun _ _ hok => hok.1

/-- **No listed object is referenced.** -/
theorem ReachesLoose.loose (h : ReachesLoose p) :
    ∀ name ∈ p.shared.manifest.referenced, name ∉ p.shared.listed := by
  refine h.invariant (I := fun p => ∀ name ∈ p.shared.manifest.referenced, name ∉ p.shared.listed)
    (List.forall_mem_nil _) fun p a p' hp hI hok hs => ?_
  have hsound : p.shared.Sound := Reaches.sound (ReachesLoose.reaches hp)
  cases a with
  | spawn call =>
      obtain rfl := Option.some.inj hs
      exact hI
  | env nanos =>
      obtain rfl := Option.some.inj hs
      exact hI
  | run t c =>
      obtain ⟨th, op, next, s', x, hth, hprog, hx, rfl⟩ := service.step_run_cases hs
      have hop := hok.1 th op next hth hprog
      rcases Store.exec_cases hx with ⟨hv, hd, hl⟩ | ⟨m, mode, reason, rfl, hadm, rfl⟩ | ⟨-, rfl⟩ |
        ⟨name, rfl, rfl, rfl⟩
      · dsimp only
        rwa [hl, Store.manifest, hv, hd]
      · dsimp only
        rw [Store.push_manifest hsound.dropped]
        exact hop hadm
      · -- nothing is referenced without a manifest
        dsimp only
        rw [Store.manifest, List.drop_length]
        exact List.forall_mem_nil _
      · intro other hother hmem
        rcases List.mem_append.mp hmem with hmem | hmem
        · exact hI other hother hmem
        · obtain rfl := List.mem_singleton.mp hmem
          refine hok.2 ?_ hother
          obtain ⟨call, prog⟩ := th
          obtain rfl : prog = _ := hprog
          rw [Namespace.lists, hth]

/-- Without collections only listed objects are deleted. -/
theorem Reaches.deleted_listed (h : Reaches destroyTerms p) : p.shared.deleted ⊆ p.shared.listed := by
  refine h.store_invariant (J := fun s => s.deleted ⊆ s.listed) (fun _ h => h)
    (fun t call s s' hcall hg hs => ?_) fun s nanos hs => hs
  cases hg.2 with
  | calm _ hdel _ hlist => rwa [hdel, hlist]
  | commit _ _ _ _ _ _ _ _ _ _ _ _ result =>
      subst result
      exact hs
  | install _ _ _ _ _ _ _ _ _ _ _ _ _ _ _ _ _ _ _ _ result =>
      subst result
      exact hs
  | delete _ _ _ _ _ _ _ asked =>
      rw [asked] at hcall
      exact hcall.elim
  | drop _ _ _ result =>
      subst result
      exact hs
  | list _ name _ _ _ result =>
      subst result
      exact List.subset_append_of_subset_left _ hs
  | wipe _ name _ listed result =>
      subst result
      exact List.append_subset.mpr ⟨hs, List.cons_subset.mpr ⟨listed, List.nil_subset _⟩⟩

/-! ## Commits that can be read -/

/-- Each commit since the manifest was last deleted is in the WAL, or folded. -/
def Kept (s : Store) : Prop :=
  ∀ c ∈ logOf (s.versions.drop s.dropped), c.entry ∈ s.manifest.wal ∨ s.Folded c.entry

omit [Crates] [HashOrder] in
/-- One more version folds no less. -/
theorem Store.Folded.push {s : Store} {e : WalEntry} (h : s.Folded e) (hd : s.dropped ≤ s.versions.length)
    {who : Nat → Prop} {v : Version} (hg : Grows who s (s.push v)) : (s.push v).Folded e := by
  obtain ⟨v', hv', base, read, m, hreason, hat, hname⟩ := h
  refine ⟨v', ?_, base, read, m, hreason, hg.keeps_at hat, hname⟩
  rw [Store.push, List.drop_append_of_le_length hd]
  exact List.mem_append_left _ hv'

omit [Crates] [HashOrder] in
/-- A step that writes no manifest and deletes none. -/
theorem Kept.grows {s s' : Store} (h : Kept s) {who : Nat → Prop} (hg : Grows who s s')
    (hv : s'.versions = s.versions) (hd : s'.dropped = s.dropped) : Kept s' := by
  intro c hc
  rw [hv, hd] at hc
  rcases h c hc with hw | ⟨v, hv', base, read, m, hreason, hat, hname⟩
  · rw [Store.manifest, hv, hd]
    exact .inl hw
  · exact .inr ⟨v, by rwa [hv, hd], base, read, m, hreason, hg.keeps_at hat, hname⟩

omit [HashOrder] in
/-- **A move keeps the commits**: a compaction folds the entries it removes. -/
theorem Kept.move {ok : Terms} {t : Nat} {call : Call} {s s' : Store} (hs : s.Sound) (h : Kept s)
    (hg : Guar ok t call s s') : Kept s' := by
  obtain ⟨hgrows, hmove⟩ := hg
  have hdrop {v : Version} : (s.push v).versions.drop (s.push v).dropped =
      s.versions.drop s.dropped ++ [v] := List.drop_append_of_le_length hs.dropped
  cases hmove with
  | calm hv hdel hd _ => exact h.grows hgrows hv hd
  | commit prepare schema batch uuid now mode asked prepared stored first allowed admitted result =>
      subst result
      intro c hc
      rw [hdrop, logOf_append] at hc
      rw [Store.push_manifest hs.dropped, Manifest.push_wal]
      rcases List.mem_append.mp hc with hc | hc
      · exact (h c hc).imp (fun hw => List.mem_append_left _ hw) fun hf => hf.push hs.dropped hgrows
      · rw [logOf, List.filterMap_cons, Version.commit?, Manifest.push_wal, List.getLast?_concat] at hc
        obtain rfl := List.mem_singleton.mp hc
        exact .inl (List.mem_append_right _ (List.mem_singleton_self _))
  | install handle buildIndex base read m records shards now mode asked based later known documents
      built distinct same first allowed admitted result =>
      subst result
      intro c hc
      rw [hdrop, logOf_append] at hc
      have hc : c ∈ logOf (s.versions.drop s.dropped) := (List.mem_append.mp hc).resolve_right List.not_mem_nil
      rw [Store.push_manifest hs.dropped, Manifest.install_wal, List.mem_filter]
      rcases h c hc with hw | hf
      · by_cases hname : c.entry.name ∈ m.wal.map (·.name)
        · refine .inr ⟨⟨s.manifest.install (m.wal.map (·.name)) shards now, t, .compaction base read,
            s.clock⟩, ?_, base, read, m, rfl, hgrows.keeps_at based, hname⟩
          rw [hdrop]
          exact List.mem_append_right _ (List.mem_singleton_self _)
        · exact .inl ⟨hw, decide_eq_true hname⟩
      · exact .inr (hf.push hs.dropped hgrows)
  | delete _ _ _ _ _ _ _ _ _ _ _ _ _ _ result =>
      subst result
      exact h.grows hgrows rfl rfl
  | drop _ _ _ result =>
      subst result
      intro c hc
      rw [List.drop_length] at hc
      cases hc
  | list _ _ _ _ _ result =>
      subst result
      exact h.grows hgrows rfl rfl
  | wipe _ _ _ _ result =>
      subst result
      exact h.grows hgrows rfl rfl

theorem Reaches.kept {ok : Terms} (h : Reaches ok p) : Kept p.shared := by
  refine (h.store_invariant (J := fun s => s.Sound ∧ Kept s) ⟨⟨nofun, Nat.le_refl _⟩, nofun⟩
    (fun t call s s' _ hg hs => ?_) fun s nanos hs => ?_).2
  · exact ⟨hg.1.sound hs.1, hs.2.move hs.1 hg⟩
  · exact ⟨(tick_rely rfl 0).sound hs.1, hs.2.grows (tick_rely rfl 0) rfl rfl⟩

/-! ## The theorem -/

/-- **Destroying leaves no dangling manifest** in any interleaving with commits and compactions, if no
listed object is referenced, then or by a manifest written later. -/
theorem ReachesLoose.intact (h : ReachesLoose p) : Intact p.shared := by
  have hreach := h.reaches
  have hground := hreach.grounded
  have hthere : ∀ name ∈ p.shared.manifest.referenced, name ∉ p.shared.deleted := fun name hname hdel =>
    h.loose name hname (hreach.deleted_listed hdel)
  refine ⟨.inr fun name hname => ?_, fun handle => ?_⟩
  · obtain ⟨put, hput⟩ := hground.written name hname
    rw [Store.object, if_neg (hthere name hname), hput]
    rfl
  · obtain ⟨rs, hrs⟩ := hground.reads
    obtain ⟨version, hyields⟩ := Store.Yields.allRecords handle hrs fun name hname =>
      hthere name (Manifest.recordObjects_subset _ hname)
    refine ⟨version, rs, hyields, fun c hc => (hreach.kept c hc).imp_left fun hw => ?_⟩
    -- the entry is among the objects that were read
    have hstored := hreach.authored.stored c (((List.drop_sublist _ _).filterMap _).subset hc)
    have hmem : ObjectName.wal c.entry.name ∈ p.shared.manifest.recordObjects :=
      List.mem_append_right _ (List.mem_map_of_mem hw)
    exact hrs.subset hmem hstored

end Intact

instance : (call : Call) → Decidable (destroyTerms.call call)
  | .gc _ _ => isFalse id
  | .commitRecords _ _ _ | .commitBatch _ _ | .compact _ _ | .destroy _ | .query _ _ => isTrue trivial

instance (t : Nat) (s : Store) : (r : Request) → Decidable (destroyTerms.op t s r)
  | .putManifest m mode _ =>
    inferInstanceAs (Decidable (s.admits mode = true → ∀ name ∈ m.referenced, name ∉ s.listed))
  | .getManifest | .putNew _ _ | .get _ | .delete _ | .list _ | .next _ | .deleteManifest | .listAll
  | .nextAny | .now _ | .view _ | .remember _ _ _ | .forget _ | .choose => isTrue trivial

instance (s : Store) (nanos : Nat) : Decidable (destroyTerms.env s nanos) := isTrue trivial

instance (p : Namespace) : (a : Act) → Decidable (Namespace.ListsLoose p a)
  | .run t (.entry _) => inferInstanceAs (Decidable (Namespace.lists p t = true → _))
  | .run _ .go | .run _ (.fail _) | .run _ (.count _) | .run _ .manifestEntry | .run _ (.turn _)
  | .spawn _ | .env _ => isTrue trivial

/-- A namespace is destroyed, and written again before what was listed is deleted. -/
def rewrittenRun : List Act :=
  .spawn (.commitRecords 0 [.upsert (.bare 1)] {}) :: goes 0 6 ++
    .spawn (.destroy 1) :: goes 1 1 ++ [.run 1 (.count 1), .run 1 (.entry (.wal ⟨0, 0⟩))] ++
    .spawn (.commitRecords 2 [.upsert (.bare 2)] {}) :: goes 2 6 ++ goes 1 2

theorem rewrittenRun_intact :
    let _ := Crates.inert
    let _ := HashOrder.sorted
    ∃ p, execute service.step ⟨{}, []⟩ rewrittenRun = some p ∧ p.shared.deleted = [.wal ⟨0, 0⟩] ∧
      p.shared.manifest.referenced = [.wal ⟨0, 1⟩] ∧ Intact p.shared := by
  intro _ _
  have hrun : (execute service.step ⟨{}, []⟩ rewrittenRun).any (fun p =>
      p.shared.deleted = [.wal ⟨0, 0⟩] ∧ p.shared.manifest.referenced = [.wal ⟨0, 1⟩]) = true := by
    decide +kernel
  obtain ⟨p, hp, hcheck⟩ := (Option.any_eq_true _ _).mp hrun
  obtain ⟨hdeleted, hreferenced⟩ := of_decide_eq_true hcheck
  have hallowed : Allowed service.step (fun (p : Namespace) a => destroyTerms.Meets p a ∧
      Namespace.ListsLoose p a) ⟨{}, []⟩ rewrittenRun := by decide +kernel
  exact ⟨p, hp, hdeleted, hreferenced, ReachesLoose.intact (Reachable.init.execute hallowed hp)⟩

/-! ## A manifest that dangles -/

/-- A commit has put its WAL object; a destroy lists it and, once the commit has created the manifest,
deletes it. -/
def underminedRun : List Act :=
  .spawn (.commitRecords 0 [.upsert (.bare 1)] {}) :: goes 0 4 ++
    .spawn (.destroy 1) :: goes 1 1 ++ [.run 1 (.count 1), .run 1 (.entry (.wal ⟨0, 0⟩))] ++ goes 0 2 ++
    goes 1 2

/-- Runs of commits, compactions and destroys. -/
def writeTerms : Terms where
  call
    | .commitRecords _ _ _ | .compact _ _ | .destroy _ => True
    | _ => False
  op _ _ _ := True
  env _ _ := True

instance : (call : Call) → Decidable (writeTerms.call call)
  | .commitRecords _ _ _ | .compact _ _ | .destroy _ => isTrue trivial
  | .commitBatch _ _ | .gc _ _ | .query _ _ => isFalse id

instance (t : Nat) (s : Store) (r : Request) : Decidable (writeTerms.op t s r) := isTrue trivial

instance (s : Store) (nanos : Nat) : Decidable (writeTerms.env s nanos) := isTrue trivial

/-- All calls have returned. -/
def Namespace.AllReturned (p : Namespace) : Prop :=
  ∀ th ∈ p.threads, ∃ r, th.prog = .done r

/-- The commit and the destroy succeeded, and the manifest references an object that is gone. -/
def Namespace.undermined (p : Namespace) : Bool :=
  match p.threads with
  | [⟨_, .done (.committed (.ok _))⟩, ⟨_, .done (.destroyed (.ok _))⟩] =>
    p.shared.current.isSome && p.shared.manifest.referenced.any fun name => (p.shared.object name).isNone
  | _ => false

/-- **An acknowledged commit is lost**: the manifest references a WAL object that was deleted. -/
theorem undermined_not_intact :
    let _ := Crates.inert
    let _ := HashOrder.sorted
    ¬ ∀ p, Reaches writeTerms p → Namespace.AllReturned p → Intact p.shared := by
  intro _ _ h
  have hrun : (execute service.step ⟨{}, []⟩ underminedRun).any Namespace.undermined = true := by
    decide +kernel
  obtain ⟨p, hp, hlost⟩ := (Option.any_eq_true _ _).mp hrun
  have hallowed : Allowed service.step (fun p a => writeTerms.Meets p a) ⟨{}, []⟩ underminedRun := by
    decide +kernel
  have hreached : Reaches writeTerms p := Reachable.init.execute hallowed hp
  rw [Namespace.undermined] at hlost
  split at hlost
  · next hthreads =>
    have hreturned : Namespace.AllReturned p := by
      intro th hth
      rw [hthreads] at hth
      rcases List.mem_cons.mp hth with rfl | hth
      · exact ⟨_, rfl⟩
      · obtain rfl := List.mem_singleton.mp hth
        exact ⟨_, rfl⟩
    obtain ⟨hcurrent, hgone⟩ := (Bool.and_eq_true _ _).mp hlost
    obtain ⟨name, hname, hnone⟩ := List.any_eq_true.mp hgone
    rcases (h p hreached hreturned).objects with hnil | hall
    · rw [hnil] at hcurrent
      cases hcurrent
    · have hthere := hall name hname
      rw [Option.isNone_iff_eq_none.mp hnone] at hthere
      cases hthere
  · cases hlost

end Fckdb
