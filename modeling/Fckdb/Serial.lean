import Fckdb.Alone

/-! # One thread at a time

A thread that runs alone, on a store that fails no request, ends in one state with one result (`Runs`).
A handle that is not behind (`Settled`) lets it read without changing anything, and a commit appends
its batch at the first attempt (`Runs.commitLoop`). -/

namespace Fckdb

/-- Answer a request of a thread that is alone. -/
def Store.serve (t : Nat) (s : Store) (r : Request) : Option (Store × r.Answer) := s.exec t r r.choice

/-- A program that a thread runs alone: where it starts, where it ends, and with what. -/
def Runs {α : Type} (t : Nat) (p : StoreProg α) (s s' : Store) (a : α) : Prop :=
  Prog.run (Store.serve t) p s = some (s', a)

namespace Runs

variable {α β ε : Type} {t : Nat} {s s' s'' : Store}

/-- A run ends in one way. -/
theorem unique {p : StoreProg α} {a a' : α} (h : Runs t p s s' a) (h' : Runs t p s s'' a') :
    s' = s'' ∧ a = a' :=
  Prod.mk.inj (Option.some.inj (h.symm.trans h'))

theorem done (a : α) : Runs t (Prog.done a) s s a := rfl

theorem bind {p : StoreProg α} {f : α → StoreProg β} {a : α} {b : β} (h : Runs t p s s' a)
    (hf : Runs t (f a) s' s'' b) : Runs t (p.bind f) s s'' b := by
  refine (Prog.run_bind p f s).trans ?_
  rw [show Prog.run (Store.serve t) p s = some (s', a) from h]
  exact hf

theorem of_bind {p : StoreProg α} {f : α → StoreProg β} {b : β} (h : Runs t (p.bind f) s s'' b) :
    ∃ s' a, Runs t p s s' a ∧ Runs t (f a) s' s'' b := by
  obtain ⟨⟨s', a⟩, hp, hf⟩ := Option.bind_eq_some_iff.mp ((Prog.run_bind p f s).symm.trans h)
  exact ⟨s', a, hp, hf⟩

/-- The `?` operator on a part that succeeds. -/
theorem seq {p : StoreProg (Except ε α)} {f : α → StoreProg (Except ε β)} {a : α} {r : Except ε β}
    (h : Runs t p s s' (.ok a)) (hf : Runs t (f a) s' s'' r) : Runs t (p.tryBind f) s s'' r :=
  bind h hf

/-- The `?` operator on a part that fails. -/
theorem seq_error {p : StoreProg (Except ε α)} {f : α → StoreProg (Except ε β)} {e : ε}
    (h : Runs t p s s' (.error e)) : Runs t (p.tryBind f) s s' (.error e) :=
  bind h (done _)

/-- What succeeds with the `?` operator succeeds in both parts. -/
theorem of_seq {p : StoreProg (Except ε α)} {f : α → StoreProg (Except ε β)} {b : β}
    (h : Runs t (p.tryBind f) s s'' (.ok b)) :
    ∃ s' a, Runs t p s s' (.ok a) ∧ Runs t (f a) s' s'' (.ok b) := by
  obtain ⟨s', r, hp, hf⟩ := of_bind h
  cases r with
  | ok a => exact ⟨s', a, hp, hf⟩
  | error e => cases (unique hf (done _)).2

/-- A part that only reads objects. -/
theorem of_gives {p : Proc α} {r : Except Error α} (h : s.Gives p r) : Runs t p s s r := by
  refine Prog.run_of_eval (fun op x hx => ?_) h
  cases op with
  | get name =>
      cases hx
      show s.exec t (.get name) .go = _
      rw [Store.exec]
      cases s.object name with
      | none => rfl
      | some p => rfl
  | choose =>
      cases hx
      rfl
  | _ => cases hx

end Runs

/-! ## Settled handles -/

/-- The store after a handle has fetched the commit point. -/
def Store.loaded (s : Store) (handle : Nat) : Store :=
  match s.current with
  | some (m, v) => s.setHandle handle (some ⟨m, some v, s.clock⟩)
  | none => s

/-- The handle remembers the commit point, as of now. -/
structure Settled (handle : Nat) (s : Store) : Prop where
  loaded : s.loaded handle = s
  absent : s.current = none → s.handles handle = none

/-- A handle that fetches the commit point is settled, unless it remembers a namespace that is gone. -/
theorem Settled.of_loaded {handle : Nat} {s : Store} (h : s.current = none → s.handles handle = none) :
    Settled handle (s.loaded handle) := by
  cases hcurrent : s.current with
  | none =>
      have hs : s.loaded handle = s := by rw [Store.loaded, hcurrent]
      rw [hs]
      exact ⟨hs, h⟩
  | some x =>
      have hs : s.loaded handle = s.setHandle handle (some ⟨x.1, some x.2, s.clock⟩) := by
        rw [Store.loaded, hcurrent]
      rw [hs]
      refine ⟨?_, fun hnone => nomatch hcurrent.symm.trans hnone⟩
      have hcurrent' : (s.setHandle handle (some ⟨x.1, some x.2, s.clock⟩)).current = some x := hcurrent
      rw [Store.loaded, hcurrent']
      simp only [Store.setHandle, Store.mk.injEq, true_and]
      constructor
      · funext h
        split_ifs <;> rfl
      · funext h
        split_ifs with heq
        · exact max_eq_left (le_max_right _ _)
        · rfl

@[simp] theorem Store.loaded_current (s : Store) (handle : Nat) : (s.loaded handle).current = s.current := by
  rw [loaded]
  split <;> rfl

@[simp] theorem Store.loaded_manifest (s : Store) (handle : Nat) :
    (s.loaded handle).manifest = s.manifest := by
  rw [loaded]
  split <;> rfl

theorem Carries.loaded {l : Ledger} {s : Store} (h : Carries l s) (handle : Nat) :
    Carries l (s.loaded handle) := by
  rw [Store.loaded]
  split
  · exact ⟨h.schema, h.reads, h.kept, h.old, h.dropped⟩
  · exact h

namespace Runs

variable {t handle : Nat} {s : Store}

/-- `load`. -/
theorem load : Runs t (Fckdb.load handle) s (s.loaded handle) (.ok s.base) := by
  have hget : Runs t getManifest s s (.ok s.current) := rfl
  refine seq hget ?_
  cases hcurrent : s.current with
  | none =>
      rw [Store.loaded, hcurrent, Store.base, hcurrent, (Store.current_eq_none hcurrent).1]
      exact done _
  | some x =>
      rw [Store.loaded, hcurrent, Store.base, hcurrent, ← (Store.current_eq_some hcurrent).1]
      have hremember : Runs t (remember handle x.1 (some x.2)) s
          (s.setHandle handle (some ⟨x.1, some x.2, s.clock⟩)) (.ok ()) := rfl
      exact seq hremember (done _)

theorem load_settled (h : Settled handle s) : Runs t (Fckdb.load handle) s s (.ok s.base) := by
  have hload : Runs t (Fckdb.load handle) s (s.loaded handle) (.ok s.base) := load
  rwa [h.loaded] at hload

/-- `all_records`. -/
theorem allRecords (h : Settled handle s) {l : Ledger} (hl : Carries l s) :
    Runs t (Fckdb.allRecords handle) s s (.ok (s.base.2, l.log)) := by
  refine seq (load_settled h) (seq (of_gives (Store.Gives.readRecordsParallel hl.reads hl.kept)) ?_)
  exact done _

end Runs

/-! ## Commits -/

/-- The manifest with a batch. -/
def Store.pushed (s : Store) (schema : Schema) (batch : List Record) : Manifest :=
  s.manifest.push schema ⟨s.manifest.nextSeq, s.puts.length⟩ batch s.clock

/-- The store after the object of a batch was written. -/
def Store.wrote (s : Store) (t : Nat) (batch : List Record) : Store :=
  { s with puts := s.puts ++ [⟨.wal ⟨s.manifest.nextSeq, s.puts.length⟩, .records batch, t, s.clock⟩] }

/-- The version that a thread writes for a batch. -/
def Store.version (s : Store) (t : Nat) (schema : Schema) (batch : List Record) : Version :=
  ⟨s.pushed schema batch, t, .commit batch, s.clock⟩

/-- The store after a thread that is alone has committed a batch. -/
def Store.committed (s : Store) (t handle : Nat) (schema : Schema) (batch : List Record) : Store :=
  ((s.wrote t batch).push (s.version t schema batch)).setHandle handle
    (some ⟨s.pushed schema batch, some s.versions.length, s.clock⟩)

section Committed

variable {t handle : Nat} {s : Store} {schema : Schema} {batch : List Record} {l : Ledger}

theorem Store.committed_current (h : s.dropped ≤ s.versions.length) :
    (s.committed t handle schema batch).current = some (s.pushed schema batch, s.versions.length) :=
  Store.current_push (s := s.wrote t batch) h (s.version t schema batch)

theorem Store.committed_manifest (h : s.dropped ≤ s.versions.length) :
    (s.committed t handle schema batch).manifest = s.pushed schema batch :=
  (Store.current_eq_some (Store.committed_current h)).1.symm

/-- After a commit the records are those before with the batch. -/
theorem Carries.committed (h : Carries l s) :
    Carries ⟨schema, l.log ++ batch⟩ (s.committed t handle schema batch) := by
  have hwritten : (s.wrote t batch).written (.wal ⟨s.manifest.nextSeq, s.puts.length⟩) =
      some ⟨.wal ⟨s.manifest.nextSeq, s.puts.length⟩, .records batch, t, s.clock⟩ := by
    rw [Store.written, ObjectName.uuid, Store.wrote, List.getElem?_concat_length]
    exact Option.filter_eq_some_iff.mpr ⟨rfl, decide_eq_true rfl⟩
  have hput : Carries l (s.wrote t batch) := h.put _
  have hpush : Carries ⟨schema, l.log ++ batch⟩ ((s.wrote t batch).push (s.version t schema batch)) :=
    hput.push ⟨_, hwritten, rfl⟩ (fun hdel => Nat.lt_irrefl _ (h.old _ hdel)) s.clock
  exact ⟨hpush.schema, hpush.reads, hpush.kept, hpush.old, hpush.dropped⟩

/-- After a commit the handle is settled. -/
theorem Settled.committed (h : s.dropped ≤ s.versions.length) :
    Settled handle (s.committed t handle schema batch) := by
  have hcurrent : (s.committed t handle schema batch).current =
      some (s.pushed schema batch, s.versions.length) := Store.committed_current h
  refine ⟨?_, fun hnone => nomatch hcurrent.symm.trans hnone⟩
  rw [Store.loaded, hcurrent, Store.committed]
  simp only [Store.setHandle, Store.push, Store.mk.injEq, true_and]
  constructor
  · funext h
    split_ifs <;> rfl
  · funext h
    split_ifs with heq
    · exact max_eq_left (le_max_right _ _)
    · rfl

end Committed

namespace Runs

variable {t handle : Nat} {s : Store} {prepare : Manifest → Except Error (Schema × List Record)}

/-- A commit starts from the current manifest. -/
theorem commitBase (h : Settled handle s) :
    Runs t (Fckdb.commitBase handle true) s s (.ok s.base) := by
  have hview : Runs t (viewHandle handle) s s (.ok (s.handles handle, s.clock)) := rfl
  cases hcurrent : s.current with
  | none =>
      have hguess : Runs t (commitGuess handle true) s s (.ok none) := by
        refine seq hview ?_
        rw [h.absent hcurrent]
        exact done _
      exact seq hguess (load_settled h)
  | some x =>
      have hsnap : s.handles handle = some ⟨x.1, some x.2, s.clock⟩ := by
        have hloaded : (s.loaded handle).handles handle = some ⟨x.1, some x.2, s.clock⟩ := by
          rw [Store.loaded, hcurrent]
          exact if_pos rfl
        rwa [h.loaded] at hloaded
      have hguess : Runs t (commitGuess handle true) s s (.ok (some s.base)) := by
        refine seq hview ?_
        rw [hsnap, Store.base, hcurrent, ← (Store.current_eq_some hcurrent).1]
        exact done _
      exact seq hguess (done _)

/-- **A commit that is accepted** appends its batch. -/
theorem commitLoop (h : Settled handle s) {schema : Schema} {batch : List Record}
    (hp : prepare s.manifest = .ok (schema, batch)) :
    Runs t (Fckdb.commitLoop handle prepare maxCasAttempts 1 true) s
      (s.committed t handle schema batch) (.ok (s.manifest.nextSeq, 1)) := by
  have hattempt : Runs t (commitAttempt handle prepare true) s (s.committed t handle schema batch)
      (.ok (some s.manifest.nextSeq)) := by
    have hadmits : s.admits (modeOf s.base.2) = true := by
      rw [Store.base]
      cases hcurrent : s.current with
      | none => exact (Store.current_eq_none hcurrent).2
      | some x => exact (Store.current_eq_some hcurrent).2
    refine seq (commitBase h) ?_
    have hprepare : Runs t (Proc.ofExcept (prepare s.manifest)) s s (.ok (schema, batch)) := by
      rw [hp]
      exact done _
    refine seq hprepare ?_
    have hput : Runs t (putNew (fun u => .wal ⟨s.manifest.nextSeq, u⟩) (.records batch)) s
        (s.wrote t batch) (.ok s.puts.length) := rfl
    refine seq hput ?_
    have hnow : Runs t (now .stamp) (s.wrote t batch) (s.wrote t batch) (.ok s.clock) := rfl
    refine seq hnow ?_
    have hmanifest : Runs t (putManifest (s.pushed schema batch) (modeOf s.base.2) (.commit batch))
        (s.wrote t batch) ((s.wrote t batch).push (s.version t schema batch))
        (.ok (some s.versions.length)) :=
      Option.bind_eq_some_iff.mpr ⟨_, if_pos hadmits, rfl⟩
    have hremember : Runs t (remember handle (s.pushed schema batch) (some s.versions.length))
        ((s.wrote t batch).push (s.version t schema batch)) (s.committed t handle schema batch)
        (.ok ()) := rfl
    exact seq hmanifest (seq hremember (done _))
  exact seq hattempt (done _)

/-- **A commit that is refused** changes nothing. -/
theorem commitLoop_error (h : Settled handle s) {e : Error} (hp : prepare s.manifest = .error e) :
    Runs t (Fckdb.commitLoop handle prepare maxCasAttempts 1 true) s s (.error e) := by
  have hattempt : Runs t (commitAttempt handle prepare true) s s (.error e) := by
    refine seq (commitBase h) (seq_error ?_)
    show Runs t (Proc.ofExcept (prepare s.manifest)) s s (.error e)
    rw [hp]
    exact done _
  exact seq_error hattempt

end Runs

end Fckdb
