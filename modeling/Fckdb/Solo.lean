import Fckdb.References
import Fckdb.SchemaFrame

/-! # Commits without contention

What a commit does when nobody else is at work on the namespace and the store fails no request: it takes
the stored manifest, and either its batch is rejected, or it appends it at the first attempt
(`Solo.commitRecords`). `Ledger` is the same without a store. -/

namespace Fckdb

open Prog

/-! ## Ledgers -/

/-- A namespace as its writers see it: the schema and the records written. -/
structure Ledger where
  schema : Schema := {}
  log : List Record := []

namespace Ledger

variable [Crates]

/-- Commit records together: whether they are accepted. -/
def commit (l : Ledger) (records : List Record) : Ledger × Bool :=
  match l.schema.absorb records with
  | .ok (schema, batch) => (⟨schema, l.log ++ batch⟩, true)
  | .error _ => (l, false)

/-- Commit batches one after the other: the outcome of each record. -/
def commitAll (l : Ledger) : List (List Record) → Ledger × List Bool
  | [] => (l, [])
  | batch :: batches =>
    ((l.commit batch).1.commitAll batches |>.1,
      List.replicate batch.length (l.commit batch).2 ++ ((l.commit batch).1.commitAll batches).2)

/-- Commit each record alone. -/
def commitEach (l : Ledger) (records : List Record) : Ledger × List Bool :=
  l.commitAll (records.map fun r => [r])

end Ledger

/-- Without a configuration a write is just absorbed. -/
theorem prepareRecords_empty [Crates] {config : WriteConfig}
    (hmetric : config.metric = none) (htypes : config.declaredTypes = .empty)
    (hfts : config.declaredFts = .empty) (hshards : config.numShards = none)
    (hembed : config.declaredEmbed = .empty) (records : List Record) (m : Manifest) :
    prepareRecords records config m = m.schema.absorb records := by
  rw [prepareRecords, hmetric, htypes, hfts, hshards, hembed]
  rfl

/-! ## A quiet namespace -/

/-- Time passes. -/
def Later (s s' : Store) : Prop := ∃ nanos, s' = { s with clock := s.clock + nanos }

theorem Later.refl (s : Store) : Later s s := ⟨0, rfl⟩

theorem Later.trans {a b c : Store} (h : Later a b) (h' : Later b c) : Later a c := by
  obtain ⟨n, rfl⟩ := h
  obtain ⟨n', rfl⟩ := h'
  exact ⟨n + n', by simp [Nat.add_assoc]⟩

/-- The handle remembers the current manifest, or nothing. -/
def Fresh (handle : Nat) (s : Store) : Prop :=
  s.handles handle = none ∨ ∃ snap v, s.handles handle = some snap ∧ snap.version = some v ∧
    s.current = some (snap.manifest, v)

/-- The current manifest has the schema of the ledger, and its records, which are all there. -/
structure Carries (l : Ledger) (s : Store) : Prop where
  schema : s.manifest.schema = l.schema
  reads : s.Reads s.manifest.recordObjects l.log
  kept : ∀ name ∈ s.manifest.recordObjects, name ∉ s.deleted
  old : ∀ name ∈ s.deleted, name.uuid < s.puts.length
  dropped : s.dropped ≤ s.versions.length

/-- The namespace holds the ledger, and the handle is not behind. -/
structure Quiet (handle : Nat) (l : Ledger) (s : Store) : Prop where
  holds : Carries l s
  fresh : Fresh handle s

theorem Carries.later {l : Ledger} : Stable Later (Carries l) := by
  rintro s _ ⟨nanos, rfl⟩ h
  exact ⟨h.schema, h.reads, h.kept, h.old, h.dropped⟩

theorem Quiet.later {handle : Nat} {l : Ledger} : Stable Later (Quiet handle l) := by
  rintro s _ ⟨nanos, rfl⟩ h
  exact ⟨Carries.later s _ ⟨nanos, rfl⟩ h.holds, h.fresh⟩

theorem Store.current_eq_some {s : Store} {m : Manifest} {v : Nat} (h : s.current = some (m, v)) :
    m = s.manifest ∧ s.admits (.update v) = true := by
  rw [current] at h
  split_ifs at h with hdrop
  obtain ⟨last, hlast, heq⟩ := Option.map_eq_some_iff.mp h
  obtain ⟨rfl, rfl⟩ := Prod.mk.inj heq
  constructor
  · rw [manifest, lastManifest, List.getLast?_drop, if_neg (Nat.not_le.mpr hdrop), hlast]
    rfl
  · refine (Bool.and_eq_true _ _).mpr ⟨decide_eq_true hdrop, decide_eq_true ?_⟩
    omega

theorem Store.current_eq_none {s : Store} (h : s.current = none) :
    s.manifest = {} ∧ s.admits .create = true := by
  have hdrop : s.versions.length ≤ s.dropped := by
    by_contra hlt
    rw [current, if_pos (Nat.not_le.mp hlt), Option.map_eq_none_iff, List.getLast?_eq_none_iff] at h
    rw [h] at hlt
    exact hlt (Nat.zero_le _)
  refine ⟨?_, decide_eq_true hdrop⟩
  rw [manifest, List.drop_of_length_le hdrop, lastManifest_nil]

/-- The pushed manifest reads one more object. -/
theorem recordObjects_push (m : Manifest) (schema : Schema) (name : WalName) (batch : List Record)
    (now : Nat) :
    (m.push schema name batch now).recordObjects = m.recordObjects ++ [.wal name] := by
  rw [Manifest.recordObjects, Manifest.push_wal, List.map_append]
  exact (List.append_assoc _ _ _).symm

/-- A new object changes nothing. -/
theorem Carries.put {l : Ledger} {s : Store} (h : Carries l s) (put : Put) :
    Carries l { s with puts := s.puts ++ [put] } := by
  have hgrows : Grows (fun _ => False) s { s with puts := s.puts ++ [put] } :=
    Grows.of_eq rfl (List.prefix_append _ _) List.prefix_rfl (Nat.le_refl _) (le_max_left _ _)
      List.prefix_rfl (Nat.le_refl _) rfl rfl
  refine ⟨h.schema, hgrows.reads h.reads, h.kept, fun name hname => ?_, h.dropped⟩
  rw [List.length_append]
  exact (h.old name hname).trans (Nat.lt_succ_self _)

/-- A version that is pushed is current. -/
theorem Store.current_push {s : Store} (hdrop : s.dropped ≤ s.versions.length) (v : Version) :
    (s.push v).current = some (v.manifest, s.versions.length) := by
  have hlt : s.dropped < (s.versions ++ [v]).length := by
    rw [List.length_append]
    exact Nat.lt_succ_of_le hdrop
  rw [Store.current, Store.push, if_pos hlt, List.getLast?_concat, List.length_append]
  rfl

/-- **A version with one more batch** holds the records with the batch. -/
theorem Carries.push {l : Ledger} {s : Store} {batch : List Record} {uuid : Nat} (h : Carries l s)
    (hstored : s.HasRecords (.wal ⟨s.manifest.nextSeq, uuid⟩) batch)
    (hthere : .wal ⟨s.manifest.nextSeq, uuid⟩ ∉ s.deleted) {t : Nat} {schema : Schema} (stamp : Nat) :
    Carries ⟨schema, l.log ++ batch⟩ (s.push ⟨s.manifest.push schema ⟨s.manifest.nextSeq, uuid⟩ batch
      stamp, t, .commit batch, s.clock⟩) := by
  have hmanifest := Store.push_manifest h.dropped ⟨s.manifest.push schema ⟨s.manifest.nextSeq, uuid⟩
    batch stamp, t, .commit batch, s.clock⟩
  have hobjects := recordObjects_push s.manifest schema ⟨s.manifest.nextSeq, uuid⟩ batch stamp
  refine ⟨?_, ?_, fun name hname => ?_, h.old, ?_⟩
  · rw [hmanifest]
    rfl
  · rw [hmanifest, hobjects]
    exact h.reads.append hstored.reads
  · rw [hmanifest, hobjects] at hname
    rcases List.mem_append.mp hname with hname | hname
    · exact h.kept name hname
    · exact List.mem_singleton.mp hname ▸ hthere
  · rw [Store.push, List.length_append]
    exact h.dropped.trans (Nat.le_succ _)

/-! ## Triples -/

/-- A triple of a thread that is alone, with a store that fails no request. -/
abbrev Solo (t : Nat) {α : Type} (P : Store → Prop) (p : Proc α) (Q : α → Store → Prop)
    (E : Store → Prop) : Prop :=
  Triple (fun s r s' x => Store.exec t s r .go = some (s', x)) Later (fun _ _ => True) P p (Ends Q E)

namespace Solo

variable {t handle : Nat} {α β : Type} {P E : Store → Prop} {Q : α → Store → Prop}
  {Q' : β → Store → Prop} {l : Ledger}

theorem seq {p : Proc α} {f : α → Proc β} (h : Solo t P p Q E) (hf : ∀ a, Solo t (Q a) (f a) Q' E) :
    Solo t P (p.andThen f) Q' E :=
  Triple.tryBind .refl h hf fun _ _ h => h

theorem ret {a : α} (hP : Stable Later P) (h : ∀ s, P s → Q a s) : Solo t P (Proc.ret a) Q E :=
  Triple.done hP h

theorem ofExcept {r : Except Error α} (hP : Stable Later P) (h : ∀ a s, r = .ok a → P s → Q a s)
    (hE : ∀ e s, r = .error e → P s → E s) : Solo t P (Proc.ofExcept r) Q E := by
  cases r with
  | ok a => exact Triple.done hP (h a · rfl)
  | error e => exact Triple.done hP (hE e · rfl)

theorem conseq {p : Proc α} {P' E' : Store → Prop} {Q' : α → Store → Prop} (h : Solo t P p Q E)
    (hP : ∀ s, P' s → P s) (hQ : ∀ a s, Q a s → Q' a s) (hE : ∀ s, E s → E' s) :
    Solo t P' p Q' E' := by
  refine Triple.conseq h hP ?_
  rintro (e | a) s hs
  · exact hE s hs
  · exact hQ a s hs

theorem ends (hQ : ∀ a, Stable Later (Q a)) (hE : Stable Later E) : ∀ r, Stable Later (Ends Q E r)
  | .ok a => hQ a
  | .error _ => hE

/-- A part that cannot fail. -/
theorem ofProg {p : StoreProg α} (h : Triple (fun s r s' x => Store.exec t s r .go = some (s', x)) Later
    (fun _ _ => True) P p Q) : Solo t P (Proc.ofProg p) Q E :=
  fun s hs => (h s hs).bind fun _ _ h' => h'

/-- The handle remembers the manifest that it is given, if that is the current one. -/
theorem remember {m : Manifest} {v : Nat} :
    Solo t (fun s => Carries l s ∧ s.current = some (m, v)) (Fckdb.remember handle m (some v))
      (fun _ s => Quiet handle l s ∧ m = s.manifest ∧ s.admits (.update v) = true) E := by
  refine ofProg (Triple.call (Request.remember handle m (some v)) ?_ (fun _ => ?_) fun s s' x hs hx => ?_)
  · rintro s _ ⟨nanos, rfl⟩ ⟨hl, hcurrent⟩
    exact ⟨Carries.later s _ ⟨nanos, rfl⟩ hl, hcurrent⟩
  · rintro s _ ⟨nanos, rfl⟩ ⟨hquiet, hm⟩
    exact ⟨Quiet.later s _ ⟨nanos, rfl⟩ hquiet, hm⟩
  · cases hx
    obtain ⟨hl, hcurrent⟩ := hs
    refine ⟨trivial, ⟨⟨hl.schema, hl.reads, hl.kept, hl.old, hl.dropped⟩, .inr ?_⟩,
      Store.current_eq_some hcurrent⟩
    exact ⟨⟨m, some v, s.clock⟩, v, if_pos rfl, rfl, hcurrent⟩

/-- The stored manifest, and how to replace it. -/
def Based (handle : Nat) (l : Ledger) (x : Manifest × Option Nat) (s : Store) : Prop :=
  Quiet handle l s ∧ x.1 = s.manifest ∧ s.admits (modeOf x.2) = true

theorem based_later (x : Manifest × Option Nat) : Stable Later (Based handle l x) := by
  rintro s _ ⟨nanos, rfl⟩ ⟨hquiet, hm⟩
  exact ⟨Quiet.later s _ ⟨nanos, rfl⟩ hquiet, hm⟩

/-- `load`. -/
theorem load : Solo t (Quiet handle l) (Fckdb.load handle) (Based handle l) fun _ => False := by
  refine seq (Q := fun o s => Quiet handle l s ∧ s.current = o) (Triple.call Request.getManifest
    Quiet.later (ends (fun o => ?_) fun _ _ _ h => h) fun s s' x hs hx => ?_) fun o => ?_
  · rintro s _ ⟨nanos, rfl⟩ ⟨hquiet, hcurrent⟩
    exact ⟨Quiet.later s _ ⟨nanos, rfl⟩ hquiet, hcurrent⟩
  · cases hx
    exact ⟨trivial, hs, rfl⟩
  · cases o with
    | none =>
        refine ret ?_ fun s hs => ?_
        · rintro s _ ⟨nanos, rfl⟩ ⟨hquiet, hcurrent⟩
          exact ⟨Quiet.later s _ ⟨nanos, rfl⟩ hquiet, hcurrent⟩
        · obtain ⟨hm, hadm⟩ := Store.current_eq_none hs.2
          exact ⟨hs.1, hm.symm, hadm⟩
    | some x =>
        refine seq (conseq remember (fun s hs => ⟨hs.1.holds, hs.2⟩) (fun _ _ h => h) fun _ h => h)
          fun _ => ret (based_later (x.1, some x.2)) fun s hs => hs

/-- **A commit starts from the stored manifest.** -/
theorem commitBase :
    Solo t (Quiet handle l) (Fckdb.commitBase handle true) (Based handle l) fun _ => False := by
  refine seq (Q := fun o s => Quiet handle l s ∧ ∀ x, o = some x → Based handle l x s) ?_ fun o => ?_
  · refine seq (Q := fun x s => Quiet handle l s ∧ x.1 = s.handles handle) (ofProg (Triple.call
      (Request.view handle) Quiet.later (fun x => ?_) fun s s' x hs hx => ?_)) fun x => ?_
    · rintro s _ ⟨nanos, rfl⟩ ⟨hquiet, hsnap⟩
      exact ⟨Quiet.later s _ ⟨nanos, rfl⟩ hquiet, hsnap⟩
    · cases hx
      exact ⟨trivial, hs, rfl⟩
    · refine ret ?_ fun s hs => ?_
      · rintro s _ ⟨nanos, rfl⟩ ⟨hquiet, hsnap⟩
        exact ⟨Quiet.later s _ ⟨nanos, rfl⟩ hquiet, hsnap⟩
      · -- what the handle remembers is current
        refine ⟨hs.1, fun y hy => ⟨hs.1, ?_⟩⟩
        rw [hs.2] at hy
        rcases hs.1.fresh with hnone | ⟨snap, v, hsnap, hv, hcurrent⟩
        · rw [hnone] at hy
          cases hy
        · rw [hsnap, Option.bind_some, hv] at hy
          cases hy
          exact Store.current_eq_some hcurrent
  · cases o with
    | none => exact conseq load (fun s hs => hs.1) (fun _ _ h => h) fun _ h => h
    | some x =>
        refine conseq (ret (Q := Based handle l) (based_later x) fun s hs => hs) (fun s hs => hs.2 x rfl)
          (fun _ _ h => h) fun _ h => h

variable [Crates] {records : List Record}
  {prepare : Manifest → Except Error (Schema × List Record)}

/-- The batch was accepted, and its object written. -/
structure Written (handle : Nat) (l : Ledger) (x : Manifest × Option Nat) (records batch : List Record)
    (schema : Schema) (uuid : Nat) (s : Store) : Prop where
  based : Based handle l x s
  accepted : l.schema.absorb records = .ok (schema, batch)
  stored : s.HasRecords (.wal ⟨x.1.nextSeq, uuid⟩) batch
  there : .wal ⟨x.1.nextSeq, uuid⟩ ∉ s.deleted

theorem written_later {x : Manifest × Option Nat} {batch : List Record} {schema : Schema} {uuid : Nat} :
    Stable Later (Written handle l x records batch schema uuid) := by
  rintro s _ ⟨nanos, rfl⟩ h
  exact ⟨based_later x s _ ⟨nanos, rfl⟩ h.based, h.accepted, h.stored, h.there⟩

/-- **The new version** holds the records with the batch. -/
theorem Written.push {s : Store} {m : Manifest} {version : Option Nat} {batch : List Record}
    {schema : Schema} {uuid : Nat} (h : Written handle l (m, version) records batch schema uuid s)
    (stamp : Nat) :
    Carries (l.commit records).1 (s.push ⟨m.push schema ⟨m.nextSeq, uuid⟩ batch stamp, t, .commit batch,
      s.clock⟩) ∧ (s.push ⟨m.push schema ⟨m.nextSeq, uuid⟩ batch stamp, t, .commit batch,
      s.clock⟩).current = some (m.push schema ⟨m.nextSeq, uuid⟩ batch stamp, s.versions.length) := by
  obtain rfl : m = s.manifest := h.based.2.1
  rw [Ledger.commit, h.accepted]
  exact ⟨h.based.1.holds.push h.stored h.there stamp,
    Store.current_push h.based.1.holds.dropped _⟩

/-- **An attempt to commit** succeeds if the batch is accepted. -/
theorem commitAttempt (hprepare : ∀ m, prepare m = m.schema.absorb records) :
    Solo t (Quiet handle l) (Fckdb.commitAttempt handle prepare true)
      (fun o s => o.isSome ∧ (l.commit records).2 = true ∧ Quiet handle (l.commit records).1 s)
      fun s => (l.commit records).2 = false ∧ Quiet handle (l.commit records).1 s := by
  refine seq (conseq commitBase (fun _ h => h) (fun _ _ h => h) fun _ h => h.elim) ?_
  rintro ⟨m, version⟩
  -- the batch is accepted or rejected by the schema of the ledger
  refine seq (Q := fun x s => Based handle l (m, version) s ∧ l.schema.absorb records = .ok x)
    (ofExcept (based_later _) (fun x s hx hs => ⟨hs, ?_⟩) fun e s he hs => ?_) ?_
  · have hm : m = s.manifest := hs.2.1
    rw [hprepare, hm, hs.1.holds.schema] at hx
    exact hx
  · have hm : m = s.manifest := hs.2.1
    rw [hprepare, hm, hs.1.holds.schema] at he
    rw [Ledger.commit, he]
    exact ⟨rfl, hs.1⟩
  rintro ⟨schema, batch⟩
  have hbased : Stable Later fun s => Based handle l (m, version) s ∧
      l.schema.absorb records = .ok (schema, batch) := (based_later _).and fun _ _ _ h => h
  have hrejected : Stable Later fun s =>
      (l.commit records).2 = false ∧ Quiet handle (l.commit records).1 s :=
    Stable.and (fun _ _ _ h => h) Quiet.later
  refine seq (Q := Written handle l (m, version) records batch schema) (Triple.call
    (Request.putNew (fun u => .wal ⟨m.nextSeq, u⟩) (.records batch)) hbased
    (ends (fun _ => written_later) hrejected) ?_) fun uuid => ?_
  · rintro s s' x ⟨hs, haccepted⟩ hx
    cases hx
    -- the new name is that of no object so far
    have hwritten : ({ s with puts := s.puts ++ [⟨.wal ⟨m.nextSeq, s.puts.length⟩, .records batch, t,
        s.clock⟩] } : Store).written (.wal ⟨m.nextSeq, s.puts.length⟩) =
        some ⟨.wal ⟨m.nextSeq, s.puts.length⟩, .records batch, t, s.clock⟩ := by
      rw [Store.written, ObjectName.uuid, List.getElem?_concat_length]
      exact Option.filter_eq_some_iff.mpr ⟨rfl, decide_eq_true rfl⟩
    exact ⟨trivial, ⟨⟨hs.1.holds.put _, hs.1.fresh⟩, hs.2.1, hs.2.2⟩, haccepted, ⟨_, hwritten, rfl⟩,
      fun hdel => Nat.lt_irrefl _ (hs.1.holds.old _ hdel)⟩
  refine seq (Q := fun _ => Written handle l (m, version) records batch schema uuid)
    (ofProg (Triple.call (Request.now .stamp) written_later (fun _ => written_later)
      fun s s' x hs hx => ?_)) fun stamp => ?_
  · cases hx
    exact ⟨trivial, hs⟩
  have hpushed : ∀ o : Option Nat, Stable Later fun s => ∃ v, o = some v ∧
      Carries (l.commit records).1 s ∧
        s.current = some (m.push schema ⟨m.nextSeq, uuid⟩ batch stamp, v) := by
    rintro o s _ ⟨nanos, rfl⟩ ⟨v, hv, hl, hcurrent⟩
    exact ⟨v, hv, Carries.later s _ ⟨nanos, rfl⟩ hl, hcurrent⟩
  refine seq (Q := fun o s => l.schema.absorb records = .ok (schema, batch) ∧ ∃ v, o = some v ∧
      Carries (l.commit records).1 s ∧
        s.current = some (m.push schema ⟨m.nextSeq, uuid⟩ batch stamp, v)) (Triple.call
    (Request.putManifest (m.push schema ⟨m.nextSeq, uuid⟩ batch stamp) (modeOf version) (.commit batch))
    written_later (ends (fun o => Stable.and (fun _ _ _ h => h) (hpushed o)) hrejected) ?_) fun o => ?_
  · intro s s' x hs hx
    have hx : (if s.admits (modeOf version) = true then
        some (s.push ⟨m.push schema ⟨m.nextSeq, uuid⟩ batch stamp, t, .commit batch, s.clock⟩,
          Except.ok (some s.versions.length)) else some (s, .ok none)) = some (s', x) := hx
    rw [if_pos hs.based.2.2] at hx
    cases hx
    exact ⟨trivial, hs.accepted, _, rfl, hs.push stamp⟩
  cases o with
  | none =>
      rintro s ⟨-, v, hv, -⟩
      cases hv
  | some v =>
      intro s hs
      obtain ⟨haccepted, v', hv, hpushed⟩ := hs
      obtain rfl := Option.some.inj hv
      have hcommit : (l.commit records).2 = true := by rw [Ledger.commit, haccepted]
      refine seq (conseq remember (fun _ h => h) (fun _ s hs => hs.1) fun _ h => h) (fun _ => ?_) s hpushed
      exact ret Quiet.later fun s hs => ⟨rfl, hcommit, hs⟩

/-- **A commit without contention** is that of the ledger. -/
theorem commitLoop (hprepare : ∀ m, prepare m = m.schema.absorb records) :
    Solo t (Quiet handle l) (Fckdb.commitLoop handle prepare maxCasAttempts 1 true)
      (fun _ s => (l.commit records).2 = true ∧ Quiet handle (l.commit records).1 s)
      fun s => (l.commit records).2 = false ∧ Quiet handle (l.commit records).1 s := by
  refine seq (commitAttempt hprepare) fun o => ?_
  cases o with
  | none =>
      rintro s ⟨hsome, -⟩
      cases hsome
  | some seq =>
      exact ret (Stable.and (fun _ _ _ h => h) (Stable.and (fun _ _ _ h => h) Quiet.later))
        fun s hs => hs.2

end Solo

end Fckdb
