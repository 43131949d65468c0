import Fckdb.Collection

/-! # Collecting beside readers

A collection goes by the time at which an object was written. So a reader finds what was written less than
the grace period ago, and what the current manifest still references (`Reaches.readable`). An older object
can be gone as soon as a compaction has retired it, however recently the reader's manifest was current
(`retired_not_readersSpared`). -/

namespace Fckdb

/-- Runs of commits, compactions, collections with a grace period of at least `grace` that fits into a
`chrono::Duration`, and queries. -/
def readTerms (grace : Nat) : Terms where
  call
    | .gc _ period => grace ≤ period ∧ period ≤ durationMax
    | .destroy _ => False
    | _ => True
  op _ _ _ := True
  env _ _ := True

/-- For `grace` after a manifest was current all that it references is there. -/
def ReadersSpared (grace : Nat) (s : Store) : Prop :=
  ∀ i v, s.versions[i]? = some v → (∀ w, s.versions[i + 1]? = some w → s.clock < w.time + grace) →
    ∀ name ∈ v.manifest.referenced, (s.object name).isSome

/-- A reader finds what is young. -/
def FindsYoung (grace : Nat) (s : Store) : Prop :=
  ∀ m version, s.At m version → ∀ name ∈ m.referenced, s.Young grace name → (s.object name).isSome

/-- A reader finds what the current manifest still references. -/
def FindsCurrent (s : Store) : Prop :=
  ∀ m version, s.At m version → ∀ name ∈ m.referenced, name ∈ s.manifest.referenced →
    (s.object name).isSome

section Runs

variable [Crates] [HashOrder] {grace : Nat} {p : Namespace}

theorem Reaches.collect_read (h : Reaches (collectTerms grace) p) : Reaches (readTerms grace) p :=
  h.mono fun _ _ hok => hok.mono (fun call hcall => by cases call <;> exact hcall)
    (fun _ _ _ _ => trivial) fun _ _ _ => trivial

/-- **Only aged objects are deleted.** -/
theorem Reaches.aged (h : Reaches (readTerms grace) p) {name : ObjectName}
    (hname : name ∈ p.shared.deleted) : p.shared.Aged grace name := by
  refine h.store_invariant (J := fun s => ∀ name ∈ s.deleted, s.Aged grace name) nofun
    (fun t call s s' hcall hg hs name hname => ?_) (fun s nanos hs name hname => ?_) name hname
  · have hold (hname : name ∈ s.deleted) : s'.Aged grace name := hg.1.aged (hs name hname)
    cases hg.2 with
    | calm _ hdel _ _ => exact hold (hdel ▸ hname)
    | commit _ _ _ _ _ _ _ _ _ _ _ _ result =>
        subst result
        exact hold hname
    | install _ _ _ _ _ _ _ _ _ _ _ _ _ _ _ _ _ _ _ _ result =>
        subst result
        exact hold hname
    | delete handle period loaded version s₀ other put asked past known allowed unreferenced stored old
        result =>
        subst result
        rw [asked] at hcall
        obtain ⟨hperiod, hmax⟩ := hcall
        rw [fromStd, if_pos hmax] at old
        rcases List.mem_append.mp hname with hname | hname
        · exact hold hname
        · obtain rfl := List.mem_singleton.mp hname
          have hclock := past.clock
          exact ⟨put, stored, by dsimp only; omega⟩
    | drop _ asked =>
        rw [asked] at hcall
        exact hcall.elim
    | list _ _ asked =>
        rw [asked] at hcall
        exact hcall.elim
    | wipe _ _ asked =>
        rw [asked] at hcall
        exact hcall.elim
  · exact (tick_rely rfl 0).aged (hs name hname)

/-- **Readers beside collections** find what is young, in any timed interleaving, and what is still
referenced, in those in which collections spare it. -/
theorem Reaches.readable (h : Reaches (readTerms grace) p) :
    FindsYoung grace p.shared ∧ (Reaches (collectTerms grace) p → FindsCurrent p.shared) := by
  refine ⟨fun m version _ name _ hyoung => ?_, fun hcollect m version _ name _ hmem => ?_⟩
  · obtain ⟨put, hput, hlt⟩ := hyoung
    have hnot : name ∉ p.shared.deleted := fun hdel => (h.aged hdel).not_young ⟨put, hput, hlt⟩
    rw [Store.object, if_neg hnot, hput]
    rfl
  · obtain ⟨put, hput⟩ := h.grounded.written name hmem
    have hnot : name ∉ p.shared.deleted := fun hdel => hcollect.spared name hdel hmem
    rw [Store.object, if_neg hnot, hput]
    rfl

end Runs

theorem sweptRun_readable :
    let _ := Crates.inert
    let _ := HashOrder.sorted
    ∃ p, execute service.step ⟨{}, []⟩ sweptRun = some p ∧ p.shared.deleted = [.wal ⟨0, 0⟩] ∧
      FindsYoung 100 p.shared ∧ FindsCurrent p.shared := by
  intro _ _
  have hrun : (execute service.step ⟨{}, []⟩ sweptRun).any
      (fun p => p.shared.deleted = [.wal ⟨0, 0⟩]) = true := by decide +kernel
  obtain ⟨p, hp, hdeleted⟩ := (Option.any_eq_true _ _).mp hrun
  have hallowed : Allowed service.step (fun p a => (collectTerms 100).Meets p a) ⟨{}, []⟩ sweptRun := by
    decide +kernel
  have hcollect : Reaches (collectTerms 100) p := Reachable.init.execute hallowed hp
  obtain ⟨hyoung, hcurrent⟩ := Reaches.readable hcollect.collect_read
  exact ⟨p, hp, of_decide_eq_true hdeleted, hyoung, hcurrent hcollect⟩

/-! ## A reader of what was retired -/

/-- A query loads the manifest; a compaction retires the WAL object, which is old, and a collection deletes
it before the query reads it, all at one instant. -/
def retiredRun : List Act :=
  .spawn (.commitRecords 0 [.upsert (.bare 1)] {}) :: goes 0 6 ++
    .env 200 :: .spawn (.query 1 { vector := [] }) :: goes 1 2 ++ .spawn (.compact 0 false) :: goes 2 11 ++
    .spawn (.gc 2 100) :: goes 3 3 ++ listings 3 [.wal ⟨0, 0⟩] [.data ⟨1, .bin⟩] ++ goes 3 1 ++ goes 1 1

/-- The query has failed although the store failed no request, and within the grace period the object that
the first version references is gone. -/
def Namespace.misses (p : Namespace) : Bool :=
  match p.threads, p.shared.versions with
  | [_, ⟨_, .done (.answered (.error _))⟩, _, _], [v, w] =>
    p.shared.clock < w.time + 100 && v.manifest.referenced.any fun name => (p.shared.object name).isNone
  | _, _ => false

/-- **A query misses an object** of a manifest that was current at this instant. -/
theorem retired_not_readersSpared :
    let _ := Crates.inert
    let _ := HashOrder.sorted
    ¬ ∀ p, Reaches (collectTerms 100) p → ReadersSpared 100 p.shared := by
  intro _ _ h
  have hrun : (execute service.step ⟨{}, []⟩ retiredRun).any Namespace.misses = true := by decide +kernel
  obtain ⟨p, hp, hmisses⟩ := (Option.any_eq_true _ _).mp hrun
  have hallowed : Allowed service.step (fun p a => (collectTerms 100).Meets p a) ⟨{}, []⟩ retiredRun := by
    decide +kernel
  have hspared := h p (Reachable.init.execute hallowed hp)
  rw [Namespace.misses] at hmisses
  split at hmisses
  · next v w _ hversions =>
    obtain ⟨hclock, hgone⟩ := (Bool.and_eq_true _ _).mp hmisses
    obtain ⟨name, hname, hnone⟩ := List.any_eq_true.mp hgone
    have hthere := hspared 0 v (by rw [hversions]; rfl) (fun w' hw => by
      rw [hversions] at hw
      obtain rfl := Option.some.inj hw
      exact of_decide_eq_true hclock) name hname
    rw [Option.isNone_iff_eq_none.mp hnone] at hthere
    cases hthere
  · cases hmisses

end Fckdb
