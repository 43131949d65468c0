import Fckdb.Backpressure
import Fckdb.Tenancy

/-! # One committer for each namespace

A node keeps the handle of a namespace in a map; with the handle goes its committer. Requests hold clones of
it, and an entry leaves the map by two ways: the sweep of idle handles, which spares the ones that are held,
and the deletion of the namespace, which spares none. A namespace has at most one committer that records are
with or can still come to, as long as an entry leaves the map only when nobody holds its handle and nothing
is left to commit (`Registry.Reached.oneCommitter`). The deletion does not see to that
(`deleted_two_committers`). -/

namespace Fckdb

/-! ## The state -/

/-- `Resident`: a handle for whoever holds it. Its `ns` is the namespace of the group. -/
structure Resident where
  key : String
  group : GroupCommit
  lastUsed : Nat

/-- What the holder of a handle awaits. -/
inductive Job
  /-- Neither of these, or nothing yet. -/
  | other
  /-- A `write_all`. -/
  | write (writer : Nat)
  | destroy (thread : Nat)

/-- A clone of a handle. -/
structure Holder where
  resident : Nat
  job : Job := .other

/-- The handles of a node, and what is done with them. -/
structure Registry where
  /-- Every handle there ever was. -/
  residents : List Resident := []
  /-- `resident`: the handle of each key. -/
  map : SortedMap String Nat := .empty
  holders : List Holder := []
  /-- The keys of namespaces that are destroyed and not forgotten yet. -/
  destroyed : List String := []
  /-- What is stored, and the calls on it. -/
  spaces : String → Namespace := fun _ => ⟨{}, []⟩
  uptime : Nat := 0

namespace Registry

/-! ## Steps -/

/-- `resident`: get the handle of a key, or create it; under the lock. -/
def resident (g : Registry) (key : String) : Registry :=
  match g.map.get key with
  | some i => { g with
      residents := g.residents.modify i fun r => { r with lastUsed := g.uptime }
      holders := g.holders ++ [{ resident := i }] }
  | none => { g with
      residents := g.residents ++ [⟨key, .start g.residents.length (g.spaces key), g.uptime⟩]
      map := g.map.insert key g.residents.length
      holders := g.holders ++ [{ resident := g.residents.length }] }

/-- `all_resident`. -/
def allResident (g : Registry) : Registry :=
  { g with holders := g.holders ++ g.map.values.map fun i => { resident := i } }

/-- `forget`. -/
def forget (g : Registry) (key : String) : Registry := { g with map := g.map.erase key }

/-- `Arc::strong_count`: the map's clone and those of the holders. -/
def strongCount (g : Registry) (i : Nat) : Nat :=
  g.map.values.count i + (g.holders.map (·.resident)).count i

/-- Whether a sweep leaves a handle in the map. -/
def retains (g : Registry) (ttl i : Nat) : Bool :=
  (g.residents[i]?).any fun r => g.uptime - r.lastUsed < ttl || 1 < g.strongCount i

/-- `evict_idle`. -/
def evictIdle (g : Registry) (ttl : Nat) : Registry :=
  { g with map := g.map.filterKeys fun key => (g.map.get key).any (g.retains ttl) }

/-- What is stored under a key has changed, for all of its handles. -/
def put (g : Registry) (key : String) (p : Namespace) : Registry := { g with
  residents := g.residents.map fun r =>
    if r.key = key then { r with group := { r.group with space := p } } else r
  spaces := Function.update g.spaces key p }

/-- Whether a holder may let go of its handle: `write_all` sends all of its records before it awaits
anything. -/
def Holder.canDrop (g : Registry) (h : Holder) : Bool :=
  match h.job with
  | .write w => ((g.residents[h.resident]?).bind fun r => r.group.writers[w]?).any fun w =>
      w.waits.length = w.records.length
  | .other | .destroy _ => true

variable [Crates] [HashOrder]

/-- A step of the group of a handle. -/
def groupStep (g : Registry) (i : Nat) (a : GroupAction) : Option Registry :=
  match g.residents[i]? with
  | none => none
  | some r => (r.group.step a).map fun group =>
      { g with residents := g.residents.set i { r with group } }.put r.key group.space

end Registry

/-- What can happen next. -/
inductive RegistryAction
  /-- A handler gets the handle of its namespace. -/
  | resident (key : String)
  /-- A background task gets all handles. -/
  | allResident
  /-- A holder begins a `write_all`. -/
  | write (h : Nat) (records : List Record) (config : WriteConfig)
  /-- Its writer sends the next record. -/
  | send (h : Nat)
  /-- A holder begins to destroy the namespace. -/
  | destroy (h : Nat)
  /-- Its `destroy` has returned `Ok`: the handler lets go of the handle. -/
  | destroyed (h : Nat)
  /-- It goes on to forget the handle of the key. -/
  | forget (j : Nat)
  /-- A holder is done with its handle, has failed, or its client goes away. -/
  | drop (h : Nat)
  /-- A step of the committer of a handle. -/
  | commit (i : Nat) (a : GroupAction)
  /-- A step of what is stored under a key. -/
  | run (key : String) (a : Act)
  | evictIdle (ttl : Nat)
  | tick (ms : Nat)

namespace Registry

variable [Crates] [HashOrder]

/-- One step. -/
def step (g : Registry) : RegistryAction → Option Registry
  | .resident key => some (g.resident key)
  | .allResident => some g.allResident
  | .write h records config =>
    match g.holders[h]? with
    | some ⟨i, .other⟩ =>
      (g.groupStep i (.write records config)).map fun g' => { g' with
        holders := g.holders.set h ⟨i, .write (((g.residents[i]?).map (·.group.writers.length)).getD 0)⟩ }
    | _ => none
  | .send h =>
    match g.holders[h]? with
    | some ⟨i, .write w⟩ => g.groupStep i (.send w)
    | _ => none
  | .destroy h =>
    match g.holders[h]? with
    | some ⟨i, .other⟩ =>
      (g.groupStep i (.run (.spawn (.destroy i)))).map fun g' => { g' with
        holders := g.holders.set h
          ⟨i, .destroy (((g.residents[i]?).map (·.group.space.threads.length)).getD 0)⟩ }
    | _ => none
  | .destroyed h =>
    match g.holders[h]? with
    | some ⟨i, .destroy t⟩ =>
      match g.residents[i]? with
      | none => none
      | some r =>
        match r.group.space.threads[t]? with
        | some ⟨_, .done (.destroyed (.ok _))⟩ =>
          some { g with holders := g.holders.eraseIdx h, destroyed := g.destroyed ++ [r.key] }
        | _ => none
    | _ => none
  | .forget j =>
    match g.destroyed[j]? with
    | none => none
    | some key => some { g.forget key with destroyed := g.destroyed.eraseIdx j }
  | .drop h =>
    match g.holders[h]? with
    | none => none
    | some holder => if Holder.canDrop g holder then some { g with holders := g.holders.eraseIdx h } else none
  | .commit i a =>
    match a with
    | .receive | .commit | .finish | .reply => g.groupStep i a
    | .write _ _ | .send _ | .run _ => none
  | .run key a => (service.step (g.spaces key) a).map (g.put key)
  | .evictIdle ttl => some (g.evictIdle ttl)
  | .tick ms => some { g with uptime := g.uptime + ms }

/-- The states a node reaches from its start. -/
abbrev Reached (ok : Registry → RegistryAction → Prop) (g : Registry) : Prop := Reachable step ok {} g

end Registry

/-! ## Committers that are alive -/

section Live

variable [Crates]

/-- A committer has records that are not committed. -/
def GroupCommit.Laden (g : GroupCommit) : Prop := g.queue ≠ [] ∨ g.uncommitted ≠ []

namespace Registry

/-- Somebody holds a handle. -/
def Held (g : Registry) (i : Nat) : Prop := ∃ h ∈ g.holders, h.resident = i

/-- The committer of a handle has uncommitted records, or can still receive some: its channel is open as
long as there is a clone of the handle. -/
def Live (g : Registry) (key : String) (i : Nat) : Prop :=
  ∃ r, g.residents[i]? = some r ∧ r.key = key ∧ (g.map.get key = some i ∨ g.Held i ∨ r.group.Laden)

/-- **One committer**: at most one is alive for each namespace. -/
def OneCommitter (g : Registry) : Prop := ∀ key i j, g.Live key i → g.Live key j → i = j

/-- The committer of a handle has nothing left to commit. -/
def Drained (g : Registry) (i : Nat) : Prop := ∀ r ∈ g.residents[i]?, ¬ r.group.Laden

/-- A handle is created only when no committer of its key is alive. -/
def freshTerms : Registry → RegistryAction → Prop
  | g, .resident key => g.map.get key = none → ∀ i, ¬ g.Live key i
  | _, _ => True

/-- A handle leaves the map only when its committer has nothing left to commit, and with the deletion of
its namespace only when nobody holds it. -/
def retiredTerms : Registry → RegistryAction → Prop
  | g, .forget j => ∀ key ∈ g.destroyed[j]?, ∀ i ∈ g.map.get key, ¬ g.Held i ∧ g.Drained i
  | g, .evictIdle ttl => ∀ e ∈ g.map.entries, g.retains ttl e.2 = false → g.Drained e.2
  | _, _ => True

end Registry

/-! ## Steps of a group -/

section Group

variable [HashOrder] {g g' : GroupCommit} {a : GroupAction}

open GroupCommit (freeTerms)

/-- A step of a group runs its namespace, which grows. -/
theorem GroupCommit.Stepped.grows (hs : g.Stepped a g') (hspace : Reaches freeTerms g.space) :
    Reaches freeTerms g'.space ∧ Grows (fun _ => True) g.space.shared g'.space.shared := by
  have hrun {b : Act} {p : Namespace} (hb : service.step g.space b = some p) :
      Reaches freeTerms p ∧ Grows (fun _ => True) g.space.shared p.shared :=
    have hok : freeTerms.Meets g.space b := terms_free g (.run b)
    ⟨hspace.step b hok hb, hspace.grows_step hok hb⟩
  rcases hs.space with ⟨heq, -⟩ | ⟨b, -, hb, -⟩ | ⟨waiters, -, hb, -⟩
  · rw [heq]
    exact ⟨hspace, .refl _⟩
  · exact hrun hb
  · exact hrun hb

omit [Crates] [HashOrder] in
/-- Nothing comes to a committer when its namespace grows. -/
theorem GroupCommit.Laden.of_grows {p : Namespace} (hg : Grows (fun _ => True) g.space.shared p.shared)
    (h : ({ g with space := p } : GroupCommit).Laden) : g.Laden := by
  refine h.imp_right fun hne => ?_
  simp only [uncommitted] at hne ⊢
  split at hne
  · exact hne
  · split_ifs at hne with hnew
    · rwa [if_pos (hg.writtenBy_eq_nil hnew)]
    · exact absurd rfl hne
  · exact absurd rfl hne

/-- **Nothing comes to a committer** but what is sent to it. -/
theorem GroupCommit.Stepped.laden (hs : g.Stepped a g') (hspace : Reaches freeTerms g.space)
    (hsend : ∀ w, a ≠ .send w) (h : g'.Laden) : g.Laden := by
  have hgrows := (hs.grows hspace).2
  cases hs with
  | write records config => exact h
  | send i w record hw hr => exact absurd rfl (hsend i)
  | receive first rest hc hq => exact .inl (hq ▸ List.cons_ne_nil _ _)
  | drain waiters item rest hc hq hroom => exact .inl (hq ▸ List.cons_ne_nil _ _)
  | commit waiters space hc hfull hs =>
      refine h.imp_right fun hne => ?_
      simp only [uncommitted, hc] at hne ⊢
      split_ifs at hne with hnone
      · exact hne
      · exact absurd rfl hne
  | run b space hs => exact h.of_grows hgrows
  | finish waiters t r hc hr => exact .inl (h.resolve_right fun hne => hne rfl)
  | reply w rest t r hc => exact .inl (h.resolve_right fun hne => hne rfl)
  | rest t r hc => exact .inl (h.resolve_right fun hne => hne rfl)

end Group

/-! ## Steps of a node -/

section Node

variable [HashOrder]

namespace Registry

open GroupCommit (freeTerms)

variable {g g' : Registry} {a : RegistryAction}

/-- **What a step of a node is.** -/
inductive Stepped (g : Registry) : RegistryAction → Registry → Prop
  | found (key : String) (i : Nat) (hget : g.map.get key = some i) :
      Stepped g (.resident key) { g with
        residents := g.residents.modify i fun r => { r with lastUsed := g.uptime }
        holders := g.holders ++ [{ resident := i }] }
  | created (key : String) (hget : g.map.get key = none) :
      Stepped g (.resident key) { g with
        residents := g.residents ++ [⟨key, .start g.residents.length (g.spaces key), g.uptime⟩]
        map := g.map.insert key g.residents.length
        holders := g.holders ++ [{ resident := g.residents.length }] }
  | allResident : Stepped g .allResident g.allResident
  | group (a : RegistryAction) (i : Nat) (r : Resident) (b : GroupAction) (group : GroupCommit)
      (holders : List Holder) (hr : g.residents[i]? = some r) (hb : r.group.step b = some group)
      (hlookup : ∀ key, a ≠ .resident key) (hsend : (∃ w, b = .send w) → g.Held i)
      (hholders : holders.map (·.resident) = g.holders.map (·.resident)) :
      Stepped g a { { g with residents := g.residents.set i { r with group } }.put r.key group.space with
        holders }
  | space (key : String) (b : Act) (p : Namespace) (hb : service.step (g.spaces key) b = some p) :
      Stepped g (.run key b) (g.put key p)
  | released (a : RegistryAction) (h : Nat) (destroyed : List String)
      (hlookup : ∀ key, a ≠ .resident key) :
      Stepped g a { g with holders := g.holders.eraseIdx h, destroyed }
  | forget (j : Nat) (key : String) (hkey : g.destroyed[j]? = some key) :
      Stepped g (.forget j) { g.forget key with destroyed := g.destroyed.eraseIdx j }
  | evictIdle (ttl : Nat) : Stepped g (.evictIdle ttl) (g.evictIdle ttl)
  | tick (ms : Nat) : Stepped g (.tick ms) { g with uptime := g.uptime + ms }

theorem groupStep_eq_some {i : Nat} {b : GroupAction} (hs : g.groupStep i b = some g') :
    ∃ r group, g.residents[i]? = some r ∧ r.group.step b = some group ∧
      g' = { g with residents := g.residents.set i { r with group } }.put r.key group.space := by
  simp only [groupStep] at hs
  split at hs
  · cases hs
  next r hr =>
  obtain ⟨group, hb, rfl⟩ := Option.map_eq_some_iff.mp hs
  exact ⟨r, group, hr, hb, rfl⟩

omit [Crates] [HashOrder] in
/-- A holder that goes on holds what it held. -/
theorem map_set_holder {h i : Nat} {job job' : Job} (hh : g.holders[h]? = some ⟨i, job⟩) :
    (g.holders.set h ⟨i, job'⟩).map (·.resident) = g.holders.map (·.resident) := by
  obtain ⟨hlt, heq⟩ := List.getElem?_eq_some_iff.mp hh
  refine List.ext_getElem (by simp) fun n hn hn' => ?_
  rw [List.getElem_map, List.getElem_map, List.getElem_set]
  split_ifs with hhn
  · subst hhn
    rw [heq]
  · rfl

theorem stepped (hs : g.step a = some g') : g.Stepped a g' := by
  cases a with
  | resident key =>
      cases hs
      rw [resident]
      split
      · next i hget => exact .found key i hget
      · next hget => exact .created key hget
  | allResident =>
      cases hs
      exact .allResident
  | write h records config =>
      simp only [step] at hs
      split at hs
      · next i hh =>
        obtain ⟨g₁, hg, rfl⟩ := Option.map_eq_some_iff.mp hs
        obtain ⟨r, group, hr, hb, rfl⟩ := groupStep_eq_some hg
        exact .group _ i r _ group _ hr hb nofun nofun (map_set_holder hh)
      · cases hs
  | send h =>
      simp only [step] at hs
      split at hs
      · next i w hh =>
        obtain ⟨r, group, hr, hb, rfl⟩ := groupStep_eq_some hs
        exact .group _ i r _ group _ hr hb nofun (fun _ => ⟨_, List.mem_of_getElem? hh, rfl⟩) rfl
      · cases hs
  | destroy h =>
      simp only [step] at hs
      split at hs
      · next i hh =>
        obtain ⟨g₁, hg, rfl⟩ := Option.map_eq_some_iff.mp hs
        obtain ⟨r, group, hr, hb, rfl⟩ := groupStep_eq_some hg
        exact .group _ i r _ group _ hr hb nofun nofun (map_set_holder hh)
      · cases hs
  | destroyed h =>
      simp only [step] at hs
      split at hs
      · split at hs
        · cases hs
        · split at hs
          · cases hs
            exact .released _ h _ nofun
          · cases hs
      · cases hs
  | forget j =>
      simp only [step] at hs
      split at hs
      · cases hs
      next key hkey =>
      cases hs
      exact .forget j key hkey
  | drop h =>
      simp only [step] at hs
      split at hs
      · cases hs
      split_ifs at hs
      cases hs
      exact .released _ h _ nofun
  | commit i b =>
      cases b with
      | receive | commit | finish | reply =>
          obtain ⟨r, group, hr, hb, rfl⟩ := groupStep_eq_some hs
          exact .group _ i r _ group _ hr hb nofun nofun rfl
      | write | send | run => cases hs
  | run key b =>
      obtain ⟨p, hb, rfl⟩ := Option.map_eq_some_iff.mp hs
      exact .space key b p hb
  | evictIdle ttl =>
      cases hs
      exact .evictIdle ttl
  | tick ms =>
      cases hs
      exact .tick ms

/-- The map and the holders have handles that exist, each with the namespace of its key; what is stored is
reached. -/
structure Sound (g : Registry) : Prop where
  mapped : ∀ key i, g.map.get key = some i → (g.residents.map (·.key))[i]? = some key
  held : ∀ h ∈ g.holders, h.resident < g.residents.length
  shared : ∀ r ∈ g.residents, r.group.space = g.spaces r.key
  reaches : ∀ key, Reaches freeTerms (g.spaces key)

/-- Nothing has happened. -/
theorem Sound.start : Sound {} :=
  ⟨nofun, fun _ hh => (List.not_mem_nil hh).elim, fun _ hr => (List.not_mem_nil hr).elim, fun _ => .init⟩

theorem Sound.of_get (h : g.Sound) {key : String} {i : Nat} (hget : g.map.get key = some i) :
    ∃ r, g.residents[i]? = some r ∧ r.key = key := by
  have hkey := h.mapped key i hget
  rw [List.getElem?_map] at hkey
  exact Option.map_eq_some_iff.mp hkey

theorem Sound.lt_of_get (h : g.Sound) {key : String} {i : Nat} (hget : g.map.get key = some i) :
    i < g.residents.length := by
  obtain ⟨r, hr, -⟩ := h.of_get hget
  exact (List.getElem?_eq_some_iff.mp hr).1

/-- What is stored under a key has changed, for all of its handles. -/
theorem Sound.put (h : g.Sound) {key : String} {p : Namespace} {residents : List Resident}
    (hkeys : residents.map (·.key) = g.residents.map (·.key))
    (hshared : ∀ r ∈ residents, r.key ≠ key → r.group.space = g.spaces r.key)
    (hp : Reaches freeTerms p) : ({ g with residents }.put key p).Sound := by
  have hkeys' : ({ g with residents }.put key p).residents.map (fun r : Resident => r.key) =
      g.residents.map (·.key) := by
    rw [← hkeys, Registry.put, List.map_map]
    refine List.map_congr_left fun r _ => ?_
    rw [Function.comp_apply]
    split
    · rfl
    · rfl
  refine ⟨fun key' i hget => hkeys' ▸ h.mapped key' i hget, fun holder hh => ?_, fun r hr => ?_,
    fun key' => ?_⟩
  · have hlen := congrArg List.length hkeys'
    rw [List.length_map, List.length_map] at hlen
    exact hlen ▸ h.held holder hh
  · obtain ⟨r₀, hr₀, rfl⟩ := List.mem_map.mp hr
    by_cases hkey : r₀.key = key
    · subst hkey
      simp only [if_pos, Registry.put, Function.update_self]
    · simp only [if_neg hkey, Registry.put, Function.update_of_ne hkey]
      exact hshared r₀ hr₀ hkey
  · by_cases hkey : key' = key
    · subst hkey
      simpa only [Registry.put, Function.update_self] using hp
    · simpa only [Registry.put, Function.update_of_ne hkey] using h.reaches key'

/-- The holders hold handles that exist. -/
theorem Sound.setHolders (h : g.Sound) {holders : List Holder} {destroyed : List String}
    (hh : ∀ c ∈ holders, c.resident < g.residents.length) : Sound { g with holders, destroyed } :=
  ⟨h.mapped, hh, h.shared, h.reaches⟩

omit [Crates] [HashOrder] in
/-- A handle that is looked up stays as it is otherwise. -/
theorem getElem?_touched {i n : Nat} {r' : Resident}
    (h : (g.residents.modify i fun r => { r with lastUsed := g.uptime })[n]? = some r') :
    ∃ r, g.residents[n]? = some r ∧ r'.key = r.key ∧ r'.group = r.group := by
  rw [List.getElem?_modify] at h
  obtain ⟨r, hr, rfl⟩ := Option.map_eq_some_iff.mp h
  refine ⟨r, hr, ?_⟩
  split
  · exact ⟨rfl, rfl⟩
  · exact ⟨rfl, rfl⟩

omit [Crates] [HashOrder] in
theorem map_key_touched (i : Nat) :
    (g.residents.modify i fun r => { r with lastUsed := g.uptime }).map (·.key) =
      g.residents.map (·.key) := by
  refine List.ext_getElem (by simp) fun n hn hn' => ?_
  rw [List.getElem_map, List.getElem_map, List.getElem_modify]
  split
  · rfl
  · rfl

theorem Stepped.sound (hs : g.Stepped a g') (h : g.Sound) : g'.Sound := by
  cases hs with
  | found key i hget =>
      have hkeys := map_key_touched (g := g) i
      refine ⟨fun key' j hj => hkeys ▸ h.mapped key' j hj, fun c hc => ?_, fun r hr => ?_, h.reaches⟩
      · rw [List.length_modify]
        rcases List.mem_append.mp hc with hc | hc
        · exact h.held c hc
        · cases List.mem_singleton.mp hc
          exact h.lt_of_get hget
      · obtain ⟨n, hn⟩ := List.mem_iff_getElem?.mp hr
        obtain ⟨r₀, hr₀, hkey, hgroup⟩ := getElem?_touched hn
        rw [hkey, hgroup]
        exact h.shared r₀ (List.mem_of_getElem? hr₀)
  | created key hget =>
      refine ⟨fun key' j hj => ?_, fun c hc => ?_, fun r hr => ?_, h.reaches⟩
      · rw [List.map_append]
        by_cases hkey : key = key'
        · subst hkey
          rw [SortedMap.get_insert_self] at hj
          cases hj
          rw [← List.length_map (f := fun r : Resident => r.key)]
          exact List.getElem?_concat_length
        · rw [SortedMap.get_insert_of_ne _ _ hkey] at hj
          have hmapped := h.mapped key' j hj
          rw [List.getElem?_append_left (List.getElem?_eq_some_iff.mp hmapped).1]
          exact hmapped
      · rw [List.length_append, List.length_singleton]
        rcases List.mem_append.mp hc with hc | hc
        · exact Nat.lt_succ_of_lt (h.held c hc)
        · cases List.mem_singleton.mp hc
          exact Nat.lt_succ_self _
      · rcases List.mem_append.mp hr with hr | hr
        · exact h.shared r hr
        · cases List.mem_singleton.mp hr
          rfl
  | allResident =>
      refine h.setHolders fun c hc => ?_
      rcases List.mem_append.mp hc with hc | hc
      · exact h.held c hc
      · obtain ⟨i, hi, rfl⟩ := List.mem_map.mp hc
        obtain ⟨key, hget⟩ := SortedMap.mem_values_iff.mp hi
        exact h.lt_of_get hget
  | group a i r b group holders hr hb hlookup hsend hholders =>
      have hspace := h.shared r (List.mem_of_getElem? hr)
      have hreaches := (GroupCommit.stepped hb).grows (hspace ▸ h.reaches r.key)
      have hkeys : (g.residents.set i { r with group }).map (·.key) = g.residents.map (·.key) := by
        obtain ⟨hlt, rfl⟩ := List.getElem?_eq_some_iff.mp hr
        refine List.ext_getElem (by simp) fun n hn hn' => ?_
        rw [List.getElem_map, List.getElem_map, List.getElem_set]
        split_ifs with hin
        · subst hin
          rfl
        · rfl
      have hput : ({ g with residents := g.residents.set i { r with group } }.put r.key group.space).Sound := by
        refine h.put hkeys (fun r' hr' hne => ?_) hreaches.1
        rcases List.mem_or_eq_of_mem_set hr' with hr' | rfl
        · exact h.shared r' hr'
        · exact absurd rfl hne
      refine hput.setHolders fun c hc => ?_
      have hmem : c.resident ∈ g.holders.map (·.resident) := hholders ▸ List.mem_map_of_mem hc
      obtain ⟨c₀, hc₀, heq⟩ := List.mem_map.mp hmem
      simp only [Registry.put, List.length_map, List.length_set]
      exact heq ▸ h.held c₀ hc₀
  | space key b p hb =>
      have hok : freeTerms.Meets (g.spaces key) b := GroupCommit.terms_free (.start 0 (g.spaces key)) (.run b)
      exact h.put rfl (fun r hr _ => h.shared r hr) ((h.reaches key).step b hok hb)
  | released a n destroyed hlookup =>
      exact h.setHolders fun c hc => h.held c (List.mem_of_mem_eraseIdx hc)
  | forget j key hkey =>
      refine ⟨fun key' i hget => ?_, h.held, h.shared, h.reaches⟩
      have herase : (g.map.erase key).get key' = some i := hget
      rw [SortedMap.get_erase] at herase
      split_ifs at herase
      exact h.mapped key' i herase
  | evictIdle ttl =>
      refine ⟨fun key' i hget => ?_, h.held, h.shared, h.reaches⟩
      rw [Registry.evictIdle, SortedMap.get_filterKeys] at hget
      split_ifs at hget
      exact h.mapped key' i hget
  | tick ms => exact ⟨h.mapped, h.held, h.shared, h.reaches⟩

/-! ## A committer that is not alive stays so -/

omit [Crates] [HashOrder] in
/-- A committer gets nothing when something under a key changes. -/
theorem laden_of_put {key : String} {p : Namespace} {residents : List Resident} {i : Nat} {r' : Resident}
    (hr' : ({ g with residents }.put key p).residents[i]? = some r')
    (hgrows : ∀ r ∈ residents, r.key = key → Grows (fun _ => True) r.group.space.shared p.shared) :
    ∃ r, residents[i]? = some r ∧ r'.key = r.key ∧ (r'.group.Laden → r.group.Laden) := by
  have hmap : (residents.map fun r => if r.key = key then { r with group := { r.group with space := p } }
      else r)[i]? = some r' := hr'
  rw [List.getElem?_map] at hmap
  obtain ⟨r, hr, rfl⟩ := Option.map_eq_some_iff.mp hmap
  refine ⟨r, hr, ?_⟩
  split_ifs with hkey
  · exact ⟨rfl, fun hladen => hladen.of_grows (hgrows r (List.mem_of_getElem? hr) hkey)⟩
  · exact ⟨rfl, id⟩

/-- **A step gives uncommitted records only to a committer whose handle is held.** -/
theorem Stepped.laden (hs : g.Stepped a g') (h : g.Sound) {i : Nat} {r' : Resident}
    (hr' : g'.residents[i]? = some r') (hold : i < g.residents.length) :
    ∃ r, g.residents[i]? = some r ∧ r'.key = r.key ∧ (r'.group.Laden → r.group.Laden ∨ g.Held i) := by
  cases hs with
  | found key j hget =>
      obtain ⟨r, hr, hkey, hgroup⟩ := getElem?_touched hr'
      exact ⟨r, hr, hkey, fun hladen => .inl (hgroup ▸ hladen)⟩
  | created key hget =>
      rw [List.getElem?_append_left hold] at hr'
      exact ⟨r', hr', rfl, .inl⟩
  | group a j r b group holders hr hb hlookup hsend hholders =>
      have hst := GroupCommit.stepped hb
      have hspace := h.shared r (List.mem_of_getElem? hr)
      have hreaches : Reaches freeTerms r.group.space := hspace ▸ h.reaches r.key
      have hgrows := (hst.grows hreaches).2
      obtain ⟨r₁, hr₁, hkey, hladen⟩ := laden_of_put hr' fun r₁ hr₁ hkey => by
        rcases List.mem_or_eq_of_mem_set hr₁ with hr₁ | rfl
        · rw [h.shared r₁ hr₁, hkey, ← hspace]
          exact hgrows
        · exact .refl _
      by_cases hji : j = i
      · subst hji
        rw [List.getElem?_set_self hold] at hr₁
        cases hr₁
        refine ⟨r, hr, hkey, fun hl => ?_⟩
        by_cases hw : ∃ w, b = .send w
        · exact .inr (hsend hw)
        · exact .inl (hst.laden hreaches (fun w heq => hw ⟨w, heq⟩) (hladen hl))
      · rw [List.getElem?_set_ne hji] at hr₁
        exact ⟨r₁, hr₁, hkey, fun hl => .inl (hladen hl)⟩
  | space key b p hb =>
      have hok : freeTerms.Meets (g.spaces key) b := GroupCommit.terms_free (.start 0 (g.spaces key)) (.run b)
      obtain ⟨r, hr, hkey, hladen⟩ := laden_of_put hr' fun r₁ hr₁ hkey => by
        rw [h.shared r₁ hr₁, hkey]
        exact (h.reaches key).grows_step hok hb
      exact ⟨r, hr, hkey, fun hl => .inl (hladen hl)⟩
  | allResident | released | forget | evictIdle | tick => exact ⟨r', hr', rfl, .inl⟩

/-- An entry of the map was there before, but for that of a new handle. -/
theorem Stepped.get (hs : g.Stepped a g') {key : String} {i : Nat} (hget : g'.map.get key = some i)
    (hold : i < g.residents.length) : g.map.get key = some i := by
  cases hs with
  | created key' hnone =>
      rw [SortedMap.get_insert] at hget
      split_ifs at hget
      · cases hget
        exact absurd hold (Nat.lt_irrefl _)
      · exact hget
  | forget j key' hkey =>
      rw [Registry.forget, SortedMap.get_erase] at hget
      split_ifs at hget
      exact hget
  | evictIdle ttl =>
      rw [Registry.evictIdle, SortedMap.get_filterKeys] at hget
      split_ifs at hget
      exact hget
  | found | allResident | group | space | released | tick => exact hget

/-- A handle that is held was held before or is in the map, if it is not new. -/
theorem Stepped.held (hs : g.Stepped a g') {i : Nat} (hheld : g'.Held i)
    (hold : i < g.residents.length) : g.Held i ∨ ∃ key, g.map.get key = some i := by
  obtain ⟨c, hc, rfl⟩ := hheld
  cases hs with
  | found key j hget =>
      rcases List.mem_append.mp hc with hc | hc
      · exact .inl ⟨c, hc, rfl⟩
      · cases List.mem_singleton.mp hc
        exact .inr ⟨key, hget⟩
  | created key hget =>
      rcases List.mem_append.mp hc with hc | hc
      · exact .inl ⟨c, hc, rfl⟩
      · cases List.mem_singleton.mp hc
        exact absurd hold (Nat.lt_irrefl _)
  | allResident =>
      rcases List.mem_append.mp hc with hc | hc
      · exact .inl ⟨c, hc, rfl⟩
      · obtain ⟨j, hj, rfl⟩ := List.mem_map.mp hc
        exact .inr (SortedMap.mem_values_iff.mp hj)
  | group a j r b group holders hr hb hlookup hsend hholders =>
      have hmem : c.resident ∈ g.holders.map (·.resident) := hholders ▸ List.mem_map_of_mem hc
      obtain ⟨c₀, hc₀, heq⟩ := List.mem_map.mp hmem
      exact .inl ⟨c₀, hc₀, heq⟩
  | released a n destroyed hlookup => exact .inl ⟨c, List.mem_of_mem_eraseIdx hc, rfl⟩
  | space | forget | evictIdle | tick => exact .inl ⟨c, hc, rfl⟩

/-- **No step revives a committer.** -/
theorem Stepped.live (hs : g.Stepped a g') (h : g.Sound) {key : String} {i : Nat} (hlive : g'.Live key i)
    (hold : i < g.residents.length) : g.Live key i := by
  obtain ⟨r', hr', rfl, hlive⟩ := hlive
  obtain ⟨r, hr, hkey, hladen⟩ := hs.laden h hr' hold
  refine ⟨r, hr, hkey.symm, ?_⟩
  rcases hlive with hget | hheld | hl
  · exact .inl (hs.get hget hold)
  · rcases hs.held hheld hold with hheld | ⟨key, hget⟩
    · exact .inr (.inl hheld)
    · -- a handle is in the map under its own key
      obtain ⟨r₁, hr₁, rfl⟩ := h.of_get hget
      obtain rfl := Option.some.inj (hr₁.symm.trans hr)
      exact .inl (hkey ▸ hget)
  · rcases hladen hl with hl | hheld
    · exact .inr (.inr hl)
    · exact .inr (.inl hheld)

/-- A step creates a handle just for a key that has none in the map. -/
theorem Stepped.creates (hs : g.Stepped a g') :
    g'.residents.length = g.residents.length ∧ (∀ key, a = .resident key → g.map.get key ≠ none) ∨
      ∃ key, a = .resident key ∧ g.map.get key = none ∧ g'.map = g.map.insert key g.residents.length ∧
        ∃ r, r.key = key ∧ g'.residents = g.residents ++ [r] ∧ ∀ i, g.Held i → g'.Held i := by
  cases hs with
  | found key i hget =>
      refine .inl ⟨List.length_modify _ _ _, fun key' heq hnone => ?_⟩
      cases heq
      cases hget.symm.trans hnone
  | created key hget =>
      exact .inr ⟨key, rfl, hget, rfl, _, rfl, rfl, fun i ⟨c, hc, hci⟩ =>
        ⟨c, List.mem_append_left _ hc, hci⟩⟩
  | group a i r b group holders hr hb hlookup =>
      exact .inl ⟨by simp only [Registry.put, List.length_map, List.length_set], fun key heq =>
        absurd heq (hlookup key)⟩
  | released a n destroyed hlookup => exact .inl ⟨rfl, fun key heq => absurd heq (hlookup key)⟩
  | space => exact .inl ⟨by simp only [Registry.put, List.length_map], nofun⟩
  | allResident | forget | evictIdle | tick => exact .inl ⟨rfl, nofun⟩

omit [Crates] [HashOrder] in
theorem Live.lt {key : String} {i : Nat} (h : g.Live key i) : i < g.residents.length := by
  obtain ⟨r, hr, -⟩ := h
  exact (List.getElem?_eq_some_iff.mp hr).1

/-- **What makes a second committer**: a step keeps to one if and only if the handle that it creates, if it
does, is of a key without a committer that is alive. -/
theorem Stepped.oneCommitter_iff (hs : g.Stepped a g') (h : g.Sound) (hone : g.OneCommitter) :
    g'.OneCommitter ↔ freshTerms g a := by
  rcases hs.creates with ⟨hlen, hfound⟩ | ⟨key, rfl, hget, hmap, r, hkey, hres, hheld⟩
  · refine iff_of_true (fun key i j hi hj => ?_) ?_
    · exact hone key i j (hs.live h hi (hlen ▸ hi.lt)) (hs.live h hj (hlen ▸ hj.lt))
    · cases a with
      | resident key => exact fun hnone => absurd hnone (hfound key rfl)
      | _ => trivial
  have hnew : g'.residents[g.residents.length]? = some r := hres ▸ List.getElem?_concat_length
  constructor
  · -- an old one that is alive stays so, and the new one is alive
    intro hone' _ i hi
    refine absurd (hone' key i g.residents.length ?_ ?_) hi.lt.ne
    · obtain ⟨r₀, hr₀, hkey₀, hlive⟩ := hi
      refine ⟨r₀, ?_, hkey₀, ?_⟩
      · rw [hres, List.getElem?_append_left (List.getElem?_eq_some_iff.mp hr₀).1]
        exact hr₀
      · rcases hlive with hin | hh | hl
        · cases hget.symm.trans hin
        · exact .inr (.inl (hheld i hh))
        · exact .inr (.inr hl)
    · exact ⟨r, hnew, hkey, .inl (hmap ▸ SortedMap.get_insert_self _ _ _)⟩
  · -- the new one is the only one of its key
    intro hfresh key' i j hi hj
    have hcases {i : Nat} (hi : g'.Live key' i) :
        g.Live key' i ∨ i = g.residents.length ∧ key' = key := by
      rcases Nat.lt_or_ge i g.residents.length with hlt | hge
      · exact .inl (hs.live h hi hlt)
      · have hilen := hi.lt
        rw [hres, List.length_append, List.length_singleton] at hilen
        obtain rfl := Nat.le_antisymm (Nat.le_of_lt_succ hilen) hge
        obtain ⟨r', hr', rfl, -⟩ := hi
        obtain rfl := Option.some.inj (hnew.symm.trans hr')
        exact .inr ⟨rfl, hkey⟩
    rcases hcases hi with hi | ⟨rfl, rfl⟩
    · rcases hcases hj with hj | ⟨rfl, rfl⟩
      · exact hone key' i j hi hj
      · exact absurd hi (hfresh hget i)
    · rcases hcases hj with hj | ⟨rfl, -⟩
      · exact absurd hj (hfresh hget j)
      · rfl

/-! ## Handles that leave the map -/

omit [Crates] [HashOrder] in
/-- **A sweep spares a handle that is held.** -/
theorem retains_of_held {key : String} {i : Nat} {r : Resident} (hr : g.residents[i]? = some r)
    (hget : g.map.get key = some i) (hheld : g.Held i) (ttl : Nat) : g.retains ttl i = true := by
  have hmap : 0 < g.map.values.count i := List.count_pos_iff.mpr (SortedMap.mem_values_iff.mpr ⟨key, hget⟩)
  have hholders : 0 < (g.holders.map (·.resident)).count i := by
    obtain ⟨c, hc, rfl⟩ := hheld
    exact List.count_pos_iff.mpr (List.mem_map_of_mem hc)
  have hcount : 1 < g.strongCount i := Nat.add_lt_add_of_le_of_lt hmap hholders
  simp only [retains, hr, Option.any_some, hcount, decide_true, Bool.or_true]

/-- Every committer that is alive belongs to the handle in the map. -/
def InMap (g : Registry) : Prop := ∀ key i, g.Live key i → g.map.get key = some i

omit [Crates] [HashOrder] in
theorem InMap.oneCommitter (h : g.InMap) : g.OneCommitter := fun key i j hi hj =>
  Option.some.inj ((h key i hi).symm.trans (h key j hj))

omit [Crates] [HashOrder] in
theorem InMap.fresh (h : g.InMap) (a : RegistryAction) : freshTerms g a := by
  cases a with
  | resident key => exact fun hnone i hi => nomatch hnone.symm.trans (h key i hi)
  | _ => trivial

/-- **The committers that are alive stay in the map**, if only drained ones leave it. -/
theorem Stepped.inMap (hs : g.Stepped a g') (h : g.Sound) (hin : g.InMap) (hok : retiredTerms g a) :
    g'.InMap := by
  intro key i hi
  rcases hs.creates with ⟨hlen, -⟩ | ⟨key', rfl, hget, hmap, r, hkey, hres, -⟩
  · have hget := hin key i (hs.live h hi (hlen ▸ hi.lt))
    obtain ⟨r', hr', -, hlive⟩ := hi
    cases hs with
    | created =>
        rw [List.length_append] at hlen
        exact absurd hlen (Nat.succ_ne_self _)
    | forget j key' hkey =>
        by_cases heq : key' = key
        · subst heq
          obtain ⟨hfree, hdrained⟩ := hok key' hkey i hget
          rcases hlive with hgone | hheld | hladen
          · rw [Registry.forget, SortedMap.get_erase_self] at hgone
            cases hgone
          · exact absurd hheld hfree
          · exact absurd hladen (hdrained r' hr')
        · exact (SortedMap.get_erase_of_ne _ heq).trans hget
    | evictIdle ttl =>
        rcases hlive with hstays | hheld | hladen
        · exact hstays
        · rw [Registry.evictIdle, SortedMap.get_filterKeys, hget, Option.any_some,
            if_pos (retains_of_held (g := g) hr' hget hheld ttl)]
        · rw [Registry.evictIdle, SortedMap.get_filterKeys, hget, Option.any_some]
          split_ifs with hretains
          · rfl
          · have hmem := SortedMap.get_eq_some_iff.mp hget
            exact absurd hladen (hok _ hmem (Bool.eq_false_of_not_eq_true hretains) r' hr')
    | found | allResident | group | space | released | tick => exact hget
  · rcases Nat.lt_or_ge i g.residents.length with hlt | hge
    · have hold := hin key i (hs.live h hi hlt)
      refine hmap ▸ (SortedMap.get_insert_of_ne _ _ fun heq => ?_).trans hold
      subst heq
      cases hget.symm.trans hold
    · have hilen := hi.lt
      rw [hres, List.length_append, List.length_singleton] at hilen
      obtain rfl := Nat.le_antisymm (Nat.le_of_lt_succ hilen) hge
      obtain ⟨r', hr', rfl, -⟩ := hi
      rw [hres, List.getElem?_concat_length] at hr'
      obtain rfl := Option.some.inj hr'
      rw [hmap, hkey, SortedMap.get_insert_self]

/-! ## Runs of a node -/

theorem execute_oneCommitter_iff (h : g.Sound) (hone : g.OneCommitter) (acts : List RegistryAction) :
    (∀ n g', execute step g (acts.take n) = some g' → g'.OneCommitter) ↔
      Allowed step freshTerms g acts := by
  induction acts generalizing g with
  | nil =>
      refine iff_of_true (fun n g' hrun => ?_) trivial
      rw [List.take_nil, execute, Option.some.injEq] at hrun
      exact hrun ▸ hone
  | cons a acts ih =>
      constructor
      · intro hall
        have hnext {g₁ : Registry} (hs : g.step a = some g₁) : g₁.OneCommitter :=
          hall 1 g₁ (by rw [List.take_succ_cons, execute, hs, List.take_zero]; rfl)
        refine ⟨?_, fun g₁ hs => ?_⟩
        · cases a with
          | resident key => exact ((stepped rfl).oneCommitter_iff h hone).mp (hnext rfl)
          | _ => trivial
        · refine (ih ((stepped hs).sound h) (hnext hs)).mp fun n g' hrun => hall (n + 1) g' ?_
          rw [List.take_succ_cons, execute, hs]
          exact hrun
      · rintro ⟨hok, hrest⟩ n g' hrun
        cases n with
        | zero =>
            rw [List.take_zero, execute, Option.some.injEq] at hrun
            exact hrun ▸ hone
        | succ n =>
            obtain ⟨g₁, hs, hrun⟩ := Option.bind_eq_some_iff.mp hrun
            have hst := stepped hs
            exact (ih (hst.sound h) ((hst.oneCommitter_iff h hone).mpr hok)).mpr (hrest g₁ hs) n g' hrun

theorem allowed_fresh (h : g.Sound) (hin : g.InMap) {acts : List RegistryAction}
    (hok : Allowed step retiredTerms g acts) : Allowed step freshTerms g acts := by
  induction acts generalizing g with
  | nil => trivial
  | cons a acts ih =>
      refine ⟨hin.fresh a, fun g₁ hs => ?_⟩
      have hst := stepped hs
      exact ih (hst.sound h) (hst.inMap h hin hok.1) (hok.2 g₁ hs)

/-- **One committer for each namespace**, in every state of a run, if and only if each handle that is
created is of a key without a committer that is alive; which holds if handles leave the map only without
uncommitted records, and with a deletion only when nobody holds them. -/
theorem runs_oneCommitter (acts : List RegistryAction) :
    ((∀ n g, execute step {} (acts.take n) = some g → g.OneCommitter) ↔
        Allowed step freshTerms {} acts) ∧
      (Allowed step retiredTerms {} acts → Allowed step freshTerms {} acts) := by
  have hnone : InMap {} := fun key i hi => (Nat.not_lt_zero i hi.lt).elim
  exact ⟨execute_oneCommitter_iff .start hnone.oneCommitter acts, allowed_fresh .start hnone⟩

end Registry

end Node

/-! ## Two committers -/

instance (g : GroupCommit) : Decidable g.Laden :=
  inferInstanceAs (Decidable (g.queue ≠ [] ∨ g.uncommitted ≠ []))

namespace Registry

instance (g : Registry) (i : Nat) : Decidable (g.Held i) :=
  inferInstanceAs (Decidable (∃ h ∈ g.holders, h.resident = i))

instance (g : Registry) (i : Nat) : Decidable (g.Drained i) :=
  inferInstanceAs (Decidable (∀ r ∈ g.residents[i]?, ¬ r.group.Laden))

instance (g : Registry) : (a : RegistryAction) → Decidable (retiredTerms g a)
  | .forget j => inferInstanceAs
      (Decidable (∀ key ∈ g.destroyed[j]?, ∀ i ∈ g.map.get key, ¬ g.Held i ∧ g.Drained i))
  | .evictIdle ttl => inferInstanceAs
      (Decidable (∀ e ∈ g.map.entries, g.retains ttl e.2 = false → g.Drained e.2))
  | .resident _ | .allResident | .write _ _ _ | .send _ | .destroy _ | .destroyed _ | .drop _
  | .commit _ _ | .run _ _ | .tick _ => isTrue trivial

end Registry

end Live

/-- A request for the key writes a record. -/
def writes (key : String) : List RegistryAction :=
  [.resident key, .write 0 [.upsert (.bare 1)] {}, .send 0]

/-- The committer of a handle commits a record, as the first thread of the namespace. -/
def commitsOne (key : String) (i : Nat) : List RegistryAction :=
  [.commit i .receive, .commit i .commit] ++ (goes 0 6).map (.run key) ++
    [.commit i .finish, .commit i .reply, .commit i .reply]

/-- Another request deletes the namespace, which has nothing stored. -/
def deletes (key : String) : List RegistryAction :=
  [.resident key, .destroy 1, .run key (.run 0 .go), .run key (.run 0 (.count 0)), .run key (.run 0 .go),
    .destroyed 1, .forget 0]

/-- A committed write; the handle goes idle, is evicted and created again. -/
def evictedRun : List RegistryAction :=
  writes (appKey "acme" "docs") ++ commitsOne (appKey "acme" "docs") 0 ++
    [.drop 0, .allResident, .drop 0, .tick 600000, .evictIdle 600000, .resident (appKey "acme" "docs")]

/-- The namespace is deleted while a write waits in the queue. -/
def deletedRun : List RegistryAction :=
  writes (appKey "acme" "docs") ++ deletes (appKey "acme" "docs") ++ [.resident (appKey "acme" "docs")]

/-- The client of a write goes away; the handle goes idle with its record in the queue. -/
def abandonedRun : List RegistryAction :=
  writes (appKey "acme" "docs") ++
    [.drop 0, .tick 600000, .evictIdle 600000, .resident (appKey "acme" "docs")]

theorem evictedRun_oneCommitter :
    let _ := Crates.inert
    let _ := HashOrder.sorted
    ∃ g, execute Registry.step {} evictedRun = some g ∧ g.residents.length = 2 ∧ g.OneCommitter := by
  have hallowed : @Allowed _ _ (@Registry.step Crates.inert HashOrder.sorted) Registry.retiredTerms
      {} evictedRun := by decide +kernel
  intro _ _
  have hrun : (execute Registry.step {} evictedRun).any (fun g => g.residents.length = 2) = true := by
    decide +kernel
  obtain ⟨g, hg, hlen⟩ := (Option.any_eq_true _ _).mp hrun
  have hruns := Registry.runs_oneCommitter evictedRun
  refine ⟨g, hg, of_decide_eq_true hlen, hruns.1.mpr (hruns.2 hallowed) evictedRun.length g ?_⟩
  rw [List.take_length]
  exact hg

/-- Two handles of a key: the records of the first are not committed, and the map has the second. -/
def Registry.twice (g : Registry) (key : String) : Bool :=
  match g.residents with
  | [r, r'] => r.key == key && r'.key == key && !r.group.queue.isEmpty && g.map.get key == some 1
  | _ => false

/-- **Two committers for one namespace**: a deletion takes the handle of a write that is on its way out of
the map, and so does a sweep when the client of the write has gone. -/
theorem deleted_two_committers :
    let _ := Crates.inert
    let _ := HashOrder.sorted
    ∀ acts ∈ [deletedRun, abandonedRun],
      ¬ ∀ n g, execute Registry.step {} (acts.take n) = some g → g.OneCommitter := by
  have htwice : ∀ acts ∈ [deletedRun, abandonedRun],
      (execute (@Registry.step Crates.inert HashOrder.sorted) {} acts).any
        (·.twice (appKey "acme" "docs")) = true := by decide +kernel
  intro _ _ acts hacts hall
  obtain ⟨g, hg, htwo⟩ := (Option.any_eq_true _ _).mp (htwice acts hacts)
  have hone := hall acts.length g (by rw [List.take_length]; exact hg)
  rw [Registry.twice] at htwo
  split at htwo
  · next r r' hres =>
    rw [Bool.and_eq_true, Bool.and_eq_true, Bool.and_eq_true] at htwo
    obtain ⟨⟨⟨hkey, hkey'⟩, hqueue⟩, hget⟩ := htwo
    have hlive : g.Live (appKey "acme" "docs") 0 :=
      ⟨r, by rw [hres]; rfl, eq_of_beq hkey, .inr (.inr (.inl (by simpa using hqueue)))⟩
    have hlive' : g.Live (appKey "acme" "docs") 1 :=
      ⟨r', by rw [hres]; rfl, eq_of_beq hkey', .inl (eq_of_beq hget)⟩
    cases hone _ 0 1 hlive hlive'
  · cases htwo

end Fckdb
