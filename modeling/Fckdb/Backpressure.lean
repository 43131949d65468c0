import Fckdb.Delivery
import Fckdb.FullProbe
import Fckdb.RecordSize
import Mathlib.Algebra.Order.BigOperators.Group.List

/-! # Backpressure

A write handler loads the manifest and refuses the request if the unindexed tail is at half the scan cap;
else it assembles the records and hands them to the committer, in its own time. The tail stays within the
cap, so that no strongly consistent query is refused for it, if each request that is admitted still fits
with the tail and with all that was admitted before it and not committed (`Front.Reached.available`). The
handlers do not look at that: one large request, or many at once, overrun the cap
(`overrun_not_available`). -/

namespace Fckdb

/-! ## The handlers -/

/-- The write handlers of a node over one namespace: its committer, and the requests that were admitted and
are being assembled, each with what it comes to. -/
structure Front where
  group : GroupCommit
  admitted : List (List Record × WriteConfig) := []

/-- What can happen next. -/
inductive FrontAction
  /-- A handler loads the manifest, and admits its request or refuses it. -/
  | load (records : List Record) (config : WriteConfig)
  /-- An admitted request is handed to the committer. -/
  | submit (i : Nat)
  /-- An admitted request cannot be assembled, or its client goes away. -/
  | cancel (i : Nat)
  /-- A step of the committer or of the namespace. -/
  | group (a : GroupAction)

namespace Front

/-- No request has come in. -/
def start (handle : Nat) (space : Namespace) : Front := { group := .start handle space }

variable [Crates] [HashOrder]

/-- One step. -/
def step (f : Front) : FrontAction → Option Front
  | .load records config =>
    if writeBackpressureBytes ≤ f.group.space.shared.manifest.unindexedBytes then
      -- refused; a compaction is triggered
      (f.group.step (.run (.spawn (.compact f.group.handle true)))).map fun g => { f with group := g }
    else some { f with admitted := f.admitted ++ [(records, config)] }
  | .submit i =>
    match f.admitted[i]? with
    | none => none
    | some (records, config) =>
      (f.group.step (.write records config)).map fun g => ⟨g, f.admitted.eraseIdx i⟩
  | .cancel i => if i < f.admitted.length then some { f with admitted := f.admitted.eraseIdx i } else none
  | .group (.write _ _) => none
  | .group a => (f.group.step a).map fun g => { f with group := g }

/-- The states that handlers reach from a namespace. -/
abbrev Reached (ok : Front → FrontAction → Prop) (handle : Nat) (p : Namespace) (f : Front) : Prop :=
  Reachable step ok (start handle p) f

end Front

/-! ## What is on its way -/

section Way

variable [Crates]

/-- The records that are being committed, as long as their commit has not won. -/
def GroupCommit.uncommitted (g : GroupCommit) : List Req :=
  match g.committer with
  | .draining waiters => waiters
  | .committing waiters t => if g.space.shared.writtenBy t = [] then waiters else []
  | _ => []

/-- The most bytes that the records of a committer can still add to the tail. -/
def GroupCommit.onItsWay (g : GroupCommit) : Nat :=
  (g.writers.map fun w => roomOf (w.records.drop w.waits.length)).sum +
    roomOf (g.queue.map (·.record)) + roomOf (g.uncommitted.map (·.record))

/-- The most bytes that everything admitted can still add to the tail. -/
def Front.onItsWay (f : Front) : Nat := (f.admitted.map fun r => roomOf r.1).sum + f.group.onItsWay

theorem roomOf_append (rs rs' : List Record) : roomOf (rs ++ rs') = roomOf rs + roomOf rs' := by
  rw [roomOf, List.map_append, List.sum_append, roomOf, roomOf]

theorem roomOf_nil : roomOf [] = 0 := rfl

theorem roomOf_cons (r : Record) (rs : List Record) : roomOf (r :: rs) = r.room + roomOf rs := rfl

omit [Crates] in
/-- One summand of a sum goes. -/
theorem sum_eraseIdx {α : Type} (f : α → Nat) {l : List α} {i : Nat} {a : α} (h : l[i]? = some a) :
    f a + ((l.eraseIdx i).map f).sum = (l.map f).sum := by
  obtain ⟨hlt, rfl⟩ := List.getElem?_eq_some_iff.mp h
  rw [← ((List.getElem_cons_eraseIdx_perm hlt).map f).sum_eq, List.map_cons, List.sum_cons]

omit [Crates] in
/-- One summand of a sum changes. -/
theorem sum_set {α : Type} (f : α → Nat) {l : List α} {i : Nat} {a : α} (b : α) (h : l[i]? = some a) :
    f a + ((l.set i b).map f).sum = f b + (l.map f).sum := by
  obtain ⟨hlt, -⟩ := List.getElem?_eq_some_iff.mp h
  rw [((List.set_perm_cons_eraseIdx hlt b).map f).sum_eq, List.map_cons, List.sum_cons,
    ← sum_eraseIdx f h]
  omega

/-! ## Moves -/

section Moves

variable [HashOrder] {ok : Terms} {t : Nat} {call : Call} {s s' : Store}

omit [Crates] [HashOrder] in
theorem Grows.writtenBy_eq_nil {who : Nat → Prop} (h : Grows who s s') {u : Nat}
    (hu : s'.writtenBy u = []) : s.writtenBy u = [] := by
  rw [Store.writtenBy, List.filter_eq_nil_iff] at hu ⊢
  exact fun v hv => hu v (h.isPrefix.subset hv)

omit [HashOrder] in
/-- **A move makes the tail longer** only by the batch of a commit, the first version of its thread. -/
theorem Move.tail (hs : s.Sound) (h : Move ok t call s s') :
    s'.manifest.unindexedBytes ≤ s.manifest.unindexedBytes ∨
      ∃ prepare schema batch, call.prepare = some prepare ∧ prepare s.manifest = .ok (schema, batch) ∧
        s'.manifest.unindexedBytes = s.manifest.unindexedBytes + (frameRecords batch).length ∧
        s.writtenBy t = [] ∧ s'.writtenBy t ≠ [] := by
  cases h with
  | calm hv _ hdrop _ => exact .inl (by rw [Store.manifest, hv, hdrop, Store.manifest])
  | commit prepare schema batch uuid now mode asked prepared stored first allowed admitted result =>
      subst result
      refine .inr ⟨prepare, schema, batch, asked, prepared, ?_, first, ?_⟩
      · rw [Store.push_manifest hs.dropped, Manifest.unindexedBytes, Manifest.push_wal, List.map_append,
          List.sum_append, Manifest.unindexedBytes]
        rfl
      · rw [Store.writtenBy_push]
        exact List.append_ne_nil_of_right_ne_nil _ (List.cons_ne_nil _ _)
  | install handle buildIndex base read m records shards now mode asked based later known documents
      built distinct same first allowed admitted result =>
      subst result
      refine .inl ?_
      rw [Store.push_manifest hs.dropped, Manifest.unindexedBytes, Manifest.install_wal,
        Manifest.unindexedBytes]
      exact (List.filter_sublist.map _).sum_le_sum fun _ _ => Nat.zero_le _
  | delete _ _ _ _ _ _ _ _ _ _ _ _ _ _ result => exact .inl (by rw [result]; exact Nat.le_refl _)
  | drop _ _ _ result =>
      subst result
      refine .inl ?_
      rw [Store.manifest, List.drop_length]
      exact Nat.zero_le _
  | list _ _ _ _ _ result => exact .inl (by rw [result]; exact Nat.le_refl _)
  | wipe _ _ _ _ result => exact .inl (by rw [result]; exact Nat.le_refl _)

end Moves

/-! ## The margin -/

section Runs

variable [HashOrder]

/-- Every manifest of the history is within the cap, so that a strongly consistent query reads all of its
tail. -/
structure Store.Available (s : Store) : Prop where
  bytes : ∀ v ∈ s.versions, v.manifest.unindexedBytes ≤ maxUnindexedScanBytes
  strong : ∀ v ∈ s.versions, tailEntries v.manifest .strong = .ok (v.manifest.wal, false)

/-- The calls that write are those of batches. -/
def GroupCommit.Sole (g : GroupCommit) : Prop :=
  ∀ t call, (g.space.threads.map (·.call))[t]? = some call → call.prepare ≠ none →
    ∃ waiters, (t, waiters) ∈ g.batches

/-- The calls that write are those of batches; the history is within the cap, and the current tail with all
that is on its way, too. -/
structure Front.Margin (f : Front) : Prop where
  sole : f.group.Sole
  bytes : ∀ v ∈ f.group.space.shared.versions, v.manifest.unindexedBytes ≤ maxUnindexedScanBytes
  margin : f.group.space.shared.manifest.unindexedBytes + f.onItsWay ≤ maxUnindexedScanBytes

/-- Runs in which only the handlers write. -/
def handlerTerms : Front → FrontAction → Prop
  | _, .group (.run (.spawn call)) => call.prepare = none
  | _, _ => True

/-- Runs in which only the handlers write, and each request that is admitted fits under the cap with the
tail and all that is on its way. -/
def marginTerms : Front → FrontAction → Prop
  | f, .load records _ => f.group.space.shared.manifest.unindexedBytes < writeBackpressureBytes →
      f.group.space.shared.manifest.unindexedBytes + f.onItsWay + roomOf records ≤ maxUnindexedScanBytes
  | _, .group (.run (.spawn call)) => call.prepare = none
  | _, _ => True

namespace GroupCommit

variable {g g' : GroupCommit} {a : GroupAction}

/-- A step of the committer that is not one of the namespace leaves what is on its way, or lets go of some
of it. -/
theorem Stepped.onItsWay_le (hs : g.Stepped a g') (hwrite : ∀ records config, a ≠ .write records config)
    (hrun : ∀ b, a ≠ .run b) (hspawned : ∀ v ∈ g.space.shared.versions, v.thread < g.space.threads.length) :
    g'.onItsWay ≤ g.onItsWay := by
  cases hs with
  | write records config => exact absurd rfl (hwrite records config)
  | send i w record hw hr =>
      have hsum := sum_set (fun w : Writer => roomOf (w.records.drop w.waits.length))
        { w with waits := w.waits ++ [g.sent] } hw
      obtain ⟨hlt, hget⟩ := List.getElem?_eq_some_iff.mp hr
      have hdrop : w.records.drop w.waits.length = record :: w.records.drop (w.waits.length + 1) := by
        rw [List.drop_eq_getElem_cons hlt, hget]
      simp only [hdrop, roomOf_cons, List.length_append, List.length_singleton] at hsum
      simp only [onItsWay, uncommitted, List.map_append, roomOf_append, List.map_singleton, roomOf_cons,
        roomOf_nil]
      omega
  | receive first rest hc hq =>
      simp only [onItsWay, uncommitted, hc, hq, List.map_cons, roomOf_cons, List.map_nil]
      omega
  | drain waiters item rest hc hq hroom =>
      simp only [onItsWay, uncommitted, hc, hq, List.map_cons, roomOf_cons, List.map_append,
        roomOf_append, List.map_nil, roomOf_nil]
      omega
  | commit waiters space hc hfull hs =>
      obtain rfl := Option.some.inj hs
      -- the thread is new
      have hnone : g.space.shared.writtenBy g.space.threads.length = [] := by
        rw [Store.writtenBy, List.filter_eq_nil_iff]
        exact fun v hv heq => absurd (hspawned v hv) (of_decide_eq_true heq ▸ Nat.lt_irrefl _)
      simp only [onItsWay, uncommitted, hc, if_pos hnone]
      exact Nat.le_refl _
  | run b space hs => exact absurd rfl (hrun b)
  | finish waiters t r hc hr =>
      simp only [onItsWay, uncommitted, hc]
      exact Nat.add_le_add_left (Nat.zero_le _) _
  | reply w rest t r hc =>
      simp only [onItsWay, uncommitted, hc]
      exact Nat.le_refl _
  | rest t r hc =>
      simp only [onItsWay, uncommitted, hc]
      exact Nat.le_refl _

omit [HashOrder] in
/-- Records whose commit has won are not on their way. -/
theorem onItsWay_le_of_grows {p : Namespace} (hg : Grows (fun _ => True) g.space.shared p.shared) :
    ({ g with space := p } : GroupCommit).onItsWay ≤ g.onItsWay := by
  refine Nat.add_le_add_left ?_ _
  simp only [uncommitted]
  split
  · exact Nat.le_refl _
  · split_ifs with hnew hold
    · exact Nat.le_refl _
    · exact absurd (hg.writtenBy_eq_nil hnew) hold
    · exact Nat.zero_le _
    · exact Nat.le_refl _
  · exact Nat.le_refl _

/-- **A step of the namespace** moves bytes from what is on its way to the tail, or takes some away. -/
theorem run_margin {p : Namespace} {b : Act} (ht : g.Tidy) (hspace : Reaches freeTerms g.space)
    (hsole : g.Sole)
    (hs : service.step g.space b = some p) :
    p.shared.manifest.unindexedBytes + ({ g with space := p } : GroupCommit).onItsWay ≤
      g.space.shared.manifest.unindexedBytes + g.onItsWay := by
  have hok : freeTerms.Meets g.space b := terms_free g (.run b)
  have hway := onItsWay_le_of_grows (hspace.grows_step hok hs)
  rcases hspace.step_guar hok hs with ⟨t, c, call, op, next, x, -, hth, -, hg⟩ | ⟨nanos, heq⟩
  · rcases hg.2.tail hspace.sound with hle | ⟨prepare, schema, batch, hcall, hprep, hbytes, hold, hnew⟩
    · exact Nat.add_le_add hle hway
    · -- the thread is the one that commits a batch
      have hprepare : call.prepare ≠ none := by
        rw [hcall]
        exact Option.some_ne_none _
      obtain ⟨waiters, hb⟩ := hsole t call (by rw [List.getElem?_map, hth]; rfl) hprepare
      obtain ⟨th, hth', hcall'⟩ := ht.calls _ hb
      obtain rfl := Option.some.inj (hth.symm.trans hth')
      obtain rfl : call = _ := hcall'
      cases hcall
      have hroom : (frameRecords batch).length ≤ roomOf (waiters.map (·.record)) := length_frameRecords_le (Schema.absorb_forall₂ (prepareRecords_eq_ok hprep).1)
      have hrunning := ht.running hth hb
      simp only [onItsWay, uncommitted, hrunning, if_pos hold, if_neg hnew, List.map_nil, roomOf_nil]
      omega
  · rw [heq]
    exact Nat.add_le_add_left hway _

/-- **A step keeps the calls that write** those of batches, unless it makes another one. -/
theorem Sole.step (h : g.Sole) (hs : g.Stepped a g')
    (hspawn : ∀ call, a = .run (.spawn call) → call.prepare = none) : g'.Sole := by
  rcases hs.space with ⟨heq, hb⟩ | ⟨b, rfl, hrun, hb⟩ | ⟨waiters, rfl, hrun, hb⟩
  · rw [Sole, heq, hb]
    exact h
  · intro t call ht hprepare
    rw [service.step_calls hrun] at ht
    rw [hb]
    cases b with
    | spawn call' =>
        rcases System.getElem?_concat_eq_some ht with ht | ⟨-, rfl⟩
        · exact h t call ht hprepare
        · exact absurd (hspawn call rfl) hprepare
    | _ =>
        rw [List.append_nil] at ht
        exact h t call ht hprepare
  · intro t call ht hprepare
    rw [service.step_calls hrun] at ht
    rw [hb]
    rcases System.getElem?_concat_eq_some ht with ht | ⟨rfl, rfl⟩
    · obtain ⟨waiters', hmem⟩ := h t call ht hprepare
      exact ⟨waiters', List.mem_append_left _ hmem⟩
    · rw [List.length_map]
      exact ⟨waiters, List.mem_append_right _ List.mem_cons_self⟩

end GroupCommit

namespace Front

variable {f f' : Front} {handle : Nat} {p : Namespace}

/-- **A step of the committer or of the namespace keeps the margin**, unless a call that writes is made. -/
theorem Margin.group (h : f.Margin) (ht : f.group.Tidy)
    (hspace : Reaches GroupCommit.freeTerms f.group.space) {a : GroupAction} {g : GroupCommit}
    (hwrite : ∀ records config, a ≠ .write records config)
    (hspawn : ∀ call, a = .run (.spawn call) → call.prepare = none) (hs : f.group.step a = some g) :
    Margin { f with group := g } := by
  have hst := GroupCommit.stepped hs
  have hmargin := h.margin
  have hway : g.space.shared.manifest.unindexedBytes + g.onItsWay ≤
      f.group.space.shared.manifest.unindexedBytes + f.group.onItsWay := by
    by_cases hrun : ∃ b, a = .run b
    · obtain ⟨b, rfl⟩ := hrun
      obtain ⟨p, hp, rfl⟩ := Option.map_eq_some_iff.mp hs
      exact GroupCommit.run_margin ht hspace h.sole hp
    · have hle := hst.onItsWay_le hwrite (fun b hb => hrun ⟨b, hb⟩) hspace.authored.spawned
      have hsame : g.space.shared = f.group.space.shared := by
        rcases hst.space with ⟨heq, -⟩ | ⟨b, hb, -⟩ | ⟨waiters, -, hb, -⟩
        · rw [heq]
        · exact absurd ⟨b, hb⟩ hrun
        · rw [← Option.some.inj hb]
      rw [hsame]
      exact Nat.add_le_add_left hle _
  have hall : g.space.shared.manifest.unindexedBytes + Front.onItsWay { f with group := g } ≤
      maxUnindexedScanBytes := by
    simp only [onItsWay] at hmargin ⊢
    omega
  refine ⟨h.sole.step hst hspawn, fun v hv => ?_, hall⟩
  rcases hst.space with ⟨heq, -⟩ | ⟨b, rfl, hb, -⟩ | ⟨waiters, -, hb, -⟩
  · exact h.bytes v (heq ▸ hv)
  · rcases hspace.step_versions (GroupCommit.terms_free f.group (.run b)) hb with
      heq | ⟨t, c, v', call, mode, next, -, -, -, -, hpush, -⟩
    · exact h.bytes v (heq ▸ hv)
    · rw [hpush] at hv
      rcases List.mem_append.mp hv with hv | hv
      · exact h.bytes v hv
      · -- what is written is the current manifest
        obtain rfl := List.mem_singleton.mp hv
        have hcurrent : g.space.shared.manifest = v.manifest := by
          rw [hpush, Store.push_manifest hspace.sound.dropped]
        exact hcurrent ▸ (Nat.le_add_right _ _).trans hall
  · rw [← Option.some.inj hb] at hv
    exact h.bytes v hv

/-- **A step keeps the margin**, if the request that it admits fits. -/
theorem Margin.step (h : f.Margin) (ht : f.group.Tidy)
    (hspace : Reaches GroupCommit.freeTerms f.group.space) {a : FrontAction} (hok : marginTerms f a)
    (hs : f.step a = some f') : f'.Margin := by
  have hmargin := h.margin
  simp only [onItsWay] at hmargin
  cases a with
  | load records config =>
      rw [Front.step] at hs
      split_ifs at hs with hfull
      · obtain ⟨g, hb, rfl⟩ := Option.map_eq_some_iff.mp hs
        refine h.group ht hspace ?_ (fun call heq => ?_) hb
        · exact nofun
        · cases heq
          rfl
      · cases hs
        refine ⟨h.sole, h.bytes, ?_⟩
        have hfits := hok (Nat.lt_of_not_le hfull)
        simp only [onItsWay, List.map_append, List.sum_append, List.map_singleton, List.sum_singleton]
          at hfits ⊢
        omega
  | submit i =>
      rw [Front.step] at hs
      split at hs
      · cases hs
      · next records config hi =>
        cases hs
        refine ⟨h.sole, h.bytes, ?_⟩
        have hsum := sum_eraseIdx (fun r : List Record × WriteConfig => roomOf r.1) hi
        simp only [onItsWay, GroupCommit.onItsWay, GroupCommit.uncommitted, List.map_append,
          List.sum_append, List.map_singleton, List.sum_singleton, List.length_nil, List.drop_zero]
          at hmargin hsum ⊢
        omega
  | cancel i =>
      rw [Front.step] at hs
      split_ifs at hs with hlt
      cases hs
      refine ⟨h.sole, h.bytes, ?_⟩
      have hsum := sum_eraseIdx (fun r : List Record × WriteConfig => roomOf r.1)
        (List.getElem?_eq_getElem hlt)
      simp only [onItsWay]
      omega
  | group b =>
      cases b with
      | write records config => cases hs
      | run c =>
          obtain ⟨g, hb, rfl⟩ := Option.map_eq_some_iff.mp hs
          refine h.group ht hspace ?_ (fun call heq => ?_) hb
          · exact nofun
          · cases heq
            exact hok
      | _ =>
          obtain ⟨g, hb, rfl⟩ := Option.map_eq_some_iff.mp hs
          refine h.group ht hspace ?_ ?_ hb
          · exact nofun
          · exact nofun

/-- A front runs its group. -/
theorem Reached.group {ok : Front → FrontAction → Prop} (h : Reached ok handle p f) :
    GroupCommit.Reached (GroupCommit.terms GroupCommit.freeTerms) handle p f.group := by
  refine h.invariant (I := fun f =>
    GroupCommit.Reached (GroupCommit.terms GroupCommit.freeTerms) handle p f.group)
    .init fun f a f' _ hg _ hs => ?_
  have hstep {b : GroupAction} {g : GroupCommit} (hb : f.group.step b = some g) :
      GroupCommit.Reached (GroupCommit.terms GroupCommit.freeTerms) handle p g :=
    hg.step b (GroupCommit.terms_free f.group b) hb
  cases a with
  | load records config =>
      rw [step] at hs
      split_ifs at hs
      · obtain ⟨g, hb, rfl⟩ := Option.map_eq_some_iff.mp hs
        exact hstep hb
      · cases hs
        exact hg
  | submit i =>
      rw [step] at hs
      split at hs
      · cases hs
      · obtain ⟨g, hb, rfl⟩ := Option.map_eq_some_iff.mp hs
        exact hstep hb
  | cancel i =>
      rw [step] at hs
      split_ifs at hs
      cases hs
      exact hg
  | group b =>
      cases b with
      | write records config => cases hs
      | _ =>
          obtain ⟨g, hb, rfl⟩ := Option.map_eq_some_iff.mp hs
          exact hstep hb

/-- **Strong reads stay available** in every interleaving, if each request that is admitted fits under the
cap with the tail and all that is on its way. -/
theorem Reached.available (h : Reached marginTerms handle ⟨{}, []⟩ f) : f.group.space.shared.Available := by
  have hmargin : f.Margin := by
    refine h.invariant (I := Margin) ⟨?_, ?_, Nat.zero_le _⟩ fun f a f' hf hI hok hs => ?_
    · exact fun t call ht => nomatch ht
    · exact fun v hv => (List.not_mem_nil hv).elim
    have hgroup := Reached.group hf
    exact hI.step hgroup.tidy (GroupCommit.Reached.space .init hgroup) hok hs
  exact ⟨hmargin.bytes, fun v hv => tailEntries_of_le (hmargin.bytes v hv) .strong⟩

end Front

end Runs

/-! ## Two requests at once -/

instance (f : Front) : (a : FrontAction) → Decidable (marginTerms f a)
  | .load records _ => inferInstanceAs (Decidable
      (f.group.space.shared.manifest.unindexedBytes < writeBackpressureBytes →
        f.group.space.shared.manifest.unindexedBytes + f.onItsWay + roomOf records ≤
          maxUnindexedScanBytes))
  | .group (.run (.spawn call)) => inferInstanceAs (Decidable (call.prepare = none))
  | .group (.run (.run _ _)) | .group (.run (.env _)) | .group (.write _ _) | .group (.send _)
  | .group .receive | .group .commit | .group .finish | .group .reply | .submit _ | .cancel _ =>
    isTrue trivial

end Way

/-- Two requests with a record each are admitted at once, and committed in one batch. -/
def twoAtOnce (r : Record) : List FrontAction :=
  [.load [r] {}, .load [r] {}, .submit 0, .submit 0, .group (.send 0), .group (.send 1)] ++
    (GroupCommit.commits 2 6 0).map .group

/-- Small requests, and a compaction of what they wrote. -/
def smallRun : List FrontAction :=
  twoAtOnce (.upsert (.bare 1)) ++
    .group (.run (.spawn (.compact 0 false))) :: (goes 1 10).map fun a => .group (.run a)

theorem smallRun_available :
    let _ := Crates.inert
    let _ := HashOrder.sorted
    ∃ f, execute Front.step (.start 0 ⟨{}, []⟩) smallRun = some f ∧
      f.group.space.shared.versions.map (·.manifest.unindexedBytes) = [40, 0] ∧
      f.group.space.shared.Available := by
  have hallowed : @Allowed _ _ (@Front.step Crates.inert HashOrder.sorted) (@marginTerms Crates.inert)
      (.start 0 ⟨{}, []⟩) smallRun := by decide +kernel
  intro _ _
  have hrun : (execute Front.step (.start 0 ⟨{}, []⟩) smallRun).any
      (fun f => f.group.space.shared.versions.map (·.manifest.unindexedBytes) = [40, 0]) = true := by
    decide +kernel
  obtain ⟨f, hf, hbytes⟩ := (Option.any_eq_true _ _).mp hrun
  exact ⟨f, hf, of_decide_eq_true hbytes,
    Front.Reached.available (Reachable.init.execute hallowed hf)⟩

/-- **The tail overruns the cap**: each of the two requests would fit, but not both. -/
theorem overrun_not_available :
    let _ := Crates.inert
    let _ := HashOrder.sorted
    ¬ ∀ f, Front.Reached handlerTerms 0 ⟨{}, []⟩ f → f.group.space.shared.Available := by
  intro _ _ h
  obtain ⟨text, htext⟩ : ∃ text : String, text.utf8ByteSize = 2 ^ 25 * 3 :=
    ⟨_, utf8ByteSize_doubled 25 "abc"⟩
  have hrun : ∃ f, execute Front.step (.start 0 ⟨{}, []⟩) (twoAtOnce (.upsert (.texted text))) = some f ∧
      f.group.space.shared.versions.map (·.manifest.unindexedBytes) =
        [(frameRecords [.upsert (.texted text), .upsert (.texted text)]).length] := ⟨_, rfl, rfl⟩
  obtain ⟨f, hf, hbytes⟩ := hrun
  have hallowed : Allowed Front.step handlerTerms (.start 0 ⟨{}, []⟩)
      (twoAtOnce (.upsert (.texted text))) := by
    refine .of_mem ?_ _
    simp [twoAtOnce, GroupCommit.commits, goes, handlerTerms]
  obtain ⟨v, hv⟩ := List.exists_mem_of_ne_nil f.group.space.shared.versions fun hnil => by
    rw [hnil] at hbytes
    cases hbytes
  have hmem := List.mem_map_of_mem (f := fun v : Version => v.manifest.unindexedBytes) hv
  rw [hbytes] at hmem
  have hle := (h f (Reachable.init.execute hallowed hf)).bytes v hv
  rw [List.mem_singleton.mp hmem] at hle
  have hlarge := utf8ByteSize_le_frameRecords text
  simp only [frameRecords, frame, List.map_cons, List.map_nil, List.flatMap_cons, List.flatMap_nil,
    List.length_append, List.length_nil, htext] at hle hlarge
  have hcap : maxUnindexedScanBytes = 2 ^ 27 := rfl
  omega

end Fckdb
