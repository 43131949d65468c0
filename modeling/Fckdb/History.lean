import Fckdb.Service

/-! # The history of a store

The store only grows: versions, PUTs and deletions are appended. `Grows who` says by how much a thread
may grow it; what a thread has learnt about the past (`At`, `Wrote`, `Reads`) stays true. -/

namespace Fckdb

/-! ## Looking back -/

/-- The manifest after some versions. -/
def lastManifest (vs : List Version) : Manifest := (vs.getLast?.map (·.manifest)).getD {}

@[simp] theorem lastManifest_nil : lastManifest [] = {} := rfl

@[simp] theorem lastManifest_append (vs : List Version) (v : Version) :
    lastManifest (vs ++ [v]) = v.manifest := by
  rw [lastManifest, List.getLast?_concat]
  rfl

/-- A commit that won its race: who made it, the WAL entry it appended, and its batch. -/
structure Commit where
  thread : Nat
  entry : WalEntry
  batch : List Record

/-- The sequence number a commit was given. -/
def Commit.seq (c : Commit) : Nat := c.entry.name.seq

/-- The commit that wrote a version. -/
def Version.commit? (v : Version) : Option Commit :=
  match v.reason with
  | .commit batch => v.manifest.wal.getLast?.map fun entry => ⟨v.thread, entry, batch⟩
  | .compaction _ _ => none

/-- The commits among some versions, in the order in which they won. -/
def logOf (vs : List Version) : List Commit := vs.filterMap Version.commit?

@[simp] theorem logOf_nil : logOf [] = [] := rfl

@[simp] theorem logOf_append (vs ws : List Version) : logOf (vs ++ ws) = logOf vs ++ logOf ws :=
  List.filterMap_append

theorem logOf_take_isPrefix (vs : List Version) (n : Nat) : logOf (vs.take n) <+: logOf vs :=
  (List.take_prefix n vs).filterMap _

namespace Store

variable (s : Store)

/-- The current manifest; the default one if there is none. -/
def manifest : Manifest := lastManifest (s.versions.drop s.dropped)

/-- The versions a thread wrote. -/
def writtenBy (t : Nat) : List Version := s.versions.filter fun v => v.thread = t

/-- The manifest that a token stands for. -/
def manifestAt (version : Option Nat) : Manifest := lastManifest (s.versions.take (seen version))

/-- The commits so far. -/
def commits : List Commit := logOf s.versions

/-- `m` is the manifest that the token `version` stands for. -/
structure At (m : Manifest) (version : Option Nat) : Prop where
  le : seen version ≤ s.versions.length
  eq : m = s.manifestAt version

/-- The store is a history: the handles remember manifests of it, and only what had been written was
deleted. -/
structure Sound : Prop where
  handles : ∀ h snap, s.handles h = some snap → s.At snap.manifest snap.version
  dropped : s.dropped ≤ s.versions.length

/-- `version` is at least as late as the first `k` versions, if the manifest was never deleted. -/
def Since (k : Nat) (version : Option Nat) : Prop := k ≤ seen version ∨ 0 < s.dropped

/-- Thread `t` PUT `blob` under `name`. -/
def Wrote (t : Nat) (name : ObjectName) (blob : Blob) : Prop :=
  ∃ p, s.written name = some p ∧ p.blob = blob ∧ p.thread = t

/-- The object under a name was written with these contents. -/
def HasBlob (name : ObjectName) (blob : Blob) : Prop :=
  ∃ p, s.written name = some p ∧ p.blob = blob

/-- The object under a name holds these records, if it was not deleted. -/
def HasRecords (name : ObjectName) (rs : List Record) : Prop :=
  ∃ p, s.written name = some p ∧ p.blob = .records rs

/-- The objects under the names hold these records, one after the other. -/
def Reads (names : List ObjectName) (rs : List Record) : Prop :=
  ∃ rss, List.Forall₂ s.HasRecords names rss ∧ rs = rss.flatten

end Store

theorem Store.HasBlob.unique {s : Store} {name : ObjectName} {b c : Blob} (h : s.HasBlob name b)
    (h' : s.HasBlob name c) : b = c := by
  obtain ⟨p, hp, rfl⟩ := h
  obtain ⟨p', hp', rfl⟩ := h'
  obtain rfl := Option.some.inj (hp.symm.trans hp')
  rfl

theorem Store.Wrote.hasBlob {s : Store} {t : Nat} {name : ObjectName} {blob : Blob}
    (h : s.Wrote t name blob) : s.HasBlob name blob := by
  obtain ⟨p, hp, hb, -⟩ := h
  exact ⟨p, hp, hb⟩

theorem Store.Wrote.hasRecords {s : Store} {t : Nat} {name : ObjectName} {rs : List Record}
    (h : s.Wrote t name (.records rs)) : s.HasRecords name rs := by
  obtain ⟨p, hp, hb, -⟩ := h
  exact ⟨p, hp, hb⟩

/-- An object was PUT by one thread. -/
theorem Store.Wrote.thread_eq {s : Store} {t u : Nat} {name : ObjectName} {b c : Blob}
    (h : s.Wrote t name b) (h' : s.Wrote u name c) : t = u := by
  obtain ⟨p, hp, -, rfl⟩ := h
  obtain ⟨p', hp', -, rfl⟩ := h'
  obtain rfl := Option.some.inj (hp.symm.trans hp')
  rfl

/-- An object holds one list of records. -/
theorem Store.HasRecords.unique {s : Store} {name : ObjectName} {rs rs' : List Record}
    (h : s.HasRecords name rs) (h' : s.HasRecords name rs') : rs = rs' := by
  obtain ⟨p, hp, hb⟩ := h
  obtain ⟨p', hp', hb'⟩ := h'
  obtain rfl := Option.some.inj (hp.symm.trans hp')
  exact Blob.records.inj (hb.symm.trans hb')

theorem Store.Reads.unique {s : Store} {names : List ObjectName} {rs rs' : List Record}
    (h : s.Reads names rs) (h' : s.Reads names rs') : rs = rs' := by
  obtain ⟨rss, h, rfl⟩ := h
  obtain ⟨rss', h', rfl⟩ := h'
  congr 1
  induction h generalizing rss' with
  | nil => cases h'; rfl
  | cons h₁ _ ih =>
      cases h' with
      | cons h₁' h' => rw [h₁.unique h₁', ih _ h']

theorem Store.Reads.nil {s : Store} : s.Reads [] [] := ⟨[], .nil, rfl⟩

theorem Store.Reads.append {s : Store} {names names' : List ObjectName} {rs rs' : List Record}
    (h : s.Reads names rs) (h' : s.Reads names' rs') : s.Reads (names ++ names') (rs ++ rs') := by
  obtain ⟨rss, h, rfl⟩ := h
  obtain ⟨rss', h', rfl⟩ := h'
  exact ⟨rss ++ rss', List.rel_append h h', List.flatten_append.symm⟩

/-- What is read of more objects begins with what is read of the first. -/
theorem Store.Reads.of_append {s : Store} {names names' : List ObjectName} {rs : List Record}
    (h : s.Reads (names ++ names') rs) :
    ∃ first rest, rs = first ++ rest ∧ s.Reads names first ∧ s.Reads names' rest := by
  obtain ⟨rss, h, rfl⟩ := h
  have hfirst := List.forall₂_take names.length h
  have hrest := List.forall₂_drop names.length h
  rw [List.take_left] at hfirst
  rw [List.drop_left] at hrest
  refine ⟨_, _, ?_, ⟨_, hfirst, rfl⟩, ⟨_, hrest, rfl⟩⟩
  rw [← List.flatten_append, List.take_append_drop]

theorem Store.HasRecords.reads {s : Store} {name : ObjectName} {rs : List Record}
    (h : s.HasRecords name rs) : s.Reads [name] rs :=
  ⟨[rs], .cons h .nil, by rw [List.flatten_singleton]⟩

/-- Objects that hold records can be read. -/
theorem Store.reads_of_forall {s : Store} {names : List ObjectName}
    (h : ∀ name ∈ names, ∃ rs, s.HasRecords name rs) : ∃ rs, s.Reads names rs := by
  induction names with
  | nil => exact ⟨[], .nil⟩
  | cons name names ih =>
      obtain ⟨rs, hrs⟩ := h name List.mem_cons_self
      obtain ⟨rest, hrest⟩ := ih fun other hother => h other (List.mem_cons_of_mem _ hother)
      exact ⟨rs ++ rest, hrs.reads.append hrest⟩

/-- What is read contains the records of each object. -/
theorem Store.Reads.subset {s : Store} {names : List ObjectName} {rs batch : List Record}
    (h : s.Reads names rs) {name : ObjectName} (hname : name ∈ names) (hb : s.HasRecords name batch) :
    batch ⊆ rs := by
  obtain ⟨rss, h, rfl⟩ := h
  obtain ⟨n, hn, rfl⟩ := List.mem_iff_getElem.mp hname
  have hread := h.get hn (h.length_eq ▸ hn)
  rw [hb.unique hread]
  exact fun r hr => List.mem_flatten_of_mem (List.get_mem _ _) hr

/-! ## Growth -/

/-- From `s` to `s'`, only threads in `who` wrote versions, each after `s`. -/
structure Grows (who : Nat → Prop) (s s' : Store) : Prop where
  versions : ∃ vs, s'.versions = s.versions ++ vs ∧ ∀ v ∈ vs, who v.thread ∧ s.clock ≤ v.time
  puts : s.puts <+: s'.puts
  deleted : s.deleted <+: s'.deleted
  dropped : s.dropped ≤ s'.dropped
  listed : s.listed <+: s'.listed
  clock : s.clock ≤ s'.clock
  published : ∀ h, s.published h ≤ s'.published h
  sound : s.Sound → s'.Sound

namespace Grows

variable {who who' : Nat → Prop} {s s' s'' : Store}

theorem refl (s : Store) : Grows who s s :=
  ⟨⟨[], by simp, by simp⟩, List.prefix_rfl, List.prefix_rfl, Nat.le_refl _, List.prefix_rfl, Nat.le_refl _,
    fun _ => Nat.le_refl _, id⟩

theorem trans (h : Grows who s s') (h' : Grows who s' s'') : Grows who s s'' := by
  obtain ⟨vs, hvs, hw⟩ := h.versions
  obtain ⟨vs', hvs', hw'⟩ := h'.versions
  refine ⟨⟨vs ++ vs', by rw [hvs', hvs, List.append_assoc], fun v hv => ?_⟩,
    h.puts.trans h'.puts, h.deleted.trans h'.deleted, h.dropped.trans h'.dropped,
    h.listed.trans h'.listed, h.clock.trans h'.clock,
    fun handle => (h.published handle).trans (h'.published handle), fun hs => h'.sound (h.sound hs)⟩
  rcases List.mem_append.mp hv with hv | hv
  · exact hw v hv
  · exact ⟨(hw' v hv).1, h.clock.trans (hw' v hv).2⟩

theorem mono (h : Grows who s s') (hwho : ∀ t, who t → who' t) : Grows who' s s' := by
  obtain ⟨vs, hvs, hw⟩ := h.versions
  exact { h with versions := ⟨vs, hvs, fun v hv => ⟨hwho _ (hw v hv).1, (hw v hv).2⟩⟩ }

/-- A step that leaves the versions and the handles alone. -/
theorem of_eq (hv : s'.versions = s.versions) (hp : s.puts <+: s'.puts)
    (hd : s.deleted <+: s'.deleted) (hr : s.dropped ≤ s'.dropped)
    (hk : s'.dropped ≤ max s.dropped s.versions.length) (hl : s.listed <+: s'.listed)
    (hc : s.clock ≤ s'.clock) (hh : s'.handles = s.handles)
    (hpub : s'.published = s.published) : Grows who s s' := by
  refine ⟨⟨[], by simp [hv], by simp⟩, hp, hd, hr, hl, hc, fun _ => hpub ▸ Nat.le_refl _, fun h => ⟨fun handle snap hs => ?_, ?_⟩⟩
  · rw [hh] at hs
    obtain ⟨hle, heq⟩ := h.handles handle snap hs
    refine ⟨hv ▸ hle, heq.trans ?_⟩
    rw [Store.manifestAt, Store.manifestAt, hv]
  · rw [hv]
    exact hk.trans (max_le h.dropped (Nat.le_refl _))

theorem isPrefix (h : Grows who s s') : s.versions <+: s'.versions := by
  obtain ⟨vs, hvs, -⟩ := h.versions
  exact ⟨vs, hvs.symm⟩

theorem length_le (h : Grows who s s') : s.versions.length ≤ s'.versions.length :=
  h.isPrefix.length_le

theorem manifestAt (h : Grows who s s') {version : Option Nat} (hle : seen version ≤ s.versions.length) :
    s'.manifestAt version = s.manifestAt version := by
  obtain ⟨vs, hvs, -⟩ := h.versions
  rw [Store.manifestAt, hvs, List.take_append_of_le_length hle]
  rfl

theorem keeps_at (h : Grows who s s') {m : Manifest} {version : Option Nat} (hs : s.At m version) :
    s'.At m version := by
  exact ⟨hs.le.trans h.length_le, hs.eq.trans (h.manifestAt hs.le).symm⟩

theorem since (h : Grows who s s') {k : Nat} {version : Option Nat} (hs : s.Since k version) :
    s'.Since k version := hs.imp_right fun hd => hd.trans_le h.dropped

theorem written (h : Grows who s s') {name : ObjectName} {p : Put} (hs : s.written name = some p) :
    s'.written name = some p := by
  rw [Store.written, Option.filter_eq_some_iff] at hs ⊢
  obtain ⟨hlt, hp⟩ := List.getElem?_eq_some_iff.mp hs.1
  exact ⟨hp ▸ List.prefix_iff_getElem?.mp h.puts _ hlt, hs.2⟩

theorem wrote (h : Grows who s s') {t : Nat} {name : ObjectName} {blob : Blob}
    (hs : s.Wrote t name blob) : s'.Wrote t name blob := by
  obtain ⟨p, hp, hb⟩ := hs
  exact ⟨p, h.written hp, hb⟩

theorem hasRecords (h : Grows who s s') {name : ObjectName} {rs : List Record}
    (hs : s.HasRecords name rs) : s'.HasRecords name rs := by
  obtain ⟨p, hp, hb⟩ := hs
  exact ⟨p, h.written hp, hb⟩

theorem reads (h : Grows who s s') {names : List ObjectName} {rs : List Record}
    (hs : s.Reads names rs) : s'.Reads names rs := by
  obtain ⟨rss, hrss, rfl⟩ := hs
  exact ⟨rss, hrss.imp fun _ _ => h.hasRecords, rfl⟩

theorem writtenBy (h : Grows who s s') {t : Nat} (ht : ¬ who t) : s'.writtenBy t = s.writtenBy t := by
  obtain ⟨vs, hvs, hw⟩ := h.versions
  have hnone : vs.filter (fun v => v.thread = t) = [] := by
    rw [List.filter_eq_nil_iff]
    intro v hv hvt
    exact ht (of_decide_eq_true hvt ▸ (hw v hv).1)
  rw [Store.writtenBy, hvs, List.filter_append, hnone, List.append_nil]
  rfl

end Grows

end Fckdb
