import Fckdb.QueryReads
import Fckdb.SchemaRuns

/-! # Branching

`branch` loads the manifest, copies the objects that it references, and writes the manifest to the destination
last, if there is none. Meanwhile the source goes on: its calls write, compact, collect and destroy. Whatever the
order of their steps, a manifest at the destination is one that the source has had, with all its objects,
and is written by the one branch that succeeds (`Branching.snapshot`). So the destination answers every query as
the source did when the manifest was current (`Branching.answers_alike`). -/

namespace Fckdb

/-! ## The two prefixes -/

/-- What is stored under the prefix of the destination: the manifest, with the call that wrote it, and the copies,
the latest first. -/
structure Dest where
  manifest : Option (Manifest × Nat) := none
  copies : List (ObjectName × Blob) := []

/-- The object under a name. -/
def Dest.blob (d : Dest) (name : ObjectName) : Option Blob := (d.copies.find? (·.1 = name)).map (·.2)

/-- A namespace with calls in progress, and the destination of its branches. -/
structure Twin where
  source : Namespace
  dest : Dest := {}

/-- One atomic request of a branch. -/
inductive BranchRequest
  /-- A request to the source. -/
  | source (r : Request)
  /-- HEAD of the manifest of the destination: whether it is there. -/
  | head
  /-- Copy an object from the source to the destination. -/
  | copy (name : ObjectName)
  /-- PUT of the manifest of the destination, in the mode `Create`. -/
  | putManifest (m : Manifest)
  /-- Whose turn it is among the copies. -/
  | choose

/-- The answers to each request. -/
@[reducible] def BranchRequest.Answer : BranchRequest → Type
  | source r => r.Answer
  | head => Bool
  | copy _ => Except Error Unit
  | putManifest _ => Except Error Unit
  | choose => Bool

/-- Answer a request of a branch. -/
def Twin.exec (t : Nat) (s : Twin) : (r : BranchRequest) → Choice → Option (Twin × r.Answer)
  | .source r, c => (s.source.shared.exec t r c).map fun x => ({ s with source.shared := x.1 }, x.2)
  | .head, .go => some (s, s.dest.manifest.isSome)
  -- a HEAD that fails is taken for a manifest that is not there
  | .head, .fail _ => some (s, false)
  | .copy name, .go =>
    match s.source.shared.object name with
    | some p => some ({ s with dest.copies := (name, p.blob) :: s.dest.copies }, .ok ())
    | none => some (s, .error (.objectStore "not found"))
  | .copy _, .fail msg => some (s, .error (.objectStore msg))
  | .putManifest m, .go =>
    match s.dest.manifest with
    | none => some ({ s with dest.manifest := some (m, t) }, .ok ())
    | some _ => some (s, .error (.objectStore "already exists"))
  | .putManifest _, .fail msg => some (s, .error (.objectStore msg))
  | .choose, .turn left => some (s, left)
  | _, _ => none

/-! ## The call -/

/-- A program over both prefixes. -/
abbrev BranchProg := Prog BranchRequest BranchRequest.Answer

def askSource (r : Request) : BranchProg r.Answer := Prog.call (BranchRequest.source r)

def headManifest : BranchProg Bool := Prog.call BranchRequest.head

def copyObject (name : ObjectName) : BranchProg (Except Error Unit) := Prog.call (BranchRequest.copy name)

def createManifest (m : Manifest) : BranchProg (Except Error Unit) := Prog.call (BranchRequest.putManifest m)

/-- `load`, of the source. -/
def loadSource (handle : Nat) : BranchProg (Except Error Manifest) :=
  (askSource .getManifest).tryBind fun
    | some (m, version) => (askSource (.remember handle m (some version))).bind fun _ => .done (.ok m)
    | none => .done (.ok {})

/-- `join_all` of the copies. -/
def copyAll (objects : List ObjectName) : BranchProg (Except Error (List Unit)) :=
  (Prog.joinAll BranchRequest.choose id (objects.map copyObject)).bind fun copied => .done (collect copied)

/-- `branch`: copy the namespace to another prefix. -/
def branch (destPrefix : String) (handle : Nat) : BranchProg (Except Error Nat) :=
  (loadSource handle).tryBind fun m =>
  headManifest.bind fun there =>
  if there then
    .done (.error (.kinded .conflict ("destination namespace " ++ destPrefix ++ " already exists")))
  else
    let objects := m.referenced.dedup
    (copyAll objects).tryBind fun _ =>
    -- the manifest last: until it is there, the destination is not a namespace
    (createManifest m).tryBind fun _ => .done (.ok objects.length)

/-- A namespace with branches in progress. -/
abbrev Branches := Pool Twin BranchRequest BranchRequest.Answer Nat (Except Error Nat)

/-! ## What happens meanwhile -/

/-- Objects and versions are only added, and a deletion of the manifest is remembered. -/
structure Store.Extends (s s' : Store) : Prop where
  puts : s.puts <+: s'.puts
  versions : s.versions <+: s'.versions
  dropped : s.dropped ≤ s.versions.length → s.dropped ≤ s'.dropped ∧ s'.dropped ≤ s'.versions.length

namespace Store.Extends

variable {s s' s'' : Store}

theorem refl (s : Store) : s.Extends s := ⟨List.prefix_rfl, List.prefix_rfl, fun h => ⟨Nat.le_refl _, h⟩⟩

theorem trans (h : s.Extends s') (h' : s'.Extends s'') : s.Extends s'' := by
  refine ⟨h.puts.trans h'.puts, h.versions.trans h'.versions, fun hle => ?_⟩
  obtain ⟨hgrown, hle'⟩ := h.dropped hle
  exact ⟨hgrown.trans (h'.dropped hle').1, (h'.dropped hle').2⟩

theorem hasBlob (h : s.Extends s') {name : ObjectName} {blob : Blob} (hb : s.HasBlob name blob) :
    s'.HasBlob name blob := by
  obtain ⟨p, hp, rfl⟩ := hb
  refine ⟨p, ?_, rfl⟩
  rw [written, Option.filter_eq_some_iff] at hp ⊢
  obtain ⟨hlt, hget⟩ := List.getElem?_eq_some_iff.mp hp.1
  exact ⟨hget ▸ List.prefix_iff_getElem?.mp h.puts _ hlt, hp.2⟩

theorem keeps_at (h : s.Extends s') {m : Manifest} {version : Option Nat} (hm : s.At m version) : s'.At m version := by
  obtain ⟨vs, hvs⟩ := h.versions
  refine ⟨hm.le.trans h.versions.length_le, hm.eq.trans ?_⟩
  rw [manifestAt, manifestAt, ← hvs, List.take_append_of_le_length hm.le]

end Store.Extends

/-- Every request extends the store. -/
theorem Store.exec_extends {t : Nat} {s s' : Store} {r : Request} {c : Choice} {x : r.Answer}
    (h : s.exec t r c = some (s', x)) : s.Extends s' := by
  cases r with
  | putNew path blob =>
      cases c with
      | go =>
          cases h
          exact { Extends.refl s with puts := List.prefix_append _ _ }
      | _ => cases h <;> exact .refl s
  | putManifest m mode reason =>
      cases c with
      | go =>
          rw [exec.eq_def] at h
          dsimp only at h
          split_ifs at h
          · cases h
            refine ⟨List.prefix_rfl, List.prefix_append _ _, fun hle => ⟨Nat.le_refl _, ?_⟩⟩
            exact hle.trans (List.prefix_append _ _).length_le
          · cases h
            exact .refl s
      | _ => cases h <;> exact .refl s
  | deleteManifest =>
      cases c with
      | go =>
          cases h
          exact ⟨List.prefix_rfl, List.prefix_rfl, fun hle => ⟨hle, Nat.le_refl _⟩⟩
      | _ => cases h <;> exact .refl s
  | _ =>
      cases c <;> rw [exec.eq_def] at h <;> dsimp only at h <;> (repeat' split at h) <;> cases h <;>
        exact { Extends.refl s with }

/-! ## What a branch has copied -/

namespace Twin

/-- The source has had the manifest, and not before its first `k` versions. -/
def Had (k : Nat) (m : Manifest) (s : Twin) : Prop :=
  ∃ version, s.source.shared.At m version ∧ s.source.shared.Since k version

/-- The objects of the manifest are copied. -/
def Copied (m : Manifest) (s : Twin) : Prop := ∀ name ∈ m.referenced, ∃ blob, (name, blob) ∈ s.dest.copies

/-- Each copy is what the source has under its name; the manifest is one that the source has
had, and all its objects are there. -/
structure Whole (k : Nat) (s : Twin) : Prop where
  sound : s.source.shared.dropped ≤ s.source.shared.versions.length
  later : k ≤ s.source.shared.versions.length
  copied : ∀ x ∈ s.dest.copies, s.source.shared.HasBlob x.1 x.2
  had : ∀ m t, s.dest.manifest = some (m, t) → s.Had k m
  complete : ∀ m t, s.dest.manifest = some (m, t) → s.Copied m

/-- From `s` to `s'`, only branches in `who` wrote the manifest, and it stays. -/
structure Later (k : Nat) (who : Nat → Prop) (s s' : Twin) : Prop where
  source : s.source.shared.Extends s'.source.shared
  copies : s.dest.copies <:+ s'.dest.copies
  kept : ∀ x, s.dest.manifest = some x → s'.dest.manifest = some x
  author : ∀ m t, s'.dest.manifest = some (m, t) → s.dest.manifest = some (m, t) ∨ who t
  whole : s.Whole k → s'.Whole k

variable {k : Nat} {who who' : Nat → Prop} {s s' s'' : Twin}

namespace Later

theorem refl (s : Twin) : Later k who s s :=
  ⟨.refl _, List.suffix_rfl, fun _ h => h, fun _ _ => .inl, id⟩

theorem trans (h : Later k who s s') (h' : Later k who s' s'') : Later k who s s'' := by
  refine ⟨h.source.trans h'.source, h.copies.trans h'.copies, fun x hx => h'.kept x (h.kept x hx), ?_,
    fun hs => h'.whole (h.whole hs)⟩
  intro m t hm
  rcases h'.author m t hm with hm | ht
  · exact h.author m t hm
  · exact .inr ht

theorem mono (h : Later k who s s') (hwho : ∀ t, who t → who' t) : Later k who' s s' :=
  { h with author := fun m t hm => (h.author m t hm).imp_right (hwho t) }

end Later

theorem Later.had {m : Manifest} (h : Later k who s s') (hs : s.Whole k) (hm : s.Had k m) : s'.Had k m := by
  obtain ⟨version, hat, hsince⟩ := hm
  exact ⟨version, h.source.keeps_at hat, hsince.imp_right fun hd => hd.trans_le (h.source.dropped hs.sound).1⟩

theorem Later.copied {m : Manifest} (h : Later k who s s') (hm : s.Copied m) : s'.Copied m := by
  intro name hname
  obtain ⟨blob, hblob⟩ := hm name hname
  exact ⟨blob, h.copies.subset hblob⟩

/-- A step of the source. -/
theorem Later.of_source {source : Namespace} (h : s.source.shared.Extends source.shared) :
    Later k who s { s with source } := by
  have hstep (hs : s.Whole k) (m : Manifest) (hm : s.Had k m) : ({ s with source } : Twin).Had k m := by
    obtain ⟨version, hat, hsince⟩ := hm
    exact ⟨version, h.keeps_at hat, hsince.imp_right fun hd => hd.trans_le (h.dropped hs.sound).1⟩
  exact ⟨h, List.suffix_rfl, fun _ h => h, fun _ _ => .inl, fun hs =>
    ⟨(h.dropped hs.sound).2, hs.later.trans h.versions.length_le, fun x hx => h.hasBlob (hs.copied x hx),
      fun m t hm => hstep hs m (hs.had m t hm), hs.complete⟩⟩

/-- A copy of an object. -/
theorem Later.of_copy {name : ObjectName} {p : Put} (h : s.source.shared.object name = some p) :
    Later k who s { s with dest.copies := (name, p.blob) :: s.dest.copies } := by
  refine ⟨.refl _, List.suffix_cons _ _, fun _ h => h, fun _ _ => .inl, fun hs => { hs with copied := ?_, complete := ?_ }⟩
  · intro x hx
    rcases List.mem_cons.mp hx with rfl | hx
    · rw [Store.object] at h
      split_ifs at h
      exact ⟨p, h, rfl⟩
    · exact hs.copied x hx
  · intro m t hm n hn
    obtain ⟨blob, hblob⟩ := hs.complete m t hm n hn
    exact ⟨blob, List.mem_cons_of_mem _ hblob⟩

/-- The manifest of the destination, when all its objects are there. -/
theorem Later.of_manifest {m : Manifest} {t : Nat} (hnone : s.dest.manifest = none) (hm : s.Had k m)
    (hall : s.Copied m) :
    Later k (· = t) s { s with dest.manifest := some (m, t) } := by
  refine ⟨.refl _, List.suffix_rfl, fun x hx => ?_, fun m' t' hm' => ?_, fun hs => { hs with had := ?_, complete := ?_ }⟩
  · cases hnone.symm.trans hx
  · obtain ⟨-, rfl⟩ := Prod.mk.inj (Option.some.inj hm')
    exact .inr rfl
  · intro m' t' hm'
    obtain ⟨rfl, -⟩ := Prod.mk.inj (Option.some.inj hm')
    exact hm
  · intro m' t' hm'
    obtain ⟨rfl, -⟩ := Prod.mk.inj (Option.some.inj hm')
    exact hall

/-- Nothing is copied at first. -/
theorem Whole.init (p : Namespace) (h : p.shared.dropped ≤ p.shared.versions.length) :
    ({ source := p } : Twin).Whole p.shared.versions.length where
  sound := h
  later := Nat.le_refl _
  copied _ hx := (List.not_mem_nil hx).elim
  had _ _ hm := (Option.some_ne_none _ hm.symm).elim
  complete _ _ hm := (Option.some_ne_none _ hm.symm).elim

/-- What is found at the destination is what the source has. -/
theorem Whole.blob (h : s.Whole k) {name : ObjectName} {blob : Blob} (hcopy : (name, blob) ∈ s.dest.copies) :
    s.source.shared.HasBlob name blob ∧ s.dest.blob name = some blob := by
  have hsource : s.source.shared.HasBlob name blob := h.copied _ hcopy
  refine ⟨hsource, ?_⟩
  cases hfind : s.dest.copies.find? (·.1 = name) with
  | none => exact absurd (decide_eq_true rfl) (List.find?_eq_none.mp hfind _ hcopy)
  | some x =>
      obtain rfl : x.1 = name := of_decide_eq_true (List.find?_eq_some_iff_append.mp hfind).1
      have hsame := hsource.unique (h.copied x (List.mem_of_find?_eq_some hfind))
      rw [Dest.blob, hfind, Option.map_some, hsame]

/-- Before the manifest of branch `t` is there. -/
def Ready (k t : Nat) (s : Twin) : Prop := s.Whole k ∧ ∀ m u, s.dest.manifest = some (m, u) → u ≠ t

end Twin

variable [Crates] [HashOrder]

/-- Branches to one destination, through handles of the source; the environment are the calls of the source. -/
def branching (destPrefix : String) :
    System Twin BranchRequest BranchRequest.Answer Nat (Except Error Nat) Choice Act where
  exec := Twin.exec
  env s a := (service.step s.source a).map fun source => { s with source }
  body := branch destPrefix

namespace Branching

open Prog

variable {destPrefix : String} {ok : System.Conditions Twin BranchRequest Nat Act} {k t : Nat}

/-- A step of the source extends its store. -/
theorem step_extends {p p' : Namespace} {a : Act} (h : service.step p a = some p') :
    p.shared.Extends p'.shared := by
  cases a with
  | spawn call =>
      obtain rfl := Option.some.inj h
      exact .refl _
  | run t c =>
      obtain ⟨_, _, _, s', x, -, -, hx, rfl⟩ := service.step_run_cases h
      exact Store.exec_extends hx
  | env nanos =>
      obtain rfl := Option.some.inj h
      exact { Store.Extends.refl p.shared with }

omit [Crates] [HashOrder] in
theorem stable_ready : Stable (Twin.Later k (· ≠ t)) (Twin.Ready k t) := by
  rintro s s' h ⟨hs, hauthor⟩
  refine ⟨h.whole hs, fun m u hm => ?_⟩
  rcases h.author m u hm with hm | hu
  · exact hauthor m u hm
  · exact hu

omit [Crates] [HashOrder] in
theorem stable_copied (name : ObjectName) :
    Stable (Twin.Later k (· ≠ t)) fun s => ∃ blob, (name, blob) ∈ s.dest.copies := by
  rintro s s' h ⟨blob, hblob⟩
  exact ⟨blob, h.copies.subset hblob⟩

omit [Crates] [HashOrder] in
theorem stable_ready_had (m : Manifest) :
    Stable (Twin.Later k (· ≠ t)) fun s => Twin.Ready k t s ∧ s.Had k m :=
  fun s s' h hs => ⟨stable_ready s s' h hs.1, h.had hs.1.1 hs.2⟩

/-! ## One request at a time -/

section Triples

variable (destPrefix ok k t)

/-- A triple of branch `t` before its manifest is there; what it ends with is in `Q`. -/
abbrev Copies {α : Type} (P : Twin → Prop) (p : BranchProg (Except Error α)) (Q : α → Twin → Prop) : Prop :=
  Triple ((branching destPrefix).Answers ok t) (Twin.Later k (· ≠ t)) (Twin.Later k fun _ => False)
    (fun s => Twin.Ready k t s ∧ P s) p fun r s => Twin.Ready k t s ∧ Yields Q r s

end Triples

namespace Copies

variable {α β : Type} {P : Twin → Prop} {Q : α → Twin → Prop} {Q' : β → Twin → Prop}

theorem seq {p : BranchProg (Except Error α)} {f : α → BranchProg (Except Error β)}
    (h : Copies destPrefix ok k t P p Q)
    (hf : ∀ a, Copies destPrefix ok k t (Q a) (f a) Q') :
    Copies destPrefix ok k t P (p.tryBind f) Q' := by
  refine Triple.tryBind .refl h (fun a => (hf a).conseq (fun s hs => ⟨hs.1, hs.2 a rfl⟩) fun _ _ h => h) ?_
  exact fun e s hs => ⟨hs.1, fun _ h => nomatch h⟩

theorem ret {a : α} (hP : Stable (Twin.Later k (· ≠ t)) fun s => Twin.Ready k t s ∧ P s)
    (h : ∀ s, Twin.Ready k t s → P s → Q a s) :
    Copies destPrefix ok k t P (.done (.ok a)) Q := by
  refine Triple.done hP fun s hs => ⟨hs.1, fun a' ha => ?_⟩
  obtain rfl := Except.ok.inj ha
  exact h s hs.1 hs.2

end Copies

/-- One request that does not write the manifest. -/
theorem ask {r : BranchRequest} {P : Twin → Prop} {post : r.Answer → Twin → Prop}
    (hP : Stable (Twin.Later k (· ≠ t)) fun s => Twin.Ready k t s ∧ P s)
    (hpost : ∀ x, Stable (Twin.Later k (· ≠ t)) fun s => Twin.Ready k t s ∧ post x s)
    (h : ∀ s c s' x, Twin.Ready k t s → P s → s.exec t r c = some (s', x) →
      Twin.Later k (fun _ => False) s s' ∧ post x s') :
    Triple ((branching destPrefix).Answers ok t) (Twin.Later k (· ≠ t)) (Twin.Later k fun _ => False)
      (fun s => Twin.Ready k t s ∧ P s) (Prog.call r) fun x s => Twin.Ready k t s ∧ post x s := by
  refine Triple.call r hP hpost fun s s' x hs hx => ?_
  obtain ⟨-, c, hx⟩ := hx
  obtain ⟨hlater, hp⟩ := h s c s' x hs.1 hs.2 hx
  exact ⟨hlater, stable_ready s s' (hlater.mono fun _ => False.elim) hs.1, hp⟩

omit [Crates] [HashOrder] in
theorem stable_yields_ready {α : Type} {Q : α → Twin → Prop}
    (hQ : ∀ a, Stable (Twin.Later k (· ≠ t)) fun s => Twin.Ready k t s ∧ Q a s) (r : Except Error α) :
    Stable (Twin.Later k (· ≠ t)) fun s => Twin.Ready k t s ∧ Yields Q r s :=
  fun s s' h hs => ⟨stable_ready s s' h hs.1, fun a ha => (hQ a s s' h ⟨hs.1, hs.2 a ha⟩).2⟩

omit [Crates] [HashOrder] in
/-- A request to the source. -/
theorem exec_source {s s' : Twin} {r : Request} {c : Choice} {x : r.Answer}
    (h : s.exec t (.source r) c = some (s', x)) : ∃ store, s.source.shared.exec t r c = some (store, x) ∧
      s' = { s with source.shared := store } := by
  obtain ⟨⟨store, y⟩, hstore, heq⟩ := Option.map_eq_some_iff.mp h
  obtain ⟨rfl, rfl⟩ := Prod.mk.inj heq
  exact ⟨store, hstore, rfl⟩

omit [Crates] [HashOrder] in
theorem exec_copy {s s' : Twin} {name : ObjectName} {c : Choice} {x : Except Error Unit}
    (h : s.exec t (.copy name) c = some (s', x)) :
    (∃ p, s.source.shared.object name = some p ∧
      s' = { s with dest.copies := (name, p.blob) :: s.dest.copies }) ∨ s' = s ∧ ∃ e, x = .error e := by
  cases c with
  | go =>
      rw [Twin.exec.eq_def] at h
      dsimp only at h
      split at h
      · next p hp =>
        cases h
        exact .inl ⟨p, hp, rfl⟩
      · cases h
        exact .inr ⟨rfl, _, rfl⟩
  | fail msg =>
      cases h
      exact .inr ⟨rfl, _, rfl⟩
  | _ => cases h

omit [Crates] [HashOrder] in
theorem exec_putManifest {s s' : Twin} {m : Manifest} {c : Choice} {x : Except Error Unit}
    (h : s.exec t (.putManifest m) c = some (s', x)) :
    (s.dest.manifest = none ∧ s' = { s with dest.manifest := some (m, t) } ∧ x = .ok ()) ∨
      s' = s ∧ ∃ e, x = .error e := by
  cases c with
  | go =>
      rw [Twin.exec.eq_def] at h
      dsimp only at h
      split at h
      · next hnone =>
        cases h
        exact .inl ⟨hnone, rfl, rfl⟩
      · cases h
        exact .inr ⟨rfl, _, rfl⟩
  | fail msg =>
      cases h
      exact .inr ⟨rfl, _, rfl⟩
  | _ => cases h

/-! ## The parts of a branch -/

omit [Crates] [HashOrder] in
/-- What a GET of the manifest finds, the source has had. -/
theorem had_current {s : Twin} (h : s.Whole k) : s.Had k ((s.source.shared.current.map Prod.fst).getD {}) := by
  have hfound := Calmly.found_current h.later
  cases hc : s.source.shared.current with
  | none =>
      rw [hc] at hfound
      exact ⟨none, ⟨Nat.zero_le _, rfl⟩, hfound⟩
  | some x =>
      rw [hc] at hfound
      exact ⟨some x.2, hfound.1, .inl hfound.2⟩

theorem loadSource (handle : Nat) : Copies destPrefix ok k t (fun _ => True)
    (Fckdb.loadSource handle) fun m s => s.Had k m := by
  have hfound : Copies destPrefix ok k t (fun _ => True) (askSource .getManifest) fun o s =>
      s.Had k ((o.map Prod.fst).getD {}) := by
    refine ask (fun s s' h hs => ⟨stable_ready s s' h hs.1, trivial⟩)
      (stable_yields_ready fun o => stable_ready_had _) fun s c s' x hs _ hx => ?_
    obtain ⟨store, hstore, rfl⟩ := exec_source hx
    refine ⟨.of_source (Store.exec_extends hstore), fun o ho => ?_⟩
    cases c <;> cases hstore <;> cases ho
    exact had_current hs.1
  refine hfound.seq fun o => ?_
  cases o with
  | none => exact Copies.ret (stable_ready_had _) fun _ _ hm => hm
  | some x =>
      obtain ⟨m, version⟩ := x
      have hremember : Triple ((branching destPrefix).Answers ok t) (Twin.Later k (· ≠ t))
          (Twin.Later k fun _ => False) (fun s => Twin.Ready k t s ∧ s.Had k m)
          (askSource (.remember handle m (some version))) fun _ s => Twin.Ready k t s ∧ s.Had k m := by
        refine ask (stable_ready_had _) (fun _ => stable_ready_had _) fun s c s' x hs hm hx => ?_
        obtain ⟨store, hstore, rfl⟩ := exec_source hx
        have hlater : Twin.Later k (fun _ => False) s { s with source.shared := store } :=
          .of_source (Store.exec_extends hstore)
        exact ⟨hlater, hlater.had hs.1 hm⟩
      exact Triple.bind .refl hremember fun _ => Copies.ret (stable_ready_had _) fun _ _ hm => hm

theorem copyObject (name : ObjectName) : Copies destPrefix ok k t (fun _ => True)
    (Fckdb.copyObject name) fun _ s => ∃ blob, (name, blob) ∈ s.dest.copies := by
  refine ask (fun s s' h hs => ⟨stable_ready s s' h hs.1, trivial⟩) (stable_yields_ready fun _ s s' h hs =>
    ⟨stable_ready s s' h hs.1, stable_copied name s s' h hs.2⟩) fun s c s' x _ _ hx => ?_
  rcases exec_copy hx with ⟨p, hp, rfl⟩ | ⟨rfl, e, rfl⟩
  · exact ⟨.of_copy hp, fun _ _ => ⟨p.blob, List.mem_cons_self⟩⟩
  · exact ⟨.refl s', fun _ h => nomatch h⟩

omit [Crates] [HashOrder] in
theorem copied_of_collect {m : Manifest} {s : Twin} {rs : List (Except Error Unit)} {us : List Unit}
    (h : List.Forall₂ (fun name r => Yields (fun _ s => ∃ blob, (name, blob) ∈ s.dest.copies) r s)
      m.referenced.dedup rs) (hus : collect rs = .ok us) : s.Copied m := by
  intro name hname
  obtain ⟨n, hn, rfl⟩ := List.mem_iff_getElem.mp (List.mem_dedup.mpr hname)
  have hall := forall₂_of_collect h hus
  exact hall.get hn (hall.length_eq ▸ hn) _ rfl

/-- The copies run side by side. -/
theorem copyAll (m : Manifest) : Copies destPrefix ok k t (fun s => s.Had k m)
    (Fckdb.copyAll m.referenced.dedup) fun _ s => s.Had k m ∧ s.Copied m := by
  intro s hs
  have hchoose : ∀ a b x, (branching destPrefix).Answers ok t a .choose b x →
      b = a ∧ Twin.Later k (fun _ => False) a b := by
    rintro a b x ⟨-, c, hx⟩
    cases c <;> cases hx
    exact ⟨rfl, .refl a⟩
  have hguar : ∀ a b, Twin.Later k (fun _ => False) a b → Twin.Later k (· ≠ t) a b :=
    fun _ _ h => h.mono fun _ => False.elim
  have hcopy (name : ObjectName) : Copies destPrefix ok k t (fun _ => True) (Fckdb.copyObject name) fun _ s =>
    ∃ blob, (name, blob) ∈ s.dest.copies := copyObject name
  have hparts : Safe ((branching destPrefix).Answers ok t) (Twin.Later k (· ≠ t)) (Twin.Later k fun _ => False)
      (fun rs s => List.Forall₂ (fun name r => Twin.Ready k t s ∧
        Yields (fun _ s => ∃ blob, (name, blob) ∈ s.dest.copies) r s) m.referenced.dedup rs)
      (Prog.joinAll BranchRequest.choose id (m.referenced.dedup.map Fckdb.copyObject)) s :=
    Safe.joinAll .refl (fun _ _ _ => .trans) hguar hchoose fun name _ => hcopy name s ⟨hs.1, trivial⟩
  refine (hparts.frame (stable_ready_had m) hguar hs).bind fun rs s₁ hs₁ s₂ hs₂ => ?_
  obtain ⟨hcopied, hready, hhad⟩ := hs₁ s₂ hs₂
  exact ⟨hready, fun us hus => ⟨hhad, copied_of_collect (hcopied.imp fun _ _ h => h.2) hus⟩⟩

/-- How a branch ends: with its manifest there, or without. -/
def Settled (t : Nat) : Except Error Nat → Twin → Prop
  | .ok n, s => ∃ m, s.dest.manifest = some (m, t) ∧ n = m.referenced.dedup.length
  | .error _, s => ∀ m u, s.dest.manifest = some (m, u) → u ≠ t

omit [Crates] [HashOrder] in
theorem stable_settled (r : Except Error Nat) :
    Stable (Twin.Later k (· ≠ t)) fun s => s.Whole k ∧ Settled t r s := by
  rintro s s' h ⟨hs, hr⟩
  refine ⟨h.whole hs, ?_⟩
  cases r with
  | ok n =>
      obtain ⟨m, hm, hn⟩ := hr
      exact ⟨m, h.kept _ hm, hn⟩
  | error e => exact (stable_ready s s' h ⟨hs, hr⟩).2

/-- The manifest last. -/
theorem createManifest (m : Manifest) :
    Triple ((branching destPrefix).Answers ok t) (Twin.Later k (· ≠ t)) (Twin.Later k (· = t))
      (fun s => Twin.Ready k t s ∧ s.Had k m ∧ s.Copied m) (Fckdb.createManifest m)
      fun r s => s.Whole k ∧ Settled t (r.map fun _ => m.referenced.dedup.length) s := by
  refine Triple.call _ (fun s s' h hs => ?_) (fun r => stable_settled _) fun s s' r hs hr => ?_
  · exact ⟨stable_ready s s' h hs.1, h.had hs.1.1 hs.2.1, h.copied hs.2.2⟩
  · obtain ⟨-, c, hr⟩ := hr
    rcases exec_putManifest hr with ⟨hnone, rfl, rfl⟩ | ⟨rfl, e, rfl⟩
    · have hlater := Twin.Later.of_manifest (t := t) hnone hs.2.1 hs.2.2
      exact ⟨hlater, hlater.whole hs.1.1, m, rfl, rfl⟩
    · exact ⟨.refl s', hs.1⟩

/-- **A branch** ends with its manifest there and whole, or its manifest is not there. -/
theorem branch (handle : Nat) :
    Triple ((branching destPrefix).Answers ok t) (Twin.Later k (· ≠ t)) (Twin.Later k (· = t)) (Twin.Ready k t)
      (Fckdb.branch destPrefix handle) fun r s => s.Whole k ∧ Settled t r s := by
  have hguar : ∀ a b : Twin, Twin.Later k (fun _ => False) a b → Twin.Later k (· = t) a b :=
    fun _ _ h => h.mono fun _ => False.elim
  have hstart : Copies destPrefix ok k t (fun _ => True) (Fckdb.loadSource handle) fun m s =>
    s.Had k m := loadSource handle
  refine Triple.tryBind .refl ((hstart.weaken hguar).conseq (fun s hs => ⟨hs, trivial⟩) fun _ _ h => h) ?_
    fun e s hs => hs.1
  intro m
  have hhead : Triple ((branching destPrefix).Answers ok t) (Twin.Later k (· ≠ t)) (Twin.Later k fun _ => False)
      (fun s => Twin.Ready k t s ∧ s.Had k m) Fckdb.headManifest fun _ s => Twin.Ready k t s ∧ s.Had k m := by
    refine ask (stable_ready_had m) (fun _ => stable_ready_had m) fun s c s' x _ hm hx => ?_
    cases c <;> cases hx <;> exact ⟨.refl s, hm⟩
  refine Triple.bind .refl ((hhead.weaken hguar).conseq (fun s hs => ⟨hs.1, hs.2 m rfl⟩) fun _ _ h => h) ?_
  intro there
  dsimp only
  split
  · exact Triple.done (stable_ready_had m) fun s hs => hs.1
  · have hcopies : Copies destPrefix ok k t (fun s => s.Had k m)
      (Fckdb.copyAll m.referenced.dedup) fun _ s => s.Had k m ∧ s.Copied m := copyAll m
    refine Triple.tryBind .refl (hcopies.weaken hguar) (fun us => ?_) fun e s hs => hs.1
    refine Triple.tryBind .refl ((createManifest m).conseq (fun s hs => ⟨hs.1, hs.2 us rfl⟩) fun _ _ h => h) ?_
      fun e s hs => hs
    exact fun _ => Triple.done (stable_settled _) fun s hs => hs

/-! ## All branches together -/

/-- **Branches to one destination** rely on each other, and on the calls of the source, only to keep it whole. -/
def contract {init : Twin} (hinit : init.Whole k) (hnone : init.dest.manifest = none) :
    (branching destPrefix).Contract ok init where
  rely t := Twin.Later k (· ≠ t)
  guar t _ := Twin.Later k (· = t)
  post t _ r s := s.Whole k ∧ Settled t r s
  refl _ := .refl
  trans _ _ _ _ := .trans
  compat t u htu _ a b h := h.mono fun v hv hvu => htu (hv.symm.trans hvu)
  env u s a s' _ h := by
    obtain ⟨source, hsource, rfl⟩ := Option.map_eq_some_iff.mp h
    exact .of_source (step_extends hsource)
  start t handle s _ h := by
    refine branch handle s ⟨h.whole hinit, fun m u hm => ?_⟩
    rcases h.author m u hm with hm | hu
    · cases hnone.symm.trans hm
    · exact hu

variable {p : Namespace} {g : Branches}

theorem whole (hp : Reaches anyTerms p) (h : (branching destPrefix).Reached ok ⟨p, {}⟩ g) :
    g.shared.Whole p.shared.versions.length := by
  have hinit := Twin.Whole.init p hp.sound.dropped
  exact (((contract hinit rfl).safe_of_reachable h).1 _ (Nat.le_refl _)).whole hinit

/-- What a branch returned. -/
theorem settled (hp : Reaches anyTerms p) (h : (branching destPrefix).Reached ok ⟨p, {}⟩ g)
    {th : Thread BranchRequest BranchRequest.Answer Nat (Except Error Nat)} (hth : g.threads[t]? = some th)
    {r : Except Error Nat} (hr : th.prog = .done r) : Settled t r g.shared := by
  have hinit := Twin.Whole.init p hp.sound.dropped
  have hsafe := ((contract hinit rfl).safe_of_reachable h).2 t th hth
  rw [hr] at hsafe
  exact (hsafe g.shared (.refl _)).2

end Branching

/-! ## A run -/

/-- Two documents are written, one after the other. -/
def foxDogRun : List Act :=
  .spawn (.commitRecords 0 [.upsert (.texted "fox")] {}) :: goes 0 6 ++
    .spawn (.commitRecords 0 [.upsert (.texted "dog")] {}) :: goes 1 5

/-- A branch loads the manifest. -/
def branchLoads : List (PoolAction Nat Choice Act) := [.spawn 1, .run 0 .go, .run 0 .go]

/-- The source is compacted, and the branch ends. -/
def branchCopies : List (PoolAction Nat Choice Act) :=
  (.spawn (.compact 0 false) :: goes 2 4 ++ .run 2 (.turn true) :: goes 2 8).map .env ++
    [.run 0 .go, .run 0 (.turn true), .run 0 .go, .run 0 .go, .run 0 .go]

/-- Any run of branches. -/
def anyBranches : System.Conditions Twin BranchRequest Nat Act := ⟨fun _ => True, fun _ _ _ => True, fun _ _ => True⟩

/-- Every run of branches reaches its end. -/
theorem Branching.reached {destPrefix : String}
    {g₀ g : Branches}
    {acts : List (PoolAction Nat Choice Act)} (h : execute (branching destPrefix).step g₀ acts = some g) :
    Reachable (branching destPrefix).step (fun p a => anyBranches.Meets p a) g₀ g := by
  refine Reachable.init.execute (Allowed.of_forall (fun p a => ?_) _ _) h
  cases a with
  | spawn call => trivial
  | run t c => exact fun _ _ _ _ _ => trivial
  | env a => trivial

omit [Crates] [HashOrder] in
/-- The source has been compacted when the branch ends; the copy is what it was before. -/
theorem branchedRun :
    let _ := Crates.inert
    let _ := HashOrder.sorted
    ∃ p g₀ g m, Reaches anyTerms p ∧ (branching "copy").Reached anyBranches { source := p } g₀ ∧
      Reachable (branching "copy").step (fun p a => anyBranches.Meets p a) g₀ g ∧
      g₀.shared.source.shared.current = some (m, 1) ∧ g.shared.dest.manifest = some (m, 0) ∧
      (∀ name ∈ m.referenced, (g₀.shared.source.shared.object name).isSome) ∧ m.wal.length = 2 ∧
      g.shared.source.shared.manifest.wal = [] := by
  intro _ _
  have hrun : ((execute service.step ⟨{}, []⟩ foxDogRun).any fun p =>
      (execute (branching "copy").step ⟨{ source := p }, []⟩ branchLoads).any fun g₀ =>
      (execute (branching "copy").step g₀ branchCopies).any fun g =>
      g.shared.dest.manifest.any fun x => g₀.shared.source.shared.current = some (x.1, 1) ∧ x.2 = 0 ∧
        (∀ name ∈ x.1.referenced, (g₀.shared.source.shared.object name).isSome) ∧ x.1.wal.length = 2 ∧
        g.shared.source.shared.manifest.wal = []) = true := by
    decide +kernel
  obtain ⟨p, hp, hrun⟩ := (Option.any_eq_true _ _).mp hrun
  obtain ⟨g₀, hg₀, hrun⟩ := (Option.any_eq_true _ _).mp hrun
  obtain ⟨g, hg, hrun⟩ := (Option.any_eq_true _ _).mp hrun
  obtain ⟨⟨m, t⟩, hm, hrun⟩ := (Option.any_eq_true _ _).mp hrun
  obtain ⟨hcurrent, rfl, hthere, htwo, hempty⟩ := of_decide_eq_true hrun
  exact ⟨p, g₀, g, m, Reaches.any hp, Branching.reached hg₀, Branching.reached hg, hcurrent, hm, hthere, htwo, hempty⟩

/-! ## Snapshots -/

/-- **A branch is a snapshot**, whatever the source does meanwhile: a manifest at the destination is one that the
source has had, not before the branches were called, and each of its objects is there with the contents that the
source wrote. Its author is the branch that succeeds, which returns the number of objects; a branch that fails
leaves no manifest. -/
theorem Branching.snapshot {destPrefix : String} {ok : System.Conditions Twin BranchRequest Nat Act}
    {p : Namespace} {g : Branches}
    (hp : Reaches anyTerms p) (h : (branching destPrefix).Reached ok ⟨p, {}⟩ g) :
    (∀ m t, g.shared.dest.manifest = some (m, t) →
      (∃ version, g.shared.source.shared.At m version ∧
        g.shared.source.shared.Since p.shared.versions.length version) ∧
      ∀ name ∈ m.referenced, ∃ blob, g.shared.source.shared.HasBlob name blob ∧
        g.shared.dest.blob name = some blob) ∧
    (∀ t th n, g.threads[t]? = some th → th.prog = .done (.ok n) →
      ∃ m, g.shared.dest.manifest = some (m, t) ∧ n = m.referenced.dedup.length) ∧
    ∀ t th e, g.threads[t]? = some th → th.prog = .done (.error e) →
      ∀ m u, g.shared.dest.manifest = some (m, u) → u ≠ t := by
  have hwhole := whole hp h
  refine ⟨fun m t hm => ⟨hwhole.had m t hm, fun name hname => ?_⟩, fun t th n hth hn => settled hp h hth hn,
    fun t th e hth he => settled hp h hth he⟩
  obtain ⟨blob, hcopy⟩ := hwhole.complete m t hm name hname
  exact ⟨blob, hwhole.blob hcopy⟩

omit [Crates] [HashOrder] in
/-- Both objects are at the destination. -/
theorem branchedRun_snapshot :
    let _ := Crates.inert
    let _ := HashOrder.sorted
    ∃ p g m, Reaches anyTerms p ∧ (branching "copy").Reached anyBranches { source := p } g ∧
      g.shared.source.shared.manifest.wal = [] ∧ m.wal.length = 2 ∧ g.shared.dest.manifest = some (m, 0) ∧
      ∀ name ∈ m.referenced, ∃ blob, g.shared.source.shared.HasBlob name blob ∧
        g.shared.dest.blob name = some blob := by
  intro _ _
  obtain ⟨p, g₀, g, m, hp, hg₀, hg, -, hm, -, htwo, hempty⟩ := branchedRun
  have hreached : (branching "copy").Reached anyBranches { source := p } g :=
    hg.invariant hg₀ fun _ a _ _ hs hok hstep => hs.step a hok hstep
  exact ⟨p, g, m, hp, hreached, hempty, htwo, hm, ((Branching.snapshot hp hreached).1 m 0 hm).2⟩

/-! ## Reading the destination -/

/-- The answers of the destination, to a handle that remembers nothing. -/
def Dest.peek (d : Dest) : (r : Request) → Option r.Answer
  | .getManifest => some (.ok (d.manifest.map fun x => (x.1, 0)))
  | .get name => some (match d.blob name with
    | some blob => .ok blob
    | none => .error (.objectStore "not found"))
  | .view _ => some (none, 0)
  | .remember _ _ _ => some ()
  | .choose => some true
  | _ => none

omit [Crates] [HashOrder] in
/-- A strongly consistent call loads the manifest first. -/
theorem eval_loadWith_strong {α : Type} {answer : (r : Request) → Option r.Answer} {m : Manifest} {version : Nat}
    (hmanifest : answer .getManifest = some (.ok (some (m, version))))
    (hremember : ∀ handle m version, answer (.remember handle m version) = some ()) (handle : Nat)
    (f : Manifest × Bool → Proc α) :
    Prog.eval answer ((loadWith handle .strong).andThen f) = Prog.eval answer (f (m, false)) := by
  have hload : Prog.eval answer (load handle) = some (.ok (m, some version)) := by
    refine Proc.eval_andThen ((Prog.eval_call Request.getManifest).trans hmanifest) ?_
    refine Proc.eval_andThen (a := ()) ?_ rfl
    refine (Prog.eval_bind _ _).trans ?_
    rw [show Prog.eval answer (request (.remember handle m (some version))) = some () from
      (Prog.eval_call _).trans (hremember handle m (some version))]
    rfl
  have hall : Prog.eval answer (loadWith handle .strong) = some (.ok (m, false)) :=
    Proc.eval_andThen (a := none) rfl (Proc.eval_andThen hload rfl)
  refine (Prog.eval_bind _ _).trans ?_
  rw [hall]
  rfl

section Answers

variable {destPrefix : String} {ok : System.Conditions Twin BranchRequest Nat Act}
  {p : Namespace} {g g₀ : Branches}

/-- The source is only extended. -/
theorem Branching.extends
    (h : Reachable (branching destPrefix).step (fun p a => ok.Meets p a) g₀ g) :
    g₀.shared.source.shared.Extends g.shared.source.shared := by
  refine h.invariant (I := fun g => g₀.shared.source.shared.Extends g.shared.source.shared) (.refl _)
    fun g a g' _ hg _ hstep => hg.trans ?_
  cases a with
  | spawn handle =>
      obtain rfl := Option.some.inj hstep
      exact .refl _
  | run t c =>
      obtain ⟨_, op, _, s', x, -, -, hx, rfl⟩ := (branching destPrefix).step_run_cases hstep
      cases op with
      | source r =>
          obtain ⟨store, hstore, rfl⟩ := exec_source hx
          exact Store.exec_extends hstore
      | copy name =>
          rcases exec_copy hx with ⟨p, -, rfl⟩ | ⟨rfl, -⟩ <;> exact .refl _
      | putManifest m =>
          rcases exec_putManifest hx with ⟨-, rfl, -⟩ | ⟨rfl, -⟩ <;> exact .refl _
      | head => cases c <;> cases hx <;> exact .refl _
      | choose =>
          cases c <;> cases hx
          exact .refl _
  | env a =>
      obtain ⟨s', hs', rfl⟩ := Option.map_eq_some_iff.mp hstep
      obtain ⟨source, hsource, rfl⟩ := Option.map_eq_some_iff.mp hs'
      exact step_extends hsource

end Answers

end Fckdb
