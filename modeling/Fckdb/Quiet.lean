import Fckdb.History
import Fckdb.Lib.Eval

/-! # Reading a quiet store

What a call that only reads computes when nobody else writes and the store fails no request. -/

namespace Fckdb

/-- The answers of a store that nobody changes; only reads have one. -/
def Store.peek (s : Store) : (r : Request) → Option r.Answer
  | .getManifest => some (.ok s.current)
  | .get name => some (match s.object name with
    | some p => .ok p.blob
    | none => .error (.objectStore "not found"))
  | .view handle => some (s.handles handle, s.clock)
  | .remember _ _ _ => some ()
  | .choose => some true
  | _ => none

/-- The answers that do not depend on what the handles remember. -/
def Store.glance (s : Store) : (r : Request) → Option r.Answer
  | .get name => s.peek (.get name)
  | .choose => some true
  | _ => none

/-- A call that only reads ends with this result. -/
def Store.Yields {α : Type} (s : Store) (p : Proc α) (r : Except Error α) : Prop :=
  Prog.eval s.peek p = some r

/-- A call that only reads objects ends with this result. -/
def Store.Gives {α : Type} (s : Store) (p : Proc α) (r : Except Error α) : Prop :=
  Prog.eval s.glance p = some r

/-! ## Tables of answers -/

namespace Proc

variable {α β : Type} {answer : (r : Request) → Option r.Answer}

/-- The `?` operator on a part that succeeds. -/
theorem eval_andThen {p : Proc α} {f : α → Proc β} {a : α} {r : Except Error β}
    (h : Prog.eval answer p = some (.ok a)) (hf : Prog.eval answer (f a) = some r) :
    Prog.eval answer (p.andThen f) = some r := by
  refine (Prog.eval_bind _ _).trans ?_
  rw [h]
  exact hf

/-- The `?` operator on a part that fails. -/
theorem eval_andThen_error {p : Proc α} {f : α → Proc β} {e : Error}
    (h : Prog.eval answer p = some (.error e)) :
    Prog.eval answer (p.andThen f) = some (.error e) := by
  refine (Prog.eval_bind _ _).trans ?_
  rw [h]
  rfl

/-- **`join_all`**, then all results or the first error. -/
theorem eval_tryJoinAll (hchoose : (answer .choose).isSome) {ι : Type} {is : List ι}
    {body : ι → Proc α} {f : ι → Except Error α}
    (h : ∀ i ∈ is, Prog.eval answer (body i) = some (f i)) :
    Prog.eval answer (tryJoinAll (is.map body)) = some (collect (is.map f)) := by
  have hjoin : Prog.eval answer (Prog.joinAll Request.choose id (is.map body)) = some (is.map f) :=
    Prog.eval_joinAll hchoose h
  have hok : Prog.eval answer (joinAll (is.map body)) = some (.ok (is.map f)) :=
    (Prog.eval_bind _ _).trans (congrArg (Option.bind · _) hjoin)
  exact eval_andThen hok rfl

end Proc

/-- All parts of a list succeed. -/
theorem collect_ok {ι α : Type} (is : List ι) (f : ι → α) :
    collect (is.map fun i => .ok (f i)) = .ok (is.map f) := by
  have hmap : is.map (fun i => (.ok (f i) : Except Error α)) = ((is.map f).map id).map .ok := by simp
  rw [hmap]
  exact collect_map_ok fun _ _ => rfl

/-- What is collected was there. -/
theorem forall₂_of_collect {ι α : Type} {R : ι → Except Error α → Prop} {is : List ι}
    {rs : List (Except Error α)} {as : List α} (h : List.Forall₂ R is rs) (hcollect : collect rs = .ok as) :
    List.Forall₂ (fun i a => R i (.ok a)) is as := by
  induction h generalizing as with
  | nil =>
      obtain rfl : [] = as := Except.ok.inj hcollect
      exact .nil
  | @cons i r is rs hr _ ih =>
      cases as with
      | nil =>
          cases r with
          | error e => cases hcollect
          | ok a =>
              rw [collect] at hcollect
              split at hcollect <;> cases hcollect
      | cons a as =>
          obtain ⟨rfl, hrest⟩ := collect_eq_ok_cons hcollect
          exact .cons hr (ih hrest)

/-! ## Reading objects -/

namespace Store.Gives

variable {α β : Type} {s : Store}

theorem yields {p : Proc α} {r : Except Error α} (h : s.Gives p r) : s.Yields p r := by
  refine Prog.eval_mono (fun op x hx => ?_) h
  cases op with
  | get name => exact hx
  | choose => exact hx
  | _ => cases hx

theorem ret (a : α) : s.Gives (Proc.ret a) (.ok a) := rfl

theorem seq {p : Proc α} {f : α → Proc β} {a : α} {r : Except Error β} (h : s.Gives p (.ok a))
    (hf : s.Gives (f a) r) : s.Gives (p.andThen f) r :=
  Proc.eval_andThen h hf

theorem tryJoinAll {ι : Type} {is : List ι} {body : ι → Proc α} {f : ι → α}
    (h : ∀ i ∈ is, s.Gives (body i) (.ok (f i))) :
    s.Gives (Proc.tryJoinAll (is.map body)) (.ok (is.map f)) :=
  collect_ok is f ▸ Proc.eval_tryJoinAll rfl h

theorem readBlob {name : ObjectName} {p : Put} (h : s.object name = some p) :
    s.Gives (Fckdb.readBlob name) (.ok p.blob) := by
  refine (Prog.eval_call (Request.get name)).trans ?_
  rw [Store.glance, Store.peek, h]

/-- The records of one object that is there. -/
theorem readRecordsOf {name : ObjectName} {rs : List Record} (h : s.HasRecords name rs)
    (hkept : name ∉ s.deleted) : s.Gives (Fckdb.readRecordsOf name) (.ok rs) := by
  obtain ⟨p, hp, hb⟩ := h
  have hobject : s.object name = some p := by rw [Store.object, if_neg hkept, hp]
  refine seq (readBlob hobject) ?_
  rw [hb]
  exact ret _

/-- **The records of objects that are there**, one after the other. -/
theorem readRecordsParallel {names : List ObjectName} {rs : List Record} (h : s.Reads names rs)
    (hkept : ∀ name ∈ names, name ∉ s.deleted) :
    s.Gives (Fckdb.readRecordsParallel names) (.ok rs) := by
  obtain ⟨rss, hrss, rfl⟩ := h
  -- each name with its records
  have hpairs : ∀ x ∈ names.zip rss, s.Gives (Fckdb.readRecordsOf x.1) (.ok x.2) := fun x hx =>
    readRecordsOf ((List.forall₂_iff_zip.mp hrss).2 hx) (hkept _ (List.of_mem_zip hx).1)
  have hjoin := tryJoinAll hpairs
  have hlen := hrss.length_eq
  have hnames : (names.zip rss).map (fun x => Fckdb.readRecordsOf x.1) =
      names.map Fckdb.readRecordsOf := by
    conv_rhs => rw [← List.map_fst_zip hlen.le, List.map_map]
    rfl
  rw [hnames, List.map_snd_zip hlen.ge] at hjoin
  exact seq hjoin (ret _)

end Store.Gives

/-! ## Reading -/

namespace Store.Yields

variable {α β : Type} {s : Store}

/-- A call ends with one result. -/
theorem unique {p : Proc α} {r r' : Except Error α} (h : s.Yields p r) (h' : s.Yields p r') : r = r' :=
  Option.some.inj (h.symm.trans h')

theorem ret (a : α) : s.Yields (Proc.ret a) (.ok a) := rfl

theorem fail (e : Error) : s.Yields (Proc.fail e : Proc α) (.error e) := rfl

theorem ofExcept (r : Except Error α) : s.Yields (Proc.ofExcept r) r := rfl

/-- The `?` operator on a part that succeeds. -/
theorem seq {p : Proc α} {f : α → Proc β} {a : α} {r : Except Error β} (h : s.Yields p (.ok a))
    (hf : s.Yields (f a) r) : s.Yields (p.andThen f) r :=
  Proc.eval_andThen h hf

/-- The `?` operator on a part that fails. -/
theorem seq_error {p : Proc α} {f : α → Proc β} {e : Error} (h : s.Yields p (.error e)) :
    s.Yields (p.andThen f) (.error e) :=
  Proc.eval_andThen_error h

/-- **`join_all`**, then all results or the first error. -/
theorem tryJoinAll_collect {ι : Type} {is : List ι} {body : ι → Proc α} {f : ι → Except Error α}
    (h : ∀ i ∈ is, s.Yields (body i) (f i)) :
    s.Yields (Proc.tryJoinAll (is.map body)) (collect (is.map f)) :=
  Proc.eval_tryJoinAll rfl h

theorem tryJoinAll {ι : Type} {is : List ι} {body : ι → Proc α} {f : ι → α}
    (h : ∀ i ∈ is, s.Yields (body i) (.ok (f i))) :
    s.Yields (Proc.tryJoinAll (is.map body)) (.ok (is.map f)) :=
  collect_ok is f ▸ tryJoinAll_collect h

/-- A sequence of parts that succeed does. -/
theorem exists_seq {p : Proc α} {f : α → Proc β} {a : α} (h : s.Yields p (.ok a))
    (hf : ∃ b, s.Yields (f a) (.ok b)) : ∃ b, s.Yields (p.andThen f) (.ok b) := hf.imp fun _ => seq h

/-- A sequence that succeeds consists of parts that do. -/
theorem of_seq {p : Proc α} {f : α → Proc β} {b : β} (h : s.Yields (p.andThen f) (.ok b)) :
    ∃ a, s.Yields p (.ok a) ∧ s.Yields (f a) (.ok b) := by
  obtain ⟨r, hr, hf⟩ := Option.bind_eq_some_iff.mp ((Prog.eval_bind _ _).symm.trans h)
  cases r with
  | error e => cases hf
  | ok a => exact ⟨a, hr, hf⟩

/-- A `join_all` that succeeds has parts that do. -/
theorem of_tryJoinAll {ps : List (Proc α)} {as : List α} (h : s.Yields (Proc.tryJoinAll ps) (.ok as)) :
    List.Forall₂ (fun p a => s.Yields p (.ok a)) ps as := by
  obtain ⟨rs, hjoin, hcollect⟩ := of_seq h
  obtain ⟨rs', hparts, heq⟩ := Option.bind_eq_some_iff.mp ((Prog.eval_bind _ _).symm.trans hjoin)
  obtain rfl : rs' = rs := Except.ok.inj (Option.some.inj heq)
  have hcollect : collect rs' = .ok as := Option.some.inj hcollect
  refine forall₂_of_collect ?_ hcollect
  exact Prog.forall₂_of_eval_joinAll rfl hparts

/-! ### Requests -/

theorem readBlob {name : ObjectName} {p : Put} (h : s.object name = some p) :
    s.Yields (Fckdb.readBlob name) (.ok p.blob) :=
  (Gives.readBlob h).yields

theorem remember (handle : Nat) (m : Manifest) (version : Option Nat) :
    s.Yields (Fckdb.remember handle m version) (Except.ok ()) := rfl

/-- The commit point. -/
theorem load (handle : Nat) :
    s.Yields (Fckdb.load handle)
      (.ok (s.manifest, s.current.map fun _ => s.versions.length - 1)) := by
  have hget : s.Yields getManifest (.ok s.current) := rfl
  refine seq hget ?_
  rw [Store.current, Store.manifest, lastManifest, List.getLast?_drop]
  by_cases hdrop : s.dropped < s.versions.length
  · rw [if_pos hdrop, if_neg (Nat.not_le.mpr hdrop)]
    cases hlast : s.versions.getLast? with
    | none =>
        rw [List.getLast?_eq_none_iff] at hlast
        rw [hlast] at hdrop
        cases hdrop
    | some v => exact seq (remember handle _ _) (ret _)
  · rw [if_neg hdrop, if_pos (Nat.not_lt.mp hdrop)]
    exact ret _

/-- **The records of objects that are there**, one after the other. -/
theorem readRecordsParallel {names : List ObjectName} {rs : List Record} (h : s.Reads names rs)
    (hkept : ∀ name ∈ names, name ∉ s.deleted) :
    s.Yields (Fckdb.readRecordsParallel names) (.ok rs) :=
  (Gives.readRecordsParallel h hkept).yields

/-- A full read of the current manifest. -/
theorem allRecords {rs : List Record} (handle : Nat)
    (h : s.Reads s.manifest.recordObjects rs)
    (hkept : ∀ name ∈ s.manifest.recordObjects, name ∉ s.deleted) :
    ∃ version, s.Yields (Fckdb.allRecords handle) (.ok (version, rs)) :=
  ⟨_, seq (load handle) (seq (readRecordsParallel h hkept) (ret _))⟩

/-! ### What was read -/

theorem of_readBlob {name : ObjectName} {blob : Blob} (h : s.Yields (Fckdb.readBlob name) (.ok blob)) :
    s.HasBlob name blob ∧ name ∉ s.deleted := by
  have hpeek : s.peek (.get name) = some (.ok blob) := (Prog.eval_call (Request.get name)).symm.trans h
  rw [Store.peek, Store.object] at hpeek
  split_ifs at hpeek with hdeleted
  · cases hpeek
  · cases hput : s.written name with
    | none =>
        rw [hput] at hpeek
        cases hpeek
    | some put =>
        rw [hput] at hpeek
        cases hpeek
        exact ⟨⟨put, hput, rfl⟩, hdeleted⟩

theorem of_readRecordsOf {name : ObjectName} {rs : List Record}
    (h : s.Yields (Fckdb.readRecordsOf name) (.ok rs)) : s.HasRecords name rs ∧ name ∉ s.deleted := by
  obtain ⟨blob, hblob, hread⟩ := of_seq h
  obtain ⟨⟨put, hput, hheld⟩, hkept⟩ := of_readBlob hblob
  cases blob with
  | records rs' =>
      obtain rfl := Except.ok.inj ((ret _).unique hread)
      exact ⟨⟨put, hput, hheld⟩, hkept⟩
  | _ => cases hread

/-- **Records that were read** are those of the objects. -/
theorem of_readRecordsParallel {names : List ObjectName} {rs : List Record}
    (h : s.Yields (Fckdb.readRecordsParallel names) (.ok rs)) :
    s.Reads names rs ∧ ∀ name ∈ names, name ∉ s.deleted := by
  obtain ⟨rss, hjoin, hflat⟩ := of_seq h
  obtain rfl := Except.ok.inj ((ret _).unique hflat)
  have hparts := List.forall₂_map_left_iff.mp (of_tryJoinAll hjoin)
  refine ⟨⟨rss, hparts.imp fun _ _ hpart => (of_readRecordsOf hpart).1, rfl⟩, fun name hname => ?_⟩
  obtain ⟨n, hn, rfl⟩ := List.mem_iff_getElem.mp hname
  exact (of_readRecordsOf (hparts.get hn (hparts.length_eq ▸ hn))).2

end Store.Yields

end Fckdb
