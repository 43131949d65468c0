import Fckdb.Compact
import Fckdb.Lib.Eval
import Fckdb.WriteAlone

/-! # The status of an error

An engine error reaches the client through a handler. `classify` reads its status off the chain, and reads the
same one after the error went through the committer's channel (`classify_intoError`). Where a handler passes an
error on with `?`, the client is told that the server failed, whatever the chain says (`status_kept_iff`). -/

namespace Fckdb

/-! ## Chains -/

/-- The chain says that the process failed. -/
def Error.IsInternal (e : Error) : Prop := e.kindOf = some .internal ∨ e.kindOf = none ∧ e.isFault = true

theorem classify_status_eq_internal_iff (e : Error) :
    (classify e).status = .internalServerError ↔ e.IsInternal := by
  rw [classify, Error.IsInternal]
  cases e.kindOf with
  | some kind => cases kind <;> simp
  | none => cases e.isFault <;> simp

/-- **The channel keeps status and message** of an error. -/
theorem classify_intoError (e : Error) : classify (Flat.new e).intoError = classify e := by
  rw [Flat.intoError, Flat.new, classify, classify]
  cases hkind : e.kindOf with
  | some kind => cases kind <;> rfl
  | none =>
      cases hfault : e.isFault with
      | true => rfl
      | false => rfl

/-! ## Handlers -/

section

variable [Crates] [HashOrder] [SerdeJson]

/-- Refuse a query that ranks and aggregates nothing, or cannot be ranked. -/
def QueryRequest.check (req : QueryRequest) : Except AppError Unit :=
  if req.aggregateBy.isNone && req.vector.isEmpty then
    .error (bad "query requires a vector, order_by, text, sparse, or aggregate_by")
  else if req.vector.any (!·.isFinite) then .error (bad "query vector must not contain NaN or infinity")
  else if req.topK = 0 ∨ 1000 < req.topK then .error (bad "top_k must be between 1 and 1000")
  else .ok ()

/-- `query`: a query on a namespace. -/
def answerQuery (handle : Nat) (req : QueryRequest) : Api QueryResponse := do
  .ofExcept req.check
  .ofProc classify (query F64 handle req)

/-- `compact`: compact a namespace on demand. -/
def answerCompact (handle : Nat) : Api CompactResponse := .ofProc .ofError (compact handle true)

/-! ## Routes -/

/-- The ways of an engine error to the client: the call that fails, in a request that gets as far. -/
inductive Route
  | query (handle : Nat) (req : QueryRequest) (h : req.check = .ok ())
  /-- The commit point, before a write. -/
  | load (handle : Nat) (cut : Cut) (body : WriteRequest) (h : body.check = .ok ())
  /-- The committer's channel, to a writer whose records are one batch. -/
  | commit (handle : Nat) (cut : Cut) (records : List Record) (config : WriteConfig)
      (h : cut.batches records = [records])
  | deleteByFilter (handle : Nat) (body : WriteRequest) (filter : Filter)
      (h : body.deleteByFilter = some filter)
  | patchByFilter (handle : Nat) (body : WriteRequest) (fp : FilterPatch) (hdelete : body.deleteByFilter = none)
      (h : body.patchByFilter = some fp) (hfields : fp.patch.entries.isEmpty = false)
  | compact (handle : Nat)

namespace Route

/-- What the call yields. -/
def Out : Route → Type
  | query .. => QueryResponse
  | load .. => Manifest × Option Nat
  | commit .. => Nat × Nat
  | deleteByFilter .. => List Id × Bool
  | patchByFilter .. => List Id × Bool
  | compact .. => CompactResponse

/-- The call of the engine. -/
def call : (r : Route) → Proc r.Out
  | query handle req _ => Fckdb.query F64 handle req
  | load handle _ _ _ => Fckdb.load handle
  | commit handle _ records config _ => commitRecords handle records config
  | deleteByFilter handle _ filter _ => idsMatching handle filter maxDeleteByFilterRows
  | patchByFilter handle _ fp _ _ _ => idsMatching handle fp.filters maxPatchByFilterRows
  | compact handle => Fckdb.compact handle true

/-- What the handler yields. -/
def Reply : Route → Type
  | query .. => QueryResponse
  | load .. => WriteResponse
  | commit .. => Nat
  | deleteByFilter .. => Plan
  | patchByFilter .. => Plan
  | compact .. => CompactResponse

/-- The part of the handler around the call, up to its answer. -/
def handler : (r : Route) → Api r.Reply
  | query handle req _ => answerQuery handle req
  | load handle cut body _ => write handle cut body
  | commit handle cut records config _ => .ofProc classify (writeAll handle cut records config)
  | deleteByFilter handle body _ _ => assemble handle body
  | patchByFilter handle body _ _ _ _ => assemble handle body
  | compact handle => answerCompact handle

/-- What becomes of an error of the call. -/
def report : Route → Error → AppError
  | query .., e => classify e
  | load .., e => .ofError e
  | commit .., e => classify (Flat.new e).intoError
  | deleteByFilter .., e => .ofError e
  | patchByFilter .., e => .ofError e
  | compact .., e => .ofError e

/-- The routes on which the error is classified. -/
def Classifies : Route → Prop
  | query .. => True
  | load .. => False
  | commit .. => True
  | deleteByFilter .. => False
  | patchByFilter .. => False
  | compact .. => False

section Running

variable {S : Type} {step : S → (op : Request) → Option (S × op.Answer)} {s s' : S} {e : Error}

omit [Crates] [HashOrder] [SerdeJson] in
theorem run_ofProc {α : Type} {f : Error → AppError} {p : Proc α}
    (h : Prog.run step p s = some (s', .error e)) :
    Prog.run step (Api.ofProc f p) s = some (s', .error (f e)) := by
  refine (Prog.run_bind _ _ s).trans ?_
  rw [h]
  rfl

omit [Crates] [HashOrder] [SerdeJson] in
theorem run_andThen {α β : Type} {p : Api α} {f : α → Api β} {a : AppError}
    (h : Prog.run step p s = some (s', .error a)) :
    Prog.run step (Api.andThen p f) s = some (s', .error a) := by
  refine (Prog.run_bind _ _ s).trans ?_
  rw [h]
  rfl

omit [Crates] [HashOrder] [SerdeJson] in
theorem run_seq {α β : Type} {p : Proc α} {f : α → Proc β} {a : α} {r : S × Except Error β}
    (h : Prog.run step p s = some (s', .ok a)) (hf : Prog.run step (f a) s' = some r) :
    Prog.run step (Proc.andThen p f) s = some r := by
  refine (Prog.run_bind _ _ s).trans ?_
  rw [h]
  exact hf

omit [HashOrder] [SerdeJson] in
/-- A commit that fails is an error for every record of its batch. -/
theorem run_writeAll {handle : Nat} {cut : Cut} {records : List Record} {config : WriteConfig}
    (hcut : cut.batches records = [records])
    (h : Prog.run step (commitRecords handle records config) s = some (s', .error e)) :
    Prog.run step (writeAll handle cut records config) s = some (s', .error (Flat.new e).intoError) := by
  have hcommit : Prog.run step (Proc.ofProg (commitRecords handle records config)) s =
      some (s', .ok (.error e)) := by
    refine (Prog.run_bind _ _ s).trans ?_
    rw [h]
    rfl
  have hreplies : Prog.run step (commitBatches handle config (cut.batches records)) s =
      some (s', .ok (records.map (fun _ => .error (Flat.new e)) ++ [])) := by
    rw [hcut]
    exact run_seq hcommit rfl
  have hne : records ≠ [] := cut.nonempty records records (hcut ▸ List.mem_singleton_self records)
  refine run_seq hreplies ?_
  rw [awaitReplies_error 0 (Flat.new e) hne []]
  rfl

/-- **The handler answers** a failure of its call with what the route reports. -/
theorem run_handler (r : Route) (h : Prog.run step r.call s = some (s', .error e)) :
    Prog.run step r.handler s = some (s', .error (r.report e)) := by
  cases r with
  | query handle req hcheck =>
      show Prog.run step (Prog.tryBind (Prog.done req.check) _) s = _
      rw [hcheck]
      exact run_ofProc h
  | load handle cut body hcheck =>
      show Prog.run step (Prog.tryBind (Prog.done body.check) _) s = _
      rw [hcheck]
      show Prog.run step (Api.andThen (Api.ofProc .ofError (Fckdb.load handle)) _) s = _
      exact run_andThen (run_ofProc h)
  | commit handle cut records config hcut =>
      exact run_ofProc (run_writeAll hcut h)
  | deleteByFilter handle body filter hfilter =>
      refine run_andThen ?_
      rw [hfilter]
      exact run_ofProc h
  | patchByFilter handle body fp hdelete hpatch hfields =>
      show Prog.run step (Prog.tryBind (filterDeletes handle body.deleteByFilter) _) s = _
      rw [hdelete]
      show Prog.run step (Api.andThen (filterPatches handle body.patchByFilter) _) s = _
      refine run_andThen ?_
      rw [hpatch, filterPatches, hfields]
      exact run_andThen (run_ofProc h)
  | compact handle => exact run_ofProc h

omit [Crates] [HashOrder] [SerdeJson] in
theorem report_status_iff (r : Route) (e : Error) :
    (r.report e).status = (classify e).status ↔ r.Classifies ∨ e.IsInternal := by
  have hserver : Status.internalServerError = (classify e).status ↔ e.IsInternal :=
    eq_comm.trans (classify_status_eq_internal_iff e)
  cases r with
  | query handle req h => exact iff_of_true rfl (.inl trivial)
  | load handle cut body h => exact hserver.trans (or_iff_right id).symm
  | commit handle cut records config h =>
      exact iff_of_true (congrArg AppError.status (classify_intoError e)) (.inl trivial)
  | deleteByFilter handle body filter h => exact hserver.trans (or_iff_right id).symm
  | patchByFilter handle body fp hdelete h hfields => exact hserver.trans (or_iff_right id).symm
  | compact handle => exact hserver.trans (or_iff_right id).symm

/-- **The client is told the status of the chain** where the error is classified, and elsewhere when the chain
says that the process failed. -/
theorem status_kept_iff (r : Route) (h : Prog.run step r.call s = some (s', .error e)) :
    (∃ a, Prog.run step r.handler s = some (s', .error a) ∧ a.status = (classify e).status) ↔
      r.Classifies ∨ e.IsInternal := by
  rw [← report_status_iff]
  constructor
  · rintro ⟨a, ha, hstatus⟩
    cases ha.symm.trans (run_handler r h)
    exact hstatus
  · exact fun hstatus => ⟨_, run_handler r h, hstatus⟩

end Running

end Route

end

/-! ## A filter that is the caller's mistake -/

/-- A namespace with an attribute that holds times. -/
def timesStore : Store :=
  { versions := [⟨{ schema := { attributes := .ofList [("when", .datetime)] } }, 0, .commit [], 0⟩] }

/-- Everything since yesterday is to be deleted, but yesterday is no time. -/
def deleteSinceYesterday : WriteRequest :=
  { deleteByFilter := some (.cmp "when" .gt (.string "yesterday")) }

/-- The filter is not resolved, and the chain does not say that the process failed. -/
theorem exists_run_deleteSinceYesterday :
    let _ := Crates.inert; let _ := HashOrder.sorted; let _ := SerdeJson.exact
    ∃ s' e, Prog.run (Store.serve 0) (Route.deleteByFilter 0 deleteSinceYesterday _ rfl).call timesStore =
      some (s', .error e) ∧ e.kindOf = none ∧ e.isFault = false :=
  ⟨_, _, rfl, rfl, rfl⟩

theorem status_kept_iff_deleteSinceYesterday :
    let _ := Crates.inert; let _ := HashOrder.sorted; let _ := SerdeJson.exact
    ∃ (r : Route) (s' : Store) (e : Error), Prog.run (Store.serve 0) r.call timesStore = some (s', .error e) ∧
      ((∃ a, Prog.run (Store.serve 0) r.handler timesStore = some (s', .error a) ∧
        a.status = (classify e).status) ↔ r.Classifies ∨ e.IsInternal) := by
  intro _ _ _
  obtain ⟨s', e, hrun, -, -⟩ := exists_run_deleteSinceYesterday
  exact ⟨_, s', e, hrun, Route.status_kept_iff _ hrun⟩

/-- The client is told that the server failed, where `classify` says that the request was bad. -/
theorem not_status_kept :
    let _ := Crates.inert; let _ := HashOrder.sorted; let _ := SerdeJson.exact
    ¬ ∀ (r : Route) (s s' : Store) (e : Error), Prog.run (Store.serve 0) r.call s = some (s', .error e) →
      ∃ a, Prog.run (Store.serve 0) r.handler s = some (s', .error a) ∧ a.status = (classify e).status := by
  intro _ _ _ h
  obtain ⟨s', e, hrun, hkind, hfault⟩ := exists_run_deleteSinceYesterday
  obtain ⟨a, ha, hstatus⟩ := h _ timesStore s' e hrun
  cases ha.symm.trans (Route.run_handler _ hrun)
  rw [classify, hkind, hfault] at hstatus
  cases hstatus

end Fckdb
