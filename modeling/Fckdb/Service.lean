import Fckdb.Compact
import Fckdb.Destroy
import Fckdb.Gc
import Fckdb.Query

/-! # One namespace under any interleaving

The calls a namespace takes, through any number of handles, and the system that runs them: every request
of every call is one step, in any order, and time passes between the steps as it likes. -/

namespace Fckdb

/-- A call on a namespace, through one of its handles. -/
inductive Call
  | commitRecords (handle : Nat) (records : List Record) (config : WriteConfig)
  | commitBatch (handle : Nat) (batch : List Record)
  | compact (handle : Nat) (buildIndex : Bool)
  | gc (handle : Nat) (grace : Nat)
  | destroy (handle : Nat)
  | query (handle : Nat) (req : QueryRequest)

/-- What a call returns. -/
inductive Outcome
  /-- The sequence number, and the attempts it took. -/
  | committed (r : Except Error (Nat × Nat))
  | compacted (r : Except Error CompactResponse)
  | collected (r : Except Error GcResponse)
  /-- How many entries were deleted. -/
  | destroyed (r : Except Error Nat)
  | answered (r : Except Error QueryResponse)

variable [Crates] [HashOrder]

namespace Call

omit [Crates] [HashOrder] in
/-- The handle a call is made through. -/
def handle : Call → Nat
  | commitRecords handle _ _ | commitBatch handle _ | compact handle _ | gc handle _ | destroy handle
  | query handle _ => handle

/-- What a commit makes of the manifest it is based on: the schema and the batch. -/
def prepare : Call → Option (Manifest → Except Error (Schema × List Record))
  | commitRecords _ records config => some (prepareRecords records config)
  | commitBatch _ batch => some fun m => .ok (m.schema, batch)
  | _ => none

/-- The program of a call. -/
def body : Call → StoreProg Outcome
  | commitRecords handle records config =>
    (Fckdb.commitRecords handle records config).bind fun r => .done (.committed r)
  | commitBatch handle batch => (Fckdb.commitBatch handle batch).bind fun r => .done (.committed r)
  | compact handle buildIndex =>
    (Fckdb.compact handle buildIndex).bind fun r => .done (.compacted r)
  | gc handle grace => (Fckdb.gc handle grace).bind fun r => .done (.collected r)
  | destroy handle => (Fckdb.destroy handle).bind fun r => .done (.destroyed r)
  | query handle req => (Fckdb.query F64 handle req).bind fun r => .done (.answered r)

end Call

/-- The calls of a namespace on its store; the environment lets time pass. -/
def service : System Store Request Request.Answer Call Outcome Choice Nat where
  exec := Store.exec
  env := Store.tick
  body := Call.body

/-- A namespace with calls in progress. -/
abbrev Namespace := Pool Store Request Request.Answer Call Outcome

/-- Conditions on a run of a namespace; time may always pass. -/
abbrev Terms := System.Conditions Store Request Call Nat

/-- Any run. -/
def anyTerms : Terms := ⟨fun _ => True, fun _ _ _ => True, fun _ _ => True⟩

/-- A step of a namespace. -/
abbrev Act := PoolAction Call Choice Nat

/-- A thread makes its next requests, none of which leaves anything open. -/
def goes (t requests : Nat) : List Act := List.replicate requests (.run t .go)

/-- The states a namespace reaches from nothing by runs that meet the conditions. -/
abbrev Reaches (ok : Terms) (p : Namespace) : Prop := service.Reached ok {} p

/-- Every run reaches its end. -/
theorem Reaches.any {p : Namespace} {acts : List Act} (h : execute service.step ⟨{}, []⟩ acts = some p) :
    Reaches anyTerms p := by
  refine Reachable.init.execute (Allowed.of_forall (fun p a => ?_) _ _) h
  cases a with
  | spawn call => trivial
  | run t c => exact fun _ _ _ _ _ => trivial
  | env nanos => trivial

end Fckdb
