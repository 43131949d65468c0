import Fckdb.Live
import Fckdb.Store

/-! # The programs of a namespace

`commit_records`, `commit_batch`, `compact` and `gc`, each a program over the store's requests. What
the source awaits one after the other is asked for one after the other; what it awaits with `join_all`
is interleaved in any order. -/

namespace Fckdb

/-- A program over the store. -/
abbrev StoreProg := Prog Request Request.Answer

/-- Ask for one request. -/
def request (r : Request) : StoreProg r.Answer := Prog.call r

/-- A program that may fail; an error ends it. -/
def Proc (α : Type) : Type := StoreProg (Except Error α)

namespace Proc

variable {α β : Type}

/-- Finish with a result. -/
def ret (a : α) : Proc α := Prog.done (.ok a)

/-- Finish with an error. -/
def fail (e : Error) : Proc α := Prog.done (.error e)

/-- The `?` operator: go on with the value, or end with the error. -/
def andThen (p : Proc α) (f : α → Proc β) : Proc β := Prog.tryBind p f

instance : Monad Proc where
  pure := ret
  bind := andThen

/-- A computation without requests. -/
def ofExcept (r : Except Error α) : Proc α := Prog.done r

/-- A part that cannot fail. -/
def ofProg (p : StoreProg α) : Proc α := Prog.bind p fun a => Prog.done (.ok a)

/-- `join_all`: all parts at once, each to its end. -/
def joinAll (ps : List (Proc α)) : Proc (List (Except Error α)) :=
  ofProg (Prog.joinAll .choose id ps)

/-- `join_all`, then the first error or all results. -/
def tryJoinAll (ps : List (Proc α)) : Proc (List α) := do
  let rs ← joinAll ps
  ofExcept (collect rs)

end Proc

/-! ## Single requests -/

def getManifest : Proc (Option (Manifest × Nat)) := request .getManifest

def putManifest (m : Manifest) (mode : PutMode) (reason : Reason) : Proc (Option Nat) :=
  request (.putManifest m mode reason)

def putNew (path : Nat → ObjectName) (blob : Blob) : Proc Nat := request (.putNew path blob)

def readBlob (name : ObjectName) : Proc Blob := request (.get name)

def deleteObject (name : ObjectName) : Proc Unit := request (.delete name)

/-- Begin a listing. -/
def listSub (sub : Sub) : Proc Nat := request (.list sub)

/-- The next entry of a listing. -/
def nextEntry (sub : Sub) : Proc (ObjectName × Nat) := request (.next sub)

def now (purpose : Clocking) : Proc Nat := .ofProg (request (.now purpose))

def viewHandle (handle : Nat) : Proc (Option Snapshot × Nat) := .ofProg (request (.view handle))

/-- `remember`. -/
def remember (handle : Nat) (m : Manifest) (version : Option Nat) : Proc Unit :=
  .ofProg (request (.remember handle m version))

/-- `forget_snapshot`. -/
def forgetSnapshot (handle : Nat) : Proc Unit := .ofProg (request (.forget handle))

/-! ## Manifest io -/

/-- Fetch the commit point. -/
def load (handle : Nat) : Proc (Manifest × Option Nat) := do
  match ← getManifest with
  | some (m, version) =>
    remember handle m (some version)
    return (m, some version)
  | none => return ({}, none)

/-- The remembered commit point, if it is one of an existing namespace. -/
def snapshotView (handle : Nat) : Proc (Option (Manifest × Option Nat)) := do
  let (snapshot, _) ← viewHandle handle
  return snapshot.bind fun s => s.version.map fun v => (s.manifest, some v)

/-- The mode of a PUT that must not overwrite anything but `version`. -/
def modeOf : Option Nat → PutMode
  | some v => .update v
  | none => .create

/-! ## Object io -/

/-- `read_records`: the records of one object. -/
def readRecordsOf (name : ObjectName) : Proc (List Record) := do
  match ← readBlob name with
  | .records rs => return rs
  | _ => .fail (.kinded .internal "decoding a record")

/-- `read_records_parallel`. -/
def readRecordsParallel (names : List ObjectName) : Proc (List Record) := do
  let rss ← .tryJoinAll (names.map readRecordsOf)
  return rss.flatten

/-- The objects a full read goes through: segments first, then the WAL. -/
def Manifest.recordObjects (m : Manifest) : List ObjectName :=
  m.allSegments.map (fun s => .data s.name) ++ m.wal.map fun e => .wal e.name

/-- `all_records`: every committed record in commit order, with the version it was read at. -/
def allRecords (handle : Nat) : Proc (Option Nat × List Record) := do
  let (m, version) ← load handle
  let records ← readRecordsParallel m.recordObjects
  return (version, records)

/-! ## Writes -/

/-- `MAX_CAS_ATTEMPTS`. -/
def maxCasAttempts : Nat := 100

/-- Namespace-level settings a write may carry. -/
structure WriteConfig where
  metric : Option DistanceMetric := none
  declaredTypes : SortedMap String Ty := .empty
  declaredFts : FtsSchema := .empty
  numShards : Option Nat := none
  declaredEmbed : SortedMap String EmbedSpec := .empty

/-- The manifest with one more WAL entry. -/
def Manifest.push (m : Manifest) (schema : Schema) (name : WalName) (batch : List Record) (now : Nat) :
    Manifest :=
  let pushed : Manifest := { m with
    nextSeq := m.nextSeq + 1
    wal := m.wal ++ [⟨name, (frameRecords batch).length, asU32 batch.length⟩]
    schema }
  pushed.stamp now true

@[simp] theorem Manifest.push_nextSeq (m : Manifest) (schema : Schema) (name : WalName)
    (batch : List Record) (now : Nat) : (m.push schema name batch now).nextSeq = m.nextSeq + 1 := rfl

@[simp] theorem Manifest.push_wal (m : Manifest) (schema : Schema) (name : WalName)
    (batch : List Record) (now : Nat) : (m.push schema name batch now).wal =
      m.wal ++ [⟨name, (frameRecords batch).length, asU32 batch.length⟩] := rfl

@[simp] theorem Manifest.push_shards (m : Manifest) (schema : Schema) (name : WalName)
    (batch : List Record) (now : Nat) : (m.push schema name batch now).shards = m.shards := rfl

@[simp] theorem Manifest.push_schema (m : Manifest) (schema : Schema) (name : WalName)
    (batch : List Record) (now : Nat) : (m.push schema name batch now).schema = schema := rfl

/-- The commit point an attempt guesses: the remembered one, the first time. -/
def commitGuess (handle : Nat) (optimistic : Bool) : Proc (Option (Manifest × Option Nat)) :=
  if optimistic then snapshotView handle else return none

/-- What an attempt to commit starts from: its guess, and the stored commit point without one. -/
def commitBase (handle : Nat) (optimistic : Bool) : Proc (Manifest × Option Nat) := do
  match ← commitGuess handle optimistic with
  | some base => return base
  | none => load handle

/-- One attempt to commit what `prepare` makes of the manifest: the sequence number, or `none` for a
lost race. -/
def commitAttempt (handle : Nat) (prepare : Manifest → Except Error (Schema × List Record))
    (optimistic : Bool) : Proc (Option Nat) := do
  let (m, version) ← commitBase handle optimistic
  let (schema, batch) ← .ofExcept (prepare m)
  let seq := m.nextSeq
  -- data is written before the commit; a lost race leaves an orphan
  let uuid ← putNew (fun u => .wal ⟨seq, u⟩) (.records batch)
  let stamp ← now .stamp
  let m := m.push schema ⟨seq, uuid⟩ batch stamp
  match ← putManifest m (modeOf version) (.commit batch) with
  | some v =>
    remember handle m (some v)
    return some seq
  | none =>
    forgetSnapshot handle
    return none

/-- The attempts of a commit: the sequence number and the number of the attempt that won. -/
def commitLoop (handle : Nat) (prepare : Manifest → Except Error (Schema × List Record)) :
    (left : Nat) → (attempt : Nat) → (optimistic : Bool) → Proc (Nat × Nat)
  | 0, _, _ => .fail (.kinded .unavailable ("CAS contention: failed to commit after " ++
      toString maxCasAttempts ++ " attempts"))
  | left + 1, attempt, optimistic => do
    match ← commitAttempt handle prepare optimistic with
    | some seq => return (seq, attempt)
    | none => commitLoop handle prepare left (attempt + 1) false

/-- `commit_batch`: records as they come. -/
def commitBatch (handle : Nat) (batch : List Record) : Proc (Nat × Nat) :=
  commitLoop handle (fun m => .ok (m.schema, batch)) maxCasAttempts 1 true

section Absorb

variable [Crates]

/-- The schema and the batch a write comes to on a manifest. -/
def prepareRecords (records : List Record) (config : WriteConfig) (m : Manifest) :
    Except Error (Schema × List Record) := do
  let schema ← match config.metric with
    | some metric => m.schema.setMetric metric m.hasData
    | none => pure m.schema
  let schema ← schema.declare config.declaredTypes
  let schema ← schema.declareFts config.declaredFts
  let schema ← match config.numShards with
    | some n => schema.setShards n m.hasData
    | none => pure schema
  let schema ← schema.declareEmbed config.declaredEmbed
  schema.absorb records

/-- `commit_records`: with schema inference and enforcement. -/
def commitRecords (handle : Nat) (records : List Record) (config : WriteConfig) : Proc (Nat × Nat) :=
  commitLoop handle (prepareRecords records config) maxCasAttempts 1 true

end Absorb

end Fckdb
