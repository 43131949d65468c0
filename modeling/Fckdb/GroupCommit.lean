import Fckdb.LogSafety

/-! # Group commit

Every write of a node to a namespace goes through one committer. Writers queue their records one at a
time, while it drains the queue, commits a batch, and replies to each record; the namespace takes other
calls meanwhile. All of these steps interleave in any order. -/

namespace Fckdb

/-- `MAX_BATCH_LEN`. -/
def maxBatchLen : Nat := 1024

/-- `MAX_BATCH_BYTES`. -/
def maxBatchBytes : Nat := 8 * 2 ^ 20

/-- What a record counts for in a batch. -/
def Record.encodedLen : Record → Nat
  | .delete _ => 32
  | .patch _ attrs => 32 + attrsLen attrs
  | .upsert d => 32 + d.vector.length * 4 + attrsLen d.attrs
where
  attrsLen (attrs : Attrs) : Nat := (attrs.entries.map fun e => e.1.utf8ByteSize + 24).sum + 2

def WriteConfig.isEmpty (c : WriteConfig) : Bool :=
  c.metric.isNone && c.declaredTypes.entries.isEmpty && c.declaredFts.entries.isEmpty &&
    c.numShards.isNone && c.declaredEmbed.entries.isEmpty

/-! ## The state -/

/-- One queued write. Its ticket is the channel its reply is sent on: how many were opened before. -/
structure Req where
  record : Record
  config : WriteConfig
  ticket : Nat

/-- The configuration of a batch: the first one that is not empty. -/
def batchConfig (waiters : List Req) : WriteConfig :=
  ((waiters.map (·.config)).find? fun c => !c.isEmpty).getD {}

/-- Whether the committer goes on draining. -/
def room (waiters : List Req) : Bool :=
  waiters.length < maxBatchLen && (waiters.map (·.record.encodedLen)).sum < maxBatchBytes

/-- Where the committer is. -/
inductive Committer
  /-- It waits for a first record. -/
  | idle
  | draining (waiters : List Req)
  /-- It commits, as this thread of the namespace. -/
  | committing (waiters : List Req) (thread : Nat)
  /-- It has these records left to reply to. -/
  | replying (waiters : List Req) (thread : Nat) (reply : Except Flat Nat)

/-- A `write_all`: its records, of which it has sent as many as it has channels to wait on. `submit` is
the same with one record. -/
structure Writer where
  records : List Record
  config : WriteConfig
  waits : List Nat := []

/-- A namespace, its committer and their writers. -/
structure GroupCommit where
  handle : Nat
  space : Namespace
  writers : List Writer := []
  /-- How many channels were opened. -/
  sent : Nat := 0
  queue : List Req := []
  committer : Committer := .idle
  /-- The batches so far, each with its thread. -/
  batches : List (Nat × List Req) := []
  replies : List (Nat × Except Flat Nat) := []

namespace GroupCommit

/-- Nothing is queued on the namespace. -/
def start (handle : Nat) (space : Namespace) : GroupCommit := { handle, space }

/-- What was sent on a channel. -/
def reply (g : GroupCommit) (ticket : Nat) : Option (Except Flat Nat) :=
  (g.replies.find? fun r => r.1 = ticket).map (·.2)

/-- The rest of `write_all`, once everything is sent: the replies one after the other, up to the first
error. -/
def awaitAll (g : GroupCommit) : Nat → List Nat → Option (Except Error Nat)
  | seq, [] => some (.ok seq)
  | _, wait :: waits =>
    match g.reply wait with
    | none => none
    | some (.error e) => some (.error e.intoError)
    | some (.ok seq) => g.awaitAll seq waits

/-- What a `write_all` has returned, if it has. -/
def returned (g : GroupCommit) (w : Writer) : Option (Except Error Nat) :=
  if w.waits.length = w.records.length then g.awaitAll 0 w.waits else none

end GroupCommit

/-! ## Steps -/

/-- The result of a commit, as the committer sends it. -/
def commitReply : Except Error (Nat × Nat) → Except Flat Nat
  | .ok (seq, _) => .ok seq
  | .error e => .error (Flat.new e)

/-- The reply of a commit that has returned. -/
def Namespace.commitReply (p : Namespace) (t : Nat) : Option (Except Flat Nat) :=
  match p.threads[t]? with
  | some ⟨_, .done (.committed r)⟩ => some (Fckdb.commitReply r)
  | _ => none

/-- What can happen next. -/
inductive GroupAction
  /-- A `write_all` begins. -/
  | write (records : List Record) (config : WriteConfig)
  /-- A writer sends its next record. -/
  | send (writer : Nat)
  /-- The committer takes a record from the queue. -/
  | receive
  /-- The committer begins to commit: its batch is full, or the queue is empty. -/
  | commit
  /-- A step of the namespace. -/
  | run (a : Act)
  /-- The commit has returned. -/
  | finish
  /-- The committer sends its next reply, or has sent them all. -/
  | reply

variable [Crates] [HashOrder]

/-- One step. -/
def GroupCommit.step (g : GroupCommit) : GroupAction → Option GroupCommit
  | .write records config => some { g with writers := g.writers ++ [{ records, config }] }
  | .send i =>
    match g.writers[i]? with
    | none => none
    | some w =>
      match w.records[w.waits.length]? with
      | none => none
      | some record => some { g with
          writers := g.writers.set i { w with waits := w.waits ++ [g.sent] }
          sent := g.sent + 1
          queue := g.queue ++ [⟨record, w.config, g.sent⟩] }
  | .receive =>
    match g.committer, g.queue with
    | .idle, first :: rest => some { g with queue := rest, committer := .draining [first] }
    | .draining waiters, item :: rest =>
      if room waiters then
        some { g with queue := rest, committer := .draining (waiters ++ [item]) }
      else none
    | _, _ => none
  | .commit =>
    match g.committer with
    | .draining waiters =>
      if room waiters && !g.queue.isEmpty then none
      else
        let call := Call.commitRecords g.handle (waiters.map (·.record)) (batchConfig waiters)
        some { g with
          space := { g.space with threads := g.space.threads ++ [⟨call, call.body⟩] }
          committer := .committing waiters g.space.threads.length
          batches := g.batches ++ [(g.space.threads.length, waiters)] }
    | _ => none
  | .run a => (service.step g.space a).map fun p => { g with space := p }
  | .finish =>
    match g.committer with
    | .committing waiters t =>
      (g.space.commitReply t).map fun r => { g with committer := .replying waiters t r }
    | _ => none
  | .reply =>
    match g.committer with
    | .replying [] _ _ => some { g with committer := .idle }
    | .replying (w :: rest) t r =>
      some { g with committer := .replying rest t r, replies := g.replies ++ [(w.ticket, r)] }
    | _ => none

/-- Conditions on the steps of a group. -/
abbrev GroupTerms := GroupCommit → GroupAction → Prop

/-- The states that a group reaches from a namespace. -/
abbrev GroupCommit.Reached (ok : GroupTerms) (handle : Nat) (p : Namespace) (g : GroupCommit) : Prop :=
  Reachable GroupCommit.step ok (.start handle p) g

end Fckdb
