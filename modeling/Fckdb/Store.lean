import Fckdb.Manifest
import Fckdb.Lib.Pool

/-! # The object store and its requests

What the handles of one namespace share: the manifest with its conditional PUT, the immutable objects,
the clock, and each handle's remembered commit point. A program makes one request at a time; a request
has a definite outcome, and a failed one changes nothing. The store is kept as its history: every
version of the manifest with the reason it was written, every PUT of an object, and every deletion. The
theorems are about the history; the programs see its end. -/

namespace Fckdb

/-! ## The state -/

/-- The contents of an immutable object. -/
inductive Blob
  /-- Framed records: a WAL entry, a segment or a cluster. -/
  | records (rs : List Record)
  | centroids (flat : List F32)
  | ids (ids : List Id)
  | attr (x : AttrIndex)
  | fts (x : FtsIndex)
  | sparse (x : SparseIndex)

/-- The PUT of an object: its name, its contents, who wrote it and when. -/
structure Put where
  name : ObjectName
  blob : Blob
  thread : Nat
  time : Nat

/-- Why a manifest was written: by a commit of a batch, or by a compaction that decided on version
`base` of the manifest and read the documents of version `read` (`none`: there was no manifest). -/
inductive Reason
  | commit (batch : List Record)
  | compaction (base read : Option Nat)

/-- A version of the manifest: who wrote it, why and when. -/
structure Version where
  manifest : Manifest
  thread : Nat
  reason : Reason
  time : Nat

/-- A handle's remembered commit point. -/
structure Snapshot where
  manifest : Manifest
  version : Option Nat
  takenAt : Nat

/-- Everything the programs share. A version token is the position in the history. -/
structure Store where
  versions : List Version := []
  /-- The PUTs of objects. As a UUID never repeats, it is the position of its PUT, and no name is
  bound twice. -/
  puts : List Put := []
  deleted : List ObjectName := []
  /-- The names that listings of the whole namespace have turned up. -/
  listed : List ObjectName := []
  /-- How many versions had been written when the manifest was last deleted. -/
  dropped : Nat := 0
  /-- Nanoseconds since the epoch. -/
  clock : Nat := 0
  handles : Nat → Option Snapshot := fun _ => none
  /-- The latest version each handle has remembered, counted from one. -/
  published : Nat → Nat := fun _ => 0

/-- How many versions a token has seen. -/
def seen : Option Nat → Nat
  | none => 0
  | some v => v + 1

/-! ## Requests -/

/-- `PutMode` of a conditional PUT. -/
inductive PutMode
  | create
  | update (version : Nat)

/-- The two prefixes a listing goes through. -/
inductive Sub
  | wal
  | data
  deriving DecidableEq

/-- The prefix a name is under. -/
def ObjectName.sub : ObjectName → Sub
  | wal _ => .wal
  | data _ => .data

/-- What the clock is read for: to stamp a manifest, or for the cutoff of a collection that works from
`loaded`. -/
inductive Clocking
  | stamp
  | cutoff (loaded : Manifest)

/-- One atomic request. -/
inductive Request
  /-- GET of the manifest. -/
  | getManifest
  /-- Conditional PUT of the manifest. -/
  | putManifest (manifest : Manifest) (mode : PutMode) (reason : Reason)
  /-- Draw a UUID and PUT an object under a name that contains it. -/
  | putNew (path : Nat → ObjectName) (blob : Blob)
  | get (name : ObjectName)
  | delete (name : ObjectName)
  /-- Begin a listing: how many entries it will yield. -/
  | list (sub : Sub)
  /-- The next entry of a listing: a name and its last-modified time. -/
  | next (sub : Sub)
  /-- DELETE of the manifest. -/
  | deleteManifest
  /-- Begin a listing of the whole namespace. -/
  | listAll
  /-- Its next entry: an object, or the manifest. -/
  | nextAny
  | now (purpose : Clocking)
  /-- Look at a handle's remembered commit point, and at the time. -/
  | view (handle : Nat)
  | remember (handle : Nat) (manifest : Manifest) (version : Option Nat)
  | forget (handle : Nat)
  /-- Whose turn it is among the parts of a `join_all`. -/
  | choose

/-- The answers to each request. -/
@[reducible] def Request.Answer : Request → Type
  | getManifest => Except Error (Option (Manifest × Nat))
  -- the new version token, or `none` for a failed precondition
  | putManifest _ _ _ => Except Error (Option Nat)
  | putNew _ _ => Except Error Nat
  | get _ => Except Error Blob
  | delete _ => Except Error Unit
  | list _ => Except Error Nat
  | next _ => Except Error (ObjectName × Nat)
  | deleteManifest => Except Error Unit
  | listAll => Except Error Nat
  | nextAny => Except Error (Option ObjectName)
  | now _ => Nat
  | view _ => Option Snapshot × Nat
  | remember _ _ _ => Unit
  | forget _ => Unit
  | choose => Bool

/-- What a request's own outcome leaves open. -/
inductive Choice
  /-- The request succeeds, or is refused by its condition. -/
  | go
  /-- The store fails the request. -/
  | fail (msg : String)
  /-- The listing will yield this many entries. -/
  | count (n : Nat)
  /-- The listing yields this entry. -/
  | entry (name : ObjectName)
  /-- The listing yields the manifest. -/
  | manifestEntry
  /-- The first part goes on (or the second). -/
  | turn (left : Bool)

namespace Store

/-- The manifest and its version token. -/
def current (s : Store) : Option (Manifest × Nat) :=
  if s.dropped < s.versions.length then
    s.versions.getLast?.map fun v => (v.manifest, s.versions.length - 1)
  else none

/-- Whether a conditional PUT finds its condition met. -/
def admits (s : Store) : PutMode → Bool
  | .create => s.versions.length ≤ s.dropped
  | .update v => s.dropped < s.versions.length && s.versions.length = v + 1

/-- The PUT of a name, whether or not it was deleted since. -/
def written (s : Store) (name : ObjectName) : Option Put :=
  s.puts[name.uuid]?.filter fun p => p.name = name

/-- The object under a name. -/
def object (s : Store) (name : ObjectName) : Option Put :=
  if name ∈ s.deleted then none else s.written name

/-- Set a handle's remembered commit point, or forget it. -/
def setHandle (s : Store) (handle : Nat) (snapshot : Option Snapshot) : Store :=
  { s with
    handles := fun h => if h = handle then snapshot else s.handles h
    published := fun h =>
      if h = handle then max (s.published h) (seen (snapshot.bind (·.version))) else s.published h }

/-- The store after a version was written. -/
def push (s : Store) (v : Version) : Store := { s with versions := s.versions ++ [v] }

/-- Answer a request of a thread. -/
def exec (thread : Nat) (s : Store) : (r : Request) → Choice → Option (Store × r.Answer)
  | .getManifest, .go => some (s, .ok s.current)
  | .getManifest, .fail msg => some (s, .error (.objectStore msg))
  | .putManifest m mode reason, .go =>
    if s.admits mode then
      some (s.push ⟨m, thread, reason, s.clock⟩, .ok (some s.versions.length))
    else some (s, .ok none)
  | .putManifest _ _ _, .fail msg => some (s, .error (.objectStore msg))
  | .putNew path blob, .go =>
    some ({ s with puts := s.puts ++ [⟨path s.puts.length, blob, thread, s.clock⟩] },
      .ok s.puts.length)
  | .putNew _ _, .fail msg => some (s, .error (.objectStore msg))
  | .get name, .go =>
    match s.object name with
    | some p => some (s, .ok p.blob)
    | none => some (s, .error (.objectStore "not found"))
  | .get _, .fail msg => some (s, .error (.objectStore msg))
  | .delete name, .go => some ({ s with deleted := s.deleted ++ [name] }, .ok ())
  | .delete _, .fail msg => some (s, .error (.objectStore msg))
  | .list _, .count n => some (s, .ok n)
  | .list _, .fail msg => some (s, .error (.objectStore msg))
  | .next sub, .entry name =>
    match s.object name with
    | some p => if name.sub = sub then some (s, .ok (name, p.time)) else none
    | none => none
  | .next _, .fail msg => some (s, .error (.objectStore msg))
  | .deleteManifest, .go => some ({ s with dropped := s.versions.length }, .ok ())
  | .deleteManifest, .fail msg => some (s, .error (.objectStore msg))
  | .listAll, .count n => some (s, .ok n)
  | .listAll, .fail msg => some (s, .error (.objectStore msg))
  | .nextAny, .entry name =>
    if (s.object name).isSome then some ({ s with listed := s.listed ++ [name] }, .ok (some name))
    else none
  | .nextAny, .manifestEntry => if s.dropped < s.versions.length then some (s, .ok none) else none
  | .nextAny, .fail msg => some (s, .error (.objectStore msg))
  | .now _, .go => some (s, s.clock)
  | .view handle, .go => some (s, (s.handles handle, s.clock))
  | .remember handle m version, .go => some (s.setHandle handle (some ⟨m, version, s.clock⟩), ())
  | .forget handle, .go => some (s.setHandle handle none, ())
  | .choose, .turn left => some (s, left)
  | _, _ => none

/-- Time passes. -/
def tick (s : Store) (nanos : Nat) : Option Store := some { s with clock := s.clock + nanos }

end Store

end Fckdb
