import Fckdb.Namespace

/-! # Destroying a namespace

`destroy` deletes the manifest, then lists whatever is left under the prefix and deletes it. -/

namespace Fckdb

/-- Delete what a listing turned up: an object, or the manifest. -/
def deleteEntry : Option ObjectName → Proc Unit
  | some name => deleteObject name
  | none => request .deleteManifest

/-- The entries of a listing of the whole namespace, after those found so far. -/
def gatherEntries : (left : Nat) → List (Option ObjectName) → Proc (List (Option ObjectName))
  | 0, doomed => return doomed
  | left + 1, doomed => do
    let entry ← (request .nextAny : Proc (Option ObjectName))
    gatherEntries left (doomed ++ [entry])

/-- What `destroy` does once the manifest is deleted. -/
def destroyRest (handle : Nat) : Proc Nat := do
  let entries ← (request .listAll : Proc Nat)
  let doomed ← gatherEntries entries []
  let _ ← .tryJoinAll (doomed.map deleteEntry)
  forgetSnapshot handle
  return doomed.length

/-- `destroy`: the manifest first, whether or not that succeeds. -/
def destroy (handle : Nat) : Proc Nat :=
  Prog.bind (request .deleteManifest) fun _ => destroyRest handle

end Fckdb
