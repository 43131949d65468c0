import Fckdb.Namespace

/-! # Garbage collection

`gc` deletes what the manifest does not reference and was not written within the grace period. -/

namespace Fckdb

/-- The longest `chrono::Duration`: `i64::MAX` milliseconds. -/
def durationMax : Nat := (2 ^ 63 - 1) * 10 ^ 6

/-- `chrono::Duration::from_std(grace).unwrap_or(zero())`. -/
def fromStd (grace : Nat) : Nat := if grace ≤ durationMax then grace else 0

/-- `DateTime::<Utc>::MIN_UTC`, in nanoseconds since the epoch. -/
def minUtc : Int := -8334601228800 * 10 ^ 9

/-- What a collection reports. -/
structure GcResponse where
  scanned : Nat
  referenced : Nat
  deleted : Nat
  sparedRecent : Nat
  deriving DecidableEq, Repr

/-- What the listing has turned up so far. -/
structure Sweep where
  scanned : Nat := 0
  sparedRecent : Nat := 0
  doomed : List ObjectName := []

/-- Judge one entry: referenced, too recent, or doomed. -/
def Sweep.judge (w : Sweep) (referenced : List ObjectName) (cutoff : Int)
    (entry : ObjectName × Nat) : Sweep :=
  let w := { w with scanned := w.scanned + 1 }
  if entry.1 ∈ referenced then w
  else if cutoff < entry.2 then { w with sparedRecent := w.sparedRecent + 1 }
  else { w with doomed := w.doomed ++ [entry.1] }

/-- Judge the entries of a listing as they come. -/
def sweepEntries (sub : Sub) (referenced : List ObjectName) (cutoff : Int) :
    (left : Nat) → Sweep → Proc Sweep
  | 0, w => return w
  | left + 1, w => do
    let entry ← nextEntry sub
    sweepEntries sub referenced cutoff left (w.judge referenced cutoff entry)

/-- Go through one prefix. -/
def sweep (sub : Sub) (referenced : List ObjectName) (cutoff : Int) (w : Sweep) : Proc Sweep := do
  let entries ← listSub sub
  sweepEntries sub referenced cutoff entries w

/-- `gc`. -/
def gc (handle : Nat) (grace : Nat) : Proc GcResponse := do
  let (m, _) ← load handle
  let referenced := m.referenced
  let time ← now (.cutoff m)
  let cutoff : Int := time - fromStd grace
  -- `DateTime - Duration` panics below the earliest time
  if cutoff < minUtc then .fail (.bail "DateTime - TimeDelta overflowed")
  else
    let w ← sweep .wal referenced cutoff {}
    let w ← sweep .data referenced cutoff w
    let _ ← .tryJoinAll (w.doomed.map deleteObject)
    return ⟨w.scanned, referenced.dedup.length, w.doomed.length, w.sparedRecent⟩

end Fckdb
