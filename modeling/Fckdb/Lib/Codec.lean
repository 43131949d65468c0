import Mathlib.Algebra.Order.Ring.Nat
import Mathlib.Data.List.Basic
import Mathlib.Tactic.SplitIfs

/-! # Binary readers over a buffer

A `Reader` looks at a buffer from a position and gives a value and the position after it, or an
error. `Reader.Parses r bytes a` is what a codec proves about one field: wherever the buffer goes on
with `bytes`, the reader gives `a` and stops right after them; wherever the buffer *ends* inside
`bytes`, the reader fails. Both halves compose along `bind` (`Parses.bind`), so a record's round trip
and the rejection of its truncations are one proof. -/

namespace Fckdb

universe u v w

/-- A string of bytes. -/
abbrev Bytes := List UInt8

/-! ## Little-endian integers -/

/-- The `k` low bytes of `n`, least significant first. -/
def leBytes : Nat → Nat → Bytes
  | 0, _ => []
  | k + 1, n => UInt8.ofNat n :: leBytes k (n / 256)

/-- The number little-endian bytes stand for. -/
def leVal : Bytes → Nat
  | [] => 0
  | b :: bs => b.toNat + 256 * leVal bs

@[simp] theorem leBytes_length (k n : Nat) : (leBytes k n).length = k := by
  induction k generalizing n with
  | zero => rfl
  | succ k ih => simp [leBytes, ih]

/-- Writing `k` bytes keeps the number modulo `256 ^ k`. -/
theorem leVal_leBytes (k n : Nat) : leVal (leBytes k n) = n % 256 ^ k := by
  induction k generalizing n with
  | zero => simp [leBytes, leVal, Nat.mod_one]
  | succ k ih =>
      have hb : (UInt8.ofNat n).toNat = n % 256 := by simp
      rw [leBytes, leVal, ih, hb, Nat.pow_succ', Nat.mod_mul]

/-- A number that fits is read back. -/
theorem leVal_leBytes_of_lt {k n : Nat} (h : n < 256 ^ k) : leVal (leBytes k n) = n := by
  rw [leVal_leBytes, Nat.mod_eq_of_lt h]

/-- Bytes are written back from their number. -/
theorem leBytes_leVal (bs : Bytes) : leBytes bs.length (leVal bs) = bs := by
  induction bs with
  | nil => rfl
  | cons b bs ih =>
      have hb : b.toNat < 256 := b.toNat_lt
      have hlow : UInt8.ofNat (b.toNat + 256 * leVal bs) = b := by
        rw [← UInt8.toNat_inj, UInt8.toNat_ofNat']
        omega
      have hhigh : (b.toNat + 256 * leVal bs) / 256 = leVal bs := by omega
      rw [List.length_cons, leVal, leBytes, hlow, hhigh, ih]

/-- Reading `k` bytes gives a number below `256 ^ k`. -/
theorem leVal_lt (bs : Bytes) : leVal bs < 256 ^ bs.length := by
  induction bs with
  | nil => simp [leVal]
  | cons b bs ih =>
      have hb : b.toNat < 256 := b.toNat_lt
      rw [leVal, List.length_cons, Nat.pow_succ']
      omega

/-! ## Readers -/

/-- A reader: from a buffer and a position to a value and the next position. -/
def Reader (ε : Type u) (α : Type v) := Bytes → Nat → Except ε (α × Nat)

namespace Reader

variable {ε : Type u} {α β γ : Type v}

/-- Succeed without reading. -/
def pure (a : α) : Reader ε α := fun _ pos => .ok (a, pos)

/-- Fail with an error that may name the position. -/
def fail (e : Nat → ε) : Reader ε α := fun _ pos => .error (e pos)

/-- Read one thing, then another that may depend on it. -/
def bind (r : Reader ε α) (f : α → Reader ε β) : Reader ε β := fun buf pos =>
  match r buf pos with
  | .error e => .error e
  | .ok (a, pos') => f a buf pos'

instance : Monad (Reader ε) where
  pure := Reader.pure
  bind := Reader.bind

/-- The next `n` bytes; `trunc n pos len` is the error when the buffer ends before them. -/
def take (trunc : Nat → Nat → Nat → ε) (n : Nat) : Reader ε Bytes := fun buf pos =>
  if pos + n ≤ buf.length then .ok ((buf.drop pos).take n, pos + n)
  else .error (trunc n pos buf.length)

/-- A little-endian integer of `k` bytes. -/
def le (trunc : Nat → Nat → Nat → ε) (k : Nat) : Reader ε Nat :=
  (take trunc k).bind fun bs => Reader.pure (leVal bs)

/-- The same reader `n` times, the values in order. -/
def times : Nat → Reader ε α → Reader ε (List α)
  | 0, _ => Reader.pure []
  | n + 1, r => r.bind fun a => (times n r).bind fun as => Reader.pure (a :: as)

/-- Go on with `r` only if `n` bytes are left. -/
def guarded (trunc : Nat → ε) (n : Nat) (r : Reader ε α) : Reader ε α := fun buf pos =>
  if pos + n ≤ buf.length then r buf pos else .error (trunc pos)

/-- Report the errors of `r` as `f` says. -/
def mapError {ε' : Type u} (f : ε → ε') (r : Reader ε α) : Reader ε' α := fun buf pos =>
  match r buf pos with
  | .ok x => .ok x
  | .error e => .error (f e)

/-- `r` reads exactly `bytes` as `a`, and fails on a buffer that ends inside `bytes`. -/
structure Parses (r : Reader ε α) (bytes : Bytes) (a : α) : Prop where
  /-- The value is read and the position moves past `bytes`, whatever follows. -/
  reads : ∀ buf pos rest, buf.drop pos = bytes ++ rest → pos ≤ buf.length →
    r buf pos = .ok (a, pos + bytes.length)
  /-- A buffer that stops short of the whole of `bytes` is an error. -/
  rejects : ∀ buf pos rest, buf.drop pos ++ rest = bytes → rest ≠ [] → pos ≤ buf.length →
    ∃ e, r buf pos = .error e

namespace Parses

theorem pure (a : α) : Parses (Reader.pure a : Reader ε α) [] a where
  reads _ _ _ _ _ := rfl
  rejects _ _ _ h hne _ := absurd (List.append_eq_nil_iff.mp h).2 hne

/-- **Sequencing** of round trips. -/
theorem bind {r : Reader ε α} {f : α → Reader ε β} {bs cs : Bytes} {a : α} {b : β}
    (hr : Parses r bs a) (hf : Parses (f a) cs b) : Parses (r.bind f) (bs ++ cs) b where
  reads buf pos rest h hpos := by
    rw [List.append_assoc] at h
    have hlen := congrArg List.length h
    simp only [List.length_drop, List.length_append] at hlen
    have hnext : buf.drop (pos + bs.length) = cs ++ rest := by
      rw [← List.drop_drop, h, List.drop_left]
    rw [Reader.bind, hr.reads buf pos _ h hpos]
    simp only
    rw [hf.reads buf _ rest hnext (by omega), List.length_append, Nat.add_assoc]
  rejects buf pos rest h hne hpos := by
    rw [Reader.bind]
    -- either the buffer ends inside `bs`, or `bs` is whole and it ends inside `cs`
    rcases List.append_eq_append_iff.mp h with ⟨mid, rfl, hmid⟩ | ⟨mid, hmid, rfl⟩
    · by_cases hm : mid = []
      · subst hm
        have hbs : buf.drop pos = (buf.drop pos ++ []) ++ [] := by simp
        rw [hr.reads buf pos [] hbs hpos]
        simp only
        have hlen : (buf.drop pos ++ []).length = buf.length - pos := by simp
        refine hf.rejects buf _ rest ?_ hne (by omega)
        rw [hlen, List.drop_of_length_le (by omega)]
        simpa using hmid
      · obtain ⟨e, he⟩ := hr.rejects buf pos mid rfl hm hpos
        exact ⟨e, by rw [he]⟩
    · rw [hr.reads buf pos mid hmid hpos]
      simp only
      have hlen := congrArg List.length hmid
      simp only [List.length_drop, List.length_append] at hlen
      refine hf.rejects buf _ rest ?_ hne (by omega)
      rw [← List.drop_drop, hmid, List.drop_left]

/-- A continuation that decodes what was read consumes nothing more. -/
theorem bind_of_eq {r : Reader ε α} {f : α → Reader ε β} {bs : Bytes} {a : α} {b : β}
    (h : Parses r bs a) (hf : f a = Reader.pure b) : Parses (r.bind f) bs b := by
  have := h.bind (hf ▸ Parses.pure b)
  rwa [List.append_nil] at this

/-- Post-processing the value read. -/
theorem map {r : Reader ε α} {bs : Bytes} {a : α} (h : Parses r bs a) (f : α → β) :
    Parses (r.bind fun x => Reader.pure (f x)) bs (f a) :=
  h.bind_of_eq rfl

theorem take (trunc : Nat → Nat → Nat → ε) {n : Nat} {bs : Bytes} (h : bs.length = n) :
    Parses (Reader.take trunc n) bs bs where
  reads buf pos rest hb hpos := by
    have hlen := congrArg List.length hb
    simp only [List.length_drop, List.length_append] at hlen
    rw [Reader.take, if_pos (by omega), hb, ← h, List.take_left]
  rejects buf pos rest hb hne hpos := by
    have hlen := congrArg List.length hb
    have hrest : 0 < rest.length := List.length_pos_iff.mpr hne
    simp only [List.length_drop, List.length_append] at hlen
    exact ⟨_, by rw [Reader.take, if_neg (by omega)]⟩

/-- An integer that fits its width is read back. -/
theorem le (trunc : Nat → Nat → Nat → ε) {k n : Nat} (h : n < 256 ^ k) :
    Parses (Reader.le trunc k) (leBytes k n) n := by
  have := (Parses.take trunc (leBytes_length k n)).map leVal
  rwa [leVal_leBytes_of_lt h] at this

/-- Reading a list of values one by one. -/
theorem times {r : Reader ε α} (enc : α → Bytes) (as : List α)
    (h : ∀ a ∈ as, Parses r (enc a) a) :
    Parses (Reader.times as.length r) (as.flatMap enc) as := by
  induction as with
  | nil => exact Parses.pure []
  | cons a as ih =>
      rw [List.length_cons, Reader.times, List.flatMap_cons]
      exact (h a List.mem_cons_self).bind
        ((ih fun x hx => h x (List.mem_cons_of_mem _ hx)).map _)

/-- A check that asks for no more than the bytes that are read changes nothing. -/
theorem guarded (trunc : Nat → ε) {n : Nat} {r : Reader ε α} {bs : Bytes} {a : α}
    (h : Parses r bs a) (hn : n ≤ bs.length) : Parses (Reader.guarded trunc n r) bs a where
  reads buf pos rest hb hpos := by
    have hlen := congrArg List.length hb
    simp only [List.length_drop, List.length_append] at hlen
    rw [Reader.guarded, if_pos (by omega), h.reads buf pos rest hb hpos]
  rejects buf pos rest hb hne hpos := by
    rw [Reader.guarded]
    split_ifs
    · exact h.rejects buf pos rest hb hne hpos
    · exact ⟨_, rfl⟩

theorem mapError {ε' : Type u} (f : ε → ε') {r : Reader ε α} {bs : Bytes} {a : α}
    (h : Parses r bs a) : Parses (Reader.mapError f r) bs a where
  reads buf pos rest hb hpos := by rw [Reader.mapError, h.reads buf pos rest hb hpos]
  rejects buf pos rest hb hne hpos := by
    obtain ⟨e, he⟩ := h.rejects buf pos rest hb hne hpos
    exact ⟨f e, by rw [Reader.mapError, he]⟩

/-- Reading a whole buffer that is exactly the encoding. -/
theorem run {r : Reader ε α} {bs : Bytes} {a : α} (h : Parses r bs a) :
    r bs 0 = .ok (a, bs.length) := by
  have := h.reads bs 0 [] (by simp) (Nat.zero_le _)
  rwa [Nat.zero_add] at this

/-- Reading a buffer that is a proper prefix of the encoding fails. -/
theorem run_truncated {r : Reader ε α} {bs p : Bytes} {a : α} (h : Parses r bs a)
    (hp : p <+: bs) (hne : p ≠ bs) : ∃ e, r p 0 = .error e := by
  obtain ⟨rest, rfl⟩ := hp
  refine h.rejects p 0 rest (by simp) (fun hr => hne ?_) (Nat.zero_le _)
  rw [hr, List.append_nil]

end Parses

/-! ## What a successful read says -/

/-- A successful `bind` is two successful reads. -/
theorem bind_eq_ok {r : Reader ε α} {f : α → Reader ε β} {buf : Bytes} {pos : Nat} {x : β × Nat} :
    r.bind f buf pos = .ok x ↔ ∃ a p, r buf pos = .ok (a, p) ∧ f a buf p = .ok x := by
  rw [Reader.bind]
  cases r buf pos with
  | error e => simp
  | ok y => obtain ⟨a, p⟩ := y; simp

/-- What `take n` gives has `n` bytes. -/
theorem length_of_take {trunc : Nat → Nat → Nat → ε} {n : Nat} {buf bs : Bytes} {pos p : Nat}
    (h : Reader.take trunc n buf pos = .ok (bs, p)) : bs.length = n := by
  rw [Reader.take] at h
  split_ifs at h with hle
  obtain ⟨rfl, -⟩ := Prod.mk.inj (Except.ok.inj h)
  rw [List.length_take, List.length_drop]
  omega

/-- What `le k` gives is below `256 ^ k`. -/
theorem lt_of_le {trunc : Nat → Nat → Nat → ε} {k n : Nat} {buf : Bytes} {pos p : Nat}
    (h : Reader.le trunc k buf pos = .ok (n, p)) : n < 256 ^ k := by
  obtain ⟨bs, p', hb, h⟩ := bind_eq_ok.mp h
  obtain ⟨rfl, -⟩ := Prod.mk.inj (Except.ok.inj h)
  rw [← length_of_take hb]
  exact leVal_lt bs

/-- What `times n` gives has `n` elements, each of them read by `r` somewhere. -/
theorem of_times {r : Reader ε α} {n : Nat} {buf : Bytes} {pos p : Nat} {as : List α}
    (h : Reader.times n r buf pos = .ok (as, p)) :
    as.length = n ∧ ∀ a ∈ as, ∃ q q', r buf q = .ok (a, q') := by
  induction n generalizing pos p as with
  | zero =>
      obtain ⟨rfl, -⟩ := Prod.mk.inj (Except.ok.inj h)
      exact ⟨rfl, by simp⟩
  | succ n ih =>
      rw [Reader.times, bind_eq_ok] at h
      obtain ⟨a, p₁, ha, h⟩ := h
      obtain ⟨as', p₂, has, h⟩ := bind_eq_ok.mp h
      obtain ⟨rfl, -⟩ := Prod.mk.inj (Except.ok.inj h)
      obtain ⟨hl, hm⟩ := ih has
      refine ⟨by rw [List.length_cons, hl], fun x hx => ?_⟩
      rcases List.mem_cons.mp hx with rfl | hx
      · exact ⟨_, _, ha⟩
      · exact hm x hx

/-! ## Reads that cannot go wrong -/

/-- `r` reads `k` bytes, whatever they are. -/
def Reads (k : Nat) (r : Reader ε α) : Prop :=
  ∀ buf pos, pos + k ≤ buf.length → ∃ a, r buf pos = .ok (a, pos + k)

theorem reads_le (trunc : Nat → Nat → Nat → ε) (k : Nat) : Reads k (le trunc k) := by
  intro buf pos hle
  refine ⟨leVal ((buf.drop pos).take k), ?_⟩
  rw [le, bind, take, if_pos hle]
  rfl

theorem Reads.times {k : Nat} {r : Reader ε α} (h : Reads k r) (n : Nat) :
    Reads (n * k) (times n r) := by
  induction n with
  | zero => exact fun buf pos _ => ⟨[], by rw [Nat.zero_mul]; rfl⟩
  | succ n ih =>
      intro buf pos hle
      rw [Nat.succ_mul] at hle ⊢
      obtain ⟨a, ha⟩ := h buf pos (by omega)
      obtain ⟨as, has⟩ := ih buf (pos + k) (by omega)
      refine ⟨a :: as, bind_eq_ok.mpr ⟨a, pos + k, ha, bind_eq_ok.mpr ⟨as, _, has, ?_⟩⟩⟩
      rw [Nat.add_assoc, Nat.add_comm k]
      rfl

/-- With `n` bytes left, `r` stays inside the buffer, and fails only with a `good` error. -/
structure Safe (good : ε → Prop) (n : Nat) (r : Reader ε α) : Prop where
  error : ∀ buf pos e, pos + n ≤ buf.length → r buf pos = .error e → good e
  inside : ∀ buf pos a p, pos + n ≤ buf.length → r buf pos = .ok (a, p) → p ≤ buf.length

namespace Safe

variable {good : ε → Prop}

theorem pure (a : α) : Safe good 0 (Reader.pure a : Reader ε α) where
  error _ _ _ _ h := nomatch h
  inside _ _ _ _ hle h := by
    cases h
    exact hle

theorem take {trunc : Nat → Nat → Nat → ε} (ht : ∀ n pos len, good (trunc n pos len)) (k : Nat) :
    Safe good 0 (Reader.take trunc k) where
  error buf pos e _ h := by
    rw [Reader.take] at h
    split_ifs at h
    cases h
    exact ht _ _ _
  inside buf pos a p _ h := by
    rw [Reader.take] at h
    split_ifs at h with hle
    cases h
    exact hle

theorem bind {r : Reader ε α} {f : α → Reader ε β} {n : Nat} (hr : Safe good n r)
    (hf : ∀ a, Safe good 0 (f a)) : Safe good n (r.bind f) where
  error buf pos e hle he := by
    rw [Reader.bind] at he
    split at he
    · next e' hx =>
      cases he
      exact hr.error buf pos e hle hx
    · next a p hx => exact (hf a).error buf p e (hr.inside buf pos a p hle hx) he
  inside buf pos b q hle hb := by
    obtain ⟨a, p, ha, hb⟩ := bind_eq_ok.mp hb
    exact (hf a).inside buf p b q (hr.inside buf pos a p hle ha) hb

theorem le {trunc : Nat → Nat → Nat → ε} (ht : ∀ n pos len, good (trunc n pos len)) (k : Nat) :
    Safe good 0 (Reader.le trunc k) :=
  (take ht k).bind fun bs => pure (leVal bs)

theorem fail {e : Nat → ε} (he : ∀ pos, good (e pos)) :
    Safe good 0 (Reader.fail e : Reader ε α) where
  error _ pos _ _ h := by
    cases h
    exact he pos
  inside _ _ _ _ _ h := nomatch h

theorem mapError {ε' : Type u} {f : ε → ε'} {good' : ε' → Prop} (hf : ∀ e, good' (f e))
    {r : Reader ε α} (h : Safe good 0 r) : Safe good' 0 (Reader.mapError f r) where
  error buf pos e _ he := by
    rw [Reader.mapError] at he
    split at he
    · cases he
    · cases he
      exact hf _
  inside buf pos a p hle ha := by
    rw [Reader.mapError] at ha
    split at ha
    · next x hx =>
      cases ha
      exact h.inside buf pos a p hle hx
    · cases ha

/-- A check gives its own error, and what it guards has the bytes it asked for. -/
theorem guarded {trunc : Nat → ε} (ht : ∀ pos, good (trunc pos)) {n : Nat} {r : Reader ε α}
    (h : Safe good n r) : Safe good 0 (Reader.guarded trunc n r) where
  error buf pos e _ he := by
    rw [Reader.guarded] at he
    split_ifs at he with hle
    · exact h.error buf pos e hle he
    · cases he
      exact ht pos
  inside buf pos a p _ ha := by
    rw [Reader.guarded] at ha
    split_ifs at ha with hle
    exact h.inside buf pos a p hle ha

/-- A read whose bytes are there uses them up. -/
theorem reads_bind {r : Reader ε α} {f : α → Reader ε β} {k n : Nat} (hr : Reads k r)
    (hf : ∀ a, Safe good n (f a)) : Safe good (k + n) (r.bind f) where
  error buf pos e hle he := by
    obtain ⟨a, ha⟩ := hr buf pos (by omega)
    rw [Reader.bind, ha] at he
    exact (hf a).error buf _ e (by omega) he
  inside buf pos b q hle hb := by
    obtain ⟨a, ha⟩ := hr buf pos (by omega)
    rw [Reader.bind, ha] at hb
    exact (hf a).inside buf _ b q (by omega) hb

theorem of_reads {r : Reader ε α} {f : α → Reader ε β} {k : Nat} (hr : Reads k r)
    (hf : ∀ a, Safe good 0 (f a)) : Safe good k (r.bind f) :=
  reads_bind hr hf

theorem times {r : Reader ε α} (h : Safe good 0 r) (n : Nat) : Safe good 0 (Reader.times n r) := by
  induction n with
  | zero => exact pure []
  | succ n ih => exact h.bind fun a => ih.bind fun as => pure (a :: as)

end Safe

end Reader

end Fckdb
