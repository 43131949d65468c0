import Fckdb.Committer

/-! # How large a record can get

Absorbing a batch coerces its ids and values, which may lengthen them: a number as an id of a string
namespace is written in digits. `Record.room` is the most that a record can take in the WAL, whatever the
schema (`length_frameRecords_le`). -/

namespace Fckdb

/-- All attribute types. -/
def Ty.all : List Ty :=
  [.bool, .uint, .int, .f64, .string, .datetime, .uuid, .stringArray, .uintArray, .intArray, .sparseF16]

theorem Ty.mem_all (ty : Ty) : ty ∈ Ty.all := by cases ty <;> decide

/-- All id types. -/
def IdType.all : List IdType := [.uint, .uuid, .string]

theorem IdType.mem_all (ty : IdType) : ty ∈ IdType.all := by cases ty <;> decide

theorem le_foldr_max {l : List Nat} {b n : Nat} (h : n ∈ l ∨ n = b) : n ≤ l.foldr max b := by
  induction l with
  | nil => exact (h.resolve_left List.not_mem_nil).le
  | cons x l ih =>
      rw [List.foldr_cons, le_max_iff]
      rcases h with h | h
      · rcases List.mem_cons.mp h with rfl | h
        · exact .inl (Nat.le_refl _)
        · exact .inr (ih (.inl h))
      · exact .inr (ih (.inr h))

/-- The most bytes that something encodes to, as it is or coerced to any type. -/
def widest {α τ : Type} (types : List τ) (coerce : τ → Except Error α) (encode : α → Bytes) (a : α) :
    Nat :=
  (types.map fun ty => match coerce ty with
    | .ok b => (encode b).length
    | .error _ => 0).foldr max (encode a).length

section Widest

variable {α τ : Type} {types : List τ} {coerce : τ → Except Error α} {encode : α → Bytes} {a b : α}

theorem length_le_widest : (encode a).length ≤ widest types coerce encode a := le_foldr_max (.inr rfl)

theorem length_coerced_le_widest {ty : τ} (hty : ty ∈ types) (h : coerce ty = .ok b) :
    (encode b).length ≤ widest types coerce encode a :=
  le_foldr_max (.inl (List.mem_map.mpr ⟨ty, hty, by rw [h]⟩))

end Widest

variable [Crates]

def Value.room (v : Value) : Nat := widest Ty.all v.coerce Value.encode v

def Id.room (id : Id) : Nat := widest IdType.all id.coerce Id.encode id

/-- The most bytes that attributes encode to. -/
def attrsRoom (attrs : Attrs) : Nat :=
  2 + (attrs.entries.map fun e => 2 + e.1.utf8ByteSize + e.2.room).sum

/-- The most bytes that a framed record can take. -/
def Record.room : Record → Nat
  | .upsert d => 5 + d.id.room + 4 + d.vector.length * 4 + attrsRoom d.attrs
  | .patch id attrs => 5 + id.room + attrsRoom attrs
  | .delete id => 5 + id.room

/-- The most bytes that records can take in the WAL. -/
def roomOf (records : List Record) : Nat := (records.map Record.room).sum

omit [Crates] in
theorem length_putAttrs (attrs : Attrs) : (putAttrs attrs).length =
    2 + (attrs.entries.map fun e => 2 + e.1.utf8ByteSize + e.2.encode.length).sum := by
  rw [putAttrs, List.length_append, leBytes_length, List.length_flatMap]
  congr 2
  refine List.map_congr_left fun e _ => ?_
  rw [List.length_append, List.length_append, leBytes_length, utf8_length, Nat.add_assoc]

namespace Schema

variable {s s' : Schema}

theorem absorbId_room {id id' : Id} (h : s.absorbId id = .ok (s', id')) : id'.encode.length ≤ id.room := by
  rw [absorbId] at h
  split at h
  · cases h
    exact length_le_widest
  · obtain ⟨i, hi, heq⟩ := map_eq_ok.mp h
    cases heq
    exact length_coerced_le_widest (IdType.mem_all _) (mapErr_eq_ok.mp hi)

theorem absorbValue_room {types types' : SortedMap String Ty} {id : Id} {key : String}
    {value value' : Value} (h : absorbValue types id key value = .ok (types', value')) :
    value'.encode.length ≤ value.room := by
  rw [absorbValue] at h
  split at h
  · obtain ⟨v, hv, heq⟩ := map_eq_ok.mp h
    cases heq
    exact length_coerced_le_widest (Ty.mem_all _) (mapErr_eq_ok.mp hv)
  · split at h
    · cases h
      exact length_le_widest
    · cases h
      exact length_le_widest

/-- Entries that are absorbed keep their keys. -/
theorem absorbEntries_room {id : Id} {types types' : SortedMap String Ty}
    {es es' : List (String × Value)} (h : absorbEntries id types es = .ok (types', es')) :
    es'.map (·.1) = es.map (·.1) ∧
      (es'.map fun e => 2 + e.1.utf8ByteSize + e.2.encode.length).sum ≤
        (es.map fun e => 2 + e.1.utf8ByteSize + e.2.room).sum := by
  induction es generalizing types es' with
  | nil =>
      cases h
      exact ⟨rfl, Nat.le_refl _⟩
  | cons e es ih =>
      obtain ⟨⟨types₁, v⟩, h₁, h⟩ := bind_eq_ok.mp h
      obtain ⟨⟨types₂, rest⟩, h₂, h⟩ := bind_eq_ok.mp h
      cases h
      obtain ⟨hkeys, hsum⟩ := ih h₂
      refine ⟨congrArg (e.1 :: ·) hkeys, ?_⟩
      rw [List.map_cons, List.map_cons, List.sum_cons, List.sum_cons]
      have hvalue := absorbValue_room h₁
      exact Nat.add_le_add (Nat.add_le_add_left hvalue _) hsum

/-- Attributes that are absorbed are the absorbed entries, which are in order already. -/
theorem absorbAttrs_entries {attrs attrs' : Attrs} {id : Id}
    (h : s.absorbAttrs attrs id = .ok (s', attrs')) :
    attrs'.keys = attrs.keys ∧
      (attrs'.entries.map fun e => 2 + e.1.utf8ByteSize + e.2.encode.length).sum ≤
        (attrs.entries.map fun e => 2 + e.1.utf8ByteSize + e.2.room).sum := by
  obtain ⟨⟨types, es⟩, hes, h⟩ := bind_eq_ok.mp h
  cases h
  obtain ⟨hkeys, hsum⟩ := absorbEntries_room hes
  have hsorted : es.Pairwise fun a b => a.1 < b.1 := by
    rw [← List.pairwise_map (f := Prod.fst) (R := (· < ·)), hkeys, List.pairwise_map]
    exact attrs.sorted
  rw [SortedMap.keys, SortedMap.entries_ofList hsorted]
  exact ⟨hkeys, hsum⟩

theorem absorbAttrs_keys {attrs attrs' : Attrs} {id : Id}
    (h : s.absorbAttrs attrs id = .ok (s', attrs')) : attrs'.keys = attrs.keys :=
  (absorbAttrs_entries h).1

theorem absorbAttrs_room {attrs attrs' : Attrs} {id : Id} (h : s.absorbAttrs attrs id = .ok (s', attrs')) :
    (putAttrs attrs').length ≤ attrsRoom attrs := by
  rw [length_putAttrs, attrsRoom]
  exact Nat.add_le_add_left (absorbAttrs_entries h).2 2

end Schema

omit [Crates] in
theorem length_frameOne (e : Bytes) : (frameOne e).length = 4 + e.length := by
  rw [frameOne, List.length_append, leBytes_length]

/-- **What a schema makes of a record** takes no more than its room. -/
theorem Record.AbsorbedAs.length_le {r r' : Record} (h : r.AbsorbedAs r') :
    (frameOne r'.encode).length ≤ r.room := by
  obtain ⟨s, s', h⟩ := h
  cases r with
  | upsert doc =>
      obtain ⟨⟨s₁, id⟩, h₁, h⟩ := bind_eq_ok.mp h
      obtain ⟨s₂, h₂, h⟩ := bind_eq_ok.mp h
      obtain ⟨⟨s₃, attrs⟩, h₃, h⟩ := bind_eq_ok.mp h
      cases h
      have hid := Schema.absorbId_room h₁
      have hattrs := Schema.absorbAttrs_room h₃
      rw [length_frameOne, Record.encode, Record.room]
      simp only [List.length_append, putU8, leBytes_length, length_flatMap_putF32]
      omega
  | patch id attrs =>
      obtain ⟨⟨s₁, id⟩, h₁, h⟩ := bind_eq_ok.mp h
      obtain ⟨⟨s₂, attrs⟩, h₂, h⟩ := bind_eq_ok.mp h
      cases h
      have hid := Schema.absorbId_room h₁
      have hattrs := Schema.absorbAttrs_room h₂
      rw [length_frameOne, Record.encode, Record.room]
      simp only [List.length_append, putU8, leBytes_length]
      omega
  | delete id =>
      obtain ⟨⟨s₁, id⟩, h₁, h⟩ := bind_eq_ok.mp h
      cases h
      have hid := Schema.absorbId_room h₁
      rw [length_frameOne, Record.encode, Record.room]
      simp only [List.length_append, putU8, leBytes_length]
      omega

/-- **What a schema makes of records** takes no more than their room. -/
theorem length_frameRecords_le {rs rs' : List Record} (h : List.Forall₂ Record.AbsorbedAs rs rs') :
    (frameRecords rs').length ≤ roomOf rs := by
  induction h with
  | nil => exact Nat.le_refl _
  | cons hr _ ih =>
      rw [frameRecords, frame, List.map_cons, List.flatMap_cons, List.length_append, roomOf,
        List.map_cons, List.sum_cons]
      exact Nat.add_le_add hr.length_le ih

end Fckdb
