import Mathlib.Data.List.Pairwise
import Mathlib.Data.List.Perm.Subperm
import Mathlib.Order.Basic
import Mathlib.Order.Defs.LinearOrder
import Mathlib.Order.Lattice

/-! # Finite maps as strictly sorted association lists

An ordered map whose entries are observable in key order. The entry list is kept strictly sorted by
key as a field, so two maps with the same lookups are *equal* (`SortedMap.ext_get`), and rebuilding a
map from its own entries gives it back (`SortedMap.ofList_entries`) — the two facts a codec needs. -/

namespace Fckdb

universe u v w

/-- A finite map: entries strictly increasing in the key. -/
structure SortedMap (κ : Type u) (ν : Type v) [LinearOrder κ] where
  /-- The entries, in key order. -/
  entries : List (κ × ν)
  /-- Keys strictly increase along the list, so none repeats. -/
  sorted : entries.Pairwise (fun a b => a.1 < b.1)
  deriving DecidableEq

namespace SortedMap

variable {κ : Type u} {ν : Type v} {β : Type w} [LinearOrder κ]

/-! ## Lists of entries -/

/-- The value under `k` in an association list. -/
def lookupIn (k : κ) : List (κ × ν) → Option ν
  | [] => none
  | (k', v) :: rest => if k' = k then some v else lookupIn k rest

/-- Insert into a sorted list, replacing the value of a key already there. -/
def insertIn (k : κ) (v : ν) : List (κ × ν) → List (κ × ν)
  | [] => [(k, v)]
  | (k', v') :: rest =>
      if k < k' then (k, v) :: (k', v') :: rest
      else if k = k' then (k, v) :: rest
      else (k', v') :: insertIn k v rest

/-- An inserted list has the new entry and otherwise old ones only. -/
theorem mem_insertIn {k : κ} {v : ν} {e : κ × ν} {l : List (κ × ν)} :
    e ∈ insertIn k v l → e = (k, v) ∨ e ∈ l := by
  induction l with
  | nil => simp [insertIn]
  | cons hd tl ih =>
      obtain ⟨k', v'⟩ := hd
      rw [insertIn]
      split_ifs <;> grind

/-- Insertion keeps the list strictly sorted. -/
theorem insertIn_sorted (k : κ) (v : ν) {l : List (κ × ν)}
    (h : l.Pairwise (fun a b => a.1 < b.1)) :
    (insertIn k v l).Pairwise (fun a b => a.1 < b.1) := by
  induction l with
  | nil => simp [insertIn]
  | cons hd tl ih =>
      obtain ⟨k', v'⟩ := hd
      rw [List.pairwise_cons] at h
      rw [insertIn]
      split_ifs with hlt heq
      · refine List.pairwise_cons.mpr ⟨fun e he => ?_, List.pairwise_cons.mpr h⟩
        rcases List.mem_cons.mp he with rfl | he
        · exact hlt
        · exact hlt.trans (h.1 e he)
      · subst heq
        exact List.pairwise_cons.mpr h
      · refine List.pairwise_cons.mpr ⟨fun e he => ?_, ih h.2⟩
        rcases mem_insertIn he with rfl | he
        · exact lt_of_le_of_ne (not_lt.mp hlt) (Ne.symm heq)
        · exact h.1 e he

/-- Looking up after an insertion: the new value at the new key, the old one elsewhere. -/
theorem lookupIn_insertIn (k k' : κ) (v : ν) (l : List (κ × ν)) :
    lookupIn k' (insertIn k v l) = if k = k' then some v else lookupIn k' l := by
  induction l with
  | nil => simp [insertIn, lookupIn]
  | cons hd tl ih =>
      obtain ⟨k₁, v₁⟩ := hd
      rw [insertIn]
      split_ifs <;> grind [lookupIn]

/-- A key below every entry is not found. -/
theorem lookupIn_eq_none_of_lt {k : κ} {l : List (κ × ν)} (h : ∀ e ∈ l, k < e.1) :
    lookupIn k l = none := by
  induction l with
  | nil => rfl
  | cons hd tl ih =>
      have hne : hd.1 ≠ k := (h hd (by simp)).ne'
      rw [show hd = (hd.1, hd.2) from rfl, lookupIn, if_neg hne]
      exact ih fun e he => h e (List.mem_cons_of_mem _ he)

/-- In a sorted list, lookup finds exactly the entries. -/
theorem lookupIn_eq_some_iff {k : κ} {v : ν} {l : List (κ × ν)}
    (h : l.Pairwise (fun a b => a.1 < b.1)) : lookupIn k l = some v ↔ (k, v) ∈ l := by
  induction l with
  | nil => simp [lookupIn]
  | cons hd tl ih =>
      obtain ⟨k', v'⟩ := hd
      rw [List.pairwise_cons] at h
      rw [lookupIn, List.mem_cons]
      split_ifs with hk
      · subst hk
        refine ⟨fun e => Or.inl (by simpa using e.symm), fun e => ?_⟩
        rcases e with e | e
        · simpa using (Prod.ext_iff.mp e).2.symm
        · exact absurd (h.1 _ e) (lt_irrefl _)
      · rw [ih h.2]
        exact ⟨Or.inr, fun e => e.resolve_left fun e => hk (Prod.ext_iff.mp e).1.symm⟩

/-! ## The map operations -/

/-- The empty map. -/
def empty : SortedMap κ ν := ⟨[], List.Pairwise.nil⟩

instance : Inhabited (SortedMap κ ν) := ⟨empty⟩

/-- The value under a key. -/
def get (m : SortedMap κ ν) (k : κ) : Option ν := lookupIn k m.entries

/-- Bind a key, replacing an earlier binding. -/
def insert (m : SortedMap κ ν) (k : κ) (v : ν) : SortedMap κ ν :=
  ⟨insertIn k v m.entries, insertIn_sorted k v m.sorted⟩

/-- Unbind a key. -/
def erase (m : SortedMap κ ν) (k : κ) : SortedMap κ ν :=
  ⟨m.entries.filter (fun e => e.1 ≠ k), m.sorted.filter _⟩

/-- The bindings of the chosen keys. -/
def filterKeys (p : κ → Bool) (m : SortedMap κ ν) : SortedMap κ ν :=
  ⟨m.entries.filter fun e => p e.1, m.sorted.filter _⟩

/-- The keys, in order. -/
def keys (m : SortedMap κ ν) : List κ := m.entries.map (·.1)

/-- The values, in key order. -/
def values (m : SortedMap κ ν) : List ν := m.entries.map (·.2)

/-- Number of entries. -/
def size (m : SortedMap κ ν) : Nat := m.entries.length

/-- Insert the entries of a list, left to right, into a map. -/
def insertAll (m : SortedMap κ ν) (es : List (κ × ν)) : SortedMap κ ν :=
  es.foldl (fun acc e => acc.insert e.1 e.2) m

/-- The map built by inserting the entries of a list, left to right. -/
def ofList (es : List (κ × ν)) : SortedMap κ ν := insertAll empty es

/-- Change every value, keeping the keys. -/
def mapValues (f : κ → ν → β) (m : SortedMap κ ν) : SortedMap κ β :=
  ⟨m.entries.map (fun e => (e.1, f e.1 e.2)), List.pairwise_map.mpr m.sorted⟩

@[simp] theorem get_empty (k : κ) : (empty : SortedMap κ ν).get k = none := rfl

@[simp] theorem entries_empty : (empty : SortedMap κ ν).entries = [] := rfl

/-- Lookup in an extended map. -/
theorem get_insert (m : SortedMap κ ν) (k k' : κ) (v : ν) :
    (m.insert k v).get k' = if k = k' then some v else m.get k' :=
  lookupIn_insertIn k k' v m.entries

@[simp] theorem get_insert_self (m : SortedMap κ ν) (k : κ) (v : ν) :
    (m.insert k v).get k = some v := by
  rw [get_insert, if_pos rfl]

theorem get_insert_of_ne (m : SortedMap κ ν) {k k' : κ} (v : ν) (h : k ≠ k') :
    (m.insert k v).get k' = m.get k' := by
  rw [get_insert, if_neg h]

/-- Lookup finds exactly the entries. -/
theorem get_eq_some_iff {m : SortedMap κ ν} {k : κ} {v : ν} :
    m.get k = some v ↔ (k, v) ∈ m.entries :=
  lookupIn_eq_some_iff m.sorted

/-- The entries under one key. -/
theorem filter_entries (m : SortedMap κ ν) (k : κ) :
    m.entries.filter (·.1 = k) = ((m.get k).map (k, ·)).toList := by
  obtain ⟨l, hl⟩ := m
  show l.filter (·.1 = k) = ((lookupIn k l).map (k, ·)).toList
  induction l with
  | nil => rfl
  | cons e l ih =>
      rw [List.pairwise_cons] at hl
      rw [lookupIn]
      split_ifs with h
      · have hrest : l.filter (·.1 = k) = [] :=
          List.filter_eq_nil_iff.mpr fun e' he' => by simpa [← h] using (hl.1 e' he').ne'
        rw [List.filter_cons_of_pos (by simpa using h), hrest, ← h]
        rfl
      · rw [List.filter_cons_of_neg (by simpa using h)]
        exact ih hl.2

/-- Lookup after an erasure. -/
theorem get_erase (m : SortedMap κ ν) (k k' : κ) :
    (m.erase k).get k' = if k = k' then none else m.get k' := by
  apply Option.ext
  intro v
  rw [get_eq_some_iff]
  split_ifs with h
  · simp [erase, h]
  · rw [get_eq_some_iff]
    simp [erase, Ne.symm h]

@[simp] theorem get_erase_self (m : SortedMap κ ν) (k : κ) : (m.erase k).get k = none := by
  rw [get_erase, if_pos rfl]

theorem get_erase_of_ne (m : SortedMap κ ν) {k k' : κ} (h : k ≠ k') :
    (m.erase k).get k' = m.get k' := by
  rw [get_erase, if_neg h]

/-- Lookup among the chosen keys. -/
theorem get_filterKeys (p : κ → Bool) (m : SortedMap κ ν) (k : κ) :
    (m.filterKeys p).get k = if p k then m.get k else none := by
  apply Option.ext
  intro v
  rw [get_eq_some_iff, filterKeys, List.mem_filter, ← get_eq_some_iff]
  cases h : p k with
  | true => simp
  | false => simp

/-- Two sorted lists with the same lookups are the same list. -/
theorem eq_of_lookupIn_eq {l₁ l₂ : List (κ × ν)} (h₁ : l₁.Pairwise (fun a b => a.1 < b.1))
    (h₂ : l₂.Pairwise (fun a b => a.1 < b.1)) (h : ∀ k, lookupIn k l₁ = lookupIn k l₂) :
    l₁ = l₂ := by
  induction l₁ generalizing l₂ with
  | nil =>
      cases l₂ with
      | nil => rfl
      | cons e t =>
          have := h e.1
          rw [(lookupIn_eq_some_iff h₂).mpr (List.mem_cons_self (a := (e.1, e.2)))] at this
          simp [lookupIn] at this
  | cons e₁ t₁ ih =>
      cases l₂ with
      | nil =>
          have := h e₁.1
          rw [(lookupIn_eq_some_iff h₁).mpr (List.mem_cons_self (a := (e₁.1, e₁.2)))] at this
          simp [lookupIn] at this
      | cons e₂ t₂ =>
          have m₁ : (e₁.1, e₁.2) ∈ e₂ :: t₂ :=
            (lookupIn_eq_some_iff h₂).mp ((h e₁.1).symm.trans
              ((lookupIn_eq_some_iff h₁).mpr List.mem_cons_self))
          have m₂ : (e₂.1, e₂.2) ∈ e₁ :: t₁ :=
            (lookupIn_eq_some_iff h₁).mp ((h e₂.1).trans
              ((lookupIn_eq_some_iff h₂).mpr List.mem_cons_self))
          rw [List.pairwise_cons] at h₁ h₂
          -- each head is an entry of the other list, so neither key is the larger one
          have heq : e₁ = e₂ := by
            rcases List.mem_cons.mp m₁ with e | e
            · exact e
            · rcases List.mem_cons.mp m₂ with e' | e'
              · exact e'.symm
              · exact absurd (h₂.1 _ e) (not_lt.mpr (h₁.1 _ e').le)
          subst heq
          congr 1
          refine ih h₁.2 h₂.2 fun k => ?_
          have hk := h k
          rw [show e₁ = (e₁.1, e₁.2) from rfl, lookupIn, lookupIn] at hk
          by_cases hek : e₁.1 = k
          · subst hek
            rw [lookupIn_eq_none_of_lt h₁.1, lookupIn_eq_none_of_lt h₂.1]
          · simpa [hek] using hk

/-- **Extensionality**: maps with the same lookups are equal. -/
@[ext] theorem ext_get {m₁ m₂ : SortedMap κ ν} (h : ∀ k, m₁.get k = m₂.get k) : m₁ = m₂ := by
  obtain ⟨l₁, h₁⟩ := m₁
  obtain ⟨l₂, h₂⟩ := m₂
  have : l₁ = l₂ := eq_of_lookupIn_eq h₁ h₂ h
  subst this
  rfl

/-- No entry is listed twice. -/
theorem nodup_entries (m : SortedMap κ ν) : m.entries.Nodup :=
  m.sorted.imp fun {a b} (hlt : a.1 < b.1) (heq : a = b) => lt_irrefl _ (heq ▸ hlt : b.1 < b.1)

theorem entries_eq_nil_iff {m : SortedMap κ ν} : m.entries = [] ↔ m = empty := by
  constructor
  · intro h
    exact ext_get fun k => by rw [get, h]; rfl
  · rintro rfl
    rfl

@[simp] theorem insertAll_nil (m : SortedMap κ ν) : m.insertAll [] = m := rfl

@[simp] theorem insertAll_cons (m : SortedMap κ ν) (e : κ × ν) (es : List (κ × ν)) :
    m.insertAll (e :: es) = (m.insert e.1 e.2).insertAll es := rfl

/-- Lookup after inserting a sorted list: its own entry when it has one, the old value otherwise. -/
theorem get_insertAll {es : List (κ × ν)} (hs : es.Pairwise (fun a b => a.1 < b.1))
    (m : SortedMap κ ν) (k : κ) :
    (m.insertAll es).get k = (lookupIn k es).or (m.get k) := by
  induction es generalizing m with
  | nil => simp [lookupIn]
  | cons e es ih =>
      obtain ⟨k', v⟩ := e
      rw [List.pairwise_cons] at hs
      rw [insertAll_cons, ih hs.2, get_insert, lookupIn]
      split_ifs with h
      · subst h
        rw [lookupIn_eq_none_of_lt hs.1]
        rfl
      · rfl

/-- Rebuilding a map from its own entries gives the map back. -/
@[simp] theorem ofList_entries (m : SortedMap κ ν) : ofList m.entries = m := by
  ext1 k
  rw [ofList, get_insertAll m.sorted, get_empty, Option.or_none]
  rfl

/-- A map made of entries in key order has them as its entries. -/
theorem entries_ofList {es : List (κ × ν)} (h : es.Pairwise (fun a b => a.1 < b.1)) :
    (ofList es).entries = es := congrArg entries (ofList_entries ⟨es, h⟩)

/-- The values after an insertion are the new one and some of the old. -/
theorem values_insert_subperm (m : SortedMap κ ν) (k : κ) (v : ν) :
    (m.insert k v).values.Subperm (v :: m.values) := by
  show ((insertIn k v m.entries).map (·.2)).Subperm (v :: m.entries.map (·.2))
  generalize m.entries = l
  induction l with
  | nil => exact List.Subperm.refl _
  | cons e l ih =>
      rw [insertIn]
      split_ifs
      · exact List.Subperm.refl _
      · exact ((List.sublist_cons_self _ _).cons_cons v).subperm
      · exact ((List.subperm_cons _).mpr ih).trans (List.Perm.swap _ _ _).subperm

/-- The values of a map are some of those it was made of. -/
theorem values_ofList_subperm (es : List (κ × ν)) :
    (ofList es).values.Subperm (es.map (·.2)) := by
  have h (m : SortedMap κ ν) : (m.insertAll es).values.Subperm (m.values ++ es.map (·.2)) := by
    induction es generalizing m with
    | nil => rw [insertAll_nil, List.map_nil, List.append_nil]
    | cons e es ih =>
        rw [insertAll_cons, List.map_cons]
        refine (ih _).trans ?_
        exact ((List.subperm_append_right _).mpr (m.values_insert_subperm e.1 e.2)).trans
          List.perm_middle.symm.subperm
  exact h empty

/-- An insertion adds at most one entry. -/
theorem size_insert_le (m : SortedMap κ ν) (k : κ) (v : ν) : (m.insert k v).size ≤ m.size + 1 := by
  show (insertIn k v m.entries).length ≤ m.entries.length + 1
  generalize m.entries = l
  induction l with
  | nil => simp [insertIn]
  | cons hd tl ih =>
      rw [show hd = (hd.1, hd.2) from rfl, insertIn]
      split_ifs
      · simp
      · simp
      · simpa using ih

/-- Building from a list gives at most one entry for each element. -/
theorem size_insertAll_le (m : SortedMap κ ν) (es : List (κ × ν)) :
    (m.insertAll es).size ≤ m.size + es.length := by
  induction es generalizing m with
  | nil => simp
  | cons e es ih =>
      have h₁ := ih (m.insert e.1 e.2)
      have h₂ := m.size_insert_le e.1 e.2
      rw [insertAll_cons, List.length_cons]
      omega

/-- Every key of a map built from a list is a key of the list or was there before. -/
theorem mem_keys_insertAll {m : SortedMap κ ν} {es : List (κ × ν)} {k : κ} :
    k ∈ (m.insertAll es).keys → k ∈ m.keys ∨ k ∈ es.map (·.1) := by
  induction es generalizing m with
  | nil => exact Or.inl
  | cons e es ih =>
      intro h
      rcases ih h with h | h
      · obtain ⟨e', he', rfl⟩ := List.mem_map.mp h
        rcases mem_insertIn he' with rfl | he'
        · simp
        · exact Or.inl (List.mem_map_of_mem he')
      · exact Or.inr (List.mem_cons_of_mem _ h)

/-- Membership among the values is being some lookup. -/
theorem mem_values_iff {m : SortedMap κ ν} {v : ν} : v ∈ m.values ↔ ∃ k, m.get k = some v := by
  simp [values, get_eq_some_iff]

/-- What a map made of entries has under a key is one of them. -/
theorem mem_of_get_insertAll {m : SortedMap κ ν} {es : List (κ × ν)} {k : κ} {v : ν}
    (h : (m.insertAll es).get k = some v) : m.get k = some v ∨ (k, v) ∈ es := by
  induction es generalizing m with
  | nil => exact .inl h
  | cons e es ih =>
      rcases ih h with hm | hes
      · rw [get_insert] at hm
        split_ifs at hm with hkey
        · obtain rfl := Option.some.inj hm
          exact .inr (hkey ▸ List.mem_cons_self)
        · exact .inl hm
      · exact .inr (List.mem_cons_of_mem _ hes)

theorem mem_of_get_ofList {es : List (κ × ν)} {k : κ} {v : ν} (h : (ofList es).get k = some v) :
    (k, v) ∈ es := (mem_of_get_insertAll h).resolve_left nofun

theorem isSome_get_insertAll {m : SortedMap κ ν} {es : List (κ × ν)} {k : κ} :
    ((m.insertAll es).get k).isSome ↔ (m.get k).isSome ∨ k ∈ es.map (·.1) := by
  induction es generalizing m with
  | nil => exact (or_iff_left List.not_mem_nil).symm
  | cons e es ih =>
      refine ih.trans ?_
      rw [get_insert, List.map_cons, List.mem_cons, ← or_assoc]
      refine or_congr_left ?_
      split_ifs with hkey
      · exact iff_of_true rfl (.inr hkey.symm)
      · exact (or_iff_left (Ne.symm hkey)).symm

/-- The keys of a map made of entries are theirs. -/
theorem isSome_get_ofList {es : List (κ × ν)} {k : κ} :
    ((ofList es).get k).isSome ↔ k ∈ es.map (·.1) := isSome_get_insertAll.trans (or_iff_right nofun)

theorem mem_values_ofList {es : List (κ × ν)} {v : ν} (h : v ∈ (ofList es).values) :
    v ∈ es.map (·.2) := by
  obtain ⟨k, hk⟩ := mem_values_iff.mp h
  exact List.mem_map_of_mem (mem_of_get_ofList hk)

/-- Lookup through a change of values. -/
@[simp] theorem get_mapValues (f : κ → ν → β) (m : SortedMap κ ν) (k : κ) :
    (m.mapValues f).get k = (m.get k).map (f k) := by
  show lookupIn k (m.entries.map _) = (lookupIn k m.entries).map (f k)
  generalize m.entries = l
  induction l with
  | nil => rfl
  | cons hd tl ih =>
      simp only [List.map_cons, lookupIn, ih]
      split_ifs with h <;> simp [h]

end SortedMap

end Fckdb
