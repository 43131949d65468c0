import Fckdb.Lib.Extent
import Fckdb.Lib.Runs
import Fckdb.Manifest

/-! # The ring cache

`RingCache`: one file used as a ring. A put writes at the cursor, wrapping to the start, and evicts what
stands in the way by popping its queue of keys *while the front overlaps the write*. That is not enough:
an entry the write leaves alone at the front of the queue, an old key that was put again, or one that
survived behind the cursor when the ring wrapped, hides those queued after it. -/

namespace Fckdb

/-- Where an object sits in the ring, and what it should hash to. -/
structure Entry where
  offset : Nat
  len : Nat
  checksum : UInt64
  deriving DecidableEq

namespace Entry

/-- The test of the eviction loop. -/
def overlaps (e : Entry) (start stop : Nat) : Bool := e.offset < stop && start < e.offset + e.len

/-- The bytes of the entry's region. -/
def Covers (e : Entry) (i : Nat) : Prop := e.offset ≤ i ∧ i < e.offset + e.len

/-- The region has a byte in common with the write. -/
def Shares (e : Entry) (start stop : Nat) : Prop := max e.offset start < min (e.offset + e.len) stop

instance (e : Entry) (start stop : Nat) : Decidable (e.Shares start stop) :=
  inferInstanceAs (Decidable (_ < _))

theorem shares_iff {e : Entry} {start stop : Nat} :
    e.Shares start stop ↔ ∃ i, e.Covers i ∧ start ≤ i ∧ i < stop := by
  rw [Shares]
  constructor
  · intro h
    rw [lt_min_iff] at h
    exact ⟨max e.offset start, ⟨le_max_left _ _, h.1⟩, le_max_right _ _, h.2⟩
  · rintro ⟨i, ⟨hlow, hhigh⟩, hstart, hstop⟩
    exact lt_min (lt_of_le_of_lt (max_le hlow hstart) hhigh) (lt_of_le_of_lt (max_le hlow hstart) hstop)

theorem Shares.overlaps {e : Entry} {start stop : Nat} (h : e.Shares start stop) :
    e.overlaps start stop = true := by
  obtain ⟨i, ⟨hlow, hhigh⟩, hstart, hstop⟩ := shares_iff.mp h
  rw [Entry.overlaps, Bool.and_eq_true, decide_eq_true_iff, decide_eq_true_iff]
  exact ⟨Nat.lt_of_le_of_lt hlow hstop, Nat.lt_of_le_of_lt hstart hhigh⟩

end Entry

/-- The ring and its file. -/
structure RingCache where
  file : Bytes
  capacity : Nat
  cursor : Nat := 0
  map : SortedMap String Entry := .empty
  /-- Allocation order, so eviction follows the ring. -/
  order : List String := []
  hits : Nat := 0
  misses : Nat := 0
  evictions : Nat := 0
  corrupt : Nat := 0

namespace RingCache

/-- `RingCache::open`: a file of `capacity` zero bytes. -/
def opened (capacity : Nat) : RingCache := { file := .replicate capacity 0, capacity }

/-- `get`: the answer, and the cache after it. -/
def get (c : RingCache) (key : String) : Option Bytes × RingCache :=
  match c.map.get key with
  | none => (none, { c with misses := c.misses + 1 })
  | some e =>
    match readAt c.file e.offset e.len with
    | some buf =>
      if fnv1a buf = e.checksum then (some buf, { c with hits := c.hits + 1 })
      else (none, { c with
        corrupt := c.corrupt + 1, misses := c.misses + 1, map := c.map.erase key })
    -- a short read
    | none => (none, { c with misses := c.misses + 1 })

/-- The eviction loop: pop the queue while its front is gone or overlaps the write. -/
def evict (start stop : Nat) : List String → SortedMap String Entry → Nat →
    List String × SortedMap String Entry × Nat
  | [], map, evictions => ([], map, evictions)
  | front :: rest, map, evictions =>
    match map.get front with
    | none => evict start stop rest map evictions
    | some e =>
      if e.overlaps start stop then evict start stop rest (map.erase front) (evictions + 1)
      else (front :: rest, map, evictions)

/-- Where a put of `len` bytes writes. -/
def startOf (c : RingCache) (len : Nat) : Nat := if c.capacity < c.cursor + len then 0 else c.cursor

/-- `put`, on a file whose writes succeed; `len` of an entry is a `u32`. -/
def put (c : RingCache) (key : String) (data : Bytes) : RingCache :=
  if c.capacity < data.length then c
  else
    let start := c.startOf data.length
    let stop := start + data.length
    let (order, map, evictions) := evict start stop c.order c.map c.evictions
    { c with
      file := writeAt c.file data start
      map := map.insert key ⟨start, data.length % 2 ^ 32, fnv1a data⟩
      order := order ++ [key]
      evictions := evictions
      cursor := stop }

/-! ## What the eviction loop removes -/

/-- The keys queued before the first `key`. -/
def ahead (order : List String) (key : String) : List String := order.takeWhile (· ≠ key)

/-- The entry under `key` is overlapped, and so is every live entry queued before it. -/
def Exposed (start stop : Nat) (order : List String) (map : SortedMap String Entry) (key : String) :
    Prop :=
  (∃ e, map.get key = some e ∧ e.overlaps start stop = true) ∧
    ∀ k ∈ ahead order key, ∀ e, map.get k = some e → e.overlaps start stop = true

theorem ahead_cons_self (key : String) (rest : List String) : ahead (key :: rest) key = [] := by
  rw [ahead, List.takeWhile_cons_of_neg (by simp)]

theorem ahead_cons_of_ne {front key : String} (rest : List String) (h : front ≠ key) :
    ahead (front :: rest) key = front :: ahead rest key := by
  rw [ahead, List.takeWhile_cons_of_pos (by simpa using h)]
  rfl

/-- **The eviction loop removes exactly the exposed entries.** -/
theorem get_evict (start stop : Nat) (order : List String) (map : SortedMap String Entry)
    (evictions : Nat) (key : String) :
    (key ∈ order → Exposed start stop order map key →
        (evict start stop order map evictions).2.1.get key = none) ∧
      (¬ (key ∈ order ∧ Exposed start stop order map key) →
        (evict start stop order map evictions).2.1.get key = map.get key) := by
  induction order generalizing map evictions with
  | nil => exact ⟨fun h => (List.not_mem_nil h).elim, fun _ => rfl⟩
  | cons front rest ih =>
      rw [evict]
      cases hfront : map.get front with
      | none =>
          dsimp only
          have hne (e : Entry) (h : map.get key = some e) : front ≠ key := by
            rintro rfl
            exact nomatch hfront.symm.trans h
          constructor
          · rintro hmem ⟨⟨e, he, hoverlaps⟩, hahead⟩
            rw [ahead_cons_of_ne rest (hne e he)] at hahead
            exact (ih map evictions).1 ((List.mem_cons.mp hmem).resolve_left (hne e he).symm)
              ⟨⟨e, he, hoverlaps⟩, fun k hk => hahead k (List.mem_cons_of_mem _ hk)⟩
          · intro hnot
            refine (ih map evictions).2 fun ⟨hmem, ⟨e, he, hoverlaps⟩, hahead⟩ => hnot ?_
            refine ⟨List.mem_cons_of_mem _ hmem, ⟨e, he, hoverlaps⟩, ?_⟩
            rw [ahead_cons_of_ne rest (hne e he)]
            intro k hk e' he'
            rcases List.mem_cons.mp hk with rfl | hk
            · exact nomatch hfront.symm.trans he'
            · exact hahead k hk e' he'
      | some e₀ =>
          dsimp only
          split_ifs with hoverlaps₀
          · -- the front goes; what it hid is decided without it
            by_cases hkey : front = key
            · subst hkey
              have hgone : (map.erase front).get front = none := by rw [SortedMap.get_erase, if_pos rfl]
              have hrest := (ih (map.erase front) (evictions + 1)).2
                fun ⟨_, ⟨e, he, _⟩, _⟩ => nomatch hgone.symm.trans he
              refine ⟨fun _ _ => hrest.trans hgone, fun hnot => absurd ?_ hnot⟩
              refine ⟨List.mem_cons_self, ⟨e₀, hfront, hoverlaps₀⟩, ?_⟩
              rw [ahead_cons_self]
              exact fun k hk => (List.not_mem_nil hk).elim
            · have hget : (map.erase front).get key = map.get key := SortedMap.get_erase_of_ne _ hkey
              have hexposed : Exposed start stop rest (map.erase front) key ↔
                  Exposed start stop (front :: rest) map key := by
                rw [Exposed, Exposed, hget, ahead_cons_of_ne rest hkey]
                refine and_congr_right fun _ => ⟨fun h k hk e he => ?_, fun h k hk e he => ?_⟩
                · by_cases hk' : front = k
                  · subst hk'
                    obtain rfl := Option.some.inj (hfront.symm.trans he)
                    exact hoverlaps₀
                  · refine h k ((List.mem_cons.mp hk).resolve_left (Ne.symm hk')) e ?_
                    rw [SortedMap.get_erase_of_ne _ hk', he]
                · refine h k (List.mem_cons_of_mem _ hk) e ?_
                  rw [SortedMap.get_erase] at he
                  split_ifs at he
                  exact he
              rw [← hget, ← hexposed, List.mem_cons, or_iff_right (Ne.symm hkey)]
              exact ih (map.erase front) (evictions + 1)
          · -- the loop stops: nothing behind the front is exposed
            refine ⟨fun hmem ⟨⟨e, he, hoverlaps⟩, hahead⟩ => absurd ?_ hoverlaps₀, fun _ => rfl⟩
            by_cases hkey : front = key
            · subst hkey
              obtain rfl := Option.some.inj (hfront.symm.trans he)
              exact hoverlaps
            · rw [ahead_cons_of_ne rest hkey] at hahead
              exact hahead front List.mem_cons_self e₀ hfront

/-- What the loop leaves in the map it leaves in the queue. -/
theorem mem_evict {start stop : Nat} {order : List String} {map : SortedMap String Entry}
    {evictions : Nat} {key : String} {e : Entry} (h : key ∈ order)
    (he : (evict start stop order map evictions).2.1.get key = some e) :
    key ∈ (evict start stop order map evictions).1 := by
  induction order generalizing map evictions with
  | nil => exact (List.not_mem_nil h).elim
  | cons front rest ih =>
      rw [evict] at he ⊢
      cases hfront : map.get front with
      | none =>
          rw [hfront] at he
          dsimp only at he ⊢
          by_cases hkey : key ∈ rest
          · exact ih hkey he
          · rw [(get_evict start stop rest map evictions key).2 fun hboth => hkey hboth.1] at he
            obtain rfl := (List.mem_cons.mp h).resolve_right hkey
            exact nomatch hfront.symm.trans he
      | some e₀ =>
          rw [hfront] at he
          dsimp only at he ⊢
          split_ifs at he ⊢ with hoverlaps
          · by_cases hkey : key ∈ rest
            · exact ih hkey he
            · rw [(get_evict start stop rest _ (evictions + 1) key).2 fun hboth => hkey hboth.1] at he
              obtain rfl := (List.mem_cons.mp h).resolve_right hkey
              rw [SortedMap.get_erase, if_pos rfl] at he
              exact nomatch he
          · exact h

theorem startOf_add_le {c : RingCache} {len : Nat} (h : len ≤ c.capacity) :
    c.startOf len + len ≤ c.capacity := by
  rw [startOf]
  split_ifs with hwrap
  · rwa [Nat.zero_add]
  · exact Nat.le_of_not_lt hwrap

/-- A put that is not skipped, field by field. -/
theorem put_eq {c : RingCache} {data : Bytes} (key : String) (h : data.length ≤ c.capacity) :
    c.put key data =
      let start := c.startOf data.length
      let evicted := evict start (start + data.length) c.order c.map c.evictions
      { c with
        file := writeAt c.file data start
        map := evicted.2.1.insert key ⟨start, data.length % 2 ^ 32, fnv1a data⟩
        order := evicted.1 ++ [key]
        evictions := evicted.2.2
        cursor := start + data.length } := by
  rw [put, if_neg (Nat.not_lt.mpr h)]

end RingCache

/-! ## Runs -/

/-- A call on the cache. -/
inductive CacheCall
  | get (key : String)
  | put (key : String) (data : Bytes)

/-- The cache, and the bytes last put for each key. -/
structure CacheRun where
  cache : RingCache
  last : String → Option Bytes := fun _ => none

namespace CacheRun

def get (s : CacheRun) (key : String) : CacheRun := { s with cache := (s.cache.get key).2 }

def put (s : CacheRun) (key : String) (data : Bytes) : CacheRun :=
  ⟨s.cache.put key data, fun k => if k = key then some data else s.last k⟩

def step (s : CacheRun) : CacheCall → Option CacheRun
  | .get key => some (s.get key)
  | .put key data => some (s.put key data)

theorem last_put_self (s : CacheRun) (key : String) (data : Bytes) :
    (s.put key data).last key = some data := if_pos rfl

theorem last_put_of_ne (s : CacheRun) {key k : String} (data : Bytes) (h : k ≠ key) :
    (s.put key data).last k = s.last k := if_neg h

/-- **Integrity**: the live regions are inside the file and disjoint, each holds the bytes last put for
its key, `get` returns those bytes or nothing, and no entry was found corrupt. -/
structure Intact (s : CacheRun) : Prop where
  inside : ∀ key e, s.cache.map.get key = some e → e.offset + e.len ≤ s.cache.capacity
  disjoint : ∀ key key' e e', key ≠ key' → s.cache.map.get key = some e →
    s.cache.map.get key' = some e' → ∀ i, ¬ (e.Covers i ∧ e'.Covers i)
  holds : ∀ key e, s.cache.map.get key = some e →
    ∃ data, s.last key = some data ∧ readAt s.cache.file e.offset e.len = some data
  answers : ∀ key, (s.cache.get key).1 = none ∨ (s.cache.get key).1 = s.last key
  corrupt : s.cache.corrupt = 0

/-- **What a put needs**: an object larger than the cache has no live entry under its key, and any other
is below 4 GiB, and every live entry queued before one it overwrites (of another key) is overlapped by
the write as well. -/
def Fits (s : CacheRun) : CacheCall → Prop
  | .get _ => True
  | .put key data =>
    let start := s.cache.startOf data.length
    let stop := start + data.length
    (s.cache.capacity < data.length → s.cache.map.get key = none) ∧
      (data.length ≤ s.cache.capacity → data.length < 2 ^ 32 ∧
        ∀ p ∈ s.cache.map.entries, p.1 ≠ key → p.2.Shares start stop →
          ∀ k ∈ RingCache.ahead s.cache.order p.1, ∀ e ∈ s.cache.map.get k, e.overlaps start stop = true)

instance (s : CacheRun) : (call : CacheCall) → Decidable (s.Fits call)
  | .get _ => isTrue trivial
  | .put _ _ => inferInstanceAs (Decidable (_ ∧ _))

/-- What the run keeps besides: checksums, the length of the file, and a place in the queue. -/
structure Sound (s : CacheRun) : Prop where
  inside : ∀ key e, s.cache.map.get key = some e → e.offset + e.len ≤ s.cache.capacity
  disjoint : ∀ key key' e e', key ≠ key' → s.cache.map.get key = some e →
    s.cache.map.get key' = some e' → ∀ i, ¬ (e.Covers i ∧ e'.Covers i)
  stored : ∀ key e, s.cache.map.get key = some e →
    ∃ data, s.last key = some data ∧ readAt s.cache.file e.offset e.len = some data ∧
      e.checksum = fnv1a data
  length : s.cache.file.length = s.cache.capacity
  queued : ∀ key e, s.cache.map.get key = some e → key ∈ s.cache.order
  corrupt : s.cache.corrupt = 0

namespace Sound

variable {s : CacheRun}

theorem opened (capacity : Nat) : Sound ⟨.opened capacity, fun _ => none⟩ where
  inside _ _ h := nomatch h
  disjoint _ _ _ _ _ h := nomatch h
  stored _ _ h := nomatch h
  length := List.length_replicate
  queued _ _ h := nomatch h
  corrupt := rfl

/-- In a sound cache `get` finds what was put, and changes no more than the counters. -/
theorem get_cases (h : Sound s) (key : String) :
    ((s.cache.get key).1 = none ∨ (s.cache.get key).1 = s.last key) ∧
      ∃ hits misses, (s.cache.get key).2 = { s.cache with hits := hits, misses := misses } := by
  rw [RingCache.get]
  cases he : s.cache.map.get key with
  | none => exact ⟨.inl rfl, _, _, rfl⟩
  | some e =>
      obtain ⟨data, hlast, hread, hsum⟩ := h.stored key e he
      dsimp only
      rw [hread]
      dsimp only
      rw [if_pos hsum.symm]
      exact ⟨.inr hlast.symm, _, _, rfl⟩

theorem get (h : Sound s) (key : String) : Sound (s.get key) := by
  obtain ⟨-, hits, misses, hget⟩ := h.get_cases key
  rw [CacheRun.get, hget]
  exact ⟨h.inside, h.disjoint, h.stored, h.length, h.queued, h.corrupt⟩

theorem whole (h : Sound s) : s.Intact where
  inside := h.inside
  disjoint := h.disjoint
  holds key e he := (h.stored key e he).imp fun _ hd => ⟨hd.1, hd.2.1⟩
  answers key := (h.get_cases key).1
  corrupt := h.corrupt

/-- What a live entry other than the new one is after a put: a live entry before it, not exposed. -/
theorem get_put_of_ne {key : String} {data : Bytes} (hle : data.length ≤ s.cache.capacity) {k : String}
    {e : Entry} (hk : k ≠ key) (he : (s.cache.put key data).map.get k = some e) :
    s.cache.map.get k = some e ∧ ¬ (k ∈ s.cache.order ∧
      RingCache.Exposed (s.cache.startOf data.length) (s.cache.startOf data.length + data.length)
        s.cache.order s.cache.map k) := by
  rw [RingCache.put_eq key hle] at he
  dsimp only at he
  rw [SortedMap.get_insert_of_ne _ _ (Ne.symm hk)] at he
  obtain ⟨hgone, hkept⟩ := RingCache.get_evict (s.cache.startOf data.length)
    (s.cache.startOf data.length + data.length) s.cache.order s.cache.map s.cache.evictions k
  by_cases hexposed : k ∈ s.cache.order ∧ RingCache.Exposed (s.cache.startOf data.length)
      (s.cache.startOf data.length + data.length) s.cache.order s.cache.map k
  · exact nomatch (hgone hexposed.1 hexposed.2).symm.trans he
  · exact ⟨hkept hexposed ▸ he, hexposed⟩

theorem get_put_self (key : String) {data : Bytes} (hle : data.length ≤ s.cache.capacity) :
    (s.cache.put key data).map.get key =
      some ⟨s.cache.startOf data.length, data.length % 2 ^ 32, fnv1a data⟩ := by
  rw [RingCache.put_eq key hle]
  exact SortedMap.get_insert_self _ _ _

/-- An entry that survives a fitting put keeps clear of the bytes written. -/
theorem clear_of_fits (h : Sound s) {key : String} {data : Bytes} (hfits : s.Fits (.put key data))
    (hle : data.length ≤ s.cache.capacity) {k : String} {e : Entry} (hk : k ≠ key)
    (he : (s.cache.put key data).map.get k = some e) (i : Nat) (hi : e.Covers i) :
    ¬ (s.cache.startOf data.length ≤ i ∧ i < s.cache.startOf data.length + data.length) := by
  rintro ⟨hstart, hstop⟩
  obtain ⟨hold, hexposed⟩ := get_put_of_ne hle hk he
  have hshares := Entry.shares_iff.mpr ⟨i, hi, hstart, hstop⟩
  refine hexposed ⟨h.queued k e hold, ⟨e, hold, hshares.overlaps⟩, ?_⟩
  exact (hfits.2 hle).2 (k, e) (SortedMap.get_eq_some_iff.mp hold) hk hshares

/-- A fitting put keeps the cache sound. -/
theorem put (h : Sound s) {key : String} {data : Bytes} (hfits : s.Fits (.put key data)) :
    Sound (s.put key data) := by
  rcases Nat.lt_or_ge s.cache.capacity data.length with hbig | hle
  · -- the object is skipped: the other keys keep their bytes, and this one has none
    have hsame : (s.put key data).cache = s.cache := if_pos hbig
    refine ⟨?_, ?_, fun k e he => ?_, ?_, ?_, ?_⟩
    all_goals rw [hsame] at *
    · exact h.inside
    · exact h.disjoint
    · have hk : k ≠ key := by
        rintro rfl
        exact nomatch (hfits.1 hbig).symm.trans he
      rw [last_put_of_ne s data hk]
      exact h.stored k e he
    · exact h.length
    · exact h.queued
    · exact h.corrupt
  · have hlt := (hfits.2 hle).1
    have hroom : s.cache.startOf data.length + data.length ≤ s.cache.file.length :=
      h.length ▸ RingCache.startOf_add_le hle
    have hself := get_put_self key hle
    rw [Nat.mod_eq_of_lt hlt] at hself
    have hfile : (s.put key data).cache.file =
        writeAt s.cache.file data (s.cache.startOf data.length) := by
      rw [CacheRun.put, RingCache.put_eq key hle]
    refine ⟨fun k e he => ?_, fun k k' e e' hne he he' i hi => ?_, fun k e he => ?_, ?_,
      fun k e he => ?_, ?_⟩
    · have hcapacity : (s.put key data).cache.capacity = s.cache.capacity := by
        rw [CacheRun.put, RingCache.put_eq key hle]
      rw [hcapacity]
      by_cases hk : k = key
      · subst hk
        obtain rfl := Option.some.inj (hself.symm.trans he)
        exact RingCache.startOf_add_le hle
      · exact h.inside k e (get_put_of_ne hle hk he).1
    · by_cases hk : k = key
      · subst hk
        obtain rfl := Option.some.inj (hself.symm.trans he)
        exact h.clear_of_fits hfits hle (Ne.symm hne) he' i hi.2 hi.1
      · by_cases hk' : k' = key
        · subst hk'
          obtain rfl := Option.some.inj (hself.symm.trans he')
          exact h.clear_of_fits hfits hle hk he i hi.1 hi.2
        · exact h.disjoint k k' e e' hne (get_put_of_ne hle hk he).1 (get_put_of_ne hle hk' he').1 i hi
    · rw [hfile]
      by_cases hk : k = key
      · subst hk
        obtain rfl := Option.some.inj (hself.symm.trans he)
        exact ⟨data, last_put_self s k data, readAt_writeAt_self hroom, rfl⟩
      · rw [last_put_of_ne s data hk]
        refine (h.stored k e (get_put_of_ne hle hk he).1).imp fun _ hd => ⟨hd.1, ?_, hd.2.2⟩
        rw [readAt_writeAt_of_disjoint hroom, hd.2.1]
        exact fun i hlow hhigh => h.clear_of_fits hfits hle hk he i ⟨hlow, hhigh⟩
    · rw [hfile, length_writeAt hroom, h.length, CacheRun.put, RingCache.put_eq key hle]
    · rw [CacheRun.put, RingCache.put_eq key hle] at he ⊢
      dsimp only at he ⊢
      by_cases hk : k = key
      · exact List.mem_append_right _ (List.mem_singleton.mpr hk)
      · rw [SortedMap.get_insert_of_ne _ _ (Ne.symm hk)] at he
        have hold : s.cache.map.get k = some e := by
          refine (get_put_of_ne hle hk ?_).1
          rw [RingCache.put_eq key hle]
          exact (SortedMap.get_insert_of_ne _ _ (Ne.symm hk)).trans he
        exact List.mem_append_left _ (RingCache.mem_evict (h.queued k e hold) he)
    · rw [CacheRun.put, RingCache.put_eq key hle]
      exact h.corrupt

/-- An intact cache reads a new entry back whole, so its length was not cut to 32 bits. -/
theorem narrow_of_intact {key : String} {data : Bytes} (h : Intact (s.put key data))
    (hle : data.length ≤ s.cache.capacity) : data.length < 2 ^ 32 := by
  obtain ⟨data', hlast, hread⟩ := h.holds key _ (get_put_self key hle)
  obtain rfl := Option.some.inj ((last_put_self s key data).symm.trans hlast)
  have hlen : data.length = data.length % 2 ^ 32 := length_of_readAt hread
  exact hlen ▸ Nat.mod_lt _ (by decide)

/-- **A put keeps the cache intact exactly when it fits.** -/
theorem put_iff (h : Sound s) {key : String} {data : Bytes} :
    Intact (s.put key data) ↔ s.Fits (.put key data) := by
  refine ⟨fun hafter => ⟨fun hbig => ?_, fun hle => ⟨narrow_of_intact hafter hle,
    fun p hp hne hshares k hk e he => ?_⟩⟩, fun hfits => (h.put hfits).whole⟩
  · -- an old entry under the key of a skipped object is not what was put
    have hsame : (s.put key data).cache = s.cache := if_pos hbig
    cases he : s.cache.map.get key with
    | none => rfl
    | some e =>
        obtain ⟨data', hlast, hread⟩ := hafter.holds key e (hsame ▸ he)
        obtain rfl := Option.some.inj ((last_put_self s key data).symm.trans hlast)
        have hlen : data.length = e.len := length_of_readAt hread
        have hinside := h.inside key e he
        rw [← hlen] at hinside
        exact absurd (Nat.le_trans (Nat.le_add_left _ _) hinside) (Nat.not_le_of_lt hbig)
  · -- an overwritten entry that is hidden survives, and shares a byte with the new one
    by_contra hhidden
    obtain ⟨i, hcovers, hstart, hstop⟩ := Entry.shares_iff.mp hshares
    have hold : s.cache.map.get p.1 = some p.2 := SortedMap.get_eq_some_iff.mpr hp
    have hkept : (s.cache.put key data).map.get p.1 = some p.2 := by
      rw [RingCache.put_eq key hle]
      dsimp only
      rw [SortedMap.get_insert_of_ne _ _ (Ne.symm hne), (RingCache.get_evict _ _ _ _ _ _).2, hold]
      exact fun hexposed => hhidden (hexposed.2.2 k hk e he)
    have hself := get_put_self key hle
    rw [Nat.mod_eq_of_lt (narrow_of_intact hafter hle)] at hself
    exact hafter.disjoint p.1 key p.2 _ hne hkept hself i ⟨hcovers, hstart, hstop⟩

end Sound

/-- Runs whose puts all fit. -/
abbrev Reaches (capacity : Nat) : CacheRun → Prop :=
  Reachable step Fits ⟨.opened capacity, fun _ => none⟩

/-- **A cache whose puts all fit stays intact.** -/
theorem Reaches.uncorrupted {capacity : Nat} {s : CacheRun} (h : Reaches capacity s) : s.Intact := by
  refine (h.invariant (Sound.opened capacity) fun s call s' _ hsound hfits hstep => ?_).whole
  cases call with
  | get key =>
      cases hstep
      exact hsound.get key
  | put key data =>
      cases hstep
      exact hsound.put hfits

/-- A run of objects of one size, which wraps and evicts. -/
def uniformRun : List CacheCall :=
  [.put "a" [1, 2], .put "b" [3, 4], .put "c" [5, 6], .get "a", .get "b", .put "d" [7, 8], .get "c"]

theorem uniformRun_intact : ∃ s, execute step ⟨.opened 4, fun _ => none⟩ uniformRun = some s ∧ s.Intact :=
  have hfits : Allowed step Fits ⟨.opened 4, fun _ => none⟩ uniformRun := by decide +kernel
  ⟨_, rfl, Reaches.uncorrupted (Reachable.init.execute hfits rfl)⟩

/-- A run of four objects of different sizes. When `d` wraps to the start, `b` is still live behind the
cursor and heads the queue, so `c` is overwritten without being evicted. -/
def hiddenRun : List CacheCall :=
  [.put "a" [1, 1, 1, 1, 1, 1, 1], .put "b" [2, 2, 2], .put "c" [3, 3, 3, 3, 3, 3],
    .put "d" [4, 4, 4, 4, 4], .get "c"]

theorem hidden_not_intact :
    ∃ s, execute step ⟨.opened 10, fun _ => none⟩ hiddenRun = some s ∧ ¬ s.Intact := by
  refine ⟨_, rfl, fun h => ?_⟩
  exact absurd h.corrupt (by decide +kernel)

end CacheRun

end Fckdb
