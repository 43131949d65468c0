import Fckdb.Cache
import Fckdb.Error
import Fckdb.Lib.Pool

/-! # Reading through the cache

`read_immutable` asks the ring cache first, and the store when it has nothing. The cache looks an entry up, reads
its region and compares the checksum as separate steps, between which other readers put objects, the region may be
overwritten, and the file may be damaged in any way. Objects never change, so the checksum of an entry is always
that of the object of its key, and what a reader returns is the object, or bytes that its checksum cannot tell from
it (`CachedReads.faithful`). -/

namespace Fckdb

/-- What the readers of a node share: the cache, and the objects of the store. -/
structure Shelf where
  cache : RingCache
  /-- The PUTs of objects; no path is bound twice. -/
  puts : List (String × Bytes) := []
  deleted : List String := []

/-- One atomic step of a reader. -/
inductive CacheRequest
  /-- Look an entry up, under the lock of the ring. -/
  | lookup (key : String)
  /-- Read a region of the file, without the lock; count a short read as a miss. -/
  | pread (e : Entry)
  /-- Count a hit. -/
  | hit
  /-- The checksum does not match: count it, and drop the entry under the lock. -/
  | drop (key : String)
  /-- GET of an object from the store. -/
  | fetch (key : String)
  /-- `put`, under the lock. -/
  | insert (key : String) (data : Bytes)

/-- The answers to each request. -/
@[reducible] def CacheRequest.Answer : CacheRequest → Type
  | lookup _ => Option Entry
  | pread _ => Option Bytes
  | hit => Unit
  | drop _ => Unit
  | fetch _ => Except Error Bytes
  | insert _ _ => Unit

/-- What a request leaves open. -/
inductive CacheChoice
  | go
  /-- The store fails the request. -/
  | fail (msg : String)
  /-- The write to the file fails, and leaves the file like this. -/
  | torn (file : Bytes)

/-- What happens besides: objects are PUT and deleted, and the file is damaged. -/
inductive ShelfEvent
  | create (key : String) (data : Bytes)
  | remove (key : String)
  | damage (file : Bytes)

/-- `put`, on a file whose write fails: what stood in the way is evicted, the cursor may have wrapped, and no entry
is added. -/
def RingCache.putFailed (c : RingCache) (data : Bytes) (file : Bytes) : RingCache :=
  if c.capacity < data.length then c
  else
    let start := c.startOf data.length
    let (order, map, evictions) := evict start (start + data.length) c.order c.map c.evictions
    { c with file, map, order, evictions, cursor := start }

namespace Shelf

/-- The contents of an object. -/
def object (s : Shelf) (key : String) : Option Bytes :=
  if key ∈ s.deleted then none else (s.puts.find? (·.1 = key)).map (·.2)

/-- Answer a request. -/
def exec (s : Shelf) : (r : CacheRequest) → CacheChoice → Option (Shelf × r.Answer)
  | .lookup key, .go =>
    match s.cache.map.get key with
    | some e => some (s, some e)
    | none => some ({ s with cache.misses := s.cache.misses + 1 }, none)
  | .pread e, .go =>
    match readAt s.cache.file e.offset e.len with
    | some buf => some (s, some buf)
    | none => some ({ s with cache.misses := s.cache.misses + 1 }, none)
  | .hit, .go => some ({ s with cache.hits := s.cache.hits + 1 }, ())
  | .drop key, .go =>
    some ({ s with cache := { s.cache with
      corrupt := s.cache.corrupt + 1, misses := s.cache.misses + 1, map := s.cache.map.erase key } }, ())
  | .fetch key, .go =>
    match s.object key with
    | some data => some (s, .ok data)
    | none => some (s, .error (.objectStore "not found"))
  | .fetch _, .fail msg => some (s, .error (.objectStore msg))
  | .insert key data, .go => some ({ s with cache := s.cache.put key data }, ())
  | .insert _ data, .torn file => some ({ s with cache := s.cache.putFailed data file }, ())
  | _, _ => none

/-- What happens besides. -/
def event (s : Shelf) : ShelfEvent → Option Shelf
  | .create key data => if key ∈ s.puts.map (·.1) then none else some { s with puts := s.puts ++ [(key, data)] }
  | .remove key => some { s with deleted := key :: s.deleted }
  | .damage file => some { s with cache.file := file }

end Shelf

/-! ## The reader -/

/-- A program over the cache and the store. -/
abbrev CacheProg := Prog CacheRequest CacheRequest.Answer

/-- `RingCache::get`. -/
def cacheGet (key : String) : CacheProg (Option Bytes) :=
  (Prog.call (CacheRequest.lookup key)).bind fun
    | none => .done none
    | some e => (Prog.call (CacheRequest.pread e)).bind fun
      -- a short read means that the region was reused
      | none => .done none
      | some buf =>
        if fnv1a buf = e.checksum then (Prog.call CacheRequest.hit).bind fun _ => .done (some buf)
        else (Prog.call (CacheRequest.drop key)).bind fun _ => .done none

/-- `read_immutable`: through the cache. -/
def readImmutable (key : String) : CacheProg (Except Error Bytes) :=
  (cacheGet key).bind fun
    | some hit => .done (.ok hit)
    | none => (Prog.call (CacheRequest.fetch key)).tryBind fun bytes =>
      (Prog.call (CacheRequest.insert key bytes)).bind fun _ => .done (.ok bytes)

/-- The readers of a node; the environment are the writers of the store, and damage to the file. -/
def cachedReads : System Shelf CacheRequest CacheRequest.Answer String (Except Error Bytes) CacheChoice ShelfEvent where
  exec _ := Shelf.exec
  env := Shelf.event
  body := readImmutable

/-! ## What the entries are about -/

namespace RingCache

/-- Entries are only evicted. -/
theorem get_of_evict {start stop : Nat} {order : List String} {map : SortedMap String Entry} {evictions : Nat}
    {key : String} {e : Entry} (h : (evict start stop order map evictions).2.1.get key = some e) :
    map.get key = some e := by
  by_cases hexposed : key ∈ order ∧ Exposed start stop order map key
  · rw [(get_evict start stop order map evictions key).1 hexposed.1 hexposed.2] at h
    cases h
  · rwa [(get_evict start stop order map evictions key).2 hexposed] at h

end RingCache

namespace Shelf

/-- The entry is about these contents: it has their length, as a `u32`, and their checksum. -/
def About (e : Entry) (data : Bytes) : Prop := e.len = data.length % 2 ^ 32 ∧ e.checksum = fnv1a data

/-- Every entry is about the object of its key, and no path is bound twice. -/
structure Sound (s : Shelf) : Prop where
  once : (s.puts.map (·.1)).Nodup
  entries : ∀ key e, s.cache.map.get key = some e → ∃ data, (key, data) ∈ s.puts ∧ About e data

/-- Objects are only added, and the entries stay sound. -/
structure Keeps (s s' : Shelf) : Prop where
  puts : s.puts <+: s'.puts
  sound : s.Sound → s'.Sound

namespace Keeps

theorem refl (s : Shelf) : Keeps s s := ⟨List.prefix_rfl, id⟩

theorem trans {s s' s'' : Shelf} (h : Keeps s s') (h' : Keeps s' s'') : Keeps s s'' :=
  ⟨h.puts.trans h'.puts, fun hs => h'.sound (h.sound hs)⟩

/-- A step that only takes entries away. -/
theorem of_entries {s s' : Shelf} (hputs : s'.puts = s.puts)
    (h : ∀ key e, s'.cache.map.get key = some e → s.cache.map.get key = some e) : Keeps s s' :=
  ⟨hputs ▸ List.prefix_rfl, fun hs => ⟨hputs ▸ hs.once, fun key e he => hputs ▸ hs.entries key e (h key e he)⟩⟩

end Keeps

/-- An object that is there was PUT. -/
theorem mem_puts_of_object {s : Shelf} {key : String} {data : Bytes} (h : s.object key = some data) :
    (key, data) ∈ s.puts := by
  rw [object] at h
  split_ifs at h with hdeleted
  obtain ⟨x, hx, rfl⟩ := Option.map_eq_some_iff.mp h
  have hkey := List.find?_some hx
  obtain rfl : x.1 = key := of_decide_eq_true hkey
  exact List.mem_of_find?_eq_some hx

/-- What happens besides keeps the entries sound. -/
theorem event_keeps {s s' : Shelf} {e : ShelfEvent} (h : s.event e = some s') : Keeps s s' := by
  cases e with
  | create key data =>
      rw [event] at h
      split_ifs at h with hbound
      cases h
      refine ⟨List.prefix_append _ _, fun hs => ⟨?_, fun k e he => ?_⟩⟩
      · rw [List.map_append]
        refine List.nodup_append.mpr ⟨hs.once, List.nodup_singleton _, fun a ha b hb hab => hbound ?_⟩
        obtain rfl := List.mem_singleton.mp hb
        exact hab ▸ ha
      · obtain ⟨data', hput, habout⟩ := hs.entries k e he
        exact ⟨data', List.mem_append_left _ hput, habout⟩
  | remove key =>
      cases h
      exact .of_entries rfl fun _ _ h => h
  | damage file =>
      cases h
      exact .of_entries rfl fun _ _ h => h

/-- A put of the contents of the object. -/
theorem put_keeps {s : Shelf} {key : String} {data : Bytes} (h : (key, data) ∈ s.puts) :
    Keeps s { s with cache := s.cache.put key data } := by
  rw [RingCache.put]
  split_ifs with hlarge
  · exact .refl s
  · refine ⟨List.prefix_rfl, fun hs => ⟨hs.once, fun k e he => ?_⟩⟩
    dsimp only at he
    rw [SortedMap.get_insert] at he
    split_ifs at he with hkey
    · subst hkey
      obtain rfl := Option.some.inj he
      exact ⟨data, h, rfl, rfl⟩
    · exact hs.entries k e (RingCache.get_of_evict he)

/-- A put that fails. -/
theorem putFailed_keeps (s : Shelf) (data file : Bytes) :
    Keeps s { s with cache := s.cache.putFailed data file } := by
  rw [RingCache.putFailed]
  split_ifs with hlarge
  · exact .refl s
  · exact .of_entries rfl fun _ _ h => RingCache.get_of_evict h

end Shelf

/-! ## One reader among others -/

namespace CachedReads

open Prog

/-- The contents, or other bytes that the checksum and the length do not tell from them. -/
def Passes (buf data : Bytes) : Prop :=
  buf = data ∨ buf ≠ data ∧ fnv1a buf = fnv1a data ∧ buf.length = data.length % 2 ^ 32

variable {ok : System.Conditions Shelf CacheRequest String ShelfEvent} {t : Nat}

/-- A triple of a reader. -/
abbrev Reading (ok : System.Conditions Shelf CacheRequest String ShelfEvent) (t : Nat) {α : Type} (P : Shelf → Prop)
    (p : CacheProg α) (Q : α → Shelf → Prop) : Prop :=
  Triple (cachedReads.Answers ok t) Shelf.Keeps Shelf.Keeps (fun s => s.Sound ∧ P s) p fun a s => s.Sound ∧ Q a s

theorem stable_sound : Stable Shelf.Keeps Shelf.Sound := fun _ _ h => h.sound

/-- An object that was PUT. -/
theorem stable_put (key : String) (data : Bytes) : Stable Shelf.Keeps fun s => (key, data) ∈ s.puts :=
  fun _ _ h hs => h.puts.subset hs

/-- One request. -/
theorem ask {r : CacheRequest} {P : Shelf → Prop} {Q : r.Answer → Shelf → Prop} (hP : Stable Shelf.Keeps P)
    (hQ : ∀ x, Stable Shelf.Keeps (Q x))
    (h : ∀ s c s' x, s.Sound → P s → s.exec r c = some (s', x) → Shelf.Keeps s s' ∧ Q x s') :
    Reading ok t P (Prog.call r) Q := by
  refine Triple.call r (stable_sound.and hP) (fun x => stable_sound.and (hQ x)) fun s s' x hs hx => ?_
  obtain ⟨-, c, hx⟩ := hx
  obtain ⟨hkeeps, hq⟩ := h s c s' x hs.1 hs.2 hx
  exact ⟨hkeeps, hkeeps.sound hs.1, hq⟩

/-- What a cache may return for a key. -/
def Finds (key : String) (found : Option Bytes) (s : Shelf) : Prop :=
  ∀ buf, found = some buf → ∃ data, (key, data) ∈ s.puts ∧ Passes buf data

theorem stable_finds (key : String) (found : Option Bytes) : Stable Shelf.Keeps (Finds key found) := by
  intro s s' h hs buf hbuf
  obtain ⟨data, hput, hpasses⟩ := hs buf hbuf
  exact ⟨data, h.puts.subset hput, hpasses⟩

/-- Read the region of an entry that is about an object. -/
theorem cacheRead (key : String) {e : Entry} {data : Bytes} (habout : Shelf.About e data) :
    Reading ok t (fun s => (key, data) ∈ s.puts) ((Prog.call (CacheRequest.pread e)).bind fun
      | none => .done none
      | some buf =>
        if fnv1a buf = e.checksum then (Prog.call CacheRequest.hit).bind fun _ => .done (some buf)
        else (Prog.call (CacheRequest.drop key)).bind fun _ => .done none) (Finds key) := by
  have hput := stable_put key data
  have hread : Reading ok t (fun s => (key, data) ∈ s.puts) (Prog.call (CacheRequest.pread e)) fun found s =>
      (key, data) ∈ s.puts ∧ ∀ buf, found = some buf → buf.length = e.len := by
    refine ask hput (fun found s s' h hs => ⟨hput s s' h hs.1, hs.2⟩) fun s c s' found _ hp hx => ?_
    cases c with
    | go =>
        rw [Shelf.exec.eq_def] at hx
        dsimp only at hx
        split at hx
        · next buf hbuf =>
          cases hx
          refine ⟨.refl s, hp, fun b hb => ?_⟩
          obtain rfl := Option.some.inj hb
          exact length_of_readAt hbuf
        · cases hx
          exact ⟨.of_entries rfl fun _ _ h => h, hp, fun _ hb => nomatch hb⟩
    | _ => cases hx
  refine Triple.bind .refl hread fun found => ?_
  cases found with
  | none => exact Triple.done (fun s s' h hs => ⟨h.sound hs.1, hput s s' h hs.2.1, hs.2.2⟩) fun s hs =>
      ⟨hs.1, fun _ hb => nomatch hb⟩
  | some buf =>
      dsimp only
      split_ifs with hsum
      · -- the checksum of the entry is that of the object
        have hhit : Reading ok t (fun s => (key, data) ∈ s.puts) (Prog.call CacheRequest.hit) fun _ s =>
            (key, data) ∈ s.puts := by
          refine ask hput (fun _ => hput) fun s c s' _ _ hp hx => ?_
          cases c <;> cases hx
          exact ⟨.of_entries rfl fun _ _ h => h, hp⟩
        intro s hs
        have hlength := (hs.2.2 buf rfl).trans habout.1
        refine Triple.bind .refl hhit (fun _ => Triple.done (stable_sound.and hput) fun s hs => ⟨hs.1, ?_⟩) s
          ⟨hs.1, hs.2.1⟩
        rintro b hb
        obtain rfl := Option.some.inj hb
        refine ⟨data, hs.2, ?_⟩
        by_cases hsame : buf = data
        · exact .inl hsame
        · exact .inr ⟨hsame, hsum.trans habout.2, hlength⟩
      · have hdrop : Reading ok t (fun s => (key, data) ∈ s.puts) (Prog.call (CacheRequest.drop key)) fun _ s =>
            (key, data) ∈ s.puts := by
          refine ask hput (fun _ => hput) fun s c s' _ _ hp hx => ?_
          cases c <;> cases hx
          refine ⟨.of_entries rfl fun k e he => ?_, hp⟩
          dsimp only at he
          rw [SortedMap.get_erase] at he
          split_ifs at he
          exact he
        refine (Triple.bind .refl hdrop fun _ => Triple.done (stable_sound.and hput) fun s hs =>
          ⟨hs.1, fun _ hb => nomatch hb⟩).conseq (fun s hs => ⟨hs.1, hs.2.1⟩) fun _ _ h => h

/-- **The cache** finds nothing, or what passes for the object. -/
theorem cacheGet (key : String) : Reading ok t (fun _ => True) (Fckdb.cacheGet key) (Finds key) := by
  have htrue : Stable Shelf.Keeps fun _ => True := fun _ _ _ _ => trivial
  have hlookup : Reading ok t (fun _ => True) (Prog.call (CacheRequest.lookup key)) fun found s =>
      ∀ e, found = some e → ∃ data, (key, data) ∈ s.puts ∧ Shelf.About e data := by
    refine ask htrue (fun found s s' h hs e he => ?_) fun s c s' found hs _ hx => ?_
    · obtain ⟨data, hput, habout⟩ := hs e he
      exact ⟨data, h.puts.subset hput, habout⟩
    · cases c with
      | go =>
          rw [Shelf.exec.eq_def] at hx
          dsimp only at hx
          split at hx
          · next e he =>
            cases hx
            refine ⟨.refl s, fun e' he' => ?_⟩
            obtain rfl := Option.some.inj he'
            exact hs.entries key e he
          · cases hx
            exact ⟨.of_entries rfl fun _ _ h => h, fun _ he => nomatch he⟩
      | _ => cases hx
  refine Triple.bind .refl hlookup fun found => ?_
  cases found with
  | none => exact Triple.done (fun s s' h hs => ⟨h.sound hs.1, fun _ he => nomatch he⟩) fun s hs =>
      ⟨hs.1, fun _ hb => nomatch hb⟩
  | some e =>
      intro s hs
      obtain ⟨data, hput, habout⟩ := hs.2 e rfl
      exact cacheRead key habout s ⟨hs.1, hput⟩

/-- **A reader through the cache** returns what passes for the object. -/
theorem readImmutable (key : String) : Reading ok t (fun _ => True) (Fckdb.readImmutable key)
    fun r s => Finds key r.toOption s := by
  refine Triple.bind .refl (cacheGet key) fun found => ?_
  cases found with
  | some hit => exact Triple.done (stable_sound.and (stable_finds key _)) fun s hs => hs
  | none =>
      have htrue : Stable Shelf.Keeps fun _ => True := fun _ _ _ _ => trivial
      have hfetch : Reading ok t (fun _ => True) (Prog.call (CacheRequest.fetch key)) fun r s =>
          ∀ data, r = .ok data → (key, data) ∈ s.puts := by
        refine ask htrue (fun r s s' h hs data hr => h.puts.subset (hs data hr)) fun s c s' r _ _ hx => ?_
        rw [Shelf.exec.eq_def] at hx
        cases c with
        | go =>
            dsimp only at hx
            split at hx
            · next data hdata =>
              cases hx
              refine ⟨.refl s, fun data' hr => ?_⟩
              obtain rfl := Except.ok.inj hr
              exact Shelf.mem_puts_of_object hdata
            · cases hx
              exact ⟨.refl s, fun _ hr => nomatch hr⟩
        | fail msg =>
            cases hx
            exact ⟨.refl s, fun _ hr => nomatch hr⟩
        | torn file => cases hx
      refine Triple.tryBind .refl (hfetch.conseq (fun s hs => ⟨hs.1, trivial⟩) fun _ _ h => h) (fun data => ?_) ?_
      · have hput := stable_put key data
        have hinsert : Reading ok t (fun s => (key, data) ∈ s.puts) (Prog.call (CacheRequest.insert key data))
            fun _ s => (key, data) ∈ s.puts := by
          refine ask hput (fun _ => hput) fun s c s' _ _ hp hx => ?_
          cases c <;> cases hx
          · exact ⟨Shelf.put_keeps hp, hp⟩
          · exact ⟨Shelf.putFailed_keeps s data _, hp⟩
        refine (Triple.bind .refl hinsert fun _ => Triple.done (stable_sound.and hput) fun s hs => ?_).conseq
          (fun s hs => ⟨hs.1, hs.2 data rfl⟩) fun _ _ h => h
        refine ⟨hs.1, fun buf hbuf => ?_⟩
        obtain rfl := Option.some.inj hbuf
        exact ⟨_, hs.2, .inl rfl⟩
      · exact fun e s hs => ⟨hs.1, fun _ hb => nomatch hb⟩

/-! ## All readers together -/

/-- **Readers through the cache** rely on each other, and on what happens besides, only to keep the entries sound. -/
def contract (ok : System.Conditions Shelf CacheRequest String ShelfEvent) (capacity : Nat) :
    cachedReads.Contract ok { cache := .opened capacity } where
  rely _ := Shelf.Keeps
  guar _ _ := Shelf.Keeps
  post _ key r s := s.Sound ∧ Finds key r.toOption s
  refl _ := .refl
  trans _ _ _ _ := .trans
  compat _ _ _ _ _ _ h := h
  env _ _ _ _ _ h := Shelf.event_keeps h
  start _ key s _ h := readImmutable key s ⟨h.sound ⟨List.nodup_nil, fun _ _ h => nomatch h⟩, trivial⟩

/-- **Reading through the cache is faithful**, whichever readers run beside each other, whatever the file of the
cache comes to hold, and however its writes fail: what a reader returns is the one object that was PUT under its
path, or bytes that agree with it in checksum and length. -/
theorem faithful {ok : System.Conditions Shelf CacheRequest String ShelfEvent} {capacity : Nat}
    {g : Pool Shelf CacheRequest CacheRequest.Answer String (Except Error Bytes)}
    (h : cachedReads.Reached ok { cache := .opened capacity } g)
    {th : Thread CacheRequest CacheRequest.Answer String (Except Error Bytes)} (hth : th ∈ g.threads) {buf : Bytes}
    (hok : th.prog = .done (.ok buf)) :
    ∃ data, (∀ data', (th.call, data') ∈ g.shared.puts ↔ data' = data) ∧ Passes buf data := by
  obtain ⟨t, ht⟩ := List.mem_iff_getElem?.mp hth
  have hsafe := ((contract ok capacity).safe_of_reachable h).2 t th ht
  rw [hok] at hsafe
  obtain ⟨hsound, hfinds⟩ := hsafe g.shared (.refl _)
  obtain ⟨data, hput, hpasses⟩ := hfinds buf rfl
  refine ⟨data, fun data' => ⟨fun hput' => ?_, fun hsame => hsame ▸ hput⟩, hpasses⟩
  exact congrArg Prod.snd (List.inj_on_of_nodup_map hsound.once hput' hput rfl)

end CachedReads

/-! ## A run -/

/-- A reader misses, fetches and puts; the file is damaged; the next reader finds the checksum wrong, and fetches
again. -/
def damagedRun : List (PoolAction String CacheChoice ShelfEvent) :=
  [.env (.create "c0" [1, 2, 3]), .spawn "c0", .run 0 .go, .run 0 .go, .run 0 .go, .env (.damage [1, 9, 3, 0]),
    .spawn "c0", .run 1 .go, .run 1 .go, .run 1 .go, .run 1 .go, .run 1 .go]

/-- Readers may read any path, at any time. -/
def anyReads : System.Conditions Shelf CacheRequest String ShelfEvent :=
  ⟨fun _ => True, fun _ _ _ => True, fun _ _ => True⟩

/-- The reader has returned these bytes. -/
def Thread.hasRead (th : Thread CacheRequest CacheRequest.Answer String (Except Error Bytes)) (buf : Bytes) : Bool :=
  match th.prog with
  | .done (.ok b) => b = buf
  | _ => false

theorem Thread.prog_of_hasRead {th : Thread CacheRequest CacheRequest.Answer String (Except Error Bytes)} {buf : Bytes}
    (h : th.hasRead buf = true) : th.prog = .done (.ok buf) := by
  rw [Thread.hasRead] at h
  split at h
  · next b hb => rw [hb, of_decide_eq_true h]
  · cases h

/-- The reader that finds the damage returns the object. -/
theorem CachedReads.damagedRun_faithful :
    ∃ g th, cachedReads.Reached anyReads { cache := .opened 4 } g ∧ th ∈ g.threads ∧ th.call = "c0" ∧
      th.prog = .done (.ok [1, 2, 3]) ∧ g.shared.cache.corrupt = 1 ∧
      ∃ data, (∀ data', (th.call, data') ∈ g.shared.puts ↔ data' = data) ∧ CachedReads.Passes [1, 2, 3] data := by
  have hrun : ((execute cachedReads.step ⟨{ cache := .opened 4 }, []⟩ damagedRun).any fun g =>
      g.threads[1]?.any fun th => th.hasRead [1, 2, 3] ∧ th.call = "c0" ∧ g.shared.cache.corrupt = 1) = true := by
    decide +kernel
  obtain ⟨g, hg, hrun⟩ := (Option.any_eq_true _ _).mp hrun
  obtain ⟨th, hth, hrun⟩ := (Option.any_eq_true _ _).mp hrun
  obtain ⟨hread, hcall, hcorrupt⟩ := of_decide_eq_true hrun
  have hreached : cachedReads.Reached anyReads { cache := .opened 4 } g :=
    Reachable.init.execute (Allowed.of_forall (fun p a => by
      cases a with
      | spawn call => trivial
      | run t c => exact fun _ _ _ _ _ => trivial
      | env e => trivial) _ _) hg
  have hmem := List.mem_of_getElem? hth
  have hprog := Thread.prog_of_hasRead hread
  exact ⟨g, th, hreached, hmem, hcall, hprog, hcorrupt, CachedReads.faithful hreached hmem hprog⟩

end Fckdb
