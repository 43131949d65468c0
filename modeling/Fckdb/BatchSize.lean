import Fckdb.Delivery
import Fckdb.RecordSize
import Fckdb.WalFormat
import Mathlib.Algebra.Order.BigOperators.Group.List

/-! # How large a batch gets

The committer stops draining when what it has drained counts for `MAX_BATCH_BYTES`. What a record counts
for (`Record.encodedLen`) has the lengths of its keys and of its vector in it and a flat 24 bytes for each
value: a batch keeps within the bound exactly as far as ids and values keep within that allowance
(`Record.Covered`). -/

namespace Fckdb

/-! ## Widths -/

/-- The bytes of an id. -/
def Id.width : Id → Nat
  | .uint _ => 9
  | .uuid _ => 17
  | .string s => 5 + s.utf8ByteSize

/-- The bytes of a value. -/
def Value.width : Value → Nat
  | .null => 1
  | .bool _ => 2
  | .uint _ | .int _ | .f64 _ | .datetime _ => 9
  | .string s => 5 + s.utf8ByteSize
  | .uuid _ => 17
  | .stringArray a => 5 + (a.map fun s => 4 + s.utf8ByteSize).sum
  | .uintArray a => 5 + 8 * a.length
  | .intArray a => 5 + 8 * a.length
  | .sparse m => 5 + (m.entries.map fun e => 8 + e.1.utf8ByteSize).sum

/-- The bytes of the values of a document. -/
def valuesWidth (attrs : Attrs) : Nat := (attrs.entries.map fun e => e.2.width).sum

theorem length_putStr (s : String) : (putStr s).length = 4 + s.utf8ByteSize := by
  rw [putStr, List.length_append, leBytes_length, utf8_length]

theorem Id.length_encode (id : Id) : id.encode.length = id.width := by
  cases id with
  | uint v => simp [encode, width, putU8, putU64, leBytes_length]
  | uuid u => simp [encode, width, putU8, leBytes_length, u.length_eq]
  | string s =>
      simp only [encode, width, putU8, List.length_append, leBytes_length, length_putStr]
      omega

theorem length_flatMap_const {α : Type} {f : α → Bytes} {n : Nat} (h : ∀ a, (f a).length = n) (l : List α) :
    (l.flatMap f).length = n * l.length := by
  rw [List.length_flatMap, List.map_congr_left fun a _ => h a, List.map_const', List.sum_replicate_nat,
    Nat.mul_comm]

/-- **What a value encodes to** has its width. -/
theorem Value.length_encode (v : Value) : v.encode.length = v.width := by
  cases v with
  | null => rfl
  | bool b => simp [encode, width, putU8, leBytes_length]
  | uint u => simp [encode, width, putU8, putU64, leBytes_length]
  | int i => simp [encode, width, putU8, putU64, leBytes_length]
  | f64 f => simp [encode, width, putU8, putU64, leBytes_length]
  | datetime n => simp [encode, width, putU8, putU64, leBytes_length]
  | uuid u => simp [encode, width, putU8, leBytes_length, u.length_eq]
  | string s =>
      simp only [encode, width, putU8, List.length_append, leBytes_length, length_putStr]
      omega
  | stringArray a =>
      have hbody : (a.flatMap putStr).length = (a.map fun s => 4 + s.utf8ByteSize).sum := by
        rw [List.length_flatMap, List.map_congr_left fun s _ => length_putStr s]
      simp only [encode, width, putU8, List.length_append, leBytes_length, hbody]
      omega
  | uintArray a =>
      have hbody : (a.flatMap putU64).length = 8 * a.length :=
        length_flatMap_const (fun v => leBytes_length 8 _) a
      simp only [encode, width, putU8, List.length_append, leBytes_length, hbody]
      omega
  | intArray a =>
      have hbody : (a.flatMap fun v => putU64 v.toUInt64).length = 8 * a.length :=
        length_flatMap_const (fun v => leBytes_length 8 _) a
      simp only [encode, width, putU8, List.length_append, leBytes_length, hbody]
      omega
  | sparse m =>
      have hbody : (m.entries.flatMap fun e => putStr e.1 ++ putF32 e.2).length =
          (m.entries.map fun e => 8 + e.1.utf8ByteSize).sum := by
        rw [List.length_flatMap]
        refine congrArg List.sum (List.map_congr_left fun e _ => ?_)
        rw [List.length_append, length_putStr, putF32, leBytes_length]
        omega
      simp only [encode, width, putU8, List.length_append, leBytes_length, hbody]
      omega

/-! ## What a record counts for -/

/-- The bytes of a record in the WAL. -/
def Record.framedLen (r : Record) : Nat := (frameOne r.encode).length

/-- The id and the values of a record keep within what the estimate allows for them. -/
def Record.Covered : Record → Prop
  | .delete id => id.width ≤ 27
  | .patch id attrs => id.width + valuesWidth attrs ≤ 27 + 22 * attrs.size
  | .upsert d => d.id.width + valuesWidth d.attrs ≤ 23 + 22 * d.attrs.size

theorem length_putAttrs_eq (attrs : Attrs) : (putAttrs attrs).length + 22 * attrs.size =
    Record.encodedLen.attrsLen attrs + valuesWidth attrs := by
  rw [length_putAttrs, Record.encodedLen.attrsLen, valuesWidth, SortedMap.size]
  generalize attrs.entries = l
  induction l with
  | nil => rfl
  | cons e l ih =>
      simp only [List.map_cons, List.sum_cons, List.length_cons, Value.length_encode] at ih ⊢
      omega

/-- **The estimate**: a record takes no more than it counts for just when it is covered. -/
theorem Record.framedLen_le_iff (r : Record) : r.framedLen ≤ r.encodedLen ↔ r.Covered := by
  cases r with
  | delete id =>
      simp only [framedLen, encode, encodedLen, Covered, length_frameOne, List.length_append, putU8,
        leBytes_length, Id.length_encode]
      omega
  | patch id attrs =>
      have hattrs := length_putAttrs_eq attrs
      simp only [framedLen, encode, encodedLen, Covered, length_frameOne, List.length_append, putU8,
        leBytes_length, Id.length_encode]
      omega
  | upsert d =>
      have hattrs := length_putAttrs_eq d.attrs
      simp only [framedLen, encode, encodedLen, Covered, length_frameOne, List.length_append, putU8,
        leBytes_length, Id.length_encode, length_flatMap_putF32]
      omega

/-! ## What a batch counts for -/

section Absorbed

variable [Crates]

omit [Crates] in
theorem attrsLen_eq {attrs attrs' : Attrs} (h : attrs'.keys = attrs.keys) :
    Record.encodedLen.attrsLen attrs' = Record.encodedLen.attrsLen attrs := by
  have hkeys (attrs : Attrs) : Record.encodedLen.attrsLen attrs =
      (attrs.keys.map fun key => key.utf8ByteSize + 24).sum + 2 := by
    rw [Record.encodedLen.attrsLen, SortedMap.keys, List.map_map]
    rfl
  rw [hkeys, hkeys, h]

/-- A schema does not change what a record counts for. -/
theorem Record.AbsorbedAs.encodedLen_eq {r r' : Record} (h : r.AbsorbedAs r') :
    r'.encodedLen = r.encodedLen := by
  obtain ⟨s, s', h⟩ := h
  cases r with
  | upsert doc =>
      obtain ⟨⟨s₁, id⟩, h₁, h⟩ := bind_eq_ok.mp h
      obtain ⟨s₂, h₂, h⟩ := bind_eq_ok.mp h
      obtain ⟨⟨s₃, attrs⟩, h₃, h⟩ := bind_eq_ok.mp h
      cases h
      rw [encodedLen, encodedLen, attrsLen_eq (Schema.absorbAttrs_keys h₃)]
  | patch id attrs =>
      obtain ⟨⟨s₁, id⟩, h₁, h⟩ := bind_eq_ok.mp h
      obtain ⟨⟨s₂, attrs⟩, h₂, h⟩ := bind_eq_ok.mp h
      cases h
      rw [encodedLen, encodedLen, attrsLen_eq (Schema.absorbAttrs_keys h₂)]
  | delete id =>
      obtain ⟨⟨s₁, id⟩, h₁, h⟩ := bind_eq_ok.mp h
      cases h
      rfl

/-- What records count for together. -/
theorem sum_encodedLen_eq {rs rs' : List Record} (h : List.Forall₂ Record.AbsorbedAs rs rs') :
    (rs'.map Record.encodedLen).sum = (rs.map Record.encodedLen).sum := by
  induction h with
  | nil => rfl
  | cons hr _ ih =>
      rw [List.map_cons, List.map_cons, List.sum_cons, List.sum_cons, hr.encodedLen_eq, ih]

theorem accounted_iff {rs rs' : List Record} (h : List.Forall₂ Record.AbsorbedAs rs rs') :
    List.Forall₂ (fun q r : Record => r.framedLen ≤ q.encodedLen) rs rs' ↔ ∀ r ∈ rs', r.Covered := by
  induction h with
  | nil => exact iff_of_true .nil fun _ hr => absurd hr List.not_mem_nil
  | cons hr _ ih => rw [List.forall₂_cons, ih, List.forall_mem_cons, ← hr.encodedLen_eq, Record.framedLen_le_iff]

end Absorbed

theorem length_frameRecords (rs : List Record) :
    (frameRecords rs).length = (rs.map Record.framedLen).sum := by
  rw [frameRecords, frame, List.length_flatMap, List.map_map]
  rfl

theorem length_frameRecords_le_of_covered {rs : List Record} (h : ∀ r ∈ rs, r.Covered) :
    (frameRecords rs).length ≤ (rs.map Record.encodedLen).sum := by
  rw [length_frameRecords]
  exact List.sum_le_sum fun r hr => r.framedLen_le_iff.mpr (h r hr)

/-- **The batch bound**: the object of a batch is at most `MAX_BATCH_BYTES` and its last record, and each
record was accounted for with what it takes. -/
structure BatchBounded (queued written : List Record) : Prop where
  total : ∀ last, written.getLast? = some last →
    (frameRecords written).length ≤ maxBatchBytes + last.framedLen
  accounted : List.Forall₂ (fun q r : Record => r.framedLen ≤ q.encodedLen) queued written

/-! ## Draining -/

/-- Records as the committer drains them: for each but the first there was room. -/
def Filled (waiters : List Req) : Prop :=
  waiters ≠ [] ∧ ∀ front last, waiters = front ++ [last] → front ≠ [] → room front = true

theorem Filled.first (q : Req) : Filled [q] := by
  refine ⟨List.cons_ne_nil q [], fun front last heq hne => absurd ?_ hne⟩
  have hlength := congrArg List.length heq
  rw [List.length_append, List.length_singleton, List.length_singleton] at hlength
  exact List.length_eq_zero_iff.mp (by omega)

theorem Filled.next {waiters : List Req} (hroom : room waiters = true) (q : Req) :
    Filled (waiters ++ [q]) := by
  refine ⟨List.concat_ne_nil q waiters, fun front last heq _ => ?_⟩
  rwa [← (List.append_inj' heq rfl).1]

/-- **Covered records keep a batch within the bound.** -/
theorem Filled.total [Crates] {waiters : List Req} (h : Filled waiters) {written : List Record}
    (habsorbed : List.Forall₂ Record.AbsorbedAs (waiters.map (·.record)) written)
    (hcovered : ∀ r ∈ written, r.Covered) {last : Record} (hlast : written.getLast? = some last) :
    (frameRecords written).length ≤ maxBatchBytes + last.framedLen := by
  obtain ⟨front, rfl⟩ := List.getLast?_eq_some_iff.mp hlast
  obtain ⟨waiting, q, rfl⟩ := (List.eq_nil_or_concat' waiters).resolve_left h.1
  rw [List.map_append] at habsorbed
  have hlength : front.length = (waiting.map (·.record)).length := by
    simpa using habsorbed.length_eq.symm
  have hfront : List.Forall₂ Record.AbsorbedAs (waiting.map (·.record)) front := by
    have htake := List.forall₂_take_append _ front [last] habsorbed
    rwa [hlength, List.take_left] at htake
  have hbound : (frameRecords front).length ≤ maxBatchBytes := by
    by_cases hnil : waiting = []
    · subst hnil
      cases hfront
      exact Nat.zero_le _
    · have hroom := (Bool.and_eq_true_iff.mp (h.2 waiting q rfl hnil)).2
      have hcount : ((waiting.map (·.record)).map Record.encodedLen).sum < maxBatchBytes := by
        rw [List.map_map]
        exact of_decide_eq_true hroom
      rw [← sum_encodedLen_eq hfront] at hcount
      exact (length_frameRecords_le_of_covered fun r hr => hcovered r (List.mem_append_left _ hr)).trans
        hcount.le
  rw [length_frameRecords] at hbound ⊢
  rw [List.map_append, List.sum_append, List.map_singleton, List.sum_singleton]
  exact Nat.add_le_add_right hbound _

namespace GroupCommit

/-- Whatever the committer drained was filled so. -/
structure FillsUp (g : GroupCommit) : Prop where
  batches : ∀ b ∈ g.batches, Filled b.2
  draining : ∀ waiters, g.committer = .draining waiters → Filled waiters

section Runs

variable [Crates] [HashOrder] {g g' : GroupCommit}

theorem FillsUp.step (h : g.FillsUp) {a : GroupAction} (hs : g.Stepped a g') : g'.FillsUp := by
  cases hs with
  | write records config => exact ⟨h.batches, h.draining⟩
  | send i w record _ _ => exact ⟨h.batches, h.draining⟩
  | receive first rest _ _ =>
      refine ⟨h.batches, fun waiters hc => ?_⟩
      cases hc
      exact .first first
  | drain waiters item rest _ _ hroom =>
      refine ⟨h.batches, fun waiters' hc => ?_⟩
      cases hc
      exact .next hroom item
  | commit waiters space hc _ _ =>
      refine ⟨fun b hb => ?_, nofun⟩
      rcases List.mem_append.mp hb with hb | hb
      · exact h.batches b hb
      · rw [List.mem_singleton.mp hb]
        exact h.draining waiters hc
  | run b space _ => exact ⟨h.batches, h.draining⟩
  | finish waiters t r _ _ => exact ⟨h.batches, nofun⟩
  | reply w rest t r _ => exact ⟨h.batches, nofun⟩
  | rest t r _ => exact ⟨h.batches, nofun⟩

theorem Reached.fillsUp {ok : GroupTerms} {handle : Nat} {p : Namespace} (h : Reached ok handle p g) :
    g.FillsUp :=
  h.invariant (I := FillsUp) ⟨fun _ hb => absurd hb List.not_mem_nil, fun _ hc => Committer.noConfusion hc⟩ fun _ _ _ _ hg _ hs => hg.step (stepped hs)

/-- **The batch bound.** A record takes no more than it counts for just when it is covered; and the object
of a batch keeps within the bound, with every record accounted for, just when every record in it is. -/
theorem Reached.batchBounded_iff {handle : Nat} {p : Namespace} (hp : Reaches freeTerms p)
    (h : Reached (terms freeTerms) handle p g) :
    (∀ r : Record, r.framedLen ≤ r.encodedLen ↔ r.Covered) ∧
      ∀ c ∈ g.space.shared.commits, ∀ waiters, (c.thread, waiters) ∈ g.batches →
        g.space.shared.HasRecords (.wal c.entry.name) c.batch ∧
          (BatchBounded (waiters.map (·.record)) c.batch ↔ ∀ r ∈ c.batch, r.Covered) := by
  refine ⟨Record.framedLen_le_iff, fun c hc waiters hb => ?_⟩
  have hauthored := (h.space hp).authored
  have habsorbed := h.tidy.absorbed hauthored hc hb
  refine ⟨hauthored.stored c hc, fun hbounded => (accounted_iff habsorbed).mp hbounded.accounted,
    fun hcovered => ⟨fun last hlast => ?_, (accounted_iff habsorbed).mpr hcovered⟩⟩
  exact (h.fillsUp.batches _ hb).total habsorbed hcovered hlast

end Runs

/-- A record with one text. -/
def texted (n : UInt64) (text : String) : Record :=
  .upsert ⟨.uint n, [], SortedMap.empty.insert "text" (.string text)⟩

/-- Two records with texts share a batch. -/
def textedRun (text : String) : List GroupAction :=
  [.write [texted 1 text, texted 2 text] {}, .send 0, .send 0] ++ commits 2 6 0

/-- Both are in the one commit, as they were sent. -/
theorem textedRun_commits (text : String) :
    let _ := Crates.inert
    let _ := HashOrder.sorted
    ∃ g, execute step (start 0 ⟨{}, []⟩) (textedRun text) = some g ∧ ∃ c waiters,
      g.space.shared.commits = [c] ∧ g.batches = [(c.thread, waiters)] ∧
        waiters.map (·.record) = [texted 1 text, texted 2 text] ∧
        c.batch = [texted 1 text, texted 2 text] :=
  ⟨_, rfl, _, _, rfl, rfl, rfl, rfl⟩

/-- Short texts are covered. -/
theorem textedRun_batchBounded :
    let _ := Crates.inert
    let _ := HashOrder.sorted
    ∃ g, execute step (start 0 ⟨{}, []⟩) (textedRun "a") = some g ∧
      (∀ r : Record, r.framedLen ≤ r.encodedLen ↔ r.Covered) ∧
        ∀ c ∈ g.space.shared.commits, ∀ waiters, (c.thread, waiters) ∈ g.batches →
          g.space.shared.HasRecords (.wal c.entry.name) c.batch ∧
            (BatchBounded (waiters.map (·.record)) c.batch ↔ ∀ r ∈ c.batch, r.Covered) := by
  intro _ _
  obtain ⟨g, hg, -⟩ := textedRun_commits "a"
  have hreached : Reached (terms freeTerms) 0 ⟨{}, []⟩ g :=
    Reachable.init.execute (Allowed.of_forall terms_free _ _) hg
  exact ⟨g, hg, Reached.batchBounded_iff .init hreached⟩

theorem framedLen_texted (n : UInt64) (text : String) :
    (texted n text).framedLen = 31 + text.utf8ByteSize := by
  have hattrs : (putAttrs (SortedMap.empty.insert "text" (.string text))).length = 13 + text.utf8ByteSize := by
    have hvalue : (Value.string text).encode.length = 5 + text.utf8ByteSize := Value.length_encode _
    have hentries : (SortedMap.empty.insert "text" (Value.string text)).entries = [("text", .string text)] := rfl
    have hkey : "text".utf8ByteSize = 4 := rfl
    rw [length_putAttrs, hentries, List.map_singleton, List.sum_singleton, hvalue, hkey]
    omega
  rw [Record.framedLen, texted, Record.encode]
  simp only [length_frameOne, List.length_append, putU8, leBytes_length, Id.length_encode, Id.width,
    List.flatMap_nil, List.length_nil, hattrs]
  omega

/-- A text of `MAX_BATCH_BYTES`. -/
def wideText : String := String.ofList (List.replicate maxBatchBytes 'a')

/-- **Texts are not accounted for**: two records of eight megabytes each are one batch. -/
theorem textedRun_not_batchBounded :
    let _ := Crates.inert
    let _ := HashOrder.sorted
    ∃ g, Reached (terms freeTerms) 0 ⟨{}, []⟩ g ∧ ∃ c ∈ g.space.shared.commits, ∃ waiters,
      (c.thread, waiters) ∈ g.batches ∧ ¬ BatchBounded (waiters.map (·.record)) c.batch ∧
        maxBatchBytes + (texted 2 wideText).framedLen < (frameRecords c.batch).length := by
  intro _ _
  obtain ⟨g, hg, c, waiters, hcommits, hbatches, -, hbatch⟩ := textedRun_commits wideText
  have hreached : Reached (terms freeTerms) 0 ⟨{}, []⟩ g :=
    Reachable.init.execute (Allowed.of_forall terms_free _ _) hg
  have hwide : wideText.utf8ByteSize = maxBatchBytes := utf8ByteSize_replicate _
  have hover : maxBatchBytes + (texted 2 wideText).framedLen < (frameRecords c.batch).length := by
    rw [hbatch, length_frameRecords, List.map_cons, List.map_singleton, List.sum_cons, List.sum_singleton,
      framedLen_texted, framedLen_texted, hwide]
    omega
  refine ⟨g, hreached, c, by rw [hcommits]; exact List.mem_cons_self, waiters,
    by rw [hbatches]; exact List.mem_cons_self, fun hbounded => ?_, hover⟩
  have htotal := hbounded.total (texted 2 wideText) (by rw [hbatch]; rfl)
  omega

end GroupCommit

end Fckdb
