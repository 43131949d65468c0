import Fckdb.RecordCodec
import Fckdb.Schema

/-! # What a commit writes, a read gives back

`commit_records` stores the frame of its coerced batch; `all_records` unframes and decodes it. The
two agree exactly on batches the 16-bit attribute fields and the 32-bit frame field can carry
(`readRecords_frameRecords_iff`) — which the commit path does not check. -/

namespace Fckdb

/-- The stored batch is read back, and no truncation of one of its records passes for a record. -/
def ReadsBack (path : String) (batch : List Record) : Prop :=
  readRecords path (frameRecords batch) = .ok batch ∧
    ∀ r ∈ batch, ∀ p, p <+: r.encode → p ≠ r.encode → ∃ e, Record.decode p = .error e

/-- Fewer than `2 ^ 16` attributes under keys of fewer than `2 ^ 16` bytes in each record, and fewer
than `2 ^ 32` bytes to each encoded record. -/
def Representable (batch : List Record) : Prop :=
  ∀ r ∈ batch, r.Narrow ∧ r.encode.length < 2 ^ 32

/-- Decoding one frame of the object at `path`. -/
def decodeFrame (path : String) (b : Bytes) : Except Error Record :=
  match Record.decode b with
  | .ok r => .ok r
  | .error e => .error (.kinded .internal ("decoding a record from " ++ path ++ ": " ++ e.display))

theorem decodeFrame_eq_ok {path : String} {b : Bytes} {r : Record} :
    decodeFrame path b = .ok r ↔ Record.decode b = .ok r := by
  unfold decodeFrame
  cases Record.decode b <;> simp

/-- A successful read is a successful unframing whose frames all decode. -/
theorem readRecords_eq_ok {path : String} {blob : Bytes} {batch : List Record} :
    readRecords path blob = .ok batch ↔
      ∃ frames, unframe blob = .ok frames ∧ collect (frames.map (decodeFrame path)) = .ok batch := by
  unfold readRecords
  cases unframe blob with
  | error e => simp
  | ok frames => simp only [Except.ok.injEq, exists_eq_left']; rfl

/-- A representable batch is read back. -/
theorem readRecords_frameRecords (path : String) {batch : List Record}
    (hl : ∀ r ∈ batch, r.LengthsFit) (hr : Representable batch) :
    readRecords path (frameRecords batch) = .ok batch := by
  refine readRecords_eq_ok.mpr ⟨batch.map Record.encode, ?_, ?_⟩
  · refine unframeFrom_frame _ rfl fun e he => ?_
    obtain ⟨r, hmem, rfl⟩ := List.mem_map.mp he
    exact (hr r hmem).2
  · exact collect_map_ok fun r hmem =>
      decodeFrame_eq_ok.mpr (Record.decode_encode (hl r hmem) (hr r hmem).1)

/-- Everything that is read is narrow. -/
theorem narrow_of_collect {path : String} {frames : List Bytes} {batch : List Record}
    (h : collect (frames.map (decodeFrame path)) = .ok batch) : ∀ r ∈ batch, r.Narrow := by
  induction frames generalizing batch with
  | nil =>
      obtain rfl := Except.ok.inj h
      simp
  | cons b bs ih =>
      cases batch with
      | nil => simp
      | cons r rs =>
          obtain ⟨hb, hbs⟩ := collect_eq_ok_cons h
          intro x hx
          rcases List.mem_cons.mp hx with rfl | hx
          · exact Record.narrow_of_decode (decodeFrame_eq_ok.mp hb)
          · exact ih hbs x hx

/-- The length field keeps the length modulo `2 ^ 32`. -/
theorem leBytes_mod (k n : Nat) : leBytes k (n % 256 ^ k) = leBytes k n := by
  induction k generalizing n with
  | zero => rfl
  | succ k ih =>
      have hb : UInt8.ofNat (n % 256 ^ (k + 1)) = UInt8.ofNat n := by
        rw [← UInt8.toNat_inj]
        simp only [UInt8.toNat_ofNat']
        rw [Nat.pow_succ', Nat.mod_mul_right_mod]
      rw [leBytes, leBytes, hb, Nat.pow_succ', Nat.mod_mul_right_div_self, ih]

/-- If the frames at a position decode to the very records framed there, no record overflows its
length field: the first that does would come back cut short, and a cut record does not decode. -/
theorem length_lt_of_collect {path : String} {blob : Bytes} {batch : List Record}
    (hl : ∀ r ∈ batch, r.LengthsFit) (hn : ∀ r ∈ batch, r.Narrow) (pos : Nat)
    (hpos : blob.drop pos = frame (batch.map Record.encode)) {frames : List Bytes}
    (hu : unframeFrom blob pos = .ok frames)
    (hc : collect (frames.map (decodeFrame path)) = .ok batch) :
    ∀ r ∈ batch, r.encode.length < 2 ^ 32 := by
  induction batch generalizing pos frames with
  | nil => simp
  | cons r rs ih =>
      have hn256 : r.encode.length % 2 ^ 32 < 2 ^ 32 := Nat.mod_lt _ (by decide)
      have hdrop : blob.drop pos = leBytes 4 (r.encode.length % 2 ^ 32) ++
          (r.encode.take (r.encode.length % 2 ^ 32) ++
            (r.encode.drop (r.encode.length % 2 ^ 32) ++ frame (rs.map Record.encode))) := by
        rw [← List.append_assoc (r.encode.take _), List.take_append_drop, hpos, List.map_cons, frame,
          List.flatMap_cons, frameOne, List.append_assoc, ← leBytes_mod 4 r.encode.length]
        rfl
      rw [unframeFrom_step hn256 hdrop (List.length_take_of_le (Nat.mod_le _ _))] at hu
      split at hu
      · next out hout =>
        obtain rfl := Except.ok.inj hu
        obtain ⟨hr, hrs⟩ := collect_eq_ok_cons hc
        have hfit : r.encode.length < 2 ^ 32 := by
          by_contra hbig
          have hcut : r.encode.take (r.encode.length % 2 ^ 32) ≠ r.encode := by
            intro h
            have := congrArg List.length h
            rw [List.length_take] at this
            omega
          obtain ⟨e, he⟩ := Record.decode_truncated (hl r List.mem_cons_self)
            (hn r List.mem_cons_self) (List.take_prefix _ _) hcut
          rw [decodeFrame_eq_ok, he] at hr
          cases hr
        rw [Nat.mod_eq_of_lt hfit] at hdrop hout
        have hnext : blob.drop (pos + 4 + r.encode.length) = frame (rs.map Record.encode) := by
          rw [Nat.add_assoc, ← List.drop_drop, hdrop, ← List.append_assoc, List.drop_left' (by simp)]
          simp
        intro x hx
        rcases List.mem_cons.mp hx with rfl | hx
        · exact hfit
        · exact ih (fun y hy => hl y (List.mem_cons_of_mem _ hy))
            (fun y hy => hn y (List.mem_cons_of_mem _ hy)) _ hnext hout hrs x hx
      · cases hu

/-- A batch that reads back is representable. -/
theorem representable_of_readRecords {path : String} {batch : List Record}
    (hl : ∀ r ∈ batch, r.LengthsFit) (h : readRecords path (frameRecords batch) = .ok batch) :
    Representable batch := by
  obtain ⟨frames, hu, hc⟩ := readRecords_eq_ok.mp h
  have hn := narrow_of_collect hc
  exact fun r hr => ⟨hn r hr, length_lt_of_collect hl hn 0 rfl hu hc r hr⟩

/-- **The stored bytes carry the batch exactly when it is representable**: what is read is the batch
that was committed, and its truncated records are refused, if and only if every record has fewer than
`2 ^ 16` attributes, each key is shorter than `2 ^ 16` bytes, and each record's encoding is shorter
than `2 ^ 32` bytes. -/
theorem readsBack_iff_representable (path : String) (batch : List Record)
    (hl : ∀ r ∈ batch, r.LengthsFit) : ReadsBack path batch ↔ Representable batch :=
  ⟨fun h => representable_of_readRecords hl h.1, fun h =>
    ⟨readRecords_frameRecords path hl h, fun r hr _ hp hne =>
      Record.decode_truncated (hl r hr) (h r hr).1 hp hne⟩⟩

/-- A patch that writes one attribute and removes another. -/
def renamePatch : Record :=
  .patch (.string "doc") (.ofList [("old", .null), ("tags", .stringArray ["a", "b"])])

/-- The equivalence at a small patch, which is representable. -/
theorem renamePatch_readsBack : ReadsBack "wal/0" [renamePatch] ↔ Representable [renamePatch] := by
  refine readsBack_iff_representable "wal/0" [renamePatch] ?_
  intro r hr
  obtain rfl := List.mem_singleton.mp hr
  refine ⟨show "doc".utf8ByteSize < 2 ^ 32 by decide, fun v hv => ?_, fun d hd => by cases hd⟩
  have hv : v ∈ [Value.null, .stringArray ["a", "b"]] := hv
  simp only [List.mem_cons, List.not_mem_nil, or_false] at hv
  rcases hv with rfl | rfl
  · trivial
  · exact ⟨by decide, by decide⟩

/-- A key one byte too long for its 16-bit length field. -/
def longKey : String := String.ofList (List.replicate (2 ^ 16) 'a')

/-- A document whose one attribute has the long key. -/
def longKeyed : Record := .upsert ⟨.uint 1, [Scalar.one], ⟨[(longKey, .bool true)], by simp⟩⟩

theorem utf8ByteSize_replicate (n : Nat) :
    (String.ofList (List.replicate n 'a')).utf8ByteSize = n := by
  induction n with
  | zero => rfl
  | succ n ih =>
      rw [List.replicate_succ, ← List.singleton_append, String.ofList_append,
        String.utf8ByteSize_append, ih, Nat.add_comm]
      rfl

/-- **The long key is accepted and lost**: the first batch of a namespace may hold it, every length
in it is far below `2 ^ 32`, and the stored object does not read back. -/
theorem longKeyed_not_readsBack :
    (∃ schema, @Schema.absorb Crates.inert {} [longKeyed] = .ok (schema, [longKeyed])) ∧
    longKeyed.LengthsFit ∧ ¬ ReadsBack "wal/0" [longKeyed] := by
  have hl : longKeyed.LengthsFit := by
    refine ⟨trivial, fun v hv => ?_, fun d hd => ?_⟩
    · obtain rfl := List.mem_singleton.mp (show v ∈ [Value.bool true] from hv)
      trivial
    · obtain rfl := Record.upsert.inj hd
      exact (by decide : 1 < 2 ^ 32)
  refine ⟨⟨_, rfl⟩, hl, fun h => ?_⟩
  have hrep := representable_of_readRecords (fun r hr => List.mem_singleton.mp hr ▸ hl) h.1
  have hkey := (hrep longKeyed List.mem_cons_self).1.2 longKey List.mem_cons_self
  have hsize : longKey.utf8ByteSize = 2 ^ 16 := utf8ByteSize_replicate _
  omega

end Fckdb
