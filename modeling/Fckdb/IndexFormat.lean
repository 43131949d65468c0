import Fckdb.AttrIndex
import Fckdb.RecordCodec
import Fckdb.Sparse

/-! # The index formats

The three kinds of index are written as nested length-prefixed fields. An index whose counts fit 32
bits is read back (`IndexRead`), a buffer that stops anywhere before its end is refused, and no buffer
makes the attribute format read out of range although it reads its integers unchecked. -/

namespace Fckdb

/-! ## Fields -/

/-- A `u32` counted list. -/
def putMany {α : Type} (enc : α → Bytes) (as : List α) : Bytes :=
  leBytes 4 as.length ++ as.flatMap enc

/-- Every number of the list is a `u32`. -/
def AllU32 (ns : List Nat) : Prop := ∀ n ∈ ns, n < 2 ^ 32

theorem le4_parses {ε : Type} (trunc : Nat → Nat → Nat → ε) {n : Nat} (h : n < 2 ^ 32) :
    (Reader.le trunc 4).Parses (leBytes 4 n) n :=
  Reader.Parses.le trunc (by simpa using h)

theorem u32s_parses {ε : Type} (trunc : Nat → Nat → Nat → ε) {ns : List Nat} (h : AllU32 ns) :
    (Reader.times ns.length (Reader.le trunc 4)).Parses (ns.flatMap (leBytes 4)) ns :=
  .times _ ns fun n hn => le4_parses trunc (h n hn)

/-- A counted list. -/
def readMany {α : Type} (trunc : Nat → Nat → Nat → Error) (r : Reader Error α) : Reader Error (List α) :=
  (Reader.le trunc 4).bind fun n => .times n r

/-- A counted list is read back. -/
theorem many_parses (trunc : Nat → Nat → Nat → Error) {α : Type} {r : Reader Error α}
    {enc : α → Bytes} {as : List α} (hlen : as.length < 2 ^ 32)
    (h : ∀ a ∈ as, r.Parses (enc a) a) : (readMany trunc r).Parses (putMany enc as) as :=
  (le4_parses trunc hlen).bind (.times enc as h)

/-- A little-endian `f32`. -/
def getF32 (trunc : Nat → Nat → Nat → Error) : Reader Error F32 :=
  (Reader.le trunc 4).bind fun n => .pure ⟨UInt32.ofNat n⟩

theorem getF32_parses (trunc : Nat → Nat → Nat → Error) (f : F32) :
    (getF32 trunc).Parses (putF32 f) f := by
  have h := (le4_parses trunc (f.bits.toNat_lt)).map fun n => (⟨UInt32.ofNat n⟩ : F32)
  rwa [UInt32.ofNat_toNat] at h

/-- A counted string. -/
def readStr (trunc : Nat → Nat → Nat → Error) : Reader Error String :=
  (Reader.le trunc 4).bind (readString trunc)

theorem readStr_parses (trunc : Nat → Nat → Nat → Error) {s : String}
    (h : s.utf8ByteSize < 2 ^ 32) : (readStr trunc).Parses (putStr s) s :=
  (le4_parses trunc h).bind (readString_parses trunc rfl)

/-! ## Attribute indexes -/

/-- What stops a read: an error, or an index out of range. -/
inductive Fault
  | error (e : Error)
  | outOfRange
  deriving DecidableEq

/-- An error, and not an index out of range. -/
def Fault.IsError (f : Fault) : Prop := f ≠ .outOfRange

/-- `buf[pos..pos + n]`. -/
def sliceFault (_ _ _ : Nat) : Fault := .outOfRange

namespace AttrIndex

/-- One value with its ordinals. -/
def encodeEntry (e : Value × List Nat) : Bytes := e.1.encode ++ putMany (leBytes 4) e.2

/-- `AttrIndex::encode`. -/
def encode (x : AttrIndex) : Bytes := putU8 x.multiValued.toNat ++ putMany encodeEntry x.entries

/-- The error of `need`. -/
def truncated (pos : Nat) : Fault :=
  .error (.bail ("truncated attribute index at " ++ toString pos))

/-- One entry: the ordinals are read unchecked, after a check for all of them. -/
def decodeEntry : Reader Fault (Value × List Nat) :=
  (Value.decode.mapError .error).bind fun value =>
    .guarded truncated 4 <| (Reader.le sliceFault 4).bind fun n =>
      .guarded truncated (n * 4) <| (Reader.times n (Reader.le sliceFault 4)).bind fun ords =>
        .pure (value, ords)

/-- `AttrIndex::decode`, from a position. -/
def reader : Reader Fault AttrIndex :=
  .guarded truncated 5 <| (Reader.le sliceFault 1).bind fun multi =>
    (Reader.le sliceFault 4).bind fun count => (Reader.times count decodeEntry).bind fun entries =>
      .pure ⟨entries, multi ≠ 0⟩

/-- `AttrIndex::decode`. -/
def decode (buf : Bytes) : Except Fault AttrIndex := (reader buf 0).map (·.1)

/-- Counts and lengths are below `2 ^ 32`, and ordinals are `u32`s. -/
def LengthsFit (x : AttrIndex) : Prop :=
  x.entries.length < 2 ^ 32 ∧
    ∀ e ∈ x.entries, e.1.LengthsFit ∧ e.2.length < 2 ^ 32 ∧ AllU32 e.2

theorem length_flatMap_le4 (ns : List Nat) : (ns.flatMap (leBytes 4)).length = ns.length * 4 := by
  induction ns with
  | nil => rfl
  | cons n ns ih =>
      rw [List.flatMap_cons, List.length_append, ih, leBytes_length, List.length_cons]
      omega

theorem decodeEntry_parses {e : Value × List Nat} (hv : e.1.LengthsFit) (hlen : e.2.length < 2 ^ 32)
    (hords : AllU32 e.2) : decodeEntry.Parses (encodeEntry e) e := by
  refine ((Value.decode_parses hv).mapError _).bind (.guarded _ ?_ ?_)
  · refine (le4_parses sliceFault hlen).bind (.guarded _ ?_ ?_)
    · exact (u32s_parses sliceFault hords).map fun ords => (e.1, ords)
    · exact (length_flatMap_le4 e.2).ge
  · rw [putMany, List.length_append, leBytes_length]
    exact Nat.le_add_right 4 _

/-- **An attribute index is read back**, and none of its truncations is. -/
theorem reader_parses {x : AttrIndex} (h : x.LengthsFit) : reader.Parses x.encode x := by
  have hcount : (Reader.le sliceFault 4).bind (fun count => (Reader.times count decodeEntry).bind
      fun entries => Reader.pure (⟨entries, x.multiValued⟩ : AttrIndex)) |>.Parses
        (putMany encodeEntry x.entries) x :=
    (le4_parses sliceFault h.1).bind ((Reader.Parses.times encodeEntry x.entries fun e he =>
      decodeEntry_parses (h.2 e he).1 (h.2 e he).2.1 (h.2 e he).2.2).map fun entries =>
        (⟨entries, x.multiValued⟩ : AttrIndex))
  have hmulti : (Reader.le sliceFault 1).Parses (putU8 x.multiValued.toNat) x.multiValued.toNat :=
    .le sliceFault (by cases x.multiValued <;> decide)
  have hflag : decide (x.multiValued.toNat ≠ 0) = x.multiValued := by cases x.multiValued <;> rfl
  refine .guarded _ (hmulti.bind ?_) ?_
  · rw [hflag]
    exact hcount
  · rw [encode, List.length_append, putU8, putMany, List.length_append, leBytes_length,
      leBytes_length]
    omega

end AttrIndex

/-! ## No read out of range -/

/-- A read stays inside the buffer. -/
abbrev Inside {ε α : Type} (r : Reader ε α) : Prop := r.Safe (fun _ => True) 0

theorem readString_inside (trunc : Nat → Nat → Nat → Error) (n : Nat) :
    Inside (readString trunc n) := by
  refine (Reader.Safe.take (fun _ _ _ => trivial) n).bind fun bs => ?_
  split
  · exact .pure _
  · exact .fail fun _ => trivial

theorem getStr_inside : Inside getStr :=
  (Reader.Safe.le (fun _ _ _ => trivial) 4).bind (readString_inside _)

theorem getU64_inside (trunc : Nat → Nat → Nat → Error) : Inside (getU64 trunc) :=
  (Reader.Safe.le (fun _ _ _ => trivial) 8).bind fun _ => .pure _

theorem readUuid_inside (trunc : Nat → Nat → Nat → Error) : Inside (readUuid trunc) := by
  refine (Reader.Safe.take (fun _ _ _ => trivial) 16).bind fun bs => ?_
  split_ifs
  · exact .pure _
  · exact .fail fun _ => trivial

theorem Value.getMany_inside {α : Type} {r : Reader Error α} (h : Inside r) :
    Inside (Value.getMany r) :=
  (Reader.Safe.le (fun _ _ _ => trivial) 4).bind h.times

theorem Value.getWeight_inside : Inside Value.getWeight :=
  getStr_inside.bind fun _ => (Reader.Safe.le (fun _ _ _ => trivial) 4).bind fun _ => .pure _

theorem Value.decode_inside : Inside Value.decode := by
  refine (Reader.Safe.le (fun _ _ _ => trivial) 1).bind fun tag => ?_
  rw [Value.decodeBody.eq_def]
  split
  · exact .pure _
  · exact (Reader.Safe.le (fun _ _ _ => trivial) 1).bind fun _ => .pure _
  · exact (getU64_inside _).bind fun _ => .pure _
  · exact (getU64_inside _).bind fun _ => .pure _
  · exact (getU64_inside _).bind fun _ => .pure _
  · exact getStr_inside.bind fun _ => .pure _
  · exact (getU64_inside _).bind fun _ => .pure _
  · exact (readUuid_inside _).bind fun _ => .pure _
  · exact (Value.getMany_inside getStr_inside).bind fun _ => .pure _
  · exact (Value.getMany_inside (getU64_inside _)).bind fun _ => .pure _
  · exact (Value.getMany_inside (getU64_inside _)).bind fun _ => .pure _
  · exact (Value.getMany_inside Value.getWeight_inside).bind fun _ => .pure _
  · exact .fail fun _ => trivial

namespace AttrIndex

theorem isError_truncated (pos : Nat) : (truncated pos).IsError := Fault.noConfusion

/-- The unchecked integers of an entry are there. -/
theorem decodeEntry_safe : decodeEntry.Safe Fault.IsError 0 := by
  refine (Value.decode_inside.mapError fun _ => Fault.noConfusion).bind fun value => ?_
  refine .guarded isError_truncated (.of_reads (Reader.reads_le sliceFault 4) fun n => ?_)
  exact .guarded isError_truncated
    (.of_reads ((Reader.reads_le sliceFault 4).times n) fun ords => .pure _)

theorem reader_safe : reader.Safe Fault.IsError 0 := by
  refine .guarded isError_truncated
    (.reads_bind (n := 4) (Reader.reads_le sliceFault 1) fun multi => ?_)
  refine .of_reads (Reader.reads_le sliceFault 4) fun count => ?_
  exact (decodeEntry_safe.times count).bind fun entries => .pure _

/-- **No buffer makes the attribute index read out of range.** -/
theorem decode_ne_outOfRange (buf : Bytes) : decode buf ≠ .error .outOfRange := by
  intro h
  rw [decode] at h
  cases hr : reader buf 0 with
  | ok x =>
      rw [hr] at h
      cases h
  | error e =>
      rw [hr] at h
      cases h
      exact reader_safe.error buf 0 _ (Nat.zero_le _) hr rfl

end AttrIndex

/-! ## Full-text indexes -/

/-- A language as it is serialized. -/
def Language.name : Language → String
  | .english => "english"
  | .french => "french"
  | .german => "german"
  | .spanish => "spanish"
  | .italian => "italian"
  | .portuguese => "portuguese"
  | .dutch => "dutch"
  | .swedish => "swedish"
  | .norwegian => "norwegian"
  | .danish => "danish"
  | .russian => "russian"
  | .indonesian => "indonesian"

/-- `serde_json::to_vec` of the settings. -/
def Tokenizer.toVec (t : Tokenizer) : Bytes :=
  utf8 ("\x7b\"language\":\"" ++ t.language.name ++ "\",\"stemming\":" ++ toString t.stemming ++
    ",\"remove_stopwords\":" ++ toString t.removeStopwords ++
    ",\"ascii_folding\":" ++ toString t.asciiFolding ++
    ",\"case_sensitive\":" ++ toString t.caseSensitive ++
    ",\"max_token_length\":" ++ toString t.maxTokenLength ++ "\x7d")

/-- `serde_json` on the tokenizer settings. -/
structure SettingsJson where
  toVec : Tokenizer → Except Error Bytes
  fromSlice : Bytes → Except Error Tokenizer

/-- What is written is read back as the settings. -/
def SettingsJson.RoundTrips (json : SettingsJson) (t : Tokenizer) : Prop :=
  ∃ bs, json.toVec t = .ok bs ∧ json.fromSlice bs = .ok t

namespace FtsIndex

/-- The error of `take`. -/
def truncated (n pos len : Nat) : Error :=
  .bail ("truncated full-text index: want " ++ toString n ++ " bytes at " ++ toString pos ++
    ", have " ++ toString len)

/-- One document's occurrences. -/
def encodePosting (p : Posting) : Bytes := leBytes 4 p.ordinal ++ putMany (leBytes 4) p.positions

/-- One term with its postings. -/
def encodeTerm (t : String × List Posting) : Bytes := putStr t.1 ++ putMany encodePosting t.2

/-- The bytes of an index whose settings are written as `cfg`. -/
def encodeWith (cfg : Bytes) (x : FtsIndex) : Bytes :=
  putF32 x.avgdl ++ (putF32 x.params.k1 ++ (putF32 x.params.b ++
    ((leBytes 4 cfg.length ++ cfg) ++ (putMany (leBytes 4) x.docLengths ++
      putMany encodeTerm x.terms))))

/-- `FtsIndex::encode`; settings that do not serialize are written as nothing. -/
def encode (json : SettingsJson) (x : FtsIndex) : Bytes :=
  x.encodeWith ((json.toVec x.tokenizer).toOption.getD [])

/-- One document's occurrences. -/
def decodePosting : Reader Error Posting :=
  (Reader.le truncated 4).bind fun ordinal =>
    (readMany truncated (Reader.le truncated 4)).bind fun positions => .pure ⟨ordinal, positions⟩

/-- One term with its postings. -/
def decodeTerm : Reader Error (String × List Posting) :=
  (readStr truncated).bind fun term => (readMany truncated decodePosting).bind fun postings =>
    .pure (term, postings)

/-- The settings. -/
def decodeSettings (json : SettingsJson) : Reader Error Tokenizer :=
  (Reader.le truncated 4).bind fun len => (Reader.take truncated len).bind fun cfg =>
    match json.fromSlice cfg with
    | .ok t => .pure t
    | .error e => .fail fun _ => e

/-- `FtsIndex::decode`, from a position. -/
def reader (json : SettingsJson) : Reader Error FtsIndex :=
  (getF32 truncated).bind fun avgdl => (getF32 truncated).bind fun k1 =>
    (getF32 truncated).bind fun b => (decodeSettings json).bind fun tokenizer =>
      (readMany truncated (Reader.le truncated 4)).bind fun docLengths =>
        (readMany truncated decodeTerm).bind fun terms =>
          .pure ⟨terms, docLengths, avgdl, tokenizer, ⟨k1, b⟩⟩

/-- `FtsIndex::decode`. -/
def decode (json : SettingsJson) (buf : Bytes) : Except Error FtsIndex :=
  (reader json buf 0).map (·.1)

/-- Counts and byte lengths are below `2 ^ 32`, and the numbers are `u32`s. -/
structure LengthsFit (json : SettingsJson) (x : FtsIndex) : Prop where
  settings : ∀ bs, json.toVec x.tokenizer = .ok bs → bs.length < 2 ^ 32
  docLengths : x.docLengths.length < 2 ^ 32 ∧ AllU32 x.docLengths
  terms : x.terms.length < 2 ^ 32
  term : ∀ t ∈ x.terms, t.1.utf8ByteSize < 2 ^ 32 ∧ t.2.length < 2 ^ 32
  posting : ∀ t ∈ x.terms, ∀ p ∈ t.2,
    p.ordinal < 2 ^ 32 ∧ p.positions.length < 2 ^ 32 ∧ AllU32 p.positions

theorem decodePosting_parses {p : Posting} (ho : p.ordinal < 2 ^ 32)
    (hlen : p.positions.length < 2 ^ 32) (hpos : AllU32 p.positions) :
    decodePosting.Parses (encodePosting p) p :=
  (le4_parses truncated ho).bind ((many_parses truncated hlen fun n hn =>
    le4_parses truncated (hpos n hn)).map fun positions => (⟨p.ordinal, positions⟩ : Posting))

theorem decodeSettings_parses {json : SettingsJson} {t : Tokenizer} (h : json.RoundTrips t)
    (hlen : ∀ bs, json.toVec t = .ok bs → bs.length < 2 ^ 32) :
    (decodeSettings json).Parses (leBytes 4 ((json.toVec t).toOption.getD []).length ++
      (json.toVec t).toOption.getD []) t := by
  obtain ⟨bs, hto, hfrom⟩ := h
  have hcfg : (json.toVec t).toOption.getD [] = bs := by rw [hto]; rfl
  rw [hcfg]
  exact (le4_parses truncated (hlen bs hto)).bind
    ((Reader.Parses.take truncated rfl).bind_of_eq (by rw [hfrom]))

/-- **A full-text index is read back**, and none of its truncations is. -/
theorem reader_parses {json : SettingsJson} {x : FtsIndex} (h : x.LengthsFit json)
    (hjson : json.RoundTrips x.tokenizer) : (reader json).Parses (x.encode json) x := by
  have hterm : ∀ t ∈ x.terms, decodeTerm.Parses (encodeTerm t) t := fun t ht =>
    (readStr_parses truncated (h.term t ht).1).bind ((many_parses truncated (h.term t ht).2
      fun p hp => decodePosting_parses (h.posting t ht p hp).1 (h.posting t ht p hp).2.1
        (h.posting t ht p hp).2.2).map fun postings => (t.1, postings))
  refine (getF32_parses truncated x.avgdl).bind ((getF32_parses truncated x.params.k1).bind
    ((getF32_parses truncated x.params.b).bind ((decodeSettings_parses hjson h.settings).bind ?_)))
  refine (many_parses truncated h.docLengths.1 fun n hn =>
    le4_parses truncated (h.docLengths.2 n hn)).bind ?_
  exact (many_parses truncated h.terms hterm).map fun terms =>
    (⟨terms, x.docLengths, x.avgdl, x.tokenizer, ⟨x.params.k1, x.params.b⟩⟩ : FtsIndex)

end FtsIndex

/-! ## Sparse indexes -/

namespace SparseIndex

/-- The error of `take`. -/
def truncated (n pos len : Nat) : Error :=
  .bail ("truncated sparse index: want " ++ toString n ++ " bytes at " ++ toString pos ++
    ", have " ++ toString len)

/-- One weight. -/
def encodeWeight (p : Nat × F32) : Bytes := leBytes 4 p.1 ++ putF32 p.2

/-- One dimension with its weights. -/
def encodeDim (d : String × List (Nat × F32)) : Bytes := putStr d.1 ++ putMany encodeWeight d.2

/-- `SparseIndex::encode`. -/
def encode (x : SparseIndex) : Bytes := leBytes 4 x.docCount ++ putMany encodeDim x.dims

/-- One weight. -/
def decodeWeight : Reader Error (Nat × F32) :=
  (Reader.le truncated 4).bind fun ordinal => (getF32 truncated).bind fun weight =>
    .pure (ordinal, weight)

/-- One dimension with its weights. -/
def decodeDim : Reader Error (String × List (Nat × F32)) :=
  (readStr truncated).bind fun dim =>
    (readMany truncated decodeWeight).bind fun postings => .pure (dim, postings)

/-- `SparseIndex::decode`, from a position. -/
def reader : Reader Error SparseIndex :=
  (Reader.le truncated 4).bind fun docCount =>
    (readMany truncated decodeDim).bind fun dims => .pure ⟨dims, docCount⟩

/-- `SparseIndex::decode`. -/
def decode (buf : Bytes) : Except Error SparseIndex := (reader buf 0).map (·.1)

/-- Counts and byte lengths are below `2 ^ 32`, and ordinals are `u32`s. -/
structure LengthsFit (x : SparseIndex) : Prop where
  docCount : x.docCount < 2 ^ 32
  dims : x.dims.length < 2 ^ 32
  dim : ∀ d ∈ x.dims, d.1.utf8ByteSize < 2 ^ 32 ∧ d.2.length < 2 ^ 32
  ordinal : ∀ d ∈ x.dims, ∀ p ∈ d.2, p.1 < 2 ^ 32

/-- **A sparse index is read back**, and none of its truncations is. -/
theorem reader_parses {x : SparseIndex} (h : x.LengthsFit) : reader.Parses x.encode x := by
  have hweight : ∀ p : Nat × F32, p.1 < 2 ^ 32 → decodeWeight.Parses (encodeWeight p) p :=
    fun p hp => (le4_parses truncated hp).bind
      ((getF32_parses truncated p.2).map fun weight => (p.1, weight))
  have hdim : ∀ d ∈ x.dims, decodeDim.Parses (encodeDim d) d := fun d hd =>
    (readStr_parses truncated (h.dim d hd).1).bind ((many_parses truncated (h.dim d hd).2
      fun p hp => hweight p (h.ordinal d hd p hp)).map fun postings => (d.1, postings))
  exact (le4_parses truncated h.docCount).bind ((many_parses truncated h.dims hdim).map
    fun dims => (⟨dims, x.docCount⟩ : SparseIndex))

end SparseIndex

/-! ## All three -/

/-- `bytes` decode to `a`, and none of their proper prefixes decodes: `fails` says of what is no
value that it is an error. -/
structure ReadBack {ε α : Type} (decode : Bytes → Except ε α) (fails : ε → Prop) (bytes : Bytes)
    (a : α) : Prop where
  whole : decode bytes = .ok a
  prefixes : ∀ p, p <+: bytes → p ≠ bytes → ∃ e, decode p = .error e ∧ fails e

theorem readBack_of_parses {ε α : Type} {r : Reader ε α} {decode : Bytes → Except ε α}
    (hdecode : ∀ buf, decode buf = (r buf 0).map (·.1)) {fails : ε → Prop}
    (hfails : ∀ buf e, decode buf = .error e → fails e) {bytes : Bytes} {a : α}
    (h : r.Parses bytes a) : ReadBack decode fails bytes a where
  whole := by rw [hdecode, h.run]; rfl
  prefixes p hp hne := by
    obtain ⟨e, he⟩ := h.run_truncated hp hne
    have herr : decode p = .error e := by rw [hdecode, he]; rfl
    exact ⟨e, herr, hfails p e herr⟩

/-- **The index formats**: an attribute, full-text or sparse index whose counts and byte lengths fit
32 bits is read back from its bytes, and every proper prefix of them is refused with an error. -/
theorem indexes_readBack (json : SettingsJson) :
    (∀ x : AttrIndex, x.LengthsFit → ReadBack AttrIndex.decode Fault.IsError x.encode x) ∧
    (∀ x : FtsIndex, x.LengthsFit json → json.RoundTrips x.tokenizer →
      ReadBack (FtsIndex.decode json) (fun _ => True) (x.encode json) x) ∧
    ∀ x : SparseIndex, x.LengthsFit →
      ReadBack SparseIndex.decode (fun _ => True) x.encode x := by
  refine ⟨fun x h => ?_, fun x h hjson => ?_, fun x h => ?_⟩
  · refine readBack_of_parses (fun _ => rfl) (fun buf e he => ?_) (AttrIndex.reader_parses h)
    rintro rfl
    exact AttrIndex.decode_ne_outOfRange buf he
  · exact readBack_of_parses (fun _ => rfl) (fun _ _ _ => trivial) (FtsIndex.reader_parses h hjson)
  · exact readBack_of_parses (fun _ => rfl) (fun _ _ _ => trivial) (SparseIndex.reader_parses h)

/-- The tokenizer settings at their defaults, as JSON. -/
def defaultSettings : Bytes :=
  utf8 ("\x7b\"language\":\"english\",\"stemming\":true,\"remove_stopwords\":true," ++
    "\"ascii_folding\":false,\"case_sensitive\":false,\"max_token_length\":39\x7d")

/-- `serde_json`, as far as the default settings go. -/
def SettingsJson.ofDefaults : SettingsJson where
  toVec _ := .ok defaultSettings
  fromSlice bs := if bs = defaultSettings then .ok {} else .error (.bail "expected value")

theorem SettingsJson.ofDefaults_roundTrips : ofDefaults.RoundTrips {} :=
  ⟨defaultSettings, rfl, by simp only [ofDefaults, if_true]⟩

/-- An index of each kind over two documents. -/
theorem small_indexes_readBack :
    ReadBack AttrIndex.decode Fault.IsError (AttrIndex.encode ⟨[(.uint 7, [0, 1])], false⟩)
      ⟨[(.uint 7, [0, 1])], false⟩ ∧
    ReadBack (FtsIndex.decode .ofDefaults) (fun _ => True)
      (FtsIndex.encode .ofDefaults ⟨[("fox", [⟨1, [0, 2]⟩])], [0, 3], ⟨0x3fc00000⟩, {}, {}⟩)
      ⟨[("fox", [⟨1, [0, 2]⟩])], [0, 3], ⟨0x3fc00000⟩, {}, {}⟩ ∧
    ReadBack SparseIndex.decode (fun _ => True)
      (SparseIndex.encode ⟨[("fur", [(0, ⟨0x3f800000⟩)])], 2⟩) ⟨[("fur", [(0, ⟨0x3f800000⟩)])], 2⟩ := by
  refine ⟨(indexes_readBack .ofDefaults).1 _ ?_, (indexes_readBack .ofDefaults).2.1 _ ?_ ?_,
    (indexes_readBack .ofDefaults).2.2 _ ?_⟩
  · simp [AttrIndex.LengthsFit, AllU32, Value.LengthsFit]
  · have hlen : defaultSettings.length < 2 ^ 32 := by
      rw [defaultSettings, utf8_length]
      decide +kernel
    refine ⟨fun bs h => Except.ok.inj h ▸ hlen, ?_, by decide, ?_, ?_⟩
    · simp [AllU32]
    · simp only [List.mem_singleton, forall_eq]
      decide +kernel
    · simp [AllU32]
  · exact SettingsJson.ofDefaults_roundTrips
  · refine ⟨by decide, by decide, ?_, ?_⟩
    · simp only [List.mem_singleton, forall_eq]
      decide +kernel
    · simp

end Fckdb
