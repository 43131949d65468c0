import Fckdb.Live
import Fckdb.Lib.Codec

/-! # The record codec and framing

Every data object is a frame of records. A record is a tag, an id and, for an upsert or a patch, the
vector and the attributes; lengths are written in fixed widths, most of them 32 bits, those of
attribute maps and their keys 16. -/

namespace Fckdb

/-! ## Strings as bytes -/

/-- `s.as_bytes()`. -/
def utf8 (s : String) : Bytes := s.toByteArray.data.toList

/-- `String::from_utf8`. -/
def ofUtf8 (bs : Bytes) : Option String := String.fromUTF8? ⟨bs.toArray⟩

@[simp] theorem utf8_length (s : String) : (utf8 s).length = s.utf8ByteSize := by
  show s.toByteArray.data.toList.length = s.toByteArray.size
  rw [Array.length_toList]
  rfl

@[simp] theorem ofUtf8_utf8 (s : String) : ofUtf8 (utf8 s) = some s := by
  have h : (⟨(utf8 s).toArray⟩ : ByteArray) = s.toByteArray := by simp [utf8]
  rw [ofUtf8, h, String.fromUTF8?, dif_pos s.isValidUTF8]
  rfl

theorem utf8_of_ofUtf8 {bs : Bytes} {s : String} (h : ofUtf8 bs = some s) : utf8 s = bs := by
  rw [ofUtf8, String.fromUTF8?] at h
  split_ifs at h with hv
  obtain rfl := Option.some.inj h
  simp [utf8, String.fromUTF8]

/-! ## Readers -/

/-- The truncation error of `value::take`. -/
def truncatedValue (n pos len : Nat) : Error :=
  .bail ("truncated value: want " ++ toString n ++ " bytes at " ++ toString pos ++ ", have " ++
    toString len)

/-- The truncation error of `doc::take`. -/
def truncatedRecord (n pos len : Nat) : Error :=
  .bail ("truncated record: want " ++ toString n ++ " bytes at " ++ toString pos ++ ", have " ++
    toString len)

/-- A string of `n` bytes. -/
def readString (trunc : Nat → Nat → Nat → Error) (n : Nat) : Reader Error String :=
  (Reader.take trunc n).bind fun bs =>
    match ofUtf8 bs with
    | some s => .pure s
    | none => .fail fun _ => .bail "invalid utf-8 sequence"

theorem readString_parses (trunc : Nat → Nat → Nat → Error) {n : Nat} {s : String}
    (h : s.utf8ByteSize = n) : (readString trunc n).Parses (utf8 s) s := by
  have hlen : (utf8 s).length = n := by rw [utf8_length, h]
  exact (Reader.Parses.take trunc hlen).bind_of_eq (by rw [ofUtf8_utf8])

theorem utf8ByteSize_of_readString {trunc : Nat → Nat → Nat → Error} {n : Nat} {buf : Bytes}
    {pos p : Nat} {s : String} (h : readString trunc n buf pos = .ok (s, p)) :
    s.utf8ByteSize = n := by
  obtain ⟨bs, p', hb, h⟩ := Reader.bind_eq_ok.mp h
  cases hs : ofUtf8 bs with
  | none =>
      rw [hs] at h
      cases h
  | some s' =>
      rw [hs] at h
      obtain ⟨rfl, -⟩ := Prod.mk.inj (Except.ok.inj h)
      rw [← utf8_length, utf8_of_ofUtf8 hs, Reader.length_of_take hb]

/-- Sixteen bytes. -/
def readUuid (trunc : Nat → Nat → Nat → Error) : Reader Error Uuid :=
  (Reader.take trunc 16).bind fun bs =>
    if h : bs.length = 16 then .pure ⟨bs, h⟩ else .fail fun _ => .bail ""

theorem readUuid_parses (trunc : Nat → Nat → Nat → Error) (u : Uuid) :
    (readUuid trunc).Parses u.bytes u :=
  (Reader.Parses.take trunc u.length_eq).bind_of_eq (by rw [dif_pos u.length_eq])

/-- Consecutive little-endian `f32`s. -/
def f32sOf : Bytes → List F32
  | b₀ :: b₁ :: b₂ :: b₃ :: rest => ⟨UInt32.ofNat (leVal [b₀, b₁, b₂, b₃])⟩ :: f32sOf rest
  | _ => []

/-- `put_f32_le`. -/
def putF32 (f : F32) : Bytes := leBytes 4 f.bits.toNat

theorem f32sOf_flatMap (fs : List F32) : f32sOf (fs.flatMap putF32) = fs := by
  induction fs with
  | nil => rfl
  | cons f fs ih =>
      have hval : leVal (leBytes 4 f.bits.toNat) = f.bits.toNat :=
        leVal_leBytes_of_lt (f.bits.toNat_lt.trans_le (by decide))
      rw [List.flatMap_cons, putF32]
      simp only [leBytes] at hval ⊢
      simp only [List.cons_append, List.nil_append, f32sOf, ih, hval]
      simp

/-! ## Values -/

/-- `put_str`. -/
def putStr (s : String) : Bytes := leBytes 4 s.utf8ByteSize ++ utf8 s

/-- `get_str`. -/
def getStr : Reader Error String :=
  (Reader.le truncatedValue 4).bind (readString truncatedValue)

theorem getStr_parses {s : String} (h : s.utf8ByteSize < 2 ^ 32) : getStr.Parses (putStr s) s :=
  (Reader.Parses.le truncatedValue (by simpa using h)).bind (readString_parses truncatedValue rfl)

@[match_pattern] abbrev tNull : Nat := 0
@[match_pattern] abbrev tBool : Nat := 1
@[match_pattern] abbrev tUint : Nat := 2
@[match_pattern] abbrev tInt : Nat := 3
@[match_pattern] abbrev tF64 : Nat := 4
@[match_pattern] abbrev tString : Nat := 5
@[match_pattern] abbrev tDatetime : Nat := 6
@[match_pattern] abbrev tUuid : Nat := 7
@[match_pattern] abbrev tStringArray : Nat := 8
@[match_pattern] abbrev tUintArray : Nat := 9
@[match_pattern] abbrev tIntArray : Nat := 10
@[match_pattern] abbrev tSparse : Nat := 11

/-- `put_u8`. -/
def putU8 (n : Nat) : Bytes := leBytes 1 n

/-- `put_u64_le`. -/
def putU64 (n : UInt64) : Bytes := leBytes 8 n.toNat

/-- A little-endian `u64`. -/
def getU64 (trunc : Nat → Nat → Nat → Error) : Reader Error UInt64 :=
  (Reader.le trunc 8).bind fun n => .pure (UInt64.ofNat n)

theorem getU64_parses (trunc : Nat → Nat → Nat → Error) (n : UInt64) :
    (getU64 trunc).Parses (putU64 n) n := by
  have := (Reader.Parses.le trunc (k := 8) (n := n.toNat)
    (n.toNat_lt.trans_le (by decide))).map UInt64.ofNat
  rwa [UInt64.ofNat_toNat] at this

namespace Value

/-- `Value::encode`. -/
def encode : Value → Bytes
  | null => putU8 tNull
  | bool v => putU8 tBool ++ putU8 v.toNat
  | uint v => putU8 tUint ++ putU64 v
  | int v => putU8 tInt ++ putU64 v.toUInt64
  | f64 v => putU8 tF64 ++ putU64 v.bits
  | string s => putU8 tString ++ putStr s
  | datetime v => putU8 tDatetime ++ putU64 v.toUInt64
  | uuid u => putU8 tUuid ++ u.bytes
  | stringArray a => putU8 tStringArray ++ (leBytes 4 a.length ++ a.flatMap putStr)
  | uintArray a => putU8 tUintArray ++ (leBytes 4 a.length ++ a.flatMap putU64)
  | intArray a =>
    putU8 tIntArray ++ (leBytes 4 a.length ++ a.flatMap (fun v => putU64 v.toUInt64))
  | sparse m =>
    putU8 tSparse ++
      (leBytes 4 m.size ++ m.entries.flatMap (fun e => putStr e.1 ++ putF32 e.2))

/-- A counted list. -/
def getMany {α : Type} (r : Reader Error α) : Reader Error (List α) :=
  (Reader.le truncatedValue 4).bind fun n => .times n r

/-- One weighted dimension. -/
def getWeight : Reader Error (String × F32) :=
  getStr.bind fun dim => (Reader.le truncatedValue 4).bind fun w => .pure (dim, ⟨UInt32.ofNat w⟩)

/-- What follows a value's tag. -/
def decodeBody : Nat → Reader Error Value
  | tNull => .pure null
  | tBool => (Reader.le truncatedValue 1).bind fun b => .pure (bool (b ≠ 0))
  | tUint => (getU64 truncatedValue).bind fun v => .pure (uint v)
  | tInt => (getU64 truncatedValue).bind fun v => .pure (int v.toInt64)
  | tF64 => (getU64 truncatedValue).bind fun v => .pure (f64 ⟨v⟩)
  | tString => getStr.bind fun s => .pure (string s)
  | tDatetime => (getU64 truncatedValue).bind fun v => .pure (datetime v.toInt64)
  | tUuid => (readUuid truncatedValue).bind fun u => .pure (uuid u)
  | tStringArray => (getMany getStr).bind fun a => .pure (stringArray a)
  | tUintArray => (getMany (getU64 truncatedValue)).bind fun a => .pure (uintArray a)
  | tIntArray =>
    (getMany (getU64 truncatedValue)).bind fun a => .pure (intArray (a.map UInt64.toInt64))
  | tSparse => (getMany getWeight).bind fun es => .pure (sparse (.ofList es))
  | other =>
    .fail fun pos => .bail ("unknown value tag " ++ toString other ++ " at offset " ++
      toString (pos - 1))

/-- `Value::decode`. -/
def decode : Reader Error Value := (Reader.le truncatedValue 1).bind decodeBody

/-- Every length in the value is below `2 ^ 32`. -/
def LengthsFit : Value → Prop
  | string s => s.utf8ByteSize < 2 ^ 32
  | stringArray a => a.length < 2 ^ 32 ∧ ∀ s ∈ a, s.utf8ByteSize < 2 ^ 32
  | uintArray a => a.length < 2 ^ 32
  | intArray a => a.length < 2 ^ 32
  | sparse m => m.size < 2 ^ 32 ∧ ∀ e ∈ m.entries, e.1.utf8ByteSize < 2 ^ 32
  | _ => True

theorem getMany_parses {α : Type} (r : Reader Error α) (enc : α → Bytes) (as : List α)
    (hlen : as.length < 2 ^ 32) (h : ∀ a ∈ as, r.Parses (enc a) a) :
    (getMany r).Parses (leBytes 4 as.length ++ as.flatMap enc) as :=
  (Reader.Parses.le truncatedValue (by simpa using hlen)).bind (.times enc as h)

theorem decode_parses_of_body (tag : Nat) {bs : Bytes} {v : Value} (ht : tag < 256)
    (h : (decodeBody tag).Parses bs v) : decode.Parses (putU8 tag ++ bs) v :=
  (Reader.Parses.le truncatedValue (by simpa using ht)).bind h

theorem getWeight_parses {e : String × F32} (h : e.1.utf8ByteSize < 2 ^ 32) :
    getWeight.Parses (putStr e.1 ++ putF32 e.2) e := by
  obtain ⟨dim, w⟩ := e
  have hw := (Reader.Parses.le truncatedValue (k := 4) (n := w.bits.toNat)
    (w.bits.toNat_lt.trans_le (by decide))).map fun n => (dim, (⟨UInt32.ofNat n⟩ : F32))
  rw [UInt32.ofNat_toNat] at hw
  exact (getStr_parses h).bind hw

/-- **A value whose lengths fit 32 bits is read back**, and none of its truncations is. -/
theorem decode_parses {v : Value} (h : v.LengthsFit) : decode.Parses v.encode v := by
  cases v with
  | null =>
      have := decode_parses_of_body tNull (by decide) (.pure null)
      rwa [List.append_nil] at this
  | bool v =>
      refine decode_parses_of_body tBool (by decide) ?_
      have := (Reader.Parses.le truncatedValue (k := 1) (n := v.toNat)
        (by cases v <;> decide)).map fun b => bool (b ≠ 0)
      cases v <;> exact this
  | uint v =>
      exact decode_parses_of_body tUint (by decide) ((getU64_parses _ v).map uint)
  | int v =>
      refine decode_parses_of_body tInt (by decide) ?_
      have := (getU64_parses truncatedValue v.toUInt64).map fun n => int n.toInt64
      rwa [Int64.toInt64_toUInt64] at this
  | f64 v =>
      exact decode_parses_of_body tF64 (by decide)
        ((getU64_parses _ v.bits).map fun n => f64 ⟨n⟩)
  | string s =>
      exact decode_parses_of_body tString (by decide) ((getStr_parses h).map string)
  | datetime v =>
      refine decode_parses_of_body tDatetime (by decide) ?_
      have := (getU64_parses truncatedValue v.toUInt64).map fun n => datetime n.toInt64
      rwa [Int64.toInt64_toUInt64] at this
  | uuid u =>
      exact decode_parses_of_body tUuid (by decide) ((readUuid_parses _ u).map uuid)
  | stringArray a =>
      exact decode_parses_of_body tStringArray (by decide)
        ((getMany_parses _ _ _ h.1 fun s hs => getStr_parses (h.2 s hs)).map stringArray)
  | uintArray a =>
      exact decode_parses_of_body tUintArray (by decide)
        ((getMany_parses _ _ _ h fun n _ => getU64_parses _ n).map uintArray)
  | intArray a =>
      refine decode_parses_of_body tIntArray (by decide) ?_
      have := (getMany_parses (getU64 truncatedValue) putU64 (a.map Int64.toUInt64) (by rw [List.length_map]; exact h)
        fun n _ => getU64_parses _ n).map fun ns => intArray (ns.map UInt64.toInt64)
      simp only [List.length_map, List.flatMap_map, List.map_map, Function.comp_def,
        Int64.toInt64_toUInt64, List.map_id'] at this
      exact this
  | sparse m =>
      refine decode_parses_of_body tSparse (by decide) ?_
      have := (getMany_parses getWeight (fun e => putStr e.1 ++ putF32 e.2) m.entries h.1
        fun e he => getWeight_parses (h.2 e he)).map fun es => sparse (.ofList es)
      rwa [SortedMap.ofList_entries] at this

end Value

/-! ## Ids -/

namespace Id

@[match_pattern] abbrev tagUint : Nat := 0
@[match_pattern] abbrev tagUuid : Nat := 1
@[match_pattern] abbrev tagString : Nat := 2

/-- `Id::encode`. -/
def encode : Id → Bytes
  | uint v => putU8 tagUint ++ putU64 v
  | uuid u => putU8 tagUuid ++ u.bytes
  | string s => putU8 tagString ++ putStr s

/-- What follows an id's tag. -/
def decodeBody : Nat → Reader Error Id
  | tagUint => (getU64 truncatedRecord).bind fun v => .pure (uint v)
  | tagUuid => (readUuid truncatedRecord).bind fun u => .pure (uuid u)
  | tagString => ((Reader.le truncatedRecord 4).bind (readString truncatedRecord)).bind fun s =>
      .pure (string s)
  | t => .fail fun _ => .bail ("unknown id tag " ++ toString t)

/-- `Id::decode`. -/
def decode : Reader Error Id := (Reader.le truncatedRecord 1).bind decodeBody

/-- The length of a string id is below `2 ^ 32`. -/
def LengthsFit : Id → Prop
  | string s => s.utf8ByteSize < 2 ^ 32
  | _ => True

theorem decode_parses {id : Id} (h : id.LengthsFit) : decode.Parses id.encode id := by
  cases id with
  | uint v =>
      exact (Reader.Parses.le truncatedRecord (by decide)).bind ((getU64_parses _ v).map uint)
  | uuid u =>
      exact (Reader.Parses.le truncatedRecord (by decide)).bind ((readUuid_parses _ u).map uuid)
  | string s =>
      have hlen : s.utf8ByteSize < 2 ^ 32 := h
      refine (Reader.Parses.le truncatedRecord (by decide)).bind (.map ?_ string)
      exact (Reader.Parses.le truncatedRecord (by simpa using hlen)).bind
        (readString_parses truncatedRecord rfl)

end Id

/-! ## Attribute maps -/

/-- `put_attrs`: the count and the key lengths are 16 bits wide. -/
def putAttrs (attrs : Attrs) : Bytes :=
  leBytes 2 attrs.size ++
    attrs.entries.flatMap fun e => leBytes 2 e.1.utf8ByteSize ++ (utf8 e.1 ++ e.2.encode)

/-- One attribute. -/
def getAttr : Reader Error (String × Value) :=
  (Reader.le truncatedRecord 2).bind fun klen => (readString truncatedRecord klen).bind fun key =>
    Value.decode.bind fun v => .pure (key, v)

/-- `get_attrs`. -/
def getAttrs : Reader Error Attrs :=
  (Reader.le truncatedRecord 2).bind fun n => (Reader.times n getAttr).bind fun es =>
    .pure (.ofList es)

/-- Attributes the 16-bit fields can carry. -/
def Narrow (attrs : Attrs) : Prop := attrs.size < 2 ^ 16 ∧ ∀ k ∈ attrs.keys, k.utf8ByteSize < 2 ^ 16

theorem getAttr_parses {e : String × Value} (hk : e.1.utf8ByteSize < 2 ^ 16)
    (hv : e.2.LengthsFit) :
    getAttr.Parses (leBytes 2 e.1.utf8ByteSize ++ (utf8 e.1 ++ e.2.encode)) e :=
  (Reader.Parses.le truncatedRecord (by simpa using hk)).bind
    ((readString_parses truncatedRecord rfl).bind ((Value.decode_parses hv).map (e.1, ·)))

theorem getAttrs_parses {attrs : Attrs} (hn : Narrow attrs)
    (hv : ∀ v ∈ attrs.values, v.LengthsFit) : getAttrs.Parses (putAttrs attrs) attrs := by
  have hes := (Reader.Parses.times (fun e => leBytes 2 e.1.utf8ByteSize ++ (utf8 e.1 ++ e.2.encode))
    attrs.entries fun e he => getAttr_parses (hn.2 _ (List.mem_map_of_mem he))
      (hv _ (List.mem_map_of_mem he))).map fun es => (.ofList es : Attrs)
  rw [SortedMap.ofList_entries] at hes
  exact (Reader.Parses.le truncatedRecord (k := 2) (n := attrs.size) (by simpa using hn.1)).bind
    (f := fun n => (Reader.times n getAttr).bind fun es => .pure (SortedMap.ofList es)) hes

/-- **The decoder only yields narrow attributes**, whatever the bytes. -/
theorem narrow_of_getAttrs {buf : Bytes} {pos p : Nat} {attrs : Attrs}
    (h : getAttrs buf pos = .ok (attrs, p)) : Narrow attrs := by
  obtain ⟨n, p₁, hn, h⟩ := Reader.bind_eq_ok.mp h
  obtain ⟨es, p₂, hes, h⟩ := Reader.bind_eq_ok.mp h
  obtain ⟨rfl, -⟩ := Prod.mk.inj (Except.ok.inj h)
  obtain ⟨hlen, hall⟩ := Reader.of_times hes
  have hn : n < 2 ^ 16 := by simpa using Reader.lt_of_le hn
  constructor
  · have := SortedMap.size_insertAll_le (.empty : Attrs) es
    have h0 : (SortedMap.empty : Attrs).size = 0 := rfl
    rw [SortedMap.ofList]
    omega
  · intro k hk
    rcases SortedMap.mem_keys_insertAll hk with hk | hk
    · cases hk
    · obtain ⟨e, he, rfl⟩ := List.mem_map.mp hk
      obtain ⟨q, q', he⟩ := hall e he
      obtain ⟨klen, p₃, hklen, he⟩ := Reader.bind_eq_ok.mp he
      obtain ⟨key, p₄, hkey, he⟩ := Reader.bind_eq_ok.mp he
      obtain ⟨v, p₅, hv, he⟩ := Reader.bind_eq_ok.mp he
      obtain ⟨rfl, -⟩ := Prod.mk.inj (Except.ok.inj he)
      rw [utf8ByteSize_of_readString hkey]
      simpa using Reader.lt_of_le hklen

/-! ## Records -/

namespace Record

@[match_pattern] abbrev tagUpsert : Nat := 0
@[match_pattern] abbrev tagDelete : Nat := 1
@[match_pattern] abbrev tagPatch : Nat := 2

/-- `Record::encode`. -/
def encode : Record → Bytes
  | delete id => putU8 tagDelete ++ id.encode
  | patch id attrs => putU8 tagPatch ++ (id.encode ++ putAttrs attrs)
  | upsert d =>
    putU8 tagUpsert ++
      (d.id.encode ++ (leBytes 4 d.vector.length ++ (d.vector.flatMap putF32 ++ putAttrs d.attrs)))

/-- What follows a record's tag. -/
def decodeBody : Nat → Reader Error Record
  | tagDelete => Id.decode.bind fun id => .pure (delete id)
  | tagPatch => Id.decode.bind fun id => getAttrs.bind fun attrs => .pure (patch id attrs)
  | tagUpsert => Id.decode.bind fun id => (Reader.le truncatedRecord 4).bind fun dim =>
      (Reader.take truncatedRecord (dim * 4)).bind fun raw => getAttrs.bind fun attrs =>
        .pure (upsert ⟨id, f32sOf raw, attrs⟩)
  | t => .fail fun _ => .bail ("unknown record tag " ++ toString t)

/-- `Record::decode`; bytes after the record are ignored. -/
def decode (buf : Bytes) : Except Error Record :=
  match ((Reader.le truncatedRecord 1).bind decodeBody) buf 0 with
  | .ok (r, _) => .ok r
  | .error e => .error e

/-- The attributes a record carries. -/
def attrs : Record → Attrs
  | upsert d => d.attrs
  | patch _ attrs => attrs
  | delete _ => .empty

/-- Every individual length in the record (its id, vector and values) is below `2 ^ 32`. -/
def LengthsFit (r : Record) : Prop :=
  r.id.LengthsFit ∧ (∀ v ∈ r.attrs.values, v.LengthsFit) ∧
    ∀ d, r = upsert d → d.vector.length < 2 ^ 32

/-- The record's attributes have fewer than `2 ^ 16` keys, each of fewer than `2 ^ 16` bytes. -/
def Narrow (r : Record) : Prop := Fckdb.Narrow r.attrs

theorem length_flatMap_putF32 (fs : List F32) : (fs.flatMap putF32).length = fs.length * 4 := by
  induction fs with
  | nil => rfl
  | cons f fs ih =>
      rw [List.flatMap_cons, List.length_append, ih, putF32, leBytes_length, List.length_cons]
      omega

theorem encode_parses {r : Record} (hl : r.LengthsFit) (hn : r.Narrow) :
    ((Reader.le truncatedRecord 1).bind decodeBody).Parses r.encode r := by
  obtain ⟨hid, hval, hvec⟩ := hl
  cases r with
  | delete id =>
      exact (Reader.Parses.le truncatedRecord (by decide)).bind ((Id.decode_parses hid).map delete)
  | patch id attrs =>
      exact (Reader.Parses.le truncatedRecord (by decide)).bind
        ((Id.decode_parses hid).bind ((getAttrs_parses hn hval).map (patch id)))
  | upsert d =>
      have hattrs := (getAttrs_parses hn hval).map fun attrs =>
        upsert ⟨d.id, f32sOf (d.vector.flatMap putF32), attrs⟩
      have hd : upsert ⟨d.id, f32sOf (d.vector.flatMap putF32), d.attrs⟩ = upsert d := by
        rw [f32sOf_flatMap]
      rw [show (upsert d).attrs = d.attrs from rfl, hd] at hattrs
      exact (Reader.Parses.le truncatedRecord (by decide)).bind ((Id.decode_parses hid).bind
        ((Reader.Parses.le truncatedRecord (by simpa using hvec d rfl)).bind
          ((Reader.Parses.take truncatedRecord (length_flatMap_putF32 _)).bind hattrs)))

/-- **Round trip** of one record. -/
theorem decode_encode {r : Record} (hl : r.LengthsFit) (hn : r.Narrow) :
    decode r.encode = .ok r := by
  rw [decode, (encode_parses hl hn).run]

/-- **No proper prefix of an encoded record decodes.** -/
theorem decode_truncated {r : Record} (hl : r.LengthsFit) (hn : r.Narrow) {p : Bytes}
    (hp : p <+: r.encode) (hne : p ≠ r.encode) : ∃ e, decode p = .error e := by
  obtain ⟨e, he⟩ := (encode_parses hl hn).run_truncated hp hne
  exact ⟨e, by rw [decode, he]⟩

/-- **What decodes is narrow.** -/
theorem narrow_of_decode {buf : Bytes} {r : Record} (h : decode buf = .ok r) : r.Narrow := by
  unfold decode at h
  split at h
  · next r' p hr =>
    obtain rfl := Except.ok.inj h
    obtain ⟨tag, p₁, htag, hr⟩ := Reader.bind_eq_ok.mp hr
    unfold decodeBody at hr
    split at hr
    · obtain ⟨id, p₂, hid, hr⟩ := Reader.bind_eq_ok.mp hr
      obtain ⟨rfl, -⟩ := Prod.mk.inj (Except.ok.inj hr)
      exact ⟨(by decide : 0 < 2 ^ 16), fun k hk => by cases hk⟩
    · obtain ⟨id, p₂, hid, hr⟩ := Reader.bind_eq_ok.mp hr
      obtain ⟨attrs, p₃, hattrs, hr⟩ := Reader.bind_eq_ok.mp hr
      obtain ⟨rfl, -⟩ := Prod.mk.inj (Except.ok.inj hr)
      exact narrow_of_getAttrs hattrs
    · obtain ⟨id, p₂, hid, hr⟩ := Reader.bind_eq_ok.mp hr
      obtain ⟨dim, p₃, hdim, hr⟩ := Reader.bind_eq_ok.mp hr
      obtain ⟨raw, p₄, hraw, hr⟩ := Reader.bind_eq_ok.mp hr
      obtain ⟨attrs, p₅, hattrs, hr⟩ := Reader.bind_eq_ok.mp hr
      obtain ⟨rfl, -⟩ := Prod.mk.inj (Except.ok.inj hr)
      exact narrow_of_getAttrs hattrs
    · cases hr
  · cases h

end Record

/-! ## Frames -/

/-- One length-prefixed entry. -/
def frameOne (e : Bytes) : Bytes := leBytes 4 e.length ++ e

/-- `frame`. -/
def frame (entries : List Bytes) : Bytes := entries.flatMap frameOne

/-- The loop of `unframe`, from a position. -/
def unframeFrom (blob : Bytes) (pos : Nat) : Except Error (List Bytes) :=
  if pos < blob.length then
    if blob.length < pos + 4 then
      .error (.kinded .internal ("truncated frame header at offset " ++ toString pos))
    else
      let len := leVal ((blob.drop pos).take 4)
      if blob.length < pos + 4 + len then
        .error (.kinded .internal ("truncated frame body at " ++ toString (pos + 4) ++ ": want " ++
          toString len ++ ", have " ++ toString (blob.length - (pos + 4))))
      else
        match unframeFrom blob (pos + 4 + len) with
        | .ok out => .ok ((blob.drop (pos + 4)).take len :: out)
        | .error e => .error e
  else .ok []
termination_by blob.length - pos

/-- `unframe`. -/
def unframe (blob : Bytes) : Except Error (List Bytes) := unframeFrom blob 0

/-- `frame_records`. -/
def frameRecords (records : List Record) : Bytes := frame (records.map Record.encode)

/-- `read_records`, on the bytes of the object at `path`. -/
def readRecords (path : String) (blob : Bytes) : Except Error (List Record) :=
  match unframe blob with
  | .error e => .error (e.context ("unframing " ++ path))
  | .ok frames =>
    collect (frames.map fun b =>
      match Record.decode b with
      | .ok r => .ok r
      | .error e =>
        .error (.kinded .internal ("decoding a record from " ++ path ++ ": " ++ e.display)))

/-- One step of unframing: at a frame whose length field holds `n`, the next `n` bytes come out. -/
theorem unframeFrom_step {blob body rest : Bytes} {pos n : Nat} (hn : n < 2 ^ 32)
    (h : blob.drop pos = leBytes 4 n ++ (body ++ rest)) (hb : body.length = n) :
    unframeFrom blob pos =
      match unframeFrom blob (pos + 4 + n) with
      | .ok out => .ok (body :: out)
      | .error e => .error e := by
  have hlen := congrArg List.length h
  simp only [List.length_drop, List.length_append, leBytes_length] at hlen
  have hdr : (blob.drop pos).take 4 = leBytes 4 n := by
    rw [h]
    exact List.take_left' (by simp)
  have hbody : (blob.drop (pos + 4)).take n = body := by
    rw [← List.drop_drop, h, List.drop_left' (by simp), ← hb, List.take_left]
  have hval : leVal (leBytes 4 n) = n := leVal_leBytes_of_lt (by simpa using hn)
  rw [unframeFrom, if_pos (by omega), if_neg (by omega)]
  simp only [hdr, hval]
  rw [if_neg (by omega), hbody]

/-- Framed entries come back from wherever they start, when each fits its length field. -/
theorem unframeFrom_frame {blob : Bytes} (entries : List Bytes) {pos : Nat}
    (h : blob.drop pos = frame entries) (hlen : ∀ e ∈ entries, e.length < 2 ^ 32) :
    unframeFrom blob pos = .ok entries := by
  induction entries generalizing pos with
  | nil =>
      have hend : blob.length ≤ pos := by
        have := congrArg List.length h
        simp only [frame, List.flatMap_nil, List.length_drop, List.length_nil] at this
        omega
      rw [unframeFrom, if_neg (by omega)]
  | cons e es ih =>
      have he : blob.drop pos = leBytes 4 e.length ++ (e ++ frame es) := by
        rw [h, frame, List.flatMap_cons, frameOne, List.append_assoc]
        rfl
      rw [unframeFrom_step (hlen e List.mem_cons_self) he rfl, ih]
      · rw [Nat.add_assoc, ← List.drop_drop, he, ← List.append_assoc]
        exact List.drop_left' (by simp)
      · exact fun x hx => hlen x (List.mem_cons_of_mem _ hx)

/-- What is unframed from a position was framed there, to the last byte. -/
theorem frame_of_unframeFrom {blob : Bytes} {pos : Nat} {entries : List Bytes}
    (hpos : pos ≤ blob.length) (h : unframeFrom blob pos = .ok entries) :
    frame entries = blob.drop pos ∧ ∀ e ∈ entries, e.length < 2 ^ 32 := by
  revert entries
  fun_induction unframeFrom blob pos with
  | case1 pos hlt hheader => exact nofun
  | case2 pos hlt hheader len hbody => exact nofun
  | case3 pos hlt hheader len hbody out hrest ih =>
      intro entries h
      cases h
      obtain ⟨hframe, hshort⟩ := ih (Nat.le_of_not_lt hbody) hrest
      -- the header is the length of what follows it
      have hfour : ((blob.drop pos).take 4).length = 4 := by
        rw [List.length_take, List.length_drop]
        omega
      have hlen : ((blob.drop (pos + 4)).take len).length = len := by
        rw [List.length_take, List.length_drop]
        omega
      have hsmall : len < 2 ^ 32 := by
        have hval := leVal_lt ((blob.drop pos).take 4)
        rwa [hfour] at hval
      have hheader : leBytes 4 len = (blob.drop pos).take 4 := by
        have hback := leBytes_leVal ((blob.drop pos).take 4)
        rwa [hfour] at hback
      refine ⟨?_, List.forall_mem_cons.mpr ⟨hlen.symm ▸ hsmall, hshort⟩⟩
      calc frame ((blob.drop (pos + 4)).take len :: out)
          = leBytes 4 len ++ (blob.drop (pos + 4)).take len ++ frame out := by
            rw [frame, List.flatMap_cons, frameOne, hlen]
            rfl
        _ = (blob.drop pos).take 4 ++ (blob.drop (pos + 4)).take len ++ blob.drop (pos + 4 + len) := by
            rw [hheader, hframe]
        _ = blob.drop pos := by
            rw [List.append_assoc, ← List.drop_drop (i := len), List.take_append_drop, ← List.drop_drop (i := 4),
              List.take_append_drop]
  | case4 pos hlt hheader len hbody e hrest ih => exact nofun
  | case5 pos hend =>
      intro entries h
      cases h
      exact ⟨(List.drop_of_length_le (Nat.le_of_not_lt hend)).symm, List.forall_mem_nil _⟩

/-- **Framing is a bijection** of lists of short byte strings and what `unframe` accepts. -/
theorem unframe_eq_ok_iff (blob : Bytes) (entries : List Bytes) :
    unframe blob = .ok entries ↔ (∀ e ∈ entries, e.length < 2 ^ 32) ∧ frame entries = blob := by
  constructor
  · intro h
    obtain ⟨hframe, hshort⟩ := frame_of_unframeFrom (Nat.zero_le _) h
    exact ⟨hshort, hframe⟩
  · rintro ⟨hshort, rfl⟩
    exact unframeFrom_frame entries rfl hshort

/-- Decoding every element of a list. -/
theorem collect_map_ok {α β : Type} {f : α → Except Error β} {g : β → α} {bs : List β}
    (h : ∀ b ∈ bs, f (g b) = .ok b) : collect ((bs.map g).map f) = .ok bs := by
  induction bs with
  | nil => rfl
  | cons b bs ih =>
      rw [List.map_cons, List.map_cons, h b List.mem_cons_self, collect,
        ih fun x hx => h x (List.mem_cons_of_mem _ hx)]

/-- What `collect` yields, it yields element by element. -/
theorem collect_eq_ok_cons {α : Type} {r : Except Error α} {rs : List (Except Error α)} {a : α}
    {as : List α} (h : collect (r :: rs) = .ok (a :: as)) : r = .ok a ∧ collect rs = .ok as := by
  cases r with
  | error e => cases h
  | ok x =>
      rw [collect] at h
      split at h
      · next xs hxs =>
        obtain ⟨rfl, rfl⟩ := List.cons.inj (Except.ok.inj h)
        exact ⟨rfl, hxs⟩
      · cases h

end Fckdb
