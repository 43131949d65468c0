import Fckdb.Coercion
import Fckdb.Filter

/-! # Values and filters as JSON

`fromJson` infers a value from a JSON tree, `Value.toJson` is the tree read back from what is
written of one, and `fromJsonFilter` and `Filter.toJson` are the same for filters. Every value read
from JSON can be written and read again, but for a sparse vector with a weight beyond the range of
`f32`: the weight has become an infinity, which JSON writes as `null` (`json_rereads_iff`). -/

namespace Fckdb

/-! ## Floats -/

/-- `f64::is_finite`: the exponent is not all ones. -/
def F64.isFinite (a : F64) : Bool := a.bits.toNat / 2 ^ 52 % 2 ^ 11 ≠ 2 ^ 11 - 1

/-- `f64 as f32`: the nearest number, an infinity beyond the largest. -/
def F64.toF32 (a : F64) : F32 :=
  ⟨⟨Float.Model.UnpackedFloat.pack .binary32 (match Float.Model.UnpackedFloat.unpack .binary64 a.bits.toBitVec with
    | .finite s m e _ => .round .binary32 s m e
    | other => other)⟩⟩

theorem F64.isFinite_of_number {a : F64} {q : ℚ} (h : a.number = some q) : a.isFinite = true := by
  rw [F64.isFinite, decide_eq_true_eq]
  intro hall
  have hexp : @Float.Model.UnpackedFloat.unpackExponent .binary64 a.bits.toBitVec =
      -1#11 := by
    refine BitVec.eq_of_toNat_eq ?_
    rw [Float.Model.UnpackedFloat.unpackExponent, BitVec.toNat_cast, BitVec.extractLsb_toNat,
      Nat.shiftRight_eq_div_pow]
    exact hall
  rw [F64.number, Float.Model.UnpackedFloat.unpack] at h
  dsimp only at h
  rw [if_pos hexp] at h
  split_ifs at h <;> cases h

theorem F64.isFinite_ofUInt64 (u : UInt64) : (F64.ofUInt64 u).isFinite = true :=
  F64.isFinite_of_number (F64.number_ofUInt64 u)

theorem F64.isFinite_ofInt64 (i : Int64) : (F64.ofInt64 i).isFinite = true :=
  F64.isFinite_of_number (F64.number_ofInt64 i)

/-! ## JSON trees -/

/-- A number of `serde_json`: negative integers and floats apart, and no float that is not
finite. -/
inductive Number
  | posInt (u : UInt64)
  | negInt (i : Int64) (neg : i.toInt < 0)
  | float (f : F64) (finite : f.isFinite = true)

namespace Number

/-- `Number::as_u64`. -/
def asU64 : Number → Option UInt64
  | posInt u => some u
  | _ => none

/-- `Number::as_i64`. -/
def asI64 : Number → Option Int64
  | posInt u => if u.toNat < 2 ^ 63 then some (Int64.ofNat u.toNat) else none
  | negInt i _ => some i
  | float .. => none

/-- `Number::as_f64`. -/
def asF64 : Number → Option F64
  | posInt u => some (.ofUInt64 u)
  | negInt i _ => some (.ofInt64 i)
  | float f _ => some f

/-- An `i64` as a number. -/
def ofInt64 (i : Int64) : Number :=
  if h : i.toInt < 0 then negInt i h else posInt (UInt64.ofNat i.toInt.toNat)

end Number

/-- `serde_json::Value`. The fields of an object come in the order of its iteration. -/
inductive Json
  | null
  | bool (b : Bool)
  | number (n : Number)
  | string (s : String)
  | array (items : List Json)
  | object (fields : List (String × Json))

namespace Json

def asU64 : Json → Option UInt64
  | number n => n.asU64
  | _ => none

def asI64 : Json → Option Int64
  | number n => n.asI64
  | _ => none

def asF64 : Json → Option F64
  | number n => n.asF64
  | _ => none

def asStr : Json → Option String
  | string s => some s
  | _ => none

end Json

/-! ## Reading numbers and lists -/

/-- A number that is negative as an `i64` is the only one that is no `u64`. -/
theorem Number.neg_of_asI64 {n : Number} {i : Int64} (hu : n.asU64 = none) (hi : n.asI64 = some i) :
    i.toInt < 0 := by
  cases n with
  | posInt u => cases hu
  | negInt j neg =>
      cases hi
      exact neg
  | float f h => cases hi

theorem Number.asI64_ofInt64 (i : Int64) : (Number.ofInt64 i).asI64 = some i := by
  rw [Number.ofInt64]
  split_ifs with h
  · rfl
  · have hlt := i.toInt_lt
    have hu : (UInt64.ofNat i.toInt.toNat).toNat = i.toInt.toNat :=
      UInt64.toNat_ofNat_of_lt' (by rw [show UInt64.size = 2 ^ 64 from rfl]; omega)
    rw [Number.asI64, hu, if_pos (by omega)]
    refine congrArg some (Int64.toInt_inj.mp ?_)
    rw [Int64.toInt_ofNat_of_lt (by omega)]
    omega

theorem Number.asU64_ofInt64 {i : Int64} :
    (Number.ofInt64 i).asU64 =
      if i.toInt < 0 then none else some (UInt64.ofNat i.toInt.toNat) := by
  rw [Number.ofInt64]
  split_ifs <;> rfl

/-- An integer that was unsigned is written as it was. -/
theorem Number.ofInt64_of_uint {u : UInt64} {i : Int64} (h : int64TryFrom u = .ok i) :
    Number.ofInt64 i = .posInt u := by
  have hi := Value.int64TryFrom_eq_ok h
  rw [Number.ofInt64, dif_neg (by omega), hi, Int.toNat_natCast, UInt64.ofNat_toNat]

theorem ofInt64_of_uints {a : List UInt64} {b : List Int64}
    (h : collect (a.map int64TryFrom) = .ok b) :
    b.map (fun i => Json.number (.ofInt64 i)) = a.map fun u => .number (.posInt u) := by
  replace h := List.forall₂_map_left_iff.mp (collect_eq_ok h)
  induction h with
  | nil => rfl
  | cons hi _ ih => rw [List.map_cons, List.map_cons, ih, Number.ofInt64_of_uint hi]

/-- Reading a list of items that all read. -/
theorem filterMap_read {α : Type} (read : Json → Option α) (write : α → Json)
    (h : ∀ a, read (write a) = some a) (as : List α) : (as.map write).filterMap read = as := by
  rw [List.filterMap_map]
  exact (List.filterMap_congr fun a _ => h a).trans List.filterMap_some

theorem all_read {α : Type} (read : Json → Option α) (write : α → Json)
    (h : ∀ a, read (write a) = some a) (as : List α) :
    (as.map write).all (fun item => (read item).isSome) = true := by
  rw [List.all_map, List.all_eq_true]
  intro a _
  rw [Function.comp, h]
  rfl

/-- An item that is not read spoils a list. -/
theorem not_all_read {α β : Type} (read : Json → Option β) (write : α → Json) {a : α} {as : List α}
    (hmem : a ∈ as) (h : read (write a) = none) :
    ¬ (as.map write).all (fun item => (read item).isSome) = true := by
  rw [List.all_map, List.all_eq_true]
  intro hall
  have := hall a hmem
  rw [Function.comp, h] at this
  cases this

/-- What `serde_json` makes of text. -/
class SerdeJson where
  /-- The number parsed from the text of an `f64`. -/
  readF64 : F64 → {f : F64 // f.isFinite = true}
  /-- The number parsed from the text of an `f32`. -/
  readF32 : F32 → {f : F64 // f.isFinite = true}
  /-- `Display`: the compact text of a tree. -/
  display : Json → String

section Rereads

variable [Crates] [SerdeJson]

/-! ## Values -/

/-- The fields of an object, as the weights of a sparse vector. -/
def sparseOf : List (String × Json) → SortedMap String F32 → Except Error (SortedMap String F32)
  | [], out => .ok out
  | (dim, weight) :: fields, out =>
    match weight.asF64 with
    | none => .error (.bail ("attribute values may be a sparse vector of numbers, but " ++
        Crates.debugString dim ++ " holds " ++ SerdeJson.display weight))
    | some w => sparseOf fields (out.insert dim w.toF32)

/-- `from_json`: infer a value from JSON. A string stays a string, whatever it looks like. -/
def fromJson : Json → Except Error Value
  | .null => .ok .null
  | .bool b => .ok (.bool b)
  | .number n =>
    match n.asU64 with
    | some u => .ok (.uint u)
    | none =>
      match n.asI64 with
      | some i => .ok (.int i)
      | none =>
        match n.asF64 with
        | some f => .ok (.f64 f)
        | none => .error (.bail ("number " ++ SerdeJson.display (.number n) ++
            " is not representable"))
  | .string s => .ok (.string s)
  | .array items =>
    if items.all (·.asU64.isSome) then .ok (.uintArray (items.filterMap Json.asU64))
    else if items.all (·.asI64.isSome) then .ok (.intArray (items.filterMap Json.asI64))
    else if items.all (·.asStr.isSome) then .ok (.stringArray (items.filterMap Json.asStr))
    else if items.isEmpty then .ok (.stringArray [])
    else .error (.bail "arrays must be all strings or all unsigned integers")
  | .object fields => (sparseOf fields .empty).map .sparse

/-- The tree `serde_json` reads from an `f64` it has written. -/
def Json.ofF64 (f : F64) : Json :=
  if f.isFinite then .number (.float (SerdeJson.readF64 f).1 (SerdeJson.readF64 f).2) else .null

/-- The tree `serde_json` reads from an `f32` it has written. -/
def Json.ofF32 (w : F32) : Json :=
  if w.isFinite then .number (.float (SerdeJson.readF32 w).1 (SerdeJson.readF32 w).2) else .null

/-- `Serialize`, and the text parsed. -/
def Value.toJson : Value → Json
  | .null => .null
  | .bool b => .bool b
  | .uint u => .number (.posInt u)
  | .int i => .number (.ofInt64 i)
  | .f64 f => .ofF64 f
  | .string s => .string s
  | .datetime n => .string (formatDatetime n)
  | .uuid u => .string (Crates.uuidToString u)
  | .stringArray a => .array (a.map .string)
  | .uintArray a => .array (a.map fun u => .number (.posInt u))
  | .intArray a => .array (a.map fun i => .number (.ofInt64 i))
  | .sparse m => .object (m.entries.map fun e => (e.1, .ofF32 e.2))

/-! ## Filters -/

/-- The variant's name, which is what it is written as. -/
def Op.name : Op → String
  | .eq => "Eq"
  | .notEq => "NotEq"
  | .gt => "Gt"
  | .gte => "Gte"
  | .lt => "Lt"
  | .lte => "Lte"
  | .in => "In"
  | .notIn => "NotIn"
  | .glob => "Glob"
  | .notGlob => "NotGlob"
  | .iGlob => "IGlob"
  | .notIGlob => "NotIGlob"
  | .contains => "Contains"
  | .notContains => "NotContains"
  | .containsAny => "ContainsAny"
  | .notContainsAny => "NotContainsAny"
  | .regex => "Regex"
  | .notRegex => "NotRegex"
  | .containsAllTokens => "ContainsAllTokens"
  | .notContainsAllTokens => "NotContainsAllTokens"
  | .containsTokenSequence => "ContainsTokenSequence"
  | .fuzzy => "Fuzzy"

/-- The variants in their order. -/
def Op.all : List Op :=
  [.eq, .notEq, .gt, .gte, .lt, .lte, .in, .notIn, .glob, .notGlob, .iGlob, .notIGlob, .contains,
    .notContains, .containsAny, .notContainsAny, .regex, .notRegex, .containsAllTokens,
    .notContainsAllTokens, .containsTokenSequence, .fuzzy]

/-- The variant of a name. -/
def Op.ofName (s : String) : Option Op := Op.all.find? (·.name = s)

/-- `serde_json::from_value::<Op>`: a unit variant is its name, or an object that maps its name to
null. -/
def Op.ofJson : Json → Option Op
  | .string s => Op.ofName s
  | .object [(s, .null)] => Op.ofName s
  | _ => none

omit [Crates] [SerdeJson] in
theorem Op.ofName_name (op : Op) : Op.ofName op.name = some op := by
  cases op <;> decide

mutual

/-- `from_json_filter`. A three-element array is a comparison, whatever its attribute is called. -/
def fromJsonFilter : Json → Except Error Filter
  | .array [head, operands] =>
    let head := head.asStr.getD ""
    if head = "And" ∨ head = "Or" then
      match operands with
      | .array items =>
        match fromJsonFilters items with
        | .error e => .error e
        | .ok [] => .error (.bail (head ++ " requires at least one operand"))
        | .ok parsed => .ok (if head = "And" then .and parsed else .or parsed)
      | operands => .error (.bail (head ++ " expects an array of filters, got " ++
          SerdeJson.display operands))
    else if head = "Not" then (fromJsonFilter operands).map .not
    else .error (.bail ("unknown filter connective " ++ Crates.debugString head))
  | .array [key, op, value] =>
    match key.asStr with
    | none => .error (.bail "filter attribute name must be a string")
    | some key =>
      match Op.ofJson op with
      | none => .error (.bail ("unknown filter operator " ++ SerdeJson.display op))
      | some op => (fromJson value).map (.cmp key op)
  | .array items => .error (.bail
      ("a filter is [key, op, value] or [connective, operands], got " ++
        toString items.length ++ " elements"))
  | raw => .error (.bail ("a filter must be an array, got " ++ SerdeJson.display raw))

/-- The operands of a connective. -/
def fromJsonFilters : List Json → Except Error (List Filter)
  | [] => .ok []
  | item :: items =>
    match fromJsonFilter item with
    | .error e => .error e
    | .ok f => (fromJsonFilters items).map (f :: ·)

end

mutual

/-- `Serialize`, and the text parsed. -/
def Filter.toJson : Filter → Json
  | .and fs => .array [.string "And", .array (Filter.toJsons fs)]
  | .or fs => .array [.string "Or", .array (Filter.toJsons fs)]
  | .not f => .array [.string "Not", f.toJson]
  | .cmp key op value => .array [.string key, .string op.name, value.toJson]

def Filter.toJsons : List Filter → List Json
  | [] => []
  | f :: fs => f.toJson :: Filter.toJsons fs

end

/-! ## What JSON can hold -/

namespace Value

/-- The values `fromJson` infers. -/
inductive Inferred : Value → Prop
  | null : Inferred .null
  | bool (b : Bool) : Inferred (.bool b)
  | uint (u : UInt64) : Inferred (.uint u)
  | int {i : Int64} (h : i.toInt < 0) : Inferred (.int i)
  | f64 {f : F64} (h : f.isFinite = true) : Inferred (.f64 f)
  | string (s : String) : Inferred (.string s)
  | stringArray {a : List String} (h : a ≠ []) : Inferred (.stringArray a)
  | uintArray (a : List UInt64) : Inferred (.uintArray a)
  | intArray {a : List Int64} (h : ∃ i ∈ a, i.toInt < 0) : Inferred (.intArray a)
  | sparse (m : SortedMap String F32) : Inferred (.sparse m)

/-- No weight is infinite or a NaN. -/
def FiniteWeights : Value → Prop
  | .sparse m => ∀ w ∈ m.values, w.isFinite = true
  | _ => True

/-- The crates read back what they print of this value: `serde_json` its finite floats, chrono and
uuid their own texts. -/
def ReadsBack : Value → Prop
  | .f64 f => f.isFinite = true → (SerdeJson.readF64 f).1 = f
  | .sparse m => ∀ w ∈ m.values, w.isFinite = true → (SerdeJson.readF32 w).1.toF32 = w
  | .datetime n => Crates.parseRfc3339 (formatDatetime n) = some (some n)
  | .uuid u => Crates.uuidParse (Crates.uuidToString u) = .ok u
  | _ => True

/-- Written, read and coerced to its type, the value is the same again. -/
def Rereads (v : Value) (ty : Ty) : Prop := (fromJson v.toJson >>= (·.coerce ty)) = .ok v

end Value

theorem Value.inferred_of_fromJson {raw : Json} {v : Value} (h : fromJson raw = .ok v) :
    v.Inferred := by
  cases raw with
  | null => cases h; exact .null
  | bool b => cases h; exact .bool b
  | number n =>
      cases n with
      | posInt u => cases h; exact .uint u
      | negInt i neg => cases h; exact .int neg
      | float f finite => cases h; exact .f64 finite
  | string s => cases h; exact .string s
  | array items =>
      rw [fromJson] at h
      split_ifs at h with hu hi hs
      · cases h
        exact .uintArray _
      · cases h
        -- some element is no `u64`, and it is negative
        obtain ⟨item, hmem, hno⟩ : ∃ item ∈ items, item.asU64 = none := by
          simpa using hu
        obtain ⟨i, hi⟩ := Option.isSome_iff_exists.mp (List.all_eq_true.mp hi item hmem)
        refine .intArray ⟨i, List.mem_filterMap.mpr ⟨item, hmem, hi⟩, ?_⟩
        cases item with
        | number n => exact Number.neg_of_asI64 hno hi
        | _ => cases hi
      · cases h
        obtain ⟨item, hmem, -⟩ : ∃ item ∈ items, item.asU64 = none := by
          simpa using hu
        obtain ⟨s, hs⟩ := Option.isSome_iff_exists.mp (List.all_eq_true.mp hs item hmem)
        exact .stringArray (List.ne_nil_of_mem (List.mem_filterMap.mpr ⟨item, hmem, hs⟩))
      · next he =>
        rw [List.isEmpty_iff.mp he] at hu
        exact absurd rfl hu
  | object fields =>
      obtain ⟨m, -, rfl⟩ := map_eq_ok.mp h
      exact .sparse m

/-! ## Reading back what was written -/

theorem fromJson_uints (a : List UInt64) :
    fromJson (.array (a.map fun u => .number (.posInt u))) = .ok (.uintArray a) := by
  rw [fromJson, if_pos (all_read Json.asU64 (fun u => .number (.posInt u)) (fun _ => rfl) a),
    filterMap_read Json.asU64 (fun u => .number (.posInt u)) fun _ => rfl]

theorem fromJson_strings {a : List String} (h : a ≠ []) :
    fromJson (.array (a.map .string)) = .ok (.stringArray a) := by
  obtain ⟨s, hs⟩ := List.exists_mem_of_ne_nil a h
  rw [fromJson, if_neg (not_all_read Json.asU64 .string hs rfl),
    if_neg (not_all_read Json.asI64 .string hs rfl),
    if_pos (all_read Json.asStr .string (fun _ => rfl) a),
    filterMap_read Json.asStr .string fun _ => rfl]

theorem fromJson_ints {a : List Int64} (h : ∃ i ∈ a, i.toInt < 0) :
    fromJson (.array (a.map fun i => .number (.ofInt64 i))) = .ok (.intArray a) := by
  obtain ⟨i, hi, hneg⟩ := h
  have hno : (Json.number (.ofInt64 i)).asU64 = none := Number.asU64_ofInt64.trans (if_pos hneg)
  rw [fromJson, if_neg (not_all_read Json.asU64 (fun i => .number (.ofInt64 i)) hi hno),
    if_pos (all_read Json.asI64 (fun i => .number (.ofInt64 i)) Number.asI64_ofInt64 a),
    filterMap_read Json.asI64 (fun i => .number (.ofInt64 i)) Number.asI64_ofInt64]

/-- Finite weights that are read back are inserted one after the other. -/
theorem sparseOf_weights {es : List (String × F32)} (hfin : ∀ e ∈ es, e.2.isFinite = true)
    (hback : ∀ e ∈ es, (SerdeJson.readF32 e.2).1.toF32 = e.2) (out : SortedMap String F32) :
    sparseOf (es.map fun e => (e.1, .ofF32 e.2)) out = .ok (out.insertAll es) := by
  induction es generalizing out with
  | nil => rfl
  | cons e es ih =>
      rw [List.forall_mem_cons] at hfin hback
      rw [List.map_cons, sparseOf, Json.ofF32, if_pos hfin.1]
      dsimp only [Json.asF64, Number.asF64]
      rw [hback.1, SortedMap.insertAll_cons]
      exact ih hfin.2 hback.2 _

/-- A field that is no number is refused. -/
theorem numbers_of_sparseOf {fields : List (String × Json)} {out m : SortedMap String F32}
    (h : sparseOf fields out = .ok m) : ∀ e ∈ fields, e.2.asF64.isSome = true := by
  induction fields generalizing out with
  | nil => exact fun _ he => absurd he List.not_mem_nil
  | cons e fields ih =>
      obtain ⟨dim, weight⟩ := e
      rw [sparseOf] at h
      split at h
      · cases h
      · next hw =>
        intro e he
        rcases List.mem_cons.mp he with rfl | he
        · exact hw ▸ rfl
        · exact ih h e he

namespace Value

/-- **A value that was inferred is inferred again** from what is written of it. -/
theorem fromJson_toJson {v : Value} (h : v.Inferred) (hback : v.ReadsBack)
    (hfin : v.FiniteWeights) : fromJson v.toJson = .ok v := by
  cases h with
  | int h => rw [toJson, Number.ofInt64, dif_pos h]; rfl
  | f64 h =>
      rw [toJson, Json.ofF64, if_pos h]
      exact congrArg (Except.ok ∘ Value.f64) (hback h)
  | stringArray h => exact fromJson_strings h
  | uintArray a => exact fromJson_uints a
  | intArray h => exact fromJson_ints h
  | sparse m =>
      have hmem {e : String × F32} (he : e ∈ m.entries) : e.2 ∈ m.values := List.mem_map_of_mem he
      have hm := sparseOf_weights (fun e he => hfin _ (hmem he))
        (fun e he => hback _ (hmem he) (hfin _ (hmem he))) .empty
      exact congrArg (Except.map Value.sparse)
        (hm.trans (congrArg Except.ok (SortedMap.ofList_entries m)))
  | _ => rfl

/-- What is written with an infinite weight is refused. -/
theorem finiteWeights_of_fromJson {v w : Value} (h : fromJson v.toJson = .ok w) :
    v.FiniteWeights := by
  cases v with
  | sparse m =>
      obtain ⟨m', hm', -⟩ := map_eq_ok.mp h
      intro x hx
      obtain ⟨e, he, rfl⟩ := List.mem_map.mp hx
      have hnum := numbers_of_sparseOf hm' _ (List.mem_map_of_mem he)
      rw [Json.ofF32] at hnum
      split_ifs at hnum with hfin
      · exact hfin
      · cases hnum
  | _ => trivial

theorem rereads_datetime {n : Int64} (h : (Value.datetime n).ReadsBack) :
    (Value.datetime n).Rereads .datetime := by
  have hparse : parseDatetime (formatDatetime n) = .ok n := by rw [parseDatetime, h]
  exact congrArg (Except.map Value.datetime) hparse

theorem rereads_f64 {f : F64} (h : (Value.f64 f).ReadsBack) (hfin : f.isFinite = true) :
    (Value.f64 f).Rereads .f64 := by
  rw [Rereads, fromJson_toJson (.f64 hfin) h trivial]
  exact coerce_of_typeOf (v := .f64 f) rfl

/-- **What coercing an inferred value gives is read back.** -/
theorem rereads_of_converts {v w : Value} {ty : Ty} (hv : v.Inferred) (h : v.Converts ty w)
    (hback : w.ReadsBack) (hfin : w.FiniteWeights) : w.Rereads ty := by
  cases h with
  | null => rfl
  | self hty =>
      rw [Rereads, fromJson_toJson hv hback hfin]
      exact coerce_of_typeOf hty
  | @uuid s u _ =>
      have hparse : (Value.string (Crates.uuidToString u)).coerce .uuid = .ok (.uuid u) := by
        have hnull : ¬ (Value.string (Crates.uuidToString u)).isNull = true := Bool.false_ne_true
        have htype : ¬ (Value.string (Crates.uuidToString u)).typeOf = some .uuid := by
          rw [typeOf]
          decide
        rw [coerce.eq_def, if_neg hnull, if_neg htype]
        dsimp only
        rw [show Crates.uuidParse (Crates.uuidToString u) = .ok u from hback]
      exact hparse
  | datetime _ => exact rereads_datetime hback
  | @uintInt u i hi =>
      rw [Rereads, toJson, Number.ofInt64_of_uint hi]
      exact congrArg (Except.map Value.int) hi
  | uintF64 u => exact rereads_f64 hback (F64.isFinite_ofUInt64 u)
  | intF64 i => exact rereads_f64 hback (F64.isFinite_ofInt64 i)
  | @intUint i u hu =>
      cases hv with
      | int hneg =>
          have := uint64TryFrom_eq_ok hu
          omega
  | uintDatetime _ => exact rereads_datetime hback
  | decimals a =>
      cases a with
      | nil => rfl
      | cons u a =>
          rw [Rereads, toJson, fromJson_strings (a := (u :: a).map _) (List.cons_ne_nil _ _)]
          exact coerce_of_typeOf (v := .stringArray _) rfl
  | noUints => rfl
  | noInts => rfl
  | @uintsInts a b hb =>
      rw [Rereads, toJson, ofInt64_of_uints hb, fromJson_uints]
      exact congrArg (Except.map Value.intArray) hb

end Value

/-! ## Weights that fit -/

/-- Every weight of a sparse vector is a number that rounds to a finite `f32`. A field of an object
is the last of its name. -/
def Json.WeightsFit : Json → Prop
  | .object fields => ∀ dim weight f, (SortedMap.ofList fields).get dim = some weight →
      weight.asF64 = some f → f.toF32.isFinite = true
  | _ => True

/-- The weights that are read are the fields as `f32`. -/
theorem get_sparseOf {fields : List (String × Json)} {out m : SortedMap String F32}
    {read : SortedMap String Json} (h : sparseOf fields out = .ok m)
    (hout : ∀ dim, out.get dim = (read.get dim).bind fun w => w.asF64.map F64.toF32) (dim : String) :
    m.get dim = ((read.insertAll fields).get dim).bind fun w => w.asF64.map F64.toF32 := by
  induction fields generalizing out read with
  | nil =>
      cases h
      exact hout dim
  | cons e fields ih =>
      obtain ⟨d, weight⟩ := e
      rw [sparseOf] at h
      split at h
      · cases h
      · next w hw =>
        refine ih h fun dim => ?_
        rw [SortedMap.get_insert, SortedMap.get_insert]
        split_ifs
        · rw [Option.bind_some, hw, Option.map_some]
        · exact hout dim

/-- The weights of what is inferred are finite exactly when the fields fit. -/
theorem finiteWeights_iff {raw : Json} {v : Value} (h : fromJson raw = .ok v) :
    v.FiniteWeights ↔ raw.WeightsFit := by
  cases raw with
  | object fields =>
      obtain ⟨m, hm, rfl⟩ := map_eq_ok.mp h
      have hget := @get_sparseOf _ _ _ _ _ .empty hm fun _ => rfl
      constructor
      · intro hfin dim weight f hw hf
        refine hfin _ (SortedMap.mem_values_iff.mpr ⟨dim, (hget dim).trans ?_⟩)
        rw [SortedMap.ofList] at hw
        rw [hw, Option.bind_some, hf, Option.map_some]
      · intro hfit w hw
        obtain ⟨dim, hw⟩ := SortedMap.mem_values_iff.mp hw
        rw [hget dim, Option.bind_eq_some_iff] at hw
        obtain ⟨weight, hweight, hw⟩ := hw
        obtain ⟨f, hf, rfl⟩ := Option.map_eq_some_iff.mp hw
        exact hfit dim weight f hweight hf
  | array items =>
      refine iff_of_true ?_ trivial
      rw [fromJson] at h
      split_ifs at h <;> cases h <;> trivial
  | number n =>
      refine iff_of_true ?_ trivial
      cases Value.inferred_of_fromJson h with
      | sparse m => cases n <;> cases h
      | _ => trivial
  | _ => cases h; exact Iff.rfl

omit [SerdeJson] in
/-- Coercion keeps the weights. -/
theorem Value.finiteWeights_converts {v w : Value} {ty : Ty} (h : v.Converts ty w) :
    w.FiniteWeights ↔ v.FiniteWeights := by
  cases h <;> exact Iff.rfl

/-! ## Filters -/

namespace Filter

/-- Every literal of the filter satisfies the predicate. -/
inductive Literals (P : Value → Prop) : Filter → Prop
  | and {fs : List Filter} (h : ∀ f ∈ fs, Literals P f) : Literals P (.and fs)
  | or {fs : List Filter} (h : ∀ f ∈ fs, Literals P f) : Literals P (.or fs)
  | not {f : Filter} (h : Literals P f) : Literals P (.not f)
  | cmp {key : String} {op : Op} {value : Value} (h : P value) : Literals P (.cmp key op value)

/-- The filters `fromJsonFilter` returns. -/
inductive Parsed : Filter → Prop
  | and {fs : List Filter} (hne : fs ≠ []) (h : ∀ f ∈ fs, Parsed f) : Parsed (.and fs)
  | or {fs : List Filter} (hne : fs ≠ []) (h : ∀ f ∈ fs, Parsed f) : Parsed (.or fs)
  | not {f : Filter} (h : Parsed f) : Parsed (.not f)
  | cmp {key : String} {op : Op} {value : Value} (h : value.Inferred) : Parsed (.cmp key op value)

end Filter

mutual

/-- The weights of every literal of a filter fit. -/
def Json.LiteralsFit : Json → Prop
  | .array [head, operands] =>
    if head.asStr = some "Not" then operands.LiteralsFit
    else
      match operands with
      | .array items => Json.AllLiteralsFit items
      | _ => True
  | .array [_, _, value] => value.WeightsFit
  | _ => True

def Json.AllLiteralsFit : List Json → Prop
  | [] => True
  | item :: items => item.LiteralsFit ∧ Json.AllLiteralsFit items

end

theorem forall₂_of_fromJsonFilters {items : List Json} {fs : List Filter}
    (h : fromJsonFilters items = .ok fs) :
    List.Forall₂ (fun item f => fromJsonFilter item = .ok f) items fs := by
  induction items generalizing fs with
  | nil =>
      cases h
      exact .nil
  | cons item items ih =>
      rw [fromJsonFilters] at h
      split at h
      · cases h
      · next f hf =>
        obtain ⟨fs, hfs, rfl⟩ := map_eq_ok.mp h
        exact .cons hf (ih hfs)

/-- **All that `fromJsonFilter` accepts.** -/
theorem fromJsonFilter_cases {raw : Json} {f : Filter} (h : fromJsonFilter raw = .ok f) :
    (∃ head items fs, raw = .array [head, .array items] ∧ head.asStr ≠ some "Not" ∧ fs ≠ [] ∧
      List.Forall₂ (fun item f => fromJsonFilter item = .ok f) items fs ∧
      (f = .and fs ∨ f = .or fs)) ∨
    (∃ head operands g, raw = .array [head, operands] ∧ head.asStr = some "Not" ∧
      fromJsonFilter operands = .ok g ∧ f = .not g) ∨
    ∃ key op value k o v, raw = .array [key, op, value] ∧ fromJson value = .ok v ∧
      f = .cmp k o v := by
  rw [fromJsonFilter.eq_def] at h
  split at h
  · next head operands =>
    dsimp only at h
    by_cases hand : head.asStr.getD "" = "And" ∨ head.asStr.getD "" = "Or"
    · rw [if_pos hand] at h
      split at h
      · next items =>
        split at h
        · cases h
        · cases h
        · next fs hne hfs =>
          cases h
          refine Or.inl ⟨head, items, fs, rfl, ?_, hne, forall₂_of_fromJsonFilters hfs, ?_⟩
          · intro hno
            rw [hno] at hand
            exact absurd hand (by decide)
          · split_ifs
            · exact Or.inl rfl
            · exact Or.inr rfl
      · cases h
    · rw [if_neg hand] at h
      split_ifs at h with hnot
      obtain ⟨g, hg, rfl⟩ := map_eq_ok.mp h
      refine Or.inr (Or.inl ⟨head, operands, g, rfl, ?_, hg, rfl⟩)
      cases hs : head.asStr with
      | none =>
          rw [hs] at hnot
          exact absurd hnot (by decide)
      | some s =>
          rw [hs] at hnot
          exact congrArg some hnot
  · next key op value =>
    split at h
    · cases h
    · next k hk =>
      split at h
      · cases h
      · next o ho =>
        obtain ⟨v, hv, rfl⟩ := map_eq_ok.mp h
        exact Or.inr (Or.inr ⟨key, op, value, k, o, v, rfl, hv, rfl⟩)
  · cases h
  · cases h

omit [Crates] [SerdeJson] in
theorem Json.allLiteralsFit_iff {items : List Json} :
    Json.AllLiteralsFit items ↔ ∀ item ∈ items, item.LiteralsFit := by
  induction items with
  | nil => exact iff_of_true trivial (fun _ h => absurd h List.not_mem_nil)
  | cons item items ih => rw [Json.AllLiteralsFit, ih, List.forall_mem_cons]

namespace Filter

/-- What holds of the operands of a connective. -/
theorem parsed_operands {fs : List Filter} {items : List Json}
    (h : List.Forall₂ (fun item f => fromJsonFilter item = .ok f) items fs)
    (ih : ∀ f ∈ fs, ∀ raw, fromJsonFilter raw = .ok f →
      f.Parsed ∧ (f.Literals Value.FiniteWeights ↔ raw.LiteralsFit)) :
    (∀ f ∈ fs, f.Parsed) ∧
      ((∀ f ∈ fs, f.Literals Value.FiniteWeights) ↔ Json.AllLiteralsFit items) := by
  rw [Json.allLiteralsFit_iff]
  induction h with
  | nil => exact ⟨fun _ h => absurd h List.not_mem_nil, Iff.rfl.trans (by simp)⟩
  | cons hf _ ihs =>
      simp only [List.forall_mem_cons] at ih ⊢
      obtain ⟨hp, hiff⟩ := ih.1 _ hf
      obtain ⟨hps, hiffs⟩ := ihs ih.2
      exact ⟨⟨hp, hps⟩, and_congr hiff hiffs⟩

/-- **What a filter read from JSON is**, and when its weights are finite. -/
theorem parsed_of_fromJsonFilter {f : Filter} {raw : Json} (h : fromJsonFilter raw = .ok f) :
    f.Parsed ∧ (f.Literals Value.FiniteWeights ↔ raw.LiteralsFit) := by
  induction f using Filter.induct generalizing raw with
  | and fs ih =>
      obtain ⟨head, items, fs', rfl, hhead, hne, hfs, hf⟩ | ⟨_, _, _, _, _, _, hf⟩ |
        ⟨_, _, _, _, _, _, _, _, hf⟩ := fromJsonFilter_cases h
      · obtain rfl : fs = fs' := by
          rcases hf with hf | hf <;> cases hf
          rfl
        obtain ⟨hp, hiff⟩ := parsed_operands hfs fun f hf raw => ih f hf
        rw [Json.LiteralsFit, if_neg hhead, ← hiff]
        exact ⟨.and hne hp, ⟨fun h => by cases h; assumption, .and⟩⟩
      · cases hf
      · cases hf
  | or fs ih =>
      obtain ⟨head, items, fs', rfl, hhead, hne, hfs, hf⟩ | ⟨_, _, _, _, _, _, hf⟩ |
        ⟨_, _, _, _, _, _, _, _, hf⟩ := fromJsonFilter_cases h
      · obtain rfl : fs = fs' := by
          rcases hf with hf | hf <;> cases hf
          rfl
        obtain ⟨hp, hiff⟩ := parsed_operands hfs fun f hf raw => ih f hf
        rw [Json.LiteralsFit, if_neg hhead, ← hiff]
        exact ⟨.or hne hp, ⟨fun h => by cases h; assumption, .or⟩⟩
      · cases hf
      · cases hf
  | not f ih =>
      obtain ⟨_, _, _, _, _, _, _, hf⟩ | ⟨head, operands, g, rfl, hhead, hg, hf⟩ |
        ⟨_, _, _, _, _, _, _, _, hf⟩ := fromJsonFilter_cases h
      · rcases hf with hf | hf <;> cases hf
      · cases hf
        obtain ⟨hp, hiff⟩ := ih hg
        rw [Json.LiteralsFit.eq_def]
        dsimp only
        rw [if_pos hhead, ← hiff]
        exact ⟨.not hp, ⟨fun h => by cases h; assumption, .not⟩⟩
      · cases hf
  | cmp key op value =>
      obtain ⟨_, _, _, _, _, _, _, hf⟩ | ⟨_, _, _, _, _, _, hf⟩ |
        ⟨_, _, raw, _, _, _, rfl, hv, hf⟩ := fromJsonFilter_cases h
      · rcases hf with hf | hf <;> cases hf
      · cases hf
      · cases hf
        rw [Json.LiteralsFit, ← finiteWeights_iff hv]
        exact ⟨.cmp (Value.inferred_of_fromJson hv), ⟨fun h => by cases h; assumption, .cmp⟩⟩

/-- Filters that are each read back are read back as a list. -/
theorem fromJsonFilters_toJsons {fs : List Filter}
    (h : ∀ f ∈ fs, fromJsonFilter f.toJson = .ok f) : fromJsonFilters (toJsons fs) = .ok fs := by
  induction fs with
  | nil => rfl
  | cons f fs ih =>
      rw [List.forall_mem_cons] at h
      rw [toJsons, fromJsonFilters, h.1]
      dsimp only
      rw [ih h.2]
      rfl

/-- Operands that are read are read as the connective their keyword names. -/
theorem fromJsonFilter_and {items : List Json} {fs : List Filter} (hne : fs ≠ [])
    (h : fromJsonFilters items = .ok fs) :
    fromJsonFilter (.array [.string "And", .array items]) = .ok (.and fs) := by
  obtain ⟨f, fs, rfl⟩ := List.exists_cons_of_ne_nil hne
  rw [fromJsonFilter.eq_def]
  dsimp only [Json.asStr, Option.getD_some]
  rw [if_pos (Or.inl rfl), h]
  rfl

theorem fromJsonFilter_or {items : List Json} {fs : List Filter} (hne : fs ≠ [])
    (h : fromJsonFilters items = .ok fs) :
    fromJsonFilter (.array [.string "Or", .array items]) = .ok (.or fs) := by
  obtain ⟨f, fs, rfl⟩ := List.exists_cons_of_ne_nil hne
  rw [fromJsonFilter.eq_def]
  dsimp only [Json.asStr, Option.getD_some]
  rw [if_pos (Or.inr rfl), h]
  rfl

theorem fromJsonFilter_not {operands : Json} {f : Filter} (h : fromJsonFilter operands = .ok f) :
    fromJsonFilter (.array [.string "Not", operands]) = .ok (.not f) := by
  rw [fromJsonFilter.eq_def]
  dsimp only [Json.asStr, Option.getD_some]
  rw [if_neg (by decide), if_pos rfl, h]
  rfl

theorem fromJsonFilter_cmp {key : String} {op : Op} {raw : Json} {value : Value}
    (h : fromJson raw = .ok value) :
    fromJsonFilter (.array [.string key, .string op.name, raw]) = .ok (.cmp key op value) := by
  rw [fromJsonFilter, Json.asStr]
  dsimp only
  rw [Op.ofJson, Op.ofName_name]
  dsimp only
  rw [h]
  rfl

/-- **A filter that was read is read again** from what is written of it. -/
theorem fromJsonFilter_toJson {f : Filter} (h : f.Parsed) (hback : f.Literals Value.ReadsBack)
    (hfin : f.Literals Value.FiniteWeights) : fromJsonFilter f.toJson = .ok f := by
  induction h with
  | and hne _ ih =>
      cases hback with | and hback =>
      cases hfin with | and hfin =>
      exact fromJsonFilter_and hne
        (fromJsonFilters_toJsons fun f hf => ih f hf (hback f hf) (hfin f hf))
  | or hne _ ih =>
      cases hback with | or hback =>
      cases hfin with | or hfin =>
      exact fromJsonFilter_or hne
        (fromJsonFilters_toJsons fun f hf => ih f hf (hback f hf) (hfin f hf))
  | not _ ih =>
      cases hback with | not hback =>
      cases hfin with | not hfin =>
      exact fromJsonFilter_not (ih hback hfin)
  | cmp hv =>
      cases hback with | cmp hback =>
      cases hfin with | cmp hfin =>
      exact fromJsonFilter_cmp (Value.fromJson_toJson hv hback hfin)

/-- Every operand is read from what was written of it. -/
theorem of_mem_toJsons {R : Json → Filter → Prop} {fs gs : List Filter}
    (h : List.Forall₂ R (toJsons fs) gs) : ∀ f ∈ fs, ∃ g, R f.toJson g := by
  induction fs generalizing gs with
  | nil => exact fun _ hf => absurd hf List.not_mem_nil
  | cons f fs ih =>
      cases h with
      | cons hg hgs => exact List.forall_mem_cons.mpr ⟨⟨_, hg⟩, ih hgs⟩

/-- A filter that is read back at all has finite weights. -/
theorem finiteWeights_of_fromJsonFilter {f g : Filter} (h : fromJsonFilter f.toJson = .ok g) :
    f.Literals Value.FiniteWeights := by
  induction f using Filter.induct generalizing g with
  | and fs ih =>
      obtain ⟨_, _, _, hraw, _, _, hfs, _⟩ | ⟨_, _, _, hraw, hhead, _, _⟩ |
        ⟨_, _, _, _, _, _, hraw, _, _⟩ := fromJsonFilter_cases h
      · cases hraw
        refine .and fun f hf => ?_
        obtain ⟨g, hg⟩ := of_mem_toJsons hfs f hf
        exact ih f hf hg
      · cases hraw
        exact absurd (Option.some.inj hhead) (by decide)
      · cases hraw
  | or fs ih =>
      obtain ⟨_, _, _, hraw, _, _, hfs, _⟩ | ⟨_, _, _, hraw, hhead, _, _⟩ |
        ⟨_, _, _, _, _, _, hraw, _, _⟩ := fromJsonFilter_cases h
      · cases hraw
        refine .or fun f hf => ?_
        obtain ⟨g, hg⟩ := of_mem_toJsons hfs f hf
        exact ih f hf hg
      · cases hraw
        exact absurd (Option.some.inj hhead) (by decide)
      · cases hraw
  | not f ih =>
      obtain ⟨_, _, _, hraw, hhead, _, _, _⟩ | ⟨_, _, _, hraw, _, hg, _⟩ |
        ⟨_, _, _, _, _, _, hraw, _, _⟩ := fromJsonFilter_cases h
      · simp only [toJson, Json.array.injEq, List.cons.injEq] at hraw
        exact absurd (hraw.1 ▸ rfl) hhead
      · simp only [toJson, Json.array.injEq, List.cons.injEq] at hraw
        obtain ⟨-, rfl, -⟩ := hraw
        exact .not (ih hg)
      · cases hraw
  | cmp key op value =>
      obtain ⟨_, _, _, hraw, _, _, _, _⟩ | ⟨_, _, _, hraw, _, _, _⟩ |
        ⟨_, _, _, _, _, _, hraw, hv, _⟩ := fromJsonFilter_cases h
      · cases hraw
      · cases hraw
      · cases hraw
        exact .cmp (Value.finiteWeights_of_fromJson hv)

end Filter

/-! ## What is read can be written back -/

/-- **What is read from JSON can be written and read again exactly when no weight of a sparse vector
is beyond the range of `f32`.** -/
theorem json_rereads_iff (raw : Json) :
    (∀ v ty, (fromJson raw >>= (·.coerce ty)) = .ok v → v.ReadsBack →
      (v.Rereads ty ↔ raw.WeightsFit)) ∧
    ∀ f, fromJsonFilter raw = .ok f → f.Literals Value.ReadsBack →
      (fromJsonFilter f.toJson = .ok f ↔ raw.LiteralsFit) := by
  constructor
  · intro w ty h hback
    obtain ⟨v, hv, hw⟩ := bind_eq_ok.mp h
    have hconv := Value.converts_of_coerce hw
    rw [← finiteWeights_iff hv, ← Value.finiteWeights_converts hconv]
    refine ⟨fun h => ?_, Value.rereads_of_converts (Value.inferred_of_fromJson hv) hconv hback⟩
    obtain ⟨v', hv', -⟩ := bind_eq_ok.mp h
    exact Value.finiteWeights_of_fromJson hv'
  · intro f h hback
    obtain ⟨hparsed, hiff⟩ := Filter.parsed_of_fromJsonFilter h
    rw [← hiff]
    exact ⟨Filter.finiteWeights_of_fromJsonFilter, Filter.fromJsonFilter_toJson hparsed hback⟩

end Rereads

/-- `f32 as f64`, which is exact. -/
def F32.toF64 (a : F32) : F64 :=
  ⟨⟨Float.Model.UnpackedFloat.pack .binary64
    (match Float.Model.UnpackedFloat.unpack .binary32 a.bits.toBitVec with
      | .finite s m e _ => .round .binary64 s m e
      | other => other)⟩⟩

/-- Text that is read as the number it was written for. -/
@[reducible] def SerdeJson.exact : SerdeJson where
  readF64 f := if h : f.isFinite = true then ⟨f, h⟩ else ⟨⟨0⟩, rfl⟩
  readF32 w := if h : w.toF64.isFinite = true then ⟨w.toF64, h⟩ else ⟨⟨0⟩, rfl⟩
  display _ := ""

/-- A sparse vector of one weight. -/
def Json.oneWeight (f : F64) (h : f.isFinite = true) : Json := .object [("a", .number (.float f h))]

def Value.oneWeight (w : F32) : Value := .sparse (SortedMap.empty.insert "a" w)

theorem fromJson_oneWeight [Crates] [SerdeJson] {f : F64} (h : f.isFinite = true) {w : F32}
    (hw : f.toF32 = w) : fromJson (.oneWeight f h) = .ok (.oneWeight w) := hw ▸ rfl

/-- A weight of one and a half, and a filter on it, are read back. -/
theorem small_weight_rereads :
    let _ := Crates.inert
    let _ := SerdeJson.exact
    (Value.oneWeight ⟨0x3fc00000⟩).Rereads .sparseF16 ∧
      fromJsonFilter (Filter.not (.cmp "k" .eq (.oneWeight ⟨0x3fc00000⟩))).toJson =
        .ok (.not (.cmp "k" .eq (.oneWeight ⟨0x3fc00000⟩))) := by
  intro _ _
  have hv := fromJson_oneWeight (f := ⟨0x3ff8000000000000⟩) (by decide) (w := ⟨0x3fc00000⟩)
    (by decide +kernel)
  have hf := Filter.fromJsonFilter_not (@Filter.fromJsonFilter_cmp _ _ "k" .eq _ _ hv)
  have hback : (Value.oneWeight ⟨0x3fc00000⟩).ReadsBack := by
    intro w hw _
    obtain rfl := List.mem_singleton.mp hw
    decide +kernel
  have hfin : (Value.oneWeight ⟨0x3fc00000⟩).FiniteWeights := by
    intro w hw
    obtain rfl := List.mem_singleton.mp hw
    decide
  exact ⟨((json_rereads_iff _).1 _ .sparseF16 (bind_eq_ok.mpr ⟨_, hv, rfl⟩) hback).mpr
      ((finiteWeights_iff hv).mp hfin),
    ((json_rereads_iff _).2 _ hf (.not (.cmp hback))).mpr
      ((Filter.parsed_of_fromJsonFilter hf).2.mp (.not (.cmp hfin)))⟩

/-- A weight of `1e39` becomes an infinity, is written as `null`, and is then refused. -/
theorem infinite_weight_refused :
    let _ := Crates.inert
    let _ := SerdeJson.exact
    ∃ raw v f, (fromJson raw >>= (·.coerce .sparseF16)) = .ok v ∧ v.ReadsBack ∧
      ¬ v.Rereads .sparseF16 ∧
      fromJsonFilter (.array [.string "k", .string "Eq", raw]) = .ok f ∧
      f.Literals Value.ReadsBack ∧ fromJsonFilter f.toJson ≠ .ok f := by
  intro _ _
  have hv := fromJson_oneWeight (f := ⟨0x48078287f49c4a1d⟩) (by decide) (w := ⟨0x7f800000⟩)
    (by decide +kernel)
  have hback : (Value.oneWeight ⟨0x7f800000⟩).ReadsBack := by
    intro w hw hfin
    obtain rfl := List.mem_singleton.mp hw
    exact absurd hfin (by decide)
  have hinf : ¬ (Value.oneWeight ⟨0x7f800000⟩).FiniteWeights := fun h =>
    absurd (h _ (List.mem_singleton_self _)) (by decide)
  refine ⟨_, _, _, bind_eq_ok.mpr ⟨_, hv, rfl⟩, hback, fun h => ?_,
    @Filter.fromJsonFilter_cmp _ _ _ .eq _ _ hv, .cmp hback, fun h => ?_⟩
  · obtain ⟨_, h, -⟩ := bind_eq_ok.mp h
    exact hinf (Value.finiteWeights_of_fromJson h)
  · cases Filter.finiteWeights_of_fromJsonFilter h with
    | cmp h => exact hinf h

end Fckdb
