import Fckdb.Auth
import Fckdb.WriteRequest
import Mathlib.Data.List.Perm.Subperm
import Mathlib.Data.String.Basic

/-! # Responses of the embedding endpoint

What `HttpEmbedder::embed` makes of a response: it decodes the body and puts every embedding at the index
that it comes with. What it returns is the embeddings by index, every index once (`respond_returned`). It
panics on some bodies that it does not decode: the message quotes the first 200 bytes of the body, and the
slice panics when these end within a character (`endsWell_respond_iff`). -/

namespace Fckdb

/-- How a call ends. -/
inductive Ended (α : Type)
  | returned (result : Except Error α)
  | panicked

/-- The status line of a response. -/
structure StatusCode where
  code : Nat
  display : String

/-- `StatusCode::is_success`. -/
def StatusCode.isSuccess (status : StatusCode) : Bool := 200 ≤ status.code && status.code < 300

/-- One embedding of a response. -/
structure EmbedDatum where
  embedding : List F32
  index : Nat
  deriving DecidableEq

structure EmbedResponse where
  data : List EmbedDatum

/-- `serde_json` on the text of a body: what it parses, the fields of an object as they come in the text, and the
text of its errors. -/
class SerdeText where
  parse : String → Option Json
  error : String → String

section

variable [Crates] [SerdeJson]

/-- `Deserialize` of a `usize`. -/
def usizeOfJson (raw : Json) : Option Nat := raw.asU64.map UInt64.toNat

/-- The fields of a datum so far: one that comes twice is refused, one that is not known is skipped. -/
def EmbedDatum.ofFields : List (String × Json) → Option (List F32) → Option Nat → Option EmbedDatum
  | [], embedding, index => embedding.map (⟨·, index.getD 0⟩)
  | (name, raw) :: fields, embedding, index =>
    if name = "embedding" then
      if embedding.isSome then none
      else do ofFields fields (some (← (vectorOfJson raw).toOption)) index
    else if name = "index" then
      if index.isSome then none
      else do ofFields fields embedding (some (← usizeOfJson raw))
    else ofFields fields embedding index

/-- `Deserialize` of a datum, also from a sequence of its fields. The index may be left out. -/
def EmbedDatum.ofJson : Json → Option EmbedDatum
  | .object fields => ofFields fields none none
  | .array [embedding] => do return ⟨← (vectorOfJson embedding).toOption, 0⟩
  | .array [embedding, index] => do return ⟨← (vectorOfJson embedding).toOption, ← usizeOfJson index⟩
  | _ => none

def dataOfJson : Json → Option (List EmbedDatum)
  | .array items => items.mapM EmbedDatum.ofJson
  | _ => none

def EmbedResponse.ofFields : List (String × Json) → Option (List EmbedDatum) → Option EmbedResponse
  | [], data => data.map (⟨·⟩)
  | (name, raw) :: fields, data =>
    if name = "data" then
      if data.isSome then none
      else do ofFields fields (some (← dataOfJson raw))
    else ofFields fields data

/-- `Deserialize` of a response. -/
def EmbedResponse.ofJson : Json → Option EmbedResponse
  | .object fields => ofFields fields none
  | .array [data] => do return ⟨← dataOfJson data⟩
  | _ => none

/-- `serde_json::from_str` of a response. -/
def EmbedResponse.fromStr [SerdeText] (body : String) : Option EmbedResponse := do ofJson (← SerdeText.parse body)

end

/-! ## Placing by index -/

/-- Put every embedding into the slot of its index. -/
def place : List EmbedDatum → List (List F32) → Except Error (List (List F32))
  | [], out => .ok out
  | datum :: data, out =>
    match out[datum.index]? with
    | none => .error (.bail ("embedding response index " ++ toString datum.index ++ " is out of range"))
    | some slot =>
      if slot ≠ [] then .error (.bail ("embedding response repeated index " ++ toString datum.index))
      else if datum.embedding = [] then .error (.bail "embedding endpoint returned an empty vector")
      else if datum.embedding.any (!·.isFinite) then
        .error (.bail "embedding endpoint returned a non-finite component")
      else place data (out.set datum.index datum.embedding)

/-- The vectors of a decoded response to `n` texts. -/
def EmbedResponse.vectors (parsed : EmbedResponse) (n : Nat) : Except Error (List (List F32)) := do
  if parsed.data.length ≠ n then
    .error (.bail ("embedding endpoint returned " ++ toString parsed.data.length ++ " vectors for " ++
      toString n ++ " inputs"))
  else
    let out ← place parsed.data (List.replicate n [])
    match out.findIdx? (· = []) with
    | some missing => .error (.bail ("embedding response is missing index " ++ toString missing))
    | none => .ok out

/-! ## Quoting the body -/

/-- `&s[..n]`: the characters of the first `n` bytes, unless these end within one. -/
def sliceTo : Nat → List Char → Option (List Char)
  | 0, _ => some []
  | _ + 1, [] => none
  | n + 1, c :: cs => if c.utf8Size ≤ n + 1 then (sliceTo (n + 1 - c.utf8Size) cs).map (c :: ·) else none

/-- The beginning of a body for an error message; the slice may panic. -/
def truncate (s : String) : Option String :=
  let s := trim s
  if s.utf8ByteSize ≤ 200 then some s
  else (sliceTo 200 s.toList).map fun front => .ofList front ++ "…"

/-- `HttpEmbedder::embed` from the response on. -/
def respond [Crates] [SerdeJson] [SerdeText] (status : StatusCode) (body : String) (n : Nat) :
    Ended (List (List F32)) :=
  if !status.isSuccess then
    .returned (.error (.bail ("embedding endpoint returned " ++ status.display ++ ": " ++ trim body)))
  else
    match EmbedResponse.fromStr body with
    | some parsed => .returned (parsed.vectors n)
    | none =>
      match truncate body with
      | some text => .returned (.error (Error.context ⟨⟨.serdeJson, SerdeText.error body⟩, []⟩
          ("decoding the embedding response: " ++ text)))
      | none => .panicked

/-! ## What is returned -/

/-- Slots that embeddings were put into. -/
structure Scattered (data : List EmbedDatum) (out vectors : List (List F32)) : Prop where
  length_eq : vectors.length = out.length
  nodup : (data.map EmbedDatum.index).Nodup
  free : ∀ datum ∈ data, out[datum.index]? = some []
  placed : ∀ datum ∈ data, vectors[datum.index]? = some datum.embedding
  proper : ∀ datum ∈ data, datum.embedding ≠ [] ∧ ∀ f ∈ datum.embedding, f.isFinite = true
  kept : ∀ {i : Nat} {v : List F32}, v ≠ [] → out[i]? = some v → vectors[i]? = some v

theorem placed_of_place {data : List EmbedDatum} {out vectors : List (List F32)}
    (h : place data out = .ok vectors) : Scattered data out vectors := by
  induction data generalizing out with
  | nil =>
      cases h
      exact ⟨rfl, .nil, nofun, nofun, nofun, fun _ => id⟩
  | cons datum data ih =>
      rw [place] at h
      split at h
      · cases h
      · next slot hslot =>
        split_ifs at h with hfull hempty hfinite
        have hfree : out[datum.index]? = some [] := by rw [hslot, of_not_not hfull]
        have hfinite : ∀ f ∈ datum.embedding, f.isFinite = true := fun f hf => by
          by_contra hno
          exact hfinite (List.any_eq_true.mpr ⟨f, hf, by rw [eq_false_of_ne_true hno]; rfl⟩)
        have hlt := (List.getElem?_eq_some_iff.mp hfree).1
        have hput : (out.set datum.index datum.embedding)[datum.index]? = some datum.embedding :=
          List.getElem?_set_self hlt
        obtain ⟨hlength, hnodup, hrest, hplaced, hproper, hkept⟩ := ih h
        -- the slot is taken now, and no later embedding finds it free
        have hother {d : EmbedDatum} (hd : d ∈ data) : d.index ≠ datum.index := fun heq => by
          have := hrest d hd
          rw [heq, hput] at this
          exact hempty (Option.some.inj this)
        refine ⟨hlength.trans List.length_set, ?_, ?_, ?_, ?_, fun {i v} hv hi => hkept hv ?_⟩
        · rw [List.map_cons, List.nodup_cons]
          refine ⟨fun hmem => ?_, hnodup⟩
          obtain ⟨d, hd, heq⟩ := List.mem_map.mp hmem
          exact hother hd heq
        · refine List.forall_mem_cons.mpr ⟨hfree, fun d hd => ?_⟩
          rw [← hrest d hd, List.getElem?_set_ne (hother hd).symm]
        · exact List.forall_mem_cons.mpr ⟨hkept hempty hput, hplaced⟩
        · exact List.forall_mem_cons.mpr ⟨⟨hempty, hfinite⟩, hproper⟩
        · rw [List.getElem?_set_ne, hi]
          rintro rfl
          rw [hfree] at hi
          exact hv (Option.some.inj hi).symm

/-- The vectors of `n` texts are the embeddings by index, every index once. -/
structure Attributed (n : Nat) (data : List EmbedDatum) (vectors : List (List F32)) : Prop where
  length_eq : vectors.length = n
  once : (data.map EmbedDatum.index).Perm (List.range n)
  placed : ∀ datum ∈ data, vectors[datum.index]? = some datum.embedding
  proper : ∀ vector ∈ vectors, vector ≠ [] ∧ ∀ f ∈ vector, f.isFinite = true

/-- **Vectors are attributed** by the index they come with. -/
theorem attributed_of_vectors {parsed : EmbedResponse} {n : Nat} {vectors : List (List F32)}
    (h : parsed.vectors n = .ok vectors) : Attributed n parsed.data vectors := by
  rw [EmbedResponse.vectors] at h
  split_ifs at h with hcount
  obtain ⟨out, hout, h⟩ := bind_eq_ok.mp h
  split at h
  · cases h
  · cases h
    obtain ⟨hlength, hnodup, hfree, hplaced, hproper, -⟩ := placed_of_place hout
    rw [List.length_replicate] at hlength
    have hrange : parsed.data.map EmbedDatum.index ⊆ List.range n := fun i hi => by
      obtain ⟨datum, hdatum, rfl⟩ := List.mem_map.mp hi
      have hlt := (List.getElem?_eq_some_iff.mp (hfree datum hdatum)).1
      rw [List.length_replicate] at hlt
      exact List.mem_range.mpr hlt
    -- as many as there are slots, none twice
    have hperm := (hnodup.subperm hrange).perm_of_length_le (by
      rw [List.length_range, List.length_map]
      exact (of_not_not hcount).ge)
    refine ⟨hlength, hperm, hplaced, fun vector hvector => ?_⟩
    obtain ⟨i, hi⟩ := List.mem_iff_getElem?.mp hvector
    have hlt := (List.getElem?_eq_some_iff.mp hi).1
    obtain ⟨datum, hdatum, rfl⟩ := List.mem_map.mp (hperm.mem_iff.mpr (List.mem_range.mpr (hlength ▸ hlt)))
    rw [Option.some.inj (hi.symm.trans (hplaced datum hdatum))]
    exact hproper datum hdatum

/-! ## Where the quotation ends -/

/-- The quotation of a body can be cut: it is short, or some characters of it have 200 bytes. -/
def Quotable (body : String) : Prop :=
  (trim body).utf8ByteSize ≤ 200 ∨
    ∃ front back : String, trim body = front ++ back ∧ front.utf8ByteSize = 200

theorem sliceTo_eq_some_iff {n : Nat} {cs front : List Char} :
    sliceTo n cs = some front ↔ ∃ back, cs = front ++ back ∧ String.utf8Len front = n := by
  fun_induction sliceTo n cs generalizing front with
  | case1 cs =>
      rw [Option.some.injEq]
      constructor
      · rintro rfl
        exact ⟨cs, rfl, rfl⟩
      · rintro ⟨back, -, hn⟩
        exact (String.utf8Len_eq_zero.mp hn).symm
  | case2 n =>
      refine iff_of_false nofun ?_
      rintro ⟨back, hcs, hn⟩
      rw [(List.append_eq_nil_iff.mp hcs.symm).1] at hn
      cases hn
  | case3 n c cs hle ih =>
      rw [Option.map_eq_some_iff]
      constructor
      · rintro ⟨front, hfront, rfl⟩
        obtain ⟨back, rfl, hn⟩ := ih.mp hfront
        refine ⟨back, rfl, ?_⟩
        rw [String.utf8Len_cons, hn, Nat.sub_add_cancel hle]
      · rintro ⟨back, hcs, hn⟩
        cases front with
        | nil => cases hn
        | cons d front =>
            obtain ⟨rfl, rfl⟩ := List.cons_eq_cons.mp hcs
            rw [String.utf8Len_cons] at hn
            exact ⟨front, ih.mpr ⟨back, rfl, by omega⟩, rfl⟩
  | case4 n c cs hlt =>
      refine iff_of_false nofun ?_
      rintro ⟨back, hcs, hn⟩
      cases front with
      | nil => cases hn
      | cons d front =>
          obtain ⟨rfl, -⟩ := List.cons_eq_cons.mp hcs
          rw [String.utf8Len_cons] at hn
          omega

theorem truncate_isSome_iff (body : String) : (truncate body).isSome ↔ Quotable body := by
  have hslice (s : String) : (sliceTo 200 s.toList).isSome ↔
      ∃ front back : String, s = front ++ back ∧ front.utf8ByteSize = 200 := by
    rw [Option.isSome_iff_exists]
    constructor
    · rintro ⟨front, hfront⟩
      obtain ⟨back, hs, hn⟩ := sliceTo_eq_some_iff.mp hfront
      refine ⟨.ofList front, .ofList back, ?_, (String.utf8ByteSize_ofList front).trans hn⟩
      rw [← String.ofList_append, ← hs, String.ofList_toList]
    · rintro ⟨front, back, rfl, hn⟩
      refine ⟨front.toList, sliceTo_eq_some_iff.mpr ⟨back.toList, String.toList_append, ?_⟩⟩
      rw [← String.utf8ByteSize_ofList, String.ofList_toList, hn]
  rw [truncate, Quotable, ← hslice]
  split
  · next hle => exact iff_of_true rfl (.inl hle)
  · next hlong =>
    rw [Option.isSome_map]
    exact (or_iff_right hlong).symm

/-- A quotation is 200 bytes and an ellipsis at most. -/
theorem truncate_size_le {body text : String} (h : truncate body = some text) : text.utf8ByteSize ≤ 203 := by
  rw [truncate] at h
  split_ifs at h with hshort
  · cases h
    exact hshort.trans (by decide)
  · obtain ⟨front, hfront, rfl⟩ := Option.map_eq_some_iff.mp h
    obtain ⟨-, -, hn⟩ := sliceTo_eq_some_iff.mp hfront
    rw [String.utf8ByteSize_append, String.utf8ByteSize_ofList, hn]
    decide

section

variable [Crates] [SerdeJson] [SerdeText]

/-- **What is returned** is an error, or the embeddings of the decoded body by index. -/
theorem respond_returned {status : StatusCode} {body : String} {n : Nat} {vectors : List (List F32)}
    (h : respond status body n = .returned (.ok vectors)) :
    ∃ parsed, EmbedResponse.fromStr body = some parsed ∧ Attributed n parsed.data vectors := by
  rw [respond] at h
  split_ifs at h
  · cases h
  · split at h
    · next parsed hparsed => exact ⟨parsed, hparsed, attributed_of_vectors (Ended.returned.inj h)⟩
    · split at h
      · cases h
      · cases h

theorem respond_panicked {status : StatusCode} {body : String} {n : Nat} (hstatus : status.isSuccess = true)
    (hparsed : EmbedResponse.fromStr body = none) (htext : truncate body = none) :
    respond status body n = .panicked := by
  rw [respond, hstatus, hparsed, htext]
  rfl

/-- The call returns, and vectors only if they are attributed. -/
def EndsWell (body : String) (n : Nat) : Ended (List (List F32)) → Prop
  | .returned (.ok vectors) => ∃ parsed, EmbedResponse.fromStr body = some parsed ∧ Attributed n parsed.data vectors
  | .returned (.error _) => True
  | .panicked => False

/-- **Calls end well**, but for a long body that is not decoded and not cut between characters. -/
theorem endsWell_respond_iff (status : StatusCode) (body : String) (n : Nat) :
    EndsWell body n (respond status body n) ↔
      (status.isSuccess = true → (EmbedResponse.fromStr body).isSome ∨ Quotable body) := by
  have hreturned {result : Except Error (List (List F32))} (h : respond status body n = .returned result) :
      EndsWell body n (respond status body n) := by
    rw [h]
    cases result with
    | ok vectors => exact respond_returned h
    | error e => trivial
  rw [← truncate_isSome_iff]
  cases hstatus : status.isSuccess with
  | false => exact iff_of_true (hreturned (by rw [respond, hstatus]; rfl)) nofun
  | true =>
      cases hparsed : EmbedResponse.fromStr body with
      | some parsed =>
          have hrespond : respond status body n = .returned (parsed.vectors n) := by
            rw [respond, hstatus, hparsed]
            rfl
          exact iff_of_true (hreturned hrespond) fun _ => .inl rfl
      | none =>
          cases htext : truncate body with
          | some text =>
              refine iff_of_true (hreturned (by rw [respond, hstatus, hparsed, htext]; rfl)) fun _ => .inr rfl
          | none =>
              refine iff_of_false ?_ fun h => (h rfl).elim nofun nofun
              rw [respond_panicked hstatus hparsed htext]
              exact id

end

/-- A page of 201 bytes that ends with a character of two: the message about it is never made. -/
theorem not_endsWell_long_body :
    let _ := Crates.inert; let _ := SerdeJson.exact; let _ : SerdeText := ⟨fun _ => none, fun _ => "expected value"⟩
    ¬ ∀ status body n, EndsWell body n (respond status body n) := by
  intro _ _ _ h
  obtain ⟨body, hcut⟩ : ∃ body, truncate body = none :=
    ⟨.ofList (List.replicate 199 'x' ++ ['é']), by decide +kernel⟩
  have hends := h ⟨200, "200 OK"⟩ body 1
  rw [respond_panicked rfl rfl hcut] at hends
  exact hends

end Fckdb
