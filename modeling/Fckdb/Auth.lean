import Fckdb.RecordCodec
import Mathlib.Data.List.DropRight

/-! # Authentication

`Auth`: which bearer token stands for which organisation, read from the environment, and
`resolve`, which decides about a request by its `Authorization` header. -/

namespace Fckdb

/-! ## Text -/

/-- `char::is_whitespace`: the Unicode `White_Space` property. -/
def isWhitespace (c : Char) : Bool :=
  let n := c.toNat
  (9 ≤ n && n ≤ 13) || n == 0x20 || n == 0x85 || n == 0xA0 || n == 0x1680 ||
    (0x2000 ≤ n && n ≤ 0x200A) || n == 0x2028 || n == 0x2029 || n == 0x202F || n == 0x205F ||
    n == 0x3000

/-- `str::trim`. -/
def trim (s : String) : String :=
  .ofList ((s.toList.dropWhile isWhitespace).rdropWhile isWhitespace)

/-- `str::split` at a character. -/
def splitAt (c : Char) (s : String) : List String := (s.toList.splitOn c).map .ofList

/-- What stands before and after the first `c`. -/
def splitOnceFrom (c : Char) : List Char → Option (List Char × List Char)
  | [] => none
  | x :: rest => if x = c then some ([], rest) else (splitOnceFrom c rest).map fun p => (x :: p.1, p.2)

/-- `str::split_once`. -/
def splitOnce (c : Char) (s : String) : Option (String × String) :=
  (splitOnceFrom c s.toList).map fun p => (.ofList p.1, .ofList p.2)

/-- `str::strip_prefix`. -/
def stripStart (start s : String) : Option String :=
  if start.toList <+: s.toList then some (.ofList (s.toList.drop start.length)) else none

theorem splitOnceFrom_eq_some_iff {c : Char} {s before after : List Char} :
    splitOnceFrom c s = some (before, after) ↔ s = before ++ c :: after ∧ c ∉ before := by
  induction s generalizing before with
  | nil => simp [splitOnceFrom]
  | cons x rest ih =>
      rw [splitOnceFrom]
      split_ifs with hx
      · subst hx
        cases before with
        | nil => simp [eq_comm]
        | cons y before => simp +contextual [eq_comm]
      · cases before with
        | nil => simp [hx]
        | cons y before =>
            rw [Option.map_eq_some_iff]
            constructor
            · rintro ⟨p, hp, heq⟩
              cases heq
              obtain ⟨hrest, hc⟩ := ih.mp hp
              exact ⟨congrArg (x :: ·) hrest, List.not_mem_cons_of_ne_of_not_mem (Ne.symm hx) hc⟩
            · rintro ⟨heq, hc⟩
              obtain ⟨rfl, hrest⟩ := List.cons_eq_cons.mp heq
              exact ⟨(before, after), ih.mpr ⟨hrest, fun h => hc (List.mem_cons_of_mem _ h)⟩, rfl⟩

theorem splitOnce_eq_some_iff {c : Char} {s before after : String} :
    splitOnce c s = some (before, after) ↔
      s.toList = before.toList ++ c :: after.toList ∧ c ∉ before.toList := by
  rw [splitOnce, Option.map_eq_some_iff]
  constructor
  · rintro ⟨p, hp, heq⟩
    cases heq
    rw [String.toList_ofList, String.toList_ofList]
    exact splitOnceFrom_eq_some_iff.mp hp
  · intro h
    refine ⟨(before.toList, after.toList), splitOnceFrom_eq_some_iff.mpr h, ?_⟩
    rw [String.ofList_toList, String.ofList_toList]

theorem stripStart_eq_some_iff {start s rest : String} :
    stripStart start s = some rest ↔ s = start ++ rest := by
  rw [stripStart]
  constructor
  · split_ifs with h
    · rintro ⟨⟩
      obtain ⟨l, hl⟩ := h
      rw [← String.toList_inj, String.toList_append, String.toList_ofList, ← hl, ← String.length_toList,
        List.drop_left]
    · exact fun h => nomatch h
  · rintro rfl
    rw [String.toList_append, if_pos (List.prefix_append _ _), ← String.length_toList, List.drop_left,
      String.ofList_toList]

theorem notMem_of_mem_splitOn {α : Type*} [DecidableEq α] {c : α} {l part : List α}
    (h : part ∈ l.splitOn c) : c ∉ part := by
  induction l generalizing part with
  | nil =>
      rw [List.splitOn_nil] at h
      obtain rfl := List.mem_singleton.mp h
      exact List.not_mem_nil
  | cons x l ih =>
      rw [List.splitOn_cons_eq_if_modifyHead] at h
      split_ifs at h with hx
      · rcases List.mem_cons.mp h with rfl | h
        · exact List.not_mem_nil
        · exact ih h
      · obtain ⟨first, rest, hl⟩ := List.exists_cons_of_ne_nil (List.splitOn_ne_nil c l)
        rw [hl, List.modifyHead_cons] at h
        have hne : c ≠ x := fun hc => hx (beq_iff_eq.mpr hc.symm)
        rcases List.mem_cons.mp h with rfl | h
        · exact List.not_mem_cons_of_ne_of_not_mem hne (ih (hl ▸ List.mem_cons_self))
        · exact ih (hl ▸ List.mem_cons_of_mem _ h)

/-! ## Headers -/

/-- `header::HeaderMap`: the headers in order, names in lower case. -/
abbrev HeaderMap := List (String × Bytes)

/-- `headers.get(name)`: the first value. -/
def HeaderMap.get (headers : HeaderMap) (name : String) : Option Bytes :=
  (headers.find? (·.1 = name)).map (·.2)

/-- `HeaderValue::to_str`: visible ASCII and tabs only. -/
def toStr (value : Bytes) : Option String :=
  if value.all fun b => (32 ≤ b && b < 127) || b == 9 then ofUtf8 value else none

/-! ## The token table -/

/-- The environment variables `FCKDB_TOKENS` and `FCKDB_TOKEN`, as `std::env::var` gives them. -/
structure Env where
  tokens : Option String
  token : Option String

/-- Bearer token to organisation. -/
structure Auth where
  tokens : List (String × String) := []
  deriving DecidableEq, Repr

namespace Auth

/-- `Auth::from_env`. -/
def fromEnv (env : Env) : Auth :=
  match env.tokens, env.token with
  | some multi, _ =>
      ⟨((splitAt ',' multi).filterMap (splitOnce ':')).map fun p => (trim p.1, trim p.2)⟩
  | none, some single => ⟨[(single, "default")]⟩
  | none, none => {}

def disabled (auth : Auth) : Bool := auth.tokens.isEmpty

/-- `ct_eq`: the differences of all bytes are gathered before the verdict. -/
def ctEq (a b : Bytes) : Bool :=
  if a.length ≠ b.length then false
  else (a.zip b).foldl (fun acc p => acc ||| (p.1 ^^^ p.2)) 0 == 0

/-- The organisation of a request; every token is compared, and the last match stands. -/
def resolve (auth : Auth) (headers : HeaderMap) : Option String :=
  if auth.disabled then some "default"
  else do
    let value ← headers.get "authorization"
    let value ← toStr value
    let presented ← stripStart "Bearer " value
    auth.tokens.foldl (fun found p => if ctEq (utf8 p.1) (utf8 presented) then some p.2 else found) none

theorem fold_differences_eq_zero (l : List (UInt8 × UInt8)) (acc : UInt8) :
    l.foldl (fun acc p => acc ||| (p.1 ^^^ p.2)) acc = 0 ↔ acc = 0 ∧ ∀ p ∈ l, p.1 = p.2 := by
  induction l generalizing acc with
  | nil => simp
  | cons p l ih =>
      rw [List.foldl_cons, ih, UInt8.or_eq_zero_iff, UInt8.xor_eq_zero_iff, List.forall_mem_cons, and_assoc]

/-- The comparison is equality of the bytes. -/
theorem ctEq_iff {a b : Bytes} : ctEq a b = true ↔ a = b := by
  rw [ctEq]
  split_ifs with hlen
  · exact ⟨fun h => (nomatch h), fun h => absurd (congrArg List.length h) hlen⟩
  · rw [beq_iff_eq, fold_differences_eq_zero, and_iff_right rfl]
    constructor
    · intro h
      refine List.ext_getElem (not_not.mp hlen) fun i ha hb => ?_
      have hi : i < (a.zip b).length := by rw [List.length_zip]; exact Nat.lt_min.mpr ⟨ha, hb⟩
      simpa using h _ (List.getElem_mem hi)
    · rintro rfl p hp
      obtain ⟨i, hi, rfl⟩ := List.getElem_of_mem hp
      simp

theorem utf8_injective : Function.Injective utf8 := fun s t h => by
  have := congrArg ofUtf8 h
  rw [ofUtf8_utf8, ofUtf8_utf8] at this
  exact Option.some.inj this

/-- The search over the table ends with an organisation of the presented token, if there is one. -/
theorem lastMatch_cases (tokens : List (String × String)) (presented : String) (found : Option String) :
    (tokens.foldl (fun found p => if ctEq (utf8 p.1) (utf8 presented) then some p.2 else found) found =
        found ∧ ∀ org, (presented, org) ∉ tokens) ∨
      ∃ org, (presented, org) ∈ tokens ∧
        tokens.foldl (fun found p => if ctEq (utf8 p.1) (utf8 presented) then some p.2 else found)
          found = some org := by
  induction tokens generalizing found with
  | nil => exact .inl ⟨rfl, fun _ => List.not_mem_nil⟩
  | cons p tokens ih =>
      obtain ⟨token, org⟩ := p
      rw [List.foldl_cons]
      dsimp only
      rcases ih (if ctEq (utf8 token) (utf8 presented) then some org else found) with
        ⟨hfold, hnone⟩ | ⟨org', hmem, hfold⟩
      · rw [hfold]
        split_ifs with heq
        · obtain rfl := utf8_injective (ctEq_iff.mp heq)
          exact .inr ⟨org, List.mem_cons_self, rfl⟩
        · refine .inl ⟨rfl, fun org' hmem => ?_⟩
          rcases List.mem_cons.mp hmem with h | h
          · cases h
            exact heq (ctEq_iff.mpr rfl)
          · exact hnone org' h
      · exact .inr ⟨org', List.mem_cons_of_mem _ hmem, hfold⟩

end Auth

/-! ## Failing closed -/

/-- The request carries `Authorization: Bearer tok`. -/
def HeaderMap.Presents (headers : HeaderMap) (tok : String) : Prop :=
  headers.get "authorization" = some (utf8 ("Bearer " ++ tok))

namespace Env

/-- One of the two variables is set. -/
def IsSet (env : Env) : Prop := env.tokens.isSome ∨ env.token.isSome

/-- What the documentation says the variables mean: `FCKDB_TOKENS` is a list `tok1:org1,tok2:org2`, and
`FCKDB_TOKEN` without it is the token of the organisation `default`. -/
def Configures (env : Env) (tok org : String) : Prop :=
  match env.tokens with
  | some multi => ∃ entries : List (List Char), multi.toList = [','].intercalate entries ∧
      (∀ entry ∈ entries, ',' ∉ entry) ∧ ∃ t o : String, t.toList ++ ':' :: o.toList ∈ entries ∧
        ':' ∉ t.toList ∧ trim t = tok ∧ trim o = org
  | none => env.token = some tok ∧ org = "default"

/-- **Failing closed**: a request is admitted only with a token that is not empty, as an organisation
configured for that token; or both variables are unset. -/
def FailsClosed (env : Env) : Prop :=
  ∀ headers org, (Auth.fromEnv env).resolve headers = some org →
    ¬ env.IsSet ∨ ∃ tok, tok ≠ "" ∧ headers.Presents tok ∧ env.Configures tok org

/-- The table of a set variable is what the variable configures. -/
theorem mem_tokens_iff {env : Env} (h : env.IsSet) {tok org : String} :
    (tok, org) ∈ (Auth.fromEnv env).tokens ↔ env.Configures tok org := by
  obtain ⟨tokens, token⟩ := env
  cases tokens with
  | none =>
      cases token with
      | none => simp [IsSet] at h
      | some single => simp [Auth.fromEnv, Configures, eq_comm]
  | some multi =>
      simp only [Auth.fromEnv, Configures, List.mem_map, List.mem_filterMap, splitAt]
      constructor
      · rintro ⟨⟨t, o⟩, ⟨_, ⟨entry, hentry, rfl⟩, hsplit⟩, heq⟩
        obtain ⟨hpair, ht⟩ := splitOnce_eq_some_iff.mp hsplit
        cases heq
        rw [String.toList_ofList] at hpair
        refine ⟨multi.toList.splitOn ',', (List.intercalate_splitOn _).symm,
          fun e he => notMem_of_mem_splitOn he, t, o, hpair ▸ hentry, ht, rfl, rfl⟩
      · rintro ⟨entries, hmulti, hcomma, t, o, hentry, ht, rfl, rfl⟩
        refine ⟨(t, o), ⟨_, ⟨_, ?_, rfl⟩, splitOnce_eq_some_iff.mpr ⟨String.toList_ofList, ht⟩⟩, rfl⟩
        rw [hmulti, List.splitOn_intercalate _ hcomma (List.ne_nil_of_mem hentry)]
        exact hentry

/-- A request that a table admits presents a token of the table. -/
theorem presents_of_resolve {auth : Auth} {headers : HeaderMap} {org : String}
    (hne : auth.tokens ≠ []) (h : auth.resolve headers = some org) :
    ∃ tok, headers.Presents tok ∧ (tok, org) ∈ auth.tokens := by
  rw [Auth.resolve, Auth.disabled, if_neg (by simpa using hne)] at h
  obtain ⟨value, hvalue, h⟩ := Option.bind_eq_some_iff.mp h
  obtain ⟨text, htext, h⟩ := Option.bind_eq_some_iff.mp h
  obtain ⟨tok, htok, h⟩ := Option.bind_eq_some_iff.mp h
  refine ⟨tok, ?_, ?_⟩
  · obtain rfl := stripStart_eq_some_iff.mp htok
    rw [toStr] at htext
    split_ifs at htext
    rw [HeaderMap.Presents, hvalue, utf8_of_ofUtf8 htext]
  · rcases Auth.lastMatch_cases auth.tokens tok none with ⟨hfold, -⟩ | ⟨org', hmem, hfold⟩
    · exact nomatch hfold.symm.trans h
    · obtain rfl := Option.some.inj (hfold.symm.trans h)
      exact hmem

/-- A header that ends after the scheme presents the empty token. -/
theorem resolve_empty {auth : Auth} {org : String} (h : ("", org) ∈ auth.tokens) :
    ∃ org', auth.resolve [("authorization", utf8 "Bearer ")] = some org' := by
  have htext : toStr (utf8 "Bearer ") = some "Bearer " := by
    rw [toStr, if_pos (by decide), ofUtf8_utf8]
  have hstart : stripStart "Bearer " "Bearer " = some "" := stripStart_eq_some_iff.mpr rfl
  rcases Auth.lastMatch_cases auth.tokens "" none with ⟨-, hnone⟩ | ⟨org', -, hfold⟩
  · exact absurd h (hnone org)
  · refine ⟨org', ?_⟩
    rw [Auth.resolve, Auth.disabled, if_neg (by simpa using List.ne_nil_of_mem h)]
    calc (toStr (utf8 "Bearer ")).bind (fun text => (stripStart "Bearer " text).bind fun tok =>
          auth.tokens.foldl (fun found p => if Auth.ctEq (utf8 p.1) (utf8 tok) then some p.2 else found)
            none)
        = (stripStart "Bearer " "Bearer ").bind fun tok => auth.tokens.foldl
            (fun found p => if Auth.ctEq (utf8 p.1) (utf8 tok) then some p.2 else found) none := by
          rw [htext, Option.bind_some]
      _ = some org' := by rw [hstart, Option.bind_some, hfold]

/-- **Exactly when authentication fails closed**: a set variable has to configure a token, and no empty
one. -/
theorem failsClosed_iff (env : Env) :
    env.FailsClosed ↔ (env.IsSet →
      (∃ tok org, env.Configures tok org) ∧ ∀ tok org, env.Configures tok org → tok ≠ "") := by
  constructor
  · intro h hset
    constructor
    · -- an empty table admits a request without any header
      by_contra hnone
      have hdisabled : (Auth.fromEnv env).resolve [] = some "default" := by
        rw [Auth.resolve, if_pos]
        rw [Auth.disabled, List.isEmpty_iff, List.eq_nil_iff_forall_not_mem]
        exact fun p hp => hnone ⟨p.1, p.2, (mem_tokens_iff hset).mp hp⟩
      rcases h [] "default" hdisabled with hunset | ⟨tok, -, hpresents, -⟩
      · exact hunset hset
      · exact nomatch hpresents
    · -- an empty token is presented by a header that ends after the scheme
      rintro _ org hconf rfl
      obtain ⟨org', hresolve⟩ := resolve_empty ((mem_tokens_iff hset).mpr hconf)
      rcases h _ _ hresolve with hunset | ⟨tok, hne, hpresents, -⟩
      · exact hunset hset
      · have hsame : utf8 "Bearer " = utf8 ("Bearer " ++ tok) := Option.some.inj hpresents
        have htext : "Bearer " ++ "" = "Bearer " ++ tok := Auth.utf8_injective hsame
        exact hne ((String.append_right_inj _).mp htext).symm
  · intro h headers org hresolve
    by_cases hset : env.IsSet
    · obtain ⟨⟨tok, org₀, hconf⟩, hnonempty⟩ := h hset
      have hne := List.ne_nil_of_mem ((mem_tokens_iff hset).mpr hconf)
      obtain ⟨tok, hpresents, hmem⟩ := presents_of_resolve hne hresolve
      have hconf := (mem_tokens_iff hset).mp hmem
      exact .inr ⟨tok, hnonempty tok org hconf, hpresents, hconf⟩
    · exact .inl hset

/-- A value without a separator turns authentication off. -/
theorem separatorless_not_failsClosed : ¬ (⟨some "secret-token", none⟩ : Env).FailsClosed := by
  intro h
  rcases h [] "default" (by decide) with hunset | ⟨tok, -, hpresents, -⟩
  · exact hunset (.inl rfl)
  · exact nomatch hpresents

end Env

end Fckdb
