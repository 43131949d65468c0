import Fckdb.ExactScores
import Fckdb.Filter

/-! # Full-text predicates on the index

`all_tokens`, `token_sequence` and `fuzzy` answer from the inverted lists what the scan's full-text
operators answer from the text. The lists file exactly the tokens of the texts (`Files`), and on them
the first agrees with the scan always, the others up to two differences: a phrase of one token is
tokenized again, and `fuzzy` asks for a near token of *some* token of the query. -/

namespace Fckdb

/-! ## Phrases in a list -/

section Phrases

variable {α : Type}

/-- A phrase is in a list where each of its elements is at its offset from a start. -/
theorem exists_start_iff {first : α} {rest l : List α} :
    (∃ s, l[s]? = some first ∧ ∀ e ∈ rest.zipIdx 1, l[s + e.2]? = some e.1) ↔
      first :: rest <:+: l := by
  rw [List.infix_iff_getElem?]
  constructor
  · rintro ⟨s, hfirst, hrest⟩
    have hall : ∀ i (h : i < (first :: rest).length), l[i + s]? = some (first :: rest)[i] := by
      intro i hi
      cases i with
      | zero => rwa [Nat.zero_add]
      | succ i =>
          have hi : i < rest.length := Nat.lt_of_succ_lt_succ hi
          have hmem : (rest[i], i + 1) ∈ rest.zipIdx 1 :=
            List.mk_mem_zipIdx_iff_le_and_getElem?_sub.mpr
              ⟨Nat.le_add_left 1 i, List.getElem?_eq_getElem hi⟩
          rw [Nat.add_comm]
          exact hrest _ hmem
    obtain ⟨hlast, -⟩ := List.getElem?_eq_some_iff.mp (hall rest.length (Nat.lt_succ_self _))
    exact ⟨s, by rw [List.length_cons]; omega, hall⟩
  · rintro ⟨s, -, hall⟩
    refine ⟨s, ?_, fun e he => ?_⟩
    · simpa using hall 0 (Nat.zero_lt_succ _)
    · obtain ⟨hle, hget⟩ := List.mk_mem_zipIdx_iff_le_and_getElem?_sub.mp he
      obtain ⟨hi, heq⟩ := List.getElem?_eq_some_iff.mp hget
      have hrest := hall (e.2 - 1 + 1) (Nat.succ_lt_succ hi)
      rw [List.getElem_cons_succ, heq] at hrest
      rw [← hrest]
      congr 1
      omega

/-- Some window is the phrase exactly when the list contains the phrase. -/
theorem any_windows_iff [DecidableEq α] {phrase : List α} (hne : phrase ≠ []) (l : List α) :
    (windows phrase.length l).any (· == phrase) = true ↔ phrase <:+: l := by
  induction l with
  | nil => simp [windows, hne]
  | cons a l ih =>
      rw [windows]
      split_ifs with hlen
      · refine iff_of_false (by simp) fun h => ?_
        have := h.length_le
        omega
      · rw [List.any_cons, Bool.or_eq_true, ih, List.infix_cons_iff, List.prefix_iff_eq_take,
          beq_iff_eq, eq_comm]

end Phrases

/-! ## What the scan asks -/

/-- What a full-text operator asks of the tokens of a text and the terms of a query. -/
def Op.holds (op : Op) (doc terms : List String) : Bool :=
  if terms.isEmpty then false
  else
    match op with
    | .containsAllTokens => terms.all (doc.contains ·)
    | .notContainsAllTokens => !terms.all (doc.contains ·)
    | .containsTokenSequence => (windows (max terms.length 1) doc).any (· == terms)
    | .fuzzy => terms.all fun t =>
        doc.any fun d => levenshteinWithin d t (defaultEditDistance t.toList.length)
    | _ => false

section Asks

variable {doc terms : List String}

theorem holds_containsAllTokens : Op.containsAllTokens.holds doc terms = true ↔
    terms ≠ [] ∧ ∀ t ∈ terms, t ∈ doc := by
  cases terms <;> simp [Op.holds]

theorem holds_containsTokenSequence : Op.containsTokenSequence.holds doc terms = true ↔
    terms ≠ [] ∧ terms <:+: doc := by
  cases terms with
  | nil => simp [Op.holds]
  | cons t terms =>
      have hmax : max (t :: terms).length 1 = (t :: terms).length := max_eq_left (Nat.le_add_left 1 _)
      have hany := any_windows_iff (List.cons_ne_nil t terms) doc
      rw [Op.holds, List.isEmpty_cons, if_neg Bool.false_ne_true, hmax]
      exact hany.trans ⟨fun h => ⟨List.cons_ne_nil t terms, h⟩, fun h => h.2⟩

theorem holds_fuzzy {budget : Nat}
    (hbudget : ∀ t ∈ terms, defaultEditDistance t.toList.length = budget) :
    Op.fuzzy.holds doc terms = true ↔
      terms ≠ [] ∧ ∀ t ∈ terms, ∃ d ∈ doc, levenshteinWithin d t budget = true := by
  cases terms with
  | nil => simp [Op.holds]
  | cons t terms =>
      rw [Op.holds, List.isEmpty_cons, if_neg Bool.false_ne_true]
      simp only [List.all_eq_true, List.any_eq_true, ne_eq, reduceCtorEq, not_false_eq_true, true_and]
      exact forall₂_congr fun t ht => by rw [hbudget t ht]

end Asks

/-! ## Positions -/

theorem mem_positionsOf {tokens : List String} (hlen : tokens.length ≤ 2 ^ 32) {token : String}
    {n : Nat} : n ∈ positionsOf tokens token ↔ tokens[n]? = some token := by
  rw [positionsOf, List.mem_map]
  constructor
  · rintro ⟨⟨t, i⟩, hmem, rfl⟩
    obtain ⟨hzip, ht⟩ := List.mem_filter.mp hmem
    obtain rfl : t = token := of_decide_eq_true ht
    have hget := List.mk_mem_zipIdx_iff_getElem?.mp hzip
    obtain ⟨hi, -⟩ := List.getElem?_eq_some_iff.mp hget
    rwa [asU32_of_lt (hi.trans_le hlen)]
  · intro hget
    obtain ⟨hi, -⟩ := List.getElem?_eq_some_iff.mp hget
    refine ⟨(token, n), List.mem_filter.mpr ⟨List.mk_mem_zipIdx_iff_getElem?.mpr hget, ?_⟩, ?_⟩
    · exact decide_eq_true rfl
    · exact asU32_of_lt (hi.trans_le hlen)

theorem pairwise_positionsOf {tokens : List String} (hlen : tokens.length ≤ 2 ^ 32)
    (token : String) : (positionsOf tokens token).Pairwise (· < ·) := by
  have hzip : tokens.zipIdx.Pairwise (fun p q => p.2 < q.2) := by
    rw [← List.pairwise_map (f := Prod.snd), List.zipIdx_map_snd]
    exact List.pairwise_lt_range'
  refine List.pairwise_map.mpr ((hzip.filter _).imp_of_mem fun {p q} hp hq hlt => ?_)
  have hp := List.snd_lt_of_mem_zipIdx (List.mem_filter.mp hp).1
  have hq := List.snd_lt_of_mem_zipIdx (List.mem_filter.mp hq).1
  rw [asU32_of_lt (by omega), asU32_of_lt (by omega)]
  exact hlt

namespace FtsIndex

variable [Crates]

/-! ## The three searches -/

/-- The documents with a token. -/
def ordinalsOf (x : FtsIndex) (token : String) : Finset Nat :=
  (((x.postings token).getD []).map Posting.ordinal).toFinset

/-- The loop of `all_tokens`: intersect until nothing is left. -/
def intersectAll (x : FtsIndex) : Option (Finset Nat) → List String → Option (Finset Nat)
  | acc, [] => acc
  | acc, token :: rest =>
    let here := x.ordinalsOf token
    let acc := match acc with
      | none => here
      | some prev => prev ∩ here
    if acc = ∅ then some acc else intersectAll x (some acc) rest

/-- `all_tokens`: documents containing every token of the query. -/
def allTokens (x : FtsIndex) (query : String) : Finset Nat :=
  let tokens := x.tokenizer.tokenize query
  if tokens.isEmpty then ∅ else (x.intersectAll none tokens).getD ∅

/-- What following the tokens of a phrase through one document comes to. -/
inductive Trail
  /-- `break 'doc`: a token has no inverted list. -/
  | stop
  /-- `continue 'doc`: the phrase is not in the document. -/
  | next
  /-- Where the phrase starts. -/
  | starts (l : List Nat)

/-- Whether the phrase was found. -/
def Trail.found : Trail → Bool
  | .starts l => !l.isEmpty
  | _ => false

/-- Follow the tokens of a phrase, each with its offset, through the document `ordinal`. -/
def follow (x : FtsIndex) (ordinal : Nat) : List Nat → List (String × Nat) → Trail
  | starts, [] => .starts starts
  | starts, (token, offset) :: rest =>
    match x.postings token with
    | none => .stop
    | some list =>
      match searchKey ordinal (list.map fun p => (p.ordinal, p.positions)) with
      | none => .next
      | some wanted =>
        let starts := starts.filter fun s =>
          (binarySearchBy (compare · (asU32 (s + asU32 offset))) wanted).isSome
        if starts.isEmpty then .next else follow x ordinal starts rest

/-- The loop of `token_sequence` over the documents of the first token. -/
def phraseDocs (x : FtsIndex) (rest : List (String × Nat)) : List Posting → Finset Nat → Finset Nat
  | [], out => out
  | p :: ps, out =>
    match x.follow p.ordinal p.positions rest with
    | .stop => out
    | .next => phraseDocs x rest ps out
    | .starts l => phraseDocs x rest ps (if l.isEmpty then out else insert p.ordinal out)

/-- `token_sequence`: documents containing the tokens adjacent and in order. -/
def tokenSequence (x : FtsIndex) (query : String) : Finset Nat :=
  match x.tokenizer.tokenize query with
  | [] => ∅
  -- the token goes through the tokenizer once more
  | [token] => x.allTokens token
  | token :: rest =>
    match x.postings token with
    | none => ∅
    | some first => x.phraseDocs (rest.zipIdx 1) first ∅

/-- `fuzzy`: documents containing a term within `maxEditDistance` of a token of the query. -/
def fuzzy (x : FtsIndex) (query : String) (maxEditDistance : Nat) : Finset Nat :=
  (x.tokenizer.tokenize query).foldl (fun out token =>
    x.terms.foldl (fun out t =>
      if levenshteinWithin t.1 token maxEditDistance then
        out ∪ (t.2.map Posting.ordinal).toFinset
      else out) out) ∅

/-! ## What the inverted lists file -/

/-- The index files the tokens of the texts `corpus`, each with its positions. -/
structure Files (x : FtsIndex) (corpus : Nat → Option (List String)) : Prop where
  /-- The inverted lists are those of the dictionary. -/
  mem_terms : ∀ token list, (token, list) ∈ x.terms ↔ x.postings token = some list
  /-- Within a list the documents ascend. -/
  ascending : ∀ token list, x.postings token = some list →
    list.Pairwise (fun p q => p.ordinal < q.ordinal)
  mem_postings : ∀ token p, p ∈ (x.postings token).getD [] ↔
    ∃ tokens, corpus p.ordinal = some tokens ∧ token ∈ tokens ∧ p.positions = positionsOf tokens token

section Searches

variable {x : FtsIndex} {corpus : Nat → Option (List String)} (hx : x.Files corpus)

include hx

omit [Crates] in
theorem Files.mem_ordinalsOf {token : String} {o : Nat} :
    o ∈ x.ordinalsOf token ↔ ∃ tokens, corpus o = some tokens ∧ token ∈ tokens := by
  rw [ordinalsOf, List.mem_toFinset, List.mem_map]
  constructor
  · rintro ⟨p, hp, rfl⟩
    obtain ⟨tokens, hc, ht, -⟩ := (hx.mem_postings _ _).mp hp
    exact ⟨tokens, hc, ht⟩
  · rintro ⟨tokens, hc, ht⟩
    exact ⟨⟨o, positionsOf tokens token⟩, (hx.mem_postings _ _).mpr ⟨tokens, hc, ht, rfl⟩, rfl⟩

omit [Crates] hx in
theorem mem_intersectAll {prev : Finset Nat} (tokens : List String) {o : Nat} :
    o ∈ (x.intersectAll (some prev) tokens).getD ∅ ↔
      o ∈ prev ∧ ∀ token ∈ tokens, o ∈ x.ordinalsOf token := by
  induction tokens generalizing prev with
  | nil => simp [intersectAll]
  | cons token rest ih =>
      rw [intersectAll]
      rw [List.forall_mem_cons, ← and_assoc, ← Finset.mem_inter]
      split_ifs with hempty
      · rw [Option.getD_some, hempty]
        simp
      · exact ih

/-- **`all_tokens`**: the documents with every token of the query, if it has any. -/
theorem Files.mem_allTokens {query : String} {o : Nat} :
    o ∈ x.allTokens query ↔ x.tokenizer.tokenize query ≠ [] ∧
      ∃ tokens, corpus o = some tokens ∧ ∀ token ∈ x.tokenizer.tokenize query, token ∈ tokens := by
  rw [allTokens]
  cases htokens : x.tokenizer.tokenize query with
  | nil => simp
  | cons first rest =>
      have hall : o ∈ (x.intersectAll none (first :: rest)).getD ∅ ↔
          ∀ token ∈ first :: rest, o ∈ x.ordinalsOf token := by
        rw [intersectAll, List.forall_mem_cons]
        split_ifs with hempty
        · rw [Option.getD_some, hempty]
          simp
        · exact mem_intersectAll rest
      simp only [List.isEmpty_cons, Bool.false_eq_true, if_false, hall, hx.mem_ordinalsOf, ne_eq,
        reduceCtorEq, not_false_eq_true, true_and]
      constructor
      · intro h
        obtain ⟨tokens, hc, -⟩ := h first List.mem_cons_self
        refine ⟨tokens, hc, fun token ht => ?_⟩
        obtain ⟨tokens', hc', ht'⟩ := h token ht
        obtain rfl := Option.some.inj (hc.symm.trans hc')
        exact ht'
      · rintro ⟨tokens, hc, h⟩ token ht
        exact ⟨tokens, hc, h token ht⟩

/-- **`fuzzy`**: the documents with a token near some token of the query. -/
theorem Files.mem_fuzzy {query : String} {budget o : Nat} :
    o ∈ x.fuzzy query budget ↔ ∃ tokens, corpus o = some tokens ∧
      ∃ token ∈ x.tokenizer.tokenize query, ∃ term ∈ tokens,
        levenshteinWithin term token budget = true := by
  have hinner (token : String) (out : Finset Nat) (terms : List (String × List Posting)) :
      o ∈ terms.foldl (fun out t => if levenshteinWithin t.1 token budget then
        out ∪ (t.2.map Posting.ordinal).toFinset else out) out ↔
        o ∈ out ∨ ∃ t ∈ terms, levenshteinWithin t.1 token budget = true ∧
          o ∈ t.2.map Posting.ordinal := by
    induction terms generalizing out with
    | nil => simp
    | cons t terms ih =>
        rw [List.foldl_cons, ih]
        by_cases ht : levenshteinWithin t.1 token budget = true
        · simp [ht, or_assoc]
        · simp [ht]
  have houter (out : Finset Nat) (tokens : List String) :
      o ∈ tokens.foldl (fun out token => x.terms.foldl (fun out t =>
        if levenshteinWithin t.1 token budget then out ∪ (t.2.map Posting.ordinal).toFinset
        else out) out) out ↔
        o ∈ out ∨ ∃ token ∈ tokens, ∃ t ∈ x.terms, levenshteinWithin t.1 token budget = true ∧
          o ∈ t.2.map Posting.ordinal := by
    induction tokens generalizing out with
    | nil => simp
    | cons token tokens ih =>
        rw [List.foldl_cons, ih, hinner]
        simp [or_assoc]
  have hterm (token : String) : (∃ t ∈ x.terms, levenshteinWithin t.1 token budget = true ∧
      o ∈ t.2.map Posting.ordinal) ↔ ∃ term, levenshteinWithin term token budget = true ∧
        o ∈ x.ordinalsOf term := by
    constructor
    · rintro ⟨⟨term, list⟩, ht, hnear, ho⟩
      refine ⟨term, hnear, ?_⟩
      rw [ordinalsOf, (hx.mem_terms _ _).mp ht]
      exact List.mem_toFinset.mpr ho
    · rintro ⟨term, hnear, ho⟩
      rw [ordinalsOf, List.mem_toFinset] at ho
      cases hlist : x.postings term with
      | none =>
          rw [hlist] at ho
          cases ho
      | some list =>
          rw [hlist] at ho
          exact ⟨(term, list), (hx.mem_terms _ _).mpr hlist, hnear, ho⟩
  rw [fuzzy, houter]
  simp only [Finset.notMem_empty, false_or, hterm, hx.mem_ordinalsOf]
  constructor
  · rintro ⟨token, ht, term, hnear, tokens, hc, hmem⟩
    exact ⟨tokens, hc, token, ht, term, hmem, hnear⟩
  · rintro ⟨tokens, hc, token, ht, term, hmem, hnear⟩
    exact ⟨token, ht, term, hnear, tokens, hc, hmem⟩

omit [Crates] hx in
/-- A phrase with a token that has no inverted list is found nowhere. -/
theorem found_of_postings_none {o : Nat} {rest : List (String × Nat)}
    (h : ∃ e ∈ rest, x.postings e.1 = none) (starts : List Nat) :
    (x.follow o starts rest).found = false := by
  induction rest generalizing starts with
  | nil => simp at h
  | cons e rest ih =>
      rw [List.exists_mem_cons_iff] at h
      rw [follow]
      cases hlist : x.postings e.1 with
      | none => rfl
      | some list =>
          have ih := ih (h.resolve_left fun hnone => nomatch hlist.symm.trans hnone)
          dsimp only
          split
          · rfl
          · split_ifs
            · rfl
            · exact ih _

omit [Crates] hx in
theorem postings_none_of_stop {o : Nat} {rest : List (String × Nat)} {starts : List Nat}
    (h : x.follow o starts rest = .stop) : ∃ e ∈ rest, x.postings e.1 = none := by
  induction rest generalizing starts with
  | nil => cases h
  | cons e rest ih =>
      rw [follow] at h
      rw [List.exists_mem_cons_iff]
      split at h
      · next hnone => exact Or.inl hnone
      · split at h
        · cases h
        · dsimp only at h
          split_ifs at h
          exact Or.inr (ih h)

omit [Crates] hx in
/-- The loop finds the documents of its list that have the phrase: where it stops, no document has. -/
theorem mem_phraseDocs {rest : List (String × Nat)} {ps : List Posting} {out : Finset Nat} {o : Nat} :
    o ∈ x.phraseDocs rest ps out ↔
      o ∈ out ∨ ∃ p ∈ ps, p.ordinal = o ∧ (x.follow p.ordinal p.positions rest).found = true := by
  induction ps generalizing out with
  | nil => simp [phraseDocs]
  | cons p ps ih =>
      rw [phraseDocs, List.exists_mem_cons_iff]
      split
      · next hstop =>
        have hnone := postings_none_of_stop hstop
        simp only [found_of_postings_none hnone, Bool.false_eq_true, and_false, exists_false, or_false]
      · next hnext =>
        rw [ih, hnext]
        simp [Trail.found]
      · next l hl =>
        rw [ih, hl, Trail.found]
        cases l with
        | nil => simp
        | cons s l =>
            simp only [List.isEmpty_cons, Bool.false_eq_true, if_false, Finset.mem_insert,
              Bool.not_false, and_true, eq_comm (b := p.ordinal), or_assoc, or_left_comm]

omit [Crates] in
/-- **Following a phrase** through a document keeps the starts from which each token is at its offset. -/
theorem Files.found_follow {o : Nat} {tokens : List String} (hc : corpus o = some tokens)
    {rest : List (String × Nat)} (hlen : ∀ e ∈ rest, tokens.length + e.2 ≤ 2 ^ 32) {starts : List Nat}
    (hstarts : ∀ s ∈ starts, s < tokens.length) :
    (x.follow o starts rest).found = true ↔
      ∃ s ∈ starts, ∀ e ∈ rest, tokens[s + e.2]? = some e.1 := by
  induction rest generalizing starts with
  | nil =>
      cases starts <;> simp [follow, Trail.found]
  | cons e rest ih =>
      obtain ⟨token, offset⟩ := e
      rw [List.forall_mem_cons] at hlen
      have habsent : token ∉ tokens → ¬ ∃ s ∈ starts, ∀ e ∈ (token, offset) :: rest,
          tokens[s + e.2]? = some e.1 := by
        rintro hnot ⟨s, -, h⟩
        exact hnot (List.mem_of_getElem? (h _ List.mem_cons_self))
      rw [follow]
      cases hlist : x.postings token with
      | none =>
          refine iff_of_false Bool.false_ne_true (habsent fun ht => ?_)
          have hmem := (hx.mem_postings token ⟨o, positionsOf tokens token⟩).mpr ⟨tokens, hc, ht, rfl⟩
          rw [hlist] at hmem
          cases hmem
      | some list =>
          have hsorted : (list.map fun p => (p.ordinal, p.positions)).Pairwise
              (fun a b => a.1 < b.1) := List.pairwise_map.mpr (hx.ascending token list hlist)
          have hlookup (w : List Nat) : searchKey o (list.map fun p => (p.ordinal, p.positions)) =
              some w ↔ token ∈ tokens ∧ w = positionsOf tokens token := by
            rw [searchKey_eq o hsorted, SortedMap.lookupIn_eq_some_iff hsorted, List.mem_map]
            have hmem := hx.mem_postings token
            rw [hlist, Option.getD_some] at hmem
            constructor
            · rintro ⟨p, hp, heq⟩
              obtain ⟨rfl, rfl⟩ := Prod.mk.inj heq
              obtain ⟨tokens', hc', ht, hpos⟩ := (hmem p).mp hp
              obtain rfl := Option.some.inj (hc.symm.trans hc')
              exact ⟨ht, hpos⟩
            · rintro ⟨ht, rfl⟩
              exact ⟨⟨o, positionsOf tokens token⟩, (hmem _).mpr ⟨tokens, hc, ht, rfl⟩, rfl⟩
          dsimp only
          split
          · next hnone =>
            refine iff_of_false Bool.false_ne_true (habsent fun ht => ?_)
            rw [(hlookup _).mpr ⟨ht, rfl⟩] at hnone
            cases hnone
          · next wanted hwanted =>
            obtain ⟨-, rfl⟩ := (hlookup _).mp hwanted
            have hkeep : starts.filter (fun s =>
                (binarySearchBy (compare · (asU32 (s + asU32 offset)))
                  (positionsOf tokens token)).isSome) =
                starts.filter fun s => tokens[s + offset]? = some token := by
              refine List.filter_congr fun s hs => ?_
              have hs := hstarts s hs
              have hle : tokens.length ≤ 2 ^ 32 := (Nat.le_add_right _ _).trans hlen.1
              rw [asU32_of_lt (show offset < 2 ^ 32 by omega),
                asU32_of_lt (show s + offset < 2 ^ 32 by omega), Bool.eq_iff_iff,
                isSome_binarySearchBy_compare (pairwise_positionsOf hle token), mem_positionsOf hle,
                decide_eq_true_iff]
            have hiff : (∃ s ∈ starts.filter fun s => tokens[s + offset]? = some token,
                ∀ e ∈ rest, tokens[s + e.2]? = some e.1) ↔
                ∃ s ∈ starts, ∀ e ∈ (token, offset) :: rest, tokens[s + e.2]? = some e.1 := by
              simp only [List.mem_filter, decide_eq_true_eq, List.forall_mem_cons, and_assoc]
            rw [hkeep, ← hiff]
            split_ifs with hempty
            · rw [List.isEmpty_iff.mp hempty]
              simp [Trail.found]
            · exact ih hlen.2 fun s hs => hstarts s (List.mem_filter.mp hs).1

/-- **`token_sequence`**, for a query of several tokens: the documents that contain them as a phrase. -/
theorem Files.mem_tokenSequence {query first second : String} {rest : List String}
    (hquery : x.tokenizer.tokenize query = first :: second :: rest)
    (hlen : ∀ o tokens, corpus o = some tokens →
      tokens.length + (x.tokenizer.tokenize query).length ≤ 2 ^ 32) {o : Nat} :
    o ∈ x.tokenSequence query ↔
      ∃ tokens, corpus o = some tokens ∧ x.tokenizer.tokenize query <:+: tokens := by
  have hfound {o : Nat} {tokens : List String} (hc : corpus o = some tokens) :
      (x.follow o (positionsOf tokens first) ((second :: rest).zipIdx 1)).found = true ↔
        first :: second :: rest <:+: tokens := by
    have hlen := hlen o tokens hc
    rw [hquery, List.length_cons] at hlen
    have hle : tokens.length ≤ 2 ^ 32 := (Nat.le_add_right _ _).trans hlen
    rw [hx.found_follow hc, ← exists_start_iff]
    · simp only [mem_positionsOf hle]
    · intro e he
      have := List.snd_lt_add_of_mem_zipIdx he
      omega
    · intro s hs
      exact (List.getElem?_eq_some_iff.mp ((mem_positionsOf hle).mp hs)).1
  rw [tokenSequence, hquery]
  dsimp only
  cases hlist : x.postings first with
  | none =>
      refine iff_of_false (Finset.notMem_empty o) ?_
      rintro ⟨tokens, hc, hinfix⟩
      have ht : first ∈ tokens := hinfix.subset List.mem_cons_self
      have hmem := (hx.mem_postings first ⟨o, positionsOf tokens first⟩).mpr ⟨tokens, hc, ht, rfl⟩
      rw [hlist] at hmem
      cases hmem
  | some list =>
      have hmem := hx.mem_postings first
      rw [hlist, Option.getD_some] at hmem
      dsimp only
      rw [mem_phraseDocs]
      simp only [Finset.notMem_empty, false_or]
      constructor
      · rintro ⟨p, hp, rfl, hf⟩
        obtain ⟨tokens, hc, -, hpos⟩ := (hmem p).mp hp
        rw [hpos] at hf
        exact ⟨tokens, hc, (hfound hc).mp hf⟩
      · rintro ⟨tokens, hc, hinfix⟩
        refine ⟨⟨o, positionsOf tokens first⟩, (hmem _).mpr ⟨tokens, hc, ?_, rfl⟩, rfl, ?_⟩
        · exact hinfix.subset List.mem_cons_self
        · exact (hfound hc).mpr hinfix

end Searches

/-! ## The index of a segment -/

section Built

variable (docs : List Doc) (attr : String) (total : Nat) (config : FtsConfig)

/-- The tokens of each document's text. -/
def corpusOf (o : Nat) : Option (List String) :=
  ((docs[o]?).bind (textOf attr)).map config.tokenizer.tokenize

omit [Crates] in
theorem mem_positioned {α β : Type} {h : α → Option β} {l : List α} {o : Nat} {b : β} :
    (o, b) ∈ positioned h l ↔ (l[o]?).bind h = some b := by
  have hmem : (o, b) ∈ positioned h l ↔ (o, b) ∈ (positioned h l).filter (·.1 = o) := by
    rw [List.mem_filter]
    exact ⟨fun hp => ⟨hp, decide_eq_true rfl⟩, fun hp => hp.1⟩
  rw [hmem, filter_positioned, Option.mem_toList, Option.map_eq_some_iff]
  simp

omit [Crates] in
theorem pairwise_positioned {α β : Type} (h : α → Option β) (l : List α) :
    (positioned h l).Pairwise (fun p q => p.1 < q.1) := by
  have hzip : l.zipIdx.Pairwise (fun p q => p.2 < q.2) := by
    rw [← List.pairwise_map (f := Prod.snd), List.zipIdx_map_snd]
    exact List.pairwise_lt_range'
  refine List.pairwise_filterMap.mpr (hzip.imp fun {p q} hlt a ha b hb => ?_)
  obtain ⟨x, -, rfl⟩ := Option.map_eq_some_iff.mp ha
  obtain ⟨y, -, rfl⟩ := Option.map_eq_some_iff.mp hb
  exact hlt

/-- The inverted list of a term names each text once. -/
theorem nodup_ordinals {texts : List (Nat × String)} (h : texts.Pairwise (fun p q => p.1 < q.1))
    (t : Tokenizer) (term : String) :
    ((((texts.flatMap (occurrencesOf t)).filter (·.1 = term)).map (·.2)).map
      Posting.ordinal).Nodup := by
  have hsub : ((((texts.flatMap (occurrencesOf t)).filter (·.1 = term)).map (·.2)).map
      Posting.ordinal).Sublist (texts.map (·.1)) := by
    clear h
    rw [List.filter_flatMap, List.map_flatMap]
    simp only [filter_occurrencesOf]
    induction texts with
    | nil => exact .slnil
    | cons d texts ih =>
        rw [List.flatMap_cons, List.map_append, List.map_cons]
        split_ifs
        · exact ih.cons_cons d.1
        · exact ih.cons d.1
  exact ((List.pairwise_map.mpr h).imp ne_of_lt).sublist hsub

/-- **The index of a segment files the tokens of its texts.** -/
theorem files_build (hlen : docs.length ≤ 2 ^ 32) :
    (build (attributeTexts docs attr) total config).Files (corpusOf docs attr config) where
  mem_terms token list := by
    rw [postings, build_terms, searchKey_eq _ (SortedMap.sorted _)]
    exact (SortedMap.lookupIn_eq_some_iff (SortedMap.sorted _)).symm
  ascending token list hlist := by
    have hperm := postings_perm total config (attributeTexts docs attr) token
    rw [hlist, Option.getD_some] at hperm
    have hnodup : (list.map Posting.ordinal).Nodup := by
      refine ((hperm.map Posting.ordinal).nodup_iff).mpr (nodup_ordinals ?_ _ _)
      rw [attributeTexts_eq hlen]
      exact pairwise_positioned _ _
    have hsorted : list.Pairwise (fun p q => p.ordinal ≤ q.ordinal) := by
      have hget := SortedMap.get_mapValues (fun _ (l : List Posting) =>
        l.insertionSort fun a b => a.ordinal ≤ b.ordinal) (fileAll .empty
          ((attributeTexts docs attr).flatMap (occurrencesOf config.tokenizer))) token
      rw [postings, build_terms, searchKey_eq _ (SortedMap.sorted _)] at hlist
      obtain ⟨l, -, rfl⟩ := Option.map_eq_some_iff.mp (hget.symm.trans hlist)
      exact pairwise_insertionSort_of_mem (fun _ _ _ _ => Nat.le_total _ _)
        fun _ _ _ _ _ _ => Nat.le_trans
    exact hsorted.imp₂ (fun _ _ => Nat.lt_of_le_of_ne) (List.pairwise_map.mp hnodup)
  mem_postings token p := by
    rw [(postings_perm total config (attributeTexts docs attr) token).mem_iff, List.filter_flatMap,
      List.map_flatMap, List.mem_flatMap]
    simp only [filter_occurrencesOf, attributeTexts_eq hlen, corpusOf]
    constructor
    · rintro ⟨⟨o, text⟩, hd, hp⟩
      split_ifs at hp with ht
      · obtain rfl := List.mem_singleton.mp hp
        exact ⟨_, by rw [mem_positioned.mp hd]; rfl, ht, rfl⟩
      · cases hp
    · rintro ⟨tokens, hc, ht, hpos⟩
      obtain ⟨text, htext, rfl⟩ := Option.map_eq_some_iff.mp hc
      refine ⟨(p.ordinal, text), mem_positioned.mpr htext, ?_⟩
      rw [if_pos ht, List.mem_singleton, ← hpos]

theorem corpusOf_eq_some {o : Nat} {tokens : List String} : corpusOf docs attr config o = some tokens ↔
    ∃ d, docs[o]? = some d ∧ ∃ text, textOf attr d = some text ∧
      config.tokenizer.tokenize text = tokens := by
  rw [corpusOf, Option.map_eq_some_iff]
  simp only [Option.bind_eq_some_iff]
  constructor
  · rintro ⟨text, ⟨d, hd, ht⟩, rfl⟩
    exact ⟨d, hd, text, ht, rfl⟩
  · rintro ⟨d, hd, text, ht, rfl⟩
    exact ⟨text, ⟨d, hd, ht⟩, rfl⟩

end Built

/-! ## Index and scan -/

section Agreement

variable (docs : List Doc) (attr : String) (config : FtsConfig) (query : String)

/-- A search of the index finds the documents for which the scan's operator holds. -/
def Finds (found : Finset Nat) (op : Op) : Prop :=
  ∀ o, o ∈ found ↔ ∃ d, docs[o]? = some d ∧
    evalFullText ((d.attrs.get attr).getD .null) op (.string query) config = true

/-- The full-text predicates agree between the index of the documents and the scan. -/
def PredicatesAgree : Prop :=
  let x := build (attributeTexts docs attr) docs.length config
  Finds docs attr config query (x.allTokens query) .containsAllTokens ∧
    Finds docs attr config query (x.tokenSequence query) .containsTokenSequence ∧
    ∀ budget, (∀ token ∈ config.tokenizer.tokenize query,
      defaultEditDistance token.toList.length = budget) →
        Finds docs attr config query (x.fuzzy query budget) .fuzzy

/-- A query of one token finds the same documents when the token is tokenized again. -/
def TokenKept : Prop :=
  ∀ token, config.tokenizer.tokenize query = [token] → ∀ o tokens,
    corpusOf docs attr config o = some tokens → (token ∈ tokens ↔
      config.tokenizer.tokenize token ≠ [] ∧ ∀ t ∈ config.tokenizer.tokenize token, t ∈ tokens)

/-- A document with a token near some token of the query has one near each. -/
def NearEach : Prop :=
  ∀ budget, (∀ token ∈ config.tokenizer.tokenize query,
    defaultEditDistance token.toList.length = budget) → ∀ o tokens,
      corpusOf docs attr config o = some tokens →
        (∃ token ∈ config.tokenizer.tokenize query, ∃ term ∈ tokens,
          levenshteinWithin term token budget = true) →
        ∀ token ∈ config.tokenizer.tokenize query, ∃ term ∈ tokens,
          levenshteinWithin term token budget = true

variable {docs attr config query}

/-- What the scan finds, in terms of the tokens of the texts. -/
theorem exists_evalFullText {op : Op} {o : Nat} :
    (∃ d, docs[o]? = some d ∧
      evalFullText ((d.attrs.get attr).getD .null) op (.string query) config = true) ↔
      ∃ tokens, corpusOf docs attr config o = some tokens ∧
        op.holds tokens (config.tokenizer.tokenize query) = true := by
  have heval (d : Doc) : evalFullText ((d.attrs.get attr).getD .null) op (.string query) config =
      true ↔ ∃ text, textOf attr d = some text ∧
        op.holds (config.tokenizer.tokenize text) (config.tokenizer.tokenize query) = true := by
    have htext : attributeText ((d.attrs.get attr).getD .null) = textOf attr d := by
      rw [textOf]
      cases d.attrs.get attr <;> rfl
    rw [evalFullText, htext]
    cases textOf attr d with
    | none => simp
    | some text =>
        simp only [Option.some.injEq, exists_eq_left']
        cases op <;> exact Iff.rfl
  simp only [heval, corpusOf_eq_some]
  constructor
  · rintro ⟨d, hd, text, ht, h⟩
    exact ⟨_, ⟨d, hd, text, ht, rfl⟩, h⟩
  · rintro ⟨_, ⟨d, hd, text, ht, rfl⟩, h⟩
    exact ⟨d, hd, text, ht, h⟩

theorem finds_iff {found : Finset Nat} {op : Op} : Finds docs attr config query found op ↔
    ∀ o, o ∈ found ↔ ∃ tokens, corpusOf docs attr config o = some tokens ∧
      op.holds tokens (config.tokenizer.tokenize query) = true :=
  forall_congr' fun _ => iff_congr Iff.rfl exists_evalFullText

/-- **`all_tokens` and the scan always agree.** -/
theorem finds_allTokens (hlen : docs.length ≤ 2 ^ 32) : Finds docs attr config query
    ((build (attributeTexts docs attr) docs.length config).allTokens query) .containsAllTokens := by
  rw [finds_iff]
  intro o
  rw [(files_build docs attr docs.length config hlen).mem_allTokens]
  simp only [holds_containsAllTokens]
  constructor
  · rintro ⟨hne, tokens, hc, h⟩
    exact ⟨tokens, hc, hne, h⟩
  · rintro ⟨tokens, hc, hne, h⟩
    exact ⟨hne, tokens, hc, h⟩

/-- **`token_sequence` and the scan agree** on all queries but those of one token that changes when
it is tokenized again. -/
theorem finds_tokenSequence_iff (hlen : docs.length ≤ 2 ^ 32)
    (hshort : ∀ d ∈ docs, ∀ text, textOf attr d = some text →
      (config.tokenizer.tokenize text).length + (config.tokenizer.tokenize query).length ≤ 2 ^ 32) :
    Finds docs attr config query
      ((build (attributeTexts docs attr) docs.length config).tokenSequence query)
      .containsTokenSequence ↔ TokenKept docs attr config query := by
  have hx := files_build docs attr docs.length config hlen
  have hcorpus : ∀ o tokens, corpusOf docs attr config o = some tokens →
      tokens.length + (config.tokenizer.tokenize query).length ≤ 2 ^ 32 := by
    intro o tokens hc
    obtain ⟨d, hd, text, ht, rfl⟩ := (corpusOf_eq_some docs attr config).mp hc
    exact hshort d (List.mem_of_getElem? hd) text ht
  have htokens : (build (attributeTexts docs attr) docs.length config).tokenizer.tokenize query =
      config.tokenizer.tokenize query := rfl
  rw [finds_iff]
  simp only [holds_containsTokenSequence]
  match hquery : config.tokenizer.tokenize query with
  | [] =>
      refine iff_of_true (fun o => ?_) fun token ht => nomatch hquery.symm.trans ht
      rw [tokenSequence, htokens, hquery]
      simp
  | [first] =>
      have hkept : TokenKept docs attr config query ↔ ∀ o tokens,
          corpusOf docs attr config o = some tokens → (first ∈ tokens ↔
            config.tokenizer.tokenize first ≠ [] ∧
              ∀ t ∈ config.tokenizer.tokenize first, t ∈ tokens) := by
        refine ⟨fun h => h first hquery, fun h token ht => ?_⟩
        obtain rfl : token = first := List.singleton_inj.mp (ht.symm.trans hquery)
        exact h
      rw [hkept]
      refine forall_congr' fun o => ?_
      rw [tokenSequence, htokens, hquery]
      dsimp only
      rw [hx.mem_allTokens]
      simp only [List.singleton_infix_iff, ne_eq, List.cons_ne_self, not_false_eq_true, true_and]
      cases corpusOf docs attr config o with
      | none => simp
      | some tokens =>
          simp only [Option.some.injEq, exists_eq_left', forall_eq']
          exact iff_comm
  | first :: second :: rest =>
      refine iff_of_true (fun o => ?_) fun token ht => nomatch hquery.symm.trans ht
      rw [hx.mem_tokenSequence (htokens.trans hquery) hcorpus, htokens, hquery]
      simp

/-- **`fuzzy` and the scan agree** when no document is near some token of the query only. -/
theorem finds_fuzzy_iff (hlen : docs.length ≤ 2 ^ 32) :
    (∀ budget, (∀ token ∈ config.tokenizer.tokenize query,
      defaultEditDistance token.toList.length = budget) → Finds docs attr config query
        ((build (attributeTexts docs attr) docs.length config).fuzzy query budget) .fuzzy) ↔
      NearEach docs attr config query := by
  refine forall₂_congr fun budget hbudget => ?_
  rw [finds_iff]
  simp only [(files_build docs attr docs.length config hlen).mem_fuzzy, holds_fuzzy hbudget]
  have htokens : (build (attributeTexts docs attr) docs.length config).tokenizer.tokenize query =
      config.tokenizer.tokenize query := rfl
  simp only [htokens]
  refine forall_congr' fun o => ⟨fun h tokens hc hsome => ?_, fun h => ?_⟩
  · obtain ⟨tokens', hc', -, hall⟩ := h.mp ⟨tokens, hc, hsome⟩
    obtain rfl := Option.some.inj (hc.symm.trans hc')
    exact hall
  · constructor
    · rintro ⟨tokens, hc, token, ht, hnear⟩
      exact ⟨tokens, hc, List.ne_nil_of_mem ht, h tokens hc ⟨token, ht, hnear⟩⟩
    · rintro ⟨tokens, hc, hne, hall⟩
      obtain ⟨token, ht⟩ := List.exists_mem_of_ne_nil _ hne
      exact ⟨tokens, hc, token, ht, hall token ht⟩

/-- **Index and scan agree on the full-text predicates exactly when** a query of one token may be
tokenized again, and no document is near some token of a query and not near each. -/
theorem predicatesAgree_iff (hlen : docs.length ≤ 2 ^ 32)
    (hshort : ∀ d ∈ docs, ∀ text, textOf attr d = some text →
      (config.tokenizer.tokenize text).length + (config.tokenizer.tokenize query).length ≤ 2 ^ 32) :
    PredicatesAgree docs attr config query ↔
      TokenKept docs attr config query ∧ NearEach docs attr config query := by
  rw [PredicatesAgree, finds_tokenSequence_iff hlen hshort, finds_fuzzy_iff hlen]
  exact ⟨fun h => h.2, fun h => ⟨finds_allTokens hlen, h⟩⟩

end Agreement

end FtsIndex

/-- A document with one text. -/
def Doc.text (text : String) : Doc := ⟨.uint 1, [], SortedMap.empty.insert "t" (.string text)⟩

/-- The Indonesian tokenizer, other settings at their defaults. -/
def FtsConfig.indonesian : FtsConfig := { tokenizer := { language := .indonesian } }

/-- The searches for "red fish" in one document. -/
theorem red_fish_agrees : let _ := Crates.inert
    FtsIndex.PredicatesAgree [.text "red fish"] "t" {} "red fish" := by
  intro _
  have htokens : Tokenizer.tokenize {} "red fish" = ["red", "fish"] := by decide +kernel
  have htext : ∀ d ∈ [Doc.text "red fish"], ∀ text, textOf "t" d = some text →
      text = "red fish" := by
    intro d hd text ht
    obtain rfl := List.mem_singleton.mp hd
    exact (Option.some.inj ht).symm
  refine (FtsIndex.predicatesAgree_iff (by decide) ?_).mpr ⟨?_, ?_⟩
  · intro d hd text ht
    obtain rfl := htext d hd text ht
    rw [htokens]
    decide
  · intro token ht
    cases htokens.symm.trans ht
  · intro budget hbudget o tokens hc _ token ht
    obtain ⟨d, hd, text, hd', rfl⟩ := (FtsIndex.corpusOf_eq_some _ _ _).mp hc
    obtain rfl := htext d (List.mem_of_getElem? hd) text hd'
    refine ⟨token, ht, ?_⟩
    rw [← hbudget token ht]
    rw [htokens] at ht
    simp only [List.mem_cons, List.not_mem_nil, or_false] at ht
    rcases ht with rfl | rfl <;> decide +kernel

/-- "sekolahku" is stemmed to "sekolah" and that, tokenized again, to "seko"; and "alpha zebra" is
found by its first word alone. -/
theorem searches_disagree : let _ := Crates.inert
    ¬ FtsIndex.PredicatesAgree [.text "sekolahku"] "t" .indonesian "sekolahku" ∧
      ¬ FtsIndex.PredicatesAgree [.text "alpha"] "t" {} "alpha zebra" := by
  intro _
  refine ⟨fun h => ?_, fun h => ?_⟩
  · have hscan : evalFullText (.string "sekolahku") .containsTokenSequence (.string "sekolahku")
        .indonesian = true := by decide +kernel
    have hfound := (h.2.1 0).mpr ⟨_, rfl, hscan⟩
    revert hfound
    decide +kernel
  · have hbudget : ∀ token ∈ Tokenizer.tokenize {} "alpha zebra",
        defaultEditDistance token.toList.length = 0 := by decide +kernel
    have hfound : 0 ∈ (FtsIndex.build (attributeTexts [.text "alpha"] "t") 1 {}).fuzzy
        "alpha zebra" 0 := by decide +kernel
    obtain ⟨d, hd, hscan⟩ := (h.2.2 0 hbudget 0).mp hfound
    obtain rfl := Option.some.inj hd
    revert hscan
    decide +kernel

end Fckdb
