import Fckdb.Doc
import Mathlib.Data.List.Infix

/-! # Filters

A filter is a boolean combination of comparisons of one attribute with a literal. `coerce` brings the
literals to the declared types; `matches` evaluates the filter on one document's attributes — the
scan, which every index must agree with. -/

namespace Fckdb

/-- Comparison operators. -/
inductive Op
  | eq
  | notEq
  | gt
  | gte
  | lt
  | lte
  | in
  | notIn
  | glob
  | notGlob
  | iGlob
  | notIGlob
  | contains
  | notContains
  | containsAny
  | notContainsAny
  | regex
  | notRegex
  | containsAllTokens
  | notContainsAllTokens
  | containsTokenSequence
  | fuzzy
  deriving DecidableEq, Repr, Inhabited

/-- Operators that tokenize text. -/
def Op.isFullText : Op → Bool
  | .containsAllTokens | .notContainsAllTokens | .containsTokenSequence | .fuzzy => true
  | _ => false

/-- Operators whose operand stays a pattern. -/
def Op.isPattern : Op → Bool
  | .glob | .notGlob | .iGlob | .notIGlob | .regex | .notRegex => true
  | _ => false

/-- A filter expression. -/
inductive Filter
  | and (fs : List Filter)
  | or (fs : List Filter)
  | not (f : Filter)
  | cmp (key : String) (op : Op) (value : Value)

/-- **Induction over filters**, one case for each connective. -/
theorem Filter.induct {P : Filter → Prop} (and : ∀ fs, (∀ f ∈ fs, P f) → P (.and fs))
    (or : ∀ fs, (∀ f ∈ fs, P f) → P (.or fs)) (not : ∀ f, P f → P (.not f))
    (cmp : ∀ key op value, P (.cmp key op value)) (f : Filter) : P f :=
  @Filter.rec P (fun fs => ∀ f ∈ fs, P f) and or not cmp
    (fun _ h => absurd h List.not_mem_nil)
    (fun _ _ hf hfs _ h => (List.mem_cons.mp h).elim (fun e => e ▸ hf) (hfs _)) f

variable [Crates]

/-! ## Coercing operands -/

/-- The type of one element of an array type; other types are their own element. -/
def elementType : Ty → Ty
  | .stringArray => .string
  | .uintArray => .uint
  | .intArray => .int
  | other => other

/-- Re-pack coerced elements into the array form the target type implies. -/
def pack (values : List Value) : Ty → Value
  | .string => .stringArray (values.map fun v =>
      match v with
      | .string s => s
      | other => other.asText.getD "")
  | .uint => .uintArray (values.filterMap fun v =>
      match v with
      | .uint u => some u
      | _ => none)
  | .int => .intArray (values.filterMap fun v =>
      match v with
      | .int i => some i
      | _ => none)
  -- no array form: keep the renderings
  | _ => .stringArray (values.filterMap Value.asText)

/-- Coerce a filter operand, element by element when it is a list. -/
def coerceOperand (value : Value) (target : Ty) : Except Error Value :=
  match value with
  | .stringArray items =>
    (collect (items.map fun s => (Value.string s).coerce target)).map (pack · target)
  | .uintArray items =>
    (collect (items.map fun u => (Value.uint u).coerce target)).map (pack · target)
  | scalar => scalar.coerce target

/-- The type an operand of `op` is coerced to, on an attribute declared `ty`. -/
def Op.target (op : Op) (ty : Ty) : Ty :=
  match op with
  | .in | .notIn | .containsAny | .notContainsAny | .contains | .notContains => elementType ty
  | _ => ty

namespace Filter

/-- Coerce the operand of one comparison. -/
def coerceCmp (schema : SortedMap String Ty) (key : String) (op : Op) (value : Value) :
    Except Error Value :=
  match schema.get key with
  | none => .ok value
  | some declared =>
    if op.isFullText || op.isPattern then .ok value
    else if value.isNull then .ok .null
    else mapErr (coerceOperand value (op.target declared))
      ("filter on " ++ Crates.debugString key)

mutual

/-- Coerce literals to the declared type of the attribute they are compared with. -/
def coerce (schema : SortedMap String Ty) : Filter → Except Error Filter
  | and fs => (coerceAll schema fs).map and
  | or fs => (coerceAll schema fs).map or
  | not f => (coerce schema f).map not
  | cmp key op value => (coerceCmp schema key op value).map (cmp key op)

/-- Coerce the operands of a connective. -/
def coerceAll (schema : SortedMap String Ty) : List Filter → Except Error (List Filter)
  | [] => .ok []
  | f :: fs => do
    let f ← coerce schema f
    let fs ← coerceAll schema fs
    return f :: fs

end

end Filter

/-! ## Evaluation -/

/-- `glob_to_regex`: an anchored regex with everything but the wildcards escaped. -/
def globToRegex (pattern : String) (caseSensitive : Bool) : Option (String → Bool) :=
  let body := pattern.toList.map fun c =>
    if c = '*' then ".*" else if c = '?' then "." else Crates.regexEscape c
  Crates.regexBuild (!caseSensitive) ("^" ++ String.join body ++ "$")

/-- The matcher of a pattern operator, if the pattern compiles. -/
def Op.matcher (op : Op) (pattern : String) : Option (String → Bool) :=
  match op with
  | .glob | .notGlob => globToRegex pattern true
  | .iGlob | .notIGlob => globToRegex pattern false
  | _ => Crates.regexBuild false pattern

/-- `glob` and `regex`: the text of the value against the pattern's matcher. -/
def matchesPattern (op : Op) (actual pattern : Value) : Bool :=
  match actual.asText, pattern.asText with
  | some text, some pat =>
    match op.matcher pat with
    | some re => re text
    | none => false
  | _, _ => false

/-- `h.contains(n)` on strings. -/
def hasSubstring (h n : String) : Bool := decide (n.toList <:+: h.toList)

/-- `Contains`: membership in a string or unsigned array, substring of text otherwise. -/
def contains (actual expected : Value) : Bool :=
  match actual with
  | .stringArray _ | .uintArray _ => actual.elements.any (·.equals expected)
  | _ =>
    match actual.asText, expected.asText with
    | some h, some n => hasSubstring h n
    | _, _ => false

/-- `ContainsAny`: some element of the value is an element of the operand. -/
def containsAny (actual expected : Value) : Bool :=
  expected.elements.any fun want => actual.elements.any (·.equals want)

/-- An ordering comparison; an absent value on either side satisfies none. -/
def evalRange (actual expected : Value) (accept : Ordering → Bool) : Bool :=
  if actual.isNull || expected.isNull then false
  else
    match actual.compare expected with
    | some o => accept o
    | none => false

/-- The orderings a range operator accepts. -/
def Op.accepts : Op → Ordering → Bool
  | .gt, o => o == .gt
  | .gte, o => o == .gt || o == .eq
  | .lt, o => o == .lt
  | .lte, o => o == .lt || o == .eq
  | _, _ => false

/-- `eval`: one operator on a stored value and an operand. -/
def eval (actual : Value) (op : Op) (expected : Value) : Bool :=
  match op with
  | .eq => actual.equals expected
  | .notEq => !actual.equals expected
  | .gt | .gte | .lt | .lte => evalRange actual expected op.accepts
  | .in => expected.elements.any (actual.equals ·)
  | .notIn => !expected.elements.any (actual.equals ·)
  | .contains => contains actual expected
  | .notContains => !contains actual expected
  | .containsAny => containsAny actual expected
  | .notContainsAny => !containsAny actual expected
  | .glob | .iGlob | .regex => matchesPattern op actual expected
  | .notGlob | .notIGlob | .notRegex => !matchesPattern op actual expected
  -- handled by `evalFullText`, which needs the tokenizer
  | .containsAllTokens | .notContainsAllTokens | .containsTokenSequence | .fuzzy => false

/-- The windows of `n` consecutive elements. -/
def windows {α : Type} (n : Nat) : List α → List (List α)
  | [] => []
  | a :: as => if (a :: as).length < n then [] else (a :: as).take n :: windows n as

/-- `eval_full_text`: tokenize the stored value and the query. -/
def evalFullText (actual : Value) (op : Op) (expected : Value) (cfg : FtsConfig) : Bool :=
  match attributeText actual, expected.asText with
  | some text, some query =>
    let doc := cfg.tokenizer.tokenize text
    let terms := cfg.tokenizer.tokenize query
    if terms.isEmpty then false
    else
      match op with
      | .containsAllTokens => terms.all (doc.contains ·)
      | .notContainsAllTokens => !terms.all (doc.contains ·)
      | .containsTokenSequence => (windows (max terms.length 1) doc).any (· == terms)
      | .fuzzy => terms.all fun t =>
          doc.any fun d => levenshteinWithin d t (defaultEditDistance t.toList.length)
      | _ => false
  | _, _ => false

/-- One comparison on a document's attributes; an absent attribute is null. -/
def matchesCmp (attrs : Attrs) (fts : FtsSchema) (key : String) (op : Op) (value : Value) : Bool :=
  let actual := (attrs.get key).getD .null
  if op.isFullText then evalFullText actual op value ((fts.get key).getD {})
  else eval actual op value

namespace Filter

mutual

/-- Evaluate a filter against one document's attributes. -/
def «matches» (attrs : Attrs) (fts : FtsSchema) : Filter → Bool
  | and fs => matchesAll attrs fts fs
  | or fs => matchesAny attrs fts fs
  | not f => !f.matches attrs fts
  | cmp key op value => matchesCmp attrs fts key op value

/-- Every operand of `And` matches. -/
def matchesAll (attrs : Attrs) (fts : FtsSchema) : List Filter → Bool
  | [] => true
  | f :: fs => f.matches attrs fts && matchesAll attrs fts fs

/-- Some operand of `Or` matches. -/
def matchesAny (attrs : Attrs) (fts : FtsSchema) : List Filter → Bool
  | [] => false
  | f :: fs => f.matches attrs fts || matchesAny attrs fts fs

end

theorem matchesAll_eq (attrs : Attrs) (fts : FtsSchema) (fs : List Filter) :
    matchesAll attrs fts fs = fs.all (·.matches attrs fts) := by
  induction fs with
  | nil => rfl
  | cons f fs ih => rw [matchesAll, ih, List.all_cons]

theorem matchesAny_eq (attrs : Attrs) (fts : FtsSchema) (fs : List Filter) :
    matchesAny attrs fts fs = fs.any (·.matches attrs fts) := by
  induction fs with
  | nil => rfl
  | cons f fs ih => rw [matchesAny, ih, List.any_cons]

end Filter

end Fckdb
