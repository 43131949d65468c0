import Fckdb.Value
import Mathlib.Data.List.Sort

/-! # Full-text search

How text becomes tokens, and the positional inverted index of one attribute. The scan's full-text
operators and the index take their tokenizer from the same configuration. -/

namespace Fckdb

/-- `len as u32` and the other narrowings to 32 bits. -/
def asU32 (n : Nat) : Nat := n % 2 ^ 32

theorem asU32_of_lt {n : Nat} (h : n < 2 ^ 32) : asU32 n = n := Nat.mod_eq_of_lt h

variable [Crates]

/-! ## Tokenizer -/

/-- `EN_STOPWORDS`. -/
def enStopwords : List String :=
  ["a", "an", "and", "are", "as", "at", "be", "but", "by", "for", "if", "in", "into", "is", "it",
   "no", "not", "of", "on", "or", "such", "that", "the", "their", "then", "there", "these", "they",
   "this", "to", "was", "will", "with"]

/-- `ID_STOPWORDS`. -/
def idStopwords : List String :=
  ["acap", "ada", "adalah", "adapun", "agar", "akan", "akibat", "aku", "amat", "anda", "antara",
   "apa", "apabila", "apakah", "atas", "atau", "bagaimana", "bagi", "bahkan", "bahwa", "banyak",
   "bawah", "beberapa", "begitu", "belum", "berapa", "berupa", "biasa", "bila", "bisa", "boleh",
   "buat", "bukan", "cukup", "dahulu", "dalam", "dan", "dapat", "dari", "daripada", "demi",
   "demikian", "dengan", "depan", "di", "dia", "dini", "dll", "dsb", "dulu", "empat", "guna", "hal",
   "hampir", "hanya", "harus", "hingga", "ia", "ialah", "ini", "itu", "jadi", "jika", "juga",
   "kalau", "kali", "kami", "kamu", "kan", "karena", "kata", "ke", "kecuali", "kemudian", "kepada",
   "ketika", "kini", "kita", "lagi", "lain", "lalu", "lama", "lebih", "maka", "makin", "mana",
   "masih", "maupun", "melalui", "memang", "mengapa", "mereka", "merupakan", "meski", "mungkin",
   "namun", "nanti", "nya", "oleh", "pada", "padahal", "paling", "para", "pula", "pun", "saat",
   "saja", "sama", "sambil", "sampai", "sangat", "saya", "sebab", "sebagai", "sebelum", "sedang",
   "segera", "sehingga", "sejak", "sekali", "sekarang", "selain", "selalu", "selama", "seluruh",
   "sementara", "semua", "sendiri", "seorang", "sepanjang", "seperti", "serta", "setelah", "setiap",
   "siapa", "sini", "situ", "suatu", "sudah", "supaya", "tanpa", "tapi", "telah", "tentang",
   "terhadap", "termasuk", "tersebut", "tetapi", "tidak", "tuju", "untuk", "usai", "walau",
   "walaupun", "yaitu", "yakni", "yang"]

/-- How text becomes tokens; the defaults are those of the wire format. -/
structure Tokenizer where
  language : Language := .english
  stemming : Bool := true
  removeStopwords : Bool := true
  asciiFolding : Bool := false
  caseSensitive : Bool := false
  maxTokenLength : Nat := 39
  deriving DecidableEq, Repr, Inhabited

/-- `Language::algorithm`: every language but Indonesian has a Snowball stemmer. -/
def Language.algorithm (l : Language) : Option (String → String) :=
  if l = .indonesian then none else some (Crates.snowballStem l)

/-- Words dropped before indexing. -/
def Language.stopwords : Language → List String
  | .english => enStopwords
  | .indonesian => idStopwords
  | _ => []

/-- `ID_MIN_ROOT`: the shortest root a derivational suffix may leave. -/
def idMinRoot : Nat := 4

/-- `str::strip_suffix`. -/
def stripSuffix (word suffix : String) : Option String :=
  if suffix.toList <:+ word.toList then
    some (String.ofList (word.toList.take (word.toList.length - suffix.toList.length)))
  else none

/-- Strip the first of `suffixes` that leaves at least `least` characters. -/
def stripFirst (suffixes : List String) (least : Nat) (word : String) : Option String :=
  (suffixes.filterMap (stripSuffix word)).find? (fun w => least ≤ w.toList.length)

/-- A conservative Indonesian stemmer: suffixes only. -/
def stemIndonesian (token : String) : String :=
  let word := (stripFirst ["lah", "kah", "tah", "pun"] 3 token).getD token
  let word := (stripFirst ["nya", "ku", "mu"] 3 word).getD word
  (stripFirst ["kan", "an"] idMinRoot word).getD word

/-- `fold_ascii`: decompose and drop combining marks. -/
def foldAscii (s : String) : String :=
  String.ofList ((Crates.nfd s).filter (fun c => !Crates.isCombiningMark c))

/-- One word of a text as a token; `none` when it is dropped. -/
def Tokenizer.token (t : Tokenizer) (raw : String) : Option String :=
  let token := if t.caseSensitive then raw else Crates.toLowercase raw
  -- stopwords are matched before stemming, against the word as written
  if t.removeStopwords && token ∈ t.language.stopwords then none
  else
    let token :=
      if t.stemming then
        match t.language.algorithm with
        | some stem => stem token
        | none => if t.language = .indonesian then stemIndonesian token else token
      else token
    let token := if t.asciiFolding then foldAscii token else token
    if token.isEmpty || token.utf8ByteSize > t.maxTokenLength then none else some token

/-- Split text into tokens; a dropped token leaves no gap. -/
def Tokenizer.tokenize (t : Tokenizer) (text : String) : List String :=
  (((text.toList.splitOnP (fun c => !Crates.isAlphanumeric c)).filter (· ≠ [])).map
    String.ofList).filterMap t.token

/-! ## Configuration -/

/-- BM25 parameters; the defaults are `1.2` and `0.75`. -/
structure Bm25Params where
  k1 : F32 := ⟨0x3f99999a⟩
  b : F32 := ⟨0x3f400000⟩
  deriving DecidableEq, Repr, Inhabited

/-- Full-text configuration of one attribute. -/
structure FtsConfig where
  tokenizer : Tokenizer := {}
  params : Bm25Params := {}
  deriving DecidableEq, Repr, Inhabited

/-- Full-text configuration by attribute name. -/
abbrev FtsSchema := SortedMap String FtsConfig

/-! ## Index -/

/-- The occurrences of one term in one document. -/
structure Posting where
  ordinal : Nat
  positions : List Nat
  deriving DecidableEq, Repr

/-- The full-text index of one attribute. -/
structure FtsIndex where
  terms : List (String × List Posting)
  docLengths : List Nat
  avgdl : F32
  tokenizer : Tokenizer
  params : Bm25Params
  deriving DecidableEq, Repr

/-- Where a token occurs in a token list. -/
def positionsOf (tokens : List String) (token : String) : List Nat :=
  (tokens.zipIdx.filter (fun p => p.1 = token)).map (fun p => asU32 p.2)

/-- Add the postings of one document. -/
def addPostings (postings : SortedMap String (List Posting)) (ordinal : Nat)
    (tokens : List String) : SortedMap String (List Posting) :=
  tokens.dedup.foldl (fun acc token =>
    acc.insert token ((acc.get token).getD [] ++ [⟨ordinal, positionsOf tokens token⟩])) postings

namespace FtsIndex

/-- Index the texts of one attribute; `totalDocs` counts the documents without one too. -/
def build (docs : List (Nat × String)) (totalDocs : Nat) (config : FtsConfig) : FtsIndex :=
  let postings := docs.foldl (fun acc d =>
    addPostings acc d.1 (config.tokenizer.tokenize d.2)) .empty
  let docLengths := docs.foldl (fun acc d =>
    acc.set d.1 (asU32 (config.tokenizer.tokenize d.2).length)) (List.replicate totalDocs 0)
  { terms := postings.entries.map (fun t =>
      (t.1, t.2.insertionSort (fun a b => a.ordinal ≤ b.ordinal)))
    docLengths
    avgdl := if docLengths.isEmpty then Scalar.zero
      else Scalar.div (Scalar.ofNat docLengths.sum) (Scalar.ofNat docLengths.length)
    tokenizer := config.tokenizer
    params := config.params }

/-- No document has a token. -/
def isEmpty (x : FtsIndex) : Bool := x.terms.isEmpty

end FtsIndex

/-! ## Text of a value -/

/-- Text of an attribute: a string, or the elements of a string array joined by spaces. -/
def attributeText : Value → Option String
  | .string s => some s
  | .stringArray a => some (String.intercalate " " a)
  | _ => none

/-- One row of the edit-distance matrix from the row above, where the row above starts with
`above` and the new row so far ends in `left`. -/
def levenshteinRow (a : Char) : List Char → Nat → Nat → List Nat → List Nat
  | b :: bs, left, diag, above :: rest =>
      let cell := min (min (above + 1) (left + 1)) (diag + if a ≠ b then 1 else 0)
      cell :: levenshteinRow a bs cell above rest
  | _, _, _, _ => []

/-- The rows below `prev`, giving up when a whole row exceeds `max`. -/
def levenshteinRows (b : List Char) (max : Nat) : Nat → List Char → List Nat → Bool
  | _, [], prev => (prev.getLast?.getD 0) ≤ max
  | i, a :: as, prev =>
      let cur := i :: levenshteinRow a b i (prev.headD 0) prev.tail
      if max < (cur.min?.getD 0) then false else levenshteinRows b max (i + 1) as cur

/-- Whether the edit distance of `a` and `b` is at most `max`. -/
def levenshteinWithin (a b : String) (max : Nat) : Bool :=
  let a := a.toList
  let b := b.toList
  if max < a.length - b.length + (b.length - a.length) then false
  else levenshteinRows b max 1 a (List.range (b.length + 1))

/-- `default_edit_distance`. -/
def defaultEditDistance (queryChars : Nat) : Nat := if queryChars ≤ 5 then 0 else 1

end Fckdb
