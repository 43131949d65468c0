import Fckdb.Float

/-! # What the engine takes from outside

Functions of third-party crates and of the Unicode tables, which the source calls but does not
contain. They are data, one field for each call; nothing is assumed about them. -/

namespace Fckdb

/-- `uuid::Uuid`: sixteen bytes. -/
structure Uuid where
  bytes : List UInt8
  length_eq : bytes.length = 16
  deriving DecidableEq

/-- `Uuid::nil()`. -/
def Uuid.nil : Uuid := ⟨List.replicate 16 0, rfl⟩

instance : Inhabited Uuid := ⟨.nil⟩

/-- Stemmer and stopword language of a tokenizer. -/
inductive Language
  | english
  | french
  | german
  | spanish
  | italian
  | portuguese
  | dutch
  | swedish
  | norwegian
  | danish
  | russian
  | indonesian
  deriving DecidableEq, Repr, Inhabited

/-- The third-party functions the engine calls. -/
class Crates where
  /-- `uuid::Uuid::parse_str`, with the text of its error. -/
  uuidParse : String → Except String Uuid
  /-- `Uuid::to_string`. -/
  uuidToString : Uuid → String
  /-- `chrono::DateTime::parse_from_rfc3339`, then `timestamp_nanos_opt`. -/
  parseRfc3339 : String → Option (Option Int64)
  /-- `str::parse::<NaiveDateTime>`, as UTC, then `timestamp_nanos_opt`. -/
  parseNaiveDateTime : String → Option (Option Int64)
  /-- `str::parse::<NaiveDate>` at midnight UTC, then `timestamp_nanos_opt`. -/
  parseNaiveDate : String → Option (Option Int64)
  /-- `DateTime::from_timestamp_nanos(n).format("%Y-%m-%dT%H:%M:%S%.9fZ")`. -/
  formatNanos : Int64 → String
  /-- `RegexBuilder::new(pattern).case_insensitive(flag).build()`, as its matcher. -/
  regexBuild : (caseInsensitive : Bool) → (pattern : String) → Option (String → Bool)
  /-- `regex::escape` of one character. -/
  regexEscape : Char → String
  /-- `{:?}` of a string: quoted, with `char::escape_debug`. -/
  debugString : String → String
  /-- `char::is_alphanumeric`. -/
  isAlphanumeric : Char → Bool
  /-- `str::to_lowercase`. -/
  toLowercase : String → String
  /-- The Snowball stemmer of a language. -/
  snowballStem : Language → String → String
  /-- `UnicodeNormalization::nfd`. -/
  nfd : String → List Char
  /-- `unicode_normalization::char::is_combining_mark`. -/
  isCombiningMark : Char → Bool

/-- Crates that refuse every parse and leave text alone: enough for runs that reach none of them. -/
def Crates.inert : Crates where
  uuidParse _ := .error "invalid character"
  uuidToString _ := ""
  parseRfc3339 _ := none
  parseNaiveDateTime _ := none
  parseNaiveDate _ := none
  formatNanos _ := ""
  regexBuild _ _ := none
  regexEscape c := String.singleton c
  debugString s := s
  isAlphanumeric c := c.isAlphanum
  toLowercase s := s.toLower
  snowballStem _ s := s
  nfd s := s.toList
  isCombiningMark _ := false

end Fckdb
