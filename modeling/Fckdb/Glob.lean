import Fckdb.Filter
import Fckdb.Lib.Wildcard

/-! # Glob patterns

What a glob says, and what the regex it is translated to finds. The translation leaves the dot as the
crate has it, which is every character but the line break: a wildcard then cannot stand for one, and a
text that the glob describes only with a line break under a wildcard is not matched. -/

namespace Fckdb

/-- The piece of a wildcard pattern that a character of a glob is. -/
def globPiece (c : Char) : Piece Char :=
  if c = '*' then .many else if c = '?' then .one else .lit c

/-- What a glob means: the text is the pattern with each `*` replaced by some characters, each `?` by one
character and every other character by itself. -/
def Glob (pattern text : String) : Prop :=
  Piece.Matches (fun _ => True) (pattern.toList.map globPiece) text.toList

theorem globPiece_eq_lit {c a : Char} (ha : a ≠ '*' ∧ a ≠ '?') : globPiece c = .lit a ↔ c = a := by
  unfold globPiece
  split_ifs with hmany hone
  · subst hmany
    exact ⟨nofun, fun h => absurd h.symm ha.1⟩
  · subst hone
    exact ⟨nofun, fun h => absurd h.symm ha.2⟩
  · rw [Piece.lit.injEq]

/-- The line breaks of a pattern are those of its pieces. -/
theorem count_globPiece (pattern : List Char) :
    (pattern.map globPiece).count (.lit '\n') = pattern.count '\n' := by
  induction pattern with
  | nil => rfl
  | cons c cs ih =>
      have hc : globPiece c = .lit '\n' ↔ c = '\n' := globPiece_eq_lit (by decide)
      by_cases h : c = '\n'
      · rw [List.map_cons, hc.mpr h, h, List.count_cons_self, List.count_cons_self, ih]
      · rw [List.map_cons, List.count_cons_of_ne (mt hc.mp h), List.count_cons_of_ne h, ih]

section Matching

variable [Crates]

/-- How a part of a regex is written. -/
def Rx.source : Rx Char → String
  | start => "^"
  | stop => "$"
  | lit c => Crates.regexEscape c
  | dot => "."
  | dotStar => ".*"

/-- The regex crate's documented semantics: a regex that compiles finds what its parts spell, where the
anchors stand at the ends of the text and the dot is every character but the line break. -/
def RegexSemantics : Prop :=
  ∀ (rs : List (Rx Char)) (re : String → Bool),
    Crates.regexBuild false (String.join (rs.map Rx.source)) = some re →
    ∀ text, re text = true ↔ Rx.IsMatch '\n' rs text.toList

/-- The regex of a glob. -/
def globRx (pattern : String) : List (Rx Char) :=
  .start :: ((pattern.toList.map globPiece).map Rx.ofPiece ++ [.stop])

/-- The crate accepts the regex of a pattern: its compiled form keeps within the size limit. -/
def GlobCompiles (pattern : String) : Prop :=
  ∃ re, Crates.regexBuild false (String.join ((globRx pattern).map Rx.source)) = some re

theorem source_globPiece (c : Char) :
    (Rx.ofPiece (globPiece c)).source =
      if c = '*' then ".*" else if c = '?' then "." else Crates.regexEscape c := by
  unfold globPiece
  split_ifs <;> rfl

/-- `glob_to_regex` compiles the regex of the pattern. -/
theorem globToRegex_eq (pattern : String) :
    globToRegex pattern true =
      Crates.regexBuild false (String.join ((globRx pattern).map Rx.source)) := by
  have hbody : ((pattern.toList.map globPiece).map Rx.ofPiece).map Rx.source =
      pattern.toList.map fun c =>
        if c = '*' then ".*" else if c = '?' then "." else Crates.regexEscape c := by
    rw [List.map_map, List.map_map]
    exact List.map_congr_left fun c _ => source_globPiece c
  rw [globToRegex, globRx, List.map_cons, List.map_append, hbody, ← List.singleton_append,
    String.join_append, String.join_append, ← String.append_assoc]
  rfl

/-- **What the operator finds**: the texts a glob describes with no line break under a wildcard. -/
theorem matches_glob (hre : RegexSemantics) {attrs : Attrs} {fts : FtsSchema} {key : String}
    {value : Value} {text pattern : String}
    (hactual : ((attrs.get key).getD .null).asText = some text) (hvalue : value.asText = some pattern) :
    (Filter.cmp key .glob value).matches attrs fts = true ↔
      GlobCompiles pattern ∧ Glob pattern text ∧ text.toList.count '\n' = pattern.toList.count '\n' := by
  have hmatches : (Filter.cmp key .glob value).matches attrs fts =
      matchesPattern .glob ((attrs.get key).getD .null) value := rfl
  have hmatcher : Op.glob.matcher pattern = _ := globToRegex_eq pattern
  rw [hmatches, matchesPattern, hactual, hvalue]
  simp only [hmatcher]
  cases hbuild : Crates.regexBuild false (String.join ((globRx pattern).map Rx.source)) with
  | none =>
      constructor
      · nofun
      · rintro ⟨⟨re, hcompiles⟩, -⟩
        rw [hbuild] at hcompiles
        cases hcompiles
  | some re =>
      have hfinds : re text = true ↔ Rx.IsMatch '\n' (globRx pattern) text.toList :=
        hre (globRx pattern) re hbuild text
      rw [hfinds, globRx, Rx.isMatch_anchored, Piece.matches_ne_iff, count_globPiece]
      exact ⟨fun h => ⟨⟨re, hbuild⟩, h⟩, And.right⟩

/-- **The `Glob` operator**: it matches exactly what the glob says precisely when the pattern compiles for
the texts it describes, and these have no line break beyond the pattern's own. -/
theorem glob_matches_iff (hre : RegexSemantics) {attrs : Attrs} {fts : FtsSchema} {key : String}
    {value : Value} {text pattern : String}
    (hactual : ((attrs.get key).getD .null).asText = some text) (hvalue : value.asText = some pattern) :
    (((Filter.cmp key .glob value).matches attrs fts = true ↔ Glob pattern text) ↔
      (Glob pattern text →
        GlobCompiles pattern ∧ text.toList.count '\n' = pattern.toList.count '\n')) := by
  rw [matches_glob hre hactual hvalue]
  constructor
  · intro h hglob
    obtain ⟨hcompiles, -, hcount⟩ := h.mpr hglob
    exact ⟨hcompiles, hcount⟩
  · intro h
    constructor
    · exact fun hfound => hfound.2.1
    · intro hglob
      exact ⟨(h hglob).1, hglob, (h hglob).2⟩

end Matching

/-! ## A regex crate of this fragment -/

namespace Rx

/-- The characters `regex::escape` puts a backslash before. -/
def isMeta (c : Char) : Bool :=
  ['\\', '.', '+', '*', '?', '(', ')', '|', '[', ']', '\x7b', '\x7d', '^', '$', '#', '&', '-', '~'].contains c

/-- `regex::escape` of one character. -/
def escape (c : Char) : String :=
  if isMeta c then String.ofList ['\\', c] else String.ofList [c]

/-- Read a regex made of anchors, dots and literals. -/
def parse : List Char → Option (List (Rx Char))
  | [] => some []
  | '^' :: cs => (parse cs).map (start :: ·)
  | '$' :: cs => (parse cs).map (stop :: ·)
  | '.' :: '*' :: cs => (parse cs).map (dotStar :: ·)
  | '.' :: cs => (parse cs).map (dot :: ·)
  | '\\' :: c :: cs => (parse cs).map (lit c :: ·)
  | c :: cs => if isMeta c then none else (parse cs).map (lit c :: ·)

end Rx

/-- Crates whose regexes are those of globs: what does not read as one is refused. -/
@[reducible] noncomputable def Crates.globbing : Crates :=
  { Crates.inert with
    regexBuild := fun _ pattern =>
      (Rx.parse pattern.toList).map fun rs text =>
        @decide (Rx.IsMatch '\n' rs text.toList) (Classical.propDecidable _)
    regexEscape := Rx.escape }

namespace Rx

/-- No part is written with a star in front. -/
theorem head_source (r : Rx Char) {cs : List Char} :
    ((@source Crates.globbing r).toList ++ cs).head? ≠ some '*' := by
  cases r with
  | lit c =>
      show ((escape c).toList ++ cs).head? ≠ some '*'
      by_cases hmeta : isMeta c
      · rw [escape, if_pos hmeta, String.toList_ofList]
        simp
      · rw [escape, if_neg hmeta, String.toList_ofList]
        rintro ⟨⟩
        exact hmeta (by decide)
  | _ => exact nofun

/-- A part reads back, unless a dot is taken for the start of a longer part. -/
theorem parse_source (r : Rx Char) {cs : List Char} (hstar : cs.head? ≠ some '*') :
    parse ((@source Crates.globbing r).toList ++ cs) = (parse cs).map (r :: ·) := by
  cases r with
  | start => rfl
  | stop => rfl
  | dotStar => rfl
  | dot =>
      cases cs with
      | nil => rfl
      | cons c cs =>
          have hc : c ≠ '*' := by simpa using hstar
          show parse ('.' :: c :: cs) = _
          simp [parse, hc]
  | lit c =>
      show parse ((escape c).toList ++ cs) = _
      by_cases hmeta : isMeta c
      · rw [escape, if_pos hmeta, String.toList_ofList]
        rfl
      · have hplain : ∀ m, isMeta m → c ≠ m := fun m hm h => hmeta (h ▸ hm)
        rw [escape, if_neg hmeta, String.toList_ofList]
        show parse (c :: cs) = _
        have := hplain '^' (by decide)
        have := hplain '$' (by decide)
        have := hplain '.' (by decide)
        have := hplain '\\' (by decide)
        simp [parse, *]

/-- **The sources read back.** -/
theorem parse_sources (rs : List (Rx Char)) :
    parse (String.join (rs.map (@source Crates.globbing))).toList = some rs := by
  induction rs with
  | nil => rfl
  | cons r rs ih =>
      have hstar : (String.join (rs.map (@source Crates.globbing))).toList.head? ≠ some '*' := by
        cases rs with
        | nil => exact nofun
        | cons r' rs =>
            rw [List.map_cons, String.join_cons, String.toList_append]
            exact head_source r'
      rw [List.map_cons, String.join_cons, String.toList_append, parse_source r hstar, ih]
      rfl

end Rx

/-- The crate finds what its regexes spell. -/
theorem globbing_semantics : @RegexSemantics Crates.globbing := by
  intro rs re hbuild text
  have hread : (Rx.parse (String.join (rs.map (@Rx.source Crates.globbing))).toList).map _ = some re :=
    hbuild
  rw [Rx.parse_sources] at hread
  cases hread
  exact @decide_eq_true_iff _ (Classical.propDecidable _)

/-- The operator on a path, with a line break in it. -/
theorem glob_matches_iff_path :
    let _ := Crates.globbing
    ((Filter.cmp "path" .glob (.string "a*b")).matches
        (SortedMap.empty.insert "path" (.string "a\nb")) SortedMap.empty = true ↔ Glob "a*b" "a\nb") ↔
      (Glob "a*b" "a\nb" → GlobCompiles "a*b" ∧ "a\nb".toList.count '\n' = "a*b".toList.count '\n') :=
  @glob_matches_iff Crates.globbing globbing_semantics _ _ "path" (.string "a*b") "a\nb" "a*b" rfl rfl

/-- **A star does not stand for a line break**: `a*b` describes the text and does not match it. -/
theorem glob_misses_line_break :
    let _ := Crates.globbing
    RegexSemantics ∧
      ¬((Filter.cmp "path" .glob (.string "a*b")).matches
        (SortedMap.empty.insert "path" (.string "a\nb")) SortedMap.empty = true ↔ Glob "a*b" "a\nb") := by
  intro _
  refine ⟨globbing_semantics, fun h => ?_⟩
  have hglob : Glob "a*b" "a\nb" :=
    ⟨[['a'], ['\n'], ['b']], .cons rfl (.cons (fun _ _ => trivial) (.cons rfl .nil)), rfl⟩
  have hfound := (@matches_glob Crates.globbing globbing_semantics _ _ "path" (.string "a*b")
    "a\nb" "a*b" rfl rfl).mp (h.mpr hglob)
  exact absurd hfound.2.2 (by decide)

end Fckdb
