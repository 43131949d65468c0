import Mathlib.Data.List.Forall2

/-! # Wildcard patterns and anchored regexes

A wildcard pattern is a list of pieces: a symbol, one symbol of any kind, a run of any symbols. A text
matches when it is the pattern with every piece replaced. The usual implementation writes the pattern as a
regex between anchors, where a dot stands for every symbol but one (the line break): that regex finds
exactly the texts in which no wildcard stands for the excluded symbol (`isMatch_anchored`), which is a
matter of counting it (`matches_ne_iff`). -/

namespace Fckdb

/-- One piece of a wildcard pattern. -/
inductive Piece (α : Type)
  /-- A symbol that stands for itself. -/
  | lit (a : α)
  /-- Exactly one symbol. -/
  | one
  /-- Any run of symbols, the empty one included. -/
  | many
  deriving DecidableEq, Repr

namespace Piece

variable {α : Type}

/-- The runs a piece may be replaced by, when wildcards stand for the symbols of `any`. -/
def Spans (any : α → Prop) : Piece α → List α → Prop
  | lit a, run => run = [a]
  | one, run => ∃ a, any a ∧ run = [a]
  | many, run => ∀ a ∈ run, any a

/-- A text that is the pattern with every piece replaced. -/
def Matches (any : α → Prop) (ps : List (Piece α)) (text : List α) : Prop :=
  ∃ runs, List.Forall₂ (Spans any) ps runs ∧ runs.flatten = text

@[simp] theorem matches_nil {any : α → Prop} {text : List α} : Matches any [] text ↔ text = [] := by
  constructor
  · rintro ⟨runs, h, rfl⟩
    cases h
    rfl
  · rintro rfl
    exact ⟨[], .nil, rfl⟩

theorem matches_cons {any : α → Prop} {p : Piece α} {ps : List (Piece α)} {text : List α} :
    Matches any (p :: ps) text ↔ ∃ run rest, p.Spans any run ∧ Matches any ps rest ∧ run ++ rest = text := by
  constructor
  · rintro ⟨runs, h, rfl⟩
    cases h with
    | cons hp hps => exact ⟨_, _, hp, ⟨_, hps, rfl⟩, List.flatten_cons.symm⟩
  · rintro ⟨run, rest, hp, ⟨runs, hps, rfl⟩, rfl⟩
    exact ⟨run :: runs, .cons hp hps, List.flatten_cons⟩

/-! ## Excluding one symbol -/

section Excluding

variable [DecidableEq α] {b : α}

/-- A piece is replaced by at least its own symbols. -/
theorem Spans.count_le {p : Piece α} {run : List α} (h : p.Spans (fun _ => True) run) :
    List.count (.lit b) [p] ≤ run.count b := by
  cases p with
  | lit a =>
      cases h
      by_cases hab : a = b <;> simp [hab]
  | one => simp
  | many => simp

/-- **Excluding a symbol from a piece**: what replaces it has that symbol only where the piece does. -/
theorem spans_ne_iff {p : Piece α} {run : List α} :
    p.Spans (· ≠ b) run ↔ p.Spans (fun _ => True) run ∧ run.count b = List.count (.lit b) [p] := by
  cases p with
  | lit a =>
      constructor
      · rintro rfl
        by_cases hab : a = b <;> simp [Spans, hab]
      · exact And.left
  | one =>
      constructor
      · rintro ⟨a, hab, rfl⟩
        exact ⟨⟨a, trivial, rfl⟩, by simp [hab]⟩
      · rintro ⟨⟨a, -, rfl⟩, hcount⟩
        have hab : a ≠ b := by simpa [List.count_singleton] using hcount
        exact ⟨a, hab, rfl⟩
  | many =>
      have hnone : run.count b = 0 ↔ ∀ a ∈ run, a ≠ b := by
        rw [List.count_eq_zero]
        exact ⟨fun h a ha hab => h (hab ▸ ha), fun h hb => h b hb rfl⟩
      simpa [Spans] using hnone.symm

theorem Matches.count_le {ps : List (Piece α)} {text : List α} (h : Matches (fun _ => True) ps text) :
    ps.count (.lit b) ≤ text.count b := by
  induction ps generalizing text with
  | nil => simp
  | cons p ps ih =>
      obtain ⟨run, rest, hp, hps, rfl⟩ := matches_cons.mp h
      rw [List.count_append, ← List.singleton_append, List.count_append]
      exact Nat.add_le_add hp.count_le (ih hps)

/-- **Excluding a symbol from the wildcards**: the text has that symbol as often as the pattern. -/
theorem matches_ne_iff {ps : List (Piece α)} {text : List α} :
    Matches (· ≠ b) ps text ↔ Matches (fun _ => True) ps text ∧ text.count b = ps.count (.lit b) := by
  induction ps generalizing text with
  | nil =>
      rw [matches_nil, matches_nil]
      exact ⟨fun h => ⟨h, by rw [h]; rfl⟩, And.left⟩
  | cons p ps ih =>
      rw [matches_cons, matches_cons]
      constructor
      · rintro ⟨run, rest, hp, hps, rfl⟩
        obtain ⟨hp, hrun⟩ := spans_ne_iff.mp hp
        obtain ⟨hps, hrest⟩ := ih.mp hps
        refine ⟨⟨run, rest, hp, hps, rfl⟩, ?_⟩
        rw [List.count_append, hrun, hrest, ← List.count_append, List.singleton_append]
      · rintro ⟨⟨run, rest, hp, hps, rfl⟩, hcount⟩
        -- each part has at least its own, and together they have no more
        have hrun := hp.count_le (b := b)
        have hrest := hps.count_le (b := b)
        rw [List.count_append, ← List.singleton_append, List.count_append] at hcount
        exact ⟨run, rest, spans_ne_iff.mpr ⟨hp, by omega⟩, ih.mpr ⟨hps, by omega⟩, rfl⟩

end Excluding

end Piece

/-! ## Regexes -/

/-- The parts of the regexes that wildcard patterns are written as. -/
inductive Rx (α : Type)
  | start
  | stop
  | lit (a : α)
  | dot
  | dotStar
  deriving DecidableEq, Repr

namespace Rx

variable {α : Type}

/-- One part on the stretch `run` of a text, between `before` and `after`: an anchor is empty and stands at
an end of the text, a dot is any symbol but `nl`. -/
def Spans (nl : α) : Rx α → List α → List α → List α → Prop
  | start, before, run, _ => before = [] ∧ run = []
  | stop, _, run, after => run = [] ∧ after = []
  | lit a, _, run, _ => run = [a]
  | dot, _, run, _ => ∃ a, a ≠ nl ∧ run = [a]
  | dotStar, _, run, _ => ∀ a ∈ run, a ≠ nl

/-- The parts of a regex one after the other. -/
inductive Spells (nl : α) : List (Rx α) → List α → List α → List α → Prop
  | nil {before after : List α} : Spells nl [] before [] after
  | cons {r : Rx α} {rs : List (Rx α)} {before run rest after : List α}
      (head : r.Spans nl before run (rest ++ after)) (tail : Spells nl rs (before ++ run) rest after) :
      Spells nl (r :: rs) before (run ++ rest) after

/-- The search: the regex spells some stretch of the text. -/
def IsMatch (nl : α) (rs : List (Rx α)) (text : List α) : Prop :=
  ∃ before run after, before ++ run ++ after = text ∧ Spells nl rs before run after

/-- What a piece of a wildcard pattern is written as. -/
def ofPiece : Piece α → Rx α
  | .lit a => lit a
  | .one => dot
  | .many => dotStar

variable {nl : α}

/-- A piece is replaced by what its regex spells, wherever it stands. -/
theorem spans_ofPiece {p : Piece α} {before run after : List α} :
    (ofPiece p).Spans nl before run after ↔ p.Spans (· ≠ nl) run := by
  cases p <;> rfl

/-- A part that spells nothing leaves the rest where it stands. -/
theorem Spells.empty {r : Rx α} {rs : List (Rx α)} {before rest after : List α}
    (head : r.Spans nl before [] (rest ++ after)) (tail : Spells nl rs before rest after) :
    Spells nl (r :: rs) before rest after :=
  @Spells.cons _ nl r rs before [] rest after head ((List.append_nil before).symm ▸ tail)

theorem Spells.of_anchored {ps : List (Piece α)} {before run after : List α}
    (h : Spells nl (ps.map ofPiece ++ [stop]) before run after) :
    after = [] ∧ Piece.Matches (· ≠ nl) ps run := by
  induction ps generalizing before run with
  | nil =>
      cases h with
      | cons head tail =>
        cases tail
        obtain ⟨rfl, hafter⟩ := head
        exact ⟨by simpa using hafter, Piece.matches_nil.mpr rfl⟩
  | cons p ps ih =>
      cases h with
      | cons head tail =>
        obtain ⟨hafter, hrest⟩ := ih tail
        exact ⟨hafter, Piece.matches_cons.mpr ⟨_, _, spans_ofPiece.mp head, hrest, rfl⟩⟩

theorem spells_anchored {ps : List (Piece α)} {before text : List α}
    (h : Piece.Matches (· ≠ nl) ps text) : Spells nl (ps.map ofPiece ++ [stop]) before text [] := by
  induction ps generalizing before text with
  | nil =>
      cases Piece.matches_nil.mp h
      have hstop : (stop : Rx α).Spans nl before [] [] := ⟨rfl, rfl⟩
      exact .empty hstop .nil
  | cons p ps ih =>
      obtain ⟨run, rest, hp, hps, rfl⟩ := Piece.matches_cons.mp h
      exact .cons (spans_ofPiece.mpr hp) (ih hps)

/-- **A pattern between anchors**: its regex finds the texts in which no wildcard stands for `nl`. -/
theorem isMatch_anchored {ps : List (Piece α)} {text : List α} :
    IsMatch nl (start :: (ps.map ofPiece ++ [stop])) text ↔ Piece.Matches (· ≠ nl) ps text := by
  constructor
  · rintro ⟨before, run, after, rfl, h⟩
    cases h with
    | cons head tail =>
      obtain ⟨rfl, rfl⟩ := head
      obtain ⟨rfl, h⟩ := tail.of_anchored
      simpa using h
  · intro h
    have hstart : (start : Rx α).Spans nl [] [] (text ++ []) := ⟨rfl, rfl⟩
    exact ⟨[], text, [], List.append_nil _, .empty hstart (spells_anchored h)⟩

end Rx

end Fckdb
