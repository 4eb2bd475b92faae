import LoxLexer.Proofs.Pieces
import Mathlib.Data.List.Basic

/-!
# Moving a text

The same text amounts to the same tokens and reports wherever it begins; only their positions
differ, and these in a way that the place where the text begins determines. Lines and bytes are
counted on from there. Columns are counted on in the first line of the text only, since every later
line begins in the text itself (`Position.movedTo`, and `Position.seenFrom` for the way back).

What makes this an identity of whole runs is that a step commutes with a move (`step_movedTo`).
From there it is carried through texts, pieces and their events to sources: if a source is cut in
front of some text, then behind the cut it is that text, moved (`tokens_lex_of_cut`,
`reports_lex_of_cut`).
-/

namespace LoxLexer

/-! ### Positions -/

namespace Position

variable {p q base : Position}

/-- Lines and columns count from one. -/
def IsCounted (p : Position) : Prop := 1 ≤ p.line ∧ 1 ≤ p.column

theorem isCounted_start : start.IsCounted := ⟨le_rfl, le_rfl⟩

theorem IsCounted.step (h : p.IsCounted) (c : Char) : (p.step c).IsCounted := by
  rw [Position.step]
  split
  · exact ⟨Nat.le_add_left _ _, le_rfl⟩
  · exact ⟨h.1, Nat.le_add_left _ _⟩

/-- Wherever counting began with one, it is still at one or beyond. -/
theorem IsCounted.after (h : p.IsCounted) (text : List Char) : (p.after text).IsCounted := by
  induction text generalizing p with
  | nil => exact h
  | cons c text ih => exact ih (h.step c)

/-- The position that `q` becomes if its text does not begin at the start but at `base`. -/
def movedTo (q base : Position) : Position where
  line := q.line + (base.line - 1)
  column := if q.line = 1 then q.column + (base.column - 1) else q.column
  offset := q.offset + base.offset

/-- The position `q` as it is counted from `base`: in lines and bytes less than from the start, and
on the line of `base` in columns less, too. -/
def seenFrom (q base : Position) : Position where
  line := q.line - (base.line - 1)
  column := if q.line = base.line then q.column - (base.column - 1) else q.column
  offset := q.offset - base.offset

/-- The start of a source is moved to the place where the source is put. -/
theorem start_movedTo (h : base.IsCounted) : start.movedTo base = base := by
  obtain ⟨line, column, offset⟩ := base
  obtain ⟨hline, hcolumn⟩ : 1 ≤ line ∧ 1 ≤ column := h
  simp only [movedTo, start, if_true, Position.mk.injEq]
  omega

/-- Moving a place and stepping on from it can be done in either order. -/
theorem step_movedTo (h : 1 ≤ q.line) (c : Char) :
    (q.step c).movedTo base = (q.movedTo base).step c := by
  by_cases hc : c = '\n'
  · -- behind a line feed no column depends on the base
    have hline : q.line + 1 ≠ 1 := Nat.ne_of_gt (Nat.lt_add_of_pos_left h)
    simp only [movedTo, step, hc, if_true, if_neg hline, Position.mk.injEq]
    exact ⟨by omega, trivial, by omega⟩
  · simp only [movedTo, step, hc, if_false, Position.mk.injEq]
    refine ⟨trivial, ?_, by omega⟩
    split <;> omega

/-- Moving a place and passing over a text can be done in either order. -/
theorem after_movedTo (h : q.IsCounted) (text : List Char) :
    (q.after text).movedTo base = (q.movedTo base).after text := by
  induction text generalizing q with
  | nil => rfl
  | cons c text ih => rw [after_cons, after_cons, ih (h.step c), step_movedTo h.1]

/-- Seen from its base, a moved position is what it was. -/
theorem seenFrom_movedTo (h : base.IsCounted) : (q.movedTo base).seenFrom base = q := by
  obtain ⟨line, column, offset⟩ := q
  obtain ⟨hline, -⟩ := h
  have hfirst : line + (base.line - 1) = base.line ↔ line = 1 := by omega
  simp only [movedTo, seenFrom, hfirst, Position.mk.injEq]
  refine ⟨by omega, ?_, by omega⟩
  split <;> omega

end Position

/-! ### Tokens and reports -/

def Token.movedTo (t : Token) (base : Position) : Token := { t with start := t.start.movedTo base }

def Token.seenFrom (t : Token) (base : Position) : Token :=
  { t with start := t.start.seenFrom base }

def Report.movedTo (r : Report) (base : Position) : Report :=
  { r with line := r.line + (base.line - 1) }

def Report.seenFrom (r : Report) (base : Position) : Report :=
  { r with line := r.line - (base.line - 1) }

variable {base : Position}

/-- Seen from where it was moved to, a token is what it was. -/
theorem Token.seenFrom_movedTo (h : base.IsCounted) (t : Token) :
    (t.movedTo base).seenFrom base = t := by
  rw [movedTo, seenFrom, Position.seenFrom_movedTo h]

/-- Seen from where it was moved to, a report is what it was. -/
theorem Report.seenFrom_movedTo (r : Report) : (r.movedTo base).seenFrom base = r := by
  rw [movedTo, seenFrom, Nat.add_sub_cancel]

/-! ### Pieces -/

namespace PlacedPiece

/-- The piece in the place it has if its text begins at `base`. -/
def movedTo (x : PlacedPiece) (base : Position) : PlacedPiece :=
  { x with start := x.start.movedTo base }

/-- A piece that was moved ends where its end was moved to. -/
theorem stop_movedTo {x : PlacedPiece} (h : x.start.IsCounted) :
    (x.movedTo base).stop = x.stop.movedTo base :=
  (Position.after_movedTo h x.piece.chars).symm

/-- A piece that was moved is the token that was moved. -/
theorem token?_movedTo (x : PlacedPiece) :
    (x.movedTo base).token? = x.token?.map (·.movedTo base) := by
  obtain ⟨piece, p⟩ := x
  cases piece with
  | number text =>
    simp only [movedTo, token?, event?]
    rcases Numeral.ofChars? text with - | n <;> rfl
  | _ => rfl

/-- A piece that was moved makes the report that was moved. -/
theorem report?_movedTo {x : PlacedPiece} (h : x.start.IsCounted) :
    (x.movedTo base).report? = x.report?.map (·.movedTo base) := by
  have hline : (x.movedTo base).stop.line = x.stop.line + (base.line - 1) :=
    congrArg Position.line (stop_movedTo h)
  obtain ⟨piece, p⟩ := x
  cases piece with
  | number text =>
    simp only [report?, event?, movedTo]
    rcases Numeral.ofChars? text with - | n
    · exact congrArg (fun line ↦ some (Report.mk line _)) hline
    · rfl
  | openString body => exact congrArg (fun line ↦ some (Report.mk line _)) hline
  | stray c => exact congrArg (fun line ↦ some (Report.mk line _)) hline
  | _ => rfl

end PlacedPiece

namespace Piece

variable {p : Position}

/-- Pieces in places that follow a moved position are moved. -/
theorem place_movedTo (h : p.IsCounted) (xs : List Piece) :
    place (p.movedTo base) xs = (place p xs).map (·.movedTo base) := by
  induction xs generalizing p with
  | nil => rfl
  | cons x xs ih =>
    rw [place_cons, place_cons, List.map_cons, ← Position.after_movedTo h, ih (h.after x.chars)]
    rfl

theorem isCounted_of_mem_place (h : p.IsCounted) {xs : List Piece} {y : PlacedPiece}
    (hy : y ∈ place p xs) : y.start.IsCounted := by
  obtain ⟨before, -, -, hstart⟩ := mem_place hy
  rw [hstart]
  exact h.after _

/-- The pieces of a text behind `base` are those of the text alone, moved. -/
theorem place_eq_map_placedPieces (h : base.IsCounted) (text : List Char) :
    place base (cut text) = (placedPieces text).map (·.movedTo base) := by
  rw [placedPieces, ← place_movedTo Position.isCounted_start, Position.start_movedTo h]

end Piece

/-! ### Sources -/

variable {source suffix : String} {before : List Char} {xs : List Piece}

/-- What the pieces of a source amount to if it begins at `base`: its tokens, moved. -/
theorem tokens_place_cut (h : base.IsCounted) (source : String) :
    (Piece.place base (Piece.cut source.toList)).filterMap PlacedPiece.token? ++
      [Token.endOfFile (base.after source.toList)] =
        (lex source).tokens.map (·.movedTo base) := by
  have hend : Token.endOfFile (base.after source.toList) =
      (Token.endOfFile (Position.start.after source.toList)).movedTo base := by
    show _ = Token.endOfFile ((Position.start.after source.toList).movedTo base)
    rw [Position.after_movedTo Position.isCounted_start, Position.start_movedTo h]
  rw [tokens_lex, Piece.place_eq_map_placedPieces h, List.filterMap_map, List.map_append,
    List.map_filterMap, hend]
  exact congrArg (· ++ _) (congrArg (List.filterMap · _) (funext PlacedPiece.token?_movedTo))

/-- And its reports, moved. -/
theorem reports_place_cut (h : base.IsCounted) (source : String) :
    (Piece.place base (Piece.cut source.toList)).filterMap PlacedPiece.report? =
      (lex source).reports.map (·.movedTo base) := by
  rw [reports_lex, Piece.place_eq_map_placedPieces h, List.filterMap_map, List.map_filterMap]
  refine List.filterMap_congr fun x hx ↦ ?_
  exact PlacedPiece.report?_movedTo (Piece.isCounted_of_mem_place Position.isCounted_start hx)

/-- A source that is cut in front of some text has the pieces of that text behind the cut. -/
theorem placedPieces_of_cut (hsource : source.toList = before ++ suffix.toList)
    (hcut : Piece.cut source.toList = xs ++ Piece.cut suffix.toList) :
    placedPieces source.toList = Piece.place .start xs ++
      Piece.place (Position.start.after before) (Piece.cut suffix.toList) := by
  have hbefore : xs.flatMap Piece.chars = before := by
    have hchars := congrArg (List.flatMap Piece.chars) hcut
    rw [List.flatMap_append, Piece.flatMap_chars_cut, Piece.flatMap_chars_cut, hsource] at hchars
    exact (List.append_cancel_right hchars).symm
  rw [placedPieces, hcut, Piece.place_append, hbefore]

/-- If the end of a source is cut as it is on its own, its tokens come last, moved to where it
begins. -/
theorem tokens_lex_of_cut (hsource : source.toList = before ++ suffix.toList)
    (hcut : Piece.cut source.toList = xs ++ Piece.cut suffix.toList) :
    (lex source).tokens = (Piece.place .start xs).filterMap PlacedPiece.token? ++
      (lex suffix).tokens.map (·.movedTo (Position.start.after before)) := by
  rw [tokens_lex, placedPieces_of_cut hsource hcut, List.filterMap_append, List.append_assoc,
    hsource, Position.after_append,
    tokens_place_cut (Position.isCounted_start.after before)]

/-- If the end of a source is cut as it is on its own, its reports come last, moved to where it
begins. -/
theorem reports_lex_of_cut (hsource : source.toList = before ++ suffix.toList)
    (hcut : Piece.cut source.toList = xs ++ Piece.cut suffix.toList) :
    (lex source).reports = (Piece.place .start xs).filterMap PlacedPiece.report? ++
      (lex suffix).reports.map (·.movedTo (Position.start.after before)) := by
  rw [reports_lex, placedPieces_of_cut hsource hcut, List.filterMap_append,
    reports_place_cut (Position.isCounted_start.after before)]

end LoxLexer
