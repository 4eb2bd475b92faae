import LoxLexer.Proofs.Contents
import Mathlib.Data.List.Forall2

/-!
# Comments and stray characters blanked out

Comments and stray characters can be taken out of a source without moving anything: each of their
characters is overwritten with a blank. No token is changed by that, for a piece that stops at some
text stops at it with blanks in it as well (`Piece.StopsAt.of_isBlanked`), and so the blanked source
is cut into the same pieces, with blanks for those taken out (`cut_blankOut`).

What is told of the two sources is compared piece by piece (`Piece.Mirrors`), along two positions
that agree in line and column. Only offsets differ, since a blank may be shorter than what it
replaces, and only the reports about stray characters are gone (`lex_blankOut`).
-/

namespace LoxLexer

/-! ### Texts with blanks in them -/

/-- The text `t` is `s` with blanks in place of some characters. -/
def IsBlanked (s t : List Char) : Prop := List.Forall₂ (fun c d ↦ d = c ∨ d = ' ') s t

theorem isBlanked_refl (s : List Char) : IsBlanked s s :=
  List.forall₂_same.2 fun _ _ ↦ .inl rfl

theorem isBlanked_map_blank (s : List Char) : IsBlanked s (s.map fun _ ↦ ' ') :=
  List.forall₂_map_right_iff.2 (List.forall₂_same.2 fun _ _ ↦ .inr rfl)

/-- The first character stays, or it becomes a blank. -/
theorem IsBlanked.head?_cases {s t : List Char} (h : IsBlanked s t) :
    ∀ d ∈ t.head?, d ∈ s.head? ∨ isBlank d := by
  rcases h with - | ⟨hhead, -⟩
  · simp
  · rintro d ⟨⟩
    rcases hhead with rfl | rfl
    · exact .inl rfl
    · exact .inr (by decide)

/-- A text with blanks in it looks like one to any piece in front of it. -/
theorem IsBlanked.looksBlanked {s t : List Char} (h : IsBlanked s t) : LooksBlanked s t where
  eq_nil hs := by
    subst hs
    exact List.forall₂_nil_left_iff.1 h
  head := h.head?_cases
  point more hmore := by
    -- the point was there before, for it is no blank
    subst hmore
    obtain ⟨c, rest, hc, hrest, rfl⟩ := List.forall₂_cons_right_iff.1 h
    obtain rfl : '.' = c := hc.resolve_right (by decide)
    exact ⟨rest, rfl, IsBlanked.head?_cases hrest⟩

namespace Piece

variable {x : Piece} {s t : List Char}

/-- Comments, and the characters that are reported as unexpected. -/
def isNoise : Piece → Bool
  | comment _ | stray _ => true
  | blank _ | string _ | openString _ | number _ | word _ | operator _ => false

/-- A piece that is no noise stops at a text with blanks in it as well. -/
theorem StopsAt.of_isBlanked (h : x.StopsAt s) (ht : IsBlanked s t) (hx : ¬ x.isNoise) :
    x.StopsAt t := by
  refine h.of_looksBlanked ht.looksBlanked ?_
  rintro body rfl
  exact hx rfl

/-! ### Blanking pieces out -/

/-- The characters of a piece, each a blank if the piece is noise. -/
def blankedChars (x : Piece) : List Char := if x.isNoise then x.chars.map fun _ ↦ ' ' else x.chars

/-- What is left of a piece: blanks if it is noise. -/
def blankOut (x : Piece) : List Piece := if x.isNoise then x.chars.map fun _ ↦ blank ' ' else [x]

theorem blankOut_of_isNoise (hx : x.isNoise) : x.blankOut = x.chars.map fun _ ↦ blank ' ' :=
  if_pos hx

theorem blankOut_of_not_isNoise (hx : ¬ x.isNoise) : x.blankOut = [x] := if_neg hx

theorem flatMap_chars_blanks {α : Type} (l : List α) :
    (l.map fun _ ↦ blank ' ').flatMap chars = l.map fun _ ↦ ' ' := by
  induction l with
  | nil => rfl
  | cons a l ih =>
    rw [List.map_cons, List.flatMap_cons, ih]
    rfl

/-- The pieces put in the place of one have its characters, blanked. -/
theorem flatMap_chars_blankOut (x : Piece) : x.blankOut.flatMap chars = x.blankedChars := by
  rw [blankOut, blankedChars]
  split
  · exact flatMap_chars_blanks x.chars
  · exact List.flatMap_singleton chars x

theorem isBlanked_blankedChars (x : Piece) : IsBlanked x.chars x.blankedChars := by
  rw [blankedChars]
  split
  · exact isBlanked_map_blank x.chars
  · exact isBlanked_refl x.chars

/-- The blanked pieces make up a blanked text. -/
theorem isBlanked_flatMap (xs : List Piece) :
    IsBlanked (xs.flatMap chars) (xs.flatMap blankedChars) := by
  induction xs with
  | nil => exact .nil
  | cons x xs ih => exact List.rel_append (isBlanked_blankedChars x) ih

theorem flatMap_chars_flatMap_blankOut (xs : List Piece) :
    (xs.flatMap blankOut).flatMap chars = xs.flatMap blankedChars := by
  rw [List.flatMap_assoc]
  exact congrArg (xs.flatMap ·) (funext flatMap_chars_blankOut)

/-- Blanks can be put in front of any chain. -/
theorem Chained.blanks {α : Type} {xs : List Piece} (h : Chained xs) (l : List α) :
    Chained (l.map (fun _ ↦ blank ' ') ++ xs) := by
  induction l with
  | nil => exact h
  | cons a l ih => exact ⟨rfl, trivial, ih⟩

/-- What is left of a chain is a chain. -/
theorem Chained.blankOut {xs : List Piece} (h : Chained xs) : Chained (xs.flatMap blankOut) := by
  induction xs with
  | nil => trivial
  | cons x xs ih =>
    obtain ⟨hx, hstop, hrest⟩ := h
    rw [List.flatMap_cons]
    by_cases hnoise : x.isNoise
    · rw [blankOut_of_isNoise hnoise]
      exact (ih hrest).blanks x.chars
    · rw [blankOut_of_not_isNoise hnoise]
      refine ⟨hx, ?_, ih hrest⟩
      show x.StopsAt ((xs.flatMap Piece.blankOut).flatMap chars)
      rw [flatMap_chars_flatMap_blankOut]
      exact hstop.of_isBlanked (isBlanked_flatMap xs) hnoise

end Piece

/-- The source with a blank in place of each character of a comment, and of each that is reported as
unexpected. -/
def blankOut (source : String) : String :=
  String.ofList ((Piece.cut source.toList).flatMap Piece.blankedChars)

/-- The piece is a comment, or it is reported as an unexpected character. -/
def PlacedPiece.IsTakenOut (x : PlacedPiece) : Prop :=
  (∃ body, x.piece = .comment body) ∨ ∃ line c, x.report? = some ⟨line, .unexpected c⟩

/-- Whether a piece is noise can be told from its report, unless it is a comment. -/
theorem PlacedPiece.isNoise_iff (x : PlacedPiece) : x.piece.isNoise ↔ x.IsTakenOut := by
  obtain ⟨piece, p⟩ := x
  constructor
  · intro h
    cases piece with
    | comment body => exact .inl ⟨body, rfl⟩
    | stray c => exact .inr ⟨_, c, rfl⟩
    | _ => exact absurd h Bool.false_ne_true
  · rintro (⟨body, hbody⟩ | ⟨line, c, h⟩)
    · obtain rfl : piece = .comment body := hbody
      rfl
    · have hproblem : piece.HasProblem (.unexpected c) := (eq_of_report? h).1
      cases hproblem
      rfl

/-- What is put in the place of a piece. -/
theorem PlacedPiece.blankedChars_eq (x : PlacedPiece) :
    (x.IsTakenOut → x.piece.blankedChars = x.piece.chars.map fun _ ↦ ' ') ∧
      (¬ x.IsTakenOut → x.piece.blankedChars = x.piece.chars) := by
  rw [← x.isNoise_iff, Piece.blankedChars]
  exact ⟨fun h ↦ if_pos h, fun h ↦ if_neg h⟩

/-- A text can be gone through by its pieces in their places. -/
theorem flatMap_placedPieces {α : Type} (f : Piece → List α) (text : List Char) :
    (placedPieces text).flatMap (fun x ↦ f x.piece) = (Piece.cut text).flatMap f := by
  rw [← List.flatMap_map PlacedPiece.piece f, placedPieces, Piece.map_piece_place]

/-- A blanked source is cut where the source is, and at its blanks. -/
theorem cut_blankOut (source : String) :
    Piece.cut (blankOut source).toList = (Piece.cut source.toList).flatMap Piece.blankOut := by
  rw [blankOut, String.toList_ofList, ← Piece.flatMap_chars_flatMap_blankOut]
  exact Piece.cut_flatMap_iff.2 (Piece.chained_cut source.toList).blankOut

/-! ### What is told of the pieces -/

/-- The report is about an open string. -/
def Report.isUnterminated (r : Report) : Bool := r.message = "Unterminated string."

/-- The message tells that a report is about an open string. -/
theorem Report.isUnterminated_iff {r : Report} :
    r.isUnterminated ↔ r.problem = .unterminated := by
  rw [isUnterminated, decide_eq_true_eq, message_eq_unterminated_iff]

namespace Piece

variable {p q : Position} {xs ys xs' ys' : List Piece}

/-- From `q` on the pieces `ys` have the entries that the pieces `xs` have from `p` on, and make
those of their reports that are about open strings. -/
structure Mirrors (p q : Position) (xs ys : List Piece) : Prop where
  entries : ((place q ys).filterMap PlacedPiece.token?).map Token.entry =
    ((place p xs).filterMap PlacedPiece.token?).map Token.entry
  reports : (place q ys).filterMap PlacedPiece.report? =
    ((place p xs).filterMap PlacedPiece.report?).filter Report.isUnterminated
  agrees : (p.after (xs.flatMap chars)).Agrees (q.after (ys.flatMap chars))

/-- What is told of pieces behind others is told behind them, in either source. -/
theorem Mirrors.append (h : Mirrors p q xs ys)
    (h' : Mirrors (p.after (xs.flatMap chars)) (q.after (ys.flatMap chars)) xs' ys') :
    Mirrors p q (xs ++ xs') (ys ++ ys') where
  entries := by
    rw [place_append, place_append, List.filterMap_append, List.filterMap_append, List.map_append,
      List.map_append, h.entries, h'.entries]
  reports := by
    rw [place_append, place_append, List.filterMap_append, List.filterMap_append,
      List.filter_append, h.reports, h'.reports]
  agrees := by
    rw [List.flatMap_append, List.flatMap_append, Position.after_append, Position.after_append]
    exact h'.agrees

theorem filterMap_place_singleton {β : Type} (f : PlacedPiece → Option β) (x : Piece)
    (p : Position) : (place p [x]).filterMap f = (f ⟨x, p⟩).toList := by
  rw [place_cons, place_nil, List.filterMap_cons]
  rcases f ⟨x, p⟩ with - | b <;> rfl

/-- Blanks are told of nowhere. -/
theorem filterMap_place_blanks {α β : Type} {f : PlacedPiece → Option β}
    (hf : ∀ p, f ⟨blank ' ', p⟩ = none) (l : List α) (p : Position) :
    (place p (l.map fun _ ↦ blank ' ')).filterMap f = [] := by
  induction l generalizing p with
  | nil => rfl
  | cons a l ih =>
    rw [List.map_cons, place_cons, List.filterMap_cons_none (hf p)]
    exact ih _

/-- A piece that is no noise stays what it is. -/
theorem mirrors_singleton {x : Piece} (hx : x.IsSound) (hnoise : ¬ x.isNoise)
    (h : p.Agrees q) : Mirrors p q [x] [x] where
  entries := by
    rw [filterMap_place_singleton, filterMap_place_singleton, ← Option.toList_map,
      ← Option.toList_map, PlacedPiece.entry_token?, PlacedPiece.entry_token?, h.line, h.column]
  reports := by
    rw [filterMap_place_singleton, filterMap_place_singleton]
    cases x with
    | comment _ => exact absurd rfl hnoise
    | stray _ => exact absurd rfl hnoise
    | number text =>
      rw [PlacedPiece.report?_number hx, PlacedPiece.report?_number hx]
      rfl
    | openString body =>
      have hline := (h.after (openString body).chars).line
      show [Report.mk _ _] = List.filter _ [Report.mk _ _]
      rw [List.filter_cons_of_pos (Report.isUnterminated_iff.2 rfl)]
      exact congrArg (fun line ↦ [Report.mk line .unterminated]) hline.symm
    | _ => rfl
  agrees := by
    rw [List.flatMap_singleton]
    exact h.after x.chars

/-- There are no line feeds in comments and stray characters. -/
theorem lineFeed_not_mem_of_isNoise {x : Piece} (hx : x.IsSound) (hnoise : x.isNoise) :
    '\n' ∉ x.chars := by
  cases x with
  | comment body =>
    have hbody : '\n' ∉ body := hx
    simpa [chars] using hbody
  | stray c =>
    intro h
    rw [← List.mem_singleton.1 h] at hx
    exact hx.1 rfl
  | _ => exact absurd hnoise Bool.false_ne_true

/-- Noise is told of as blanks are, but for the report about a stray character. -/
theorem mirrors_blankOut {x : Piece} (hx : x.IsSound) (hnoise : x.isNoise) (h : p.Agrees q) :
    Mirrors p q [x] x.blankOut where
  entries := by
    rw [blankOut_of_isNoise hnoise, filterMap_place_blanks fun _ ↦ rfl, filterMap_place_singleton]
    cases x with
    | comment _ => rfl
    | stray _ => rfl
    | _ => exact absurd hnoise Bool.false_ne_true
  reports := by
    rw [blankOut_of_isNoise hnoise, filterMap_place_blanks fun _ ↦ rfl, filterMap_place_singleton]
    cases x with
    | comment _ => rfl
    | stray c =>
      have hother (line : Nat) : ¬ Report.isUnterminated ⟨line, .unexpected c⟩ :=
        fun hr ↦ Problem.noConfusion (Report.isUnterminated_iff.1 hr)
      show [] = List.filter _ [Report.mk _ _]
      rw [List.filter_cons_of_neg (hother _), List.filter_nil]
    | _ => exact absurd hnoise Bool.false_ne_true
  agrees := by
    rw [List.flatMap_singleton, flatMap_chars_blankOut, blankedChars, if_pos hnoise]
    refine h.after_of_length_eq (lineFeed_not_mem_of_isNoise hx hnoise) ?_ (by simp)
    simp

/-- **Blanked pieces**, by induction on the pieces. -/
theorem mirrors_flatMap_blankOut (hxs : ∀ x ∈ xs, x.IsSound) (h : p.Agrees q) :
    Mirrors p q xs (xs.flatMap blankOut) := by
  induction xs generalizing p q with
  | nil => exact ⟨rfl, rfl, h⟩
  | cons x xs ih =>
    obtain ⟨hx, hxs⟩ := List.forall_mem_cons.1 hxs
    have hfirst : Mirrors p q [x] x.blankOut := by
      by_cases hnoise : x.isNoise
      · exact mirrors_blankOut hx hnoise h
      · rw [blankOut_of_not_isNoise hnoise]
        exact mirrors_singleton hx hnoise h
    exact hfirst.append (ih hxs hfirst.agrees)

/-- Only an open string is reported as one. -/
theorem exists_openString_of_report? {x : Piece} {r : Report}
    (h : PlacedPiece.report? ⟨x, p⟩ = some r) (hr : r.isUnterminated) :
    ∃ body, x = openString body := by
  obtain ⟨hproblem, -⟩ := PlacedPiece.eq_of_report? h
  rw [Report.isUnterminated_iff.1 hr] at hproblem
  rcases hproblem with - | body
  exact ⟨body, rfl⟩

/-- There is at most one report about an open string. -/
theorem Chained.length_reports_le (h : Chained xs) (p : Position) :
    (((place p xs).filterMap PlacedPiece.report?).filter Report.isUnterminated).length ≤ 1 := by
  induction xs generalizing p with
  | nil => exact Nat.zero_le 1
  | cons x xs ih =>
    have hrest := ih h.2.2 (p.after x.chars)
    rw [place_cons, List.filterMap_cons]
    rcases hx : PlacedPiece.report? ⟨x, p⟩ with - | r
    · exact hrest
    · by_cases hr : r.isUnterminated
      · obtain ⟨body, rfl⟩ := exists_openString_of_report? hx hr
        rw [h.eq_nil_of_openString, place_nil, List.filterMap_nil]
        exact List.length_filter_le _ [r]
      · show (List.filter _ (r :: _)).length ≤ 1
        rw [List.filter_cons_of_neg hr]
        exact hrest

end Piece

/-- **Comments and stray characters are transparent.** A source is blanked out piece by piece: the
comments and the pieces that are reported as unexpected characters become blanks, as many as they
have characters, and the others stay. This leaves all tokens as they were, each on its line and in
its column, and the report about an open string if there is one, but no other. -/
theorem lex_blankOut (source : String) :
    (source.toList = (placedPieces source.toList).flatMap (fun x ↦ x.piece.chars) ∧
      (blankOut source).toList =
        (placedPieces source.toList).flatMap (fun x ↦ x.piece.blankedChars) ∧
      (lex source).reports = (placedPieces source.toList).filterMap PlacedPiece.report? ∧
      ∀ x : PlacedPiece, (x.IsTakenOut → x.piece.blankedChars = x.piece.chars.map fun _ ↦ ' ') ∧
        (¬ x.IsTakenOut → x.piece.blankedChars = x.piece.chars)) ∧
      (lex (blankOut source)).tokens.map Token.entry = (lex source).tokens.map Token.entry ∧
      (lex (blankOut source)).reports =
        (lex source).reports.filter (fun r ↦ r.message = "Unterminated string.") ∧
      ((lex source).reports.filter fun r ↦ r.message = "Unterminated string.").length ≤ 1 := by
  have hmirrors := Piece.mirrors_flatMap_blankOut (p := .start) (q := .start)
    (fun _ ↦ Piece.isSound_of_mem_cut (s := source.toList)) (Position.agrees_refl _)
  have hagrees := hmirrors.agrees
  rw [← cut_blankOut, Piece.flatMap_chars_cut, Piece.flatMap_chars_cut] at hagrees
  refine ⟨⟨?_, ?_, reports_lex source, PlacedPiece.blankedChars_eq⟩, ?_, ?_, ?_⟩
  · rw [flatMap_placedPieces, Piece.flatMap_chars_cut]
  · rw [flatMap_placedPieces, blankOut, String.toList_ofList]
  · rw [tokens_lex, tokens_lex, List.map_append, List.map_append, placedPieces, cut_blankOut,
      hmirrors.entries, List.map_singleton, List.map_singleton, Token.entry_endOfFile hagrees]
    rfl
  · rw [reports_lex, reports_lex, placedPieces, cut_blankOut, hmirrors.reports]
    rfl
  · rw [reports_lex]
    exact (Piece.chained_cut source.toList).length_reports_le .start

end LoxLexer
