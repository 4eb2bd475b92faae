import LoxLexer.Proofs.Contents
import LoxLexer.Proofs.Lookahead
import LoxLexer.Proofs.Shifts

/-!
# Sources put together

Behind a line feed nothing is left to be decided, unless a string is still open: every other piece
has seen where it ends (`Piece.isSettled_of_lineFeed`). So a source that ends with its last line,
all of its strings closed, is cut alike whatever follows, and what follows is cut as if it stood
alone (`Piece.cut_append_of_endsLine`). The tokens and reports of the two are then those of the one
behind those of the other, further down by the lines of the first and further on by its bytes, in
the same columns (`lex_append_of_endsLine`).
-/

namespace LoxLexer

/-! ### Texts that end with a line -/

/-- The text is empty or ends with a line feed. -/
def EndsLine (text : List Char) : Prop := text = [] ∨ text.getLast? = some '\n'

namespace Piece

/-- A piece with a line feed at its end has seen where it ends, unless it is an open string. -/
theorem isSettled_of_lineFeed {x : Piece} (hx : x.IsSound) (hopen : ∀ body, x ≠ .openString body)
    (h : '\n' ∈ x.chars) : x.IsSettled [] := by
  cases x with
  | openString body => exact absurd rfl (hopen body)
  | comment body =>
    have hbody : '\n' ∉ body := hx
    exact absurd h (by simpa [chars] using hbody)
  | number text => exact absurd rfl (Grammar.Number.not_isBlank hx _ h)
  | word text => exact absurd rfl (Grammar.Word.not_isBlank hx _ h)
  | operator o => exact absurd rfl (o.not_isBlank _ h)
  | _ => trivial

/-- **A text that ends with a line** is cut alike whatever follows, if none of its strings is
open. -/
theorem cut_append_of_endsLine {s : List Char} (hend : EndsLine s)
    (hopen : ∀ body, .openString body ∉ cut s) (x : List Char) :
    cut (s ++ x) = cut s ++ cut x := by
  obtain ⟨ys, rest, hs, hcut, happend, hrest⟩ := exists_settled s
  have hnil : rest = [] := by
    cases rest with
    | nil => rfl
    | cons c more =>
      exfalso
      have hlast : (c :: more).getLast? = some '\n' := by
        rcases hend with rfl | hlast
        · exact absurd hs.symm (by simp)
        · rwa [hs, List.getLast?_append_of_ne_nil _ (List.cons_ne_nil _ _)] at hlast
      have hchars := flatMap_chars_cut (c :: more)
      rcases cut_of_not_isSettled (hrest c more rfl) with ⟨y, hy, hsettled⟩ | ⟨text, htext, -⟩
      · have hmem : y ∈ cut s := by
          rw [hcut, hy]
          exact List.mem_append_right _ (List.mem_singleton_self y)
        rw [hy, List.flatMap_singleton] at hchars
        refine hsettled (isSettled_of_lineFeed (isSound_of_mem_cut hmem) ?_ ?_)
        · rintro body rfl
          exact hopen body hmem
        · rw [hchars]
          exact List.mem_of_getLast? hlast
      · -- the text ends with a point
        rw [htext] at hchars
        rw [← hchars] at hlast
        exact absurd hlast (by simp [chars, Operator.chars])
  rw [happend, hcut, hnil, cut_nil, List.append_nil, List.nil_append]

theorem report?_openString (body : List Char) (p : Position) :
    ∃ line, PlacedPiece.report? ⟨.openString body, p⟩ = some ⟨line, .unterminated⟩ :=
  ⟨_, rfl⟩

end Piece

/-- A source that makes no report about an open string has none. -/
theorem openString_not_mem_cut {source : String}
    (h : ∀ r ∈ (lex source).reports, r.message ≠ "Unterminated string.") (body : List Char) :
    .openString body ∉ Piece.cut source.toList := by
  intro hmem
  rw [← Piece.map_piece_place .start (Piece.cut source.toList)] at hmem
  obtain ⟨⟨piece, p⟩, hx, hpiece⟩ := List.mem_map.1 hmem
  obtain rfl : piece = .openString body := hpiece
  obtain ⟨line, hline⟩ := Piece.report?_openString body p
  have hreport : ⟨line, .unterminated⟩ ∈ (lex source).reports := by
    rw [reports_lex]
    exact List.mem_filterMap.2 ⟨_, hx, hline⟩
  exact h _ hreport rfl

/-! ### Moving straight down -/

/-- The position so many lines further down and so many bytes further on, in the same column. -/
def Position.below (p : Position) (lines bytes : Nat) : Position :=
  ⟨p.line + lines, p.column, p.offset + bytes⟩

def Token.below (t : Token) (lines bytes : Nat) : Token :=
  { t with start := t.start.below lines bytes }

def Report.below (r : Report) (lines : Nat) : Report := { r with line := r.line + lines }

namespace Position

theorem column_after_of_endsLine {text : List Char} (h : EndsLine text) :
    (start.after text).column = 1 := by
  rcases h with rfl | h
  · rfl
  · obtain ⟨before, rfl⟩ := List.getLast?_eq_some_iff.1 h
    rw [after_append]
    rfl

theorem line_start_after_sub_one (text : List Char) :
    (start.after text).line - 1 = text.count '\n' := by
  rw [line_start_after, Nat.add_sub_cancel_left]

/-- Behind a text that ends with a line, what is moved is moved straight down. -/
theorem movedTo_of_endsLine {text : List Char} (h : EndsLine text) (q : Position) :
    q.movedTo (start.after text) = q.below (text.count '\n') (byteLength text) := by
  rw [movedTo, column_after_of_endsLine h, line_start_after_sub_one, offset_start_after, below,
    Nat.sub_self, Nat.add_zero, ite_self]

end Position

/-! ### Two sources -/

variable {a b : String}

theorem filter_tokens_lex (source : String) :
    ((lex source).tokens.filter fun t ↦ t.kind ≠ .endOfFile) =
      (placedPieces source.toList).filterMap PlacedPiece.token? := by
  rw [tokens_lex, List.filter_append, List.filter_eq_self.2]
  · exact List.append_nil _
  · intro t ht
    obtain ⟨x, -, hx⟩ := List.mem_filterMap.1 ht
    simpa using (PlacedPiece.eq_of_token? hx).1.ne_endOfFile

/-- **Lexing composes over lines.** If a source is empty or ends with a line feed, and makes no
report about an open string, then it can be lexed apart from what follows it. The tokens of the
whole are its tokens without the end, and then those of the rest, further down by its line feeds and
further on by its bytes; the reports are its reports and then those of the rest, further down as
well. -/
theorem lex_append_of_endsLine (hend : EndsLine a.toList)
    (hclosed : ∀ r ∈ (lex a).reports, r.message ≠ "Unterminated string.") :
    (lex (a ++ b)).tokens = ((lex a).tokens.filter fun t ↦ t.kind ≠ .endOfFile) ++
        (lex b).tokens.map (·.below (a.toList.count '\n') a.utf8ByteSize) ∧
      (lex (a ++ b)).reports = (lex a).reports ++
        (lex b).reports.map (·.below (a.toList.count '\n')) := by
  have htext : (a ++ b).toList = a.toList ++ b.toList := String.toList_append
  have hcut : Piece.cut (a ++ b).toList = Piece.cut a.toList ++ Piece.cut b.toList := by
    rw [htext, Piece.cut_append_of_endsLine hend (openString_not_mem_cut hclosed)]
  have hbytes : a.utf8ByteSize = byteLength a.toList := by
    rw [← utf8ByteSize_ofList, String.ofList_toList]
  constructor
  · rw [tokens_lex_of_cut htext hcut, filter_tokens_lex, hbytes]
    refine congrArg (_ ++ ·) (List.map_congr_left fun t _ ↦ ?_)
    rw [Token.movedTo, Position.movedTo_of_endsLine hend, Token.below]
  · rw [reports_lex_of_cut htext hcut, reports_lex a, placedPieces]
    refine congrArg (_ ++ ·) (List.map_congr_left fun r _ ↦ ?_)
    rw [Report.movedTo, Position.line_start_after_sub_one, Report.below]

/-- A closed string over two lines and a stray character, and behind them an open string. -/
theorem lex_append_behind_two_lines :
    (EndsLine "\"é\nb\" @\n".toList ∧
      ∀ r ∈ (lex "\"é\nb\" @\n").reports, r.message ≠ "Unterminated string.") ∧
    (lex ("\"é\nb\" @\n" ++ "1 \"c")).tokens =
        ((lex "\"é\nb\" @\n").tokens.filter fun t ↦ t.kind ≠ .endOfFile) ++
          (lex "1 \"c").tokens.map
            (·.below ("\"é\nb\" @\n".toList.count '\n') "\"é\nb\" @\n".utf8ByteSize) ∧
      (lex ("\"é\nb\" @\n" ++ "1 \"c")).reports = (lex "\"é\nb\" @\n").reports ++
        (lex "1 \"c").reports.map (·.below ("\"é\nb\" @\n".toList.count '\n')) := by
  have hend : EndsLine "\"é\nb\" @\n".toList := .inr (by decide)
  have hreports : (lex "\"é\nb\" @\n").reports = [⟨2, .unexpected '@'⟩] := by decide +kernel
  have hclosed : ∀ r ∈ (lex "\"é\nb\" @\n").reports, r.message ≠ "Unterminated string." := by
    rw [hreports]
    decide
  exact ⟨⟨hend, hclosed⟩, lex_append_of_endsLine hend hclosed⟩

end LoxLexer
