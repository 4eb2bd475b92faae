import LoxLexer.Proofs.TokenPositions
import LoxLexer.Proofs.MaximalMunch

/-!
# The gaps between tokens

What stands between the tokens of a source can be judged without the lexer: `isTrivia` knows blanks
and comments and nothing else. A source makes no report exactly if all its gaps are trivia
(`reports_of_gaps`).

Gaps are found by the offsets of the tokens alone (`gaps`). In between are the pieces that are no
tokens (`Piece.Chained.gapTexts`), so the text of a gap is made of these few kinds of pieces
(`GapText`). Of a text so made `isTrivia` strips one piece after the other, in the same order, and
it gets to the end if and only if there was none with a message (`GapText.isTrivia_iff`). For this a
comment has to end at a line feed in the same gap, or at the end of the source: the token behind a
gap cannot begin with a line feed, so no gap ends where a comment does (`head?_of_comment`).
-/

namespace LoxLexer

/-! ### Trivia -/

/-- Leaving out a comment shortens a text. -/
theorem length_dropWhile_lt_of_comment {s : List Char} (h : ['/', '/'] <+: s) :
    (s.dropWhile (· ≠ '\n')).length < s.length := by
  obtain ⟨more, rfl⟩ := h
  have hmore := more.length_dropWhile_le (· ≠ '\n')
  rw [List.dropWhile_append_of_pos (by simp), List.length_append]
  exact hmore.trans_lt (Nat.lt_add_of_pos_left (by decide))

/-- Tells texts of blanks and comments from others: blanks are stripped off, and whatever is left
has to begin with a comment, which reaches up to the next line feed or to the end. -/
def isTrivia (gap : List Char) : Bool :=
  let rest := gap.dropWhile (· ∈ [' ', '\t', '\r', '\n'])
  if rest = [] then true
  else if _h : ['/', '/'] <+: rest then isTrivia (rest.dropWhile (· ≠ '\n'))
  else false
termination_by gap.length
decreasing_by exact (length_dropWhile_lt_of_comment _h).trans_le (List.length_dropWhile_le _ gap)

section

variable {c : Char} {rest : List Char}

theorem isTrivia_nil : isTrivia [] := by
  rw [isTrivia]
  rfl

/-- A blank is passed over. -/
theorem isTrivia_blank (hc : c ∈ [' ', '\t', '\r', '\n']) :
    isTrivia (c :: rest) = isTrivia rest := by
  rw [isTrivia, isTrivia.eq_def rest, List.dropWhile_cons_of_pos (by simpa using hc)]

/-- A comment is passed over up to the line feed. -/
theorem isTrivia_comment {body : List Char} (hbody : '\n' ∉ body)
    (hrest : ∀ c ∈ rest.head?, c = '\n') :
    isTrivia ('/' :: '/' :: (body ++ rest)) = isTrivia rest := by
  have hrun : '\n' ∉ '/' :: '/' :: body := by simpa using hbody
  have hdrop : (('/' :: '/' :: body) ++ rest).dropWhile (· ≠ '\n') = rest :=
    dropWhile_ne_append hrun hrest
  rw [isTrivia, List.dropWhile_cons_of_neg (by decide)]
  simp only [List.cons_ne_nil, if_false]
  rw [dif_pos ⟨body ++ rest, rfl⟩]
  exact congrArg isTrivia hdrop

/-- Nothing else is passed over. -/
theorem isTrivia_other (hc : c ∉ [' ', '\t', '\r', '\n']) (hslash : c ≠ '/') :
    ¬ isTrivia (c :: rest) := by
  rw [isTrivia, List.dropWhile_cons_of_neg (by simpa using hc)]
  simp only [List.cons_ne_nil, if_false]
  rw [dif_neg]
  · exact Bool.false_ne_true
  · rintro ⟨more, hmore⟩
    exact hslash (List.cons.inj hmore).1.symm

end

/-! ### Gaps -/

/-- The characters of a text that begin at offsets from `a` on and before `b`. -/
def textBetween (s : List Char) (a b : Nat) : List Char :=
  (textBefore s b).drop (textBefore s a).length

/-- The text between two offsets is what lies there. -/
theorem textBetween_append (before gap after : List Char) :
    textBetween (before ++ (gap ++ after)) (byteLength before) (byteLength (before ++ gap)) =
      gap := by
  rw [textBetween, textBefore_append before (gap ++ after), ← List.append_assoc,
    textBefore_append, List.drop_left]

/-- The texts in front of tokens: in front of the first from offset `a` on, in front of each other
from where the token before it ends. -/
def gapsFrom (s : List Char) : Nat → List Token → List (List Char)
  | _, [] => []
  | a, t :: ts => textBetween s a t.start.offset :: gapsFrom s t.stopOffset ts

/-- The texts between the tokens of a source, in front of the first and up to the end included. -/
def gaps (source : String) : List (List Char) := gapsFrom source.toList 0 (lex source).tokens

/-- A gap with the messages about what is in it: blanks, comments, and stray characters. A comment
that no line feed follows, and a string that nothing closes, stand only at the end of the source. -/
inductive GapText (atEnd : Bool) : List Char → List String → Prop
  | nil : GapText atEnd [] []
  | blank {c : Char} {rest : List Char} {ms : List String}
      (hc : c ∈ [' ', '\t', '\r', '\n']) (h : GapText atEnd rest ms) :
      GapText atEnd (c :: rest) ms
  | comment {body rest : List Char} {ms : List String} (hbody : '\n' ∉ body)
      (hrest : rest.head? = some '\n' ∨ atEnd ∧ rest = []) (h : GapText atEnd rest ms) :
      GapText atEnd ('/' :: '/' :: (body ++ rest)) ms
  | unexpected {c : Char} {rest : List Char} {ms : List String} (hc : (Piece.stray c).IsSound)
      (h : GapText atEnd rest ms) :
      GapText atEnd (c :: rest) (Problem.message (.unexpected c) :: ms)
  | unterminated {body : List Char} (hend : atEnd) (hbody : '"' ∉ body) :
      GapText atEnd ('"' :: body) [Problem.message .unterminated]

/-- Gaps with the messages about what is in them, the last gap at the end of the source. -/
inductive GapTexts : List (List Char) → List String → Prop
  | last {g : List Char} {ms : List String} (h : GapText true g ms) : GapTexts [g] ms
  | cons {g : List Char} {gs : List (List Char)} {ms ns : List String} (h : GapText false g ms)
      (hs : GapTexts gs ns) : GapTexts (g :: gs) (ms ++ ns)

theorem isBlank_iff_mem {c : Char} : isBlank c ↔ c ∈ [' ', '\t', '\r', '\n'] := by
  simp [isBlank]

/-- **Trivia are the gaps without messages.** -/
theorem GapText.isTrivia_iff {atEnd : Bool} {g : List Char} {ms : List String}
    (h : GapText atEnd g ms) : isTrivia g ↔ ms = [] := by
  induction h with
  | nil => exact iff_of_true isTrivia_nil rfl
  | blank hc _ ih => rwa [isTrivia_blank hc]
  | comment hbody hrest _ ih =>
    rwa [isTrivia_comment hbody]
    rcases hrest with hrest | ⟨-, rfl⟩
    · simp [hrest]
    · simp
  | unexpected hc _ _ =>
    have hslash := hc.2.2.2.2
    refine iff_of_false (isTrivia_other (mt isBlank_iff_mem.2 hc.1) ?_) (List.cons_ne_nil _ _)
    rintro rfl
    exact absurd hslash (by decide)
  | unterminated =>
    exact iff_of_false (isTrivia_other (by decide) (by decide)) (List.cons_ne_nil _ _)

/-- All gaps are trivia exactly if there are no messages. -/
theorem GapTexts.forall_isTrivia_iff {gs : List (List Char)} {ms : List String}
    (h : GapTexts gs ms) : (∀ g ∈ gs, isTrivia g) ↔ ms = [] := by
  induction h with
  | last h => rw [List.forall_mem_singleton, h.isTrivia_iff]
  | cons h _ ih => rw [List.forall_mem_cons, h.isTrivia_iff, ih, List.append_eq_nil_iff]

/-! ### Gaps and pieces -/

namespace Piece

/-- No token begins with a blank. -/
theorem not_isBlank_of_head? {x : Piece} (hx : x.IsSound) (htoken : x.isToken) :
    ∀ c ∈ x.chars.head?, ¬ isBlank c := fun c hc ↦ by
  have hmem := List.mem_of_mem_head? hc
  cases x with
  | string body =>
    obtain rfl : '"' = c := Option.some.inj hc
    decide
  | number text => exact Grammar.Number.not_isBlank hx c hmem
  | word text => exact Grammar.Word.not_isBlank hx c hmem
  | operator o => exact o.not_isBlank c hmem
  | _ => exact absurd htoken (by simp [isToken])

/-- What follows a comment in the text of its gap, with tokens behind the gap. -/
theorem head?_of_comment {body text : List Char} {ys : List Piece} {atEnd : Bool}
    (hstop : StopsAt (comment body) (text ++ ys.flatMap chars)) (hys : Chained ys)
    (hend : ys = [] → atEnd) (htoken : ∀ y ∈ ys.head?, y.isToken) :
    text.head? = some '\n' ∨ atEnd ∧ text = [] := by
  cases text with
  | cons c text =>
    obtain rfl : c = '\n' := hstop c rfl
    exact .inl rfl
  | nil =>
    refine .inr ⟨hend ?_, rfl⟩
    cases ys with
    | nil => rfl
    | cons y ys =>
      -- the token behind the gap does not begin with a line feed
      obtain ⟨c, tail, hc⟩ := List.exists_cons_of_ne_nil hys.1.chars_ne_nil
      have hnewline : c = '\n' := hstop c (by simp [hc])
      refine absurd ?_ (not_isBlank_of_head? hys.1 (htoken y rfl) c (by rw [hc]; rfl))
      rw [hnewline]
      decide

/-- Pieces up to the next token or the end of the source are the text of a gap. -/
theorem Chained.gapText {xs ys : List Piece} {atEnd : Bool} (h : Chained (xs ++ ys))
    (hxs : ∀ x ∈ xs, ¬ x.isToken) (hend : ys = [] → atEnd) (hys : ∀ y ∈ ys.head?, y.isToken) :
    GapText atEnd (xs.flatMap chars) (xs.filterMap message?) := by
  induction xs with
  | nil => exact .nil
  | cons x xs ih =>
    rw [List.cons_append] at h
    obtain ⟨hx, hstop, hrest⟩ := id h
    obtain ⟨hxtoken, hxs⟩ := List.forall_mem_cons.1 hxs
    have ih := ih hrest hxs
    cases x with
    | blank c => exact .blank (isBlank_iff_mem.1 hx) ih
    | comment body =>
      rw [List.flatMap_append] at hstop
      exact .comment hx (head?_of_comment hstop hrest.of_append hend hys) ih
    | openString body =>
      obtain ⟨rfl, rfl⟩ := List.append_eq_nil_iff.1 h.eq_nil_of_openString
      show GapText atEnd ('"' :: body ++ []) _
      rw [List.append_nil]
      exact .unterminated (hend rfl) hx
    | stray c => exact .unexpected hx ih
    | _ => exact absurd rfl hxtoken

/-- A piece of any other sort is no token. -/
theorem token?_eq_none {x : PlacedPiece} (hx : ¬ x.piece.isToken) : x.token? = none := by
  obtain ⟨piece, p⟩ := x
  cases piece with
  | string _ => exact absurd rfl hx
  | number _ => exact absurd rfl hx
  | word _ => exact absurd rfl hx
  | operator _ => exact absurd rfl hx
  | _ => rfl

/-- A piece of that sort is a token. -/
theorem exists_token?_eq {x : PlacedPiece} (h : x.piece.IsSound) (hx : x.piece.isToken) :
    ∃ t, x.token? = some t := by
  refine Option.isSome_iff_exists.1 ((PlacedPiece.token?_isSome fun text hpiece ↦ ?_).trans hx)
  rwa [hpiece] at h

theorem tokens_place_eq_nil {xs : List Piece} (hxs : ∀ x ∈ xs, ¬ x.isToken) (p : Position) :
    (place p xs).filterMap PlacedPiece.token? = [] :=
  List.filterMap_eq_nil_iff.2 fun x hx ↦
    token?_eq_none (hxs x.piece (map_piece_place p xs ▸ List.mem_map_of_mem hx))

/-- A piece that is a token has no message. -/
theorem message?_eq_none {x : Piece} (htoken : x.isToken) : x.message? = none := by
  cases x with
  | openString _ => exact absurd htoken Bool.false_ne_true
  | stray _ => exact absurd htoken Bool.false_ne_true
  | _ => rfl

/-- The gap in front of a token reaches from the cut before it to where its piece begins, and the
next one begins where the piece ends. -/
theorem gapsFrom_token {before gap after : List Char} {x : Piece} {t : Token}
    (ht : PlacedPiece.token? ⟨x, Position.start.after (before ++ gap)⟩ = some t)
    (ts : List Token) :
    gapsFrom (before ++ (gap ++ after)) (byteLength before) (t :: ts) =
      gap :: gapsFrom (before ++ (gap ++ after)) (byteLength (before ++ gap ++ x.chars)) ts := by
  have hstart : t.start.offset = byteLength (before ++ gap) := by
    rw [(PlacedPiece.eq_of_token? ht).2.2, offset_start_after]
  have hstop : t.stopOffset = byteLength (before ++ gap ++ x.chars) := by
    rw [PlacedPiece.stopOffset_of_token? ht, PlacedPiece.stop, ← Position.after_append,
      offset_start_after]
  rw [gapsFrom, hstart, hstop, textBetween_append]

/-- The last gap goes to the end of the source. -/
theorem gapsFrom_endOfFile (before gap : List Char) :
    gapsFrom (before ++ gap) (byteLength before)
      [Token.endOfFile (Position.start.after (before ++ gap))] = [gap] := by
  have hgap := textBetween_append before gap []
  rw [List.append_nil] at hgap
  rw [gapsFrom, gapsFrom, Token.endOfFile, offset_start_after, hgap]

/-- **The gaps behind a cut**, by induction on the pieces from token to token. -/
theorem Chained.gapTexts (before : List Char) {xs : List Piece} (h : Chained xs) :
    GapTexts (gapsFrom (before ++ xs.flatMap chars) (byteLength before)
      ((place (Position.start.after before) xs).filterMap PlacedPiece.token? ++
        [Token.endOfFile (Position.start.after (before ++ xs.flatMap chars))]))
      (xs.filterMap message?) := by
  rcases hfind : xs.find? isToken with - | y
  · have hxs : ∀ x ∈ xs, ¬ x.isToken := List.find?_eq_none.1 hfind
    rw [tokens_place_eq_nil hxs, List.nil_append, gapsFrom_endOfFile]
    rw [← List.append_nil xs] at h
    exact .last (h.gapText hxs (fun _ ↦ rfl) (by simp))
  · obtain ⟨hy, gap, ys, rfl, hgap⟩ := List.find?_eq_some_iff_append.1 hfind
    have hgap : ∀ x ∈ gap, ¬ x.isToken := fun x hx ↦ by simpa using hgap x hx
    have hys : Chained (y :: ys) := h.of_append
    obtain ⟨t, ht⟩ := exists_token?_eq
      (x := ⟨y, Position.start.after (before ++ gap.flatMap chars)⟩) hys.1 hy
    have htext : before ++ (gap.flatMap chars ++ (y :: ys).flatMap chars) =
        before ++ gap.flatMap chars ++ y.chars ++ ys.flatMap chars := by
      rw [List.flatMap_cons, List.append_assoc, List.append_assoc]
    rw [place_append, ← Position.after_append, place_cons, List.filterMap_append,
      tokens_place_eq_nil hgap, List.nil_append, List.filterMap_cons_some ht, List.cons_append,
      List.flatMap_append, gapsFrom_token ht, List.filterMap_append,
      List.filterMap_cons_none (message?_eq_none hy)]
    refine .cons (h.gapText hgap (fun hnil ↦ absurd hnil (List.cons_ne_nil y ys)) ?_) ?_
    · rintro x ⟨⟩
      exact hy
    · rw [htext, ← Position.after_append]
      exact hys.2.2.gapTexts (before ++ gap.flatMap chars ++ y.chars)
termination_by xs.length

end Piece

/-- **Reports are about gaps.** A source makes no report exactly if all its gaps are trivia. In
general its gaps are blanks, comments and stray characters, and at the end of the last gap perhaps a
string that nothing closes; the messages of its reports are the messages about these, in order. -/
theorem reports_of_gaps (source : String) :
    ((lex source).reports = [] ↔ ∀ gap ∈ gaps source, isTrivia gap) ∧
      GapTexts (gaps source) ((lex source).reports.map Report.message) := by
  have hgaps : GapTexts (gaps source) ((lex source).reports.map Report.message) := by
    have hcut := (Piece.chained_cut source.toList).gapTexts []
    rw [messages_lex, gaps, tokens_lex]
    rwa [List.nil_append, Piece.flatMap_chars_cut] at hcut
  refine ⟨?_, hgaps⟩
  rw [hgaps.forall_isTrivia_iff, List.map_eq_nil_iff]

example : gaps "a @// b\nc" = [[], " @// b\n".toList, []] := by decide +kernel

end LoxLexer
