import LoxLexer.Proofs.Contents
import LoxLexer.Proofs.TokenPositions
import Mathlib.Data.List.Forall2

/-!
# Line endings

A line ends with its line feed, and whether a carriage return stands in front of that makes no
difference. A carriage return there is a blank or the last character of a comment, or it lies inside
a string, so it can be taken away (`reline`) piece by piece: one piece may be gone, comments and
strings lose characters, and all others stay what they are (`Piece.reline?`, `cut_relined`).

Where the tokens are in the relined source need not be carried along. A token begins with no line
feed, so the text before it is the text before it in the source, relined (`relineBefore_of_head?`),
and of a relined text the position is known: the same line and column, and so many bytes less as
carriage returns are gone (`Position.relines_of_head?`).
-/

namespace LoxLexer

/-! ### Relined texts -/

/-- The text with a line feed alone wherever it has a carriage return and a line feed. -/
def reline : List Char → List Char
  | [] => []
  | c :: s => if c = '\r' ∧ s.head? = some '\n' then reline s else c :: reline s

/-- The relined text where `rest` follows it: a line feed at the head of `rest` counts, too. -/
def relineBefore (rest : List Char) : List Char → List Char
  | [] => []
  | c :: s =>
    if c = '\r' ∧ (s ++ rest).head? = some '\n' then relineBefore rest s
    else c :: relineBefore rest s

/-- The number of carriage returns in front of a line feed. -/
def crlfCount (s : List Char) : Nat := (s.zip s.tail).count ('\r', '\n')

variable {c : Char} {s t rest : List Char}

/-- A text is relined part by part, each in view of what comes behind. -/
theorem reline_append (s t : List Char) : reline (s ++ t) = relineBefore t s ++ reline t := by
  induction s with
  | nil => rfl
  | cons c s ih =>
    rw [List.cons_append, reline, relineBefore]
    split
    · exact ih
    · rw [ih, List.cons_append]

/-- The same holds in front of a further text. -/
theorem relineBefore_append (rest s t : List Char) :
    relineBefore rest (s ++ t) = relineBefore (t ++ rest) s ++ relineBefore rest t := by
  induction s with
  | nil => rfl
  | cons c s ih =>
    rw [List.cons_append, relineBefore, relineBefore, List.append_assoc]
    split
    · exact ih
    · rw [ih, List.cons_append]

/-- Only a line feed at the head of what follows matters. -/
theorem relineBefore_of_head? (h : rest.head? ≠ some '\n') (s : List Char) :
    relineBefore rest s = reline s := by
  induction s with
  | nil => rfl
  | cons c s ih =>
    have hhead : (s ++ rest).head? = some '\n' ↔ s.head? = some '\n' := by
      rcases s with - | ⟨d, s⟩
      · simpa using h
      · rfl
    rw [relineBefore, reline, ih]
    simp only [hhead]

theorem relineBefore_nil (s : List Char) : relineBefore [] s = reline s :=
  relineBefore_of_head? (by simp) s

/-- Only blanks, comments and strings hold carriage returns. -/
theorem relineBefore_of_not_isBlank (h : ∀ c ∈ s, ¬ isBlank c) (rest : List Char) :
    relineBefore rest s = s := by
  induction s with
  | nil => rfl
  | cons c s ih =>
    obtain ⟨hc, hs⟩ := List.forall_mem_cons.1 h
    have hreturn : c ≠ '\r' := by
      rintro rfl
      exact hc (by decide)
    rw [relineBefore, if_neg fun hcrlf ↦ hreturn hcrlf.1, ih hs]

/-- A text without blanks is left alone. -/
theorem reline_of_not_isBlank (h : ∀ c ∈ s, ¬ isBlank c) : reline s = s := by
  rw [← relineBefore_nil, relineBefore_of_not_isBlank h]

/-- Nothing is put in. -/
theorem relineBefore_sublist (rest s : List Char) : (relineBefore rest s).Sublist s := by
  induction s with
  | nil => exact .slnil
  | cons c s ih =>
    rw [relineBefore]
    split
    · exact ih.cons c
    · exact ih.cons_cons c

/-- No line feed is lost. -/
theorem count_relineBefore (rest s : List Char) :
    (relineBefore rest s).count '\n' = s.count '\n' := by
  induction s with
  | nil => rfl
  | cons c s ih =>
    rw [relineBefore]
    split
    · next h => rw [ih, h.1, List.count_cons_of_ne (by decide)]
    · rw [List.count_cons, List.count_cons, ih]

/-- Only a carriage return can be left out. -/
theorem reline_cons_of_ne (h : c ≠ '\r') (s : List Char) : reline (c :: s) = c :: reline s :=
  if_neg fun hreturn ↦ h hreturn.1

/-- Where a carriage return is gone stands a line feed. -/
theorem reline_cases (s : List Char) :
    (∃ t, reline s = '\n' :: t) ∨ s = [] ∨ ∃ c t, s = c :: t ∧ reline s = c :: reline t := by
  induction s with
  | nil => exact .inr (.inl rfl)
  | cons c s ih =>
    by_cases h : c = '\r' ∧ s.head? = some '\n'
    · obtain ⟨t, rfl⟩ := List.head?_eq_some_iff.1 h.2
      exact .inl ⟨reline t, (if_pos h).trans (reline_cons_of_ne (by decide) t)⟩
    · exact .inr (.inr ⟨c, s, rfl, if_neg h⟩)

/-- A relined text begins as the text does, or with a line feed. -/
theorem head?_reline (s : List Char) : ∀ d ∈ (reline s).head?, d ∈ s.head? ∨ d = '\n' := by
  rcases reline_cases s with ⟨t, h⟩ | rfl | ⟨c, t, rfl, h⟩
  · rw [h]
    exact fun d hd ↦ .inr (Option.some.inj hd).symm
  · exact fun d hd ↦ absurd hd (Option.not_mem_none d)
  · rw [h]
    exact fun d hd ↦ .inl hd

/-- To a piece in front of it, a relined text looks like the text. -/
theorem looksBlanked_reline (s : List Char) : LooksBlanked s (reline s) where
  eq_nil hs := by rw [hs, reline]
  head d hd := (head?_reline s d hd).imp_right fun hd ↦ by rw [hd]; decide
  point more hmore := by
    rcases reline_cases s with ⟨t, h⟩ | rfl | ⟨c, t, rfl, h⟩
    · rw [h] at hmore
      exact absurd (List.cons.inj hmore).1 (by decide)
    · exact absurd hmore (List.cons_ne_nil _ _).symm
    · obtain ⟨rfl, rfl⟩ := List.cons.inj (h.symm.trans hmore)
      exact ⟨t, rfl, fun d hd ↦ (head?_reline t d hd).imp_right fun hd ↦ by rw [hd]; decide⟩

/-! ### Positions behind a relined text -/

theorem crlfCount_cons (c : Char) (s : List Char) : crlfCount (c :: s) =
    (if c = '\r' ∧ s.head? = some '\n' then 1 else 0) + crlfCount s := by
  rcases s with - | ⟨d, s⟩
  · simp [crlfCount]
  · simp only [crlfCount, List.tail_cons, List.zip_cons_cons, List.count_cons, List.head?_cons,
      Option.some.injEq, beq_iff_eq, Prod.mk.injEq]
    omega

/-- Every pair of characters that becomes one makes the text a byte shorter. -/
theorem byteLength_reline (s : List Char) : byteLength (reline s) + crlfCount s = byteLength s := by
  induction s with
  | nil => rfl
  | cons c s ih =>
    rw [crlfCount_cons, reline]
    split
    · next h =>
      have hc : c.utf8Size = 1 := by rw [h.1]; decide
      rw [byteLength_cons, hc]
      omega
    · rw [byteLength_cons, byteLength_cons]
      omega

example : reline "a\r\n\r\r\n\n\rb\r".toList = "a\n\r\n\n\rb\r".toList ∧
    crlfCount "a\r\n\r\r\n\n\rb\r".toList = 2 := by
  decide

/-- A relined text leads to the same line and column. Between a carriage return and its line feed
columns do not count. -/
theorem agrees_after_reline {p q : Position} (hline : p.line = q.line)
    (hcolumn : s.head? ≠ some '\n' → p.column = q.column) :
    (p.after s).Agrees (q.after (reline s)) := by
  induction s generalizing p q with
  | nil => exact ⟨hline, hcolumn (by simp)⟩
  | cons c s ih =>
    rw [reline]
    split
    · next h =>
      obtain ⟨rfl, hnext⟩ := h
      exact ih hline fun hne ↦ absurd hnext hne
    · rw [Position.after_cons, Position.after_cons]
      by_cases hc : c = '\n'
      · rw [Position.step, Position.step, if_pos hc, if_pos hc]
        exact ih (congrArg (· + 1) hline) fun _ ↦ rfl
      · have hagrees : p.Agrees q := ⟨hline, hcolumn (by simpa using hc)⟩
        exact ih (hagrees.step c).line fun _ ↦ (hagrees.step c).column

/-- The position `q` in the relined source is that of what is at `p` in the source: on the same line
and in the same column, and so many bytes less as carriage returns before it are gone. -/
structure Position.Relines (source : String) (p q : Position) : Prop where
  line : q.line = p.line
  column : q.column = p.column
  offset : q.offset + crlfCount (textBefore source.toList p.offset) = p.offset

/-- The text before anything but a line feed is the text before it in the source, relined. -/
theorem Position.relines_of_head? {source : String} {before after : List Char}
    (hsource : source.toList = before ++ after) (hafter : after.head? ≠ some '\n') :
    (start.after before).Relines source (start.after (relineBefore after before)) := by
  have hagrees : (start.after before).Agrees (start.after (reline before)) :=
    agrees_after_reline rfl fun _ ↦ rfl
  rw [relineBefore_of_head? hafter]
  refine ⟨hagrees.line.symm, hagrees.column.symm, ?_⟩
  rw [offset_start_after, offset_start_after, hsource, textBefore_append, byteLength_reline]

/-! ### Relined pieces -/

namespace Piece

variable {x y : Piece} {xs : List Piece}

/-- What becomes of a piece that `rest` follows: a carriage return in front of a line feed is gone,
and so it is from a comment or a string. -/
def reline? (rest : List Char) : Piece → Option Piece
  | blank c => if c = '\r' ∧ rest.head? = some '\n' then none else some (blank c)
  | comment body => some (comment (relineBefore rest body))
  | string body => some (string (reline body))
  | openString body => some (openString (reline body))
  | x => some x

/-- What becomes of some pieces. -/
def relineAll : List Piece → List Piece
  | [] => []
  | x :: xs => (x.reline? (xs.flatMap chars)).toList ++ relineAll xs

/-- What becomes of a piece has the characters that become of its own. -/
theorem chars_reline? (hx : x.IsSound) (hstop : x.StopsAt rest) :
    (x.reline? rest).toList.flatMap chars = relineBefore rest x.chars := by
  have hkept {text : List Char} (h : ∀ c ∈ text, ¬ isBlank c) : relineBefore rest text = text :=
    relineBefore_of_not_isBlank h rest
  cases x with
  | blank c =>
    show _ = if c = '\r' ∧ rest.head? = some '\n' then [] else [c]
    rw [reline?]
    split <;> rfl
  | comment body => exact List.append_nil ('/' :: '/' :: relineBefore rest body)
  | string body =>
    have hquote : ('"' :: rest).head? ≠ some '\n' := by simp
    show '"' :: (reline body ++ ['"']) ++ [] = '"' :: relineBefore rest (body ++ ['"'])
    rw [List.append_nil, relineBefore_append, List.singleton_append, relineBefore_of_head? hquote]
    rfl
  | openString body =>
    obtain rfl : rest = [] := hstop
    show '"' :: reline body ++ [] = '"' :: relineBefore [] body
    rw [List.append_nil, relineBefore_nil]
  | number text => exact (List.append_nil _).trans (hkept (Grammar.Number.not_isBlank hx)).symm
  | word text => exact (List.append_nil _).trans (hkept (Grammar.Word.not_isBlank hx)).symm
  | operator o => exact (List.append_nil _).trans (hkept o.not_isBlank).symm
  | stray c => exact (hkept (List.forall_mem_singleton.2 hx.1)).symm

/-- What becomes of a piece is sound and stops at what becomes of the rest. -/
theorem isSound_of_reline? (hx : x.IsSound) (hstop : x.StopsAt rest)
    (h : x.reline? rest = some y) : y.IsSound ∧ y.StopsAt (reline rest) := by
  have hother (hcomment : ∀ body, x ≠ comment body) : x.StopsAt (reline rest) :=
    hstop.of_looksBlanked (looksBlanked_reline rest) hcomment
  have hquote {body : List Char} (hbody : '"' ∉ body) : '"' ∉ reline body := fun hmem ↦
    hbody ((relineBefore_sublist [] body).subset (relineBefore_nil body ▸ hmem))
  cases x with
  | blank c =>
    rw [reline?] at h
    split at h
    · cases h
    · cases h
      exact ⟨hx, trivial⟩
  | comment body =>
    cases h
    refine ⟨fun hmem ↦ hx ((relineBefore_sublist rest body).subset hmem), fun d hd ↦ ?_⟩
    exact (head?_reline rest d hd).elim (hstop d) id
  | string body =>
    cases h
    exact ⟨hquote hx, trivial⟩
  | openString body =>
    cases h
    exact ⟨hquote hx, hother fun _ ↦ Piece.noConfusion⟩
  | number text =>
    cases h
    exact ⟨hx, hother fun _ ↦ Piece.noConfusion⟩
  | word text =>
    cases h
    exact ⟨hx, hother fun _ ↦ Piece.noConfusion⟩
  | operator o =>
    cases h
    exact ⟨hx, hother fun _ ↦ Piece.noConfusion⟩
  | stray c =>
    cases h
    exact ⟨hx, trivial⟩

/-- What becomes of the pieces makes up the relined text. -/
theorem flatMap_chars_relineAll (h : Chained xs) :
    (relineAll xs).flatMap chars = reline (xs.flatMap chars) := by
  induction xs with
  | nil => rfl
  | cons x xs ih =>
    rw [relineAll, List.flatMap_append, chars_reline? h.1 h.2.1, ih h.2.2, List.flatMap_cons,
      reline_append]

/-- What becomes of a chain is a chain. -/
theorem Chained.relineAll (h : Chained xs) : Chained (relineAll xs) := by
  induction xs with
  | nil => trivial
  | cons x xs ih =>
    obtain ⟨hx, hstop, hrest⟩ := h
    rw [Piece.relineAll]
    rcases hy : x.reline? (xs.flatMap chars) with - | y
    · exact ih hrest
    · obtain ⟨hsound, hstops⟩ := isSound_of_reline? hx hstop hy
      exact ⟨hsound, (flatMap_chars_relineAll hrest).symm ▸ hstops, ih hrest⟩

end Piece

/-- The source with a line feed alone wherever it has a carriage return and a line feed. -/
def relined (source : String) : String := String.ofList (reline source.toList)

/-- A relined source is cut into what becomes of the pieces of the source. -/
theorem cut_relined (source : String) :
    Piece.cut (relined source).toList = Piece.relineAll (Piece.cut source.toList) := by
  have hchained := Piece.chained_cut source.toList
  have hchars := Piece.flatMap_chars_relineAll hchained
  rw [Piece.flatMap_chars_cut] at hchars
  rw [relined, String.toList_ofList, ← hchars]
  exact Piece.cut_flatMap_iff.2 hchained.relineAll

/-! ### Tokens and reports -/

/-- A literal with a line feed alone wherever it has a carriage return and a line feed. -/
def Literal.relined : Literal → Literal
  | string s => string (LoxLexer.relined s)
  | number x => number x

/-- The token `u` is what becomes of the token `t` of the source in the relined source. -/
structure Token.Relines (source : String) (t u : Token) : Prop where
  kind : u.kind = t.kind
  lexeme : u.lexeme = relined t.lexeme
  literal : u.literal = t.literal.map Literal.relined
  start : t.start.Relines source u.start

/-- What is told of the pieces `us` of the source is told of the pieces `vs` of the relined
source. -/
structure PlacedPiece.Relines (source : String) (us vs : List PlacedPiece) : Prop where
  tokens : List.Forall₂ (Token.Relines source) (us.filterMap token?) (vs.filterMap token?)
  reports : vs.filterMap report? = us.filterMap report?

/-- What is told of pieces behind others is told behind them, before and after. -/
theorem PlacedPiece.Relines.append {source : String} {us vs us' vs' : List PlacedPiece}
    (h : Relines source us vs) (h' : Relines source us' vs') :
    Relines source (us ++ us') (vs ++ vs') where
  tokens := by
    rw [List.filterMap_append, List.filterMap_append]
    exact List.rel_append h.tokens h'.tokens
  reports := by rw [List.filterMap_append, List.filterMap_append, h.reports, h'.reports]

theorem PlacedPiece.Relines.of_token? {source : String} {a b : PlacedPiece} {t u : Token}
    (ha : a.token? = some t) (hb : b.token? = some u) (h : t.Relines source u) :
    Relines source [a] [b] where
  tokens := by
    rw [List.filterMap_cons_some ha, List.filterMap_cons_some hb]
    exact .cons h .nil
  reports := by
    rw [List.filterMap_cons_none (report?_eq_none_of_token? ha),
      List.filterMap_cons_none (report?_eq_none_of_token? hb)]

theorem relined_ofList (s : List Char) : relined (String.ofList s) = String.ofList (reline s) := by
  rw [relined, String.toList_ofList]

theorem relined_ofList_of_not_isBlank (h : ∀ c ∈ s, ¬ isBlank c) :
    relined (String.ofList s) = String.ofList s := by
  rw [relined_ofList, reline_of_not_isBlank h]

namespace Piece

variable {source : String} {before : List Char} {x y : Piece} {xs : List Piece}

/-- **One piece** behind the text `before` and in front of the text `rest`. -/
theorem relines_reline? (hsource : source.toList = before ++ (x.chars ++ rest)) (hx : x.IsSound)
    (hstop : x.StopsAt rest) :
    PlacedPiece.Relines source [⟨x, .after .start before⟩]
      (place (.after .start (relineBefore (x.chars ++ rest) before)) (x.reline? rest).toList) := by
  have hstart (hhead : x.chars.head? ≠ some '\n') :=
    Position.relines_of_head? hsource (by rwa [List.head?_append_of_ne_nil _ hx.chars_ne_nil])
  have hlexeme {y : Piece} (hy : x.reline? [] = some y) :
      String.ofList y.chars = relined (String.ofList x.chars) := by
    have hchars := chars_reline? hx (stopsAt_nil x)
    rw [hy, Option.toList_some, List.flatMap_singleton, relineBefore_nil] at hchars
    rw [hchars, relined_ofList]
  -- reports are made where a piece ends, and up to there no line feed is lost
  have hline {y : Piece} (hy : x.reline? rest = some y) :
      ((Position.start.after (relineBefore (x.chars ++ rest) before)).after y.chars).line =
        ((Position.start.after before).after x.chars).line := by
    have hchars := chars_reline? hx hstop
    rw [hy, Option.toList_some, List.flatMap_singleton] at hchars
    rw [hchars, ← Position.after_append, ← relineBefore_append, ← Position.after_append,
      line_start_after, line_start_after, count_relineBefore]
  have hhead {text : List Char} (h : ∀ c ∈ text, ¬ isBlank c) : text.head? ≠ some '\n' :=
    fun hhead ↦ h _ (List.mem_of_mem_head? hhead) (by decide)
  cases x with
  | blank c =>
    rw [reline?]
    split <;> exact ⟨.nil, rfl⟩
  | comment body => exact ⟨.nil, rfl⟩
  | openString body =>
    exact ⟨.nil, congrArg (fun line ↦ [Report.mk line .unterminated]) (hline rfl)⟩
  | stray c => exact ⟨.nil, congrArg (fun line ↦ [Report.mk line (.unexpected c)]) (hline rfl)⟩
  | string body =>
    have hliteral : some (Literal.string (String.ofList (reline body))) =
        (some (Literal.string (String.ofList body))).map Literal.relined :=
      congrArg (fun text ↦ some (Literal.string text)) (relined_ofList body).symm
    exact .of_token? rfl rfl ⟨rfl, hlexeme rfl, hliteral, hstart (by simp [chars])⟩
  | number text =>
    obtain ⟨v, hv⟩ := PlacedPiece.token?_number hx
    exact .of_token? (hv _) (hv _)
      ⟨rfl, hlexeme rfl, rfl, hstart (hhead (Grammar.Number.not_isBlank hx))⟩
  | word text =>
    exact .of_token? rfl rfl
      ⟨rfl, hlexeme rfl, rfl, hstart (hhead (Grammar.Word.not_isBlank hx))⟩
  | operator o => exact .of_token? rfl rfl ⟨rfl, hlexeme rfl, rfl, hstart (hhead o.not_isBlank)⟩

/-- **All pieces** behind some text, by induction on the pieces. -/
theorem Chained.relines (h : Chained xs) (hsource : source.toList = before ++ xs.flatMap chars) :
    PlacedPiece.Relines source (place (.after .start before) xs)
      (place (.after .start (relineBefore (xs.flatMap chars) before)) (Piece.relineAll xs)) := by
  induction xs generalizing before with
  | nil => exact ⟨.nil, rfl⟩
  | cons x xs ih =>
    obtain ⟨hx, hstop, hrest⟩ := h
    have hfirst := relines_reline? hsource hx hstop
    have hbehind : source.toList = before ++ x.chars ++ xs.flatMap chars := by
      rw [hsource, List.append_assoc]
      rfl
    have hmore := ih hrest hbehind
    rw [relineBefore_append, Position.after_append, Position.after_append,
      ← chars_reline? hx hstop] at hmore
    rw [Piece.relineAll, place_append]
    exact hfirst.append hmore

end Piece

/-- The end of the source is the end of the relined source. -/
theorem Token.relines_endOfFile (source : String) :
    (endOfFile (Position.start.after source.toList)).Relines source
      (endOfFile (Position.start.after (relined source).toList)) := by
  have hstart : (Position.start.after source.toList).Relines source
      (Position.start.after (relineBefore [] source.toList)) :=
    Position.relines_of_head? (List.append_nil _).symm (by simp)
  rw [relineBefore_nil] at hstart
  rw [relined, String.toList_ofList]
  exact ⟨rfl, rfl, rfl, hstart⟩

/-- Only strings hold line endings. -/
theorem relined_lexeme {source : String} {t : Token} (ht : t ∈ (lex source).tokens)
    (hkind : t.kind ≠ .string) : relined t.lexeme = t.lexeme := by
  rcases mem_tokens_lex ht with ⟨x, hx, hxt⟩ | rfl
  · obtain ⟨hhas, hlexeme, -⟩ := PlacedPiece.eq_of_token? hxt
    have hsound := Piece.isSound_of_mem_cut (piece_mem_cut hx)
    rw [hlexeme, PlacedPiece.lexeme]
    refine relined_ofList_of_not_isBlank ?_
    generalize x.piece = y, t.kind = kind at hhas hsound hkind
    cases hhas with
    | string body => exact absurd rfl hkind
    | number text => exact Grammar.Number.not_isBlank hsound
    | keyword k => exact Grammar.Word.not_isBlank hsound
    | identifier h => exact Grammar.Word.not_isBlank hsound
    | operator o => exact o.not_isBlank
  · rfl

/-- **Line endings make no difference.** With a line feed alone wherever there is a carriage return
and a line feed, a source has the same tokens in the same order, on the same lines and in the same
columns. Their lexemes and string literals are relined as well, which changes strings only, and
their offsets are less by the carriage returns that are gone before them. The reports are the
same. -/
theorem lex_relined (source : String) :
    List.Forall₂ (Token.Relines source) (lex source).tokens (lex (relined source)).tokens ∧
      (∀ t ∈ (lex source).tokens, t.kind ≠ .string → relined t.lexeme = t.lexeme) ∧
      (lex (relined source)).reports = (lex source).reports := by
  have hsource : source.toList = [] ++ (Piece.cut source.toList).flatMap Piece.chars :=
    (Piece.flatMap_chars_cut source.toList).symm
  have hrelines := (Piece.chained_cut source.toList).relines hsource
  refine ⟨?_, fun t ↦ relined_lexeme, ?_⟩
  · rw [tokens_lex, tokens_lex, placedPieces, placedPieces, cut_relined]
    exact List.rel_append hrelines.tokens (.cons (Token.relines_endOfFile source) .nil)
  · rw [reports_lex, reports_lex, placedPieces, placedPieces, cut_relined]
    exact hrelines.reports

end LoxLexer
