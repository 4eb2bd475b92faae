import LoxLexer.Proofs.Pieces
import Mathlib.Data.List.Basic

/-!
# Bounded lookahead

What is appended to a source can only change the pieces at its end. A piece is settled
(`Piece.IsSettled`) if its reader has seen where it ends: most kinds once anything follows, a number
without a fraction once something other than a single point follows, and blanks, closed strings and
stray characters at once. A settled piece stops at what follows it however that goes on
(`Piece.StopsAt.append`), so it is read alike in every longer text (`Piece.read_append`), and a text
divides into settled pieces, the same in every longer text, and a rest that begins with an unsettled
one (`Piece.exists_settled`). There is not much of this rest: the last piece, or a number and a
point (`Piece.cut_of_not_isSettled`).

The tokens and reports of the settled pieces are therefore those of every longer source, at the same
places, and the others are few and known (`exists_stable`, `lex_append_stable`).
-/

namespace LoxLexer

namespace Piece

/-- The reader has seen where the piece ends, from what follows it. -/
def IsSettled : Piece → List Char → Prop
  | blank _, _ | string _, _ | stray _, _ => True
  | openString _, _ => False
  | number text, after => after ≠ [] ∧ ('.' ∈ text ∨ after ≠ ['.'])
  | comment _, after | word _, after | operator _, after => after ≠ []

/-! ### Settled pieces in a longer text -/

/-- A settled piece stops at what follows it in a longer text, too. -/
theorem StopsAt.append {x : Piece} {after : List Char} (h : x.StopsAt after)
    (hsettled : x.IsSettled after) (more : List Char) : x.StopsAt (after ++ more) := by
  have hhead (hne : after ≠ []) : (after ++ more).head? = after.head? :=
    List.head?_append_of_ne_nil _ hne
  cases x with
  | number text =>
    obtain ⟨hne, hpoint⟩ := hsettled
    refine ⟨hhead hne ▸ h.1, fun hnone tail htail ↦ ?_⟩
    obtain ⟨c, rest, rfl⟩ := List.exists_cons_of_ne_nil hne
    obtain ⟨rfl, rfl⟩ : c = '.' ∧ rest ++ more = tail := List.cons.inj htail
    -- the point is not all there was, so the character behind it was seen
    have hrest : rest ≠ [] := by
      rintro rfl
      exact hpoint.elim hnone fun hne ↦ hne rfl
    rw [List.head?_append_of_ne_nil _ hrest]
    exact h.2 hnone rest rfl
  | comment _ | word _ | operator _ =>
    rw [StopsAt, hhead hsettled]
    exact h
  | openString _ => exact absurd hsettled id
  | _ => trivial

/-- **A settled piece is read alike in every longer text.** -/
theorem read_append {c : Char} {rest : List Char} (x : List Char)
    (h : (read c rest).1.IsSettled (read c rest).2) :
    read c (rest ++ x) = ((read c rest).1, (read c rest).2 ++ x) := by
  obtain ⟨hsound, hstop⟩ := read_sound c rest
  refine read_of_isSound hsound (hstop.append h x) ?_
  rw [← List.append_assoc, chars_read_append, List.cons_append]

/-- A number in front of a point at the end is not settled, and rightly so. -/
example : read '1' ['.'] = (number ['1'], ['.']) ∧
    read '1' (['.'] ++ ['5']) = (number ['1', '.', '5'], []) := by
  decide

/-! ### The unsettled rest -/

/-- **Settled pieces** up to an unsettled one are cut off alike in every longer text. -/
theorem exists_settled (s : List Char) :
    ∃ ys rest, s = ys.flatMap chars ++ rest ∧ cut s = ys ++ cut rest ∧
      (∀ x, cut (s ++ x) = ys ++ cut (rest ++ x)) ∧
      ∀ c more, rest = c :: more → ¬ (read c more).1.IsSettled (read c more).2 := by
  fun_induction cut s with
  | case1 => exact ⟨[], [], rfl, by simp, fun _ ↦ rfl, by simp⟩
  | case2 c rest ih =>
    by_cases h : (read c rest).1.IsSettled (read c rest).2
    · obtain ⟨ys, rest', hchars, hcut, happend, hrest'⟩ := ih
      refine ⟨(read c rest).1 :: ys, rest', ?_, ?_, fun x ↦ ?_, hrest'⟩
      · rw [List.flatMap_cons, List.append_assoc, ← hchars, chars_read_append]
      · rw [hcut]
        rfl
      · rw [List.cons_append, cut_cons, read_append x h, happend]
        rfl
    · refine ⟨[], c :: rest, rfl, cut_cons c rest ▸ rfl, fun _ ↦ rfl, ?_⟩
      intro d more heq
      obtain ⟨rfl, rfl⟩ := List.cons.inj heq
      exact h

theorem after_openString {c : Char} {rest body : List Char}
    (h : (read c rest).1 = openString body) : (read c rest).2 = [] := by
  have hstop := (read_sound c rest).2
  rwa [h] at hstop

/-- What is read but not settled ends the text, or is a number without a fraction in front of a
point that ends the text. -/
theorem after_of_not_isSettled {c : Char} {rest : List Char}
    (h : ¬ (read c rest).1.IsSettled (read c rest).2) :
    (read c rest).2 = [] ∨
      ∃ text, (read c rest).1 = number text ∧ '.' ∉ text ∧ (read c rest).2 = ['.'] := by
  have hopen (body : List Char) : (read c rest).1 = openString body → (read c rest).2 = [] :=
    after_openString
  generalize (read c rest).1 = y at h hopen ⊢
  generalize (read c rest).2 = after at h hopen ⊢
  cases y with
  | blank _ => exact absurd trivial h
  | string _ => exact absurd trivial h
  | stray _ => exact absurd trivial h
  | openString body => exact .inl (hopen body rfl)
  | comment _ => exact .inl (of_not_not h)
  | word _ => exact .inl (of_not_not h)
  | operator _ => exact .inl (of_not_not h)
  | number text =>
    by_cases hnil : after = []
    · exact .inl hnil
    · have hpoint : '.' ∉ text ∧ after = ['.'] := by simpa [IsSettled, hnil, not_or] using h
      exact .inr ⟨text, rfl, hpoint⟩

/-- **The unsettled rest** is one piece, or a number without a fraction and a point. -/
theorem cut_of_not_isSettled {c : Char} {rest : List Char}
    (h : ¬ (read c rest).1.IsSettled (read c rest).2) :
    (∃ y, cut (c :: rest) = [y] ∧ ¬ y.IsSettled []) ∨
      ∃ text, cut (c :: rest) = [number text, operator .dot] ∧ '.' ∉ text := by
  rw [cut_cons]
  rcases after_of_not_isSettled h with hnil | ⟨text, hpiece, hpoint, hafter⟩
  · rw [hnil] at h ⊢
    exact .inl ⟨_, by rw [cut_nil], h⟩
  · have hdot : cut ['.'] = [operator .dot] := by
      have hread : read '.' [] = (operator .dot, []) := by decide
      rw [cut_cons, hread, cut_nil]
    exact .inr ⟨text, by rw [hpiece, hafter, hdot], hpoint⟩

end Piece

/-! ### Tokens in a longer source -/

/-- What follows the source could change the token: nothing follows the token in the source, and it
is not a string, or only a point follows it, and it is a number without a fraction. -/
def Token.IsOpenIn (t : Token) (source : String) : Prop :=
  (t.stopOffset = source.utf8ByteSize ∧ t.kind ≠ .string) ∨
    (t.kind = .number ∧ '.' ∉ t.lexeme.toList ∧
      (Utf8.encode source).drop t.stopOffset = Utf8.encode ".")

theorem isOpenIn_of_stop {source : String} {x : PlacedPiece} {t : Token}
    (hstop : x.stop = Position.start.after source.toList) (hx : ¬ x.piece.IsSettled [])
    (ht : x.token? = some t) : t.IsOpenIn source := by
  refine .inl ⟨?_, fun hkind ↦ hx ?_⟩
  · rw [PlacedPiece.stopOffset_of_token? ht, hstop, offset_start_after_toList]
  · have hpiece := (PlacedPiece.eq_of_token? ht).1
    rw [hkind] at hpiece
    generalize x.piece = y at hpiece
    cases hpiece
    exact trivial

/-- Pieces that a longer source need not have: they amount to open tokens, and to no report but one
about an open string. -/
structure IsUnstable (source : String) (xs : List PlacedPiece) : Prop where
  tokens : ∀ t ∈ xs.filterMap PlacedPiece.token?, t.IsOpenIn source
  reports : xs.filterMap PlacedPiece.report? = [] ∨
    ∃ line, xs.filterMap PlacedPiece.report? = [⟨line, .unterminated⟩]

/-- An unsettled piece makes no report, or one about an open string. -/
theorem report?_of_not_isSettled {x : PlacedPiece} (hx : ¬ x.piece.IsSettled [])
    (hnumber : ∀ text, x.piece = .number text → Grammar.Number text) :
    x.report? = none ∨ ∃ line, x.report? = some ⟨line, .unterminated⟩ := by
  obtain ⟨piece, p⟩ := x
  cases piece with
  | blank _ => exact absurd trivial hx
  | string _ => exact absurd trivial hx
  | stray _ => exact absurd trivial hx
  | openString _ => exact .inr ⟨_, rfl⟩
  | number text => exact .inl (PlacedPiece.report?_number (hnumber text rfl) p)
  | comment _ => exact .inl rfl
  | word _ => exact .inl rfl
  | operator _ => exact .inl rfl

/-- An unsettled piece at the end of a source is unstable. -/
theorem isUnstable_single {source : String} {before : List Char} {y : Piece}
    (hsource : source.toList = before ++ y.chars) (hy : ¬ y.IsSettled [])
    (hnumber : ∀ text, y = .number text → Grammar.Number text) :
    IsUnstable source (Piece.place (Position.start.after before) [y]) := by
  have hstop : (PlacedPiece.mk y (Position.start.after before)).stop =
      Position.start.after source.toList := by
    show (Position.start.after before).after y.chars = _
    rw [hsource, Position.after_append]
  rw [Piece.place_cons, Piece.place_nil]
  constructor
  · intro t ht
    obtain ⟨x, hx, hxt⟩ := List.mem_filterMap.1 ht
    rw [List.mem_singleton.1 hx] at hxt
    exact isOpenIn_of_stop hstop hy hxt
  · rcases report?_of_not_isSettled (x := ⟨y, Position.start.after before⟩) hy hnumber with
      hnone | ⟨line, hline⟩
    · exact .inl (List.filterMap_cons_none hnone)
    · exact .inr ⟨line, List.filterMap_cons_some hline⟩

/-- A number without a fraction and a point at the end of a source are unstable: with a digit
behind the point they are one number. -/
theorem isUnstable_number_point {source : String} {before text : List Char}
    (hsource : source.toList = before ++ (text ++ ['.'])) (hnumber : Grammar.Number text)
    (hpoint : '.' ∉ text) :
    IsUnstable source
      (Piece.place (Position.start.after before) [.number text, .operator .dot]) := by
  have hstop : (PlacedPiece.mk (.operator .dot)
      ((Position.start.after before).after text)).stop = Position.start.after source.toList := by
    show ((Position.start.after before).after text).after ['.'] = _
    rw [hsource, Position.after_append, Position.after_append]
  obtain ⟨v, hv⟩ := PlacedPiece.token?_number hnumber
  rw [Piece.place_cons, Piece.place_cons, Piece.place_nil]
  constructor
  · intro t ht
    rw [List.filterMap_cons_some (hv _)] at ht
    rcases List.mem_cons.1 ht with rfl | ht
    · -- the number is not the last thing in the source, but only the point follows it
      refine .inr ⟨rfl, by rwa [String.toList_ofList], ?_⟩
      rw [PlacedPiece.stopOffset_of_token? (hv _), PlacedPiece.offset_stop]
      show (Utf8.encode source).drop
        ((Position.start.after before).offset + byteLength text) = Utf8.encode "."
      rw [offset_start_after, ← byteLength_append, ← String.ofList_toList (s := source), hsource,
        ← List.append_assoc, drop_encode_append]
    · obtain ⟨x, hx, hxt⟩ := List.mem_filterMap.1 ht
      rw [List.mem_singleton.1 hx] at hxt
      exact isOpenIn_of_stop hstop (fun h ↦ h rfl) hxt
  · rw [List.filterMap_cons_none (PlacedPiece.report?_number hnumber _)]
    exact .inl rfl

/-- **The stable part of a source**: its settled pieces are there in every longer source, and behind
them are only unstable ones. -/
theorem exists_stable (source : String) :
    ∃ stable rest, placedPieces source.toList = stable ++ rest ∧
      (∀ more, stable <+: placedPieces (source.toList ++ more)) ∧ IsUnstable source rest := by
  obtain ⟨ys, rest, hchars, hcut, happend, hrest⟩ := Piece.exists_settled source.toList
  have hpieces : placedPieces source.toList = Piece.place .start ys ++
      Piece.place (Position.start.after (ys.flatMap Piece.chars)) (Piece.cut rest) := by
    rw [placedPieces, hcut, Piece.place_append]
  have hstable (more : List Char) :
      Piece.place .start ys <+: placedPieces (source.toList ++ more) := by
    rw [placedPieces, happend, Piece.place_append]
    exact List.prefix_append _ _
  refine ⟨_, _, hpieces, hstable, ?_⟩
  have hrestchars := Piece.flatMap_chars_cut rest
  have hnumber : ∀ text, .number text ∈ Piece.cut rest → Grammar.Number text :=
    fun _ ↦ Piece.number_of_mem_cut
  cases rest with
  | nil =>
    rw [Piece.cut_nil]
    exact ⟨by simp, .inl rfl⟩
  | cons c rest =>
    rcases Piece.cut_of_not_isSettled (hrest c rest rfl) with ⟨y, hy, hopen⟩ | ⟨text, htext, hpoint⟩
    · rw [hy] at hrestchars hnumber ⊢
      rw [← hrestchars, List.flatMap_singleton] at hchars
      exact isUnstable_single hchars hopen fun text htext ↦
        hnumber text (htext ▸ List.mem_singleton_self _)
    · rw [htext] at hrestchars hnumber ⊢
      rw [← hrestchars] at hchars
      exact isUnstable_number_point hchars (hnumber text List.mem_cons_self) hpoint

/-- The reports without the last one, if that is about an open string. -/
def dropOpenString (reports : List Report) : List Report :=
  if reports.getLast?.map Report.message = some "Unterminated string." then reports.dropLast
  else reports

theorem dropOpenString_prefix (reports : List Report) : dropOpenString reports <+: reports := by
  rw [dropOpenString]
  split
  · exact List.dropLast_prefix reports
  · exact List.prefix_rfl

theorem dropOpenString_concat (reports : List Report) (line : Nat) :
    dropOpenString (reports ++ [⟨line, .unterminated⟩]) = reports := by
  have hmessage : (some (⟨line, .unterminated⟩ : Report)).map Report.message =
      some "Unterminated string." := rfl
  rw [dropOpenString, List.getLast?_concat, List.dropLast_concat, if_pos hmessage]

/-- **Bounded lookahead.** Whatever is appended to a source, every token that is not open in it and
not its end is the same in the longer source, at the same place in the list. The reports are the
first ones of the longer source, save one about an open string. -/
theorem lex_append_stable (source more : String) :
    (∀ (k : Nat) (t : Token), (lex source).tokens[k]? = some t → t.kind ≠ .endOfFile →
      ¬ t.IsOpenIn source → (lex (source ++ more)).tokens[k]? = some t) ∧
    dropOpenString (lex source).reports <+: (lex (source ++ more)).reports := by
  obtain ⟨stable, rest, hpieces, hstable, hunstable⟩ := exists_stable source
  obtain ⟨rest', hpieces'⟩ := hstable more.toList
  rw [← String.toList_append] at hpieces'
  constructor
  · intro k t hk hkind hclosed
    rw [tokens_lex, hpieces, List.filterMap_append, List.append_assoc] at hk
    rw [tokens_lex, ← hpieces', List.filterMap_append, List.append_assoc]
    rcases Nat.lt_or_ge k (stable.filterMap PlacedPiece.token?).length with hlt | hge
    · rw [List.getElem?_append_left hlt] at hk ⊢
      exact hk
    · rw [List.getElem?_append_right hge] at hk
      rcases List.mem_append.1 (List.mem_of_getElem? hk) with hmem | hmem
      · exact absurd (hunstable.tokens t hmem) hclosed
      · rw [List.mem_singleton.1 hmem] at hkind
        exact absurd rfl hkind
  · rw [reports_lex, reports_lex, hpieces, ← hpieces', List.filterMap_append,
      List.filterMap_append]
    refine List.IsPrefix.trans ?_ (List.prefix_append _ _)
    rcases hunstable.reports with hnil | ⟨line, hline⟩
    · rw [hnil, List.append_nil]
      exact dropOpenString_prefix _
    · rw [hline]
      exact ⟨[], (List.append_nil _).trans (dropOpenString_concat _ line)⟩

end LoxLexer
