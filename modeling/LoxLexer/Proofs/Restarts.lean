import LoxLexer.Proofs.Frontiers
import LoxLexer.Proofs.Shifts

/-!
# Starting again at a token

The lexer carries nothing along from token to token but its position. So the text from a token on,
taken as a source of its own, gives the tokens from that one on and the reports that are made once
it is pulled, all moved to where the text begins (`lex_from_token`).

A token is the first piece behind some cut of the source, or the end of the source
(`exists_cutAt`). Cutting is done piece by piece, so what is behind a cut is cut alike on its
own (`Piece.cut_flatMap_of_append`), and moving does the rest. That the reports are those of a
cursor that has just pulled the token is a matter of frontiers (`reports_after_nth`).
-/

namespace LoxLexer

variable {source : String} {k : Nat} {t : Token}

/-- What a list yields with number `k` comes from one of its elements, behind `k` yields. -/
theorem exists_of_getElem?_filterMap {α β : Type} {f : α → Option β} {l : List α} {b : β}
    (h : (l.filterMap f)[k]? = some b) :
    ∃ before a after, l = before ++ a :: after ∧ f a = some b ∧
      (before.filterMap f).length = k := by
  induction l generalizing k with
  | nil => simp at h
  | cons a l ih =>
    rcases ha : f a with - | b'
    · rw [List.filterMap_cons_none ha] at h
      obtain ⟨before, a', after, rfl, ha', hk⟩ := ih h
      exact ⟨a :: before, a', after, rfl, ha', by rw [List.filterMap_cons_none ha, hk]⟩
    · rw [List.filterMap_cons_some ha] at h
      cases k with
      | zero => exact ⟨[], a, l, rfl, ha.trans h, rfl⟩
      | succ k =>
        obtain ⟨before, a', after, rfl, ha', hk⟩ := ih h
        exact ⟨a :: before, a', after, rfl, ha', by
          rw [List.filterMap_cons_some ha, List.length_cons, hk]⟩

/-- A cut of a source right in front of its token `t` with number `k`: the text before it, which is
cut into the pieces `xs`, and the text from it on. -/
structure CutAt (source : String) (k : Nat) (t : Token) (before : List Char) (suffix : String)
    (xs : List Piece) : Prop where
  text : source.toList = before ++ suffix.toList
  cut : Piece.cut source.toList = xs ++ Piece.cut suffix.toList
  start : t.start = Position.start.after before
  count : ((Piece.place .start xs).filterMap PlacedPiece.token?).length = k
  /-- Of the pieces from the token on, those behind it make all the reports. -/
  frontier : ∃ done ahead, Frontier source done ahead (k + 1) ∧
    ahead.filterMap PlacedPiece.report? =
      (Piece.place t.start (Piece.cut suffix.toList)).filterMap PlacedPiece.report?

/-- The end of a source has all its text before it. -/
theorem cutAt_endOfFile (ht : (lex source).tokens[k]? = some t)
    (hk : k = ((placedPieces source.toList).filterMap PlacedPiece.token?).length)
    (hend : t.start = Position.start.after source.toList) :
    CutAt source k t source.toList "" (Piece.cut source.toList) where
  text := (List.append_nil _).symm
  cut := by rw [String.toList_empty, Piece.cut_nil, List.append_nil]
  start := hend
  count := hk.symm
  frontier := by
    rw [String.toList_empty, Piece.cut_nil]
    exact ⟨_, [], frontier_end ht hend, rfl⟩

/-- A token that is a piece has the text of the pieces in front of it before it. -/
theorem cutAt_piece {done ahead : List PlacedPiece} {x : PlacedPiece}
    (ht : (lex source).tokens[k]? = some t)
    (hpieces : placedPieces source.toList = done ++ x :: ahead) (hx : x.token? = some t)
    (hk : (done.filterMap PlacedPiece.token?).length = k) :
    ∃ before suffix xs, CutAt source k t before suffix xs := by
  have hfrontier := frontier_succ hpieces hx ht
  obtain ⟨xs, ys, hcut, rfl, hplace⟩ := Piece.place_eq_append hpieces
  have hsuffix : (String.ofList (ys.flatMap Piece.chars)).toList = ys.flatMap Piece.chars :=
    String.toList_ofList
  have hys := Piece.cut_flatMap_of_append hcut
  have hstart : t.start = Position.start.after (xs.flatMap Piece.chars) := by
    obtain ⟨y, ys, rfl⟩ := List.exists_cons_of_ne_nil (l := ys) (by rintro rfl; simp at hplace)
    rw [Piece.place_cons] at hplace
    rw [(PlacedPiece.eq_of_token? hx).2.2, (List.cons.inj hplace).1]
  refine ⟨xs.flatMap Piece.chars, .ofList (ys.flatMap Piece.chars), xs, ?_, ?_, hstart, hk, ?_⟩
  · rw [hsuffix, ← List.flatMap_append, ← hcut, Piece.flatMap_chars_cut]
  · rw [hsuffix, hys, hcut]
  · refine ⟨_, _, hfrontier, ?_⟩
    rw [hsuffix, hys, hstart, ← hplace,
      List.filterMap_cons_none (PlacedPiece.report?_eq_none_of_token? hx)]

/-- **Every token has a cut in front of it.** -/
theorem exists_cutAt (ht : (lex source).tokens[k]? = some t) :
    ∃ before suffix xs, CutAt source k t before suffix xs := by
  have hk := ht
  rw [tokens_lex] at hk
  rcases Nat.lt_or_ge k ((placedPieces source.toList).filterMap PlacedPiece.token?).length with
    hlt | hge
  · rw [List.getElem?_append_left hlt] at hk
    obtain ⟨done, x, ahead, hpieces, hx, hcount⟩ := exists_of_getElem?_filterMap hk
    exact cutAt_piece ht hpieces hx hcount
  · rw [List.getElem?_append_right hge, List.getElem?_singleton] at hk
    split at hk
    · next hzero =>
      cases hk
      exact ⟨_, _, _, cutAt_endOfFile ht (by omega) rfl⟩
    · contradiction

/-! ### What is left once a token is pulled -/

/-- A cursor that has pulled token number `k` goes on to make the reports behind it. -/
theorem reports_after_nth (ht : (lex source).tokens[k]? = some t) :
    ((Cursor.ofSource source).nth k).value = some t ∧
      ((Cursor.ofSource source).nth k).cursor.drain.reports =
        reportsBetween source (k + 1) (lex source).tokens.length := by
  obtain ⟨hk, -⟩ := List.getElem?_eq_some_iff.1 ht
  obtain ⟨hvalue, mid, -, hcursor⟩ := nth_reaches k (standsAt_ofSource source)
  rw [List.drop_zero, Nat.zero_add, Nat.min_eq_left hk] at hcursor
  obtain ⟨-, mid', hreports, hend⟩ := drain_reaches hcursor
  have hlength :
      k + 1 + ((lex source).tokens.drop (k + 1)).length = (lex source).tokens.length := by
    rw [List.length_drop]
    omega
  rw [hlength] at hend
  exact ⟨hvalue.trans ht, hreports.trans (reportsBetween_of_standsAt hcursor hend).symm⟩

theorem reportsBetween_of_frontier {done ahead : List PlacedPiece} {p : Nat}
    (h : Frontier source done ahead p) :
    reportsBetween source p (lex source).tokens.length = ahead.filterMap PlacedPiece.report? := by
  have hend := frontier_length source
  rw [h.pieces] at hend
  rw [← List.append_nil ahead] at h
  exact reportsBetween_eq h hend

/-! ### The suffix as a source -/

/-- **A source can be started again at every token.** The text from a token on, whose bytes are
those from its offset on, gives the tokens of the source from that token on, and the reports that a
cursor makes once it has pulled the token, all as they are seen from where the token starts. Moved
there they are again what they were. -/
theorem lex_from_token (ht : (lex source).tokens[k]? = some t) :
    ∃ suffix, Utf8.decode? ((Utf8.encode source).drop t.start.offset) = some suffix ∧
      (lex suffix).tokens = ((lex source).tokens.drop k).map (·.seenFrom t.start) ∧
      (lex suffix).tokens.map (·.movedTo t.start) = (lex source).tokens.drop k ∧
      ((Cursor.ofSource source).nth k).value = some t ∧
      (lex suffix).reports =
        ((Cursor.ofSource source).nth k).cursor.drain.reports.map (·.seenFrom t.start) ∧
      (lex suffix).reports.map (·.movedTo t.start) =
        ((Cursor.ofSource source).nth k).cursor.drain.reports := by
  obtain ⟨before, suffix, xs, h⟩ := exists_cutAt ht
  have hcounted : t.start.IsCounted := h.start ▸ Position.isCounted_start.after before
  have htokens : (lex suffix).tokens.map (·.movedTo t.start) = (lex source).tokens.drop k := by
    rw [tokens_lex_of_cut h.text h.cut, ← h.start, ← h.count, List.drop_left]
  obtain ⟨hvalue, hafter⟩ := reports_after_nth ht
  have hreports : (lex suffix).reports.map (·.movedTo t.start) =
      ((Cursor.ofSource source).nth k).cursor.drain.reports := by
    obtain ⟨done, ahead, hfrontier, hahead⟩ := h.frontier
    rw [hafter, reportsBetween_of_frontier hfrontier, hahead, reports_place_cut hcounted]
  refine ⟨suffix, ?_, ?_, htokens, hvalue, ?_, hreports⟩
  · have hsource : source = String.ofList (before ++ suffix.toList) := by
      rw [← h.text, String.ofList_toList]
    rw [hsource, h.start, offset_start_after, drop_encode_append, String.ofList_toList,
      Utf8.decode?_encode]
  · rw [← htokens, List.map_map]
    exact (List.map_id'' (Token.seenFrom_movedTo hcounted) _).symm
  · rw [← hreports, List.map_map]
    exact (List.map_id'' Report.seenFrom_movedTo _).symm

/-- A start at a string in the middle of a line that goes on to the next line, with a stray
character on either side of it. -/
theorem lex_from_string_over_two_lines :
    (lex "é \"b\nc\" @ d").tokens[0]? =
        some ⟨.string, "\"b\nc\"", some (.string "b\nc"), ⟨1, 3, 3⟩⟩ ∧
      ∃ suffix, Utf8.decode? ((Utf8.encode "é \"b\nc\" @ d").drop 3) = some suffix ∧
        (lex suffix).tokens =
          ((lex "é \"b\nc\" @ d").tokens.drop 0).map (·.seenFrom ⟨1, 3, 3⟩) ∧
        (lex suffix).tokens.map (·.movedTo ⟨1, 3, 3⟩) = (lex "é \"b\nc\" @ d").tokens.drop 0 ∧
        ((Cursor.ofSource "é \"b\nc\" @ d").nth 0).value =
          some ⟨.string, "\"b\nc\"", some (.string "b\nc"), ⟨1, 3, 3⟩⟩ ∧
        (lex suffix).reports =
          ((Cursor.ofSource "é \"b\nc\" @ d").nth 0).cursor.drain.reports.map
            (·.seenFrom ⟨1, 3, 3⟩) ∧
        (lex suffix).reports.map (·.movedTo ⟨1, 3, 3⟩) =
          ((Cursor.ofSource "é \"b\nc\" @ d").nth 0).cursor.drain.reports := by
  have ht : (lex "é \"b\nc\" @ d").tokens[0]? =
      some ⟨.string, "\"b\nc\"", some (.string "b\nc"), ⟨1, 3, 3⟩⟩ := by decide +kernel
  exact ⟨ht, lex_from_token ht⟩

end LoxLexer
