import LoxLexer.Proofs.MaximalMunch
import LoxLexer.Proofs.Restarts

/-!
# The lines of reports

A token is on the line where its piece begins, a report on the line where its piece ends. For a
stray character that is one and the same line; only an open string may run over lines, and it is the
last piece.

Every piece begins behind some text behind the one before it (`Piece.pairwise_place_after`), so
where one piece ends is on no later line than where the next begins (`line_stop_le_of_offset_lt`).
This orders the lines of reports among themselves (`pairwise_line_reports`). It also orders them
with those of tokens, once it is known which reports come before a token: those of the pieces that a
cursor has read when it yields the token, all of which begin before it (`nth_line_le`).
-/

namespace LoxLexer

variable {source : String} {i : Nat} {r : Report} {x y : PlacedPiece}

/-! ### Lines of pieces -/

theorem line_le_of_after {p q : Position} (h : ∃ text, q = p.after text) : p.line ≤ q.line := by
  obtain ⟨text, rfl⟩ := h
  rw [Position.line_after]
  exact Nat.le_add_right _ _

/-- A piece that begins before another ends on no later line than that one begins. -/
theorem line_stop_le_of_offset_lt {text : List Char} (hx : x ∈ placedPieces text)
    (hy : y ∈ placedPieces text) (h : x.start.offset < y.start.offset) :
    x.stop.line ≤ y.start.line := by
  obtain ⟨before, after, hpieces⟩ := List.append_of_mem hy
  have hsorted := pairwise_start_placedPieces text
  have hafter : (placedPieces text).Pairwise fun x y ↦ ∃ text, y.start = x.stop.after text :=
    Piece.pairwise_place_after .start _
  rw [hpieces, List.pairwise_append, List.pairwise_cons] at hsorted hafter
  rw [hpieces, List.mem_append, List.mem_cons] at hx
  rcases hx with hx | rfl | hx
  · exact line_le_of_after (hafter.2.2 x hx y List.mem_cons_self)
  · exact absurd h (Nat.lt_irrefl _)
  · exact absurd h (hsorted.2.1.1 x hx).not_gt

/-- A piece that begins before a token ends on no later line than the token is on. -/
theorem line_stop_le_of_token {t : Token} (hx : x ∈ placedPieces source.toList)
    (ht : t ∈ (lex source).tokens) (h : x.start.offset < t.start.offset) :
    x.stop.line ≤ t.start.line := by
  rcases mem_tokens_lex ht with ⟨y, hy, hyt⟩ | rfl
  · obtain ⟨-, -, hstart⟩ := PlacedPiece.eq_of_token? hyt
    rw [hstart] at h ⊢
    exact line_stop_le_of_offset_lt hx hy h
  · exact line_le_of_after (after_of_mem_placedPieces hx)

/-! ### Reports and their pieces -/

/-- The report with number `i` is about a piece behind `i` others with messages, on the line on
which that piece ends. -/
theorem exists_piece_of_report (h : (lex source).reports[i]? = some r) :
    ∃ before x after, Piece.cut source.toList = before ++ x :: after ∧
      x.HasProblem r.problem ∧ (before.filterMap Piece.message?).length = i ∧
      r.line = 1 + ((before ++ [x]).flatMap Piece.chars).count '\n' := by
  rw [reports_lex] at h
  obtain ⟨done, x, ahead, hpieces, hx, hi⟩ := exists_of_getElem?_filterMap h
  obtain ⟨before, rest, hcut, rfl, hrest⟩ := Piece.place_eq_append hpieces
  obtain ⟨y, after, rfl⟩ := List.exists_cons_of_ne_nil (l := rest) (by rintro rfl; simp at hrest)
  rw [Piece.place_cons] at hrest
  obtain ⟨rfl, -⟩ := List.cons.inj hrest
  obtain ⟨hproblem, hline⟩ := PlacedPiece.eq_of_report? hx
  refine ⟨before, y, after, hcut, hproblem, ?_, ?_⟩
  · have hnumber : ∀ text, .number text ∈ before → Grammar.Number text := fun text htext ↦
      Piece.number_of_mem_cut (hcut ▸ List.mem_append_left _ htext)
    rw [← Piece.messages_place .start hnumber, List.length_map, hi]
  · rw [hline, PlacedPiece.stop, ← Position.after_append, line_start_after, List.flatMap_append,
      List.flatMap_singleton]

/-- A stray character is no line feed, so its report is on the line it stands on. -/
theorem line_of_unexpected {line : Nat} {c : Char}
    (h : (lex source).reports[i]? = some ⟨line, .unexpected c⟩) :
    ∃ before after, Factored source.toList (before ++ .stray c :: after) ∧
      (before.filterMap Piece.message?).length = i ∧
      line = 1 + (before.flatMap Piece.chars).count '\n' := by
  obtain ⟨before, x, after, hcut, hproblem, hi, hline⟩ := exists_piece_of_report h
  cases hproblem
  have hsound : (Piece.stray c).IsSound :=
    Piece.isSound_of_mem_cut (hcut ▸ List.mem_append_right _ List.mem_cons_self)
  have hc : '\n' ∉ [c] := by
    intro hc
    obtain rfl := List.mem_singleton.1 hc
    exact hsound.1 rfl
  refine ⟨before, after, factored_iff.2 hcut.symm, hi, hline.trans ?_⟩
  rw [List.flatMap_append, List.flatMap_singleton, List.count_append, Piece.chars,
    List.count_eq_zero.2 hc, Nat.add_zero]

/-- An open string is the last piece, so its report is the last, on the last line. -/
theorem line_of_unterminated {line : Nat}
    (h : (lex source).reports[i]? = some ⟨line, .unterminated⟩) :
    i + 1 = (lex source).reports.length ∧ line = 1 + source.toList.count '\n' := by
  obtain ⟨before, x, after, hcut, hproblem, hi, hline⟩ := exists_piece_of_report h
  rcases hproblem with - | body
  have hchained : Piece.Chained (before ++ .openString body :: after) :=
    hcut ▸ Piece.chained_cut source.toList
  rw [hchained.of_append.eq_nil_of_openString] at hcut
  rw [← hcut, Piece.flatMap_chars_cut] at hline
  refine ⟨?_, hline⟩
  rw [← List.length_map Report.message, messages_lex, hcut, List.filterMap_append,
    List.length_append, hi]
  rfl

theorem line_of_endOfFile {t : Token} (ht : t ∈ (lex source).tokens) (hkind : t.kind = .endOfFile) :
    t.start.line = 1 + source.toList.count '\n' := by
  rcases mem_tokens_lex ht with ⟨x, -, hxt⟩ | rfl
  · exact absurd hkind (PlacedPiece.eq_of_token? hxt).1.ne_endOfFile
  · exact line_start_after _

/-- Reports are on the lines where their pieces end, and these never decrease. -/
theorem pairwise_line_reports (source : String) :
    (lex source).reports.Pairwise fun r s ↦ r.line ≤ s.line := by
  rw [reports_lex]
  refine List.pairwise_filterMap.2 ((Piece.pairwise_place_after .start _).imp ?_)
  intro x y hxy r hr s hs
  rw [(PlacedPiece.eq_of_report? hr).2, (PlacedPiece.eq_of_report? hs).2]
  exact (line_le_of_after hxy).trans (line_le_of_after ⟨y.piece.chars, rfl⟩)

/-- A report made until a token is pulled is about a piece before that token. -/
theorem nth_line_le {n : Nat} {t : Token} (ht : (lex source).tokens[n]? = some t) :
    ((Cursor.ofSource source).nth n).value = some t ∧
      ∀ r ∈ ((Cursor.ofSource source).nth n).reports, r.line ≤ t.start.line := by
  obtain ⟨hn, -⟩ := List.getElem?_eq_some_iff.1 ht
  obtain ⟨hvalue, mid, hreports, hcursor⟩ := nth_reaches n (standsAt_ofSource source)
  rw [List.drop_zero] at hvalue
  rw [List.drop_zero, Nat.zero_add, Nat.min_eq_left hn, List.nil_append] at hcursor
  refine ⟨hvalue.trans ht, fun r hr ↦ ?_⟩
  rw [hreports] at hr
  obtain ⟨x, hx, hxr⟩ := List.mem_filterMap.1 hr
  have hbefore := hcursor.frontier.before x hx (by rw [hxr]; rfl)
  rw [isBefore, getLast?_take_succ ht, Option.any_some, decide_eq_true_eq] at hbefore
  rw [(PlacedPiece.eq_of_report? hxr).2]
  exact line_stop_le_of_token (hcursor.frontier.pieces ▸ List.mem_append_left _ hx)
    (List.mem_of_getElem? ht) hbefore

/-- **Report lines.** The report about a stray character is on the line of that character, which
counts the line feeds before it. The report about a string that nothing closes is the only one of
its kind and the last report of all, on the line of the end of the source, which counts all line
feeds. The lines of reports never decrease, and no token is on an earlier line than a report that
was made until it was pulled. -/
theorem report_lines (source : String) :
    (∀ i line c, (lex source).reports[i]? = some ⟨line, .unexpected c⟩ →
      ∃ before after, Factored source.toList (before ++ .stray c :: after) ∧
        (before.filterMap Piece.message?).length = i ∧
        line = 1 + (before.flatMap Piece.chars).count '\n') ∧
    (∀ i line, (lex source).reports[i]? = some ⟨line, .unterminated⟩ →
      i + 1 = (lex source).reports.length ∧ line = 1 + source.toList.count '\n') ∧
    (∀ t ∈ (lex source).tokens, t.kind = .endOfFile →
      t.start.line = 1 + source.toList.count '\n') ∧
    (lex source).reports.Pairwise (fun r s ↦ r.line ≤ s.line) ∧
    ∀ n t, (lex source).tokens[n]? = some t →
      ((Cursor.ofSource source).nth n).value = some t ∧
        ∀ r ∈ ((Cursor.ofSource source).nth n).reports, r.line ≤ t.start.line := by
  refine ⟨fun _ _ _ ↦ line_of_unexpected, fun _ _ ↦ line_of_unterminated,
    fun _ ↦ line_of_endOfFile, pairwise_line_reports source, fun _ _ ↦ nth_line_le⟩

example : (lex "é\n@ // \"\n\"open\n").reports =
    [⟨1, .unexpected 'é'⟩, ⟨2, .unexpected '@'⟩, ⟨4, .unterminated⟩] := by
  decide +kernel

end LoxLexer
