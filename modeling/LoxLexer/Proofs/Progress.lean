import LoxLexer.Proofs.RegisterSafety

/-!
# Progress and the number of tokens and reports

Every pass consumes a character or more and gives one token or one report at most, so that the
tokens and reports of a drain are no more than the characters of the source and one for its end
(`Machine.progress`). The loops of a call and of a drain end for the same reason, and so do those
inside a pass: a run of characters ends at one at which to stop, or with the source
(`Machine.advanceUntil_yields`).

There is no better bound in terms of the length alone: in a source of semicolons every character is
a token (`length_lex_semicolons`).
-/

namespace LoxLexer

/-! ### Sources of semicolons -/

theorem cut_semicolons (n : Nat) :
    Piece.cut (List.replicate n ';') = List.replicate n (.operator .semicolon) := by
  induction n with
  | zero => exact Piece.cut_nil
  | succ n ih =>
    have hread : Piece.read ';' (List.replicate n ';') =
        (.operator .semicolon, List.replicate n ';') := rfl
    rw [List.replicate_succ, Piece.cut_cons, hread, ih, List.replicate_succ]

/-- Every semicolon is a token. -/
theorem length_tokens_semicolons (n : Nat) :
    (lex (.ofList (List.replicate n ';'))).tokens.length = n + 1 := by
  have htokens : ∀ x ∈ placedPieces (List.replicate n ';'), x.token?.isSome := by
    intro x hx
    have hpiece := piece_mem_cut hx
    rw [cut_semicolons] at hpiece
    obtain ⟨piece, p⟩ := x
    obtain rfl : piece = .operator .semicolon := List.eq_of_mem_replicate hpiece
    rfl
  have hlength : (placedPieces (List.replicate n ';')).length = n := by
    rw [← List.length_map PlacedPiece.piece, placedPieces, Piece.map_piece_place, cut_semicolons,
      List.length_replicate]
  rw [tokens_lex, String.toList_ofList, List.length_append,
    List.filterMap_length_eq_length.2 htokens, hlength]
  rfl

namespace Machine

variable {m : Machine}

/-! ### Counting -/

theorem left_ofSource (source : String) : (State.ofSource source).left = source.length + 1 := by
  rw [← String.length_toList]
  rfl

/-- A drain pays with the characters of the source and with its end. -/
theorem drain_ofSource_yields (hm : m.IsRoomy) :
    Yields m.drain (.ofSource m.source) fun ts t ↦
      ts.length + t.reports.length ≤ m.source.length + 1 ∧
        (m.TakesNumbers →
          ts = (lex m.source).tokens.map m.revalue ∧ t.reports = (lex m.source).reports) := by
  obtain ⟨ts, t, hmem, hdrains⟩ := drain_yields hm (isSound_ofSource m)
  refine ⟨ts, t, hmem, ?_, fun hnumbers ↦ (hdrains.agrees_drain hnumbers).eq_lex⟩
  have hspent := hdrains.spends.spent
  rw [left_ofSource] at hspent
  exact (Nat.le_add_right _ _).trans (hspent.trans (Nat.zero_add _).le)

/-- The tokens and reports of a source are those of a drain with unbounded registers. -/
theorem length_lex_le (source : String) :
    (lex source).tokens.length + (lex source).reports.length ≤ source.length + 1 := by
  obtain ⟨ts, t, -, hcount, hlex⟩ := drain_ofSource_yields (isRoomy_unbounded source none)
  obtain ⟨hts, ht⟩ := hlex (takesNumbers_standard source none none)
  rwa [hts, ht, List.length_map] at hcount

theorem length_lex_semicolons (n : Nat) :
    (lex (.ofList (List.replicate n ';'))).tokens.length +
      (lex (.ofList (List.replicate n ';'))).reports.length = n + 1 := by
  have hle := length_lex_le (.ofList (List.replicate n ';'))
  rw [length_tokens_semicolons, String.length_ofList, List.length_replicate] at hle
  rw [length_tokens_semicolons]
  omega

/-- **Progress, termination and a tight count.** In front of a character a pass has an outcome, for
which it consumes one character or more and gives one token or one report at most. So wherever the
machine got, a call and a drain have an outcome. A drain of the whole source gives no more tokens
and reports than there are characters, and one, and sources of every length reach this bound. As
long as numbers are taken for such, passes and calls are those of the cursor, and a drain gives what
lexing gives. Unbounded registers have room for every source (`isRoomy_unbounded`). -/
theorem progress (m : Machine) (hm : m.IsRoomy) :
    (∀ s, m.Reached s →
      (s.registers.rest ≠ [] → Yields m.pass s fun t? t ↦ ∃ read reports, read ≠ [] ∧
        s.registers.rest = read ++ t.registers.rest ∧ t.reports = s.reports ++ reports ∧
          t?.toList.length + reports.length ≤ 1 ∧
            (m.TakesNumbers → (m.cursor s).pass?.map Prod.snd = some (m.cursor t))) ∧
      (Yields m.next s fun t? t ↦
        m.TakesNumbers → m.Agrees s ((m.cursor s).next.map (·.map m.revalue)) t? t) ∧
      ∃ ts t, (ts, t) ∈ m.drain s) ∧
      (Yields m.drain (.ofSource m.source) fun ts t ↦
        ts.length + t.reports.length ≤ m.source.length + 1 ∧
          (m.TakesNumbers →
            ts = (lex m.source).tokens.map m.revalue ∧ t.reports = (lex m.source).reports)) ∧
      (lex m.source).tokens.length + (lex m.source).reports.length ≤ m.source.length + 1 ∧
      ∀ n, ∃ source : String, source.length = n ∧
        (lex source).tokens.length + (lex source).reports.length = n + 1 := by
  refine ⟨fun s hs ↦ ?_, drain_ofSource_yields hm, length_lex_le m.source,
    fun n ↦ ⟨.ofList (List.replicate n ';'), ?_, length_lex_semicolons n⟩⟩
  · have hsound := hs.isSound hm
    refine ⟨fun hrest ↦ ?_, ?_, ?_⟩
    · obtain ⟨x, t, hpass⟩ := exists_passesTo hm hsound hrest
      refine ⟨_, t, hpass.mem, _, _, hpass.piece.chars_ne_nil, hpass.rest, hpass.reports,
        length_event?_le m x, fun hnumbers ↦ ?_⟩
      rw [hpass.pass? (event?_eq hnumbers hpass.piece).2]
      rfl
    · obtain ⟨t?, t, hnext, hanswers⟩ := next_yields hm hsound
      exact ⟨t?, t, hnext, hanswers.agrees⟩
    · obtain ⟨ts, t, hdrain, -⟩ := drain_yields hm hsound
      exact ⟨ts, t, hdrain⟩
  · rw [String.length_ofList, List.length_replicate]

/-- A string that nothing closes, behind an operator: what it consumes is the rest of the source. -/
theorem progress_to_open_string :
    (standard ";\"é" (some (2 ^ 64)) none).IsRoomy ∧
      ∃ t, ([⟨.operator .semicolon, ";", none, .start⟩, .endOfFile ⟨1, 4, 4⟩], t) ∈
          (standard ";\"é" (some (2 ^ 64)) none).drain (.ofSource ";\"é") ∧
        t.reports = [⟨1, .unterminated⟩] ∧ 2 + t.reports.length ≤ ";\"é".length + 1 := by
  have hroom : (standard ";\"é" (some (2 ^ 64)) none).IsRoomy :=
    isRoomy_of_capacity rfl (by decide +kernel)
  have htokens : (lex ";\"é").tokens.map (standard ";\"é" (some (2 ^ 64)) none).revalue =
      [⟨.operator .semicolon, ";", none, .start⟩, .endOfFile ⟨1, 4, 4⟩] := by decide +kernel
  have hreports : (lex ";\"é").reports = [⟨1, .unterminated⟩] := by decide +kernel
  obtain ⟨-, ⟨ts, t, hdrain, hcount, hlex⟩, -⟩ :=
    progress (standard ";\"é" (some (2 ^ 64)) none) hroom
  obtain ⟨hts, ht⟩ := hlex (takesNumbers_standard _ _ _)
  obtain rfl := hts.trans htokens
  exact ⟨hroom, t, hdrain, ht.trans hreports, hcount⟩

end Machine

end LoxLexer
