import LoxLexer.Proofs.Pulls
import LoxLexer.Proofs.Routines

/-!
# A pass of a machine reads a piece

What a machine reads with a character or two of lookahead is the first piece of the text in front of
it. The piece is known beforehand, by its characters and by where it stops
(`Piece.read_eq_iff`), so what remains is one case for every kind of piece: the machine gets
behind its characters, with the token or the report that the piece amounts to (`piece_yields`).

The value of a number is what the machine takes its text for, and everything else is as a cursor
would have it. So far nothing is assumed of the values: a machine may take the text of a number for
none, and then it makes a report.
-/

namespace LoxLexer

/-- A piece in its place behind a text. -/
def Piece.behind (x : Piece) (begun : List Char) : PlacedPiece := ⟨x, Position.start.after begun⟩

namespace Machine

/-! ### What pieces amount to -/

/-- The token or the report that a piece amounts to for a machine. -/
def event? (m : Machine) (x : PlacedPiece) : Option Event :=
  match x.piece with
  | .number _ =>
    match m.parse x.lexeme with
    | some v => some (x.toToken .number (some (.number v)))
    | none => some (x.toReport (.malformedNumber x.lexeme))
  | _ => x.event?

/-- The token a piece amounts to. -/
def token? (m : Machine) (x : PlacedPiece) : Option Token := (m.event? x).bind Event.token?

/-- The report a piece amounts to. -/
def report? (m : Machine) (x : PlacedPiece) : Option Report := (m.event? x).bind Event.report?

variable {m : Machine} {s t : State} {begun rest after : List Char} {reports : List Report}
  {trace : List TraceRecord} {finished : Bool} {x : Piece}

/-- A number that the machine takes for such is a token with the value that it has there. -/
theorem event?_number {text : List Char} {v : Binary64} {p : Position}
    (h : m.parse (.ofList text) = some v) : m.event? ⟨.number text, p⟩ =
      some (.token ⟨.number, .ofList text, some (.number v), p⟩) := by
  simp only [event?, PlacedPiece.lexeme, Piece.chars, h]
  rfl

/-- A number that the machine refuses is a problem. -/
theorem event?_number_of_none {text : List Char} {p : Position}
    (h : m.parse (.ofList text) = none) : m.event? ⟨.number text, p⟩ =
      some (.report ⟨(p.after text).line, .malformedNumber (.ofList text)⟩) := by
  simp only [event?, PlacedPiece.lexeme, Piece.chars, h]
  rfl

/-- For a machine, too, what is a token makes no report. -/
theorem report?_eq_none_of_token? {y : PlacedPiece} {u : Token} (h : m.token? y = some u) :
    m.report? y = none := by
  obtain ⟨e, he, het⟩ := Option.bind_eq_some_iff.1 h
  rw [report?, he]
  cases e with
  | token _ => rfl
  | report _ => cases het

/-- A pass ends behind the piece `x`, which begins behind `begun`, with what it amounts to. -/
structure HasRead (m : Machine) (begun : List Char) (reports : List Report)
    (trace : List TraceRecord) (finished : Bool) (x : Piece) (after : List Char)
    (t? : Option Token) (t : State) : Prop where
  token_eq : t? = m.token? (x.behind begun)
  isAt : t.IsAt m begun x.chars after (reports ++ (m.report? (x.behind begun)).toList)
    (trace ++ toldOf m.verbosity? (m.report? (x.behind begun)).toList) finished

/-- Behind a piece that is passed over in silence. -/
theorem hasRead_of_silence (hx : m.event? (x.behind begun) = none)
    (h : t.IsAt m begun x.chars after reports trace finished) :
    HasRead m begun reports trace finished x after none t := by
  refine ⟨by rw [token?, hx]; rfl, ?_⟩
  rw [report?, hx, Option.bind_none, Option.toList_none, toldOf_nil, List.append_nil,
    List.append_nil]
  exact h

/-- Behind a piece that is a token, the machine makes the token. -/
theorem token_hasRead {kind : Token.Kind} {literal : Option Literal}
    (hx : m.event? (x.behind begun) = some ((x.behind begun).toToken kind literal))
    (h : s.IsAt m begun x.chars after reports trace finished) :
    Yields (m.token kind literal) s (HasRead m begun reports trace finished x after) := by
  have htoken : m.token? (x.behind begun) =
      some ⟨kind, String.ofList x.chars, literal, Position.start.after begun⟩ := by
    rw [token?, hx]
    rfl
  obtain ⟨t?, t, hmem, ht?, rfl⟩ := token_yields h kind literal
  refine ⟨t?, t, hmem, ht?.trans htoken.symm, ?_⟩
  rw [report?_eq_none_of_token? htoken, Option.toList_none, toldOf_nil, List.append_nil,
    List.append_nil]
  exact h

/-- Behind a piece with a problem, the machine makes the report. -/
theorem report_hasRead (hm : m.IsRoomy) {problem : Problem} (hproblem : m.IsWarranted problem)
    (hx : m.event? (x.behind begun) = some ((x.behind begun).toReport problem))
    (h : s.IsAt m begun x.chars after reports trace finished)
    (hfew : reports.length < (begun ++ x.chars).length) :
    Yields (m.report problem) s (HasRead m begun reports trace finished x after) := by
  have hstop : (x.behind begun).stop = Position.start.after (begun ++ x.chars) :=
    (Position.after_append _ _ _).symm
  obtain ⟨t?, t, hmem, rfl, ht⟩ := report_yields hm h hfew hproblem
  refine ⟨none, t, hmem, by rw [token?, hx]; rfl, ?_⟩
  rw [report?, hx, PlacedPiece.toReport, hstop]
  exact ht

/-! ### One piece after its first character -/

theorem not_stops_of_not_mem {d : Char} {run : List Char} (h : d ∉ run) :
    ∀ c ∈ run, ¬ decide (c = d) :=
  fun c hc ↦ by simpa using ne_of_mem_of_not_mem hc h

/-- With every piece begun there is room for one more report. -/
theorem lt_length_append_cons {n : Nat} (h : n ≤ begun.length) (c : Char) (tail : List Char) :
    n < (begun ++ c :: tail).length := by
  rw [List.length_append]
  exact Nat.lt_of_le_of_lt h (Nat.lt_add_of_pos_right (Nat.succ_pos _))

/-- What is between the quotes of a string. They take one byte each. -/
theorem mem_slice_body {body : List Char}
    (h : s.IsAt m begun (Piece.string body).chars after reports trace finished) :
    s.registers.start.offset + 1 ≤ s.registers.current m.source - 1 ∧
      String.ofList body ∈
        slice m.source (s.registers.start.offset + 1) (s.registers.current m.source - 1) := by
  have hsource : m.source.toList = (begun ++ ['"']) ++ (body ++ '"' :: after) := by
    rw [h.source_eq, Piece.chars, List.append_assoc, List.cons_append, List.append_assoc]
    rfl
  have hfirst : s.registers.start.offset + 1 = byteLength (begun ++ ['"']) := by
    rw [h.offset_start, byteLength_append]
    rfl
  have hchars : begun ++ (Piece.string body).chars = (begun ++ ['"'] ++ body) ++ ['"'] := by
    simp [Piece.chars]
  have hstop : s.registers.current m.source = byteLength (begun ++ ['"'] ++ body) + 1 := by
    rw [h.current, hchars, byteLength_append _ ['"']]
    rfl
  rw [hfirst, hstop, Nat.add_sub_cancel]
  refine ⟨?_, mem_slice hsource⟩
  rw [byteLength_append _ body]
  exact Nat.le_add_right _ _

/-- Up to the next quote the machine reads a string, whose body is a slice without the quotes. -/
theorem string_yields (hm : m.IsRoomy) {body : List Char} (hbody : '"' ∉ body)
    (h : s.IsAt m begun ['"'] (body ++ '"' :: after) reports trace finished) :
    Yields m.string s (HasRead m begun reports trace finished (.string body) after) := by
  refine (advanceUntil_yields hm h (not_stops_of_not_mem hbody) (by simp)).bind fun _ t ht ↦ ?_
  refine (advance_yields hm ht).bind ?_
  rintro _ u ⟨rfl, hu⟩
  have hstring : u.IsAt m begun (Piece.string body).chars after reports trace finished := hu
  obtain ⟨hle, hslice⟩ := mem_slice_body hstring
  have hstart := hstring.inRange.start.offset_le
  refine yields_bind_of_mem mem_registers ?_
  refine yields_bind_of_mem (mem_liftM (mem_sub (by omega))) ?_
  refine yields_bind_of_mem (mem_liftM (mem_add hm (Nat.succ_le_succ hstart))) ?_
  exact yields_bind_of_mem (mem_liftM hslice) (token_hasRead rfl hstring)

/-- Without another quote the machine reads to the end, and reports that. -/
theorem openString_yields (hm : m.IsRoomy) {body : List Char} (hbody : '"' ∉ body)
    (h : s.IsAt m begun ['"'] body reports trace finished) (hfew : reports.length ≤ begun.length) :
    Yields m.string s (HasRead m begun reports trace finished (.openString body) []) := by
  rw [← List.append_nil body] at h
  refine (advanceUntil_yields hm h (not_stops_of_not_mem hbody) (by simp)).bind fun _ t ht ↦ ?_
  refine yields_bind_of_mem (advance_yields_of_end ht) ?_
  exact report_hasRead hm trivial rfl ht (lt_length_append_cons hfew _ _)

/-- The machine reads a word up to where it ends, and looks it up. -/
theorem word_yields (hm : m.IsRoomy) {c : Char} {run : List Char} (hrun : ∀ d ∈ run, isWordPart d)
    (hafter : ∀ d ∈ after.head?, ¬ isWordPart d)
    (h : s.IsAt m begun [c] (run ++ after) reports trace finished) :
    Yields m.word s (HasRead m begun reports trace finished (.word (c :: run)) after) := by
  refine (advanceUntil_yields hm h (by simpa using hrun) (by simpa using hafter)).bind
    fun _ t ht ↦ ?_
  exact yields_bind_of_mem (mem_lexeme ht) (token_hasRead rfl ht)

/-- Behind a second slash the machine reads to the end of the line. -/
theorem slash_yields_of_comment (hm : m.IsRoomy) {body : List Char} (hbody : '\n' ∉ body)
    (hafter : ∀ c ∈ after.head?, c = '\n')
    (h : s.IsAt m begun ['/'] ('/' :: (body ++ after)) reports trace finished) :
    Yields m.slash s (HasRead m begun reports trace finished (.comment body) after) := by
  refine (skip_yields hm '/' h).bind ?_
  rintro _ t (⟨more, hmore, rfl, ht⟩ | ⟨hne, -⟩)
  · obtain ⟨-, rfl⟩ := List.cons.inj hmore
    refine (advanceUntil_yields hm ht (not_stops_of_not_mem hbody) (by simpa using hafter)).bind
      fun _ u hu ↦ ?_
    exact yields_pure (hasRead_of_silence rfl hu)
  · exact absurd rfl hne

/-- A slash on its own is an operator. -/
theorem slash_yields_of_operator (hm : m.IsRoomy) (hafter : after.head? ≠ some '/')
    (h : s.IsAt m begun ['/'] after reports trace finished) :
    Yields m.slash s (HasRead m begun reports trace finished (.operator .slash) after) := by
  refine (skip_yields hm '/' h).bind ?_
  rintro _ t (⟨more, rfl, -⟩ | ⟨-, rfl, ht⟩)
  · exact absurd rfl hafter
  · exact token_hasRead rfl ht

/-- One character of lookahead tells an operator from a longer one. -/
theorem operator_yields (hm : m.IsRoomy) {c : Char} {o e : Operator}
    (ho : Operator.ofChar? c = some o) (hread : Operator.read? c rest = some (e, after))
    (h : s.IsAt m begun [c] rest reports trace finished) :
    Yields (m.operator o) s (HasRead m begun reports trace finished (.operator e) after) := by
  have hc := Operator.chars_of_ofChar? ho
  rw [Operator.read?, ho, Option.map_some] at hread
  rw [operator]
  cases hboth : o.withEqual? with
  | none =>
    rw [hboth] at hread
    cases hread
    rw [← hc] at h
    exact token_hasRead rfl h
  | some both =>
    refine (skip_yields hm '=' h).bind ?_
    rintro _ t (⟨more, rfl, rfl, ht⟩ | ⟨hne, rfl, ht⟩)
    · rw [hboth] at hread
      cases hread
      rw [← hc, ← Operator.chars_of_withEqual? hboth] at ht
      exact token_hasRead rfl ht
    · split at hread
      · exact absurd rfl hne
      · cases hread
        rw [← hc] at ht
        exact token_hasRead rfl ht

/-- Behind a point the machine reads on if there is a digit. -/
theorem fraction_yields (hm : m.IsRoomy) {read digits : List Char} (hdigits : Grammar.Digits digits)
    (hafter : ∀ d ∈ after.head?, ¬ d.isDigit)
    (h : s.IsAt m begun read ('.' :: (digits ++ after)) reports trace finished) :
    Yields m.fraction s fun _ t ↦
      t.IsAt m begun (read ++ '.' :: digits) after reports trace finished := by
  obtain ⟨d, tail, rfl, hd⟩ := hdigits.exists_cons
  have hdigit : d.isDigit := Grammar.isDigit_iff.2 hd
  refine yields_bind_of_mem mem_registers ?_
  rw [h.registers_eq, if_pos ⟨rfl, by simpa using hdigit⟩, List.append_cons]
  refine (advance_yields hm h).bind ?_
  rintro _ t ⟨rfl, ht⟩
  exact advanceUntil_yields hm ht (by simpa using hdigits.isDigit) (by simpa using hafter)

/-- Two characters of lookahead tell that a point does not belong to a number. -/
theorem fraction_yields_of_no_point {read : List Char}
    (hpoint : ∀ more, rest = '.' :: more → ∀ d ∈ more.head?, ¬ d.isDigit)
    (h : s.IsAt m begun read rest reports trace finished) :
    Yields m.fraction s fun _ t ↦ t.IsAt m begun read rest reports trace finished := by
  refine yields_bind_of_mem mem_registers ?_
  rw [h.registers_eq, if_neg ?_]
  · exact yields_pure h
  · rintro ⟨hhead, hany⟩
    obtain ⟨more, rfl⟩ := List.head?_eq_some_iff.1 hhead
    obtain ⟨d, hd, hdigit⟩ := (Option.any_eq_true _ _).1 hany
    exact hpoint more rfl d hd hdigit

/-- The machine reads the text of a number up to where it stops. -/
theorem numeral_yields (hm : m.IsRoomy) {c : Char} {tail : List Char}
    (hnumber : Grammar.Number (c :: tail)) (hstop : (Piece.number (c :: tail)).StopsAt after)
    (h : s.IsAt m begun [c] (tail ++ after) reports trace finished) :
    Yields m.numeral s fun _ t ↦ t.IsAt m begun (c :: tail) after reports trace finished := by
  rcases hnumber with hdigits | ⟨whole, digits, hwhole, hdigits, htext⟩
  · have hrun := (List.forall_mem_cons.1 hdigits.isDigit).2
    refine (advanceUntil_yields hm h (by simpa using hrun) (by simpa using hstop.1)).bind
      fun _ t ht ↦ ?_
    exact fraction_yields_of_no_point (hstop.2 hdigits.point_not_mem) ht
  · obtain ⟨d, run, rfl, -⟩ := hwhole.exists_cons
    rw [List.cons_append, List.cons_eq_cons] at htext
    obtain ⟨rfl, rfl⟩ := htext
    have hrun := (List.forall_mem_cons.1 hwhole.isDigit).2
    rw [List.append_assoc] at h
    refine (advanceUntil_yields hm h (by simpa using hrun) (by simp)).bind fun _ t ht ↦ ?_
    exact fraction_yields hm hdigits hstop.1 ht

/-- Whatever value the text of a number is given, or none, the machine reads it as a piece. -/
theorem number_yields (hm : m.IsRoomy) {c : Char} {tail : List Char}
    (hnumber : Grammar.Number (c :: tail)) (hstop : (Piece.number (c :: tail)).StopsAt after)
    (h : s.IsAt m begun [c] (tail ++ after) reports trace finished)
    (hfew : reports.length ≤ begun.length) :
    Yields m.number s (HasRead m begun reports trace finished (.number (c :: tail)) after) := by
  refine (numeral_yields hm hnumber hstop h).bind fun _ t ht ↦ ?_
  refine yields_bind_of_mem (mem_lexeme ht) (yields_bind_of_mem (mem_modify _) ?_)
  have hparsed : ∀ text ∈ t.parsed ++ [String.ofList (c :: tail)], Grammar.Number text.toList := by
    refine List.forall_mem_append.2 ⟨ht.parsed, List.forall_mem_singleton.2 ?_⟩
    rwa [String.toList_ofList]
  have hu : State.IsAt m begun (c :: tail) after reports trace finished
      { t with parsed := t.parsed ++ [String.ofList (c :: tail)] } :=
    { ht with parsed := hparsed }
  cases hparse : m.parse (String.ofList (c :: tail)) with
  | some v => exact token_hasRead (event?_number hparse) hu
  | none =>
    have hwarranted : Grammar.Number (String.ofList (c :: tail)).toList ∧ _ :=
      ⟨by rwa [String.toList_ofList], hparse⟩
    exact report_hasRead hm hwarranted (event?_number_of_none hparse) hu
      (lt_length_append_cons hfew _ _)

/-! ### One piece -/

/-- What begins as no operator is told by the class of its first character. -/
theorem piece_of_ofChar?_eq_none {c : Char} (h : Operator.ofChar? c = none) : m.piece c =
    if isBlank c then pure none
    else if c = '"' then m.string
    else if c.isDigit then m.number
    else if isWordStart c then m.word
    else m.report (.unexpected c) := by
  rw [piece, h]

/-- What begins as an operator is one, unless it may be a comment. -/
theorem piece_of_ofChar? {c : Char} {o : Operator} (h : Operator.ofChar? c = some o)
    (ho : o ≠ .slash) : m.piece c = m.operator o := by
  rw [piece, h]
  cases o with
  | slash => exact absurd rfl ho
  | _ => rfl

/-- The classes of characters have no operators in them. -/
theorem ofChar?_eq_none {c : Char} (h : isBlank c ∨ c = '"' ∨ c.isDigit ∨ isWordStart c) :
    Operator.ofChar? c = none := by
  cases ho : Operator.ofChar? c with
  | none => rfl
  | some o =>
    obtain ⟨hblank, hquote, hdigit, hword⟩ := class_of_ofChar? ho
    tauto

theorem class_of_isWordPart {c : Char} (h : isWordPart c) : ¬ isBlank c ∧ c ≠ '"' :=
  ⟨fun hblank ↦ not_isWordPart_of_isBlank hblank h, by rintro rfl; exact absurd h (by decide)⟩

/-- **Behind its first character, the machine reads the first piece of the text.** One case for
every kind of piece. -/
theorem piece_yields (hm : m.IsRoomy) {c : Char} (hx : x.IsSound) (hstop : x.StopsAt after)
    (hchars : x.chars ++ after = c :: rest) (h : s.IsAt m begun [c] rest reports trace finished)
    (hfew : reports.length ≤ begun.length) :
    Yields (m.piece c) s (HasRead m begun reports trace finished x after) := by
  cases x with
  | blank d =>
    obtain ⟨rfl, rfl⟩ : d = c ∧ after = rest := List.cons.inj hchars
    have hblank : isBlank d := hx
    rw [piece_of_ofChar?_eq_none (ofChar?_eq_none (.inl hblank)), if_pos hblank]
    exact yields_pure (hasRead_of_silence rfl h)
  | comment body =>
    obtain ⟨rfl, rfl⟩ : '/' = c ∧ '/' :: (body ++ after) = rest := List.cons.inj hchars
    exact slash_yields_of_comment hm hx hstop h
  | string body =>
    obtain ⟨rfl, rfl⟩ : '"' = c ∧ body ++ ['"'] ++ after = rest := List.cons.inj hchars
    rw [List.append_assoc] at h
    exact string_yields hm hx h
  | openString body =>
    obtain ⟨rfl, rfl⟩ : '"' = c ∧ body ++ after = rest := List.cons.inj hchars
    have hafter : after = [] := hstop
    rw [hafter, List.append_nil] at h
    exact hafter ▸ openString_yields hm hx h hfew
  | number text =>
    have hnumber : Grammar.Number text := hx
    obtain ⟨d, tail, rfl, hd⟩ := hnumber.exists_cons
    obtain ⟨rfl, rfl⟩ : d = c ∧ tail ++ after = rest := List.cons.inj hchars
    have hdigit : d.isDigit := Grammar.isDigit_iff.2 hd
    obtain ⟨hblank, hquote⟩ := class_of_isWordPart (isWordPart_of_isDigit hdigit)
    rw [piece_of_ofChar?_eq_none (ofChar?_eq_none (.inr (.inr (.inl hdigit)))), if_neg hblank,
      if_neg hquote, if_pos hdigit]
    exact number_yields hm hnumber hstop h hfew
  | word text =>
    have hword : Grammar.Word text := hx
    obtain ⟨d, tail, rfl, hd, htail⟩ := hword
    obtain ⟨rfl, rfl⟩ : d = c ∧ tail ++ after = rest := List.cons.inj hchars
    have hstart : isWordStart d := Grammar.isWordStart_iff.2 hd
    obtain ⟨hblank, hquote⟩ := class_of_isWordPart (isWordPart_of_isWordStart hstart)
    rw [piece_of_ofChar?_eq_none (ofChar?_eq_none (.inr (.inr (.inr hstart)))), if_neg hblank,
      if_neg hquote, if_neg (not_isDigit_of_isWordStart hstart), if_pos hstart]
    exact word_yields hm (fun e he ↦ Grammar.isWordPart_iff.2 (htail e he)) hstop h
  | operator o =>
    have hread := Operator.read?_eq_some_iff.2 ⟨hchars, hstop.1⟩
    obtain ⟨first, hfirst, -⟩ := Option.map_eq_some_iff.1 hread
    by_cases hslash : first = .slash
    · subst hslash
      obtain rfl : '/' = c := List.singleton_inj.1 (Operator.chars_of_ofChar? hfirst)
      -- no other operator begins with a slash
      obtain rfl : o = .slash := by
        obtain ⟨d, tail, ho⟩ := List.exists_cons_of_ne_nil o.chars_ne_nil
        rw [Piece.chars, ho] at hchars
        obtain ⟨rfl, -⟩ := List.cons.inj hchars
        exact Operator.eq_slash_of_chars ho
      obtain ⟨-, rfl⟩ : '/' = '/' ∧ after = rest := List.cons.inj hchars
      exact slash_yields_of_operator hm (hstop.2 rfl) h
    · rw [piece_of_ofChar? hfirst hslash]
      exact operator_yields hm hfirst hread h
  | stray d =>
    obtain ⟨rfl, rfl⟩ : d = c ∧ after = rest := List.cons.inj hchars
    obtain ⟨hblank, hquote, hdigit, hword, hnone⟩ := hx
    rw [piece_of_ofChar?_eq_none hnone, if_neg hblank, if_neg hquote, if_neg hdigit, if_neg hword]
    exact report_hasRead hm trivial rfl h (lt_length_append_cons hfew _ _)

/-- **A pass reads the first piece of the text**, wherever the machine stands. -/
theorem pass_yields (hm : m.IsRoomy) {read : List Char} {c : Char}
    (h : s.IsAt m begun read (c :: rest) reports trace finished) :
    Yields m.pass s (HasRead m (begun ++ read) reports trace finished (Piece.read c rest).1
      (Piece.read c rest).2) := by
  have hcurrent : s.registers.current m.source = s.registers.here.offset := by
    rw [h.current, h.registers_eq, offset_start_after]
  have hsource : m.source.toList = (begun ++ read) ++ ([] ++ c :: rest) := by
    rw [h.source_eq, List.append_assoc]
    rfl
  obtain ⟨hchars, hx, hstop⟩ := Piece.read_eq_iff.1 (rfl : Piece.read c rest = Piece.read c rest)
  refine yields_bind_of_mem mem_registers ?_
  rw [hcurrent, h.registers_eq]
  have hstore : Yields (store _) s fun _ t ↦
      t.IsAt m (begun ++ read) [] (c :: rest) reports trace finished :=
    h.store hsource (by rw [List.append_nil])
  rw [List.append_nil] at hstore
  refine hstore.bind fun _ t ht ↦ ?_
  refine (advance_yields hm ht).bind ?_
  rintro _ u ⟨rfl, hu⟩
  exact piece_yields hm hx hstop hchars hu h.length_reports_le

end Machine

end LoxLexer
