import LoxLexer.Proofs.Contents
import LoxLexer.Proofs.LineFeeds
import LoxLexer.Proofs.PartialOutput
import LoxLexer.Proofs.Respacing

/-!
# Reading back what was printed

A listing can be read back, although its rows are padded, the names of some kinds begin other
names, and a string is printed as it stands, line feeds and all, and that twice. What makes this
possible is that a lexeme is followed by a blank or a line feed: any token stops there, so the lexer
itself finds the lexeme again (`Listing.readContent?_append`). What a token says follows from its
lexeme, the literal included, so that the literal in the row need not be read but only passed over.

Once a row can be read off the head of any text that begins with it (`Listing.readRow?_append`),
whole listings can be, row by row (`readAll_flatMap`). Reports are simpler, as no message holds a
line feed. Both readers go from the printed bytes back to all there is to tell, which is how sources
that print the same are seen to have the same tokens and reports (`Console.printed_eq_iff`).
-/

namespace LoxLexer

/-! ### Reading item by item -/

/-- Reads something off the head of a text, and gives what is left. -/
abbrev Reader (β : Type) := List Char → Option (β × List Char)

section Items

variable {α β : Type} {read : Reader β} {write : α → List Char} {told : α → β} {xs : List α}

/-- Reads one thing after the other until nothing is left. A thing takes at least a character. -/
def readAll (read : Reader β) (s : List Char) : Option (List β) :=
  if s = [] then some []
  else
    match read s with
    | none => none
    | some (b, rest) => if rest.length < s.length then (readAll read rest).map (b :: ·) else none
termination_by s.length

theorem readAll_of_read {s rest : List Char} {b : β} (h : read s = some (b, rest))
    (hlt : rest.length < s.length) : readAll read s = (readAll read rest).map (b :: ·) := by
  rw [readAll, if_neg (by rintro rfl; simp at hlt), h]
  exact if_pos hlt

/-- Things that can be read off the head of any text they begin can be read in a row. -/
theorem readAll_flatMap (hne : ∀ x, write x ≠ [])
    (hread : ∀ x ∈ xs, ∀ rest, read (write x ++ rest) = some (told x, rest)) :
    readAll read (xs.flatMap write) = some (xs.map told) := by
  induction xs with
  | nil =>
    rw [List.flatMap_nil, readAll]
    rfl
  | cons x xs ih =>
    obtain ⟨hx, hxs⟩ := List.forall_mem_cons.1 hread
    have hpos := List.length_pos_iff.2 (hne x)
    rw [List.flatMap_cons, readAll_of_read (hx _) (by rw [List.length_append]; omega), ih hxs]
    rfl

end Items

/-! ### What tokens say -/

namespace Token.Content

/-- Something that a token of some source can say: the end of the source, or what a piece says. -/
inductive IsRead : Content → Prop
  | endOfFile : IsRead .endOfFile
  | piece (x : Piece) {c : Content} (hx : x.IsSound) (hc : x.content? = some c) : IsRead c

end Token.Content

theorem isRead_of_mem_tokens_lex {source : String} {t : Token} (h : t ∈ (lex source).tokens) :
    t.content.IsRead := by
  have hmem : t.content ∈ (lex source).tokens.map Token.content := List.mem_map_of_mem h
  rw [contents_lex, List.mem_append, List.mem_filterMap, List.mem_singleton] at hmem
  rcases hmem with ⟨x, hx, hc⟩ | hend
  · exact .piece x (Piece.isSound_of_mem_cut hx) hc
  · exact hend ▸ .endOfFile

namespace Piece

variable {x : Piece} {c : Token.Content}

/-- What a piece says has the kind and the text of the piece. -/
theorem eq_of_content? (h : x.content? = some c) :
    x.isToken ∧ x.HasKind c.kind ∧ c.lexeme.toList = x.chars := by
  have htoken : x.isToken := by
    by_contra hx
    rw [content?_eq_none hx] at h
    cases h
  obtain ⟨t, ht, rfl⟩ := Option.map_eq_some_iff.1 h
  obtain ⟨hkind, hlexeme, -⟩ := PlacedPiece.eq_of_token? ht
  refine ⟨htoken, hkind, ?_⟩
  show t.lexeme.toList = _
  rw [hlexeme]
  exact String.toList_ofList

end Piece

/-! ### Rows -/

/-- A token of that entry, at no offset in particular. -/
def Token.Entry.toToken (e : Entry) : Token :=
  ⟨e.kind, e.lexeme, e.literal, ⟨e.line, e.column, 0⟩⟩

namespace Token.Kind

/-- A name is a word, so it ends at the first blank. -/
theorem name_word (k : Kind) : k.name.toList ≠ [] ∧ ' ' ∉ k.name.toList := by
  rcases k with o | _ | _ | _ | k | _
  · cases o <;> decide
  · decide
  · decide
  · decide
  · cases k <;> decide
  · decide

end Token.Kind

namespace Listing

/-- What a row shows of a literal, with the blank in front. -/
def literalText : Option Literal → List Char
  | none => []
  | some l => ' ' :: l.text.toList

/-- Reads a number off the head of a text, past the blanks in front of it. -/
def readNat (s : List Char) : Nat × List Char :=
  let s := s.dropWhile (· = ' ')
  (Nat.ofDigitChars 10 (s.takeWhile Char.isDigit) 0, s.dropWhile Char.isDigit)

/-- Reads a name up to a blank off the head of a text, past the blanks in front of it. -/
def readName (s : List Char) : String × List Char :=
  let s := s.dropWhile (· = ' ')
  (String.ofList (s.takeWhile (· ≠ ' ')), s.dropWhile (· ≠ ' '))

/-- Reads what a token of that kind says off the head of a text that begins with its lexeme. -/
def readContent? (kind : Token.Kind) : Reader Token.Content := fun s ↦
  if kind = .endOfFile then some (.endOfFile, s)
  else
    match s with
    | [] => none
    | c :: rest => (Piece.read c rest).1.content?.map (·, (Piece.read c rest).2)

/-- Reads a row off the head of a text. The literal is passed over. -/
def readRow? : Reader Token.Entry := fun s ↦ do
  let (line, s) := readNat s
  let (column, s) := readNat s.tail
  let (name, s) := readName s
  let kind ← Token.Kind.ofName? name
  let (content, s) ← readContent? kind s.tail
  some (⟨content, line, column⟩, (s.drop (literalText content.literal).length).tail)

/-! ### The parts of a row -/

variable {rest : List Char}

theorem dropWhile_blanks (m : Nat) (hrest : ∀ c ∈ rest.head?, c ≠ ' ') :
    (List.replicate m ' ' ++ rest).dropWhile (· = ' ') = rest :=
  dropWhile_append_of_stop (fun c hc ↦ by simpa using List.eq_of_mem_replicate hc)
    fun c hc ↦ by simpa using hrest c hc

theorem isDigit_of_mem_repr {n : Nat} {c : Char} (h : c ∈ n.repr.toList) : c.isDigit :=
  Nat.isDigit_of_mem_toDigits (by decide) (by decide) (Nat.toList_repr ▸ h)

/-- A number is read up to the first character that is no digit, blanks in front of it left out. -/
theorem readNat_append (m n : Nat) (hrest : ∀ c ∈ rest.head?, ¬ c.isDigit) :
    readNat (List.replicate m ' ' ++ (n.repr.toList ++ rest)) = (n, rest) := by
  have hdigits : ∀ c ∈ n.repr.toList, c.isDigit := fun _ ↦ isDigit_of_mem_repr
  have hhead : ∀ c ∈ (n.repr.toList ++ rest).head?, c ≠ ' ' := by
    rw [List.head?_append_of_ne_nil _ (by rw [Nat.toList_repr]; exact Nat.toDigits_ne_nil)]
    rintro - hc rfl
    exact absurd (hdigits _ (List.mem_of_mem_head? hc)) (by decide)
  rw [readNat, dropWhile_blanks m hhead, takeWhile_append_of_stop hdigits hrest,
    dropWhile_append_of_stop hdigits hrest, Nat.toList_repr, Nat.ofDigitChars_ten_toDigits]

/-- A name is read up to the blank behind it. -/
theorem readName_append (m : Nat) (k : Token.Kind) (rest : List Char) :
    readName (List.replicate m ' ' ++ (k.name.toList ++ ' ' :: rest)) = (k.name, ' ' :: rest) := by
  obtain ⟨hne, hname⟩ := k.name_word
  have hhead : ∀ c ∈ (k.name.toList ++ ' ' :: rest).head?, c ≠ ' ' := by
    rw [List.head?_append_of_ne_nil _ hne]
    rintro - hc rfl
    exact hname (List.mem_of_mem_head? hc)
  have hrest : ∀ c ∈ (' ' :: rest).head?, c = ' ' := by
    rintro c ⟨⟩
    rfl
  rw [readName, dropWhile_blanks m hhead, takeWhile_ne_append hname hrest,
    dropWhile_ne_append hname hrest, String.ofList_toList]

/-- In front of a blank the lexer finds the lexeme again, and so what the token says. -/
theorem readContent?_append {c : Token.Content} (h : c.IsRead)
    (hrest : ∀ b ∈ rest.head?, isBlank b) :
    readContent? c.kind (c.lexeme.toList ++ rest) = some (c, rest) := by
  rcases h with - | ⟨x, hx, hc⟩
  · exact if_pos rfl
  obtain ⟨htoken, hkind, hlexeme⟩ := Piece.eq_of_content? hc
  obtain ⟨d, more, htext⟩ :=
    List.exists_cons_of_ne_nil (List.append_ne_nil_of_left_ne_nil hx.chars_ne_nil rest)
  have hread : Piece.read d more = (x, rest) :=
    Piece.read_eq_iff.2 ⟨htext, hx, Piece.stopsAt_of_isBlank htoken hrest⟩
  rw [hlexeme, htext]
  refine (if_neg hkind.ne_endOfFile).trans ?_
  show (Piece.read d more).1.content?.map _ = _
  rw [hread, hc]
  rfl

/-- A lexeme is followed by the blank in front of a literal, or by the end of the row. -/
theorem isBlank_of_mem_head?_literalText (l : Option Literal) (rest : List Char) :
    ∀ b ∈ (literalText l ++ '\n' :: rest).head?, isBlank b := by
  rcases l with - | l
  · rintro b ⟨⟩
    decide
  · rintro b ⟨⟩
    decide

/-! ### Whole rows -/

theorem toList_display (t : Token) :
    t.display.toList = t.kind.name.toList ++ ' ' :: (t.lexeme.toList ++ literalText t.literal) := by
  rw [Token.display]
  split
  · next h => simp [h, literalText]
  · next h => simp [h, literalText]

/-- The row of a token shows its entry alone. -/
theorem row_toToken_entry (t : Token) : row t.entry.toToken = row t := rfl

/-- A row is made of these parts, with some blanks in front of the line and of the name. -/
theorem toList_row (t : Token) : ∃ m n, (row t).toList =
    List.replicate m ' ' ++ (t.start.line.repr.toList ++ ':' :: (t.start.column.repr.toList ++
      (List.replicate (n + 1) ' ' ++ (t.kind.name.toList ++ ' ' :: (t.lexeme.toList ++
        (literalText t.literal ++ ['\n'])))))) := by
  refine ⟨4 - t.start.line.repr.toList.length, 3 - t.start.column.repr.toList.length, ?_⟩
  simp only [row, flushRight, flushLeft, List.leftpad, List.rightpad, String.toList_append,
    String.toList_ofList, toList_display, List.replicate_succ', List.append_assoc,
    List.cons_append]
  rfl

/-- **A row can be read** off the head of any text that begins with it. -/
theorem readRow?_append {t : Token} (h : t.content.IsRead) (rest : List Char) :
    readRow? ((row t).toList ++ rest) = some (t.entry, rest) := by
  obtain ⟨m, n, hrow⟩ := toList_row t
  -- what stands behind the lexeme, behind the column and behind the line
  let tail := literalText t.literal ++ '\n' :: rest
  let name := List.replicate (n + 1) ' ' ++
    (t.kind.name.toList ++ ' ' :: (t.lexeme.toList ++ tail))
  let column := t.start.column.repr.toList ++ name
  have hcolon : ∀ c ∈ (':' :: column).head?, ¬ c.isDigit := by
    rintro c ⟨⟩
    decide
  have hline : readNat ((row t).toList ++ rest) = (t.start.line, ':' :: column) := by
    rw [hrow]
    simpa [column, name, tail] using readNat_append m t.start.line hcolon
  have hcolumn : readNat column = (t.start.column, name) :=
    readNat_append 0 t.start.column (by rintro c ⟨⟩; decide)
  have hcontent : readContent? t.kind (t.lexeme.toList ++ tail) = some (t.content, tail) :=
    readContent?_append h (isBlank_of_mem_head?_literalText t.literal rest)
  have hkind : Token.Kind.ofName? t.kind.name = some t.kind :=
    Token.Kind.ofName?_eq_some_iff.2 rfl
  unfold readRow?
  simp only [hline, List.tail_cons, hcolumn, name, readName_append, hkind, Option.bind_eq_bind,
    Option.bind_some, hcontent]
  show some (t.entry, (tail.drop (literalText t.literal).length).tail) = _
  rw [List.drop_left]
  rfl

end Listing

/-! ### Lines of reports -/

namespace Report

/-- What the line of a report tells. -/
def told (r : Report) : Nat × String := (r.line, r.message)

theorem told_injective : Function.Injective told := fun r q h ↦ by
  obtain ⟨hline, hmessage⟩ := Prod.mk.inj h
  have hproblem := Problem.message_injective hmessage
  rcases r with ⟨line, problem⟩
  rcases q with ⟨line', problem'⟩
  exact congrArg₂ Report.mk hline hproblem

/-- The line of a report, with the line feed that ends it. -/
def row (r : Report) : String := r.toFault.display ++ "\n"

theorem toList_row (r : Report) : r.row.toList =
    "[line ".toList ++ (r.line.repr.toList ++ ("] Error: ".toList ++
      (r.message.toList ++ ['\n']))) := by
  simp only [row, toFault, Fault.display, String.toList_append, List.append_assoc]
  rfl

theorem row_ne_empty (r : Report) : r.row ≠ "" := by
  rw [row]
  simp

/-- The line feed at its end is the only one in a line. -/
theorem count_lineFeed_row {r : Report} (h : '\n' ∉ r.message.toList) :
    r.row.toList.count '\n' = 1 := by
  have hdigits : '\n' ∉ r.line.repr.toList :=
    fun hmem ↦ absurd (Listing.isDigit_of_mem_repr hmem) (by decide)
  simp only [toList_row, List.count_append, List.count_eq_zero_of_not_mem h,
    List.count_eq_zero_of_not_mem hdigits]
  rfl

/-- Reads the line of a report off the head of a text. -/
def read? : Reader (Nat × String) := fun s ↦
  let (line, s) := Listing.readNat (s.drop "[line ".toList.length)
  let s := s.drop "] Error: ".toList.length
  some ((line, String.ofList (s.takeWhile (· ≠ '\n'))), (s.dropWhile (· ≠ '\n')).tail)

/-- A line can be read off the head of any text that begins with it, if its message is one. -/
theorem read?_append {r : Report} (h : '\n' ∉ r.message.toList) (rest : List Char) :
    read? (r.row.toList ++ rest) = some (r.told, rest) := by
  have hmessage : ∀ c ∈ ('\n' :: rest).head?, c = '\n' := by
    rintro c ⟨⟩
    rfl
  -- what stands behind the line, and in front of the message
  let tail := "] Error: ".toList ++ (r.message.toList ++ '\n' :: rest)
  have htext : r.row.toList ++ rest = "[line ".toList ++ (r.line.repr.toList ++ tail) := by
    rw [toList_row]
    simp only [tail, List.append_assoc, List.singleton_append]
  have hline : Listing.readNat (r.line.repr.toList ++ tail) = (r.line, tail) :=
    Listing.readNat_append 0 r.line (by rintro c ⟨⟩; decide)
  simp only [read?, htext, List.drop_left, hline, tail, takeWhile_ne_append h hmessage,
    dropWhile_ne_append h hmessage, String.ofList_toList]
  rfl

end Report

/-- No message runs over a line: a character that begins nothing is not a line feed. -/
theorem lineFeed_not_mem_message {source : String} {r : Report} (h : r ∈ (lex source).reports) :
    '\n' ∉ r.message.toList := by
  have hmem : r.message ∈ (lex source).reports.map Report.message := List.mem_map_of_mem h
  rw [messages_lex, List.mem_filterMap] at hmem
  obtain ⟨x, hx, hmessage⟩ := hmem
  cases x with
  | openString body =>
    rw [← Option.some.inj hmessage]
    decide
  | stray c =>
    have hc : c ≠ '\n' := by
      rintro rfl
      exact (Piece.isSound_of_mem_cut hx).1 rfl
    have hr : r.message = (Problem.unexpected c).message := (Option.some.inj hmessage).symm
    rw [hr, Problem.toList_message_unexpected]
    simp [hc.symm]
  | _ => cases hmessage

/-! ### Printed bytes -/

/-- Reads bytes back that were printed. -/
def readBack? {β : Type} (read : Reader β) (b : Bytes) : Option (List β) :=
  (Utf8.decode? b).bind fun text ↦ readAll read text.toList

/-- If every text that is written reads as what it told, so do all of them put together. -/
theorem readBack?_encode {α β : Type} {read : Reader β} {write : α → String} {told : α → β}
    {xs : List α} (hne : ∀ x, write x ≠ "")
    (hread : ∀ x ∈ xs, ∀ rest, read ((write x).toList ++ rest) = some (told x, rest)) :
    readBack? read (xs.map fun x ↦ Utf8.encode (write x)).flatten = some (xs.map told) := by
  have htext : (xs.map fun x ↦ Utf8.encode (write x)).flatten =
      Utf8.encode (String.ofList (xs.flatMap fun x ↦ (write x).toList)) := by
    rw [Utf8.encode_ofList, List.flatMap_assoc, List.flatMap_def]
    rfl
  rw [htext, readBack?, Utf8.decode?_encode, Option.bind_some, String.toList_ofList]
  exact readAll_flatMap (fun x hx ↦ hne x (String.toList_eq_nil_iff.1 hx)) hread

namespace Console

variable (source : String)

/-- A listing tells the entries of the tokens. -/
theorem readBack?_listing : readBack? Listing.readRow? (listing source) =
    some ((lex source).tokens.map Token.entry) :=
  readBack?_encode Listing.row_ne_empty fun _ ht ↦
    Listing.readRow?_append (isRead_of_mem_tokens_lex ht)

/-- A listing tells nothing but the entries of the tokens. -/
theorem listing_eq_of_entries {s t : String}
    (h : (lex s).tokens.map Token.entry = (lex t).tokens.map Token.entry) :
    listing s = listing t := by
  have hrow : tokenRow ∘ Token.Entry.toToken ∘ Token.entry = tokenRow := funext fun u ↦ by
    rw [Function.comp_apply, Function.comp_apply, tokenRow, tokenRow, Listing.row_toToken_entry]
  have hrows (source : String) : tokenRows source =
      ((lex source).tokens.map Token.entry).map (tokenRow ∘ Token.Entry.toToken) := by
    rw [List.map_map, Function.comp_assoc, hrow, tokenRows]
  rw [listing, listing, hrows, hrows, h]

/-- The error output tells the lines and the messages of the reports. -/
theorem readBack?_reportText : readBack? Report.read? (reportText source) =
    some ((lex source).reports.map Report.told) :=
  readBack?_encode Report.row_ne_empty fun _ hr ↦
    Report.read?_append (lineFeed_not_mem_message hr)

theorem count_lineFeed_reportLine {r : Report} (h : '\n' ∉ r.message.toList) :
    (reportLine r).count Bytes.lineFeed = 1 := by
  rw [reportLine, Bytes.count_lineFeed_encode]
  exact Report.count_lineFeed_row h

/-- The error output has as many lines as there are reports. -/
theorem count_lineFeed_reportText :
    (reportText source).count Bytes.lineFeed = (lex source).reports.length := by
  have hone : ∀ r ∈ (lex source).reports,
      (List.count Bytes.lineFeed ∘ reportLine) r = Function.const _ 1 r := fun r hr ↦ by
    rw [Function.comp_apply, count_lineFeed_reportLine (lineFeed_not_mem_message hr),
      Function.const_apply]
  rw [reportText, reportLines, List.count_flatten, List.map_map, List.map_congr_left hone,
    List.map_const, List.sum_replicate_nat, Nat.mul_one]

/-- **What is printed can be read back.** With room for everything two sources print the same
listing exactly if they have the same tokens up to their offsets, and the same error output exactly
if they have the same reports, of which each takes one line. -/
theorem printed_eq_iff (s t : String) :
    ((unlimited.run s).out = (unlimited.run t).out ↔
      (lex s).tokens.map Token.entry = (lex t).tokens.map Token.entry) ∧
    ((unlimited.run s).err = (unlimited.run t).err ↔ (lex s).reports = (lex t).reports) ∧
    (unlimited.run s).err.count Bytes.lineFeed = (lex s).reports.length := by
  simp only [run_unlimited]
  refine ⟨⟨fun h ↦ ?_, fun h ↦ ?_⟩, ⟨fun h ↦ ?_, fun h ↦ ?_⟩, count_lineFeed_reportText s⟩
  · have hentries := readBack?_listing s
    rw [h, readBack?_listing] at hentries
    exact (Option.some.inj hentries).symm
  · rw [listing_eq_of_entries h]
  · have htold := readBack?_reportText s
    rw [h, readBack?_reportText] at htold
    exact List.map_injective_iff.2 Report.told_injective (Option.some.inj htold).symm
  · rw [reportText, reportText, reportLines, reportLines, h]

end Console

end LoxLexer
