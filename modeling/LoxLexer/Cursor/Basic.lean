import LoxLexer.Lexed

/-!
# Reading tokens on demand

A cursor stands somewhere in a source and reads on only as far as it is asked to. Whoever pulls a
token also gets the reports met on the way to it, and no others. The end of the source is given
out as a token once, and then nothing more. A listener is told of every report when it is made, and
of a scan before it begins and when it is complete, as far as the listener wants to hear of them
(`Cursor.tell`).

Each pass takes one piece off the text (`pass?`), so pulling ends. Every bound on a repeated pull is
the number of characters left and one for the end of the source.
-/

namespace LoxLexer

/-- A place in a source, with the text still to be read. -/
structure Cursor where
  rest : List Char
  position : Position
  /-- How many reports were made so far. -/
  reported : Nat
  /-- The end of the source was given out. -/
  finished : Bool
  /-- How much is told of the work, if there is anybody to listen. -/
  verbosity? : Option Verbosity
  deriving DecidableEq

/-- A value pulled from a cursor, the reports made and the records told on the way, and the cursor
left behind. -/
structure Pull (α : Type) where
  value : α
  reports : List Report
  trace : List TraceRecord
  cursor : Cursor

namespace Pull

variable {α β : Type}

def map (f : α → β) (p : Pull α) : Pull β := ⟨f p.value, p.reports, p.trace, p.cursor⟩

/-- Goes on pulling from the cursor left behind. -/
def bind (p : Pull α) (f : α → Cursor → Pull β) : Pull β :=
  let q := f p.value p.cursor
  ⟨q.value, p.reports ++ q.reports, p.trace ++ q.trace, q.cursor⟩

end Pull

namespace Cursor

/-- The cursor in front of a source. Nobody listens to its work. -/
def ofSource (source : String) : Cursor := ⟨source.toList, .start, 0, false, none⟩

/-- The cursor at the same place with another listener, or none. -/
def telling (c : Cursor) (v? : Option Verbosity) : Cursor := { c with verbosity? := v? }

/-- What is told of a record to the listener, if there is one. -/
def tell (c : Cursor) (x : TraceRecord) : List TraceRecord := x.told c.verbosity?

/-- The bytes of the whole source, read or not. -/
def sourceBytes (c : Cursor) : Nat := c.position.offset + byteLength c.rest

/-- Takes one piece off the text and says what it amounts to; nothing is left to take at the end. -/
def pass? (c : Cursor) : Option (Option Event × Cursor) :=
  match c.rest with
  | [] => none
  | first :: rest =>
    let (piece, after) := Piece.read first rest
    let placed : PlacedPiece := ⟨piece, c.position⟩
    let event := placed.event?
    let reports := (event.bind Event.report?).toList.length
    some (event, ⟨after, placed.stop, c.reported + reports, c.finished, c.verbosity?⟩)

/-- Every pass takes characters off the text. -/
theorem length_pass?_lt {c d : Cursor} {e : Option Event} (h : c.pass? = some (e, d)) :
    d.rest.length < c.rest.length := by
  rw [pass?] at h
  split at h
  · contradiction
  · next first rest heq =>
    cases h
    rw [heq]
    exact Piece.length_read_lt first rest

/-- Reads up to the next token. Every report on the way is told of and made. -/
def next (c : Cursor) : Pull (Option Token) :=
  match _h : c.pass? with
  | none =>
    if c.finished then ⟨none, [], [], c⟩
    else ⟨some (.endOfFile c.position), [], [], { c with finished := true }⟩
  | some (some (.token t), d) => ⟨some t, [], [], d⟩
  | some (some (.report r), d) =>
    let p := d.next
    ⟨p.value, r :: p.reports, d.tell r.record ++ p.trace, p.cursor⟩
  | some (none, d) => d.next
termination_by c.rest.length
decreasing_by all_goals exact length_pass?_lt _h

/-- There is a piece to take unless the text has been read to its end. -/
theorem pass?_eq_none_iff {c : Cursor} : c.pass? = none ↔ c.rest = [] := by
  rw [pass?]
  split <;> simp_all

/-- At the end of the text there is one more token, unless it was given out. -/
theorem next_of_end {c : Cursor} (h : c.pass? = none) :
    c.next =
      if c.finished then ⟨none, [], [], c⟩
      else ⟨some (.endOfFile c.position), [], [], { c with finished := true }⟩ := by
  rw [next]
  split <;> simp_all

/-- A pull ends with the first pass that gives a token. -/
theorem next_of_token {c d : Cursor} {t : Token} (h : c.pass? = some (some (.token t), d)) :
    c.next = ⟨some t, [], [], d⟩ := by
  rw [next]
  split <;> simp_all

/-- A pull goes on behind a report, which is told of and made before all that follows. -/
theorem next_of_report {c d : Cursor} {r : Report} (h : c.pass? = some (some (.report r), d)) :
    c.next =
      ⟨d.next.value, r :: d.next.reports, d.tell r.record ++ d.next.trace, d.next.cursor⟩ := by
  rw [next]
  split <;> simp_all

/-- A pull goes on behind a piece that amounts to nothing. -/
theorem next_of_silence {c d : Cursor} (h : c.pass? = some (none, d)) : c.next = d.next := by
  rw [next]
  split <;> simp_all

/-- Pulls up to `n` tokens. After the last of them nothing more is read. -/
def take : Nat → Cursor → Pull (List Token)
  | 0, c => ⟨[], [], [], c⟩
  | n + 1, c => c.next.bind fun t? d ↦
    match t? with
    | none => ⟨[], [], [], d⟩
    | some t => (take n d).map (t :: ·)

/-- As many pulls as there can be tokens left. -/
def bound (c : Cursor) : Nat := c.rest.length + 1

/-- Pulls all that is left. -/
def drain (c : Cursor) : Pull (List Token) := take c.bound c

/-- Pulls all that is left, and tells of it before and behind what is told on the way. -/
def scan (c : Cursor) : Pull (List Token) :=
  let p := c.drain
  let before := c.tell (.opened c.sourceBytes) ++ c.tell .entered
  let behind := c.tell (.complete p.value.length p.cursor.reported) ++ c.tell .exited
  ⟨p.value, p.reports, before ++ p.trace ++ behind, p.cursor⟩

/-- Passes over `n` tokens and pulls the next. -/
def nth (n : Nat) (c : Cursor) : Pull (Option Token) := (take n c).bind fun _ d ↦ d.next

/-- Pulls up to `n` tokens in search of one of that kind, and stops at the first. -/
def seekWithin : Nat → Token.Kind → Cursor → Pull (Option Token)
  | 0, _, c => ⟨none, [], [], c⟩
  | n + 1, kind, c => c.next.bind fun t? d ↦
    match t? with
    | none => ⟨none, [], [], d⟩
    | some t => if t.kind = kind then ⟨some t, [], [], d⟩ else seekWithin n kind d

/-- Pulls the next token of that kind and drops those in front of it. -/
def seek (kind : Token.Kind) (c : Cursor) : Pull (Option Token) := seekWithin c.bound kind c

end Cursor

end LoxLexer
