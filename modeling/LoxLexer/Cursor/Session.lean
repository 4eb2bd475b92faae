import LoxLexer.Cursor.Basic

/-!
# Sessions

A session puts a list of requests to one cursor. Every request is answered with what it asks for,
the reports made meanwhile, and what was told of the work. Draining the cursor uses it up: what is
requested afterwards finds the session closed.
-/

namespace LoxLexer

/-! ### Requests -/

/-- What can be asked of a cursor. -/
inductive Request
  /-- The next token. -/
  | next
  /-- The last token of all that are left. -/
  | last
  /-- The number of tokens left. -/
  | count
  /-- The token behind the next `n`. -/
  | nth (n : Nat)
  /-- Up to `n` tokens. -/
  | take (n : Nat)
  /-- The next token of that kind. -/
  | seek (kind : Token.Kind)
  /-- All tokens left, using up the cursor. -/
  | drain
  deriving DecidableEq

/-- The answer to a request. -/
inductive Answer
  | token (t? : Option Token)
  | tokens (ts : List Token)
  | count (n : Nat)
  /-- The cursor has been used up. -/
  | closed
  deriving DecidableEq

/-- An answer with the reports made and the records told in the work for it. -/
structure Reply where
  answer : Answer
  reports : List Report
  trace : List TraceRecord
  deriving DecidableEq

/-! ### Sessions -/

/-- A cursor that can be asked, or none once it has been used up. -/
structure Session where
  cursor? : Option Cursor
  deriving DecidableEq

namespace Session

/-- A session on a source from its start, with somebody to listen or without. -/
def ofSource (source : String) (v? : Option Verbosity) : Session :=
  ⟨some ((Cursor.ofSource source).telling v?)⟩

/-- The answer drawn from a pull, which leaves the cursor where the pull did. -/
def settle {α : Type} (answer : α → Answer) (p : Pull α) : Reply × Session :=
  (⟨answer p.value, p.reports, p.trace⟩, ⟨some p.cursor⟩)

/-- The answer to a drain, which uses up the cursor. -/
def close (p : Pull (List Token)) : Reply × Session :=
  (⟨.tokens p.value, p.reports, p.trace⟩, ⟨none⟩)

/-- Answers one request. -/
def ask (s : Session) (r : Request) : Reply × Session :=
  match s.cursor? with
  | none => (⟨.closed, [], []⟩, s)
  | some c =>
    match r with
    | .next => settle .token c.next
    | .last => settle (fun ts ↦ .token ts.getLast?) c.drain
    | .count => settle (fun ts ↦ .count ts.length) c.drain
    | .nth n => settle .token (c.nth n)
    | .take n => settle .tokens (c.take n)
    | .seek kind => settle .token (c.seek kind)
    | .drain => close c.scan

/-- Answers requests one after the other. -/
def askAll : Session → List Request → List Reply
  | _, [] => []
  | s, r :: rs =>
    let (reply, t) := s.ask r
    reply :: t.askAll rs

end Session

end LoxLexer
