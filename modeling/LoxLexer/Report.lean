/-!
# Reports and traces

What can be wrong with a source, and the message for it. A report carries the line on which its
problem was noticed, which for a string that nothing closes is the last line of the source. What the
problem is can be told from the message (`Problem.message_injective`).

Whoever wants to follow the work can listen to a trace of it, at some verbosity. There is a record
of every report at the finest verbosity, and at a coarser one there are records of where the reading
of all tokens begins and ends. Each record is told, or not, when it comes up (`TraceRecord.told`).
-/

namespace LoxLexer

/-- What is wrong with a piece of source. -/
inductive Problem
  /-- A character that begins no token. -/
  | unexpected (c : Char)
  /-- A string that nothing closes. -/
  | unterminated
  /-- A piece taken for a number that is none. -/
  | malformedNumber (text : String)
  deriving DecidableEq

/-- The message for a problem. -/
def Problem.message : Problem → String
  | unexpected c => "Unexpected character '" ++ c.toString ++ "'."
  | unterminated => "Unterminated string."
  | malformedNumber text => "Could not convert " ++ text ++ " into a number."

namespace Problem

/-- The message about a character holds it between fixed texts. -/
theorem toList_message_unexpected (c : Char) :
    (unexpected c).message.toList = "Unexpected character '".toList ++ c :: "'.".toList := by
  show ("Unexpected character '" ++ c.toString ++ "'.").toList = _
  rw [String.toList_append, String.toList_append, Char.toString_eq_singleton,
    String.toList_singleton, List.append_assoc]
  rfl

/-- The message about a number holds its text between fixed ones. -/
theorem toList_message_malformedNumber (text : String) : (malformedNumber text).message.toList =
    "Could not convert ".toList ++ (text.toList ++ " into a number.".toList) := by
  show ("Could not convert " ++ text ++ " into a number.").toList = _
  rw [String.toList_append, String.toList_append, List.append_assoc]

/-- The third character of a message tells what kind of problem it is about. -/
theorem third_message (p : Problem) : p.message.toList[2]? =
    some (match p with | unexpected _ => 'e' | unterminated => 't' | malformedNumber _ => 'u') := by
  rcases p with c | - | text
  · rw [toList_message_unexpected]
    rfl
  · rfl
  · rw [toList_message_malformedNumber]
    rfl

/-- Different problems have different messages. -/
theorem message_injective {p q : Problem} (h : p.message = q.message) : p = q := by
  have hthird := congrArg (·.toList[2]?) h
  simp only [third_message] at hthird
  replace h := congrArg String.toList h
  rcases p with c | - | text <;> rcases q with d | - | text' <;> try cases hthird
  · rw [toList_message_unexpected, toList_message_unexpected] at h
    exact congrArg unexpected (List.cons.inj (List.append_cancel_left h)).1
  · rfl
  · rw [toList_message_malformedNumber, toList_message_malformedNumber] at h
    exact congrArg malformedNumber
      (String.toList_injective (List.append_cancel_right (List.append_cancel_left h)))

end Problem

/-- A problem and the line it was noticed on. -/
structure Report where
  line : Nat
  problem : Problem
  deriving DecidableEq

/-- The message of a report. -/
def Report.message (r : Report) : String := r.problem.message

/-- A report is of an open string exactly if its message says so. -/
theorem Report.message_eq_unterminated_iff {r : Report} :
    r.message = "Unterminated string." ↔ r.problem = .unterminated :=
  ⟨fun h ↦ Problem.message_injective (h.trans rfl), fun h ↦ by rw [message, h]; rfl⟩

/-! ### Traces -/

/-- How much of the work is told. -/
inductive Verbosity
  | info | debug | trace
  deriving DecidableEq

/-- A record in a trace. -/
inductive TraceRecord
  /-- All tokens left are going to be read, of a source of so many bytes. -/
  | opened (sourceBytes : Nat)
  | entered
  /-- A report is going to be made. -/
  | problem (line : Nat) (message : String)
  /-- So many tokens were read, and so many reports were made since the source was begun. -/
  | complete (tokens reports : Nat)
  | exited
  deriving DecidableEq

/-- The record of a report. -/
def Report.record (r : Report) : TraceRecord := .problem r.line r.message

/-- The verbosity from which on a record is told. -/
def TraceRecord.level : TraceRecord → Verbosity
  | problem _ _ => .trace
  | _ => .debug

/-- A record is told at its own level and at every finer one. -/
def Verbosity.tells : Verbosity → TraceRecord → Bool
  | info, _ => false
  | debug, x => x.level = .debug
  | trace, _ => true

namespace TraceRecord

/-- What is told of a record, to a listener who wants to hear so much or to nobody. -/
def told (x : TraceRecord) (v? : Option Verbosity) : List TraceRecord :=
  if v?.any (·.tells x) then [x] else []

/-- What is told of records that come up one after the other. -/
def heard (v? : Option Verbosity) (xs : List TraceRecord) : List TraceRecord :=
  xs.flatMap (·.told v?)

/-- A listener hears records in the order in which they come up. -/
theorem heard_append (v? : Option Verbosity) (xs ys : List TraceRecord) :
    heard v? (xs ++ ys) = heard v? xs ++ heard v? ys := List.flatMap_append

/-- A listener at the finest verbosity hears everything. -/
theorem heard_trace (xs : List TraceRecord) : heard (some .trace) xs = xs :=
  List.flatMap_singleton' xs

/-- There are two levels, so what is not told for debugging is of the finest. -/
theorem heard_debug (xs : List TraceRecord) :
    heard (some .debug) xs = xs.filter fun x ↦ x.level ≠ .trace := by
  induction xs with
  | nil => rfl
  | cons x xs ih =>
    rw [heard, List.flatMap_cons, ← heard, ih]
    cases x <;> rfl

/-- At the coarsest verbosity nothing is heard. -/
theorem heard_info (xs : List TraceRecord) : heard (some .info) xs = [] :=
  List.flatMap_eq_nil_iff.2 fun _ _ ↦ rfl

/-- Without a listener nothing is heard. -/
theorem heard_none (xs : List TraceRecord) : heard none xs = [] :=
  List.flatMap_eq_nil_iff.2 fun _ _ ↦ rfl

end TraceRecord

/-- What is told of reports that are made one after the other. -/
def toldOf (v? : Option Verbosity) (reports : List Report) : List TraceRecord :=
  TraceRecord.heard v? (reports.map Report.record)

theorem toldOf_nil (v? : Option Verbosity) : toldOf v? [] = [] := rfl

/-- What is told of reports made later comes behind. -/
theorem toldOf_append (v? : Option Verbosity) (reports more : List Report) :
    toldOf v? (reports ++ more) = toldOf v? reports ++ toldOf v? more := by
  rw [toldOf, List.map_append, TraceRecord.heard_append, toldOf, toldOf]

theorem toldOf_singleton (v? : Option Verbosity) (r : Report) :
    toldOf v? [r] = r.record.told v? := List.flatMap_singleton ..

/-- What is told of reports, and of two records before and two behind them. -/
theorem heard_around (v? : Option Verbosity) (a b c d : TraceRecord) (reports : List Report) :
    TraceRecord.heard v? ([a, b] ++ reports.map Report.record ++ [c, d]) =
      a.told v? ++ b.told v? ++ toldOf v? reports ++ (c.told v? ++ d.told v?) := by
  have htwo (x y : TraceRecord) : TraceRecord.heard v? [x, y] = x.told v? ++ y.told v? := by
    rw [TraceRecord.heard, List.flatMap_cons, List.flatMap_singleton]
  rw [TraceRecord.heard_append, TraceRecord.heard_append, htwo, htwo, toldOf]

end LoxLexer
