/-!
# Positions in a source

A position measures the text before it in three units at once: the lines begun, the characters of
the last line, and the bytes of the UTF-8 form. All three are carried along one character at a
time, so the position reached after a text depends on the text alone and positions compose over
concatenation (`after_append`). In the end the line counts line feeds (`line_after`) and the offset
counts bytes (`offset_after`).
-/

namespace LoxLexer

/-- The number of bytes that a text takes in UTF-8. -/
def byteLength (text : List Char) : Nat := text.foldr (fun c n ↦ c.utf8Size + n) 0

/-- A place between two characters of a source. Lines and columns count from one, columns in
characters; the offset counts bytes from zero. -/
structure Position where
  line : Nat
  column : Nat
  offset : Nat
  deriving DecidableEq

namespace Position

/-- The position in front of the first character. -/
def start : Position := ⟨1, 1, 0⟩

/-- The position behind `c`. A line feed alone begins a new line. -/
def step (p : Position) (c : Char) : Position :=
  if c = '\n' then ⟨p.line + 1, 1, p.offset + c.utf8Size⟩
  else ⟨p.line, p.column + 1, p.offset + c.utf8Size⟩

/-- The position behind a whole text. -/
def after (p : Position) (text : List Char) : Position := text.foldl step p

@[simp] theorem after_nil (p : Position) : p.after [] = p := rfl

@[simp] theorem after_cons (p : Position) (c : Char) (text : List Char) :
    p.after (c :: text) = (p.step c).after text := rfl

/-- Going on behind a text is going behind both texts at once. -/
@[simp] theorem after_append (p : Position) (s t : List Char) :
    p.after (s ++ t) = (p.after s).after t := List.foldl_append

/-- Only a line feed begins a line. -/
theorem line_step (p : Position) (c : Char) :
    (p.step c).line = p.line + if c = '\n' then 1 else 0 := by
  rw [step]
  split <;> rfl

@[simp] theorem offset_step (p : Position) (c : Char) :
    (p.step c).offset = p.offset + c.utf8Size := by
  rw [step]
  split <;> rfl

/-- Every line feed passed over begins a line, and nothing else does. -/
theorem line_after (p : Position) (text : List Char) :
    (p.after text).line = p.line + text.count '\n' := by
  induction text generalizing p with
  | nil => rfl
  | cons c text ih =>
    rw [after_cons, ih, line_step, List.count_cons]
    simp only [beq_iff_eq]
    omega

/-- The offset grows by the bytes that were passed over. -/
theorem offset_after (p : Position) (text : List Char) :
    (p.after text).offset = p.offset + byteLength text := by
  induction text generalizing p with
  | nil => rfl
  | cons c text ih =>
    rw [after_cons, ih, offset_step, byteLength, byteLength, List.foldr_cons]
    omega

end Position

end LoxLexer
