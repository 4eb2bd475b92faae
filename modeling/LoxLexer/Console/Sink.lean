import LoxLexer.Fault
import LoxLexer.Bytes

/-!
# Sinks

A sink takes bytes while it has room. What does not fit is cut off: the part that fits is written,
the write fails, and nothing fits any more except what is empty. Writing several chunks stops at
the first that fails. It amounts to writing them put together (`writeAll_eq_write`), so where one
chunk ends and the next begins leaves no trace.
-/

namespace LoxLexer

/-- Where bytes are written to. -/
structure Sink where
  /-- The bytes it still has room for; without a number there is always room. -/
  room? : Option Nat
  /-- How a write fails that does not fit. -/
  overflow : IoFault

/-- The outcome of writing: the bytes that were written, the failure if there was one, and the sink
left behind. -/
structure Written where
  bytes : Bytes
  failure? : Option IoFault
  sink : Sink

namespace Sink

/-- A sink that always has room. -/
def unlimited : Sink := ⟨none, .bufferFull⟩

/-- A sink for so many bytes. -/
def ofRoom (room : Nat) : Sink := ⟨some room, .bufferFull⟩

/-- A device with no space left. -/
def fullDevice : Sink := ⟨some 0, .system .noSpace⟩

/-- Writes one chunk, or the part of it that fits. -/
def write (s : Sink) (chunk : Bytes) : Written :=
  match s.room? with
  | none => ⟨chunk, none, s⟩
  | some room =>
    if chunk.length ≤ room then ⟨chunk, none, { s with room? := some (room - chunk.length) }⟩
    else ⟨chunk.take room, some s.overflow, { s with room? := some 0 }⟩

/-- Writes chunks one after the other until one fails. -/
def writeAll : Sink → List Bytes → Written
  | s, [] => ⟨[], none, s⟩
  | s, chunk :: more =>
    let first := s.write chunk
    match first.failure? with
    | some _ => first
    | none =>
      let rest := first.sink.writeAll more
      ⟨first.bytes ++ rest.bytes, rest.failure?, rest.sink⟩

/-! ### Laws -/

variable {s : Sink}

/-- Where there is always room, a chunk is written as it is. -/
theorem write_of_room?_eq_none (h : s.room? = none) (chunk : Bytes) :
    s.write chunk = ⟨chunk, none, s⟩ := by
  rw [write, h]

/-- Where there is room for so many bytes, the part of a chunk that fits is written, and no write
fails that fits. -/
theorem write_of_room?_eq_some {room : Nat} (h : s.room? = some room) (chunk : Bytes) :
    s.write chunk =
      ⟨chunk.take room, if chunk.length ≤ room then none else some s.overflow,
        { s with room? := some (room - chunk.length) }⟩ := by
  rw [write, h]
  dsimp only
  split
  · next hle => rw [List.take_of_length_le hle]
  · next hlt => rw [Nat.sub_eq_zero_of_le (Nat.le_of_not_le hlt)]

theorem write_ofRoom (room : Nat) (chunk : Bytes) :
    (ofRoom room).write chunk =
      ⟨chunk.take room, if chunk.length ≤ room then none else some .bufferFull,
        ofRoom (room - chunk.length)⟩ :=
  write_of_room?_eq_some rfl chunk

/-- What is empty fits everywhere, even on a full device. -/
@[simp] theorem write_nil (s : Sink) : s.write [] = ⟨[], none, s⟩ := by
  obtain ⟨_ | room, overflow⟩ := s <;> rfl

/-- Writing two chunks one after the other is writing them put together. -/
theorem write_append (s : Sink) (a b : Bytes) :
    s.write (a ++ b) =
      match (s.write a).failure? with
      | some _ => s.write a
      | none =>
        let rest := (s.write a).sink.write b
        ⟨(s.write a).bytes ++ rest.bytes, rest.failure?, rest.sink⟩ := by
  cases h : s.room? with
  | none => simp [write_of_room?_eq_none h]
  | some room =>
    rw [write_of_room?_eq_some h, write_of_room?_eq_some h]
    by_cases hle : a.length ≤ room
    · have hiff : b.length ≤ room - a.length ↔ a.length + b.length ≤ room := by omega
      simp only [if_pos hle]
      rw [write_of_room?_eq_some rfl]
      simp [List.take_append, List.take_of_length_le hle, Nat.sub_sub, hiff]
    · have hlt : ¬ a.length + b.length ≤ room := by omega
      have ha : room - a.length = 0 := by omega
      have hab : room - (a.length + b.length) = 0 := by omega
      simp [List.take_append, hle, hlt, ha, hab]

/-- Writing chunks one after the other is writing them put together. -/
theorem writeAll_eq_write (s : Sink) (chunks : List Bytes) :
    s.writeAll chunks = s.write chunks.flatten := by
  induction chunks generalizing s with
  | nil => exact (write_nil s).symm
  | cons chunk more ih => simp only [writeAll, List.flatten_cons, write_append, ih]

end Sink

end LoxLexer
