import LoxLexer.Cursor.Basic
import LoxLexer.Proofs.Pieces

/-!
# What a cursor pulls

A cursor stands in front of the pieces it has not read (`Cursor.pending`) and owes the tokens among
them, with the end of the source unless that was given out (`Cursor.tokensLeft`). A pass takes the
first of these pieces and nothing else (`pending_of_pass?`). From this follows all that a pull can
do, by induction on the text left: it reads up to the next token and makes the reports met on the
way, or it reads to the end (`Cursor.pulls_next`).
-/

namespace LoxLexer

namespace Cursor

variable {c d : Cursor}

/-- The pieces not read yet, in their places. -/
def pending (c : Cursor) : List PlacedPiece := Piece.place c.position (Piece.cut c.rest)

/-- The position behind the whole source. -/
def endPosition (c : Cursor) : Position := c.position.after c.rest

/-- The tokens not pulled yet. -/
def tokensLeft (c : Cursor) : List Token :=
  c.pending.filterMap PlacedPiece.token? ++
    if c.finished then [] else [Token.endOfFile c.endPosition]

theorem pending_of_end (h : c.rest = []) : c.pending = [] := by
  rw [pending, h, Piece.cut_nil, Piece.place_nil]

/-- Nothing is owed once the end of the source was given out. -/
theorem tokensLeft_of_finished (hrest : c.rest = []) (hfinished : c.finished) :
    c.tokensLeft = [] := by
  rw [tokensLeft, pending_of_end hrest, if_pos hfinished]
  rfl

/-- What is owed begins with the token of the first piece that is one. -/
theorem tokensLeft_eq_cons {skipped : List PlacedPiece} {x : PlacedPiece} {t : Token}
    (hpending : c.pending = skipped ++ x :: d.pending) (hskipped : ∀ y ∈ skipped, y.token? = none)
    (htoken : x.token? = some t) (hfinished : d.finished = c.finished)
    (hend : d.endPosition = c.endPosition) : c.tokensLeft = t :: d.tokensLeft := by
  rw [tokensLeft, hpending, List.filterMap_append, List.filterMap_eq_nil_iff.2 hskipped,
    List.filterMap_cons_some htoken, ← hfinished, ← hend]
  rfl

/-- Without another token the end of the source is all that is owed. -/
theorem tokensLeft_eq_endOfFile (hskipped : ∀ y ∈ c.pending, y.token? = none)
    (hfinished : c.finished = false) : c.tokensLeft = [Token.endOfFile c.endPosition] := by
  rw [tokensLeft, List.filterMap_eq_nil_iff.2 hskipped, if_neg (by simp [hfinished])]
  rfl

/-! ### One pass -/

/-- In front of a character a pass takes the first piece of the text. -/
theorem pass?_of_cons {first : Char} {rest : List Char} (h : c.rest = first :: rest) :
    ∃ reported, c.pass? = some ((⟨(Piece.read first rest).1, c.position⟩ : PlacedPiece).event?,
      ⟨(Piece.read first rest).2, c.position.after (Piece.read first rest).1.chars, reported,
        c.finished, c.verbosity?⟩) := by
  rw [pass?, h]
  exact ⟨_, rfl⟩

/-- A pass takes the first pending piece. -/
theorem pending_of_pass? {e : Option Event} (h : c.pass? = some (e, d)) :
    ∃ x, c.pending = x :: d.pending ∧ e = x.event? ∧ d.finished = c.finished ∧
      d.endPosition = c.endPosition := by
  cases hrest : c.rest with
  | nil => exact absurd (pass?_eq_none_iff.2 hrest) (by simp [h])
  | cons first rest =>
    obtain ⟨reported, hpass⟩ := pass?_of_cons hrest
    rw [hpass] at h
    obtain ⟨rfl, rfl⟩ := Prod.mk.inj (Option.some.inj h)
    refine ⟨⟨(Piece.read first rest).1, c.position⟩, ?_, rfl, rfl, ?_⟩
    · show Piece.place c.position (Piece.cut c.rest) = _
      rw [hrest, Piece.cut_cons, Piece.place_cons, pending]
    · rw [endPosition, endPosition, hrest, ← Position.after_append, Piece.chars_read_append]

/-! ### One pull -/

/-- What a pull can do, as long as the end of the source was not given out, and whatever is told of
it. -/
inductive Pulls (c : Cursor) : Pull (Option Token) → Prop
  /-- It reads up to the next token. -/
  | token {skipped : List PlacedPiece} {x : PlacedPiece} {t : Token} {told : List TraceRecord}
      {d : Cursor}
      (hpending : c.pending = skipped ++ x :: d.pending)
      (hskipped : ∀ y ∈ skipped, y.token? = none) (htoken : x.token? = some t)
      (hfinished : d.finished = false) (hend : d.endPosition = c.endPosition) :
      Pulls c ⟨some t, skipped.filterMap PlacedPiece.report?, told, d⟩
  /-- There is no other token, so it reads to the end. -/
  | finish {told : List TraceRecord} {d : Cursor} (hskipped : ∀ y ∈ c.pending, y.token? = none)
      (hrest : d.rest = []) (hfinished : d.finished) (hend : d.endPosition = c.endPosition) :
      Pulls c
        ⟨some (.endOfFile c.endPosition), c.pending.filterMap PlacedPiece.report?, told, d⟩

/-- A piece that is no token is passed over, and its report, if it has one, comes first. -/
theorem Pulls.cons {x : PlacedPiece} {p : Pull (Option Token)} (h : d.Pulls p)
    (hpending : c.pending = x :: d.pending) (hx : x.token? = none)
    (hend : d.endPosition = c.endPosition) (told : List TraceRecord) :
    c.Pulls ⟨p.value, x.report?.toList ++ p.reports, told, p.cursor⟩ := by
  have hreports (ys : List PlacedPiece) : x.report?.toList ++ ys.filterMap PlacedPiece.report? =
      (x :: ys).filterMap PlacedPiece.report? := by
    rw [List.filterMap_cons]
    rcases x.report? with - | r <;> rfl
  cases h with
  | @token skipped y t _ d' hpending' hskipped htoken hfinished hend' =>
    rw [hreports]
    refine .token (hpending.trans (congrArg _ hpending')) ?_ htoken hfinished (hend'.trans hend)
    exact List.forall_mem_cons.2 ⟨hx, hskipped⟩
  | finish hskipped hrest hfinished hend' =>
    rw [hreports, hend, ← hpending]
    exact .finish (hpending ▸ List.forall_mem_cons.2 ⟨hx, hskipped⟩) hrest hfinished
      (hend'.trans hend)

/-- **One pull.** By induction on the text left: a pass either is the pull or comes before it. -/
theorem pulls_next (h : c.finished = false) : c.Pulls c.next := by
  induction hn : c.rest.length using Nat.strong_induction_on generalizing c with
  | _ n ih =>
    subst hn
    cases hpass : c.pass? with
    | none =>
      have hrest := pass?_eq_none_iff.1 hpass
      have hpull := @Pulls.finish c [] { c with finished := true }
        (by rw [pending_of_end hrest]; simp) hrest rfl rfl
      rw [next_of_end hpass, if_neg (by simp [h])]
      have hend : c.endPosition = c.position := by rw [endPosition, hrest, Position.after_nil]
      rw [pending_of_end hrest, hend] at hpull
      exact hpull
    | some read =>
      obtain ⟨e, d⟩ := read
      obtain ⟨x, hpending, he, hfinished, hend⟩ := pending_of_pass? hpass
      have hd := ih _ (length_pass?_lt hpass) (hfinished.trans h) rfl
      -- silence and reports come before the rest of the pull, a token ends it
      match e, hpass with
      | none, hpass =>
        have hpull :=
          hd.cons hpending (by rw [PlacedPiece.token?, ← he]; rfl) hend d.next.trace
        rw [next_of_silence hpass]
        rwa [PlacedPiece.report?, ← he] at hpull
      | some (.report r), hpass =>
        have hpull := hd.cons hpending (by rw [PlacedPiece.token?, ← he]; rfl) hend
          (d.tell r.record ++ d.next.trace)
        rw [next_of_report hpass]
        rwa [PlacedPiece.report?, ← he] at hpull
      | some (.token t), hpass =>
        rw [next_of_token hpass]
        exact @Pulls.token c [] x t [] d hpending (by simp)
          (by rw [PlacedPiece.token?, ← he]; rfl) (hfinished.trans h) hend

/-! ### Repeated pulls -/

/-- Nothing more is taken once there is no next token. -/
theorem take_succ_of_none {n : Nat} (h : c.next.value = none) :
    take (n + 1) c = c.next.bind fun _ d ↦ ⟨[], [], [], d⟩ := by
  rw [take, Pull.bind, Pull.bind, h]

/-- The tokens taken are the next one and those taken behind it. -/
theorem take_succ_of_some {n : Nat} {t : Token} (h : c.next.value = some t) :
    take (n + 1) c = c.next.bind fun _ d ↦ (take n d).map (t :: ·) := by
  rw [take, Pull.bind, Pull.bind, h]

/-- A search fails once there is no next token. -/
theorem seekWithin_succ_of_none {n : Nat} {kind : Token.Kind} (h : c.next.value = none) :
    seekWithin (n + 1) kind c = c.next.bind fun _ d ↦ ⟨none, [], [], d⟩ := by
  rw [seekWithin, Pull.bind, Pull.bind, h]

/-- A search ends at a token of the kind. -/
theorem seekWithin_succ_of_hit {n : Nat} {kind : Token.Kind} {t : Token}
    (h : c.next.value = some t) (hkind : t.kind = kind) :
    seekWithin (n + 1) kind c = c.next.bind fun _ d ↦ ⟨some t, [], [], d⟩ := by
  rw [seekWithin, Pull.bind, Pull.bind, h]
  simp only [hkind, if_true]

/-- A search goes on behind any other token. -/
theorem seekWithin_succ_of_miss {n : Nat} {kind : Token.Kind} {t : Token}
    (h : c.next.value = some t) (hkind : t.kind ≠ kind) :
    seekWithin (n + 1) kind c = c.next.bind fun _ d ↦ seekWithin n kind d := by
  rw [seekWithin, Pull.bind, Pull.bind, h]
  simp only [hkind, if_false]

/-- The bound on a repeated pull suffices: there are no more tokens left than characters and one. -/
theorem length_tokensLeft_le (c : Cursor) : c.tokensLeft.length ≤ c.bound := by
  have hcut (s : List Char) : (Piece.cut s).length ≤ s.length := by
    fun_induction Piece.cut s with
    | case1 => exact le_rfl
    | case2 first rest ih =>
      have hread := Piece.length_read_lt first rest
      rw [List.length_cons]
      omega
  have hpending : c.pending.length = (Piece.cut c.rest).length := by
    rw [pending, ← List.length_map PlacedPiece.piece, Piece.map_piece_place]
  have htokens := List.length_filterMap_le PlacedPiece.token? c.pending
  have hend : (if c.finished then [] else [Token.endOfFile c.endPosition]).length ≤ 1 := by
    split <;> simp
  have := hcut c.rest
  rw [tokensLeft, List.length_append, bound]
  omega

end Cursor

end LoxLexer
