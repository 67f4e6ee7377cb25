import Applesoft.Proofs.Continuations
import Applesoft.Proofs.Jumps
import Applesoft.Proofs.Restart

namespace Applesoft

namespace Mark

section Views

variable {alpha : Type} (view : Lexeme → List alpha)

end Views

end Mark

section Lines

variable {record : Record} {segment : Segment}

end Lines

namespace Listing

section Rows

variable {setting : Setting} {base : Text} {following : List Line} {progress : Progress}

theorem Grows.ne_nil {rows grown : List Text} (grows : Grows rows grown) (nonempty : rows ≠ []) :
    grown ≠ [] := by
  obtain ⟨front, last, rfl⟩ := (List.eq_nil_or_concat' rows).resolve_left nonempty
  obtain ⟨more, below, rfl⟩ := grows front last rfl
  simp

end Rows

end Listing

namespace Program

open Listing

end Program

end Applesoft
