import Applesoft.Command.Directory

namespace Applesoft.Command

namespace Directory

variable {directory made : Directory} {place last : Place}

theorem follow_cons {step : Text} {next : Place} (stands : directory.isDirectory place = true)
    (leads : place.step? step = some next) (rest : List Text) :
    directory.follow place (step :: rest) = directory.follow next rest := by
  rw [follow, if_pos stands, leads]

theorem follow_append (front rest : List Text) :
    directory.follow place (front ++ rest) =
      (directory.follow place front).bind fun next => directory.follow next rest := by
  induction front generalizing place with
  | nil => rfl
  | cons step front hypothesis =>
      rw [List.cons_append, follow, follow]
      split
      · cases place.step? step with
        | none => rfl
        | some next => exact hypothesis
      · rfl

end Directory

end Applesoft.Command
