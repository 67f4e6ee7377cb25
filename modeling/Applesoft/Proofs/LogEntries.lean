import Applesoft.Log
import Applesoft.Proofs.Obstacles

namespace Applesoft

namespace Log

/-- Whether an entry is an error or a warning. Others are left out of a log unless they are asked
for. -/
def Entry.isSevere (entry : Entry) : Bool :=
  entry.level = .error || entry.level = .warning

/-- Whether an entry stands for a diagnostic. -/
def Entry.isDiagnosis (entry : Entry) : Bool :=
  entry.origin = .diagnosis

/-- Whether entries stand for diagnostics, one by one and in order, with others between them that
are not severe. -/
structure StandFor (diagnostics : List Diagnostic) (entries : List Entry) : Prop where
  diagnoses : entries.filter Entry.isDiagnosis = diagnostics.map Diagnostic.entry
  others : ∀ entry ∈ entries, entry.isDiagnosis = false → entry.isSevere = false

namespace StandFor

theorem map_entry (diagnostics : List Diagnostic) :
    StandFor diagnostics (diagnostics.map Diagnostic.entry) where
  diagnoses := by
    rw [List.filter_eq_self, List.forall_mem_map]
    exact fun _ _ => rfl
  others := by
    rw [List.forall_mem_map]
    intro diagnostic _ other
    cases other

theorem other {entry : Entry} (noDiagnosis : entry.isDiagnosis = false)
    (mild : entry.isSevere = false) : StandFor [] [entry] where
  diagnoses := by
    rw [List.filter_singleton, noDiagnosis]
    rfl
  others := by
    rw [List.forall_mem_singleton]
    exact fun _ => mild

theorem append
    {early late : List Diagnostic} {front rest : List Entry} (first : StandFor early front)
    (second : StandFor late rest) : StandFor (early ++ late) (front ++ rest) where
  diagnoses := by rw [List.filter_append, first.diagnoses, second.diagnoses, List.map_append]
  others := by
    rw [List.forall_mem_append]
    exact ⟨first.others, second.others⟩

theorem flatMap
    {alpha : Type} {list : List alpha} {diagnostics : alpha → List Diagnostic}
    {entries : alpha → List Entry}
    (each : ∀ element ∈ list, StandFor (diagnostics element) (entries element)) :
    StandFor (list.flatMap diagnostics) (list.flatMap entries) := by
  induction list with
  | nil => exact map_entry []
  | cons element rest hypothesis =>
      rw [List.forall_mem_cons] at each
      rw [List.flatMap_cons, List.flatMap_cons]
      exact each.1.append (hypothesis each.2)

end StandFor

end Log

open Log (StandFor)

namespace Program

end Program

end Applesoft
