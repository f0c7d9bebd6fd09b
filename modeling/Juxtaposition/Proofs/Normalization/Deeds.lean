import Juxtaposition.Proofs.Normalization.Bookkeeping

/-!
# Deeds of a run

What the entries of a run say without the places of nodes. Notes and diagnostics follow from the
deeds alone.
-/

set_option autoImplicit false

namespace Juxtaposition

namespace Normalization

inductive Deed where
  | edited (rule description : String)
  | skipped (rule digits : String)
deriving DecidableEq

namespace Deed

def note : Deed → Note
  | edited _ _ => .missingStars
  | skipped _ _ => .integerOverflow

def diagnostic? : Deed → Option Diagnostic
  | edited _ _ => none
  | skipped _ digits => some (.integerOverflow digits)

def ofEvent? : Event → Option Deed
  | .fired rule _ description => some (edited rule description)
  | .oversized rule _ digits => some (skipped rule digits)
  | .started _ _ _ | .limitReached _ _ | .finished _ _ | .nothingParsed => none

def ofLog (log : List Event) : List Deed :=
  log.filterMap ofEvent?

theorem ofLog_append (log later : List Event) : ofLog (log ++ later) = ofLog log ++ ofLog later :=
  List.filterMap_append

end Deed

def Entry.deed : Entry → Deed
  | edited rule _ description => .edited rule description
  | skipped rule _ digits => .skipped rule digits

theorem Deed.ofLog_map_event (entries : List Entry) :
    ofLog (entries.map Entry.event) = entries.map Entry.deed := by
  induction entries with
  | nil => rfl
  | cons entry rest ih => cases entry <;> exact congrArg _ ih

theorem Deed.map_note_map_deed (entries : List Entry) :
    (entries.map Entry.deed).map note = entries.map Entry.note := by
  induction entries with
  | nil => rfl
  | cons entry rest ih => cases entry <;> exact congrArg _ ih

theorem Deed.filterMap_diagnostic? (entries : List Entry) :
    (entries.map Entry.deed).filterMap diagnostic? =
      (Entry.numbers entries).map fun number => .integerOverflow number.2 := by
  induction entries with
  | nil => rfl
  | cons entry rest ih =>
      cases entry with
      | edited rule target description => exact ih
      | skipped rule node digits => exact congrArg _ ih

/-- The notes and diagnostics between two states of a run are those of the deeds. -/
theorem Recorded.exists_deeds {start progress : Progress} {entries : List Entry}
    (recorded : Recorded start progress entries) :
    ∃ deeds, Deed.ofLog progress.log = Deed.ofLog start.log ++ deeds ∧
      progress.outcome.notes = start.outcome.notes ++ deeds.map Deed.note ∧
      progress.outcome.diagnostics =
        start.outcome.diagnostics ++ deeds.filterMap Deed.diagnostic? := by
  refine ⟨entries.map Entry.deed, ?_, ?_, ?_⟩
  · rw [recorded.log, Deed.ofLog_append, Deed.ofLog_map_event]
  · rw [recorded.notes, Deed.map_note_map_deed]
  · rw [recorded.diagnostics, Deed.filterMap_diagnostic?]

end Normalization

end Juxtaposition
