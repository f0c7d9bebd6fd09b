import Juxtaposition.Rule.ExponentLiteral
import Mathlib.Data.List.TakeDrop
import Mathlib.Data.List.TakeWhile

/-!
# Exponent markers

A literal is split at its first marker. It can be split exactly when it has one.
-/

set_option autoImplicit false

namespace Juxtaposition.ExponentLiteral

/-- The parts of a text around its first `e`, or around its first `E` if it has no `e`. -/
structure Splits (literal : ExponentLiteral) (text : String) : Prop where
  marker : literal.marker = if 'e' ∈ text.toList then 'e' else 'E'
  parts : text.toList = literal.mantissa.toList ++ literal.marker :: literal.exponent.toList
  first : literal.marker ∉ literal.mantissa.toList

variable {literal : ExponentLiteral} {text : String} {marker : Char} {characters : List Char}

theorem parts_of_splitAt? (found : splitAt? marker characters = some literal) :
    literal.marker = marker ∧
      characters = literal.mantissa.toList ++ marker :: literal.exponent.toList ∧
      marker ∉ literal.mantissa.toList := by
  unfold splitAt? at found
  rw [List.span_eq_takeWhile_dropWhile] at found
  have parts : characters.takeWhile (· ≠ marker) ++ characters.dropWhile (· ≠ marker) =
      characters := List.takeWhile_append_dropWhile
  cases rest : characters.dropWhile (· ≠ marker) with
  | nil =>
      rw [rest] at found
      cases found
  | cons first exponent =>
      rw [rest] at found parts
      cases found
      have head := List.head?_dropWhile_not (· ≠ marker) characters
      have same : first = marker := by
        rw [rest] at head
        simpa using head
      subst same
      refine ⟨rfl, by simpa using parts.symm, fun member => ?_⟩
      rw [String.toList_ofList] at member
      simpa using List.mem_takeWhile_imp member

theorem splitAt?_eq_none_iff : splitAt? marker characters = none ↔ marker ∉ characters := by
  constructor
  · intro nothing member
    unfold splitAt? at nothing
    rw [List.span_eq_takeWhile_dropWhile] at nothing
    cases rest : characters.dropWhile (· ≠ marker) with
    | nil =>
        have other := List.dropWhile_eq_nil_iff.mp rest marker member
        simp at other
    | cons first exponent =>
        rw [rest] at nothing
        cases nothing
  · intro absent
    cases found : splitAt? marker characters with
    | none => rfl
    | some literal =>
        rw [(parts_of_splitAt? found).2.1] at absent
        exact absurd (List.mem_append_right _ List.mem_cons_self) absent

theorem splits_of_ofText? (found : ofText? text = some literal) : literal.Splits text := by
  unfold ofText? at found
  cases lower : splitAt? 'e' text.toList with
  | some split =>
      rw [lower] at found
      cases found
      obtain ⟨marker, parts, first⟩ := parts_of_splitAt? lower
      have member : 'e' ∈ text.toList := by
        rw [parts]
        exact List.mem_append_right _ List.mem_cons_self
      exact ⟨by rw [marker, if_pos member], by rw [marker]; exact parts, by rw [marker]; exact first⟩
  | none =>
      rw [lower] at found
      obtain ⟨marker, parts, first⟩ := parts_of_splitAt? found
      have absent := splitAt?_eq_none_iff.mp lower
      exact ⟨by rw [marker, if_neg absent], by rw [marker]; exact parts, by rw [marker]; exact first⟩

theorem ofText?_eq_none_iff :
    ofText? text = none ↔ 'e' ∉ text.toList ∧ 'E' ∉ text.toList := by
  unfold ofText?
  cases lower : splitAt? 'e' text.toList with
  | some split =>
      have marked := mt splitAt?_eq_none_iff.mpr (by rw [lower]; exact Option.some_ne_none split)
      simpa using fun absent => absurd absent marked
  | none =>
      have absent := splitAt?_eq_none_iff.mp lower
      rw [show (none <|> splitAt? 'E' text.toList) = splitAt? 'E' text.toList from rfl,
        splitAt?_eq_none_iff]
      exact (and_iff_right absent).symm

/-- A literal can be split exactly when it has a marker. -/
theorem isSome_ofText?_iff :
    (ofText? text).isSome = true ↔ 'e' ∈ text.toList ∨ 'E' ∈ text.toList := by
  rw [← Option.ne_none_iff_isSome, Ne, ofText?_eq_none_iff, not_and_or, not_not, not_not]

theorem splitAt?_append {mantissa exponent : List Char} (first : marker ∉ mantissa) :
    splitAt? marker (mantissa ++ marker :: exponent) =
      some ⟨String.ofList mantissa, marker, String.ofList exponent⟩ := by
  have others : ∀ character ∈ mantissa, decide (character ≠ marker) = true := by
    intro character member
    exact decide_eq_true fun same => first (same ▸ member)
  unfold splitAt?
  rw [List.span_eq_takeWhile_dropWhile, List.takeWhile_append_of_pos others,
    List.dropWhile_append_of_pos others]
  simp

/-- A text comes apart at its first marker, and in no other way. -/
theorem ofText?_eq_some_iff : ofText? text = some literal ↔ literal.Splits text := by
  constructor
  · exact splits_of_ofText?
  · intro splits
    have whole : splitAt? literal.marker text.toList = some literal := by
      rw [splits.parts, splitAt?_append splits.first, String.ofList_toList, String.ofList_toList]
    have marker := splits.marker
    unfold ofText?
    split at marker
    · rw [← marker, whole]
      rfl
    · next absent => rw [splitAt?_eq_none_iff.mpr absent, ← marker, whole]; rfl

theorem isDigit_marker (found : ofText? text = some literal) :
    literal.marker.isDigit = false := by
  rw [(splits_of_ofText? found).marker]
  split <;> rfl

end Juxtaposition.ExponentLiteral
