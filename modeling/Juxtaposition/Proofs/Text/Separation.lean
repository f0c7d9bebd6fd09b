import Juxtaposition.Proofs.Text.Replacement
import Mathlib.Data.List.Chain

/-!
# Texts kept apart

A text that is put together of pieces. No occurrence of a pattern reaches over a character that the
pattern does not have. Where such characters keep the pieces apart, the pattern is replaced in each
piece alone.
-/

set_option autoImplicit false

namespace Juxtaposition.Text

structure Divides (pattern text : List Char) : Prop where
  nonempty : text ≠ []
  foreign : ∀ character ∈ text, character ∉ pattern

instance (pattern text : List Char) : Decidable (Divides pattern text) :=
  decidable_of_iff ((!text.isEmpty && !text.any pattern.contains) = true) (by
    simp only [Bool.and_eq_true, Bool.not_eq_true', List.isEmpty_eq_false_iff, List.any_eq_false,
      List.contains_iff_mem]
    exact ⟨fun both => ⟨both.1, both.2⟩, fun divides => ⟨divides.nonempty, divides.foreign⟩⟩)

variable {pattern : List Char} {first : Char} {others replacement piece rest : List Char}

theorem isPrefixOf_append_iff (text : List Char)
    (stop : ∀ character ∈ rest.head?, character ∉ pattern) :
    pattern.isPrefixOf (text ++ rest) = true ↔ pattern.isPrefixOf text = true := by
  rw [List.isPrefixOf_iff_prefix, List.isPrefixOf_iff_prefix]
  constructor
  · intro found
    rcases Nat.lt_or_ge text.length pattern.length with long | short
    · obtain ⟨following, rfl⟩ :=
        List.prefix_of_prefix_length_le (List.prefix_append text rest) found (Nat.le_of_lt long)
      cases following with
      | nil => simp at long
      | cons character following =>
          obtain ⟨_, rfl⟩ := (List.prefix_append_right_inj text).mp found
          exact absurd (by simp) (stop character rfl)
    · exact List.prefix_of_prefix_length_le found (List.prefix_append _ _) short
  · exact fun found => found.trans (List.prefix_append _ _)

theorem replaceFrom_append_of_stop (stop : ∀ character ∈ rest.head?, character ∉ pattern)
    {skip : Nat} (inside : skip ≤ piece.length) :
    replaceFrom pattern replacement skip (piece ++ rest) =
      replaceFrom pattern replacement skip piece ++ replaceFrom pattern replacement 0 rest := by
  induction piece generalizing skip with
  | nil =>
      obtain rfl := Nat.le_zero.mp inside
      rfl
  | cons character piece ih =>
      cases skip with
      | succ skip => exact ih (Nat.le_of_succ_le_succ inside)
      | zero =>
          have same := isPrefixOf_append_iff (character :: piece) stop
          rw [List.cons_append] at same
          rw [List.cons_append, replaceFrom, replaceFrom]
          by_cases found : pattern.isPrefixOf (character :: piece) = true
          · have within := (List.isPrefixOf_iff_prefix.mp found).length_le
            rw [List.length_cons] at within
            rw [if_pos found, if_pos (same.mpr found), ih (by omega), List.append_assoc]
          · rw [if_neg found, if_neg (mt same.mp found), ih (Nat.zero_le _), List.cons_append]

theorem occurrencesFrom_append_of_stop (stop : ∀ character ∈ rest.head?, character ∉ pattern)
    {skip : Nat} (inside : skip ≤ piece.length) :
    occurrencesFrom pattern skip (piece ++ rest) =
      occurrencesFrom pattern skip piece + occurrencesFrom pattern 0 rest := by
  induction piece generalizing skip with
  | nil =>
      obtain rfl := Nat.le_zero.mp inside
      exact (Nat.zero_add _).symm
  | cons character piece ih =>
      cases skip with
      | succ skip => exact ih (Nat.le_of_succ_le_succ inside)
      | zero =>
          have same := isPrefixOf_append_iff (character :: piece) stop
          rw [List.cons_append] at same
          rw [List.cons_append, occurrencesFrom, occurrencesFrom]
          by_cases found : pattern.isPrefixOf (character :: piece) = true
          · have within := (List.isPrefixOf_iff_prefix.mp found).length_le
            rw [List.length_cons] at within
            rw [if_pos found, if_pos (same.mpr found), ih (by omega), Nat.add_right_comm]
          · rw [if_neg found, if_neg (mt same.mp found), ih (Nat.zero_le _)]

def tally {α : Type} (count : α → Nat) (items : List α) : Nat :=
  items.foldr (fun item total => count item + total) 0

section Tally

variable {α : Type} {count : α → Nat}

@[simp] theorem tally_nil : tally count [] = 0 :=
  rfl

@[simp] theorem tally_cons (item : α) (items : List α) :
    tally count (item :: items) = count item + tally count items :=
  rfl

@[simp] theorem tally_append (items later : List α) :
    tally count (items ++ later) = tally count items + tally count later := by
  induction items with
  | nil => simp
  | cons item items ih => simp [ih, Nat.add_assoc]

end Tally

section Divided

variable {α : Type} {spell : α → List Char} {item : α} {items later : List α}

def Divided (pattern : List Char) (spell : α → List Char) (items : List α) : Prop :=
  items.IsChain fun left right => Divides pattern (spell left) ∨ Divides pattern (spell right)

/-- What stands on the two sides of a dividing item may be any divided items. -/
theorem Divided.around (divided : Divided pattern spell items)
    (divides : Divides pattern (spell item)) (dividedLater : Divided pattern spell later) :
    Divided pattern spell (items ++ item :: later) := by
  refine List.isChain_append.mpr ⟨divided, List.isChain_cons.mpr ⟨?_, dividedLater⟩, ?_⟩
  · exact fun _ _ => .inl divides
  · intro _ _ next head
    obtain rfl : item = next := Option.some.inj head
    exact .inr divides

/-- An item divides, or no occurrence that begins in it goes on behind it. -/
theorem Divided.head_cases (divided : Divided pattern spell (item :: items)) :
    Divides pattern (spell item) ∨
      ∀ character ∈ (items.flatMap spell).head?, character ∉ pattern := by
  cases items with
  | nil => exact .inr nofun
  | cons next items =>
      refine (List.isChain_cons_cons.mp divided).1.imp_right fun divides character head => ?_
      obtain ⟨start, following, shape⟩ := List.exists_cons_of_ne_nil divides.nonempty
      rw [List.flatMap_cons, shape] at head
      obtain rfl : start = character := Option.some.inj head
      exact divides.foreign start (by rw [shape]; exact List.mem_cons_self)

theorem Divides.first_not_mem (divides : Divides (first :: others) piece) : first ∉ piece :=
  fun member => divides.foreign first member List.mem_cons_self

/-- A text that is a prefix after the replacement, and has nothing of what is put in, was one
before. -/
theorem prefix_of_prefix_replaceFrom {text start : List Char}
    (divides : Divides pattern replacement) (within : ∀ character ∈ start, character ∈ pattern)
    (found : start <+: replaceFrom pattern replacement 0 text) : start <+: text := by
  induction text generalizing start with
  | nil => exact found
  | cons character text ih =>
      cases start with
      | nil => exact List.nil_prefix
      | cons head start =>
          rw [replaceFrom] at found
          split at found
          · obtain ⟨put, following, shape⟩ := List.exists_cons_of_ne_nil divides.nonempty
            rw [shape, List.cons_append, List.cons_prefix_cons] at found
            have foreign := divides.foreign put (by rw [shape]; exact List.mem_cons_self)
            exact absurd (within head List.mem_cons_self) (found.1 ▸ foreign)
          · obtain ⟨rfl, later⟩ := List.cons_prefix_cons.mp found
            rw [List.forall_mem_cons] at within
            exact List.cons_prefix_cons.mpr ⟨rfl, ih within.2 later⟩

/-- Nothing is left to replace where what is put in cannot be overlapped. -/
theorem occurrencesFrom_replaceFrom (divides : Divides (first :: others) replacement) (skip : Nat)
    (text : List Char) :
    occurrencesFrom (first :: others) 0 (replaceFrom (first :: others) replacement skip text) =
      0 := by
  induction text generalizing skip with
  | nil => rfl
  | cons character text ih =>
      cases skip with
      | succ skip => exact ih skip
      | zero =>
          rw [replaceFrom]
          split
          · rw [occurrencesFrom_piece divides.first_not_mem, ih]
          · next absent =>
            have still : ¬ (first :: others).isPrefixOf
                (character :: replaceFrom (first :: others) replacement 0 text) = true := by
              intro found
              refine absent ?_
              rw [List.isPrefixOf_iff_prefix, List.cons_prefix_cons] at found ⊢
              exact ⟨found.1, prefix_of_prefix_replaceFrom divides
                (fun _ => List.mem_cons_of_mem first) found.2⟩
            rw [occurrencesFrom, if_neg still, ih]

theorem Divided.replaceFrom_eq (divided : Divided (first :: others) spell items) :
    replaceFrom (first :: others) replacement 0 (items.flatMap spell) =
      items.flatMap fun item => replaceFrom (first :: others) replacement 0 (spell item) := by
  induction items with
  | nil => rfl
  | cons item items ih =>
      rw [List.flatMap_cons, List.flatMap_cons, ← ih divided.tail]
      rcases divided.head_cases with divides | stop
      · rw [replaceFrom_piece divides.first_not_mem, replaceFrom_of_free divides.first_not_mem]
      · exact replaceFrom_append_of_stop stop (Nat.zero_le _)

theorem Divided.occurrencesFrom_eq (divided : Divided (first :: others) spell items) :
    occurrencesFrom (first :: others) 0 (items.flatMap spell) =
      tally (fun item => occurrencesFrom (first :: others) 0 (spell item)) items := by
  induction items with
  | nil => rfl
  | cons item items ih =>
      rw [List.flatMap_cons, tally_cons, ← ih divided.tail]
      rcases divided.head_cases with divides | stop
      · rw [occurrencesFrom_piece divides.first_not_mem, occurrencesFrom_of_free divides.first_not_mem,
          Nat.zero_add]
      · exact occurrencesFrom_append_of_stop stop (Nat.zero_le _)

end Divided

end Juxtaposition.Text
