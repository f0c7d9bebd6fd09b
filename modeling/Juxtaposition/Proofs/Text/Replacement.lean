/-!
# Replacement of a marker

A text that is put together of markers and of pieces in which no marker can begin. Replacing the
markers from the left meets each of them and nothing else.
-/

set_option autoImplicit false

namespace Juxtaposition.Text

/-- Put the replacement for every occurrence of the pattern, from the left. Characters that belong
to an occurrence already replaced are passed over, and `skip` counts them. -/
def replaceFrom (pattern replacement : List Char) (skip : Nat) : List Char → List Char
  | [] => []
  | character :: rest =>
      match skip with
      | skip + 1 => replaceFrom pattern replacement skip rest
      | 0 =>
          if pattern.isPrefixOf (character :: rest) then
            replacement ++ replaceFrom pattern replacement (pattern.length - 1) rest
          else character :: replaceFrom pattern replacement 0 rest

def occurrencesFrom (pattern : List Char) (skip : Nat) : List Char → Nat
  | [] => 0
  | character :: rest =>
      match skip with
      | skip + 1 => occurrencesFrom pattern skip rest
      | 0 =>
          if pattern.isPrefixOf (character :: rest) then
            occurrencesFrom pattern (pattern.length - 1) rest + 1
          else occurrencesFrom pattern 0 rest

def replaceAll (pattern replacement text : String) : String :=
  String.ofList (replaceFrom pattern.toList replacement.toList 0 text.toList)

def occurrences (pattern text : String) : Nat :=
  occurrencesFrom pattern.toList 0 text.toList

variable {first : Char} {others replacement piece rest : List Char}

/-! ## Passing over an occurrence -/

theorem replaceFrom_append (pattern : List Char) :
    replaceFrom pattern replacement piece.length (piece ++ rest) =
      replaceFrom pattern replacement 0 rest := by
  induction piece with
  | nil => rfl
  | cons character piece ih => exact ih

theorem occurrencesFrom_append (pattern : List Char) :
    occurrencesFrom pattern piece.length (piece ++ rest) = occurrencesFrom pattern 0 rest := by
  induction piece with
  | nil => rfl
  | cons character piece ih => exact ih

theorem replaceFrom_occurrence :
    replaceFrom (first :: others) replacement 0 (first :: others ++ rest) =
      replacement ++ replaceFrom (first :: others) replacement 0 rest := by
  have found : (first :: others).isPrefixOf (first :: others ++ rest) = true :=
    List.isPrefixOf_iff_prefix.mpr (List.prefix_append _ _)
  rw [List.cons_append, replaceFrom, ← List.cons_append, if_pos found]
  exact congrArg _ (replaceFrom_append _)

theorem occurrencesFrom_occurrence :
    occurrencesFrom (first :: others) 0 (first :: others ++ rest) =
      occurrencesFrom (first :: others) 0 rest + 1 := by
  have found : (first :: others).isPrefixOf (first :: others ++ rest) = true :=
    List.isPrefixOf_iff_prefix.mpr (List.prefix_append _ _)
  rw [List.cons_append, occurrencesFrom, ← List.cons_append, if_pos found]
  exact congrArg Nat.succ (occurrencesFrom_append _)

/-! ## Text in which no occurrence begins -/

private theorem not_isPrefixOf {character : Char} (other : character ≠ first) :
    ¬ (first :: others).isPrefixOf (character :: rest) = true := by
  intro found
  obtain ⟨_, same⟩ := List.isPrefixOf_iff_prefix.mp found
  exact other (List.cons.inj same).1.symm

theorem replaceFrom_piece (free : first ∉ piece) :
    replaceFrom (first :: others) replacement 0 (piece ++ rest) =
      piece ++ replaceFrom (first :: others) replacement 0 rest := by
  induction piece with
  | nil => rfl
  | cons character piece ih =>
      obtain ⟨other, later⟩ := not_or.mp (mt List.mem_cons.mpr free)
      rw [List.cons_append, replaceFrom, if_neg (not_isPrefixOf (Ne.symm other)), ih later,
        List.cons_append]

theorem occurrencesFrom_piece (free : first ∉ piece) :
    occurrencesFrom (first :: others) 0 (piece ++ rest) =
      occurrencesFrom (first :: others) 0 rest := by
  induction piece with
  | nil => rfl
  | cons character piece ih =>
      obtain ⟨other, later⟩ := not_or.mp (mt List.mem_cons.mpr free)
      rw [List.cons_append, occurrencesFrom, if_neg (not_isPrefixOf (Ne.symm other)), ih later]

theorem replaceFrom_of_free (free : first ∉ piece) :
    replaceFrom (first :: others) replacement 0 piece = piece := by
  have alone : replaceFrom (first :: others) replacement 0 (piece ++ []) = piece ++ [] :=
    replaceFrom_piece free
  rwa [List.append_nil] at alone

theorem occurrencesFrom_of_free (free : first ∉ piece) :
    occurrencesFrom (first :: others) 0 piece = 0 := by
  have alone : occurrencesFrom (first :: others) 0 (piece ++ []) = 0 :=
    occurrencesFrom_piece free
  rwa [List.append_nil] at alone

/-! ## Texts put together of pieces -/

section Pieces

variable {α : Type} {spell : α → List Char} {isMarker : α → Bool} {items : List α}

structure Spells (first : Char) (others : List Char) (spell : α → List Char)
    (isMarker : α → Bool) (items : List α) : Prop where
  marker : ∀ item ∈ items, isMarker item = true → spell item = first :: others
  free : ∀ item ∈ items, isMarker item = false → first ∉ spell item

theorem Spells.tail {item : α} (spells : Spells first others spell isMarker (item :: items)) :
    Spells first others spell isMarker items where
  marker item member := spells.marker item (List.mem_cons_of_mem _ member)
  free item member := spells.free item (List.mem_cons_of_mem _ member)

theorem Spells.replaceFrom_eq (spells : Spells first others spell isMarker items) :
    replaceFrom (first :: others) replacement 0 (items.flatMap spell) =
      items.flatMap fun item => if isMarker item then replacement else spell item := by
  induction items with
  | nil => rfl
  | cons item items ih =>
      rw [List.flatMap_cons, List.flatMap_cons]
      cases isOne : isMarker item with
      | true =>
          rw [spells.marker item List.mem_cons_self isOne, replaceFrom_occurrence, ih spells.tail,
            if_pos rfl]
      | false =>
          rw [replaceFrom_piece (spells.free item List.mem_cons_self isOne), ih spells.tail,
            if_neg Bool.false_ne_true]

theorem Spells.occurrencesFrom_eq (spells : Spells first others spell isMarker items) :
    occurrencesFrom (first :: others) 0 (items.flatMap spell) = items.countP isMarker := by
  induction items with
  | nil => rfl
  | cons item items ih =>
      rw [List.flatMap_cons]
      cases isOne : isMarker item with
      | true =>
          rw [spells.marker item List.mem_cons_self isOne, occurrencesFrom_occurrence,
            ih spells.tail, List.countP_cons_of_pos isOne]
      | false =>
          rw [occurrencesFrom_piece (spells.free item List.mem_cons_self isOne), ih spells.tail,
            List.countP_cons_of_neg (Bool.eq_false_iff.mp isOne)]

end Pieces

end Juxtaposition.Text
