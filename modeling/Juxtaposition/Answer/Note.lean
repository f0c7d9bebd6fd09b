/-!
# Answer notes

Tags that classify what happened to an answer. Graders match on their texts.
-/

set_option autoImplicit false

namespace Juxtaposition

/-- A tag of an answer. Tags of other stages pass through unchanged. -/
inductive Note where
  | missingStars
  | spaces
  | integerOverflow
  | other (tag : String)
deriving DecidableEq

namespace Note

def tag : Note → String
  | missingStars => "missing_stars"
  | spaces => "spaces"
  | integerOverflow => "integer_overflow"
  | other tag => tag

def ofTag (tag : String) : Note :=
  if tag = missingStars.tag then missingStars
  else if tag = spaces.tag then spaces
  else if tag = integerOverflow.tag then integerOverflow
  else other tag

end Note

end Juxtaposition
