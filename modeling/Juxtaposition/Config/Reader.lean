import Juxtaposition.Config.Basic
import Juxtaposition.Toml.Document

/-!
# Reading configurations

A configuration is a TOML document. Absent settings have their default, unknown
keys are ignored, and a setting of the wrong type is refused.
-/

set_option autoImplicit false

namespace Juxtaposition

namespace Toml.Value

def boolean? : Value → Option Bool
  | boolean value => some value
  | _ => none

def string? : Value → Option String
  | string text => some text
  | _ => none

def strings? : Value → Option (List String)
  | array items => items.mapM string?
  | _ => none

end Toml.Value

inductive ConfigError where
  | unreadable
  | malformed
deriving DecidableEq

namespace Config

def setting? {α : Type} (entries : Toml.Entries) (key : String) (read : Toml.Value → Option α)
    (default : α) : Option α :=
  match entries.find? key with
  | none => some default
  | some value => read value

def ofEntries? (entries : Toml.Entries) : Option Config := do
  let insertStars ← setting? entries "insert_stars" Toml.Value.boolean? false
  let fixSpaces ← setting? entries "fix_spaces" Toml.Value.boolean? false
  let strictSyntax ← setting? entries "strict_syntax" Toml.Value.boolean? false
  let safeVariables ← setting? entries "safe_variables" Toml.Value.strings? []
  let safeFunctions ← setting? entries "safe_functions" Toml.Value.strings? []
  return ⟨insertStars, fixSpaces, strictSyntax, safeVariables, safeFunctions⟩

def ofText (text : String) : Except ConfigError Config :=
  match Toml.parse? text >>= ofEntries? with
  | some config => .ok config
  | none => .error .malformed

/-- The configuration in a file, whose contents are absent if there is no such
file. A file must be encoded in UTF-8. -/
def ofContents (contents : Option ByteArray) : Except ConfigError Config :=
  match contents.bind String.fromUTF8? with
  | some text => ofText text
  | none => .error .unreadable

end Config

end Juxtaposition
