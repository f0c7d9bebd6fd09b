import Juxtaposition.Config.Basic
import Juxtaposition.Toml.Printer

/-!
# Printing configurations

The TOML text of a configuration, with one line for every setting.
-/

set_option autoImplicit false

namespace Juxtaposition.Config

def text (config : Config) : String :=
  Toml.printLine "insert_stars" (Toml.printBoolean config.insertStars) ++
    Toml.printLine "fix_spaces" (Toml.printBoolean config.fixSpaces) ++
    Toml.printLine "strict_syntax" (Toml.printBoolean config.strictSyntax) ++
    Toml.printLine "safe_variables" (Toml.printStrings config.safeVariables) ++
    Toml.printLine "safe_functions" (Toml.printStrings config.safeFunctions)

end Juxtaposition.Config
