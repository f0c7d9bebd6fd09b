import Std.Data.TreeSet

/-!
# Options

What the rules need to know about the course: how strict the syntax is, and
which names are to be left alone.
-/

set_option autoImplicit false

namespace Juxtaposition

abbrev NameSet := Std.TreeSet String

/-- Settings of one run. Strict syntax turns the speculative readings off: a
letter with a digit, a number after a name, an exponent literal, and a single
letter that is called. Safe variables are never split, and safe functions are
never split or multiplied where they are called. -/
structure Options where
  strictSyntax : Bool := false
  safeVariables : NameSet := ∅
  safeFunctions : NameSet := ∅

namespace Options

def strict : Options := { strictSyntax := true }

def addSafeVariables (options : Options) (names : List String) : Options :=
  { options with safeVariables := options.safeVariables.insertMany names }

def addSafeFunctions (options : Options) (names : List String) : Options :=
  { options with safeFunctions := options.safeFunctions.insertMany names }

def safeAsVariable (options : Options) (name : String) : Bool :=
  options.safeVariables.contains name

def safeAsFunction (options : Options) (name : String) : Bool :=
  options.safeFunctions.contains name

end Options

end Juxtaposition
