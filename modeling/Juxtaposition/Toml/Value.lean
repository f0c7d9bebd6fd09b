import Juxtaposition.Decimal.Binary64

/-!
# TOML values

The values that a TOML document can hold. Tables remember how they came about,
since that decides whether later lines may add to them.
-/

set_option autoImplicit false

namespace Juxtaposition.Toml

structure Date where
  year : Nat
  month : Nat
  day : Nat
deriving DecidableEq

/-- A time of day, with the digits of its fraction of a second. A minute may
have a leap second. -/
structure Time where
  hour : Nat
  minute : Nat
  second : Nat
  fraction : List Char
deriving DecidableEq

/-- A date, a time, or both. Only both together may have a distance from
universal time, in minutes. -/
inductive Moment where
  | date (date : Date)
  | time (time : Time)
  | both (date : Date) (time : Time) (offset : Option Int)
deriving DecidableEq

/-- How a table came about: by an inline table, by a header of its own, as a
part of the path in the header of another table, or by a dotted key. -/
inductive Origin where
  | inline
  | header
  | path
  | dotted
deriving DecidableEq

/-- A value. The elements of a list of tables each have a header, and later
lines can reach the last one only. -/
inductive Value where
  | string (text : String)
  | integer (value : Int64)
  | float (value : Binary64)
  | boolean (value : Bool)
  | moment (moment : Moment)
  | array (items : List Value)
  | table (origin : Origin) (entries : List (String × Value))
  | tables (earlier : List (List (String × Value))) (last : List (String × Value))

abbrev Entries := List (String × Value)

namespace Entries

def find? (entries : Entries) (key : String) : Option Value :=
  List.lookup key entries

def set (entries : Entries) (key : String) (value : Value) : Entries :=
  entries.map fun entry => if entry.1 = key then (key, value) else entry

def add (entries : Entries) (key : String) (value : Value) : Entries :=
  entries ++ [(key, value)]

end Entries

end Juxtaposition.Toml
