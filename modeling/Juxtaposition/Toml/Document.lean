import Juxtaposition.Toml.Statement

/-!
# Documents

A TOML document as one table, put together from its statements in their order.
No table is defined twice, and an assignment goes to the table headed last.
-/

set_option autoImplicit false

namespace Juxtaposition.Toml

namespace Entries

/-- Edit the table at the end of a path of headers. Tables on the path are made
as needed, and in a list of tables the path goes through the last one. An inline
table is never entered. -/
def editAt (edit : Entries → Option Entries) : List String → Entries → Option Entries
  | [], entries => edit entries
  | part :: path, entries =>
      match entries.find? part with
      | none => do
          let inner ← editAt edit path []
          return entries.add part (.table .path inner)
      | some (.table .inline _) => none
      | some (.table origin inner) => do
          let inner ← editAt edit path inner
          return entries.set part (.table origin inner)
      | some (.tables earlier last) => do
          let last ← editAt edit path last
          return entries.set part (.tables earlier last)
      | some _ => none

def head (key : String) (entries : Entries) : Option Entries :=
  match entries.find? key with
  | none => some (entries.add key (.table .header []))
  | some (.table .path inner) => some (entries.set key (.table .header inner))
  | some _ => none

def headElement (key : String) (entries : Entries) : Option Entries :=
  match entries.find? key with
  | none => some (entries.add key (.tables [] []))
  | some (.tables earlier last) => some (entries.set key (.tables (earlier ++ [last]) []))
  | some _ => none

end Entries

/-- A document in the making: the whole table, and the path of the table that
was headed last. -/
structure Document where
  entries : Entries := []
  headed : List String := []

def Document.add (document : Document) : Statement → Option Document
  | .assignment key value => do
      let entries ←
        document.entries.editAt (Entries.assign value key.last key.path) document.headed
      return { document with entries := entries }
  | .header key => do
      let entries ← document.entries.editAt (Entries.head key.last) key.path
      return ⟨entries, key.path ++ [key.last]⟩
  | .elementHeader key => do
      let entries ← document.entries.editAt (Entries.headElement key.last) key.path
      return ⟨entries, key.path ++ [key.last]⟩

def skipByteOrderMark : List Char → List Char
  | '\ufeff' :: rest => rest
  | text => text

def parse? (text : String) : Option Entries := do
  let characters := skipByteOrderMark text.toList
  let statements ← readStatements (characters.length + 1) characters
  let document ← statements.foldlM Document.add {}
  return document.entries

end Juxtaposition.Toml
