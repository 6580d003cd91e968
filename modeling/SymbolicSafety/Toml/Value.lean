namespace SymbolicSafety.Toml

/-! Configuration files as trees of tables. A table remembers how it came about,
because that decides what may still be added to it. -/

inductive Origin where
  | header
  /-- On the way to a table that was opened by a header. -/
  | implied
  /-- Made by a key with dots. -/
  | dotted
  /-- Written as a value, and complete. -/
  | inline
  deriving DecidableEq, Repr

inductive Value where
  | string (text : String)
  | integer (value : Int)
  | float (text : String)
  | boolean (value : Bool)
  | dateTime (text : String)
  | array (items : List Value)
  | table (origin : Origin) (entries : List (String × Value))
  | tables (items : List (List (String × Value)))
  deriving Repr, Inhabited

abbrev Entries := List (String × Value)

structure Key where
  path : List String
  last : String
  deriving DecidableEq, Repr

def Key.parts (key : Key) : List String := key.path ++ [key.last]

namespace Entries

def put (key : String) (value : Value) : Entries → Entries
  | [] => [(key, value)]
  | entry :: rest => if entry.1 = key then (key, value) :: rest else entry :: put key value rest

def changeLast (change : α → Option α) : List α → Option (List α)
  | [] => none
  | [item] => do pure [← change item]
  | item :: rest => do pure (item :: (← changeLast change rest))

/-- Change the table that a header's path leads to. Tables on the way that do not
exist are implied; of repeated tables the latest is meant. -/
def changeAt (change : Entries → Option Entries) : List String → Entries → Option Entries
  | [], entries => change entries
  | key :: path, entries => do
      let inner ← match entries.lookup key with
        | none => do pure (.table .implied (← changeAt change path []))
        | some (.table .inline _) => none
        | some (.table origin inner) => do pure (.table origin (← changeAt change path inner))
        | some (.tables items) => do pure (.tables (← changeLast (changeAt change path) items))
        | some _ => none
      pure (entries.put key inner)

def openTable (key : Key) : Entries → Option Entries :=
  changeAt (fun entries =>
    match entries.lookup key.last with
    | none => some (entries.put key.last (.table .header []))
    | some (.table .implied inner) => some (entries.put key.last (.table .header inner))
    | some _ => none) key.path

def openNext (key : Key) : Entries → Option Entries :=
  changeAt (fun entries =>
    match entries.lookup key.last with
    | none => some (entries.put key.last (.tables [[]]))
    | some (.tables items) => some (entries.put key.last (.tables (items ++ [[]])))
    | some _ => none) key.path

/-- Store a value under a new key. The last table on the way must be one made by
a key with dots, and those before it must not have been opened. -/
def assign (value : Value) (last : String) : List String → Entries → Option Entries
  | [], entries => if (entries.lookup last).isSome then none else some (entries.put last value)
  | key :: path, entries => do
      let inner ← match entries.lookup key with
        | none => do pure (.table .dotted (← assign value last path []))
        | some (.table .dotted inner) => do pure (.table .dotted (← assign value last path inner))
        | some (.table .implied inner) =>
            if path.isEmpty then none
            else do pure (.table .implied (← assign value last path inner))
        | some (.tables items) =>
            if path.isEmpty then none
            else do pure (.tables (← changeLast (assign value last path) items))
        | some _ => none
      pure (entries.put key inner)

end Entries

end SymbolicSafety.Toml
