import LanguageHost.Toml.Moment

/-! TOML values and the tables that make up a document. -/
namespace LanguageHost

/-- How a table came about, which decides who may still add to it. -/
inductive Toml.Origin where
  /-- It lies on the way to a table that a header names. -/
  | implied
  /-- It lies on the way to a value that a dotted key names. -/
  | dotted
  | header
  /-- It was written between braces and is complete. -/
  | braced
deriving DecidableEq

inductive Toml where
  | string (value : String)
  | integer (value : Int)
  | float (value : Float)
  | bool (value : Bool)
  | moment (value : Toml.Moment)
  /-- An array is `growing` when its elements are tables with headers. -/
  | array (growing : Bool) (items : List Toml)
  | table (origin : Toml.Origin) (entries : List (String × Toml))

namespace Toml

/-- What a table holds, in the order of writing, no key twice. -/
abbrev Entries := List (String × Toml)

def put (key : String) (value : Toml) : Entries → Entries
  | [] => [(key, value)]
  | (k, v) :: rest => if k = key then (k, value) :: rest else (k, v) :: put key value rest

/-- Changes the table that a path of a header leads to. Tables missing on the way are made, and
an array of tables stands for its last element. -/
def alter (change : Entries → Option Entries) : List String → Entries → Option Entries
  | [], entries => change entries
  | key :: path, entries =>
    match entries.lookup key with
    | none => (alter change path []).map fun inner => put key (.table .implied inner) entries
    | some (.table origin inner) =>
      if origin = .braced then none
      else (alter change path inner).map fun inner => put key (.table origin inner) entries
    | some (.array true items) =>
      match items.getLast? with
      | some (.table origin inner) => (alter change path inner).map fun inner =>
          put key (.array true (items.dropLast ++ [.table origin inner])) entries
      | _ => none
    | some _ => none

/-- Opens the table of a header. One that so far was only implied keeps what it holds, and no table
is opened twice. -/
def openTable (key : String) (entries : Entries) : Option Entries :=
  match entries.lookup key with
  | none => some (put key (.table .header []) entries)
  | some (.table .implied inner) => some (put key (.table .header inner) entries)
  | some _ => none

def openElement (key : String) (entries : Entries) : Option Entries :=
  match entries.lookup key with
  | none => some (put key (.array true [.table .header []]) entries)
  | some (.array true items) => some (put key (.array true (items ++ [.table .header []])) entries)
  | some _ => none

/-- Gives a dotted key its value, unless it has one. Tables on the way are made; one that was only implied
is from then on a table of dotted keys, which gets no header of its own. An array of tables stands for its
last element, but only on the way to a table: that element itself gets its keys under its header alone. -/
def assign (value : Toml) : List String → Entries → Option Entries
  | [], _ => none
  | [key], entries =>
    match entries.lookup key with
    | none => some (put key value entries)
    | some _ => none
  | key :: next :: path, entries =>
    match entries.lookup key with
    | none => (assign value (next :: path) []).map fun inner => put key (.table .dotted inner) entries
    | some (.table origin inner) =>
      if origin = .dotted ∨ origin = .implied then
        (assign value (next :: path) inner).map fun inner => put key (.table .dotted inner) entries
      else none
    | some (.array true items) =>
      match path, items.getLast? with
      | _ :: _, some (.table origin inner) =>
        (assign value (next :: path) inner).map fun inner =>
          put key (.array true (items.dropLast ++ [.table origin inner])) entries
      | _, _ => none
    | some _ => none

end Toml

end LanguageHost
