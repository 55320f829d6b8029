import SharpLint.Toml.Date

/-!
# Values of a configuration file

A table remembers how it came about, because that decides who may add to it:

- a header or the file itself makes a `header` table, which only key-value lines add to;
- a header below it makes an `implied` table, which a header of its own may still claim;
- a dotted key makes a `dotted` table, which only dotted keys add to;
- braces make a `braces` table, which nothing adds to.

`Entries.putDotted?` adds a key-value line and `Entries.openTable?` a header; both refuse what would
define something twice.
-/

namespace SharpLint.Toml

/-- How a table came about. -/
inductive Origin where
  | header | implied | dotted | braces
  deriving DecidableEq, Inhabited

/-- A value. Numbers with a point are kept as they were written. -/
inductive Value where
  | string (text : String)
  | integer (n : Int)
  | float (text : String)
  | boolean (b : Bool)
  | date (d : Date)
  | array (items : List Value)
  | table (origin : Origin) (entries : List (String × Value))
  /-- Tables made by headers in double brackets. -/
  | tables (elements : List (List (String × Value)))
  deriving Inhabited

/-- The entries of a table, in the order of their definition. A table that a header claims counts from
there on. -/
abbrev Entries := List (String × Value)

namespace Entries

def get? (t : Entries) (key : String) : Option Value := (t.find? (·.1 == key)).map (·.2)

/-- With a value put under a key, in the place of the one it has. -/
def set : Entries → String → Value → Entries
  | [], key, v => [(key, v)]
  | (k, w) :: t, key, v => if k = key then (k, v) :: t else (k, w) :: set t key v

def erase (t : Entries) (key : String) : Entries := t.filter (·.1 != key)

/-- The entries with `change` applied to the table at the end of `path`. Tables on the way are made
where they are missing; of tables in double brackets, the last is taken. With `dotted` set, the path
is that of a dotted key, and may not go through tables that headers have made. -/
def update? (dotted : Bool) (change : Origin → Entries → Option Entries) :
    List String → Origin → Entries → Option Entries
  | [], origin, t => change origin t
  | key :: path, _, t =>
    match t.get? key with
    | none =>
      let origin : Origin := if dotted then .dotted else .implied
      (update? dotted change path origin []).map fun inner => t.set key (.table origin inner)
    | some (.table origin entries) =>
      if origin = .braces ∨ (dotted ∧ origin = .header) then none
      else (update? dotted change path origin entries).map fun inner => t.set key (.table origin inner)
    | some (.tables elements) =>
      (update? dotted change path .header (elements.getLastD [])).map fun inner =>
        t.set key (.tables (elements.dropLast ++ [inner]))
    | some _ => none

def insertNew? (t : Entries) (key : String) (v : Value) : Option Entries :=
  if (t.get? key).isSome then none else some (t ++ [(key, v)])

/-- With a value under a dotted key: the tables of `path`, then `key`. -/
def putDotted? (t : Entries) (path : List String) (key : String) (v : Value) : Option Entries :=
  update? true
    (fun origin inner =>
      if decide (origin = .dotted) == path.isEmpty then none else inner.insertNew? key v)
    path .header t

/-- With the table of a header made, or claimed where it was only implied. -/
def openTable? (t : Entries) (path : List String) (key : String) : Option Entries :=
  update? false
    (fun _ inner =>
      match inner.get? key with
      | none => some (inner ++ [(key, .table .header [])])
      | some (.table .implied entries) => some (inner.erase key ++ [(key, .table .header entries)])
      | some _ => none)
    path .header t

/-- With one more table under a header in double brackets. -/
def openElement? (t : Entries) (path : List String) (key : String) : Option Entries :=
  update? false
    (fun _ inner =>
      match inner.get? key with
      | none => some (inner ++ [(key, .tables [[]])])
      | some (.tables elements) => some (inner.set key (.tables (elements ++ [[]])))
      | some _ => none)
    path .header t

end Entries

end SharpLint.Toml
