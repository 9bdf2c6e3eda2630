import PermissionedLedger.Toml.Value

/-!
# Documents

A document is a list of statements: named values, headers of tables, and headers of
elements of arrays of tables. Its meaning is the table that they build up one after
another (`Document.toTable?`), unless a name is given twice:

* a value is given only once;
* a table has at most one header, and a table that has one, or is written inline,
  is not extended with dotted keys;
* a table that came about through dotted keys gets no header.
-/

namespace PermissionedLedger.Toml

/-- A dotted name: the parts before the last, and the last. -/
structure Key where
  /-- the parts before the last -/
  parents : List String
  /-- the last part -/
  last : String

/-- A statement of a document. -/
inductive Statement where
  /-- a value for a name, in the table of the latest header -/
  | pair (key : Key) (value : Value)
  /-- the header of a table -/
  | header (key : Key)
  /-- the header of an element of an array of tables -/
  | element (key : Key)

namespace Document

/-- How a table came about. -/
inductive Origin where
  /-- by its own header or inline -/
  | explicit
  /-- as a parent in a header -/
  | header
  /-- as a parent in a dotted key -/
  | dotted
  deriving DecidableEq

/-- What is known of a name while a document is read. -/
inductive Item where
  /-- a value -/
  | value (v : Value)
  /-- a table and its origin -/
  | table (origin : Origin) (entries : List (String × Item))
  /-- an array of tables, latest first -/
  | tables (elements : List (List (String × Item)))

/-- Named items, in the order of their first mention. -/
abbrev Items := List (String × Item)

/-- Replaces the item of a name, or adds one at the end. -/
def alter (name : String) (f : Option Item → Option Item) : Items → Option Items
  | [] => (f none).map fun item => [(name, item)]
  | (n, item) :: items =>
    if n = name then (f (some item)).map fun item => (n, item) :: items
    else (alter name f items).map ((n, item) :: ·)

/-- Goes down a path and changes the table at its end. Tables that are missing on the way come about
with the given origin; those of some origins bar the way. In an array of tables the way goes on
in the latest element. -/
def descend (created : Origin) (bars : Origin → Bool) (f : Origin → Items → Option Items) :
    List String → Origin → Items → Option Items
  | [], origin, items => f origin items
  | name :: path, _, items =>
    items |> alter name fun
      | none => (descend created bars f path created []).map (.table created)
      | some (.table origin entries) =>
        if bars origin then none
        else (descend created bars f path origin entries).map (.table origin)
      | some (.tables (latest :: earlier)) =>
        (descend created bars f path .explicit latest).map fun entries =>
          .tables (entries :: earlier)
      | some (.tables []) | some (.value _) => none

/-- Gives a value to a name. -/
def addPair (key : Key) (value : Value) (items : Items) : Option Items :=
  descend .dotted (· = .explicit)
    (fun origin items =>
      if key.parents ≠ [] ∧ origin ≠ .dotted then none
      else items |> alter key.last fun
        | none => some (.value value)
        | some _ => none)
    key.parents .explicit items

/-- Goes down a path of headers and changes the item at its end. -/
def addHeader (key : Key) (f : Option Item → Option Item) (items : Items) : Option Items :=
  descend .header (fun _ => false) (fun _ items => alter key.last f items) key.parents .explicit
    items

/-- The item of a table that gets its header. -/
def headed : Option Item → Option Item
  | none => some (.table .explicit [])
  | some (.table .header entries) => some (.table .explicit entries)
  | some _ => none

/-- The item of an array of tables that gets another element. -/
def extended : Option Item → Option Item
  | none => some (.tables [[]])
  | some (.tables elements) => some (.tables ([] :: elements))
  | some _ => none

/-- Follows a statement. `current` is the path to the table of the latest header. -/
def step (current : List String) (items : Items) : Statement → Option (List String × Items)
  | .pair key value => do
    let items ← descend .header (fun _ => false) (fun _ items => addPair key value items)
      current .explicit items
    return (current, items)
  | .header key => do
    return (key.parents ++ [key.last], ← addHeader key headed items)
  | .element key => do
    return (key.parents ++ [key.last], ← addHeader key extended items)

mutual

/-- The value of an item. -/
def Item.toValue : Item → Value
  | .value v => v
  | .table _ entries => .table (toTable entries)
  | .tables elements => .array (toArray elements).reverse

/-- The values of named items. -/
def toTable : List (String × Item) → Table
  | [] => []
  | (name, item) :: items => (name, item.toValue) :: toTable items

/-- The values of the elements of an array of tables. -/
def toArray : List (List (String × Item)) → List Value
  | [] => []
  | items :: rest => .table (toTable items) :: toArray rest

end

/-- The table that a list of statements builds up. -/
def toTable? (statements : List Statement) : Option Table := do
  let (_, items) ← statements.foldlM (fun (current, items) s => step current items s) ([], [])
  return toTable items

/-- The table that is written inline. -/
def inline? (pairs : List (Key × Value)) : Option Table := do
  let items ← pairs.foldlM (fun items (key, value) => addPair key value items) []
  return toTable items

end Document

end PermissionedLedger.Toml
