/-!
# TOML values

What a TOML document says, with the notation forgotten: a table of named values.
Tables that are written as sections, with dotted keys or inline are all tables, and
a sequence of sections of one name is an array of tables.

Floats and dates are kept as they are written, since nothing here computes with
them.
-/

namespace PermissionedLedger.Toml

/-- A value of a document. -/
inductive Value where
  /-- text -/
  | string (text : String)
  /-- a 64-bit integer -/
  | integer (n : Int)
  /-- a float, as written -/
  | float (text : List Char)
  /-- a truth value -/
  | boolean (b : Bool)
  /-- a date, a time, or both, as written -/
  | moment (text : List Char)
  /-- a list of values -/
  | array (items : List Value)
  /-- named values -/
  | table (entries : List (String × Value))

/-- Named values in the order of their first mention. -/
abbrev Table := List (String × Value)

end PermissionedLedger.Toml
