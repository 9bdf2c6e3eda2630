import PermissionedLedger.Toml.Document
import PermissionedLedger.Toml.Number
import PermissionedLedger.Toml.Strings

/-!
# The syntax of TOML

Statements stand on lines of their own. Arrays and inline tables may be nested up to
a limit, and so many parts a name may have. `parse?` reads a whole document.
-/

namespace PermissionedLedger.Toml

/-- How deep arrays and inline tables may be nested, and how many parts a name may have. -/
def maxDepth : Nat := 79

/-! ## Names -/

/-- Whether a character may stand in a name without quotes. -/
def isBare (c : Char) : Bool := c.isAlphanum || c = '_' || c = '-'

/-- One part of a name. -/
def readPart (cs : List Char) : Option (String × List Char) :=
  match cs.takeWhile isBare with
  | [] => (Strings.readLine cs).map fun (text, rest) => (String.ofList text, rest)
  | bare => some (String.ofList bare, cs.dropWhile isBare)

/-- One part of a name, with blanks around it. -/
def readSpacedPart (cs : List Char) : Option (String × List Char) :=
  (readPart (skipSpaces cs)).map fun (part, rest) => (part, skipSpaces rest)

/-- A further part of a name, after a point. -/
def readNextPart : Reader String
  | '.' :: cs => readSpacedPart cs
  | _ => none

/-- The name that a list of parts makes. -/
def Key.ofParts (first : String) (more : List String) : Key :=
  ⟨(first :: more).dropLast, (more.getLast?).getD first⟩

/-- A name of one or more parts. -/
def readKey (cs : List Char) : Option (Key × List Char) := do
  let (first, cs) ← readSpacedPart cs
  let (more, cs) := many readNextPart cs
  if maxDepth ≤ more.length then none else return (.ofParts first more, cs)

/-! ## Values -/

/-- What was taken from the front of a text, given the rest. -/
def taken (cs rest : List Char) : List Char := cs.take (cs.length - rest.length)

/-- A number or a date. -/
def readNumber (cs : List Char) : Option (Value × List Char) :=
  match Number.readMoment cs with
  | some rest => some (.moment (taken cs rest), rest)
  | none =>
    match Number.readFloat cs with
    | some rest => some (.float (taken cs rest), rest)
    | none => (Number.readInteger cs).map fun (n, rest) => (.integer n, rest)

/-- A value that holds no other values. -/
def readScalar (cs : List Char) : Option (Value × List Char) :=
  match cs with
  | '"' :: _ | '\'' :: _ => (Strings.read cs).map fun (s, rest) => (.string (String.ofList s), rest)
  | 't' :: 'r' :: 'u' :: 'e' :: rest => some (.boolean true, rest)
  | 'f' :: 'a' :: 'l' :: 's' :: 'e' :: rest => some (.boolean false, rest)
  | _ => readNumber cs

/-- Items with a separator between them, each with blanks around it. -/
def readItems {α : Type} (skip : List Char → List Char) (separator : Char) (item : Reader α)
    (cs : List Char) : Option (List α × List Char) := do
  let spaced (cs : List Char) : Option (α × List Char) :=
    (item (skip cs)).map fun (a, rest) => (a, skip rest)
  match spaced cs with
  | none => return ([], cs)
  | some (first, cs) =>
    let (more, cs) := many (fun cs => (one separator cs).bind fun (_, cs) => spaced cs) cs
    return (first :: more, cs)

/-- The items of an array and its end; the last item may be followed by a comma. -/
def readArray (item : Reader Value) (cs : List Char) : Option (Value × List Char) := do
  let (items, cs) ← readItems skipBlanks ',' item cs
  let cs := if items.isEmpty then cs else ((one ',' cs).map (·.2)).getD cs
  let (_, cs) ← one ']' (skipBlanks cs)
  return (.array items, cs)

/-- A name, the sign of equality, and a value. -/
def readPair (value : Reader Value) (cs : List Char) : Option ((Key × Value) × List Char) := do
  let (key, cs) ← readKey cs
  let (_, cs) ← one '=' cs
  let (v, cs) ← value (skipSpaces cs)
  return ((key, v), cs)

/-- The pairs of an inline table and its end. -/
def readInline (value : Reader Value) (cs : List Char) : Option (Value × List Char) := do
  let (pairs, cs) ← readItems skipSpaces ',' (readPair value) cs
  let (_, cs) ← one '}' (skipSpaces cs)
  return (.table (← Document.inline? pairs), cs)

/-- A value; arrays and inline tables may be nested in it up to a depth. -/
def readValue : (depth : Nat) → Reader Value
  | depth + 1, '[' :: cs => readArray (readValue depth) cs
  | depth + 1, '{' :: cs => readInline (readValue depth) cs
  | _, cs => readScalar cs

/-! ## Statements -/

/-- A header. -/
def readHeader (cs : List Char) : Option (Statement × List Char) :=
  match cs with
  | '[' :: '[' :: cs => do
    let (key, cs) ← readKey cs
    let (_, cs) ← word [']', ']'] cs
    return (.element key, cs)
  | '[' :: cs => do
    let (key, cs) ← readKey cs
    let (_, cs) ← one ']' cs
    return (.header key, cs)
  | _ => none

/-- A statement and the rest of its line. -/
def readStatement (cs : List Char) : Option (Statement × List Char) := do
  let (statement, cs) ←
    match cs with
    | '[' :: _ => readHeader cs
    | _ => (readPair (readValue maxDepth) cs).map fun ((key, v), cs) => (.pair key v, cs)
  return (statement, ← lineEnd cs)

/-- A line: a statement, or nothing but blanks and a comment. -/
def readLine (cs : List Char) : Option (Option Statement × List Char) :=
  let cs := skipSpaces cs
  match cs with
  | '#' :: _ | '\n' :: _ | '\r' :: _ => (lineEnd cs).map fun rest => (none, rest)
  | _ => (readStatement cs).map fun (statement, rest) => (some statement, rest)

/-- The statements of a document. A byte order mark in front of it does not count. -/
def readStatements? (cs : List Char) : Option (List Statement) :=
  let cs := if cs.head? = some '\ufeff' then cs.tail else cs
  let (lines, rest) := many readLine cs
  if skipSpaces rest = [] then some (lines.filterMap id) else none

/-- The table that a document says. -/
def parse? (text : String) : Option Table := (readStatements? text.toList).bind Document.toTable?

end PermissionedLedger.Toml
