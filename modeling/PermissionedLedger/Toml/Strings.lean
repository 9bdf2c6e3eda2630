import PermissionedLedger.Bytes.Hex
import PermissionedLedger.Toml.Scan

/-!
# Strings

A string is *basic*, between double quotes and with escapes, or *literal*, between
single quotes and taken as it is. Either kind may span lines if its quotes are
tripled; then a line end right after the opening quotes does not count, and up to
two quotes may stand before the closing ones.

Written strings take the plainest form that they allow (`write`).
-/

namespace PermissionedLedger.Toml.Strings

/-- Puts a character in front of what was read. -/
def push (c : Char) (r : Option (List Char × List Char)) : Option (List Char × List Char) :=
  r.map fun (text, rest) => (c :: text, rest)

/-- The character that an escape with one letter stands for. -/
def escape? : Char → Option Char
  | 'b' => some '\x08'
  | 't' => some '\t'
  | 'n' => some '\n'
  | 'f' => some '\x0c'
  | 'r' => some '\r'
  | '"' => some '"'
  | '\\' => some '\\'
  | _ => none

/-- The character whose code point the digits spell. -/
def codePoint? (digits : List Char) : Option Char := do
  let ds ← digits.mapM Hex.digit?
  let n := ds.foldl (fun acc d => 16 * acc + d) 0
  if n.isValidChar then some (Char.ofNat n) else none

/-- The rest of a basic string on one line. -/
def readBasic : Reader (List Char)
  | '"' :: cs => some ([], cs)
  | '\\' :: 'u' :: a :: b :: c :: d :: cs => do push (← codePoint? [a, b, c, d]) (readBasic cs)
  | '\\' :: 'U' :: a :: b :: c :: d :: e :: f :: g :: h :: cs => do
    push (← codePoint? [a, b, c, d, e, f, g, h]) (readBasic cs)
  | '\\' :: c :: cs => do push (← escape? c) (readBasic cs)
  | c :: cs => if isPlain c then push c (readBasic cs) else none
  | [] => none

/-- The rest of a literal string on one line. -/
def readLiteral : Reader (List Char)
  | '\'' :: cs => some ([], cs)
  | c :: cs => if isPlain c then push c (readLiteral cs) else none
  | [] => none

/-- The end of a string with tripled quotes, after three of them: up to two more belong to the
text, and the last three close it. -/
def closing (quote : Char) : List Char → List Char × List Char
  | a :: b :: cs =>
    if a ≠ quote then ([], a :: b :: cs)
    else if b ≠ quote then ([quote], b :: cs)
    else ([quote, quote], cs)
  | [a] => if a = quote then ([quote], []) else ([], [a])
  | [] => ([], [])

/-- Where a multi-line basic string stands. -/
inductive Position where
  /-- in its text -/
  | text
  /-- after a backslash that has to be followed by the end of the line -/
  | lastOfLine
  /-- in the blanks after such a line -/
  | margin
  deriving DecidableEq

/-- The rest of a multi-line basic string. A backslash at the end of a line takes away the line end
and all blanks after it. -/
def readBasicLines : Position → Reader (List Char)
  | _, [] => none
  | .lastOfLine, '\r' :: '\n' :: cs => readBasicLines .margin cs
  | .lastOfLine, c :: cs =>
    if c = '\n' then readBasicLines .margin cs
    else if isSpace c then readBasicLines .lastOfLine cs
    else none
  | _, '"' :: '"' :: '"' :: cs => some (closing '"' cs)
  | _, '\\' :: 'u' :: a :: b :: c :: d :: cs => do
    push (← codePoint? [a, b, c, d]) (readBasicLines .text cs)
  | _, '\\' :: 'U' :: a :: b :: c :: d :: e :: f :: g :: h :: cs => do
    push (← codePoint? [a, b, c, d, e, f, g, h]) (readBasicLines .text cs)
  | _, '\\' :: '\r' :: '\n' :: cs => readBasicLines .margin cs
  | _, '\\' :: c :: cs =>
    if c = '\n' then readBasicLines .margin cs
    else if isSpace c then readBasicLines .lastOfLine cs
    else do push (← escape? c) (readBasicLines .text cs)
  | position, '\r' :: '\n' :: cs =>
    if position = .margin then readBasicLines .margin cs
    else push '\n' (readBasicLines .text cs)
  | position, c :: cs =>
    if position = .margin && (isSpace c || c = '\n') then readBasicLines .margin cs
    else if isPlain c || c = '\n' then push c (readBasicLines .text cs)
    else none

/-- The rest of a multi-line literal string. -/
def readLiteralLines : Reader (List Char)
  | '\'' :: '\'' :: '\'' :: cs => some (closing '\'' cs)
  | '\r' :: '\n' :: cs => push '\n' (readLiteralLines cs)
  | c :: cs => if isPlain c || c = '\n' then push c (readLiteralLines cs) else none
  | [] => none

/-- The text after a line end, if one stands here. -/
def skipNewline (cs : List Char) : List Char := ((newline cs).map (·.2)).getD cs

/-- A string on one line, as keys are. -/
def readLine : Reader (List Char)
  | '"' :: cs => readBasic cs
  | '\'' :: cs => readLiteral cs
  | _ => none

/-- A string of any form. -/
def read : Reader (List Char)
  | '"' :: '"' :: '"' :: cs => readBasicLines .text (skipNewline cs)
  | '\'' :: '\'' :: '\'' :: cs => readLiteralLines (skipNewline cs)
  | cs => readLine cs

/-! ## Writing -/

/-- The longest run of a character in a text, given the length of the run before it. -/
def longestRun (c : Char) : (run : Nat) → List Char → Nat
  | run, [] => run
  | run, d :: cs => if d = c then longestRun c (run + 1) cs else max run (longestRun c 0 cs)

/-- Whether a character can only be written as an escape. -/
def isControl (c : Char) : Bool := !isPlain c && c ≠ '\n'

/-- A character by its number, which has four digits. -/
def numbered (c : Char) : List Char :=
  let digits := (Nat.toDigits 16 c.toNat).map Char.toUpper
  '\\' :: 'u' :: (List.replicate (4 - digits.length) '0' ++ digits)

/-- A character as it stands in a basic string. -/
def escaped (isMultiLine : Bool) (c : Char) : List Char :=
  match c with
  | '\x08' => ['\\', 'b']
  | '\t' => ['\\', 't']
  | '\n' => if isMultiLine then ['\n'] else ['\\', 'n']
  | '\x0c' => ['\\', 'f']
  | '\r' => ['\\', 'r']
  | '\\' => ['\\', '\\']
  | c => if isControl c then numbered c else [c]

/-- A text between double quotes, of which no more than `limit` stand in a row without an escape;
`run` of them stand before it. -/
def escapedText (isMultiLine : Bool) (limit : Nat) : (run : Nat) → List Char → List Char
  | _, [] => []
  | run, c :: cs =>
    if c = '"' then
      if run < limit then '"' :: escapedText isMultiLine limit (run + 1) cs
      else '\\' :: '"' :: escapedText isMultiLine limit 0 cs
    else escaped isMultiLine c ++ escapedText isMultiLine limit 0 cs

/-- A text between tripled quotes; one that spans lines begins on a new one. -/
def tripled (quote : Char) (text body : List Char) : List Char :=
  let quotes := [quote, quote, quote]
  quotes ++ (if '\n' ∈ text then ['\n'] else []) ++ body ++ quotes

/-- A string in the first of these forms that does without escapes (the tab apart): basic,
literal, multi-line basic, multi-line literal. If none does, it is basic and has escapes. -/
def write (text : List Char) : List Char :=
  let hasControl := text.any isControl
  let hasBackslash := '\\' ∈ text
  let hasNewline := '\n' ∈ text
  let basicLines := tripled '"' text (escapedText true 2 0 text)
  let basic := '"' :: escapedText false 0 0 text ++ ['"']
  if !hasControl && !hasBackslash && !hasNewline && !text.contains '"' then basic
  else if !hasControl && !hasNewline && !text.contains '\'' then '\'' :: text ++ ['\'']
  else if !hasControl && !hasBackslash && longestRun '"' 0 text ≤ 2 then basicLines
  else if !hasControl && longestRun '\'' 0 text ≤ 2 then tripled '\'' text text
  else if hasNewline then basicLines
  else basic

end PermissionedLedger.Toml.Strings
