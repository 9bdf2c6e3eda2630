/-!
# Reading text

A reader takes what it reads from the front of a text and gives back the rest, or
fails. `many` repeats a reader as long as it succeeds and takes something.

Also here are the characters and the blanks of TOML: spaces and tabs, line ends
with or without a carriage return, and comments, in which no control character but
the tab may occur.
-/

namespace PermissionedLedger.Toml

/-- Reads something from the front of a text. -/
abbrev Reader (α : Type) := List Char → Option (α × List Char)

variable {α : Type}

/-- Repeats a reader until it fails or takes nothing. -/
def many (read : Reader α) (cs : List Char) : List α × List Char :=
  match read cs with
  | none => ([], cs)
  | some (a, rest) =>
    if rest.length < cs.length then
      let (as, rest) := many read rest
      (a :: as, rest)
    else ([], cs)
termination_by cs.length

/-- Takes a given character. -/
def one (c : Char) : Reader Unit
  | d :: cs => if d = c then some ((), cs) else none
  | [] => none

/-- Takes a given word. -/
def word : List Char → Reader Unit
  | [], cs => some ((), cs)
  | c :: w, cs =>
    match one c cs with
    | some ((), rest) => word w rest
    | none => none

/-- Whether a character is a space or a tab. -/
def isSpace (c : Char) : Bool := c = ' ' || c = '\t'

/-- Whether a character may stand in comments and, quotes apart, in strings: all but control
characters, of which only the tab may. -/
def isPlain (c : Char) : Bool := c = '\t' || (' ' ≤ c && c ≠ '\x7f')

/-- The text after spaces and tabs. -/
def skipSpaces (cs : List Char) : List Char := cs.dropWhile isSpace

/-- Takes the end of a line. -/
def newline : Reader Unit
  | '\n' :: cs => some ((), cs)
  | '\r' :: '\n' :: cs => some ((), cs)
  | _ => none

/-- The text after a comment, if one begins here. -/
def skipComment : List Char → List Char
  | '#' :: cs => cs.dropWhile isPlain
  | cs => cs

/-- Takes what may follow the last item of a line: blanks, a comment, and the end of the line or of
the text. -/
def lineEnd (cs : List Char) : Option (List Char) :=
  match skipComment (skipSpaces cs) with
  | [] => some []
  | cs => (newline cs).map (·.2)

/-- Takes one piece of blank space between the items of an array. -/
def blank : Reader Unit
  | [] => none
  | c :: cs =>
    if isSpace c then some ((), cs)
    else newline (skipComment (c :: cs))

/-- The text after blank space between the items of an array. -/
def skipBlanks (cs : List Char) : List Char := (many blank cs).2

end PermissionedLedger.Toml
