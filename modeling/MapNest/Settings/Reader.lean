import MapNest.Settings.Basic

/-!
# `MapNest.Settings.Reader`: settings files

A settings file assigns truth values to switches, one assignment on a line:

    optimize_kernels = false   # a comment

Blank lines and comments may stand anywhere. The key may be bare, or quoted; between double quotes
a character may be given by its code. A switch may be set once, and one that is not set keeps its
default. Everything else is refused as a whole.
-/

set_option autoImplicit false

namespace MapNest

namespace SettingsFile

/-- The lines of a text. A line ends at a line feed, or at a carriage return followed by one. -/
def splitLines : List Char → List (List Char)
  | [] => [[]]
  | '\r' :: '\n' :: rest => [] :: splitLines rest
  | '\n' :: rest => [] :: splitLines rest
  | c :: rest =>
    match splitLines rest with
    | l :: ls => (c :: l) :: ls
    | [] => [[c]]

/-- Spaces and tabs. -/
def isBlank (c : Char) : Bool := c = ' ' ∨ c = '\t'

/-- The text after its leading spaces and tabs. -/
def skipBlanks (cs : List Char) : List Char := cs.dropWhile isBlank

/-- The characters of comments: everything but control characters, tabs excepted. -/
def isCommentChar (c : Char) : Bool := c = '\t' ∨ (32 ≤ c.toNat ∧ c.toNat ≠ 127)

/-- Nothing stands on the rest of the line but a comment. -/
def isLineEnd : List Char → Bool
  | [] => true
  | c :: rest => c = '#' && rest.all isCommentChar

/-- The characters of keys without quotes. -/
def isBareChar (c : Char) : Bool := c.isAlphanum ∨ c = '_' ∨ c = '-'

/-- The value of a hexadecimal digit. -/
def hexDigit? (c : Char) : Option Nat :=
  if c.isDigit then some (c.toNat - 48)
  else if 97 ≤ c.toNat ∧ c.toNat ≤ 102 then some (c.toNat - 87)
  else if 65 ≤ c.toNat ∧ c.toNat ≤ 70 then some (c.toNat - 55)
  else none

/-- The character with the code that some hexadecimal digits spell. -/
def charOfHex? (digits : List Char) : Option Char := do
  let values ← digits.mapM hexDigit?
  let code := values.foldl (fun n d => 16 * n + d) 0
  if code.isValidChar then some (Char.ofNat code) else none

/-- Puts a character in front of a key read so far. -/
def consKey (c : Char) (read : List Char × List Char) : List Char × List Char :=
  (c :: read.1, read.2)

/-- The rest of a key between double quotes, and what follows it. Of the escapes only those for
codes can spell a character of a switch's name. -/
def quotedKey? : List Char → Option (List Char × List Char)
  | '\\' :: 'u' :: a :: b :: c :: d :: rest => do
    let ch ← charOfHex? [a, b, c, d]
    return consKey ch (← quotedKey? rest)
  | '\\' :: 'U' :: a :: b :: c :: d :: e :: f :: g :: h :: rest => do
    let ch ← charOfHex? [a, b, c, d, e, f, g, h]
    return consKey ch (← quotedKey? rest)
  | '\\' :: _ => none
  | '\"' :: rest => some ([], rest)
  | c :: rest => (quotedKey? rest).map (consKey c)
  | [] => none

/-- The key at the start of a text, and what follows it. -/
def key? : List Char → Option (List Char × List Char)
  | '\"' :: rest => quotedKey? rest
  | '\'' :: rest =>
    match rest.dropWhile (· ≠ '\'') with
    | _ :: after => some (rest.takeWhile (· ≠ '\''), after)
    | [] => none
  | cs => some (cs.takeWhile isBareChar, cs.dropWhile isBareChar)

/-- The truth value at the start of a text, and what follows it. -/
def truth? : List Char → Option (Bool × List Char)
  | 't' :: 'r' :: 'u' :: 'e' :: rest => some (true, rest)
  | 'f' :: 'a' :: 'l' :: 's' :: 'e' :: rest => some (false, rest)
  | _ => none

/-- The assignment on a line. -/
def assignment? (cs : List Char) : Option (Switch × Bool) := do
  let (key, rest) ← key? cs
  let switch ← Switch.ofKey? (String.ofList key)
  match skipBlanks rest with
  | '=' :: rest =>
    let (on, rest) ← truth? (skipBlanks rest)
    if isLineEnd (skipBlanks rest) then some (switch, on) else none
  | _ => none

/-- What a line sets, which is nothing on a blank line. -/
def line? (cs : List Char) : Option (List (Switch × Bool)) :=
  let cs := skipBlanks cs
  if isLineEnd cs then some [] else (assignment? cs).map fun a => [a]

/-- The text without the mark of its encoding that may stand at its start. -/
def dropMark : List Char → List Char
  | c :: rest => if c.toNat = 0xFEFF then rest else c :: rest
  | [] => []

/-- The assignments of a file, in order. -/
def assignments? (text : String) : Option (List (Switch × Bool)) := do
  let lines ← (splitLines (dropMark text.toList)).mapM line?
  return lines.flatten

end SettingsFile

/-- The settings of a file: the defaults, but for the switches that it sets. -/
def Settings.ofText? (text : String) : Option Settings := do
  let assignments ← SettingsFile.assignments? text
  if (assignments.map (·.1)).Nodup then
    return assignments.foldl (fun s a => s.set a.1 a.2) {}
  else none

end MapNest
