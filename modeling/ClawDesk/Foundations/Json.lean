import Mathlib.Data.List.Basic

/-!
# JSON values

The values that flow through a pipeline, and their compact rendering.  A number
is kept as the text it is printed as; the members of an object are kept in the
order in which they are printed.
-/

namespace ClawDesk.Foundations

inductive Json where
  | null
  | bool (b : Bool)
  | number (text : String)
  | string (s : String)
  | array (items : List Json)
  | object (members : List (String × Json))

namespace Json

/-- The member of an object under `name`; nothing for any other value. -/
def get : Json → String → Option Json
  | object members, name => members.lookup name
  | _, _ => none

/-- The lower-case hexadecimal digit of `n < 16`. -/
def hexDigit (n : ℕ) : Char :=
  if n < 10 then Char.ofNat (48 + n) else Char.ofNat (87 + n)

/-- A character inside a quoted string: the quote, the backslash and the control
characters are escaped, everything else stands for itself. -/
def escapeChar (c : Char) : List Char :=
  match c.toNat with
  | 34 => ['\\', Char.ofNat 34]
  | 92 => ['\\', '\\']
  | 8 => ['\\', 'b']
  | 9 => ['\\', 't']
  | 10 => ['\\', 'n']
  | 12 => ['\\', 'f']
  | 13 => ['\\', 'r']
  | n => if n < 32 then ['\\', 'u', '0', '0', hexDigit (n / 16), hexDigit (n % 16)] else [c]

def quote (s : String) : String :=
  String.ofList ([Char.ofNat 34] ++ s.toList.flatMap escapeChar ++ [Char.ofNat 34])

mutual

/-- The compact rendering of a value. -/
def render : Json → String
  | null => "null"
  | bool b => if b then "true" else "false"
  | number text => text
  | string s => quote s
  | array items => "[" ++ ",".intercalate (renderItems items) ++ "]"
  | object members => "\x7b" ++ ",".intercalate (renderMembers members) ++ "\x7d"

def renderItems : List Json → List String
  | [] => []
  | v :: rest => render v :: renderItems rest

def renderMembers : List (String × Json) → List String
  | [] => []
  | (name, v) :: rest => (quote name ++ ":" ++ render v) :: renderMembers rest

end

end Json

end ClawDesk.Foundations
