import Reactivity.Json.Basic
import Reactivity.Number.Shortest

namespace Reactivity.Json

/-- Floats are written positionally from five places after the point to sixteen before it, and
a tie goes to the even digit. -/
def floatLayout : Number.Layout where
  tie := .even
  least := -5
  limit := 16
  plus := "+"
  nan := "null"
  infinity := "null"

/-- The text of a number that is written as a float; JSON has none for infinities. -/
def floatText (x : Number) : String :=
  if x.isFinite then floatLayout.text x else "null"

def hexPair (n : Nat) : List Char :=
  [Nat.digitChar (n / 16), Nat.digitChar (n % 16)]

/-- How a character stands in a string: quotes, backslashes and control characters are escaped. -/
def escapeChar (c : Char) : List Char :=
  if c = '"' then ['\\', '"']
  else if c = '\\' then ['\\', '\\']
  else if ' ' ≤ c then [c]
  else if c = '\x08' then ['\\', 'b']
  else if c = '\t' then ['\\', 't']
  else if c = '\n' then ['\\', 'n']
  else if c = '\x0c' then ['\\', 'f']
  else if c = '\r' then ['\\', 'r']
  else ['\\', 'u', '0', '0'] ++ hexPair c.toNat

def quote (s : String) : String :=
  "\"" ++ String.ofList (s.toList.flatMap escapeChar) ++ "\""

def bracketed (items : List String) : String :=
  "[" ++ String.intercalate "," items ++ "]"

def braced (members : List (String × String)) : String :=
  "\x7b" ++ String.intercalate "," (members.map fun (name, text) => quote name ++ ":" ++ text)
    ++ "\x7d"

mutual

def render : Json → String
  | .null => "null"
  | .bool b => if b then "true" else "false"
  | .int n => toString n
  | .float x => floatText x
  | .string s => quote s
  | .array items => bracketed (renderItems items)
  | .object members => braced (renderMembers members)

def renderItems : List Json → List String
  | [] => []
  | item :: items => render item :: renderItems items

def renderMembers : List (String × Json) → List (String × String)
  | [] => []
  | (name, value) :: members => (name, render value) :: renderMembers members

end

end Reactivity.Json
