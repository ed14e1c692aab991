import Reactivity.Template.Error
import Reactivity.Template.Shape

namespace Reactivity.Template

/-- The text itself if it is one block in braces; a semicolon after the block is dropped. -/
def block? (s : Source) : Option Source :=
  match s with
  | [] => none
  | b :: r =>
    if b = Bracket.brace.opening then
      match Bracket.brace.split? r with
      | none => none
      | some (inside, rest) =>
        let trailing := trim rest
        if trailing = [] ∨ trailing = [Source.semicolon] then
          some (Bracket.brace.opening :: (inside ++ [Bracket.brace.closing]))
        else none
    else none

/-- Splits a method into its parameters, without parentheses, and its body. -/
def methodParts? (s : Source) : Option (Source × Source) :=
  let n := identifierLength s
  if n = 0 then none
  else
    match trimStart (s.drop n) with
    | [] => none
    | b :: r =>
      if b = Bracket.paren.opening then
        (Bracket.paren.split? r).map fun (parameters, rest) => (parameters, trim rest)
      else none

/-- Removes the words that may stand before the name of a class member. -/
def withoutModifiers (s : Source) : Source :=
  let s := (dropWord? (Source.ofString "static") s).getD s
  (dropWord? (Source.ofString "get") s <|> dropWord? (Source.ofString "set") s).getD s

def functionText (modifier parameters body : Source) : Source :=
  modifier ++ Source.ofString "function(" ++ parameters ++ Source.ofString ") " ++ body

/-- The block that returns an expression. Where the expression ends in a line comment, the
parenthesis that closes it stands on the next line. -/
def returnBlock (expression : Source) : Source :=
  let close :=
    if Bracket.paren.closesAtEnd (expression ++ [Bracket.paren.closing]) then [Bracket.paren.closing]
    else [Source.newline, Bracket.paren.closing]
  Bracket.brace.opening :: Source.ofString " return (" ++ expression ++ close
    ++ Source.ofString "; " ++ [Bracket.brace.closing]

def arrowBlock? (body : Source) : Option Source :=
  let body := trim body
  match block? body with
  | some block => some block
  | none =>
    let expression := trimEnd (dropTrailing Source.semicolon body)
    if expression = [] then none else some (returnBlock expression)

/-- Brings a function to the form with the word `function` and a block body. A text that starts
with that word stays as it is, apart from white space around it. -/
def normalForm (source : Source) : Except TemplateError Source :=
  let s := trim source
  let (modifier, rest) :=
    match dropWord? (Source.ofString "async") s with
    | some rest => (Source.ofString "async ", rest)
    | none => ([], s)
  if startsFunction rest then .ok s
  else
    match arrowParts? rest with
    | some (parameters, body) =>
      match arrowBlock? body with
      | some block => .ok (functionText modifier parameters block)
      | none => .error .unrecognizedFunction
    | none =>
      match methodParts? rest <|> methodParts? (withoutModifiers rest) with
      | none => .error .unrecognizedFunction
      | some (parameters, body) =>
        match block? body with
        | some block => .ok (functionText modifier parameters block)
        | none => .error .unrecognizedFunction

end Reactivity.Template
