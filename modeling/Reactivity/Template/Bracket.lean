import Reactivity.Template.Source

namespace Reactivity.Template

/-- A pair of brackets. -/
inductive Bracket
  | paren
  | square
  | brace
  deriving DecidableEq, Repr

def Bracket.opening : Bracket → UInt8
  | .paren => 0x28
  | .square => 0x5B
  | .brace => 0x7B

def Bracket.closing : Bracket → UInt8
  | .paren => 0x29
  | .square => 0x5D
  | .brace => 0x7D

/-- What a position of the text is directly inside of. -/
inductive Frame
  /-- Code in which one pair of brackets is counted; `depth` of them are open. -/
  | code (bracket : Bracket) (depth : Nat)
  /-- The text of a template literal. -/
  | template
  /-- A string literal with the given quote. -/
  | quoted (quote : UInt8)
  | lineComment
  | blockComment
  deriving DecidableEq, Repr

/-- Walks the text from offset `i` under a stack of frames, to the offset of the byte that closes
the last of them. A string ends at its quote or at a line break, a line comment at a line break;
a backslash keeps the next byte of a string or template from ending it. -/
def closeFrom : List Frame → Nat → Source → Option Nat
  | [], _, _ => none
  | _ :: _, _, [] => none
  | .quoted q :: st, i, b :: r =>
    if b = Source.backslash then
      match r with
      | [] => none
      | _ :: r' => closeFrom (.quoted q :: st) (i + 2) r'
    else if b = Source.newline ∨ b = q then closeFrom st (i + 1) r
    else closeFrom (.quoted q :: st) (i + 1) r
  | .lineComment :: st, i, b :: r =>
    if b = Source.newline then closeFrom st (i + 1) r
    else closeFrom (.lineComment :: st) (i + 1) r
  | .blockComment :: st, i, b :: r =>
    match r with
    | [] => none
    | c :: r' =>
      if b = Source.star ∧ c = Source.slash then closeFrom st (i + 2) r'
      else closeFrom (.blockComment :: st) (i + 1) (c :: r')
  | .template :: st, i, b :: r =>
    if b = Source.backslash then
      match r with
      | [] => none
      | _ :: r' => closeFrom (.template :: st) (i + 2) r'
    else if b = Source.backtick then closeFrom st (i + 1) r
    else if b = Source.dollar then
      match r with
      | [] => none
      | c :: r' =>
        if c = Bracket.brace.opening then
          closeFrom (.code .brace 0 :: .template :: st) (i + 2) r'
        else closeFrom (.template :: st) (i + 1) (c :: r')
    else closeFrom (.template :: st) (i + 1) r
  | .code k d :: st, i, b :: r =>
    if b = Source.doubleQuote ∨ b = Source.singleQuote then
      closeFrom (.quoted b :: .code k d :: st) (i + 1) r
    else if b = Source.backtick then closeFrom (.template :: .code k d :: st) (i + 1) r
    else if b = Source.slash then
      match r with
      | [] => none
      | c :: r' =>
        if c = Source.slash then closeFrom (.lineComment :: .code k d :: st) (i + 2) r'
        else if c = Source.star then closeFrom (.blockComment :: .code k d :: st) (i + 2) r'
        else closeFrom (.code k d :: st) (i + 1) (c :: r')
    else if b = k.closing then
      match d, st with
      | 0, [] => some i
      | 0, _ :: _ => closeFrom st (i + 1) r
      | d' + 1, _ => closeFrom (.code k d' :: st) (i + 1) r
    else if b = k.opening then closeFrom (.code k (d + 1) :: st) (i + 1) r
    else closeFrom (.code k d :: st) (i + 1) r

def Bracket.close? (k : Bracket) (s : Source) : Option Nat :=
  closeFrom [.code k 0] 0 s

/-- Whether a bracket opened just before the text is closed by the last byte of it. -/
def Bracket.closesAtEnd (k : Bracket) (s : Source) : Bool :=
  (k.close? s).map (· + 1) == some s.length

/-- The text between a bracket opened just before it and the closing one, and what follows. -/
def Bracket.split? (k : Bracket) (s : Source) : Option (Source × Source) :=
  (k.close? s).map fun close => (s.take close, s.drop (close + 1))

theorem Bracket.split?_length_le {k : Bracket} {s inside rest : Source}
    (h : k.split? s = some (inside, rest)) : rest.length ≤ s.length := by
  obtain ⟨close, -, hc⟩ := Option.map_eq_some_iff.1 h
  cases hc
  simp only [List.length_drop]
  omega

end Reactivity.Template
