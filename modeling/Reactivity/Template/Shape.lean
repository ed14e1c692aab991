import Reactivity.Template.Bracket
import Reactivity.Template.Options

namespace Reactivity.Template

/-- What an expression is, as far as isolation is concerned. -/
inductive Shape
  /-- An ordinary expression, the one shape that is isolated. -/
  | ordinary
  /-- A call of the isolating function already. -/
  | isolated
  /-- A call of a function whose result must reach the template untouched. -/
  | passedThrough
  /-- A function, such as an event handler. -/
  | function
  /-- Content rendered elsewhere. -/
  | child
  /-- White space only. -/
  | blank
  deriving DecidableEq, Repr

/-- Whether the text is one call of the named function, up to its last byte. -/
def isCallOf (name s : Source) : Bool :=
  match name, dropPrefix? name s with
  | [], _ => false
  | _, none => false
  | _, some rest =>
    match trimStart rest with
    | [] => false
    | b :: arguments => b == Bracket.paren.opening && Bracket.paren.closesAtEnd arguments

/-- Splits an arrow function into its parameters, without parentheses, and what follows the
arrow. -/
def arrowParts? (s : Source) : Option (Source × Source) := do
  let (parameters, rest) ←
    match s with
    | [] => none
    | b :: r =>
      if b = Bracket.paren.opening then Bracket.paren.split? r
      else
        let n := identifierLength s
        if n = 0 then none else some (s.take n, s.drop n)
  let body ← dropPrefix? (Source.ofString "=>") (trimStart rest)
  return (parameters, body)

/-- Whether the text starts with the word that begins a function, or a generator function. -/
def startsFunction (s : Source) : Bool :=
  (dropWord? (Source.ofString "function") s).isSome
    || (dropPrefix? (Source.ofString "function*") s).isSome

/-- Whether the text is a function or an arrow function, asynchronous or not. -/
def isFunction (s : Source) : Bool :=
  let s := (dropWord? (Source.ofString "async") s).getD s
  startsFunction s || (arrowParts? s).isSome

/-- Removes one property access from the front: a name after a dot or question mark and dot, or an
index in square brackets. -/
def dropAccess? (s : Source) : Option Source :=
  match dropPrefix? [Source.question, Source.dot] s <|> dropPrefix? [Source.dot] s with
  | some after =>
    let after := trimStart after
    let n := identifierLength after
    if n = 0 then none else some (after.drop n)
  | none =>
    match s with
    | [] => none
    | b :: r => if b = Bracket.square.opening then (Bracket.square.split? r).map (·.2) else none

theorem dropAccess?_length_lt {s r : Source} (h : dropAccess? s = some r) :
    r.length < s.length := by
  have key {p q : Source} (hp : dropPrefix? p s = some q) (hpos : 0 < p.length)
      (n : Nat) : ((trimStart q).drop n).length < s.length := by
    have := trimStart_length_le q
    rw [dropPrefix?_eq_some_iff.1 hp]
    simp only [List.length_drop, List.length_append]
    omega
  unfold dropAccess? at h
  split at h
  · next after ha =>
    simp only at h
    split at h
    · cases h
    · cases h
      rcases hp : dropPrefix? [Source.question, Source.dot] s with _ | q
      · rw [hp] at ha
        exact key ha (by decide) _
      · rw [hp] at ha
        cases ha
        exact key hp (by decide) _
  · split at h
    · cases h
    · split at h
      · obtain ⟨⟨inside, rest⟩, hc, rfl⟩ := Option.map_eq_some_iff.1 h
        have := Bracket.split?_length_le hc
        simp only [List.length_cons]
        omega
      · cases h

def onlyAccesses (s : Source) : Bool :=
  let s' := trimStart s
  if s' = [] then true
  else
    match _h : dropAccess? s' with
    | none => false
    | some rest => onlyAccesses rest
termination_by s.length
decreasing_by exact Nat.lt_of_lt_of_le (dropAccess?_length_lt _h) (trimStart_length_le s)

/-- Whether the text is the given beginning, followed by nothing but property accesses. -/
def isChildAccess (s beginning : Source) : Bool :=
  match dropPrefix? beginning s with
  | none => false
  | some rest => onlyAccesses rest

def Shape.of (o : Options) (expression : Source) : Shape :=
  let s := trim expression
  if s = [] then .blank
  else if isCallOf o.isolator s then .isolated
  else if o.passthrough.any (isCallOf · s) then .passedThrough
  else if isFunction s then .function
  else if o.childRefs.any (isChildAccess s) then .child
  else .ordinary

end Reactivity.Template
