import Reactivity.State.Value

namespace Reactivity

/-- Why an operation on reactive state fails. -/
inductive StateError
  /-- A flush was given up with work left after as many rounds as the cap allows. -/
  | cycleDetected (rounds cap : Nat)
  /-- A slot past the end of an array was written. -/
  | indexOutOfBounds (index length : Nat)
  /-- An object was expected. -/
  | notAnObject
  deriving DecidableEq, Repr

def StateError.message : StateError → String
  | .cycleDetected rounds cap =>
    s!"possible reactive cycle: flush aborted after {rounds} rounds (cap {cap})"
  | .indexOutOfBounds index length =>
    s!"index {index} out of bounds for reactive array of length {length}"
  | .notAnObject => "expected a JSON object"

/-- What a flush did. -/
structure FlushReport where
  rounds : Nat
  effectsRun : Nat
  deriving DecidableEq, Repr, Inhabited

/-- What an expression evaluates to. -/
inductive Result
  | nothing
  | value (v : Value)
  /-- A JSON object or array that is not reactive. -/
  | plain (j : Json)
  | list (items : List Result)
  | effect (id : NodeId)
  | memo (id : NodeId)
  | runtime (id : RuntimeId)
  | stats (s : FlushReport)
  | error (e : StateError)
  | thrown (message : String)
  deriving Repr, Inhabited

namespace Result

def ofJson (j : Json) : Result :=
  if j.isContainer then .plain j else .value (.ofPrimitive j)

def ofBool (b : Bool) : Result := .value (.bool b)

def ofNumber (x : Number) : Result := .value (.number x.canonical)

def ofNat (n : Nat) : Result := .ofNumber (.ofInt n)

def ofString (s : String) : Result := .value (.string s)

def ofValue? : Option Value → Result
  | some v => .value v
  | none => .nothing

def ofEntries (entries : List (String × Value)) : Result :=
  .list (entries.map fun (name, v) => .list [.ofString name, .value v])

def ofUnit : Except StateError Unit → Result
  | .ok () => .nothing
  | .error e => .error e

mutual

/-- Equality of results. Values are compared as values, plain containers by content, and effects,
memos and runtimes by identity. -/
def same : Result → Result → Bool
  | .nothing, .nothing => true
  | .value v, .value w => v.same w
  | .plain j, .plain k => j.same k
  | .list xs, .list ys => sameItems xs ys
  | .effect m, .effect n => m == n
  | .memo m, .memo n => m == n
  | .runtime m, .runtime n => m == n
  | .stats s, .stats t => s == t
  | .error d, .error e => d == e
  | .thrown s, .thrown t => s == t
  | _, _ => false

def sameItems : List Result → List Result → Bool
  | [], [] => true
  | x :: xs, y :: ys => same x y && sameItems xs ys
  | _, _ => false

end

def toNumber : Result → Number
  | .value (.number x) => x
  | _ => .zero

def isTrue : Result → Bool
  | .value (.bool true) => true
  | _ => false

end Result

/-- The whole number a number counts as where a place or a count is expected: rounded toward zero,
and brought into the range of 64 bits. -/
def Number.toIndex (x : Number) : Nat :=
  if x.isNaN || x.isNegative then 0
  else if !x.isFinite then Nat.pow 2 64 - 1
  else
    let n :=
      if 0 ≤ x.scale then x.significand * Nat.pow 2 x.scale.toNat
      else x.significand / Nat.pow 2 (-x.scale).toNat
    min n (Nat.pow 2 64 - 1)

end Reactivity
