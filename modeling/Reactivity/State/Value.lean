import Reactivity.Graph.Key
import Reactivity.Json.Basic

namespace Reactivity

/-- A value of the reactive state. Objects, arrays and external values are held by identity. -/
inductive Value
  | null
  | bool (b : Bool)
  | number (x : Number)
  | string (s : String)
  | object (id : ObjectId)
  | array (id : ArrayId)
  /-- Something that is carried along and not looked into. -/
  | external (id : ExternalId)
  deriving DecidableEq, Repr, Inhabited

namespace Value

/-- Whether two values are the same: numbers as numbers, containers by identity. -/
def same : Value → Value → Bool
  | .number x, .number y => x.same y
  | v, w => v == w

theorem same_refl (v : Value) : v.same v := by
  cases v <;> simp [same, Number.same_refl]

theorem same_comm (v w : Value) : v.same w = w.same v := by
  cases v <;> cases w <;> simp [same, Number.same_comm, Bool.beq_comm]

theorem same_trans {u v w : Value} (huv : u.same v) (hvw : v.same w) : u.same w := by
  cases u <;> cases v <;> cases w <;> simp_all [same]
  exact Number.same_trans huv hvw

def isReactive : Value → Bool
  | .object _ | .array _ => true
  | _ => false

/-- The live value of JSON that is no container. Containers are not values by themselves. -/
def ofPrimitive : Json → Value
  | .null => .null
  | .bool b => .bool b
  | .int n => .number (Number.ofInt n).canonical
  | .float x => .number x.canonical
  | .string s => .string s
  | .array _ | .object _ => .null

end Value

/-- JSON of a number: an integer if it is one and not too large, and null if it is not finite. -/
def Number.toJson (x : Number) : Json :=
  match x.integer? with
  | some n => .int n
  | none => if x.isFinite then .float x else .null

/-- What stands in a property of an object or a slot of an array. Containers inside plain JSON stay
as they are until they are first read. -/
inductive Cell
  | value (v : Value)
  | plain (j : Json)
  deriving Repr, Inhabited

def Cell.ofJson (j : Json) : Cell :=
  if j.isContainer then .plain j else .value (.ofPrimitive j)

def Cell.value? : Cell → Option Value
  | .value v => some v
  | .plain _ => none

/-- Whether a cell holds the same value as the given one. Plain JSON holds none. -/
def Cell.holds : Cell → Value → Bool
  | .value old, v => old.same v
  | .plain _, _ => false

end Reactivity
