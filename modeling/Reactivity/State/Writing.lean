import Reactivity.Graph.Trigger
import Reactivity.State.Reading

namespace Reactivity

/-- A result as a value of a runtime's container: plain containers become reactive ones. -/
def Result.toValue (rt : RuntimeId) : Result → Change Value
  | .value v => return v
  | .plain j => wrap rt j
  | _ => return .null

namespace ObjectId

def set (k : Kernel) (id : ObjectId) (name : String) (v : Value) : Act Unit := do
  let o := (← get).object id
  let old := o.properties.lookup name
  note (.wrote (.property id name old (some v)))
  match old with
  | some cell =>
    if cell.holds v then return
    modify (·.modifyObject id fun o => { o with properties := o.properties.replace name (.value v) })
    trigger k o.runtime (.object id) (.property name)
  | none =>
    modify (·.modifyObject id fun o => { o with properties := o.properties.add name (.value v) })
    trigger k o.runtime (.object id) (.property name)
    trigger k o.runtime (.object id) .shape

/-- Removes a property, and returns its value. The others keep their order. -/
def remove (k : Kernel) (id : ObjectId) (name : String) : Act (Option Value) := do
  match ← peek id name with
  | none => return none
  | some v =>
    let o := (← get).object id
    note (.wrote (.property id name (some (.value v)) none))
    modify (·.modifyObject id fun o => { o with properties := o.properties.remove name })
    trigger k o.runtime (.object id) (.property name)
    trigger k o.runtime (.object id) .shape
    return some v

end ObjectId

/-- Whether a slot holds other values before and after, or is there only once. -/
def slotChanged (before after : List Value) (i : Nat) : Bool :=
  match before[i]?, after[i]? with
  | some v, some w => !v.same w
  | _, _ => true

def changedSlots (before after : List Value) : List Nat :=
  (List.range (max before.length after.length)).filter (slotChanged before after)

namespace ArrayId

def set (k : Kernel) (id : ArrayId) (i : Nat) (v : Value) : Act (Except StateError Unit) := do
  let a := (← get).array id
  match a.cells[i]? with
  | some cell =>
    note (.wrote (.slot id i (some cell) v))
    if cell.holds v then return .ok ()
    modify (·.modifyArray id fun a => { a with cells := a.cells.set i (.value v) })
    trigger k a.runtime (.array id) (.index i)
    return .ok ()
  | none =>
    if i = a.cells.length then
      note (.wrote (.slot id i none v))
      modify (·.modifyArray id fun a => { a with cells := a.cells ++ [.value v] })
      trigger k a.runtime (.array id) (.index i)
      trigger k a.runtime (.array id) .shape
      return .ok ()
    else return .error (.indexOutOfBounds i a.cells.length)

/-- Changes the content of an array as a whole, and triggers the slots that differ after it, then
the shape if any does. The change is computed on a copy, and may act itself. -/
def changeBy (k : Kernel) (id : ArrayId) (f : List Value → Act (List Value × α)) : Act α := do
  let rt := ((← get).array id).runtime
  let before ← contents id
  note (.changeBegan id)
  let (after, outcome) ← (f before).ensuring (note (.changeEnded id))
  note (.wrote (.items id before after))
  modify (·.modifyArray id fun a => { a with cells := after.map .value })
  let changed := changedSlots before after
  changed.forM fun i => trigger k rt (.array id) (.index i)
  if !changed.isEmpty then trigger k rt (.array id) .shape
  return outcome

def changeWith (k : Kernel) (id : ArrayId) (f : List Value → List Value) : Act Unit :=
  changeBy k id fun before => return (f before, ())

def push (k : Kernel) (id : ArrayId) (v : Value) : Act Unit :=
  changeWith k id (· ++ [v])

def pop (k : Kernel) (id : ArrayId) : Act (Option Value) :=
  changeBy k id fun before => return (before.dropLast, before.getLast?)

def insert (k : Kernel) (id : ArrayId) (i : Nat) (v : Value) : Act (Except StateError Unit) :=
  changeBy k id fun before => pure <|
    if before.length < i then (before, .error (.indexOutOfBounds i before.length))
    else (before.insertIdx i v, .ok ())

/-- Removes an element, and returns it; those after its place move down. -/
def remove (k : Kernel) (id : ArrayId) (i : Nat) : Act (Option Value) :=
  changeBy k id fun before => return (before.eraseIdx i, before[i]?)

def truncate (k : Kernel) (id : ArrayId) (n : Nat) : Act Unit :=
  changeWith k id (·.take n)

def clear (k : Kernel) (id : ArrayId) : Act Unit :=
  changeWith k id fun _ => []

def swapped (i j : Nat) (vs : List Value) : Except StateError (List Value) :=
  match vs[i]?, vs[j]? with
  | some v, some w => .ok ((vs.set i w).set j v)
  | none, _ => .error (.indexOutOfBounds i vs.length)
  | some _, none => .error (.indexOutOfBounds j vs.length)

def swap (k : Kernel) (id : ArrayId) (i j : Nat) : Act (Except StateError Unit) :=
  changeBy k id fun before => pure <|
    match swapped i j before with
    | .ok after => (after, .ok ())
    | .error e => (before, .error e)

def reverse (k : Kernel) (id : ArrayId) : Act Unit :=
  changeWith k id List.reverse

def extend (k : Kernel) (id : ArrayId) (vs : List Value) : Act Unit :=
  changeWith k id (· ++ vs)

end ArrayId

/-- Puts a value into a sorted list, behind all that are not greater. The values are compared from
the end of the list; it is given and returned in reverse. -/
def insertSorted [Monad m] (less : α → α → m Bool) (x : α) : List α → m (List α)
  | [] => return [x]
  | y :: ys => do
    if ← less x y then return y :: (← insertSorted less x ys) else return x :: y :: ys

/-- Sorts a list by insertion, so that equal elements keep their order. -/
def insertionSort [Monad m] (less : α → α → m Bool) (xs : List α) : m (List α) := do
  let reversed ← xs.foldlM (fun sorted x => insertSorted less x sorted) []
  return reversed.reverse

namespace ArrayId

/-- Sorts by a comparison that says whether the first value comes strictly before the second. -/
def sort (k : Kernel) (id : ArrayId) (less : Value → Value → Act Bool) : Act Unit :=
  changeBy k id fun before => return (← insertionSort less before, ())

def retain (k : Kernel) (id : ArrayId) (keep : Value → Act Bool) : Act Unit :=
  changeBy k id fun before => return (← before.filterM keep, ())

end ArrayId

end Reactivity
