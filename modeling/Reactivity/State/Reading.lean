import Reactivity.Graph.Tracking

namespace Reactivity

/-- A reactive container of a runtime with the content of a plain one; any other JSON value is a
value already. -/
def wrap (rt : RuntimeId) (j : Json) : Change Value := do
  match j with
  | .object members =>
    let properties : Properties := members.map fun (name, j) => (name, .ofJson j)
    note (.wrapped (properties.filterMap (·.2.value?)))
    let w ← get
    set { w with objects := w.objects.push { runtime := rt, properties := properties } }
    return .object w.objects.size
  | .array items =>
    let cells := items.map Cell.ofJson
    note (.wrapped (cells.filterMap Cell.value?))
    let w ← get
    set { w with arrays := w.arrays.push { runtime := rt, cells := cells } }
    return .array w.arrays.size
  | j => return .ofPrimitive j

def Cell.toValue (rt : RuntimeId) : Cell → Change Value
  | .value v => return v
  | .plain j => wrap rt j

namespace ObjectId

def peek (id : ObjectId) (name : String) : Change (Option Value) := do
  let o := (← get).object id
  match o.properties.lookup name with
  | none => return none
  | some (.value v) => return some v
  | some (.plain j) =>
    let v ← wrap o.runtime j
    modify (·.modifyObject id fun o => { o with properties := o.properties.replace name (.value v) })
    return some v

def read (id : ObjectId) (name : String) : Change (Option Value) := do
  let rt := ((← get).object id).runtime
  track rt (.object id) (.property name)
  let v ← peek id name
  noteRead rt (.property id name) (.ofValue? v)
  return v

def contains (id : ObjectId) (name : String) : Change Bool := do
  let rt := ((← get).object id).runtime
  track rt (.object id) (.property name)
  let found := (((← get).object id).properties.lookup name).isSome
  noteRead rt (.contains id name) (.ofBool found)
  return found

def keys (id : ObjectId) : Change (List String) := do
  let rt := ((← get).object id).runtime
  track rt (.object id) .shape
  let names := ((← get).object id).properties.names
  noteRead rt (.names id) (.list (names.map .ofString))
  return names

def length (id : ObjectId) : Change Nat := do
  let rt := ((← get).object id).runtime
  track rt (.object id) .shape
  let n := ((← get).object id).properties.length
  noteRead rt (.size (.object id)) (.plain (.int n))
  return n

def entries (id : ObjectId) : Change (List (String × Value)) := do
  let o := (← get).object id
  track o.runtime (.object id) .shape
  let entries ← o.properties.mapM fun (name, cell) => return (name, ← cell.toValue o.runtime)
  modify (·.modifyObject id fun o =>
    { o with properties := entries.map fun (name, v) => (name, .value v) })
  entries.forM fun (name, _) => track o.runtime (.object id) (.property name)
  noteRead o.runtime (.entries id) (.ofEntries entries)
  return entries

end ObjectId

namespace ArrayId

def peek (id : ArrayId) (i : Nat) : Change (Option Value) := do
  let a := (← get).array id
  match a.cells[i]? with
  | none => return none
  | some (.value v) => return some v
  | some (.plain j) =>
    let v ← wrap a.runtime j
    modify (·.modifyArray id fun a => { a with cells := a.cells.set i (.value v) })
    return some v

def read (id : ArrayId) (i : Nat) : Change (Option Value) := do
  let rt := ((← get).array id).runtime
  track rt (.array id) (.index i)
  let v ← peek id i
  noteRead rt (.slot id i) (.ofValue? v)
  return v

def length (id : ArrayId) : Change Nat := do
  let rt := ((← get).array id).runtime
  track rt (.array id) .shape
  let n := ((← get).array id).cells.length
  noteRead rt (.size (.array id)) (.plain (.int n))
  return n

def contents (id : ArrayId) : Change (List Value) := do
  let a := (← get).array id
  let values ← a.cells.mapM (·.toValue a.runtime)
  modify (·.modifyArray id fun a => { a with cells := values.map .value })
  return values

def values (id : ArrayId) : Change (List Value) := do
  let rt := ((← get).array id).runtime
  track rt (.array id) .shape
  let values ← contents id
  (List.range values.length).forM fun i => track rt (.array id) (.index i)
  noteRead rt (.values id) (.list (values.map .value))
  return values

end ArrayId

def Cell.containerCount : Cell → Nat
  | .value _ => 0
  | .plain j => j.containerCount

/-- Number of containers there are, those in plain JSON included. Reading does not change it, and
no chain of containers without a cycle is longer. -/
def World.containerCount (w : World) : Nat :=
  let inObjects := w.objects.foldl (fun n o =>
    o.properties.foldl (fun n (_, cell) => n + cell.containerCount) (n + 1)) 0
  w.arrays.foldl (fun n a => a.cells.foldl (fun n cell => n + cell.containerCount) (n + 1)) inObjects

/-- Plain JSON of a cell, by the plain JSON of its value. Plain JSON is copied as it is. -/
def Cell.jsonBy (json : Value → Json) : Cell → Json
  | .plain j => j
  | .value v => json v

/-- Plain JSON of a value, down to the given depth. Nothing is tracked or turned reactive. -/
def World.jsonAt (w : World) : Nat → Value → Json
  | _, .null => .null
  | _, .external _ => .null
  | _, .bool b => .bool b
  | _, .number x => x.toJson
  | _, .string s => .string s
  | 0, .object _ => .null
  | 0, .array _ => .null
  | depth + 1, .object id =>
    .ofMembers ((w.object id).properties.map fun (name, cell) =>
      (name, cell.jsonBy (w.jsonAt depth)))
  | depth + 1, .array id => .array ((w.array id).cells.map (Cell.jsonBy (w.jsonAt depth)))

def World.toJson (w : World) (v : Value) : Json :=
  w.jsonAt (w.containerCount + 1) v

/-- JSON of a value read through tracked reads, down to the given depth. The members of objects
stand in the order of the properties. -/
def serializeAt : Nat → Value → Change Json
  | _, .null => return .null
  | _, .external _ => return .null
  | _, .bool b => return .bool b
  | _, .number x => return x.toJson
  | _, .string s => return .string s
  | 0, .object _ => return .null
  | 0, .array _ => return .null
  | depth + 1, .object id => do
    let entries ← ObjectId.entries id
    return .object (← entries.mapM fun (name, v) => return (name, ← serializeAt depth v))
  | depth + 1, .array id => do
    let values ← ArrayId.values id
    return .array (← values.mapM (serializeAt depth))

def serialize (v : Value) : Change Json := do
  serializeAt ((← get).containerCount + 1) v

end Reactivity
