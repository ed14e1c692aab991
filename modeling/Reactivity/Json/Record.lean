import Reactivity.Json.Reader

namespace Reactivity.Json

/-- Fails on a value of a kind that is not expected. Its own text comes first: if that is faulty,
the fault is reported. -/
def unexpected (s : List Char) : ReadError :=
  match nextToken s with
  | .error e => e
  | .ok (c, r) =>
    let checked : Except ReadError Unit :=
      if c = 'n' then (readWord "ull".toList r).map fun _ => ()
      else if c = 't' then (readWord "rue".toList r).map fun _ => ()
      else if c = 'f' then (readWord "alse".toList r).map fun _ => ()
      else if c = '"' then (readString [] r).map fun _ => ()
      else if c = '-' ∨ c.isDigit then (readNumber (c :: r)).map fun _ => ()
      else if c = '[' ∨ c = '\x7b' then .ok ()
      else .error .malformed
    match checked with
    | .error e => e
    | .ok () => .mismatch

def expectString (s : List Char) : Except ReadError (String × List Char) := do
  let (c, r) ← nextToken s
  if c = '"' then readString [] r else throw (unexpected s)

def expectBool (s : List Char) : Except ReadError (Bool × List Char) := do
  let (c, r) ← nextToken s
  if c = 't' then return (true, ← readWord "rue".toList r)
  else if c = 'f' then return (false, ← readWord "alse".toList r)
  else throw (unexpected s)

/-- Reads a natural number. Floats and negative numbers are none, whatever their value. -/
def expectNat (s : List Char) : Except ReadError (Nat × List Char) := do
  let (c, r) ← nextToken s
  if c = '-' ∨ c.isDigit then
    match ← readNumber (c :: r) with
    | (.int (.ofNat n), r) => return (n, r)
    | _ => throw .mismatch
  else throw (unexpected s)

/-- Reads the strings of an array, of which the fuel bounds the number. -/
def expectStringItems : Nat → Bool → List Char → Except ReadError (List String × List Char)
  | 0, _, _ => .error .malformed
  | fuel + 1, first, s => do
    match ← nextItem first s with
    | none => return ([], skipClosing s)
    | some s =>
      let (item, s) ← expectString s
      let (items, s) ← expectStringItems fuel false s
      return (item :: items, s)

def expectStrings (s : List Char) : Except ReadError (List String × List Char) := do
  let (c, r) ← nextToken s
  if c = '[' then expectStringItems (enoughFuel r) true r else throw (unexpected s)

/-- A field of a record: its name, and how its value is read into the record. -/
structure Field (σ : Type) where
  name : String
  read : List Char → σ → Except ReadError (σ × List Char)

def Field.of (name : String) (expect : List Char → Except ReadError (α × List Char))
    (set : α → σ → σ) : Field σ where
  name := name
  read s record := do
    let (value, s) ← expect s
    return (set value record, s)

def readFieldItems (first : Bool) : List (Field σ) → List Char → σ →
    Except ReadError (σ × List Char)
  | [], s, record => do
    match ← nextToken s with
    | (']', s) => return (record, s)
    | _ => throw .malformed
  | field :: fields, s, record => do
    match ← nextItem first s with
    | none => return (record, skipClosing s)
    | some s =>
      let (record, s) ← field.read s record
      readFieldItems false fields s record

/-- Reads the members of an object, of which the fuel bounds the number. A field must not be given
twice; members that are no fields are skipped. -/
def readFieldMembers (fields : List (Field σ)) : Nat → Bool → List String → List Char → σ →
    Except ReadError (σ × List Char)
  | 0, _, _, _, _ => .error .malformed
  | fuel + 1, first, seen, s, record => do
    match ← nextName first s with
    | none => return (record, skipClosing s)
    | some s =>
      let (name, s) ← readString [] s
      match fields.find? (·.name == name) with
      | none =>
        let s ← skipColon s
        let s ← skipValue (enoughFuel s) s
        readFieldMembers fields fuel false seen s record
      | some field =>
        if seen.contains name then throw .mismatch
        let s ← skipColon s
        let (record, s) ← field.read s record
        readFieldMembers fields fuel false (name :: seen) s record

def readRecord (fields : List (Field σ)) (standard : σ) (text : String) : Except ReadError σ := do
  let s := text.toList
  let (c, r) ← nextToken s
  let (record, rest) ←
    if c = '[' then readFieldItems true fields r standard
    else if c = '\x7b' then readFieldMembers fields (enoughFuel r) true [] r standard
    else throw (unexpected s)
  expectEnd rest
  return record

end Reactivity.Json
