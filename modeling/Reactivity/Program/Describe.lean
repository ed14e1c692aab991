import Reactivity.Number.Shortest
import Reactivity.Text.Hidden
import Reactivity.World

namespace Reactivity

/-- Numbers are described positionally from four places after the point to sixteen before it,
and a tie goes away from zero. -/
def describedNumbers : Number.Layout where
  tie := .away
  least := -4
  limit := 16
  plus := ""
  nan := "NaN"
  infinity := "inf"

/-- How a character stands in a described string. One without a shape is given by its code. -/
def describeChar (c : Char) : List Char :=
  if c = '"' then ['\\', '"']
  else if c = '\\' then ['\\', '\\']
  else if c = '\n' then ['\\', 'n']
  else if c = '\r' then ['\\', 'r']
  else if c = '\t' then ['\\', 't']
  else if c = '\x00' then ['\\', '0']
  else if Text.isHidden c then
    ['\\', 'u', '\x7b'] ++ Nat.toDigits 16 c.toNat ++ ['\x7d']
  else [c]

def describeString (s : String) : String :=
  "\"" ++ String.ofList (s.toList.flatMap describeChar) ++ "\""

def describeRecord (name : String) (fields : List (String × String)) : String :=
  let texts := fields.map fun (field, text) => field ++ ": " ++ text
  name ++ " \x7b " ++ String.intercalate ", " texts ++ " \x7d"

def describeTuple (name text : String) : String :=
  name ++ "(" ++ text ++ ")"

/-- A reactive container, by the number of its parts and of those that somebody is registered on. -/
def describeContainer (name : String) (length : Nat) (readers : Readers) : String :=
  describeRecord name
    [("ptr", "PTR"), ("len", toString length), ("tracked_keys", toString readers.keys.length)]

def describeId (n : NodeId) : String :=
  describeTuple "SubscriberId" (toString n)

def Settings.describe (s : Settings) : String :=
  describeRecord "RuntimeConfig" [("max_flush_iterations", toString s.flushCap)]

def Runtime.describe (r : Runtime) : String :=
  describeRecord "Runtime"
    [("config", r.settings.describe), ("pending_effects", toString r.queue.length),
      ("flushing", toString r.flushing)]

def Effect.describe (e : Effect) (n : NodeId) : String :=
  describeRecord "Effect"
    [("id", describeId n), ("run_count", toString e.runCount),
      ("dependency_count", toString e.sources.length), ("disposed", toString e.disposed)]

def Memo.describe (m : Memo) (n : NodeId) (result : Option String) : String :=
  describeRecord "Memo"
    [("id", describeId n), ("state", if m.dirty then "Dirty" else "Clean"),
      ("value", result.elim "None" (describeTuple "Some")),
      ("dependent_count", toString (m.readers.on .value).length)]

def FlushReport.describe (s : FlushReport) : String :=
  describeRecord "FlushStats"
    [("rounds", toString s.rounds), ("effects_run", toString s.effectsRun)]

def StateError.describe : StateError → String
  | .cycleDetected rounds cap =>
    describeRecord "CycleDetected" [("rounds", toString rounds), ("cap", toString cap)]
  | .indexOutOfBounds index length =>
    describeRecord "IndexOutOfBounds" [("index", toString index), ("len", toString length)]
  | .notAnObject => "NotAnObject"

def Subscription.describe (s : Subscription) : String :=
  describeRecord "Subscription" [("id", toString s.number), ("active", toString s.active)]

namespace World

def describeObject (w : World) (id : ObjectId) : String :=
  let o := w.object id
  describeContainer "ReactiveObject" o.properties.length o.readers

def describeArray (w : World) (id : ArrayId) : String :=
  let a := w.array id
  describeContainer "ReactiveArray" a.cells.length a.readers

def describeValue (w : World) : Value → String
  | .null => "Null"
  | .bool b => describeTuple "Bool" (toString b)
  | .number x => describeTuple "Number" (describedNumbers.text x)
  | .string s => describeTuple "String" (describeString s)
  | .object id => w.describeObject id
  | .array id => w.describeArray id
  | .external _ => describeTuple "Opaque" "PTR"

def describeSimple? (w : World) : Result → Option String
  | .value v => some (w.describeValue v)
  | .effect n => (w.effect? n).map (·.describe n)
  | .runtime id => some (w.runtime id).describe
  | .stats s => some s.describe
  | .error e => some e.describe
  | _ => none

def describeResult? (w : World) : Result → Option String
  | .memo n =>
    (w.memo? n).map fun m =>
      m.describe n (m.result.map fun r => (w.describeSimple? r).getD "Nothing")
  | r => w.describeSimple? r

def describeStore (w : World) (id : StoreId) : String :=
  let s := w.store id
  describeRecord "Store"
    [("state", w.describeObject s.state), ("subscribers", toString s.subscribers.length)]

end World

end Reactivity
