import Reactivity.Json.Record

namespace Reactivity

/-- What a runtime is set up with. -/
structure Settings where
  /-- How many rounds one flush may take before it is given up as a cycle. -/
  flushCap : Nat
  deriving DecidableEq, Repr

def Settings.standard : Settings where
  flushCap := 100

instance : Inhabited Settings := ⟨.standard⟩

def Settings.fields : List (Json.Field Settings) :=
  [.of "max_flush_iterations" Json.expectNat fun n s => { s with flushCap := n }]

def Settings.parse (text : String) : Except Json.ReadError Settings :=
  Json.readRecord Settings.fields Settings.standard text

end Reactivity
