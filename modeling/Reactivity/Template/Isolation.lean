import Reactivity.Template.Function
import Reactivity.Template.Scan

namespace Reactivity.Template

/-- Puts a text in place of the part of the source between two offsets. -/
def splice (start stop : Nat) (text s : Source) : Source :=
  s.take start ++ text ++ s.drop stop

/-- What stands before an isolated expression, inside the template's braces. -/
def wrapperOpening (o : Options) : Source :=
  o.isolator ++ Source.ofString "(() => ("

def wrapperClosing : Source :=
  Source.ofString "))"

def inBraces (text : Source) : Source :=
  Source.dollar :: Bracket.brace.opening :: (text ++ [Bracket.brace.closing])

def Expression.isOrdinary (o : Options) (e : Expression) : Bool :=
  e.terminated && Shape.of o e.text == .ordinary

/-- The error a scan is refused for: none if what is left open may stay as it is. -/
def Scan.refusal (o : Options) (found : Scan) : Option TemplateError :=
  if o.strict then found.error else none

/-- Isolates the expressions of a source from the last to the first, so that the offsets of those
still to come stay valid. -/
def isolate (o : Options) (s : Source) : Except TemplateError Source :=
  match (scan o.tag s).refusal o with
  | some e => .error e
  | none =>
    (scan o.tag s).expressions.attach.foldrM
      (fun e out =>
        if e.1.isOrdinary o then do
          let inner ← isolate o e.1.text
          return splice e.1.start e.1.stop
            (inBraces (wrapperOpening o ++ inner ++ wrapperClosing)) out
        else .ok out) s
termination_by s.length
decreasing_by exact scanFrom_text_length_lt _ _ _ _ _ e.2

/-- Isolates the template expressions of a function, after bringing it to its normal form. A text
that is no function is taken as it stands, or refused. -/
def isolateFunction (o : Options) (source : Source) : Except TemplateError Source :=
  match normalForm source with
  | .ok s => isolate o s
  | .error e => if o.strict then .error e else isolate o source

end Reactivity.Template
