
namespace Reactivity.Template

/-- Why a source is refused. Offsets count bytes of the text that was scanned. -/
inductive TemplateError
  /-- The expression that opens at the offset is never closed. -/
  | unterminatedExpression (offset : Nat)
  /-- The template literal that opens at the offset is never closed. -/
  | unterminatedTemplate (offset : Nat)
  /-- The text is no function, arrow function or method. -/
  | unrecognizedFunction
  deriving DecidableEq, Repr

def TemplateError.message : TemplateError → String
  | .unterminatedExpression offset =>
    s!"unterminated template expression starting at byte {offset}"
  | .unterminatedTemplate offset =>
    s!"unterminated template literal starting at byte {offset}"
  | .unrecognizedFunction => "source is not a recognizable function"

end Reactivity.Template
