import Reactivity.Json.Record
import Reactivity.Template.Source

namespace Reactivity.Template

/-- The names that isolation goes by. -/
structure Options where
  /-- Identifier of the template tag. -/
  tag : Source
  /-- Identifier of the isolating function. -/
  isolator : Source
  /-- Functions whose calls reach the template untouched. -/
  passthrough : List Source
  /-- Beginnings of the expressions that stand for content rendered elsewhere. -/
  childRefs : List Source
  /-- Whether input that is no function, or is left open, is refused. -/
  strict : Bool
  deriving DecidableEq, Repr

def Options.standard : Options where
  tag := Source.ofString "html"
  isolator := Source.ofString "contain"
  passthrough := [Source.ofString "raw"]
  childRefs := ["this.props.children", "this.props.slots", "children", "slots"].map Source.ofString
  strict := false

def Options.fields : List (Json.Field Options) :=
  [.of "tag" Json.expectString fun s o => { o with tag := .ofString s },
   .of "isolate" Json.expectString fun s o => { o with isolator := .ofString s },
   .of "passthrough" Json.expectStrings fun l o => { o with passthrough := l.map .ofString },
   .of "child_refs" Json.expectStrings fun l o => { o with childRefs := l.map .ofString },
   .of "strict" Json.expectBool fun b o => { o with strict := b }]

def Options.parse (text : String) : Except Json.ReadError Options :=
  Json.readRecord Options.fields Options.standard text

end Reactivity.Template
