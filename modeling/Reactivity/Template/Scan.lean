import Reactivity.Template.Bracket
import Reactivity.Template.Error

/-!
The expressions of tagged template literals. A scan lists the direct expressions of every template
that carries the tag, and stops at the first construct that is never closed.
-/

namespace Reactivity.Template

/-- One expression of a tagged template. -/
structure Expression where
  /-- Offset of the dollar sign. -/
  start : Nat
  /-- Offset just past the closing brace, or the length of the source if there is none. -/
  stop : Nat
  /-- What stands between the braces. -/
  text : Source
  /-- Whether the closing brace was found. -/
  terminated : Bool
  deriving DecidableEq, Repr

/-- How a scan ends. -/
inductive Ending
  /-- At the end of the text, with nothing left open. -/
  | complete
  /-- At the byte of this offset, which closes what the scan began in. -/
  | closed (offset : Nat)
  /-- With something left open. -/
  | broken (error : TemplateError)
  deriving DecidableEq, Repr

/-- What a scan finds. -/
structure Scan where
  expressions : List Expression
  ending : Ending
  deriving DecidableEq, Repr

def Scan.error (s : Scan) : Option TemplateError :=
  match s.ending with
  | .broken e => some e
  | _ => none

def Scan.cons (e : Expression) (s : Scan) : Scan :=
  { s with expressions := e :: s.expressions }

/-- What the scan is directly inside of. -/
inductive Level
  /-- Code with `depth` open braces; if it is an expression, the offset where that opens. -/
  | code (depth : Nat) (openedAt : Option Nat)
  /-- A template literal that opens at the offset. -/
  | template (openedAt : Nat) (tagged : Bool)
  /-- A string literal with the given quote. -/
  | quoted (quote : UInt8)
  | lineComment
  | blockComment
  deriving DecidableEq, Repr

/-- How the end of the text ends a scan. Strings and comments are taken to end with it. -/
def endOfText : List Level → Ending
  | [] => .complete
  | .code _ none :: _ => .complete
  | .code _ (some openedAt) :: _ => .broken (.unterminatedExpression openedAt)
  | .template openedAt _ :: _ => .broken (.unterminatedTemplate openedAt)
  | .quoted _ :: levels => endOfText levels
  | .lineComment :: levels => endOfText levels
  | .blockComment :: levels => endOfText levels

/-- Whether a template that opens after the given text (last byte first) carries the tag: the tag
stands right before it, and is not the end of a longer identifier. -/
def endsWithTag (tag before : Source) : Bool :=
  match tag, dropPrefix? tag.reverse before with
  | [], _ => false
  | _, none => false
  | _, some rest => !(rest.head?.any isIdentifierByte)

/-- Scans a text under a stack of levels; `before` is the text already read, last byte first. In a
tagged template an expression is recorded and stepped over as a whole; the expressions of a plain
template are code, and may hold tagged templates. -/
def scanFrom (tag : Source) (levels : List Level) (before s : Source) : Scan :=
  match levels, s with
  | [], _ => ⟨[], .closed (before.length - 1)⟩
  | level :: levels, [] => ⟨[], endOfText (level :: levels)⟩
  | .quoted q :: st, b :: r =>
    if b = Source.backslash then
      scanFrom tag (.quoted q :: st) (r.take 1 ++ b :: before) (r.drop 1)
    else if b = Source.newline ∨ b = q then scanFrom tag st (b :: before) r
    else scanFrom tag (.quoted q :: st) (b :: before) r
  | .lineComment :: st, b :: r =>
    if b = Source.newline then scanFrom tag st (b :: before) r
    else scanFrom tag (.lineComment :: st) (b :: before) r
  | .blockComment :: st, b :: r =>
    if b = Source.star ∧ r.head? = some Source.slash then
      scanFrom tag st (Source.slash :: b :: before) (r.drop 1)
    else scanFrom tag (.blockComment :: st) (b :: before) r
  | .template openedAt tagged :: st, b :: r =>
    if b = Source.backslash then
      scanFrom tag (.template openedAt tagged :: st) (r.take 1 ++ b :: before) (r.drop 1)
    else if b = Source.backtick then scanFrom tag st (b :: before) r
    else if b = Source.dollar ∧ r.head? = some Bracket.brace.opening then
      let start := before.length
      let rest := r.drop 1
      if tagged then
        match Bracket.brace.close? rest with
        | none =>
          ⟨[⟨start, start + 2 + rest.length, rest, false⟩], .broken (.unterminatedExpression start)⟩
        | some close =>
          let text := rest.take close
          let e : Expression := ⟨start, start + 2 + close + 1, text, true⟩
          (scanFrom tag (.template openedAt tagged :: st)
            (Bracket.brace.closing :: (text.reverse ++ Bracket.brace.opening :: b :: before))
            (rest.drop (close + 1))).cons e
      else
        scanFrom tag (.code 0 (some start) :: .template openedAt tagged :: st)
          (Bracket.brace.opening :: b :: before) rest
    else scanFrom tag (.template openedAt tagged :: st) (b :: before) r
  | .code depth openedAt :: st, b :: r =>
    let here := Level.code depth openedAt
    if b = Source.doubleQuote ∨ b = Source.singleQuote then
      scanFrom tag (.quoted b :: here :: st) (b :: before) r
    else if b = Source.backtick then
      scanFrom tag (.template before.length (endsWithTag tag before) :: here :: st) (b :: before) r
    else if b = Source.slash ∧ r.head? = some Source.slash then
      scanFrom tag (.lineComment :: here :: st) (Source.slash :: b :: before) (r.drop 1)
    else if b = Source.slash ∧ r.head? = some Source.star then
      scanFrom tag (.blockComment :: here :: st) (Source.star :: b :: before) (r.drop 1)
    else if b = Bracket.brace.opening then
      scanFrom tag (.code (depth + 1) openedAt :: st) (b :: before) r
    else if b = Bracket.brace.closing then
      match depth, openedAt with
      | 0, some _ => scanFrom tag st (b :: before) r
      | depth, _ => scanFrom tag (.code (depth - 1) openedAt :: st) (b :: before) r
    else scanFrom tag (here :: st) (b :: before) r
termination_by s.length
decreasing_by all_goals simp +arith

/-- The direct expressions of every template in the source that carries the tag, in order. -/
def scan (tag s : Source) : Scan :=
  scanFrom tag [.code 0 none] [] s

theorem scanFrom_text_length_lt (tag : Source) (levels : List Level) (before s : Source) :
    ∀ e ∈ (scanFrom tag levels before s).expressions, e.text.length < s.length := by
  fun_induction scanFrom tag levels before s <;>
    grind [Scan.cons]

end Reactivity.Template
