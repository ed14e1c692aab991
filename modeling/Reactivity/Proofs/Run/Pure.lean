import Reactivity.Program.Session

namespace Reactivity

/-- Whether the operation depends on its arguments alone, or is a read of a memo. -/
def Op.isPure : Op → Bool
  | .arithmetic _ | .less | .same | .not | .isNothing | .order | .here | .isKind _ | .view _ => true
  | .readMemo => true
  | _ => false

def ContainerOp.isPure : ContainerOp → Bool
  | .contains _ | .keys | .entries | .length | .isEmpty | .values => true
  | _ => false

mutual

/-- Whether an expression does nothing but to make tracked reads and to compute with their
results. -/
def Expr.isPure : Expr → Bool
  | .literal _ | .number _ | .nothing | .var _ | .argument _ => true
  | .block es | .list es | .attempt es => allPure es
  | .cond c t e => c.isPure && t.isPure && e.isPure
  | .replicate n es => n.isPure && allPure es
  | .within rt es => rt.isPure && allPure es
  | .apply op es => op.isPure && allPure es
  | .path tracked target keys => tracked && target.isPure && allPure keys
  | .container op target es => op.isPure && target.isPure && allPure es
  | _ => false

def Expr.allPure : List Expr → Bool
  | [] => true
  | e :: es => e.isPure && Expr.allPure es

end

mutual

def Expr.names : Expr → List String
  | .var name => [name]
  | .block es | .list es | .attempt es => allNames es
  | .cond c t e => c.names ++ t.names ++ e.names
  | .replicate n es => n.names ++ allNames es
  | .within rt es => rt.names ++ allNames es
  | .apply _ es => allNames es
  | .path _ target keys => target.names ++ allNames keys
  | .container _ target es => target.names ++ allNames es
  | _ => []

def Expr.allNames : List Expr → List String
  | [] => []
  | e :: es => e.names ++ Expr.allNames es

end

def Op.outcome (seen : Read → Option Result) (rt : RuntimeId) (op : Op) (args : List Result) :
    Option Result :=
  let a := args.getD 0 .nothing
  let b := args.getD 1 .nothing
  match op with
  | .arithmetic op => some (.ofNumber (op.apply a.toNumber b.toNumber))
  | .less => some (.ofBool (a.toNumber.lt b.toNumber))
  | .same => some (.ofBool (a.same b))
  | .not => some (.ofBool !a.isTrue)
  | .isNothing => some (.ofBool (a.same .nothing))
  | .order => some (orderNumber (a.order b))
  | .here => some (.runtime rt)
  | .isKind kind =>
    match a with
    | .value v => some (.ofBool (kind.holds v))
    | _ => some (.ofBool false)
  | .view kind =>
    match a with
    | .value v => some (kind.apply v)
    | _ => some .nothing
  | .readMemo =>
    match a with
    | .memo n => seen (.memo n)
    | _ => none
  | _ => none

def Result.size? : Result → Option Nat
  | .plain (.int n) => some n.toNat
  | _ => none

/-- The result of a tracked read of a container, by the results of reads. -/
def ContainerOp.outcome (seen : Read → Option Result) : ContainerOp → Value → Option Result
  | .contains name, .object id => seen (.contains id name)
  | .keys, .object id => seen (.names id)
  | .entries, .object id => seen (.entries id)
  | .values, .array id => seen (.values id)
  | .length, .object id => ((seen (.size (.object id))).bind Result.size?).map .ofNat
  | .length, .array id => ((seen (.size (.array id))).bind Result.size?).map .ofNat
  | .isEmpty, .object id => ((seen (.size (.object id))).bind Result.size?).map fun n => .ofBool (n == 0)
  | .isEmpty, .array id => ((seen (.size (.array id))).bind Result.size?).map fun n => .ofBool (n == 0)
  | _, _ => none

/-- The result of one step of a tracked read along a path, by the results of reads. -/
def Read.stepOutcome (seen : Read → Option Result) (target key : Result) : Option Result :=
  match target, key with
  | .value (.object id), .value (.string name) => seen (.property id name)
  | .value (.array id), .value (.number x) => seen (.slot id x.toIndex)
  | _, _ => some .nothing

mutual

/-- The result of a pure expression, by what variables are bound to and by the results of reads. -/
def Expr.outcome (vars : String → Result) (seen : Read → Option Result) (env : Env) :
    Expr → Option Result
  | .literal j => some (.ofJson j)
  | .number x => some (.ofNumber x)
  | .nothing => some .nothing
  | .var name => some (vars name)
  | .argument i => some (env.args.getD i .nothing)
  | .block es => (outcomes vars seen env es).map (·.getLastD .nothing)
  | .attempt es => (outcomes vars seen env es).map (·.getLastD .nothing)
  | .list es => (outcomes vars seen env es).map .list
  | .cond c t e => do
    if (← c.outcome vars seen env).isTrue then t.outcome vars seen env else e.outcome vars seen env
  | .replicate n es => do
    let n ← n.outcome vars seen env
    if n.toNumber.toIndex = 0 then some .nothing
    else (outcomes vars seen env es).map fun _ => .nothing
  | .within runtime es => do
    match ← runtime.outcome vars seen env with
    | .runtime rt => (outcomes vars seen { env with runtime := rt } es).map (·.getLastD .nothing)
    | _ => some .nothing
  | .apply op es => do op.outcome seen env.runtime (← outcomes vars seen env es)
  | .path _ target keys => do
    let target ← target.outcome vars seen env
    (← outcomes vars seen env keys).foldlM (Read.stepOutcome seen) target
  | .container op target es => do
    let target ← target.outcome vars seen env
    if op.accepts target then
      let _ ← outcomes vars seen env es
      match target with
      | .value v => op.outcome seen v
      | _ => none
    else some .nothing
  | _ => none

def Expr.outcomes (vars : String → Result) (seen : Read → Option Result) (env : Env) :
    List Expr → Option (List Result)
  | [] => some []
  | e :: es => do return (← e.outcome vars seen env) :: (← Expr.outcomes vars seen env es)

end

/-- `e.Follows env n since lookup r`: as far as nothing was thrown and no variable of a pure
expression was bound since its evaluation has started, its result is determined by the reads since. -/
def Expr.Follows (e : Expr) (env : Env) (n : NodeId) (since : List Event)
    (lookup : String → Result) (r : Result) : Prop :=
  (∀ message, .threw message ∉ since) → (∀ name ∈ e.names, .bound name ∉ since) →
    ∀ (vars : String → Result) (seen : Read → Option Result),
      (∀ name ∈ e.names, vars name = lookup name) →
      (∀ read r', .saw n read r' ∈ since → seen read = some r') → e.outcome vars seen env = some r

end Reactivity
