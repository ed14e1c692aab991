import Reactivity.Program.Operation

namespace Reactivity

/-- Where an expression is evaluated. -/
structure Env where
  /-- The runtime that operations act on. -/
  runtime : RuntimeId
  /-- The arguments of the running body. -/
  args : List Result := []

def replicateAct : Nat → Act Unit → Act Unit
  | 0, _ => return
  | n + 1, act => do
    act
    replicateAct n act

/-- Whether the first of two elements belongs strictly before the second, by a body that returns
the sign of their difference. -/
def sortsBefore (k : Kernel) (body : Closure) (x y : Value) : Act Bool := do
  match ← k.call body [.value x, .value y] with
  | .value (.number d) => return d.lt .zero
  | _ => return false

mutual

def eval (k : Kernel) (env : Env) (e : Expr) : Act Result := do
  k.observe
  match e with
  | .literal j => return .ofJson j
  | .number x => return .ofNumber x
  | .nothing => return .nothing
  | .var name => return (← get).lookup name
  | .argument i => return env.args.getD i .nothing
  | .assign name e => do
    let r ← eval k env e
    bind name (.result r)
    return .nothing
  | .forget name => do
    unbind name
    return .nothing
  | .block es => return (← evalList k env es).getLastD .nothing
  | .cond c t e => do
    if (← eval k env c).isTrue then eval k env t else eval k env e
  | .replicate n es => do
    let n ← eval k env n
    replicateAct n.toNumber.toIndex do
      let _ ← evalList k env es
    return .nothing
  | .log es => do
    evalLog k env es
    return .nothing
  | .list es => return .list (← evalList k env es)
  | .record names es => return .plain (.ofMembers (names.zip (← evalPlain k env es)))
  | .throw message => raise message
  | .attempt es => attempt do
    return (← evalList k env es).getLastD .nothing
  | .within runtime es => do
    match ← eval k env runtime with
    | .runtime rt => return (← evalList k { env with runtime := rt } es).getLastD .nothing
    | _ => return .nothing
  | .untracked es => untracked env.runtime do
    return (← evalList k env es).getLastD .nothing
  | .apply op es => do
    let args ← evalList k env es
    runOp k env.runtime op args
  | .path tracked target keys => do
    let target ← eval k env target
    let keys ← evalList k env keys
    keys.foldlM (fun r key => (readStep tracked r key : Change Result)) target
  | .container op target es => do
    let target ← eval k env target
    if op.accepts target then
      let args ← evalList k env es
      runContainerOp k op target args
    else return .nothing
  | .sort target body => do
    match ← eval k env target with
    | .value (.array id) =>
      id.sort k (sortsBefore k ⟨body, env.runtime⟩)
      return .nothing
    | _ => return .nothing
  | .retain target body => do
    match ← eval k env target with
    | .value (.array id) =>
      id.retain k fun v => return (← k.call ⟨body, env.runtime⟩ [.value v]).isTrue
      return .nothing
    | _ => return .nothing
  | .effect body => return .effect (← createEffect k env.runtime (.body ⟨body, env.runtime⟩))
  | .watch immediate getter callback =>
    return .effect (← createEffect k env.runtime
      (.watch ⟨getter, env.runtime⟩ ⟨callback, env.runtime⟩ immediate true none))
  | .memo body => return .memo (← createMemo env.runtime ⟨body, env.runtime⟩)
  | .onCleanup body => return .ofBool (← registerCleanup env.runtime ⟨body, env.runtime⟩)
  | .store op name es => do
    let args ← evalList k env es
    runStoreOp k env.runtime op name args
  | .update name body => do
    match (← get).storeNamed? name with
    | none => return .nothing
    | some id =>
      let patch (state : Value) : Act Json := do
        let r ← k.call ⟨body, env.runtime⟩ [.value state]
        return r.toJson (← get)
      return .ofUnit (← holding id (updateStore k id patch))
  | .subscribe subscription name body => do
    match (← get).storeNamed? name with
    | none => return .nothing
    | some id =>
      let sub ← holding id (Reactivity.subscribe k id ⟨body, env.runtime⟩)
      bind subscription (.subscription sub)
      return .nothing

def evalList (k : Kernel) (env : Env) : List Expr → Act (List Result)
  | [] => return []
  | e :: es => do
    let r ← eval k env e
    return r :: (← evalList k env es)

/-- Evaluates expressions in order, each to plain JSON before the next. -/
def evalPlain (k : Kernel) (env : Env) : List Expr → Act (List Json)
  | [] => return []
  | e :: es => do
    let r ← eval k env e
    let j := r.toJson (← get)
    return j :: (← evalPlain k env es)

def evalLog (k : Kernel) (env : Env) : List Expr → Act Unit
  | [] => return
  | e :: es => do
    logResult (← eval k env e)
    evalLog k env es

end

def exhaust : Act α := do
  note .exhausted
  throw .exhausted

def Kernel.exhausted (observe : Act Unit) : Kernel where
  observe := observe
  call _ _ := exhaust
  flushNow _ := exhaust
  passOn _ _ _ := exhaust

/-- The kernel that allows one level of nesting more. The inner kernel is made when it is first
needed. -/
def Kernel.next (observe : Act Unit) (inner : Unit → Kernel) : Kernel where
  observe := observe
  call body args := eval (inner ()) ⟨body.runtime, args⟩ body.body
  flushNow rt := do
    let _ ← flush (inner ()) rt
  passOn readers key waiting := trigger (inner ()) readers key waiting

/-- The kernel that allows the given number of levels of nesting, under observation. -/
def observedKernel (observe : Act Unit) : Nat → Kernel
  | 0 => .exhausted observe
  | depth + 1 => .next observe fun _ => observedKernel observe depth

def kernel (depth : Nat) : Kernel :=
  observedKernel (return) depth

end Reactivity
