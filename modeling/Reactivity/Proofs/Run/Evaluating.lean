import Reactivity.Proofs.Run.Storing

namespace Reactivity

/-- What the place of an evaluation refers to is there. -/
structure Env.Valid (w : World) (env : Env) : Prop where
  runtime : env.runtime < w.runtimes.size
  args : ∀ r ∈ env.args, r.Valid w

theorem Env.Valid.mono {w w' : World} {env : Env} (h : env.Valid w) (he : w.Extends w') :
    env.Valid w' where
  runtime := (he.runtimes _ h.runtime).1
  args r hr := (h.args r hr).mono he

theorem runs_replicate {R : Config → Prop} {w : World} {g : List Frame} (n : Nat) {act : Act Unit}
    (hact : ∀ {w'}, w.Extends w' → Runs R g g g act (fun _ _ => True) w') :
    Runs R g g g (replicateAct n act) (fun _ _ => True) w := by
  induction n generalizing w with
  | zero => exact .pure trivial
  | succ n ih =>
    exact (hact (.refl w)).bind fun _ w₁ _ he₁ _ => ih fun he => hact (he₁.trans he)

theorem does_createMemo {R : Config → Prop} (hR : Closed R) {w : World} {g : List Frame}
    (code : AtCode g) {rt : RuntimeId} {body : Closure} (hrt : rt < w.runtimes.size)
    (hbody : body.Valid w) :
    Does R g false g (createMemo rt body) (fun n w' => (w'.memo? n).isSome) w := by
  refine .of_step hR (.newMemo code hrt hbody) fun _ => ?_
  have hm : (w.pushNode (.memo { runtime := rt, body := body })).memo? w.nodes.size =
      some { runtime := rt, body := body } := by rw [World.memo?_pushNode, if_pos rfl]
  exact Option.isSome_of_eq_some hm

section Parts

variable {R : Config → Prop} {k : Kernel} (hk : k.Sound R) {w : World} {g : List Frame}
variable {env : Env}
include hk

theorem Kernel.Sound.runs_sortsBefore (ready : Ready w g) {body : Closure} (hb : body.Valid w)
    {x y : Value} (hx : x.Valid w) (hy : y.Valid w) :
    Runs R g g g (sortsBefore k body x y) (fun _ _ => True) w := by
  have hargs : ∀ r ∈ [Result.value x, .value y], r.Valid w := by
    intro r hr
    rcases List.mem_cons.1 hr with rfl | hr
    · exact hx
    · obtain rfl := List.mem_singleton.1 hr
      exact hy
  refine (hk.call ready.code ready.free hb hargs).bind fun r _ _ _ _ => ?_
  split <;> exact .pure trivial

theorem Kernel.Sound.runs_sort (ready : Ready w g) {id : ArrayId} (hid : id < w.arrays.size)
    {body : Closure} (hb : body.Valid w) :
    Runs R g g g (id.sort k (sortsBefore k body)) (fun _ _ => True) w := by
  refine hk.runs_changeBy (fun _ _ => trivial) ready.code ready.free hid fun before w₁ he₁ hbefore =>
    .intro fun hr₁ => ?_
  have ready₁ : Ready w₁ (.changing id before :: g) :=
    ⟨trivial, (ready.mono he₁).free, (hk.closed.sane hr₁).frames⟩
  refine (runs_insertionSort (I := fun w' => w₁.Extends w') (fun h he => h.trans he)
    (fun x y w₂ he₂ hx hy => ?_) (.refl w₁) hbefore).bind fun after _ _ _ h => .pure ⟨h, trivial⟩
  exact hk.runs_sortsBefore (ready₁.mono he₂) ((hb.mono he₁).mono he₂) hx hy

theorem Kernel.Sound.runs_retain (ready : Ready w g) {id : ArrayId} (hid : id < w.arrays.size)
    {body : Closure} (hb : body.Valid w) :
    Runs R g g g (id.retain k fun v => return (← k.call body [.value v]).isTrue) (fun _ _ => True)
      w := by
  refine hk.runs_changeBy (fun _ _ => trivial) ready.code ready.free hid fun before w₁ he₁ hbefore =>
    .intro fun hr₁ => ?_
  have ready₁ : Ready w₁ (.changing id before :: g) :=
    ⟨trivial, (ready.mono he₁).free, (hk.closed.sane hr₁).frames⟩
  refine (runs_filterM (I := fun w' => w₁.Extends w') (fun h he => h.trans he)
    (fun x w₂ he₂ hx => ?_) (.refl w₁) hbefore).bind fun after _ _ _ h => .pure ⟨h, trivial⟩
  have ready₂ := ready₁.mono he₂
  have hargs : ∀ r ∈ [Result.value x], r.Valid w₂ := fun r hr => List.mem_singleton.1 hr ▸ hx
  exact (hk.call ready₂.code ready₂.free ((hb.mono he₁).mono he₂) hargs).bind
    fun _ _ _ _ _ => .pure trivial

end Parts

mutual

theorem Kernel.Sound.runs_eval {R : Config → Prop} {k : Kernel} (hk : k.Sound R) {w : World}
    {g : List Frame} {env : Env} (ready : Ready w g) (henv : env.Valid w) (e : Expr) :
    Runs R g g g (eval k env e) (fun r w' => r.Valid w') w := by
  rw [eval.eq_def]
  refine hk.runs_observed (.inl ready.code) fun w he => .intro fun hr => ?_
  replace ready := ready.mono he
  replace henv := henv.mono he
  have closure (body : Expr) {w' : World} (he : w.Extends w') :
      (⟨body, env.runtime⟩ : Closure).Valid w' := (he.runtimes _ henv.runtime).1
  have hs := (hk.closed.sane hr).world
  cases e with
  | literal j => exact .pure (Result.ofJson_valid w j)
  | number x => exact .pure (Result.ofNumber_valid w x)
  | nothing => exact .pure trivial
  | var name => exact .get_bind (.pure (hs.lookup_valid name))
  | argument i => exact .pure (Result.getD_valid henv.args i)
  | assign name e =>
    exact (hk.runs_eval ready henv e).bind fun r _ _ _ hr =>
      (Runs.lift (does_bind hk.closed (b := .result r) hr)).bind fun _ _ _ _ _ => .pure trivial
  | forget name =>
    exact (Runs.lift (does_unbind hk.closed)).bind fun _ _ _ _ _ => .pure trivial
  | block es =>
    exact (hk.runs_evalList ready henv es).bind fun _ _ _ _ h => .pure (Result.getLastD_valid h)
  | cond c t e =>
    refine (hk.runs_eval ready henv c).bind fun r w₁ _ he₁ _ => ?_
    split
    · exact hk.runs_eval (ready.mono he₁) (henv.mono he₁) t
    · exact hk.runs_eval (ready.mono he₁) (henv.mono he₁) e
  | replicate n es =>
    refine (hk.runs_eval ready henv n).bind fun r w₁ _ he₁ _ => ?_
    refine (runs_replicate _ fun {w₂} he₂ => ?_).bind fun _ _ _ _ _ => .pure trivial
    have he := he₁.trans he₂
    exact (hk.runs_evalList (ready.mono he) (henv.mono he) es).bind fun _ _ _ _ _ => .pure trivial
  | log es => exact (hk.runs_evalLog ready henv es).bind fun _ _ _ _ _ => .pure trivial
  | list es =>
    exact (hk.runs_evalList ready henv es).bind fun _ _ _ _ h => .pure (Result.list_valid h)
  | record names es =>
    exact (hk.runs_evalPlain ready henv es).bind fun _ _ _ _ _ => .pure trivial
  | throw message => exact runs_raise hk.closed ready.code
  | attempt es =>
    exact runs_attempt hk.closed ((hk.runs_evalList ready henv es).bind fun _ _ _ _ h =>
      .pure (Result.getLastD_valid h))
  | within runtime es =>
    refine (hk.runs_eval ready henv runtime).bind fun r w₁ _ he₁ hr => ?_
    split
    · next rt =>
      have henv₁ : Env.Valid w₁ { env with runtime := rt } := ⟨hr, (henv.mono he₁).args⟩
      exact (hk.runs_evalList (ready.mono he₁) henv₁ es).bind fun _ _ _ _ h =>
        .pure (Result.getLastD_valid h)
    · exact .pure trivial
  | untracked es =>
    exact hk.runs_untracked (fun he h => h.mono he) ready henv.runtime fun he₁ ready₁ =>
      (hk.runs_evalList ready₁ (henv.mono he₁) es).bind fun _ _ _ _ h =>
        .pure (Result.getLastD_valid h)
  | apply op es =>
    exact (hk.runs_evalList ready henv es).bind fun _ _ _ he₁ h =>
      hk.runs_op (ready.mono he₁) (henv.mono he₁).runtime op h
  | path tracked target keys =>
    refine (hk.runs_eval ready henv target).bind fun r w₁ _ he₁ hr => ?_
    exact (hk.runs_evalList (ready.mono he₁) (henv.mono he₁) keys).bind fun _ _ _ he₂ _ =>
      hk.runs_path ready.code tracked (hr.mono he₂)
  | container op target es =>
    refine (hk.runs_eval ready henv target).bind fun r w₁ _ he₁ hr => ?_
    split
    · exact (hk.runs_evalList (ready.mono he₁) (henv.mono he₁) es).bind fun _ _ _ he₂ h =>
        hk.runs_containerOp (ready.mono (he₁.trans he₂)) op (hr.mono he₂) h
    · exact .pure trivial
  | sort target body =>
    refine (hk.runs_eval ready henv target).bind fun r w₁ _ he₁ hr => ?_
    split
    · exact (hk.runs_sort (ready.mono he₁) hr (closure body he₁)).bind
        fun _ _ _ _ _ => .pure trivial
    · exact .pure trivial
  | retain target body =>
    refine (hk.runs_eval ready henv target).bind fun r w₁ _ he₁ hr => ?_
    split
    · exact (hk.runs_retain (ready.mono he₁) hr (closure body he₁)).bind
        fun _ _ _ _ _ => .pure trivial
    · exact .pure trivial
  | effect body =>
    have hjob : (Job.body ⟨body, env.runtime⟩).Valid w := closure body (.refl w)
    exact (hk.runs_createEffect ready henv.runtime hjob rfl trivial).bind fun _ _ _ _ h => .pure h
  | watch immediate getter callback =>
    have hjob : (Job.watch ⟨getter, env.runtime⟩ ⟨callback, env.runtime⟩ immediate true none).Valid w :=
      ⟨closure getter (.refl w), closure callback (.refl w), nofun⟩
    exact (hk.runs_createEffect ready henv.runtime hjob rfl ⟨rfl, rfl⟩).bind fun _ _ _ _ h => .pure h
  | memo body =>
    refine (Runs.lift (does_createMemo hk.closed ready.code henv.runtime (closure body (.refl w)))).bind
      fun _ _ _ _ h => .pure h
  | onCleanup body =>
    exact (Runs.lift (does_registerCleanup hk.closed ready.code ready.free (closure body (.refl w)))).bind
      fun _ _ _ _ _ => .pure trivial
  | store op name es =>
    exact (hk.runs_evalList ready henv es).bind fun _ _ _ he₁ h =>
      hk.runs_storeOp (ready.mono he₁) (henv.mono he₁).runtime op name h
  | update name body =>
    refine .get_bind ?_
    split
    · exact .pure trivial
    · next id hid =>
      have hid := hs.storeNamed?_lt hid
      refine (hk.runs_holding (Q := fun _ _ => True) (fun _ _ => trivial) hid
        fun {w₁} he₁ => hk.runs_updateStore (ready.mono he₁) (he₁.stores id hid).1
          fun v w₂ rt he₂ ready₂ hv => ?_).bind fun r w₃ _ _ _ => .pure (Result.ofUnit_valid w₃ r)
      have hargs : ∀ r ∈ [Result.value v], r.Valid w₂ := fun r hr => List.mem_singleton.1 hr ▸ hv
      exact (hk.call ready₂.code ready₂.free (closure body (he₁.trans he₂)) hargs).bind
        fun _ _ _ _ _ => .get_bind (.pure trivial)
  | subscribe subscription name body =>
    refine .get_bind ?_
    split
    · exact .pure trivial
    · next id hid =>
      have hid := hs.storeNamed?_lt hid
      refine (hk.runs_holding (Q := fun sub w' => sub < w'.subscriptions.size)
        (fun he h => (he.subscriptions _ h).1) hid fun he₁ =>
          hk.runs_subscribe (ready.mono he₁) (he₁.stores id hid).1 (closure body he₁)).bind
            fun sub w₁ _ _ hsub => ?_
      exact (Runs.lift (does_bind hk.closed (b := .subscription sub) hsub)).bind
        fun _ _ _ _ _ => .pure trivial

theorem Kernel.Sound.runs_evalList {R : Config → Prop} {k : Kernel} (hk : k.Sound R) {w : World}
    {g : List Frame} {env : Env} (ready : Ready w g) (henv : env.Valid w) (es : List Expr) :
    Runs R g g g (evalList k env es) (fun rs w' => ∀ r ∈ rs, r.Valid w') w := by
  cases es with
  | nil => exact .pure fun _ hr => (nomatch hr)
  | cons e es =>
    rw [evalList]
    refine (hk.runs_eval ready henv e).bind fun r w₁ _ he₁ hr => ?_
    refine (hk.runs_evalList (ready.mono he₁) (henv.mono he₁) es).bind fun rs w₂ _ he₂ hrs =>
      .pure fun x hx => ?_
    rcases List.mem_cons.1 hx with rfl | hx
    · exact hr.mono he₂
    · exact hrs x hx

theorem Kernel.Sound.runs_evalPlain {R : Config → Prop} {k : Kernel} (hk : k.Sound R) {w : World}
    {g : List Frame} {env : Env} (ready : Ready w g) (henv : env.Valid w) (es : List Expr) :
    Runs R g g g (evalPlain k env es) (fun _ _ => True) w := by
  cases es with
  | nil => exact .pure trivial
  | cons e es =>
    rw [evalPlain]
    refine (hk.runs_eval ready henv e).bind fun r w₁ _ he₁ _ => .get_bind ?_
    exact (hk.runs_evalPlain (ready.mono he₁) (henv.mono he₁) es).bind fun _ _ _ _ _ => .pure trivial

theorem Kernel.Sound.runs_evalLog {R : Config → Prop} {k : Kernel} (hk : k.Sound R) {w : World}
    {g : List Frame} {env : Env} (ready : Ready w g) (henv : env.Valid w) (es : List Expr) :
    Runs R g g g (evalLog k env es) (fun _ _ => True) w := by
  cases es with
  | nil => exact .pure trivial
  | cons e es =>
    rw [evalLog]
    refine (hk.runs_eval ready henv e).bind fun r w₁ _ he₁ _ => ?_
    exact (Runs.lift (does_log hk.closed)).bind fun _ w₂ _ he₂ _ =>
      hk.runs_evalLog (ready.mono (he₁.trans he₂)) (henv.mono (he₁.trans he₂)) es

end

end Reactivity
