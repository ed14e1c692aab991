import Reactivity.Proofs.Run.Evaluating

namespace Reactivity

/-- Between two states nothing was thrown and none of the names was bound, and `vars` and `seen` are
what they are bound to and what the node has read. -/
structure Agrees (n : NodeId) (vars : String → Result) (seen : Read → Option Result)
    (names : List String) (w w' : World) : Prop where
  calm : ∀ message, ¬ w.Adds w' (.threw message)
  unbound : ∀ name ∈ names, ¬ w.Adds w' (.bound name)
  vars : ∀ name ∈ names, vars name = w'.lookup name
  seen : ∀ read r, w.Adds w' (.saw n read r) → seen read = some r

theorem Agrees.mono {n : NodeId} {vars : String → Result} {seen : Read → Option Result}
    {names names' : List String} {w₀ w w' w₁ : World} (h : Agrees n vars seen names w₀ w₁)
    (h₀ : w₀.Extends w) (he : w.Extends w') (h₁ : w'.Extends w₁)
    (hn : ∀ name ∈ names', name ∈ names) : Agrees n vars seen names' w w' where
  calm message ha := h.calm message (ha.mono h₀ h₁)
  unbound name hname ha := h.unbound name (hn name hname) (ha.mono h₀ h₁)
  vars name hname := by
    rw [h.vars name (hn name hname), World.lookup, World.lookup]
    rcases h₁.bindings name with hb | hb
    · rw [hb]
    · exact absurd (World.Adds.mono hb (h₀.trans he) (.refl w₁)) (h.unbound name (hn name hname))
  seen read r ha := h.seen read r (ha.mono h₀ h₁)

/-- `Determined n names out w a w'`: with one runtime, what came out is given by what the names are
bound to and by the reads of the node. -/
def Determined {α : Type} (n : NodeId) (names : List String)
    (out : (String → Result) → (Read → Option Result) → Option α) (w : World) (a : α) (w' : World) :
    Prop :=
  w'.runtimes.size ≤ 1 → ∀ vars seen, Agrees n vars seen names w w' → out vars seen = some a

theorem World.Extends.size_le {w w' : World} (h : w.Extends w') :
    w.runtimes.size ≤ w'.runtimes.size := by
  cases hs : w.runtimes.size with
  | zero => exact Nat.zero_le _
  | succ size => exact (h.runtimes size (hs ▸ Nat.lt_succ_self size)).1

section Determined

variable {α β : Type} {n : NodeId} {names names' : List String}
variable {out : (String → Result) → (Read → Option Result) → Option α} {w w₁ w₂ : World} {a : α}
variable {b : β}

theorem Determined.pure (h : ∀ vars seen, Agrees n vars seen names w w → out vars seen = some a) :
    Determined n names out w a w :=
  fun _ => h

theorem Determined.weaken (h : Determined n names out w a w₁) (he : w.Extends w₁)
    (hn : ∀ name ∈ names, name ∈ names') : Determined n names' out w a w₁ :=
  fun hsize vars seen ha => h hsize vars seen (ha.mono (.refl w) he (.refl w₁) hn)

theorem Determined.bind {out' : α → (String → Result) → (Read → Option Result) → Option β}
    (h : Determined n names out w a w₁) (h' : Determined n names (out' a) w₁ b w₂)
    (he : w.Extends w₁) (he' : w₁.Extends w₂) :
    Determined n names (fun vars seen => (out vars seen).bind fun a => out' a vars seen) w b w₂ := by
  intro hsize vars seen ha
  have h₁ := h (Nat.le_trans he'.size_le hsize) vars seen (ha.mono (.refl w) he he' fun _ hn => hn)
  have h₂ := h' hsize vars seen (ha.mono he he' (.refl w₂) fun _ hn => hn)
  simp only [h₁, Option.bind_some, h₂]

theorem Determined.extend (h : Determined n names out w a w₁) (he : w.Extends w₁)
    (he' : w₁.Extends w₂) : Determined n names out w a w₂ :=
  fun hsize vars seen ha => h (Nat.le_trans he'.size_le hsize) vars seen
    (ha.mono (.refl w) he he' fun _ hn => hn)

theorem Determined.prepend (h : Determined n names out w₁ a w₂) (he : w.Extends w₁)
    (he' : w₁.Extends w₂) : Determined n names out w a w₂ :=
  fun hsize vars seen ha => h hsize vars seen (ha.mono he he' (.refl w₂) fun _ hn => hn)

theorem Determined.map (f : α → β) (h : Determined n names out w a w₁) :
    Determined n names (fun vars seen => (out vars seen).map f) w (f a) w₁ := by
  intro hsize vars seen ha
  simp only [h hsize vars seen ha, Option.map_some]

theorem Determined.bind_pure (f : α → β) (h : Determined n names out w a w₁) :
    Determined n names (fun vars seen => (out vars seen).bind fun a => some (f a)) w (f a) w₁ := by
  intro hsize vars seen ha
  simp only [h hsize vars seen ha, Option.bind_some]

end Determined

theorem currentReader_computing {w : World} {g : List Frame} {u : Bool} {n : NodeId}
    {rt rt' : RuntimeId} {start : List Event} (h : Config.Sane ⟨w, .computing n rt start :: g, u⟩)
    (hsize : w.runtimes.size ≤ 1) (hrt : rt' < w.runtimes.size) : w.currentReader rt' = some n := by
  obtain ⟨hrt₀, -⟩ := h.frames _ (List.mem_cons_self ..)
  have zero {id : RuntimeId} (hid : id < w.runtimes.size) : id = 0 :=
    Nat.lt_one_iff.1 (Nat.lt_of_lt_of_le hid hsize)
  obtain rfl : rt = rt' := (zero hrt₀).trans (zero hrt).symm
  have hc := h.context rt hrt
  rw [contextOf, if_pos rfl, World.context] at hc
  rw [World.currentReader, hc]
  rfl

section Reads

variable {R : Config → Prop} {k : Kernel} (hk : k.Sound R) {w w' : World} {g : List Frame}
variable {n : NodeId} {rt : RuntimeId} {start : List Event}
include hk

theorem Kernel.Sound.determined_read {rt' : RuntimeId} {read : Read} {r : Result}
    (hr : R ⟨w, .computing n rt start :: g, false⟩) (he : w.Extends w') (hrt : rt' < w.runtimes.size)
    (hread : w.ReadIn rt' read r w') :
    Determined n [] (fun _ seen => seen read) w r w' := by
  intro hsize vars seen ha
  refine ha.seen read r (hread n ?_)
  exact currentReader_computing (hk.closed.sane hr) (Nat.le_trans he.size_le hsize) hrt

theorem Kernel.Sound.follows_op {rt' : RuntimeId} {op : Op} (hp : op.isPure) {args : List Result}
    (hargs : ∀ r ∈ args, r.Valid w) (hrt : rt' < w.runtimes.size) :
    Runs R (.computing n rt start :: g) (.computing n rt start :: g) (.computing n rt start :: g)
      (runOp k rt' op args)
      (fun r w' => r.Valid w' ∧ Determined n [] (fun _ seen => op.outcome seen rt' args) w r w') w := by
  have ha := Result.getD_valid hargs 0
  unfold runOp Op.outcome
  dsimp only
  generalize args.getD 0 .nothing = a at ha
  generalize args.getD 1 .nothing = b
  have known {r : Result} (hr : r.Valid w) :
      Runs R (.computing n rt start :: g) (.computing n rt start :: g) (.computing n rt start :: g)
        (pure r : Act Result)
        (fun r' w' => r'.Valid w' ∧ Determined n [] (fun _ _ => some r) w r' w') w :=
    .pure ⟨hr, .pure fun _ _ _ => rfl⟩
  cases op with
  | arithmetic op => exact known (Result.ofNumber_valid w _)
  | less => exact known trivial
  | same => exact known trivial
  | not => exact known trivial
  | isNothing => exact known trivial
  | order =>
    refine known ?_
    cases a.order b <;> exact Result.ofNumber_valid w _
  | here => exact known hrt
  | isKind kind => cases a <;> exact known trivial
  | view kind =>
    cases a with
    | value v => exact known (ValueView.apply_valid kind ha)
    | _ => exact known trivial
  | readMemo =>
    have code : AtCode (Frame.computing n rt start :: g) := trivial
    cases a with
    | memo m =>
      obtain ⟨x, hx⟩ := Option.isSome_iff_exists.1 ha
      refine .intro fun hr => ?_
      have hrt := ((hk.closed.sane hr).world.memos m x hx).1
      exact (hk.runs_readMemo code hx nofun).mono fun r w₁ _ he₁ h =>
        ⟨h.1, hk.determined_read hr he₁ hrt h.2⟩
    | _ =>
      refine (runs_raise (Q := fun (_ : NodeId) _ => False) hk.closed code).bind ?_
      exact fun _ _ _ _ h => h.elim
  | _ => cases hp

/-- A read of a size by the computation of a memo determines what is made of it. -/
theorem Kernel.Sound.determined_size {rt' : RuntimeId} {x : Handle} {size : Nat}
    (hr : R ⟨w, .computing n rt start :: g, false⟩) (he : w.Extends w') (hrt : rt' < w.runtimes.size)
    (hread : w.ReadIn rt' (.size x) (.plain (.int size)) w') (f : Nat → Result) :
    Determined n [] (fun _ seen => ((seen (.size x)).bind Result.size?).map f) w (f size) w' := by
  intro hsize vars seen ha
  have hseen : seen (.size x) = _ := hk.determined_read hr he hrt hread hsize vars seen ha
  simp only [hseen, Option.bind_some, Result.size?, Int.toNat_natCast, Option.map_some]

theorem Kernel.Sound.follows_containerOp {op : ContainerOp} (hp : op.isPure) {v : Value}
    (hv : v.Valid w) (accepts : op.accepts (.value v)) (args : List Result) :
    Runs R (.computing n rt start :: g) (.computing n rt start :: g) (.computing n rt start :: g)
      (runContainerOp k op (.value v) args)
      (fun r w' => r.Valid w' ∧ Determined n [] (fun _ seen => op.outcome seen v) w r w') w := by
  refine .intro fun hr => ?_
  have hs := (hk.closed.sane hr).world
  have code : AtCode (Frame.computing n rt start :: g) := trivial
  cases v with
  | object id =>
    have hrt := (hs.objects id hv).1
    unfold runContainerOp runOnObject
    dsimp only
    cases op with
    | contains name =>
      exact (Runs.lift (does_contains hk.closed code hv)).bind fun found w₁ _ he₁ h =>
        .pure ⟨trivial, hk.determined_read hr he₁ hrt h.1⟩
    | keys =>
      exact (Runs.lift (does_keys hk.closed code hv)).bind fun names w₁ _ he₁ h =>
        .pure ⟨Result.names_valid w₁ _, hk.determined_read hr he₁ hrt h.1⟩
    | entries =>
      exact (Runs.lift (does_entries hk.closed code hv)).bind fun entries w₁ _ he₁ h =>
        .pure ⟨Result.ofEntries_valid h.1, hk.determined_read hr he₁ hrt h.2⟩
    | length =>
      exact (Runs.lift (does_lengthObject hk.closed code hv)).bind fun size w₁ _ he₁ h =>
        .pure ⟨Result.ofNat_valid w₁ _, hk.determined_size hr he₁ hrt h.1 .ofNat⟩
    | isEmpty =>
      exact (Runs.lift (does_lengthObject hk.closed code hv)).bind fun size w₁ _ he₁ h =>
        .pure ⟨trivial, hk.determined_size hr he₁ hrt h.1 fun n => .ofBool (n == 0)⟩
    | values => cases accepts
    | _ => cases hp
  | array id =>
    have hrt := (hs.arrays id hv).1
    unfold runContainerOp runOnArray
    dsimp only
    refine .get_bind ?_
    cases op with
    | values =>
      exact (Runs.lift (does_values hk.closed code hv)).bind fun vs w₁ _ he₁ h =>
        .pure ⟨Result.values_valid h.1, hk.determined_read hr he₁ hrt h.2⟩
    | length =>
      exact (Runs.lift (does_lengthArray hk.closed code hv)).bind fun size w₁ _ he₁ h =>
        .pure ⟨Result.ofNat_valid w₁ _, hk.determined_size hr he₁ hrt h.1 .ofNat⟩
    | isEmpty =>
      exact (Runs.lift (does_lengthArray hk.closed code hv)).bind fun size w₁ _ he₁ h =>
        .pure ⟨trivial, hk.determined_size hr he₁ hrt h.1 fun n => .ofBool (n == 0)⟩
    | contains name => cases accepts
    | keys => cases accepts
    | entries => cases accepts
    | _ => cases hp
  | _ => cases accepts

theorem Kernel.Sound.follows_readStep {target : Result} (htarget : target.Valid w) (key : Result) :
    Runs R (.computing n rt start :: g) (.computing n rt start :: g) (.computing n rt start :: g)
      (liftM (readStep true target key) : Act Result)
      (fun r w' => r.Valid w' ∧
        Determined n [] (fun _ seen => Read.stepOutcome seen target key) w r w') w := by
  refine .intro fun hr => .lift ?_
  have hs := (hk.closed.sane hr).world
  have code : AtCode (Frame.computing n rt start :: g) := trivial
  unfold readStep
  split
  · next id name =>
    have hrt := (hs.objects id htarget).1
    exact (does_readObject hk.closed code htarget).bind fun v w₁ _ he₁ h =>
      .pure ⟨Result.ofValue?_valid h.1, hk.determined_read hr he₁ hrt h.2.1⟩
  · next id x =>
    have hrt := (hs.arrays id htarget).1
    exact (does_readArray hk.closed code htarget).bind fun v w₁ _ he₁ h =>
      .pure ⟨Result.ofValue?_valid h.1, hk.determined_read hr he₁ hrt h.2.1⟩
  · next ho ha => exact .pure ⟨trivial, .pure fun _ seen _ => Read.stepOutcome.eq_3 seen _ _ ho ha⟩

theorem Kernel.Sound.follows_path {target : Result} (htarget : target.Valid w) {keys : List Result} :
    Runs R (.computing n rt start :: g) (.computing n rt start :: g) (.computing n rt start :: g)
      (keys.foldlM (fun r key => (liftM (readStep true r key : Change Result) : Act Result)) target)
      (fun r w' => r.Valid w' ∧
        Determined n [] (fun _ seen => keys.foldlM (Read.stepOutcome seen) target) w r w') w := by
  induction keys generalizing w target with
  | nil => exact .pure ⟨htarget, .pure fun _ _ _ => rfl⟩
  | cons key keys ih =>
    rw [List.foldlM_cons]
    refine (hk.follows_readStep htarget key).bind fun r w₁ _ he₁ ⟨hr, hd⟩ => ?_
    exact (ih hr).mono fun r' w₂ _ he₂ ⟨hr', hd'⟩ => ⟨hr', hd.bind hd' he₁ he₂⟩

end Reads

/-- What is thrown within an action would contradict that nothing was thrown. -/
theorem follows_attempt {R : Config → Prop} (hR : Closed R) {w : World} {g : List Frame} {n : NodeId}
    {names : List String} {out : (String → Result) → (Read → Option Result) → Option Result}
    {act : Act Result}
    (h : Runs R g g g act (fun r w' => r.Valid w' ∧ Determined n names out w r w') w) :
    Runs R g g g (attempt act) (fun r w' => r.Valid w' ∧ Determined n names out w r w') w := by
  intro hr
  have h := h hr
  rw [run_attempt]
  generalize act.run.run w = o at h ⊢
  rcases o with ⟨(_ | _ | _) | r, w'⟩
  · obtain ⟨hr', he, hthrew⟩ := h
    exact ⟨hR.step hr' .resume, he, trivial, fun _ _ _ ha => absurd hthrew (ha.calm _)⟩
  · exact h
  · exact h
  · exact h

theorem follows_replicate {R : Config → Prop} {w : World} {g : List Frame} {n : NodeId}
    {names : List String} {out : (String → Result) → (Read → Option Result) → Option (List Result)}
    (count : Nat) {act : Act (List Result)}
    (hact : ∀ {w'}, w.Extends w' →
      Runs R g g g act (fun rs w'' => Determined n names out w' rs w'') w') :
    Runs R g g g (replicateAct (count + 1) do let _ ← act)
      (fun _ w' => Determined n names (fun vars seen => (out vars seen).map fun _ => Result.nothing)
        w .nothing w') w := by
  have once {w' : World} (he : w.Extends w') :
      Runs R g g g (do let _ ← act : Act Unit)
        (fun _ w'' => Determined n names (fun vars seen => (out vars seen).map fun _ => Result.nothing)
          w' .nothing w'') w' :=
    (hact he).bind fun _ _ _ _ hd => .pure (hd.map _)
  refine (once (.refl w)).bind fun _ w₁ _ he₁ hd => ?_
  exact (runs_replicate count fun he₂ => (once (he₁.trans he₂)).mono fun _ _ _ _ _ => trivial).mono
    fun _ w₂ _ he₂ _ => hd.extend he₁ he₂

mutual

theorem Kernel.Sound.follows_eval {R : Config → Prop} {k : Kernel} (hk : k.Sound R) {w : World}
    {g : List Frame} {n : NodeId} {rt : RuntimeId} {start : List Event} {env : Env}
    (henv : env.Valid w) (e : Expr) (hp : e.isPure) :
    Runs R (.computing n rt start :: g) (.computing n rt start :: g) (.computing n rt start :: g)
      (eval k env e)
      (fun r w' => r.Valid w' ∧
        Determined n e.names (fun vars seen => e.outcome vars seen env) w r w') w := by
  have code : AtCode (Frame.computing n rt start :: g) := trivial
  rw [eval.eq_def]
  suffices h : ∀ w, env.Valid w →
      Runs R (.computing n rt start :: g) (.computing n rt start :: g) (.computing n rt start :: g) _
        (fun r w' => r.Valid w' ∧
          Determined n e.names (fun vars seen => e.outcome vars seen env) w r w') w from
    hk.runs_observed (.inl code) fun w₀ he => (h w₀ (henv.mono he)).mono
      fun r w' _ he' hr => ⟨hr.1, hr.2.prepend he he'⟩
  intro w henv
  refine .intro fun hr => ?_
  have hs := (hk.closed.sane hr).world
  cases e with
  | literal j => exact .pure ⟨Result.ofJson_valid w j, .pure fun _ _ _ => rfl⟩
  | number x => exact .pure ⟨Result.ofNumber_valid w x, .pure fun _ _ _ => rfl⟩
  | nothing => exact .pure ⟨trivial, .pure fun _ _ _ => rfl⟩
  | var name =>
    refine .get_bind (.pure ⟨hs.lookup_valid name, .pure fun vars seen ha => ?_⟩)
    exact congrArg some (ha.vars name (List.mem_cons_self ..))
  | argument i => exact .pure ⟨Result.getD_valid henv.args i, .pure fun _ _ _ => rfl⟩
  | block es =>
    exact (hk.follows_evalList henv es hp).bind fun _ _ _ _ ⟨hrs, hd⟩ =>
      .pure ⟨Result.getLastD_valid hrs, hd.map _⟩
  | attempt es =>
    exact follows_attempt hk.closed ((hk.follows_evalList henv es hp).bind fun _ _ _ _ ⟨hrs, hd⟩ =>
      .pure ⟨Result.getLastD_valid hrs, hd.map _⟩)
  | list es =>
    exact (hk.follows_evalList henv es hp).bind fun _ _ _ _ ⟨hrs, hd⟩ =>
      .pure ⟨Result.list_valid hrs, hd.map _⟩
  | cond c t e =>
    obtain ⟨⟨hpc, hpt⟩, hpe⟩ : (c.isPure ∧ t.isPure) ∧ e.isPure := by simpa [Expr.isPure] using hp
    refine (hk.follows_eval henv c hpc).bind fun r w₁ _ he₁ ⟨_, hd⟩ => ?_
    have henv₁ := henv.mono he₁
    have hd : Determined n (Expr.cond c t e).names _ w r w₁ := hd.weaken he₁ fun name hn => by
      simp [Expr.names, hn]
    cases hb : r.isTrue with
    | true =>
      refine (hk.follows_eval henv₁ t hpt).mono fun r' w₂ _ he₂ ⟨hr', hd'⟩ =>
        ⟨hr', hd.bind ?_ he₁ he₂⟩
      simp only [hb, if_true]
      exact hd'.weaken he₂ fun name hn => by simp [Expr.names, hn]
    | false =>
      refine (hk.follows_eval henv₁ e hpe).mono fun r' w₂ _ he₂ ⟨hr', hd'⟩ =>
        ⟨hr', hd.bind ?_ he₁ he₂⟩
      simp only [hb, Bool.false_eq_true, if_false]
      exact hd'.weaken he₂ fun name hn => by simp [Expr.names, hn]
  | replicate times es =>
    obtain ⟨hpt, hpes⟩ : times.isPure ∧ Expr.allPure es := by simpa [Expr.isPure] using hp
    refine (hk.follows_eval henv times hpt).bind fun r w₁ _ he₁ ⟨_, hd⟩ => ?_
    have hd : Determined n (Expr.replicate times es).names _ w r w₁ :=
      hd.weaken he₁ fun _ hn => List.mem_append_left _ hn
    cases hc : r.toNumber.toIndex with
    | zero =>
      refine .pure ⟨trivial, hd.bind (.pure fun vars seen _ => ?_) he₁ (.refl w₁)⟩
      exact if_pos hc
    | succ count =>
      have hacts {w' : World} (he : w₁.Extends w') :
          Runs R (.computing n rt start :: g) (.computing n rt start :: g)
            (.computing n rt start :: g) (evalList k env es)
            (fun rs w'' => Determined n (Expr.allNames es)
              (fun vars seen => Expr.outcomes vars seen env es) w' rs w'') w' :=
        (hk.follows_evalList ((henv.mono he₁).mono he) es hpes).mono fun _ _ _ _ h => h.2
      refine (follows_replicate count hacts).bind fun _ w₂ _ he₂ hd₂ =>
        .pure ⟨trivial, hd.bind ?_ he₁ he₂⟩
      simp only [hc, Nat.succ_ne_zero, if_false]
      exact hd₂.weaken he₂ fun _ hn => List.mem_append_right _ hn
  | within runtime es =>
    obtain ⟨hpr, hpes⟩ : runtime.isPure ∧ Expr.allPure es := by simpa [Expr.isPure] using hp
    refine (hk.follows_eval henv runtime hpr).bind fun r w₁ _ he₁ ⟨hr, hd⟩ => ?_
    have hd : Determined n (Expr.within runtime es).names _ w r w₁ :=
      hd.weaken he₁ fun _ hn => List.mem_append_left _ hn
    cases r with
    | runtime rt' =>
      have henv₁ : Env.Valid w₁ { env with runtime := rt' } := ⟨hr, (henv.mono he₁).args⟩
      exact (hk.follows_evalList henv₁ es hpes).bind fun rs w₂ _ he₂ ⟨hrs, hd'⟩ =>
        .pure ⟨Result.getLastD_valid hrs, hd.bind
          ((hd'.map _).weaken he₂ fun _ hn => List.mem_append_right _ hn) he₁ he₂⟩
    | _ => exact .pure ⟨trivial, hd.bind (.pure fun _ _ _ => rfl) he₁ (.refl w₁)⟩
  | apply op es =>
    obtain ⟨hpo, hpes⟩ : op.isPure ∧ Expr.allPure es := by simpa [Expr.isPure] using hp
    refine (hk.follows_evalList henv es hpes).bind fun args w₁ _ he₁ ⟨hargs, hd⟩ => ?_
    exact (hk.follows_op hpo hargs (henv.mono he₁).runtime).mono fun r w₂ _ he₂ ⟨hr, hd'⟩ =>
      ⟨hr, hd.bind (hd'.weaken he₂ fun _ hn => (nomatch hn)) he₁ he₂⟩
  | path tracked target keys =>
    obtain ⟨⟨ht, hpt⟩, hpk⟩ : (tracked ∧ target.isPure) ∧ Expr.allPure keys := by
      simpa [Expr.isPure] using hp
    subst ht
    refine (hk.follows_eval henv target hpt).bind fun r w₁ _ he₁ ⟨hr, hd⟩ => ?_
    refine (hk.follows_evalList (henv.mono he₁) keys hpk).bind fun rs w₂ _ he₂ ⟨_, hd₂⟩ => ?_
    refine (hk.follows_path (hr.mono he₂)).mono fun r' w₃ _ he₃ ⟨hr', hd₃⟩ => ⟨hr', ?_⟩
    have hd : Determined n (Expr.path true target keys).names _ w r w₁ :=
      hd.weaken he₁ fun _ hn => List.mem_append_left _ hn
    have hd₂ : Determined n (Expr.path true target keys).names _ w₁ rs w₂ :=
      hd₂.weaken he₂ fun _ hn => List.mem_append_right _ hn
    exact hd.bind (hd₂.bind (hd₃.weaken he₃ fun _ hn => (nomatch hn)) he₂ he₃) he₁ (he₂.trans he₃)
  | container op target es =>
    obtain ⟨⟨hpo, hpt⟩, hpes⟩ : (op.isPure ∧ target.isPure) ∧ Expr.allPure es := by
      simpa [Expr.isPure] using hp
    refine (hk.follows_eval henv target hpt).bind fun r w₁ _ he₁ ⟨hr, hd⟩ => ?_
    have hd : Determined n (Expr.container op target es).names _ w r w₁ :=
      hd.weaken he₁ fun _ hn => List.mem_append_left _ hn
    cases ha : op.accepts r with
    | false =>
      rw [if_neg Bool.false_ne_true]
      refine .pure ⟨trivial, hd.bind (.pure fun vars seen _ => ?_) he₁ (.refl w₁)⟩
      exact if_neg (by simp [ha])
    | true =>
      rw [if_pos rfl]
      refine (hk.follows_evalList (henv.mono he₁) es hpes).bind fun args w₂ _ he₂ ⟨_, hd₂⟩ => ?_
      cases r with
      | value v =>
        refine (hk.follows_containerOp hpo (hr.mono he₂) ha args).mono fun r' w₃ _ he₃ ⟨hr', hd₃⟩ =>
          ⟨hr', hd.bind ?_ he₁ (he₂.trans he₃)⟩
        simp only [ha, if_true]
        have hd₂ : Determined n (Expr.container op target es).names _ w₁ args w₂ :=
          hd₂.weaken he₂ fun _ hn => List.mem_append_right _ hn
        exact hd₂.bind (hd₃.weaken he₃ fun _ hn => (nomatch hn)) he₂ he₃
      | _ => cases ha
  | _ => cases hp

theorem Kernel.Sound.follows_evalList {R : Config → Prop} {k : Kernel} (hk : k.Sound R) {w : World}
    {g : List Frame} {n : NodeId} {rt : RuntimeId} {start : List Event} {env : Env}
    (henv : env.Valid w) (es : List Expr) (hp : Expr.allPure es) :
    Runs R (.computing n rt start :: g) (.computing n rt start :: g) (.computing n rt start :: g)
      (evalList k env es)
      (fun rs w' => (∀ r ∈ rs, r.Valid w') ∧
        Determined n (Expr.allNames es) (fun vars seen => Expr.outcomes vars seen env es) w rs w') w := by
  cases es with
  | nil => exact .pure ⟨fun _ hr => (nomatch hr), .pure fun _ _ _ => rfl⟩
  | cons e es =>
    obtain ⟨hpe, hpes⟩ : e.isPure ∧ Expr.allPure es := by simpa [Expr.allPure] using hp
    rw [evalList]
    refine (hk.follows_eval henv e hpe).bind fun r w₁ _ he₁ ⟨hr, hd⟩ => ?_
    refine (hk.follows_evalList (henv.mono he₁) es hpes).bind fun rs w₂ _ he₂ ⟨hrs, hd'⟩ =>
      .pure ⟨fun x hx => ?_, (hd.weaken he₁ fun _ hn => List.mem_append_left _ hn).bind
        ((hd'.bind_pure (r :: ·)).weaken he₂ fun _ hn => List.mem_append_right _ hn) he₁ he₂⟩
    rcases List.mem_cons.1 hx with rfl | hx
    · exact hr.mono he₂
    · exact hrs x hx

end

end Reactivity
