import Reactivity.Proofs.Run.Flushing
import Reactivity.Program.Operation

namespace Reactivity

theorem Result.ofJson_valid (w : World) (j : Json) : (Result.ofJson j).Valid w := by
  rw [ofJson]
  split
  · trivial
  · exact Value.ofPrimitive_valid w j

theorem Result.ofNumber_valid (w : World) (x : Number) : (Result.ofNumber x).Valid w :=
  Number.canonical_canonical x

theorem Result.ofNat_valid (w : World) (n : Nat) : (Result.ofNat n).Valid w :=
  ofNumber_valid w _

theorem Result.ofSnapshot_valid (w : World) (j : Json) : (Result.ofSnapshot j).Valid w := by
  cases j with
  | float x => trivial
  | _ => exact ofJson_valid w _

theorem Result.ofValue?_valid {w : World} {v : Option Value} (h : ∀ x, v = some x → x.Valid w) :
    (Result.ofValue? v).Valid w := by
  cases v with
  | none => trivial
  | some v => exact h v rfl

theorem Result.ofUnit_valid (w : World) (r : Except StateError Unit) : (Result.ofUnit r).Valid w := by
  cases r <;> trivial

theorem Result.list_valid {w : World} {items : List Result} (h : ∀ r ∈ items, r.Valid w) :
    (Result.list items).Valid w :=
  itemsValid_iff.2 h

theorem Result.values_valid {w : World} {vs : List Value} (h : ∀ v ∈ vs, v.Valid w) :
    (Result.list (vs.map .value)).Valid w := by
  refine list_valid fun r hr => ?_
  obtain ⟨v, hv, rfl⟩ := List.mem_map.1 hr
  exact h v hv

theorem Result.names_valid (w : World) (names : List String) :
    (Result.list (names.map .ofString)).Valid w := by
  refine list_valid fun r hr => ?_
  obtain ⟨name, -, rfl⟩ := List.mem_map.1 hr
  trivial

theorem Result.ofEntries_valid {w : World} {entries : List (String × Value)}
    (h : ∀ p ∈ entries, p.2.Valid w) : (Result.ofEntries entries).Valid w := by
  refine list_valid fun r hr => ?_
  obtain ⟨p, hp, rfl⟩ := List.mem_map.1 hr
  exact ⟨trivial, h p hp, trivial⟩

theorem Result.getD_valid {w : World} {args : List Result} (h : ∀ r ∈ args, r.Valid w) (i : Nat) :
    (args.getD i .nothing).Valid w := by
  rw [List.getD_eq_getElem?_getD]
  cases hi : args[i]? with
  | none => trivial
  | some r => exact h r (List.mem_of_getElem? hi)

theorem Result.getLastD_valid {w : World} {rs : List Result} (h : ∀ r ∈ rs, r.Valid w) :
    (rs.getLastD .nothing).Valid w := by
  rw [List.getLastD_eq_getLast?]
  cases hl : rs.getLast? with
  | none => trivial
  | some r => exact h r (List.mem_of_getLast? hl)

theorem World.Sane.lookup_valid {w : World} (h : w.Sane) (name : String) :
    (w.lookup name).Valid w := by
  rw [World.lookup]
  split
  · next r hr => exact h.bindings _ (mem_of_lookup hr)
  · trivial

theorem World.Sane.storeNamed?_lt {w : World} (h : w.Sane) {name : String} {id : StoreId}
    (hid : w.storeNamed? name = some id) : id < w.stores.size := by
  rw [World.storeNamed?] at hid
  split at hid
  · next id' hr => exact Option.some.inj hid ▸ h.bindings _ (mem_of_lookup hr)
  · cases hid

theorem World.Sane.subscriptionNamed?_lt {w : World} (h : w.Sane) {name : String}
    {id : SubscriptionId} (hid : w.subscriptionNamed? name = some id) :
    id < w.subscriptions.size := by
  rw [World.subscriptionNamed?] at hid
  split at hid
  · next id' hr => exact Option.some.inj hid ▸ h.bindings _ (mem_of_lookup hr)
  · cases hid

namespace Act

variable {α β : Type}

@[simp]
theorem run_set_bind (w' : World) (f : PUnit → Act α) (w : World) :
    (set w' >>= f : Act α).run.run w = (f ⟨⟩).run.run w' :=
  (rfl)

end Act

theorem run_attempt (act : Act Result) (w : World) :
    (attempt act).run.run w =
      match act.run.run w with
      | (.error (.thrown message), w') => (.ok (.thrown message), w')
      | outcome => outcome := by
  rw [attempt]
  simp only [ExceptT.run_mk, StateT.run_bind]
  rcases act.run.run w with ⟨(_ | _) | _, w'⟩ <;> rfl

section Changes

variable {R : Config → Prop} (hR : Closed R) {w : World} {g : List Frame} {u : Bool}
include hR

theorem runs_attempt {act : Act Result} (h : Runs R g g g act (fun r w' => r.Valid w') w) :
    Runs R g g g (attempt act) (fun r w' => r.Valid w') w := by
  intro hr
  have h := h hr
  rw [run_attempt]
  generalize act.run.run w = o at h ⊢
  rcases o with ⟨(_ | _ | _) | r, w'⟩
  · exact ⟨hR.step h.1 .resume, h.2.1, trivial⟩
  · exact h
  · exact h
  · exact h

theorem does_resultToValue {rt : RuntimeId} {r : Result} (code : AtCode g)
    (hrt : rt < w.runtimes.size) (hr : r.Valid w) :
    Does R g false g (r.toValue rt) (fun v w' => v.Valid w') w := by
  cases r with
  | value v => exact .pure hr
  | plain j => exact (does_wrap hR code hrt).mono fun _ _ _ _ h => h.1
  | _ => exact .pure trivial

theorem runs_resultsToValues {rt : RuntimeId} {rs : List Result} (code : AtCode g)
    (hrt : rt < w.runtimes.size) (hrs : ∀ r ∈ rs, r.Valid w) :
    Runs R g g g (rs.mapM fun r => (liftM (r.toValue rt : Change Value) : Act Value))
      (fun vs w' => ∀ v ∈ vs, v.Valid w') w := by
  induction rs generalizing w with
  | nil => exact .pure fun _ hv => (nomatch hv)
  | cons r rs ih =>
    rw [List.mapM_cons]
    refine (Runs.lift (does_resultToValue hR code hrt (hrs r (List.mem_cons_self ..)))).bind
      fun v w₁ _ he₁ hv => ?_
    refine (ih (he₁.runtimes rt hrt).1 fun r hr =>
      (hrs r (List.mem_cons_of_mem _ hr)).mono he₁).bind fun vs w₂ _ he₂ hvs => .pure fun x hx => ?_
    rcases List.mem_cons.1 hx with rfl | hx
    · exact hv.mono he₂
    · exact hvs x hx

theorem does_unsubscribe {sub : SubscriptionId} :
    Does R g u g (unsubscribe sub) (fun _ _ => True) w := by
  refine .get_bind ?_
  dsimp only
  split
  · exact .pure trivial
  · next hactive =>
    have hcancel := Aside.cancel (w := w) sub (by simpa using hactive)
    refine .step hR (pure ()) (.aside hcancel) ?_ (.pure trivial)
    simp only [Change.run_bind, Change.run_get, Change.run_modify, World.cancelled]
    split <;> rfl

theorem does_release {b : Option Binding} (hb : ∀ x, b = some x → x.Valid w) :
    Does R g u g (release b) (fun _ _ => True) w := by
  cases b with
  | none => exact .pure trivial
  | some b =>
    cases b with
    | result r => exact .pure trivial
    | store id => exact does_releaseStore hR (hb _ rfl)
    | subscription id => exact does_unsubscribe hR

theorem does_bind {name : String} {b : Binding} (hb : b.Valid w) :
    Does R g u g (bind name b) (fun _ _ => True) w := by
  refine .intro fun hr => ?_
  have hs := (hR.sane hr).world
  have haside := Aside.bind (w := w) name b hb
  refine .step hR (release (w.bindings.lookup name)) (.aside haside) rfl (does_release hR ?_)
  exact fun x hx => (hs.bindings _ (mem_of_lookup hx)).mono haside.extends

theorem does_unbind {name : String} : Does R g u g (unbind name) (fun _ _ => True) w := by
  refine .intro fun hr => ?_
  have hs := (hR.sane hr).world
  have haside := Aside.unbind (w := w) name
  refine .step hR (release (w.bindings.lookup name)) (.aside haside) rfl (does_release hR ?_)
  exact fun x hx => (hs.bindings _ (mem_of_lookup hx)).mono haside.extends

theorem does_log {r : Result} : Does R g u g (logResult r) (fun _ _ => True) w :=
  .of_step hR (.aside (.log r)) fun _ => trivial

end Changes

theorem ValueView.apply_valid {w : World} (kind : ValueView) {v : Value} (h : v.Valid w) :
    (kind.apply v).Valid w := by
  unfold ValueView.apply
  split
  · trivial
  · exact h
  · next x =>
    cases x.integer? with
    | none => trivial
    | some n => exact Result.ofNumber_valid w _
  · trivial
  · trivial

section Kinds

variable {R : Config → Prop} (hR : Closed R) {w : World} {g : List Frame} (code : AtCode g)
include hR code

theorem runs_raise {α : Type} {message : String} {Q : α → World → Prop} :
    Runs R g g g (raise message) Q w :=
  fun hr => ⟨hR.step hr (.throw code), .note w _, [.threw message], rfl, List.mem_singleton_self _⟩

theorem runs_asEffect (operation : String) {r : Result} (hr : r.Valid w) :
    Runs R g g g (r.asEffect operation)
      (fun n w' => (w'.effect? n).isSome ∧ w'.isWatcher n = false) w := by
  cases r with
  | effect n => exact .pure hr
  | _ => exact runs_raise hR code

theorem runs_asMemo (operation : String) {r : Result} (hr : r.Valid w) :
    Runs R g g g (r.asMemo operation) (fun n w' => (w'.memo? n).isSome) w := by
  cases r with
  | memo n => exact .pure hr
  | _ => exact runs_raise hR code

theorem runs_effectReport (operation : String) {r : Result} (hr : r.Valid w)
    {report : Effect → Result} (h : ∀ w e, (report e).Valid w) :
    Runs R g g g (effectReport operation r report) (fun r w' => r.Valid w') w := by
  refine (runs_asEffect hR code operation hr).bind fun n w₁ _ _ _ => .get_bind (.pure ?_)
  cases w₁.effect? n with
  | none => trivial
  | some e => exact h w₁ e

theorem runs_memoReport (operation : String) {r : Result} (hr : r.Valid w)
    {report : Memo → Result} (h : ∀ w m, m.Valid w → (report m).Valid w) :
    Runs R g g g (memoReport operation r report) (fun r w' => r.Valid w') w := by
  refine (runs_asMemo hR code operation hr).bind fun n w₁ _ _ _ => .intro fun hr₁ => ?_
  refine .get_bind (.pure ?_)
  cases hm : w₁.memo? n with
  | none => trivial
  | some m => exact h w₁ m ((hR.sane hr₁).world.memos n m hm)

end Kinds

section Operations

variable {R : Config → Prop} {k : Kernel} (hk : k.Sound R) {w : World} {g : List Frame}
include hk

theorem Kernel.Sound.runs_runTasks (ready : Ready w g) (turns : Nat) :
    Runs R g g g (runTasks k turns) (fun _ _ => True) w := by
  induction turns generalizing w with
  | zero => exact .pure trivial
  | succ turns ih =>
    rw [runTasks]
    refine .intro fun hr => .get_bind ?_
    have hs := (hk.closed.sane hr).world
    cases ht : w.tasks with
    | nil => exact .pure trivial
    | cons rt tasks =>
      have hrt : rt < w.runtimes.size := hs.tasks rt (ht ▸ List.mem_cons_self ..)
      have htask := Aside.task rt tasks ht
      have ready' := ready.mono htask.extends
      refine .step hk.closed _ (.aside htask) (Act.run_set_bind ..) ?_
      refine (runs_attempt hk.closed ?_).bind fun _ w₁ _ he₁ _ =>
        ih (ready.mono (htask.extends.trans he₁))
      exact (hk.runs_flush (.inl ready'.code) (fun _ => ready'.free) (ready'.code.tellsFor rt) hrt).bind
        fun _ _ _ _ _ => .pure trivial

theorem Kernel.Sound.runs_op (ready : Ready w g) {rt : RuntimeId} (hrt : rt < w.runtimes.size)
    (op : Op) {args : List Result} (hargs : ∀ r ∈ args, r.Valid w) :
    Runs R g g g (runOp k rt op args) (fun r w' => r.Valid w') w := by
  have ha := Result.getD_valid hargs 0
  unfold runOp
  dsimp only
  generalize args.getD 0 .nothing = a at ha
  generalize args.getD 1 .nothing = b
  refine .intro fun hr => ?_
  have hs := (hk.closed.sane hr).world
  cases op with
  | arithmetic op => exact .pure (Result.ofNumber_valid w _)
  | less => exact .pure trivial
  | same => exact .pure trivial
  | not => exact .pure trivial
  | isNothing => exact .pure trivial
  | order =>
    refine .pure ?_
    cases a.order b <;> exact Result.ofNumber_valid w _
  | here => exact .pure hrt
  | runtimeOf =>
    dsimp only
    split
    · exact .get_bind (.pure (hs.objects _ ha).1)
    · exact .get_bind (.pure (hs.arrays _ ha).1)
    · exact .pure trivial
  | newRuntime settings hook =>
    refine .get_bind (.step hk.closed _ (.newRuntime ready.code) (Act.run_set_bind ..) (.pure ?_))
    exact Nat.lt_of_lt_of_eq (Nat.lt_succ_self _) (Array.size_push _).symm
  | flush =>
    refine (hk.runs_flush (.inl ready.code) (fun _ => ready.free) (ready.code.tellsFor rt) hrt).bind
      fun outcome _ _ _ _ => ?_
    cases outcome <;> exact .pure trivial
  | runTasks => exact (hk.runs_runTasks ready _).bind fun _ _ _ _ _ => .pure trivial
  | wrap =>
    exact (Runs.lift (does_resultToValue hk.closed ready.code hrt ha)).bind
      fun _ _ _ _ hv => .pure hv
  | wrapObject =>
    refine .get_bind ?_
    split
    · exact (Runs.lift (does_wrap hk.closed ready.code hrt)).bind fun _ _ _ _ h => .pure h.1
    · exact .pure trivial
  | newObject =>
    exact (Runs.lift (does_wrap hk.closed ready.code hrt)).bind fun _ _ _ _ h => .pure h.1
  | newArray =>
    exact (Runs.lift (does_wrap hk.closed ready.code hrt)).bind fun _ _ _ _ h => .pure h.1
  | newExternal content =>
    exact .get_bind (.step hk.closed _ (.aside (.external content)) (Act.run_set_bind ..)
      (.pure trivial))
  | isKind kind =>
    dsimp only
    split <;> exact .pure trivial
  | view kind =>
    dsimp only
    split
    · exact .pure (ValueView.apply_valid kind ha)
    · exact .pure trivial
  | toJson =>
    dsimp only
    split
    · exact .get_bind (.pure (Result.ofSnapshot_valid w _))
    · exact .pure ha
  | serialize =>
    dsimp only
    split
    · exact (Runs.lift (does_serialize hk.closed ready.code ha)).bind fun _ w₁ _ _ _ =>
        .pure (Result.ofSnapshot_valid w₁ _)
    · exact .pure ha
  | serializeText =>
    dsimp only
    split
    · exact (Runs.lift (does_serialize hk.closed ready.code ha)).bind fun _ _ _ _ _ =>
        .pure trivial
    · exact .pure trivial
  | dispose =>
    refine (runs_asEffect hk.closed ready.code _ ha).bind fun n w₁ _ he₁ ⟨_, other⟩ => ?_
    exact (hk.runs_dispose (ready.mono he₁) other).bind fun _ _ _ _ _ => .pure trivial
  | schedule =>
    refine (runs_asEffect hk.closed ready.code _ ha).bind fun n w₁ _ he₁ ⟨_, other⟩ => ?_
    have ready₁ := ready.mono he₁
    exact (hk.runs_schedule ready₁.code ready₁.free other).bind fun _ _ _ _ _ => .pure trivial
  | readMemo =>
    refine (runs_asMemo hk.closed ready.code _ ha).bind fun n w₁ _ he₁ hn => ?_
    have ready₁ := ready.mono he₁
    obtain ⟨m, hm⟩ := Option.isSome_iff_exists.1 hn
    exact (hk.runs_readMemo ready₁.code hm ready₁.not_watching).mono fun _ _ _ _ h => h.1
  | flushCap => exact .get_bind (.pure (Result.ofNat_valid w _))
  | pendingCount => exact .get_bind (.pure (Result.ofNat_valid w _))
  | isFlushing => exact .get_bind (.pure trivial)
  | isTracking => exact .get_bind (.pure trivial)
  | currentReader =>
    refine .get_bind (.pure ?_)
    cases w.currentReader rt with
    | none => trivial
    | some n => exact Result.ofNat_valid w n
  | describe =>
    refine .get_bind (.pure ?_)
    cases w.describeResult? a <;> trivial
  | externalContent =>
    dsimp only
    split
    · exact .get_bind (.pure ⟨trivial, trivial, trivial⟩)
    · exact .pure trivial
  | isDisposed => exact runs_effectReport hk.closed ready.code _ ha fun _ _ => trivial
  | runCount | dependencyCount =>
    exact runs_effectReport hk.closed ready.code _ ha fun w _ => Result.ofNat_valid w _
  | peekMemo =>
    refine runs_memoReport hk.closed ready.code _ ha fun w m hm => ?_
    cases hr : m.result with
    | none => trivial
    | some r => exact ⟨hm.2.2.1 r hr, trivial⟩
  | dirtyMemo =>
    refine (runs_asMemo hk.closed ready.code _ ha).bind fun n w₁ _ he₁ _ => ?_
    have ready₁ := ready.mono he₁
    exact (hk.runs_dirtyMemo ready₁.code ready₁.free).bind fun _ _ _ _ _ => .pure trivial
  | memoState | memoHasValue => exact runs_memoReport hk.closed ready.code _ ha fun _ _ _ => trivial
  | computeCount | dependentCount =>
    exact runs_memoReport hk.closed ready.code _ ha fun w _ _ => Result.ofNat_valid w _

end Operations

theorem runs_report {R : Config → Prop} {w : World} {g : List Frame} (op : ContainerOp) (h : Handle)
    (args : List Result) :
    Runs R g g g (liftM (op.report h args) : Act Result) (fun r w' => r.Valid w') w := by
  have count (key : Key) : Does R g false g (readerCount h key) (fun r w' => r.Valid w') w :=
    .get_bind (.pure (Result.ofNat_valid w _))
  refine .lift ?_
  cases op with
  | trackedKeys => exact .get_bind (.pure (Result.ofNat_valid w _))
  | propertyReaders name => exact count _
  | indexReaders => exact count _
  | shapeReaders => exact count _
  | valueReaders => exact count _
  | _ => exact .pure trivial

section Containers

-- Nothing below unfolds what it is to run; kept closed, no action is evaluated to see what it is.
attribute [local irreducible] Runs Does

variable {R : Config → Prop} {k : Kernel} (hk : k.Sound R) {w : World} {g : List Frame}
include hk

theorem Kernel.Sound.runs_onObject (ready : Ready w g) {id : ObjectId} (hid : id < w.objects.size)
    (op : ContainerOp) {args : List Result} (hargs : ∀ r ∈ args, r.Valid w) :
    Runs R g g g (runOnObject k id op args) (fun r w' => r.Valid w') w := by
  have hb := Result.getD_valid hargs 1
  unfold runOnObject
  dsimp only
  generalize args.getD 0 .nothing = a
  generalize args.getD 1 .nothing = b at hb
  refine .intro fun hr => ?_
  have hs := (hk.closed.sane hr).world
  cases op with
  | set =>
    dsimp only
    split
    · next name =>
      refine .get_bind ((Runs.lift (does_resultToValue hk.closed ready.code (hs.objects id hid).1
        hb)).bind fun v w₁ _ he₁ hv => ?_)
      have ready₁ := ready.mono he₁
      exact (hk.runs_setObject ready₁.code ready₁.free (he₁.objects id hid).1 hv).bind
        fun _ _ _ _ _ => .pure trivial
    · exact .pure trivial
  | remove =>
    dsimp only
    split
    · exact (hk.runs_removeObject ready.code ready.free hid).bind fun _ _ _ _ h =>
        .pure (Result.ofValue?_valid h)
    · exact .pure trivial
  | contains name =>
    exact (Runs.lift (does_contains hk.closed ready.code hid)).bind fun _ _ _ _ _ => .pure trivial
  | keys =>
    exact (Runs.lift (does_keys hk.closed ready.code hid)).bind fun _ w₁ _ _ _ =>
      .pure (Result.names_valid w₁ _)
  | entries =>
    exact (Runs.lift (does_entries hk.closed ready.code hid)).bind fun _ _ _ _ h =>
      .pure (Result.ofEntries_valid h.1)
  | length =>
    exact (Runs.lift (does_lengthObject hk.closed ready.code hid)).bind fun _ w₁ _ _ _ =>
      .pure (Result.ofNat_valid w₁ _)
  | isEmpty =>
    exact (Runs.lift (does_lengthObject hk.closed ready.code hid)).bind fun _ _ _ _ _ =>
      .pure trivial
  | _ => exact runs_report _ _ args

theorem Kernel.Sound.runs_onArray (ready : Ready w g) {id : ArrayId} (hid : id < w.arrays.size)
    (op : ContainerOp) {args : List Result} (hargs : ∀ r ∈ args, r.Valid w) :
    Runs R g g g (runOnArray k id op args) (fun r w' => r.Valid w') w := by
  have ha := Result.getD_valid hargs 0
  have hb := Result.getD_valid hargs 1
  unfold runOnArray
  dsimp only
  generalize args.getD 0 .nothing = a at ha
  generalize args.getD 1 .nothing = b at hb
  refine .intro fun hr => .get_bind ?_
  have hrt : (w.array id).runtime < w.runtimes.size :=
    ((hk.closed.sane hr).world.arrays id hid).1
  have value {r : Result} (h : r.Valid w) {β : Type} {f : Value → Act β}
      {Q : β → World → Prop} (hf : ∀ v w₁, Ready w₁ g → id < w₁.arrays.size → v.Valid w₁ →
        Runs R g g g (f v) Q w₁) :
      Runs R g g g (do f (← (r.toValue (w.array id).runtime : Change Value))) Q w :=
    (Runs.lift (does_resultToValue hk.closed ready.code hrt h)).bind fun v w₁ _ he₁ hv =>
      hf v w₁ (ready.mono he₁) (he₁.arrays id hid).1 hv
  cases op with
  | set =>
    dsimp only
    exact value hb fun v w₁ ready₁ hid₁ hv =>
      (hk.runs_setArray ready₁.code ready₁.free hid₁ hv).bind fun r w₂ _ _ _ =>
        .pure (Result.ofUnit_valid w₂ r)
  | remove =>
    dsimp only
    exact (hk.runs_removeArray ready.code ready.free hid).bind fun _ _ _ _ h =>
      .pure (Result.ofValue?_valid h)
  | length =>
    dsimp only
    exact (Runs.lift (does_lengthArray hk.closed ready.code hid)).bind fun _ w₁ _ _ _ =>
      .pure (Result.ofNat_valid w₁ _)
  | isEmpty =>
    dsimp only
    exact (Runs.lift (does_lengthArray hk.closed ready.code hid)).bind fun _ _ _ _ _ =>
      .pure trivial
  | values =>
    dsimp only
    exact (Runs.lift (does_values hk.closed ready.code hid)).bind fun _ _ _ _ h =>
      .pure (Result.values_valid h.1)
  | push =>
    dsimp only
    exact value ha fun v w₁ ready₁ hid₁ hv =>
      (hk.runs_push ready₁.code ready₁.free hid₁ hv).bind fun _ _ _ _ _ => .pure trivial
  | pop =>
    dsimp only
    exact (hk.runs_pop ready.code ready.free hid).bind fun _ _ _ _ h =>
      .pure (Result.ofValue?_valid h)
  | insert =>
    dsimp only
    exact value hb fun v w₁ ready₁ hid₁ hv =>
      (hk.runs_insert ready₁.code ready₁.free hid₁ hv).bind fun r w₂ _ _ _ =>
        .pure (Result.ofUnit_valid w₂ r)
  | truncate =>
    dsimp only
    exact (hk.runs_truncate ready.code ready.free hid).bind fun _ _ _ _ _ => .pure trivial
  | clear =>
    dsimp only
    exact (hk.runs_clear ready.code ready.free hid).bind fun _ _ _ _ _ => .pure trivial
  | swap =>
    dsimp only
    exact (hk.runs_swap ready.code ready.free hid).bind fun r w₁ _ _ _ =>
      .pure (Result.ofUnit_valid w₁ r)
  | reverse =>
    dsimp only
    exact (hk.runs_reverse ready.code ready.free hid).bind fun _ _ _ _ _ => .pure trivial
  | extend =>
    dsimp only
    refine (runs_resultsToValues hk.closed ready.code hrt hargs).bind fun vs w₁ _ he₁ hvs => ?_
    have ready₁ := ready.mono he₁
    exact (hk.runs_extend ready₁.code ready₁.free (he₁.arrays id hid).1 hvs).bind
      fun _ _ _ _ _ => .pure trivial
  | _ => exact runs_report _ _ args

theorem Kernel.Sound.runs_containerOp (ready : Ready w g) (op : ContainerOp) {target : Result}
    (htarget : target.Valid w) {args : List Result} (hargs : ∀ r ∈ args, r.Valid w) :
    Runs R g g g (runContainerOp k op target args) (fun r w' => r.Valid w') w := by
  unfold runContainerOp
  split
  · exact hk.runs_onObject ready htarget op hargs
  · exact hk.runs_onArray ready htarget op hargs
  · exact .pure trivial

theorem Kernel.Sound.runs_readStep (code : AtCode g) (tracked : Bool) {target : Result}
    (htarget : target.Valid w) (key : Result) :
    Runs R g g g (liftM (readStep tracked target key) : Act Result) (fun r w' => r.Valid w') w := by
  refine .lift ?_
  unfold readStep
  split
  · next id name =>
    cases tracked with
    | true =>
      exact (does_readObject hk.closed code htarget).bind fun _ _ _ _ h =>
        .pure (Result.ofValue?_valid h.1)
    | false =>
      exact (does_peekObject hk.closed code htarget).bind fun _ _ _ _ h =>
        .pure (Result.ofValue?_valid h.1)
  · next id x =>
    cases tracked with
    | true =>
      exact (does_readArray hk.closed code htarget).bind fun _ _ _ _ h =>
        .pure (Result.ofValue?_valid h.1)
    | false =>
      exact (does_peekArray hk.closed code htarget).bind fun _ _ _ _ h =>
        .pure (Result.ofValue?_valid h.1)
  · exact .pure trivial

theorem Kernel.Sound.runs_path (code : AtCode g) (tracked : Bool) {target : Result}
    (htarget : target.Valid w) {keys : List Result} :
    Runs R g g g
      (keys.foldlM (fun r key => (liftM (readStep tracked r key : Change Result) : Act Result)) target)
      (fun r w' => r.Valid w') w := by
  induction keys generalizing w target with
  | nil => exact .pure htarget
  | cons key keys ih =>
    rw [List.foldlM_cons]
    exact (hk.runs_readStep code tracked htarget key).bind fun _ _ _ _ h => ih h

end Containers

end Reactivity
