import Reactivity.Proofs.Stores.Holding

/-!
Actions that leave the subscribers of all stores in order, however they end. What is held is a
parameter of the judgement, so that an operation that holds a store is judged while it holds it.
-/

namespace Reactivity

/-- The subscribers are in order after an action. If it has given a result, `more` of it is held
besides; if it was interrupted, then not by whoever observes the program. -/
def Leaves (held : List Binding) (more : α → List Binding) : Except Interrupt α × World → Prop
  | (.ok a, w) => w.desk.Tidy (more a ++ held)
  | (.error i, w) => i ≠ .stopped ∧ w.desk.Tidy held

/-- From a state with the subscribers in order, the action leaves them so. -/
def Act.Hands (held : List Binding) (act : Act α) (more : α → List Binding) (w : World) : Prop :=
  w.desk.Tidy held → Leaves held more (act.run.run w)

/-- The action leaves the subscribers in order whenever they are. -/
structure Act.Keeps (held : List Binding) (act : Act α) : Prop where
  hands : ∀ w, Act.Hands held act (fun _ => []) w

namespace Act

variable {α β : Type} {held : List Binding} {more : α → List Binding} {w : World}

namespace Hands

theorem error {act : Act α} (h : Hands held act more w) (hw : w.desk.Tidy held) :
    (act.run.run w).1 ≠ .error .stopped := by
  have hl := h hw
  generalize act.run.run w = o at hl
  rcases o with ⟨i | a, w'⟩
  · exact fun he => hl.1 (Except.error.inj he)
  · exact fun he => by cases he

theorem tidy {act : Act α} (h : Hands held act more w) (hw : w.desk.Tidy held) :
    (act.run.run w).2.desk.Tidy held := by
  have hl := h hw
  generalize act.run.run w = o at hl
  rcases o with ⟨i | a, w'⟩
  · exact hl.2
  · exact Desk.Tidy.of_append hl

theorem consume {more' : β → List Binding} {act : Act α} {f : α → Act β}
    (h : Hands held act more w)
    (hf : ∀ a w', w'.desk.Tidy (more a ++ held) → Leaves held more' ((f a).run.run w')) :
    Hands held (act >>= f) more' w := by
  intro hw
  have hl := h hw
  rw [run_bind]
  generalize act.run.run w = o at hl
  rcases o with ⟨i | a, w'⟩
  · exact hl
  · exact hf a w' hl

theorem bind_keeps {act : Act α} {f : α → Act β} (h : Hands held act (fun _ => []) w)
    (hf : ∀ a, Keeps held (f a)) : Hands held (act >>= f) (fun _ => []) w :=
  h.consume fun a => (hf a).hands

theorem get_bind {f : World → Act α} (h : Hands held (f w) more w) :
    Hands held (get >>= f) more w :=
  h

theorem lift_bind {c : Change β} {f : β → Act α} (hc : c.LeavesDesk)
    (h : Hands held (f (c.run w).1) more (c.run w).2) : Hands held (liftM c >>= f) more w :=
  fun hw => h (hw.of_eq (hc.desk w))

theorem modify_bind {f : World → World} {g : PUnit → Act α} (hd : (f w).desk = w.desk)
    (h : Hands held (g ⟨⟩) more (f w)) : Hands held (modify f >>= g) more w :=
  fun hw => h (hw.of_eq hd)

theorem ensuring {act : Act α} {after : Change Unit} (h : Hands held act more w)
    (ha : after.LeavesDesk) : Hands held (act.ensuring after) more w := by
  intro hw
  have hl := h hw
  rw [run_ensuring]
  generalize act.run.run w = o at hl
  have hd := ha.desk o.2
  rcases o with ⟨i | a, w'⟩
  · exact ⟨hl.1, hl.2.of_eq hd⟩
  · exact hl.of_eq hd

theorem holding {act : Act α} {id : StoreId}
    (alive : w.desk.Tidy held → id < w.desk.stores ∧ w.desk.holders id ≠ 0)
    (h : ∀ w', Hands (.store id :: held) act more w') :
    Hands held (holding id act) more w := by
  intro hw
  obtain ⟨hid, ha⟩ := alive hw
  have hl := h _ ((hw.hold hid ha).of_eq (w.desk_holdStore id))
  change Leaves held more ((act.ensuring (releaseStore id)).run.run _)
  rw [run_ensuring]
  generalize act.run.run _ = o at hl
  have hd := o.2.desk_releaseStore id
  rcases o with ⟨i | a, w'⟩
  · exact ⟨hl.1, hl.2.letGo.of_eq hd⟩
  -- What the action hands over outlives the hold on the store.
  · have hp : (more a ++ .store id :: held).Perm (.store id :: (more a ++ held)) := List.perm_middle
    exact (Desk.Tidy.letGo (hl.mono (hp.symm.append_left _).subperm)).of_eq hd

end Hands

namespace Keeps

theorem pure (a : α) : Keeps held (Pure.pure a : Act α) := ⟨fun _ hw => hw⟩

theorem throw {i : Interrupt} (hi : i ≠ .stopped) : Keeps held (throw i : Act α) :=
  ⟨fun _ hw => ⟨hi, hw⟩⟩

theorem bind {act : Act α} {f : α → Act β} (h : Keeps held act) (hf : ∀ a, Keeps held (f a)) :
    Keeps held (act >>= f) :=
  ⟨fun w => (h.hands w).bind_keeps hf⟩

theorem get_bind {f : World → Act α} (h : ∀ w, Keeps held (f w)) : Keeps held (get >>= f) :=
  ⟨fun w => (h w).hands w⟩

theorem lift {c : Change α} (h : c.LeavesDesk) : Keeps held (liftM c : Act α) :=
  ⟨fun w hw => hw.of_eq (h.desk w)⟩

theorem note {e : Event} (h : e.isAboutSubscription = false) :
    Keeps held (liftM (note e) : Act Unit) :=
  .lift (.note h)

theorem change {f : World → World} (h : ∀ w, (f w).desk = w.desk) :
    Keeps held (modify f : Act PUnit) :=
  .lift (.modify h)

theorem markStore (id : StoreId) {f : Store → Store} (hs : ∀ s, (f s).subscribers = s.subscribers)
    (hh : ∀ s, (f s).holders = s.holders) :
    Keeps held (modify (fun w : World => w.modifyStore id f) : Act PUnit) :=
  .change fun w => w.desk_modifyStore_of_eq id hs hh

theorem markEffect (n : NodeId) {f : Effect → Effect} (hf : ∀ e, (f e).job = e.job) :
    Keeps held (modify (fun w : World => w.modifyEffect n f) : Act PUnit) :=
  .change fun w => w.desk_modifyEffect_of_eq n hf

theorem ensuring {act : Act α} {after : Change Unit} (h : Keeps held act)
    (ha : after.LeavesDesk) : Keeps held (act.ensuring after) :=
  ⟨fun w => (h.hands w).ensuring ha⟩

theorem inContext {act : Act α} (h : Keeps held act) (rt : RuntimeId) (reader : Option NodeId) :
    Keeps held (inContext rt reader act) :=
  .bind (.change fun _ => rfl) fun _ => h.ensuring (.modify fun _ => rfl)

theorem untracked {act : Act α} (h : Keeps held act) (rt : RuntimeId) :
    Keeps held (untracked rt act) :=
  h.inContext rt none

theorem forM {f : α → Act PUnit} (h : ∀ a, Keeps held (f a)) (xs : List α) :
    Keeps held (xs.forM f) := by
  induction xs with
  | nil => exact .pure _
  | cons x xs ih =>
    rw [List.forM_eq_forM, List.forM_cons]
    exact .bind (h x) fun _ => ih

theorem foldlM {f : β → α → Act β} (h : ∀ b a, Keeps held (f b a)) (xs : List α) (b : β) :
    Keeps held (xs.foldlM f b) := by
  induction xs generalizing b with
  | nil => exact .pure _
  | cons x xs ih =>
    rw [List.foldlM_cons]
    exact .bind (h b x) ih

theorem mapM {f : α → Act β} (h : ∀ a, Keeps held (f a)) (xs : List α) :
    Keeps held (xs.mapM f) := by
  induction xs with
  | nil => exact .pure _
  | cons x xs ih =>
    rw [List.mapM_cons]
    exact .bind (h x) fun _ => .bind ih fun _ => .pure _

theorem filterM {f : α → Act Bool} (h : ∀ a, Keeps held (f a)) (xs : List α) :
    Keeps held (xs.filterM f) := by
  have filter (kept : List α) : Keeps held (xs.filterAuxM f kept) := by
    induction xs generalizing kept with
    | nil => exact .pure _
    | cons x xs ih => exact .bind (h x) fun _ => ih _
  exact .bind (filter []) fun _ => .pure _

theorem raise (message : String) : Keeps held (raise message : Act α) :=
  bind (note rfl) fun _ => throw (by simp)

theorem asEffect (operation : String) (r : Result) : Keeps held (r.asEffect operation) := by
  cases r with
  | effect n => exact .pure n
  | _ => exact .raise _

theorem asMemo (operation : String) (r : Result) : Keeps held (r.asMemo operation) := by
  cases r with
  | memo n => exact .pure n
  | _ => exact .raise _

theorem attempt {act : Act Result} (h : Keeps held act) : Keeps held (attempt act) := by
  refine ⟨fun w hw => ?_⟩
  have hl := h.hands w hw
  rw [run_attempt]
  generalize act.run.run w = o at hl
  rcases o with ⟨i | a, w'⟩
  · cases i with
    | thrown message => exact hl.2
    | exhausted => exact hl
    | stopped => exact hl
  · exact hl

end Keeps

end Act

/-- The operations through which bodies, flushes and triggers are nested leave the subscribers in
order, whatever is held. -/
structure Kernel.Keeps (k : Kernel) : Prop where
  observe : ∀ held, Act.Keeps held k.observe
  call : ∀ held body args, Act.Keeps held (k.call body args)
  flushNow : ∀ held rt, Act.Keeps held (k.flushNow rt)
  passOn : ∀ held rt h key, Act.Keeps held (k.passOn rt h key)

section Operations

variable {k : Kernel} (hk : k.Keeps) {held : List Binding}
include hk

theorem Kernel.Keeps.requestFlush (rt : RuntimeId) : Act.Keeps held (requestFlush k rt) := by
  rw [Reactivity.requestFlush]
  refine .bind (.note rfl) fun _ => .get_bind fun w => ?_
  cases (w.runtime rt).hook with
  | manual => exact .pure _
  | log => exact .lift (.modify fun _ => rfl)
  | flush => exact .bind (.lift (.modify fun _ => rfl)) fun _ => hk.flushNow held rt
  | task => exact .change fun _ => rfl

theorem Kernel.Keeps.enqueue (rt : RuntimeId) (n : NodeId) : Act.Keeps held (enqueue k rt n) := by
  rw [Reactivity.enqueue]
  refine .get_bind fun w => ?_
  dsimp only
  split
  · exact .pure _
  · refine .bind (.note rfl) fun _ => .bind (.change fun _ => rfl) fun _ => ?_
    split
    · exact .pure _
    · exact .bind (.change fun _ => rfl) fun _ => hk.requestFlush rt

theorem Kernel.Keeps.notifyNode (rt : RuntimeId) (n : NodeId) :
    Act.Keeps held (notifyNode k rt n) := by
  rw [Reactivity.notifyNode]
  refine .get_bind fun w => ?_
  rcases w.nodes[n]? with _ | ⟨e | m⟩
  · exact .pure _
  · exact hk.enqueue rt n
  · refine .bind (.change fun w => w.desk_modifyMemo n _) fun _ => ?_
    split
    · exact hk.passOn held rt _ _
    · exact .pure _

theorem Kernel.Keeps.trigger (rt : RuntimeId) (h : Handle) (key : Key) :
    Act.Keeps held (trigger k rt h key) := by
  rw [Reactivity.trigger]
  refine .bind (.note rfl) fun _ => .bind (.lift (leavesDesk_takeReaders h key)) fun nodes => ?_
  refine .forM (fun n => .get_bind fun w => ?_) nodes
  split
  · exact hk.notifyNode rt n
  · exact .pure _

theorem Kernel.Keeps.schedule (n : NodeId) : Act.Keeps held (schedule k n) := by
  rw [Reactivity.schedule]
  refine .get_bind fun w => ?_
  cases w.effect? n with
  | none => exact .pure _
  | some e =>
    dsimp only
    split
    · exact .pure _
    · exact .bind (.note rfl) fun _ => hk.enqueue e.runtime n

theorem Kernel.Keeps.objectSet (id : ObjectId) (name : String) (v : Value) :
    Act.Keeps held (id.set k name v) := by
  rw [ObjectId.set]
  refine .get_bind fun w => .bind (.note rfl) fun _ => ?_
  split
  · split
    · exact .pure _
    · exact .bind (.change fun _ => rfl) fun _ => hk.trigger _ _ _
  · exact .bind (.change fun _ => rfl) fun _ => .bind (hk.trigger _ _ _) fun _ => hk.trigger _ _ _

theorem Kernel.Keeps.objectRemove (id : ObjectId) (name : String) :
    Act.Keeps held (id.remove k name) := by
  rw [ObjectId.remove]
  refine .bind (.lift (id.leavesDesk_peek name)) fun v => ?_
  cases v with
  | none => exact .pure _
  | some v =>
    exact .get_bind fun w => .bind (.note rfl) fun _ => .bind (.change fun _ => rfl) fun _ =>
      .bind (hk.trigger _ _ _) fun _ => .bind (hk.trigger _ _ _) fun _ => .pure _

theorem Kernel.Keeps.arraySet (id : ArrayId) (i : Nat) (v : Value) :
    Act.Keeps held (id.set k i v) := by
  rw [ArrayId.set]
  refine .get_bind fun w => ?_
  dsimp only
  split
  · refine .bind (.note rfl) fun _ => ?_
    split
    · exact .pure _
    · exact .bind (.change fun _ => rfl) fun _ => .bind (hk.trigger _ _ _) fun _ => .pure _
  · split
    · exact .bind (.note rfl) fun _ => .bind (.change fun _ => rfl) fun _ =>
        .bind (hk.trigger _ _ _) fun _ => .bind (hk.trigger _ _ _) fun _ => .pure _
    · exact .pure _

theorem Kernel.Keeps.changeBy {α : Type} (id : ArrayId) {f : List Value → Act (List Value × α)}
    (hf : ∀ vs, Act.Keeps held (f vs)) : Act.Keeps held (id.changeBy k f) := by
  rw [ArrayId.changeBy]
  refine .get_bind fun w => .bind (.lift id.leavesDesk_contents) fun before => ?_
  refine .bind (.note rfl) fun _ => .bind ((hf before).ensuring (.note rfl)) fun p => ?_
  refine .bind (.note rfl) fun _ => .bind (.change fun _ => rfl) fun _ => ?_
  refine .bind (.forM (fun _ => hk.trigger _ _ _) _) fun _ => ?_
  split
  · exact .bind (hk.trigger _ _ _) fun _ => .pure _
  · exact .pure _

omit hk in
theorem keeps_insertSorted {less : Value → Value → Act Bool}
    (hl : ∀ x y, Act.Keeps held (less x y)) (x : Value) (ys : List Value) :
    Act.Keeps held (insertSorted less x ys) := by
  induction ys with
  | nil => exact .pure _
  | cons y ys ih =>
    rw [insertSorted]
    refine .bind (hl x y) fun b => ?_
    split
    · exact .bind ih fun _ => .pure _
    · exact .pure _

omit hk in
theorem keeps_insertionSort {less : Value → Value → Act Bool}
    (hl : ∀ x y, Act.Keeps held (less x y)) (xs : List Value) :
    Act.Keeps held (insertionSort less xs) :=
  .bind (.foldlM (fun _ x => keeps_insertSorted hl x _) xs []) fun _ => .pure _

theorem Kernel.Keeps.computeMemo (n : NodeId) (m : Memo) :
    Act.Keeps held (computeMemo k n m) := by
  rw [Reactivity.computeMemo]
  refine .bind (.lift (leavesDesk_clearSources n)) fun _ =>
    .bind (.change fun w => w.desk_modifyMemo n _) fun _ => ?_
  refine .bind (.inContext (.bind (.note rfl) fun _ => hk.call held _ _) _ _) fun result => ?_
  exact .bind (.note rfl) fun _ => .bind (.change fun w => w.desk_modifyMemo n _) fun _ => .pure _

theorem Kernel.Keeps.readMemo (n : NodeId) : Act.Keeps held (readMemo k n) := by
  rw [Reactivity.readMemo]
  refine .get_bind fun w => ?_
  cases w.memo? n with
  | none => exact .pure _
  | some m =>
    have finish (r : Result) : Act.Keeps held (finishRead k m.runtime n r) :=
      .bind (.lift (leavesDesk_noteRead ..)) fun _ => .bind (.note rfl) fun _ =>
        .bind (hk.observe held) fun _ => .pure _
    refine .bind (.lift (leavesDesk_track ..)) fun _ => ?_
    split
    · exact .bind (.note rfl) fun _ => .bind (.pure _) finish
    · exact .bind (hk.computeMemo n m) finish

theorem Kernel.Keeps.dirtyMemo (n : NodeId) : Act.Keeps held (dirtyMemo k n) := by
  rw [Reactivity.dirtyMemo]
  refine .get_bind fun w => ?_
  cases w.memo? n with
  | none => exact .pure _
  | some m => exact .bind (.note rfl) fun _ => hk.notifyNode m.runtime n

theorem Kernel.Keeps.deliver {w : World} (id : StoreId) {sub : SubscriptionId}
    (active : (w.subscription sub).active) :
    Act.Hands held (deliver k id sub) (fun _ => []) w := by
  have call : Act.Keeps held
      ((do let _ ← k.call (w.subscription sub).callback [.value (.object (w.store id).state)] :
          Act Unit).ensuring do
        modify (·.modifySubscription sub fun s => { s with running := false })
        note (.returned sub)) := by
    refine .ensuring (.bind (hk.call held _ _) fun _ => .pure _) (.bind (.modify fun w => ?_) fun _ =>
      .note rfl)
    exact w.desk_modifySubscription_of_eq sub (fun _ => rfl) fun _ => rfl
  intro hw
  rw [Reactivity.deliver, Act.run_get_bind]
  dsimp only
  split
  · exact (Act.Keeps.bind (.note rfl) fun _ => .pure _).hands w hw
  · have hd : (w.callBegun sub (w.toJson (.object (w.store id).state))).desk =
        w.desk.called sub (w.toJson (.object (w.store id).state)) := by
      refine (World.desk_modifySubscription_of_eq _ sub ?_ ?_).trans (w.desk_note _)
      · exact fun _ => rfl
      · exact fun _ => rfl
    exact call.hands _ ((hw.called active _).of_eq hd)

/-- Those of the subscribers that are active when their turn comes are called. -/
theorem Kernel.Keeps.notifyStore (id : StoreId) : Act.Keeps held (notifyStore k id) := by
  rw [Reactivity.notifyStore]
  refine .get_bind fun w => ?_
  dsimp only
  split
  · exact .bind (.note rfl) fun _ => .markStore id (fun _ => rfl) fun _ => rfl
  -- The pass goes over the list as it was when the pass began; a subscription counts as it is when
  -- its turn comes.
  · have turn (sub : SubscriptionId) : Act.Keeps held (do
        if ((← get).subscription sub).active then Reactivity.deliver k id sub : Act Unit) := by
      refine ⟨fun w hw => ?_⟩
      rw [Act.run_get_bind]
      split
      · next active => exact hk.deliver id active hw
      · exact hw
    refine .bind (.note rfl) fun _ => .bind (.markStore id (fun _ => rfl) fun _ => rfl) fun _ => ?_
    refine .bind (.ensuring (.untracked (.forM turn _) _) (.bind (.modify fun w => ?_) fun _ =>
      .note rfl)) fun _ => .get_bind fun w => ?_
    · exact w.desk_modifyStore_of_eq id (fun _ => rfl) fun _ => rfl
    · split
      · exact .bind (.markStore id (fun _ => rfl) fun _ => rfl) fun _ => hk.schedule _
      · exact .pure _

theorem Kernel.Keeps.requestPass (id : StoreId) : Act.Keeps held (requestPass k id) :=
  .bind (.note rfl) fun _ => hk.notifyStore id

end Operations

end Reactivity
