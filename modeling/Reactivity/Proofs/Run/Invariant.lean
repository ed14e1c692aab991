import Reactivity.Proofs.Run.Sanity

namespace Reactivity

namespace World

variable (w : World)

theorem runtimes_modifyReaders (h : Handle) (f : Readers → Readers) :
    (w.modifyReaders h f).runtimes = w.runtimes := by
  cases h <;> rfl

theorem runtimes_trackedBy (n : NodeId) (h : Handle) (key : Key) :
    (w.trackedBy n h key).runtimes = w.runtimes := by
  rw [trackedBy]
  split
  · rfl
  · exact runtimes_modifyReaders _ h _

theorem runtimes_trackedIn (rt : RuntimeId) (h : Handle) (key : Key) :
    (w.trackedIn rt h key).runtimes = w.runtimes := by
  rw [trackedIn]
  split
  · rfl
  · exact runtimes_trackedBy w _ h key

theorem runtimes_removeReaders (n : NodeId) (ps : List (Handle × Key)) :
    (ps.foldl (fun w p => w.modifyReaders p.1 (·.remove p.2 n)) w).runtimes = w.runtimes := by
  induction ps generalizing w with
  | nil => rfl
  | cons p ps ih => exact (ih _).trans (runtimes_modifyReaders w p.1 _)

theorem runtimes_clearedOf (n : NodeId) : (w.clearedOf n).runtimes = w.runtimes :=
  runtimes_removeReaders _ n _

theorem runtimes_taken (h : Handle) (key : Key) : (w.taken h key).runtimes = w.runtimes :=
  runtimes_modifyReaders _ h _

theorem runtimes_gotBy (reader : Option NodeId) (n : NodeId) (r : Result) :
    (w.gotBy reader n r).runtimes = w.runtimes := by
  cases reader <;> rfl

theorem runtimes_disposing (n : NodeId) : (w.disposing n).runtimes = w.runtimes :=
  runtimes_clearedOf _ n

theorem size_modifyRuntime (rt : RuntimeId) (f : Runtime → Runtime) :
    (w.modifyRuntime rt f).runtimes.size = w.runtimes.size := by
  simp [modifyRuntime]

/-- The computations that a runtime attributes reads to, innermost first. -/
def context (rt : RuntimeId) : List (Option NodeId) :=
  (w.runtime rt).context

theorem context_modifyRuntime (i j : RuntimeId) {f : Runtime → Runtime}
    (hf : ∀ r, (f r).context = r.context) : (w.modifyRuntime i f).context j = w.context j := by
  rw [context, runtime_modifyRuntime]
  split
  · exact hf _
  · rfl

theorem context_pushContext (i j : RuntimeId) (reader : Option NodeId) (hj : j < w.runtimes.size) :
    (w.pushContext i reader).context j =
      if i = j then reader :: w.context j else w.context j := by
  rw [context, pushContext, runtime_modifyRuntime]
  split
  · next h => rw [if_pos h.1, context]
  · next h =>
    rw [if_neg, context]
    exact fun hij => h ⟨hij, hj⟩

theorem context_popContext (i j : RuntimeId) (hj : j < w.runtimes.size) :
    (w.popContext i).context j = if i = j then (w.context j).tail else w.context j := by
  rw [context, popContext, runtime_modifyRuntime]
  split
  · next h => rw [if_pos h.1, context]
  · next h =>
    rw [if_neg, context]
    exact fun hij => h ⟨hij, hj⟩

theorem context_requested (rt j : RuntimeId) : (w.requested rt).context j = w.context j := by
  have h := w.context_modifyRuntime rt j (f := fun r => { r with flushRequested := true })
    fun _ => rfl
  rw [requested]
  split <;> exact h

theorem context_queuedIn (rt : RuntimeId) (n : NodeId) (j : RuntimeId) :
    (w.queuedIn rt n).context j = w.context j := by
  have h := (w.note (.queued rt n)).context_modifyRuntime rt j
    (f := fun r => { r with queue := r.queue ++ [n] }) fun _ => rfl
  rw [queuedIn]
  split
  · exact h
  · exact (context_requested _ rt j).trans h

theorem size_requested (rt : RuntimeId) :
    (w.requested rt).runtimes.size = w.runtimes.size := by
  have h := w.size_modifyRuntime rt fun r => { r with flushRequested := true }
  rw [requested]
  split <;> exact h

theorem size_queuedIn (rt : RuntimeId) (n : NodeId) :
    (w.queuedIn rt n).runtimes.size = w.runtimes.size := by
  have h := (w.note (.queued rt n)).size_modifyRuntime rt fun r =>
    { r with queue := r.queue ++ [n] }
  rw [queuedIn]
  split
  · exact h
  · exact (size_requested _ rt).trans h

theorem Sane.emptied {w : World} (h : w.Sane) (rt : RuntimeId) :
    (w.modifyRuntime rt fun r => { r with queue := [] }).Sane :=
  h.modifyRuntime rt (fun _ => ⟨rfl, rfl⟩) fun hrt =>
    ⟨fun _ hn => (nomatch hn), (h.runtimes rt hrt).2⟩

theorem context_congr {w w' : World} (h : w'.runtimes = w.runtimes) (rt : RuntimeId) :
    w'.context rt = w.context rt := by
  rw [context, context, runtime, runtime, h]

theorem mem_nodes_of_currentReader {w : World} (h : w.Sane) {rt : RuntimeId} {n : NodeId}
    (hrt : rt < w.runtimes.size) (hn : w.currentReader rt = some n) : n < w.nodes.size := by
  refine (h.runtimes rt hrt).2 n ?_
  rw [currentReader] at hn
  cases hc : (w.runtime rt).context with
  | nil => simp [hc] at hn
  | cons r rest =>
    simp only [hc, List.head?_cons, Option.join_some] at hn
    simp [hn]

end World

/-- The computations of a runtime on the stack, and the masks between them. -/
def contextOf (rt : RuntimeId) : List Frame → List (Option NodeId)
  | [] => []
  | .running n rt' :: g => if rt' = rt then some n :: contextOf rt g else contextOf rt g
  | .computing n rt' _ :: g => if rt' = rt then some n :: contextOf rt g else contextOf rt g
  | .masked rt' :: g => if rt' = rt then none :: contextOf rt g else contextOf rt g
  | .writing .. :: g => contextOf rt g
  | .telling .. :: g => contextOf rt g
  | .pending _ :: g => contextOf rt g
  | .created _ :: g => contextOf rt g
  | .reading .. :: g => contextOf rt g
  | .changing .. :: g => contextOf rt g
  | .flushing _ :: g => contextOf rt g
  | .round .. :: g => contextOf rt g
  | .watched _ :: g => contextOf rt g
  | .notified _ :: g => contextOf rt g
  | .amid s :: g => if s.mask? = some rt then none :: contextOf rt g else contextOf rt g
  | .passing _ rt' _ :: g => if rt' = rt then none :: contextOf rt g else contextOf rt g
  | .passed _ :: g => contextOf rt g
  | .greeting .. :: g => contextOf rt g
  | .calling _ :: g => contextOf rt g
  | .beyond :: g => contextOf rt g

def Frame.context? (rt : RuntimeId) : Frame → Option (Option NodeId)
  | .running n rt' => if rt' = rt then some (some n) else none
  | .computing n rt' _ => if rt' = rt then some (some n) else none
  | .masked rt' => if rt' = rt then some none else none
  | .amid s => if s.mask? = some rt then some none else none
  | .passing _ rt' _ => if rt' = rt then some none else none
  | _ => none

theorem contextOf_eq_filterMap (rt : RuntimeId) (g : List Frame) :
    contextOf rt g = g.filterMap (Frame.context? rt) := by
  induction g with
  | nil => rfl
  | cons f g ih =>
    cases f <;> simp only [contextOf, List.filterMap_cons, Frame.context?, ih] <;> split <;> rfl

theorem Frame.context?_eq_some {rt : RuntimeId} {f : Frame} {n : NodeId} :
    f.context? rt = some (some n) ↔ f = .running n rt ∨ ∃ start, f = .computing n rt start := by
  constructor
  · intro h
    cases f with
    | running | computing =>
      rw [Frame.context?] at h
      split at h
      · next hrt =>
        obtain rfl := Option.some.inj (Option.some.inj h)
        subst hrt
        simp
      · cases h
    | masked | amid | passing =>
      rw [Frame.context?] at h
      split at h <;> cases h
    | _ => cases h
  · rintro (rfl | ⟨start, rfl⟩)
    · exact if_pos rfl
    · exact if_pos rfl

def Frame.Valid (w : World) : Frame → Prop
  | .writing rt h _ => rt < w.runtimes.size ∧ h.Valid w
  | .telling rt nodes => rt < w.runtimes.size ∧ ∀ n ∈ nodes, n < w.nodes.size
  | .pending n => (w.effect? n).isSome
  | .created n => (w.effect? n).isSome
  | .running n rt => rt < w.runtimes.size ∧ (w.effect? n).isSome
  | .computing n rt _ => rt < w.runtimes.size ∧ (w.memo? n).isSome
  | .reading reader n => (w.memo? n).isSome ∧ ∀ x, reader = some x → x < w.nodes.size
  | .changing id before => id < w.arrays.size ∧ ∀ v ∈ before, v.Valid w
  | .masked rt => rt < w.runtimes.size
  | .flushing rt => rt < w.runtimes.size
  | .round rt batch => rt < w.runtimes.size ∧ ∀ n ∈ batch, (w.effect? n).isSome
  | .watched n => (w.effect? n).isSome
  | .notified n => (w.effect? n).isSome
  | .amid s => (w.effect? s.node).isSome ∧ ∀ rt, s.mask? = some rt → rt < w.runtimes.size
  | .passing id rt _ => id < w.stores.size ∧ rt < w.runtimes.size
  | .passed id => id < w.stores.size
  | .greeting id _ => id < w.stores.size
  | .calling sub => sub < w.subscriptions.size
  | .beyond => True

theorem Frame.Valid.mono {w w' : World} (h : w.Extends w') {f : Frame} (hf : f.Valid w) :
    f.Valid w' := by
  cases f with
  | writing rt x keys => exact ⟨(h.runtimes rt hf.1).1, hf.2.mono h⟩
  | telling rt nodes =>
    exact ⟨(h.runtimes rt hf.1).1, fun n hn => Nat.lt_of_lt_of_le (hf.2 n hn) h.nodes⟩
  | pending n => exact h.isSome_effect? hf
  | created n => exact h.isSome_effect? hf
  | running n rt => exact ⟨(h.runtimes rt hf.1).1, h.isSome_effect? hf.2⟩
  | computing n rt start => exact ⟨(h.runtimes rt hf.1).1, h.isSome_memo? hf.2⟩
  | reading reader n =>
    exact ⟨h.isSome_memo? hf.1, fun x hx => Nat.lt_of_lt_of_le (hf.2 x hx) h.nodes⟩
  | changing id before => exact ⟨(h.arrays id hf.1).1, fun v hv => (hf.2 v hv).mono h⟩
  | masked rt => exact (h.runtimes rt hf).1
  | flushing rt => exact (h.runtimes rt hf).1
  | round rt batch => exact ⟨(h.runtimes rt hf.1).1, fun n hn => h.isSome_effect? (hf.2 n hn)⟩
  | watched n => exact h.isSome_effect? hf
  | notified n => exact h.isSome_effect? hf
  | amid s => exact ⟨h.isSome_effect? hf.1, fun rt hrt => (h.runtimes rt (hf.2 rt hrt)).1⟩
  | passing id rt => exact ⟨(h.stores id hf.1).1, (h.runtimes rt hf.2).1⟩
  | passed id | greeting id => exact (h.stores id hf).1
  | calling sub => exact (h.subscriptions sub hf).1
  | beyond => trivial

theorem Frame.valid_cleaning {w : World} {n : NodeId} {rt : RuntimeId} {left : List Closure}
    (hn : (w.effect? n).isSome) (hrt : rt < w.runtimes.size) :
    (Frame.amid (.cleaning n rt left)).Valid w :=
  ⟨hn, fun _ h => Option.some.inj h ▸ hrt⟩

theorem contextOf_amid {s : Stage} {rt rt' : RuntimeId} {g : List Frame}
    (mask : s.mask? = some rt) : contextOf rt' (.amid s :: g) =
      if rt = rt' then none :: contextOf rt' g else contextOf rt' g := by
  simp only [contextOf, mask, Option.some.injEq]

/-- What an interrupt drops takes no part in what reads are attributed to. -/
theorem Frame.Droppable.contextOf_eq {f : Frame} {g : List Frame} {rt : RuntimeId}
    (h : f.Droppable) : contextOf rt (f :: g) = contextOf rt g := by
  cases f with
  | amid s =>
    have hs : s.mask? = none := h
    rw [contextOf, hs, if_neg fun h => by cases h]
  | _ => first | rfl | exact h.elim

section Advance

variable {s s' : Stage} {e : Event} (h : s.Advance e s')
include h

theorem Stage.Advance.node_eq : s'.node = s.node := by
  cases h <;> rfl

theorem Stage.Advance.mask?_eq : s'.mask? = s.mask? := by
  cases h <;> rfl

end Advance

/-- The state is sane, and agrees with the stack. -/
structure Config.Sane (c : Config) : Prop where
  world : c.world.Sane
  context : ∀ rt, rt < c.world.runtimes.size → c.world.context rt = contextOf rt c.stack
  frames : ∀ f ∈ c.stack, f.Valid c.world

theorem contextOf_eq_nil {w : World} {rt : RuntimeId} {g : List Frame}
    (hrt : w.runtimes.size ≤ rt) (hg : ∀ f ∈ g, f.Valid w) : contextOf rt g = [] := by
  induction g with
  | nil => rfl
  | cons f g ih =>
    have ih := ih fun f hf => hg f (List.mem_cons_of_mem _ hf)
    have hf := hg f (List.mem_cons_self ..)
    cases f with
    | running n rt' =>
      have : rt' ≠ rt := Nat.ne_of_lt (Nat.lt_of_lt_of_le hf.1 hrt)
      rw [contextOf, if_neg this, ih]
    | computing n rt' start =>
      have : rt' ≠ rt := Nat.ne_of_lt (Nat.lt_of_lt_of_le hf.1 hrt)
      rw [contextOf, if_neg this, ih]
    | masked rt' =>
      have : rt' ≠ rt := Nat.ne_of_lt (Nat.lt_of_lt_of_le hf hrt)
      rw [contextOf, if_neg this, ih]
    | passing id rt' =>
      have : rt' ≠ rt := Nat.ne_of_lt (Nat.lt_of_lt_of_le hf.2 hrt)
      rw [contextOf, if_neg this, ih]
    | amid s =>
      have : s.mask? ≠ some rt := fun h => Nat.lt_irrefl _ (Nat.lt_of_lt_of_le (hf.2 rt h) hrt)
      rw [contextOf, if_neg this, ih]
    | _ => exact ih

section Aside

variable {w w' : World}

theorem lookup_filter (bs : List (String × Binding)) (name other : String) (h : other ≠ name) :
    (bs.filter (·.1 != name)).lookup other = bs.lookup other := by
  induction bs with
  | nil => rfl
  | cons p bs ih =>
    obtain ⟨k, b⟩ := p
    rw [List.filter_cons]
    by_cases hk : k = name
    · subst k
      rw [if_neg (by simp), ih, List.lookup_cons, beq_false_of_ne h]
    · rw [if_pos (by simpa using hk), List.lookup_cons, List.lookup_cons, ih]

theorem lookup_cons_filter (bs : List (String × Binding)) (name : String) (b : Binding)
    (other : String) (h : other ≠ name) :
    ((name, b) :: bs.filter (·.1 != name)).lookup other = bs.lookup other := by
  rw [List.lookup_cons, beq_false_of_ne h, lookup_filter bs name other h]

/-- After a variable was bound anew, the others are bound to what they were. -/
theorem World.lookup_rebound {name : String} {bs : List (String × Binding)}
    (h : ∀ other, other ≠ name → bs.lookup other = w.bindings.lookup other) (other : String) :
    bs.lookup other = w.bindings.lookup other ∨
      ∃ new, (w.note (.bound name)).history = new ++ w.history ∧ .bound other ∈ new := by
  by_cases hn : other = name
  · subst hn
    exact .inr ⟨[.bound other], rfl, List.mem_singleton_self _⟩
  · exact .inl (h other hn)

theorem Aside.extends (h : Aside w w') : w.Extends w' := by
  cases h with
  | log r => exact { World.Extends.refl w with }
  | clearLog => exact { World.Extends.refl w with }
  | bind name b valid =>
    exact { World.Extends.note w (.bound name) with
      bindings := World.lookup_rebound (lookup_cons_filter w.bindings name b) }
  | unbind name =>
    exact { World.Extends.note w (.bound name) with
      bindings := World.lookup_rebound (lookup_filter w.bindings name) }
  | external content => exact { World.Extends.refl w with }
  | task rt tasks h => exact { World.Extends.refl w with }
  | hold id => exact .modifyStore w id ⟨rfl, rfl, rfl⟩
  | release id _ => exact .modifyStore w id ⟨rfl, rfl, rfl⟩
  | cancel sub _ => exact .cancelled w sub
  | _ => exact .note w _

theorem World.cancelled_eq (w : World) (sub : SubscriptionId) :
    ∃ stores subscriptions, w.cancelled sub =
      { w with
        stores := stores, subscriptions := subscriptions
        history := .unsubscribed sub :: w.history } := by
  simp only [cancelled]
  split <;> exact ⟨_, _, rfl⟩

theorem Aside.runtimes_eq (h : Aside w w') : w'.runtimes = w.runtimes := by
  cases h with
  | cancel sub _ =>
    obtain ⟨_, _, h⟩ := w.cancelled_eq sub
    rw [h]
  | _ => rfl

theorem Aside.sane (h : Aside w w') (hw : w.Sane) : w'.Sane := by
  have he := h.extends
  cases h with
  | log r => exact hw.withLog _
  | clearLog => exact hw.withLog _
  | bind name b valid =>
    refine hw.of_extends he (fun _ hi => .inr ⟨hi, rfl⟩) (fun _ hi => .inr ⟨hi, rfl⟩)
      (fun _ hi => .inr ⟨hi, rfl⟩) (fun _ _ => .inr) (fun _ _ => .inr) (fun _ hi => .inr ⟨hi, rfl⟩)
      (fun _ hi => .inr ⟨hi, rfl⟩) (fun p hp => ?_) (fun _ => .inr)
    rcases List.mem_cons.1 hp with rfl | hp
    · exact .inl (valid.mono he)
    · exact .inr (List.mem_of_mem_filter hp)
  | unbind name =>
    exact hw.of_extends he (fun _ hi => .inr ⟨hi, rfl⟩) (fun _ hi => .inr ⟨hi, rfl⟩)
      (fun _ hi => .inr ⟨hi, rfl⟩) (fun _ _ => .inr) (fun _ _ => .inr) (fun _ hi => .inr ⟨hi, rfl⟩)
      (fun _ hi => .inr ⟨hi, rfl⟩) (fun p hp => .inr (List.mem_of_mem_filter hp)) (fun _ => .inr)
  | external content =>
    exact hw.of_extends he (fun _ hi => .inr ⟨hi, rfl⟩) (fun _ hi => .inr ⟨hi, rfl⟩)
      (fun _ hi => .inr ⟨hi, rfl⟩) (fun _ _ => .inr) (fun _ _ => .inr) (fun _ hi => .inr ⟨hi, rfl⟩)
      (fun _ hi => .inr ⟨hi, rfl⟩) (fun _ => .inr) (fun _ => .inr)
  | task rt tasks h => exact hw.withTasks fun x hx => hw.tasks x (h ▸ List.mem_cons_of_mem _ hx)
  | hold id => exact hw.markStore id fun _ => ⟨rfl, rfl, rfl, rfl⟩
  | release id _ => exact hw.markStore id fun _ => ⟨rfl, rfl, rfl, rfl⟩
  | cancel sub _ => exact hw.cancelled sub
  | _ => exact hw.note _

end Aside

section Edit

variable {w w' : World} {write : Write}

theorem Edit.extends (he : Edit w write w') : w.Extends w' := by
  have hn := World.Extends.note w (.wrote write)
  cases he
  · exact hn.trans (.modifyObject _ _ fun _ => rfl)
  · exact hn.trans (.modifyObject _ _ fun _ => rfl)
  · exact hn.trans (.modifyObject _ _ fun _ => rfl)
  · exact hn.trans (.modifyArray _ _ fun _ => rfl)
  · exact hn.trans (.modifyArray _ _ fun _ => rfl)

theorem Edit.runtimes_eq (he : Edit w write w') : w'.runtimes = w.runtimes := by
  cases he <;> rfl

theorem Edit.valid (he : Edit w write w') : write.handle.Valid w := by
  cases he <;> assumption

theorem Edit.sane (he : Edit w write w') (hw : w.Sane) : w'.Sane := by
  have hn (event : Event) := hw.note event
  cases he with
  | @setProperty id name v cell valid value there other =>
    refine (hn _).modifyObject id (fun _ => rfl) fun hid => ?_
    obtain ⟨hr, hp, hd⟩ := hw.objects id hid
    refine ⟨hr, fun p hm => ?_, hd⟩
    obtain ⟨q, hq, rfl⟩ := List.mem_map.1 hm
    simp only
    split
    · exact value
    · exact hp q hq
  | @addProperty id name v valid value absent =>
    refine (hn _).modifyObject id (fun _ => rfl) fun hid => ?_
    obtain ⟨hr, hp, hd⟩ := hw.objects id hid
    refine ⟨hr, fun p hm => ?_, hd⟩
    rcases List.mem_append.1 hm with hm | hm
    · exact hp p hm
    · obtain rfl := List.mem_singleton.1 hm
      exact value
  | @removeProperty id name v valid there =>
    refine (hn _).modifyObject id (fun _ => rfl) fun hid => ?_
    obtain ⟨hr, hp, hd⟩ := hw.objects id hid
    exact ⟨hr, fun p hm => hp p (List.mem_of_mem_filter hm), hd⟩
  | @setSlot id i v cell valid value there other =>
    refine (hn _).modifyArray id (fun _ => rfl) fun hid => ?_
    obtain ⟨hr, hp, hd⟩ := hw.arrays id hid
    refine ⟨hr, fun c hm => ?_, hd⟩
    rcases List.mem_or_eq_of_mem_set hm with hm | rfl
    · exact hp c hm
    · exact value
  | @addSlot id v valid value =>
    refine (hn _).modifyArray id (fun _ => rfl) fun hid => ?_
    obtain ⟨hr, hp, hd⟩ := hw.arrays id hid
    refine ⟨hr, fun c hm => ?_, hd⟩
    rcases List.mem_append.1 hm with hm | hm
    · exact hp c hm
    · obtain rfl := List.mem_singleton.1 hm
      exact value

end Edit

theorem follows_prime {w : World} {n : NodeId} {e : Effect} {id : StoreId}
    (effect : w.effect? n = some e) (job : e.job = .watchStore id false) (e' : Effect)
    (he' : w.effect? n = some e') : e'.job.Follows (.watchStore id true) := by
  obtain rfl : e = e' := Option.some.inj (effect.symm.trans he')
  rw [job]
  exact ⟨rfl, nofun⟩

theorem Step.extends {c c' : Config} (h : Step c c') : c.world.Extends c'.world := by
  cases h with
  | aside h => exact h.extends
  | track _ _ _ _ _ => exact .trackedBy _ _ _ _
  | see _ _ _ _ _ _ _ => exact .note _ _
  | newObject _ _ _ => exact .trans (.note _ _) (.pushObject _ _)
  | newArray _ _ _ => exact .trans (.note _ _) (.pushArray _ _)
  | resolveObject _ _ => exact .modifyObject _ _ fun _ => rfl
  | resolveArray _ _ => exact .modifyArray _ _ fun _ => rfl
  | write _ _ _ edit => exact edit.extends
  | beginChange _ _ _ _ => exact .note _ _
  | @endChange w g rt id before after _ _ =>
    have hn := (World.Extends.note w (.changeEnded id)).trans
      (.note _ (.wrote (.items id before after)))
    exact hn.trans (.modifyArray _ _ fun _ => rfl)
  | abandonChange => exact .note _ _
  | trigger => exact .taken _ _ _
  | tellEffect _ _ => exact .queuedIn _ _ _
  | tellDirty _ _ => exact .madeDirty _ _
  | tellClean _ _ => exact .madeDirty _ _
  | schedule _ _ _ _ _ _ => exact .trans (.note _ _) (.queuedIn _ _ _)
  | markDirty _ _ _ => exact .trans (.note _ _) (.madeDirty _ _)
  | markClean _ _ _ _ => exact .trans (.note _ _) (.madeDirty _ _)
  | newMemo _ _ _ => exact .pushNode _ _
  | reuse _ _ _ _ _ => exact .trans (.trackedIn _ _ _ _) (.note _ _)
  | beginCompute _ _ _ _ => exact .trans (.trackedIn _ _ _ _) (.computing _ _ _)
  | endCompute _ _ _ => exact .computed _ _ _ _
  | abandonCompute => exact .popContext _ _
  | endReading _ _ => exact .gotBy _ _ _ _
  | newEffect _ _ _ _ _ => exact .pushNode _ _
  | newStore _ _ _ => exact .withStore _ _
  | @addCleanup w g rt n e c _ _ _ _ _ _ =>
    refine .trans (.note _ (.cleanupAdded n c)) ?_
    exact .modifyEffect _ _ fun _ _ => ⟨rfl, .refl _, id⟩
  | beginCleaning _ => exact .cleaning _ _ _
  | endCleaning => exact .trans (.popContext _ _) (.note _ _)
  | abandonCleaning _ => exact .popContext _ _
  | clearRunning _ _ => exact .clearedOf _ _
  | beginRun _ _ _ _ => exact .running _ _ _
  | endRun _ => exact .ran _ _ _
  | advance _ => exact .note _ _
  | keep _ _ follows => exact .modifyEffect _ _ fun e he => ⟨rfl, follows e he, id⟩
  | prime effect job => exact .modifyEffect _ _ fun e he => ⟨rfl, follows_prime effect job e he, id⟩
  | watchPass _ _ _ _ => exact .passBegun _ _
  | watchPostpone _ _ _ => exact .passPostponed _ _
  | endWatch _ => exact .ran _ _ _
  | beginPass _ _ _ _ => exact .trans (.note _ _) (.passBegun _ _)
  | endPass => exact .passEnded _ _ _
  | postpone _ _ _ => exact .trans (.note _ _) (.passPostponed _ _)
  | forgo _ => exact .modifyStore _ _ ⟨rfl, rfl, rfl⟩
  | takeUp _ _ _ => exact .trans (.modifyStore _ _ ⟨rfl, rfl, rfl⟩) (.note _ _)
  | beginCall _ _ _ | greet _ _ => exact .callBegun _ _ _
  | subscribe _ _ _ _ => exact .trans (.withSubscription _ _ _) (.pushContext _ _ _)
  | endCall => exact .callEnded _ _
  | abandonRun => exact .stopped _ _ _
  | dispose _ _ _ _ _ => exact .trans (.disposing _ _) (.cleaning _ _ _)
  | retire _ => exact .trans (.disposing _ _) (.note _ _)
  | mask _ _ _ => exact .pushContext _ _ _
  | unmask => exact .popContext _ _
  | newRuntime _ => exact .pushRuntime _ _
  | @beginFlush w g rt _ _ _ _ =>
    refine .trans (.note _ (.flushBegan rt)) ?_
    exact .modifyRuntime _ _ fun _ => ⟨rfl, rfl⟩
  | beginRound _ =>
    refine .trans ?_ (.note _ _)
    exact .modifyRuntime _ _ fun _ => ⟨rfl, rfl⟩
  | giveUp _ _ =>
    refine .trans ?_ (.note _ _)
    exact .modifyRuntime _ _ fun _ => ⟨rfl, rfl⟩
  | beginTurn _ => exact .note _ _
  | endFlush _ =>
    refine .trans ?_ (.note _ _)
    exact .modifyRuntime _ _ fun _ => ⟨rfl, rfl⟩
  | throw _ => exact .note _ _
  | exhaust => exact .note _ _
  | _ => exact .refl _

theorem valid_or_mem {w : World} {f f' : Frame} {g : List Frame} (hf : f ∈ f' :: g)
    (h : f'.Valid w) : f.Valid w ∨ f ∈ g := by
  rcases List.mem_cons.1 hf with rfl | hf
  · exact .inl h
  · exact .inr hf

theorem resolved_valid {w : World} {old new : Cell} (h : old.Resolved w new) (hold : old.Valid w) :
    new.Valid w := by
  rcases h with rfl | ⟨j, v, rfl, rfl, -, hv⟩
  · exact hold
  · exact hv

theorem forall_valid_of_forall₂ {w : World} {old new : List Cell}
    (h : List.Forall₂ (Cell.Resolved w) old new) (hold : ∀ c ∈ old, c.Valid w) :
    ∀ c ∈ new, c.Valid w := by
  induction h with
  | nil => exact fun _ hc => by cases hc
  | cons hcd _ ih =>
    intro c hc
    rcases List.mem_cons.1 hc with rfl | hc
    · exact resolved_valid hcd (hold _ (List.mem_cons_self ..))
    · exact ih (fun c hc => hold c (List.mem_cons_of_mem _ hc)) c hc

namespace World

/-- There are the same runtimes, and they attribute reads to the same computations. -/
structure SameContexts (w w' : World) : Prop where
  size : w'.runtimes.size = w.runtimes.size
  context (rt : RuntimeId) : w'.context rt = w.context rt

variable {w w' : World}

theorem SameContexts.of_runtimes (h : w'.runtimes = w.runtimes) : w.SameContexts w' :=
  ⟨by rw [h], context_congr h⟩

theorem SameContexts.modifyRuntime (w : World) (rt : RuntimeId) {f : Runtime → Runtime}
    (hf : ∀ r, (f r).context = r.context) : w.SameContexts (w.modifyRuntime rt f) :=
  ⟨w.size_modifyRuntime rt f, fun j => w.context_modifyRuntime rt j hf⟩

theorem SameContexts.emptied (w : World) (rt : RuntimeId) :
    w.SameContexts (w.modifyRuntime rt fun r => { r with queue := [] }) :=
  .modifyRuntime w rt fun _ => rfl

theorem SameContexts.queuedIn (w : World) (rt : RuntimeId) (n : NodeId) :
    w.SameContexts (w.queuedIn rt n) :=
  ⟨w.size_queuedIn rt n, w.context_queuedIn rt n⟩

theorem runtimes_pushContext (h : w'.runtimes = w.runtimes) (rt : RuntimeId)
    (reader : Option NodeId) :
    (w'.pushContext rt reader).runtimes = (w.pushContext rt reader).runtimes := by
  simp only [pushContext, World.modifyRuntime, h]

namespace Sane

variable (h : w.Sane)
include h

theorem pushObject {rt : RuntimeId} {properties : Properties} (valid : rt < w.runtimes.size)
    (values : ∀ p ∈ properties, p.2.Valid w) :
    ({ w with objects := w.objects.push { runtime := rt, properties := properties } } : World).Sane := by
  have he := Extends.pushObject w { runtime := rt, properties := properties }
  refine h.of_extends he (fun _ hi => .inr ⟨hi, rfl⟩) (fun id hi => ?_)
    (fun _ hi => .inr ⟨hi, rfl⟩) (fun _ _ => .inr) (fun _ _ => .inr) (fun _ hi => .inr ⟨hi, rfl⟩)
    (fun _ hi => .inr ⟨hi, rfl⟩) (fun _ => .inr) (fun _ => .inr)
  rcases Nat.lt_succ_iff_lt_or_eq.1 (by simpa using hi) with hi | rfl
  · exact .inr ⟨hi, by simp [object, Array.getElem?_push, Nat.ne_of_lt hi]⟩
  · refine .inl ?_
    simp only [object, Array.getElem?_push, if_true, Option.getD_some]
    exact ⟨valid, fun p hp => (values p hp).mono he, fun p hp => by cases hp⟩

theorem pushArray {rt : RuntimeId} {cells : List Cell} (valid : rt < w.runtimes.size)
    (values : ∀ c ∈ cells, c.Valid w) :
    ({ w with arrays := w.arrays.push { runtime := rt, cells := cells } } : World).Sane := by
  have he := Extends.pushArray w { runtime := rt, cells := cells }
  refine h.of_extends he (fun _ hi => .inr ⟨hi, rfl⟩) (fun _ hi => .inr ⟨hi, rfl⟩)
    (fun id hi => ?_) (fun _ _ => .inr) (fun _ _ => .inr) (fun _ hi => .inr ⟨hi, rfl⟩)
    (fun _ hi => .inr ⟨hi, rfl⟩) (fun _ => .inr) (fun _ => .inr)
  rcases Nat.lt_succ_iff_lt_or_eq.1 (by simpa using hi) with hi | rfl
  · exact .inr ⟨hi, by simp [array, Array.getElem?_push, Nat.ne_of_lt hi]⟩
  · refine .inl ?_
    simp only [array, Array.getElem?_push, if_true, Option.getD_some]
    exact ⟨valid, fun p hp => (values p hp).mono he, fun p hp => by cases hp⟩

theorem resolveObject {id : ObjectId} {properties : Properties}
    (resolved : Properties.Resolved w (w.object id).properties properties) :
    (w.modifyObject id fun o => { o with properties := properties }).Sane := by
  refine h.modifyObject id (fun _ => rfl) fun hid => ?_
  obtain ⟨hr, hp, hd⟩ := h.objects id hid
  refine ⟨hr, fun p hm => ?_, hd⟩
  rcases resolved.cells p hm with hold | ⟨j, v, -, hv, -, hvalid⟩
  · exact hp p hold
  · exact hv ▸ hvalid

theorem resolveArray {id : ArrayId} {cells : List Cell}
    (resolved : List.Forall₂ (Cell.Resolved w) (w.array id).cells cells) :
    (w.modifyArray id fun a => { a with cells := cells }).Sane := by
  refine h.modifyArray id (fun _ => rfl) fun hid => ?_
  obtain ⟨hr, hp, hd⟩ := h.arrays id hid
  exact ⟨hr, forall_valid_of_forall₂ resolved hp, hd⟩

theorem changeArray (id : ArrayId) {after : List Value} (values : ∀ v ∈ after, v.Valid w) :
    (w.modifyArray id fun a => { a with cells := after.map .value }).Sane := by
  refine h.modifyArray id (fun _ => rfl) fun hid => ?_
  obtain ⟨hr, -, hd⟩ := h.arrays id hid
  refine ⟨hr, fun c hm => ?_, hd⟩
  obtain ⟨v, hv, rfl⟩ := List.mem_map.1 hm
  exact values v hv

theorem addCleanup (n : NodeId) {c : Closure} (closure : c.Valid w) :
    (w.modifyEffect n fun e => { e with cleanups := e.cleanups ++ [c] }).Sane := by
  refine h.modifyEffect n (fun _ _ => ⟨rfl, .refl _, id⟩) fun e hn => ?_
  obtain ⟨hr, hj, hcl, hs⟩ := h.effects n e hn
  refine ⟨hr, hj, fun x hx => ?_, hs⟩
  rcases List.mem_append.1 hx with hx | hx
  · exact hcl x hx
  · obtain rfl := List.mem_singleton.1 hx
    exact closure

theorem keepJob {n : NodeId} {job : Job} (closures : job.Valid w)
    (follows : ∀ e, w.effect? n = some e → e.job.Follows job) :
    (w.modifyEffect n fun e => { e with job := job }).Sane := by
  refine h.modifyEffect n (fun e hn => ⟨rfl, follows e hn, id⟩) fun e hn => ?_
  obtain ⟨hr, -, hcl, hs⟩ := h.effects n e hn
  exact ⟨hr, closures, hcl, hs⟩

theorem memo_runtime {n : NodeId} {m : Memo} (memo : w.memo? n = some m) :
    m.runtime < w.runtimes.size :=
  (h.memos n m memo).1

theorem store_runtime {id : StoreId} (valid : id < w.stores.size) :
    (w.store id).runtime < w.runtimes.size := by
  obtain ⟨-, -, hrt, -⟩ := h.stores id valid
  exact hrt

end Sane

end World

namespace Frame

variable {w w' : World}

theorem Valid.tell {rt : RuntimeId} {n : NodeId} {ns : List NodeId}
    (h : (Frame.telling rt (n :: ns)).Valid w) : (Frame.telling rt ns).Valid w :=
  ⟨h.1, fun m hm => h.2 m (List.mem_cons_of_mem _ hm)⟩

theorem Valid.turn {rt : RuntimeId} {n : NodeId} {batch : List NodeId}
    (h : (Frame.round rt (n :: batch)).Valid w) : (Frame.round rt batch).Valid w :=
  ⟨h.1, fun m hm => h.2 m (List.mem_cons_of_mem _ hm)⟩

theorem valid_reading (hw : w.Sane) {n : NodeId} {m : Memo} (memo : w.memo? n = some m) :
    (Frame.reading (w.currentReader m.runtime) n).Valid w :=
  ⟨Option.isSome_of_eq_some memo, fun _ hx =>
    World.mem_nodes_of_currentReader hw (hw.memo_runtime memo) hx⟩

end Frame

namespace Config.Sane

variable {w w' : World} {g g' : List Frame} {f f' : Frame} {u u' : Bool}

theorem top (h : Config.Sane ⟨w, f :: g, u⟩) : f.Valid w :=
  h.frames f (List.mem_cons_self ..)

/-- Steps that change neither the runtimes that there are nor what reads are attributed to. -/
theorem quiet (h : Config.Sane ⟨w, g, u⟩) (he : w.Extends w') (hs : w'.Sane)
    (same : w.SameContexts w') (stack : ∀ rt, contextOf rt g' = contextOf rt g)
    (frames : ∀ f ∈ g', f.Valid w' ∨ f ∈ g) : Config.Sane ⟨w', g', u'⟩ where
  world := hs
  context rt hrt := by
    rw [same.context, stack]
    exact h.context rt (same.size ▸ hrt)
  frames f hf := (frames f hf).elim id fun hg => (h.frames f hg).mono he

theorem stay (h : Config.Sane ⟨w, g, u⟩) (he : w.Extends w') (hs : w'.Sane)
    (same : w.SameContexts w') : Config.Sane ⟨w', g, u'⟩ :=
  h.quiet he hs same (fun _ => rfl) fun _ => .inr

/-- The innermost frame is left. -/
theorem leave (h : Config.Sane ⟨w, f :: g, u⟩) (he : w.Extends w') (hs : w'.Sane)
    (same : w.SameContexts w') (hf : ∀ rt, contextOf rt (f :: g) = contextOf rt g) :
    Config.Sane ⟨w', g, u'⟩ :=
  h.quiet he hs same (fun rt => (hf rt).symm) fun _ hx => .inr (List.mem_cons_of_mem _ hx)

/-- A frame is put on top. -/
theorem enter (h : Config.Sane ⟨w, g, u⟩) (he : w.Extends w') (hs : w'.Sane)
    (same : w.SameContexts w') (valid : f.Valid w')
    (hf : ∀ rt, contextOf rt (f :: g) = contextOf rt g) : Config.Sane ⟨w', f :: g, u'⟩ :=
  h.quiet he hs same hf fun _ hx => valid_or_mem hx valid

/-- The innermost frame becomes another one. -/
theorem exchange (h : Config.Sane ⟨w, f :: g, u⟩) (he : w.Extends w') (hs : w'.Sane)
    (same : w.SameContexts w') (valid : f'.Valid w')
    (hf : ∀ rt, contextOf rt (f' :: g) = contextOf rt (f :: g)) : Config.Sane ⟨w', f' :: g, u'⟩ :=
  h.quiet he hs same hf fun _ hx => (valid_or_mem hx valid).imp_right (List.mem_cons_of_mem _)

theorem tell {rt : RuntimeId} {n : NodeId} {ns : List NodeId}
    (h : Config.Sane ⟨w, .telling rt (n :: ns) :: g, u⟩) (he : w.Extends w') (hs : w'.Sane)
    (same : w.SameContexts w') : Config.Sane ⟨w', .telling rt ns :: g, u'⟩ :=
  h.exchange he hs same (h.top.tell.mono he) fun _ => rfl

theorem tellClean {rt : RuntimeId} {n : NodeId} {ns : List NodeId} {m : Memo}
    (h : Config.Sane ⟨w, .telling rt (n :: ns) :: g, u⟩) (memo : w.memo? n = some m) :
    Config.Sane ⟨w.madeDirty n, .writing rt (.memo n) [.value] :: .telling rt ns :: g, u'⟩ := by
  have he := World.Extends.madeDirty w n
  have hs := h.world.madeDirty n
  have htelling : Config.Sane ⟨w.madeDirty n, .telling rt ns :: g, u⟩ :=
    h.tell he hs (.of_runtimes rfl)
  exact htelling.enter (.refl _) hs (.of_runtimes rfl)
    ⟨(he.runtimes rt h.top.1).1, he.isSome_memo? (Option.isSome_of_eq_some memo)⟩ fun _ => rfl

/-- A computation is started, or a mask is put on. -/
theorem push (h : Config.Sane ⟨w, g, u⟩) (he : w.Extends w') (hs : w'.Sane) (rt : RuntimeId)
    (reader : Option NodeId) (same : (w.pushContext rt reader).SameContexts w')
    (valid : f.Valid w')
    (hf : ∀ j, contextOf j (f :: g) = if rt = j then reader :: contextOf j g else contextOf j g) :
    Config.Sane ⟨w', f :: g, u'⟩ where
  world := hs
  context j hj := by
    have hj' : j < w.runtimes.size := by
      rw [same.size] at hj
      exact (w.size_modifyRuntime ..).symm ▸ hj
    rw [same.context, w.context_pushContext rt j reader hj', hf, h.context j hj']
  frames x hx := (valid_or_mem hx valid).elim id fun hg => (h.frames x hg).mono he

/-- A computation is over, or a mask is taken off. -/
theorem pop (h : Config.Sane ⟨w, f :: g, u⟩) (he : w.Extends w') (hs : w'.Sane) (rt : RuntimeId)
    (reader : Option NodeId) (same : (w.popContext rt).SameContexts w')
    (hf : ∀ j, contextOf j (f :: g) = if rt = j then reader :: contextOf j g else contextOf j g) :
    Config.Sane ⟨w', g, u'⟩ where
  world := hs
  context j hj := by
    have hj' : j < w.runtimes.size := by
      rw [same.size] at hj
      exact (w.size_modifyRuntime ..).symm ▸ hj
    rw [same.context, w.context_popContext rt j hj', h.context j hj', hf]
    split <;> rfl
  frames x hx := (h.frames x (List.mem_cons_of_mem _ hx)).mono he

theorem newRuntime (h : Config.Sane ⟨w, g, u⟩) (settings : Settings) (hook : Hook) :
    Config.Sane
      ⟨{ w with runtimes := w.runtimes.push { settings := settings, hook := hook } }, g, u⟩ := by
  have he := World.Extends.pushRuntime w { settings := settings, hook := hook }
  refine ⟨?_, fun j hj => ?_, fun f hf => (h.frames f hf).mono he⟩
  · refine h.world.of_extends he (fun id hi => ?_) (fun _ hi => .inr ⟨hi, rfl⟩)
      (fun _ hi => .inr ⟨hi, rfl⟩) (fun _ _ => .inr) (fun _ _ => .inr) (fun _ hi => .inr ⟨hi, rfl⟩)
      (fun _ hi => .inr ⟨hi, rfl⟩) (fun _ => .inr) (fun _ => .inr)
    rcases Nat.lt_succ_iff_lt_or_eq.1 (by simpa using hi) with hi | rfl
    · exact .inr ⟨hi, by simp [World.runtime, Array.getElem?_push, Nat.ne_of_lt hi]⟩
    · refine .inl ?_
      simp only [World.runtime, Array.getElem?_push, if_true, Option.getD_some]
      exact ⟨fun n hn => absurd hn List.not_mem_nil, fun n hn => absurd hn List.not_mem_nil⟩
  · rcases Nat.lt_succ_iff_lt_or_eq.1 (by simpa using hj) with hj | rfl
    · rw [← h.context j hj]
      simp [World.context, World.runtime, Array.getElem?_push, Nat.ne_of_lt hj]
    · rw [contextOf_eq_nil (Nat.le_refl _) h.frames]
      simp [World.context, World.runtime]

theorem beginChange (h : Config.Sane ⟨w, g, u⟩) {id : ArrayId} {before : List Value}
    (valid : id < w.arrays.size) (content : (w.array id).cells = before.map .value) :
    Config.Sane ⟨w.note (.changeBegan id), .changing id before :: g, u'⟩ := by
  refine h.enter (.note _ _) (h.world.note _) (.of_runtimes rfl) ⟨valid, fun v hv => ?_⟩ fun _ => rfl
  have hcell : Cell.Valid w (.value v) :=
    (h.world.arrays _ valid).2.1 (.value v) (content ▸ List.mem_map_of_mem hv)
  exact Value.Valid.mono (.note _ _) hcell

theorem endChange {rt : RuntimeId} {id : ArrayId} {before after : List Value}
    (h : Config.Sane ⟨w, .changing id before :: g, u⟩) (owner : w.owner (.array id) = rt)
    (values : ∀ v ∈ after, v.Valid w) :
    Config.Sane
      ⟨((w.note (.changeEnded id)).note (.wrote (.items id before after))).modifyArray id fun a =>
        { a with cells := after.map .value },
        .writing rt (.array id) (changedKeys before after) :: g, u'⟩ := by
  have hn := (World.Extends.note w (.changeEnded id)).trans (.note _ (.wrote (.items id before after)))
  have he := hn.trans (.modifyArray _ id (f := fun a => { a with cells := after.map .value })
    fun _ => rfl)
  have hv : Handle.Valid w (.array id) := h.top.1
  have hs := ((h.world.note _).note _).changeArray id fun v hv => (values v hv).mono hn
  exact h.exchange he hs (.of_runtimes rfl)
    ⟨owner ▸ (he.runtimes _ (h.world.owner_lt hv)).1, hv.mono he⟩ fun _ => rfl

theorem trigger {rt : RuntimeId} {x : Handle} {key : Key} {keys : List Key}
    (h : Config.Sane ⟨w, .writing rt x (key :: keys) :: g, u⟩) :
    Config.Sane ⟨w.taken x key, .telling rt ((w.readers x).on key) :: .writing rt x keys :: g, u'⟩ := by
  obtain ⟨hrt, hv⟩ := h.top
  have he := World.Extends.taken w x key
  have hs := h.world.taken key hv
  have hrt' := (he.runtimes rt hrt).1
  have hwriting : Config.Sane ⟨w.taken x key, .writing rt x keys :: g, u⟩ :=
    h.exchange he hs (.of_runtimes (w.runtimes_taken x key)) ⟨hrt', hv.mono he⟩ fun _ => rfl
  refine hwriting.enter (.refl _) hs (.of_runtimes rfl) ⟨hrt', fun n hn => ?_⟩ fun _ => rfl
  exact Nat.lt_of_lt_of_le (h.world.readers_valid hv _ (Readers.mem_on.1 hn)) he.nodes

theorem beginCompute (h : Config.Sane ⟨w, g, u⟩) {n : NodeId} {m : Memo} {start : List Event}
    (memo : w.memo? n = some m) :
    Config.Sane
      ⟨(w.trackedIn m.runtime (.memo n) .value).computing n m.runtime,
        .computing n m.runtime start :: .reading (w.currentReader m.runtime) n :: g, u'⟩ := by
  have hm : Handle.Valid w (.memo n) := Option.isSome_of_eq_some memo
  have hrt := h.world.memo_runtime memo
  have ht := World.Extends.trackedIn w m.runtime (.memo n) .value
  have he := ht.trans (.computing _ n m.runtime)
  have hs := (h.world.trackedIn .value hm hrt).computing m.runtime
    (Nat.lt_of_lt_of_le (World.lt_of_memo? hm) ht.nodes)
  have hr : ((w.trackedIn m.runtime (.memo n) .value).clearedOf n).runtimes = w.runtimes :=
    (World.runtimes_clearedOf ..).trans (World.runtimes_trackedIn ..)
  have hreading : Config.Sane ⟨w, .reading (w.currentReader m.runtime) n :: g, u⟩ :=
    h.enter (.refl w) h.world (.of_runtimes rfl) (Frame.valid_reading h.world memo) fun _ => rfl
  exact hreading.push he hs m.runtime (some n) (.of_runtimes (World.runtimes_pushContext hr ..))
    ⟨(he.runtimes _ hrt).1, he.isSome_memo? hm⟩ fun _ => rfl

theorem reuse (h : Config.Sane ⟨w, g, u⟩) {n : NodeId} {m : Memo} (memo : w.memo? n = some m) :
    Config.Sane
      ⟨(w.trackedIn m.runtime (.memo n) .value).note (.recalled n),
        .reading (w.currentReader m.runtime) n :: g, u'⟩ := by
  have he := (World.Extends.trackedIn w m.runtime (.memo n) .value).trans (.note _ (.recalled n))
  have hs := h.world.trackedIn .value (x := .memo n) (Option.isSome_of_eq_some memo)
    (h.world.memo_runtime memo)
  exact h.enter he (hs.note _) (.of_runtimes (World.runtimes_trackedIn ..))
    ((Frame.valid_reading h.world memo).mono he) fun _ => rfl

theorem beginCleaning (h : Config.Sane ⟨w, g, u⟩) {n : NodeId} {rt : RuntimeId}
    {left : List Closure} (effect : (w.effect? n).isSome) (valid : rt < w.runtimes.size) :
    Config.Sane ⟨w.cleaning n rt, .amid (.cleaning n rt left) :: g, u'⟩ := by
  have he := World.Extends.cleaning w n rt
  exact h.push he (h.world.cleaning n rt) rt none (.of_runtimes rfl)
    (Frame.valid_cleaning (he.isSome_effect? effect) (he.runtimes rt valid).1) fun _ =>
    contextOf_amid rfl

theorem endCleaning {n : NodeId} {rt : RuntimeId} {left : List Closure}
    (h : Config.Sane ⟨w, .amid (.cleaning n rt left) :: g, u⟩) :
    Config.Sane ⟨(w.popContext rt).note (.cleanedUp n), g, u'⟩ :=
  h.pop ((World.Extends.popContext w rt).trans (.note _ _)) ((h.world.popContext rt).note _) rt none
    (.of_runtimes rfl) fun _ => contextOf_amid rfl

theorem beginRun {n : NodeId} {rt : RuntimeId} (h : Config.Sane ⟨w, f :: g, u⟩)
    (effect : (w.effect? n).isSome) (valid : rt < w.runtimes.size)
    (hf : ∀ j, contextOf j (f :: g) = contextOf j g) :
    Config.Sane ⟨w.running n rt, .running n rt :: g, u'⟩ := by
  have he := World.Extends.running w n rt
  have hg : Config.Sane ⟨w, g, u⟩ := h.leave (.refl w) h.world (.of_runtimes rfl) hf
  exact hg.push he (h.world.running rt (World.lt_of_effect? effect)) rt (some n)
    (.of_runtimes (World.runtimes_pushContext (w.runtimes_clearedOf n) ..))
    ⟨(he.runtimes rt valid).1, he.isSome_effect? effect⟩ fun _ => rfl

theorem prime {n : NodeId} {e : Effect} {id : StoreId} (h : Config.Sane ⟨w, .watched n :: g, u⟩)
    (effect : w.effect? n = some e) (job : e.job = .watchStore id false) :
    Config.Sane
      ⟨w.modifyEffect n fun e => { e with job := .watchStore id true }, .notified n :: g, u'⟩ := by
  have follows := follows_prime effect job
  have he := World.Extends.modifyEffect w n (f := fun e => { e with job := .watchStore id true })
    fun e he => ⟨rfl, follows e he, fun h => h⟩
  have hj : (Job.watchStore id false).Valid w := job ▸ (h.world.effects n e effect).2.1
  exact h.exchange he (h.world.keepJob hj follows) (.of_runtimes rfl)
    (he.isSome_effect? (Option.isSome_of_eq_some effect)) fun _ => rfl

theorem watchPass {n : NodeId} {id : StoreId} {subs : List SubscriptionId}
    (h : Config.Sane ⟨w, .watched n :: g, u⟩) (effect : (w.effect? n).isSome)
    (valid : id < w.stores.size) :
    Config.Sane
      ⟨w.passBegun id, .passing id (w.store id).runtime subs :: .notified n :: g, u'⟩ := by
  have he := World.Extends.passBegun w id
  have hnotified : Config.Sane ⟨w, .notified n :: g, u⟩ :=
    h.exchange (.refl w) h.world (.of_runtimes rfl) effect fun _ => rfl
  exact hnotified.push he (h.world.passBegun id) _ none (.of_runtimes rfl)
    ⟨(he.stores id valid).1, (he.runtimes _ (h.world.store_runtime valid)).1⟩ fun _ => rfl

theorem beginPass (h : Config.Sane ⟨w, g, u⟩) {id : StoreId} {subs : List SubscriptionId}
    (valid : id < w.stores.size) :
    Config.Sane
      ⟨(w.note (.passAsked id)).passBegun id, .passing id (w.store id).runtime subs :: g, u'⟩ := by
  have he := (World.Extends.note w (.passAsked id)).trans (.passBegun _ id)
  exact h.push he ((h.world.note _).passBegun id) _ none (.of_runtimes rfl)
    ⟨(he.stores id valid).1, (he.runtimes _ (h.world.store_runtime valid)).1⟩ fun _ => rfl

theorem endPass {id : StoreId} {rt : RuntimeId} {subs : List SubscriptionId}
    (h : Config.Sane ⟨w, .passing id rt subs :: g, u⟩) :
    Config.Sane ⟨w.passEnded id rt, .passed id :: g, u'⟩ := by
  have he := World.Extends.passEnded w id rt
  have hs := h.world.passEnded id rt
  have hended : Config.Sane ⟨w.passEnded id rt, g, u⟩ :=
    h.pop he hs rt none (.of_runtimes rfl) fun _ => rfl
  exact hended.enter (.refl _) hs (.of_runtimes rfl) (he.stores id h.top.1).1 fun _ => rfl

theorem takeUp {id : StoreId} {e : Effect} (h : Config.Sane ⟨w, .passed id :: g, u⟩)
    (effect : w.effect? (w.store id).watcher = some e) :
    Config.Sane
      ⟨(w.modifyStore id fun s => { s with pending := false }).note (.scheduled (w.store id).watcher),
        .telling e.runtime [(w.store id).watcher] :: g, u'⟩ := by
  have he := (World.Extends.modifyStore w id (f := fun s => { s with pending := false })
    ⟨rfl, rfl, rfl⟩).trans (.note _ (.scheduled (w.store id).watcher))
  have hs := h.world.markStore id (f := fun s => { s with pending := false })
    fun _ => ⟨rfl, rfl, rfl, rfl⟩
  refine h.exchange he (hs.note _) (.of_runtimes rfl)
    ⟨(he.runtimes _ (h.world.effects _ _ effect).1).1, fun n hn => ?_⟩ fun _ => rfl
  obtain rfl := List.mem_singleton.1 hn
  exact World.lt_of_effect? (he.isSome_effect? (Option.isSome_of_eq_some effect))

theorem beginCall {id : StoreId} {rt : RuntimeId} {sub : SubscriptionId}
    {subs : List SubscriptionId} {j : Json} (h : Config.Sane ⟨w, .passing id rt (sub :: subs) :: g, u⟩)
    (valid : sub < w.subscriptions.size) :
    Config.Sane ⟨w.callBegun sub j, .calling sub :: .passing id rt subs :: g, u'⟩ := by
  have he := World.Extends.callBegun w sub j
  have hs := h.world.callBegun sub j
  have hpassing : Config.Sane ⟨w.callBegun sub j, .passing id rt subs :: g, u⟩ :=
    h.exchange he hs (.of_runtimes rfl)
      ⟨(he.stores id h.top.1).1, (he.runtimes rt h.top.2).1⟩ fun _ => rfl
  exact hpassing.enter (.refl _) hs (.of_runtimes rfl) (he.subscriptions sub valid).1 fun _ => rfl

theorem subscribe (h : Config.Sane ⟨w, g, u⟩) {id : StoreId} {callback : Closure}
    {sub : SubscriptionId} (valid : id < w.stores.size) (closure : callback.Valid w) :
    Config.Sane
      ⟨(w.withSubscription id callback).pushContext (w.store id).runtime none,
        .greeting id sub :: .masked (w.store id).runtime :: g, u'⟩ := by
  have he := (World.Extends.withSubscription w id callback).trans
    (.pushContext _ (w.store id).runtime none)
  have hs : ((w.withSubscription id callback).pushContext (w.store id).runtime none).Sane :=
    (h.world.withSubscription valid closure).pushContext _ (by simp)
  have hmasked : Config.Sane ⟨_, .masked (w.store id).runtime :: g, u⟩ :=
    h.push he hs _ none (.of_runtimes rfl) (he.runtimes _ (h.world.store_runtime valid)).1 fun _ => rfl
  exact hmasked.enter (.refl _) hs (.of_runtimes rfl) (he.stores id valid).1 fun _ => rfl

theorem beginRound {rt : RuntimeId} (h : Config.Sane ⟨w, .flushing rt :: g, u⟩) :
    Config.Sane
      ⟨(w.modifyRuntime rt fun r => { r with queue := [] }).note (.roundBegan rt (w.runtime rt).queue),
        .round rt (w.runtime rt).queue :: .flushing rt :: g, u'⟩ := by
  have hrt : rt < w.runtimes.size := h.top
  have he := (World.Extends.modifyRuntime w rt (f := fun r => { r with queue := [] })
    fun _ => ⟨rfl, rfl⟩).trans (.note _ (.roundBegan rt (w.runtime rt).queue))
  have same := World.SameContexts.emptied w rt
  exact h.enter he ((h.world.emptied rt).note _) ⟨same.size, same.context⟩
    ⟨(he.runtimes rt hrt).1, fun n hn => he.isSome_effect? ((h.world.runtimes rt hrt).1 n hn)⟩
    fun _ => rfl

theorem beginTurn {rt : RuntimeId} {n : NodeId} {batch : List NodeId}
    (h : Config.Sane ⟨w, .round rt (n :: batch) :: g, u⟩) :
    Config.Sane ⟨w.note (.turnBegan rt n), .pending n :: .round rt batch :: g, u'⟩ := by
  have he := World.Extends.note w (.turnBegan rt n)
  have hs := h.world.note (.turnBegan rt n)
  have hround : Config.Sane ⟨w.note (.turnBegan rt n), .round rt batch :: g, u⟩ :=
    h.exchange he hs (.of_runtimes rfl) (h.top.turn.mono he) fun _ => rfl
  exact hround.enter (.refl _) hs (.of_runtimes rfl) (h.top.2 n (List.mem_cons_self ..)) fun _ => rfl

end Config.Sane

theorem Step.sane {c c' : Config} (h : Step c c') (hc : c.Sane) : c'.Sane := by
  have he := h.extends
  have hw := hc.world
  cases h with
  | aside h => exact hc.stay he (h.sane hw) (.of_runtimes h.runtimes_eq)
  -- Reading
  | track _ valid owner _ reader =>
    have hn := World.mem_nodes_of_currentReader hw (owner ▸ hw.owner_lt valid) reader
    exact hc.stay he (hw.trackedBy _ valid hn) (.of_runtimes (World.runtimes_trackedBy ..))
  | see => exact hc.stay he (hw.note _) (.of_runtimes rfl)
  | newObject _ valid values =>
    refine hc.stay he (World.Sane.pushObject (hw.note _) valid fun p hp => ?_) (.of_runtimes rfl)
    exact (values p hp).mono (.note _ _)
  | newArray _ valid values =>
    refine hc.stay he (World.Sane.pushArray (hw.note _) valid fun c hc => ?_) (.of_runtimes rfl)
    exact (values c hc).mono (.note _ _)
  | resolveObject _ resolved => exact hc.stay he (hw.resolveObject resolved) (.of_runtimes rfl)
  | resolveArray _ resolved => exact hc.stay he (hw.resolveArray resolved) (.of_runtimes rfl)
  -- Writing
  | write _ _ owner edit =>
    have hv := edit.valid
    exact hc.enter he (edit.sane hw) (.of_runtimes edit.runtimes_eq)
      ⟨owner ▸ (he.runtimes _ (hw.owner_lt hv)).1, hv.mono he⟩ fun _ => rfl
  | beginChange _ _ valid content => exact hc.beginChange valid content
  | endChange owner values => exact hc.endChange owner values
  | abandonChange => exact hc.leave he (hw.note _) (.of_runtimes rfl) fun _ => rfl
  -- Triggering
  | trigger => exact hc.trigger
  | written | told => exact hc.leave he hw (.of_runtimes rfl) fun _ => rfl
  | tellDisposed | tellQueued => exact hc.tell he hw (.of_runtimes rfl)
  | tellEffect effect _ => exact hc.tell he (hw.queuedIn hc.top.1 effect) (.queuedIn ..)
  | tellDirty => exact hc.tell he (hw.madeDirty _) (.of_runtimes rfl)
  | tellClean memo _ => exact hc.tellClean memo
  | @schedule _ _ n _ _ _ effect _ _ _ =>
    have hs := (hw.note (.scheduled n)).queuedIn (hw.effects _ _ effect).1
      (Option.isSome_of_eq_some effect)
    exact hc.stay he hs ⟨World.size_queuedIn .., World.context_queuedIn _ _ _⟩
  | markDirty => exact hc.stay he ((hw.note _).madeDirty _) (.of_runtimes rfl)
  | markClean _ _ memo _ =>
    exact hc.enter he ((hw.note _).madeDirty _) (.of_runtimes rfl)
      ⟨hw.memo_runtime memo, he.isSome_memo? (Option.isSome_of_eq_some memo)⟩ fun _ => rfl
  -- Memos
  | newMemo _ valid closure =>
    refine hc.stay he (hw.pushNode ⟨valid, closure, ?_, ?_, ?_⟩) (.of_runtimes rfl)
    · exact fun r hr => by cases hr
    · exact fun p hp => by cases hp
    · exact fun p hp => by cases hp
  | reuse _ memo _ _ _ => exact hc.reuse memo
  | beginCompute _ memo _ _ => exact hc.beginCompute memo
  | @endCompute _ _ n rt _ _ _ valid _ _ =>
    exact hc.pop he (hw.computed n rt valid) rt (some n) (.of_runtimes rfl) fun _ => rfl
  | @abandonCompute _ _ n rt _ =>
    exact hc.pop he (hw.popContext rt) rt (some n) (.of_runtimes rfl) fun _ => rfl
  | endReading =>
    exact hc.leave he (hw.gotBy ..) (.of_runtimes (World.runtimes_gotBy ..)) fun _ => rfl
  -- Effects
  | newEffect _ _ valid closures _ _ =>
    refine hc.enter he (hw.pushNode ⟨valid, closures, ?_, ?_⟩) (.of_runtimes rfl) ?_ fun _ => rfl
    · exact fun c hc => by cases hc
    · exact fun p hp => by cases hp
    · simp [Frame.Valid, World.effect?_pushNode]
  | newStore _ _ valid =>
    exact hc.enter he (hw.withStore valid) (.of_runtimes rfl)
      (by simp [Frame.Valid, World.withStore, World.effect?_pushNode]) fun _ => rfl
  | addCleanup _ _ _ _ _ closure =>
    exact hc.stay he ((hw.note _).addCleanup _ (closure.mono (.note _ _))) (.of_runtimes rfl)
  | beginCleaning effect =>
    exact hc.beginCleaning (Option.isSome_of_eq_some effect) (hw.effects _ _ effect).1
  | endCleaning => exact hc.endCleaning
  | abandonCleaning mask =>
    exact hc.pop he (hw.popContext _) _ none (.of_runtimes rfl) fun _ => contextOf_amid mask
  | skipPending => exact hc.leave he hw (.of_runtimes rfl) fun _ => rfl
  | clearRunning =>
    exact hc.leave he (hw.clearedOf _) (.of_runtimes (World.runtimes_clearedOf ..)) fun _ => rfl
  | beginRun effect _ valid turn =>
    refine hc.beginRun (Option.isSome_of_eq_some effect) valid fun _ => ?_
    rcases turn with ⟨rfl, -⟩ | ⟨rfl, -⟩ <;> rfl
  | @endRun _ _ n rt _ =>
    exact hc.pop he (hw.ran n rt) rt (some n) (.of_runtimes rfl) fun _ => rfl
  | beginWatch effect _ =>
    exact hc.enter he hw (.of_runtimes rfl)
      ⟨Option.isSome_of_eq_some effect, by rintro rt ⟨⟩⟩ fun _ => rfl
  | advance h =>
    have hv := hc.top.mono he
    refine hc.exchange he (hw.note _) (.of_runtimes rfl)
      ⟨h.node_eq ▸ hv.1, h.mask?_eq ▸ hv.2⟩ fun rt => ?_
    rw [contextOf, contextOf, h.mask?_eq]
  | keep closures _ follows =>
    exact hc.exchange he (hw.keepJob closures follows) (.of_runtimes rfl) (hc.top.mono he) fun _ => rfl
  | endReport => exact hc.leave he hw (.of_runtimes rfl) fun _ => rfl
  | watched effect _ _ =>
    exact hc.enter he hw (.of_runtimes rfl) (Option.isSome_of_eq_some effect) fun _ => rfl
  | prime effect job => exact hc.prime effect job
  | skipPass effect _ _ =>
    exact hc.exchange he hw (.of_runtimes rfl) (Option.isSome_of_eq_some effect) fun _ => rfl
  | watchPass effect _ valid _ => exact hc.watchPass (Option.isSome_of_eq_some effect) valid
  | watchPostpone effect _ _ =>
    exact hc.exchange he (hw.passPostponed _) (.of_runtimes rfl)
      (he.isSome_effect? (Option.isSome_of_eq_some effect)) fun _ => rfl
  | @endWatch w g n rt _ =>
    have hrunning : Config.Sane ⟨w, .running n rt :: g, false⟩ :=
      hc.leave (.refl w) hw (.of_runtimes rfl) fun _ => rfl
    exact hrunning.pop he (hw.ran n rt) rt (some n) (.of_runtimes rfl) fun _ => rfl
  | @abandonRun _ _ n rt =>
    exact hc.pop he (hw.stopped n rt) rt (some n) (.of_runtimes rfl) fun _ => rfl
  | @dispose w g n e _ effect _ _ _ =>
    have hdisposing : Config.Sane ⟨w.disposing n, g, false⟩ :=
      hc.stay (.disposing w n) (hw.disposing n) (.of_runtimes (World.runtimes_disposing ..))
    have hd := World.Extends.disposing w n
    exact hdisposing.beginCleaning (hd.isSome_effect? (Option.isSome_of_eq_some effect))
      (hd.runtimes _ (hw.effects n e effect).1).1
  | retire =>
    exact hc.stay he ((hw.disposing _).note _) (.of_runtimes (World.runtimes_disposing ..))
  | @mask _ _ rt _ _ valid =>
    exact hc.push he (hw.pushContext rt (by rintro x ⟨⟩)) rt none (.of_runtimes rfl)
      (he.runtimes rt valid).1 fun _ => rfl
  | @unmask _ _ rt _ =>
    exact hc.pop he (hw.popContext rt) rt none (.of_runtimes rfl) fun _ => rfl
  -- Stores
  | beginPass _ _ valid _ => exact hc.beginPass valid
  | endPass => exact hc.endPass
  | postpone => exact hc.stay he ((hw.note _).passPostponed _) (.of_runtimes rfl)
  | settle => exact hc.leave he hw (.of_runtimes rfl) fun _ => rfl
  | @forgo _ _ id _ =>
    have hs := hw.markStore id (f := fun s => { s with pending := false }) fun _ => ⟨rfl, rfl, rfl, rfl⟩
    exact hc.leave he hs (.of_runtimes rfl) fun _ => rfl
  | takeUp _ effect _ => exact hc.takeUp effect
  | passOver => exact hc.exchange he hw (.of_runtimes rfl) hc.top fun _ => rfl
  | beginCall valid _ _ => exact hc.beginCall valid
  | subscribe _ _ valid closure => exact hc.subscribe valid closure
  | greet valid _ =>
    exact hc.exchange he (hw.callBegun ..) (.of_runtimes rfl) (he.subscriptions _ valid).1 fun _ => rfl
  | endCall => exact hc.leave he (hw.callEnded _) (.of_runtimes rfl) fun _ => rfl
  -- Runtimes
  | newRuntime => exact hc.newRuntime ..
  | @beginFlush w _ rt _ _ valid _ _ =>
    have hs := (hw.note (.flushBegan rt)).modifyRuntime rt
      (f := fun r => { r with flushing := true, flushRequested := false }) (fun _ => ⟨rfl, rfl⟩)
      (hw.runtimes rt)
    have same := World.SameContexts.modifyRuntime (w.note (.flushBegan rt)) rt
      (f := fun r => { r with flushing := true, flushRequested := false }) fun _ => rfl
    exact hc.enter he hs ⟨same.size, same.context⟩ (he.runtimes rt valid).1 fun _ => rfl
  | beginRound => exact hc.beginRound
  | @giveUp w _ _ rt _ frames =>
    have hs := (hw.emptied rt).note (.gaveUp rt)
    have same := World.SameContexts.emptied w rt
    rcases frames with rfl | ⟨rfl, -⟩
    · exact hc.leave he hs ⟨same.size, same.context⟩ fun _ => rfl
    · exact hc.stay he hs ⟨same.size, same.context⟩
  | skipTurn => exact hc.exchange he hw (.of_runtimes rfl) hc.top.turn fun _ => rfl
  | beginTurn => exact hc.beginTurn
  | endRound => exact hc.leave he hw (.of_runtimes rfl) fun _ => rfl
  | @endFlush w _ rt _ _ =>
    have hs := hw.modifyRuntime rt (f := fun r => { r with flushing := false })
      (fun _ => ⟨rfl, rfl⟩) (hw.runtimes rt)
    have same := World.SameContexts.modifyRuntime w rt (f := fun r => { r with flushing := false })
      fun _ => rfl
    exact hc.leave he (hs.note _) ⟨same.size, same.context⟩ fun _ => rfl
  -- Interrupts
  | throw | exhaust => exact hc.stay he (hw.note _) (.of_runtimes rfl)
  | drop droppable => exact hc.leave he hw (.of_runtimes rfl) fun _ => droppable.contextOf_eq
  | resume => exact hc.stay he hw (.of_runtimes rfl)

theorem Reaches.extends {c c' : Config} (h : Reaches c c') : c.world.Extends c'.world := by
  induction h with
  | refl => exact .refl _
  | tail _ step ih => exact ih.trans step.extends

theorem Reaches.sane {c c' : Config} (h : Reaches c c') (hc : c.Sane) : c'.Sane := by
  induction h with
  | refl => exact hc
  | tail _ step ih => exact step.sane ih

theorem Reaches.trans {c c' c'' : Config} (h : Reaches c c') (h' : Reaches c' c'') :
    Reaches c c'' := by
  induction h' with
  | refl => exact h
  | tail _ step ih => exact ih.tail step

end Reactivity
