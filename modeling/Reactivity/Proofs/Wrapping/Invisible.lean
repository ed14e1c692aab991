import Reactivity.Proofs.Run.Soundness
import Reactivity.Proofs.Wrapping.Paths
import Mathlib

namespace Reactivity

def Event.IsSighting : Event → Prop
  | .sighted .. => True
  | _ => False

def World.Unsighted (w w' : World) : Prop :=
  ∃ new, w'.history = new ++ w.history ∧ ∀ e ∈ new, ¬ e.IsSighting

theorem Aside.unsighted {w w' : World} (h : Aside w w') :
    w.Unsighted w' ∨ ∃ target path, w' = w.note (.sighted target path (w.along target path)) := by
  cases h with
  | log | clearLog | external | task | hold | release => exact .inl ⟨[], rfl, List.forall_mem_nil _⟩
  | cancel sub _ =>
    exact .inl ⟨[.unsubscribed sub], w.history_cancelled sub, by simp [Event.IsSighting]⟩
  | sighted target path => exact .inr ⟨target, path, rfl⟩
  | _ => exact .inl ⟨[_], rfl, by simp [Event.IsSighting]⟩

theorem World.unsighted_queuedIn (w : World) (rt : RuntimeId) (n : NodeId) :
    w.Unsighted (w.queuedIn rt n) := by
  rcases w.history_queuedIn rt n with h | h
  · exact ⟨[_], h, by simp [Event.IsSighting]⟩
  · exact ⟨[_, _], h, by simp [Event.IsSighting]⟩

theorem World.Unsighted.trans {w w' w'' : World} (h : w.Unsighted w') (h' : w'.Unsighted w'') :
    w.Unsighted w'' := by
  obtain ⟨new, hn, hs⟩ := h
  obtain ⟨new', hn', hs'⟩ := h'
  refine ⟨new' ++ new, by rw [hn', hn, List.append_assoc], fun e he => ?_⟩
  exact (List.mem_append.1 he).elim (hs' e) (hs e)

theorem World.Unsighted.not_adds {w w' : World} (h : w.Unsighted w') {target found : Result}
    {path : List Result} : ¬ w.Adds w' (.sighted target path found) := by
  rintro ⟨new, hn, he⟩
  obtain ⟨new', hn', hs⟩ := h
  obtain rfl := List.append_cancel_right (hn.symm.trans hn')
  exact hs _ he trivial

theorem World.eq_of_adds_note {w : World} {e e' : Event} (h : w.Adds (w.note e) e') : e' = e := by
  obtain ⟨new, hn, he⟩ := h
  obtain rfl : [e] = new := List.append_cancel_right (show [e] ++ w.history = _ from hn)
  exact List.mem_singleton.1 he

theorem World.unsighted_trackedIn (w : World) (rt : RuntimeId) (h : Handle) (key : Key) :
    w.Unsighted (w.trackedIn rt h key) := by
  refine ⟨_, w.history_trackedIn rt h key, fun e he => ?_⟩
  obtain ⟨n, -, rfl⟩ := Option.map_eq_some_iff.1 (Option.mem_toList.1 he)
  exact id

theorem Step.unsighted {c c' : Config} (h : Step c c') :
    c.world.Unsighted c'.world ∨
      ∃ target path, c'.world = c.world.note (.sighted target path (c.world.along target path)) := by
  cases h with
  | aside h => exact h.unsighted
  | track _ _ _ _ _ => exact .inl ⟨[_], World.history_trackedBy .., by simp [Event.IsSighting]⟩
  | write _ _ _ edit => exact .inl ⟨[_], edit.history, by simp [Event.IsSighting]⟩
  | trigger => exact .inl ⟨[_], World.history_taken .., by simp [Event.IsSighting]⟩
  | tellEffect _ _ => exact .inl (World.unsighted_queuedIn ..)
  | schedule _ _ _ _ _ _ =>
    refine .inl (.trans ⟨[_], rfl, ?_⟩ (World.unsighted_queuedIn ..))
    simp [Event.IsSighting]
  | reuse _ _ _ _ _ =>
    refine .inl ((World.unsighted_trackedIn ..).trans ⟨[_], rfl, ?_⟩)
    simp [Event.IsSighting]
  | beginCompute _ _ _ _ =>
    refine .inl ((World.unsighted_trackedIn ..).trans ⟨[_, _], World.history_computing .., ?_⟩)
    simp [Event.IsSighting]
  | @endReading w g n reader _ r _ _ =>
    cases reader with
    | none => exact .inl ⟨[_], w.history_gotBy none n r, by simp [Event.IsSighting]⟩
    | some x => exact .inl ⟨[_, _], w.history_gotBy (some x) n r, by simp [Event.IsSighting]⟩
  | clearRunning _ _ => exact .inl ⟨[_], World.history_clearedOf .., by simp [Event.IsSighting]⟩
  | beginRun _ _ _ _ _ => exact .inl ⟨[_, _], World.history_running .., by simp [Event.IsSighting]⟩
  | dispose _ _ _ _ => exact .inl ⟨[_], World.history_disposing .., by simp [Event.IsSighting]⟩
  | advance h =>
    refine .inl ⟨[_], rfl, ?_⟩
    cases h <;> simp [Event.IsSighting]
  | retire _ _ =>
    refine .inl ⟨[_, _], congrArg _ (World.history_disposing ..), ?_⟩
    simp [Event.IsSighting]
  | _ =>
    first
    | exact .inl ⟨[], rfl, by simp⟩
    | exact .inl ⟨[_], rfl, by simp [Event.IsSighting]⟩
    | exact .inl ⟨[_, _], rfl, by simp [Event.IsSighting]⟩

/-- `c.Invisible start root j`: unless something in the value has been written since the start, it is
the JSON, and whatever was written down about a path from it holds. -/
structure Config.Invisible (start : World) (root : Value) (j : Json) (c : Config) : Prop where
  since : start.Extends c.world
  folded : c.Folded start
  spells : start.LeftInPlace c.world root → c.world.Spells root j
  sights : start.LeftInPlace c.world root → ∀ path found,
    start.Adds c.world (.sighted (.value root) path found) → found ≠ .nothing →
      c.world.along (.value root) path = found

theorem Config.invisible_start {w : World} {root : Value} {j : Json} (h : w.Spells root j) :
    Config.Invisible w root j ⟨w, [], false⟩ where
  since := .refl w
  folded _ _ hm := nomatch hm
  spells _ := h
  sights _ _ _ ha := absurd ha (w.not_adds_refl _)

theorem World.SameContent.along_eq {w w' : World} (h : w.SameContent w') (target : Result)
    (path : List Result) : w'.along target path = w.along target path := by
  rw [World.along, World.along, show w'.found = w.found from funext₂ h.found_eq]

theorem Step.invisible {start : World} {root : Value} {j : Json} {c c' : Config} (step : Step c c')
    (hs : c.Sane) (hroot : root.Valid start) (hc : c.Invisible start root j) :
    c'.Invisible start root j := by
  have he := step.extends
  have kept (hplace : start.LeftInPlace c'.world root) (h : Handle)
      (hin : c'.world.Contains root h) : c.world.Unfolds c'.world h := by
    refine (hin.unfolds hs.world (hroot.mono hc.since) fun h hv hin => ?_).2
    exact (step.unfolds hc.since hc.folded hv).resolve_right (hplace h hin)
  have before (hplace : start.LeftInPlace c'.world root) : start.LeftInPlace c.world root :=
    fun h hin hd => hplace h (hin.mono (kept hplace)) (hd.mono (.refl _) he)
  refine ⟨hc.since.trans he, step.folded hc.since hs hc.folded, fun hplace => ?_,
    fun hplace path found ha hf => ?_⟩
  · exact (hc.spells (before hplace)).unfolds (kept hplace) he (Nat.lt_succ_self _) fun _ => .root
  · rcases ha.split hc.since he with ha | ha
    · have heq := hc.sights (before hplace) path found ha hf
      rw [← heq] at hf ⊢
      refine World.along_eq (kept hplace) (fun v h hv hh => ?_) hf
      exact .root (Result.value.inj hv ▸ hh)
    · rcases step.unsighted with hn | ⟨target, path', hw⟩
      · exact absurd ha hn.not_adds
      · rw [hw] at ha ⊢
        obtain ⟨rfl, rfl, rfl⟩ := Event.sighted.inj (World.eq_of_adds_note ha)
        exact World.SameContent.along_eq (.of_eq rfl rfl) _ _

theorem Reaches.invisible {w : World} {root : Value} {j : Json} (hs : Config.Sane ⟨w, [], false⟩)
    (h : w.Spells root j) {c : Config} (steps : Reaches ⟨w, [], false⟩ c) :
    c.Invisible w root j := by
  induction steps with
  | refl => exact Config.invisible_start h
  | tail steps step ih => exact step.invisible (steps.sane hs) h.valid ih

/-- `w.Onward depth es P`: whoever looks at the program while it goes on from the state, before each
expression, after each read of a memo and after each flush, finds that `P` holds. -/
def World.Onward (w : World) (depth : Nat) (es : List Expr) (P : World → Prop) : Prop :=
  ∀ report ∈ ((runSteps (observedKernel (require P) depth) es).run w).1,
    report.outcome ≠ .error .stopped

def sight (target : Result) (path : List Result) : Act Unit := do
  note (.sighted target path ((← get).along target path))

/-- The state after a program that goes on from the state while somebody writes down again and again
what the path leads to. -/
def World.watched (w : World) (depth : Nat) (es : List Expr) (target : Result) (path : List Result) :
    World :=
  ((runSteps (observedKernel (sight target path) depth) es).run w).2

theorem run_sight (target : Result) (path : List Result) (w : World) :
    (sight target path).run.run w =
      (.ok (), w.note (.sighted target path (w.along target path))) := by
  rw [sight, Act.run_get_bind]
  rfl

theorem World.after_sane (settings : Settings) (hook : Hook) (depth : Nat) (es : List Expr) :
    Config.Sane ⟨World.after settings hook depth es, [], false⟩ ∧
      0 < (World.after settings hook depth es).runtimes.size := by
  have hr := reaches_after settings hook depth es
  exact ⟨hr.sane (Config.start_sane settings hook), (hr.extends.runtimes 0 Nat.one_pos).1⟩

/-- `start.Lasts root j`: while a program goes on from the state and leaves in its place all that the
value holds, the value is the JSON at every moment, and a path from it that leads to something leads
to the same at any two moments. -/
structure World.Lasts (start : World) (root : Value) (j : Json) : Prop where
  toJson : ∀ depth es, start.Onward depth es fun w =>
    start.LeftInPlace w root → w.toJson root = j ∧ w.Spells root j
  path : ∀ depth es path r r',
    start.LeftInPlace (start.watched depth es (.value root) path) root →
    start.Adds (start.watched depth es (.value root) path) (.sighted (.value root) path r) →
    start.Adds (start.watched depth es (.value root) path) (.sighted (.value root) path r') →
    r ≠ .nothing → r' ≠ .nothing → r = r'

theorem World.lasts_after {settings : Settings} {hook : Hook} {depth : Nat} {es : List Expr}
    {root : Value} {j : Json} (h : (World.after settings hook depth es).Spells root j) :
    (World.after settings hook depth es).Lasts root j := by
  obtain ⟨hs, hrt⟩ := World.after_sane settings hook depth es
  generalize World.after settings hook depth es = start at h hs hrt
  have hinv {c : Config} (hr : Reaches ⟨start, [], false⟩ c) := hr.invisible hs h
  refine ⟨fun depth es => ?_, fun depth es path r r' hplace ha ha' hr hr' => ?_⟩
  · have hk : (observedKernel (require fun w => start.LeftInPlace w root →
        w.toJson root = j ∧ w.Spells root j) depth).Sound (Reaches ⟨start, [], false⟩) := by
      refine Kernel.sound (.reaches hs) (fun hr _ _ => ⟨_, run_require fun hplace => ?_, .inl rfl⟩) _
      exact ⟨((hinv hr).spells hplace).toJson, (hinv hr).spells hplace⟩
    exact (hk.does_runSteps hrt es .refl).2.2
  · have hk : (observedKernel (sight (.value root) path) depth).Sound
        (Reaches ⟨start, [], false⟩) :=
      Kernel.sound (.reaches hs) (fun _ _ _ => ⟨_, run_sight .., .inr ⟨_, _, rfl⟩⟩) depth
    have hend := hinv (hk.does_runSteps hrt es .refl).1
    rw [← hend.sights hplace path r ha hr, hend.sights hplace path r' ha' hr']

theorem ObjectId.properties_entries {id : ObjectId} {w : World} (hid : id < w.objects.size) :
    ((id.entries.run w).2.object id).properties =
      (id.entries.run w).1.map fun p => (p.1, .value p.2) := by
  have hshown : ((id.entries.run w).2.object id).properties.values?.map Result.ofEntries =
      some (.ofEntries (id.entries.run w).1) := (showsWhole_entries hid).shown
  obtain ⟨entries, hentries, heq⟩ := Option.map_eq_some_iff.1 hshown
  obtain rfl : entries = (id.entries.run w).1 := by
    refine List.map_injective_iff.2 (fun p q hpq => ?_) (Result.list.inj heq)
    simp only [Result.ofString, Result.list.injEq, List.cons.injEq, Result.value.injEq,
      Value.string.injEq, and_true] at hpq
    exact Prod.ext hpq.1 hpq.2
  exact Properties.values?_eq_some.1 hentries

theorem ArrayId.cells_values {id : ArrayId} {w : World} (hid : id < w.arrays.size) :
    ((id.values.run w).2.array id).cells = (id.values.run w).1.map .value := by
  have hshown : (((id.values.run w).2.array id).cells.mapM Cell.value?).map
      (fun vs => Result.list (vs.map .value)) = some (.list ((id.values.run w).1.map .value)) :=
    (showsWhole_values hid).shown
  obtain ⟨vs, hvs, heq⟩ := Option.map_eq_some_iff.1 hshown
  obtain rfl : vs = (id.values.run w).1 :=
    List.map_injective_iff.2 (fun _ _ => Result.value.inj) (Result.list.inj heq)
  exact mapM_value?_eq_some.1 hvs

/-- Plain JSON that is turned into a container whenever somebody reads it is at every moment what it
was, and a path from it leads to the same at any two. -/
theorem lazy_wrapping_invisible (settings : Settings) (hook : Hook) (depth : Nat) (es : List Expr) :
    (∀ rt w (j : Json), j.Lasting → ((wrap rt j).run w).2.Spells ((wrap rt j).run w).1 j) ∧
    (∀ root j, (World.after settings hook depth es).Spells root j →
      (World.after settings hook depth es).Lasts root j) ∧
    (∀ (w : World) v j, w.Spells v j → w.toJson v = j ∧ ∀ tracked (path : List Result),
      let o := (path.foldlM (readStep tracked) (.value v)).run w
      o.2.Gives o.1 (path.foldlM Json.part? j) ∧ o.2.along (.value v) path = o.1) ∧
    (∀ (w : World) (id : ObjectId), id < w.objects.size →
      ((id.entries.run w).2.object id).properties =
        (id.entries.run w).1.map fun p => (p.1, .value p.2)) ∧
    (∀ (w : World) (id : ArrayId), id < w.arrays.size →
      ((id.values.run w).2.array id).cells = (id.values.run w).1.map .value) := by
  refine ⟨World.spells_wrap, fun _ _ => World.lasts_after, fun w v j h => ⟨h.toJson, ?_⟩,
    fun _ _ => ObjectId.properties_entries, fun _ _ => ArrayId.cells_values⟩
  exact fun tracked path => ⟨gives_path tracked path h, (along_path tracked (.value v) path w).2⟩

def nested : Json :=
  .object [("a", .object [("b", .object [("c", .int 1)])])]

theorem nested_lasting : nested.Lasting := by
  have number : (Json.int 1).Lasting := .of_simple rfl fun _ _ _ => by
    show (Number.ofInt 1).canonical.toJson = .int 1
    have h : (Number.ofInt 1).canonical.integer? = some 1 := by decide +kernel
    rw [Number.toJson, h]
  have object {name : String} {j : Json} (h : j.Lasting) : (Json.object [(name, j)]).Lasting :=
    .of_members (List.pairwise_singleton ..) fun p hp => List.mem_singleton.1 hp ▸ h
  exact object (object (object number))

def wrapping : List Expr :=
  [.assign "o" (.apply .wrap [.literal nested])]

/-- An effect reads an object in an object, and so does the program afterwards. -/
def rereading : List Expr :=
  [.effect (.path true (.var "o") [.literal (.string "a")]),
    .path false (.var "o") [.literal (.string "a")]]

def toInner : List Result :=
  [.value (.string "a")]

def afterRereading : World :=
  (World.after .standard .manual 2 wrapping).watched 2 rereading (.value (.object 0)) toInner

theorem content_wrapping :
    (World.after .standard .manual 2 wrapping).Copies (.object 0) nested ∧
      (World.after .standard .manual 2 wrapping).objects.size = 1 := by
  have h : (((World.after .standard .manual 2 wrapping).object 0).properties,
      (World.after .standard .manual 2 wrapping).objects.size) =
      ([("a", .plain (.object [("b", .object [("c", .int 1)])]))], 1) := by cbv
  exact Prod.mk.inj h

theorem spells_wrapping : (World.after .standard .manual 2 wrapping).Spells (.object 0) nested := by
  obtain ⟨copies, size⟩ := content_wrapping
  refine copies.spells ?_ nested_lasting
  show 0 < (World.after .standard .manual 2 wrapping).objects.size
  exact size ▸ Nat.one_pos

def sighted (r : Result) : Event :=
  .sighted (.value (.object 0)) toInner r

def whileRereading : List Event :=
  [sighted (.value (.object 1)), sighted (.value (.object 1)), sighted (.value (.object 1)),
    .finished 0, .saw 0 (.property 0 "a") (.value (.object 1)), .wrapped [],
    .tracked 0 (.object 0) (.property "a"), sighted .nothing, sighted .nothing, sighted .nothing,
    .started 0, .cleared 0, .cleanedUp 0, sighted .nothing]

theorem history_rereading : afterRereading.history =
    whileRereading ++ (World.after .standard .manual 2 wrapping).history := by
  have h : (World.after .standard .manual 2 wrapping).history = [.bound "o", .wrapped []] := by cbv
  rw [h]
  cbv

theorem adds_rereading {e : Event} :
    (World.after .standard .manual 2 wrapping).Adds afterRereading e ↔ e ∈ whileRereading := by
  refine ⟨fun ⟨new, hn, he⟩ => ?_, fun he => ⟨_, history_rereading, he⟩⟩
  exact List.append_cancel_right (hn.symm.trans history_rereading) ▸ he

theorem leftInPlace_rereading :
    (World.after .standard .manual 2 wrapping).LeftInPlace afterRereading (.object 0) := by
  rintro h - ⟨write, ha, -⟩
  have he := adds_rereading.1 ha
  simp [whileRereading, sighted] at he

def oneSlot : World :=
  ((wrap 0 (.array [.bool true])).run (.start .standard .manual)).2

theorem lazy_wrapping_invisible_nested :
    (World.after .standard .manual 2 wrapping).Lasts (.object 0) nested ∧
    (World.after .standard .manual 2 wrapping).Adds afterRereading (sighted (.value (.object 1))) ∧
    (∀ r ≠ .nothing, (World.after .standard .manual 2 wrapping).Adds afterRereading (sighted r) →
      r = .value (.object 1)) ∧
    ((wrap 0 nested).run (.start .standard .manual)).2.Spells
      ((wrap 0 nested).run (.start .standard .manual)).1 nested ∧
    (World.after .standard .manual 2 wrapping).toJson (.object 0) = nested ∧
    (((ObjectId.entries 0).run (World.after .standard .manual 2 wrapping)).2.object 0).properties =
      ((ObjectId.entries 0).run (World.after .standard .manual 2 wrapping)).1.map
        (fun p => (p.1, .value p.2)) ∧
    (((ArrayId.values 0).run oneSlot).2.array 0).cells =
      ((ArrayId.values 0).run oneSlot).1.map .value := by
  obtain ⟨wraps, lasts, reads, entries, values⟩ :=
    lazy_wrapping_invisible .standard .manual 2 wrapping
  have spells := spells_wrapping
  have seen : sighted (.value (.object 1)) ∈ whileRereading := List.mem_cons_self ..
  refine ⟨lasts _ _ spells, adds_rereading.2 seen, fun r hr ha => ?_, wraps 0 _ _ nested_lasting,
    (reads _ _ _ spells).1, entries _ 0 ?_, values oneSlot 0 Nat.one_pos⟩
  · exact (lasts _ _ spells).path 2 rereading toInner r _ leftInPlace_rereading ha
      (adds_rereading.2 seen) hr (by simp)
  · exact content_wrapping.2 ▸ Nat.one_pos

end Reactivity
