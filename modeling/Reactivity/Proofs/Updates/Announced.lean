import Reactivity.Proofs.Run.Soundness
import Reactivity.Proofs.Wrapping.Unfolding

namespace Reactivity

/-- Where the change of an array as a whole is being computed, the program's own code was running. -/
def Based : List Frame → Prop
  | [] => True
  | .changing .. :: g => AtCode g ∧ Based g
  | _ :: g => Based g

theorem Based.tail {f : Frame} {g : List Frame} (h : Based (f :: g)) : Based g := by
  cases f with
  | changing id before => exact h.2
  | _ => exact h

theorem Step.based {c c' : Config} (step : Step c c') (h : Based c.stack) : Based c'.stack := by
  cases step with
  | beginChange code _ _ _ => exact ⟨code, h⟩
  | endChange _ _ => exact h.2
  | abandonChange => exact h.2
  | beginRun _ _ _ _ => exact h.tail
  | giveUp _ frames => rcases frames with rfl | ⟨rfl, -⟩ <;> exact h
  | drop _ => exact h.tail
  | _ => exact h

theorem Reaches.based {c c' : Config} (h : Reaches c c') (hc : Based c.stack) : Based c'.stack := by
  induction h with
  | refl => exact hc
  | tail _ step ih => exact step.based ih

/-- Something that is still to be triggered, or to be found out, waits in the frame. -/
def Frame.puts : Frame → Bool
  | .writing .. | .changing .. => true
  | _ => false

def withoutWrites (g : List Frame) : List Frame :=
  g.filter fun f => !f.puts

section WithoutWrites

variable {w : World} {g : List Frame}

theorem withoutWrites_cons (f : Frame) (g : List Frame) :
    withoutWrites (f :: g) = if f.puts then withoutWrites g else f :: withoutWrites g := by
  rw [withoutWrites, List.filter_cons]
  cases f.puts <;> rfl

theorem contextOf_withoutWrites (rt : RuntimeId) (g : List Frame) :
    contextOf rt (withoutWrites g) = contextOf rt g := by
  induction g with
  | nil => rfl
  | cons f g ih => cases f <;> simp [withoutWrites_cons, Frame.puts, contextOf, ih]

theorem Free.withoutWrites (h : Free w g) : Free w (withoutWrites g) := by
  induction g with
  | nil => trivial
  | cons f g ih =>
    cases f with
    | running | computing | flushing | calling => exact h
    | _ => exact ih h

theorem AtCode.withoutWrites (h : AtCode g) (based : Based g) : AtCode (withoutWrites g) := by
  induction g with
  | nil => trivial
  | cons f g ih =>
    cases f with
    | changing id before => exact ih based.1 based.2
    | writing => exact h.elim
    | _ => exact h

theorem Config.Sane.withoutWrites (h : Config.Sane ⟨w, g, false⟩) :
    Config.Sane ⟨w, Reactivity.withoutWrites g, false⟩ where
  world := h.world
  context rt hrt := (h.context rt hrt).trans (contextOf_withoutWrites rt g).symm
  frames f hf := h.frames f (List.mem_of_mem_filter hf)

theorem puts_withoutWrites (f : Frame) (hf : f ∈ withoutWrites g) : f.puts = false := by
  simpa using (List.mem_filter.1 hf).2

end WithoutWrites

def Pending (g : List Frame) (h : Handle) (key : Key) : Prop :=
  ∃ rt keys, .writing rt h keys ∈ g ∧ key ∈ keys

def Event.IsInterrupt : Event → Prop
  | .threw _ | .exhausted => True
  | _ => False

def Changed (events : List Event) (h : Handle) (key : Key) : Prop :=
  ∃ write, .wrote write ∈ events ∧ write.handle = h ∧ key ∈ write.changed

/-- Between the states, an interrupt has been raised after a write that the part changed by, and
before the part was triggered. -/
def World.CutShort (w w' : World) (h : Handle) (key : Key) : Prop :=
  ∃ later e earlier, w'.history = later ++ e :: (earlier ++ w.history) ∧ e.IsInterrupt ∧
    Changed earlier h key ∧ .triggered h key ∉ earlier

/-- The part has changed since the start, and is still to be triggered. -/
structure Config.Due (start : World) (c : Config) (h : Handle) (key : Key) : Prop where
  running : c.unwinding = false
  pending : Pending c.stack h key
  changed : ∃ new, c.world.history = new ++ start.history ∧ Changed new h key

theorem Config.Due.not_withoutWrites {start : World} {c : Config} {h : Handle} {key : Key}
    (hd : c.Due start h key) {g : List Frame} (hg : c.stack = withoutWrites g) : False := by
  obtain ⟨rt, keys, hm, -⟩ := hd.pending
  cases puts_withoutWrites _ (hg ▸ hm)

/-- Since the start, a part that the read would be registered on then has been triggered, or it would
have been had the write not been cut short, or it is still to be. -/
def Read.Announced (read : Read) (start : World) (c : Config) : Prop :=
  ∃ key ∈ read.keys start, start.Adds c.world (.triggered read.handle key) ∨
    start.CutShort c.world read.handle key ∨ c.Due start read.handle key

theorem Changed.append {events : List Event} {h : Handle} {key : Key} (hc : Changed events h key)
    (new : List Event) : Changed (new ++ events) h key := by
  obtain ⟨write, hm, hw⟩ := hc
  exact ⟨write, List.mem_append_right _ hm, hw⟩

theorem World.CutShort.mono {w w' w'' : World} {h : Handle} {key : Key} (hc : w.CutShort w' h key)
    (he : w'.Extends w'') : w.CutShort w'' h key := by
  obtain ⟨later, e, earlier, heq, hrest⟩ := hc
  obtain ⟨new, hnew⟩ := he.history
  exact ⟨new ++ later, e, earlier, by rw [← hnew, heq, List.append_assoc], hrest⟩

theorem Step.pending {c c' : Config} (step : Step c c') (running : c.unwinding = false) {h : Handle}
    {key : Key} (hp : Pending c.stack h key) :
    Pending c'.stack h key ∨ c.world.Adds c'.world (.triggered h key) := by
  have push {f : Frame} {g : List Frame} (hp : Pending g h key) : Pending (f :: g) h key := by
    obtain ⟨rt, keys, hm, hk⟩ := hp
    exact ⟨rt, keys, List.mem_cons_of_mem f hm, hk⟩
  have pop {f : Frame} {g : List Frame} (hp : Pending (f :: g) h key)
      (hf : ∀ rt keys, .writing rt h keys ≠ f) : Pending g h key := by
    obtain ⟨rt, keys, hm, hk⟩ := hp
    exact ⟨rt, keys, (List.mem_cons.1 hm).resolve_left (hf rt keys), hk⟩
  cases step with
  | @trigger w g rt x key' keys =>
    obtain ⟨rt', keys', hm, hk⟩ := hp
    rcases List.mem_cons.1 hm with heq | hm
    · obtain ⟨rfl, rfl, rfl⟩ := Frame.writing.inj heq
      rcases List.mem_cons.1 hk with rfl | hk
      · exact .inr ⟨[.triggered h key], w.history_taken h key, List.mem_singleton_self _⟩
      · exact .inl ⟨_, keys, List.mem_cons_of_mem _ (List.mem_cons_self ..), hk⟩
    · exact .inl (push (push ⟨rt', keys', hm, hk⟩))
  | written =>
    obtain ⟨rt', keys', hm, hk⟩ := hp
    rcases List.mem_cons.1 hm with heq | hm
    · obtain ⟨-, -, rfl⟩ := Frame.writing.inj heq
      cases hk
    · exact .inl ⟨rt', keys', hm, hk⟩
  | drop _ => cases running
  | giveUp _ frames =>
    rcases frames with rfl | ⟨rfl, -⟩
    · exact .inl (pop hp nofun)
    · exact .inl hp
  | beginRun _ _ _ turn =>
    rcases turn with ⟨rfl, -⟩ | ⟨rfl, -⟩
    · exact .inl (push (pop hp nofun))
    · exact .inl (push (pop hp nofun))
  | _ =>
    first
    | exact .inl hp
    | exact .inl (push hp)
    | exact .inl (pop hp nofun)
    | exact .inl (push (pop hp nofun))
    | exact .inl (pop (pop hp nofun) nofun)
    | exact .inl (push (push hp))
    | exact .inl (push (push (pop hp nofun)))

theorem Step.raised {c c' : Config} (step : Step c c') (running : c.unwinding = false)
    (unwinding : c'.unwinding = true) :
    ∃ e : Event, c'.world.history = e :: c.world.history ∧ e.IsInterrupt := by
  cases step with
  | throw _ => exact ⟨_, rfl, trivial⟩
  | exhaust => exact ⟨_, rfl, trivial⟩
  | _ => cases unwinding <;> cases running

/-- What is still to be triggered stays so, or it is triggered, or the write is cut short. -/
theorem Config.Due.step {start : World} {c c' : Config} {h : Handle} {key : Key}
    (hd : c.Due start h key) (step : Step c c') (he : start.Extends c.world) :
    start.Adds c'.world (.triggered h key) ∨ start.CutShort c'.world h key ∨ c'.Due start h key := by
  obtain ⟨running, pending, new, hnew, changed⟩ := hd
  cases hu : c'.unwinding with
  | true =>
    obtain ⟨e, hraised, hinterrupt⟩ := step.raised running hu
    by_cases ht : .triggered h key ∈ new
    · exact .inl (.mono ⟨new, hnew, ht⟩ (.refl start) step.extends)
    · exact .inr (.inl ⟨[], e, new, by rw [hraised, hnew]; rfl, hinterrupt, changed, ht⟩)
  | false =>
    rcases step.pending running pending with hp | ht
    · obtain ⟨next, hnext⟩ := step.extends.history
      refine .inr (.inr ⟨hu, hp, next ++ new, ?_, changed.append next⟩)
      rw [← hnext, hnew, List.append_assoc]
    · exact .inl (ht.mono he (.refl _))

theorem Read.Announced.step {read : Read} {start : World} {c c' : Config}
    (h : read.Announced start c) (step : Step c c') (he : start.Extends c.world) :
    read.Announced start c' := by
  obtain ⟨key, hk, ha | hc | hd⟩ := h
  · exact ⟨key, hk, .inl (ha.mono (.refl start) step.extends)⟩
  · exact ⟨key, hk, .inr (.inl (hc.mono step.extends))⟩
  · exact ⟨key, hk, hd.step step he⟩

theorem Read.Kept.of_cells {w w' : World} {read : Read} {id : ArrayId}
    (h : (w'.array id).cells = (w.array id).cells) (handle : read.handle = .array id) :
    read.Kept w w' := by
  cases read with
  | slot id' i =>
    obtain rfl := Handle.array.inj handle
    exact of_eq rfl fun r hr => by rwa [Read.shown, h]
  | values id' =>
    obtain rfl := Handle.array.inj handle
    exact of_eq (by rw [Read.keys, Read.keys, h]) fun r hr => by rwa [Read.shown, h]
  | size x =>
    obtain rfl : x = .array id := handle
    exact of_eq rfl fun r hr => by rwa [Read.shown, h]
  | _ => cases handle

/-- The read shows in the state what it has shown at the start, or the change has been announced. -/
def Read.Told (read : Read) (start w : World) (c : Config) : Prop :=
  read.Kept start w ∨ read.Announced start c

/-- What containers hold is what they held at the start, as far as the changes have not been
announced; and so is what arrays held when a change of them as a whole began. -/
structure Config.Covered (start : World) (c : Config) : Prop where
  content : ∀ read : Read, read.handle.Valid start → (∀ m, read.handle ≠ .memo m) →
    read.Told start c.world c
  changes : ∀ id before, .changing id before ∈ c.stack →
    ∃ w, id < w.arrays.size ∧ start.Extends w ∧ w.Extends c.world ∧
      (w.array id).cells = before.map .value ∧
      ∀ read : Read, read.handle.Valid start → (∀ m, read.handle ≠ .memo m) →
        read.Told start w c

section Covered

variable {start : World} {c c' : Config} {read : Read}

/-- A write is announced, if the read would be registered on a part that changes by it. -/
theorem Read.Announced.of_write {w w' : World} {g : List Frame} {rt : RuntimeId} {write : Write}
    (kept : read.Kept start w) (he : start.Extends w)
    (wrote : w.Adds w' (.wrote write)) (handle : read.handle = write.handle)
    (h : ¬ ∀ key ∈ write.changed, key ∉ read.keys w) :
    read.Announced start ⟨w', .writing rt write.handle write.changed :: g, false⟩ := by
  simp only [not_forall, not_not] at h
  obtain ⟨key, hk, hr⟩ := h
  obtain ⟨new, hnew, hm⟩ := wrote.mono he (.refl w')
  refine ⟨key, kept.keys ▸ hr, .inr (.inr ⟨rfl, ?_, new, hnew, write, hm, handle.symm, hk⟩)⟩
  exact ⟨rt, write.changed, handle ▸ List.mem_cons_self .., hk⟩

/-- The change of an array as a whole ends. Its keys are found by comparison with what the array held
when it began, which callbacks may have changed since. -/
theorem Config.Covered.endChange {w w' : World} {g : List Frame} {rt : RuntimeId} {id : ArrayId}
    {before after : List Value} (h : Covered start ⟨w, .changing id before :: g, false⟩)
    (hid : id < w.arrays.size)
    (hw' : w' = ((w.note (.changeEnded id)).note (.wrote (.items id before after))).modifyArray id
      fun a => { a with cells := after.map .value })
    (announced : read.Announced start ⟨w, .changing id before :: g, false⟩ →
      read.Announced start ⟨w', .writing rt (.array id) (changedKeys before after) :: g, false⟩)
    (valid : read.handle.Valid start) (container : ∀ m, read.handle ≠ .memo m) :
    read.Told start w' ⟨w', .writing rt (.array id) (changedKeys before after) :: g, false⟩ := by
  by_cases handle : read.handle = .array id
  · obtain ⟨wb, hidb, hwb, hwbw, hcells, htold⟩ := h.changes id before (List.mem_cons_self ..)
    rcases htold read valid container with hkept | ha
    · by_cases hapart : ∀ key ∈ changedKeys before after, key ∉ read.keys wb
      · have hchange : read.Kept wb (wb.modifyArray id fun a => { a with cells := after.map .value }) :=
          .modifyCells hidb hcells (.refl before) fun _ => hapart
        refine .inl ((hkept.trans hchange).trans (.of_cells ?_ handle))
        rw [hw', World.cells_modifyArray hidb]
        exact World.cells_modifyArray hid
      · have hext : w.Extends w' := by
          rw [hw']
          refine .trans (.trans (.note w _) (.note _ _)) (.modifyArray _ id fun _ => rfl)
        have wrote : w.Adds w' (.wrote (.items id before after)) := by
          refine ⟨[.wrote (.items id before after), .changeEnded id], ?_, List.mem_cons_self ..⟩
          rw [hw']
          rfl
        exact .inr (.of_write hkept hwb (wrote.mono hwbw (.refl w')) handle hapart)
    · exact .inr (announced ha)
  · rcases h.content read valid container with hkept | ha
    · have hnote := (Read.Kept.note read w (.changeEnded id)).trans
        (.note read _ (.wrote (.items id before after)))
      rw [hw']
      exact .inl (hkept.trans (hnote.trans (.modifyArray_of_ne handle _)))
    · exact .inr (announced ha)

/-- A step changes what a read of a container shows only if it announces that. -/
theorem Step.covers (step : Step c c') (sane : c.Sane) (he : start.Extends c.world)
    (h : c.Covered start) (valid : read.handle.Valid start) (container : ∀ m, read.handle ≠ .memo m) :
    read.Told start c'.world c' := by
  have hvalid := valid.mono he
  have direct (m : NodeId) : read ≠ .memo m := fun heq => container m (heq ▸ rfl)
  rcases h.content read valid container with hkept | ha
  swap
  · exact .inr (ha.step step he)
  have quiet (hs : c.world.SameContent c'.world) : read.Told start c'.world c' :=
    .inl (hkept.trans (.of_sameContent hs direct))
  have unnoticed (hu : c.world.Unnoticed c'.world) : read.Told start c'.world c' :=
    .inl (hkept.trans (hu.kept read hvalid))
  have hstep := step
  cases step with
  | aside hw => exact unnoticed hw.unnoticed
  | newObject _ _ _ =>
    exact unnoticed ((World.Unnoticed.note _ (e := .wrapped _) fun _ => id).trans (.pushObject _ _))
  | newArray _ _ _ =>
    exact unnoticed ((World.Unnoticed.note _ (e := .wrapped _) fun _ => id).trans (.pushArray _ _))
  | resolveObject _ resolved => exact unnoticed (.resolveObject resolved)
  | resolveArray _ resolved => exact unnoticed (.resolveArray resolved)
  | @write w w' g rt write _ _ _ edit =>
    by_cases hapart : read.handle = write.handle → ∀ key ∈ write.changed, key ∉ read.keys w
    · exact .inl (hkept.trans (edit.kept hapart))
    · obtain ⟨handle, hapart⟩ := Classical.not_imp.1 hapart
      have wrote : w.Adds w' (.wrote write) := ⟨[_], edit.history, List.mem_singleton_self _⟩
      exact .inr (.of_write hkept he wrote handle hapart)
  | endChange _ _ =>
    exact h.endChange (sane.frames _ (List.mem_cons_self ..)).1 rfl (fun ha => ha.step hstep he)
      valid container
  | track _ _ _ _ _ => exact quiet (.trackedBy ..)
  | trigger => exact quiet (.taken ..)
  | tellEffect _ _ => exact quiet (.queuedIn ..)
  | schedule _ _ _ _ _ _ => exact quiet (.queuedIn ..)
  | reuse _ _ _ _ _ => exact quiet (.trackedIn ..)
  | beginCompute _ _ _ _ => exact quiet ((World.SameContent.trackedIn ..).trans (.computing ..))
  | endReading _ _ => exact quiet (.gotBy ..)
  | clearRunning _ _ => exact quiet (.clearedOf ..)
  | beginRun _ _ _ _ => exact quiet (.running ..)
  | dispose _ _ _ => exact quiet (.disposing ..)
  | retire _ => exact quiet (.disposing ..)
  | _ => exact quiet (.of_eq rfl rfl)

theorem Step.covered (step : Step c c') (sane : c.Sane) (he : start.Extends c.world)
    (h : c.Covered start) : c'.Covered start := by
  have content (read : Read) (valid : read.handle.Valid start) (container : ∀ m, read.handle ≠ .memo m) :
      read.Told start c'.world c' := step.covers sane he h valid container
  refine ⟨content, fun id before hm => ?_⟩
  rcases step.changing hm with hm | hcells
  · obtain ⟨w, hid, hw, hwc, hcells, htold⟩ := h.changes id before hm
    exact ⟨w, hid, hw, hwc.trans step.extends, hcells, fun read valid container =>
      (htold read valid container).imp_right fun ha => ha.step step he⟩
  · exact ⟨c'.world, ((step.sane sane).frames _ hm).1, he.trans step.extends, .refl _, hcells, content⟩

/-- Wherever a program comes to, what containers show is what they have shown, as far as changes have
not been announced. -/
theorem Reaches.covered {w : World} {g : List Frame} {u : Bool} (sane : Config.Sane ⟨w, g, u⟩)
    (quiet : ∀ f ∈ g, f.puts = false) (h : Reaches ⟨w, g, u⟩ c) : c.Covered w := by
  induction h with
  | refl =>
    refine ⟨fun read _ _ => .inl (.refl read w), fun id before hm => ?_⟩
    cases quiet _ hm
  | tail steps step ih => exact step.covered (steps.sane sane) steps.extends ih

end Covered

section Programs

variable {settings : Settings} {hook : Hook} {w w' : World} {g : List Frame}
variable (reached : Reaches (.start settings hook) ⟨w, g, false⟩) (code : AtCode g) (free : Free w g)
variable {env : Env} (valid : env.Valid w) (depth : Nat) (e : Expr) {outcome : Except Interrupt Result}
variable (ran : (eval (kernel depth) env e).run.run w = (outcome, w'))
include reached code free valid ran

/-- What is run where the program's own code runs has nothing to do with what waits further out to be
triggered: it is also a run of a machine in which nothing waits. -/
theorem reaches_withoutWrites :
    Reaches (.start settings hook) ⟨w', g, false⟩ ∧ w.Extends w' ∧
      Reaches ⟨w, withoutWrites g, false⟩ ⟨w', withoutWrites g, false⟩ := by
  have sane := reached.sane (Config.start_sane settings hook)
  have run {R : Config → Prop} {g' : List Frame} (hk : (kernel depth).Sound R)
      (ready : Ready w g') (hr : R ⟨w, g', false⟩) : R ⟨w', g', false⟩ ∧ w.Extends w' := by
    have h := hk.runs_eval ready valid e hr
    rw [ran] at h
    cases outcome with
    | error i => exact ⟨hk.closed.step h.1 .resume, h.2.1⟩
    | ok r => exact ⟨h.1, h.2.1⟩
  obtain ⟨hreach, he⟩ := run (sound_kernel settings hook depth) ⟨code, free, sane.frames⟩ reached
  have sane' := sane.withoutWrites
  have based := reached.based trivial
  obtain ⟨hreach', -⟩ := run
    (Kernel.sound (.reaches sane') (fun _ _ _ => ⟨_, rfl, .inl rfl⟩) depth)
    ⟨code.withoutWrites based, free.withoutWrites, sane'.frames⟩ .refl
  exact ⟨hreach, he, hreach'⟩

/-- Wherever the program's own code runs, whatever it does next and however that ends, each read of a
container shows the same after it as before, or one of the parts that it reads has been triggered, or
a write has been cut short before. -/
theorem kept_or_triggered : w.Extends w' ∧ Reaches (.start settings hook) ⟨w', g, false⟩ ∧
    ∀ read : Read, read.handle.Valid w → (∀ m, read.handle ≠ .memo m) →
      read.Kept w w' ∨ ∃ key ∈ read.keys w,
        w.Adds w' (.triggered read.handle key) ∨ w.CutShort w' read.handle key := by
  obtain ⟨hreach, he, hreach'⟩ := reaches_withoutWrites reached code free valid depth e ran
  have sane' := (reached.sane (Config.start_sane settings hook)).withoutWrites
  refine ⟨he, hreach, fun read hvalid container => ?_⟩
  refine ((hreach'.covered sane' puts_withoutWrites).content read hvalid container).imp_right
    fun ha => ?_
  obtain ⟨key, hk, ha⟩ := ha
  exact ⟨key, hk, ha.imp_right fun ha => ha.resolve_right fun hd => hd.not_withoutWrites rfl⟩

end Programs

end Reactivity
