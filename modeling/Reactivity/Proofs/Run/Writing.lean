import Reactivity.Proofs.Run.Reading

namespace Reactivity

theorem Cell.shown?_eq_value {c : Option Cell} {v : Value} (h : Cell.shown? c = some (.value v)) :
    c = some (.value v) := by
  cases c with
  | none => cases h
  | some c =>
    cases c with
    | plain j => cases h
    | value x =>
      cases h
      rfl

theorem changedPart_of_holds {key : Key} {cell : Cell} {v : Value} (h : cell.holds v) :
    changedPart key (some cell) (some v) = [] :=
  if_pos h

theorem changedPart_of_not_holds {key : Key} {cell : Cell} {v : Value} (h : ¬ cell.holds v) :
    changedPart key (some cell) (some v) = [key] :=
  if_neg h

section Object

variable {R : Config → Prop} {k : Kernel} (hk : k.Sound R) {w : World} {g : List Frame}
variable {id : ObjectId}
include hk

theorem Kernel.Sound.runs_written {α : Type} {rt : RuntimeId} {h : Handle} {a : α}
    {Q : α → World → Prop} (hq : Q a w) :
    Runs R (.writing rt h [] :: g) g g (pure a) Q w :=
  Runs.step hk.closed (pure a) .written rfl (.pure hq)

theorem Kernel.Sound.runs_trigger_shape (rt : RuntimeId) (h : Handle) (key : Key) (free : Free w g) :
    Runs R (.writing rt h [key, .shape] :: g) g g
      (do
        trigger k rt h key
        trigger k rt h .shape)
      (fun _ _ => True) w := by
  refine .intro fun hr => ?_
  have hg := (hk.closed.sane hr).frames
  refine (hk.runs_trigger free).bind fun _ w₁ _ he _ => hk.runs_trigger_last ?_
  exact free.mono he fun f hf => hg f (List.mem_cons_of_mem _ hf)

theorem Kernel.Sound.runs_setObject {name : String} {v : Value} (code : AtCode g) (free : Free w g)
    (hid : id < w.objects.size) (hv : v.Valid w) :
    Runs R g g g (id.set k name v) (fun _ _ => True) w := by
  refine .intro fun hr => ?_
  have hg := (hk.closed.sane hr).frames
  cases hc : (w.object id).properties.lookup name with
  | some cell =>
    by_cases hh : cell.holds v
    · refine .step hk.closed (pure ())
        (.aside (.rewrote (.property id name (some cell) (some v)) (changedPart_of_holds hh))) ?_
        (.pure trivial)
      simp only [ObjectId.set, Act.run_get_bind, hc, Act.run_lift_bind, Change.run_note, hh, if_true]
    · have hedit := Edit.setProperty hid hv hc hh
      have hwrite := Step.write code free rfl hedit
      rw [Write.changed, changedPart_of_not_holds hh] at hwrite
      refine .step hk.closed (trigger k (w.object id).runtime (.object id) (.property name))
        hwrite ?_ (hk.runs_trigger_last (free.mono hedit.extends hg))
      simp only [ObjectId.set, Act.run_get_bind, hc, Act.run_lift_bind, Change.run_note, hh,
        Bool.false_eq_true, if_false, Act.run_modify_bind]
  | none =>
    have hedit := Edit.addProperty hid hv hc
    refine .step hk.closed _ (.write code free rfl hedit) ?_
      (hk.runs_trigger_shape (w.object id).runtime (.object id) _ (free.mono hedit.extends hg))
    simp only [ObjectId.set, Act.run_get_bind, hc, Act.run_lift_bind, Change.run_note,
      Act.run_modify_bind]

theorem Kernel.Sound.runs_removeObject {name : String} (code : AtCode g) (free : Free w g)
    (hid : id < w.objects.size) :
    Runs R g g g (id.remove k name) (fun v w' => ∀ x, v = some x → x.Valid w') w := by
  refine .intro fun hr => ?_
  have hg := (hk.closed.sane hr).frames
  refine (Runs.lift (does_peekObject hk.closed code hid)).bind fun v w₁ hr₁ he₁ ⟨hv, _, hshown⟩ => ?_
  cases v with
  | none => exact .pure fun _ h => (nomatch h)
  | some v =>
    have hg₁ := (hk.closed.sane hr₁).frames
    have free₁ := free.mono he₁ hg
    have hedit := Edit.removeProperty (he₁.objects id hid).1 (Cell.shown?_eq_value hshown)
    refine .step hk.closed (do
        trigger k (w₁.object id).runtime (.object id) (.property name)
        trigger k (w₁.object id).runtime (.object id) .shape
        return some v) (.write code free₁ rfl hedit) rfl ?_
    have ht := hk.runs_trigger_shape (w₁.object id).runtime (.object id) (.property name)
      (free₁.mono hedit.extends hg₁)
    have hrun := ht.bind (f := fun _ => return some v)
      (Q := fun v w' => ∀ x, v = some x → x.Valid w') fun _ w₂ _ he₂ _ => .pure fun x hx =>
        ((hv x hx).mono hedit.extends).mono he₂
    rw [bind_assoc] at hrun
    exact hrun

end Object

theorem swapped_valid {w : World} {i j : Nat} {vs ws : List Value} (hvs : ∀ v ∈ vs, v.Valid w)
    (h : ArrayId.swapped i j vs = .ok ws) : ∀ v ∈ ws, v.Valid w := by
  rw [ArrayId.swapped] at h
  split at h
  · next v x hv hx =>
    cases h
    intro y hy
    rcases List.mem_or_eq_of_mem_set hy with hy | rfl
    · rcases List.mem_or_eq_of_mem_set hy with hy | rfl
      · exact hvs y hy
      · exact hvs _ (List.mem_of_getElem? hx)
    · exact hvs _ (List.mem_of_getElem? hv)
  · cases h
  · cases h

section Array

variable {R : Config → Prop} {k : Kernel} (hk : k.Sound R) {w : World} {g : List Frame}
variable {id : ArrayId}
include hk

theorem Kernel.Sound.runs_setArray {i : Nat} {v : Value} (code : AtCode g) (free : Free w g)
    (hid : id < w.arrays.size) (hv : v.Valid w) :
    Runs R g g g (id.set k i v) (fun _ _ => True) w := by
  refine .intro fun hr => ?_
  have hg := (hk.closed.sane hr).frames
  cases hc : (w.array id).cells[i]? with
  | some cell =>
    by_cases hh : cell.holds v
    · refine .step hk.closed (pure (.ok ()))
        (.aside (.rewrote (.slot id i (some cell) v) (changedPart_of_holds hh))) ?_ (.pure trivial)
      simp only [ArrayId.set, Act.run_get_bind, hc, Act.run_lift_bind, Change.run_note, hh, if_true]
    · have hedit := Edit.setSlot hid hv hc hh
      have hwrite := Step.write code free rfl hedit
      rw [Write.changed, changedPart_of_not_holds hh] at hwrite
      refine .step hk.closed (do
          trigger k (w.array id).runtime (.array id) (.index i)
          return .ok ())
        hwrite ?_
        ((hk.runs_trigger_last (free.mono hedit.extends hg)).bind fun _ _ _ _ _ => .pure trivial)
      simp only [ArrayId.set, Act.run_get_bind, hc, Act.run_lift_bind, Change.run_note, hh,
        Bool.false_eq_true, if_false, Act.run_modify_bind]
  | none =>
    by_cases hi : i = (w.array id).cells.length
    · have hedit := Edit.addSlot hid hv
      rw [← hi] at hedit
      refine .step hk.closed (do
          trigger k (w.array id).runtime (.array id) (.index i)
          trigger k (w.array id).runtime (.array id) .shape
          return .ok ())
        (.write code free rfl hedit) ?_ ?_
      · simp only [ArrayId.set, Act.run_get_bind, hc, if_pos hi, Act.run_lift_bind,
          Change.run_note, Act.run_modify_bind]
      · have ht := (hk.runs_trigger_shape (w.array id).runtime (.array id) (.index i)
          (free.mono hedit.extends hg)).bind
          (f := fun _ => (return .ok () : Act (Except StateError Unit))) (Q := fun _ _ => True)
          fun _ _ _ _ _ => .pure trivial
        rw [bind_assoc] at ht
        exact ht
    · refine .of_run (a := .error (.indexOutOfBounds i (w.array id).cells.length)) ?_ trivial
      simp only [ArrayId.set, Act.run_get_bind, hc, hi, if_false]
      rfl

theorem Kernel.Sound.runs_triggerSlots {rt : RuntimeId} {h : Handle} {is : List Nat} {keys : List Key}
    (free : Free w g) :
    Runs R (.writing rt h (is.map .index ++ keys) :: g) g (.writing rt h keys :: g)
      (is.forM fun i => trigger k rt h (.index i)) (fun _ _ => True) w := by
  induction is generalizing w with
  | nil => exact .pure trivial
  | cons i is ih =>
    refine .intro fun hr => ?_
    have hg := (hk.closed.sane hr).frames
    refine (hk.runs_trigger free).bind fun _ w₁ _ he _ => ih ?_
    exact free.mono he fun f hf => hg f (List.mem_cons_of_mem _ hf)

/-- The parts that a change of an array as a whole has changed are triggered. -/
theorem Kernel.Sound.runs_triggerChanged {α : Type} (outcome : α) {rt : RuntimeId}
    {before after : List Value} (free : Free w g) :
    Runs R (.writing rt (.array id) (changedKeys before after) :: g) g g
      (do
        let changed := changedSlots before after
        changed.forM fun i => trigger k rt (.array id) (.index i)
        if !changed.isEmpty then trigger k rt (.array id) .shape
        return outcome)
      (fun a w' => a = outcome ∧ w.Extends w') w := by
  refine .intro fun hr => ?_
  have hg := (hk.closed.sane hr).frames
  refine (hk.runs_triggerSlots free).bind fun _ w₁ _ he₁ _ => ?_
  have free₁ := free.mono he₁ fun f hf => hg f (List.mem_cons_of_mem _ hf)
  cases hc : (changedSlots before after).isEmpty with
  | true => exact hk.runs_written ⟨rfl, he₁⟩
  | false =>
    exact (hk.runs_trigger_last free₁).bind fun _ w₂ _ he₂ _ => .pure ⟨rfl, he₁.trans he₂⟩

theorem Kernel.Sound.runs_changeBy {α : Type} {f : List Value → Act (List Value × α)}
    {Q : α → World → Prop} (hQ : ∀ {a w w'}, w.Extends w' → Q a w → Q a w') (code : AtCode g)
    (free : Free w g) (hid : id < w.arrays.size)
    (hf : ∀ before w₁, w.Extends w₁ → (∀ v ∈ before, v.Valid w₁) →
      Runs R (.changing id before :: g) (.changing id before :: g) (.changing id before :: g)
        (f before) (fun r w' => (∀ v ∈ r.1, v.Valid w') ∧ Q r.2 w') w₁) :
    Runs R g g g (id.changeBy k f) Q w := by
  refine .intro fun hr => .get_bind ?_
  have hg := (hk.closed.sane hr).frames
  refine (Runs.lift (does_contents hk.closed code hid)).bind
    fun before w₁ hr₁ he₁ ⟨hvalid, _, hcells⟩ => ?_
  have hid₁ := (he₁.arrays id hid).1
  have hrt₁ : w₁.owner (.array id) = (w.array id).runtime := (he₁.arrays id hid).2
  have free₁ := free.mono he₁ hg
  have hg₁ := (hk.closed.sane hr₁).frames
  have hstart := World.Extends.note w₁ (.changeBegan id)
  have hf := hf before (w₁.note (.changeBegan id)) (he₁.trans hstart)
    fun v hv => (hvalid v hv).mono hstart
  intro hr₁
  have hr₂ := hk.closed.step hr₁ (.beginChange code free₁ hid₁ hcells)
  have hf := hf hr₂
  rw [Act.run_lift_bind, Act.run_bind, Act.run_ensuring, Change.run_note]
  generalize (f before).run.run (w₁.note (.changeBegan id)) = o at hf ⊢
  rcases o with ⟨i | ⟨after, outcome⟩, w₃⟩
  · exact ⟨hk.closed.step hf.1 .abandonChange, hstart.trans (hf.2.1.trans (.note w₃ _)),
      hf.2.2.mono hstart (.note w₃ _)⟩
  · obtain ⟨hr₃, he₃, hafter, hq⟩ := hf
    have hrt₃ : w₃.owner (.array id) = (w.array id).runtime :=
      ((hstart.trans he₃).arrays id hid₁).2.trans hrt₁
    have hstep : Step ⟨w₃, .changing id before :: g, false⟩ _ := .endChange hrt₃ hafter
    have he₄ := hstart.trans (he₃.trans hstep.extends)
    have ht := hk.runs_triggerChanged outcome (free₁.mono he₄ hg₁) (hk.closed.step hr₃ hstep)
    exact ht.mono he₄ fun a w₅ _ ⟨ha, he₅⟩ => ha ▸ hQ (hstep.extends.trans he₅) hq

theorem Kernel.Sound.runs_changeWith {f : List Value → List Value} (code : AtCode g)
    (free : Free w g) (hid : id < w.arrays.size)
    (hf : ∀ before w₁, w.Extends w₁ → (∀ v ∈ before, v.Valid w₁) → ∀ v ∈ f before, v.Valid w₁) :
    Runs R g g g (id.changeWith k f) (fun _ _ => True) w :=
  hk.runs_changeBy (fun _ _ => trivial) code free hid fun before w₁ he hb =>
    .pure ⟨hf before w₁ he hb, trivial⟩

theorem Kernel.Sound.runs_push {v : Value} (code : AtCode g) (free : Free w g)
    (hid : id < w.arrays.size) (hv : v.Valid w) :
    Runs R g g g (id.push k v) (fun _ _ => True) w := by
  refine hk.runs_changeWith code free hid fun before w₁ he hb x hx => ?_
  rcases List.mem_append.1 hx with hx | hx
  · exact hb x hx
  · obtain rfl := List.mem_singleton.1 hx
    exact hv.mono he

theorem Kernel.Sound.runs_pop (code : AtCode g) (free : Free w g) (hid : id < w.arrays.size) :
    Runs R g g g (id.pop k) (fun v w' => ∀ x, v = some x → x.Valid w') w := by
  refine hk.runs_changeBy (fun he h x hx => (h x hx).mono he) code free hid
    fun before w₁ _ hb => .pure ⟨fun x hx => hb x (List.dropLast_subset before hx), fun x hx => ?_⟩
  exact hb x (List.mem_of_getLast? hx)

theorem Kernel.Sound.runs_insert {i : Nat} {v : Value} (code : AtCode g) (free : Free w g)
    (hid : id < w.arrays.size) (hv : v.Valid w) :
    Runs R g g g (id.insert k i v) (fun _ _ => True) w := by
  refine hk.runs_changeBy (fun _ _ => trivial) code free hid fun before w₁ he hb => .pure ?_
  split
  · exact ⟨hb, trivial⟩
  · next hi =>
    refine ⟨fun x hx => ?_, trivial⟩
    rcases (List.mem_insertIdx (Nat.le_of_not_lt hi)).1 hx with rfl | hx
    · exact hv.mono he
    · exact hb x hx

theorem Kernel.Sound.runs_removeArray {i : Nat} (code : AtCode g) (free : Free w g)
    (hid : id < w.arrays.size) :
    Runs R g g g (id.remove k i) (fun v w' => ∀ x, v = some x → x.Valid w') w :=
  hk.runs_changeBy (fun he h x hx => (h x hx).mono he) code free hid
    fun _ _ _ hb => .pure ⟨fun x hx => hb x (List.mem_of_mem_eraseIdx hx),
      fun x hx => hb x (List.mem_of_getElem? hx)⟩

theorem Kernel.Sound.runs_truncate {n : Nat} (code : AtCode g) (free : Free w g)
    (hid : id < w.arrays.size) : Runs R g g g (id.truncate k n) (fun _ _ => True) w :=
  hk.runs_changeWith code free hid fun _ _ _ hb x hx => hb x (List.mem_of_mem_take hx)

theorem Kernel.Sound.runs_clear (code : AtCode g) (free : Free w g) (hid : id < w.arrays.size) :
    Runs R g g g (id.clear k) (fun _ _ => True) w :=
  hk.runs_changeWith code free hid fun _ _ _ _ _ hx => (nomatch hx)

theorem Kernel.Sound.runs_swap {i j : Nat} (code : AtCode g) (free : Free w g)
    (hid : id < w.arrays.size) : Runs R g g g (id.swap k i j) (fun _ _ => True) w := by
  refine hk.runs_changeBy (fun _ _ => trivial) code free hid fun before w₁ _ hb => .pure ?_
  split
  · next after h => exact ⟨swapped_valid hb h, trivial⟩
  · exact ⟨hb, trivial⟩

theorem Kernel.Sound.runs_reverse (code : AtCode g) (free : Free w g) (hid : id < w.arrays.size) :
    Runs R g g g (id.reverse k) (fun _ _ => True) w :=
  hk.runs_changeWith code free hid fun _ _ _ hb x hx => hb x (List.mem_reverse.1 hx)

theorem Kernel.Sound.runs_extend {vs : List Value} (code : AtCode g) (free : Free w g)
    (hid : id < w.arrays.size) (hvs : ∀ v ∈ vs, v.Valid w) :
    Runs R g g g (id.extend k vs) (fun _ _ => True) w := by
  refine hk.runs_changeWith code free hid fun before w₁ he hb x hx => ?_
  rcases List.mem_append.1 hx with hx | hx
  · exact hb x hx
  · exact (hvs x hx).mono he

end Array

section Callbacks

variable {R : Config → Prop} {g : List Frame} {I : World → Prop} {less : Value → Value → Act Bool}
variable (hI : ∀ {w w' : World}, I w → w.Extends w' → I w')
include hI

theorem runs_insertSorted (hless : ∀ x y w, I w → x.Valid w → y.Valid w →
      Runs R g g g (less x y) (fun _ _ => True) w) {x : Value} {ys : List Value} {w : World}
    (h : I w) (hx : x.Valid w) (hys : ∀ y ∈ ys, y.Valid w) :
    Runs R g g g (insertSorted less x ys) (fun zs w' => ∀ z ∈ zs, z.Valid w') w := by
  induction ys generalizing w with
  | nil => exact .pure fun z hz => List.mem_singleton.1 hz ▸ hx
  | cons y ys ih =>
    have hy := hys y (List.mem_cons_self ..)
    refine (hless x y w h hx hy).bind fun b w₁ _ he _ => ?_
    cases b with
    | true =>
      refine (ih (hI h he) (hx.mono he) fun z hz =>
        (hys z (List.mem_cons_of_mem _ hz)).mono he).bind fun zs w₂ _ he₂ hzs => .pure fun z hz => ?_
      rcases List.mem_cons.1 hz with rfl | hz
      · exact (hy.mono he).mono he₂
      · exact hzs z hz
    | false =>
      refine .pure fun z hz => ?_
      rcases List.mem_cons.1 hz with rfl | hz
      · exact hx.mono he
      · exact (hys z hz).mono he

theorem runs_insertionSort (hless : ∀ x y w, I w → x.Valid w → y.Valid w →
      Runs R g g g (less x y) (fun _ _ => True) w) {xs : List Value} {w : World}
    (h : I w) (hxs : ∀ x ∈ xs, x.Valid w) :
    Runs R g g g (insertionSort less xs) (fun zs w' => ∀ z ∈ zs, z.Valid w') w := by
  have fold : ∀ (xs sorted : List Value) (w : World), I w → (∀ x ∈ xs, x.Valid w) →
      (∀ x ∈ sorted, x.Valid w) →
        Runs R g g g (xs.foldlM (fun sorted x => insertSorted less x sorted) sorted)
          (fun zs w' => ∀ z ∈ zs, z.Valid w') w := by
    intro xs
    induction xs with
    | nil => exact fun sorted w _ _ hs => .pure hs
    | cons x xs ih =>
      intro sorted w h hxs hs
      rw [List.foldlM_cons]
      refine (runs_insertSorted hI hless h (hxs x (List.mem_cons_self ..)) hs).bind
        fun zs w₁ _ he hzs => ih zs w₁ (hI h he) (fun y hy => ?_) hzs
      exact (hxs y (List.mem_cons_of_mem _ hy)).mono he
  exact (fold xs [] w h hxs fun _ hx => (nomatch hx)).bind fun zs w₁ _ _ hzs =>
    .pure fun z hz => hzs z (List.mem_reverse.1 hz)

theorem runs_filterM {keep : Value → Act Bool} (hkeep : ∀ x w, I w → x.Valid w →
      Runs R g g g (keep x) (fun _ _ => True) w) {xs : List Value} {w : World}
    (h : I w) (hxs : ∀ x ∈ xs, x.Valid w) :
    Runs R g g g (xs.filterM keep) (fun zs w' => ∀ z ∈ zs, z.Valid w') w := by
  have filter : ∀ (xs kept : List Value) (w : World), I w → (∀ x ∈ xs, x.Valid w) →
      (∀ x ∈ kept, x.Valid w) →
        Runs R g g g (xs.filterAuxM keep kept) (fun zs w' => ∀ z ∈ zs, z.Valid w') w := by
    intro xs
    induction xs with
    | nil => exact fun kept w _ _ hk => .pure hk
    | cons x xs ih =>
      intro kept w h hxs hkept
      have hx := hxs x (List.mem_cons_self ..)
      refine (hkeep x w h hx).bind fun b w₁ _ he _ => ih _ w₁ (hI h he) (fun y hy => ?_) fun y hy => ?_
      · exact (hxs y (List.mem_cons_of_mem _ hy)).mono he
      · cases b with
        | false => exact (hkept y hy).mono he
        | true =>
          rcases List.mem_cons.1 hy with rfl | hy
          · exact hx.mono he
          · exact (hkept y hy).mono he
  exact (filter xs [] w h hxs fun _ hx => (nomatch hx)).bind fun zs w₁ _ _ hzs =>
    .pure fun z hz => hzs z (List.mem_reverse.1 hz)

end Callbacks

end Reactivity
