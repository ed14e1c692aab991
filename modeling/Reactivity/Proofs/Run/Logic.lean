import Reactivity.Proofs.Run.Invariant

/-!
Actions as runs of the machine. What an action does to the state is read as steps from a
configuration with one stack to a configuration with another, or, if it is interrupted, to an
unwinding one.
-/

namespace Reactivity

/-- Sane configurations that are closed under steps. -/
structure Closed (R : Config → Prop) : Prop where
  step : ∀ {c c' : Config}, R c → Step c c' → R c'
  sane : ∀ {c : Config}, R c → c.Sane

theorem Closed.reaches {c : Config} (h : c.Sane) : Closed (Reaches c) where
  step steps step := steps.tail step
  sane steps := steps.sane h

/-- `Does R g u g' c Q w`: from the state and the stack `g`, the change leads to the stack `g'`, and
`Q` holds of its result and of the state then. -/
def Does (R : Config → Prop) (g : List Frame) (u : Bool) (g' : List Frame) (c : Change α)
    (Q : α → World → Prop) (w : World) : Prop :=
  R ⟨w, g, u⟩ → R ⟨(c.run w).2, g', u⟩ ∧ w.Extends (c.run w).2 ∧ Q (c.run w).1 (c.run w).2

def World.Adds (w w' : World) (e : Event) : Prop :=
  ∃ new, w'.history = new ++ w.history ∧ e ∈ new

theorem World.Adds.mono {w₀ w w' w₁ : World} {e : Event} (h : w.Adds w' e) (h₀ : w₀.Extends w)
    (h₁ : w'.Extends w₁) : w₀.Adds w₁ e := by
  obtain ⟨new, hn, he⟩ := h
  obtain ⟨old, ho⟩ := h₀.history
  obtain ⟨next, hx⟩ := h₁.history
  exact ⟨next ++ (new ++ old), by simp [← hx, hn, ← ho], by simp [he]⟩

/-- An interrupt that a program comes to by itself. It is written down. -/
def Interrupt.Raised (w w' : World) : Interrupt → Prop
  | .thrown message => w.Adds w' (.threw message)
  | .exhausted => w.Adds w' .exhausted
  | .stopped => False

theorem Interrupt.Raised.mono {w₀ w w' w₁ : World} {i : Interrupt} (h : i.Raised w w')
    (h₀ : w₀.Extends w) (h₁ : w'.Extends w₁) : i.Raised w₀ w₁ := by
  cases i with
  | thrown message => exact World.Adds.mono h h₀ h₁
  | exhausted => exact World.Adds.mono h h₀ h₁
  | stopped => exact h

/-- How an action ends: with a result, of which and of the state then `Q` holds, and the stack `g'`;
or interrupted, and unwinding with the stack `e`. -/
def Ends (R : Config → Prop) (e g' : List Frame) (Q : α → World → Prop) (w : World) :
    Except Interrupt α × World → Prop
  | (.ok a, w') => R ⟨w', g', false⟩ ∧ w.Extends w' ∧ Q a w'
  | (.error i, w') => R ⟨w', e, true⟩ ∧ w.Extends w' ∧ i.Raised w w'

/-- `Runs R g e g' act Q w`: from the state and the stack `g`, the action leads to the stack `g'`,
and `Q` holds of its result and of the state then; or it is interrupted, and leads to the stack
`e`. Nobody stops it. -/
def Runs (R : Config → Prop) (g e g' : List Frame) (act : Act α) (Q : α → World → Prop)
    (w : World) : Prop :=
  R ⟨w, g, false⟩ → Ends R e g' Q w (act.run.run w)

-- The proofs stand in parentheses so that `simp` uses what follows as equations, and leaves nothing
-- to be unfolded to the kernel.

namespace Change

variable {α β : Type}

@[simp]
theorem run_bind (c : Change α) (f : α → Change β) (w : World) :
    (c >>= f).run w = (f (c.run w).1).run (c.run w).2 :=
  (rfl)

@[simp]
theorem run_get (w : World) : (get : Change World).run w = (w, w) :=
  (rfl)

@[simp]
theorem run_modify (f : World → World) (w : World) : (modify f : Change PUnit).run w = (⟨⟩, f w) :=
  (rfl)

@[simp]
theorem run_note (e : Event) (w : World) : (note e).run w = ((), w.note e) :=
  (rfl)

end Change

namespace Act

variable {α β : Type}

@[simp]
theorem run_get_bind (f : World → Act α) (w : World) :
    (get >>= f : Act α).run.run w = (f w).run.run w :=
  (rfl)

@[simp]
theorem run_modify_bind (g : World → World) (f : PUnit → Act α) (w : World) :
    (modify g >>= f : Act α).run.run w = (f ⟨⟩).run.run (g w) :=
  (rfl)

@[simp]
theorem run_lift_bind (c : Change α) (f : α → Act β) (w : World) :
    (liftM c >>= f : Act β).run.run w = (f (c.run w).1).run.run (c.run w).2 :=
  (rfl)

end Act

section Does

variable {α β : Type} {R : Config → Prop} {g g' g₁ : List Frame} {u : Bool} {w w' : World}
variable {P Q : α → World → Prop}

theorem Does.intro {c : Change α} (h : R ⟨w, g, u⟩ → Does R g u g' c Q w) : Does R g u g' c Q w :=
  fun hr => h hr hr

theorem Does.pure {a : α} (h : Q a w) : Does R g u g (pure a : Change α) Q w :=
  fun hr => ⟨hr, .refl w, h⟩

theorem Does.of_run {c : Change α} {a : α} (h : c.run w = (a, w)) (hq : Q a w) :
    Does R g u g c Q w := by
  intro hr
  rw [h]
  exact ⟨hr, .refl w, hq⟩

theorem Does.get_bind {f : World → Change α} (h : Does R g u g' (f w) Q w) :
    Does R g u g' (get >>= f) Q w :=
  h

theorem Does.bind {c : Change α} {f : α → Change β} {Q : β → World → Prop}
    (h : Does R g u g₁ c P w)
    (hf : ∀ a w', R ⟨w', g₁, u⟩ → w.Extends w' → P a w' → Does R g₁ u g' (f a) Q w') :
    Does R g u g' (c >>= f) Q w := by
  intro hr
  obtain ⟨hr₁, he₁, hp⟩ := h hr
  obtain ⟨hr', he', hq⟩ := hf _ _ hr₁ he₁ hp hr₁
  exact ⟨hr', he₁.trans he', hq⟩

theorem Does.mono {c : Change α} (h : Does R g u g' c P w)
    (hq : ∀ a w', R ⟨w', g', u⟩ → w.Extends w' → P a w' → Q a w') : Does R g u g' c Q w := by
  intro hr
  obtain ⟨hr', he, hp⟩ := h hr
  exact ⟨hr', he, hq _ _ hr' he hp⟩

theorem Does.and_run {c : Change α} {Q : α → World → Prop} (h : Does R g u g' c P w)
    (hq : Q (c.run w).1 (c.run w).2) : Does R g u g' c (fun a w' => P a w' ∧ Q a w') w := by
  intro hr
  obtain ⟨hr', he, hp⟩ := h hr
  exact ⟨hr', he, hp, hq⟩

theorem Does.step (hR : Closed R) {c : Change α} (c' : Change α) {w₁ : World}
    (h : Step ⟨w, g, u⟩ ⟨w₁, g₁, u⟩) (heq : c.run w = c'.run w₁) (hd : Does R g₁ u g' c' Q w₁) :
    Does R g u g' c Q w := by
  intro hr
  obtain ⟨hr', he, hq⟩ := hd (hR.step hr h)
  rw [heq]
  exact ⟨hr', h.extends.trans he, hq⟩

theorem Does.of_step (hR : Closed R) {c : Change α} (h : Step ⟨w, g, u⟩ ⟨(c.run w).2, g', u⟩)
    (hq : w.Extends (c.run w).2 → Q (c.run w).1 (c.run w).2) : Does R g u g' c Q w :=
  fun hr => ⟨hR.step hr h, h.extends, hq h.extends⟩

end Does

section Runs

variable {α β : Type} {R : Config → Prop} {g e e' g' g₁ : List Frame} {w w' : World}
variable {P Q : α → World → Prop}

theorem Ends.mono {o : Except Interrupt α × World} (h : Ends R e g' P w' o) (he : w.Extends w')
    (hq : ∀ a w'', w'.Extends w'' → P a w'' → Q a w'') : Ends R e g' Q w o := by
  rcases o with ⟨i | a, w''⟩
  · exact ⟨h.1, he.trans h.2.1, h.2.2.mono he (.refl w'')⟩
  · exact ⟨h.1, he.trans h.2.1, hq a w'' h.2.1 h.2.2⟩

theorem Runs.intro {act : Act α} (h : R ⟨w, g, false⟩ → Runs R g e g' act Q w) :
    Runs R g e g' act Q w :=
  fun hr => h hr hr

theorem Runs.pure {a : α} (h : Q a w) : Runs R g e g (pure a : Act α) Q w :=
  fun hr => ⟨hr, .refl w, h⟩

theorem Act.run_ensuring (act : Act α) (after : Change Unit) (w : World) :
    (act.ensuring after).run.run w = ((act.run.run w).1, (after.run (act.run.run w).2).2) :=
  rfl

theorem Act.run_bind (act : Act α) (f : α → Act β) (w : World) :
    (act >>= f).run.run w =
      match act.run.run w with
      | (.ok a, w') => (f a).run.run w'
      | (.error i, w') => (.error i, w') := by
  simp only [ExceptT.run_bind, StateT.run_bind]
  rcases act.run.run w with ⟨_ | _, w'⟩ <;> rfl

theorem Runs.of_run {act : Act α} {a : α} (h : act.run.run w = (.ok a, w)) (hq : Q a w) :
    Runs R g e g act Q w := by
  intro hr
  rw [h]
  exact ⟨hr, .refl w, hq⟩

theorem Runs.bind {act : Act α} {f : α → Act β} {Q : β → World → Prop}
    (h : Runs R g e g₁ act P w)
    (hf : ∀ a w', R ⟨w', g₁, false⟩ → w.Extends w' → P a w' → Runs R g₁ e g' (f a) Q w') :
    Runs R g e g' (act >>= f) Q w := by
  intro hr
  have h := h hr
  rw [Act.run_bind]
  generalize act.run.run w = o at h
  rcases o with ⟨i | a, w'⟩
  · exact h
  · obtain ⟨hr₁, he₁, hp⟩ := h
    exact (hf a w' hr₁ he₁ hp hr₁).mono he₁ fun _ _ _ hq => hq

theorem Runs.mono {act : Act α} (h : Runs R g e g' act P w)
    (hq : ∀ a w', R ⟨w', g', false⟩ → w.Extends w' → P a w' → Q a w') :
    Runs R g e g' act Q w := by
  intro hr
  have h := h hr
  generalize act.run.run w = o at h ⊢
  rcases o with ⟨i | a, w'⟩
  · exact h
  · exact ⟨h.1, h.2.1, hq a w' h.1 h.2.1 h.2.2⟩

theorem Runs.unwind {act : Act α} (h : Runs R g e g' act Q w)
    (hu : ∀ w', R ⟨w', e, true⟩ → R ⟨w', e', true⟩) : Runs R g e' g' act Q w := by
  intro hr
  have h := h hr
  generalize act.run.run w = o at h ⊢
  rcases o with ⟨i | a, w'⟩
  · exact ⟨hu w' h.1, h.2⟩
  · exact h

theorem Runs.drop (hR : Closed R) {f : Frame} (hf : f.Droppable) {act : Act α}
    (h : Runs R g (f :: e) g' act Q w) : Runs R g e g' act Q w :=
  h.unwind fun _ hr => hR.step hr (.drop hf)

theorem Runs.lift {c : Change α} (h : Does R g false g' c Q w) :
    Runs R g e g' (liftM c : Act α) Q w :=
  fun hr => h hr

theorem Runs.get_bind {f : World → Act α} (h : Runs R g e g' (f w) Q w) :
    Runs R g e g' (get >>= f) Q w :=
  h

theorem Runs.step (hR : Closed R) {act : Act α} (act' : Act α) {w₁ : World}
    (h : Step ⟨w, g, false⟩ ⟨w₁, g₁, false⟩) (heq : act.run.run w = act'.run.run w₁)
    (hd : Runs R g₁ e g' act' Q w₁) : Runs R g e g' act Q w := by
  intro hr
  rw [heq]
  exact (hd (hR.step hr h)).mono h.extends fun _ _ _ hq => hq

theorem Runs.ensuring {act : Act α} {after : Change Unit} (h : Runs R g e g₁ act P w)
    (hok : ∀ a w', R ⟨w', g₁, false⟩ → w.Extends w' → P a w' →
      Does R g₁ false g' after (fun _ w'' => Q a w'') w')
    (herror : ∀ w', R ⟨w', e, true⟩ → w.Extends w' →
      Does R e true e' after (fun _ _ => True) w') :
    Runs R g e' g' (act.ensuring after) Q w := by
  intro hr
  have h := h hr
  rw [Act.run_ensuring]
  generalize act.run.run w = o at h ⊢
  rcases o with ⟨i | a, w'⟩
  · obtain ⟨hr', he', -⟩ := herror w' h.1 h.2.1 h.1
    exact ⟨hr', h.2.1.trans he', h.2.2.mono (.refl w) he'⟩
  · obtain ⟨hr', he', hq⟩ := hok a w' h.1 h.2.1 h.2.2 h.1
    exact ⟨hr', h.2.1.trans he', hq⟩

theorem Runs.forM {f : β → Act Unit} {xs : List β} (I : World → Prop)
    (hI : ∀ {w w' : World}, I w → w.Extends w' → I w') (h : I w)
    (hf : ∀ x ∈ xs, ∀ w, R ⟨w, g, false⟩ → I w → Runs R g e g (f x) (fun _ _ => True) w) :
    Runs R g e g (xs.forM f) (fun _ _ => True) w := by
  induction xs generalizing w with
  | nil => exact .pure trivial
  | cons x xs ih =>
    intro hr
    have hd : Runs R g e g (f x >>= fun _ => xs.forM f) (fun _ _ => True) w :=
      .bind (hf x (List.mem_cons_self ..) w hr h) fun _ w' _ he _ =>
        ih (hI h he) fun y hy => hf y (List.mem_cons_of_mem _ hy)
    exact hd hr

end Runs

end Reactivity
