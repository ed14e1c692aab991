import Reactivity.Proofs.Run.Following

namespace Reactivity

section Kernels

variable {R : Config → Prop} (hR : Closed R) {observe : Act Unit}
variable (hobserve : ∀ {c : Config}, R c → c.unwinding = false →
  AtCode c.stack ∨ AfterHook c.world c.stack →
    ∃ w', observe.run.run c.world = (.ok (), w') ∧ c.world.Sighted w')
include hR

theorem runs_exhaust {α : Type} {w : World} {g g' : List Frame} {Q : α → World → Prop}
    (call : MidCall g) : Runs R g g g' (exhaust : Act α) Q w :=
  fun hr => ⟨hR.step hr (.exhaust call), .note w _, ⟨[.exhausted], rfl, List.mem_singleton_self _⟩⟩

include hobserve

theorem Kernel.Sound.exhausted : (Kernel.exhausted observe).Sound R where
  closed := hR
  observe := hobserve
  call code _ _ _ := runs_exhaust hR code.midCall
  callPure _ _ _ := runs_exhaust hR (by rintro s g ⟨⟩)
  flushNow code _ _ _ _ := runs_exhaust hR (code.elim AtCode.midCall AtTelling.midCall)
  passOn _ := (runs_exhaust hR (by rintro s g ⟨⟩)).drop hR (f := .writing ..) trivial

theorem Kernel.Sound.next {inner : Unit → Kernel} (h : (inner ()).Sound R) :
    (Kernel.next observe inner).Sound R where
  closed := hR
  observe := hobserve
  call := by
    intro w g body args code free hb hargs
    have henv : Env.Valid w ⟨body.runtime, args⟩ := ⟨hb, hargs⟩
    exact .intro fun hr => h.runs_eval ⟨code, free, (hR.sane hr).frames⟩ henv body.body
  callPure := by
    intro w g n rt start body hb hp hstart
    have henv : Env.Valid w ⟨body.runtime, []⟩ := ⟨hb, fun _ hr => (nomatch hr)⟩
    refine (h.follows_eval henv body.body hp).mono fun r w' _ he ⟨hr, hd⟩ =>
      ⟨hr, fun hsize since hsince hthrew hbound vars seen hvars hseen => ?_⟩
    have mem {e : Event} (ha : w.Adds w' e) : e ∈ since := by
      obtain ⟨old, hold⟩ := hstart
      obtain ⟨new, hnew, hmem⟩ := ha
      rw [← hold, ← List.append_assoc, hsince] at hnew
      exact (List.append_cancel_right hnew) ▸ List.mem_append_left old hmem
    exact hd (Nat.le_of_eq hsize) vars seen
      ⟨fun message ha => hthrew message (mem ha), fun name hn ha => hbound name hn (mem ha), hvars,
        fun read r ha => hseen read r (mem ha)⟩
  flushNow code free own hrt hook :=
    (h.runs_flush (code.imp_right (⟨·, hook⟩)) free own hrt).bind fun _ _ _ _ _ => .pure trivial
  passOn free := h.runs_trigger free

/-- The operations through which bodies, flushes and triggers are nested are runs of the machine,
however deeply they may be nested. -/
theorem Kernel.sound (depth : Nat) : (observedKernel observe depth).Sound R := by
  induction depth with
  | zero => exact .exhausted hR hobserve
  | succ depth ih => exact .next hR hobserve ih

end Kernels

def Config.start (settings : Settings) (hook : Hook) : Config :=
  ⟨.start settings hook, [], false⟩

theorem Config.start_sane (settings : Settings) (hook : Hook) :
    (Config.start settings hook).Sane where
  world := {
    runtimes := fun id hid => by
      obtain rfl : id = 0 := Nat.lt_one_iff.1 hid
      exact ⟨fun _ hn => (nomatch hn), fun _ hn => (nomatch hn)⟩
    objects := fun _ hid => absurd hid (Nat.not_lt_zero _)
    arrays := fun _ hid => absurd hid (Nat.not_lt_zero _)
    effects := fun n e he => by simp [Config.start, World.start, World.effect?] at he
    memos := fun n m hm => by simp [Config.start, World.start, World.memo?] at hm
    stores := fun _ hid => absurd hid (Nat.not_lt_zero _)
    subscriptions := fun _ hid => absurd hid (Nat.not_lt_zero _)
    bindings := fun _ hp => (nomatch hp)
    tasks := fun _ hrt => (nomatch hrt) }
  context rt hrt := by
    obtain rfl : rt = 0 := Nat.lt_one_iff.1 hrt
    rfl
  frames _ hf := (nomatch hf)

open Classical in
noncomputable def require (P : World → Prop) : Act Unit := do
  if P (← get) then return
  throw .stopped

theorem run_require {P : World → Prop} {w : World} (h : P w) :
    (require P).run.run w = (.ok (), w) := by
  rw [require, Act.run_get_bind]
  simp only [h, if_true]
  rfl

/-- `Throughout settings hook depth es P`: whoever looks at the program on a new runtime while it
runs, before each expression, after each read of a memo and after each flush, finds that `P`
holds, whatever depth of nesting is allowed. -/
def Throughout (settings : Settings) (hook : Hook) (depth : Nat) (es : List Expr)
    (P : World → Prop) : Prop :=
  ∀ report ∈ ((runSteps (observedKernel (require P) depth) es).run (.start settings hook)).1,
    report.outcome ≠ .error .stopped

def World.after (settings : Settings) (hook : Hook) (depth : Nat) (es : List Expr) : World :=
  ((runSteps (kernel depth) es).run (.start settings hook)).2

section Programs

variable {R : Config → Prop} {k : Kernel} (hk : k.Sound R)
include hk

theorem Kernel.Sound.does_runStep {w : World} (hrt : 0 < w.runtimes.size) (e : Expr) :
    Does R [] false [] (runStep k e) (fun report _ => report.outcome ≠ .error .stopped) w := by
  intro hr
  have hclear := Aside.clearLog (w := w)
  have hr₁ := hk.closed.step hr (.aside hclear)
  have henv : Env.Valid { w with log := [] } ⟨0, []⟩ := ⟨hrt, fun _ hr => (nomatch hr)⟩
  have h := hk.runs_eval (g := []) ⟨trivial, trivial, fun _ hf => (nomatch hf)⟩ henv e hr₁
  have hrun : (runStep k e).run w =
      (⟨((eval k ⟨0, []⟩ e).run.run { w with log := [] }).1,
        ((eval k ⟨0, []⟩ e).run.run { w with log := [] }).2.log.reverse,
        (((eval k ⟨0, []⟩ e).run.run { w with log := [] }).2.runtime 0).queue.length⟩,
      ((eval k ⟨0, []⟩ e).run.run { w with log := [] }).2) := rfl
  rw [hrun]
  generalize (eval k ⟨0, []⟩ e).run.run { w with log := [] } = o at h ⊢
  rcases o with ⟨i | r, w'⟩
  · obtain ⟨hr', he, hi⟩ := h
    refine ⟨hk.closed.step hr' .resume, hclear.extends.trans he, fun hstopped => ?_⟩
    exact (Except.error.inj hstopped ▸ hi : Interrupt.Raised _ _ .stopped)
  · exact ⟨h.1, hclear.extends.trans h.2.1, nofun⟩

theorem Kernel.Sound.does_runSteps {w : World} (hrt : 0 < w.runtimes.size) (es : List Expr) :
    Does R [] false [] (runSteps k es)
      (fun reports _ => ∀ report ∈ reports, report.outcome ≠ .error .stopped) w := by
  induction es generalizing w with
  | nil => exact .pure fun _ hr => (nomatch hr)
  | cons e es ih =>
    rw [runSteps, List.mapM_cons]
    refine (hk.does_runStep hrt e).bind fun report w₁ _ he₁ hreport => ?_
    refine (ih (he₁.runtimes 0 hrt).1).bind fun reports w₂ _ _ hreports => .pure fun x hx => ?_
    rcases List.mem_cons.1 hx with rfl | hx
    · exact hreport
    · exact hreports x hx

end Programs

theorem sound_kernel (settings : Settings) (hook : Hook) (depth : Nat) :
    (kernel depth).Sound (Reaches (.start settings hook)) :=
  Kernel.sound (.reaches (Config.start_sane settings hook)) (fun _ _ _ => ⟨_, rfl, .inl rfl⟩) depth

/-- The machine comes to the state after a program, with nothing left to do. -/
theorem reaches_after (settings : Settings) (hook : Hook) (depth : Nat) (es : List Expr) :
    Reaches (.start settings hook) ⟨World.after settings hook depth es, [], false⟩ :=
  ((sound_kernel settings hook depth).does_runSteps (w := .start settings hook) Nat.one_pos es
    .refl).1

/-- What holds wherever the machine comes to the program's own code is seen throughout a program. -/
theorem throughout_of_reaches {settings : Settings} {hook : Hook} {P : World → Prop}
    (h : ∀ {c : Config}, Reaches (.start settings hook) c → c.unwinding = false →
      AtCode c.stack ∨ AfterHook c.world c.stack → P c.world) (depth : Nat) (es : List Expr) :
    Throughout settings hook depth es P := by
  have hk : (observedKernel (require P) depth).Sound (Reaches (.start settings hook)) :=
    Kernel.sound (.reaches (Config.start_sane settings hook))
      (fun hr hu hc => ⟨_, run_require (h hr hu hc), .inl rfl⟩) depth
  obtain ⟨-, -, hq⟩ := hk.does_runSteps (w := .start settings hook) Nat.one_pos es .refl
  exact hq

end Reactivity
