import Reactivity.Proofs.Passes.Watchers

namespace Reactivity

def OnCode (w : World) (g : List Frame) : Prop :=
  AtCode g ∧ ∀ n rt s, g = .running n rt :: s → w.isWatcher n = false

def OnNotified (w : World) (id : StoreId) (g : List Frame) : Prop :=
  ∃ rt batch s, g = .notified (w.store id).watcher :: .running (w.store id).watcher rt ::
    .round rt batch :: s

def Frame.SitsOn (w : World) : Frame → List Frame → Prop
  | .writing .., g => OnCode w g ∨ ∃ rt nodes s, g = .telling rt nodes :: s
  | .telling .., g => OnCode w g ∨ (∃ id, id < w.stores.size ∧ OnNotified w id g) ∨
      ∃ rt h keys s, g = .writing rt h keys :: s
  | .pending _, g => ∃ rt batch s, g = .round rt batch :: s
  | .round rt _, g => ∃ s, g = .flushing rt :: s
  | .running _ rt, g => OnCode w g ∨ ∃ batch s, g = .round rt batch :: s
  | .computing n _ _, g => ∃ reader s, g = .reading reader n :: s
  | .watched n, g | .notified n, g => ∃ rt s, g = .running n rt :: s
  | .amid s, g => OnCode w g ∨ ∃ g', g = .pending s.node :: g'
  | .passing id .., g | .passed id, g => OnCode w g ∨ OnNotified w id g
  | .calling _, g => OnCode w g ∨ AtPassing g
  | .beyond, _ => False
  | .reading .., g | .changing .., g | .masked _, g | .flushing _, g | .created _, g
  | .greeting .., g => OnCode w g

def Stacked (w : World) : List Frame → Prop
  | [] => True
  | f :: g => f.SitsOn w g ∧ Stacked w g

section Extends

variable {w w' : World} {g : List Frame} (he : w.Extends w')
include he

theorem OnCode.mono (hv : ∀ f ∈ g, f.Valid w) (h : OnCode w g) : OnCode w' g := by
  refine ⟨h.1, fun n rt s hg => ?_⟩
  subst hg
  rw [he.isWatcher_eq (hv _ List.mem_cons_self).2]
  exact h.2 n rt s rfl

theorem OnNotified.mono {id : StoreId} (hid : id < w.stores.size) (h : OnNotified w id g) :
    OnNotified w' id g := by
  obtain ⟨rt, batch, s, rfl⟩ := h
  rw [← (he.stores id hid).2.2.2]
  exact ⟨rt, batch, s, rfl⟩

end Extends

theorem AtCode.onCode {w : World} {g : List Frame} (code : AtCode g) (free : Free w g) :
    OnCode w g := by
  refine ⟨code, fun n rt s hg => ?_⟩
  subst hg
  exact free

def World.Unhurried (w : World) : Prop :=
  ∀ rt, rt < w.runtimes.size → (w.runtime rt).hook ≠ .flush

theorem World.Unhurried.of_extends {w w' : World} (h : w'.Unhurried) (he : w.Extends w') :
    w.Unhurried := by
  intro rt hrt
  obtain ⟨hrt', -, hook⟩ := he.runtimes rt hrt
  exact hook ▸ h rt hrt'

end Reactivity
