import Reactivity.Proofs.Registration.Covering

namespace Reactivity

namespace Read

def IsPart : Read → Prop
  | .property .. | .slot .. => True
  | _ => False

def cell (w : World) : Read → Option Cell
  | .property id name => (w.object id).properties.lookup name
  | .slot id i => (w.array id).cells[i]?
  | _ => none

/-- What the read shows in the one state it shows in the other, to the bit. -/
def Unaltered (read : Read) (w w' : World) : Prop :=
  ∀ r, read.shown w = some r → read.shown w' = some r

end Read

def World.Rearranges (w w' : World) (h : Handle) : Prop :=
  ∃ id before after, h = .array id ∧ w.Adds w' (.wrote (.items id before after))

section Parts

variable {read : Read} (part : read.IsPart) {w w' w'' : World}
include part

theorem Read.IsPart.container (m : NodeId) : read.handle ≠ .memo m := by
  cases read with
  | property | slot => nofun
  | _ => exact part.elim

theorem Read.IsPart.keys_eq (w w' : World) : read.keys w = read.keys w' := by
  cases read <;> first | rfl | exact part.elim

theorem Read.IsPart.shown_eq (w : World) : read.shown w = Cell.shown? (read.cell w) := by
  cases read <;> first | rfl | exact part.elim

theorem Read.Unaltered.of_cell (h : read.cell w' = read.cell w) : read.Unaltered w w' := by
  intro r hr
  rw [part.shown_eq, h, ← part.shown_eq]
  exact hr

theorem Read.Unaltered.of_sameContent (h : w.SameContent w') : read.Unaltered w w' := by
  refine .of_cell part ?_
  cases read with
  | property id name => exact congrArg (·.lookup name) (h.1 id)
  | slot id i => exact congrArg (·[i]?) (h.2 id)
  | _ => exact part.elim

theorem Read.Unaltered.modifyArray_of_ne {id : ArrayId} (h : read.handle ≠ .array id)
    (f : ArrayState → ArrayState) : read.Unaltered w (w.modifyArray id f) := by
  refine .of_cell part ?_
  cases read with
  | property => rfl
  | slot id' i =>
    have hne : id ≠ id' := fun he => h (he ▸ rfl)
    rw [cell, cell, World.array_modifyArray, if_neg fun hid => hne hid.1]
  | _ => exact part.elim

theorem Edit.unaltered {write : Write} (edit : Edit w write w')
    (apart : read.handle = write.handle → ∀ key ∈ write.changed, key ∉ read.keys w) :
    read.Unaltered w w' := by
  have object {id : ObjectId} {name : String} {f : Properties → Properties}
      {old : Option Cell} {new : Option Value} (hw : id < w.objects.size)
      (lookup : ∀ other, other ≠ name → (f (w.object id).properties).lookup other =
        (w.object id).properties.lookup other)
      (apart : read.handle = .object id → .property name ∉ read.keys w) :
      read.Unaltered w ((w.note (.wrote (.property id name old new))).modifyObject id fun o =>
        { o with properties := f o.properties }) := by
    refine .of_cell part ?_
    cases read with
    | property id' other =>
      have same : (w.note (.wrote (.property id name old new))).object id' = w.object id' := rfl
      rw [Read.cell, Read.cell, World.object_modifyObject, same]
      split
      · next hid =>
        obtain ⟨rfl, -⟩ := hid
        exact lookup other fun he => apart rfl (he ▸ List.mem_singleton_self _)
      · rfl
    | slot => rfl
    | _ => exact part.elim
  have array {id : ArrayId} {i : Nat} {f : List Cell → List Cell} {old : Option Cell} {new : Value}
      (get : ∀ j, j ≠ i → (f (w.array id).cells)[j]? = (w.array id).cells[j]?)
      (apart : read.handle = .array id → .index i ∉ read.keys w) :
      read.Unaltered w ((w.note (.wrote (.slot id i old new))).modifyArray id fun a =>
        { a with cells := f a.cells }) := by
    refine .of_cell part ?_
    cases read with
    | property => rfl
    | slot id' j =>
      have same : (w.note (.wrote (.slot id i old new))).array id' = w.array id' := rfl
      rw [Read.cell, Read.cell, World.array_modifyArray, same]
      split
      · next hid =>
        obtain ⟨rfl, -⟩ := hid
        exact get j fun he => apart rfl (he ▸ List.mem_singleton_self _)
      · rfl
    | _ => exact part.elim
  cases edit with
  | setProperty valid value there other =>
    refine object (f := (·.replace _ (.value _))) valid (fun o ho => ?_) fun hh => ?_
    · rw [Properties.lookup_replace, if_neg ho]
    · exact apart hh _ (by simp [Write.changed, changedPart, other])
  | addProperty valid value absent =>
    refine object (f := (·.add _ (.value _))) valid (fun o ho => ?_) fun hh => ?_
    · exact (Properties.lookup_add _ _ _ _ absent).trans (if_neg ho)
    · exact apart hh _ (by simp [Write.changed, changedPart])
  | removeProperty valid there =>
    refine object (f := (·.remove _)) valid (fun o ho => ?_) fun hh => ?_
    · rw [Properties.lookup_remove, if_neg ho]
    · exact apart hh _ (by simp [Write.changed, changedPart])
  | setSlot valid value there other =>
    refine array (f := (·.set _ (.value _))) (fun j hj => ?_) fun hh => ?_
    · exact List.getElem?_set_ne (Ne.symm hj)
    · exact apart hh _ (by simp [Write.changed, changedPart, other])
  | @addSlot id v valid value =>
    refine array (i := (w.array id).cells.length) (f := (· ++ [Cell.value v])) (fun j hj => ?_)
      fun hh => ?_
    · rcases Nat.lt_or_gt_of_ne hj with hlt | hgt
      · exact List.getElem?_append_left hlt
      · refine (List.getElem?_eq_none ?_).trans (List.getElem?_eq_none (Nat.le_of_lt hgt)).symm
        exact (List.length_append ..).symm ▸ hgt
    · exact apart hh _ (by simp [Write.changed, changedPart])

end Parts

/-- The read shows to the bit what it has shown at the start, or the change has been announced, or the
array has been changed as a whole. -/
def Read.Faithful (read : Read) (start : World) (c : Config) : Prop :=
  read.Unaltered start c.world ∨ read.Announced start c ∨ start.Rearranges c.world read.handle

section Faithful

variable {read : Read} (part : read.IsPart) {start : World} {c c' : Config}
include part

/-- A step alters what a part shows only if it announces that, or if it changes an array as a whole. -/
theorem Step.faithful (step : Step c c') (he : start.Extends c.world)
    (valid : read.handle.Valid start) (h : read.Faithful start c) : read.Faithful start c' := by
  have hx := step.extends
  rcases h with kept | announced | rearranged
  rotate_left
  · exact .inr (.inl (announced.step step he))
  · obtain ⟨id, before, after, hid, ha⟩ := rearranged
    exact .inr (.inr ⟨id, before, after, hid, ha.mono (.refl start) hx⟩)
  have unaltered (hu : read.Unaltered c.world c'.world) : read.Faithful start c' :=
    .inl fun r hr => hu r (kept r hr)
  have quiet (hs : c.world.SameContent c'.world) : read.Faithful start c' :=
    unaltered (.of_sameContent part hs)
  have hvalid := valid.mono he
  cases step with
  | aside hw => exact quiet hw.sameContent
  | @newObject w g rt properties _ _ _ =>
    refine unaltered (.of_cell part ?_)
    cases read with
    | property id name =>
      have hne : id ≠ w.objects.size := Nat.ne_of_lt hvalid
      simp [Read.cell, World.object, Array.getElem?_push, hne]
    | slot => rfl
    | _ => exact part.elim
  | @newArray w g rt cells _ _ _ =>
    refine unaltered (.of_cell part ?_)
    cases read with
    | property => rfl
    | slot id i =>
      have hne : id ≠ w.arrays.size := Nat.ne_of_lt hvalid
      simp [Read.cell, World.array, Array.getElem?_push, hne]
    | _ => exact part.elim
  | @resolveObject w g id properties _ resolved =>
    refine unaltered ?_
    cases read with
    | property id' name =>
      intro r hr
      rw [Read.shown, World.object_modifyObject]
      split
      · next hid => exact hid.1 ▸ resolved.shown? name (hid.1 ▸ hr)
      · exact hr
    | slot => exact fun r hr => hr
    | _ => exact part.elim
  | @resolveArray w g id cells _ resolved =>
    refine unaltered ?_
    cases read with
    | property => exact fun r hr => hr
    | slot id' i =>
      intro r hr
      rw [Read.shown, World.array_modifyArray]
      split
      · next hid => exact shown?_of_resolved resolved i (hid.1 ▸ hr)
      · exact hr
    | _ => exact part.elim
  | @write w w' g rt write _ _ _ edit =>
    by_cases hapart : read.handle = write.handle → ∀ key ∈ write.changed, key ∉ read.keys w
    · exact unaltered (edit.unaltered part hapart)
    · obtain ⟨handle, hapart⟩ := Classical.not_imp.1 hapart
      have wrote : w.Adds w' (.wrote write) := ⟨[_], edit.history, List.mem_singleton_self _⟩
      simp only [not_forall, not_not] at hapart
      obtain ⟨key, hk, hr⟩ := hapart
      obtain ⟨new, hnew, hm⟩ := wrote.mono he (.refl w')
      refine .inr (.inl ⟨key, part.keys_eq w start ▸ hr, .inr (.inr ⟨rfl, ?_, new, hnew, ?_⟩)⟩)
      · exact ⟨rt, write.changed, handle ▸ List.mem_cons_self, hk⟩
      · exact ⟨write, hm, handle.symm, hk⟩
  | @endChange w g rt id before after _ _ =>
    by_cases handle : read.handle = .array id
    · refine .inr (.inr ⟨id, before, after, handle, World.Adds.mono ?_ he (.refl _)⟩)
      exact ⟨[.wrote (.items id before after), .changeEnded id], rfl, List.mem_cons_self⟩
    · exact unaltered (.modifyArray_of_ne part handle _)
  | track _ _ _ _ _ => exact quiet (.trackedBy ..)
  | trigger => exact quiet (.taken ..)
  | tellEffect _ _ => exact quiet (.queuedIn ..)
  | schedule _ _ _ _ _ _ => exact quiet (.queuedIn ..)
  | reuse _ _ _ _ _ => exact quiet (.trackedIn ..)
  | beginCompute _ _ _ _ => exact quiet ((World.SameContent.trackedIn ..).trans (.computing ..))
  | endReading _ _ => exact quiet (.gotBy ..)
  | clearRunning _ _ => exact quiet (.clearedOf ..)
  | beginRun _ _ _ _ => exact quiet (.running ..)
  | dispose _ _ _ => exact quiet (.disposing ..)
  | retire _ => exact quiet (.disposing ..)
  | _ => exact quiet (.of_eq rfl rfl)

theorem Reaches.faithful {w : World} {g : List Frame} {u : Bool}
    (valid : read.handle.Valid w) (h : Reaches ⟨w, g, u⟩ c) : read.Faithful w c := by
  induction h with
  | refl => exact .inl fun _ hr => hr
  | tail steps step ih => exact step.faithful part steps.extends valid ih

end Faithful

/-- Results of parts that are the same are equal, unless they are two zeros or two numbers that are
none. -/
theorem Read.IsPart.eq_or_numbers {read : Read} (part : read.IsPart) {w : World} {r r' : Result}
    (shown : read.shown w = some r) (same : r.same r') :
    r' = r ∨ ∃ x y, r = .value (.number x) ∧ r' = .value (.number y) ∧
      (x.isZero ∧ y.isZero ∨ x.isNaN ∧ y.isNaN) := by
  have cases_of_cell {cell : Option Cell} (h : Cell.shown? cell = some r) :
      r = .nothing ∨ ∃ v, r = .value v := by
    cases cell with
    | none => exact .inl (Option.some.inj h).symm
    | some c =>
      obtain ⟨v, -, hv⟩ := Option.map_eq_some_iff.1 h
      exact .inr ⟨v, hv.symm⟩
  rw [part.shown_eq] at shown
  rcases cases_of_cell shown with rfl | ⟨v, rfl⟩
  · cases r' with
    | nothing => exact .inl rfl
    | _ => cases same
  · cases r' with
    | value v' =>
      have hsame : v.same v' := same
      cases v with
      | number x =>
        cases v' with
        | number y =>
          rw [Value.same, Number.same, Bool.or_eq_true, Bool.or_eq_true, beq_iff_eq,
            Bool.and_eq_true, Bool.and_eq_true] at hsame
          rcases hsame with (rfl | hzero) | hnan
          · exact .inl rfl
          · exact .inr ⟨x, y, rfl, rfl, .inl hzero⟩
          · exact .inr ⟨x, y, rfl, rfl, .inr hnan⟩
        | _ => cases hsame
      | _ => exact .inl (congrArg Result.value (Value.eq_of_same hsame fun _ h => by cases h))
    | _ => cases same

/-- A read of a property or slot gives to the bit what it gave before, whatever was done in between,
unless the part was triggered, or a write was cut short before it came to that, or the array was changed
as a whole. In that case it gives another zero or another number that is none, if not the same. -/
theorem parts_altered_only_if_triggered {settings : Settings} {hook : Hook} {w : World}
    {g : List Frame} (reached : Reaches (.start settings hook) ⟨w, g, false⟩) (code : AtCode g)
    (free : Free w g) (depth : Nat) {read : Read} (part : read.IsPart) (valid : read.handle.Valid w) :
    ∃ r w₁, (read.perform (kernel depth)).run.run w = (.ok r, w₁) ∧
      ∀ (env : Env) e outcome w₂, env.Valid w₁ →
        (eval (kernel depth) env e).run.run w₁ = (outcome, w₂) →
        ∃ r' w₃, (read.perform (kernel depth)).run.run w₂ = (.ok r', w₃) ∧
          (r' = r ∨
            w₁.Rearranges w₂ read.handle ∧ (∃ x y, r = .value (.number x) ∧ r' = .value (.number y) ∧
              (x.isZero ∧ y.isZero ∨ x.isNaN ∧ y.isNaN)) ∨
            ∃ key ∈ read.keys w₁,
              w₁.Adds w₂ (.triggered read.handle key) ∨ w₁.CutShort w₂ read.handle key) := by
  have hR := Closed.reaches (Config.start_sane settings hook)
  have frames := (hR.sane reached).frames
  have container := part.container
  obtain ⟨r, w₁, hrun, hr₁, he₁, hmade⟩ :=
    Read.made (k := kernel depth) hR code valid container reached
  refine ⟨r, w₁, hrun, fun env e outcome w₂ henv ran => ?_⟩
  have valid₁ := valid.mono he₁
  have free₁ := free.mono he₁ frames
  obtain ⟨he₂, hr₂, hcover⟩ := kept_or_triggered hr₁ code free₁ henv depth e ran
  obtain ⟨-, -, hapart⟩ := reaches_withoutWrites hr₁ code free₁ henv depth e ran
  obtain ⟨r', w₃, hrun', -, -, -⟩ :=
    Read.made (k := kernel depth) hR code (valid₁.mono he₂) container hr₂
  have gives {x : Result} (hx : read.shown w₂ = some x) : r' = x := by
    have hx := Read.run_perform hx depth
    rw [hrun'] at hx
    exact Except.ok.inj hx
  refine ⟨r', w₃, hrun', ?_⟩
  rcases hcover read valid₁ container with hkept | htriggered
  swap
  · exact .inr (.inr htriggered)
  rcases hapart.faithful part valid₁ with unaltered | ⟨key, hk, ha⟩ | rearranged
  · exact .inl (gives (unaltered r hmade.shown))
  · exact .inr (.inr ⟨key, hk, ha.imp_right fun ha =>
      ha.resolve_right fun hd => hd.not_withoutWrites rfl⟩)
  · obtain ⟨r'', hr'', hsame⟩ := hkept.shown r hmade.shown
    obtain rfl := gives hr''
    exact (part.eq_or_numbers hmade.shown hsame).imp_right fun h => .inl ⟨rearranged, h⟩

def twoZeros : List Expr :=
  [.assign "a" (.apply .wrap [.literal (.array [.float ⟨0⟩, .float ⟨0x8000000000000000⟩])])]

def reverseZeros : Expr :=
  .container .reverse (.var "a") []

/-- The zeros change places, and nothing is triggered. -/
theorem zeros_change_places :
    ∃ w₁ w₂, ((Read.slot 0 0).perform (kernel 2)).run.run (World.after .standard .manual 2 twoZeros) =
        (.ok (.value (.number ⟨0⟩)), w₁) ∧
      (eval (kernel 2) ⟨0, []⟩ reverseZeros).run.run w₁ = (.ok .nothing, w₂) ∧
      (((Read.slot 0 0).perform (kernel 2)).run.run w₂).1 =
        .ok (.value (.number ⟨0x8000000000000000⟩)) ∧
      w₂.history.filterMap Event.triggered? = [] := by
  have hread : (((Read.slot 0 0).perform (kernel 2)).run.run
      (World.after .standard .manual 2 twoZeros)).1 = .ok (.value (.number ⟨0⟩)) :=
    rfl
  have hreverse : ((eval (kernel 2) ⟨0, []⟩ reverseZeros).run.run
      (((Read.slot 0 0).perform (kernel 2)).run.run
        (World.after .standard .manual 2 twoZeros)).2).1 = .ok .nothing :=
    rfl
  exact ⟨_, _, Prod.ext hread rfl, Prod.ext hreverse rfl, rfl, rfl⟩

/-- What the first slot gives after the array has been reversed is another zero. -/
theorem parts_altered_only_if_triggered_twoZeros :
    ∃ w₁ w₂, ((Read.slot 0 0).perform (kernel 2)).run.run (World.after .standard .manual 2 twoZeros) =
        (.ok (.value (.number ⟨0⟩)), w₁) ∧
      (eval (kernel 2) ⟨0, []⟩ reverseZeros).run.run w₁ = (.ok .nothing, w₂) ∧
      ∃ r' w₃, ((Read.slot 0 0).perform (kernel 2)).run.run w₂ = (.ok r', w₃) ∧
        (r' = .value (.number ⟨0⟩) ∨
          w₁.Rearranges w₂ (.array 0) ∧ (∃ x y, Result.value (.number ⟨0⟩) = .value (.number x) ∧
            r' = .value (.number y) ∧ (x.isZero ∧ y.isZero ∨ x.isNaN ∧ y.isNaN)) ∨
          ∃ key ∈ (Read.slot 0 0).keys w₁,
            w₁.Adds w₂ (.triggered (.array 0) key) ∨ w₁.CutShort w₂ (.array 0) key) := by
  have hreach := reaches_after .standard .manual 2 twoZeros
  have hsize : (World.after .standard .manual 2 twoZeros).arrays.size = 1 := rfl
  have hread : (((Read.slot 0 0).perform (kernel 2)).run.run
      (World.after .standard .manual 2 twoZeros)).1 = .ok (.value (.number ⟨0⟩)) :=
    rfl
  have hruntimes : (((Read.slot 0 0).perform (kernel 2)).run.run
      (World.after .standard .manual 2 twoZeros)).2.runtimes.size = 1 :=
    rfl
  have hreverse : ((eval (kernel 2) ⟨0, []⟩ reverseZeros).run.run
      (((Read.slot 0 0).perform (kernel 2)).run.run
        (World.after .standard .manual 2 twoZeros)).2).1 = .ok .nothing :=
    rfl
  generalize World.after .standard .manual 2 twoZeros = w at *
  have valid : (Read.slot 0 0).handle.Valid w := by
    change 0 < w.arrays.size
    rw [hsize]
    exact Nat.one_pos
  have part : Read.IsPart (.slot 0 0) := trivial
  obtain ⟨r, w₁, hrun, hcover⟩ :=
    parts_altered_only_if_triggered hreach trivial trivial 2 part valid
  rw [hrun] at hread hruntimes hreverse
  obtain rfl := Except.ok.inj hread
  generalize hstep : (eval (kernel 2) ⟨0, []⟩ reverseZeros).run.run w₁ = o at hreverse
  obtain ⟨outcome, w₂⟩ := o
  obtain rfl : outcome = .ok .nothing := hreverse
  have henv : Env.Valid w₁ ⟨0, []⟩ := ⟨hruntimes ▸ Nat.one_pos, fun _ h => by cases h⟩
  exact ⟨w₁, w₂, hrun, hstep, hcover ⟨0, []⟩ reverseZeros _ w₂ henv hstep⟩

end Reactivity
