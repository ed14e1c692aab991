import Reactivity.Proofs.Wrapping.Spelling
import Reactivity.Proofs.Updates.Writes

namespace Reactivity

def Write.InPlace : Write → Prop
  | .items _ before after => after = before
  | write => write.changed = []

namespace World

/-- `w.Unfolds w' h`: at most plain JSON in the container has been turned into containers. -/
def Unfolds (w w' : World) : Handle → Prop
  | .object id => Properties.Resolved w (w.object id).properties (w'.object id).properties
  | .array id => List.Forall₂ (Cell.Resolved w) (w.array id).cells (w'.array id).cells
  | .memo _ => True

/-- The container was written between the states, and not everything left in its place. -/
def Disturbed (w w' : World) (h : Handle) : Prop :=
  ∃ write, w.Adds w' (.wrote write) ∧ write.handle = h ∧ ¬ write.InPlace

theorem Disturbed.mono {w₀ w w' w₁ : World} {h : Handle} (hd : w.Disturbed w' h)
    (h₀ : w₀.Extends w) (h₁ : w'.Extends w₁) : w₀.Disturbed w₁ h :=
  hd.imp fun _ h => ⟨h.1.mono h₀ h₁, h.2⟩

theorem forall₂_resolved_refl (w : World) (cells : List Cell) :
    List.Forall₂ (Cell.Resolved w) cells cells :=
  List.forall₂_same.2 fun _ _ => .inl rfl

namespace Unfolds

variable {w w' : World} {h : Handle}

theorem of_same (hs : w.SameContent w') (h : Handle) : w.Unfolds w' h := by
  cases h with
  | object id =>
    rw [Unfolds, hs.1 id]
    exact .refl w _
  | array id =>
    rw [Unfolds, hs.2 id]
    exact w.forall₂_resolved_refl _
  | memo n => trivial

theorem pushObject (o : ObjectState) (hw : w'.objects = w.objects.push o)
    (ha : w'.arrays = w.arrays) (hv : h.Valid w) : w.Unfolds w' h := by
  cases h with
  | object id =>
    have ho : w'.object id = w.object id := by
      simp [object, hw, Array.getElem?_push, Nat.ne_of_lt hv]
    rw [Unfolds, ho]
    exact .refl w _
  | array id =>
    rw [Unfolds, array, array, ha]
    exact w.forall₂_resolved_refl _
  | memo n => trivial

theorem pushArray (a : ArrayState) (hw : w'.arrays = w.arrays.push a)
    (ho : w'.objects = w.objects) (hv : h.Valid w) : w.Unfolds w' h := by
  cases h with
  | object id =>
    rw [Unfolds, object, object, ho]
    exact .refl w _
  | array id =>
    have ha : w'.array id = w.array id := by
      simp [array, hw, Array.getElem?_push, Nat.ne_of_lt hv]
    rw [Unfolds, ha]
    exact w.forall₂_resolved_refl _
  | memo n => trivial

theorem resolveObject {id : ObjectId} {properties : Properties}
    (hr : Properties.Resolved w (w.object id).properties properties) (h : Handle) :
    w.Unfolds (w.modifyObject id fun o => { o with properties := properties }) h := by
  cases h with
  | object id' =>
    rw [Unfolds, object_modifyObject]
    split
    · next hid => exact hid.1 ▸ hr
    · exact .refl w _
  | array id' => exact w.forall₂_resolved_refl _
  | memo n => trivial

theorem resolveArray {id : ArrayId} {cells : List Cell}
    (hr : List.Forall₂ (Cell.Resolved w) (w.array id).cells cells) (h : Handle) :
    w.Unfolds (w.modifyArray id fun a => { a with cells := cells }) h := by
  cases h with
  | object id' => exact .refl w _
  | array id' =>
    rw [Unfolds, array_modifyArray]
    split
    · next hid => exact hid.1 ▸ hr
    · exact w.forall₂_resolved_refl _
  | memo n => trivial

end Unfolds

end World

theorem Edit.not_inPlace {w w' : World} {write : Write} (h : Edit w write w') :
    ¬ write.InPlace := by
  have hc := h.changed_ne_nil
  cases h <;> exact hc

theorem Edit.unfolds {w w' : World} {write : Write} (edit : Edit w write w') {h : Handle}
    (hne : write.handle ≠ h) : w.Unfolds w' h := by
  have object {id : ObjectId} {f : ObjectState → ObjectState} {e : Event} (hne : .object id ≠ h) :
      w.Unfolds ((w.note e).modifyObject id f) h := by
    cases h with
    | object id' =>
      rw [World.Unfolds, World.object_modifyObject, if_neg fun h => hne (by rw [h.1])]
      exact .refl w _
    | array id' => exact w.forall₂_resolved_refl _
    | memo n => trivial
  have array {id : ArrayId} {f : ArrayState → ArrayState} {e : Event} (hne : .array id ≠ h) :
      w.Unfolds ((w.note e).modifyArray id f) h := by
    cases h with
    | object id' => exact .refl w _
    | array id' =>
      rw [World.Unfolds, World.array_modifyArray, if_neg fun h => hne (by rw [h.1])]
      exact w.forall₂_resolved_refl _
    | memo n => trivial
  cases edit with
  | setProperty | addProperty | removeProperty => exact object hne
  | setSlot | addSlot => exact array hne

/-- The values that a change of an array as a whole is computed from are there all the time, or the
array was disturbed. -/
def Config.Folded (start : World) (c : Config) : Prop :=
  ∀ id before, .changing id before ∈ c.stack →
    (c.world.array id).cells = before.map .value ∨ start.Disturbed c.world (.array id)

theorem Aside.sameContent {w w' : World} (h : Aside w w') : w.SameContent w' := by
  cases h with
  | cancel sub _ =>
    obtain ⟨_, _, h⟩ := w.cancelled_eq sub
    rw [h]
    exact .of_eq rfl rfl
  | _ => exact .of_eq rfl rfl

theorem Config.Folded.endChange {start w : World} {id : ArrayId} {before after : List Value}
    {g : List Frame} (he : start.Extends w)
    (hc : Config.Folded start ⟨w, .changing id before :: g, false⟩) {h : Handle} (hv : h.Valid w) :
    let w' := ((w.note (.changeEnded id)).note (.wrote (.items id before after))).modifyArray id
      fun a => { a with cells := after.map .value }
    w.Unfolds w' h ∨ start.Disturbed w' h := by
  intro w'
  have hx : w.Extends w' :=
    ((World.Extends.note w _).trans (.note _ _)).trans (.modifyArray _ _ fun _ => rfl)
  by_cases heq : .array id = h
  · subst heq
    by_cases hplace : after = before
    · rcases hc id before (List.mem_cons_self ..) with hcells | hd
      · refine .inl ?_
        rw [World.Unfolds, World.array_modifyArray, if_pos ⟨rfl, hv⟩, hplace, ← hcells]
        exact w.forall₂_resolved_refl _
      · exact .inr (hd.mono (.refl _) hx)
    · refine .inr ⟨.items id before after, ?_, rfl, hplace⟩
      exact World.Adds.mono ⟨[_, .changeEnded id], rfl, List.mem_cons_self ..⟩ he (.refl w')
  · refine .inl ?_
    cases h with
    | object id' => exact .refl w _
    | array id' =>
      rw [World.Unfolds, World.array_modifyArray, if_neg fun h => heq (by rw [h.1])]
      exact w.forall₂_resolved_refl _
    | memo n => trivial

open World.SameContent in
/-- A step disturbs a container, or turns at most plain JSON in it into containers. -/
theorem Step.unfolds {start : World} {c c' : Config} (step : Step c c')
    (he : start.Extends c.world) (hc : c.Folded start) {h : Handle} (hv : h.Valid c.world) :
    c.world.Unfolds c'.world h ∨ start.Disturbed c'.world h := by
  have quiet {w w' : World} (hs : w.SameContent w') :
      w.Unfolds w' h ∨ start.Disturbed w' h := .inl (.of_same hs h)
  cases step with
  | aside hw => exact quiet hw.sameContent
  | newObject _ _ _ => exact .inl (.pushObject _ rfl rfl hv)
  | newArray _ _ _ => exact .inl (.pushArray _ rfl rfl hv)
  | resolveObject _ resolved => exact .inl (.resolveObject resolved h)
  | resolveArray _ resolved => exact .inl (.resolveArray resolved h)
  | @write w w' g rt write _ _ _ edit =>
    by_cases heq : write.handle = h
    · refine .inr ⟨write, ?_, heq, edit.not_inPlace⟩
      have ha : w.Adds w' (.wrote write) := ⟨[_], edit.history, List.mem_singleton_self _⟩
      exact ha.mono he (.refl w')
    · exact .inl (edit.unfolds heq)
  | endChange _ _ => exact hc.endChange he hv
  | track _ _ _ _ _ => exact quiet (trackedBy ..)
  | trigger => exact quiet (taken ..)
  | tellEffect _ _ => exact quiet (queuedIn ..)
  | schedule _ _ _ _ _ _ => exact quiet (queuedIn ..)
  | reuse _ _ _ _ _ => exact quiet (trackedIn ..)
  | beginCompute _ _ _ _ => exact quiet ((trackedIn ..).trans (computing ..))
  | endReading _ _ => exact quiet (gotBy ..)
  | clearRunning _ _ => exact quiet (clearedOf ..)
  | beginRun _ _ _ _ => exact quiet (running ..)
  | dispose _ _ _ => exact quiet (disposing ..)
  | retire _ => exact quiet (disposing ..)
  | _ => exact quiet (.of_eq rfl rfl)

theorem Step.changing {c c' : Config} (step : Step c c') {id : ArrayId} {before : List Value}
    (hm : .changing id before ∈ c'.stack) :
    .changing id before ∈ c.stack ∨ (c'.world.array id).cells = before.map .value := by
  cases step with
  | beginChange _ _ _ content =>
    rcases List.mem_cons.1 hm with heq | hm
    · obtain ⟨rfl, rfl⟩ := Frame.changing.inj heq
      exact .inr content
    · exact .inl hm
  | giveUp _ frames =>
    refine .inl ?_
    rcases frames with rfl | ⟨rfl, -⟩
    · exact List.mem_cons_of_mem _ hm
    · exact hm
  | _ =>
    refine .inl ?_
    simp only [List.mem_cons, reduceCtorEq, false_or] at hm ⊢
    first | exact hm | exact .inr hm

theorem Step.folded {start : World} {c c' : Config} (step : Step c c')
    (he : start.Extends c.world) (hs : c.Sane) (hc : c.Folded start) : c'.Folded start := by
  intro id before hm
  rcases step.changing hm with hm | hcells
  · obtain ⟨hid, -⟩ := hs.frames _ hm
    rcases hc id before hm with hcells | hd
    · refine (step.unfolds (h := .array id) he hc hid).imp_left fun hu => ?_
      rw [mapM_value?_of_resolved hu (mapM_value?_eq_some.2 hcells), hcells]
    · exact .inr (hd.mono (.refl _) step.extends)
  · exact .inl hcells

theorem exists_of_forall₂_getElem? {α β : Type} {R : α → β → Prop} {xs : List α} {ys : List β}
    (h : List.Forall₂ R xs ys) {i : Nat} {y : β} (hy : ys[i]? = some y) :
    ∃ x, xs[i]? = some x ∧ R x y := by
  induction h generalizing i with
  | nil => cases hy
  | cons hr _ ih =>
    cases i with
    | zero => exact ⟨_, rfl, Option.some.inj hy ▸ hr⟩
    | succ i => exact ih hy

theorem value_of_resolved {w : World} {old new : List Cell}
    (h : List.Forall₂ (Cell.Resolved w) old new) {i : Nat} {v : Value}
    (hv : old[i]? = some (.value v)) : new[i]? = some (.value v) := by
  obtain ⟨c, hc, hold | ⟨_, _, heq, _⟩⟩ := exists_of_forall₂_getElem? h.flip hv
  · exact hold ▸ hc
  · cases heq

namespace World

/-- `w.Contains root h`: containers that have been read lead from the value to the container. -/
inductive Contains (w : World) (root : Value) : Handle → Prop
  | root {h : Handle} (value : root.handle? = some h) : Contains w root h
  | property {id : ObjectId} {name : String} {v : Value} {h : Handle}
    (outer : Contains w root (.object id))
    (there : (w.object id).properties.lookup name = some (.value v))
    (value : v.handle? = some h) : Contains w root h
  | slot {id : ArrayId} {i : Nat} {v : Value} {h : Handle} (outer : Contains w root (.array id))
    (there : (w.array id).cells[i]? = some (Cell.value v)) (value : v.handle? = some h) :
    Contains w root h

/-- All that the value holds has been left in its place since the start. -/
def LeftInPlace (start w : World) (root : Value) : Prop :=
  ∀ h, w.Contains root h → ¬ start.Disturbed w h

section Found

variable {w : World} {target key : Result}

theorem found_object {id : ObjectId} {name : String} {v : Value}
    (h : (w.object id).properties.lookup name = some (.value v)) :
    w.found (.value (.object id)) (.value (.string name)) = .value v := by
  rw [found, h]
  rfl

theorem found_array {id : ArrayId} {x : Number} {v : Value}
    (h : (w.array id).cells[x.toIndex]? = some (Cell.value v)) :
    w.found (.value (.array id)) (.value (.number x)) = .value v := by
  rw [found, h]
  rfl

theorem found_cases (hf : w.found target key ≠ .nothing) :
    (∃ id name v, target = .value (.object id) ∧ key = .value (.string name) ∧
        (w.object id).properties.lookup name = some (.value v)) ∨
      ∃ id x v, target = .value (.array id) ∧ key = .value (.number x) ∧
        (w.array id).cells[x.toIndex]? = some (Cell.value v) := by
  have value {c : Option Cell} (h : Result.ofValue? (c.bind Cell.value?) ≠ .nothing) :
      ∃ v, c = some (Cell.value v) := by
    cases c with
    | none => exact absurd rfl h
    | some c =>
      cases c with
      | value v => exact ⟨v, rfl⟩
      | plain j => exact absurd rfl h
  rw [found.eq_def] at hf
  split at hf
  · next id name =>
    obtain ⟨v, hv⟩ := value hf
    exact .inl ⟨id, name, v, rfl, rfl, hv⟩
  · next id x =>
    obtain ⟨v, hv⟩ := value hf
    exact .inr ⟨id, x, v, rfl, rfl, hv⟩
  · exact absurd rfl hf

theorem along_cons (w : World) (target key : Result) (path : List Result) :
    w.along target (key :: path) = w.along (w.found target key) path :=
  rfl

theorem along_nothing (w : World) (path : List Result) : w.along .nothing path = .nothing := by
  induction path with
  | nil => rfl
  | cons key path ih => exact ih

end Found

section Unfolds

variable {w w' : World} {root : Value}

/-- What a container holds after plain JSON in it has been turned into containers is there. -/
theorem Sane.unfolds_valid (hs : w.Sane) {h : Handle} (hv : h.Valid w) (hu : w.Unfolds w' h) :
    match h with
    | .object id => ∀ name v, (w'.object id).properties.lookup name = some (.value v) → v.Valid w
    | .array id => ∀ (i : Nat) v, (w'.array id).cells[i]? = some (Cell.value v) → v.Valid w
    | .memo _ => True := by
  cases h with
  | object id =>
    intro name v hl
    rcases hu.cells _ (mem_of_lookup hl) with hold | ⟨j, v', -, heq, -, hvalid⟩
    · exact (hs.objects id hv).2.1 _ hold
    · exact Cell.value.inj heq ▸ hvalid
  | array id =>
    intro i v hc
    exact forall_valid_of_forall₂ hu (hs.arrays id hv).2.1 _ (List.mem_of_getElem? hc)
  | memo n => trivial

/-- What a value holds at the end of a step was there before, and has been left in its place. -/
theorem Contains.unfolds (hs : w.Sane) (hroot : root.Valid w)
    (step : ∀ h, h.Valid w → w'.Contains root h → w.Unfolds w' h) {h : Handle}
    (hc : w'.Contains root h) : h.Valid w ∧ w.Unfolds w' h := by
  induction hc with
  | root value =>
    have hv := (Value.valid_handle? hroot value).1
    exact ⟨hv, step _ hv (.root value)⟩
  | property outer there value ih =>
    have hinner := hs.unfolds_valid ih.1 ih.2 _ _ there
    have hv := (Value.valid_handle? hinner value).1
    exact ⟨hv, step _ hv (.property outer there value)⟩
  | slot outer there value ih =>
    have hinner := hs.unfolds_valid ih.1 ih.2 _ _ there
    have hv := (Value.valid_handle? hinner value).1
    exact ⟨hv, step _ hv (.slot outer there value)⟩

variable (keeps : ∀ h, w'.Contains root h → w.Unfolds w' h)
include keeps

theorem Contains.mono {h : Handle} (hc : w.Contains root h) : w'.Contains root h := by
  induction hc with
  | root value => exact .root value
  | property outer there value ih => exact .property ih ((keeps _ ih).kept _ _ there) value
  | slot outer there value ih => exact .slot ih (value_of_resolved (keeps _ ih) there) value

theorem Spells.unfolds (he : w.Extends w') {n : Nat} {v : Value} {j : Json} (h : w.Spells v j)
    (hn : sizeOf j < n) (hv : ∀ h, v.handle? = some h → w'.Contains root h) : w'.Spells v j := by
  induction n generalizing v j with
  | zero => cases hn
  | succ n ih =>
    cases h with
    | primitive lasting simple => exact .primitive lasting simple
    | @object id members valid lasting names plain inner =>
      have hin := hv _ rfl
      have hu : Properties.Resolved w _ _ := keeps _ hin
      have nodup : ((w.object id).properties.map (·.1)).Nodup := by
        rw [← Properties.names, names]
        exact lasting.nodup
      refine .object (he.objects id valid).1 lasting (hu.names.trans names) (fun name k hk => ?_)
        fun name u k hl hk => ?_
      · rcases hu.cells _ (mem_of_lookup hk) with hold | ⟨_, _, _, heq, _⟩
        · exact plain name k (lookup_of_mem nodup hold)
        · cases heq
      · have hsize : sizeOf k < n := by
          have := List.sizeOf_lt_of_mem hk
          simp only [Json.object.sizeOf_spec, Prod.mk.sizeOf_spec] at hn this
          omega
        refine ih ?_ hsize fun h hh => .property hin hl hh
        rcases hu.cells _ (mem_of_lookup hl) with hold | ⟨k', u', hold, heq, hcopies, hvalid⟩
        · exact inner name u k (lookup_of_mem nodup hold) hk
        · obtain rfl := Cell.value.inj heq
          have hk' := lookup_of_mem lasting.nodup (plain name k' (lookup_of_mem nodup hold))
          obtain rfl := Option.some.inj (hk'.symm.trans (lookup_of_mem lasting.nodup hk))
          exact hcopies.spells hvalid (lasting.member hk)
    | @array id items valid lasting length plain inner =>
      have hin := hv _ rfl
      have hu : List.Forall₂ (Cell.Resolved w) _ _ := keeps _ hin
      refine .array (he.arrays id valid).1 lasting (hu.length_eq.symm.trans length)
        (fun i k hk => ?_) fun i u k hc hk => ?_
      · obtain ⟨c, hc, hold | ⟨_, _, _, heq, _⟩⟩ := exists_of_forall₂_getElem? hu hk
        · exact plain i k (hold ▸ hc)
        · cases heq
      · have hsize : sizeOf k < n := by
          have := List.sizeOf_lt_of_mem (List.mem_of_getElem? hk)
          simp only [Json.array.sizeOf_spec] at hn
          omega
        refine ih ?_ hsize fun h hh => .slot hin hc hh
        obtain ⟨c, hc', hold | ⟨k', u', rfl, heq, hcopies, hvalid⟩⟩ := exists_of_forall₂_getElem? hu hc
        · exact inner i u k (hold ▸ hc') hk
        · obtain rfl := Cell.value.inj heq
          obtain rfl := Option.some.inj ((plain i k' hc').symm.trans hk)
          exact hcopies.spells hvalid (lasting.item (List.mem_of_getElem? hk))

theorem found_eq {target key : Result}
    (hin : ∀ v h, target = .value v → v.handle? = some h → w'.Contains root h)
    (hf : w.found target key ≠ .nothing) : w'.found target key = w.found target key := by
  rcases found_cases hf with ⟨id, name, v, rfl, rfl, hl⟩ | ⟨id, x, v, rfl, rfl, hc⟩
  · rw [found_object hl, found_object ((keeps _ (hin _ _ rfl rfl)).kept name v hl)]
  · rw [found_array hc, found_array (value_of_resolved (keeps _ (hin _ _ rfl rfl)) hc)]

theorem along_eq {target : Result} {path : List Result}
    (hin : ∀ v h, target = .value v → v.handle? = some h → w'.Contains root h)
    (hf : w.along target path ≠ .nothing) : w'.along target path = w.along target path := by
  induction path generalizing target with
  | nil => rfl
  | cons key path ih =>
    have hne : w.found target key ≠ .nothing := fun h => hf (by rw [along_cons, h, along_nothing])
    have heq := found_eq keeps hin hne
    rw [along_cons, along_cons, heq]
    refine ih (fun u h hu hh => ?_) hf
    rw [← heq] at hu hne
    rcases found_cases hne with ⟨id, name, v, rfl, rfl, hl⟩ | ⟨id, x, v, rfl, rfl, hc⟩
    · obtain rfl := Result.value.inj ((found_object hl).symm.trans hu)
      exact .property (hin _ _ rfl rfl) hl hh
    · obtain rfl := Result.value.inj ((found_array hc).symm.trans hu)
      exact .slot (hin _ _ rfl rfl) hc hh

end Unfolds

end World

end Reactivity
