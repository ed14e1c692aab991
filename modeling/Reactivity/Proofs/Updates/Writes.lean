import Reactivity.Proofs.Run.Reading
import Reactivity.Proofs.Updates.Keeping

namespace Reactivity

abbrev SameValues (before after : List Value) : Prop :=
  List.Forall₂ (fun v v' => v.same v') before after

theorem SameValues.refl (vs : List Value) : SameValues vs vs :=
  List.forall₂_same.2 fun v _ => v.same_refl

theorem SameValues.symm {us vs : List Value} (h : SameValues us vs) : SameValues vs us := by
  induction h with
  | nil => exact .nil
  | cons huv _ ih => exact .cons (by rwa [Value.same_comm]) ih

theorem SameValues.trans {us vs ws : List Value} (h : SameValues us vs) (h' : SameValues vs ws) :
    SameValues us ws := by
  induction h generalizing ws with
  | nil => exact h'
  | cons huv _ ih =>
    cases h' with
    | cons hvw h' => exact .cons (Value.same_trans huv hvw) (ih h')

theorem SameValues.sameItems {us vs : List Value} (h : SameValues us vs) :
    Result.sameItems (us.map .value) (vs.map .value) := by
  induction h with
  | nil => rfl
  | cons huv _ ih =>
    rw [List.map_cons, List.map_cons, Result.sameItems, Bool.and_eq_true]
    exact ⟨huv, ih⟩

theorem SameValues.shown? {us vs : List Value} (h : SameValues us vs) (i : Nat) :
    ∃ r r', Cell.shown? (us.map Cell.value)[i]? = some r ∧
      Cell.shown? (vs.map Cell.value)[i]? = some r' ∧ r.same r' := by
  induction h generalizing i with
  | nil => exact ⟨.nothing, .nothing, rfl, rfl, rfl⟩
  | @cons u v us vs huv _ ih =>
    cases i with
    | zero => exact ⟨.value u, .value v, rfl, rfl, huv⟩
    | succ i => exact ih i

theorem mem_changedSlots {before after : List Value} {i : Nat} :
    i ∈ changedSlots before after ↔
      i < max before.length after.length ∧ slotChanged before after i := by
  rw [changedSlots, List.mem_filter, List.mem_range]

theorem sameValues_of_changedSlots {before after : List Value} (h : changedSlots before after = []) :
    SameValues before after := by
  have hi (i : Nat) (hm : i < max before.length after.length) : slotChanged before after i = false := by
    have hn : i ∉ changedSlots before after := by rw [h]; exact List.not_mem_nil
    rw [mem_changedSlots, not_and] at hn
    exact Bool.eq_false_iff.2 (hn hm)
  clear h
  induction before generalizing after with
  | nil =>
    cases after with
    | nil => exact .nil
    | cons w after => exact absurd (hi 0 (Nat.succ_pos _)) (by simp [slotChanged])
  | cons v before ih =>
    cases after with
    | nil => exact absurd (hi 0 (Nat.succ_pos _)) (by simp [slotChanged])
    | cons w after =>
      refine .cons (by simpa [slotChanged] using hi 0 (by simp)) (ih fun i hm => ?_)
      have hs := hi (i + 1) (by simpa using hm)
      simpa [slotChanged] using hs

theorem changedKeys_eq_nil {before after : List Value} (h : changedKeys before after = []) :
    SameValues before after := by
  refine sameValues_of_changedSlots ?_
  rw [changedKeys] at h
  exact List.map_eq_nil_iff.1 (List.append_eq_nil_iff.1 h).1

theorem sameValues_of_shape {before after : List Value} (h : .shape ∉ changedKeys before after) :
    SameValues before after := by
  refine sameValues_of_changedSlots ?_
  by_contra hne
  refine h (List.mem_append_right _ ?_)
  have hf : (changedSlots before after).isEmpty = false := by simpa using hne
  rw [hf]
  exact List.mem_singleton_self _

theorem same_shown?_of_index {before after : List Value} {i : Nat}
    (h : .index i ∉ changedKeys before after) :
    ∃ r r', Cell.shown? (before.map Cell.value)[i]? = some r ∧
      Cell.shown? (after.map Cell.value)[i]? = some r' ∧ r.same r' := by
  have hi : i ∉ changedSlots before after := fun hm =>
    h (List.mem_append_left _ (List.mem_map_of_mem hm))
  rw [List.getElem?_map, List.getElem?_map]
  rw [mem_changedSlots, not_and] at hi
  by_cases hm : i < max before.length after.length
  · have hs := hi hm
    rw [slotChanged] at hs
    split at hs
    · next v w hv hw =>
      refine ⟨.value v, .value w, by rw [hv]; rfl, by rw [hw]; rfl, ?_⟩
      rw [Result.same]
      simpa using hs
    · exact absurd rfl hs
  · have hb : before[i]? = none := List.getElem?_eq_none (by omega)
    have ha : after[i]? = none := List.getElem?_eq_none (by omega)
    exact ⟨.nothing, .nothing, by rw [hb]; rfl, by rw [ha]; rfl, rfl⟩

namespace Read.Kept

variable {w : World} {read : Read}

theorem modifyObject_of_ne {id : ObjectId} (h : read.handle ≠ .object id)
    (f : ObjectState → ObjectState) : read.Kept w (w.modifyObject id f) := by
  have ho (id' : ObjectId) (hid : id' ≠ id) : (w.modifyObject id f).object id' = w.object id' := by
    rw [World.object_modifyObject, if_neg fun hi => hid hi.1.symm]
  cases read with
  | property id' name =>
    exact of_eq rfl fun r hr => by rwa [Read.shown, ho id' fun he => h (he ▸ rfl)]
  | contains id' name =>
    exact of_eq rfl fun r hr => by rwa [Read.shown, ho id' fun he => h (he ▸ rfl)]
  | names id' => exact of_eq rfl fun r hr => by rwa [Read.shown, ho id' fun he => h (he ▸ rfl)]
  | entries id' =>
    have hid := ho id' fun he => h (he ▸ rfl)
    exact of_eq (by simp only [Read.keys, hid]) fun r hr => by rwa [Read.shown, hid]
  | size x =>
    cases x with
    | object id' => exact of_eq rfl fun r hr => by rwa [Read.shown, ho id' fun he => h (he ▸ rfl)]
    | _ => exact of_eq rfl fun r hr => hr
  | _ => exact of_eq rfl fun r hr => hr

theorem modifyArray_of_ne {id : ArrayId} (h : read.handle ≠ .array id)
    (f : ArrayState → ArrayState) : read.Kept w (w.modifyArray id f) := by
  have ha (id' : ArrayId) (hid : id' ≠ id) : (w.modifyArray id f).array id' = w.array id' := by
    rw [World.array_modifyArray, if_neg fun hi => hid hi.1.symm]
  cases read with
  | slot id' i => exact of_eq rfl fun r hr => by rwa [Read.shown, ha id' fun he => h (he ▸ rfl)]
  | values id' =>
    have hid := ha id' fun he => h (he ▸ rfl)
    exact of_eq (by simp only [Read.keys, hid]) fun r hr => by rwa [Read.shown, hid]
  | size x =>
    cases x with
    | array id' => exact of_eq rfl fun r hr => by rwa [Read.shown, ha id' fun he => h (he ▸ rfl)]
    | _ => exact of_eq rfl fun r hr => hr
  | _ => exact of_eq rfl fun r hr => hr

/-- A write of a property does not show in reads on other parts. The properties that are there
afterwards are given by `f`. -/
theorem modifyProperties {id : ObjectId} (name : String) {f : Properties → Properties}
    (hid : id < w.objects.size)
    (lookup : ∀ other, other ≠ name → (f (w.object id).properties).lookup other =
      (w.object id).properties.lookup other)
    (names : (f (w.object id).properties).names = (w.object id).properties.names ∨
      .shape ∉ read.keys w)
    (there : ((w.object id).properties.lookup name).isSome ∨ .shape ∉ read.keys w)
    (apart : .property name ∉ read.keys w) :
    read.Kept w (w.modifyObject id fun o => { o with properties := f o.properties }) := by
  by_cases hh : read.handle = .object id
  · have ho : ((w.modifyObject id fun o => { o with properties := f o.properties }).object
        id).properties = f (w.object id).properties := by
      rw [World.object_modifyObject, if_pos ⟨rfl, hid⟩]
    cases read with
    | property id' other =>
      obtain rfl : id' = id := Handle.object.inj hh
      have hne : other ≠ name := fun he => apart (he ▸ List.mem_singleton_self _)
      exact of_eq rfl fun r hr => by rwa [Read.shown, ho, lookup other hne]
    | contains id' other =>
      obtain rfl : id' = id := Handle.object.inj hh
      have hne : other ≠ name := fun he => apart (he ▸ List.mem_singleton_self _)
      exact of_eq rfl fun r hr => by rwa [Read.shown, ho, lookup other hne]
    | names id' =>
      obtain rfl : id' = id := Handle.object.inj hh
      have hn := names.resolve_right fun hs => hs (List.mem_singleton_self _)
      exact of_eq rfl fun r hr => by rwa [Read.shown, ho, hn]
    | entries id' =>
      obtain rfl : id' = id := Handle.object.inj hh
      have ht := there.resolve_right fun hs => hs (List.mem_cons_self ..)
      refine absurd (List.mem_cons_of_mem _ (List.mem_map_of_mem ?_)) apart
      exact Properties.mem_names.2 ht
    | size x =>
      obtain rfl : x = .object id := hh
      have hn := names.resolve_right fun hs => hs (List.mem_singleton_self _)
      have hl : (f (w.object id).properties).length = (w.object id).properties.length := by
        simpa only [Properties.names, List.length_map] using congrArg List.length hn
      exact of_eq rfl fun r hr => by rwa [Read.shown, ho, hl]
    | _ => cases hh
  · exact modifyObject_of_ne hh _

theorem modifySlots {id : ArrayId} (i : Nat) {f : List Cell → List Cell} (hid : id < w.arrays.size)
    (get : ∀ j, j ≠ i → (f (w.array id).cells)[j]? = (w.array id).cells[j]?)
    (length : (f (w.array id).cells).length = (w.array id).cells.length ∨ .shape ∉ read.keys w)
    (there : i < (w.array id).cells.length ∨ .shape ∉ read.keys w)
    (apart : .index i ∉ read.keys w) :
    read.Kept w (w.modifyArray id fun a => { a with cells := f a.cells }) := by
  by_cases hh : read.handle = .array id
  · have ha : ((w.modifyArray id fun a => { a with cells := f a.cells }).array id).cells =
        f (w.array id).cells := by
      rw [World.array_modifyArray, if_pos ⟨rfl, hid⟩]
    cases read with
    | slot id' j =>
      obtain rfl : id' = id := Handle.array.inj hh
      have hne : j ≠ i := fun he => apart (he ▸ List.mem_singleton_self _)
      exact of_eq rfl fun r hr => by rwa [Read.shown, ha, get j hne]
    | values id' =>
      obtain rfl : id' = id := Handle.array.inj hh
      have ht := there.resolve_right fun hs => hs (List.mem_cons_self ..)
      refine absurd (List.mem_cons_of_mem _ (List.mem_map_of_mem ?_)) apart
      exact List.mem_range.2 ht
    | size x =>
      obtain rfl : x = .array id := hh
      have hl := length.resolve_right fun hs => hs (List.mem_singleton_self _)
      exact of_eq rfl fun r hr => by rwa [Read.shown, ha, hl]
    | _ => cases hh
  · exact modifyArray_of_ne hh _

/-- A change of an array as a whole does not show in reads on other parts than those that are
triggered after it. `before` is what the array has held, up to sameness. -/
theorem modifyCells {id : ArrayId} {before current after : List Value} (hid : id < w.arrays.size)
    (content : (w.array id).cells = current.map .value) (same : SameValues before current)
    (apart : read.handle = .array id → ∀ key ∈ changedKeys before after, key ∉ read.keys w) :
    read.Kept w (w.modifyArray id fun a => { a with cells := after.map .value }) := by
  by_cases hh : read.handle = .array id
  · have ha : ((w.modifyArray id fun a => { a with cells := after.map .value }).array id).cells =
        after.map .value := by
      rw [World.array_modifyArray, if_pos ⟨rfl, hid⟩]
    have hshape (hs : .shape ∈ read.keys w) : SameValues current after :=
      same.symm.trans (sameValues_of_shape fun hm => apart hh _ hm hs)
    cases read with
    | slot id' i =>
      obtain rfl : id' = id := Handle.array.inj hh
      obtain ⟨r₁, r₂, hr₁, hr₂, hs⟩ :=
        same_shown?_of_index fun hm => apart hh _ hm (List.mem_singleton_self (Key.index i))
      obtain ⟨r₀, r₁', hr₀, hr₁', hs'⟩ := same.symm.shown? i
      obtain rfl : r₁' = r₁ := Option.some.inj (hr₁'.symm.trans hr₁)
      refine ⟨rfl, fun r hr => ⟨r₂, by rwa [Read.shown, ha], ?_⟩⟩
      rw [Read.shown, content, hr₀] at hr
      exact Option.some.inj hr ▸ Result.same_trans hs' hs
    | values id' =>
      obtain rfl : id' = id := Handle.array.inj hh
      have hca := hshape (List.mem_cons_self ..)
      refine ⟨?_, fun r hr => ⟨.list (after.map .value), ?_, ?_⟩⟩
      · simp only [Read.keys, ha, content, List.length_map, hca.length_eq]
      · rw [Read.shown, ha, mapM_value?_eq_some.2 rfl]
        rfl
      · rw [Read.shown, content, mapM_value?_eq_some.2 rfl] at hr
        exact Option.some.inj hr ▸ hca.sameItems
    | size x =>
      obtain rfl : x = .array id := hh
      have hca := hshape (List.mem_singleton_self _)
      refine of_eq rfl fun r hr => ?_
      rw [Read.shown, content, List.length_map, hca.length_eq] at hr
      rwa [Read.shown, ha, List.length_map]
    | _ => cases hh
  · exact modifyArray_of_ne hh _

end Read.Kept

section Edit

variable {w w' : World} {write : Write}

theorem Edit.spares (he : Edit w write w') (n : NodeId) : w.Spares n w' := by
  have hn := World.Spares.note (n := n) w (.wrote write)
  cases he
  · exact hn.trans (.modifyObject _ _ fun _ => rfl)
  · exact hn.trans (.modifyObject _ _ fun _ => rfl)
  · exact hn.trans (.modifyObject _ _ fun _ => rfl)
  · exact hn.trans (.modifyArray _ _ fun _ => rfl)
  · exact hn.trans (.modifyArray _ _ fun _ => rfl)

theorem Edit.nodes_eq (he : Edit w write w') : w'.nodes = w.nodes := by
  cases he <;> rfl

theorem Edit.changed_ne_nil (he : Edit w write w') : write.changed ≠ [] := by
  cases he with
  | setProperty valid value there other => simp [Write.changed, changedPart, other]
  | setSlot valid value there other => simp [Write.changed, changedPart, other]
  | _ => simp [Write.changed, changedPart]

/-- A write does not show in reads on other parts than those that are triggered after it. -/
theorem Edit.kept (he : Edit w write w') {read : Read}
    (apart : read.handle = write.handle → ∀ key ∈ write.changed, key ∉ read.keys w) :
    read.Kept w w' := by
  have hn := Read.Kept.note read w (.wrote write)
  refine hn.trans ?_
  have hkeys : read.keys (w.note (.wrote write)) = read.keys w := hn.keys
  cases he with
  | @setProperty id name v cell valid value there other =>
    by_cases hh : read.handle = .object id
    · refine .modifyProperties name (f := (·.replace name (.value v))) valid (fun o ho => ?_)
        (.inl (Properties.names_replace ..)) (.inl ?_) ?_
      · rw [Properties.lookup_replace, if_neg ho]
      · exact Option.isSome_of_eq_some there
      · rw [hkeys]
        exact apart hh _ (by simp [Write.changed, changedPart, other])
    · exact .modifyObject_of_ne hh _
  | @addProperty id name v valid value absent =>
    by_cases hh : read.handle = .object id
    · have hs : .shape ∉ read.keys (w.note (.wrote (.property id name none (some v)))) := by
        rw [hkeys]
        exact apart hh _ (by simp [Write.changed, changedPart])
      refine .modifyProperties name (f := (·.add name (.value v))) valid (fun o ho => ?_) (.inr hs)
        (.inr hs) ?_
      · exact (Properties.lookup_add _ _ _ _ absent).trans (if_neg ho)
      · rw [hkeys]
        exact apart hh _ (by simp [Write.changed, changedPart])
    · exact .modifyObject_of_ne hh _
  | @removeProperty id name v valid there =>
    by_cases hh : read.handle = .object id
    · have hs : .shape ∉ read.keys (w.note (.wrote (.property id name (some (.value v)) none))) := by
        rw [hkeys]
        exact apart hh _ (by simp [Write.changed, changedPart])
      refine .modifyProperties name (f := (·.remove name)) valid (fun o ho => ?_) (.inr hs) (.inr hs) ?_
      · rw [Properties.lookup_remove, if_neg ho]
      · rw [hkeys]
        exact apart hh _ (by simp [Write.changed, changedPart])
    · exact .modifyObject_of_ne hh _
  | @setSlot id i v cell valid value there other =>
    by_cases hh : read.handle = .array id
    · refine .modifySlots i (f := (·.set i (.value v))) valid (fun j hj => ?_)
        (.inl List.length_set) (.inl ?_) ?_
      · exact List.getElem?_set_ne (Ne.symm hj)
      · exact (List.getElem?_eq_some_iff.1 there).1
      · rw [hkeys]
        exact apart hh _ (by simp [Write.changed, changedPart, other])
    · exact .modifyArray_of_ne hh _
  | @addSlot id v valid value =>
    by_cases hh : read.handle = .array id
    · have hs : .shape ∉ read.keys
          (w.note (.wrote (.slot id (w.array id).cells.length none v))) := by
        rw [hkeys]
        exact apart hh _ (by simp [Write.changed, changedPart])
      refine .modifySlots (w := w.note _) (w.array id).cells.length (f := (· ++ [Cell.value v])) valid
        (fun j hj => ?_) (.inr hs) (.inr hs) ?_
      · rcases Nat.lt_or_gt_of_ne hj with hlt | hgt
        · exact List.getElem?_append_left hlt
        · refine (List.getElem?_eq_none ?_).trans (List.getElem?_eq_none (Nat.le_of_lt hgt)).symm
          exact (List.length_append ..).symm ▸ hgt
      · rw [hkeys]
        exact apart hh _ (by simp [Write.changed, changedPart])
    · exact .modifyArray_of_ne hh _

end Edit

end Reactivity
