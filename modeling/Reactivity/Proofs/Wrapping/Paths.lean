import Reactivity.Proofs.Wrapping.Unfolding

namespace Reactivity

def World.Opens (w w' : World) : Prop :=
  ∀ target key, w.found target key ≠ .nothing → w'.found target key = w.found target key

namespace World.Opens

variable {w w' w'' : World}

theorem refl (w : World) : w.Opens w :=
  fun _ _ _ => rfl

theorem trans (h : w.Opens w') (h' : w'.Opens w'') : w.Opens w'' := by
  intro target key hf
  have heq := h target key hf
  rw [← heq] at hf ⊢
  exact h' target key hf

theorem of_lookup
    (objects : ∀ id name v, (w.object id).properties.lookup name = some (.value v) →
      (w'.object id).properties.lookup name = some (.value v))
    (arrays : ∀ id (i : Nat) v, (w.array id).cells[i]? = some (Cell.value v) →
      (w'.array id).cells[i]? = some (Cell.value v)) : w.Opens w' := by
  intro target key hf
  rcases found_cases hf with ⟨id, name, v, rfl, rfl, hl⟩ | ⟨id, x, v, rfl, rfl, hc⟩
  · rw [found_object hl, found_object (objects id name v hl)]
  · rw [found_array hc, found_array (arrays id _ v hc)]

theorem of_same (h : w.SameContent w') : w.Opens w' :=
  of_lookup (fun id _ _ hl => by rwa [h.1 id]) fun id _ _ hc => by rwa [h.2 id]

theorem wrap (rt : RuntimeId) (j : Json) (w : World) : w.Opens ((wrap rt j).run w).2 := by
  have h := unwraps_wrap rt j w
  refine of_lookup (fun id name v hl => ?_) fun id i v hc => ?_
  · by_cases hid : id < w.objects.size
    · rwa [h.objects id hid]
    · simp [object, hid] at hl
      cases hl
  · by_cases hid : id < w.arrays.size
    · rwa [h.arrays id hid]
    · simp [array, hid] at hc
      cases hc

end World.Opens

section Peek

variable {w : World}

theorem ObjectId.run_peek_none {id : ObjectId} {name : String}
    (h : (w.object id).properties.lookup name = none) : (id.peek name).run w = (none, w) := by
  simp [peek, h]
  rfl

theorem ObjectId.run_peek_value {id : ObjectId} {name : String} {v : Value}
    (h : (w.object id).properties.lookup name = some (.value v)) :
    (id.peek name).run w = (some v, w) := by
  simp [peek, h]
  rfl

theorem ObjectId.run_peek_plain {id : ObjectId} {name : String} {j : Json}
    (h : (w.object id).properties.lookup name = some (.plain j)) :
    let o := (wrap (w.object id).runtime j).run w
    (id.peek name).run w = (some o.1, o.2.modifyObject id fun s =>
      { s with properties := s.properties.replace name (.value o.1) }) := by
  simp [peek, h]
  rfl

theorem ArrayId.run_peek_none {id : ArrayId} {i : Nat} (h : (w.array id).cells[i]? = none) :
    (id.peek i).run w = (none, w) := by
  simp [peek, h]
  rfl

theorem ArrayId.run_peek_value {id : ArrayId} {i : Nat} {v : Value}
    (h : (w.array id).cells[i]? = some (Cell.value v)) : (id.peek i).run w = (some v, w) := by
  simp [peek, h]
  rfl

theorem ArrayId.run_peek_plain {id : ArrayId} {i : Nat} {j : Json}
    (h : (w.array id).cells[i]? = some (Cell.plain j)) :
    let o := (wrap (w.array id).runtime j).run w
    (id.peek i).run w = (some o.1, o.2.modifyArray id fun a =>
      { a with cells := a.cells.set i (.value o.1) }) := by
  simp [peek, h]
  rfl

theorem World.lt_of_lookup {id : ObjectId} {name : String} {c : Cell}
    (h : (w.object id).properties.lookup name = some c) : id < w.objects.size := by
  by_contra hid
  simp [object, hid] at h
  cases h

theorem World.lt_of_getElem? {id : ArrayId} {i : Nat} {c : Cell}
    (h : (w.array id).cells[i]? = some c) : id < w.arrays.size := by
  by_contra hid
  simp [array, hid] at h
  cases h

end Peek

theorem ObjectId.found_peek (id : ObjectId) (name : String) (w : World) :
    let o := (id.peek name).run w
    w.Opens o.2 ∧ o.2.found (.value (.object id)) (.value (.string name)) = .ofValue? o.1 := by
  intro o
  cases hl : (w.object id).properties.lookup name with
  | none =>
    rw [show o = (none, w) from run_peek_none hl]
    refine ⟨.refl w, ?_⟩
    rw [World.found, hl]
    rfl
  | some c =>
    cases c with
    | value v =>
      rw [show o = (some v, w) from run_peek_value hl]
      exact ⟨.refl w, World.found_object hl⟩
    | plain j =>
      have hrun : o = _ := run_peek_plain hl
      have hopens := World.Opens.wrap (w.object id).runtime j w
      have hwrap := unwraps_wrap (w.object id).runtime j w
      have hid := World.lt_of_lookup hl
      have hid₁ := (hwrap.reveals.grows.objects id hid).1
      have hl₁ := (hwrap.objects id hid).symm ▸ hl
      rw [hrun]
      generalize (wrap (w.object id).runtime j).run w = r at hopens hid₁ hl₁
      refine ⟨hopens.trans (.of_lookup (fun id' name' u hu => ?_) fun _ _ _ h => h), ?_⟩
      · rw [World.object_modifyObject]
        split
        · next h =>
          obtain rfl := h.1
          rw [Properties.lookup_replace]
          split
          · next hname => cases hl₁.symm.trans (hname ▸ hu)
          · exact hu
        · exact hu
      · refine World.found_object ?_
        rw [World.object_modifyObject, if_pos ⟨rfl, hid₁⟩, Properties.lookup_replace, if_pos rfl,
          hl₁]
        rfl

theorem ArrayId.found_peek (id : ArrayId) {x : Number} {i : Nat} (hx : x.toIndex = i) (w : World) :
    let o := (id.peek i).run w
    w.Opens o.2 ∧ o.2.found (.value (.array id)) (.value (.number x)) = .ofValue? o.1 := by
  intro o
  cases hc : (w.array id).cells[i]? with
  | none =>
    rw [show o = (none, w) from run_peek_none hc]
    refine ⟨.refl w, ?_⟩
    rw [World.found, hx, hc]
    rfl
  | some c =>
    cases c with
    | value v =>
      rw [show o = (some v, w) from run_peek_value hc]
      exact ⟨.refl w, World.found_array (hx ▸ hc)⟩
    | plain j =>
      have hrun : o = _ := run_peek_plain hc
      have hopens := World.Opens.wrap (w.array id).runtime j w
      have hwrap := unwraps_wrap (w.array id).runtime j w
      have hid := World.lt_of_getElem? hc
      have hid₁ := (hwrap.reveals.grows.arrays id hid).1
      have hc₁ := (hwrap.arrays id hid).symm ▸ hc
      rw [hrun]
      generalize (wrap (w.array id).runtime j).run w = r at hopens hid₁ hc₁
      refine ⟨hopens.trans (.of_lookup (fun _ _ _ h => h) fun id' k u hu => ?_), ?_⟩
      · rw [World.array_modifyArray]
        split
        · next h =>
          obtain rfl := h.1
          rw [List.getElem?_set]
          split
          · next hi => cases hc₁.symm.trans (hi ▸ hu)
          · exact hu
        · exact hu
      · refine World.found_array ?_
        rw [hx, World.array_modifyArray, if_pos ⟨rfl, hid₁⟩, List.getElem?_set_self', hc₁]
        rfl

theorem World.SameContent.found_eq {w w' : World} (h : w.SameContent w') (target key : Result) :
    w'.found target key = w.found target key := by
  rw [World.found.eq_def, World.found.eq_def]
  split
  · rw [h.1]
  · rw [h.2]
  · rfl

theorem found_tracked (rt : RuntimeId) (h : Handle) (key : Key) (read : Read) {target part : Result}
    (c : Change (Option Value)) (w : World)
    (hc : ∀ w : World, w.Opens (c.run w).2 ∧
      (c.run w).2.found target part = .ofValue? (c.run w).1) :
    let o := (do
      track rt h key
      let v ← c
      noteRead rt read (.ofValue? v)
      return v : Change (Option Value)).run w
    w.Opens o.2 ∧ o.2.found target part = .ofValue? o.1 := by
  intro o
  obtain ⟨hopens, hfound⟩ := hc (w.trackedIn rt h key)
  have ho : o = ((c.run (w.trackedIn rt h key)).1,
      ((noteRead rt read (.ofValue? (c.run (w.trackedIn rt h key)).1)).run
        (c.run (w.trackedIn rt h key)).2).2) := by
    simp only [o, Change.run_bind, run_track]
    rfl
  rw [ho]
  generalize c.run (w.trackedIn rt h key) = r at hopens hfound
  have hnote := sameContent_noteRead rt read (.ofValue? r.1) r.2
  refine ⟨(World.Opens.of_same (.trackedIn ..)).trans (hopens.trans (.of_same hnote)), ?_⟩
  exact (hnote.found_eq target part).trans hfound

theorem ObjectId.found_read (id : ObjectId) (name : String) (w : World) :
    w.Opens ((id.read name).run w).2 ∧
      ((id.read name).run w).2.found (.value (.object id)) (.value (.string name)) =
        .ofValue? ((id.read name).run w).1 := by
  rw [ObjectId.read, Change.run_bind, Change.run_get]
  exact found_tracked (w.object id).runtime (.object id) (.property name) (.property id name)
    (id.peek name) w fun w => id.found_peek name w

theorem ArrayId.found_read (id : ArrayId) {x : Number} {i : Nat} (hx : x.toIndex = i) (w : World) :
    w.Opens ((id.read i).run w).2 ∧
      ((id.read i).run w).2.found (.value (.array id)) (.value (.number x)) =
        .ofValue? ((id.read i).run w).1 := by
  rw [ArrayId.read, Change.run_bind, Change.run_get]
  exact found_tracked (w.array id).runtime (.array id) (.index i) (.slot id i) (id.peek i) w
    fun w => id.found_peek hx w

theorem found_readStep (tracked : Bool) (target key : Result) (w : World) :
    w.Opens ((readStep tracked target key).run w).2 ∧
      ((readStep tracked target key).run w).2.found target key =
        ((readStep tracked target key).run w).1 := by
  unfold readStep
  split
  · next id name =>
    cases tracked with
    | true => exact id.found_read name w
    | false => exact id.found_peek name w
  · next id x =>
    generalize hx : x.toIndex = i
    cases tracked with
    | true => exact id.found_read hx w
    | false => exact id.found_peek hx w
  · refine ⟨.refl w, ?_⟩
    show w.found target key = .nothing
    rw [World.found.eq_def]
    split <;> simp_all

theorem run_readStep_nothing (tracked : Bool) (key : Result) (w : World) :
    (readStep tracked .nothing key).run w = (.nothing, w) :=
  rfl

theorem run_path_nothing (tracked : Bool) (path : List Result) (w : World) :
    (path.foldlM (readStep tracked) .nothing).run w = (.nothing, w) := by
  induction path with
  | nil => rfl
  | cons key path ih => rw [List.foldlM_cons, Change.run_bind, run_readStep_nothing, ih]

theorem along_path (tracked : Bool) (target : Result) (path : List Result) (w : World) :
    w.Opens ((path.foldlM (readStep tracked) target).run w).2 ∧
      ((path.foldlM (readStep tracked) target).run w).2.along target path =
        ((path.foldlM (readStep tracked) target).run w).1 := by
  induction path generalizing target w with
  | nil => exact ⟨.refl w, rfl⟩
  | cons key path ih =>
    obtain ⟨hopens, hfound⟩ := found_readStep tracked target key w
    rw [List.foldlM_cons, Change.run_bind]
    generalize (readStep tracked target key).run w = o at hopens hfound
    obtain ⟨r, w₁⟩ := o
    obtain ⟨hopens', halong⟩ := ih r w₁
    refine ⟨hopens.trans hopens', ?_⟩
    by_cases hr : r = .nothing
    · rw [hr, run_path_nothing, World.along_cons, hfound, hr, World.along_nothing]
    · rw [World.along_cons, hopens' target key (hfound.symm ▸ hr), hfound, halong]

def Json.part? : Json → Result → Option Json
  | .object members, .value (.string name) => members.lookup name
  | .array items, .value (.number x) => items[x.toIndex]?
  | _, _ => none

def World.Gives (w : World) (r : Result) : Option Json → Prop
  | none => r = .nothing
  | some j => ∃ v, r = .value v ∧ w.Spells v j

namespace World

variable {w w' : World}

theorem Spells.of_same {v : Value} {j : Json} (he : w.Extends w') (hs : w.SameContent w')
    (h : w.Spells v j) : w'.Spells v j :=
  h.unfolds (fun h _ => .of_same hs h) he (Nat.lt_succ_self _) fun _ => .root

theorem Gives.of_same {r : Result} {j : Option Json} (he : w.Extends w') (hs : w.SameContent w')
    (h : w.Gives r j) : w'.Gives r j := by
  cases j with
  | none => exact h
  | some j => exact h.imp fun _ h => ⟨h.1, h.2.of_same he hs⟩

end World

theorem ObjectId.gives_peek {id : ObjectId} {members : List (String × Json)} {w : World}
    (name : String) (h : w.Spells (.object id) (.object members)) :
    ((id.peek name).run w).2.Gives (.ofValue? ((id.peek name).run w).1) (members.lookup name) := by
  have lasting := h.lasting
  obtain ⟨names, plain, inner⟩ := h.object_parts
  cases hl : (w.object id).properties.lookup name with
  | none =>
    have hm : members.lookup name = none := by
      have hnot : name ∉ (w.object id).properties.names := by
        rw [Properties.mem_names, hl]
        exact Bool.false_ne_true
      rw [names] at hnot
      refine List.lookup_eq_none_iff.2 fun p hp => ?_
      have hne : name ≠ p.1 := fun heq => hnot (heq ▸ List.mem_map_of_mem hp)
      simpa using hne
    rw [run_peek_none hl, hm]
    rfl
  | some c =>
    cases c with
    | value v =>
      obtain ⟨k, hk⟩ : ∃ k, (name, k) ∈ members := by
        have hname : name ∈ members.map (·.1) := names ▸ Properties.mem_names.2 (by simp [hl])
        obtain ⟨⟨_, k⟩, hk, rfl⟩ := List.mem_map.1 hname
        exact ⟨k, hk⟩
      rw [run_peek_value hl, lookup_of_mem lasting.nodup hk]
      exact ⟨v, rfl, inner name v k hl hk⟩
    | plain k =>
      have hk := plain name k hl
      rw [run_peek_plain hl, lookup_of_mem lasting.nodup hk]
      refine ⟨_, rfl, World.spells_wrap_of_fresh (lasting.member hk) (.modifyObject _ _ fun _ => rfl)
        (fun id' hid' => ?_) fun _ _ => rfl⟩
      rw [World.object_modifyObject, if_neg]
      exact fun heq => absurd (World.lt_of_lookup hl) (Nat.not_lt.2 (heq.1 ▸ hid'))

theorem ArrayId.gives_peek {id : ArrayId} {items : List Json} {w : World} (i : Nat)
    (h : w.Spells (.array id) (.array items)) :
    ((id.peek i).run w).2.Gives (.ofValue? ((id.peek i).run w).1) items[i]? := by
  have lasting := h.lasting
  obtain ⟨length, plain, inner⟩ := h.array_parts
  cases hc : (w.array id).cells[i]? with
  | none =>
    have hi : items[i]? = none := by
      rw [List.getElem?_eq_none_iff] at hc ⊢
      rwa [← length]
    rw [run_peek_none hc, hi]
    rfl
  | some c =>
    cases c with
    | value v =>
      have hi : i < items.length := length ▸ (List.getElem?_eq_some_iff.1 hc).1
      rw [run_peek_value hc, List.getElem?_eq_getElem hi]
      exact ⟨v, rfl, inner i v _ hc (List.getElem?_eq_getElem hi)⟩
    | plain k =>
      have hk := plain i k hc
      rw [run_peek_plain hc, hk]
      refine ⟨_, rfl, World.spells_wrap_of_fresh (lasting.item (List.mem_of_getElem? hk))
        (.modifyArray _ _ fun _ => rfl) (fun _ _ => rfl) fun id' hid' => ?_⟩
      rw [World.array_modifyArray, if_neg]
      exact fun heq => absurd (World.lt_of_getElem? hc) (Nat.not_lt.2 (heq.1 ▸ hid'))

/-- A tracked read of a part of a container gives what the untracked one gives. -/
theorem gives_tracked (rt : RuntimeId) (h : Handle) (key : Key) (read : Read) {v : Value} {j : Json}
    {part : Option Json} (c : Change (Option Value)) {w : World} (hw : w.Spells v j)
    (hc : ∀ w : World, w.Spells v j → (c.run w).2.Gives (.ofValue? (c.run w).1) part) :
    let o := (do
      track rt h key
      let v ← c
      noteRead rt read (.ofValue? v)
      return v : Change (Option Value)).run w
    o.2.Gives (.ofValue? o.1) part := by
  intro o
  have hgives := hc (w.trackedIn rt h key)
    (hw.of_same (.trackedIn w rt h key) (.trackedIn w rt h key))
  have ho : o = ((c.run (w.trackedIn rt h key)).1,
      ((noteRead rt read (.ofValue? (c.run (w.trackedIn rt h key)).1)).run
        (c.run (w.trackedIn rt h key)).2).2) := by
    simp only [o, Change.run_bind, run_track]
    rfl
  rw [ho]
  refine hgives.of_same ?_ (sameContent_noteRead ..)
  rw [run_noteRead]
  cases World.currentReader _ rt with
  | none => exact .refl _
  | some n => exact .note _ _

theorem ObjectId.gives_read {id : ObjectId} {members : List (String × Json)} {w : World}
    (name : String) (h : w.Spells (.object id) (.object members)) :
    ((id.read name).run w).2.Gives (.ofValue? ((id.read name).run w).1) (members.lookup name) := by
  rw [ObjectId.read, Change.run_bind, Change.run_get]
  exact gives_tracked (w.object id).runtime (.object id) (.property name) (.property id name)
    (id.peek name) h fun _ => gives_peek name

theorem ArrayId.gives_read {id : ArrayId} {items : List Json} {w : World} (i : Nat)
    (h : w.Spells (.array id) (.array items)) :
    ((id.read i).run w).2.Gives (.ofValue? ((id.read i).run w).1) items[i]? := by
  rw [ArrayId.read, Change.run_bind, Change.run_get]
  exact gives_tracked (w.array id).runtime (.array id) (.index i) (.slot id i) (id.peek i) h
    fun _ => gives_peek i

theorem World.Spells.part?_eq_none {w : World} {v : Value} {j : Json} {key : Result}
    (h : w.Spells v j)
    (hobject : ∀ id name, .value v = Result.value (.object id) → key = .value (.string name) → False)
    (harray : ∀ id x, .value v = Result.value (.array id) → key = .value (.number x) → False) :
    j.part? key = none := by
  rw [Json.part?.eq_def]
  split
  · next name =>
    cases h with
    | primitive _ simple => cases simple
    | object => exact (hobject _ name rfl rfl).elim
  · next x =>
    cases h with
    | primitive _ simple => cases simple
    | array => exact (harray _ x rfl rfl).elim
  · rfl

theorem gives_readStep (tracked : Bool) (key : Result) {v : Value} {j : Json} {w : World}
    (h : w.Spells v j) :
    ((readStep tracked (.value v) key).run w).2.Gives ((readStep tracked (.value v) key).run w).1
      (j.part? key) := by
  unfold readStep
  split
  · next id name htarget =>
    obtain rfl := Result.value.inj htarget
    obtain ⟨members, rfl⟩ := h.exists_object
    cases tracked with
    | true => exact id.gives_read name h
    | false => exact id.gives_peek name h
  · next id x htarget =>
    obtain rfl := Result.value.inj htarget
    obtain ⟨items, rfl⟩ := h.exists_array
    show World.Gives _ _ items[x.toIndex]?
    generalize x.toIndex = i
    cases tracked with
    | true => exact id.gives_read i h
    | false => exact id.gives_peek i h
  · next hobject harray =>
    rw [h.part?_eq_none hobject harray]
    rfl

theorem gives_path (tracked : Bool) (path : List Result) {v : Value} {j : Json} {w : World}
    (h : w.Spells v j) :
    let o := (path.foldlM (readStep tracked) (.value v)).run w
    o.2.Gives o.1 (path.foldlM Json.part? j) := by
  induction path generalizing v j w with
  | nil => exact ⟨v, rfl, h⟩
  | cons key path ih =>
    have hstep := gives_readStep tracked key h
    rw [List.foldlM_cons, List.foldlM_cons, Change.run_bind]
    generalize (readStep tracked (.value v) key).run w = o at hstep
    obtain ⟨r, w₁⟩ := o
    cases hpart : j.part? key with
    | none =>
      rw [hpart] at hstep
      obtain rfl : r = .nothing := hstep
      show World.Gives _ _ none
      rw [run_path_nothing]
      rfl
    | some k =>
      rw [hpart] at hstep
      obtain ⟨u, rfl, hu⟩ := hstep
      exact ih hu

end Reactivity
