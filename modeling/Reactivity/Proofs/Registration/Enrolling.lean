import Reactivity.Proofs.Registration.Covering

namespace Reactivity

theorem Number.sorted_toJson (x : Number) : x.toJson.sorted = x.toJson := by
  rw [toJson]
  split
  · rfl
  · split <;> rfl

theorem Json.sortedItems_eq_map (items : List Json) : sortedItems items = items.map sorted := by
  induction items with
  | nil => rfl
  | cons j items ih => rw [sortedItems, ih, List.map_cons]

theorem Json.sortedMembers_eq_map (members : List (String × Json)) :
    sortedMembers members = members.map fun p => (p.1, p.2.sorted) := by
  induction members with
  | nil => rfl
  | cons p members ih => rw [sortedMembers, ih, List.map_cons]

section Agreement

variable {w : World} {d : Nat}

theorem World.jsonAt_object {id : ObjectId} {vs : List (String × Value)}
    (h : (w.object id).properties = vs.map fun p => (p.1, .value p.2)) (d : Nat) :
    w.jsonAt (d + 1) (.object id) = .ofMembers (vs.map fun p => (p.1, w.jsonAt d p.2)) := by
  rw [jsonAt, h, List.map_map]
  rfl

theorem World.jsonAt_array {id : ArrayId} {vs : List Value}
    (h : (w.array id).cells = vs.map .value) (d : Nat) :
    w.jsonAt (d + 1) (.array id) = .array (vs.map (w.jsonAt d)) := by
  rw [jsonAt, h, List.map_map]
  rfl

/-- What has been read at every depth is printed as the plain JSON of it, with the members of objects in
another order. -/
theorem World.sorted_printed {v : Value}
    (shown : ∀ root ∈ v.handle?.toList, ∀ k h, k < d → w.Within root k h →
      ∃ r, h.whole.shown w = some r) :
    (w.printed d v).sorted = w.jsonAt d v := by
  induction d generalizing v with
  | zero =>
    cases v with
    | number x => exact x.sorted_toJson
    | _ => rfl
  | succ d ih =>
    cases v with
    | number x => exact x.sorted_toJson
    | object id =>
      obtain ⟨r, hr⟩ := shown _ (List.mem_singleton_self _) 0 _ (Nat.succ_pos d) .root
      obtain ⟨vs, -, rfl⟩ := Option.map_eq_some_iff.1 hr
      rw [printed_object (properties_of_shown hr), jsonAt_object (properties_of_shown hr), Json.sorted,
        Json.sortedMembers_eq_map, List.map_map]
      refine congrArg Json.ofMembers (List.map_congr_left fun p hp => Prod.ext rfl ?_)
      refine ih fun root hroot k h hk hin => ?_
      refine shown _ (List.mem_singleton_self _) (k + 1) h (Nat.succ_lt_succ hk) (.prepend hr ?_ hin)
      rw [Result.containers_ofEntries]
      exact List.mem_filterMap.2 ⟨p, hp, Option.mem_toList.1 hroot⟩
    | array id =>
      obtain ⟨r, hr⟩ := shown _ (List.mem_singleton_self _) 0 _ (Nat.succ_pos d) .root
      obtain ⟨vs, -, rfl⟩ := Option.map_eq_some_iff.1 hr
      rw [printed_array (cells_of_shown hr), jsonAt_array (cells_of_shown hr), Json.sorted,
        Json.sortedItems_eq_map, List.map_map]
      refine congrArg Json.array (List.map_congr_left fun u hu => ?_)
      refine ih fun root hroot k h hk hin => ?_
      refine shown _ (List.mem_singleton_self _) (k + 1) h (Nat.succ_lt_succ hk) (.prepend hr ?_ hin)
      rw [Result.containers_values]
      exact List.mem_filterMap.2 ⟨u, hu, Option.mem_toList.1 hroot⟩
    | _ => rfl

/-- What no container in it lies within itself is printed the same at every depth that is enough. -/
theorem World.printed_of_acyclic (hs : w.Sane) {v : Value} (valid : v.Valid w)
    (shown : ∀ root ∈ v.handle?.toList, ∀ k h, w.Within root k h → ∃ r, h.whole.shown w = some r)
    (acyclic : (TrackedRead.serialize v).Ends w) {d' : Nat} (hd : w.objects.size + w.arrays.size ≤ d)
    (hd' : w.objects.size + w.arrays.size ≤ d') : w.printed d v = w.printed d' v := by
  refine World.printed_eq v.same_refl fun root hroot k h hin => ?_
  have hlt := hin.lt_of_acyclic hs (Value.valid_handle? valid (Option.mem_toList.1 hroot))
    (acyclic root hroot)
  obtain ⟨r, hr⟩ := shown root hroot k h hin
  exact ⟨by omega, by omega, r, r, hr, hr, r.same_refl⟩

end Agreement

/-- `w.Enrols P w'`: what has been tracked between the states are parts of which `P` holds, and whoever is
registered on a part was so before or has tracked it in between. -/
structure World.Enrols (P : NodeId → Handle → Key → Prop) (w w' : World) : Prop where
  grows : w.Extends w'
  runtimes : w'.runtimes = w.runtimes
  tracked : ∀ n h key, w.Adds w' (.tracked n h key) → P n h key
  readers : ∀ n h key, (key, n) ∈ w'.readers h ↔
    (key, n) ∈ w.readers h ∨ w.Adds w' (.tracked n h key)

namespace World.Enrols

variable {P Q : NodeId → Handle → Key → Prop} {w w₁ w₂ : World}

theorem of_calm (he : w.Extends w₁) (runtimes : w₁.runtimes = w.runtimes)
    (readers : ∀ h, w₁.readers h = w.readers h)
    (calm : ∀ n h key, ¬ w.Adds w₁ (.tracked n h key)) : w.Enrols P w₁ where
  grows := he
  runtimes := runtimes
  tracked n h key ha := absurd ha (calm n h key)
  readers n h key := by
    rw [readers]
    exact (or_iff_left (calm n h key)).symm

theorem refl (w : World) : w.Enrols P w :=
  of_calm (.refl w) rfl (fun _ => rfl) fun _ _ _ => w.not_adds_refl _

theorem mono (h : w.Enrols P w₁)
    (hPQ : ∀ n x key, w.Adds w₁ (.tracked n x key) → P n x key → Q n x key) : w.Enrols Q w₁ :=
  { h with tracked := fun n x key ha => hPQ n x key ha (h.tracked n x key ha) }

theorem trans (h₁ : w.Enrols P w₁) (h₂ : w₁.Enrols P w₂) : w.Enrols P w₂ where
  grows := h₁.grows.trans h₂.grows
  runtimes := h₂.runtimes.trans h₁.runtimes
  tracked n h key ha := (ha.split h₁.grows h₂.grows).elim (h₁.tracked n h key) (h₂.tracked n h key)
  readers n h key := by
    rw [h₂.readers, h₁.readers, or_assoc]
    refine or_congr_right ⟨fun ha => ?_, fun ha => ha.split h₁.grows h₂.grows⟩
    exact ha.elim (·.mono (.refl w) h₂.grows) (·.mono h₁.grows (.refl w₂))

theorem currentReader (h : w.Enrols P w₁) (rt : RuntimeId) :
    w₁.currentReader rt = w.currentReader rt := by
  rw [World.currentReader, World.currentReader, World.runtime, World.runtime, h.runtimes]

theorem trackedIn {h : Handle} (hv : h.Valid w) {rt : RuntimeId} {key : Key}
    (hP : ∀ n, w.currentReader rt = some n → P n h key) : w.Enrols P (w.trackedIn rt h key) := by
  have hadds {e : Event} : w.Adds (w.trackedIn rt h key) e ↔
      ∃ n, w.currentReader rt = some n ∧ e = .tracked n h key := by
    constructor
    · rintro ⟨new, hn, he⟩
      rw [World.history_trackedIn] at hn
      obtain rfl := List.append_cancel_right hn
      obtain ⟨n, hn, rfl⟩ := Option.map_eq_some_iff.1 (Option.mem_toList.1 he)
      exact ⟨n, hn, rfl⟩
    · rintro ⟨n, hn, rfl⟩
      exact adds_trackedIn hn h key
  refine ⟨.trackedIn .., World.runtimes_trackedIn .., fun n x k ha => ?_, fun n x k => ?_⟩
  · obtain ⟨m, hm, heq⟩ := hadds.1 ha
    obtain ⟨rfl, rfl, rfl⟩ := Event.tracked.inj heq
    exact hP n hm
  · rw [hadds, World.trackedIn]
    cases hr : w.currentReader rt with
    | none => simp
    | some m =>
      have hv' : h.Valid (w.note (.tracked m h key)) := hv.mono (.note w _)
      dsimp only
      rw [World.trackedBy]
      split
      · next hin =>
        rw [World.readers_note] at hin ⊢
        refine (or_iff_left_of_imp ?_).symm
        rintro ⟨m', hm', heq⟩
        obtain ⟨rfl, rfl, rfl⟩ := Event.tracked.inj heq
        obtain rfl := Option.some.inj hm'
        exact List.contains_iff_mem.1 hin
      · rw [World.readers_modifySources, World.readers_modifyReaders, World.readers_note,
          World.readers_note]
        by_cases hx : x = h
        · subst hx
          simp [hv', Readers.add, eq_comm, and_comm]
        · simp [hx]

end World.Enrols

theorem World.not_adds_of_history_eq {w w' : World} (h : w'.history = w.history) (e : Event) :
    ¬ w.Adds w' e := by
  rintro ⟨new, hn, he⟩
  obtain rfl := List.self_eq_append_left.1 (h.symm.trans hn)
  cases he

section Reads

variable {P : NodeId → Handle → Key → Prop} {w : World}

theorem enrols_wrap (rt : RuntimeId) (j : Json) (w : World) : w.Enrols P ((wrap rt j).run w).2 := by
  have h := unwraps_wrap rt j w
  refine .of_calm h.reveals.grows h.reveals.runtimes (fun x => ?_) fun n x key ha => ?_
  · cases j with
    | object members => exact World.readers_pushObject (w.note _) rfl x
    | array items => exact World.readers_pushArray (w.note _) rfl x
    | _ => rfl
  · obtain ⟨vs, heq⟩ := h.reveals.adds ha
    cases heq

theorem enrols_mapCells {α β : Type} (rt : RuntimeId) (f : α → Cell) (mk : α → Value → β)
    (xs : List α) (w : World) :
    w.Enrols P ((xs.mapM fun x => return mk x (← (f x).toValue rt) : Change (List β)).run w).2 := by
  induction xs generalizing w with
  | nil => exact .refl w
  | cons x xs ih =>
    have hx : w.Enrols P (((f x).toValue rt).run w).2 := by
      cases f x with
      | value v => exact .refl w
      | plain j => exact enrols_wrap rt j w
    rw [List.mapM_cons]
    exact hx.trans (ih _)

theorem enrols_modifyObject {f : ObjectState → ObjectState} (id : ObjectId)
    (hr : ∀ o, (f o).runtime = o.runtime) (hf : ∀ o, (f o).readers = o.readers) :
    w.Enrols P (w.modifyObject id f) :=
  .of_calm (.modifyObject w id hr) rfl (w.readers_modifyObject id hf) fun _ _ _ =>
    World.not_adds_of_history_eq rfl _

theorem enrols_modifyArray {f : ArrayState → ArrayState} (id : ArrayId)
    (hr : ∀ a, (f a).runtime = a.runtime) (hf : ∀ a, (f a).readers = a.readers) :
    w.Enrols P (w.modifyArray id f) :=
  .of_calm (.modifyArray w id hr) rfl (w.readers_modifyArray id hf) fun _ _ _ =>
    World.not_adds_of_history_eq rfl _

theorem enrols_trackAll {α : Type} {h : Handle} (hv : h.Valid w) (rt : RuntimeId) (key : α → Key)
    (xs : List α) (hP : ∀ n, w.currentReader rt = some n → ∀ x ∈ xs, P n h (key x)) :
    w.Enrols P ((xs.forM fun x => track rt h (key x) : Change Unit).run w).2 := by
  induction xs generalizing w with
  | nil => exact .refl w
  | cons x xs ih =>
    have hx : w.Enrols P (w.trackedIn rt h (key x)) :=
      .trackedIn hv fun n hn => hP n hn x (List.mem_cons_self ..)
    have hxs := ih (hv.mono hx.grows) fun n hn y hy =>
      hP n (hx.currentReader rt ▸ hn) y (List.mem_cons_of_mem _ hy)
    have hrun : ((x :: xs).forM fun x => track rt h (key x) : Change Unit).run w =
        (xs.forM fun x => track rt h (key x) : Change Unit).run (w.trackedIn rt h (key x)) := by
      show (track rt h (key x) >>= fun _ => xs.forM fun x => track rt h (key x)).run w = _
      rw [Change.run_bind, run_track]
    rw [hrun]
    exact hx.trans hxs

theorem enrols_noteRead (rt : RuntimeId) (read : Read) (r : Result) (w : World) :
    w.Enrols P ((noteRead rt read r).run w).2 := by
  rw [run_noteRead]
  cases w.currentReader rt with
  | none => exact .refl w
  | some n =>
    refine .of_calm (.note w _) rfl (fun _ => World.readers_note ..) fun m x key ha => ?_
    obtain ⟨new, hn, he⟩ := ha
    obtain rfl : [_] = new := List.append_cancel_right hn
    cases List.mem_singleton.1 he

/-- Reading all of an object registers on its shape and on each of its properties. -/
theorem enrols_entries {id : ObjectId} (hid : id < w.objects.size)
    (hP : ∀ n, w.currentReader (w.object id).runtime = some n → P n (.object id) .shape ∧
      ∀ p ∈ (id.entries.run w).1, P n (.object id) (.property p.1)) :
    w.Enrols P (id.entries.run w).2 := by
  generalize hw₁ : w.trackedIn (w.object id).runtime (.object id) .shape = w₁
  generalize hrun₂ : ((w.object id).properties.mapM fun p =>
    return (p.1, ← p.2.toValue (w.object id).runtime) : Change (List (String × Value))).run w₁ = o
  obtain ⟨entries, w₂⟩ := o
  generalize hw₃ : w₂.modifyObject id (fun o =>
    { o with properties := entries.map fun p => (p.1, .value p.2) }) = w₃
  generalize hrun₄ : (entries.forM fun p =>
    track (w.object id).runtime (.object id) (.property p.1) : Change Unit).run w₃ = o₄
  obtain ⟨_, w₄⟩ := o₄
  have hrun : id.entries.run w = (entries,
      ((noteRead (w.object id).runtime (.entries id) (.ofEntries entries)).run w₄).2) := by
    rw [ObjectId.entries]
    simp only [Change.run_bind, Change.run_get, run_track, hw₁, Change.run_modify, hrun₂, hw₃,
      hrun₄]
    rfl
  rw [hrun] at hP ⊢
  have hv : Handle.Valid w (.object id) := hid
  have h₁ : w.Enrols P w₁ := hw₁ ▸ .trackedIn hv fun n hn => (hP n hn).1
  have h₂ : w₁.Enrols P w₂ := by
    have h := enrols_mapCells (P := P) (w.object id).runtime (fun p : String × Cell => p.2)
      (fun p v => (p.1, v)) (w.object id).properties w₁
    rwa [hrun₂] at h
  have h₃ : w₂.Enrols P w₃ := hw₃ ▸ enrols_modifyObject id (fun _ => rfl) fun _ => rfl
  have h₁₃ := (h₁.trans h₂).trans h₃
  have h₄ : w₃.Enrols P w₄ := by
    have h := enrols_trackAll (P := P) (hv.mono h₁₃.grows) (w.object id).runtime
      (fun p : String × Value => .property p.1) entries fun n hn =>
        (hP n (h₁₃.currentReader _ ▸ hn)).2
    rwa [hrun₄] at h
  exact (h₁₃.trans h₄).trans (enrols_noteRead ..)

/-- Reading all of an array registers on its shape and on each of its slots. -/
theorem enrols_values {id : ArrayId} (hid : id < w.arrays.size)
    (hP : ∀ n, w.currentReader (w.array id).runtime = some n → P n (.array id) .shape ∧
      ∀ i < (id.values.run w).1.length, P n (.array id) (.index i)) :
    w.Enrols P (id.values.run w).2 := by
  generalize hw₁ : w.trackedIn (w.array id).runtime (.array id) .shape = w₁
  generalize hrun₂ : ((w₁.array id).cells.mapM fun c =>
    c.toValue (w₁.array id).runtime : Change (List Value)).run w₁ = o
  obtain ⟨vs, w₂⟩ := o
  generalize hw₃ : w₂.modifyArray id (fun a => { a with cells := vs.map .value }) = w₃
  generalize hrun₄ : ((List.range vs.length).forM fun i =>
    track (w.array id).runtime (.array id) (.index i) : Change Unit).run w₃ = o₄
  obtain ⟨_, w₄⟩ := o₄
  have hrun : id.values.run w = (vs,
      ((noteRead (w.array id).runtime (.values id) (.list (vs.map .value))).run w₄).2) := by
    rw [ArrayId.values, ArrayId.contents]
    simp only [Change.run_bind, Change.run_get, run_track, hw₁, Change.run_modify, hrun₂]
    show (_, _) = (vs, _)
    have hvs : ((pure vs : Change (List Value)).run w₃) = (vs, w₃) := rfl
    simp only [hw₃, hvs, hrun₄]
  rw [hrun] at hP ⊢
  have hv : Handle.Valid w (.array id) := hid
  have h₁ : w.Enrols P w₁ := hw₁ ▸ .trackedIn hv fun n hn => (hP n hn).1
  have h₂ : w₁.Enrols P w₂ := by
    have h := enrols_mapCells (P := P) (w₁.array id).runtime (fun c : Cell => c) (fun _ v => v)
      (w₁.array id).cells w₁
    simp only [bind_pure] at h
    rwa [hrun₂] at h
  have h₃ : w₂.Enrols P w₃ := hw₃ ▸ enrols_modifyArray id (fun _ => rfl) fun _ => rfl
  have h₁₃ := (h₁.trans h₂).trans h₃
  have h₄ : w₃.Enrols P w₄ := by
    have h := enrols_trackAll (P := P) (hv.mono h₁₃.grows) (w.array id).runtime Key.index
      (List.range vs.length) fun n hn i hi =>
        (hP n (h₁₃.currentReader _ ▸ hn)).2 i (List.mem_range.1 hi)
    rwa [hrun₄] at h
  exact (h₁₃.trans h₄).trans (enrols_noteRead ..)

end Reads

/-- `w.EnrolsWhole w'`: whoever has been registered on a part of a container between the states reads in the
runtime of the container, and the container has that part. -/
abbrev World.EnrolsWhole (w w' : World) : Prop :=
  w.Enrols (fun n h key => w'.currentReader (w'.owner h) = some n ∧ key ∈ h.whole.keys w') w'

section EnrolsWhole

variable {P : Event → Prop} {w w₁ w₂ : World} {n : NodeId} {h : Handle} {key : Key}

theorem World.EnrolsWhole.trans (h₁ : w.EnrolsWhole w₁) (hr : w₁.Reveals P w₂)
    (shown : ∀ n h key, w.Adds w₁ (.tracked n h key) →
      (h.Valid w₁ ∧ ∀ m, h ≠ .memo m) ∧ ∃ r, h.whole.shown w₁ = some r)
    (h₂ : w₁.EnrolsWhole w₂) : w.EnrolsWhole w₂ := by
  refine Enrols.trans (h₁.mono fun n h key ha hP => ?_) h₂
  obtain ⟨⟨hvalid, container⟩, r, hshown⟩ := shown n h key ha
  rw [hr.currentReader, hr.grows.owner_eq hvalid, hr.keys hvalid container hshown]
  exact hP

theorem World.Serialized.shown_of_tracked {d : Nat} {roots : List Handle} (hs : w₁.Sane)
    (hv : ∀ root ∈ roots, root.Valid w₁ ∧ ∀ m, root ≠ .memo m) (hser : w.Serialized d roots w₁)
    (ha : w.Adds w₁ (.tracked n h key)) :
    (h.Valid w₁ ∧ ∀ m, h ≠ .memo m) ∧ ∃ r, h.whole.shown w₁ = some r := by
  obtain ⟨r, hsaw⟩ := hser.tracked n h key ha
  obtain ⟨hr, root, hroot, k, -, hin⟩ := hser.saw n h r hsaw
  exact ⟨hin.valid hs (hv root hroot), r, hr⟩

theorem World.ShowsWhole.eq_of_tracked {x : Handle} {r : Result} (hwhole : w.ShowsWhole x r w₁)
    (ha : w.Adds w₁ (.tracked n h key)) : h = x := by
  rcases hwhole.reveals.adds ha with ⟨vs, heq⟩ | ⟨m, -, ⟨key', heq⟩ | heq⟩
  · cases heq
  · exact (Event.tracked.inj heq).2.1
  · cases heq

theorem enrolsWhole_entries {id : ObjectId} (hid : id < w.objects.size) :
    w.EnrolsWhole (id.entries.run w).2 := by
  have hwhole := showsWhole_entries hid
  have hv : Handle.Valid w (.object id) := hid
  refine enrols_entries hid fun n hn => ?_
  have hreader : (id.entries.run w).2.currentReader ((id.entries.run w).2.owner (.object id)) =
      some n := by
    rwa [hwhole.reveals.currentReader, hwhole.reveals.grows.owner_eq hv]
  refine ⟨⟨hreader, List.mem_cons_self ..⟩, fun p hp =>
    ⟨hreader, List.mem_cons_of_mem _ (List.mem_map_of_mem ?_)⟩⟩
  rw [properties_of_shown hwhole.shown]
  exact List.mem_map_of_mem (f := (·.1)) (List.mem_map_of_mem (f := fun p => (p.1, Cell.value p.2)) hp)

theorem enrolsWhole_values {id : ArrayId} (hid : id < w.arrays.size) :
    w.EnrolsWhole (id.values.run w).2 := by
  have hwhole := showsWhole_values hid
  have hv : Handle.Valid w (.array id) := hid
  refine enrols_values hid fun n hn => ?_
  have hreader : (id.values.run w).2.currentReader ((id.values.run w).2.owner (.array id)) =
      some n := by
    rwa [hwhole.reveals.currentReader, hwhole.reveals.grows.owner_eq hv]
  refine ⟨⟨hreader, List.mem_cons_self ..⟩, fun i hi =>
    ⟨hreader, List.mem_cons_of_mem _ (List.mem_map_of_mem ?_)⟩⟩
  rw [cells_of_shown hwhole.shown, List.length_map]
  exact List.mem_range.2 hi

end EnrolsWhole

theorem Does.and {α : Type} {R : Config → Prop} {g g' : List Frame} {u : Bool} {c : Change α}
    {P Q : α → World → Prop} {w : World} (h : Does R g u g' c P w) (h' : Does R g u g' c Q w) :
    Does R g u g' c (fun a w' => P a w' ∧ Q a w') w :=
  fun hr => ⟨(h hr).1, (h hr).2.1, (h hr).2.2, (h' hr).2.2⟩

section Does

variable {R : Config → Prop} (hR : Closed R) {g : List Frame} (code : AtCode g)
include hR code

theorem does_enrolAll {d : Nat} {α β : Type} (f : α → Value) (mk : α → Json → β)
    (hd : ∀ {v : Value} {w : World}, v.Valid w → Does R g false g (serializeAt d v)
      (fun _ w' => w.EnrolsWhole w') w)
    {xs : List α} {w : World} (hv : ∀ x ∈ xs, (f x).Valid w) :
    Does R g false g (xs.mapM fun x => return mk x (← serializeAt d (f x)))
      (fun _ w' => w.EnrolsWhole w') w := by
  induction xs generalizing w with
  | nil => exact .pure (.refl w)
  | cons x xs ih =>
    rw [List.mapM_cons]
    have hx := hv x (List.mem_cons_self ..)
    have head : Does R g false g (do return mk x (← serializeAt d (f x)))
        (fun _ w' => w.Serialized d (f x).handle?.toList w' ∧ w.EnrolsWhole w') w :=
      ((does_serializeAt hR code hx).and (hd hx)).bind fun _ _ _ _ h => .pure ⟨h.1.1, h.2⟩
    refine head.bind fun y w₁ hr₁ he₁ ⟨hser₁, h₁⟩ => ?_
    have hxs : ∀ y ∈ xs, (f y).Valid w₁ := fun y hy => (hv y (List.mem_cons_of_mem _ hy)).mono he₁
    refine ((does_serializeAll hR f mk (does_serializeAt hR code) hxs).and (ih hxs)).bind
      fun ys w₂ _ _ ⟨⟨hser₂, _⟩, h₂⟩ => .pure ?_
    exact h₁.trans hser₂.reveals (fun n h key => hser₁.shown_of_tracked (hR.sane hr₁).world
      fun root hm => Value.valid_handle? (hx.mono he₁) (Option.mem_toList.1 hm)) h₂

theorem does_enrol {d : Nat} {v : Value} {w : World} (hv : v.Valid w) :
    Does R g false g (serializeAt d v) (fun _ w' => w.EnrolsWhole w') w := by
  induction d generalizing v w with
  | zero => cases v <;> exact .pure (.refl w)
  | succ d ih =>
    cases v with
    | object id =>
      have hread := ((does_entries hR code hv).and_run
        (Q := fun entries w₁ => w.ShowsWhole (.object id) (.ofEntries entries) w₁)
        (showsWhole_entries hv)).and_run (Q := fun _ w₁ => w.EnrolsWhole w₁) (enrolsWhole_entries hv)
      refine hread.bind fun entries w₁ _ he₁ ⟨⟨⟨hvalid, _⟩, hwhole⟩, h₁⟩ => ?_
      let f (p : String × Value) : Value := p.2
      let mk (p : String × Value) (j : Json) : String × Json := (p.1, j)
      have hall := (does_serializeAll hR f mk (does_serializeAt hR code) hvalid).and
        (does_enrolAll hR code f mk ih hvalid)
      refine hall.bind fun ys w₂ _ _ ⟨⟨hser, _⟩, h₂⟩ => .pure (h₁.trans hser.reveals ?_ h₂)
      intro n h key ha
      obtain rfl := hwhole.eq_of_tracked ha
      exact ⟨⟨(he₁.objects id hv).1, nofun⟩, _, hwhole.shown⟩
    | array id =>
      have hread := ((does_values hR code hv).and_run
        (Q := fun vs w₁ => w.ShowsWhole (.array id) (.list (vs.map .value)) w₁)
        (showsWhole_values hv)).and_run (Q := fun _ w₁ => w.EnrolsWhole w₁) (enrolsWhole_values hv)
      refine hread.bind fun vs w₁ _ he₁ ⟨⟨⟨hvalid, _⟩, hwhole⟩, h₁⟩ => ?_
      have hall := (does_serializeAll hR (fun v : Value => v) (fun _ j => j)
        (does_serializeAt hR code) hvalid).and (does_enrolAll hR code (fun v => v) (fun _ j => j) ih hvalid)
      simp only [bind_pure] at hall
      refine hall.bind fun ys w₂ _ _ ⟨⟨hser, _⟩, h₂⟩ => .pure (h₁.trans hser.reveals ?_ h₂)
      intro n h key ha
      obtain rfl := hwhole.eq_of_tracked ha
      exact ⟨⟨(he₁.arrays id hv).1, nofun⟩, _, hwhole.shown⟩
    | _ => exact .pure (.refl w)

end Does

/-- Serializing gives the plain JSON that the value has afterwards, with the members of objects in the order
of their properties; nothing of it is cut off, unless a container lies within itself. On each part of each
container that is come to, and on no other, whoever is current in the runtime of the container is
registered. -/
theorem serialized_as_plain_json {settings : Settings} {hook : Hook} {w : World} {g : List Frame}
    (reached : Reaches (.start settings hook) ⟨w, g, false⟩) (code : AtCode g) {v : Value}
    (valid : v.Valid w) :
    ∃ j w', (serialize v).run w = (j, w') ∧ j.sorted = w'.toJson v ∧
      ((TrackedRead.serialize v).Ends w' →
        ∀ d, w'.objects.size + w'.arrays.size ≤ d → j.sorted = w'.jsonAt d v) ∧
      (∀ n h key, w.Adds w' (.tracked n h key) ↔
        w'.currentReader (w'.owner h) = some n ∧ (TrackedRead.serialize v).Registers w' h key) ∧
      ∀ n h key, (key, n) ∈ w'.readers h ↔ (key, n) ∈ w.readers h ∨
        w'.currentReader (w'.owner h) = some n ∧ (TrackedRead.serialize v).Registers w' h key := by
  have hR := Closed.reaches (Config.start_sane settings hook)
  obtain ⟨hr', he, ⟨hser, hj⟩, henrols⟩ :=
    ((does_serialize hR code valid).and (.get_bind (does_enrol hR code valid))) reached
  generalize (serialize v).run w = o at *
  obtain ⟨j, w'⟩ := o
  dsimp only at *
  have hs : w'.Sane := (hR.sane hr').world
  have valid' : v.Valid w' := Value.Valid.mono he valid
  have shown : ∀ root ∈ v.handle?.toList, ∀ k h, w'.Within root k h →
      ∃ r, h.whole.shown w' = some r :=
    fun root hroot k h hin => hser.shown hs valid' hroot hin
  have hsorted (d : Nat) : (w'.printed d v).sorted = w'.jsonAt d v :=
    World.sorted_printed fun root hroot k h _ hin => shown root hroot k h hin
  have hregisters : ∀ n h key, w.Adds w' (.tracked n h key) ↔
      w'.currentReader (w'.owner h) = some n ∧ (TrackedRead.serialize v).Registers w' h key := by
    intro n h key
    constructor
    · intro ha
      obtain ⟨hreader, hkey⟩ := henrols.tracked n h key ha
      obtain ⟨r, hsaw⟩ := hser.tracked n h key ha
      obtain ⟨-, root, hroot, k, -, hin⟩ := hser.saw n h r hsaw
      exact ⟨hreader, root, hroot, k, hin, hkey⟩
    · rintro ⟨hreader, hreg⟩
      exact hser.registers hs valid' hreg hreader
  refine ⟨j, w', rfl, ?_, fun acyclic d hd => ?_, hregisters, fun n h key => ?_⟩
  · rw [hj, hsorted, World.toJson, hser.count]
  · have hle := w'.size_le_containerCount
    rw [hser.count] at hle
    rw [hj, World.printed_of_acyclic hs valid' shown acyclic (by omega) hd, hsorted]
  · rw [henrols.readers, hregisters]

theorem serialized_as_plain_json_nested :
    ∃ w', (serialize (.object 0)).run (World.after .standard .manual 2 nestedObject) =
        (.object [("x", .object [])], w') ∧
      (Json.object [("x", .object [])]).sorted = w'.toJson (.object 0) ∧
      ∀ n h key, (key, n) ∈ w'.readers h ↔
        (key, n) ∈ (World.after .standard .manual 2 nestedObject).readers h ∨
          w'.currentReader (w'.owner h) = some n ∧
            (TrackedRead.serialize (.object 0)).Registers w' h key := by
  have hreach := reaches_after .standard .manual 2 nestedObject
  have hsize : (World.after .standard .manual 2 nestedObject).objects.size = 2 := by cbv
  have hjson : ((serialize (.object 0)).run (World.after .standard .manual 2 nestedObject)).1 =
      .object [("x", .object [])] := by
    cbv
  have hvalid : (Value.object 0).Valid (World.after .standard .manual 2 nestedObject) :=
    Nat.lt_of_lt_of_eq Nat.two_pos hsize.symm
  obtain ⟨j, w', hrun, hsorted, -, -, hreaders⟩ := serialized_as_plain_json hreach trivial hvalid
  rw [hrun] at hjson
  obtain rfl : j = _ := hjson
  exact ⟨w', hrun, hsorted, hreaders⟩

def serializeForeign : List Expr :=
  [.assign "r" (.apply (.newRuntime .standard .manual) []),
    .assign "o" (.within (.var "r") [.apply .newObject []]),
    .effect (.log [.apply .serialize [.var "o"]])]

/-- The effect has run and has serialized the object, but is not registered on it. -/
theorem serialized_elsewhere :
    (World.after .standard .manual 3 serializeForeign).history =
        [.finished 0, .started 0, .cleared 0, .cleanedUp 0, .bound "o", .wrapped [], .bound "r"] ∧
      (World.after .standard .manual 3 serializeForeign).log = [.plain (.object [])] ∧
      .shape ∈ (Handle.object 0).whole.keys (World.after .standard .manual 3 serializeForeign) ∧
      (World.after .standard .manual 3 serializeForeign).readers (.object 0) = [] := by
  refine ⟨by cbv, by cbv, List.mem_cons_self .., by cbv⟩

end Reactivity
