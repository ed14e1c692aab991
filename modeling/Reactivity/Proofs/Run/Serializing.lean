import Reactivity.Proofs.Run.Counting
import Mathlib.Data.Finset.Card
import Mathlib.Data.Finset.Range
import Mathlib.Data.Nat.Find
import Mathlib.Tactic.Choose

namespace Reactivity

theorem Handle.whole_injective : Function.Injective Handle.whole := by
  intro h h' heq
  cases h <;> cases h' <;> simp_all [Handle.whole]

theorem Result.containers_ofEntries (entries : List (String × Value)) :
    (Result.ofEntries entries).containers = entries.filterMap (·.2.handle?) := by
  rw [Result.ofEntries, Result.containers, List.filterMap_map]
  rfl

theorem Result.containers_values (vs : List Value) :
    (Result.list (vs.map .value)).containers = vs.filterMap Value.handle? := by
  rw [Result.containers, List.filterMap_map]
  rfl

theorem Result.ofEntries_injective : Function.Injective Result.ofEntries := by
  intro vs us h
  refine List.map_injective_iff.2 (fun p q h => ?_) (Result.list.inj h)
  simpa [Result.ofString, Prod.ext_iff] using h

theorem properties_of_shown {w : World} {id : ObjectId} {vs : List (String × Value)}
    (h : (Handle.object id).whole.shown w = some (.ofEntries vs)) :
    (w.object id).properties = vs.map fun p => (p.1, .value p.2) := by
  obtain ⟨us, hus, heq⟩ := Option.map_eq_some_iff.1 h
  exact Result.ofEntries_injective heq ▸ Properties.values?_eq_some.1 hus

theorem cells_of_shown {w : World} {id : ArrayId} {vs : List Value}
    (h : (Handle.array id).whole.shown w = some (.list (vs.map .value))) :
    (w.array id).cells = vs.map .value := by
  obtain ⟨us, hus, heq⟩ := Option.map_eq_some_iff.1 h
  have heq : us = vs := List.map_injective_iff.2 (fun _ _ => Result.value.inj) (Result.list.inj heq)
  exact heq ▸ mapM_value?_eq_some.1 hus

theorem Value.valid_handle? {w : World} {v : Value} (hv : v.Valid w) {h : Handle}
    (hh : v.handle? = some h) : h.Valid w ∧ ∀ m, h ≠ .memo m := by
  cases v with
  | object id => exact Option.some.inj hh ▸ ⟨hv, nofun⟩
  | array id => exact Option.some.inj hh ▸ ⟨hv, nofun⟩
  | _ => cases hh

namespace World

section Adds

variable {w w₁ w₂ : World} {e : Event}

theorem Adds.split (h₁ : w.Extends w₁) (h₂ : w₁.Extends w₂) (h : w.Adds w₂ e) :
    w.Adds w₁ e ∨ w₁.Adds w₂ e := by
  obtain ⟨new, hn, he⟩ := h
  obtain ⟨new₁, hn₁⟩ := h₁.history
  obtain ⟨new₂, hn₂⟩ := h₂.history
  have heq : new = new₂ ++ new₁ := by
    refine (List.append_left_inj w.history).1 ?_
    rw [← hn, ← hn₂, ← hn₁, List.append_assoc]
  rcases List.mem_append.1 (heq ▸ he) with he | he
  · exact .inr ⟨new₂, hn₂.symm, he⟩
  · exact .inl ⟨new₁, hn₁.symm, he⟩

theorem not_adds_refl (w : World) (e : Event) : ¬ w.Adds w e := by
  rintro ⟨new, hn, he⟩
  obtain rfl := List.self_eq_append_left.1 hn
  cases he

end Adds

/-- `w.Within root k h`: so many steps lead from the first container to the second, each from a
container that nothing is plain in to one that it holds. -/
inductive Within (w : World) (root : Handle) : Nat → Handle → Prop
  | root : Within w root 0 root
  | inside {k : Nat} {h h' : Handle} {r : Result} (outer : Within w root k h)
    (shown : h.whole.shown w = some r) (inner : h' ∈ r.containers) : Within w root (k + 1) h'

theorem Sane.valid_inner {w : World} (hs : w.Sane) {h h' : Handle} {r : Result} (hv : h.Valid w)
    (container : ∀ m, h ≠ .memo m) (shown : h.whole.shown w = some r) (inner : h' ∈ r.containers) :
    h'.Valid w ∧ ∀ m, h' ≠ .memo m := by
  cases h with
  | object id =>
    obtain ⟨vs, hvs, rfl⟩ := Option.map_eq_some_iff.1 shown
    rw [Result.containers_ofEntries] at inner
    obtain ⟨p, hp, hh⟩ := List.mem_filterMap.1 inner
    have hprops := (hs.objects id hv).2.1
    rw [Properties.values?_eq_some.1 hvs] at hprops
    exact Value.valid_handle? (hprops _ (List.mem_map_of_mem hp)) hh
  | array id =>
    obtain ⟨vs, hvs, rfl⟩ := Option.map_eq_some_iff.1 shown
    rw [Result.containers_values] at inner
    obtain ⟨v, hm, hh⟩ := List.mem_filterMap.1 inner
    have hcells := (hs.arrays id hv).2.1
    rw [mapM_value?_eq_some.1 hvs] at hcells
    exact Value.valid_handle? (hcells _ (List.mem_map_of_mem hm)) hh
  | memo m => exact absurd rfl (container m)

namespace Within

variable {P : Event → Prop} {w w' : World} {root h : Handle} {k d : Nat}

theorem valid (hs : w.Sane) (hv : root.Valid w ∧ ∀ m, root ≠ .memo m) (hh : w.Within root k h) :
    h.Valid w ∧ ∀ m, h ≠ .memo m := by
  induction hh with
  | root => exact hv
  | inside _ shown inner ih => exact hs.valid_inner ih.1 ih.2 shown inner

theorem mono (hr : w.Reveals P w') (hs : w.Sane) (hv : root.Valid w ∧ ∀ m, root ≠ .memo m)
    (hh : w.Within root k h) : w'.Within root k h := by
  induction hh with
  | root => exact .root
  | inside outer shown inner ih =>
    obtain ⟨hvalid, container⟩ := outer.valid hs hv
    exact .inside ih (hr.shown hvalid container shown) inner

theorem back (hr : w.Reveals P w') (hs : w.Sane) (hv : root.Valid w ∧ ∀ m, root ≠ .memo m)
    (shown : ∀ k h, k < d → w.Within root k h → ∃ r, h.whole.shown w = some r) (hk : k ≤ d)
    (hh : w'.Within root k h) : w.Within root k h := by
  induction hh with
  | root => exact .root
  | @inside k h h' r outer hshown inner ih =>
    have houter := ih (Nat.le_of_succ_le hk)
    obtain ⟨r', hr'⟩ := shown k h hk houter
    obtain ⟨hvalid, container⟩ := houter.valid hs hv
    have heq : r' = r := Option.some.inj ((hr.shown hvalid container hr').symm.trans hshown)
    exact .inside houter (heq ▸ hr') inner

theorem outermost (hh : w.Within root (k + 1) h) :
    ∃ r h', root.whole.shown w = some r ∧ h' ∈ r.containers ∧ w.Within h' k h := by
  induction k generalizing h with
  | zero =>
    cases hh with
    | inside outer shown inner =>
      cases outer
      exact ⟨_, _, shown, inner, .root⟩
  | succ k ih =>
    cases hh with
    | inside outer shown inner =>
      obtain ⟨r, h', hr, hh', hin⟩ := ih outer
      exact ⟨r, h', hr, hh', .inside hin shown inner⟩

theorem prepend {h' : Handle} {r : Result} (shown : root.whole.shown w = some r)
    (inner : h' ∈ r.containers) (hh : w.Within h' k h) : w.Within root (k + 1) h := by
  induction hh with
  | root => exact .inside .root shown inner
  | inside _ hshown hinner ih => exact .inside ih hshown hinner

end Within

/-- `w.Serialized d roots w'`: between the states, all containers have been read that fewer than
`d` steps lead to from the roots, and nothing else. -/
structure Serialized (d : Nat) (roots : List Handle) (w w' : World) : Prop where
  reveals : w.Reveals (fun e => ∀ n, e ≠ .started n) w'
  count : w'.containerCount = w.containerCount
  seen : ∀ root ∈ roots, ∀ k h, k < d → w'.Within root k h →
    (∃ r, h.whole.shown w' = some r) ∧
      ∀ n, w'.currentReader (w'.owner h) = some n → ∃ r, w.Adds w' (.saw n h.whole r)
  saw : ∀ n (h : Handle) r, w.Adds w' (.saw n h.whole r) →
    h.whole.shown w' = some r ∧ ∃ root ∈ roots, ∃ k < d, w'.Within root k h
  tracked : ∀ n h key, w.Adds w' (.tracked n h key) → ∃ r, w.Adds w' (.saw n h.whole r)
  registered : ∀ root ∈ roots, ∀ k h, k < d → w'.Within root k h → ∀ n,
    w'.currentReader (w'.owner h) = some n → ∀ key ∈ h.whole.keys w', w.Adds w' (.tracked n h key)

namespace Serialized

variable {w w₁ w₂ : World} {d : Nat}

theorem nothing (w : World) {roots : List Handle} (h : d = 0 ∨ roots = []) :
    w.Serialized d roots w where
  reveals := .refl w
  count := rfl
  seen root hm k h' hk := by
    rcases h with rfl | rfl
    · cases hk
    · cases hm
  saw n h' r ha := absurd ha (w.not_adds_refl _)
  tracked n h' key ha := absurd ha (w.not_adds_refl _)
  registered root hm k h' hk := by
    rcases h with rfl | rfl
    · cases hk
    · cases hm

theorem append {roots roots' : List Handle} (hs : w₁.Sane)
    (hv : ∀ root ∈ roots, root.Valid w₁ ∧ ∀ m, root ≠ .memo m)
    (h₁ : w.Serialized d roots w₁) (h₂ : w₁.Serialized d roots' w₂) :
    w.Serialized d (roots ++ roots') w₂ where
  reveals := h₁.reveals.trans h₂.reveals
  count := h₂.count.trans h₁.count
  seen root hm k h hk hin := by
    have hg₁ := h₁.reveals.grows
    have hg₂ := h₂.reveals.grows
    rcases List.mem_append.1 hm with hm | hm
    · have hin₁ := hin.back h₂.reveals hs (hv root hm)
        (fun k h hk hin => (h₁.seen root hm k h hk hin).1) (Nat.le_of_lt hk)
      obtain ⟨hvalid, container⟩ := hin₁.valid hs (hv root hm)
      obtain ⟨⟨r, hr⟩, hsaw⟩ := h₁.seen root hm k h hk hin₁
      refine ⟨⟨r, h₂.reveals.shown hvalid container hr⟩, fun n hn => ?_⟩
      rw [h₂.reveals.currentReader, hg₂.owner_eq hvalid] at hn
      obtain ⟨r', hr'⟩ := hsaw n hn
      exact ⟨r', hr'.mono (.refl w) hg₂⟩
    · obtain ⟨hshown, hsaw⟩ := h₂.seen root hm k h hk hin
      exact ⟨hshown, fun n hn => (hsaw n hn).imp fun _ ha => ha.mono hg₁ (.refl w₂)⟩
  saw n h r ha := by
    rcases ha.split h₁.reveals.grows h₂.reveals.grows with ha | ha
    · obtain ⟨hr, root, hm, k, hk, hin⟩ := h₁.saw n h r ha
      obtain ⟨hvalid, container⟩ := hin.valid hs (hv root hm)
      exact ⟨h₂.reveals.shown hvalid container hr, root, List.mem_append_left _ hm, k, hk,
        hin.mono h₂.reveals hs (hv root hm)⟩
    · obtain ⟨hr, root, hm, hin⟩ := h₂.saw n h r ha
      exact ⟨hr, root, List.mem_append_right _ hm, hin⟩
  tracked n h key ha := by
    rcases ha.split h₁.reveals.grows h₂.reveals.grows with ha | ha
    · exact (h₁.tracked n h key ha).imp fun _ ha => ha.mono (.refl w) h₂.reveals.grows
    · exact (h₂.tracked n h key ha).imp fun _ ha => ha.mono h₁.reveals.grows (.refl w₂)
  registered root hm k h hk hin n hn key hkey := by
    rcases List.mem_append.1 hm with hm | hm
    · have hin₁ := hin.back h₂.reveals hs (hv root hm)
        (fun k h hk hin => (h₁.seen root hm k h hk hin).1) (Nat.le_of_lt hk)
      obtain ⟨hvalid, container⟩ := hin₁.valid hs (hv root hm)
      obtain ⟨⟨r, hr⟩, -⟩ := h₁.seen root hm k h hk hin₁
      rw [h₂.reveals.currentReader, h₂.reveals.grows.owner_eq hvalid] at hn
      rw [h₂.reveals.keys hvalid container hr] at hkey
      exact (h₁.registered root hm k h hk hin₁ n hn key hkey).mono (.refl w) h₂.reveals.grows
    · exact (h₂.registered root hm k h hk hin n hn key hkey).mono h₁.reveals.grows (.refl w₂)

theorem inside {h : Handle} {r : Result} (hv : h.Valid w)
    (container : ∀ m, h ≠ .memo m) (h₁ : w.ShowsWhole h r w₁)
    (h₂ : w₁.Serialized d r.containers w₂) : w.Serialized (d + 1) [h] w₂ := by
  have hg₁ := h₁.reveals.grows
  have hg₂ := h₂.reveals.grows
  have hv₁ := hv.mono hg₁
  have hshown := h₂.reveals.shown hv₁ container h₁.shown
  have hquiet : w.Reveals (fun e => ∀ n, e ≠ .started n) w₁ := by
    refine h₁.reveals.mono fun e he m heq => ?_
    rcases he with ⟨vs, rfl⟩ | ⟨n, -, ⟨key, rfl⟩ | rfl⟩ <;> cases heq
  have hread (n : NodeId) (hn : w.currentReader (w.owner h) = some n) :
      w.Adds w₂ (.saw n h.whole r) := (h₁.saw n hn).mono (.refl w) hg₂
  refine ⟨hquiet.trans h₂.reveals, h₂.count.trans h₁.count, fun root hm k h' hk hin => ?_,
    fun n h' r' ha => ?_, fun n h' key ha => ?_, fun root hm k h' hk hin n hn key hkey => ?_⟩
  · obtain rfl := List.mem_singleton.1 hm
    cases k with
    | zero =>
      cases hin
      refine ⟨⟨r, hshown⟩, fun n hn => ⟨r, hread n ?_⟩⟩
      rwa [h₂.reveals.currentReader, h₁.reveals.currentReader, hg₂.owner_eq hv₁,
        hg₁.owner_eq hv] at hn
    | succ k =>
      obtain ⟨r', h'', hr', hinner, hin'⟩ := hin.outermost
      obtain rfl : r = r' := Option.some.inj (hshown.symm.trans hr')
      obtain ⟨hsh, hsaw⟩ := h₂.seen h'' hinner k h' (Nat.lt_of_succ_lt_succ hk) hin'
      exact ⟨hsh, fun n hn => (hsaw n hn).imp fun _ ha => ha.mono hg₁ (.refl w₂)⟩
  · rcases ha.split hg₁ hg₂ with ha | ha
    · rcases h₁.reveals.adds ha with ⟨vs, heq⟩ | ⟨m, -, ⟨key, heq⟩ | heq⟩
      · cases heq
      · cases heq
      · obtain ⟨-, hwhole, rfl⟩ := Event.saw.inj heq
        obtain rfl := Handle.whole_injective hwhole
        exact ⟨hshown, h', List.mem_singleton_self _, 0, Nat.succ_pos d, .root⟩
    · obtain ⟨hr', root, hm, k, hk, hin⟩ := h₂.saw n h' r' ha
      exact ⟨hr', h, List.mem_singleton_self _, k + 1, Nat.succ_lt_succ hk,
        .prepend hshown hm hin⟩
  · rcases ha.split hg₁ hg₂ with ha | ha
    · rcases h₁.reveals.adds ha with ⟨vs, heq⟩ | ⟨m, hm, ⟨key', heq⟩ | heq⟩
      · cases heq
      · obtain ⟨rfl, rfl, -⟩ := Event.tracked.inj heq
        exact ⟨r, hread n hm⟩
      · cases heq
    · exact (h₂.tracked n h' key ha).imp fun _ ha => ha.mono hg₁ (.refl w₂)
  · obtain rfl := List.mem_singleton.1 hm
    cases k with
    | zero =>
      cases hin
      rw [h₂.reveals.currentReader, h₁.reveals.currentReader, hg₂.owner_eq hv₁,
        hg₁.owner_eq hv] at hn
      rw [h₂.reveals.keys hv₁ container h₁.shown] at hkey
      exact (h₁.tracked n hn key hkey).mono (.refl w) hg₂
    | succ k =>
      obtain ⟨r', h'', hr', hinner, hin'⟩ := hin.outermost
      obtain rfl : r = r' := Option.some.inj (hshown.symm.trans hr')
      exact (h₂.registered h'' hinner k h' (Nat.lt_of_succ_lt_succ hk) hin' n hn key hkey).mono hg₁
        (.refl w₂)

end Serialized

end World

/-- The JSON of a value, down to the given depth, when all containers in it have been read. The
members of objects stand in the order of the properties. -/
def World.printed (w : World) : Nat → Value → Json
  | _, .null => .null
  | _, .external _ => .null
  | _, .bool b => .bool b
  | _, .number x => x.toJson
  | _, .string s => .string s
  | 0, .object _ => .null
  | 0, .array _ => .null
  | depth + 1, .object id =>
    .object ((w.object id).properties.map fun (name, cell) => (name, cell.jsonBy (w.printed depth)))
  | depth + 1, .array id => .array ((w.array id).cells.map (Cell.jsonBy (w.printed depth)))

section Printed

variable {w : World} {d : Nat}

theorem World.printed_object {id : ObjectId} {vs : List (String × Value)}
    (h : (w.object id).properties = vs.map fun p => (p.1, .value p.2)) (d : Nat) :
    w.printed (d + 1) (.object id) = .object (vs.map fun p => (p.1, w.printed d p.2)) := by
  rw [printed, h, List.map_map]
  rfl

theorem World.printed_array {id : ArrayId} {vs : List Value}
    (h : (w.array id).cells = vs.map .value) (d : Nat) :
    w.printed (d + 1) (.array id) = .array (vs.map (w.printed d)) := by
  rw [printed, h, List.map_map]
  rfl

/-- What has been read at every depth is printed the same when more is read. -/
theorem World.Reveals.printed {P : Event → Prop} {w' : World} (h : w.Reveals P w') (hs : w.Sane)
    {v : Value} (hv : v.Valid w)
    (seen : ∀ root ∈ v.handle?.toList, ∀ k h, k < d → w.Within root k h →
      ∃ r, h.whole.shown w = some r) :
    w'.printed d v = w.printed d v := by
  induction d generalizing v with
  | zero => cases v <;> rfl
  | succ d ih =>
    cases v with
    | object id =>
      obtain ⟨r, hr⟩ := seen _ (List.mem_singleton_self _) 0 _ (Nat.succ_pos d) .root
      obtain ⟨vs, hvs, rfl⟩ := Option.map_eq_some_iff.1 hr
      have hprops := Properties.values?_eq_some.1 hvs
      rw [World.printed_object ((h.objects id vs hv hvs).trans hprops), World.printed_object hprops]
      refine congrArg Json.object (List.map_congr_left fun p hp => ?_)
      have hp' : (p.1, Cell.value p.2) ∈ (w.object id).properties :=
        hprops ▸ List.mem_map_of_mem (f := fun p => (p.1, Cell.value p.2)) hp
      rw [ih ((hs.objects id hv).2.1 _ hp') fun root hroot k h' hk hin => ?_]
      refine seen _ (List.mem_singleton_self _) (k + 1) h' (Nat.succ_lt_succ hk) (.prepend hr ?_ hin)
      rw [Result.containers_ofEntries]
      exact List.mem_filterMap.2 ⟨p, hp, Option.mem_toList.1 hroot⟩
    | array id =>
      obtain ⟨r, hr⟩ := seen _ (List.mem_singleton_self _) 0 _ (Nat.succ_pos d) .root
      obtain ⟨vs, hvs, rfl⟩ := Option.map_eq_some_iff.1 hr
      have hcells := mapM_value?_eq_some.1 hvs
      rw [World.printed_array ((h.arrays id vs hv hvs).trans hcells), World.printed_array hcells]
      refine congrArg Json.array (List.map_congr_left fun v hm => ?_)
      have hm' : Cell.value v ∈ (w.array id).cells := hcells ▸ List.mem_map_of_mem hm
      rw [ih ((hs.arrays id hv).2.1 _ hm') fun root hroot k h' hk hin => ?_]
      refine seen _ (List.mem_singleton_self _) (k + 1) h' (Nat.succ_lt_succ hk) (.prepend hr ?_ hin)
      rw [Result.containers_values]
      exact List.mem_filterMap.2 ⟨v, hm, Option.mem_toList.1 hroot⟩
    | _ => rfl

end Printed

section Does

variable {R : Config → Prop} (hR : Closed R) {g : List Frame}
include hR

theorem does_serializeAll {d : Nat} {α β : Type} (f : α → Value) (mk : α → Json → β)
    (hd : ∀ {v : Value} {w : World}, v.Valid w → Does R g false g (serializeAt d v)
      (fun j w' => w.Serialized d v.handle?.toList w' ∧ j = w'.printed d v) w)
    {xs : List α} {w : World} (hv : ∀ x ∈ xs, (f x).Valid w) :
    Does R g false g (xs.mapM fun x => return mk x (← serializeAt d (f x)))
      (fun ys w' => w.Serialized d (xs.filterMap fun x => (f x).handle?) w' ∧
        ys = xs.map fun x => mk x (w'.printed d (f x))) w := by
  induction xs generalizing w with
  | nil => exact .pure ⟨.nothing w (.inr rfl), rfl⟩
  | cons x xs ih =>
    rw [List.mapM_cons]
    have head : Does R g false g (do return mk x (← serializeAt d (f x)))
        (fun y w' => w.Serialized d (f x).handle?.toList w' ∧ y = mk x (w'.printed d (f x))) w :=
      (hd (hv x (List.mem_cons_self ..))).bind fun _ _ _ _ h => .pure ⟨h.1, congrArg (mk x) h.2⟩
    refine head.bind fun y w₁ hr₁ he₁ ⟨h₁, hy⟩ => ?_
    refine (ih fun y hy => (hv y (List.mem_cons_of_mem _ hy)).mono he₁).bind
      fun ys w₂ _ _ ⟨h₂, hys⟩ => .pure ?_
    have hs := (hR.sane hr₁).world
    have hx := (hv x (List.mem_cons_self ..)).mono he₁
    have hprinted := h₂.reveals.printed hs hx fun root hm k h hk hin => (h₁.seen root hm k h hk hin).1
    refine ⟨?_, by rw [List.map_cons, hprinted, hy, hys]⟩
    have happend := h₁.append hs (fun root hm => Value.valid_handle? hx (Option.mem_toList.1 hm)) h₂
    cases hh : (f x).handle? with
    | none => simpa [hh] using happend
    | some h => simpa [hh] using happend

/-- A value is read at every depth, and what that gives is what is printed of it then. -/
theorem does_serializeAt (code : AtCode g) {d : Nat} {v : Value} {w : World} (hv : v.Valid w) :
    Does R g false g (serializeAt d v)
      (fun j w' => w.Serialized d v.handle?.toList w' ∧ j = w'.printed d v) w := by
  induction d generalizing v w with
  | zero => cases v <;> exact .pure ⟨.nothing w (.inl rfl), rfl⟩
  | succ d ih =>
    cases v with
    | object id =>
      have hread := (does_entries hR code hv).and_run
        (Q := fun entries w₁ => w.ShowsWhole (.object id) (.ofEntries entries) w₁)
        (showsWhole_entries hv)
      refine hread.bind fun entries w₁ _ he₁ ⟨⟨hvalid, _⟩, hwhole⟩ => ?_
      refine (does_serializeAll hR (fun p : String × Value => p.2) (fun p j => (p.1, j)) ih hvalid).bind
        fun ys w₂ _ _ ⟨h, hys⟩ => .pure ⟨?_, ?_⟩
      · exact .inside hv nofun hwhole (by rwa [Result.containers_ofEntries])
      · have hshown := h.reveals.shown (x := .object id) (he₁.objects id hv).1 nofun hwhole.shown
        rw [World.printed_object (properties_of_shown hshown), hys]
    | array id =>
      have hread := (does_values hR code hv).and_run
        (Q := fun vs w₁ => w.ShowsWhole (.array id) (.list (vs.map .value)) w₁)
        (showsWhole_values hv)
      refine hread.bind fun vs w₁ _ he₁ ⟨⟨hvalid, _⟩, hwhole⟩ => ?_
      have hall := does_serializeAll hR (fun v : Value => v) (fun _ j => j) ih hvalid
      simp only [bind_pure] at hall
      refine hall.bind fun ys w₂ _ _ ⟨h, hys⟩ => .pure ⟨?_, ?_⟩
      · exact .inside hv nofun hwhole (by rwa [Result.containers_values])
      · have hshown := h.reveals.shown (x := .array id) (he₁.arrays id hv).1 nofun hwhole.shown
        rw [World.printed_array (cells_of_shown hshown), hys]
    | _ => exact .pure ⟨.nothing w (.inr rfl), rfl⟩

theorem does_serialize (code : AtCode g) {v : Value} {w : World} (hv : v.Valid w) :
    Does R g false g (serialize v)
      (fun j w' => w.Serialized (w.containerCount + 1) v.handle?.toList w' ∧
        j = w'.printed (w.containerCount + 1) v) w :=
  .get_bind (does_serializeAt hR code hv)

end Does

def World.number (w : World) : Handle → Nat
  | .object id => id
  | .array id => w.objects.size + id
  | .memo _ => 0

theorem World.number_lt {w : World} {h : Handle} (hv : h.Valid w) (container : ∀ m, h ≠ .memo m) :
    w.number h < w.objects.size + w.arrays.size := by
  cases h with
  | object id => exact Nat.lt_add_right _ hv
  | array id => exact Nat.add_lt_add_left hv _
  | memo m => exact absurd rfl (container m)

theorem World.number_inj {w : World} {h h' : Handle} (hv : h.Valid w) (hv' : h'.Valid w)
    (container : ∀ m, h ≠ .memo m) (container' : ∀ m, h' ≠ .memo m)
    (heq : w.number h = w.number h') : h = h' := by
  cases h with
  | object id =>
    have hlt : id < w.objects.size := hv
    cases h' with
    | object id' => exact congrArg Handle.object heq
    | array id' =>
      have heq : id = w.objects.size + id' := heq
      exact absurd (heq ▸ hlt) (Nat.not_lt.2 (Nat.le_add_right ..))
    | memo m => exact absurd rfl (container' m)
  | array id =>
    cases h' with
    | object id' =>
      have hlt : id' < w.objects.size := hv'
      have heq : w.objects.size + id = id' := heq
      exact absurd (heq ▸ hlt) (Nat.not_lt.2 (Nat.le_add_right ..))
    | array id' => exact congrArg Handle.array (Nat.add_left_cancel heq)
    | memo m => exact absurd rfl (container' m)
  | memo m => exact absurd rfl (container m)

theorem World.le_size_of_distinct {w : World} {f : Nat → Handle} {n : Nat}
    (hv : ∀ i < n, (f i).Valid w ∧ ∀ m, f i ≠ .memo m)
    (distinct : ∀ i j, i < j → j < n → f i ≠ f j) : n ≤ w.objects.size + w.arrays.size := by
  have hcard : (Finset.range n).card ≤ (Finset.range (w.objects.size + w.arrays.size)).card := by
    refine Finset.card_le_card_of_injOn (fun i => w.number (f i)) (fun i hi => ?_)
      fun i hi j hj heq => ?_
    · obtain ⟨hvalid, container⟩ := hv i (by simpa using hi)
      simpa using World.number_lt hvalid container
    · have hi : i < n := by simpa using hi
      have hj : j < n := by simpa using hj
      have heq : f i = f j :=
        World.number_inj (hv i hi).1 (hv j hj).1 (hv i hi).2 (hv j hj).2 heq
      rcases Nat.lt_trichotomy i j with hlt | rfl | hlt
      · exact absurd heq (distinct i j hlt hj)
      · rfl
      · exact absurd heq.symm (distinct j i hlt hi)
  rwa [Finset.card_range, Finset.card_range] at hcard

namespace World.Within

variable {w : World} {root h : Handle} {k : Nat}

theorem shortest_before (hh : w.Within root k h) (shortest : ∀ j < k, ¬ w.Within root j h) {i : Nat}
    (hi : i ≤ k) : ∃ h', w.Within root i h' ∧ ∀ j < i, ¬ w.Within root j h' := by
  induction hh with
  | root =>
    obtain rfl : i = 0 := Nat.le_zero.1 hi
    exact ⟨root, .root, nofun⟩
  | @inside k h h' r outer shown inner ih =>
    rcases Nat.le_or_eq_of_le_succ hi with hi | rfl
    · exact ih (fun j hj hin => shortest (j + 1) (Nat.succ_lt_succ hj) (.inside hin shown inner)) hi
    · exact ⟨h', .inside outer shown inner, shortest⟩

/-- Whatever can be come to can be come to in fewer steps than there are containers. -/
theorem shorten (hs : w.Sane) (hv : root.Valid w ∧ ∀ m, root ≠ .memo m) (hh : w.Within root k h) :
    ∃ j < w.objects.size + w.arrays.size, w.Within root j h := by
  classical
  have hex : ∃ j, w.Within root j h := ⟨k, hh⟩
  refine ⟨Nat.find hex, ?_, Nat.find_spec hex⟩
  have hbefore (i : Nat) (hi : i ≤ Nat.find hex) :=
    (Nat.find_spec hex).shortest_before (fun j hj => Nat.find_min hex hj) hi
  have : Nonempty Handle := ⟨root⟩
  choose! f hf hmin using hbefore
  -- The containers on a shortest way are different ones.
  refine Nat.lt_of_succ_le (World.le_size_of_distinct (f := f) (fun i hi => ?_) fun i j hlt hj heq => ?_)
  · exact (hf i (Nat.lt_succ_iff.1 hi)).valid hs hv
  · have hj : j ≤ Nat.find hex := Nat.lt_succ_iff.1 hj
    have hi : i ≤ Nat.find hex := Nat.le_trans (Nat.le_of_lt hlt) hj
    exact hmin j hj i hlt (heq ▸ hf i hi)

theorem path (hh : w.Within root k h) : ∃ f : Nat → Handle,
    (∀ i ≤ k, w.Within root i (f i)) ∧ f k = h ∧
      ∀ i j, i ≤ j → j ≤ k → w.Within (f i) (j - i) (f j) := by
  induction hh with
  | root =>
    refine ⟨fun _ => root, fun i hi => ?_, rfl, fun i j _ hj => ?_⟩
    · obtain rfl : i = 0 := Nat.le_zero.1 hi
      exact .root
    · obtain rfl : j = 0 := Nat.le_zero.1 hj
      rw [Nat.zero_sub]
      exact .root
  | @inside k h h' r outer shown inner ih =>
    obtain ⟨f, hf, hk, hways⟩ := ih
    refine ⟨fun i => if i ≤ k then f i else h', fun i hi => ?_, if_neg (Nat.not_succ_le_self k),
      fun i j hij hj => ?_⟩
    · dsimp only
      split
      · next hik => exact hf i hik
      · next hik =>
        obtain rfl : i = k + 1 := by omega
        exact .inside outer shown inner
    · dsimp only
      rcases Nat.le_or_eq_of_le_succ hj with hjk | rfl
      · rw [if_pos (Nat.le_trans hij hjk), if_pos hjk]
        exact hways i j hij hjk
      · rw [if_neg (Nat.not_succ_le_self k)]
        split
        · next hik =>
          rw [Nat.succ_sub hik]
          exact .inside (hk ▸ hways i k hik (Nat.le_refl k)) shown inner
        · next hik =>
          obtain rfl : i = k + 1 := by omega
          rw [Nat.sub_self]
          exact .root

/-- A way on which no container lies within itself has fewer steps than there are containers. -/
theorem lt_of_acyclic (hs : w.Sane) (hv : root.Valid w ∧ ∀ m, root ≠ .memo m)
    (acyclic : ∀ k h, w.Within root k h → ∀ j, ¬ w.Within h (j + 1) h) (hh : w.Within root k h) :
    k < w.objects.size + w.arrays.size := by
  obtain ⟨f, hf, -, hways⟩ := hh.path
  refine Nat.lt_of_succ_le (World.le_size_of_distinct (f := f) (fun i hi => ?_) fun i j hlt hj heq => ?_)
  · exact (hf i (Nat.lt_succ_iff.1 hi)).valid hs hv
  · have hj : j ≤ k := Nat.lt_succ_iff.1 hj
    have hi : i ≤ k := Nat.le_trans (Nat.le_of_lt hlt) hj
    have hway := hways i j (Nat.le_of_lt hlt) hj
    obtain ⟨n, hn⟩ : ∃ n, j - i = n + 1 := ⟨j - i - 1, by omega⟩
    rw [← heq, hn] at hway
    exact acyclic i (f i) (hf i hi) n hway

end World.Within

section Watcher

variable {w w' : World} {n : NodeId} {s : Store}

/-- What a node that has just started has done since is what has happened. -/
theorem World.Serialized.mem_sinceStart {d : Nat} {roots : List Handle}
    (hser : w.Serialized d roots w') (hw : sinceStart n w.history = []) {e : Event} :
    e ∈ sinceStart n w'.history ↔ w.Adds w' e := by
  obtain ⟨new, hn, hnew⟩ := hser.reveals.past
  rw [hn, sinceStart_append fun hm => hnew _ hm n rfl, hw, List.append_nil]
  refine ⟨fun he => ⟨new, hn, he⟩, fun ⟨new', hn', he⟩ => ?_⟩
  exact List.append_cancel_right (hn'.symm.trans hn) ▸ he

/-- Which container a value lies in, and whether the way to it has been seen. -/
theorem World.Serialized.traced {d k : Nat} {root h : Handle}
    (hser : w.Serialized d [root] w') (hw : sinceStart n w.history = [])
    (reader : w'.currentReader s.runtime = some n) (hk : k ≤ d) (hin : w'.Within root k h) :
    Traced n (sinceStart n w'.history) root h ∨
      ∃ h', Traced n (sinceStart n w'.history) root h' ∧ w'.owner h' ≠ s.runtime := by
  induction hin with
  | root => exact .inl .root
  | @inside k h h' r outer shown inner ih =>
    rcases ih (Nat.le_of_succ_le hk) with htraced | hforeign
    · by_cases howner : w'.owner h = s.runtime
      · obtain ⟨-, hsaw⟩ := hser.seen root (List.mem_singleton_self _) k h hk outer
        obtain ⟨r', hr'⟩ := hsaw n (howner ▸ reader)
        obtain ⟨hshown, -⟩ := hser.saw n h r' hr'
        obtain rfl : r' = r := Option.some.inj (hshown.symm.trans shown)
        exact .inl (htraced.inside ((hser.mem_sinceStart hw).2 hr') inner)
      · exact .inr ⟨h, htraced, howner⟩
    · exact .inr hforeign

/-- A watcher that has just started and has read the state of its store at every depth has seen it
through. -/
theorem World.Serialized.seenThrough (hs : w'.Sane)
    (hser : w.Serialized (w.containerCount + 1) [.object s.state] w')
    (hw : sinceStart n w.history = []) (reader : w'.currentReader s.runtime = some n)
    (state : s.state < w'.objects.size) (owner : (w'.object s.state).runtime = s.runtime) :
    w'.SeenThrough n s := by
  have hroot : (Handle.object s.state).Valid w' ∧ ∀ m, Handle.object s.state ≠ .memo m :=
    ⟨state, nofun⟩
  have hmem {e : Event} := hser.mem_sinceStart (n := n) (e := e) hw
  have hshallow {k : Nat} {h : Handle} (hin : w'.Within (.object s.state) k h) :
      ∃ j < w.containerCount + 1, w'.Within (.object s.state) j h := by
    obtain ⟨j, hj, hin⟩ := hin.shorten hs hroot
    have hle := w'.size_le_containerCount
    rw [hser.count] at hle
    exact ⟨j, by omega, hin⟩
  have hread {k : Nat} {h : Handle} (hin : w'.Within (.object s.state) k h)
      (howner : w'.owner h = s.runtime) :
      ∃ r, .saw n h.whole r ∈ sinceStart n w'.history := by
    obtain ⟨j, hj, hin⟩ := hshallow hin
    obtain ⟨-, hsaw⟩ := hser.seen _ (List.mem_singleton_self _) j h hj hin
    exact (hsaw n (howner ▸ reader)).imp fun _ ha => hmem.2 ha
  refine ⟨hread .root owner, fun h r hm h' hh' howner => ?_, fun h key hm => ?_⟩
  · obtain ⟨hshown, root, hroot, k, -, hin⟩ := hser.saw n h r (hmem.1 hm)
    obtain rfl := List.mem_singleton.1 hroot
    exact hread (.inside hin hshown hh') howner
  · obtain ⟨r, hr⟩ := hser.tracked n h key (hmem.1 hm)
    obtain ⟨-, root, hroot, k, hk, hin⟩ := hser.saw n h r hr
    obtain rfl := List.mem_singleton.1 hroot
    exact ⟨⟨r, hmem.2 hr⟩, hser.traced hw reader (Nat.le_of_lt hk) hin⟩

end Watcher

end Reactivity
