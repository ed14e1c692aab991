import Mathlib
import Reactivity.Proofs.Arrays.Sorting
import Reactivity.Proofs.Run.Counting
import Reactivity.Proofs.Run.Soundness
import Reactivity.Proofs.Updates.Writes
import Reactivity.Proofs.Wrapping.Unfolding

namespace Reactivity

/-- An operation that changes an array. A comparison is given with the order that it answers by, and
a test with its answers. -/
inductive ArrayOp
  | set (i : Nat) (v : Value)
  | push (v : Value)
  | pop
  | insert (i : Nat) (v : Value)
  | remove (i : Nat)
  | truncate (n : Nat)
  | clear
  | swap (i j : Nat)
  | reverse
  | sort (less : Value → Value → Act Bool) (order : Value → Value → Bool)
  | retain (keep : Value → Act Bool) (answers : List Bool)
  | extend (vs : List Value)

/-- The test gives the answers, if it is asked about one value after the other. -/
inductive Asked (keep : Value → Act Bool) : List Value → List Bool → World → World → Prop
  | nil {w : World} : Asked keep [] [] w w
  | cons {v : Value} {vs : List Value} {b : Bool} {bs : List Bool} {w w₁ w₂ : World}
    (answer : (keep v).run.run w = (.ok b, w₁)) (rest : Asked keep vs bs w₁ w₂) :
    Asked keep (v :: vs) (b :: bs) w w₂

def chosen (vs : List Value) (answers : List Bool) : List Value :=
  ((vs.zip answers).filter (·.2)).map (·.1)

/-- Nothing of the array has been triggered between the states. -/
structure World.Untriggered (id : ArrayId) (w w' : World) : Prop where
  grows : w.Extends w'
  past : ∃ new, w'.history = new ++ w.history ∧ ∀ key, .triggered (.array id) key ∉ new

/-- The values of all slots of an array. Plain JSON counts as the container that it is turned into
when it is read. -/
def World.content (w : World) (id : ArrayId) : List Value :=
  (id.contents.run w).1

def SameSlot (before after : List Value) (i : Nat) : Prop :=
  Option.Rel (fun v v' => v.same v') before[i]? after[i]?

namespace ArrayOp

def act (k : Kernel) (id : ArrayId) : ArrayOp → Act Result
  | .set i v => return .ofUnit (← id.set k i v)
  | .push v => return .ofUnit (.ok (← id.push k v))
  | .pop => return .ofValue? (← id.pop k)
  | .insert i v => return .ofUnit (← id.insert k i v)
  | .remove i => return .ofValue? (← id.remove k i)
  | .truncate n => return .ofUnit (.ok (← id.truncate k n))
  | .clear => return .ofUnit (.ok (← id.clear k))
  | .swap i j => return .ofUnit (← id.swap k i j)
  | .reverse => return .ofUnit (.ok (← id.reverse k))
  | .sort less _ => return .ofUnit (.ok (← id.sort k less))
  | .retain keep _ => return .ofUnit (.ok (← id.retain k keep))
  | .extend vs => return .ofUnit (.ok (← id.extend k vs))

def apply : ArrayOp → List Value → List Value × Result
  | .set i v, vs =>
    if i < vs.length then (vs.set i v, .nothing)
    else if i = vs.length then (vs ++ [v], .nothing)
    else (vs, .error (.indexOutOfBounds i vs.length))
  | .push v, vs => (vs ++ [v], .nothing)
  | .pop, vs => (vs.dropLast, .ofValue? vs.getLast?)
  | .insert i v, vs =>
    if i ≤ vs.length then (vs.insertIdx i v, .nothing)
    else (vs, .error (.indexOutOfBounds i vs.length))
  | .remove i, vs => (vs.eraseIdx i, .ofValue? vs[i]?)
  | .truncate n, vs => (vs.take n, .nothing)
  | .clear, _ => ([], .nothing)
  | .swap i j, vs =>
    match [i, j].find? (vs.length ≤ ·) with
    | some outside => (vs, .error (.indexOutOfBounds outside vs.length))
    | none => ((vs.set i (vs.getD j .null)).set j (vs.getD i .null), .nothing)
  | .reverse, vs => (vs.reverse, .nothing)
  | .sort _ order, vs => (vs.mergeSort (notAfter order), .nothing)
  | .retain _ answers, vs => (chosen vs answers, .nothing)
  | .extend us, vs => (vs ++ us, .nothing)

def values : ArrayOp → List Value
  | .set _ v | .push v | .insert _ v => [v]
  | .extend vs => vs
  | _ => []

/-- The operation writes one slot in its place. The others change the array as a whole. -/
def isSet : ArrayOp → Bool
  | .set .. => true
  | _ => false

/-- The callback of the operation answers as it says, from the state on, about the given values, and
triggers nothing of the array. The comparison is consistent. -/
def Answered (id : ArrayId) (w : World) (vs : List Value) : ArrayOp → Prop
  | .sort less order => Consistent order ∧ ∃ I : World → Prop, I w ∧
      (∀ w', I w' → w.Untriggered id w') ∧
        ∀ x ∈ vs, ∀ y ∈ vs, Returns I (less x y) (order x y)
  | .retain keep answers => ∃ w', Asked keep vs answers w w' ∧ w.Untriggered id w'
  | _ => True

/-- `op.Exact id w w' keys`: in the second state, what the operation makes of the content of the array
in the first is stored; nothing has been triggered yet; and the keys are those of what has changed. -/
structure Exact (op : ArrayOp) (id : ArrayId) (w w' : World) (keys : List Key) : Prop where
  quiet : w.Untriggered id w'
  length : (w'.array id).cells.length = (op.apply (w.content id)).1.length
  /-- A slot holds its value, or it still holds the same plain JSON, which stands for its value. -/
  cells : ∀ (i : Nat) (c : Cell) (v : Value), (w'.array id).cells[i]? = some c →
    (op.apply (w.content id)).1[i]? = some v → (∃ u, c = .value u ∧ u.same v) ∨
      (w.array id).cells[i]? = some c ∧ (w.content id)[i]? = some v
  index : ∀ i, .index i ∈ keys ↔ ¬ SameSlot (w.content id) (op.apply (w.content id)).1 i
  shape : .shape ∈ keys ↔ (w.content id).length ≠ (op.apply (w.content id)).1.length ∨
    op.isSet = false ∧ ∃ i, .index i ∈ keys
  only : ∀ key ∈ keys, key = .shape ∨ ∃ i, key = .index i
  once : keys.Nodup
  failed : ∀ e, (op.apply (w.content id)).2 = .error e →
    keys = [] ∧ (op.apply (w.content id)).1 = w.content id

end ArrayOp

theorem SameSlot.refl (vs : List Value) (i : Nat) : SameSlot vs vs i := by
  rw [SameSlot]
  cases vs[i]? with
  | none => exact .none
  | some v => exact .some v.same_refl

theorem mem_changedSlots_iff {before after : List Value} {i : Nat} :
    i ∈ changedSlots before after ↔ ¬ SameSlot before after i := by
  rw [mem_changedSlots, slotChanged, SameSlot]
  cases hb : before[i]? with
  | none =>
    have hi := List.getElem?_eq_none_iff.1 hb
    cases ha : after[i]? with
    | none =>
      have hi' := List.getElem?_eq_none_iff.1 ha
      exact iff_of_false (fun h => by omega) (not_not_intro .none)
    | some v =>
      have hi' := (List.getElem?_eq_some_iff.1 ha).1
      refine iff_of_true ⟨by omega, rfl⟩ ?_
      intro h
      cases h
  | some u =>
    have hi := (List.getElem?_eq_some_iff.1 hb).1
    cases ha : after[i]? with
    | none =>
      refine iff_of_true ⟨by omega, rfl⟩ ?_
      intro h
      cases h
    | some v => simp [hi]

theorem index_mem_changedKeys {before after : List Value} {i : Nat} :
    .index i ∈ changedKeys before after ↔ ¬ SameSlot before after i := by
  rw [← mem_changedSlots_iff, changedKeys, List.mem_append]
  simp

theorem shape_mem_changedKeys {before after : List Value} :
    .shape ∈ changedKeys before after ↔ ∃ i, .index i ∈ changedKeys before after := by
  simp only [index_mem_changedKeys, ← mem_changedSlots_iff]
  simp [changedKeys, List.eq_nil_iff_forall_not_mem]

theorem exists_index_of_length_ne {before after : List Value} (h : before.length ≠ after.length) :
    ∃ i, .index i ∈ changedKeys before after := by
  by_contra hn
  push Not at hn
  refine h (sameValues_of_changedSlots ?_).length_eq
  refine List.eq_nil_iff_forall_not_mem.2 fun i hi => hn i ?_
  exact List.mem_append_left _ (List.mem_map_of_mem hi)

theorem nodup_changedKeys (before after : List Value) : (changedKeys before after).Nodup := by
  have hslots : (changedSlots before after).Nodup := List.nodup_range.filter _
  refine List.nodup_append.2 ⟨hslots.map fun _ _ => Key.index.inj, ?_, ?_⟩
  · split <;> simp
  · intro key hkey key' hkey'
    obtain ⟨i, -, rfl⟩ := List.mem_map.1 hkey
    split at hkey'
    · exact nomatch hkey'
    · exact List.mem_singleton.1 hkey' ▸ nofun

theorem mem_changedKeys_cases {before after : List Value} {key : Key}
    (h : key ∈ changedKeys before after) : key = .shape ∨ ∃ i, key = .index i := by
  rcases List.mem_append.1 h with h | h
  · obtain ⟨i, -, rfl⟩ := List.mem_map.1 h
    exact .inr ⟨i, rfl⟩
  · split at h
    · exact nomatch h
    · exact .inl (List.mem_singleton.1 h)

theorem changedKeys_self (vs : List Value) : changedKeys vs vs = [] := by
  have hnone : changedSlots vs vs = [] :=
    List.eq_nil_iff_forall_not_mem.2 fun i hi => mem_changedSlots_iff.1 hi (.refl vs i)
  simp [changedKeys, hnone]

namespace World.Untriggered

variable {id : ArrayId} {w w' w'' : World}

theorem refl (w : World) : w.Untriggered id w :=
  ⟨.refl w, [], rfl, fun _ => List.not_mem_nil⟩

theorem trans (h : w.Untriggered id w') (h' : w'.Untriggered id w'') : w.Untriggered id w'' := by
  obtain ⟨new, hn, ht⟩ := h.past
  obtain ⟨new', hn', ht'⟩ := h'.past
  refine ⟨h.grows.trans h'.grows, new' ++ new, by rw [hn', hn, List.append_assoc], fun key hm => ?_⟩
  exact (List.mem_append.1 hm).elim (ht' key) (ht key)

theorem note (w : World) {e : Event} (h : ∀ key, e ≠ .triggered (.array id) key) :
    w.Untriggered id (w.note e) :=
  ⟨.note w e, [e], rfl, fun key hm => h key (List.mem_singleton.1 hm).symm⟩

theorem modifyArray (w : World) {f : ArrayState → ArrayState}
    (hf : ∀ a, (f a).runtime = a.runtime) : w.Untriggered id (w.modifyArray id f) :=
  ⟨.modifyArray w id hf, [], rfl, fun _ => List.not_mem_nil⟩

theorem of_reveals (h : w.Reveals Event.IsWrapped w') : w.Untriggered id w' := by
  obtain ⟨new, hn, hp⟩ := h.past
  refine ⟨h.grows, new, hn, fun key hm => ?_⟩
  obtain ⟨vs, hvs⟩ := hp _ hm
  cases hvs

end World.Untriggered

/-- The array holds the values, after its change as a whole has been computed. -/
def World.stored (w : World) (id : ArrayId) (before after : List Value) : World :=
  ((w.note (.changeEnded id)).note (.wrote (.items id before after))).modifyArray id fun a =>
    { a with cells := after.map .value }

theorem World.untriggered_stored (w : World) (id : ArrayId) (before after : List Value) :
    w.Untriggered id (w.stored id before after) :=
  ((Untriggered.note w (by simp)).trans (.note _ (by simp))).trans (.modifyArray _ fun _ => rfl)

section Content

variable {w : World} {id : ArrayId}

/-- The value of a cell is what it holds, or a container that has not been there before. -/
def Cell.StandsFor (w : World) (c : Cell) (v : Value) : Prop :=
  c = .value v ∨ (∃ j, c = .plain j) ∧ v.isReactive ∧ ¬ v.Valid w

theorem standsFor_toValue {rt : RuntimeId} {w₀ w : World} {c : Cell} (hc : c.Valid w₀)
    (he : w₀.Extends w) : c.StandsFor w₀ ((c.toValue rt).run w).1 := by
  cases c with
  | value v => exact .inl rfl
  | plain j =>
    refine .inr ⟨⟨j, rfl⟩, ?_⟩
    cases j with
    | object members => exact ⟨rfl, fun hv => Nat.lt_irrefl _ (he.objects _ hv).1⟩
    | array items => exact ⟨rfl, fun hv => Nat.lt_irrefl _ (he.arrays _ hv).1⟩
    | _ => cases hc

theorem standsFor_mapM {rt : RuntimeId} {w₀ : World} {cells : List Cell}
    (hc : ∀ c ∈ cells, c.Valid w₀) {w : World} (he : w₀.Extends w) :
    List.Forall₂ (Cell.StandsFor w₀) cells
      ((cells.mapM (·.toValue rt) : Change (List Value)).run w).1 := by
  induction cells generalizing w with
  | nil => exact .nil
  | cons c cells ih =>
    have hw := unwraps_toValue rt c w
    rw [List.mapM_cons]
    exact .cons (standsFor_toValue (hc c (List.mem_cons_self ..)) he)
      (ih (fun c hm => hc c (List.mem_cons_of_mem _ hm)) (he.trans hw.reveals.grows))

theorem forall₂_content (hc : ∀ c ∈ (w.array id).cells, c.Valid w) :
    List.Forall₂ (Cell.StandsFor w) (w.array id).cells (w.content id) := by
  have hrun : w.content id = (((w.array id).cells.mapM fun c =>
      c.toValue (w.array id).runtime : Change (List Value)).run w).1 := by
    rw [World.content, ArrayId.contents, Change.run_bind, Change.run_get, Change.run_bind]
    rfl
  rw [hrun]
  exact standsFor_mapM hc (.refl w)

theorem reveals_contents (hid : id < w.arrays.size) :
    w.Reveals Event.IsWrapped (id.contents.run w).2 := by
  obtain ⟨us, hus, hresolved, hunwraps⟩ := run_mapCells (w.array id).runtime
    (fun c : Cell => c) (fun _ v => v) (w.array id).cells w
  simp only [bind_pure] at hus hunwraps
  have hvs := hus.trans (zipWith_right hresolved.length_eq)
  rw [← hvs] at hresolved
  exact (unwraps_contents hid hresolved hunwraps).1

end Content

def World.opened (w : World) (id : ArrayId) : World :=
  (id.contents.run w).2.note (.changeBegan id)

theorem World.untriggered_opened {w : World} {id : ArrayId} (hid : id < w.arrays.size) :
    w.Untriggered id (w.opened id) :=
  (Untriggered.of_reveals (reveals_contents hid)).trans (.note _ (by simp))

theorem forM_changedKeys {α : Type} (k : Kernel) (rt : RuntimeId) (h : Handle)
    (before after : List Value) (outcome : α) :
    (do
      let changed := changedSlots before after
      changed.forM fun i => trigger k rt h (.index i)
      if !changed.isEmpty then trigger k rt h .shape
      return outcome : Act α) =
      (do
        (changedKeys before after).forM (trigger k rt h)
        return outcome) := by
  rw [changedKeys]
  by_cases h : changedSlots before after = [] <;> simp [h]

section Change

variable {α : Type} {k : Kernel} {id : ArrayId} {w w₂ : World}

theorem ArrayId.run_changeBy {f : List Value → Act (List Value × α)} {after : List Value}
    {outcome : α}
    (hf : (f (w.content id)).run.run (w.opened id) = (.ok (after, outcome), w₂)) :
    (id.changeBy k f).run.run w =
      (do
        (changedKeys (w.content id) after).forM (trigger k (w.array id).runtime (.array id))
        return outcome : Act α).run.run (w₂.stored id (w.content id) after) := by
  rw [← forM_changedKeys, changeBy, Act.run_get_bind, Act.run_lift_bind, Act.run_lift_bind,
    Act.run_bind, Act.run_ensuring, Change.run_note]
  rw [World.content, World.opened] at hf
  rw [hf, World.stored, World.content]
  dsimp only
  rw [Act.run_lift_bind, Change.run_note, Change.run_note, Act.run_modify_bind]

theorem Act.run_return_of_run {β : Type} {act : Act α} {act' : Act Unit} {a : α} {w w₁ : World}
    (h : act.run.run w = (do act'; return a : Act α).run.run w₁) (g : α → β) :
    (do return g (← act) : Act β).run.run w = (do act'; return g a : Act β).run.run w₁ := by
  rw [Act.run_bind, h, Act.run_bind, Act.run_bind]
  generalize act'.run.run w₁ = o
  rcases o with ⟨_ | _, w'⟩ <;> rfl

namespace ArrayOp

variable {op : ArrayOp}

theorem apply_failed {vs : List Value} {e : StateError} (h : (op.apply vs).2 = .error e) :
    (op.apply vs).1 = vs := by
  have hvalue (v : Option Value) : Result.ofValue? v ≠ .error e := by cases v <;> simp [Result.ofValue?]
  cases op with
  | set i v =>
    rw [apply] at h ⊢
    split at h
    · cases h
    · split at h
      · cases h
      · next h₁ h₂ => rw [if_neg h₁, if_neg h₂]
  | insert i v =>
    rw [apply] at h ⊢
    split at h
    · cases h
    · next h₁ => rw [if_neg h₁]
  | swap i j =>
    rw [apply] at h ⊢
    cases hf : [i, j].find? (vs.length ≤ ·) with
    | none =>
      rw [hf] at h
      cases h
    | some n => rfl
  | pop => exact absurd h (hvalue _)
  | remove i => exact absurd h (hvalue _)
  | _ => cases h

theorem exact_stored (hid : id < w.arrays.size) (hset : op.isSet = false)
    (quiet : (w.opened id).Untriggered id w₂) :
    op.Exact id w (w₂.stored id (w.content id) (op.apply (w.content id)).1)
      (changedKeys (w.content id) (op.apply (w.content id)).1) := by
  have hquiet := (World.untriggered_opened hid).trans quiet
  have hcells : ((w₂.stored id (w.content id) (op.apply (w.content id)).1).array id).cells =
      (op.apply (w.content id)).1.map .value := World.cells_modifyArray (hquiet.grows.arrays id hid).1
  refine ⟨hquiet.trans (w₂.untriggered_stored ..), ?_, fun i c v hc hv => .inl ⟨v, ?_, v.same_refl⟩,
    fun i => index_mem_changedKeys, ?_, fun key => mem_changedKeys_cases, nodup_changedKeys _ _,
    fun e he => ?_⟩
  · rw [hcells, List.length_map]
  · rw [hcells, List.getElem?_map, hv] at hc
    exact (Option.some.inj hc).symm
  · rw [shape_mem_changedKeys]
    refine ⟨fun h => .inr ⟨hset, h⟩, fun h => ?_⟩
    exact h.elim exists_index_of_length_ne fun h => h.2
  · rw [apply_failed he]
    exact ⟨changedKeys_self _, rfl⟩

/-- An operation that changes the array as a whole, given what its change is computed to. -/
theorem exists_exact_of_change {f : List Value → Act (List Value × α)} {g : α → Result}
    {o : α} (hid : id < w.arrays.size) (hset : op.isSet = false)
    (hact : op.act k id = do return g (← id.changeBy k f))
    (hf : (f (w.content id)).run.run (w.opened id) =
      (.ok ((op.apply (w.content id)).1, o), w₂))
    (hg : g o = (op.apply (w.content id)).2) (quiet : (w.opened id).Untriggered id w₂) :
    ∃ w₁ keys, (op.act k id).run.run w =
        (do
          keys.forM (trigger k (w.array id).runtime (.array id))
          return (op.apply (w.content id)).2 : Act Result).run.run w₁ ∧
      op.Exact id w w₁ keys := by
  refine ⟨_, _, ?_, exact_stored hid hset quiet⟩
  rw [hact, ← hg]
  exact Act.run_return_of_run (ArrayId.run_changeBy hf) g

end ArrayOp

end Change

theorem Asked.run_filterM {keep : Value → Act Bool} {vs : List Value} {bs : List Bool}
    {w w' : World} (h : Asked keep vs bs w w') :
    (vs.filterM keep).run.run w = (.ok (chosen vs bs), w') := by
  have filter (kept : List Value) : (vs.filterAuxM keep kept).run.run w =
      (.ok ((chosen vs bs).reverse ++ kept), w') := by
    induction h generalizing kept with
    | nil => rfl
    | @cons v vs b bs w w₁ w₂ answer _ ih =>
      rw [List.filterAuxM, Act.run_bind, answer]
      simp only [ih]
      cases b <;> simp [chosen]
  rw [List.filterM, Act.run_bind, filter, List.append_nil]
  exact congrArg (fun vs => (Except.ok vs, w')) (List.reverse_reverse _)

theorem sameSlot_of_getElem?_eq {before after : List Value} {i : Nat}
    (h : after[i]? = before[i]?) : SameSlot before after i := by
  rw [SameSlot, h]
  exact SameSlot.refl before i

theorem same_eq_false_of_fresh {w : World} {u v : Value} (hu : u.isReactive) (hfresh : ¬ u.Valid w)
    (hv : v.Valid w) : u.same v = false := by
  rw [Bool.eq_false_iff]
  intro hs
  cases u with
  | object n =>
    obtain rfl : Value.object n = v := by simpa [Value.same] using hs
    exact hfresh hv
  | array n =>
    obtain rfl : Value.array n = v := by simpa [Value.same] using hs
    exact hfresh hv
  | _ => cases hu

theorem Cell.StandsFor.holds_eq {w : World} {c : Cell} {u v : Value} (h : c.StandsFor w u)
    (hv : v.Valid w) : c.holds v = u.same v := by
  rcases h with rfl | ⟨⟨j, rfl⟩, hu, hfresh⟩
  · rfl
  · exact (same_eq_false_of_fresh hu hfresh hv).symm

theorem sameSlot_set {vs : List Value} {i j : Nat} {u v : Value} (hu : vs[i]? = some u) :
    SameSlot vs (vs.set i v) j ↔ (j = i → u.same v) := by
  by_cases hj : j = i
  · subst hj
    have hlt := (List.getElem?_eq_some_iff.1 hu).1
    rw [SameSlot, hu, List.getElem?_set_self hlt, Option.rel_some_some]
    exact ⟨fun h _ => h, fun h => h rfl⟩
  · exact iff_of_true (sameSlot_of_getElem?_eq (List.getElem?_set_ne (Ne.symm hj)))
      fun h => absurd h hj

theorem sameSlot_append {vs : List Value} {j : Nat} {v : Value} :
    SameSlot vs (vs ++ [v]) j ↔ j ≠ vs.length := by
  rcases Nat.lt_trichotomy j vs.length with hj | rfl | hj
  · exact iff_of_true (sameSlot_of_getElem?_eq (List.getElem?_append_left hj)) (Nat.ne_of_lt hj)
  · refine iff_of_false (fun h => ?_) (not_not_intro rfl)
    rw [SameSlot, List.getElem?_append_right (Nat.le_refl _), Nat.sub_self,
      List.getElem?_eq_none (Nat.le_refl _)] at h
    cases h
  · refine iff_of_true (sameSlot_of_getElem?_eq ?_) (Nat.ne_of_gt hj)
    rw [List.getElem?_eq_none (Nat.le_of_lt hj), List.getElem?_eq_none]
    exact (List.length_append ..).symm ▸ hj

section Set

variable {k : Kernel} {id : ArrayId} {w w₁ : World} {i : Nat} {v : Value}

theorem exact_set_of_lt {u : Value} {cell : Cell} (quiet : w.Untriggered id w₁)
    (hlen : (w.array id).cells.length = (w.content id).length)
    (hc : (w.array id).cells[i]? = some cell) (hu : (w.content id)[i]? = some u)
    (hholds : cell.holds v = u.same v)
    (hcells : (w₁.array id).cells =
      if cell.holds v then (w.array id).cells else (w.array id).cells.set i (.value v)) :
    (ArrayOp.set i v).Exact id w w₁ (if cell.holds v then [] else [.index i]) := by
  have hi := (List.getElem?_eq_some_iff.1 hu).1
  have happly : (ArrayOp.set i v).apply (w.content id) = ((w.content id).set i v, .nothing) :=
    if_pos hi
  refine ⟨quiet, ?_, fun j c v' hcj hvj => ?_, fun j => ?_, ?_, fun key hkey => ?_, ?_, fun e he => ?_⟩
  · rw [happly, hcells, List.length_set, ← hlen]
    split <;> simp
  · rw [happly] at hvj
    rw [hcells] at hcj
    by_cases hj : j = i
    · subst hj
      rw [List.getElem?_set_self hi] at hvj
      obtain rfl := Option.some.inj hvj
      split at hcj
      · next hh =>
        obtain rfl := Option.some.inj (hc.symm.trans hcj)
        cases cell with
        | value x => exact .inl ⟨x, rfl, hh⟩
        | plain j => cases hh
      · rw [List.getElem?_set_self (hlen ▸ hi)] at hcj
        exact .inl ⟨v, (Option.some.inj hcj).symm, v.same_refl⟩
    · rw [List.getElem?_set_ne (Ne.symm hj)] at hvj
      refine .inr ⟨?_, hvj⟩
      split at hcj
      · exact hcj
      · rwa [List.getElem?_set_ne (Ne.symm hj)] at hcj
  · rw [happly, sameSlot_set hu, ← hholds]
    cases cell.holds v <;> simp
  · rw [happly]
    cases cell.holds v <;> simp [ArrayOp.isSet]
  · split at hkey
    · exact nomatch hkey
    · exact .inr ⟨i, List.mem_singleton.1 hkey⟩
  · split <;> simp
  · rw [happly] at he
    cases he

theorem exact_set_append (quiet : w.Untriggered id w₁)
    (hlen : (w.array id).cells.length = (w.content id).length) (hi : i = (w.array id).cells.length)
    (hcells : (w₁.array id).cells = (w.array id).cells ++ [Cell.value v]) :
    (ArrayOp.set i v).Exact id w w₁ [.index i, .shape] := by
  have happly : (ArrayOp.set i v).apply (w.content id) = (w.content id ++ [v], .nothing) := by
    rw [ArrayOp.apply, if_neg (by omega), if_pos (hi.trans hlen)]
  refine ⟨quiet, ?_, fun j c v' hcj hvj => ?_, fun j => ?_, ?_, ?_, by simp, fun e he => ?_⟩
  · rw [happly, hcells, List.length_append, List.length_append, hlen]
    rfl
  · rw [happly] at hvj
    rw [hcells] at hcj
    rcases Nat.lt_or_ge j (w.array id).cells.length with hj | hj
    · rw [List.getElem?_append_left hj] at hcj
      rw [List.getElem?_append_left (hlen ▸ hj)] at hvj
      exact .inr ⟨hcj, hvj⟩
    · rw [List.getElem?_append_right hj, List.getElem?_singleton] at hcj
      rw [List.getElem?_append_right (hlen ▸ hj), ← hlen, List.getElem?_singleton] at hvj
      split at hcj
      · next hz =>
        rw [if_pos hz] at hvj
        obtain rfl := Option.some.inj hvj
        exact .inl ⟨v, (Option.some.inj hcj).symm, v.same_refl⟩
      · cases hcj
  · rw [happly, sameSlot_append, ← hlen, hi]
    simp
  · rw [happly]
    simp
  · simp
  · rw [happly] at he
    cases he

theorem exact_set_outside (hlen : (w.array id).cells.length = (w.content id).length)
    (hi : (w.array id).cells.length < i) : (ArrayOp.set i v).Exact id w w [] := by
  have happly : (ArrayOp.set i v).apply (w.content id) =
      (w.content id, .error (.indexOutOfBounds i (w.content id).length)) := by
    rw [ArrayOp.apply, if_neg (by omega), if_neg (by omega)]
  refine ⟨.refl w, ?_, fun j c v' hcj hvj => ?_, fun j => ?_, ?_, fun key hkey => (nomatch hkey),
    .nil, fun e he => ?_⟩
  · rw [happly, hlen]
  · rw [happly] at hvj
    exact .inr ⟨hcj, hvj⟩
  · rw [happly]
    exact iff_of_false List.not_mem_nil (not_not_intro (.refl _ j))
  · rw [happly]
    simp
  · rw [happly]
    exact ⟨rfl, rfl⟩

theorem ArrayId.run_set_same {cell : Cell} (hc : (w.array id).cells[i]? = some cell)
    (hh : cell.holds v = true) :
    (id.set k i v).run.run w = (.ok (.ok ()), w.note (.wrote (.slot id i (some cell) v))) := by
  simp only [set, Act.run_get_bind, hc, Act.run_lift_bind, Change.run_note, hh, if_true]
  rfl

theorem ArrayId.run_set_other {cell : Cell} (hc : (w.array id).cells[i]? = some cell)
    (hh : cell.holds v = false) :
    (id.set k i v).run.run w =
      (do
        trigger k (w.array id).runtime (.array id) (.index i)
        return .ok () : Act (Except StateError Unit)).run.run
          ((w.note (.wrote (.slot id i (some cell) v))).modifyArray id fun a =>
            { a with cells := a.cells.set i (.value v) }) := by
  simp only [set, Act.run_get_bind, hc, Act.run_lift_bind, Change.run_note, hh, Bool.false_eq_true,
    if_false, Act.run_modify_bind]

theorem ArrayId.run_set_append (hi : i = (w.array id).cells.length) :
    (id.set k i v).run.run w =
      (do
        trigger k (w.array id).runtime (.array id) (.index i)
        trigger k (w.array id).runtime (.array id) .shape
        return .ok () : Act (Except StateError Unit)).run.run
          ((w.note (.wrote (.slot id i none v))).modifyArray id fun a =>
            { a with cells := a.cells ++ [.value v] }) := by
  have hc : (w.array id).cells[i]? = none := List.getElem?_eq_none (Nat.le_of_eq hi.symm)
  simp only [set, Act.run_get_bind, hc, if_pos hi, Act.run_lift_bind, Change.run_note,
    Act.run_modify_bind]

theorem ArrayId.run_set_outside (hi : (w.array id).cells.length < i) :
    (id.set k i v).run.run w =
      (.ok (.error (.indexOutOfBounds i (w.array id).cells.length)), w) := by
  have hc : (w.array id).cells[i]? = none := List.getElem?_eq_none (Nat.le_of_lt hi)
  simp only [set, Act.run_get_bind, hc, if_neg (Nat.ne_of_gt hi)]
  rfl

/-- What the write of one slot does is to trigger the keys of what has changed. -/
theorem run_act_set {o : Except StateError Unit} {keys : List Key}
    (ho : Result.ofUnit o = ((ArrayOp.set i v).apply (w.content id)).2)
    (hrun : (id.set k i v).run.run w =
      (do
        keys.forM (trigger k (w.array id).runtime (.array id))
        return o : Act (Except StateError Unit)).run.run w₁) :
    ((ArrayOp.set i v).act k id).run.run w =
      (do
        keys.forM (trigger k (w.array id).runtime (.array id))
        return ((ArrayOp.set i v).apply (w.content id)).2 : Act Result).run.run w₁ := by
  rw [← ho]
  exact Act.run_return_of_run hrun Result.ofUnit

theorem exists_exact_set (hid : id < w.arrays.size) (hcells : ∀ c ∈ (w.array id).cells, c.Valid w)
    (hv : v.Valid w) :
    ∃ w₁ keys, ((ArrayOp.set i v).act k id).run.run w =
        (do
          keys.forM (trigger k (w.array id).runtime (.array id))
          return ((ArrayOp.set i v).apply (w.content id)).2 : Act Result).run.run w₁ ∧
      (ArrayOp.set i v).Exact id w w₁ keys := by
  have hstands := forall₂_content hcells
  have hlen := hstands.length_eq
  have hquiet (write : Write) (f : ArrayState → ArrayState) (hf : ∀ a, (f a).runtime = a.runtime) :
      w.Untriggered id ((w.note (.wrote write)).modifyArray id f) :=
    (World.Untriggered.note w (by simp)).trans (.modifyArray _ hf)
  have hstored (write : Write) (f : ArrayState → ArrayState) :
      ((w.note (.wrote write)).modifyArray id f).array id = f (w.array id) := by
    rw [World.array_modifyArray, if_pos ⟨rfl, hid⟩]
    rfl
  rcases Nat.lt_trichotomy i (w.array id).cells.length with hi | hi | hi
  · obtain ⟨cell, hc⟩ : ∃ cell, (w.array id).cells[i]? = some cell :=
      ⟨_, List.getElem?_eq_getElem hi⟩
    obtain ⟨u, hu, hcu⟩ := exists_of_forall₂_getElem? hstands.flip hc
    have hholds : cell.holds v = u.same v := Cell.StandsFor.holds_eq hcu hv
    have hok : Result.ofUnit (.ok ()) = ((ArrayOp.set i v).apply (w.content id)).2 := by
      rw [ArrayOp.apply, if_pos (hlen ▸ hi)]
      rfl
    cases hh : cell.holds v with
    | true =>
      have quiet : w.Untriggered id (w.note (.wrote (.slot id i (some cell) v))) :=
        .note w (by simp)
      have hexact := exact_set_of_lt quiet hlen hc hu hholds (if_pos hh).symm
      rw [if_pos hh] at hexact
      exact ⟨_, _, run_act_set hok (ArrayId.run_set_same hc hh), hexact⟩
    | false =>
      have hexact := exact_set_of_lt (hquiet (.slot id i (some cell) v)
        (fun a => { a with cells := a.cells.set i (.value v) }) fun _ => rfl) hlen hc hu hholds
        (by rw [hstored, if_neg (Bool.eq_false_iff.1 hh)])
      rw [if_neg (Bool.eq_false_iff.1 hh)] at hexact
      refine ⟨_, _, run_act_set hok ((ArrayId.run_set_other hc hh).trans ?_), hexact⟩
      simp only [List.forM_eq_forM, List.forM_cons, List.forM_nil, bind_assoc, pure_bind]
  · have hexact := exact_set_append (hquiet (.slot id i none v)
      (fun a => { a with cells := a.cells ++ [.value v] }) fun _ => rfl) hlen hi (by rw [hstored])
    have hok : Result.ofUnit (.ok ()) = ((ArrayOp.set i v).apply (w.content id)).2 := by
      rw [ArrayOp.apply, if_neg (by omega), if_pos (hi.trans hlen)]
      rfl
    refine ⟨_, _, run_act_set hok ((ArrayId.run_set_append hi).trans ?_), hexact⟩
    simp only [List.forM_eq_forM, List.forM_cons, List.forM_nil, bind_assoc, pure_bind]
  · refine ⟨_, _, run_act_set ?_ (ArrayId.run_set_outside hi), exact_set_outside hlen hi⟩
    rw [ArrayOp.apply, if_neg (by omega), if_neg (by omega), hlen]
    rfl

end Set

section Operations

variable {k : Kernel} {id : ArrayId} {w : World}

/-- An exchange of two elements is one of two places of the list, if both are there. -/
theorem apply_swap (i j : Nat) (vs : List Value) :
    (ArrayOp.swap i j).apply vs =
      match ArrayId.swapped i j vs with
      | .ok after => (after, .nothing)
      | .error e => (vs, .error e) := by
  rw [ArrayOp.apply, ArrayId.swapped]
  rcases Nat.lt_or_ge i vs.length with hi | hi
  · rcases Nat.lt_or_ge j vs.length with hj | hj
    · simp [hi, hj]
    · simp [hi, hj]
  · simp [hi]

/-- Where an array is, and every operation on it whose arguments are there, and whose callback
answers as it says, first stores what it makes of the content, and then triggers what has changed. -/
theorem ArrayOp.stores_then_triggers {settings : Settings} {hook : Hook} {g : List Frame} {u : Bool}
    (reached : Reaches (.start settings hook) ⟨w, g, u⟩) (hid : id < w.arrays.size) (op : ArrayOp)
    (args : ∀ v ∈ op.values, v.Valid w)
    (answered : op.Answered id (w.opened id) (w.content id)) (k : Kernel) :
    ∃ w₁ keys, (op.act k id).run.run w =
        (do
          keys.forM (trigger k (w.array id).runtime (.array id))
          return (op.apply (w.content id)).2 : Act Result).run.run w₁ ∧
      op.Exact id w w₁ keys := by
  have hcells := ((reached.sane (Config.start_sane settings hook)).world.arrays id hid).2.1
  have hquiet : (w.opened id).Untriggered id (w.opened id) := .refl _
  cases op with
  | set i v => exact exists_exact_set hid hcells (args v (List.mem_singleton_self v))
  | push v => exact exists_exact_of_change (g := fun o => .ofUnit (.ok o)) hid rfl rfl rfl rfl hquiet
  | pop => exact exists_exact_of_change (g := .ofValue?) hid rfl rfl rfl rfl hquiet
  | insert i v =>
    rcases Nat.lt_or_ge (w.content id).length i with hi | hi
    · refine exists_exact_of_change (g := .ofUnit)
        (o := .error (.indexOutOfBounds i (w.content id).length)) hid rfl rfl ?_ ?_ hquiet
      · rw [if_pos hi, apply, if_neg (Nat.not_le.2 hi)]
        rfl
      · rw [apply, if_neg (Nat.not_le.2 hi)]
        rfl
    · refine exists_exact_of_change (g := .ofUnit) (o := .ok ()) hid rfl rfl ?_ ?_ hquiet
      · rw [if_neg (Nat.not_lt.2 hi), apply, if_pos hi]
        rfl
      · rw [apply, if_pos hi]
        rfl
  | remove i => exact exists_exact_of_change (g := .ofValue?) hid rfl rfl rfl rfl hquiet
  | truncate n => exact exists_exact_of_change (g := fun o => .ofUnit (.ok o)) hid rfl rfl rfl rfl hquiet
  | clear => exact exists_exact_of_change (g := fun o => .ofUnit (.ok o)) hid rfl rfl rfl rfl hquiet
  | swap i j =>
    refine exists_exact_of_change (g := .ofUnit)
      (o := (ArrayId.swapped i j (w.content id)).map fun _ => ()) hid rfl rfl ?_ ?_ hquiet
    · rw [apply_swap]
      cases ArrayId.swapped i j (w.content id) <;> rfl
    · rw [apply_swap]
      cases ArrayId.swapped i j (w.content id) <;> rfl
  | reverse => exact exists_exact_of_change (g := fun o => .ofUnit (.ok o)) hid rfl rfl rfl rfl hquiet
  | sort less order =>
    obtain ⟨consistent, I, hI, quiet, answers⟩ := answered
    obtain ⟨w₂, hrun, hw₂⟩ := returns_insertionSort answers (w.opened id) hI
    rw [consistent.sortedBy_eq_mergeSort] at hrun
    refine exists_exact_of_change (g := fun o => .ofUnit (.ok o)) (o := ()) hid rfl rfl ?_ rfl
      (quiet w₂ hw₂)
    rw [Act.run_bind, hrun]
    rfl
  | retain keep answers =>
    obtain ⟨w₂, asked, quiet⟩ := answered
    refine exists_exact_of_change (g := fun o => .ofUnit (.ok o)) (o := ()) hid rfl rfl ?_ rfl
      quiet
    rw [Act.run_bind, asked.run_filterM]
    rfl
  | extend vs => exact exists_exact_of_change (g := fun o => .ofUnit (.ok o)) hid rfl rfl rfl rfl hquiet

end Operations

def mixedArray : List Expr :=
  [.assign "a" (.apply .wrap [.literal (.array [.bool true, .array [], .bool false])])]

def falseFirst (u v : Value) : Bool :=
  u == .bool false && v != .bool false

theorem consistent_falseFirst : Consistent falseFirst where
  asymm u v h := by
    rw [falseFirst, Bool.and_eq_true, bne_iff_ne] at h
    simp [falseFirst, h.2]
  trans u v x hvu hxv := by
    rw [Bool.eq_false_iff] at hvu hxv ⊢
    simp only [falseFirst, Bool.and_eq_true, beq_iff_eq, bne_iff_ne, not_and, not_not,
      ne_eq] at hvu hxv ⊢
    intro hx
    exact hvu (hxv hx)

theorem stores_then_triggers_sort :
    ((ArrayOp.sort (fun u v => return falseFirst u v) falseFirst).apply
      ((World.after .standard .manual 2 mixedArray).content 0)).1 =
        [.bool false, .bool true, .array 1] ∧
    ∃ w₁ keys, ((ArrayOp.sort (fun u v => return falseFirst u v) falseFirst).act (kernel 2) 0).run.run
        (World.after .standard .manual 2 mixedArray) =
          (do
            keys.forM (trigger (kernel 2) ((World.after .standard .manual 2 mixedArray).array 0).runtime
              (.array 0))
            return ((ArrayOp.sort (fun u v => return falseFirst u v) falseFirst).apply
              ((World.after .standard .manual 2 mixedArray).content 0)).2 : Act Result).run.run w₁ ∧
      (ArrayOp.sort (fun u v => return falseFirst u v) falseFirst).Exact 0
        (World.after .standard .manual 2 mixedArray) w₁ keys := by
  have hcontent : (World.after .standard .manual 2 mixedArray).content 0 =
      [.bool true, .array 1, .bool false] := by
    cbv
  have hsize : (World.after .standard .manual 2 mixedArray).arrays.size = 1 := by cbv
  have hreach := reaches_after .standard .manual 2 mixedArray
  generalize World.after .standard .manual 2 mixedArray = w at *
  have hid : 0 < w.arrays.size := hsize ▸ Nat.one_pos
  refine ⟨?_, ?_⟩
  · rw [hcontent]
    cbv
  · refine ArrayOp.stores_then_triggers hreach hid _ (fun _ h => ?_) ?_ (kernel 2)
    · cases h
    · exact ⟨consistent_falseFirst, (· = w.opened 0), rfl, fun w' h => h ▸ .refl _,
        fun u _ v _ => .pure _⟩

/-- An effect throws when the array does not hold what it did any more. -/
def breakingArray : List Expr :=
  [.assign "a" (.apply .wrap [.literal (.array [.bool false, .bool true])]),
    .effect (.cond (.apply .same [.container .values (.var "a") [],
      .list [.literal (.bool false), .literal (.bool true)]]) .nothing (.throw "broken"))]

def Event.triggered? : Event → Option (Handle × Key)
  | .triggered h key => some (h, key)
  | _ => none

set_option maxRecDepth 4000 in
/-- The array is reversed, but after the first slot has been triggered the hook flushes and throws:
the other slot and the shape are not triggered any more. -/
theorem reverse_cut_short :
    ¬ SameSlot ((World.after .standard .flush 3 breakingArray).content 0)
      (ArrayOp.reverse.apply ((World.after .standard .flush 3 breakingArray).content 0)).1 1 ∧
    (((ArrayOp.reverse.act (kernel 3) 0).run.run
      (World.after .standard .flush 3 breakingArray)).2.array 0).cells =
        (ArrayOp.reverse.apply ((World.after .standard .flush 3 breakingArray).content 0)).1.map .value ∧
    .triggered (.array 0) (.index 1) ∉ ((ArrayOp.reverse.act (kernel 3) 0).run.run
      (World.after .standard .flush 3 breakingArray)).2.history ∧
    .triggered (.array 0) .shape ∉ ((ArrayOp.reverse.act (kernel 3) 0).run.run
      (World.after .standard .flush 3 breakingArray)).2.history := by
  have hcontent : (World.after .standard .flush 3 breakingArray).content 0 =
      [.bool false, .bool true] := by
    cbv
  have hcells : (((ArrayOp.reverse.act (kernel 3) 0).run.run
      (World.after .standard .flush 3 breakingArray)).2.array 0).cells =
        [.value (.bool true), .value (.bool false)] := by
    cbv
  have hhistory : ((ArrayOp.reverse.act (kernel 3) 0).run.run
      (World.after .standard .flush 3 breakingArray)).2.history.filterMap
        Event.triggered? = [(.array 0, .index 0)] := by
    cbv
  generalize (ArrayOp.reverse.act (kernel 3) 0).run.run (World.after .standard .flush 3 breakingArray) =
    o at *
  rw [hcontent, hcells]
  have htriggered (key : Key) (hm : .triggered (.array 0) key ∈ o.2.history) : key = .index 0 := by
    have hp : (Handle.array 0, key) ∈ o.2.history.filterMap Event.triggered? :=
      List.mem_filterMap.2 ⟨_, hm, rfl⟩
    rw [hhistory, List.mem_singleton] at hp
    exact (Prod.mk.inj hp).2
  refine ⟨?_, rfl, fun hm => ?_, fun hm => ?_⟩
  · simp [SameSlot, ArrayOp.apply, Value.same]
  · cases htriggered _ hm
  · cases htriggered _ hm

end Reactivity
