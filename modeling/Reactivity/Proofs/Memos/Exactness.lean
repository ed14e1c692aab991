import Reactivity.Proofs.Memos.Recording
import Reactivity.Proofs.Updates.Quiescence
import Reactivity.Proofs.Wrapping.Unfolding

namespace Reactivity

def Number.isNegativeZero (x : Number) : Bool :=
  x.isZero && x.isNegative

theorem Number.eq_zero_of_isZero {x : Number} (h : x.isZero) (hn : x.isNegative = false) :
    x = .zero := by
  obtain ⟨bits⟩ := x
  simp only [isZero, exponentField, fractionField, Bool.and_eq_true, beq_iff_eq] at h
  simp only [isNegative, decide_eq_false_iff_not, Nat.pow_eq] at hn
  have hbits : bits.toNat = 0 := by
    obtain ⟨he, hf⟩ := h
    norm_num at he hf hn
    omega
  rw [zero, mk.injEq]
  exact UInt64.toNat_inj.1 hbits

/-- Numbers in their one form that are the same are equal, negative zeros apart. -/
theorem Number.eq_of_same {x y : Number} (hx : x.canonical = x) (hy : y.canonical = y)
    (hx' : x.isNegativeZero = false) (hy' : y.isNegativeZero = false) (h : x.same y) : x = y := by
  have zero {z : Number} (hz : z.isZero) (hz' : z.isNegativeZero = false) : z = .zero := by
    refine z.eq_zero_of_isZero hz ?_
    simpa only [isNegativeZero, hz, Bool.true_and] using hz'
  have nan {z : Number} (hz : z.isNaN) (hz' : z.canonical = z) : z = .nan := by
    rw [← hz', canonical, if_pos hz]
  simp only [same, Bool.or_eq_true, Bool.and_eq_true, beq_iff_eq] at h
  rcases h with (h | ⟨h₁, h₂⟩) | ⟨h₁, h₂⟩
  · exact h
  · rw [zero h₁ hx', zero h₂ hy']
  · rw [nan h₁ hx, nan h₂ hy]

/-- The value is a number in its one form and no negative zero, if it is a number. -/
def Value.Exact : Value → Prop
  | .number x => x.canonical = x ∧ x.isNegativeZero = false
  | _ => True

theorem Value.Exact.eq_of_same {v v' : Value} (hv : v.Exact) (hv' : v'.Exact) (h : v.same v') :
    v = v' := by
  cases v with
  | number x =>
    cases v' with
    | number y => exact congrArg Value.number (Number.eq_of_same hv.1 hv'.1 hv.2 hv'.2 h)
    | _ => cases h
  | _ => exact eq_of_beq h

mutual

/-- All values in the result are exact, and no plain JSON but integers is in it. -/
def Result.Exact : Result → Prop
  | .value v => v.Exact
  | .plain (.int _) => True
  | .plain _ => False
  | .list items => Result.ItemsExact items
  | _ => True

def Result.ItemsExact : List Result → Prop
  | [] => True
  | r :: items => r.Exact ∧ Result.ItemsExact items

end

theorem Result.itemsExact_iff {items : List Result} :
    Result.ItemsExact items ↔ ∀ r ∈ items, r.Exact := by
  induction items with
  | nil => simp [Result.ItemsExact]
  | cons r items ih => simp [Result.ItemsExact, ih]

mutual

theorem Result.Exact.eq_of_same : {r s : Result} → r.Exact → s.Exact → r.same s → r = s
  | .value _, .value _, hr, hs, h => congrArg Result.value (Value.Exact.eq_of_same hr hs h)
  | .plain (.int _), .plain (.int _), _, _, h => by
    rw [Result.same, Json.same, beq_iff_eq] at h
    rw [h]
  | .list _, .list _, hr, hs, h => congrArg Result.list (Result.ItemsExact.eq_of_same hr hs h)
  | .nothing, .nothing, _, _, _ => rfl
  | .effect _, .effect _, _, _, h => by rw [eq_of_beq h]
  | .memo _, .memo _, _, _, h => by rw [eq_of_beq h]
  | .runtime _, .runtime _, _, _, h => by rw [eq_of_beq h]
  | .stats _, .stats _, _, _, h => by rw [eq_of_beq h]
  | .error _, .error _, _, _, h => by rw [eq_of_beq h]
  | .thrown _, .thrown _, _, _, h => by rw [eq_of_beq h]

theorem Result.ItemsExact.eq_of_same : {rs ss : List Result} → Result.ItemsExact rs →
    Result.ItemsExact ss → Result.sameItems rs ss → rs = ss
  | [], [], _, _, _ => rfl
  | r :: rs, s :: ss, hr, hs, h => by
    rw [Result.sameItems, Bool.and_eq_true] at h
    rw [Result.Exact.eq_of_same hr.1 hs.1 h.1, Result.ItemsExact.eq_of_same hr.2 hs.2 h.2]

end

def Cell.Unsigned : Cell → Prop
  | .value (.number x) => x.isNegativeZero = false
  | _ => True

def World.Unsigned (w : World) : Prop :=
  (∀ id, ∀ p ∈ (w.object id).properties, p.2.Unsigned) ∧
    ∀ id, ∀ cell ∈ (w.array id).cells, cell.Unsigned

def Write.stored (write : Write) : List Value :=
  match write with
  | .property _ _ _ new => if write.changed = [] then [] else new.toList
  | .slot _ _ _ new => if write.changed = [] then [] else [new]
  | .items _ _ after => after

/-- No negative zero has been put into a container. -/
structure UnsignedPast (history : List Event) : Prop where
  wrapped : ∀ values, .wrapped values ∈ history → ∀ v ∈ values, (Cell.value v).Unsigned
  wrote : ∀ write : Write, .wrote write ∈ history → ∀ v ∈ write.stored, (Cell.value v).Unsigned

theorem UnsignedPast.of_suffix {history history' : List Event} (h : UnsignedPast history')
    (hs : history <:+ history') : UnsignedPast history where
  wrapped values hm := h.wrapped values (hs.subset hm)
  wrote write hm := h.wrote write (hs.subset hm)

theorem Cell.Unsigned.of_value? {cell : Cell}
    (h : ∀ v, cell.value? = some v → (Cell.value v).Unsigned) : cell.Unsigned := by
  cases cell with
  | value v => exact h v rfl
  | plain j => trivial

namespace World.Unsigned

variable {w w' : World}

theorem same (h : w.Unsigned) (hs : w.SameContent w') : w'.Unsigned :=
  ⟨fun id p hp => h.1 id p (hs.1 id ▸ hp), fun id c hc => h.2 id c (hs.2 id ▸ hc)⟩

theorem modifyObject (h : w.Unsigned) (id : ObjectId) (f : Properties → Properties)
    (hp : ∀ p ∈ f (w.object id).properties, p.2.Unsigned) :
    (w.modifyObject id fun o => { o with properties := f o.properties }).Unsigned := by
  refine ⟨fun j p hm => ?_, h.2⟩
  rw [object_modifyObject] at hm
  split at hm
  · next hj =>
    obtain ⟨rfl, -⟩ := hj
    exact hp p hm
  · exact h.1 j p hm

theorem modifyArray (h : w.Unsigned) (id : ArrayId) (f : List Cell → List Cell)
    (hc : ∀ c ∈ f (w.array id).cells, c.Unsigned) :
    (w.modifyArray id fun a => { a with cells := f a.cells }).Unsigned := by
  refine ⟨h.1, fun j c hm => ?_⟩
  rw [array_modifyArray] at hm
  split at hm
  · next hj =>
    obtain ⟨rfl, -⟩ := hj
    exact hc c hm
  · exact h.2 j c hm

end World.Unsigned

theorem Write.mem_stored_property {id : ObjectId} {name : String} {old : Option Cell} {v : Value}
    (h : (Write.property id name old (some v)).changed ≠ []) :
    v ∈ (Write.property id name old (some v)).stored := by
  rw [stored, if_neg h]
  exact List.mem_singleton_self v

theorem Write.mem_stored_slot {id : ArrayId} {i : Nat} {old : Option Cell} {v : Value}
    (h : (Write.slot id i old v).changed ≠ []) : v ∈ (Write.slot id i old v).stored := by
  rw [stored, if_neg h]
  exact List.mem_singleton_self v

theorem Edit.unsigned {w w' : World} {write : Write} (h : Edit w write w') (hw : w.Unsigned)
    (stored : ∀ v ∈ write.stored, (Cell.value v).Unsigned) : w'.Unsigned := by
  have hn : (w.note (.wrote write)).Unsigned := hw.same (.of_eq rfl rfl)
  have hchanged := h.changed_ne_nil
  cases h with
  | @setProperty id name v =>
    have hv := stored v (Write.mem_stored_property hchanged)
    refine hn.modifyObject id (·.replace name (.value v)) fun p hp => ?_
    obtain ⟨q, hq, rfl⟩ := List.mem_map.1 hp
    dsimp only
    split
    · exact hv
    · exact hn.1 id q hq
  | @addProperty id name v =>
    have hv := stored v (Write.mem_stored_property hchanged)
    refine hn.modifyObject id (·.add name (.value v)) fun p hp => ?_
    rcases List.mem_append.1 hp with hp | hp
    · exact hn.1 id p hp
    · exact List.mem_singleton.1 hp ▸ hv
  | @removeProperty id name =>
    exact hn.modifyObject id (·.remove name) fun p hp => hn.1 id p (List.mem_filter.1 hp).1
  | @setSlot id i v =>
    have hv := stored v (Write.mem_stored_slot hchanged)
    refine hn.modifyArray id (·.set i (.value v)) fun c hc => ?_
    rcases List.mem_or_eq_of_mem_set hc with hc | rfl
    · exact hn.2 id c hc
    · exact hv
  | @addSlot id v =>
    have hv := stored v (Write.mem_stored_slot hchanged)
    refine hn.modifyArray id (fun cells => cells ++ [Cell.value v]) fun c hc => ?_
    rcases List.mem_append.1 hc with hc | hc
    · exact hn.2 id c hc
    · exact List.mem_singleton.1 hc ▸ hv

theorem World.Copies.unsigned {w : World} {v : Value} {j : Json} (h : w.Copies v j) :
    (Cell.value v).Unsigned := by
  cases v with
  | number => exact h.elim
  | _ => trivial

theorem Cell.Unsigned.resolved {w : World} {old new : List Cell}
    (h : List.Forall₂ (Cell.Resolved w) old new) (ho : ∀ c ∈ old, c.Unsigned) :
    ∀ c ∈ new, c.Unsigned := by
  induction h with
  | nil => exact fun _ hc => nomatch hc
  | cons hcd _ ih =>
    obtain ⟨hold, ho⟩ := List.forall_mem_cons.1 ho
    refine List.forall_mem_cons.2 ⟨?_, ih ho⟩
    rcases hcd with rfl | ⟨j, v, -, rfl, copies, -⟩
    · exact hold
    · exact copies.unsigned

/-- Steps put a negative zero into a container only where that is written down. -/
theorem Step.unsigned {c c' : Config} (h : Step c c') (hw : c.world.Unsigned)
    (hp : UnsignedPast c'.world.history) : c'.world.Unsigned := by
  cases h with
  | aside h => exact hw.same h.sameContent
  | track _ _ _ _ _ => exact hw.same (.trackedBy ..)
  | @newObject w g rt properties _ _ _ =>
    have hv := hp.wrapped (properties.filterMap (·.2.value?)) (List.mem_cons_self ..)
    refine ⟨fun id p hm => ?_, hw.2⟩
    by_cases hid : id = w.objects.size
    · subst hid
      have hm : p ∈ properties := by simpa [World.object] using hm
      exact .of_value? fun v hpv => hv v (List.mem_filterMap.2 ⟨p, hm, hpv⟩)
    · refine hw.1 id p ?_
      simpa [World.object, Array.getElem?_push, hid] using hm
  | @newArray w g rt cells _ _ _ =>
    have hv := hp.wrapped (cells.filterMap Cell.value?) (List.mem_cons_self ..)
    refine ⟨hw.1, fun id c hm => ?_⟩
    by_cases hid : id = w.arrays.size
    · subst hid
      have hm : c ∈ cells := by simpa [World.array] using hm
      exact .of_value? fun v hcv => hv v (List.mem_filterMap.2 ⟨c, hm, hcv⟩)
    · refine hw.2 id c ?_
      simpa [World.array, Array.getElem?_push, hid] using hm
  | @resolveObject w g id properties _ resolved =>
    refine hw.modifyObject id (fun _ => properties) fun p hm => ?_
    rcases resolved.cells p hm with hold | ⟨j, v, -, hv, copies, -⟩
    · exact hw.1 id p hold
    · exact hv ▸ copies.unsigned
  | @resolveArray w g id cells _ resolved =>
    exact hw.modifyArray id (fun _ => cells) (.resolved resolved (hw.2 id))
  | write _ _ _ edit =>
    refine edit.unsigned hw (hp.wrote _ ?_)
    simp only [edit.history]
    exact List.mem_cons_self ..
  | @endChange w g rt id before after _ _ =>
    have hs : w.SameContent ((w.note (.changeEnded id)).note (.wrote (.items id before after))) :=
      .of_eq rfl rfl
    refine (hw.same hs).modifyArray id (fun _ => after.map .value) fun c hm => ?_
    obtain ⟨v, hv, rfl⟩ := List.mem_map.1 hm
    exact hp.wrote (.items id before after) (List.mem_cons_self ..) v hv
  | trigger => exact hw.same (.taken ..)
  | tellEffect _ _ => exact hw.same (.queuedIn ..)
  | schedule _ _ _ _ => exact hw.same ((World.SameContent.of_eq rfl rfl).trans (.queuedIn ..))
  | reuse _ _ _ _ => exact hw.same ((World.SameContent.trackedIn ..).trans (.of_eq rfl rfl))
  | beginCompute _ _ _ => exact hw.same ((World.SameContent.trackedIn ..).trans (.computing ..))
  | endReading _ _ => exact hw.same (.gotBy ..)
  | clearRunning _ _ => exact hw.same (.clearedOf ..)
  | beginRun _ _ _ _ => exact hw.same (.running ..)
  | dispose _ _ _ => exact hw.same (.disposing ..)
  | retire _ => exact hw.same ((World.SameContent.disposing ..).trans (.of_eq rfl rfl))
  | _ => exact hw.same (.of_eq rfl rfl)

section Shown

variable {w : World}

theorem Cell.exact {cell : Cell} (hv : cell.Valid w) (hu : cell.Unsigned) {v : Value}
    (h : cell.value? = some v) : v.Exact := by
  obtain rfl := Cell.value?_eq_some.1 h
  cases v with
  | number x => exact ⟨hv, hu⟩
  | _ => trivial

theorem World.Sane.property_valid (hs : w.Sane) {id : ObjectId} :
    ∀ p ∈ (w.object id).properties, p.2.Valid w := by
  by_cases hid : id < w.objects.size
  · exact (hs.objects id hid).2.1
  · intro p hp
    rw [object, Array.getElem?_eq_none (Nat.le_of_not_lt hid)] at hp
    cases hp

theorem World.Sane.cell_valid (hs : w.Sane) {id : ArrayId} :
    ∀ c ∈ (w.array id).cells, c.Valid w := by
  by_cases hid : id < w.arrays.size
  · exact (hs.arrays id hid).2.1
  · intro c hc
    rw [array, Array.getElem?_eq_none (Nat.le_of_not_lt hid)] at hc
    cases hc

theorem Cell.shown?_exact {cell? : Option Cell} {r : Result}
    (hc : ∀ cell, cell? = some cell → cell.Valid w ∧ cell.Unsigned)
    (h : Cell.shown? cell? = some r) : r.Exact := by
  cases cell? with
  | none =>
    obtain rfl := Option.some.inj h
    trivial
  | some cell =>
    obtain ⟨v, hv, rfl⟩ := Option.map_eq_some_iff.1 h
    obtain ⟨hvalid, hu⟩ := hc cell rfl
    exact Cell.exact hvalid hu hv

theorem Properties.mem_of_lookup {ps : Properties} {name : String} {cell : Cell}
    (h : ps.lookup name = some cell) : (name, cell) ∈ ps := by
  induction ps with
  | nil => cases h
  | cons p ps ih =>
    obtain ⟨other, c⟩ := p
    rw [List.lookup_cons] at h
    split at h
    · next heq =>
      rw [eq_of_beq heq, Option.some.inj h]
      exact List.mem_cons_self ..
    · exact List.mem_cons_of_mem _ (ih h)

theorem Read.exact_of_shown (hs : w.Sane) (hw : w.Unsigned) {read : Read} {r : Result}
    (direct : ∀ n, read ≠ .memo n) (h : read.shown w = some r) : r.Exact := by
  cases read with
  | property id name =>
    refine Cell.shown?_exact (w := w) (fun cell hc => ?_) h
    have hm := Properties.mem_of_lookup hc
    exact ⟨hs.property_valid _ hm, hw.1 id _ hm⟩
  | slot id i =>
    refine Cell.shown?_exact (w := w) (fun cell hc => ?_) h
    have hm := List.mem_of_getElem? hc
    exact ⟨hs.cell_valid _ hm, hw.2 id _ hm⟩
  | contains id name =>
    obtain rfl := Option.some.inj h
    trivial
  | names id =>
    obtain rfl := Option.some.inj h
    refine Result.itemsExact_iff.2 fun r hr => ?_
    obtain ⟨name, -, rfl⟩ := List.mem_map.1 hr
    trivial
  | entries id =>
    obtain ⟨vs, hvs, rfl⟩ := Option.map_eq_some_iff.1 h
    have hps := Properties.values?_eq_some.1 hvs
    refine Result.itemsExact_iff.2 fun r hr => ?_
    obtain ⟨⟨name, v⟩, hm, rfl⟩ := List.mem_map.1 hr
    have hm : (name, Cell.value v) ∈ (w.object id).properties :=
      hps ▸ List.mem_map.2 ⟨(name, v), hm, rfl⟩
    exact ⟨trivial, Cell.exact (hs.property_valid _ hm) (hw.1 id _ hm) rfl, trivial⟩
  | values id =>
    obtain ⟨vs, hvs, rfl⟩ := Option.map_eq_some_iff.1 h
    have hcells := mapM_value?_eq_some.1 hvs
    refine Result.itemsExact_iff.2 fun r hr => ?_
    obtain ⟨v, hv, rfl⟩ := List.mem_map.1 hr
    have hm : Cell.value v ∈ (w.array id).cells := hcells ▸ List.mem_map.2 ⟨v, hv, rfl⟩
    exact Cell.exact (hs.cell_valid _ hm) (hw.2 id _ hm) rfl
  | size x =>
    cases x with
    | object id =>
      obtain rfl := Option.some.inj h
      trivial
    | array id =>
      obtain rfl := Option.some.inj h
      trivial
    | memo n => cases h
  | memo n => exact absurd rfl (direct n)

end Shown

def ExactReads (history : List Event) : Prop :=
  ∀ x read r, .saw x read r ∈ history → (∀ n, read ≠ .memo n) → r.Exact

theorem Step.exactReads {c c' : Config} (h : Step c c') (hc : c.Sane) (ho : c.Orderly)
    (hrec : c.Recorded)
    (hw : c.world.Unsigned) (he : ExactReads c.world.history) (hp : c'.world.MemosPure)
    (hr : c'.world.Regular) : ExactReads c'.world.history := by
  rcases h.passes_or_recalls hc hrec.secluded hrec.unwinding ho.started hp hr with hpass | hrecall
  · obtain ⟨new, hh, hnew⟩ := hpass.world.past
    intro x read r hm direct
    rw [hh] at hm
    rcases List.mem_append.1 hm with hm | hm
    · exact Read.exact_of_shown hc.world hw direct (hnew _ hm).2
    · exact he x read r hm direct
  · intro x read r hm direct
    refine he x read r ?_ direct
    cases hrecall with
    | dirties bare bare' past =>
      rcases past with ⟨rfl, -⟩ | rfl
      · exact hm
      · exact (List.mem_cons.1 hm).resolve_left nofun
    | reuses =>
      rw [World.history_note, World.history_trackedIn] at hm
      have hm := (List.mem_cons.1 hm).resolve_left nofun
      exact (List.mem_append.1 hm).resolve_left (by simp)
    | begins =>
      rw [World.history_computing, World.history_trackedIn] at hm
      have hm := (List.mem_cons.1 ((List.mem_cons.1 hm).resolve_left nofun)).resolve_left nofun
      exact (List.mem_append.1 hm).resolve_left (by simp)
    | ends => exact (List.mem_cons.1 hm).resolve_left nofun
    | @gets w g n reader =>
      rw [World.history_gotBy] at hm
      have hm := (List.mem_cons.1 hm).resolve_left nofun
      refine (List.mem_append.1 hm).resolve_left fun hs => ?_
      obtain ⟨_, -, heq⟩ := Option.map_eq_some_iff.1 (Option.mem_toList.1 hs)
      exact direct n (Event.saw.inj heq).2.1.symm

theorem Config.start_unsigned (settings : Settings) (hook : Hook) :
    (Config.start settings hook).world.Unsigned :=
  ⟨fun _ _ hp => (nomatch hp), fun _ _ hc => (nomatch hc)⟩

/-- Where memos are pure and no container ever holds a negative zero, what has been read is written
down to the bit. -/
theorem Reaches.recorded {settings : Settings} {hook : Hook} {c : Config}
    (h : Reaches (.start settings hook) c) (one : c.world.runtimes.size = 1)
    (pure : c.world.MemosPure) (regular : c.world.Regular)
    (unsigned : UnsignedPast c.world.history) :
    c.Recorded ∧ c.world.Unsigned ∧ ExactReads c.world.history := by
  induction h with
  | refl =>
    exact ⟨Config.start_recorded settings hook, Config.start_unsigned settings hook, nofun⟩
  | @tail c c' steps step ih =>
    have he := step.extends
    have hc : c.Sane := steps.sane (Config.start_sane settings hook)
    have hregular := regular.of_extends he
    obtain ⟨ho, hs, -⟩ := steps.settled hregular
    have hone : c.world.runtimes.size = 1 :=
      Nat.le_antisymm (one ▸ he.size_le) (steps.extends.size_le : 1 ≤ _)
    obtain ⟨hrec, hunsigned, hexact⟩ := ih hone (pure.of_extends he) hregular
      (unsigned.of_suffix he.history)
    exact ⟨step.recorded hc ho hs hrec one pure regular, step.unsigned hunsigned unsigned,
      step.exactReads hc ho hrec hunsigned hexact pure regular⟩

end Reactivity
