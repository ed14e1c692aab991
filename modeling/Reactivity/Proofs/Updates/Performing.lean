import Reactivity.Proofs.Run.Computing
import Reactivity.Proofs.Run.Reading

namespace Reactivity

def Read.perform (k : Kernel) : Read → Act Result
  | .property id name => return .ofValue? (← id.read name)
  | .contains id name => return .ofBool (← id.contains name)
  | .names id => return .list ((← id.keys).map .ofString)
  | .entries id => return .ofEntries (← id.entries)
  | .slot id i => return .ofValue? (← id.read i)
  | .values id => return .list ((← id.values).map .value)
  | .size (.object id) => return .plain (.int (← id.length))
  | .size (.array id) => return .plain (.int (← id.length))
  | .size (.memo _) => return .nothing
  | .memo n => readMemo k n

section Shown

variable {w : World}

theorem mapM_toValue (rt : RuntimeId) (vs : List Value) (w : World) :
    ((vs.map Cell.value).mapM (·.toValue rt) : Change (List Value)).run w = (vs, w) := by
  induction vs with
  | nil => rfl
  | cons v vs ih =>
    rw [List.map_cons, List.mapM_cons, Change.run_bind, Change.run_bind]
    simp only [Cell.toValue]
    erw [ih]
    rfl

theorem mapM_entry (rt : RuntimeId) (vs : List (String × Value)) (w : World) :
    ((vs.map fun p => (p.1, Cell.value p.2)).mapM
      fun (name, cell) => return (name, ← cell.toValue rt) :
        Change (List (String × Value))).run w = (vs, w) := by
  induction vs with
  | nil => rfl
  | cons p vs ih =>
    rw [List.map_cons, List.mapM_cons, Change.run_bind, Change.run_bind]
    simp only [Cell.toValue]
    erw [ih]
    rfl

theorem ObjectId.fst_run_peek {id : ObjectId} {name : String} {r : Result}
    (h : Cell.shown? ((w.object id).properties.lookup name) = some r) :
    Result.ofValue? ((id.peek name).run w).1 = r := by
  rw [peek, Change.run_bind, Change.run_get]
  cases hl : (w.object id).properties.lookup name with
  | none =>
    rw [hl] at h
    simp only [hl]
    exact Option.some.inj h
  | some c =>
    rw [hl] at h
    cases c with
    | plain j => cases h
    | value v =>
      simp only [hl]
      exact Option.some.inj h

/-- What is read is what stands there after the read has been tracked; noting it changes nothing. -/
theorem ObjectId.fst_run_read (id : ObjectId) (name : String) (w : World) :
    ((id.read name).run w).1 =
      ((id.peek name).run (w.trackedIn (w.object id).runtime (.object id) (.property name))).1 := by
  rw [ObjectId.read, Change.run_bind, Change.run_get, Change.run_bind, run_track, Change.run_bind]
  rfl

theorem ArrayId.fst_run_read (id : ArrayId) (i : Nat) (w : World) :
    ((id.read i).run w).1 =
      ((id.peek i).run (w.trackedIn (w.array id).runtime (.array id) (.index i))).1 := by
  rw [ArrayId.read, Change.run_bind, Change.run_get, Change.run_bind, run_track, Change.run_bind]
  rfl

theorem ArrayId.fst_run_peek {id : ArrayId} {i : Nat} {r : Result}
    (h : Cell.shown? (w.array id).cells[i]? = some r) :
    Result.ofValue? ((id.peek i).run w).1 = r := by
  rw [peek, Change.run_bind, Change.run_get]
  cases hl : (w.array id).cells[i]? with
  | none =>
    rw [hl] at h
    simp only [hl]
    exact Option.some.inj h
  | some c =>
    rw [hl] at h
    cases c with
    | plain j => cases h
    | value v =>
      simp only [hl]
      exact Option.some.inj h

theorem ArrayId.fst_run_contents {id : ArrayId} {vs : List Value}
    (h : (w.array id).cells = vs.map .value) : ((contents id).run w).1 = vs := by
  rw [contents, Change.run_bind, Change.run_get]
  simp only [h]
  rw [Change.run_bind, mapM_toValue]
  rfl

theorem ArrayId.fst_run_values (id : ArrayId) (w : World) : ((values id).run w).1 =
    ((contents id).run (w.trackedIn (w.array id).runtime (.array id) .shape)).1 := by
  rw [values, Change.run_bind, Change.run_get, Change.run_bind, run_track, Change.run_bind]
  generalize (contents id).run _ = o
  rw [Change.run_bind, Change.run_bind]
  rfl

end Shown

theorem Read.run_perform {read : Read} {w : World} {r : Result} (h : read.shown w = some r)
    (depth : Nat) : ((read.perform (kernel depth)).run.run w).1 = .ok r := by
  have content (rt : RuntimeId) (x : Handle) (key : Key) := World.SameContent.trackedIn w rt x key
  cases read with
  | property id name =>
    rw [perform, Act.run_lift_bind]
    refine congrArg Except.ok ?_
    have hpeek : Cell.shown? (((w.trackedIn (w.object id).runtime (.object id)
        (.property name)).object id).properties.lookup name) = some r := by
      rwa [(content ..).1]
    exact (congrArg Result.ofValue? (id.fst_run_read name w)).trans (ObjectId.fst_run_peek hpeek)
  | contains id name =>
    rw [perform, Act.run_lift_bind]
    refine congrArg Except.ok ?_
    rw [ObjectId.contains, Change.run_bind, Change.run_get, Change.run_bind, run_track,
      Change.run_bind, Change.run_get]
    simp only [(content ..).1]
    exact Option.some.inj h
  | names id =>
    rw [perform, Act.run_lift_bind]
    refine congrArg Except.ok ?_
    rw [ObjectId.keys, Change.run_bind, Change.run_get, Change.run_bind, run_track,
      Change.run_bind, Change.run_get]
    simp only [(content ..).1]
    exact Option.some.inj h
  | entries id =>
    obtain ⟨vs, hvs, hr⟩ := Option.map_eq_some_iff.1 h
    rw [perform, Act.run_lift_bind]
    refine congrArg Except.ok (Eq.trans ?_ hr)
    rw [ObjectId.entries, Change.run_bind, Change.run_get, Change.run_bind, run_track,
      Change.run_bind, Properties.values?_eq_some.1 hvs, mapM_entry]
    rfl
  | slot id i =>
    rw [perform, Act.run_lift_bind]
    refine congrArg Except.ok ?_
    have hpeek : Cell.shown? ((w.trackedIn (w.array id).runtime (.array id)
        (.index i)).array id).cells[i]? = some r := by
      rwa [(content ..).2]
    exact (congrArg Result.ofValue? (id.fst_run_read i w)).trans (ArrayId.fst_run_peek hpeek)
  | values id =>
    obtain ⟨vs, hvs, hr⟩ := Option.map_eq_some_iff.1 h
    rw [perform, Act.run_lift_bind]
    refine congrArg Except.ok (Eq.trans ?_ hr)
    have hcells := ((content (w.array id).runtime (.array id) .shape).2 id).trans
      (mapM_value?_eq_some.1 hvs)
    have hvalues := (ArrayId.fst_run_values id w).trans (ArrayId.fst_run_contents hcells)
    exact congrArg (fun vs => Result.list (vs.map .value)) hvalues
  | size x =>
    cases x with
    | object id =>
      rw [perform, Act.run_lift_bind]
      refine congrArg Except.ok ?_
      rw [ObjectId.length, Change.run_bind, Change.run_get, Change.run_bind, run_track,
        Change.run_bind, Change.run_get]
      simp only [(content ..).1]
      exact Option.some.inj h
    | array id =>
      rw [perform, Act.run_lift_bind]
      refine congrArg Except.ok ?_
      rw [ArrayId.length, Change.run_bind, Change.run_get, Change.run_bind, run_track,
        Change.run_bind, Change.run_get]
      simp only [(content ..).2]
      exact Option.some.inj h
    | memo m => cases h
  | memo n =>
    obtain ⟨m, hm, hr⟩ := Option.bind_eq_some_iff.1 h
    have hd : m.dirty = false := by
      cases hd : m.dirty with
      | false => rfl
      | true => simp [hd] at hr
    rw [hd, if_neg Bool.false_ne_true] at hr
    rw [perform, readMemo, Act.run_get_bind]
    simp only [hm, hd, hr, kernel_observe]
    rfl

end Reactivity
