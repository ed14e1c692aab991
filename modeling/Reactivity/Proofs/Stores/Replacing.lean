import Reactivity.Proofs.Registration.Covering
import Reactivity.Proofs.Stores.Rewriting

namespace Reactivity

/-- Whether a property is another one after it has been replaced by a member of JSON: removed, added
or with another value. A container is always another value. -/
def changedProperty : Option Cell → Option Json → Bool
  | none, none => false
  | some cell, some j => j.isContainer || !cell.holds (.ofPrimitive j)
  | _, _ => true

theorem World.Copies.isReactive {w : World} {v : Value} {j : Json} (h : w.Copies v j) :
    v.isReactive := by
  cases v with
  | object i => rfl
  | array i => rfl
  | _ => exact h.elim

theorem wrap_primitive {j : Json} (h : j.isContainer = false) (rt : RuntimeId) (w : World) :
    (wrap rt j).run w = (.ofPrimitive j, w) := by
  cases j with
  | array items => cases h
  | object members => cases h
  | _ => rfl

theorem wrap_container {j : Json} (h : j.isContainer) (rt : RuntimeId) (w : World) :
    ¬ ((wrap rt j).run w).1.Valid w ∧ ((wrap rt j).run w).1.Valid ((wrap rt j).run w).2 ∧
      ((wrap rt j).run w).2.Copies ((wrap rt j).run w).1 j := by
  cases j with
  | object members =>
    refine ⟨Nat.lt_irrefl _, ?_, ?_⟩
    · show w.objects.size < (w.objects.push _).size
      simp
    · show ((w.objects.push _)[w.objects.size]?.getD _).properties = _
      rw [Array.getElem?_push_size]
      rfl
  | array items =>
    refine ⟨Nat.lt_irrefl _, ?_, ?_⟩
    · show w.arrays.size < (w.arrays.push _).size
      simp
    · show ((w.arrays.push _)[w.arrays.size]?.getD _).cells = _
      rw [Array.getElem?_push_size]
      rfl
  | _ => cases h

/-- Containers with the content of the same JSON have the same JSON, wherever they are. -/
theorem World.Copies.toJson_eq {w w' : World} {v v' : Value} {j : Json} (h : w.Copies v j)
    (h' : w'.Copies v' j) : w.toJson v = w'.toJson v' := by
  have cell (i : Json) (d d' : Nat) :
      (Cell.ofJson i).jsonBy (w.jsonAt d) = (Cell.ofJson i).jsonBy (w'.jsonAt d') := by
    cases i <;> simp [Cell.ofJson, Json.isContainer, Cell.jsonBy, Value.ofPrimitive, jsonAt]
  cases j with
  | object members =>
    cases v with
    | object i =>
      cases v' with
      | object i' =>
        have hps : (w.object i).properties = _ := h
        have hps' : (w'.object i').properties = _ := h'
        simp only [toJson, jsonAt, hps, hps', List.map_map]
        refine congrArg Json.ofMembers (List.map_congr_left fun p _ => ?_)
        exact congrArg (Prod.mk p.1) (cell p.2 _ _)
      | _ => exact h'.elim
    | _ => exact h.elim
  | array items =>
    cases v with
    | array i =>
      cases v' with
      | array i' =>
        have hcs : (w.array i).cells = _ := h
        have hcs' : (w'.array i').cells = _ := h'
        simp only [toJson, jsonAt, hcs, hcs', List.map_map]
        exact congrArg Json.array (List.map_congr_left fun i _ => cell i _ _)
      | _ => exact h'.elim
    | _ => exact h.elim
  | _ => cases v <;> exact h.elim

section Members

variable {depth : Nat} {w w' : World} {id : ObjectId}

theorem run_removeAll (observe : Act Unit) (names : List String) (hid : id < w.objects.size)
    (patient : (w.runtime (w.object id).runtime).hook ≠ .flush) (deep : w.clean.card ≤ depth) :
    ∃ keys w', (names.forM fun name => do
        let _ ← id.remove (observedKernel observe depth) name : Act Unit).run.run w = (.ok (), w') ∧
      w.Rewritten id ((w.object id).properties.filter (·.1 ∉ names)) keys w' ∧
      ∀ key, key ∈ keys ↔
        ∃ name ∈ names, name ∈ (w.object id).properties.names ∧
          (key = .property name ∨ key = .shape) := by
  induction names generalizing w with
  | nil =>
    refine ⟨[], w, rfl, ?_, by simp⟩
    simpa using World.Rewritten.refl w id
  | cons name names ih =>
    obtain ⟨v, w₁, hrun₁, hw₁⟩ := run_removeProperty observe name hid patient deep
    obtain ⟨hid₁, hruntime, -⟩ := hw₁.objects id hid
    obtain ⟨keys, w₂, hrun₂, hw₂, hkeys⟩ := ih hid₁ (by rwa [hruntime, hw₁.hook])
      ((Finset.card_le_card hw₁.clean).trans deep)
    rw [hw₁.properties] at hw₂ hkeys
    have hfilter : ((w.object id).properties.remove name).filter (·.1 ∉ names) =
        (w.object id).properties.filter (·.1 ∉ name :: names) := by
      simp [Properties.remove, List.filter_filter, not_or, Bool.and_comm]
    refine ⟨_, w₂, ?_, hfilter ▸ hw₁.trans hw₂, fun key => ?_⟩
    · rw [List.forM_eq_forM, List.forM_cons, Act.run_bind, Act.run_bind, hrun₁]
      exact hrun₂
    · rw [List.mem_append, hkeys, Properties.mem_removeKeys, Properties.names_remove]
      simp only [List.mem_filter, List.exists_mem_cons_iff, decide_eq_true_eq]
      constructor
      · rintro (h | ⟨other, hm, ⟨hn, -⟩, hkey⟩)
        · exact .inl h
        · exact .inr ⟨other, hm, hn, hkey⟩
      · rintro (h | ⟨other, hm, hn, hkey⟩)
        · exact .inl h
        · by_cases heq : other = name
          · exact .inl (heq ▸ ⟨hn, hkey⟩)
          · exact .inr ⟨other, hm, ⟨hn, heq⟩, hkey⟩

/-- `w.Stores w' v j`: the value is the JSON, or a container made since with the content of it. -/
def World.Stores (w w' : World) (v : Value) (j : Json) : Prop :=
  if j.isContainer then ¬ v.Valid w ∧ v.Valid w' ∧ w'.Copies v j else v.same (.ofPrimitive j)

/-- `w.Assigned members old ps keys w'`: the members have been assigned to the properties that there
were, and the keys are those of what has changed by that. -/
structure World.Assigned (w : World) (members : List (String × Json)) (old ps : Properties)
    (keys : List Key) (w' : World) : Prop where
  names : ps.names = old.names ++ (members.map (·.1)).filter (· ∉ old.names)
  kept : ∀ name ∉ members.map (·.1), ps.lookup name = old.lookup name
  held : ∀ p ∈ members, ∃ v, ps.lookup p.1 = some (.value v) ∧ w.Stores w' v p.2
  apart : ∀ name name' v, ps.lookup name = some (.value v) → ps.lookup name' = some (.value v) →
    v.isReactive → ¬ v.Valid w → name = name'
  keys : ∀ key, key ∈ keys ↔ ∃ p ∈ members,
    (key = .property p.1 ∧ changedProperty (old.lookup p.1) (some p.2)) ∨
      key = .shape ∧ p.1 ∉ old.names

theorem World.Stores.not_valid {v : Value} {j : Json} (h : w.Stores w' v j) (hv : v.isReactive) :
    ¬ v.Valid w := by
  rw [World.Stores] at h
  split at h
  · exact h.1
  · next hj =>
    have hne : ∀ x, v ≠ .number x := by
      rintro x rfl
      cases hv
    obtain rfl := Value.eq_of_same h hne
    cases j <;> cases hv

theorem World.Rewritten.stores_before {ps : Properties} {keys : List Key} {w₁ : World}
    (h : w.Rewritten id ps keys w₁) {v : Value} {j : Json}
    (hv : w₁.Stores w' v j) : w.Stores w' v j := by
  rw [World.Stores] at hv ⊢
  split
  · next hj =>
    rw [if_pos hj] at hv
    exact ⟨fun hw => hv.1 (h.valid hw), hv.2⟩
  · next hj => rwa [if_neg hj] at hv

theorem World.Rewritten.stores_after {ps : Properties} {keys : List Key} {w₁ : World}
    (h : w₁.Rewritten id ps keys w') (hid : id < w.objects.size) {v : Value} {j : Json}
    (hv : w.Stores w₁ v j) : w.Stores w' v j := by
  rw [World.Stores] at hv ⊢
  split
  · next hj =>
    rw [if_pos hj] at hv
    obtain ⟨hfresh, hvalid, hcopies⟩ := hv
    exact ⟨hfresh, h.valid hvalid, h.copies hvalid (fun heq => hfresh (heq ▸ hid)) hcopies⟩
  · next hj => rwa [if_neg hj] at hv

theorem run_assignMember (observe : Act Unit) (name : String) (j : Json)
    (hid : id < w.objects.size) (patient : (w.runtime (w.object id).runtime).hook ≠ .flush)
    (deep : w.clean.card ≤ depth) (valid : ∀ p ∈ (w.object id).properties, p.2.Valid w) :
    ∃ v w', (do
        let v ← wrap ((← get).object id).runtime j
        id.set (observedKernel observe depth) name v : Act Unit).run.run w = (.ok (), w') ∧
      w.Rewritten id ((w.object id).properties.assign name v)
        ((w.object id).properties.assignKeys name v) w' ∧
      v.Valid w' ∧ (∀ u, u.same v → w.Stores w' u j) ∧
      ((∀ cell, (w.object id).properties.lookup name = some cell → cell.holds v = false) ↔
        changedProperty ((w.object id).properties.lookup name) (some j)) := by
  have hw₁ := World.Rewritten.wrap (w := w) (w.object id).runtime j hid
  obtain ⟨hid₁, hruntime, -⟩ := hw₁.objects id hid
  obtain ⟨w', hrun, hw'⟩ := run_setProperty observe name
    ((wrap (w.object id).runtime j).run w).1 hid₁ (by rwa [hruntime, hw₁.hook])
    ((Finset.card_le_card hw₁.clean).trans deep)
  rw [hw₁.properties] at hw'
  refine ⟨((wrap (w.object id).runtime j).run w).1, w', hrun, hw₁.trans hw', ?_⟩
  cases hj : j.isContainer with
  | true =>
    obtain ⟨hfresh, hvalid, hcopies⟩ := wrap_container hj (w.object id).runtime w
    generalize ((wrap (w.object id).runtime j).run w).1 = v at *
    refine ⟨hw'.valid hvalid, fun u hu => ?_, ?_⟩
    · have hv := hcopies.isReactive
      obtain rfl : u = v := by
        refine Value.eq_of_same (Value.same_comm u v ▸ hu) ?_
        rintro x rfl
        cases hv
      rw [World.Stores, if_pos hj]
      exact ⟨hfresh, hw'.valid hvalid, hw'.copies hvalid (fun heq => hfresh (heq ▸ hid)) hcopies⟩
    · cases hl : (w.object id).properties.lookup name with
      | none => simp [changedProperty]
      | some cell =>
        have hcell := valid _ (mem_of_lookup hl)
        have hholds : cell.holds v = false := by
          cases cell with
          | value u =>
            rw [Cell.holds, Value.same_comm]
            exact same_eq_false_of_fresh hcopies.isReactive hfresh hcell
          | plain i => rfl
        simp [changedProperty, hj, hholds]
  | false =>
    have hwrap := wrap_primitive hj (w.object id).runtime w
    rw [hwrap] at hw' ⊢
    refine ⟨hw'.valid (Value.ofPrimitive_valid w j), fun u hu => ?_, ?_⟩
    · rwa [World.Stores, if_neg (Bool.eq_false_iff.1 hj)]
    · cases (w.object id).properties.lookup name with
      | none => simp [changedProperty]
      | some cell => simp [changedProperty, hj]

theorem World.Assigned.nil (w : World) (old : Properties) (valid : ∀ p ∈ old, p.2.Valid w) :
    w.Assigned [] old old [] w where
  names := by simp
  kept _ _ := rfl
  held := by simp
  apart name name' v h _ _ fresh := absurd (valid _ (mem_of_lookup h)) fresh
  keys := by simp

theorem World.Assigned.cons {members : List (String × Json)} {old ps : Properties} {keys : List Key}
    {name : String} {j : Json} {v : Value} {w₁ w₂ : World} (hid : id < w.objects.size)
    (hw₁ : w.Rewritten id (old.assign name v) (old.assignKeys name v) w₁)
    (hw₂ : w₁.Rewritten id ps keys w₂) (rest : w₁.Assigned members (old.assign name v) ps keys w₂)
    (hname : name ∉ members.map (·.1)) (valid : ∀ p ∈ old, p.2.Valid w)
    (stores : ∀ u, u.same v → w.Stores w₁ u j)
    (changes : (∀ cell, old.lookup name = some cell → cell.holds v = false) ↔
      changedProperty (old.lookup name) (some j)) :
    w.Assigned ((name, j) :: members) old ps (old.assignKeys name v ++ keys) w₂ := by
  have hne {p : String × Json} (hp : p ∈ members) : p.1 ≠ name := by
    rintro rfl
    exact hname (List.mem_map_of_mem hp)
  have hold {p : String × Json} (hp : p ∈ members) :
      p.1 ∈ (old.assign name v).names ↔ p.1 ∈ old.names := by
    rw [Properties.mem_names, Properties.mem_names, Properties.lookup_assign_of_ne (hne hp)]
  have hself : ps.lookup name = (old.assign name v).lookup name := rest.kept name hname
  constructor
  · have hfilter : (members.map (·.1)).filter (· ∉ (old.assign name v).names) =
        (members.map (·.1)).filter (· ∉ old.names) := by
      refine List.filter_congr fun other hother => ?_
      obtain ⟨p, hp, rfl⟩ := List.mem_map.1 hother
      simp only [hold hp]
    rw [rest.names, hfilter, Properties.names_assign, List.map_cons, List.filter_cons,
      List.append_assoc]
    by_cases hm : name ∈ old.names <;> simp [hm]
  · intro other hother
    rw [List.map_cons, List.mem_cons, not_or] at hother
    rw [rest.kept other hother.2, Properties.lookup_assign_of_ne hother.1]
  · rw [List.forall_mem_cons]
    constructor
    · obtain ⟨u, hu, hsame⟩ := old.lookup_assign_self name v
      exact ⟨u, hself.trans hu, hw₂.stores_after hid (stores u hsame)⟩
    · intro p hp
      obtain ⟨u, hu, hstores⟩ := rest.held p hp
      exact ⟨u, hu, hw₁.stores_before hstores⟩
  · intro name₁ name₂ u h₁ h₂ hu fresh
    by_cases hmade : u.Valid w₁
    · have first {other : String} (ho : ps.lookup other = some (.value u)) : other = name := by
        by_contra hother
        by_cases hm : other ∈ members.map (·.1)
        · obtain ⟨p, hp, rfl⟩ := List.mem_map.1 hm
          obtain ⟨u', hu', hstores⟩ := rest.held p hp
          obtain rfl : u = u' := Cell.value.inj (Option.some.inj (ho.symm.trans hu'))
          exact hstores.not_valid hu hmade
        · rw [rest.kept other hm, Properties.lookup_assign_of_ne hother] at ho
          exact fresh (valid _ (mem_of_lookup ho))
      rw [first h₁, first h₂]
    · exact rest.apart name₁ name₂ u h₁ h₂ hu hmade
  · intro key
    rw [List.mem_append, rest.keys, Properties.mem_assignKeys, changes, List.exists_mem_cons_iff]
    refine or_congr .rfl (exists_congr fun p => and_congr_right fun hp => ?_)
    rw [hold hp, Properties.lookup_assign_of_ne (hne hp)]

theorem run_assignMembers (observe : Act Unit) (members : List (String × Json))
    (nodup : (members.map (·.1)).Nodup) (hid : id < w.objects.size)
    (patient : (w.runtime (w.object id).runtime).hook ≠ .flush) (deep : w.clean.card ≤ depth)
    (valid : ∀ p ∈ (w.object id).properties, p.2.Valid w) :
    ∃ ps keys w', (assignMembers (observedKernel observe depth) id members).run.run w =
        (.ok (), w') ∧
      w.Rewritten id ps keys w' ∧ w.Assigned members (w.object id).properties ps keys w' := by
  induction members generalizing w with
  | nil => exact ⟨_, _, w, rfl, .refl w id, .nil w _ valid⟩
  | cons p members ih =>
    obtain ⟨name, j⟩ := p
    obtain ⟨v, w₁, hrun₁, hw₁, hv, hstores, hchanges⟩ :=
      run_assignMember observe name j hid patient deep valid
    obtain ⟨hid₁, hruntime, -⟩ := hw₁.objects id hid
    obtain ⟨hname, nodup⟩ := List.nodup_cons.1 nodup
    have valid₁ : ∀ p ∈ (w₁.object id).properties, p.2.Valid w₁ := by
      intro p hp
      rw [hw₁.properties] at hp
      rcases Properties.mem_assign hp with hp | hp
      · exact hw₁.valid_cell (valid p hp)
      · rw [hp]
        exact hv
    obtain ⟨ps, keys, w₂, hrun₂, hw₂, hassigned⟩ := ih nodup hid₁ (by rwa [hruntime, hw₁.hook])
      ((Finset.card_le_card hw₁.clean).trans deep) valid₁
    rw [hw₁.properties] at hassigned
    refine ⟨ps, _, w₂, ?_, hw₁.trans hw₂,
      .cons hid hw₁ hw₂ hassigned hname valid hstores hchanges⟩
    rw [assignMembers, List.forM_eq_forM, List.forM_cons, Act.run_bind, hrun₁]
    exact hrun₂

end Members

section State

variable {depth : Nat} {w : World}

theorem currentReader_pushContext_none (w : World) (rt : RuntimeId) :
    (w.pushContext rt none).currentReader rt = none := by
  rw [World.currentReader, World.pushContext, World.runtime_modifyRuntime]
  split
  · rfl
  · next h =>
    have hnone : w.runtimes[rt]? = none := Array.getElem?_eq_none (by simpa using h)
    rw [World.runtime, hnone]
    rfl

theorem run_untracked_keys {rt : RuntimeId} {id : ObjectId} (hrt : (w.object id).runtime = rt) :
    (untracked rt (liftM id.keys) : Act (List String)).run.run w =
      (.ok (w.object id).properties.names, w) := by
  have hnobody := currentReader_pushContext_none w rt
  have hruntime : ((w.pushContext rt none).object id).runtime = rt := hrt
  have hkeys : id.keys.run (w.pushContext rt none) =
      ((w.object id).properties.names, w.pushContext rt none) := by
    simp only [ObjectId.keys, Change.run_bind, Change.run_get, run_track, run_noteRead, hruntime,
      World.trackedIn, hnobody]
    rfl
  have hpop : (untracked rt (liftM id.keys) : Act (List String)).run.run w =
      (.ok (id.keys.run (w.pushContext rt none)).1,
        (id.keys.run (w.pushContext rt none)).2.popContext rt) := rfl
  rw [hpop, hkeys, World.popContext_pushContext]

theorem Properties.lookup_filter (ps : Properties) (q : String → Bool) (name : String) :
    (ps.filter (q ·.1)).lookup name = if q name then ps.lookup name else none := by
  induction ps with
  | nil => simp
  | cons p ps ih =>
    obtain ⟨k, c⟩ := p
    rw [List.filter_cons]
    by_cases hk : name = k
    · subst hk
      cases hq : q name with
      | true => simp
      | false => simpa [hq] using ih
    · split
      · rw [List.lookup_cons, List.lookup_cons, beq_false_of_ne hk]
        exact ih
      · rw [List.lookup_cons, beq_false_of_ne hk]
        exact ih

theorem mem_stale {names : List String} {members : List (String × Json)} {name : String} :
    name ∈ names.filter (fun name => !members.any (·.1 == name)) ↔
      name ∈ names ∧ name ∉ members.map (·.1) := by
  have hany : members.any (·.1 == name) = decide (name ∈ members.map (·.1)) := by
    rw [Bool.eq_iff_iff]
    simp [List.any_eq_true]
  rw [List.mem_filter, hany, Bool.not_eq_true', decide_eq_false_iff_not]

def Properties.retained (ps : Properties) (members : List (String × Json)) : Properties :=
  ps.filter fun p => decide (p.1 ∈ members.map (·.1))

theorem Properties.filter_stale (ps : Properties) (members : List (String × Json)) :
    ps.filter (·.1 ∉ ps.names.filter fun name => !members.any (·.1 == name)) =
      ps.retained members := by
  refine List.filter_congr fun p hp => ?_
  have hm : p.1 ∈ ps.names := List.mem_map_of_mem hp
  rw [decide_eq_decide, mem_stale, not_and, not_not]
  exact ⟨fun h => h hm, fun h _ => h⟩

theorem Properties.names_filter (ps : Properties) (q : String → Bool) :
    Properties.names (ps.filter (q ·.1)) = ps.names.filter q := by
  rw [names, names, List.filter_map]
  rfl

/-- `w.Replaced state members w'`: the members have replaced the properties of the object. Those
that stay keep their order, and the others follow in the order of the members. Values are the same,
and containers are new ones, each in its place only. Of containers, the object alone is triggered:
the properties that are other ones now, and the shape if the names are others. -/
structure World.Replaced (w : World) (state : ObjectId) (members : List (String × Json))
    (w' : World) : Prop where
  exact : ∀ name, name ∈ (w'.object state).properties.names ↔ name ∈ members.map (·.1)
  names : (w'.object state).properties.names =
    (w.object state).properties.names.filter (· ∈ members.map (·.1)) ++
      (members.map (·.1)).filter (· ∉ (w.object state).properties.names)
  primitive : ∀ name j, (name, j) ∈ members → j.isContainer = false →
    ∃ v, (w'.object state).properties.lookup name = some (.value v) ∧ v.same (.ofPrimitive j)
  container : ∀ name j, (name, j) ∈ members → j.isContainer →
    ∃ v, (w'.object state).properties.lookup name = some (.value v) ∧ ¬ v.Valid w ∧ v.Valid w' ∧
      (∀ other, (w'.object state).properties.lookup other = some (.value v) → other = name) ∧
      ∀ rt w₀, w'.toJson v = ((wrap rt j).run w₀).2.toJson ((wrap rt j).run w₀).1
  triggered : ∃ new, w'.history = new ++ w.history ∧
    (∀ name, .triggered (.object state) (.property name) ∈ new ↔
      changedProperty ((w.object state).properties.lookup name) (members.lookup name)) ∧
    (.triggered (.object state) .shape ∈ new ↔
      ¬ ∀ name, name ∈ (w.object state).properties.names ↔ name ∈ members.map (·.1)) ∧
    ∀ h key, .triggered h key ∈ new → (∃ n, h = .memo n) ∨
      h = .object state ∧ (key = .shape ∨ ∃ name, key = .property name)

/-- Without a member of its name, a property is another one if it is there. -/
theorem changedProperty_none (ps : Properties) (name : String) :
    changedProperty (ps.lookup name) none = decide (name ∈ ps.names) := by
  rw [Bool.eq_iff_iff, decide_eq_true_iff, Properties.mem_names]
  cases ps.lookup name <;> simp [changedProperty]

section Replaced

variable {state : ObjectId} {members : List (String × Json)} {old ps : Properties}
variable {keys keys' : List Key} {w₁ w' : World}

theorem Properties.mem_names_retained {name : String} :
    name ∈ (old.retained members).names ↔ name ∈ old.names ∧ name ∈ members.map (·.1) := by
  have hnames := Properties.names_filter old fun name => decide (name ∈ members.map (·.1))
  rw [retained, hnames, List.mem_filter, decide_eq_true_iff]

theorem Properties.lookup_retained {name : String} (h : name ∈ members.map (·.1)) :
    (old.retained members).lookup name = old.lookup name := by
  have hlookup := Properties.lookup_filter old (fun name => decide (name ∈ members.map (·.1))) name
  rwa [if_pos (decide_eq_true h)] at hlookup

variable (stale : ∀ key, key ∈ keys ↔ ∃ name ∈ old.names,
  name ∉ members.map (·.1) ∧ (key = .property name ∨ key = .shape))
variable (assigned : w₁.Assigned members (old.retained members) ps keys' w')
include stale assigned

/-- The keys of properties are those of the removed ones, and of those that were assigned anew. -/
theorem property_mem_keys_iff (nodup : (members.map (·.1)).Nodup) (name : String) :
    .property name ∈ keys ++ keys' ↔
      changedProperty (old.lookup name) (members.lookup name) := by
  rw [List.mem_append, stale, assigned.keys]
  simp only [Key.property.injEq, reduceCtorEq, or_false, false_and]
  cases hl : members.lookup name with
  | none =>
    have hno : name ∉ members.map (·.1) := by
      intro hm
      obtain ⟨p, hp, rfl⟩ := List.mem_map.1 hm
      rw [lookup_of_mem nodup hp] at hl
      cases hl
    rw [changedProperty_none, decide_eq_true_iff]
    constructor
    · rintro (⟨other, hm, -, rfl⟩ | ⟨p, hp, rfl, -⟩)
      · exact hm
      · exact absurd (List.mem_map_of_mem hp) hno
    · exact fun hm => .inl ⟨name, hm, hno, rfl⟩
  | some j =>
    have hj := mem_of_lookup hl
    have hm : name ∈ members.map (·.1) := List.mem_map.2 ⟨_, hj, rfl⟩
    constructor
    · rintro (⟨other, -, hno, rfl⟩ | ⟨p, hp, rfl, hchanged⟩)
      · exact absurd hm hno
      · obtain rfl : p.2 = j := Option.some.inj ((lookup_of_mem nodup hp).symm.trans hl)
        rwa [Properties.lookup_retained hm] at hchanged
    · intro hchanged
      refine .inr ⟨_, hj, rfl, ?_⟩
      rwa [Properties.lookup_retained hm]

theorem shape_mem_keys_iff :
    .shape ∈ keys ++ keys' ↔ ¬ ∀ name, name ∈ old.names ↔ name ∈ members.map (·.1) := by
  rw [List.mem_append, stale, assigned.keys]
  simp only [reduceCtorEq, false_and, false_or, true_and, or_true, and_true,
    Properties.mem_names_retained]
  constructor
  · rintro (⟨name, hm, hno⟩ | ⟨p, hp, hno⟩) hsame
    · exact hno ((hsame name).1 hm)
    · have hm : p.1 ∈ members.map (·.1) := List.mem_map_of_mem hp
      exact hno ⟨(hsame p.1).2 hm, hm⟩
  · intro hother
    by_contra hn
    push Not at hn
    refine hother fun name => ⟨hn.1 name, fun hm => ?_⟩
    obtain ⟨p, hp, rfl⟩ := List.mem_map.1 hm
    exact (hn.2 p hp).1

theorem mem_keys_cases {key : Key} (h : key ∈ keys ++ keys') :
    key = .shape ∨ ∃ name, key = .property name := by
  rw [List.mem_append, stale, assigned.keys] at h
  rcases h with ⟨name, -, -, hkey⟩ | ⟨p, -, ⟨hkey, -⟩ | ⟨hkey, -⟩⟩
  · exact hkey.symm.imp_right fun hkey => ⟨name, hkey⟩
  · exact .inr ⟨p.1, hkey⟩
  · exact .inl hkey

omit stale in
theorem World.Assigned.names_eq : ps.names =
    old.names.filter (· ∈ members.map (·.1)) ++ (members.map (·.1)).filter (· ∉ old.names) := by
  have hnames := Properties.names_filter old fun name => decide (name ∈ members.map (·.1))
  rw [assigned.names]
  refine congrArg₂ _ hnames (List.filter_congr fun name hm => ?_)
  rw [decide_eq_decide, Properties.mem_names_retained]
  exact not_congr (and_iff_left hm)

end Replaced

theorem World.Assigned.replaced {state : ObjectId} {members : List (String × Json)}
    {ps : Properties} {keys keys' : List Key} {w₁ w' : World} (nodup : (members.map (·.1)).Nodup)
    (removed : w.Rewritten state ((w.object state).properties.retained members) keys w₁)
    (rewritten : w₁.Rewritten state ps keys' w')
    (assigned : w₁.Assigned members ((w.object state).properties.retained members) ps keys' w')
    (stale : ∀ key, key ∈ keys ↔ ∃ name ∈ (w.object state).properties.names,
      name ∉ members.map (·.1) ∧ (key = .property name ∨ key = .shape)) :
    w.Replaced state members w' := by
  have hps : (w'.object state).properties = ps := rewritten.properties
  have hnames := assigned.names_eq
  constructor
  case exact =>
    intro name
    rw [hps, hnames]
    simp only [List.mem_append, List.mem_filter, decide_eq_true_iff]
    grind
  case names => exact hps ▸ hnames
  case primitive =>
    intro name j hm hj
    obtain ⟨v, hv, hstores⟩ := assigned.held _ hm
    rw [World.Stores, if_neg (Bool.eq_false_iff.1 hj)] at hstores
    exact ⟨v, hps ▸ hv, hstores⟩
  case container =>
    intro name j hm hj
    obtain ⟨v, hv, hstores⟩ := assigned.held _ hm
    rw [World.Stores, if_pos hj] at hstores
    obtain ⟨hfresh, hvalid, hcopies⟩ := hstores
    refine ⟨v, hps ▸ hv, fun hw => hfresh (removed.valid hw), hvalid, fun other ho => ?_,
      fun rt w₀ => hcopies.toJson_eq (wrap_container hj rt w₀).2.2⟩
    exact assigned.apart other name v (hps ▸ ho) hv hcopies.isReactive hfresh
  case triggered =>
    obtain ⟨new, hn, hkeys, hothers⟩ := (removed.trans rewritten).past
    refine ⟨new, hn, fun name => ?_, ?_, fun h key hm => ?_⟩
    · exact (hkeys _).trans (property_mem_keys_iff stale assigned nodup name)
    · exact (hkeys _).trans (shape_mem_keys_iff stale assigned)
    · rcases hothers h key hm with rfl | hmemo
      · exact .inr ⟨rfl, mem_keys_cases stale assigned ((hkeys key).1 hm)⟩
      · exact .inl hmemo

/-- Setting a store to JSON replaces its state by the members, if it is an object, and does nothing
if it is none. The hook of its runtime does not flush, and there is nesting enough for all memos. -/
theorem store_replaced {settings : Settings} {hook : Hook} {g : List Frame} {u : Bool}
    (reached : Reaches (.start settings hook) ⟨w, g, u⟩) {id : StoreId} (there : id < w.stores.size)
    (patient : (w.runtime (w.store id).runtime).hook ≠ .flush) (observe : Act Unit)
    (deep : w.nodes.size ≤ depth) (next : Json) :
    match next with
    | .object members => (members.map (·.1)).Nodup →
      ∃ w', (setStore (observedKernel observe depth) id next).run.run w = (.ok (.ok ()), w') ∧
        w.Replaced (w.store id).state members w'
    | _ => (setStore (observedKernel observe depth) id next).run.run w =
        (.ok (.error .notAnObject), w) := by
  have hs := (reached.sane (Config.start_sane settings hook)).world
  obtain ⟨hid, hruntime, -⟩ := hs.stores id there
  have hvalid := (hs.objects _ hid).2.1
  cases next with
  | object members =>
    intro nodup
    have hpatient : (w.runtime (w.object (w.store id).state).runtime).hook ≠ .flush := by
      rwa [hruntime]
    obtain ⟨keys, w₁, hrun₁, hw₁, hkeys⟩ := run_removeAll observe
      ((w.object (w.store id).state).properties.names.filter fun name =>
        !members.any (·.1 == name)) hid hpatient (w.card_clean_le.trans deep)
    rw [Properties.filter_stale] at hw₁
    obtain ⟨hid₁, hruntime₁, -⟩ := hw₁.objects _ hid
    obtain ⟨ps, keys', w₂, hrun₂, hw₂, hassigned⟩ := run_assignMembers observe members nodup hid₁
      (by rwa [hruntime₁, hw₁.hook])
      ((Finset.card_le_card hw₁.clean).trans (w.card_clean_le.trans deep))
      (by
        intro p hp
        rw [hw₁.properties] at hp
        exact hw₁.valid_cell (hvalid p (List.mem_filter.1 hp).1))
    rw [hw₁.properties] at hassigned
    refine ⟨w₂, ?_, hassigned.replaced nodup hw₁ hw₂ fun key => ?_⟩
    · simp only [setStore, Act.run_get_bind]
      rw [Act.run_bind, run_untracked_keys hruntime]
      dsimp only
      rw [Act.run_bind, hrun₁]
      dsimp only
      rw [Act.run_bind, hrun₂]
      rfl
    · rw [hkeys]
      refine exists_congr fun name => ?_
      rw [mem_stale, and_assoc]
      exact and_congr_right fun hm => and_congr_right fun _ => and_iff_right hm
  | _ => rfl

def mixedStore : List Expr :=
  [.store .create "s"
    [.literal (.object [("a", .bool true), ("b", .object []), ("c", .string "x")])]]

set_option maxRecDepth 8000 in
/-- The truth value stays, the container gives way to another one with the same content, the text is
removed, and a list is added. -/
theorem store_replaced_mixed :
    ∃ w', (setStore (kernel 2) 0
        (.object [("a", .bool true), ("b", .object []), ("d", .array [])])).run.run
          (World.after .standard .manual 2 mixedStore) = (.ok (.ok ()), w') ∧
      (World.after .standard .manual 2 mixedStore).Replaced
        ((World.after .standard .manual 2 mixedStore).store 0).state
        [("a", .bool true), ("b", .object []), ("d", .array [])] w' := by
  have hsize : (World.after .standard .manual 2 mixedStore).stores.size = 1 := by cbv
  have hnodes : (World.after .standard .manual 2 mixedStore).nodes.size = 1 := by cbv
  have hhook : ((World.after .standard .manual 2 mixedStore).runtime
      ((World.after .standard .manual 2 mixedStore).store 0).runtime).hook = .manual := by cbv
  have hreach := reaches_after .standard .manual 2 mixedStore
  generalize World.after .standard .manual 2 mixedStore = w at *
  exact store_replaced hreach (hsize ▸ Nat.one_pos) (by simp [hhook]) (return) (by omega)
    (.object [("a", .bool true), ("b", .object []), ("d", .array [])]) (by decide)

end State

end Reactivity
