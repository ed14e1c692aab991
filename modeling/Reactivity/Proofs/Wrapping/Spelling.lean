import Reactivity.Proofs.Run.Serializing

namespace Reactivity

namespace Json

/-- `j.Inside k`: the value stands somewhere in the other one, or is it. -/
inductive Inside (j : Json) : Json → Prop
  | self : Inside j j
  | item {items : List Json} {k : Json} (mem : k ∈ items) (inner : Inside j k) :
    Inside j (.array items)
  | member {members : List (String × Json)} {name : String} {k : Json} (mem : (name, k) ∈ members)
    (inner : Inside j k) : Inside j (.object members)

theorem Inside.trans {i j k : Json} (h : i.Inside j) (h' : j.Inside k) : i.Inside k := by
  induction h' with
  | self => exact h
  | item mem _ ih => exact .item mem ih
  | member mem _ ih => exact .member mem ih

def isNumber : Json → Bool
  | .int _ | .float _ => true
  | _ => false

/-- Turning the value into a live one, and that into plain JSON, gives it back. -/
def Stable (j : Json) : Prop :=
  ∀ rt w, ((wrap rt j).run w).2.toJson ((wrap rt j).run w).1 = j

/-- The members of all objects stand in the order of their names, and all numbers are stable. -/
structure Lasting (j : Json) : Prop where
  ordered : ∀ members, (Json.object members).Inside j → members.Pairwise fun p q => p.1 < q.1
  stable : ∀ n : Json, n.Inside j → n.isNumber → n.Stable

theorem Lasting.inside {j k : Json} (h : j.Lasting) (hk : k.Inside j) : k.Lasting where
  ordered members hm := h.ordered members (hm.trans hk)
  stable n hn := h.stable n (hn.trans hk)

theorem Lasting.item {items : List Json} {j : Json} (h : (Json.array items).Lasting)
    (hj : j ∈ items) : j.Lasting :=
  h.inside (.item hj .self)

theorem Lasting.member {members : List (String × Json)} {name : String} {j : Json}
    (h : (Json.object members).Lasting) (hj : (name, j) ∈ members) : j.Lasting :=
  h.inside (.member hj .self)

theorem Lasting.of_simple {j : Json} (simple : j.isContainer = false)
    (stable : j.isNumber → j.Stable) : j.Lasting where
  ordered members hm := by
    cases hm with
    | self => cases simple
    | item => cases simple
    | member => cases simple
  stable n hn number := by
    cases hn with
    | self => exact stable number
    | item => cases simple
    | member => cases simple

theorem Lasting.of_members {members : List (String × Json)}
    (ordered : members.Pairwise fun p q => p.1 < q.1) (h : ∀ p ∈ members, p.2.Lasting) :
    (Json.object members).Lasting where
  ordered members' hm := by
    cases hm with
    | self => exact ordered
    | member mem inner => exact (h _ mem).ordered members' inner
  stable n hn number := by
    cases hn with
    | self => cases number
    | member mem inner => exact (h _ mem).stable n inner number

theorem Lasting.nodup {members : List (String × Json)} (h : (Json.object members).Lasting) :
    (members.map (·.1)).Nodup := by
  rw [List.Nodup, List.pairwise_map]
  refine (h.ordered members .self).imp fun hlt heq => ?_
  rw [heq] at hlt
  exact String.lt_irrefl _ hlt

theorem insertMember_of_lt {α : Type} {name : String} (value : α) {members : List (String × α)}
    (h : ∀ p ∈ members, p.1 < name) :
    insertMember name value members = members ++ [(name, value)] := by
  induction members with
  | nil => rfl
  | cons p members ih =>
    have hp := h p (List.mem_cons_self ..)
    have hne : name ≠ p.1 := fun heq => String.lt_irrefl _ (heq ▸ hp)
    rw [insertMember, if_neg hne, if_neg (String.lt_asymm hp),
      ih fun q hq => h q (List.mem_cons_of_mem _ hq), List.cons_append]

/-- Members that stand in the order of their names are the members of the object they make. -/
theorem ofMembers_of_pairwise {members : List (String × Json)}
    (h : members.Pairwise fun p q => p.1 < q.1) : ofMembers members = .object members := by
  suffices hfold : ∀ front : List (String × Json),
      (∀ p ∈ front, ∀ q ∈ members, p.1 < q.1) →
        members.foldl (fun object p => insertMember p.1 p.2 object) front = front ++ members by
    exact congrArg Json.object (hfold [] fun _ hp => nomatch hp)
  induction members with
  | nil => intro front _; exact (List.append_nil front).symm
  | cons q members ih =>
    intro front hfront
    obtain ⟨hq, h⟩ := List.pairwise_cons.1 h
    rw [List.foldl_cons,
      insertMember_of_lt q.2 fun p hp => hfront p hp q (List.mem_cons_self ..), ih h]
    · rw [List.append_assoc, List.singleton_append]
    · intro p hp r hr
      rcases List.mem_append.1 hp with hp | hp
      · exact hfront p hp r (List.mem_cons_of_mem _ hr)
      · obtain rfl := List.mem_singleton.1 hp
        exact hq r hr

end Json

theorem lookup_of_mem {β : Type} {ps : List (String × β)} {name : String} {b : β}
    (nodup : (ps.map (·.1)).Nodup) (h : (name, b) ∈ ps) : ps.lookup name = some b := by
  induction ps with
  | nil => cases h
  | cons p ps ih =>
    obtain ⟨hp, nodup⟩ := List.nodup_cons.1 nodup
    rw [List.lookup_cons]
    rcases List.mem_cons.1 h with rfl | h
    · rw [beq_self_eq_true]
    · have hne : name ≠ p.1 := by
        rintro rfl
        exact hp (List.mem_map.2 ⟨_, h, rfl⟩)
      rw [beq_false_of_ne hne]
      exact ih nodup h

/-- Lists of named things are equal if the names are, and the things of one are in the other. -/
theorem eq_of_names_of_subset {β : Type} {ps qs : List (String × β)}
    (names : ps.map (·.1) = qs.map (·.1)) (nodup : (qs.map (·.1)).Nodup) (h : ∀ p ∈ ps, p ∈ qs) :
    ps = qs := by
  induction ps generalizing qs with
  | nil => exact (List.map_eq_nil_iff.1 names.symm).symm
  | cons p ps ih =>
    cases qs with
    | nil => cases names
    | cons q qs =>
      obtain ⟨hname, names⟩ := List.cons.inj names
      obtain ⟨hq, nodup⟩ := List.nodup_cons.1 nodup
      have hp : p = q := by
        refine (List.mem_cons.1 (h p (List.mem_cons_self ..))).resolve_right fun hp => hq ?_
        exact hname ▸ List.mem_map_of_mem hp
      refine List.cons_eq_cons.2 ⟨hp, ih names nodup fun r hr => ?_⟩
      refine (List.mem_cons.1 (h r (List.mem_cons_of_mem _ hr))).resolve_left fun heq => hq ?_
      rw [← heq, ← names]
      exact List.mem_map_of_mem hr

theorem Value.eq_of_handle? {v v' : Value} {h : Handle} (hv : v.handle? = some h)
    (hv' : v'.handle? = some h) : v = v' := by
  cases v <;> cases v' <;> grind [handle?]

namespace World

/-- `w.Spells v j`: the value is the JSON, apart from which of the containers in it have been turned
into reactive ones. -/
inductive Spells (w : World) : Value → Json → Prop
  | primitive {j : Json} (lasting : j.Lasting) (simple : j.isContainer = false) :
    Spells w (.ofPrimitive j) j
  | object {id : ObjectId} {members : List (String × Json)} (valid : id < w.objects.size)
    (lasting : (Json.object members).Lasting)
    (names : (w.object id).properties.names = members.map (·.1))
    (plain : ∀ name j, (w.object id).properties.lookup name = some (.plain j) → (name, j) ∈ members)
    (inner : ∀ name v j, (w.object id).properties.lookup name = some (.value v) →
      (name, j) ∈ members → Spells w v j) : Spells w (.object id) (.object members)
  | array {id : ArrayId} {items : List Json} (valid : id < w.arrays.size)
    (lasting : (Json.array items).Lasting) (length : (w.array id).cells.length = items.length)
    (plain : ∀ (i : Nat) (j : Json), (w.array id).cells[i]? = some (Cell.plain j) →
      items[i]? = some j)
    (inner : ∀ (i : Nat) (v : Value) (j : Json), (w.array id).cells[i]? = some (Cell.value v) →
      items[i]? = some j → Spells w v j) : Spells w (.array id) (.array items)

theorem Spells.lasting {w : World} {v : Value} {j : Json} (h : w.Spells v j) : j.Lasting := by
  cases h <;> assumption

theorem jsonAt_ofPrimitive {j : Json} (lasting : j.Lasting) (simple : j.isContainer = false)
    (w : World) (d : Nat) : w.jsonAt d (.ofPrimitive j) = j := by
  have number {x : Number} (hn : j.isNumber) (hx : Value.ofPrimitive j = .number x)
      (hw : wrap 0 j = pure (Value.ofPrimitive j)) : x.toJson = j := by
    have h := lasting.stable j .self hn 0 w
    rw [hw] at h
    change w.toJson (Value.ofPrimitive j) = j at h
    rwa [hx, toJson, jsonAt] at h
  cases j with
  | null => exact jsonAt.eq_1 ..
  | bool b => exact jsonAt.eq_3 ..
  | int n => exact (jsonAt.eq_4 ..).trans (number rfl rfl rfl)
  | float x => exact (jsonAt.eq_4 ..).trans (number rfl rfl rfl)
  | string s => exact jsonAt.eq_5 ..
  | array items => cases simple
  | object members => cases simple

namespace Spells

variable {w : World} {v : Value} {j : Json}

theorem exists_object {id : ObjectId} (h : w.Spells (.object id) j) :
    ∃ members, j = .object members := by
  generalize hv : Value.object id = v at h
  cases h with
  | @primitive j _ simple => cases j <;> cases hv
  | object => exact ⟨_, rfl⟩
  | array => cases hv

theorem exists_array {id : ArrayId} (h : w.Spells (.array id) j) : ∃ items, j = .array items := by
  generalize hv : Value.array id = v at h
  cases h with
  | @primitive j _ simple => cases j <;> cases hv
  | object => cases hv
  | array => exact ⟨_, rfl⟩

theorem object_parts {id : ObjectId} {members : List (String × Json)}
    (h : w.Spells (.object id) (.object members)) :
    (w.object id).properties.names = members.map (·.1) ∧
      (∀ name j, (w.object id).properties.lookup name = some (.plain j) → (name, j) ∈ members) ∧
      ∀ name v j, (w.object id).properties.lookup name = some (.value v) →
        (name, j) ∈ members → w.Spells v j := by
  generalize hv : Value.object id = v at h
  cases h with
  | primitive _ simple => cases simple
  | object _ _ names plain inner =>
    obtain rfl := Value.object.inj hv
    exact ⟨names, plain, inner⟩

theorem array_parts {id : ArrayId} {items : List Json} (h : w.Spells (.array id) (.array items)) :
    (w.array id).cells.length = items.length ∧
      (∀ (i : Nat) (j : Json), (w.array id).cells[i]? = some (Cell.plain j) → items[i]? = some j) ∧
      ∀ (i : Nat) (v : Value) (j : Json), (w.array id).cells[i]? = some (Cell.value v) →
        items[i]? = some j → w.Spells v j := by
  generalize hv : Value.array id = v at h
  cases h with
  | primitive _ simple => cases simple
  | array _ _ length plain inner =>
    obtain rfl := Value.array.inj hv
    exact ⟨length, plain, inner⟩

theorem members_eq {id : ObjectId} {members : List (String × Json)} {json : Value → Json}
    (lasting : (Json.object members).Lasting)
    (names : (w.object id).properties.names = members.map (·.1))
    (plain : ∀ name j, (w.object id).properties.lookup name = some (.plain j) → (name, j) ∈ members)
    (inner : ∀ name v j, (w.object id).properties.lookup name = some (.value v) →
      (name, j) ∈ members → json v = j) :
    ((w.object id).properties.map fun (name, cell) => (name, cell.jsonBy json)) = members := by
  have nodup := lasting.nodup
  have nodup' : ((w.object id).properties.map (·.1)).Nodup := by
    rw [← Properties.names, names]
    exact nodup
  refine eq_of_names_of_subset ?_ nodup fun p hp => ?_
  · rw [← names, Properties.names, List.map_map]
    rfl
  · obtain ⟨⟨name, cell⟩, hq, rfl⟩ := List.mem_map.1 hp
    have hlookup := lookup_of_mem nodup' hq
    cases cell with
    | plain j => exact plain name j hlookup
    | value v =>
      have hname : name ∈ members.map (·.1) := by
        rw [← names]
        exact List.mem_map.2 ⟨_, hq, rfl⟩
      obtain ⟨⟨name', j⟩, hj, heq⟩ := List.mem_map.1 hname
      obtain rfl : name' = name := heq
      have hv : json v = j := inner name' v j hlookup hj
      show (name', json v) ∈ members
      rwa [hv]

theorem items_eq {id : ArrayId} {items : List Json} {json : Value → Json}
    (length : (w.array id).cells.length = items.length)
    (plain : ∀ (i : Nat) (j : Json), (w.array id).cells[i]? = some (Cell.plain j) →
      items[i]? = some j)
    (inner : ∀ (i : Nat) (v : Value) (j : Json), (w.array id).cells[i]? = some (Cell.value v) →
      items[i]? = some j → json v = j) : (w.array id).cells.map (Cell.jsonBy json) = items := by
  refine List.ext_getElem? fun i => ?_
  rw [List.getElem?_map]
  cases hc : (w.array id).cells[i]? with
  | none =>
    rw [List.getElem?_eq_none_iff, length] at hc
    exact (List.getElem?_eq_none_iff.2 hc).symm
  | some c =>
    have hi : i < items.length := length ▸ (List.getElem?_eq_some_iff.1 hc).1
    obtain ⟨j, hj⟩ : ∃ j, items[i]? = some j := ⟨_, List.getElem?_eq_getElem hi⟩
    cases c with
    | plain k => exact (plain i k hc).symm
    | value v =>
      rw [hj]
      exact congrArg some (inner i v j hc hj)

theorem jsonAt_of_size {d : Nat} (h : w.Spells v j) (hd : sizeOf j ≤ d) : w.jsonAt d v = j := by
  induction h generalizing d with
  | primitive lasting simple => exact jsonAt_ofPrimitive lasting simple w d
  | @object id members valid lasting names plain _ ih =>
    cases d with
    | zero => simp at hd
    | succ d =>
      rw [jsonAt, members_eq lasting names plain fun name v j hv hj => ih name v j hv hj ?_]
      · exact Json.ofMembers_of_pairwise (lasting.ordered members .self)
      · have := List.sizeOf_lt_of_mem hj
        simp only [Json.object.sizeOf_spec, Prod.mk.sizeOf_spec] at hd this
        omega
  | @array id items valid lasting length plain _ ih =>
    cases d with
    | zero => simp at hd
    | succ d =>
      rw [jsonAt, items_eq length plain fun i v j hv hj => ih i v j hv hj ?_]
      have := List.sizeOf_lt_of_mem (List.mem_of_getElem? hj)
      simp only [Json.array.sizeOf_spec] at hd
      omega

theorem unique {k : Json} (h : w.Spells v j) (h' : w.Spells v k) : j = k := by
  rw [← h.jsonAt_of_size (Nat.le_max_left (sizeOf j) (sizeOf k)),
    h'.jsonAt_of_size (Nat.le_max_right (sizeOf j) (sizeOf k))]

theorem valid (h : w.Spells v j) : v.Valid w := by
  cases h with
  | primitive lasting simple => exact Value.ofPrimitive_valid w j
  | object valid => exact valid
  | array valid => exact valid

def Outside (w : World) (j : Json) (outer : Finset Nat) : Prop :=
  ∀ n ∈ outer, ∃ v h k, v.handle? = some h ∧ w.number h = n ∧ w.Spells v k ∧ sizeOf j < sizeOf k

theorem Outside.insert {outer : Finset Nat} {h : Handle} (ho : Outside w j outer)
    (hv : w.Spells v j) (hh : v.handle? = some h) :
    outer.card < w.objects.size + w.arrays.size ∧ (insert (w.number h) outer).card = outer.card + 1 ∧
      ∀ k, sizeOf k < sizeOf j → Outside w k (insert (w.number h) outer) := by
  obtain ⟨hvalid, container⟩ := Value.valid_handle? hv.valid hh
  have fresh : w.number h ∉ outer := by
    intro hm
    obtain ⟨v', h', k, hh', heq, hv', hlt⟩ := ho _ hm
    obtain ⟨hvalid', container'⟩ := Value.valid_handle? hv'.valid hh'
    obtain rfl := number_inj hvalid' hvalid container' container heq
    obtain rfl := Value.eq_of_handle? hh' hh
    exact absurd hlt (hv'.unique hv ▸ Nat.lt_irrefl _)
  have hcard := Finset.card_insert_of_notMem fresh
  have hle : (Insert.insert (w.number h) outer).card ≤
      (Finset.range (w.objects.size + w.arrays.size)).card := by
    refine Finset.card_le_card fun n hn => ?_
    rw [Finset.mem_range]
    rcases Finset.mem_insert.1 hn with rfl | hn
    · exact number_lt hvalid container
    · obtain ⟨v', h', k, hh', rfl, hv', -⟩ := ho n hn
      obtain ⟨hvalid', container'⟩ := Value.valid_handle? hv'.valid hh'
      exact number_lt hvalid' container'
  rw [Finset.card_range] at hle
  refine ⟨by omega, hcard, fun k hk n hn => ?_⟩
  rcases Finset.mem_insert.1 hn with rfl | hn
  · exact ⟨v, h, j, hh, rfl, hv, hk⟩
  · obtain ⟨v', h', k', hh', heq, hv', hlt⟩ := ho n hn
    exact ⟨v', h', k', hh', heq, hv', Nat.lt_trans hk hlt⟩

/-- The containers on the way to a value are different ones, so that there are no more than there
are containers. -/
theorem jsonAt_of_outside {d : Nat} {outer : Finset Nat} (h : w.Spells v j)
    (ho : Outside w j outer) (hd : w.objects.size + w.arrays.size ≤ outer.card + d) :
    w.jsonAt d v = j := by
  induction h generalizing d outer with
  | primitive lasting simple => exact jsonAt_ofPrimitive lasting simple w d
  | @object id members valid lasting names plain inner ih =>
    obtain ⟨hlt, hcard, hinner⟩ := ho.insert (.object valid lasting names plain inner) rfl
    obtain ⟨d, rfl⟩ := Nat.exists_eq_add_one_of_ne_zero (n := d) (by omega)
    rw [jsonAt, members_eq lasting names plain fun name v j hv hj =>
      ih name v j hv hj (hinner j ?_) (by omega)]
    · exact Json.ofMembers_of_pairwise (lasting.ordered members .self)
    · have := List.sizeOf_lt_of_mem hj
      simp only [Json.object.sizeOf_spec, Prod.mk.sizeOf_spec] at this ⊢
      omega
  | @array id items valid lasting length plain inner ih =>
    obtain ⟨hlt, hcard, hinner⟩ := ho.insert (.array valid lasting length plain inner) rfl
    obtain ⟨d, rfl⟩ := Nat.exists_eq_add_one_of_ne_zero (n := d) (by omega)
    rw [jsonAt, items_eq length plain fun i v j hv hj => ih i v j hv hj (hinner j ?_) (by omega)]
    have := List.sizeOf_lt_of_mem (List.mem_of_getElem? hj)
    simp only [Json.array.sizeOf_spec]
    omega

theorem toJson (h : w.Spells v j) : w.toJson v = j := by
  have hsize := w.size_le_containerCount
  have ho : Outside w j ∅ := fun n hn => absurd hn (Finset.notMem_empty n)
  exact h.jsonAt_of_outside ho (by rw [Finset.card_empty]; omega)

end Spells

theorem Copies.spells {w : World} {v : Value} {j : Json} (h : w.Copies v j) (valid : v.Valid w)
    (lasting : j.Lasting) : w.Spells v j := by
  have plain {j k : Json} (hj : Cell.ofJson j = .plain k) : j = k := by
    rw [Cell.ofJson] at hj
    split at hj
    · exact Cell.plain.inj hj
    · cases hj
  have value {j : Json} {v : Value} (hl : j.Lasting) (hj : Cell.ofJson j = .value v) :
      w.Spells v j := by
    rw [Cell.ofJson] at hj
    split at hj
    · cases hj
    · next hc =>
      obtain rfl := Cell.value.inj hj
      exact .primitive hl (Bool.eq_false_iff.2 hc)
  cases v with
  | object id =>
    cases j with
    | object members =>
      have hps : (w.object id).properties = _ := h
      have cell {name : String} {c : Cell} (hc : (w.object id).properties.lookup name = some c) :
          ∃ j, (name, j) ∈ members ∧ Cell.ofJson j = c := by
        rw [hps] at hc
        obtain ⟨⟨name', j⟩, hj, heq⟩ := List.mem_map.1 (mem_of_lookup hc)
        obtain ⟨rfl, rfl⟩ := Prod.mk.inj heq
        exact ⟨j, hj, rfl⟩
      refine .object valid lasting ?_ (fun name k hk => ?_) fun name v k hv hk => ?_
      · rw [hps, Properties.names, List.map_map]
        rfl
      · obtain ⟨j, hj, hc⟩ := cell hk
        exact plain hc ▸ hj
      · obtain ⟨j, hj, hc⟩ := cell hv
        have hlookup := lookup_of_mem lasting.nodup hj
        rw [lookup_of_mem lasting.nodup hk] at hlookup
        obtain rfl := Option.some.inj hlookup
        exact value (lasting.member hk) hc
    | _ => exact h.elim
  | array id =>
    cases j with
    | array items =>
      have hcells : (w.array id).cells = items.map .ofJson := h
      have cell {i : Nat} {c : Cell} (hc : (w.array id).cells[i]? = some c) :
          ∃ j, items[i]? = some j ∧ Cell.ofJson j = c := by
        rw [hcells, List.getElem?_map] at hc
        exact Option.map_eq_some_iff.1 hc
      refine .array valid lasting ?_ (fun i k hk => ?_) fun i v k hv hk => ?_
      · rw [hcells, List.length_map]
      · obtain ⟨j, hj, hc⟩ := cell hk
        exact plain hc ▸ hj
      · obtain ⟨j, hj, hc⟩ := cell hv
        obtain rfl := Option.some.inj (hj.symm.trans hk)
        exact value (lasting.item (List.mem_of_getElem? hj)) hc
    | _ => exact h.elim
  | _ => exact h.elim

theorem spells_wrap_of_fresh {rt : RuntimeId} {w w' : World} {j : Json} (lasting : j.Lasting)
    (he : ((wrap rt j).run w).2.Extends w')
    (objects : ∀ id, w.objects.size ≤ id → w'.object id = ((wrap rt j).run w).2.object id)
    (arrays : ∀ id, w.arrays.size ≤ id → w'.array id = ((wrap rt j).run w).2.array id) :
    w'.Spells ((wrap rt j).run w).1 j := by
  cases j with
  | object members =>
    refine Copies.spells ?_ (he.objects w.objects.size ?_).1 lasting
    · show (w'.object w.objects.size).properties = _
      rw [objects _ (Nat.le_refl _)]
      show ((w.objects.push _)[w.objects.size]?.getD _).properties = _
      rw [Array.getElem?_push_size]
      rfl
    · show w.objects.size < (w.objects.push _).size
      simp
  | array items =>
    refine Copies.spells ?_ (he.arrays w.arrays.size ?_).1 lasting
    · show (w'.array w.arrays.size).cells = _
      rw [arrays _ (Nat.le_refl _)]
      show ((w.arrays.push _)[w.arrays.size]?.getD _).cells = _
      rw [Array.getElem?_push_size]
      rfl
    · show w.arrays.size < (w.arrays.push _).size
      simp
  | _ => exact .primitive lasting rfl

theorem spells_wrap (rt : RuntimeId) (w : World) {j : Json} (lasting : j.Lasting) :
    ((wrap rt j).run w).2.Spells ((wrap rt j).run w).1 j :=
  spells_wrap_of_fresh lasting (.refl _) (fun _ _ => rfl) fun _ _ => rfl

end World

end Reactivity
