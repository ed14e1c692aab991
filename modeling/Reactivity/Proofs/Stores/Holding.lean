import Reactivity.Proofs.Stores.Desk
import Mathlib

namespace Reactivity

def Binding.isStore (id : StoreId) : Binding → Bool
  | .store j => j == id
  | _ => false

namespace Desk

variable {d : Desk} {held held' : List Binding} {id j : StoreId} {sub : SubscriptionId}

def There (d : Desk) : Binding → Prop
  | .result _ => True
  | .store id => id < d.stores
  | .subscription sub => sub < d.subscriptions

/-- What the variables are bound to, and what running operations hold besides. -/
def grips (d : Desk) (held : List Binding) : List Binding :=
  d.bindings.map (·.2) ++ held

/-- The subscribers are in order while running operations hold the given things. A store that
nobody holds any more is not asked for its subscribers. -/
structure Tidy (held : List Binding) (d : Desk) : Prop where
  there : ∀ b ∈ d.grips held, d.There b
  /-- A store has at least as many holders as are known of. -/
  holders : ∀ id < d.stores, (d.grips held).countP (·.isStore id) ≤ d.holders id
  made : d.past.reverse.filterMap Event.subscribed? = List.range d.subscriptions
  owner : ∀ sub < d.subscriptions, d.owner sub < d.stores
  inactive : ∀ sub, .unsubscribed sub ∈ d.past ↔ sub < d.subscriptions ∧ d.active sub = false
  listed : ∀ id < d.stores, d.holders id ≠ 0 →
    d.subscribers id =
      (List.range d.subscriptions).filter fun sub => d.owner sub = id ∧ d.active sub
  watched : ∀ n id, d.watches n = some id → id < d.stores
  final : d.past.Pairwise fun e earlier => ∀ sub state, e = .delivered sub state →
    earlier ≠ .unsubscribed sub

theorem Tidy.of_eq {d' : Desk} (h : d.Tidy held) (hd : d' = d) : d'.Tidy held :=
  hd ▸ h

def bound (d : Desk) (name : String) (b : Binding) : Desk :=
  { d with bindings := (name, b) :: d.bindings.filter (·.1 != name) }

def unbound (d : Desk) (name : String) : Desk :=
  { d with bindings := d.bindings.filter (·.1 != name) }

theorem Tidy.mono {bindings : List (String × Binding)} (h : d.Tidy held)
    (less : (bindings.map (·.2) ++ held').Subperm (d.grips held)) :
    { d with bindings := bindings }.Tidy held' :=
  { h with
    there := fun b hb => h.there b (less.subset hb)
    holders := fun id hid => (less.countP_le _).trans (h.holders id hid) }

theorem Tidy.of_append {more : List Binding} (h : d.Tidy (more ++ held)) : d.Tidy held :=
  h.mono ((List.sublist_append_right more held).append_left _).subperm

theorem Tidy.of_cons {b : Binding} (h : d.Tidy (b :: held)) : d.Tidy held :=
  Tidy.of_append (show d.Tidy ([b] ++ held) from h)

theorem filter_lookup_subperm (bindings : List (String × Binding)) (name : String) :
    ((bindings.filter (·.1 != name)).map (·.2) ++ (bindings.lookup name).toList).Subperm
      (bindings.map (·.2)) := by
  induction bindings with
  | nil => exact List.Subperm.refl _
  | cons p bindings ih =>
    obtain ⟨k, b⟩ := p
    by_cases hk : k = name
    · subst hk
      have hs : ((bindings.filter (·.1 != k)).map (·.2)).Sublist (bindings.map (·.2)) :=
        (List.filter_sublist).map _
      simpa [List.filter_cons, List.lookup_cons] using
        (List.perm_append_singleton b _).subperm.trans (hs.cons_cons b).subperm
    · have hk' : name ≠ k := Ne.symm hk
      simpa [List.filter_cons, List.lookup_cons, hk, beq_false_of_ne hk'] using
        (List.subperm_cons b).2 ih

theorem Tidy.bound {b : Binding} (h : d.Tidy (b :: held)) (name : String) :
    (d.bound name b).Tidy ((d.bindings.lookup name).toList ++ held) := by
  refine h.mono ?_
  have hs := (List.subperm_append_right held).2 (filter_lookup_subperm d.bindings name)
  rw [List.map_cons, List.cons_append, ← List.append_assoc]
  exact ((List.subperm_cons b).2 hs).trans List.perm_middle.symm.subperm

theorem Tidy.unbound (h : d.Tidy held) (name : String) :
    (d.unbound name).Tidy ((d.bindings.lookup name).toList ++ held) := by
  refine h.mono ?_
  rw [← List.append_assoc]
  exact (List.subperm_append_right held).2 (filter_lookup_subperm d.bindings name)

def hold (d : Desk) (id : StoreId) : Desk :=
  { d with
    holders := fun j => if id = j ∧ j < d.stores then d.holders j + 1 else d.holders j }

def letGo (d : Desk) (id : StoreId) : Desk :=
  { d with
    holders := fun j => if id = j ∧ j < d.stores then d.holders j - 1 else d.holders j }

def withStore (d : Desk) : Desk :=
  { d with
    stores := d.stores + 1
    subscribers := fun j => if j = d.stores then [] else d.subscribers j
    holders := fun j => if j = d.stores then 1 else d.holders j }

theorem mem_grips_cons {b b' : Binding} : b ∈ d.grips (b' :: held) ↔ b = b' ∨ b ∈ d.grips held := by
  simp only [grips, List.mem_append, List.mem_cons]
  tauto

theorem countP_grips_cons (d : Desk) (held : List Binding) (b : Binding) (p : Binding → Bool) :
    (d.grips (b :: held)).countP p = (d.grips held).countP p + if p b then 1 else 0 := by
  simp only [grips, List.countP_append, List.countP_cons]
  omega

theorem Tidy.cons_result (h : d.Tidy held) (r : Result) : d.Tidy (.result r :: held) :=
  { h with
    there := fun b hb => by
      rcases mem_grips_cons.1 hb with rfl | hb
      · trivial
      · exact h.there b hb
    holders := fun id hid => (countP_grips_cons d held (.result r) (·.isStore id)).trans_le
      (h.holders id hid) }

theorem Tidy.alive (h : d.Tidy held) (hb : .store id ∈ d.grips held) :
    id < d.stores ∧ d.holders id ≠ 0 := by
  have hid : id < d.stores := h.there _ hb
  have hpos : 0 < (d.grips held).countP (·.isStore id) :=
    List.countP_pos_iff.2 ⟨_, hb, beq_self_eq_true id⟩
  have := h.holders id hid
  exact ⟨hid, by omega⟩

theorem Tidy.hold (h : d.Tidy held) (hid : id < d.stores) (alive : d.holders id ≠ 0) :
    (d.hold id).Tidy (.store id :: held) :=
  { h with
    there := fun b hb => by
      rcases mem_grips_cons.1 hb with rfl | hb
      · exact hid
      · exact h.there b hb
    holders := fun j hj => by
      have hle := h.holders j hj
      have hc := countP_grips_cons d held (.store id) (·.isStore j)
      change (d.grips (.store id :: held)).countP _ ≤ if id = j ∧ j < d.stores then _ else _
      rw [hc]
      simp only [Binding.isStore, beq_iff_eq]
      by_cases hj' : id = j
      · rw [if_pos hj', if_pos ⟨hj', hj⟩]
        exact Nat.add_le_add_right hle 1
      · rw [if_neg hj', if_neg fun hn => hj' hn.1]
        exact hle
    listed := fun j hj halive => by
      refine h.listed j hj fun hz => ?_
      by_cases hj' : id = j
      · exact alive (hj' ▸ hz)
      · exact halive ((if_neg fun hn => hj' hn.1).trans hz) }

theorem Tidy.letGo (h : d.Tidy (.store id :: held)) : (d.letGo id).Tidy held :=
  { h with
    there := fun b hb => h.there b (mem_grips_cons.2 (.inr hb))
    holders := fun j hj => by
      have hle := h.holders j hj
      have hc := countP_grips_cons d held (.store id) (·.isStore j)
      change (d.grips held).countP _ ≤ if id = j ∧ j < d.stores then _ else _
      rw [hc] at hle
      by_cases hj' : id = j
      · rw [if_pos (by simpa [Binding.isStore] using hj')] at hle
        rw [if_pos ⟨hj', hj⟩]
        omega
      · rw [if_neg fun hn => hj' hn.1]
        omega
    listed := fun j hj halive => by
      refine h.listed j hj fun hz => halive ?_
      change (if id = j ∧ j < d.stores then d.holders j - 1 else d.holders j) = 0
      split <;> omega }

theorem Tidy.withStore (h : d.Tidy held) :
    d.withStore.Tidy (.store d.stores :: held) :=
  { h with
    there := fun b hb => by
      rcases mem_grips_cons.1 hb with rfl | hb
      · exact Nat.lt_succ_self _
      · have := h.there b hb
        cases b with
        | store id => exact Nat.lt_succ_of_lt this
        | _ => exact this
    holders := fun j hj => by
      have hc := countP_grips_cons d held (.store d.stores) (·.isStore j)
      change (d.grips (.store d.stores :: held)).countP _ ≤ if j = d.stores then 1 else d.holders j
      rw [hc]
      by_cases hj' : j = d.stores
      · subst hj'
        have hz : (d.grips held).countP (·.isStore d.stores) = 0 := by
          refine List.countP_eq_zero.2 fun b hb hs => ?_
          cases b with
          | store id =>
            obtain rfl : id = d.stores := beq_iff_eq.1 hs
            exact Nat.lt_irrefl _ (h.there _ hb)
          | _ => exact Bool.false_ne_true hs
        rw [hz, if_pos rfl]
        split <;> omega
      · rw [if_neg hj', if_neg (by simpa [Binding.isStore] using Ne.symm hj')]
        exact h.holders j (Nat.lt_of_le_of_ne (Nat.le_of_lt_succ hj) hj')
    owner := fun sub hs => Nat.lt_succ_of_lt (h.owner sub hs)
    listed := fun j hj halive => by
      change (if j = d.stores then [] else d.subscribers j) = _
      by_cases hj' : j = d.stores
      · rw [if_pos hj']
        refine (List.filter_eq_nil_iff.2 fun sub hs => ?_).symm
        have := h.owner sub (List.mem_range.1 hs)
        simp only [decide_eq_true_eq]
        rintro ⟨ho, -⟩
        exact Nat.lt_irrefl _ (hj' ▸ ho ▸ this)
      · rw [if_neg hj']
        exact h.listed j (Nat.lt_of_le_of_ne (Nat.le_of_lt_succ hj) hj')
          (by simpa [Desk.withStore, hj'] using halive)
    watched := fun n id hn => Nat.lt_succ_of_lt (h.watched n id hn) }

def withSubscription (d : Desk) (id : StoreId) : Desk :=
  { d with
    subscribers := fun j =>
      if id = j ∧ j < d.stores then d.subscribers j ++ [d.subscriptions] else d.subscribers j
    subscriptions := d.subscriptions + 1
    owner := fun sub => if sub = d.subscriptions then id else d.owner sub
    active := fun sub => if sub = d.subscriptions then true else d.active sub
    past := .subscribed d.subscriptions :: d.past }

def cancelled (d : Desk) (sub : SubscriptionId) : Desk :=
  { d with
    subscribers := fun j =>
      if d.holders (d.owner sub) ≠ 0 ∧ d.owner sub = j ∧ j < d.stores then (d.subscribers j).erase sub
      else d.subscribers j
    active := fun x => if sub = x ∧ x < d.subscriptions then false else d.active x
    past := .unsubscribed sub :: d.past }

def called (d : Desk) (sub : SubscriptionId) (state : Json) : Desk :=
  { d with past := .delivered sub state :: d.past }

theorem Tidy.withSubscription (h : d.Tidy held) (hid : id < d.stores) :
    (d.withSubscription id).Tidy (.subscription d.subscriptions :: held) :=
  { h with
    there := fun b hb => by
      rcases mem_grips_cons.1 hb with rfl | hb
      · exact Nat.lt_succ_self _
      · have := h.there b hb
        cases b with
        | subscription sub => exact Nat.lt_succ_of_lt this
        | _ => exact this
    holders := fun j hj => by
      exact (countP_grips_cons d held (.subscription d.subscriptions) (·.isStore j)).trans_le
        (h.holders j hj)
    made := by
      change (Event.subscribed d.subscriptions :: d.past).reverse.filterMap _ = _
      rw [List.reverse_cons, List.filterMap_append, h.made]
      exact List.range_succ.symm
    owner := fun sub hs => by
      change (if sub = d.subscriptions then id else d.owner sub) < d.stores
      split
      · exact hid
      · next hne => exact h.owner sub (Nat.lt_of_le_of_ne (Nat.le_of_lt_succ hs) hne)
    inactive := fun sub => by
      change .unsubscribed sub ∈ Event.subscribed d.subscriptions :: d.past ↔
        sub < d.subscriptions + 1 ∧ (if sub = d.subscriptions then true else d.active sub) = false
      rw [List.mem_cons, h.inactive]
      grind
    listed := fun j hj halive => by
      have hl := h.listed j hj halive
      change (if id = j ∧ j < d.stores then d.subscribers j ++ [d.subscriptions] else d.subscribers j) =
        (List.range (d.subscriptions + 1)).filter fun sub =>
          (if sub = d.subscriptions then id else d.owner sub) = j ∧
            (if sub = d.subscriptions then true else d.active sub)
      have hold : ((List.range d.subscriptions).filter fun sub =>
          (if sub = d.subscriptions then id else d.owner sub) = j ∧
            (if sub = d.subscriptions then true else d.active sub)) = d.subscribers j := by
        rw [hl]
        refine List.filter_congr fun sub hs => ?_
        rw [if_neg (Nat.ne_of_lt (List.mem_range.1 hs)), if_neg (Nat.ne_of_lt (List.mem_range.1 hs))]
      rw [List.range_succ, List.filter_append, hold]
      by_cases hj' : id = j
      · rw [if_pos ⟨hj', hj⟩]
        simp [hj']
      · rw [if_neg fun hn => hj' hn.1]
        simp [hj']
    final := List.pairwise_cons.2 ⟨fun _ _ _ _ he => by simp at he, h.final⟩ }

theorem Tidy.cancelled (h : d.Tidy held) (hs : sub < d.subscriptions) :
    (d.cancelled sub).Tidy held :=
  { h with
    made := by
      change (Event.unsubscribed sub :: d.past).reverse.filterMap _ = _
      rw [List.reverse_cons, List.filterMap_append, h.made]
      exact List.append_nil _
    inactive := fun x => by
      change .unsubscribed x ∈ Event.unsubscribed sub :: d.past ↔
        x < d.subscriptions ∧ (if sub = x ∧ x < d.subscriptions then false else d.active x) = false
      rw [List.mem_cons, h.inactive, Event.unsubscribed.injEq]
      grind
    listed := fun j hj halive => by
      have hl := h.listed j hj halive
      have hnodup : (d.subscribers j).Nodup := hl ▸ List.nodup_range.filter _
      change (if d.holders (d.owner sub) ≠ 0 ∧ d.owner sub = j ∧ j < d.stores then
          (d.subscribers j).erase sub else d.subscribers j) =
        (List.range d.subscriptions).filter fun x => d.owner x = j ∧
          (if sub = x ∧ x < d.subscriptions then false else d.active x)
      by_cases ho : d.owner sub = j
      · rw [if_pos ⟨ho ▸ halive, ho, hj⟩, hnodup.erase_eq_filter, hl, List.filter_filter]
        refine List.filter_congr fun x hx => ?_
        grind
      · rw [if_neg fun hn => ho hn.2.1, hl]
        refine List.filter_congr fun x hx => ?_
        grind
    final := List.pairwise_cons.2 ⟨fun _ _ _ _ he => by simp at he, h.final⟩ }

theorem Tidy.called (h : d.Tidy held) (ha : d.active sub) (state : Json) :
    (d.called sub state).Tidy held :=
  { h with
    made := by
      change (Event.delivered sub state :: d.past).reverse.filterMap _ = _
      rw [List.reverse_cons, List.filterMap_append, h.made]
      exact List.append_nil _
    inactive := fun x => by
      change .unsubscribed x ∈ Event.delivered sub state :: d.past ↔ _
      rw [List.mem_cons, h.inactive]
      simp [Desk.called]
    final := by
      refine List.pairwise_cons.2 ⟨fun e he x s hx hu => ?_, h.final⟩
      cases hx
      have hc := ((h.inactive sub).1 (hu ▸ he)).2
      exact Bool.false_ne_true (hc.symm.trans ha) }

end Desk

theorem Desk.Tidy.withWatches {d : Desk} {held : List Binding} {watches : NodeId → Option StoreId}
    (h : d.Tidy held) (there : ∀ n id, watches n = some id → id < d.stores) :
    { d with watches := watches }.Tidy held :=
  { h with watched := there }

namespace World

variable (w : World)

theorem desk_holdStore (id : StoreId) :
    (w.modifyStore id fun s => { s with holders := s.holders + 1 }).desk = w.desk.hold id := by
  simp only [desk_modifyStore, ite_self]
  rfl

theorem desk_releaseStore (id : StoreId) :
    ((releaseStore id).run w).2.desk = w.desk.letGo id := by
  have hd : (w.modifyStore id fun s => { s with holders := s.holders - 1 }).desk =
      w.desk.letGo id := by
    simp only [desk_modifyStore, ite_self]
    rfl
  rw [releaseStore, Change.run_bind, Change.run_modify, Change.run_bind, Change.run_get]
  dsimp only
  split
  · exact ((leavesDesk_retire _).desk _).trans hd
  · exact hd

theorem desk_pushStore {s : Store} (none : s.subscribers = []) (one : s.holders = 1) :
    ({ w with stores := w.stores.push s } : World).desk = w.desk.withStore := by
  have hstore (j : StoreId) : ({ w with stores := w.stores.push s } : World).store j =
      if j = w.stores.size then s else w.store j := by
    simp only [store, Array.getElem?_push]
    split <;> rfl
  refine Desk.ext (Array.size_push s) (funext fun j => ?_) (funext fun j => ?_) rfl rfl rfl rfl rfl rfl
  · exact (congrArg Store.subscribers (hstore j)).trans
      ((apply_ite ..).trans (congrArg (ite _ · _) none))
  · exact (congrArg Store.holders (hstore j)).trans ((apply_ite ..).trans (congrArg (ite _ · _) one))

theorem desk_withSubscription (id : StoreId) (callback : Closure) :
    (w.withSubscription id callback).desk = w.desk.withSubscription id := by
  have hsub (s : Subscription) (sub : SubscriptionId) :
      ({ w with subscriptions := w.subscriptions.push s } : World).subscription sub =
        if sub = w.subscriptions.size then s else w.subscription sub := by
    simp only [subscription, Array.getElem?_push]
    split <;> rfl
  rw [withSubscription, desk_note, desk_modifyStore]
  refine Desk.ext rfl rfl (funext fun j => ite_self _) (Array.size_push _) (funext fun sub => ?_)
    (funext fun sub => ?_) rfl rfl rfl
  · exact (congrArg Subscription.store (hsub _ sub)).trans (apply_ite ..)
  · exact (congrArg Subscription.active (hsub _ sub)).trans (apply_ite ..)

theorem desk_cancelled (sub : SubscriptionId) : (w.cancelled sub).desk = w.desk.cancelled sub := by
  simp only [cancelled]
  split
  · next ha =>
    have ha : w.desk.holders (w.desk.owner sub) ≠ 0 := bne_iff_ne.1 ha
    rw [desk_note, desk_modifyStore, desk_modifySubscription]
    refine Desk.ext rfl (funext fun j => ?_) (funext fun j => ite_self _) rfl
      (funext fun x => ite_self _) rfl rfl rfl rfl
    change (if w.desk.owner sub = j ∧ j < w.desk.stores then _ else _) =
      if w.desk.holders (w.desk.owner sub) ≠ 0 ∧ w.desk.owner sub = j ∧ j < w.desk.stores then _
        else _
    simp only [ha, ne_eq, not_false_eq_true, true_and]
    rfl
  · next ha =>
    have ha : ¬ w.desk.holders (w.desk.owner sub) ≠ 0 := fun hn => ha (bne_iff_ne.2 hn)
    rw [desk_note, desk_modifySubscription]
    refine Desk.ext rfl (funext fun j => ?_) rfl rfl (funext fun x => ite_self _) rfl rfl rfl rfl
    exact (if_neg fun hn => ha hn.1).symm

end World

end Reactivity
