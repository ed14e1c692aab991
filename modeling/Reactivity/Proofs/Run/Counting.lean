import Reactivity.Proofs.Run.Reading
import Mathlib.Algebra.BigOperators.Group.List.Basic
import Mathlib.Algebra.GroupWithZero.Nat

namespace Reactivity

def ObjectState.containerCount (o : ObjectState) : Nat :=
  (o.properties.map (·.2.containerCount)).sum + 1

def ArrayState.containerCount (a : ArrayState) : Nat :=
  (a.cells.map Cell.containerCount).sum + 1

theorem foldl_add_eq {α : Type} (f : α → Nat) (xs : List α) (n : Nat) :
    xs.foldl (fun n x => n + f x) n = n + (xs.map f).sum := by
  induction xs generalizing n with
  | nil => rfl
  | cons x xs ih => rw [List.foldl_cons, ih, List.map_cons, List.sum_cons, Nat.add_assoc]

theorem World.containerCount_eq (w : World) :
    w.containerCount = (w.objects.toList.map ObjectState.containerCount).sum +
      (w.arrays.toList.map ArrayState.containerCount).sum := by
  have ho : (fun n (o : ObjectState) =>
      o.properties.foldl (fun n (p : String × Cell) => n + p.2.containerCount) (n + 1)) =
        fun n o => n + o.containerCount := by
    funext n o
    rw [foldl_add_eq (fun p : String × Cell => p.2.containerCount), ObjectState.containerCount]
    omega
  have ha : (fun n (a : ArrayState) => a.cells.foldl (fun n c => n + c.containerCount) (n + 1)) =
      fun n a => n + a.containerCount := by
    funext n a
    rw [foldl_add_eq Cell.containerCount, ArrayState.containerCount]
    omega
  have h : w.containerCount = w.arrays.foldl (fun n a => n + a.containerCount)
      (w.objects.foldl (fun n o => n + o.containerCount) 0) := by
    rw [← ho, ← ha]
    rfl
  rw [h, ← Array.foldl_toList, ← Array.foldl_toList, foldl_add_eq, foldl_add_eq, Nat.zero_add]

theorem World.size_le_containerCount (w : World) :
    w.objects.size + w.arrays.size ≤ w.containerCount := by
  have le {α : Type} (f : α → Nat) (hf : ∀ x, 1 ≤ f x) (xs : List α) :
      xs.length ≤ (xs.map f).sum := by
    induction xs with
    | nil => exact Nat.le_refl 0
    | cons x xs ih =>
      have := hf x
      rw [List.length_cons, List.map_cons, List.sum_cons]
      omega
  have ho := le ObjectState.containerCount (fun o => Nat.le_add_left 1 _) w.objects.toList
  have ha := le ArrayState.containerCount (fun a => Nat.le_add_left 1 _) w.arrays.toList
  rw [Array.length_toList] at ho ha
  rw [w.containerCount_eq]
  omega

theorem sum_map_modify {α : Type} (g : α → Nat) (f : α → α) {xs : List α} {i : Nat} {x : α}
    (h : xs[i]? = some x) : ((xs.modify i f).map g).sum + g x = (xs.map g).sum + g (f x) := by
  induction xs generalizing i with
  | nil => cases h
  | cons y xs ih =>
    cases i with
    | zero =>
      obtain rfl := Option.some.inj h
      simp only [List.modify_zero_cons, List.map_cons, List.sum_cons]
      omega
    | succ i =>
      have := ih h
      simp only [List.modify_succ_cons, List.map_cons, List.sum_cons]
      omega

section Modify

variable (w : World)

theorem World.containerCount_modifyObject {id : ObjectId} (hid : id < w.objects.size)
    (f : ObjectState → ObjectState) :
    (w.modifyObject id f).containerCount + (w.object id).containerCount =
      w.containerCount + (f (w.object id)).containerCount := by
  have hx : w.objects.toList[id]? = some (w.object id) := by simp [World.object, hid]
  have h := sum_map_modify ObjectState.containerCount f hx
  rw [World.containerCount_eq, World.containerCount_eq, World.modifyObject, Array.toList_modify]
  dsimp only
  omega

theorem World.containerCount_modifyArray {id : ArrayId} (hid : id < w.arrays.size)
    (f : ArrayState → ArrayState) :
    (w.modifyArray id f).containerCount + (w.array id).containerCount =
      w.containerCount + (f (w.array id)).containerCount := by
  have hx : w.arrays.toList[id]? = some (w.array id) := by simp [World.array, hid]
  have h := sum_map_modify ArrayState.containerCount f hx
  rw [World.containerCount_eq, World.containerCount_eq, World.modifyArray, Array.toList_modify]
  dsimp only
  omega

theorem World.containerCount_modifyReaders {h : Handle} (hv : h.Valid w) (f : Readers → Readers) :
    (w.modifyReaders h f).containerCount = w.containerCount := by
  cases h with
  | object id => exact Nat.add_right_cancel (w.containerCount_modifyObject hv _)
  | array id => exact Nat.add_right_cancel (w.containerCount_modifyArray hv _)
  | memo n => rfl

theorem World.containerCount_trackedIn {h : Handle} (hv : h.Valid w) (rt : RuntimeId) (key : Key) :
    (w.trackedIn rt h key).containerCount = w.containerCount := by
  rw [World.trackedIn]
  split
  · rfl
  · rw [World.trackedBy]
    split
    · rfl
    · exact World.containerCount_modifyReaders (w.note _) (hv.mono (.note w _)) _

end Modify

/-- `w.Reveals P w'`: only events of which `P` holds lie between the states, and what has nothing
plain in it holds the same. -/
structure World.Reveals (P : Event → Prop) (w w' : World) : Prop where
  grows : w.Extends w'
  runtimes : w'.runtimes = w.runtimes
  nodes : w.SameNodes w'
  past : ∃ new, w'.history = new ++ w.history ∧ ∀ e ∈ new, P e
  objects : ∀ id vs, id < w.objects.size → (w.object id).properties.values? = some vs →
    (w'.object id).properties = (w.object id).properties
  arrays : ∀ id vs, id < w.arrays.size → (w.array id).cells.mapM Cell.value? = some vs →
    (w'.array id).cells = (w.array id).cells

namespace World.Reveals

variable {P Q : Event → Prop} {w w' w'' : World}

theorem refl (w : World) : w.Reveals P w :=
  ⟨.refl w, rfl, .refl w, ⟨[], rfl, by simp⟩, fun _ _ _ _ => rfl, fun _ _ _ _ => rfl⟩

theorem trans (h : w.Reveals P w') (h' : w'.Reveals P w'') : w.Reveals P w'' := by
  obtain ⟨new, hn, hp⟩ := h.past
  obtain ⟨new', hn', hp'⟩ := h'.past
  refine ⟨h.grows.trans h'.grows, h'.runtimes.trans h.runtimes, h.nodes.trans h'.nodes,
    ⟨new' ++ new, ?_, ?_⟩, fun id vs hid hvs => ?_, fun id vs hid hvs => ?_⟩
  · rw [hn', hn, List.append_assoc]
  · exact fun e he => (List.mem_append.1 he).elim (hp' e) (hp e)
  · have heq := h.objects id vs hid hvs
    exact (h'.objects id vs (h.grows.objects id hid).1 (heq ▸ hvs)).trans heq
  · have heq := h.arrays id vs hid hvs
    exact (h'.arrays id vs (h.grows.arrays id hid).1 (heq ▸ hvs)).trans heq

theorem mono (hPQ : ∀ e, P e → Q e) (h : w.Reveals P w') : w.Reveals Q w' :=
  { h with past := h.past.imp fun _ hp => ⟨hp.1, fun e he => hPQ e (hp.2 e he)⟩ }

theorem of_sameContent (he : w.Extends w') (hr : w'.runtimes = w.runtimes) (hn : w.SameNodes w')
    (hp : ∃ new, w'.history = new ++ w.history ∧ ∀ e ∈ new, P e) (h : w.SameContent w') :
    w.Reveals P w' :=
  ⟨he, hr, hn, hp, fun id _ _ _ => h.1 id, fun id _ _ _ => h.2 id⟩

theorem shown (h : w.Reveals P w') {x : Handle} {r : Result} (hx : x.Valid w)
    (container : ∀ m, x ≠ .memo m) (hr : x.whole.shown w = some r) : x.whole.shown w' = some r := by
  cases x with
  | object id =>
    obtain ⟨vs, hvs, -⟩ := Option.map_eq_some_iff.1 hr
    rw [← hr, Handle.whole, Read.shown, Read.shown, h.objects id vs hx hvs]
  | array id =>
    obtain ⟨vs, hvs, -⟩ := Option.map_eq_some_iff.1 hr
    rw [← hr, Handle.whole, Read.shown, Read.shown, h.arrays id vs hx hvs]
  | memo m => exact absurd rfl (container m)

theorem keys (h : w.Reveals P w') {x : Handle} {r : Result} (hx : x.Valid w)
    (container : ∀ m, x ≠ .memo m) (hr : x.whole.shown w = some r) :
    x.whole.keys w' = x.whole.keys w := by
  cases x with
  | object id =>
    obtain ⟨vs, hvs, -⟩ := Option.map_eq_some_iff.1 hr
    rw [Handle.whole, Read.keys, Read.keys, h.objects id vs hx hvs]
  | array id =>
    obtain ⟨vs, hvs, -⟩ := Option.map_eq_some_iff.1 hr
    rw [Handle.whole, Read.keys, Read.keys, h.arrays id vs hx hvs]
  | memo m => exact absurd rfl (container m)

theorem currentReader (h : w.Reveals P w') (rt : RuntimeId) :
    w'.currentReader rt = w.currentReader rt := by
  rw [World.currentReader, World.currentReader, World.runtime, World.runtime, h.runtimes]

theorem adds (h : w.Reveals P w') {e : Event} (he : w.Adds w' e) : P e := by
  obtain ⟨new, hn, hp⟩ := h.past
  obtain ⟨new', hn', hm⟩ := he
  exact hp e (List.append_cancel_right (hn.symm.trans hn') ▸ hm)

end World.Reveals

def Event.IsWrapped (e : Event) : Prop :=
  ∃ vs, e = .wrapped vs

/-- `w.Unwraps n w'`: plain JSON with so many containers in it has been copied into containers of
its own. -/
structure World.Unwraps (n : Nat) (w w' : World) : Prop where
  reveals : w.Reveals Event.IsWrapped w'
  objects : ∀ id, id < w.objects.size → w'.object id = w.object id
  arrays : ∀ id, id < w.arrays.size → w'.array id = w.array id
  count : w'.containerCount = w.containerCount + n

theorem World.Unwraps.refl (w : World) : w.Unwraps 0 w :=
  ⟨.refl w, fun _ _ => rfl, fun _ _ => rfl, rfl⟩

theorem World.Unwraps.trans {w w' w'' : World} {m n : Nat} (h : w.Unwraps m w')
    (h' : w'.Unwraps n w'') : w.Unwraps (m + n) w'' where
  reveals := h.reveals.trans h'.reveals
  objects id hid :=
    (h'.objects id (h.reveals.grows.objects id hid).1).trans (h.objects id hid)
  arrays id hid := (h'.arrays id (h.reveals.grows.arrays id hid).1).trans (h.arrays id hid)
  count := by rw [h'.count, h.count, Nat.add_assoc]

theorem Cell.containerCount_ofJson (j : Json) : (Cell.ofJson j).containerCount = j.containerCount := by
  cases j <;> rfl

theorem Json.containerCountMembers_eq (members : List (String × Json)) :
    containerCountMembers members =
      ((members.map fun p => (p.1, Cell.ofJson p.2)).map (·.2.containerCount)).sum := by
  induction members with
  | nil => rfl
  | cons p members ih =>
    rw [containerCountMembers, ih]
    simp [Cell.containerCount_ofJson]

theorem Json.containerCountItems_eq (items : List Json) :
    containerCountItems items = ((items.map Cell.ofJson).map Cell.containerCount).sum := by
  induction items with
  | nil => rfl
  | cons j items ih =>
    rw [containerCountItems, ih]
    simp [Cell.containerCount_ofJson]

theorem unwraps_wrap (rt : RuntimeId) (j : Json) (w : World) :
    w.Unwraps j.containerCount ((wrap rt j).run w).2 := by
  cases j with
  | object members =>
    have he := (World.Extends.note w (.wrapped _)).trans (.pushObject (w.note (.wrapped
      ((members.map fun p => (p.1, Cell.ofJson p.2)).filterMap (·.2.value?))))
        { runtime := rt, properties := members.map fun p => (p.1, Cell.ofJson p.2) })
    refine ⟨⟨he, rfl, .of_eq rfl, ⟨[_], rfl, ?_⟩, fun id _ hid _ => ?_, fun _ _ _ _ => rfl⟩, fun id hid => ?_,
      fun _ _ => rfl, ?_⟩
    · exact fun e he => ⟨_, List.mem_singleton.1 he⟩
    · show ((w.objects.push _)[id]?.getD _).properties = _
      simp [World.object, Array.getElem?_push, Nat.ne_of_lt hid]
    · show (w.objects.push _)[id]?.getD _ = _
      simp [World.object, Array.getElem?_push, Nat.ne_of_lt hid]
    · rw [World.containerCount_eq, World.containerCount_eq, Json.containerCount,
        Json.containerCountMembers_eq]
      show ((w.objects.push _).toList.map _).sum + (w.arrays.toList.map _).sum = _
      rw [Array.toList_push, List.map_append, List.sum_append]
      simp only [List.map_cons, List.map_nil, List.sum_cons, List.sum_nil,
        ObjectState.containerCount]
      omega
  | array items =>
    have he := (World.Extends.note w (.wrapped _)).trans (.pushArray (w.note (.wrapped
      ((items.map Cell.ofJson).filterMap Cell.value?)))
        { runtime := rt, cells := items.map Cell.ofJson })
    refine ⟨⟨he, rfl, .of_eq rfl, ⟨[_], rfl, ?_⟩, fun _ _ _ _ => rfl, fun id _ hid _ => ?_⟩, fun _ _ => rfl,
      fun id hid => ?_, ?_⟩
    · exact fun e he => ⟨_, List.mem_singleton.1 he⟩
    · show ((w.arrays.push _)[id]?.getD _).cells = _
      simp [World.array, Array.getElem?_push, Nat.ne_of_lt hid]
    · show (w.arrays.push _)[id]?.getD _ = _
      simp [World.array, Array.getElem?_push, Nat.ne_of_lt hid]
    · rw [World.containerCount_eq, World.containerCount_eq, Json.containerCount,
        Json.containerCountItems_eq]
      show (w.objects.toList.map _).sum + ((w.arrays.push _).toList.map _).sum = _
      rw [Array.toList_push, List.map_append, List.sum_append]
      simp only [List.map_cons, List.map_nil, List.sum_cons, List.sum_nil,
        ArrayState.containerCount]
      omega
  | _ => exact .refl w

theorem unwraps_toValue (rt : RuntimeId) (c : Cell) (w : World) :
    w.Unwraps c.containerCount ((c.toValue rt).run w).2 := by
  cases c with
  | value v => exact .refl w
  | plain j => exact unwraps_wrap rt j w

/-- Cells are turned into values, one after the other. What is a value stays as it is. -/
theorem run_mapCells {α β : Type} (rt : RuntimeId) (f : α → Cell) (mk : α → Value → β)
    (xs : List α) (w : World) :
    ∃ vs, ((xs.mapM fun x => return mk x (← (f x).toValue rt) : Change (List β)).run w).1 =
        List.zipWith mk xs vs ∧
      List.Forall₂ (fun x v => ∀ u, f x = .value u → v = u) xs vs ∧
      w.Unwraps (xs.map fun x => (f x).containerCount).sum
        ((xs.mapM fun x => return mk x (← (f x).toValue rt) : Change (List β)).run w).2 := by
  induction xs generalizing w with
  | nil => exact ⟨[], rfl, .nil, .refl w⟩
  | cons x xs ih =>
    obtain ⟨vs, hys, hvs, hw⟩ := ih (((f x).toValue rt).run w).2
    have hx := unwraps_toValue rt (f x) w
    refine ⟨(((f x).toValue rt).run w).1 :: vs, ?_, .cons (fun u hu => ?_) hvs, ?_⟩
    · rw [List.mapM_cons]
      simp only [Change.run_bind]
      exact congrArg (mk x _ :: ·) hys
    · rw [hu]
      rfl
    · rw [List.mapM_cons]
      exact hx.trans hw

/-- Who reads a container is registered on it, or has been shown all of it. -/
def Event.IsReadBy (reader : Option NodeId) (h : Handle) (r : Result) (e : Event) : Prop :=
  e.IsWrapped ∨ ∃ n, reader = some n ∧ ((∃ key, e = .tracked n h key) ∨ e = .saw n h.whole r)

/-- `w.ShowsWhole h r w'`: all of a container has been read, with the result `r`. -/
structure World.ShowsWhole (w : World) (h : Handle) (r : Result) (w' : World) : Prop where
  reveals : w.Reveals (Event.IsReadBy (w.currentReader (w.owner h)) h r) w'
  count : w'.containerCount = w.containerCount
  shown : h.whole.shown w' = some r
  saw : ∀ n, w.currentReader (w.owner h) = some n → w.Adds w' (.saw n h.whole r)
  tracked : ∀ n, w.currentReader (w.owner h) = some n → ∀ key ∈ h.whole.keys w',
    w.Adds w' (.tracked n h key)

section Tracking

variable {w : World} {h : Handle} {rt : RuntimeId} {r : Result}

theorem reveals_trackedIn (w : World) (h : Handle) (rt : RuntimeId) (r : Result) (key : Key) :
    w.Reveals (Event.IsReadBy (w.currentReader rt) h r) (w.trackedIn rt h key) := by
  refine .of_sameContent (.trackedIn ..) (World.runtimes_trackedIn ..) (.trackedIn ..)
    ⟨_, World.history_trackedIn .., fun e he => .inr ?_⟩ (.trackedIn ..)
  obtain ⟨n, hn, rfl⟩ := Option.map_eq_some_iff.1 (Option.mem_toList.1 he)
  exact ⟨n, hn, .inl ⟨key, rfl⟩⟩

theorem run_trackAll {α : Type} (rt : RuntimeId) (r : Result) (hv : h.Valid w) (key : α → Key)
    (xs : List α) :
    w.Reveals (Event.IsReadBy (w.currentReader rt) h r)
        ((xs.forM fun x => track rt h (key x) : Change Unit).run w).2 ∧
      w.SameContent ((xs.forM fun x => track rt h (key x) : Change Unit).run w).2 ∧
      ((xs.forM fun x => track rt h (key x) : Change Unit).run w).2.containerCount =
        w.containerCount ∧
      ∀ n, w.currentReader rt = some n → ∀ x ∈ xs,
        w.Adds ((xs.forM fun x => track rt h (key x) : Change Unit).run w).2 (.tracked n h (key x)) := by
  induction xs generalizing w with
  | nil => exact ⟨.refl w, .refl w, rfl, fun _ _ _ hx => (nomatch hx)⟩
  | cons x xs ih =>
    have hrun : ((x :: xs).forM fun x => track rt h (key x) : Change Unit).run w =
        (xs.forM fun x => track rt h (key x) : Change Unit).run (w.trackedIn rt h (key x)) := by
      show (track rt h (key x) >>= fun _ => xs.forM fun x => track rt h (key x)).run w = _
      rw [Change.run_bind, run_track]
    have ht : w.Reveals (Event.IsReadBy (w.currentReader rt) h r) (w.trackedIn rt h (key x)) :=
      reveals_trackedIn w h rt r (key x)
    obtain ⟨hr, hs, hc, ha⟩ := ih (hv.mono ht.grows)
    rw [ht.currentReader] at hr ha
    rw [hrun]
    refine ⟨ht.trans hr, (World.SameContent.trackedIn ..).trans hs,
      hc.trans (World.containerCount_trackedIn w hv rt (key x)), fun n hn y hy => ?_⟩
    rcases List.mem_cons.1 hy with rfl | hy
    · exact (adds_trackedIn hn h _).mono (.refl w) hr.grows
    · exact (ha n hn y hy).mono ht.grows (.refl _)

theorem reveals_noteRead (w : World) (h : Handle) (rt : RuntimeId) (r : Result) :
    w.Reveals (Event.IsReadBy (w.currentReader rt) h r) ((noteRead rt h.whole r).run w).2 := by
  rw [run_noteRead]
  cases hn : w.currentReader rt with
  | none => exact .refl w
  | some n =>
    refine .of_sameContent (.note w _) rfl (.of_eq rfl) ⟨[_], rfl, fun e he => .inr ⟨n, rfl, .inr ?_⟩⟩
      (.of_eq rfl rfl)
    exact List.mem_singleton.1 he

theorem adds_noteRead {n : NodeId} (hn : w.currentReader rt = some n) :
    w.Adds ((noteRead rt h.whole r).run w).2 (.saw n h.whole r) := by
  rw [run_noteRead, hn]
  exact ⟨[_], rfl, List.mem_singleton_self _⟩

end Tracking

theorem Event.IsWrapped.isReadBy {e : Event} (h : e.IsWrapped) (reader : Option NodeId) (x : Handle)
    (r : Result) : e.IsReadBy reader x r :=
  .inl h

theorem sum_map_eq_zero {α : Type} {f : α → Nat} {xs : List α} (h : ∀ x ∈ xs, f x = 0) :
    (xs.map f).sum = 0 := by
  rw [List.map_congr_left h]
  simp

/-- The properties of an object are turned into values and are what is shown. -/
theorem unwraps_entries {id : ObjectId} {w w' : World} {entries : List (String × Value)}
    {vs : List Value} (hid : id < w.objects.size)
    (hentries : entries = List.zipWith (fun p v => (p.1, v)) (w.object id).properties vs)
    (hvs : List.Forall₂ (fun p v => ∀ u, p.2 = Cell.value u → v = u) (w.object id).properties vs)
    (hw : w.Unwraps ((w.object id).properties.map fun p => p.2.containerCount).sum w') :
    w.Reveals Event.IsWrapped (w'.modifyObject id fun o =>
        { o with properties := entries.map fun p => (p.1, .value p.2) }) ∧
      (w'.modifyObject id fun o =>
        { o with properties := entries.map fun p => (p.1, .value p.2) }).containerCount =
        w.containerCount := by
  have hid' := (hw.reveals.grows.objects id hid).1
  have hprops := World.properties_modifyObject hid' (entries.map fun p => (p.1, .value p.2))
  -- Who was a value before is the same value now.
  have hsame : ∀ us, (w.object id).properties.values? = some us →
      (entries.map fun p => (p.1, Cell.value p.2)) = (w.object id).properties := by
    intro us hus
    rw [hentries]
    rw [Properties.values?_eq_some.1 hus] at hvs ⊢
    clear hus hentries hprops
    induction us generalizing vs with
    | nil => cases hvs; rfl
    | cons u us ih =>
      rw [List.map_cons] at hvs
      cases hvs with
      | cons h hs =>
        obtain rfl := h u.2 rfl
        simpa using ih hs
  have hmodify : w'.Reveals Event.IsWrapped (w'.modifyObject id fun o =>
      { o with properties := entries.map fun p => (p.1, .value p.2) }) := by
    refine ⟨.modifyObject w' id fun _ => rfl, rfl, .of_eq rfl, ⟨[], rfl, by simp⟩, fun j us hj hus => ?_,
      fun _ _ _ _ => rfl⟩
    by_cases h : id = j
    · subst h
      rw [hprops]
      rw [hw.objects id hid] at hus ⊢
      exact hsame us hus
    · rw [World.object_modifyObject, if_neg fun hc => h hc.1]
  refine ⟨hw.reveals.trans hmodify, ?_⟩
  have hcount := w'.containerCount_modifyObject hid' fun o =>
    { o with properties := entries.map fun p => (p.1, .value p.2) }
  have hzero : ((entries.map fun p => (p.1, Cell.value p.2)).map (·.2.containerCount)).sum = 0 :=
    sum_map_eq_zero fun p hp => by
      obtain ⟨q, -, rfl⟩ := List.mem_map.1 hp
      rfl
  simp only [ObjectState.containerCount, hw.objects id hid, hw.count, hzero] at hcount
  omega

/-- All of an object is read: its shape is tracked, all plain JSON in it is unwrapped, and its
properties are tracked. -/
theorem showsWhole_entries {id : ObjectId} {w : World} (hid : id < w.objects.size) :
    w.ShowsWhole (.object id) (.ofEntries (id.entries.run w).1) (id.entries.run w).2 := by
  -- The states in between are named in the order in which they are come to.
  generalize hw₁ : w.trackedIn (w.object id).runtime (.object id) .shape = w₁
  obtain ⟨vs, hentries, hvs, hunwraps⟩ := run_mapCells (w.object id).runtime
    (fun p : String × Cell => p.2) (fun p v => (p.1, v)) (w.object id).properties w₁
  generalize hrun₂ : ((w.object id).properties.mapM fun p =>
    return (p.1, ← p.2.toValue (w.object id).runtime) : Change (List (String × Value))).run w₁ = o
    at hentries hunwraps
  obtain ⟨entries, w₂⟩ := o
  generalize hw₃ : w₂.modifyObject id (fun o =>
    { o with properties := entries.map fun p => (p.1, .value p.2) }) = w₃
  generalize hrun₄ : (entries.forM fun p =>
    track (w.object id).runtime (.object id) (.property p.1) : Change Unit).run w₃ = o₄
  obtain ⟨_, w₄⟩ := o₄
  have hrun : id.entries.run w = (entries,
      ((noteRead (w.object id).runtime (.entries id) (.ofEntries entries)).run w₄).2) := by
    rw [ObjectId.entries]
    simp only [Change.run_bind, Change.run_get, run_track, hw₁, Change.run_modify, hrun₂, hw₃,
      hrun₄]
    rfl
  have hv : Handle.Valid w (.object id) := hid
  have hshape := reveals_trackedIn w (.object id) (w.object id).runtime (.ofEntries entries) .shape
  have hcontent₁ := World.SameContent.trackedIn w (w.object id).runtime (.object id) .shape
  have hcount₁ := World.containerCount_trackedIn w hv (w.object id).runtime .shape
  rw [hw₁] at hshape hcontent₁ hcount₁
  have hid₁ := (hshape.grows.objects id hid).1
  rw [← hcontent₁.1 id] at hentries hvs hunwraps
  obtain ⟨hr₃, hc₃⟩ := unwraps_entries hid₁ hentries hvs hunwraps
  rw [hw₃] at hr₃ hc₃
  have hr₃' := hshape.trans (hr₃.mono fun _ h => h.isReadBy _ (.object id) (.ofEntries entries))
  have hid₂ := (hunwraps.reveals.grows.objects id hid₁).1
  have hprops₃ := World.properties_modifyObject hid₂ (entries.map fun p => (p.1, .value p.2))
  rw [hw₃] at hprops₃
  obtain ⟨hr₄, hs₄, hc₄, ha₄⟩ := run_trackAll (w.object id).runtime (.ofEntries entries)
    (hv.mono hr₃'.grows) (fun p : String × Value => .property p.1) entries
  rw [hrun₄] at hr₄ hs₄ hc₄ ha₄
  rw [hr₃'.currentReader] at hr₄ ha₄
  have hr₄' := hr₃'.trans hr₄
  have hr₅ := reveals_noteRead w₄ (.object id) (w.object id).runtime (.ofEntries entries)
  rw [hr₄'.currentReader] at hr₅
  rw [hrun]
  have hshown₄ : (Handle.object id).whole.shown w₄ = some (.ofEntries entries) := by
    rw [Handle.whole, Read.shown, hs₄.1 id, hprops₃, Properties.values?_eq_some.2 rfl]
    rfl
  refine ⟨hr₄'.trans hr₅, ?_,
    hr₅.shown (hv.mono hr₄'.grows) (fun _ h => by cases h) hshown₄, fun n hn => ?_,
    fun n hn key hkey => ?_⟩
  · have hc₅ : ((noteRead (w.object id).runtime (.entries id) (.ofEntries entries)).run
        w₄).2.containerCount = w₄.containerCount := by
      rw [run_noteRead]
      cases w₄.currentReader (w.object id).runtime <;> rfl
    rw [hc₅, hc₄, hc₃, hcount₁]
  · have hn₄ : w₄.currentReader (w.object id).runtime = some n := by
      rw [hr₄'.currentReader]
      exact hn
    exact (adds_noteRead (h := .object id) hn₄).mono hr₄'.grows (.refl _)
  · have hprops₅ := hr₅.objects id entries (hr₄'.grows.objects id hid).1 (by
      rw [hs₄.1 id, hprops₃, Properties.values?_eq_some.2 rfl])
    have hnames : Properties.names (entries.map fun p => (p.1, Cell.value p.2)) =
        entries.map (·.1) := List.map_map
    simp only [Handle.whole, Read.keys] at hkey hprops₅
    rw [hprops₅, hs₄.1 id, hprops₃, hnames] at hkey
    rcases List.mem_cons.1 hkey with rfl | hkey
    · have ha := adds_trackedIn hn (.object id) .shape
      rw [show w.owner (.object id) = (w.object id).runtime from rfl, hw₁] at ha
      exact ha.mono (.refl w) ((hr₃.grows.trans hr₄.grows).trans hr₅.grows)
    · obtain ⟨name, hname, rfl⟩ := List.mem_map.1 hkey
      obtain ⟨p, hp, rfl⟩ := List.mem_map.1 hname
      exact (ha₄ n hn p hp).mono hr₃'.grows hr₅.grows

theorem unwraps_contents {id : ArrayId} {w w' : World} {vs : List Value} (hid : id < w.arrays.size)
    (hvs : List.Forall₂ (fun c v => ∀ u, c = Cell.value u → v = u) (w.array id).cells vs)
    (hw : w.Unwraps ((w.array id).cells.map Cell.containerCount).sum w') :
    w.Reveals Event.IsWrapped (w'.modifyArray id fun a => { a with cells := vs.map .value }) ∧
      (w'.modifyArray id fun a => { a with cells := vs.map .value }).containerCount =
        w.containerCount := by
  have hid' := (hw.reveals.grows.arrays id hid).1
  have hcells : ((w'.modifyArray id fun a => { a with cells := vs.map .value }).array id).cells =
      vs.map .value := World.cells_modifyArray hid'
  have hsame : ∀ us, (w.array id).cells.mapM Cell.value? = some us →
      vs.map Cell.value = (w.array id).cells := by
    intro us hus
    rw [mapM_value?_eq_some.1 hus] at hvs ⊢
    clear hus hcells
    induction us generalizing vs with
    | nil => cases hvs; rfl
    | cons u us ih =>
      rw [List.map_cons] at hvs
      cases hvs with
      | cons h hs =>
        obtain rfl := h u rfl
        rw [List.map_cons, List.map_cons, ih hs]
  have hmodify : w'.Reveals Event.IsWrapped
      (w'.modifyArray id fun a => { a with cells := vs.map .value }) := by
    refine ⟨.modifyArray w' id fun _ => rfl, rfl, .of_eq rfl, ⟨[], rfl, by simp⟩, fun _ _ _ _ => rfl,
      fun j us hj hus => ?_⟩
    by_cases h : id = j
    · subst h
      rw [hcells]
      rw [hw.arrays id hid] at hus ⊢
      exact hsame us hus
    · rw [World.array_modifyArray, if_neg fun hc => h hc.1]
  refine ⟨hw.reveals.trans hmodify, ?_⟩
  have hcount := w'.containerCount_modifyArray hid' fun a => { a with cells := vs.map .value }
  have hzero : ((vs.map Cell.value).map Cell.containerCount).sum = 0 := sum_map_eq_zero fun c hc => by
    obtain ⟨v, -, rfl⟩ := List.mem_map.1 hc
    rfl
  simp only [ArrayState.containerCount, hw.arrays id hid, hw.count, hzero] at hcount
  omega

/-- All of an array is read: its shape is tracked, all plain JSON in it is unwrapped, and its slots
are tracked. -/
theorem showsWhole_values {id : ArrayId} {w : World} (hid : id < w.arrays.size) :
    w.ShowsWhole (.array id) (.list ((id.values.run w).1.map .value)) (id.values.run w).2 := by
  generalize hw₁ : w.trackedIn (w.array id).runtime (.array id) .shape = w₁
  have hv : Handle.Valid w (.array id) := hid
  have hcontent₁ := World.SameContent.trackedIn w (w.array id).runtime (.array id) .shape
  have hcount₁ := World.containerCount_trackedIn w hv (w.array id).runtime .shape
  have hrt₁ := (World.Extends.trackedIn w (w.array id).runtime (.array id) .shape).arrays id hid
  rw [hw₁] at hcontent₁ hcount₁ hrt₁
  obtain ⟨us, hus, hresolved, hunwraps⟩ := run_mapCells (w₁.array id).runtime
    (fun c : Cell => c) (fun _ v => v) (w₁.array id).cells w₁
  simp only [bind_pure] at hus hunwraps
  generalize hrun₂ : ((w₁.array id).cells.mapM fun c =>
    c.toValue (w₁.array id).runtime : Change (List Value)).run w₁ = o at hus hunwraps
  obtain ⟨vs, w₂⟩ := o
  obtain rfl : vs = us := hus.trans (zipWith_right hresolved.length_eq)
  generalize hw₃ : w₂.modifyArray id (fun a => { a with cells := vs.map .value }) = w₃
  generalize hrun₄ : ((List.range vs.length).forM fun i =>
    track (w.array id).runtime (.array id) (.index i) : Change Unit).run w₃ = o₄
  obtain ⟨_, w₄⟩ := o₄
  have hrun : id.values.run w = (vs,
      ((noteRead (w.array id).runtime (.values id) (.list (vs.map .value))).run w₄).2) := by
    rw [ArrayId.values, ArrayId.contents]
    simp only [Change.run_bind, Change.run_get, run_track, hw₁, Change.run_modify, hrun₂]
    show (_, _) = (vs, _)
    have hvs : ((pure vs : Change (List Value)).run w₃) = (vs, w₃) := rfl
    simp only [hw₃, hvs, hrun₄]
  have hshape := reveals_trackedIn w (.array id) (w.array id).runtime (.list (vs.map .value)) .shape
  rw [hw₁] at hshape
  obtain ⟨hr₃, hc₃⟩ := unwraps_contents hrt₁.1 hresolved hunwraps
  rw [hw₃] at hr₃ hc₃
  have hr₃' := hshape.trans (hr₃.mono fun _ h => h.isReadBy _ (.array id) (.list (vs.map .value)))
  have hid₂ := (hunwraps.reveals.grows.arrays id hrt₁.1).1
  have hcells₃ : (w₃.array id).cells = vs.map .value := by
    rw [← hw₃]
    exact World.cells_modifyArray hid₂
  obtain ⟨hr₄, hs₄, hc₄, ha₄⟩ := run_trackAll (w.array id).runtime (.list (vs.map .value))
    (hv.mono hr₃'.grows) Key.index (List.range vs.length)
  rw [hrun₄] at hr₄ hs₄ hc₄ ha₄
  rw [hr₃'.currentReader] at hr₄ ha₄
  have hr₄' := hr₃'.trans hr₄
  have hr₅ := reveals_noteRead w₄ (.array id) (w.array id).runtime (.list (vs.map .value))
  rw [hr₄'.currentReader] at hr₅
  rw [hrun]
  have hshown₄ : (Handle.array id).whole.shown w₄ = some (.list (vs.map .value)) := by
    rw [Handle.whole, Read.shown, hs₄.2 id, hcells₃, mapM_value?_eq_some.2 rfl]
    rfl
  refine ⟨hr₄'.trans hr₅, ?_,
    hr₅.shown (hv.mono hr₄'.grows) (fun _ h => by cases h) hshown₄, fun n hn => ?_,
    fun n hn key hkey => ?_⟩
  · have hc₅ : ((noteRead (w.array id).runtime (.values id) (.list (vs.map .value))).run
        w₄).2.containerCount = w₄.containerCount := by
      rw [run_noteRead]
      cases w₄.currentReader (w.array id).runtime <;> rfl
    rw [hc₅, hc₄, hc₃, hcount₁]
  · have hn₄ : w₄.currentReader (w.array id).runtime = some n := by
      rw [hr₄'.currentReader]
      exact hn
    exact (adds_noteRead (h := .array id) hn₄).mono hr₄'.grows (.refl _)
  · have hcells₅ := hr₅.arrays id vs (hr₄'.grows.arrays id hid).1 (by
      rw [hs₄.2 id, hcells₃, mapM_value?_eq_some.2 rfl])
    simp only [Handle.whole, Read.keys] at hkey hcells₅
    rw [hcells₅, hs₄.2 id, hcells₃, List.length_map] at hkey
    rcases List.mem_cons.1 hkey with rfl | hkey
    · have ha := adds_trackedIn hn (.array id) .shape
      rw [show w.owner (.array id) = (w.array id).runtime from rfl, hw₁] at ha
      exact ha.mono (.refl w) ((hr₃.grows.trans hr₄.grows).trans hr₅.grows)
    · obtain ⟨i, hi, rfl⟩ := List.mem_map.1 hkey
      exact (ha₄ n hn i hi).mono hr₃'.grows hr₅.grows

end Reactivity
