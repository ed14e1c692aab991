import Reactivity.Proofs.Updates.Sameness
import Reactivity.Proofs.Updates.Sparing

namespace Reactivity

/-- `read.Kept w w'`: what the read shows in `w` it shows in `w'`, and on the same parts. -/
structure Read.Kept (read : Read) (w w' : World) : Prop where
  keys : read.keys w' = read.keys w
  shown : ∀ r, read.shown w = some r → ∃ r', read.shown w' = some r' ∧ r.same r'

namespace Read.Kept

variable {w w' w'' : World} {read : Read}

theorem of_eq (hk : read.keys w' = read.keys w)
    (hs : ∀ r, read.shown w = some r → read.shown w' = some r) : read.Kept w w' :=
  ⟨hk, fun r hr => ⟨r, hs r hr, r.same_refl⟩⟩

theorem refl (read : Read) (w : World) : read.Kept w w :=
  of_eq rfl fun _ => id

theorem trans (h : read.Kept w w') (h' : read.Kept w' w'') : read.Kept w w'' where
  keys := h'.keys.trans h.keys
  shown r hr := by
    obtain ⟨r', hr', hs⟩ := h.shown r hr
    obtain ⟨r'', hr'', hs'⟩ := h'.shown r' hr'
    exact ⟨r'', hr'', Result.same_trans hs hs'⟩

theorem of_sameContent (h : w.SameContent w') (direct : ∀ m, read ≠ .memo m) : read.Kept w w' := by
  obtain ⟨ho, ha⟩ := h
  refine of_eq ?_ fun r hr => ?_
  · cases read with
    | entries id => simp only [Read.keys, ho]
    | values id => simp only [Read.keys, ha]
    | _ => rfl
  · rw [← hr]
    cases read with
    | memo m => exact absurd rfl (direct m)
    | size h =>
      cases h with
      | object id => simp only [Read.shown, ho]
      | array id => simp only [Read.shown, ha]
      | memo m => rfl
    | slot id i => simp only [Read.shown, ha]
    | values id => simp only [Read.shown, ha]
    | _ => simp only [Read.shown, ho]

theorem memo {m : NodeId} {x x' : Memo} (hx : w.memo? m = some x) (hx' : w'.memo? m = some x')
    (hd : x.dirty = false → x'.dirty = false) (hr : x'.result = x.result) :
    (Read.memo m).Kept w w' := by
  refine of_eq rfl fun r hs => ?_
  simp only [Read.shown, hx, Option.bind_some] at hs
  simp only [Read.shown, hx', Option.bind_some, hr]
  cases hdirty : x.dirty with
  | true => simp [hdirty] at hs
  | false => simpa [hdirty, hd hdirty] using hs

theorem of_shown_eq_none {m : NodeId} (h : (Read.memo m).shown w = none) :
    (Read.memo m).Kept w w' :=
  of_eq rfl fun r hs => by rw [h] at hs; cases hs

theorem of_sameNodes (h : w.SameNodes w') (m : NodeId) : (Read.memo m).Kept w w' := by
  cases hm : w.memo? m with
  | none => exact of_shown_eq_none (by simp only [Read.shown, hm, Option.bind_none])
  | some x =>
    obtain ⟨x', hx', hb⟩ := h.memo? hm
    have he := Memo.of_bare hb
    exact memo hm hx' (fun hd => by rw [he]; exact hd) (by rw [he])

theorem of_same (hc : w.SameContent w') (hn : w.SameNodes w') (read : Read) : read.Kept w w' := by
  cases read with
  | memo m => exact of_sameNodes hn m
  | _ => exact of_sameContent hc nofun

theorem note (read : Read) (w : World) (e : Event) : read.Kept w (w.note e) := by
  have hc : w.SameContent (w.note e) := .of_eq rfl rfl
  have hn : w.SameNodes (w.note e) := .of_eq rfl
  exact .of_same hc hn read

theorem modifyMemo_of_ne {m n : NodeId} (h : m ≠ n) (f : Memo → Memo) :
    (Read.memo n).Kept w (w.modifyMemo m f) := by
  refine of_eq rfl fun r hr => ?_
  rw [← hr, Read.shown, Read.shown, World.memo?_modifyMemo, if_neg h]

end Read.Kept

theorem mapM_value?_of_resolved {w : World} {old new : List Cell}
    (h : List.Forall₂ (Cell.Resolved w) old new) {vs : List Value}
    (hvs : old.mapM Cell.value? = some vs) : new = old := by
  induction h generalizing vs with
  | nil => rfl
  | @cons c d old new hcd _ ih =>
    rw [List.mapM_cons] at hvs
    obtain ⟨v, hv, hvs⟩ := Option.bind_eq_some_iff.1 hvs
    obtain ⟨vs', hvs', -⟩ := Option.bind_eq_some_iff.1 hvs
    rw [ih hvs']
    rcases hcd with rfl | ⟨j, u, rfl, -⟩
    · rfl
    · cases hv

theorem Cell.Resolved.shown? {w : World} {old new : Cell} (h : old.Resolved w new) {r : Result}
    (hr : Cell.shown? (some old) = some r) : Cell.shown? (some new) = some r := by
  rcases h with rfl | ⟨j, v, rfl, -⟩
  · exact hr
  · cases hr

theorem shown?_of_resolved {w : World} {old new : List Cell}
    (h : List.Forall₂ (Cell.Resolved w) old new) (i : Nat) {r : Result}
    (hr : Cell.shown? old[i]? = some r) : Cell.shown? new[i]? = some r := by
  induction h generalizing i with
  | nil => exact hr
  | cons hcd _ ih =>
    cases i with
    | zero => exact hcd.shown? hr
    | succ i => exact ih i hr

theorem Properties.Resolved.refl (w : World) (ps : Properties) : Properties.Resolved w ps ps :=
  ⟨rfl, fun _ => .inl, fun _ _ => id, fun _ _ => rfl⟩

theorem Properties.Resolved.shown? {w : World} {old new : Properties}
    (h : Properties.Resolved w old new) (name : String) {r : Result}
    (hr : Cell.shown? (old.lookup name) = some r) : Cell.shown? (new.lookup name) = some r := by
  cases ho : old.lookup name with
  | none =>
    have hn : new.lookup name = none := by
      have hmem : ¬ name ∈ new.names := by
        rw [h.names, Properties.mem_names, ho]
        exact Bool.false_ne_true
      rwa [Properties.mem_names, Option.not_isSome_iff_eq_none] at hmem
    rw [ho] at hr
    rw [hn, hr]
  | some c =>
    rw [ho] at hr
    cases c with
    | plain j => cases hr
    | value v => rw [h.kept name v ho, hr]

namespace World

/-- `w.Silent n w'`: what has happened from `w` to `w'` does not concern the node. -/
def Silent (w : World) (n : NodeId) (w' : World) : Prop :=
  ∃ new, w'.history = new ++ w.history ∧ ∀ e ∈ new, ¬ e.Concerns n

namespace Silent

variable {w w' w'' : World} {n : NodeId}

theorem of_eq (h : w'.history = w.history) : w.Silent n w' :=
  ⟨[], h, fun _ he => nomatch he⟩

theorem note {e : Event} (h : ¬ e.Concerns n) : w.Silent n (w.note e) :=
  ⟨[e], rfl, fun _ he => List.mem_singleton.1 he ▸ h⟩

theorem trans (h : w.Silent n w') (h' : w'.Silent n w'') : w.Silent n w'' := by
  obtain ⟨new, hn, hc⟩ := h
  obtain ⟨new', hn', hc'⟩ := h'
  refine ⟨new' ++ new, by rw [hn', hn, List.append_assoc], fun e he => ?_⟩
  exact (List.mem_append.1 he).elim (hc' e) (hc e)

/-- Of the node, what has happened since its function was last started stays what it was. -/
theorem mem_sinceStart (h : w.Silent n w') {e : Event} (he : e.Concerns n) :
    e ∈ sinceStart n w'.history ↔ e ∈ sinceStart n w.history := by
  obtain ⟨new, hn, hc⟩ := h
  have hs : .started n ∉ new := fun hm => hc _ hm rfl
  rw [hn, sinceStart_append hs, List.mem_append]
  exact or_iff_right fun hm => hc e hm he

theorem queuedIn (w : World) (rt : RuntimeId) (m : NodeId) : w.Silent n (w.queuedIn rt m) := by
  rcases w.history_queuedIn rt m with h | h
  · exact ⟨[_], h, by simp [Event.Concerns]⟩
  · exact ⟨[_, _], h, by simp [Event.Concerns]⟩

end Silent

/-- `w.Unnoticed w'`: nothing that has been read or that waits for anything notices the change. -/
structure Unnoticed (w w' : World) : Prop where
  valid : ∀ h : Handle, h.Valid w → h.Valid w'
  spares : ∀ n, w.Spares n w'
  silent : ∀ n, w.Silent n w'
  clean : ∀ n, w.IsClean n → w'.IsClean n
  kept : ∀ read : Read, read.handle.Valid w → read.Kept w w'

namespace Unnoticed

variable {w w' w'' : World}

theorem refl (w : World) : w.Unnoticed w where
  valid _ := id
  spares n := .refl w n
  silent _ := .of_eq rfl
  clean _ := id
  kept read _ := .refl read w

theorem trans (h : w.Unnoticed w') (h' : w'.Unnoticed w'') : w.Unnoticed w'' where
  valid x hx := h'.valid x (h.valid x hx)
  spares n := (h.spares n).trans (h'.spares n)
  silent n := (h.silent n).trans (h'.silent n)
  clean n hn := h'.clean n (h.clean n hn)
  kept read hx := (h.kept read hx).trans (h'.kept read (h.valid _ hx))

theorem of_eq (ho : w'.objects = w.objects) (ha : w'.arrays = w.arrays) (hn : w'.nodes = w.nodes)
    (hr : w'.runtimes = w.runtimes) (hs : ∀ n, w.Silent n w') : w.Unnoticed w' where
  valid h hh := by
    cases h with
    | object id => rwa [Handle.Valid, ho]
    | array id => rwa [Handle.Valid, ha]
    | memo m => rwa [Handle.Valid, memo?, hn]
  spares n := by
    refine .of_sameNodes (.of_eq hn) hr fun h key hk => ?_
    cases h with
    | object id => rwa [readers, object, ho]
    | array id => rwa [readers, array, ha]
    | memo m => rwa [readers, memo?, hn]
  silent := hs
  clean n hk := by rwa [IsClean, memo?, hn]
  kept read _ := .of_same (.of_eq ho ha) (.of_eq hn) read

theorem note (w : World) {e : Event} (h : ∀ n, ¬ e.Concerns n) : w.Unnoticed (w.note e) :=
  of_eq rfl rfl rfl rfl fun n => .note (h n)

theorem modifyRuntime (w : World) (rt : RuntimeId) {f : Runtime → Runtime}
    (hf : ∀ r, ∀ n ∈ r.queue, n ∈ (f r).queue) : w.Unnoticed (w.modifyRuntime rt f) where
  valid _ := Handle.Valid.mono { Extends.refl w with }
  spares _ := .modifyRuntime w rt hf
  silent _ := .of_eq rfl
  clean _ := id
  kept read _ := by
    have hc : w.SameContent (w.modifyRuntime rt f) := .of_eq rfl rfl
    have hn : w.SameNodes (w.modifyRuntime rt f) := .of_eq rfl
    exact .of_same hc hn read

theorem modifyEffect (w : World) (n : NodeId) {f : Effect → Effect}
    (hf : ∀ e, e.disposed → (f e).disposed) : w.Unnoticed (w.modifyEffect n f) where
  valid h hh := by
    cases h with
    | memo m => rwa [Handle.Valid, memo?_modifyEffect]
    | _ => exact hh
  spares _ := .modifyEffect w n hf
  silent _ := .of_eq rfl
  clean m hm := by rwa [IsClean, memo?_modifyEffect]
  kept read _ := by
    cases read with
    | memo m => exact .of_eq rfl fun r hr => by rwa [Read.shown, memo?_modifyEffect]
    | _ => exact .of_sameContent (.of_eq rfl rfl) (by simp)

theorem pushNode (w : World) (node : Node) : w.Unnoticed (w.pushNode node) where
  valid _ := Handle.Valid.mono (.pushNode w node)
  spares _ := .pushNode w node
  silent _ := .of_eq rfl
  clean n hn := by
    obtain ⟨m, hm, hd⟩ := hn
    have hlt : n < w.nodes.size := lt_of_memo? (Option.isSome_of_eq_some hm)
    exact ⟨m, by rwa [memo?_pushNode, if_neg (Nat.ne_of_lt hlt)], hd⟩
  kept read hv := by
    cases read with
    | memo m =>
      have hm : m < w.nodes.size := lt_of_memo? hv
      exact .of_eq rfl fun r hr => by
        rwa [Read.shown, memo?_pushNode, if_neg (Nat.ne_of_lt hm)]
    | _ => exact .of_sameContent (.of_eq rfl rfl) (by simp)

theorem queuedIn (w : World) (rt : RuntimeId) (n : NodeId) : w.Unnoticed (w.queuedIn rt n) where
  valid _ := Handle.Valid.mono (.queuedIn w rt n)
  spares _ := .queuedIn w rt n
  silent _ := .queuedIn w rt n
  clean m hm := by rwa [IsClean, memo?, nodes_queuedIn]
  kept read _ := .of_same (.queuedIn w rt n) (.of_eq (nodes_queuedIn w rt n)) read

theorem madeDirty {m : NodeId} {x : Memo} (hx : w.memo? m = some x) (hd : x.dirty) :
    w.Unnoticed (w.madeDirty m) where
  valid _ := Handle.Valid.mono (.madeDirty w m)
  spares _ := .madeDirty w m
  silent _ := .of_eq rfl
  clean n hn := by
    obtain ⟨y, hy, hc⟩ := hn
    have hmn : m ≠ n := fun hmn => by
      subst hmn
      rw [Option.some.inj (hx.symm.trans hy), hc] at hd
      cases hd
    exact ⟨y, by rwa [World.madeDirty, memo?_modifyMemo, if_neg hmn], hc⟩
  kept read _ := by
    cases read with
    | memo n =>
      by_cases hmn : m = n
      · subst hmn
        refine .of_shown_eq_none ?_
        simp only [Read.shown, hx, Option.bind_some, hd, if_true]
      · exact .modifyMemo_of_ne hmn _
    | _ => exact .of_sameContent (.of_eq rfl rfl) (by simp)

theorem stopped (w : World) (n : NodeId) (rt : RuntimeId) : w.Unnoticed (w.stopped n rt) := by
  rw [World.stopped]
  refine trans ?_ (modifyRuntime _ rt fun _ _ => id)
  exact modifyEffect w n fun _ => id

theorem ran (w : World) (n : NodeId) (rt : RuntimeId) : w.Unnoticed (w.ran n rt) := by
  rw [World.ran]
  refine trans ?_ (modifyRuntime _ rt fun _ _ => id)
  refine trans ?_ (modifyEffect _ n fun _ => id)
  refine trans ?_ (note _ fun _ => id)
  exact modifyEffect w n fun _ => id

theorem pushRuntime (w : World) (r : Runtime) :
    w.Unnoticed { w with runtimes := w.runtimes.push r } where
  valid _ := Handle.Valid.mono (.pushRuntime w r)
  spares n := {
    disposed := id
    dirty := id
    queued := fun rt hn => by
      have hrt : rt < w.runtimes.size := by
        by_contra hrt
        rw [queue, runtime, Array.getElem?_eq_none (Nat.le_of_not_lt hrt)] at hn
        cases hn
      simpa [queue, runtime, Array.getElem?_push, Nat.ne_of_lt hrt] using hn
    registered := fun _ _ => id }
  silent _ := .of_eq rfl
  clean _ := id
  kept read _ := by
    have hc : w.SameContent { w with runtimes := w.runtimes.push r } := .of_eq rfl rfl
    have hn : w.SameNodes { w with runtimes := w.runtimes.push r } := .of_eq rfl
    exact .of_same hc hn read

theorem withStore (w : World) (state : ObjectId) : w.Unnoticed (w.withStore state) := by
  rw [World.withStore]
  refine trans ?_ (pushNode _ _)
  exact of_eq rfl rfl rfl rfl fun _ => .of_eq rfl

theorem pushObject (w : World) (o : ObjectState) :
    w.Unnoticed { w with objects := w.objects.push o } where
  valid _ := Handle.Valid.mono (.pushObject w o)
  spares n := {
    disposed := id
    dirty := id
    queued := fun _ => id
    registered := fun h key hn => by
      cases h with
      | object id =>
        by_cases hid : id < w.objects.size
        · simpa [readers, object, Array.getElem?_push, Nat.ne_of_lt hid] using hn
        · have hnone : w.objects[id]? = none := Array.getElem?_eq_none (Nat.le_of_not_lt hid)
          simp only [readers, object, hnone] at hn
          cases hn
      | _ => exact hn }
  silent _ := .of_eq rfl
  clean _ := id
  kept read hv := by
    have ho (id : ObjectId) (hid : id < w.objects.size) :
        ({ w with objects := w.objects.push o } : World).object id = w.object id := by
      simp [object, Array.getElem?_push, Nat.ne_of_lt hid]
    cases read with
    | property id name => exact .of_eq rfl fun r hr => by rwa [Read.shown, ho id hv]
    | contains id name => exact .of_eq rfl fun r hr => by rwa [Read.shown, ho id hv]
    | names id => exact .of_eq rfl fun r hr => by rwa [Read.shown, ho id hv]
    | entries id =>
      refine .of_eq ?_ fun r hr => by rwa [Read.shown, ho id hv]
      simp only [Read.keys, ho id hv]
    | size h =>
      cases h with
      | object id => exact .of_eq rfl fun r hr => by rwa [Read.shown, ho id hv]
      | _ => exact .of_eq rfl fun r => id
    | _ => exact .of_eq rfl fun r => id

theorem pushArray (w : World) (a : ArrayState) :
    w.Unnoticed { w with arrays := w.arrays.push a } where
  valid _ := Handle.Valid.mono (.pushArray w a)
  spares n := {
    disposed := id
    dirty := id
    queued := fun _ => id
    registered := fun h key hn => by
      cases h with
      | array id =>
        by_cases hid : id < w.arrays.size
        · simpa [readers, array, Array.getElem?_push, Nat.ne_of_lt hid] using hn
        · have hnone : w.arrays[id]? = none := Array.getElem?_eq_none (Nat.le_of_not_lt hid)
          simp only [readers, array, hnone] at hn
          cases hn
      | _ => exact hn }
  silent _ := .of_eq rfl
  clean _ := id
  kept read hv := by
    have ha (id : ArrayId) (hid : id < w.arrays.size) :
        ({ w with arrays := w.arrays.push a } : World).array id = w.array id := by
      simp [array, Array.getElem?_push, Nat.ne_of_lt hid]
    cases read with
    | slot id i => exact .of_eq rfl fun r hr => by rwa [Read.shown, ha id hv]
    | values id =>
      refine .of_eq ?_ fun r hr => by rwa [Read.shown, ha id hv]
      simp only [Read.keys, ha id hv]
    | size h =>
      cases h with
      | array id => exact .of_eq rfl fun r hr => by rwa [Read.shown, ha id hv]
      | _ => exact .of_eq rfl fun r => id
    | _ => exact .of_eq rfl fun r => id

theorem resolveObject {id : ObjectId} {properties : Properties}
    (h : Properties.Resolved w (w.object id).properties properties) :
    w.Unnoticed (w.modifyObject id fun o => { o with properties := properties }) where
  valid _ := by
    have he := Extends.modifyObject w id (f := fun o => { o with properties := properties })
      fun _ => rfl
    exact Handle.Valid.mono he
  spares _ := .modifyObject w id fun _ => rfl
  silent _ := .of_eq rfl
  clean _ hn := hn
  kept read _ := by
    have ho (id' : ObjectId) : Properties.Resolved w (w.object id').properties
        ((w.modifyObject id fun o => { o with properties := properties }).object id').properties := by
      rw [object_modifyObject]
      split
      · next hid => exact hid.1 ▸ h
      · exact .refl w _
    cases read with
    | property id' name => exact .of_eq rfl fun r hr => (ho id').shown? name hr
    | contains id' name =>
      refine .of_eq rfl fun r hr => ?_
      have hs : (((w.modifyObject id fun o =>
          { o with properties := properties }).object id').properties.lookup name).isSome =
            ((w.object id').properties.lookup name).isSome := by
        rw [Bool.eq_iff_iff, ← Properties.mem_names, ← Properties.mem_names, (ho id').names]
      rwa [Read.shown, hs]
    | names id' => exact .of_eq rfl fun r hr => by rwa [Read.shown, (ho id').names]
    | entries id' =>
      refine .of_eq (by rw [Read.keys, (ho id').names, Read.keys]) fun r hr => ?_
      obtain ⟨vs, hvs, -⟩ := Option.map_eq_some_iff.1 hr
      rwa [Read.shown, (ho id').full vs hvs]
    | size h =>
      cases h with
      | object id' =>
        refine .of_eq rfl fun r hr => ?_
        have hl : ((w.modifyObject id fun o =>
            { o with properties := properties }).object id').properties.length =
              (w.object id').properties.length := by
          have hn := congrArg List.length (ho id').names
          simpa only [Properties.names, List.length_map] using hn
        rwa [Read.shown, hl]
      | _ => exact .of_eq rfl fun r hr => hr
    | _ => exact .of_eq rfl fun r hr => hr

theorem resolveArray {id : ArrayId} {cells : List Cell}
    (h : List.Forall₂ (Cell.Resolved w) (w.array id).cells cells) :
    w.Unnoticed (w.modifyArray id fun a => { a with cells := cells }) where
  valid _ := by
    have he := Extends.modifyArray w id (f := fun a => { a with cells := cells }) fun _ => rfl
    exact Handle.Valid.mono he
  spares _ := .modifyArray w id fun _ => rfl
  silent _ := .of_eq rfl
  clean _ hn := hn
  kept read _ := by
    have ha (id' : ArrayId) : List.Forall₂ (Cell.Resolved w) (w.array id').cells
        ((w.modifyArray id fun a => { a with cells := cells }).array id').cells := by
      rw [array_modifyArray]
      split
      · next hid => exact hid.1 ▸ h
      · exact List.forall₂_same.2 fun c _ => .inl rfl
    cases read with
    | slot id' i => exact .of_eq rfl fun r hr => shown?_of_resolved (ha id') i hr
    | values id' =>
      refine .of_eq (by rw [Read.keys, ← (ha id').length_eq, Read.keys]) fun r hr => ?_
      obtain ⟨vs, hvs, -⟩ := Option.map_eq_some_iff.1 hr
      rwa [Read.shown, mapM_value?_of_resolved (ha id') hvs]
    | size h =>
      cases h with
      | array id' =>
        refine .of_eq rfl fun r hr => ?_
        rwa [Read.shown, ← (ha id').length_eq]
      | _ => exact .of_eq rfl fun r hr => hr
    | _ => exact .of_eq rfl fun r hr => hr

theorem cleaning (w : World) (n : NodeId) (rt : RuntimeId) : w.Unnoticed (w.cleaning n rt) := by
  rw [World.cleaning]
  refine .trans ?_ (.modifyRuntime _ _ fun _ _ => id)
  exact .modifyEffect w n fun _ => id

theorem popContext (w : World) (rt : RuntimeId) : w.Unnoticed (w.popContext rt) :=
  .modifyRuntime w rt fun _ _ => id

theorem pushContext (w : World) (rt : RuntimeId) (reader : Option NodeId) :
    w.Unnoticed (w.pushContext rt reader) :=
  .modifyRuntime w rt fun _ _ => id

theorem passBegun (w : World) (id : StoreId) : w.Unnoticed (w.passBegun id) := by
  rw [World.passBegun]
  refine .trans ?_ (.modifyRuntime _ _ fun _ _ h => h)
  exact (note w (e := .passBegan id) fun _ h => h).trans
    (.of_eq rfl rfl rfl rfl fun _ => .of_eq rfl)

theorem passEnded (w : World) (id : StoreId) (rt : RuntimeId) : w.Unnoticed (w.passEnded id rt) := by
  rw [World.passEnded]
  refine .trans ?_ (note _ fun _ h => h)
  refine .trans ?_ (.of_eq (w := w.popContext rt) rfl rfl rfl rfl fun _ => .of_eq rfl)
  exact .modifyRuntime _ _ fun _ _ h => h

theorem passPostponed (w : World) (id : StoreId) : w.Unnoticed (w.passPostponed id) := by
  rw [World.passPostponed]
  exact (note w (e := .passPostponed id) fun _ h => h).trans
    (.of_eq rfl rfl rfl rfl fun _ => .of_eq rfl)

theorem withSubscription (w : World) (id : StoreId) (callback : Closure) :
    w.Unnoticed (w.withSubscription id callback) :=
  .of_eq rfl rfl rfl rfl fun _ => .trans (.note (e := .subscribed _) fun h => h) (.of_eq rfl)

theorem callBegun (w : World) (sub : SubscriptionId) (j : Json) :
    w.Unnoticed (w.callBegun sub j) := by
  rw [World.callBegun]
  exact (note w (e := .delivered sub j) fun _ h => h).trans
    (.of_eq rfl rfl rfl rfl fun _ => .of_eq rfl)

theorem callEnded (w : World) (sub : SubscriptionId) : w.Unnoticed (w.callEnded sub) := by
  rw [World.callEnded]
  refine .trans ?_ (note _ fun _ h => h)
  exact .of_eq rfl rfl rfl rfl fun _ => .of_eq rfl

end Unnoticed

end World

theorem Stage.Advance.not_concerns {s s' : Stage} {e : Event} (h : s.Advance e s') (n : NodeId) :
    ¬ e.Concerns n := by
  cases h <;> exact id

theorem Aside.unnoticed {w w' : World} (h : Aside w w') : w.Unnoticed w' := by
  cases h with
  | bind name b valid => exact .of_eq rfl rfl rfl rfl fun _ => .trans (.note id) (.of_eq rfl)
  | unbind name => exact .of_eq rfl rfl rfl rfl fun _ => .trans (.note id) (.of_eq rfl)
  | hold id => exact .of_eq rfl rfl rfl rfl fun _ => .of_eq rfl
  | release id _ => exact .of_eq rfl rfl rfl rfl fun _ => .of_eq rfl
  | cancel sub _ =>
    obtain ⟨_, _, h⟩ := w.cancelled_eq sub
    exact h ▸ .of_eq rfl rfl rfl rfl fun _ => .trans (.note id) (.of_eq rfl)
  | log r => exact .of_eq rfl rfl rfl rfl fun _ => .of_eq rfl
  | clearLog => exact .of_eq rfl rfl rfl rfl fun _ => .of_eq rfl
  | external content => exact .of_eq rfl rfl rfl rfl fun _ => .of_eq rfl
  | task rt tasks h => exact .of_eq rfl rfl rfl rfl fun _ => .of_eq rfl
  | _ => exact .note w fun _ => id

end Reactivity
