import Reactivity.Proofs.Run.Step

namespace Reactivity

namespace World

variable {w w' : World}

theorem effect?_modifySources (w : World) (m n : NodeId)
    (f : List (Handle × Key) → List (Handle × Key)) :
    (w.modifySources m f).effect? n =
      if m = n then (w.effect? n).map fun e => { e with sources := f e.sources }
      else w.effect? n := by
  simp only [effect?, modifySources, Array.getElem?_modify]
  grind

theorem memo?_modifySources (w : World) (m n : NodeId)
    (f : List (Handle × Key) → List (Handle × Key)) :
    (w.modifySources m f).memo? n =
      if m = n then (w.memo? n).map fun x => { x with sources := f x.sources }
      else w.memo? n := by
  simp only [memo?, modifySources, Array.getElem?_modify]
  grind

theorem effect?_pushNode (w : World) (node : Node) (n : NodeId) :
    (w.pushNode node).effect? n =
      if n = w.nodes.size then
        match node with
        | .effect e => some e
        | .memo _ => none
      else w.effect? n := by
  simp only [effect?, pushNode, Array.getElem?_push]
  by_cases h : n = w.nodes.size
  · cases node <;> simp [h]
  · simp [h]

theorem memo?_pushNode (w : World) (node : Node) (n : NodeId) :
    (w.pushNode node).memo? n =
      if n = w.nodes.size then
        match node with
        | .effect _ => none
        | .memo m => some m
      else w.memo? n := by
  simp only [memo?, pushNode, Array.getElem?_push]
  by_cases h : n = w.nodes.size
  · cases node <;> simp [h]
  · simp [h]

theorem lt_of_effect? {n : NodeId} (h : (w.effect? n).isSome) : n < w.nodes.size := by
  by_contra hn
  simp [effect?, Array.getElem?_eq_none (Nat.le_of_not_lt hn)] at h

theorem lt_of_memo? {n : NodeId} (h : (w.memo? n).isSome) : n < w.nodes.size := by
  by_contra hn
  simp [memo?, Array.getElem?_eq_none (Nat.le_of_not_lt hn)] at h

theorem sources_of_effect? {n : NodeId} {e : Effect} (h : w.effect? n = some e) :
    w.sources n = e.sources := by
  rw [effect?] at h
  rw [sources]
  split at h
  · cases h
    simp [*]
  · cases h

theorem sources_of_memo? {n : NodeId} {m : Memo} (h : w.memo? n = some m) :
    w.sources n = m.sources := by
  rw [memo?] at h
  rw [sources]
  split at h
  · cases h
    simp [*]
  · cases h

namespace Extends

theorem note (w : World) (e : Event) : w.Extends (w.note e) :=
  { refl w with
    history := List.suffix_cons e w.history
    bindings := fun _ => .inl rfl }

theorem modifyRuntime (w : World) (id : RuntimeId) {f : Runtime → Runtime}
    (hf : ∀ r, (f r).settings = r.settings ∧ (f r).hook = r.hook) :
    w.Extends (w.modifyRuntime id f) :=
  { refl w with
    runtimes := fun j hj => by
      rw [runtime_modifyRuntime]
      refine ⟨by simpa [World.modifyRuntime] using hj, ?_⟩
      split
      · exact hf _
      · exact ⟨rfl, rfl⟩ }

theorem modifyObject (w : World) (id : ObjectId) {f : ObjectState → ObjectState}
    (hf : ∀ o, (f o).runtime = o.runtime) : w.Extends (w.modifyObject id f) :=
  { refl w with
    objects := fun j hj => by
      rw [object_modifyObject]
      refine ⟨by simpa [World.modifyObject] using hj, ?_⟩
      split
      · exact hf _
      · rfl }

theorem modifyArray (w : World) (id : ArrayId) {f : ArrayState → ArrayState}
    (hf : ∀ a, (f a).runtime = a.runtime) : w.Extends (w.modifyArray id f) :=
  { refl w with
    arrays := fun j hj => by
      rw [array_modifyArray]
      refine ⟨by simpa [World.modifyArray] using hj, ?_⟩
      split
      · exact hf _
      · rfl }

theorem modifyEffect (w : World) (id : NodeId) {f : Effect → Effect}
    (hf : ∀ e, w.effect? id = some e →
      (f e).runtime = e.runtime ∧ e.job.Follows (f e).job ∧ (e.disposed → (f e).disposed)) :
    w.Extends (w.modifyEffect id f) :=
  { refl w with
    nodes := by simp [World.modifyEffect]
    effects := fun n e he => by
      rw [effect?_modifyEffect, he]
      split
      · next hn =>
        obtain ⟨hr, hj, -⟩ := hf e (hn ▸ he)
        exact ⟨_, rfl, hr, hj⟩
      · exact ⟨e, rfl, rfl, .refl _⟩
    disposed := fun n hn => by
      rw [isDisposed, effect?_modifyEffect]
      split
      · next hid =>
        rw [isDisposed] at hn
        cases he : w.effect? n with
        | none => simp [he] at hn
        | some e => exact (hf e (hid ▸ he)).2.2 (by simpa [he] using hn)
      · exact hn
    memos := fun n m hm => ⟨m, by rw [memo?_modifyEffect, hm], rfl, rfl⟩ }

theorem modifyMemo (w : World) (id : NodeId) {f : Memo → Memo}
    (hf : ∀ m, (f m).runtime = m.runtime ∧ (f m).body = m.body) :
    w.Extends (w.modifyMemo id f) :=
  { refl w with
    nodes := by simp [World.modifyMemo]
    effects := fun n e he => ⟨e, by rw [effect?_modifyMemo, he], rfl, .refl _⟩
    disposed := fun n hn => by rwa [isDisposed, effect?_modifyMemo]
    memos := fun n m hm => by
      rw [memo?_modifyMemo, hm]
      split
      · exact ⟨_, rfl, hf m⟩
      · exact ⟨m, rfl, rfl, rfl⟩ }

theorem modifySources (w : World) (id : NodeId)
    (f : List (Handle × Key) → List (Handle × Key)) : w.Extends (w.modifySources id f) :=
  { refl w with
    nodes := by simp [World.modifySources]
    effects := fun n e he => by
      rw [effect?_modifySources, he]
      split
      · exact ⟨_, rfl, rfl, .refl _⟩
      · exact ⟨e, rfl, rfl, .refl _⟩
    disposed := fun n hn => by
      rw [isDisposed, effect?_modifySources]
      split
      · rw [Option.any_map]
        exact hn
      · exact hn
    memos := fun n m hm => by
      rw [memo?_modifySources, hm]
      split
      · exact ⟨_, rfl, rfl, rfl⟩
      · exact ⟨m, rfl, rfl, rfl⟩ }

theorem modifyReaders (w : World) (h : Handle) (f : Readers → Readers) :
    w.Extends (w.modifyReaders h f) := by
  cases h with
  | object id => exact modifyObject w id fun _ => rfl
  | array id => exact modifyArray w id fun _ => rfl
  | memo n => exact modifyMemo w n fun _ => ⟨rfl, rfl⟩

theorem pushNode (w : World) (node : Node) : w.Extends (w.pushNode node) :=
  { refl w with
    nodes := by simp [World.pushNode]
    effects := fun n e he => by
      have hn := lt_of_effect? (Option.isSome_of_eq_some he)
      exact ⟨e, by rw [effect?_pushNode, if_neg (Nat.ne_of_lt hn), he], rfl, .refl _⟩
    disposed := fun n hd => by
      have hn : n < w.nodes.size := by
        by_contra hn
        rw [isDisposed, effect?, Array.getElem?_eq_none (Nat.le_of_not_lt hn)] at hd
        cases hd
      rwa [isDisposed, effect?_pushNode, if_neg (Nat.ne_of_lt hn)]
    memos := fun n m hm => by
      have hn := lt_of_memo? (Option.isSome_of_eq_some hm)
      exact ⟨m, by rw [memo?_pushNode, if_neg (Nat.ne_of_lt hn), hm], rfl, rfl⟩ }

theorem modifyStore (w : World) (id : StoreId) {f : Store → Store}
    (hf : (f (w.store id)).runtime = (w.store id).runtime ∧
      (f (w.store id)).state = (w.store id).state ∧
      (f (w.store id)).watcher = (w.store id).watcher) : w.Extends (w.modifyStore id f) :=
  { refl w with
    stores := fun j hj => by
      rw [store_modifyStore]
      refine ⟨by simpa [World.modifyStore] using hj, ?_⟩
      split
      · next h => exact h.1 ▸ hf
      · exact ⟨rfl, rfl, rfl⟩ }

theorem modifySubscription (w : World) (id : SubscriptionId) {f : Subscription → Subscription}
    (hf : (f (w.subscription id)).store = (w.subscription id).store ∧
      (f (w.subscription id)).callback = (w.subscription id).callback) :
    w.Extends (w.modifySubscription id f) :=
  { refl w with
    subscriptions := fun j hj => by
      rw [subscription_modifySubscription]
      refine ⟨by simpa [World.modifySubscription] using hj, ?_⟩
      split
      · next h => exact h.1 ▸ hf
      · exact ⟨rfl, rfl⟩ }

theorem pushRuntime (w : World) (r : Runtime) :
    w.Extends { w with runtimes := w.runtimes.push r } :=
  { refl w with
    runtimes := fun j hj => by
      refine ⟨by simp; omega, ?_⟩
      simp [World.runtime, Array.getElem?_push, Nat.ne_of_lt hj] }

theorem pushObject (w : World) (o : ObjectState) :
    w.Extends { w with objects := w.objects.push o } :=
  { refl w with
    objects := fun j hj => by
      refine ⟨by simp; omega, ?_⟩
      simp [World.object, Array.getElem?_push, Nat.ne_of_lt hj] }

theorem pushArray (w : World) (a : ArrayState) :
    w.Extends { w with arrays := w.arrays.push a } :=
  { refl w with
    arrays := fun j hj => by
      refine ⟨by simp; omega, ?_⟩
      simp [World.array, Array.getElem?_push, Nat.ne_of_lt hj] }

theorem pushStore (w : World) (s : Store) : w.Extends { w with stores := w.stores.push s } :=
  { refl w with
    stores := fun j hj => by
      refine ⟨by simp; omega, ?_⟩
      simp [World.store, Array.getElem?_push, Nat.ne_of_lt hj] }

theorem pushSubscription (w : World) (s : Subscription) :
    w.Extends { w with subscriptions := w.subscriptions.push s } :=
  { refl w with
    subscriptions := fun j hj => by
      refine ⟨by simp; omega, ?_⟩
      simp [World.subscription, Array.getElem?_push, Nat.ne_of_lt hj] }

end Extends

namespace Sane

variable (h : w.Sane)
include h

/-- A change that leaves everything but one kind of thing as it is keeps the rest sane. -/
theorem of_extends (he : w.Extends w')
    (runtimes : ∀ id, id < w'.runtimes.size → (w'.runtime id).Valid w' ∨
      id < w.runtimes.size ∧ w'.runtime id = w.runtime id)
    (objects : ∀ id, id < w'.objects.size → (w'.object id).Valid w' ∨
      id < w.objects.size ∧ w'.object id = w.object id)
    (arrays : ∀ id, id < w'.arrays.size → (w'.array id).Valid w' ∨
      id < w.arrays.size ∧ w'.array id = w.array id)
    (effects : ∀ n e, w'.effect? n = some e → e.Valid w' ∨ w.effect? n = some e)
    (memos : ∀ n m, w'.memo? n = some m → m.Valid w' ∨ w.memo? n = some m)
    (stores : ∀ id, id < w'.stores.size → (w'.store id).Valid w' ∨
      id < w.stores.size ∧ w'.store id = w.store id)
    (subscriptions : ∀ id, id < w'.subscriptions.size → (w'.subscription id).Valid w' ∨
      id < w.subscriptions.size ∧ w'.subscription id = w.subscription id)
    (bindings : ∀ p ∈ w'.bindings, p.2.Valid w' ∨ p ∈ w.bindings)
    (tasks : ∀ rt ∈ w'.tasks, rt < w'.runtimes.size ∨ rt ∈ w.tasks) : w'.Sane where
  runtimes id hid := by
    rcases runtimes id hid with hv | ⟨hid', heq⟩
    · exact hv
    · exact heq ▸ (h.runtimes id hid').mono he
  objects id hid := by
    rcases objects id hid with hv | ⟨hid', heq⟩
    · exact hv
    · exact heq ▸ (h.objects id hid').mono he
  arrays id hid := by
    rcases arrays id hid with hv | ⟨hid', heq⟩
    · exact hv
    · exact heq ▸ (h.arrays id hid').mono he
  effects n e hn := (effects n e hn).elim id fun hn' => (h.effects n e hn').mono he
  memos n m hn := (memos n m hn).elim id fun hn' => (h.memos n m hn').mono he
  stores id hid := by
    rcases stores id hid with hv | ⟨hid', heq⟩
    · exact hv
    · exact heq ▸ (h.stores id hid').mono he
  subscriptions id hid := by
    rcases subscriptions id hid with hv | ⟨hid', heq⟩
    · exact hv
    · exact heq ▸ (h.subscriptions id hid').mono he
  bindings p hp := (bindings p hp).elim id fun hp' => (h.bindings p hp').mono he
  tasks rt hrt := (tasks rt hrt).elim id fun hrt' => (he.runtimes rt (h.tasks rt hrt')).1

theorem note (e : Event) : (w.note e).Sane :=
  h.of_extends (.note w e) (fun _ hi => .inr ⟨hi, rfl⟩) (fun _ hi => .inr ⟨hi, rfl⟩)
    (fun _ hi => .inr ⟨hi, rfl⟩) (fun _ _ => .inr) (fun _ _ => .inr) (fun _ hi => .inr ⟨hi, rfl⟩)
    (fun _ hi => .inr ⟨hi, rfl⟩) (fun _ => .inr) (fun _ => .inr)

theorem modifyRuntime (id : RuntimeId) {f : Runtime → Runtime}
    (hf : ∀ r, (f r).settings = r.settings ∧ (f r).hook = r.hook)
    (hv : id < w.runtimes.size → (f (w.runtime id)).Valid w) : (w.modifyRuntime id f).Sane := by
  have he := Extends.modifyRuntime w id hf
  have hs : (w.modifyRuntime id f).runtimes.size = w.runtimes.size := by
    simp [World.modifyRuntime]
  refine h.of_extends he (fun j hj => ?_) (fun _ hi => .inr ⟨hi, rfl⟩)
    (fun _ hi => .inr ⟨hi, rfl⟩) (fun _ _ => .inr) (fun _ _ => .inr)
    (fun _ hi => .inr ⟨hi, rfl⟩) (fun _ hi => .inr ⟨hi, rfl⟩) (fun _ => .inr) (fun _ => .inr)
  rw [hs] at hj
  rw [runtime_modifyRuntime]
  split
  · next hij => exact .inl (hij.1 ▸ (hv (hij.1 ▸ hj)).mono he)
  · exact .inr ⟨hj, rfl⟩

theorem modifyObject (id : ObjectId) {f : ObjectState → ObjectState}
    (hf : ∀ o, (f o).runtime = o.runtime)
    (hv : id < w.objects.size → (f (w.object id)).Valid w) : (w.modifyObject id f).Sane := by
  have he := Extends.modifyObject w id hf
  have hs : (w.modifyObject id f).objects.size = w.objects.size := by
    simp [World.modifyObject]
  refine h.of_extends he (fun _ hi => .inr ⟨hi, rfl⟩) (fun j hj => ?_)
    (fun _ hi => .inr ⟨hi, rfl⟩) (fun _ _ => .inr) (fun _ _ => .inr)
    (fun _ hi => .inr ⟨hi, rfl⟩) (fun _ hi => .inr ⟨hi, rfl⟩) (fun _ => .inr) (fun _ => .inr)
  rw [hs] at hj
  rw [object_modifyObject]
  split
  · next hij => exact .inl (hij.1 ▸ (hv (hij.1 ▸ hj)).mono he)
  · exact .inr ⟨hj, rfl⟩

theorem modifyArray (id : ArrayId) {f : ArrayState → ArrayState}
    (hf : ∀ a, (f a).runtime = a.runtime)
    (hv : id < w.arrays.size → (f (w.array id)).Valid w) : (w.modifyArray id f).Sane := by
  have he := Extends.modifyArray w id hf
  have hs : (w.modifyArray id f).arrays.size = w.arrays.size := by
    simp [World.modifyArray]
  refine h.of_extends he (fun _ hi => .inr ⟨hi, rfl⟩) (fun _ hi => .inr ⟨hi, rfl⟩)
    (fun j hj => ?_) (fun _ _ => .inr) (fun _ _ => .inr)
    (fun _ hi => .inr ⟨hi, rfl⟩) (fun _ hi => .inr ⟨hi, rfl⟩) (fun _ => .inr) (fun _ => .inr)
  rw [hs] at hj
  rw [array_modifyArray]
  split
  · next hij => exact .inl (hij.1 ▸ (hv (hij.1 ▸ hj)).mono he)
  · exact .inr ⟨hj, rfl⟩

theorem modifyEffect (n : NodeId) {f : Effect → Effect}
    (hf : ∀ e, w.effect? n = some e →
      (f e).runtime = e.runtime ∧ e.job.Follows (f e).job ∧ (e.disposed → (f e).disposed))
    (hv : ∀ e, w.effect? n = some e → (f e).Valid w) : (w.modifyEffect n f).Sane := by
  have he := Extends.modifyEffect w n hf
  refine h.of_extends he
    (fun _ hi => .inr ⟨hi, rfl⟩) (fun _ hi => .inr ⟨hi, rfl⟩) (fun _ hi => .inr ⟨hi, rfl⟩)
    (fun j e hj => ?_) (fun j m hj => .inr ?_)
    (fun _ hi => .inr ⟨hi, rfl⟩) (fun _ hi => .inr ⟨hi, rfl⟩) (fun _ => .inr) (fun _ => .inr)
  · rw [effect?_modifyEffect] at hj
    split at hj
    · next hnj =>
      obtain ⟨e', he', rfl⟩ := Option.map_eq_some_iff.1 hj
      exact .inl ((hv e' (hnj ▸ he')).mono he)
    · exact .inr hj
  · rwa [memo?_modifyEffect] at hj

theorem modifyMemo (n : NodeId) {f : Memo → Memo}
    (hf : ∀ m, (f m).runtime = m.runtime ∧ (f m).body = m.body)
    (hv : ∀ m, w.memo? n = some m → (f m).Valid w) : (w.modifyMemo n f).Sane := by
  have he := Extends.modifyMemo w n hf
  refine h.of_extends he
    (fun _ hi => .inr ⟨hi, rfl⟩) (fun _ hi => .inr ⟨hi, rfl⟩) (fun _ hi => .inr ⟨hi, rfl⟩)
    (fun j e hj => .inr ?_) (fun j m hj => ?_)
    (fun _ hi => .inr ⟨hi, rfl⟩) (fun _ hi => .inr ⟨hi, rfl⟩) (fun _ => .inr) (fun _ => .inr)
  · rwa [effect?_modifyMemo] at hj
  · rw [memo?_modifyMemo] at hj
    split at hj
    · next hnj =>
      obtain ⟨m', hm', rfl⟩ := Option.map_eq_some_iff.1 hj
      exact .inl ((hv m' (hnj ▸ hm')).mono he)
    · exact .inr hj

theorem modifySources (n : NodeId) {f : List (Handle × Key) → List (Handle × Key)}
    (hv : ∀ p ∈ f (w.sources n), p.1.Valid w) : (w.modifySources n f).Sane := by
  have he := Extends.modifySources w n f
  refine h.of_extends he
    (fun _ hi => .inr ⟨hi, rfl⟩) (fun _ hi => .inr ⟨hi, rfl⟩) (fun _ hi => .inr ⟨hi, rfl⟩)
    (fun j e hj => ?_) (fun j m hj => ?_)
    (fun _ hi => .inr ⟨hi, rfl⟩) (fun _ hi => .inr ⟨hi, rfl⟩) (fun _ => .inr) (fun _ => .inr)
  · rw [effect?_modifySources] at hj
    split at hj
    · next hnj =>
      obtain ⟨e', he', rfl⟩ := Option.map_eq_some_iff.1 hj
      have hs : w.sources n = e'.sources := by
        rw [hnj, sources_of_effect? he']
      obtain ⟨hr, hjob, hc, -⟩ := h.effects j e' he'
      refine .inl (Effect.Valid.mono he ⟨hr, hjob, hc, ?_⟩)
      exact hs ▸ hv
    · exact .inr hj
  · rw [memo?_modifySources] at hj
    split at hj
    · next hnj =>
      obtain ⟨m', hm', rfl⟩ := Option.map_eq_some_iff.1 hj
      have hs : w.sources n = m'.sources := by
        rw [hnj, sources_of_memo? hm']
      obtain ⟨hr, hb, hres, -, hd⟩ := h.memos j m' hm'
      refine .inl (Memo.Valid.mono he ⟨hr, hb, hres, ?_, hd⟩)
      exact hs ▸ hv
    · exact .inr hj

theorem modifyReaders {x : Handle} {f : Readers → Readers} (hv : (f (w.readers x)).Valid w) :
    (w.modifyReaders x f).Sane := by
  cases x with
  | object id =>
    refine h.modifyObject id (fun _ => rfl) fun hid => ?_
    obtain ⟨hr, hp, -⟩ := h.objects id hid
    exact ⟨hr, hp, hv⟩
  | array id =>
    refine h.modifyArray id (fun _ => rfl) fun hid => ?_
    obtain ⟨hr, hp, -⟩ := h.arrays id hid
    exact ⟨hr, hp, hv⟩
  | memo n =>
    refine h.modifyMemo n (fun _ => ⟨rfl, rfl⟩) fun m hm => ?_
    obtain ⟨hr, hb, hres, hs, -⟩ := h.memos n m hm
    refine ⟨hr, hb, hres, hs, ?_⟩
    simpa only [readers, hm, Option.elim_some] using hv

theorem pushNode {node : Node}
    (hv : match node with
      | .effect e => e.Valid w
      | .memo m => m.Valid w) : (w.pushNode node).Sane := by
  have he := Extends.pushNode w node
  refine h.of_extends he
    (fun _ hi => .inr ⟨hi, rfl⟩) (fun _ hi => .inr ⟨hi, rfl⟩) (fun _ hi => .inr ⟨hi, rfl⟩)
    (fun j e hj => ?_) (fun j m hj => ?_)
    (fun _ hi => .inr ⟨hi, rfl⟩) (fun _ hi => .inr ⟨hi, rfl⟩) (fun _ => .inr) (fun _ => .inr)
  · rw [effect?_pushNode] at hj
    split at hj
    · cases node with
      | effect e' =>
        cases hj
        exact .inl (Effect.Valid.mono he hv)
      | memo m => cases hj
    · exact .inr hj
  · rw [memo?_pushNode] at hj
    split at hj
    · cases node with
      | effect e => cases hj
      | memo m' =>
        cases hj
        exact .inl (Memo.Valid.mono he hv)
    · exact .inr hj

theorem modifyStore (id : StoreId) {f : Store → Store}
    (hf : (f (w.store id)).runtime = (w.store id).runtime ∧
      (f (w.store id)).state = (w.store id).state ∧ (f (w.store id)).watcher = (w.store id).watcher)
    (hv : ∀ sub ∈ (f (w.store id)).subscribers, sub < w.subscriptions.size) :
    (w.modifyStore id f).Sane := by
  have he := Extends.modifyStore w id hf
  have hs : (w.modifyStore id f).stores.size = w.stores.size := by
    simp [World.modifyStore]
  refine h.of_extends he
    (fun _ hi => .inr ⟨hi, rfl⟩) (fun _ hi => .inr ⟨hi, rfl⟩) (fun _ hi => .inr ⟨hi, rfl⟩)
    (fun _ _ => .inr) (fun _ _ => .inr)
    (fun j hj => ?_) (fun _ hi => .inr ⟨hi, rfl⟩) (fun _ => .inr) (fun _ => .inr)
  rw [hs] at hj
  rw [store_modifyStore]
  split
  · next hij =>
    obtain ⟨rfl, -⟩ := hij
    obtain ⟨hst, ho, hr, hw, -⟩ := h.stores id hj
    refine .inl (Store.Valid.mono he ⟨?_, ?_, ?_, ?_, hv⟩)
    · exact hf.2.1 ▸ hst
    · rw [hf.1, hf.2.1, ho]
    · exact hf.1 ▸ hr
    · exact hf.2.2 ▸ hw
  · exact .inr ⟨hj, rfl⟩

theorem modifySubscription (id : SubscriptionId) {f : Subscription → Subscription}
    (hf : (f (w.subscription id)).store = (w.subscription id).store ∧
      (f (w.subscription id)).callback = (w.subscription id).callback) :
    (w.modifySubscription id f).Sane := by
  have he := Extends.modifySubscription w id hf
  have hs : (w.modifySubscription id f).subscriptions.size = w.subscriptions.size := by
    simp [World.modifySubscription]
  refine h.of_extends he
    (fun _ hi => .inr ⟨hi, rfl⟩) (fun _ hi => .inr ⟨hi, rfl⟩) (fun _ hi => .inr ⟨hi, rfl⟩)
    (fun _ _ => .inr) (fun _ _ => .inr)
    (fun _ hi => .inr ⟨hi, rfl⟩) (fun j hj => ?_) (fun _ => .inr) (fun _ => .inr)
  rw [hs] at hj
  rw [subscription_modifySubscription]
  split
  · next hij =>
    obtain ⟨rfl, -⟩ := hij
    obtain ⟨hst, hc⟩ := h.subscriptions id hj
    refine .inl (Subscription.Valid.mono he ⟨?_, ?_⟩)
    · exact hf.1 ▸ hst
    · exact hf.2 ▸ hc
  · exact .inr ⟨hj, rfl⟩

end Sane

theorem stores_modifyReaders (w : World) (h : Handle) (f : Readers → Readers) :
    (w.modifyReaders h f).stores = w.stores := by
  cases h <;> rfl

theorem stores_clearedOf (w : World) (n : NodeId) : (w.clearedOf n).stores = w.stores := by
  have fold (ps : List (Handle × Key)) (w : World) :
      (ps.foldl (fun w p => w.modifyReaders p.1 (·.remove p.2 n)) w).stores = w.stores := by
    induction ps generalizing w with
    | nil => rfl
    | cons p ps ih => exact (ih _).trans (stores_modifyReaders w p.1 _)
  exact fold _ _

theorem stores_disposing (w : World) (n : NodeId) : (w.disposing n).stores = w.stores :=
  stores_clearedOf _ n

theorem mem_readers_modifyReaders_remove {h : Handle} {key : Key} {n : NodeId} {p : Key × NodeId}
    (hp : p ∈ (w.readers h).remove key n) : p ∈ w.readers h :=
  List.mem_of_mem_erase hp

namespace Extends

theorem trackedBy (w : World) (n : NodeId) (h : Handle) (key : Key) :
    w.Extends (w.trackedBy n h key) := by
  rw [World.trackedBy]
  split
  · exact note w _
  · exact (note w _).trans ((modifyReaders _ h _).trans (modifySources _ n _))

theorem trackedIn (w : World) (rt : RuntimeId) (h : Handle) (key : Key) :
    w.Extends (w.trackedIn rt h key) := by
  rw [World.trackedIn]
  split
  · exact refl w
  · exact trackedBy w _ h key

theorem removeReaders (w : World) (n : NodeId) (ps : List (Handle × Key)) :
    w.Extends (ps.foldl (fun w p => w.modifyReaders p.1 (·.remove p.2 n)) w) := by
  induction ps generalizing w with
  | nil => exact refl w
  | cons p ps ih => exact (modifyReaders w p.1 _).trans (ih _)

theorem clearedOf (w : World) (n : NodeId) : w.Extends (w.clearedOf n) :=
  (note w _).trans ((modifySources _ n _).trans (removeReaders _ n _))

theorem taken (w : World) (h : Handle) (key : Key) : w.Extends (w.taken h key) :=
  (note w _).trans (modifyReaders _ h _)

theorem pushContext (w : World) (rt : RuntimeId) (reader : Option NodeId) :
    w.Extends (w.pushContext rt reader) :=
  modifyRuntime w rt fun _ => ⟨rfl, rfl⟩

theorem popContext (w : World) (rt : RuntimeId) : w.Extends (w.popContext rt) :=
  modifyRuntime w rt fun _ => ⟨rfl, rfl⟩

theorem requested (w : World) (rt : RuntimeId) : w.Extends (w.requested rt) := by
  have h := (modifyRuntime w rt (f := fun r => { r with flushRequested := true })
    fun _ => ⟨rfl, rfl⟩).trans (note _ (.requested rt))
  rw [World.requested]
  split
  · exact h
  · exact h.trans { refl _ with }
  · exact h.trans { refl _ with }
  · exact h.trans { refl _ with }

theorem queuedIn (w : World) (rt : RuntimeId) (n : NodeId) : w.Extends (w.queuedIn rt n) := by
  have h := (note w (.queued rt n)).trans
    (modifyRuntime _ rt (f := fun r => { r with queue := r.queue ++ [n] }) fun _ => ⟨rfl, rfl⟩)
  rw [World.queuedIn]
  split
  · exact h
  · exact h.trans (requested _ rt)

theorem madeDirty (w : World) (n : NodeId) : w.Extends (w.madeDirty n) :=
  modifyMemo w n fun _ => ⟨rfl, rfl⟩

theorem computing (w : World) (n : NodeId) (rt : RuntimeId) : w.Extends (w.computing n rt) := by
  rw [World.computing]
  refine trans ?_ (note _ _)
  refine trans ?_ (pushContext _ rt _)
  exact (clearedOf w n).trans (modifyMemo _ n fun _ => ⟨rfl, rfl⟩)

theorem computed (w : World) (n : NodeId) (rt : RuntimeId) (r : Result) :
    w.Extends (w.computed n rt r) := by
  rw [World.computed]
  exact ((popContext w rt).trans (note _ _)).trans (modifyMemo _ n fun _ => ⟨rfl, rfl⟩)

theorem gotBy (w : World) (reader : Option NodeId) (n : NodeId) (r : Result) :
    w.Extends (w.gotBy reader n r) := by
  cases reader with
  | none => exact note w _
  | some x => exact (note w _).trans (note _ _)

theorem running (w : World) (n : NodeId) (rt : RuntimeId) : w.Extends (w.running n rt) := by
  rw [World.running]
  refine trans ?_ (note _ _)
  exact ((clearedOf w n).trans (pushContext _ rt _)).trans (modifyEffect _ n fun _ _ => ⟨rfl, .refl _, id⟩)

theorem stopped (w : World) (n : NodeId) (rt : RuntimeId) : w.Extends (w.stopped n rt) := by
  rw [World.stopped]
  refine trans ?_ (popContext _ rt)
  exact modifyEffect w n fun _ _ => ⟨rfl, .refl _, id⟩

theorem ran (w : World) (n : NodeId) (rt : RuntimeId) : w.Extends (w.ran n rt) := by
  rw [World.ran]
  refine trans ?_ (popContext _ rt)
  refine trans ?_ (modifyEffect _ n fun _ _ => ⟨rfl, .refl _, id⟩)
  refine trans ?_ (note _ _)
  exact modifyEffect w n fun _ _ => ⟨rfl, .refl _, id⟩

theorem disposing (w : World) (n : NodeId) : w.Extends (w.disposing n) := by
  rw [World.disposing]
  refine trans ?_ (clearedOf _ n)
  exact modifyEffect w n fun _ _ => ⟨rfl, .refl _, fun _ => rfl⟩

theorem cleaning (w : World) (n : NodeId) (rt : RuntimeId) : w.Extends (w.cleaning n rt) := by
  rw [World.cleaning]
  refine trans ?_ (pushContext _ rt none)
  exact modifyEffect w n fun _ _ => ⟨rfl, .refl _, id⟩

theorem withStore (w : World) (state : ObjectId) : w.Extends (w.withStore state) := by
  rw [World.withStore]
  exact (pushStore w _).trans (pushNode _ _)

theorem passBegun (w : World) (id : StoreId) : w.Extends (w.passBegun id) := by
  have h := (note w (.passBegan id)).trans
    (modifyStore _ id (f := fun s => { s with notifying := true }) ⟨rfl, rfl, rfl⟩)
  exact h.trans (pushContext _ _ _)

theorem passEnded (w : World) (id : StoreId) (rt : RuntimeId) : w.Extends (w.passEnded id rt) := by
  have h := (popContext w rt).trans
    (modifyStore _ id (f := fun s => { s with notifying := false }) ⟨rfl, rfl, rfl⟩)
  exact h.trans (note _ _)

theorem passPostponed (w : World) (id : StoreId) : w.Extends (w.passPostponed id) :=
  (note w (.passPostponed id)).trans
    (modifyStore _ id (f := fun s => { s with pending := true }) ⟨rfl, rfl, rfl⟩)

theorem callBegun (w : World) (sub : SubscriptionId) (j : Json) : w.Extends (w.callBegun sub j) :=
  (note w (.delivered sub j)).trans
    (modifySubscription _ sub (f := fun s => { s with running := true }) ⟨rfl, rfl⟩)

theorem callEnded (w : World) (sub : SubscriptionId) : w.Extends (w.callEnded sub) :=
  (modifySubscription w sub (f := fun s => { s with running := false }) ⟨rfl, rfl⟩).trans
    (note _ (.returned sub))

theorem withSubscription (w : World) (id : StoreId) (callback : Closure) :
    w.Extends (w.withSubscription id callback) := by
  have h := (pushSubscription w
      { store := id, number := (w.store id).subscribed, callback := callback }).trans
    (modifyStore _ id (f := fun s => { s with
      subscribers := s.subscribers ++ [w.subscriptions.size], subscribed := s.subscribed + 1 })
        ⟨rfl, rfl, rfl⟩)
  exact h.trans (note _ _)

theorem cancelled (w : World) (sub : SubscriptionId) : w.Extends (w.cancelled sub) := by
  have h := modifySubscription w sub (f := fun s => { s with active := false }) ⟨rfl, rfl⟩
  refine trans ?_ (note _ (.unsubscribed sub))
  split
  · refine h.trans ?_
    exact modifyStore _ _ (f := fun s => { s with subscribers := s.subscribers.erase sub })
      ⟨rfl, rfl, rfl⟩
  · exact h

end Extends

namespace Sane

variable (h : w.Sane)
include h

theorem readers_valid {x : Handle} (hx : x.Valid w) : (w.readers x).Valid w := by
  cases x with
  | object id => exact (h.objects id hx).2.2
  | array id => exact (h.arrays id hx).2.2
  | memo n =>
    obtain ⟨m, hm⟩ := Option.isSome_iff_exists.1 hx
    simpa only [readers, hm, Option.elim_some] using (h.memos n m hm).2.2.2.2

theorem sources_valid (n : NodeId) : ∀ p ∈ w.sources n, p.1.Valid w := by
  intro p hp
  rw [sources] at hp
  split at hp
  · next e he => exact (h.effects n e (by simp [effect?, he])).2.2.2 p hp
  · next m hm => exact (h.memos n m (by simp [memo?, hm])).2.2.2.1 p hp
  · cases hp

theorem owner_lt {x : Handle} (hx : x.Valid w) : w.owner x < w.runtimes.size := by
  cases x with
  | object id => exact (h.objects id hx).1
  | array id => exact (h.arrays id hx).1
  | memo n =>
    obtain ⟨m, hm⟩ := Option.isSome_iff_exists.1 hx
    simpa only [owner, hm, Option.elim_some] using (h.memos n m hm).1

theorem trackedBy {n : NodeId} {x : Handle} (key : Key) (hx : x.Valid w) (hn : n < w.nodes.size) :
    (w.trackedBy n x key).Sane := by
  have he := Extends.note w (.tracked n x key)
  have hs := h.note (.tracked n x key)
  rw [World.trackedBy]
  split
  · exact hs
  · refine (hs.modifyReaders ?_).modifySources n ?_
    · intro p hp
      rcases List.mem_append.1 hp with hp | hp
      · exact hs.readers_valid (hx.mono he) p hp
      · obtain rfl := List.mem_singleton.1 hp
        exact hn
    · have he' := Extends.modifyReaders (w.note (.tracked n x key)) x (·.add key n)
      have hs' : ((w.note (.tracked n x key)).modifyReaders x (·.add key n)).Sane := by
        refine hs.modifyReaders fun p hp => ?_
        rcases List.mem_append.1 hp with hp | hp
        · exact hs.readers_valid (hx.mono he) p hp
        · obtain rfl := List.mem_singleton.1 hp
          exact hn
      intro p hp
      rcases List.mem_append.1 hp with hp | hp
      · exact hs'.sources_valid n p hp
      · obtain rfl := List.mem_singleton.1 hp
        exact (hx.mono he).mono he'

theorem trackedIn {rt : RuntimeId} {x : Handle} (key : Key) (hx : x.Valid w)
    (hrt : rt < w.runtimes.size) : (w.trackedIn rt x key).Sane := by
  rw [World.trackedIn]
  split
  · exact h
  · next n hn =>
    refine h.trackedBy key hx ((h.runtimes rt hrt).2 n ?_)
    rw [currentReader] at hn
    cases hc : (w.runtime rt).context with
    | nil => simp [hc] at hn
    | cons r rest =>
      simp only [hc, List.head?_cons, Option.join_some] at hn
      simp [hn]

theorem removeReaders (n : NodeId) {ps : List (Handle × Key)} (hp : ∀ p ∈ ps, p.1.Valid w) :
    (ps.foldl (fun w p => w.modifyReaders p.1 (·.remove p.2 n)) w).Sane := by
  induction ps generalizing w with
  | nil => exact h
  | cons p ps ih =>
    have he := Extends.modifyReaders w p.1 (·.remove p.2 n)
    refine ih (h.modifyReaders fun q hq => ?_) fun q hq => (hp q (List.mem_cons_of_mem _ hq)).mono he
    exact h.readers_valid (hp p (List.mem_cons_self ..)) q (mem_readers_modifyReaders_remove hq)

theorem clearedOf (n : NodeId) : (w.clearedOf n).Sane := by
  have he := (Extends.note w (.cleared n)).trans
    (Extends.modifySources (w.note (.cleared n)) n fun _ => [])
  have hs : ((w.note (.cleared n)).modifySources n fun _ => []).Sane :=
    (h.note _).modifySources n (by simp)
  exact hs.removeReaders n fun p hp => ((h.sources_valid n) p hp).mono he

theorem taken {x : Handle} (key : Key) (hx : x.Valid w) : (w.taken x key).Sane := by
  refine (h.note _).modifyReaders fun p hp => ?_
  exact h.readers_valid hx p (List.mem_of_mem_filter hp)

theorem pushContext (rt : RuntimeId) {reader : Option NodeId}
    (hr : ∀ n, reader = some n → n < w.nodes.size) : (w.pushContext rt reader).Sane := by
  refine h.modifyRuntime rt (fun _ => ⟨rfl, rfl⟩) fun hrt => ?_
  obtain ⟨hq, hc⟩ := h.runtimes rt hrt
  refine ⟨hq, fun n hn => ?_⟩
  rcases List.mem_cons.1 hn with hn | hn
  · exact hr n hn.symm
  · exact hc n hn

theorem popContext (rt : RuntimeId) : (w.popContext rt).Sane := by
  refine h.modifyRuntime rt (fun _ => ⟨rfl, rfl⟩) fun hrt => ?_
  obtain ⟨hq, hc⟩ := h.runtimes rt hrt
  exact ⟨hq, fun n hn => hc n (List.mem_of_mem_tail hn)⟩

theorem withLog (log : List Result) : ({ w with log := log } : World).Sane :=
  h.of_extends { Extends.refl w with } (fun _ hi => .inr ⟨hi, rfl⟩) (fun _ hi => .inr ⟨hi, rfl⟩)
    (fun _ hi => .inr ⟨hi, rfl⟩) (fun _ _ => .inr) (fun _ _ => .inr) (fun _ hi => .inr ⟨hi, rfl⟩)
    (fun _ hi => .inr ⟨hi, rfl⟩) (fun _ => .inr) (fun _ => .inr)

theorem withTasks {tasks : List RuntimeId} (ht : ∀ rt ∈ tasks, rt < w.runtimes.size) :
    ({ w with tasks := tasks } : World).Sane :=
  h.of_extends { Extends.refl w with } (fun _ hi => .inr ⟨hi, rfl⟩) (fun _ hi => .inr ⟨hi, rfl⟩)
    (fun _ hi => .inr ⟨hi, rfl⟩) (fun _ _ => .inr) (fun _ _ => .inr) (fun _ hi => .inr ⟨hi, rfl⟩)
    (fun _ hi => .inr ⟨hi, rfl⟩) (fun _ => .inr) (fun rt hrt => .inl (ht rt hrt))

theorem requested {rt : RuntimeId} (hrt : rt < w.runtimes.size) : (w.requested rt).Sane := by
  have he := Extends.modifyRuntime w rt (f := fun r => { r with flushRequested := true })
    fun _ => ⟨rfl, rfl⟩
  have hs := (h.modifyRuntime rt (f := fun r => { r with flushRequested := true })
    (fun _ => ⟨rfl, rfl⟩) (h.runtimes rt)).note (.requested rt)
  rw [World.requested]
  split
  · exact hs
  · exact hs.withLog _
  · exact hs.withLog _
  · refine hs.withTasks fun x hx => ?_
    rcases List.mem_append.1 hx with hx | hx
    · exact hs.tasks x hx
    · exact List.mem_singleton.1 hx ▸ (he.runtimes rt hrt).1

theorem queuedIn {rt : RuntimeId} {n : NodeId} (hrt : rt < w.runtimes.size)
    (hn : (w.effect? n).isSome) : (w.queuedIn rt n).Sane := by
  have he := (Extends.note w (.queued rt n)).trans
    (Extends.modifyRuntime _ rt (f := fun r => { r with queue := r.queue ++ [n] })
      fun _ => ⟨rfl, rfl⟩)
  have hs : ((w.note (.queued rt n)).modifyRuntime rt
      fun r => { r with queue := r.queue ++ [n] }).Sane := by
    refine (h.note _).modifyRuntime rt (fun _ => ⟨rfl, rfl⟩) fun hrt => ?_
    obtain ⟨hq, hc⟩ := h.runtimes rt hrt
    refine ⟨fun x hx => ?_, hc⟩
    rcases List.mem_append.1 hx with hx | hx
    · exact hq x hx
    · exact List.mem_singleton.1 hx ▸ hn
  rw [World.queuedIn]
  split
  · exact hs
  · exact hs.requested (he.runtimes rt hrt).1

theorem madeDirty (n : NodeId) : (w.madeDirty n).Sane :=
  h.modifyMemo n (fun _ => ⟨rfl, rfl⟩) (h.memos n)

theorem computing {n : NodeId} (rt : RuntimeId) (hn : n < w.nodes.size) :
    (w.computing n rt).Sane := by
  have hs := h.clearedOf n
  have he := (Extends.clearedOf w n).trans
    (Extends.modifyMemo _ n (f := fun m => { m with dirty := false }) fun _ => ⟨rfl, rfl⟩)
  rw [World.computing]
  refine Sane.note (Sane.pushContext ?_ rt ?_) _
  · exact hs.modifyMemo n (fun _ => ⟨rfl, rfl⟩) (hs.memos n)
  · rintro x ⟨⟩
    exact Nat.lt_of_lt_of_le hn he.nodes

theorem computed (n : NodeId) (rt : RuntimeId) {r : Result} (hr : r.Valid w) :
    (w.computed n rt r).Sane := by
  have hs := (h.popContext rt).note (.finished n)
  have he := (Extends.popContext w rt).trans (Extends.note _ (.finished n))
  refine hs.modifyMemo n (fun _ => ⟨rfl, rfl⟩) fun m hm => ?_
  obtain ⟨hrt, hb, -, hsrc, hd⟩ := hs.memos n m hm
  refine ⟨hrt, hb, ?_, hsrc, hd⟩
  rintro x ⟨⟩
  exact hr.mono he

theorem gotBy (reader : Option NodeId) (n : NodeId) (r : Result) : (w.gotBy reader n r).Sane := by
  cases reader with
  | none => exact h.note _
  | some x => exact (h.note _).note _

theorem running {n : NodeId} (rt : RuntimeId) (hn : n < w.nodes.size) :
    (w.running n rt).Sane := by
  have hs : ((w.clearedOf n).pushContext rt (some n)).Sane := (h.clearedOf n).pushContext rt (by
    rintro x ⟨⟩
    exact Nat.lt_of_lt_of_le hn (Extends.clearedOf w n).nodes)
  rw [World.running]
  refine Sane.note ?_ _
  exact hs.modifyEffect n (fun _ _ => ⟨rfl, .refl _, id⟩) (hs.effects n)

theorem stopped (n : NodeId) (rt : RuntimeId) : (w.stopped n rt).Sane := by
  rw [World.stopped]
  refine Sane.popContext ?_ rt
  exact h.modifyEffect n (fun _ _ => ⟨rfl, .refl _, id⟩) (h.effects n)

theorem ran (n : NodeId) (rt : RuntimeId) : (w.ran n rt).Sane := by
  have hs := (h.modifyEffect n (f := fun e => { e with running := false })
    (fun _ _ => ⟨rfl, .refl _, id⟩)
    (h.effects n)).note (.finished n)
  rw [World.ran]
  refine Sane.popContext ?_ rt
  exact hs.modifyEffect n (fun _ _ => ⟨rfl, .refl _, id⟩) (hs.effects n)

theorem disposing (n : NodeId) : (w.disposing n).Sane := by
  rw [World.disposing]
  refine Sane.clearedOf ?_ n
  exact h.modifyEffect n (fun _ _ => ⟨rfl, .refl _, fun _ => rfl⟩) (h.effects n)

theorem cleaning (n : NodeId) (rt : RuntimeId) : (w.cleaning n rt).Sane := by
  rw [World.cleaning]
  refine Sane.pushContext ?_ rt (by rintro x ⟨⟩)
  refine h.modifyEffect n (fun _ _ => ⟨rfl, .refl _, id⟩) fun e hn => ?_
  obtain ⟨hr, hj, -, hs⟩ := h.effects n e hn
  exact ⟨hr, hj, fun c hx => absurd hx List.not_mem_nil, hs⟩

theorem withStore {state : ObjectId} (hs : state < w.objects.size) : (w.withStore state).Sane := by
  have hrt := (h.objects state hs).1
  have he := Extends.withStore w state
  refine h.of_extends he (fun _ hi => .inr ⟨hi, rfl⟩) (fun _ hi => .inr ⟨hi, rfl⟩)
    (fun _ hi => .inr ⟨hi, rfl⟩) (fun j e hj => ?_) (fun j m hj => ?_) (fun id hi => ?_)
    (fun _ hi => .inr ⟨hi, rfl⟩) (fun _ => .inr) (fun _ => .inr)
  · rw [World.withStore, effect?_pushNode] at hj
    split at hj
    · cases hj
      refine .inl ⟨hrt, ?_, fun c hx => absurd hx List.not_mem_nil, fun p hp => absurd hp List.not_mem_nil⟩
      simp [Job.Valid, World.withStore, World.pushNode]
    · exact .inr hj
  · rw [World.withStore, memo?_pushNode] at hj
    split at hj
    · cases hj
    · exact .inr hj
  · rcases Nat.lt_succ_iff_lt_or_eq.1 (by simpa [World.withStore, World.pushNode] using hi) with hi | rfl
    · refine .inr ⟨hi, ?_⟩
      simp [World.withStore, World.pushNode, store, Array.getElem?_push, Nat.ne_of_lt hi]
    · refine .inl ?_
      have : (w.withStore state).store w.stores.size =
          { runtime := (w.object state).runtime, state := state, watcher := w.nodes.size } := by
        simp [World.withStore, World.pushNode, store]
      rw [this]
      refine ⟨hs, rfl, hrt, ?_, fun sub hs => absurd hs List.not_mem_nil⟩
      simp [World.withStore, effect?_pushNode]

theorem subscribers_lt (id : StoreId) :
    ∀ sub ∈ (w.store id).subscribers, sub < w.subscriptions.size := by
  by_cases hid : id < w.stores.size
  · obtain ⟨-, -, -, -, hs⟩ := h.stores id hid
    exact hs
  · have hd : w.store id = default := by simp [World.store, hid]
    rw [hd]
    exact fun _ hs => absurd hs List.not_mem_nil

theorem markStore (id : StoreId) {f : Store → Store}
    (keeps : ∀ s, (f s).runtime = s.runtime ∧ (f s).state = s.state ∧ (f s).watcher = s.watcher ∧
      (f s).subscribers = s.subscribers) : (w.modifyStore id f).Sane := by
  obtain ⟨hr, hs, hw, hsub⟩ := keeps (w.store id)
  exact h.modifyStore id ⟨hr, hs, hw⟩ (hsub ▸ h.subscribers_lt id)

theorem passBegun (id : StoreId) : (w.passBegun id).Sane := by
  have hs := (h.note (.passBegan id)).markStore id (f := fun s => { s with notifying := true })
    fun _ => ⟨rfl, rfl, rfl, rfl⟩
  exact hs.pushContext _ (by rintro x ⟨⟩)

theorem passEnded (id : StoreId) (rt : RuntimeId) : (w.passEnded id rt).Sane := by
  have hs := (h.popContext rt).markStore id (f := fun s => { s with notifying := false })
    fun _ => ⟨rfl, rfl, rfl, rfl⟩
  exact hs.note _

theorem passPostponed (id : StoreId) : (w.passPostponed id).Sane :=
  (h.note _).markStore id fun _ => ⟨rfl, rfl, rfl, rfl⟩

theorem callBegun (sub : SubscriptionId) (j : Json) : (w.callBegun sub j).Sane :=
  (h.note _).modifySubscription sub ⟨rfl, rfl⟩

theorem callEnded (sub : SubscriptionId) : (w.callEnded sub).Sane :=
  Sane.note (h.modifySubscription sub ⟨rfl, rfl⟩) _

theorem pushSubscription {s : Subscription} (valid : s.Valid w) :
    ({ w with subscriptions := w.subscriptions.push s } : World).Sane := by
  have he := Extends.pushSubscription w s
  refine h.of_extends he (fun _ hi => .inr ⟨hi, rfl⟩) (fun _ hi => .inr ⟨hi, rfl⟩)
    (fun _ hi => .inr ⟨hi, rfl⟩) (fun _ _ => .inr) (fun _ _ => .inr) (fun _ hi => .inr ⟨hi, rfl⟩)
    (fun id hi => ?_) (fun _ => .inr) (fun _ => .inr)
  rcases Nat.lt_succ_iff_lt_or_eq.1 (by simpa using hi) with hi | rfl
  · exact .inr ⟨hi, by simp [World.subscription, Array.getElem?_push, Nat.ne_of_lt hi]⟩
  · refine .inl ?_
    have hs : ({ w with subscriptions := w.subscriptions.push s } : World).subscription
        w.subscriptions.size = s := by simp [World.subscription]
    rw [hs]
    exact valid.mono he

theorem withSubscription {id : StoreId} {callback : Closure} (valid : id < w.stores.size)
    (closure : callback.Valid w) : (w.withSubscription id callback).Sane := by
  have hp := h.pushSubscription
    (s := { store := id, number := (w.store id).subscribed, callback := callback }) ⟨valid, closure⟩
  refine Sane.note (hp.modifyStore id ⟨rfl, rfl, rfl⟩ fun sub hsub => ?_) _
  rcases List.mem_append.1 hsub with hsub | hsub
  · exact hp.subscribers_lt id sub hsub
  · rw [List.mem_singleton.1 hsub]
    exact Nat.lt_of_lt_of_eq (Nat.lt_succ_self _) (Array.size_push _).symm

theorem cancelled (sub : SubscriptionId) : (w.cancelled sub).Sane := by
  have hs := h.modifySubscription sub (f := fun s => { s with active := false }) ⟨rfl, rfl⟩
  refine Sane.note ?_ _
  split
  · exact hs.modifyStore _ ⟨rfl, rfl, rfl⟩ fun x hx =>
      hs.subscribers_lt _ x (List.mem_of_mem_erase hx)
  · exact hs

end Sane

end World

end Reactivity
