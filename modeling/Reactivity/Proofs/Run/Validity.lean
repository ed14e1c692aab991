import Reactivity.Program.Session

namespace Reactivity

def World.owner (w : World) : Handle → RuntimeId
  | .object id => (w.object id).runtime
  | .array id => (w.array id).runtime
  | .memo n => (w.memo? n).elim 0 (·.runtime)

def Job.Follows : Job → Job → Prop
  | .body c, .body c' => c' = c
  | .watch getter callback immediate _ _, .watch getter' callback' immediate' _ _ =>
    getter' = getter ∧ callback' = callback ∧ immediate' = immediate
  | .watchStore id primed, .watchStore id' primed' => id' = id ∧ (primed → primed')
  | _, _ => False

@[refl]
theorem Job.Follows.refl (j : Job) : j.Follows j := by
  cases j <;> simp [Job.Follows]

theorem Job.Follows.trans {i j k : Job} (h : i.Follows j) (h' : j.Follows k) : i.Follows k := by
  cases i <;> cases j <;> cases k <;> simp_all [Job.Follows]

theorem Job.Follows.of_watchStore {id : StoreId} {primed : Bool} {j : Job}
    (h : (Job.watchStore id primed).Follows j) :
    ∃ primed', j = .watchStore id primed' ∧ (primed → primed') := by
  cases j with
  | watchStore id' primed' =>
    obtain ⟨rfl, hp⟩ := h
    exact ⟨primed', rfl, hp⟩
  | _ => exact h.elim

def Job.isWatcher : Job → Bool
  | .watchStore .. => true
  | _ => false

def Job.isPrimed : Job → Bool
  | .watchStore _ primed => primed
  | _ => true

def World.isWatcher (w : World) (n : NodeId) : Bool :=
  (w.effect? n).any (·.job.isWatcher)

theorem Job.Follows.isWatcher_eq {i j : Job} (h : i.Follows j) : j.isWatcher = i.isWatcher := by
  cases i <;> cases j <;> first | rfl | exact h.elim

/-- `w.Extends w'`: what was there in `w` is there in `w'` and belongs where it did. -/
structure World.Extends (w w' : World) : Prop where
  runtimes : ∀ id, id < w.runtimes.size → id < w'.runtimes.size ∧
    (w'.runtime id).settings = (w.runtime id).settings ∧ (w'.runtime id).hook = (w.runtime id).hook
  objects : ∀ id, id < w.objects.size → id < w'.objects.size ∧
    (w'.object id).runtime = (w.object id).runtime
  arrays : ∀ id, id < w.arrays.size → id < w'.arrays.size ∧
    (w'.array id).runtime = (w.array id).runtime
  nodes : w.nodes.size ≤ w'.nodes.size
  effects : ∀ n e, w.effect? n = some e →
    ∃ e', w'.effect? n = some e' ∧ e'.runtime = e.runtime ∧ e.job.Follows e'.job
  disposed : ∀ n, w.isDisposed n → w'.isDisposed n
  memos : ∀ n m, w.memo? n = some m →
    ∃ m', w'.memo? n = some m' ∧ m'.runtime = m.runtime ∧ m'.body = m.body
  stores : ∀ id, id < w.stores.size → id < w'.stores.size ∧
    (w'.store id).runtime = (w.store id).runtime ∧ (w'.store id).state = (w.store id).state ∧
      (w'.store id).watcher = (w.store id).watcher
  subscriptions : ∀ id, id < w.subscriptions.size → id < w'.subscriptions.size ∧
    (w'.subscription id).store = (w.subscription id).store ∧
      (w'.subscription id).callback = (w.subscription id).callback
  history : w.history <:+ w'.history
  bindings : ∀ name, w'.bindings.lookup name = w.bindings.lookup name ∨
    ∃ new, w'.history = new ++ w.history ∧ .bound name ∈ new

namespace World.Extends

variable {w w' w'' : World}

theorem refl (w : World) : w.Extends w where
  runtimes _ h := ⟨h, rfl, rfl⟩
  objects _ h := ⟨h, rfl⟩
  arrays _ h := ⟨h, rfl⟩
  nodes := Nat.le_refl _
  effects _ e h := ⟨e, h, rfl, .refl _⟩
  disposed _ := id
  memos _ m h := ⟨m, h, rfl, rfl⟩
  stores _ h := ⟨h, rfl, rfl, rfl⟩
  subscriptions _ h := ⟨h, rfl, rfl⟩
  history := List.suffix_refl _
  bindings _ := .inl rfl

theorem trans (h : w.Extends w') (h' : w'.Extends w'') : w.Extends w'' where
  runtimes id hid := by
    obtain ⟨hid', hs, hh⟩ := h.runtimes id hid
    obtain ⟨hid'', hs', hh'⟩ := h'.runtimes id hid'
    exact ⟨hid'', hs'.trans hs, hh'.trans hh⟩
  objects id hid := by
    obtain ⟨hid', hr⟩ := h.objects id hid
    obtain ⟨hid'', hr'⟩ := h'.objects id hid'
    exact ⟨hid'', hr'.trans hr⟩
  arrays id hid := by
    obtain ⟨hid', hr⟩ := h.arrays id hid
    obtain ⟨hid'', hr'⟩ := h'.arrays id hid'
    exact ⟨hid'', hr'.trans hr⟩
  nodes := Nat.le_trans h.nodes h'.nodes
  effects n e he := by
    obtain ⟨e', he', hr, hj⟩ := h.effects n e he
    obtain ⟨e'', he'', hr', hj'⟩ := h'.effects n e' he'
    exact ⟨e'', he'', hr'.trans hr, hj.trans hj'⟩
  disposed n hn := h'.disposed n (h.disposed n hn)
  memos n m hm := by
    obtain ⟨m', hm', hr, hb⟩ := h.memos n m hm
    obtain ⟨m'', hm'', hr', hb'⟩ := h'.memos n m' hm'
    exact ⟨m'', hm'', hr'.trans hr, hb'.trans hb⟩
  stores id hid := by
    obtain ⟨hid', hr, hs, hw⟩ := h.stores id hid
    obtain ⟨hid'', hr', hs', hw'⟩ := h'.stores id hid'
    exact ⟨hid'', hr'.trans hr, hs'.trans hs, hw'.trans hw⟩
  subscriptions id hid := by
    obtain ⟨hid', hs, hc⟩ := h.subscriptions id hid
    obtain ⟨hid'', hs', hc'⟩ := h'.subscriptions id hid'
    exact ⟨hid'', hs'.trans hs, hc'.trans hc⟩
  history := h.history.trans h'.history
  bindings name := by
    rcases h'.bindings name with hb' | ⟨new', hn', hm'⟩
    · rcases h.bindings name with hb | ⟨new, hn, hm⟩
      · exact .inl (hb'.trans hb)
      · obtain ⟨new', hn'⟩ := h'.history
        exact .inr ⟨new' ++ new, by rw [← hn', hn, List.append_assoc], List.mem_append_right _ hm⟩
    · obtain ⟨new, hn⟩ := h.history
      exact .inr ⟨new' ++ new, by rw [hn', ← hn, List.append_assoc], List.mem_append_left _ hm'⟩

theorem isSome_effect? (h : w.Extends w') {n : NodeId} (hn : (w.effect? n).isSome) :
    (w'.effect? n).isSome := by
  obtain ⟨e, he⟩ := Option.isSome_iff_exists.1 hn
  obtain ⟨e', he', -⟩ := h.effects n e he
  rw [he']
  rfl

theorem effect?_eq_none (h : w.Extends w') {n : NodeId} (hn : w'.effect? n = none) :
    w.effect? n = none := by
  cases he : w.effect? n with
  | none => rfl
  | some e =>
    obtain ⟨e', he', -⟩ := h.effects n e he
    rw [hn] at he'
    cases he'

theorem isSome_memo? (h : w.Extends w') {n : NodeId} (hn : (w.memo? n).isSome) :
    (w'.memo? n).isSome := by
  obtain ⟨m, hm⟩ := Option.isSome_iff_exists.1 hn
  obtain ⟨m', hm', -, -⟩ := h.memos n m hm
  rw [hm']
  rfl

end World.Extends

def Handle.Valid (w : World) : Handle → Prop
  | .object id => id < w.objects.size
  | .array id => id < w.arrays.size
  | .memo n => (w.memo? n).isSome

/-- The container that the value is, if it is one, is there. Not-a-number has one form. -/
def Value.Valid (w : World) : Value → Prop
  | .object id => id < w.objects.size
  | .array id => id < w.arrays.size
  | .number x => x.canonical = x
  | _ => True

mutual

/-- Everything that the result refers to is there. Nobody has a handle of the watcher of a store. -/
def Result.Valid (w : World) : Result → Prop
  | .value v => v.Valid w
  | .list items => Result.ItemsValid w items
  | .effect n => (w.effect? n).isSome ∧ w.isWatcher n = false
  | .memo n => (w.memo? n).isSome
  | .runtime id => id < w.runtimes.size
  | _ => True

def Result.ItemsValid (w : World) : List Result → Prop
  | [] => True
  | r :: items => r.Valid w ∧ Result.ItemsValid w items

end

def Cell.Valid (w : World) : Cell → Prop
  | .value v => v.Valid w
  | .plain j => j.isContainer

def Closure.Valid (w : World) (c : Closure) : Prop :=
  c.runtime < w.runtimes.size

def Job.Valid (w : World) : Job → Prop
  | .body c => c.Valid w
  | .watch getter callback _ _ last =>
    getter.Valid w ∧ callback.Valid w ∧ ∀ r, last = some r → r.Valid w
  | .watchStore id _ => id < w.stores.size

def Binding.Valid (w : World) : Binding → Prop
  | .result r => r.Valid w
  | .store id => id < w.stores.size
  | .subscription id => id < w.subscriptions.size

def Readers.Valid (w : World) (r : Readers) : Prop :=
  ∀ p ∈ r, p.2 < w.nodes.size

def Runtime.Valid (w : World) (r : Runtime) : Prop :=
  (∀ n ∈ r.queue, (w.effect? n).isSome) ∧ ∀ n, some n ∈ r.context → n < w.nodes.size

def ObjectState.Valid (w : World) (o : ObjectState) : Prop :=
  o.runtime < w.runtimes.size ∧ (∀ p ∈ o.properties, p.2.Valid w) ∧ o.readers.Valid w

def ArrayState.Valid (w : World) (a : ArrayState) : Prop :=
  a.runtime < w.runtimes.size ∧ (∀ cell ∈ a.cells, cell.Valid w) ∧ a.readers.Valid w

def Effect.Valid (w : World) (e : Effect) : Prop :=
  e.runtime < w.runtimes.size ∧ e.job.Valid w ∧ (∀ c ∈ e.cleanups, c.Valid w) ∧
    ∀ p ∈ e.sources, p.1.Valid w

def Memo.Valid (w : World) (m : Memo) : Prop :=
  m.runtime < w.runtimes.size ∧ m.body.Valid w ∧ (∀ r, m.result = some r → r.Valid w) ∧
    (∀ p ∈ m.sources, p.1.Valid w) ∧ m.readers.Valid w

def Store.Valid (w : World) (s : Store) : Prop :=
  s.state < w.objects.size ∧ (w.object s.state).runtime = s.runtime ∧
    s.runtime < w.runtimes.size ∧ (w.effect? s.watcher).isSome ∧
      ∀ sub ∈ s.subscribers, sub < w.subscriptions.size

def Subscription.Valid (w : World) (s : Subscription) : Prop :=
  s.store < w.stores.size ∧ s.callback.Valid w

/-- Whatever is kept in the state refers to things that are there. -/
structure World.Sane (w : World) : Prop where
  runtimes : ∀ id, id < w.runtimes.size → (w.runtime id).Valid w
  objects : ∀ id, id < w.objects.size → (w.object id).Valid w
  arrays : ∀ id, id < w.arrays.size → (w.array id).Valid w
  effects : ∀ n e, w.effect? n = some e → e.Valid w
  memos : ∀ n m, w.memo? n = some m → m.Valid w
  stores : ∀ id, id < w.stores.size → (w.store id).Valid w
  subscriptions : ∀ id, id < w.subscriptions.size → (w.subscription id).Valid w
  bindings : ∀ p ∈ w.bindings, p.2.Valid w
  tasks : ∀ rt ∈ w.tasks, rt < w.runtimes.size

theorem Result.itemsValid_iff {w : World} {items : List Result} :
    Result.ItemsValid w items ↔ ∀ r ∈ items, r.Valid w := by
  induction items with
  | nil => simp [Result.ItemsValid]
  | cons r items ih => simp [Result.ItemsValid, ih]

theorem World.Extends.isWatcher_eq {w w' : World} (h : w.Extends w') {n : NodeId}
    (hn : (w.effect? n).isSome) : w'.isWatcher n = w.isWatcher n := by
  obtain ⟨e, he⟩ := Option.isSome_iff_exists.1 hn
  obtain ⟨e', he', -, hj⟩ := h.effects n e he
  rw [World.isWatcher, World.isWatcher, he, he']
  exact hj.isWatcher_eq

section Monotone

variable {w w' : World} (h : w.Extends w')
include h

theorem Handle.Valid.mono {x : Handle} (hx : x.Valid w) : x.Valid w' := by
  cases x with
  | object id => exact (h.objects id hx).1
  | array id => exact (h.arrays id hx).1
  | memo n => exact h.isSome_memo? hx

theorem World.Extends.owner_eq {x : Handle} (hx : x.Valid w) : w'.owner x = w.owner x := by
  cases x with
  | object id => exact (h.objects id hx).2
  | array id => exact (h.arrays id hx).2
  | memo n =>
    obtain ⟨m, hm⟩ := Option.isSome_iff_exists.1 hx
    obtain ⟨m', hm', hr, -⟩ := h.memos n m hm
    simp only [World.owner, hm, hm', Option.elim_some, hr]

theorem Value.Valid.mono {v : Value} (hv : v.Valid w) : v.Valid w' := by
  cases v with
  | object id => exact (h.objects id hv).1
  | array id => exact (h.arrays id hv).1
  | number x => exact hv
  | _ => trivial

mutual

theorem Result.Valid.mono {r : Result} (hr : r.Valid w) : r.Valid w' := by
  cases r with
  | value v => exact Value.Valid.mono h hr
  | list items => exact Result.ItemsValid.mono hr
  | effect n => exact ⟨h.isSome_effect? hr.1, (h.isWatcher_eq hr.1).trans hr.2⟩
  | memo n => exact h.isSome_memo? hr
  | runtime id => exact (h.runtimes id hr).1
  | _ => trivial

theorem Result.ItemsValid.mono {items : List Result} (hr : Result.ItemsValid w items) :
    Result.ItemsValid w' items := by
  cases items with
  | nil => trivial
  | cons r items => exact ⟨Result.Valid.mono hr.1, Result.ItemsValid.mono hr.2⟩

end

theorem Cell.Valid.mono {c : Cell} (hc : c.Valid w) : c.Valid w' := by
  cases c with
  | value v => exact Value.Valid.mono h hc
  | plain j => exact hc

theorem Closure.Valid.mono {c : Closure} (hc : c.Valid w) : c.Valid w' :=
  (h.runtimes _ hc).1

theorem Job.Valid.mono {j : Job} (hj : j.Valid w) : j.Valid w' := by
  cases j with
  | body c => exact Closure.Valid.mono h hj
  | watch getter callback immediate fresh last =>
    obtain ⟨hg, hc, hl⟩ := hj
    exact ⟨Closure.Valid.mono h hg, Closure.Valid.mono h hc, fun r hr => Result.Valid.mono h (hl r hr)⟩
  | watchStore id primed => exact (h.stores _ hj).1

theorem Binding.Valid.mono {b : Binding} (hb : b.Valid w) : b.Valid w' := by
  cases b with
  | result r => exact Result.Valid.mono h hb
  | store id => exact (h.stores id hb).1
  | subscription id => exact (h.subscriptions id hb).1

theorem Readers.Valid.mono {r : Readers} (hr : r.Valid w) : r.Valid w' :=
  fun p hp => Nat.lt_of_lt_of_le (hr p hp) h.nodes

theorem Runtime.Valid.mono {r : Runtime} (hr : r.Valid w) : r.Valid w' :=
  ⟨fun n hn => h.isSome_effect? (hr.1 n hn), fun n hn => Nat.lt_of_lt_of_le (hr.2 n hn) h.nodes⟩

theorem ObjectState.Valid.mono {o : ObjectState} (ho : o.Valid w) : o.Valid w' :=
  ⟨(h.runtimes _ ho.1).1, fun p hp => Cell.Valid.mono h (ho.2.1 p hp), Readers.Valid.mono h ho.2.2⟩

theorem ArrayState.Valid.mono {a : ArrayState} (ha : a.Valid w) : a.Valid w' :=
  ⟨(h.runtimes _ ha.1).1, fun c hc => Cell.Valid.mono h (ha.2.1 c hc), Readers.Valid.mono h ha.2.2⟩

theorem Effect.Valid.mono {e : Effect} (he : e.Valid w) : e.Valid w' := by
  obtain ⟨hr, hj, hc, hs⟩ := he
  exact ⟨(h.runtimes _ hr).1, Job.Valid.mono h hj, fun c hm => Closure.Valid.mono h (hc c hm),
    fun p hp => Handle.Valid.mono h (hs p hp)⟩

theorem Memo.Valid.mono {m : Memo} (hm : m.Valid w) : m.Valid w' := by
  obtain ⟨hr, hb, hv, hs, hd⟩ := hm
  exact ⟨(h.runtimes _ hr).1, Closure.Valid.mono h hb, fun r hr => Result.Valid.mono h (hv r hr),
    fun p hp => Handle.Valid.mono h (hs p hp), Readers.Valid.mono h hd⟩

theorem Store.Valid.mono {s : Store} (hs : s.Valid w) : s.Valid w' := by
  obtain ⟨hs, ho, hr, hw, hn⟩ := hs
  exact ⟨(h.objects _ hs).1, (h.objects _ hs).2.trans ho, (h.runtimes _ hr).1, h.isSome_effect? hw,
    fun sub hsub => (h.subscriptions sub (hn sub hsub)).1⟩

theorem Subscription.Valid.mono {s : Subscription} (hs : s.Valid w) : s.Valid w' :=
  ⟨(h.stores _ hs.1).1, Closure.Valid.mono h hs.2⟩

end Monotone

end Reactivity
