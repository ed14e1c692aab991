import Mathlib
import Reactivity.Proofs.Run.History
import Reactivity.Proofs.Run.Sanity
import Reactivity.Proofs.Run.Triggering

namespace Reactivity

def World.clean (w : World) : Finset NodeId :=
  (Finset.range w.nodes.size).filter fun n => (w.memo? n).any (!·.dirty)

/-- `w.Rewritten id ps keys w'`: the object has these properties now, and these keys of it have been
triggered, and no key of another container. The other containers hold what they held. -/
structure World.Rewritten (w : World) (id : ObjectId) (ps : Properties) (keys : List Key)
    (w' : World) : Prop where
  properties : (w'.object id).properties = ps
  objects : ∀ i, i < w.objects.size → i < w'.objects.size ∧
    (w'.object i).runtime = (w.object i).runtime ∧
      (i ≠ id → (w'.object i).properties = (w.object i).properties)
  arrays : ∀ i, i < w.arrays.size → i < w'.arrays.size ∧ (w'.array i).cells = (w.array i).cells
  hook : ∀ rt, (w'.runtime rt).hook = (w.runtime rt).hook
  clean : w'.clean ⊆ w.clean
  past : ∃ new, w'.history = new ++ w.history ∧
    (∀ key, .triggered (.object id) key ∈ new ↔ key ∈ keys) ∧
      ∀ h key, .triggered h key ∈ new → h = .object id ∨ ∃ n, h = .memo n

namespace World

variable {w w' w'' : World} {n : NodeId}

theorem mem_clean : n ∈ w.clean ↔ ∃ m, w.memo? n = some m ∧ m.dirty = false := by
  have hlt (h : ∃ m, w.memo? n = some m ∧ m.dirty = false) : n < w.nodes.size := by
    obtain ⟨m, hm, -⟩ := h
    exact lt_of_memo? (Option.isSome_of_eq_some hm)
  simp only [clean, Finset.mem_filter, Finset.mem_range, Option.any_eq_true, Bool.not_eq_true']
  exact ⟨And.right, fun h => ⟨hlt h, h⟩⟩

theorem card_clean_le (w : World) : w.clean.card ≤ w.nodes.size :=
  (Finset.card_filter_le _ _).trans (Finset.card_range _).le

theorem clean_congr (h : ∀ n, w'.memo? n = w.memo? n) : w'.clean = w.clean := by
  ext n
  rw [mem_clean, mem_clean, h]

theorem clean_madeDirty (w : World) (n : NodeId) : (w.madeDirty n).clean = w.clean.erase n := by
  ext x
  rw [Finset.mem_erase, mem_clean, mem_clean, madeDirty]
  simp only [memo?_modifyMemo]
  by_cases hx : n = x
  · subst hx
    cases w.memo? n <;> simp
  · simp [hx, Ne.symm hx]

theorem clean_modifyReaders_subset (w : World) (h : Handle) (f : Readers → Readers) :
    (w.modifyReaders h f).clean ⊆ w.clean := by
  cases h with
  | object id => exact (clean_congr fun _ => rfl).subset
  | array id => exact (clean_congr fun _ => rfl).subset
  | memo m =>
    intro x hx
    rw [mem_clean] at hx ⊢
    obtain ⟨y, hy, hd⟩ := hx
    rw [modifyReaders, memo?_modifyMemo] at hy
    split at hy
    · obtain ⟨z, hz, rfl⟩ := Option.map_eq_some_iff.1 hy
      exact ⟨z, hz, hd⟩
    · exact ⟨y, hy, hd⟩

namespace Rewritten

variable {id : ObjectId} {ps ps' : Properties} {keys keys' : List Key}

theorem trans (h : w.Rewritten id ps keys w') (h' : w'.Rewritten id ps' keys' w'') :
    w.Rewritten id ps' (keys ++ keys') w'' where
  properties := h'.properties
  objects i hi := by
    obtain ⟨hi', hr, hp⟩ := h.objects i hi
    obtain ⟨hi'', hr', hp'⟩ := h'.objects i hi'
    exact ⟨hi'', hr'.trans hr, fun hne => (hp' hne).trans (hp hne)⟩
  arrays i hi := by
    obtain ⟨hi', hc⟩ := h.arrays i hi
    obtain ⟨hi'', hc'⟩ := h'.arrays i hi'
    exact ⟨hi'', hc'.trans hc⟩
  hook rt := (h'.hook rt).trans (h.hook rt)
  clean := h'.clean.trans h.clean
  past := by
    obtain ⟨new, hn, hk, ho⟩ := h.past
    obtain ⟨new', hn', hk', ho'⟩ := h'.past
    refine ⟨new' ++ new, by rw [hn', hn, List.append_assoc], fun key => ?_, fun x key hm => ?_⟩
    · rw [List.mem_append, List.mem_append, hk, hk', or_comm]
    · exact (List.mem_append.1 hm).elim (ho' x key) (ho x key)

theorem of_eq (objects : w'.objects = w.objects) (arrays : w'.arrays = w.arrays)
    (hook : ∀ rt, (w'.runtime rt).hook = (w.runtime rt).hook) (clean : w'.clean ⊆ w.clean)
    (past : ∃ new, w'.history = new ++ w.history ∧ ∀ h key, .triggered h key ∉ new) :
    w.Rewritten id (w.object id).properties [] w' where
  properties := by rw [object, object, objects]
  objects i hi := by
    rw [object, object, objects]
    exact ⟨hi, rfl, fun _ => rfl⟩
  arrays i hi := by
    rw [array, array, arrays]
    exact ⟨hi, rfl⟩
  hook := hook
  clean := clean
  past := by
    obtain ⟨new, hn, hno⟩ := past
    refine ⟨new, hn, fun key => ?_, fun h key hm => absurd hm (hno h key)⟩
    exact iff_of_false (hno _ key) List.not_mem_nil

theorem refl (w : World) (id : ObjectId) : w.Rewritten id (w.object id).properties [] w :=
  of_eq rfl rfl (fun _ => rfl) Finset.Subset.rfl ⟨[], rfl, fun _ _ => List.not_mem_nil⟩

theorem note (w : World) (id : ObjectId) {e : Event} (he : ∀ h key, e ≠ .triggered h key) :
    w.Rewritten id (w.object id).properties [] (w.note e) :=
  of_eq rfl rfl (fun _ => rfl) Finset.Subset.rfl
    ⟨[e], rfl, fun h key hm => he h key (List.mem_singleton.1 hm).symm⟩

theorem modifyProperties (hid : id < w.objects.size) (f : Properties → Properties) :
    w.Rewritten id (f (w.object id).properties) []
      (w.modifyObject id fun o => { o with properties := f o.properties }) where
  properties := by rw [object_modifyObject, if_pos ⟨rfl, hid⟩]
  objects i hi := by
    rw [object_modifyObject]
    refine ⟨by simpa [modifyObject] using hi, ?_, fun hne => ?_⟩
    · split <;> rfl
    · rw [if_neg fun h => hne h.1.symm]
  arrays i hi := ⟨hi, rfl⟩
  hook _ := rfl
  clean := Finset.Subset.rfl
  past := ⟨[], rfl, by simp, by simp⟩

theorem stored (h : w.Rewritten id ps [] w') (hid : id < w.objects.size)
    (f : Properties → Properties) :
    w.Rewritten id (f ps) []
      (w'.modifyObject id fun o => { o with properties := f o.properties }) := by
  have hf := modifyProperties (h.objects id hid).1 f
  rw [h.properties] at hf
  exact h.trans hf

theorem madeDirty (w : World) (id : ObjectId) (n : NodeId) :
    w.Rewritten id (w.object id).properties [] (w.madeDirty n) := by
  refine of_eq rfl rfl (fun _ => rfl) ?_ ⟨[], rfl, fun _ _ => List.not_mem_nil⟩
  rw [clean_madeDirty]
  exact Finset.erase_subset _ _

theorem modifyRuntime (w : World) (id : ObjectId) (rt : RuntimeId) {f : Runtime → Runtime}
    (hf : ∀ r, (f r).hook = r.hook) :
    w.Rewritten id (w.object id).properties [] (w.modifyRuntime rt f) :=
  of_eq rfl rfl (fun j => w.hook_modifyRuntime rt j hf) Finset.Subset.rfl
    ⟨[], rfl, fun _ _ => List.not_mem_nil⟩

theorem requested (w : World) (id : ObjectId) (rt : RuntimeId) :
    w.Rewritten id (w.object id).properties [] (w.requested rt) := by
  have h : w.Rewritten id (w.object id).properties []
      ((w.modifyRuntime rt fun r => { r with flushRequested := true }).note (.requested rt)) :=
    (modifyRuntime w id rt (f := fun r => { r with flushRequested := true }) fun _ => rfl).trans
      (note _ id (by simp))
  rw [World.requested]
  split
  · exact h
  all_goals
    exact h.trans (of_eq rfl rfl (fun _ => rfl) (clean_congr fun _ => rfl).subset
      ⟨[], rfl, fun _ _ => List.not_mem_nil⟩)

theorem queuedIn (w : World) (id : ObjectId) (rt : RuntimeId) (n : NodeId) :
    w.Rewritten id (w.object id).properties [] (w.queuedIn rt n) := by
  have h : w.Rewritten id (w.object id).properties []
      ((w.note (.queued rt n)).modifyRuntime rt fun r => { r with queue := r.queue ++ [n] }) :=
    (note w id (by simp)).trans (modifyRuntime _ id rt fun _ => rfl)
  rw [World.queuedIn]
  split
  · exact h
  · exact h.trans (requested _ id rt)

theorem modifyReaders (w : World) (id : ObjectId) (h : Handle) (f : Readers → Readers) :
    w.Rewritten id (w.object id).properties [] (w.modifyReaders h f) where
  properties := by
    cases h with
    | object i =>
      rw [World.modifyReaders, object_modifyObject]
      split <;> rfl
    | array i => rfl
    | memo n => rfl
  objects i hi := by
    cases h with
    | object i' =>
      rw [World.modifyReaders, object_modifyObject]
      refine ⟨by simpa [modifyObject] using hi, ?_, fun _ => ?_⟩ <;> split <;> rfl
    | array i' => exact ⟨hi, rfl, fun _ => rfl⟩
    | memo n => exact ⟨hi, rfl, fun _ => rfl⟩
  arrays i hi := by
    cases h with
    | object i' => exact ⟨hi, rfl⟩
    | array i' =>
      rw [World.modifyReaders, array_modifyArray]
      refine ⟨by simpa [modifyArray] using hi, ?_⟩
      split <;> rfl
    | memo n => exact ⟨hi, rfl⟩
  hook rt := by cases h <;> rfl
  clean := clean_modifyReaders_subset w h f
  past := ⟨[], history_modifyReaders w h f, by simp, by simp⟩

theorem taken_memo (w : World) (id : ObjectId) (n : NodeId) (key : Key) :
    w.Rewritten id (w.object id).properties [] (w.taken (.memo n) key) := by
  have h : w.Rewritten id (w.object id).properties [] (w.note (.triggered (.memo n) key)) :=
    { refl w id with
      past := ⟨[_], rfl, by simp, by simp⟩ }
  exact h.trans (modifyReaders _ id (.memo n) _)

theorem taken_object (w : World) (id : ObjectId) (key : Key) :
    w.Rewritten id (w.object id).properties [key] (w.taken (.object id) key) := by
  have h : w.Rewritten id (w.object id).properties [key] (w.note (.triggered (.object id) key)) :=
    { refl w id with
      past := ⟨[_], rfl, by simp, by simp⟩ }
  exact h.trans (modifyReaders _ id (.object id) _)

/-- A value that was there is there, and so is the content of a container. -/
theorem valid (h : w.Rewritten id ps keys w') {v : Value} (hv : v.Valid w) : v.Valid w' := by
  cases v with
  | object i => exact (h.objects i hv).1
  | array i => exact (h.arrays i hv).1
  | number x => exact hv
  | _ => trivial

theorem valid_cell (h : w.Rewritten id ps keys w') {c : Cell} (hc : c.Valid w) : c.Valid w' := by
  cases c with
  | value v => exact h.valid hc
  | plain j => exact hc

theorem copies (h : w.Rewritten id ps keys w') {v : Value} {j : Json} (hv : v.Valid w)
    (hne : v ≠ .object id) (hc : w.Copies v j) : w'.Copies v j := by
  cases v with
  | object i =>
    cases j with
    | object members => exact ((h.objects i hv).2.2 fun hi => hne (hi ▸ rfl)).trans hc
    | _ => exact hc.elim
  | array i =>
    cases j with
    | array items => exact (h.arrays i hv).2.trans hc
    | _ => exact hc.elim
  | _ => exact hc.elim

end Rewritten

def Tells (id : ObjectId) (act : Act Unit) (w : World) : Prop :=
  ∃ w', act.run.run w = (.ok (), w') ∧ w.Rewritten id (w.object id).properties [] w'

end World

section Trigger

variable {k : Kernel} {rt : RuntimeId} {w : World} {id : ObjectId} {bound : Nat}

/-- A trigger is passed on by a memo that is clean, and is not any more. Below the bound there is
nesting enough for all others. -/
def Kernel.PassesOn (k : Kernel) (rt : RuntimeId) (id : ObjectId) (bound : Nat) : Prop :=
  ∀ (n : NodeId) (w : World), (w.runtime rt).hook ≠ .flush → w.clean.card < bound →
    w.Tells id (k.passOn rt (.memo n) .value)

theorem tells_enqueue (patient : (w.runtime rt).hook ≠ .flush) (n : NodeId) :
    w.Tells id (enqueue k rt n) := by
  by_cases hq : n ∈ (w.runtime rt).queue
  · exact ⟨w, run_enqueue_of_mem k hq, .refl w id⟩
  · have hrun := (run_enqueue_of_not_mem k hq).resolve_right fun h => patient h.1
    exact ⟨_, hrun, .queuedIn w id rt n⟩

theorem tells_notifyNode (hk : k.PassesOn rt id bound) (patient : (w.runtime rt).hook ≠ .flush)
    (hb : w.clean.card ≤ bound) (n : NodeId) : w.Tells id (notifyNode k rt n) := by
  rcases hnode : w.nodes[n]? with _ | (e | m)
  · exact ⟨w, by simp only [notifyNode, Act.run_get_bind, hnode]; rfl, .refl w id⟩
  · obtain ⟨w', hrun, hw'⟩ : w.Tells id (enqueue k rt n) := tells_enqueue patient n
    refine ⟨w', ?_, hw'⟩
    simp only [notifyNode, Act.run_get_bind, hnode]
    exact hrun
  · have hm : w.memo? n = some m := by rw [World.memo?, hnode]
    have hrun : (notifyNode k rt n).run.run w =
        (if !m.dirty then k.passOn rt (.memo n) .value else pure ()).run.run (w.madeDirty n) := by
      simp only [notifyNode, Act.run_get_bind, hnode, Act.run_modify_bind]
      rfl
    have hdirty := World.Rewritten.madeDirty w id n
    cases hd : m.dirty with
    | true => exact ⟨w.madeDirty n, by rw [hrun, hd]; rfl, hdirty⟩
    | false =>
      have hclean : (w.madeDirty n).clean.card < bound := by
        have hn : n ∈ w.clean := World.mem_clean.2 ⟨m, hm, hd⟩
        rw [World.clean_madeDirty]
        exact Nat.lt_of_lt_of_le (Finset.card_erase_lt_of_mem hn) hb
      obtain ⟨w', hpass, hw'⟩ := hk n _ (hdirty.hook rt ▸ patient) hclean
      exact ⟨w', by rw [hrun, hd]; exact hpass, hdirty.trans hw'⟩

theorem tells_all (hk : k.PassesOn rt id bound) (ns : List NodeId)
    (patient : (w.runtime rt).hook ≠ .flush) (hb : w.clean.card ≤ bound) :
    w.Tells id (ns.forM fun n => do if !(← get).isDisposed n then notifyNode k rt n) := by
  induction ns generalizing w with
  | nil => exact ⟨w, rfl, .refl w id⟩
  | cons n ns ih =>
    have hn : w.Tells id (do if !(← get).isDisposed n then notifyNode k rt n) := by
      cases hd : w.isDisposed n with
      | true => exact ⟨w, by simp only [Act.run_get_bind, hd]; rfl, .refl w id⟩
      | false =>
        obtain ⟨w', hrun, hw'⟩ := tells_notifyNode hk patient hb n
        exact ⟨w', by simp only [Act.run_get_bind, hd]; exact hrun, hw'⟩
    obtain ⟨w₁, hrun₁, hw₁⟩ := hn
    obtain ⟨w₂, hrun₂, hw₂⟩ := ih (hw₁.hook rt ▸ patient)
      ((Finset.card_le_card hw₁.clean).trans hb)
    refine ⟨w₂, ?_, hw₁.trans (hw₁.properties ▸ hw₂)⟩
    rw [List.forM_eq_forM, List.forM_cons, Act.run_bind, hrun₁]
    exact hrun₂

theorem run_trigger (k : Kernel) (rt : RuntimeId) (h : Handle) (key : Key) (w : World) :
    (trigger k rt h key).run.run w =
      (((w.readers h).on key).forM fun n => do
        if !(← get).isDisposed n then notifyNode k rt n : Act Unit).run.run (w.taken h key) := by
  cases h <;> rfl

/-- With as many levels of nesting as there are clean memos, triggers are passed on. -/
theorem passesOn_kernel (observe : Act Unit) (rt : RuntimeId) (id : ObjectId) (depth : Nat) :
    (observedKernel observe depth).PassesOn rt id depth := by
  induction depth with
  | zero => exact fun _ _ _ h => absurd h (Nat.not_lt_zero _)
  | succ depth ih =>
    intro n w patient hb
    have htaken := World.Rewritten.taken_memo w id n .value
    obtain ⟨w', hrun, hw'⟩ := tells_all ih ((w.readers (.memo n)).on .value)
      (htaken.hook rt ▸ patient)
      ((Finset.card_le_card htaken.clean).trans (Nat.le_of_lt_succ hb))
    exact ⟨w', (run_trigger ..).trans hrun, htaken.trans (htaken.properties ▸ hw')⟩

theorem run_trigger_object (observe : Act Unit) {depth : Nat} (id : ObjectId) (key : Key)
    (patient : (w.runtime rt).hook ≠ .flush) (deep : w.clean.card ≤ depth) :
    ∃ w', (trigger (observedKernel observe depth) rt (.object id) key).run.run w = (.ok (), w') ∧
      w.Rewritten id (w.object id).properties [key] w' := by
  have htaken := World.Rewritten.taken_object w id key
  obtain ⟨w', hrun, hw'⟩ := tells_all (passesOn_kernel observe rt id depth)
    ((w.readers (.object id)).on key) (htaken.hook rt ▸ patient)
    ((Finset.card_le_card htaken.clean).trans deep)
  exact ⟨w', (run_trigger ..).trans hrun, htaken.trans (htaken.properties ▸ hw')⟩

end Trigger

namespace Properties

def assign (ps : Properties) (name : String) (v : Value) : Properties :=
  match ps.lookup name with
  | some cell => if cell.holds v then ps else ps.replace name (.value v)
  | none => ps.add name (.value v)

def assignKeys (ps : Properties) (name : String) (v : Value) : List Key :=
  match ps.lookup name with
  | some cell => if cell.holds v then [] else [.property name]
  | none => [.property name, .shape]

def removeKeys (ps : Properties) (name : String) : List Key :=
  if name ∈ ps.names then [.property name, .shape] else []

variable {ps : Properties} {name other : String} {v : Value}

theorem names_assign (ps : Properties) (name : String) (v : Value) :
    (ps.assign name v).names = ps.names ++ if name ∈ ps.names then [] else [name] := by
  rw [assign]
  cases h : ps.lookup name with
  | none => simp [names_add, mem_names, h]
  | some cell =>
    have hm : name ∈ ps.names := mem_names.2 (by simp [h])
    rw [if_pos hm, List.append_nil]
    dsimp only
    split
    · rfl
    · exact names_replace ps name _

theorem lookup_assign_self (ps : Properties) (name : String) (v : Value) :
    ∃ u, (ps.assign name v).lookup name = some (.value u) ∧ u.same v := by
  rw [assign]
  cases h : ps.lookup name with
  | none =>
    refine ⟨v, ?_, v.same_refl⟩
    simp [lookup_add ps name name (.value v) h]
  | some cell =>
    dsimp only
    split
    · next hh =>
      cases cell with
      | value u => exact ⟨u, h, hh⟩
      | plain j => cases hh
    · exact ⟨v, by simp [lookup_replace, h], v.same_refl⟩

theorem lookup_assign_of_ne (h : other ≠ name) :
    (ps.assign name v).lookup other = ps.lookup other := by
  rw [assign]
  cases hl : ps.lookup name with
  | none => simp [lookup_add ps name other _ hl, h]
  | some cell =>
    dsimp only
    split
    · rfl
    · simp [lookup_replace, h]

theorem mem_assign {p : String × Cell} (h : p ∈ ps.assign name v) : p ∈ ps ∨ p.2 = .value v := by
  rw [assign] at h
  split at h
  · split at h
    · exact .inl h
    · obtain ⟨⟨k, c⟩, hm, rfl⟩ := List.mem_map.1 h
      by_cases hk : k = name
      · simp [hk]
      · simpa [hk] using .inl hm
  · refine (List.mem_append.1 h).imp_right fun h => ?_
    rw [List.mem_singleton.1 h]

theorem mem_assignKeys {key : Key} : key ∈ ps.assignKeys name v ↔
    (key = .property name ∧ ∀ cell, ps.lookup name = some cell → cell.holds v = false) ∨
      key = .shape ∧ name ∉ ps.names := by
  rw [assignKeys, mem_names]
  cases ps.lookup name with
  | none => simp
  | some cell => cases hh : cell.holds v <;> simp [hh]

theorem mem_removeKeys {key : Key} : key ∈ ps.removeKeys name ↔
    name ∈ ps.names ∧ (key = .property name ∨ key = .shape) := by
  rw [removeKeys]
  split <;> simp [*]

theorem remove_replace (ps : Properties) (name : String) (cell : Cell) :
    (ps.replace name cell).remove name = ps.remove name := by
  induction ps with
  | nil => rfl
  | cons p ps ih =>
    obtain ⟨k, c⟩ := p
    simp only [replace, remove, List.map_cons, List.filter_cons] at ih ⊢
    by_cases hk : k = name
    · simpa [hk] using ih
    · simpa [hk] using ih

theorem remove_of_not_mem (h : name ∉ ps.names) : ps.remove name = ps := by
  refine List.filter_eq_self.2 fun p hp => ?_
  have hne : p.1 ≠ name := fun heq => h (heq ▸ List.mem_map_of_mem hp)
  simpa using hne

end Properties

section Property

variable {depth : Nat} {rt : RuntimeId} {w : World} {id : ObjectId}

theorem run_triggers (observe : Act Unit) (id : ObjectId) (keys : List Key)
    (patient : (w.runtime rt).hook ≠ .flush) (deep : w.clean.card ≤ depth) :
    ∃ w', (keys.forM (trigger (observedKernel observe depth) rt (.object id))).run.run w =
        (.ok (), w') ∧ w.Rewritten id (w.object id).properties keys w' := by
  induction keys generalizing w with
  | nil => exact ⟨w, rfl, .refl w id⟩
  | cons key keys ih =>
    obtain ⟨w₁, hrun₁, hw₁⟩ := run_trigger_object observe id key patient deep
    obtain ⟨w₂, hrun₂, hw₂⟩ := ih (hw₁.hook rt ▸ patient)
      ((Finset.card_le_card hw₁.clean).trans deep)
    refine ⟨w₂, ?_, hw₁.trans (hw₁.properties ▸ hw₂)⟩
    rw [List.forM_eq_forM, List.forM_cons, Act.run_bind, hrun₁]
    exact hrun₂

theorem World.Rewritten.run_triggers {ps : Properties} {w₁ : World}
    (written : w.Rewritten id ps [] w₁) (observe : Act Unit)
    (patient : (w.runtime rt).hook ≠ .flush) (deep : w.clean.card ≤ depth) (keys : List Key) :
    ∃ w', (keys.forM (trigger (observedKernel observe depth) rt (.object id))).run.run w₁ =
        (.ok (), w') ∧ w.Rewritten id ps keys w' := by
  obtain ⟨w', hrun, hw'⟩ := Reactivity.run_triggers observe id keys
    (written.hook rt ▸ patient) ((Finset.card_le_card written.clean).trans deep)
  exact ⟨w', hrun, written.trans (written.properties ▸ hw')⟩

/-- A property is written, after which the keys of what has changed are triggered. -/
theorem run_setProperty (observe : Act Unit) (name : String) (v : Value)
    (hid : id < w.objects.size) (patient : (w.runtime (w.object id).runtime).hook ≠ .flush)
    (deep : w.clean.card ≤ depth) :
    ∃ w', (id.set (observedKernel observe depth) name v).run.run w = (.ok (), w') ∧
      w.Rewritten id ((w.object id).properties.assign name v)
        ((w.object id).properties.assignKeys name v) w' := by
  have noted : w.Rewritten id (w.object id).properties []
      (w.note (.wrote (.property id name ((w.object id).properties.lookup name) (some v)))) :=
    .note w id (by simp)
  rw [Properties.assign, Properties.assignKeys]
  cases hl : (w.object id).properties.lookup name with
  | none =>
    rw [hl] at noted
    obtain ⟨w', hrun, hw'⟩ := (noted.stored hid (·.add name (.value v))).run_triggers
      observe patient deep [.property name, .shape]
    refine ⟨w', ?_, hw'⟩
    rw [← hrun]
    simp only [ObjectId.set, Act.run_get_bind, hl, Act.run_lift_bind, Change.run_note,
      Act.run_modify_bind, List.forM_eq_forM, List.forM_cons, List.forM_nil, bind_pure_unit]
  | some cell =>
    rw [hl] at noted
    dsimp only
    cases hh : cell.holds v with
    | true =>
      refine ⟨_, ?_, noted⟩
      simp only [ObjectId.set, Act.run_get_bind, hl, Act.run_lift_bind, Change.run_note, hh,
        if_true]
      rfl
    | false =>
      obtain ⟨w', hrun, hw'⟩ := (noted.stored hid (·.replace name (.value v))).run_triggers
        observe patient deep [.property name]
      refine ⟨w', ?_, hw'⟩
      rw [← hrun]
      simp only [ObjectId.set, Act.run_get_bind, hl, Act.run_lift_bind, Change.run_note, hh,
        Bool.false_eq_true, if_false, Act.run_modify_bind, List.forM_eq_forM, List.forM_cons,
        List.forM_nil, bind_pure_unit]

theorem World.Rewritten.wrap (rt : RuntimeId) (j : Json) (hid : id < w.objects.size) :
    w.Rewritten id (w.object id).properties [] ((wrap rt j).run w).2 := by
  have push {w' : World} (hn : w'.nodes = w.nodes) (hr : w'.runtimes = w.runtimes)
      (hh : ∃ vs, w'.history = .wrapped vs :: w.history)
      (ho : ∀ i, i < w.objects.size → i < w'.objects.size ∧ w'.object i = w.object i)
      (ha : ∀ i, i < w.arrays.size → i < w'.arrays.size ∧ w'.array i = w.array i) :
      w.Rewritten id (w.object id).properties [] w' :=
    { properties := by rw [(ho id hid).2]
      objects := fun i hi => ⟨(ho i hi).1, by rw [(ho i hi).2], fun _ => by rw [(ho i hi).2]⟩
      arrays := fun i hi => ⟨(ha i hi).1, by rw [(ha i hi).2]⟩
      hook := fun rt => by rw [World.runtime, World.runtime, hr]
      clean := (World.clean_congr fun n => by rw [World.memo?, World.memo?, hn]).subset
      past := by
        obtain ⟨vs, hh⟩ := hh
        exact ⟨[.wrapped vs], hh, by simp, by simp⟩ }
  cases j with
  | object members =>
    refine push rfl rfl ⟨_, rfl⟩ (fun i hi => ⟨?_, ?_⟩) fun i hi => ⟨hi, rfl⟩
    · show i < (w.objects.push _).size
      simp only [Array.size_push]
      omega
    · show (w.objects.push _)[i]?.getD default = _
      rw [Array.getElem?_push_lt hi]
      simp [World.object, hi]
  | array items =>
    refine push rfl rfl ⟨_, rfl⟩ (fun i hi => ⟨hi, rfl⟩) fun i hi => ⟨?_, ?_⟩
    · show i < (w.arrays.push _).size
      simp only [Array.size_push]
      omega
    · show (w.arrays.push _)[i]?.getD default = _
      rw [Array.getElem?_push_lt hi]
      simp [World.array, hi]
  | _ => exact .refl w id

/-- The value of a property is looked up. Plain JSON in it is turned into a container. -/
theorem rewritten_peek (name : String) (hid : id < w.objects.size) :
    ((id.peek name).run w).1.isSome = decide (name ∈ (w.object id).properties.names) ∧
      ∃ ps, ps.names = (w.object id).properties.names ∧
        ps.remove name = (w.object id).properties.remove name ∧
          w.Rewritten id ps [] ((id.peek name).run w).2 := by
  have hm : name ∈ (w.object id).properties.names ↔ _ := Properties.mem_names
  cases hl : (w.object id).properties.lookup name with
  | none =>
    have hrun : (id.peek name).run w = (none, w) := by
      simp [ObjectId.peek, hl]
      rfl
    rw [hrun]
    exact ⟨by simp [hm, hl], _, rfl, rfl, .refl w id⟩
  | some cell =>
    cases cell with
    | value v =>
      have hrun : (id.peek name).run w = (some v, w) := by
        simp [ObjectId.peek, hl]
        rfl
      rw [hrun]
      exact ⟨by simp [hm, hl], _, rfl, rfl, .refl w id⟩
    | plain j =>
      generalize hv : ((wrap (w.object id).runtime j).run w).1 = v
      have hrun : (id.peek name).run w =
          (some v, ((wrap (w.object id).runtime j).run w).2.modifyObject id fun o =>
            { o with properties := o.properties.replace name (.value v) }) := by
        rw [← hv]
        simp [ObjectId.peek, hl]
        rfl
      rw [hrun]
      exact ⟨by simp [hm, hl], _, Properties.names_replace ..,
        Properties.remove_replace _ name (.value v),
        (World.Rewritten.wrap _ j hid).stored hid (·.replace name (.value v))⟩

theorem run_removeProperty (observe : Act Unit) (name : String)
    (hid : id < w.objects.size) (patient : (w.runtime (w.object id).runtime).hook ≠ .flush)
    (deep : w.clean.card ≤ depth) :
    ∃ v w', (id.remove (observedKernel observe depth) name).run.run w = (.ok v, w') ∧
      w.Rewritten id ((w.object id).properties.remove name)
        ((w.object id).properties.removeKeys name) w' := by
  obtain ⟨hsome, ps, hnames, hps, hw₁⟩ := rewritten_peek name hid
  rw [Properties.removeKeys]
  generalize hpeek : (id.peek name).run w = o at hsome hw₁
  obtain ⟨v, w₁⟩ := o
  dsimp only at hsome hw₁
  cases v with
  | none =>
    have hno : name ∉ (w.object id).properties.names := by simpa using hsome
    refine ⟨none, w₁, ?_, ?_⟩
    · rw [ObjectId.remove, Act.run_lift_bind, hpeek]
      rfl
    · rw [if_neg hno, ← hps, Properties.remove_of_not_mem (hnames ▸ hno)]
      exact hw₁
  | some v =>
    have hyes : name ∈ (w.object id).properties.names := by simpa using hsome
    rw [if_pos hyes, ← hps]
    have hruntime : (w₁.object id).runtime = (w.object id).runtime := (hw₁.objects id hid).2.1
    have hnoted : w.Rewritten id ps []
        (w₁.note (.wrote (.property id name (some (.value v)) none))) :=
      hw₁.trans (hw₁.properties ▸ .note w₁ id (by simp))
    obtain ⟨w', hrun, hw'⟩ := (hnoted.stored hid (·.remove name)).run_triggers observe
      patient deep [.property name, .shape]
    refine ⟨some v, w', ?_, hw'⟩
    rw [ObjectId.remove, Act.run_lift_bind, hpeek]
    simp only [Act.run_get_bind, Act.run_lift_bind, Change.run_note, Act.run_modify_bind, hruntime]
    simp only [List.forM_eq_forM, List.forM_cons, List.forM_nil, bind_pure_unit] at hrun
    rw [← bind_assoc, Act.run_bind, hrun]
    rfl

end Property

end Reactivity
