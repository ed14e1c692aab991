import Reactivity.Proofs.Run.Operating
import Reactivity.Proofs.Updates.Performing
import Reactivity.Proofs.Updates.Settled
import Reactivity.Proofs.Wrapping.Paths

/-!
Evaluation with nothing kept of what memos have computed. A pure expression gives what its outcome
by the reads is, in every state that shows the same to the reads; and so do the memos that it reads,
which are computed anew one after the other.
-/

namespace Reactivity

namespace World

/-- `w.Reflects w'`: containers hold and variables are bound to the same, memos have the same
functions, and what they keep in `w'` they keep in `w`. -/
structure Reflects (w w' : World) : Prop where
  content : w.SameContent w'
  bindings : w'.bindings = w.bindings
  bodies : ∀ n m, w.memo? n = some m → ∃ m', w'.memo? n = some m' ∧ m'.body = m.body
  kept : ∀ n m' r, w'.memo? n = some m' → m'.result = some r →
    ∃ m, w.memo? n = some m ∧ m.result = some r

theorem bindings_modifyReaders (w : World) (h : Handle) (f : Readers → Readers) :
    (w.modifyReaders h f).bindings = w.bindings := by
  cases h <;> rfl

theorem bindings_trackedIn (w : World) (rt : RuntimeId) (h : Handle) (key : Key) :
    (w.trackedIn rt h key).bindings = w.bindings := by
  rw [trackedIn]
  split
  · rfl
  · rw [trackedBy]
    split
    · rfl
    · exact bindings_modifyReaders ..

theorem bindings_clearedOf (w : World) (n : NodeId) : (w.clearedOf n).bindings = w.bindings := by
  rw [clearedOf]
  have h (w₁ : World) (ps : List (Handle × Key)) :
      (ps.foldl (fun w p => w.modifyReaders p.1 (·.remove p.2 n)) w₁).bindings = w₁.bindings := by
    induction ps generalizing w₁ with
    | nil => rfl
    | cons p ps ih => exact (ih _).trans (bindings_modifyReaders ..)
  exact h ..

namespace Reflects

variable {w w' w'' : World}

theorem of_sameNodes (h : w.Reflects w') (content : w'.SameContent w'')
    (bindings : w''.bindings = w'.bindings) (nodes : w'.SameNodes w'') : w.Reflects w'' where
  content := h.content.trans content
  bindings := bindings.trans h.bindings
  bodies n m hm := by
    obtain ⟨m', hm', hb⟩ := h.bodies n m hm
    obtain ⟨m'', hm'', hbare⟩ := nodes.memo? hm'
    exact ⟨m'', hm'', by rw [Memo.of_bare hbare]; exact hb⟩
  kept n m'' r hm'' hr := by
    obtain ⟨m', hm', hbare⟩ := nodes.symm.memo? hm''
    refine h.kept n m' r hm' ?_
    rw [Memo.of_bare hbare]
    exact hr

theorem of_nodes (h : w.Reflects w') (content : w'.SameContent w'')
    (bindings : w''.bindings = w'.bindings) (nodes : w''.nodes = w'.nodes) : w.Reflects w'' :=
  h.of_sameNodes content bindings (.of_eq nodes)

theorem trackedIn (h : w.Reflects w') (rt : RuntimeId) (x : Handle) (key : Key) :
    w.Reflects (w'.trackedIn rt x key) :=
  h.of_sameNodes (.trackedIn ..) (w'.bindings_trackedIn rt x key) (.trackedIn w' rt x key)

theorem lookup_eq (h : w.Reflects w') (name : String) : w'.lookup name = w.lookup name := by
  rw [World.lookup, World.lookup, h.bindings]

theorem computing (h : w.Reflects w') (n : NodeId) (rt : RuntimeId) :
    w.Reflects (w'.computing n rt) := by
  have hc : w.Reflects (w'.clearedOf n) :=
    h.of_sameNodes (.clearedOf w' n) (w'.bindings_clearedOf n) (.clearedOf w' n)
  refine ⟨hc.content, hc.bindings, fun k m hm => ?_, fun k m' r hm hr => ?_⟩
  · obtain ⟨m', hm', hb⟩ := hc.bodies k m hm
    rw [memo?_computing, memo?_modifyMemo, hm']
    split
    · exact ⟨_, rfl, hb⟩
    · exact ⟨m', rfl, hb⟩
  · rw [memo?_computing, memo?_modifyMemo] at hm
    split at hm
    · obtain ⟨m₁, hm₁, rfl⟩ := Option.map_eq_some_iff.1 hm
      exact hc.kept k m₁ r hm₁ hr
    · exact hc.kept k m' r hm hr

theorem computed (h : w.Reflects w') {n : NodeId} {m : Memo} {r : Result} (hm : w.memo? n = some m)
    (hr : m.result = some r) (rt : RuntimeId) : w.Reflects (w'.computed n rt r) := by
  have memo (k : NodeId) : (w'.computed n rt r).memo? k =
      if n = k then (w'.memo? k).map fun m =>
        { m with computeCount := m.computeCount + 1, result := some r } else w'.memo? k :=
    memo?_modifyMemo ..
  refine ⟨h.content.trans (.of_eq rfl rfl), h.bindings, fun k x hx => ?_, fun k x s hx hs => ?_⟩
  · obtain ⟨x', hx', hb⟩ := h.bodies k x hx
    rw [memo, hx']
    split
    · exact ⟨_, rfl, hb⟩
    · exact ⟨x', rfl, hb⟩
  · rw [memo] at hx
    split at hx
    · next hnk =>
      subst hnk
      obtain ⟨_, -, rfl⟩ := Option.map_eq_some_iff.1 hx
      exact ⟨m, hm, hr.trans hs⟩
    · exact h.kept k x s hx hs

end Reflects

/-- `w.Shows c a`: in every state that reflects `w`, the change gives `a` and leaves such a state. -/
def Shows (w : World) (c : Change α) (a : α) : Prop :=
  ∀ w', w.Reflects w' → (c.run w').1 = a ∧ w.Reflects (c.run w').2

/-- `w.Repeats act a`: in every state that reflects `w`, the action gives `a` and leaves such a
state. -/
def Repeats (w : World) (act : Act α) (a : α) : Prop :=
  ∀ w', w.Reflects w' → ∃ w'', act.run.run w' = (.ok a, w'') ∧ w.Reflects w''

section Shows

variable {α β : Type} {w : World} {a : α} {b : β}

theorem Shows.pure (a : α) : w.Shows (pure a) a :=
  fun _ h => ⟨rfl, h⟩

theorem Shows.bind {c : Change α} {f : α → Change β} (h : w.Shows c a) (hf : w.Shows (f a) b) :
    w.Shows (c >>= f) b := by
  intro w' hw
  obtain ⟨ha, hw₁⟩ := h w' hw
  rw [Change.run_bind, ha]
  exact hf _ hw₁

theorem Shows.get_bind {f : World → Change α} (h : ∀ w', w.Reflects w' → w.Shows (f w') a) :
    w.Shows (get >>= f) a :=
  fun w' hw => h w' hw w' hw

theorem shows_track (w : World) (rt : RuntimeId) (x : Handle) (key : Key) :
    w.Shows (track rt x key) () := by
  intro w' hw
  rw [run_track]
  exact ⟨rfl, hw.trackedIn rt x key⟩

theorem shows_note (w : World) (e : Event) : w.Shows (Reactivity.note e) () :=
  fun _ hw => ⟨rfl, hw.of_nodes (.of_eq rfl rfl) rfl rfl⟩

theorem shows_noteRead (w : World) (rt : RuntimeId) (read : Read) (r : Result) :
    w.Shows (noteRead rt read r) () := by
  intro w' hw
  rw [run_noteRead]
  cases w'.currentReader rt with
  | none => exact ⟨rfl, hw⟩
  | some n => exact ⟨rfl, hw.of_nodes (.of_eq rfl rfl) rfl rfl⟩

theorem shows_trackAll (w : World) {γ : Type} (rt : RuntimeId) (x : Handle) (key : γ → Key)
    (xs : List γ) : w.Shows (xs.forM fun i => track rt x (key i)) ⟨⟩ := by
  induction xs with
  | nil => exact .pure _
  | cons i xs ih => exact (w.shows_track rt x (key i)).bind ih

theorem Repeats.pure (a : α) : w.Repeats (pure a) a :=
  fun w' h => ⟨w', rfl, h⟩

theorem Repeats.bind {act : Act α} {f : α → Act β} (h : w.Repeats act a) (hf : w.Repeats (f a) b) :
    w.Repeats (act >>= f) b := by
  intro w' hw
  obtain ⟨w₁, hrun, hw₁⟩ := h w' hw
  rw [Act.run_bind, hrun]
  exact hf w₁ hw₁

theorem Repeats.get_bind {f : World → Act α} (h : ∀ w', w.Reflects w' → w.Repeats (f w') a) :
    w.Repeats (get >>= f) a :=
  fun w' hw => h w' hw w' hw

theorem Shows.lift {c : Change α} (h : w.Shows c a) : w.Repeats (liftM c : Act α) a :=
  fun w' hw => ⟨_, by rw [← (h w' hw).1]; rfl, (h w' hw).2⟩

theorem Repeats.attempt {act : Act Result} {r : Result} (h : w.Repeats act r) :
    w.Repeats (attempt act) r := by
  intro w' hw
  obtain ⟨w₁, hrun, hw₁⟩ := h w' hw
  exact ⟨w₁, by rw [run_attempt, hrun], hw₁⟩

theorem Repeats.replicate {act : Act Unit} (h : w.Repeats act ()) (count : Nat) :
    w.Repeats (replicateAct count act) () := by
  induction count with
  | zero => exact .pure ()
  | succ count ih => exact h.bind ih

end Shows

end World

section Reads

variable {w : World} {r : Result}

theorem ObjectId.shows_peek {id : ObjectId} {name : String}
    (h : Cell.shown? ((w.object id).properties.lookup name) = some r) :
    ∃ v, Result.ofValue? v = r ∧ w.Shows (id.peek name) v := by
  cases hl : (w.object id).properties.lookup name with
  | none =>
    rw [hl] at h
    refine ⟨none, Option.some.inj h, fun w' hw => ?_⟩
    rw [ObjectId.run_peek_none ((hw.content.1 id).symm ▸ hl)]
    exact ⟨rfl, hw⟩
  | some cell =>
    rw [hl] at h
    cases cell with
    | plain j => cases h
    | value v =>
      refine ⟨some v, Option.some.inj h, fun w' hw => ?_⟩
      rw [ObjectId.run_peek_value ((hw.content.1 id).symm ▸ hl)]
      exact ⟨rfl, hw⟩

theorem ArrayId.shows_peek {id : ArrayId} {i : Nat} (h : Cell.shown? (w.array id).cells[i]? = some r) :
    ∃ v, Result.ofValue? v = r ∧ w.Shows (id.peek i) v := by
  cases hl : (w.array id).cells[i]? with
  | none =>
    rw [hl] at h
    refine ⟨none, Option.some.inj h, fun w' hw => ?_⟩
    rw [ArrayId.run_peek_none ((hw.content.2 id).symm ▸ hl)]
    exact ⟨rfl, hw⟩
  | some cell =>
    rw [hl] at h
    cases cell with
    | plain j => cases h
    | value v =>
      refine ⟨some v, Option.some.inj h, fun w' hw => ?_⟩
      rw [ArrayId.run_peek_value ((hw.content.2 id).symm ▸ hl)]
      exact ⟨rfl, hw⟩

theorem ObjectId.shows_read {id : ObjectId} {name : String}
    (h : (Read.property id name).shown w = some r) :
    ∃ v, Result.ofValue? v = r ∧ w.Shows (id.read name) v := by
  obtain ⟨v, hv, hpeek⟩ := ObjectId.shows_peek h
  refine ⟨v, hv, .get_bind fun w' hw => ?_⟩
  exact (w.shows_track _ _ _).bind (hpeek.bind ((w.shows_noteRead _ _ _).bind (.pure v)))

theorem ArrayId.shows_read {id : ArrayId} {i : Nat} (h : (Read.slot id i).shown w = some r) :
    ∃ v, Result.ofValue? v = r ∧ w.Shows (id.read i) v := by
  obtain ⟨v, hv, hpeek⟩ := ArrayId.shows_peek h
  refine ⟨v, hv, .get_bind fun w' hw => ?_⟩
  exact (w.shows_track _ _ _).bind (hpeek.bind ((w.shows_noteRead _ _ _).bind (.pure v)))

theorem ObjectId.shows_contains (w : World) (id : ObjectId) (name : String) :
    w.Shows (id.contains name) ((w.object id).properties.lookup name).isSome := by
  refine .get_bind fun w' hw => (w.shows_track _ _ _).bind (.get_bind fun w₁ hw₁ => ?_)
  rw [hw₁.content.1]
  exact (w.shows_noteRead _ _ _).bind (.pure _)

theorem ObjectId.shows_keys (w : World) (id : ObjectId) :
    w.Shows id.keys (w.object id).properties.names := by
  refine .get_bind fun w' hw => (w.shows_track _ _ _).bind (.get_bind fun w₁ hw₁ => ?_)
  rw [hw₁.content.1]
  exact (w.shows_noteRead _ _ _).bind (.pure _)

theorem ObjectId.shows_length (w : World) (id : ObjectId) :
    w.Shows id.length (w.object id).properties.length := by
  refine .get_bind fun w' hw => (w.shows_track _ _ _).bind (.get_bind fun w₁ hw₁ => ?_)
  rw [hw₁.content.1]
  exact (w.shows_noteRead _ _ _).bind (.pure _)

theorem ArrayId.shows_length (w : World) (id : ArrayId) :
    w.Shows id.length (w.array id).cells.length := by
  refine .get_bind fun w' hw => (w.shows_track _ _ _).bind (.get_bind fun w₁ hw₁ => ?_)
  rw [hw₁.content.2]
  exact (w.shows_noteRead _ _ _).bind (.pure _)

/-- Properties that are all values already stay as they are when they are read. -/
theorem ObjectId.shows_entries {id : ObjectId} {vs : List (String × Value)}
    (h : (w.object id).properties.values? = some vs) : w.Shows id.entries vs := by
  have hps := Properties.values?_eq_some.1 h
  refine .get_bind fun w' hw => (w.shows_track _ _ _).bind ?_
  rw [hw.content.1, hps]
  refine World.Shows.bind (a := vs) (fun w₁ hw₁ => ?_) (World.Shows.bind (a := ⟨⟩) (fun w₁ hw₁ => ?_) ?_)
  · rw [mapM_entry]
    exact ⟨rfl, hw₁⟩
  · refine ⟨rfl, hw₁.of_nodes ⟨fun j => ?_, fun _ => rfl⟩ rfl rfl⟩
    rw [Change.run_modify, World.object_modifyObject]
    split
    · next hj => rw [← hj.1, hw₁.content.1, hps]
    · rfl
  · exact (w.shows_trackAll _ _ (fun p : String × Value => .property p.1) vs).bind
      ((w.shows_noteRead _ _ _).bind (.pure vs))

theorem ArrayId.shows_values {id : ArrayId} {vs : List Value}
    (h : (w.array id).cells.mapM Cell.value? = some vs) : w.Shows id.values vs := by
  have hcells := mapM_value?_eq_some.1 h
  have contents : w.Shows id.contents vs := by
    refine .get_bind fun w' hw => ?_
    dsimp only
    rw [hw.content.2, hcells]
    refine World.Shows.bind (a := vs) (fun w₁ hw₁ => ?_)
      (World.Shows.bind (a := ⟨⟩) (fun w₁ hw₁ => ?_) (.pure vs))
    · rw [mapM_toValue]
      exact ⟨rfl, hw₁⟩
    · refine ⟨rfl, hw₁.of_nodes ⟨fun _ => rfl, fun j => ?_⟩ rfl rfl⟩
      rw [Change.run_modify, World.array_modifyArray]
      split
      · next hj => rw [← hj.1, hw₁.content.2, hcells]
      · rfl
  refine .get_bind fun w' hw => (w.shows_track _ _ _).bind (contents.bind ?_)
  exact (w.shows_trackAll _ _ _ _).bind ((w.shows_noteRead _ _ _).bind (.pure vs))

end Reads

/-- `w.Answered k seen`: what is seen of containers they show, and what is seen of memos their reads
give. -/
structure World.Answered (w : World) (k : Kernel) (seen : Read → Option Result) : Prop where
  containers : ∀ read r, (∀ n, read ≠ .memo n) → seen read = some r → read.shown w = some r
  memos : ∀ n r, seen (.memo n) = some r → w.Repeats (readMemo k n) r

section Evaluation

variable {w : World} {depth : Nat} {seen : Read → Option Result} {env : Env}

theorem World.Answered.repeats_op (ha : w.Answered (kernel depth) seen) {rt : RuntimeId} {op : Op}
    (hp : op.isPure) {args : List Result} {r : Result} (h : op.outcome seen rt args = some r) :
    w.Repeats (runOp (kernel depth) rt op args) r := by
  unfold runOp
  unfold Op.outcome at h
  dsimp only at h ⊢
  generalize args.getD 0 .nothing = a at h ⊢
  generalize args.getD 1 .nothing = b at h ⊢
  cases op with
  | arithmetic | less | same | not | isNothing | order | here =>
    obtain rfl := Option.some.inj h
    exact .pure _
  | isKind | view =>
    cases a <;>
    · obtain rfl := Option.some.inj h
      exact .pure _
  | readMemo =>
    cases a with
    | memo n => exact .bind (.pure n) (ha.memos n r h)
    | _ => cases h
  | _ => cases hp

theorem World.Answered.repeats_containerOp (ha : w.Answered (kernel depth) seen) {op : ContainerOp}
    (hp : op.isPure) {v : Value} (accepts : op.accepts (.value v)) (args : List Result) {r : Result}
    (h : op.outcome seen v = some r) : w.Repeats (runContainerOp (kernel depth) op (.value v) args) r := by
  have size (x : Handle) {count : Nat} {f : Nat → Result}
      (hshown : ∀ s, (Read.size x).shown w = some s → s = .plain (.int count))
      (hs : ((seen (.size x)).bind Result.size?).map f = some r) : f count = r := by
    obtain ⟨n, hn, rfl⟩ := Option.map_eq_some_iff.1 hs
    obtain ⟨s, hseen, hsize⟩ := Option.bind_eq_some_iff.1 hn
    obtain rfl := hshown s (ha.containers _ _ nofun hseen)
    rw [Result.size?, Int.toNat_natCast] at hsize
    rw [Option.some.inj hsize]
  cases v with
  | object id =>
    unfold runContainerOp runOnObject
    dsimp only
    cases op with
    | contains name =>
      obtain rfl := Option.some.inj (ha.containers (.contains id name) r nofun h)
      exact (ObjectId.shows_contains w id name).lift.bind (.pure _)
    | keys =>
      obtain rfl := Option.some.inj (ha.containers (.names id) r nofun h)
      exact (ObjectId.shows_keys w id).lift.bind (.pure _)
    | entries =>
      obtain ⟨vs, hvs, rfl⟩ := Option.map_eq_some_iff.1 (ha.containers (.entries id) r nofun h)
      exact (ObjectId.shows_entries hvs).lift.bind (.pure _)
    | length =>
      rw [← size (.object id) (fun s hs => (Option.some.inj hs).symm) h]
      exact (ObjectId.shows_length w id).lift.bind (.pure _)
    | isEmpty =>
      rw [← size (.object id) (fun s hs => (Option.some.inj hs).symm) h]
      exact (ObjectId.shows_length w id).lift.bind (.pure _)
    | values => cases accepts
    | _ => cases hp
  | array id =>
    unfold runContainerOp runOnArray
    dsimp only
    refine .get_bind fun w' hw => ?_
    cases op with
    | values =>
      obtain ⟨vs, hvs, rfl⟩ := Option.map_eq_some_iff.1 (ha.containers (.values id) r nofun h)
      exact (ArrayId.shows_values hvs).lift.bind (.pure _)
    | length =>
      rw [← size (.array id) (fun s hs => (Option.some.inj hs).symm) h]
      exact (ArrayId.shows_length w id).lift.bind (.pure _)
    | isEmpty =>
      rw [← size (.array id) (fun s hs => (Option.some.inj hs).symm) h]
      exact (ArrayId.shows_length w id).lift.bind (.pure _)
    | contains | keys | entries => cases accepts
    | _ => cases hp
  | _ => cases accepts

theorem World.Answered.shows_readStep (ha : w.Answered (kernel depth) seen) {target key r : Result}
    (h : Read.stepOutcome seen target key = some r) : w.Shows (readStep true target key) r := by
  unfold readStep
  split
  · next id name =>
    obtain ⟨v, rfl, hread⟩ := ObjectId.shows_read (ha.containers (.property id name) r nofun h)
    exact hread.bind (.pure _)
  · next id x =>
    obtain ⟨v, rfl, hread⟩ := ArrayId.shows_read (ha.containers (.slot id x.toIndex) r nofun h)
    exact hread.bind (.pure _)
  · next ho hslot =>
    rw [Read.stepOutcome.eq_3 seen _ _ ho hslot] at h
    obtain rfl := Option.some.inj h
    exact .pure _

theorem World.Answered.repeats_path (ha : w.Answered (kernel depth) seen) {keys : List Result}
    {target r : Result} (h : keys.foldlM (Read.stepOutcome seen) target = some r) :
    w.Repeats (keys.foldlM (fun r key => (liftM (readStep true r key : Change Result) : Act Result))
      target) r := by
  induction keys generalizing target with
  | nil =>
    obtain rfl := Option.some.inj h
    exact .pure _
  | cons key keys ih =>
    rw [List.foldlM_cons] at h ⊢
    obtain ⟨r₁, h₁, h⟩ := Option.bind_eq_some_iff.1 h
    exact (ha.shows_readStep h₁).lift.bind (ih h)

mutual

theorem World.Answered.repeats_eval (ha : w.Answered (kernel depth) seen) (e : Expr) (hp : e.isPure)
    {env : Env} {r : Result} (h : e.outcome w.lookup seen env = some r) :
    w.Repeats (eval (kernel depth) env e) r := by
  rw [eval.eq_def, kernel_observe]
  refine World.Repeats.bind (.pure ()) ?_
  cases e with
  | literal | number | nothing | argument =>
    obtain rfl := Option.some.inj h
    exact .pure _
  | var name =>
    obtain rfl := Option.some.inj h
    refine .get_bind fun w' hw => ?_
    rw [hw.lookup_eq]
    exact .pure _
  | block es =>
    obtain ⟨rs, hrs, rfl⟩ := Option.map_eq_some_iff.1 h
    exact (ha.repeats_evalList es hp hrs).bind (.pure _)
  | attempt es =>
    obtain ⟨rs, hrs, rfl⟩ := Option.map_eq_some_iff.1 h
    exact .attempt (.bind (ha.repeats_evalList es hp hrs) (.pure _))
  | list es =>
    obtain ⟨rs, hrs, rfl⟩ := Option.map_eq_some_iff.1 h
    exact (ha.repeats_evalList es hp hrs).bind (.pure _)
  | cond c t e =>
    obtain ⟨⟨hpc, hpt⟩, hpe⟩ : (c.isPure ∧ t.isPure) ∧ e.isPure := by simpa [Expr.isPure] using hp
    obtain ⟨rc, hc, h⟩ := Option.bind_eq_some_iff.1 h
    refine (ha.repeats_eval c hpc hc).bind ?_
    split at h
    · next ht => exact (if_pos ht : (if _ then _ else _) = _) ▸ ha.repeats_eval t hpt h
    · next hf => exact (if_neg hf : (if _ then _ else _) = _) ▸ ha.repeats_eval e hpe h
  | replicate times es =>
    obtain ⟨hpt, hpes⟩ : times.isPure ∧ Expr.allPure es := by simpa [Expr.isPure] using hp
    obtain ⟨count, hcount, h⟩ := Option.bind_eq_some_iff.1 h
    refine (ha.repeats_eval times hpt hcount).bind ?_
    split at h
    · next hzero =>
      obtain rfl := Option.some.inj h
      rw [hzero]
      exact .pure _
    · obtain ⟨rs, hrs, rfl⟩ := Option.map_eq_some_iff.1 h
      have once : w.Repeats (do let _ ← evalList (kernel depth) env es : Act Unit) () :=
        (ha.repeats_evalList es hpes hrs).bind (.pure ())
      exact (once.replicate _).bind (.pure _)
  | within runtime es =>
    obtain ⟨hpr, hpes⟩ : runtime.isPure ∧ Expr.allPure es := by simpa [Expr.isPure] using hp
    obtain ⟨rt, hrt, h⟩ := Option.bind_eq_some_iff.1 h
    refine (ha.repeats_eval runtime hpr hrt).bind ?_
    cases rt with
    | runtime rt =>
      obtain ⟨rs, hrs, rfl⟩ := Option.map_eq_some_iff.1 h
      exact (ha.repeats_evalList es hpes hrs).bind (.pure _)
    | _ =>
      obtain rfl := Option.some.inj h
      exact .pure _
  | apply op es =>
    obtain ⟨hpo, hpes⟩ : op.isPure ∧ Expr.allPure es := by simpa [Expr.isPure] using hp
    obtain ⟨args, hargs, h⟩ := Option.bind_eq_some_iff.1 h
    exact (ha.repeats_evalList es hpes hargs).bind (ha.repeats_op hpo h)
  | path tracked target keys =>
    obtain ⟨⟨ht, hpt⟩, hpk⟩ : (tracked ∧ target.isPure) ∧ Expr.allPure keys := by
      simpa [Expr.isPure] using hp
    subst ht
    obtain ⟨start, hstart, h⟩ := Option.bind_eq_some_iff.1 h
    obtain ⟨rs, hrs, h⟩ := Option.bind_eq_some_iff.1 h
    refine (ha.repeats_eval target hpt hstart).bind ?_
    exact (ha.repeats_evalList keys hpk hrs).bind (ha.repeats_path h)
  | container op target es =>
    obtain ⟨⟨hpo, hpt⟩, hpes⟩ : (op.isPure ∧ target.isPure) ∧ Expr.allPure es := by
      simpa [Expr.isPure] using hp
    obtain ⟨start, hstart, h⟩ := Option.bind_eq_some_iff.1 h
    refine (ha.repeats_eval target hpt hstart).bind ?_
    cases hacc : op.accepts start with
    | false =>
      rw [hacc] at h
      obtain rfl := Option.some.inj h
      rw [if_neg Bool.false_ne_true]
      exact .pure _
    | true =>
      rw [hacc, if_pos rfl] at h
      obtain ⟨args, hargs, h⟩ := Option.bind_eq_some_iff.1 h
      rw [if_pos rfl]
      refine (ha.repeats_evalList es hpes hargs).bind ?_
      cases start with
      | value v => exact ha.repeats_containerOp hpo hacc args h
      | _ => cases hacc
  | _ => cases hp

theorem World.Answered.repeats_evalList (ha : w.Answered (kernel depth) seen) (es : List Expr)
    (hp : Expr.allPure es) {env : Env} {rs : List Result}
    (h : Expr.outcomes w.lookup seen env es = some rs) :
    w.Repeats (evalList (kernel depth) env es) rs := by
  cases es with
  | nil =>
    obtain rfl := Option.some.inj h
    exact .pure _
  | cons e es =>
    obtain ⟨hpe, hpes⟩ : e.isPure ∧ Expr.allPure es := by simpa [Expr.allPure] using hp
    obtain ⟨r, hr, h⟩ := Option.bind_eq_some_iff.1 h
    obtain ⟨rs', hrs, h⟩ := Option.bind_eq_some_iff.1 h
    obtain rfl := Option.some.inj h
    rw [evalList]
    exact (ha.repeats_eval e hpe hr).bind ((ha.repeats_evalList es hpes hrs).bind (.pure _))

end

end Evaluation

/-- `w.Explains depth n r`: the memo keeps `r`, and this is what its function gives by what the
containers hold and by what other memos keep that are explained likewise, down to the depth. -/
def World.Explains (w : World) : Nat → NodeId → Result → Prop
  | 0, _, _ => False
  | depth + 1, n, r => ∃ m, w.memo? n = some m ∧ m.result = some r ∧ m.body.body.isPure ∧
    ∃ seen : Read → Option Result,
      (∀ read r', (∀ k, read ≠ .memo k) → seen read = some r' → read.shown w = some r') ∧
        (∀ k r', seen (.memo k) = some r' → w.Explains depth k r') ∧
          m.body.body.outcome w.lookup seen ⟨m.body.runtime, []⟩ = some r

/-- A read of a memo whose function gives what the memo keeps gives it, too, whether or not the memo
is computed anew. -/
theorem World.Repeats.readMemo {w : World} {n : NodeId} {m : Memo} {r : Result} {depth : Nat}
    (hm : w.memo? n = some m) (hr : m.result = some r)
    (call : w.Repeats ((kernel depth).call m.body []) r) : w.Repeats (readMemo (kernel depth) n) r := by
  have finish (rt : RuntimeId) : w.Repeats (finishRead (kernel depth) rt n r) r := by
    rw [finishRead, kernel_observe]
    exact (w.shows_noteRead _ _ _).lift.bind
      ((w.shows_note _).lift.bind ((World.Repeats.pure ()).bind (.pure r)))
  intro w' hw
  obtain ⟨m', hm', hbody⟩ := hw.bodies n m hm
  have htracked := hw.trackedIn m'.runtime (.memo n) .value
  by_cases stale : m'.dirty ∨ m'.result = none
  · obtain ⟨w₁, hrun, hw₁⟩ := call _ (htracked.computing n m'.runtime)
    rw [run_readMemo_stale hm' stale, Act.run_bind, run_computeMemo, hbody, hrun]
    exact finish m'.runtime _ (hw₁.computed hm hr m'.runtime)
  · obtain ⟨hclean, hresult⟩ := not_or.1 stale
    obtain ⟨r', hr'⟩ := Option.ne_none_iff_exists'.1 hresult
    obtain ⟨x, hx, hrx⟩ := hw.kept n m' r' hm' hr'
    obtain rfl := Option.some.inj (hm.symm.trans hx)
    obtain rfl : r = r' := Option.some.inj (hr.symm.trans hrx)
    rw [run_readMemo_clean hm' (Bool.eq_false_iff.2 hclean) hr']
    exact (w.shows_note _).lift.bind (finish m'.runtime) _ htracked

namespace World.Explains

variable {w : World} {depth : Nat} {n : NodeId} {m : Memo} {r : Result}

theorem kept (h : w.Explains depth n r) : ∃ m, w.memo? n = some m ∧ m.result = some r := by
  cases depth with
  | zero => exact h.elim
  | succ depth =>
    obtain ⟨m, hm, hr, -⟩ := h
    exact ⟨m, hm, hr⟩

end World.Explains

end Reactivity
