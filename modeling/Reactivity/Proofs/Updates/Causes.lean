import Reactivity.Proofs.Updates.Attached
import Reactivity.Proofs.Updates.Nesting

/-!
Why a memo is computed again: since its function last returned, something has happened that bears on
what it had read, directly or through the memos that it had read.
-/

namespace Reactivity

/-- The node whose function the event is about: it was started, has returned, or has read
something. -/
def Event.actor? : Event → Option NodeId
  | .started n | .finished n | .tracked n .. | .saw n .. => some n
  | _ => none

/-- The function of the node was started, or has returned, or is about to read a memo. -/
def Event.Matters (n : NodeId) : Event → Prop
  | .started m | .finished m | .tracked m (.memo _) _ => m = n
  | _ => False

theorem Stage.Advance.actor?_eq {s s' : Stage} {e : Event} (h : s.Advance e s') :
    e.actor? = none := by
  cases h <;> rfl

theorem Event.Matters.actor? {n : NodeId} {e : Event} (h : e.Matters n) : e.actor? = some n := by
  cases e with
  | started | finished => exact congrArg some h
  | tracked m x key =>
    cases x with
    | memo => exact congrArg some h
    | _ => exact h.elim
  | _ => exact h.elim

/-- `Affects root past n`: what the event says bears on the node, as things stood when it happened.
The node was made dirty; or a part that it has read since its function was last started was changed;
or the event affects a memo whose function has not been started since the node has read it. -/
inductive Affects (root : Event) (past : List Event) : NodeId → Prop
  | dirtied {n : NodeId} (h : root = .dirtied n) : Affects root past n
  | wrote {n : NodeId} {write : Write} {key : Key} (h : root = .wrote write)
    (changed : key ∈ write.changed)
    (read : .tracked n write.handle key ∈ sinceStart n past) : Affects root past n
  | through {n m : NodeId} {r : Result} (read : .saw n (.memo m) r ∈ sinceStart n past)
    (latest : .saw n (.memo m) r ∈ sinceStart m past) (inner : Affects root past m) :
    Affects root past n

/-- Since the function of the node last returned, something has happened that affects it. -/
def Caused (n : NodeId) (history : List Event) : Prop :=
  ∃ since root past, history = since ++ root :: past ∧ .started n ∉ since ∧ .started n ∈ past ∧
    ¬ Open n past ∧ Affects root past n

/-- Wherever the function of the node was started anew, there was a cause. -/
def Justified (n : NodeId) (history : List Event) : Prop :=
  ∀ old, .started n :: old <:+ history → .started n ∈ old → Caused n old

def starts (n : NodeId) (history : List Event) : Nat :=
  history.countP fun e => match e with
    | .started m => m == n
    | _ => false

/-- While the function of one node runs, that of the other is started once at most. -/
def Single (n m : NodeId) (history : List Event) : Prop :=
  ∀ old, old <:+ history → Open n old → starts m (sinceStart n old) ≤ 1

section History

variable {n m : NodeId} {e : Event} {history l : List Event}

theorem Caused.append (h : Caused n history) (hs : .started n ∉ l) : Caused n (l ++ history) := by
  obtain ⟨since, root, past, rfl, hsince, h⟩ := h
  refine ⟨l ++ since, root, past, (List.append_assoc ..).symm, ?_, h⟩
  simp [hs, hsince]

theorem Open.of_cons (h : Open n (e :: history)) (he : e ≠ .started n) : Open n history := by
  obtain ⟨hs, hf⟩ := h
  rw [sinceStart_cons he, List.mem_cons, not_or] at hf
  exact ⟨(List.mem_cons.1 hs).resolve_left he.symm, hf.2⟩

theorem Open.of_append (h : Open n (l ++ history)) (hs : .started n ∉ l) : Open n history := by
  induction l with
  | nil => exact h
  | cons e l ih =>
    rw [List.mem_cons, not_or] at hs
    exact ih (h.of_cons (Ne.symm hs.1)) hs.2

theorem not_open_finished (n : NodeId) (history : List Event) :
    ¬ Open n (.finished n :: history) := by
  intro h
  have hf := h.2
  rw [sinceStart_cons (by simp)] at hf
  exact hf List.mem_cons_self

/-- What has happened since the function of a node was last started stays so, unless it is started
again. -/
theorem mem_sinceStart_append (hs : .started n ∉ l) (h : e ∈ sinceStart n history) :
    e ∈ sinceStart n (l ++ history) := by
  rw [sinceStart_append hs]
  exact List.mem_append_right _ h

theorem not_started_mem_sinceStart (n : NodeId) (history : List Event) :
    .started n ∉ sinceStart n history := by
  intro h
  simpa using List.mem_takeWhile_imp h

theorem mem_sinceStart_of_append (h : e ∈ sinceStart n (l ++ history)) (hn : e ∉ l) :
    e ∈ sinceStart n history := by
  by_cases hs : .started n ∈ l
  · obtain ⟨front, back, rfl⟩ := List.append_of_mem hs
    clear hs
    induction front with
    | nil =>
      rw [List.nil_append, List.cons_append, sinceStart_started] at h
      cases h
    | cons e' front ih =>
      rw [List.cons_append, List.cons_append] at h
      rw [List.cons_append, List.mem_cons, not_or] at hn
      by_cases he : e' = .started n
      · rw [he, sinceStart_started] at h
        cases h
      · rw [sinceStart_cons he] at h
        exact ih ((List.mem_cons.1 h).resolve_left hn.1) hn.2
  · rw [sinceStart_append hs] at h
    exact (List.mem_append.1 h).resolve_left hn

theorem suffix_of_append {old : List Event} (h : e :: old <:+ l ++ history) (he : e ∉ l) :
    e :: old <:+ history := by
  induction l with
  | nil => exact h
  | cons e' l ih =>
    rw [List.mem_cons, not_or] at he
    rcases List.suffix_cons_iff.1 h with heq | h
    · exact absurd (List.cons.inj heq).1 he.1
    · exact ih h he.2

theorem Justified.append (h : Justified n history) (hs : .started n ∉ l) :
    Justified n (l ++ history) :=
  fun old ho hm => h old (suffix_of_append ho hs) hm

theorem starts_cons (he : e ≠ .started n) : starts n (e :: history) = starts n history := by
  rw [starts, List.countP_cons_of_neg]
  · rfl
  · cases e with
    | started m => simpa using he
    | _ => exact Bool.false_ne_true

theorem starts_eq_zero (h : .started n ∉ history) : starts n history = 0 := by
  rw [starts, List.countP_eq_zero]
  intro e he
  cases e with
  | started m =>
    have hmn : m ≠ n := fun hmn => h (hmn ▸ he)
    simpa using hmn
  | _ => exact Bool.false_ne_true

theorem starts_append (n : NodeId) (l history : List Event) :
    starts n (l ++ history) = starts n l + starts n history :=
  List.countP_append

theorem Single.cons (h : Single n m history)
    (hs : e = .started m → Open n history → .started m ∉ sinceStart n history) :
    Single n m (e :: history) := by
  intro old ho hopen
  rcases List.suffix_cons_iff.1 ho with rfl | ho
  · by_cases hn : e = .started n
    · rw [hn, sinceStart_started]
      exact Nat.zero_le 1
    · rw [sinceStart_cons hn]
      have hopen := hopen.of_cons hn
      by_cases hm : e = .started m
      · rw [hm, starts, List.countP_cons, ← starts, starts_eq_zero (hs hm hopen)]
        simp
      · rw [starts_cons hm]
        exact h history (List.suffix_refl _) hopen
  · exact h old ho hopen

theorem Single.append (h : Single n m history) (hs : .started m ∉ l) :
    Single n m (l ++ history) := by
  induction l with
  | nil => exact h
  | cons e l ih =>
    rw [List.mem_cons, not_or] at hs
    exact (ih hs.2).cons fun he => absurd he.symm hs.1

end History

namespace World

/-- `w.Indifferent w'`: the memos are as clean as before and keep their results, and no function but
those of effects is started, returns or reads a memo. -/
structure Indifferent (w w' : World) : Prop where
  clean : ∀ n, w'.IsClean n ↔ w.IsClean n
  memos : ∀ n m, w.memo? n = some m → ∃ m', w'.memo? n = some m' ∧ m'.result = m.result
  past : ∃ l, w'.history = l ++ w.history ∧
    ∀ e ∈ l, ∀ n, e.Matters n → (w.effect? n).isSome

namespace Indifferent

variable {w w' w'' : World} {l : List Event}

theorem of_sameNodes (h : w.SameNodes w') (past : w'.history = l ++ w.history)
    (hm : ∀ e ∈ l, ∀ n, e.Matters n → (w.effect? n).isSome) : w.Indifferent w' where
  clean _ := ⟨fun hc => hc.of_sameNodes h.symm, fun hc => hc.of_sameNodes h⟩
  memos n m hn := by
    obtain ⟨m', hm', hb⟩ := h.memo? hn
    exact ⟨m', hm', by rw [Memo.of_bare hb]⟩
  past := ⟨l, past, hm⟩

theorem of_idle (h : w.SameNodes w') (past : w'.history = l ++ w.history)
    (idle : ∀ e ∈ l, e.actor? = none) : w.Indifferent w' :=
  of_sameNodes h past fun e he _ hn => absurd (hn.actor?.symm.trans (idle e he)) nofun

theorem of_nodes (h : w'.nodes = w.nodes) (past : w'.history = l ++ w.history)
    (idle : ∀ e ∈ l, e.actor? = none) : w.Indifferent w' :=
  of_idle (.of_eq h) past idle

theorem refl (w : World) : w.Indifferent w :=
  of_nodes rfl (List.nil_append _).symm (List.forall_mem_nil _)

theorem of_eq (hn : w'.nodes = w.nodes) (hh : w'.history = w.history) : w.Indifferent w' :=
  of_nodes hn (hh.trans (List.nil_append _).symm) (List.forall_mem_nil _)

theorem trans (h : w.Indifferent w') (h' : w'.Indifferent w'')
    (effects : ∀ n, (w'.effect? n).isSome → (w.effect? n).isSome) : w.Indifferent w'' where
  clean n := (h'.clean n).trans (h.clean n)
  memos n m hm := by
    obtain ⟨m', hm', hr⟩ := h.memos n m hm
    obtain ⟨m'', hm'', hr'⟩ := h'.memos n m' hm'
    exact ⟨m'', hm'', hr'.trans hr⟩
  past := by
    obtain ⟨l, hn, hi⟩ := h.past
    obtain ⟨l', hn', hi'⟩ := h'.past
    refine ⟨l' ++ l, by rw [hn', hn, List.append_assoc], fun e hm n hmatters => ?_⟩
    rcases List.mem_append.1 hm with hm | hm
    · exact effects n (hi' e hm n hmatters)
    · exact hi e hm n hmatters

theorem same (h : w.Indifferent w') (hn : w''.nodes = w'.nodes)
    (hh : w''.history = w'.history) : w.Indifferent w'' where
  clean n := by rw [IsClean, memo?, hn]; exact h.clean n
  memos n m hm := by rw [memo?, hn]; exact h.memos n m hm
  past := by rw [hh]; exact h.past

theorem note (h : w.Indifferent w') {e : Event} (he : ∀ n, e.Matters n → (w.effect? n).isSome) :
    w.Indifferent (w'.note e) where
  clean := h.clean
  memos := h.memos
  past := by
    obtain ⟨l, hn, hi⟩ := h.past
    exact ⟨e :: l, congrArg (e :: ·) hn, List.forall_mem_cons.2 ⟨he, hi⟩⟩

theorem modifyEffect (h : w.Indifferent w') (n : NodeId) (f : Effect → Effect) :
    w.Indifferent (w'.modifyEffect n f) where
  clean m := by rw [IsClean, memo?_modifyEffect]; exact h.clean m
  memos m x hx := by rw [memo?_modifyEffect]; exact h.memos m x hx
  past := h.past

theorem of_modifyEffect {n : NodeId} {f : Effect → Effect}
    (h : (w.modifyEffect n f).Indifferent w') : w.Indifferent w' := by
  refine ((refl w).modifyEffect n f).trans h fun m hm => ?_
  rw [effect?_modifyEffect] at hm
  split at hm
  · rwa [Option.isSome_map] at hm
  · exact hm

theorem pushNode (w : World) {node : Node} (fresh : ∀ m, node = .memo m → m.dirty) :
    w.Indifferent (w.pushNode node) where
  clean n := by
    refine ⟨fun h => h.of_pushNode fresh, fun ⟨m, hm, hd⟩ => ⟨m, ?_, hd⟩⟩
    have hn : n ≠ w.nodes.size := Nat.ne_of_lt (lt_of_memo? (Option.isSome_of_eq_some hm))
    rw [memo?_pushNode, if_neg hn, hm]
  memos n m hm := by
    have hn : n ≠ w.nodes.size := Nat.ne_of_lt (lt_of_memo? (Option.isSome_of_eq_some hm))
    exact ⟨m, by rw [memo?_pushNode, if_neg hn, hm], rfl⟩
  past := ⟨[], rfl, List.forall_mem_nil _⟩

theorem queuedIn (w : World) (rt : RuntimeId) (n : NodeId) : w.Indifferent (w.queuedIn rt n) := by
  rcases w.history_queuedIn rt n with h | h
  · exact of_nodes (l := [_]) (w.nodes_queuedIn rt n) h (by simp [Event.actor?])
  · exact of_nodes (l := [_, _]) (w.nodes_queuedIn rt n) h (by simp [Event.actor?])

theorem clearedOf (w : World) (n : NodeId) : w.Indifferent (w.clearedOf n) :=
  of_idle (SameNodes.clearedOf w n) (l := [_]) (w.history_clearedOf n) (by simp [Event.actor?])

theorem disposing (w : World) (n : NodeId) : w.Indifferent (w.disposing n) :=
  of_modifyEffect (clearedOf _ n)

theorem running (w : World) {n : NodeId} (hn : (w.effect? n).isSome) (rt : RuntimeId) :
    w.Indifferent (w.running n rt) := by
  rw [World.running]
  refine note (modifyEffect ?_ n _) fun m hm => ?_
  · exact (clearedOf w n).same rfl rfl
  · exact (show n = m from hm) ▸ hn

theorem ran (w : World) {n : NodeId} (hn : (w.effect? n).isSome) (rt : RuntimeId) :
    w.Indifferent (w.ran n rt) := by
  rw [World.ran]
  refine same (modifyEffect (note ((refl w).modifyEffect n _) fun m hm => ?_) n _) rfl rfl
  exact (show n = m from hm) ▸ hn

theorem cleaning (h : w.Indifferent w') (n : NodeId) (rt : RuntimeId) :
    w.Indifferent (w'.cleaning n rt) :=
  (h.modifyEffect n fun e => { e with cleanups := [] }).same rfl rfl

theorem withStore (w : World) (state : ObjectId) : w.Indifferent (w.withStore state) := by
  rw [World.withStore]
  refine trans ?_ (pushNode _ ?_) fun _ hn => hn
  · exact of_eq rfl rfl
  · simp

end Indifferent

end World

end Reactivity
