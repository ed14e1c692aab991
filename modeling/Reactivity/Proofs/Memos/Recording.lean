import Reactivity.Proofs.Memos.Seclusion
import Reactivity.Proofs.Registration.Unread

namespace Reactivity

/-- `e.Yields env n since lookup r`: as far as no variable of the expression was bound since its
evaluation has started, its result is determined by the reads since. -/
def Expr.Yields (e : Expr) (env : Env) (n : NodeId) (since : List Event)
    (lookup : String → Result) (r : Result) : Prop :=
  (∀ name ∈ e.names, .bound name ∉ since) →
    ∀ (vars : String → Result) (seen : Read → Option Result),
      (∀ name ∈ e.names, vars name = lookup name) →
      (∀ read r', .saw n read r' ∈ since → seen read = some r') → e.outcome vars seen env = some r

theorem Expr.Follows.yields {e : Expr} {env : Env} {n : NodeId} {since : List Event}
    {lookup : String → Result} {r : Result} (h : e.Follows env n since lookup r)
    (calm : ∀ message, .threw message ∉ since) : e.Yields env n since lookup r :=
  h calm

theorem World.Extends.lookup_eq {w w' : World} (h : w.Extends w') {new : List Event}
    (hh : w'.history = new ++ w.history) {name : String} (unbound : .bound name ∉ new) :
    w'.lookup name = w.lookup name := by
  rcases h.bindings name with hb | ⟨new', hn, hm⟩
  · rw [lookup, lookup, hb]
  · obtain rfl : new = new' := List.append_cancel_right (hh.symm.trans hn)
    exact absurd hm unbound

theorem Expr.Yields.mono {w w' : World} {e : Expr} {env : Env} {n : NodeId} {r : Result}
    (h : e.Yields env n (sinceStart n w.history) w.lookup r) (he : w.Extends w') {new : List Event}
    (hh : w'.history = new ++ w.history) (started : .started n ∉ new) :
    e.Yields env n (sinceStart n w'.history) w'.lookup r := by
  intro unbound vars seen hvars hseen
  rw [hh, sinceStart_append started] at unbound hseen
  refine h (fun name hn hm => unbound name hn (List.mem_append_right _ hm)) vars seen
    (fun name hn => ?_) fun read r' hm => hseen read r' (List.mem_append_right _ hm)
  rw [hvars name hn]
  exact he.lookup_eq hh fun hm => unbound name hn (List.mem_append_left _ hm)

/-- When the function of a node has last returned: how many things had happened then. -/
def finishedAt (n : NodeId) : List Event → Nat
  | [] => 0
  | .finished m :: old => if m = n then old.length + 1 else finishedAt n old
  | _ :: old => finishedAt n old

section FinishedAt

variable {n : NodeId} {e : Event} {new old : List Event}

@[simp] theorem finishedAt_finished (n : NodeId) (old : List Event) :
    finishedAt n (.finished n :: old) = old.length + 1 := by
  simp [finishedAt]

theorem finishedAt_cons (h : e ≠ .finished n) : finishedAt n (e :: old) = finishedAt n old := by
  cases e with
  | finished m =>
    rw [finishedAt, if_neg]
    rintro rfl
    exact h rfl
  | _ => rfl

theorem finishedAt_append (h : .finished n ∉ new) :
    finishedAt n (new ++ old) = finishedAt n old := by
  induction new with
  | nil => rfl
  | cons e new ih =>
    rw [List.mem_cons, not_or] at h
    rw [List.cons_append, finishedAt_cons (Ne.symm h.1), ih h.2]

theorem finishedAt_le (n : NodeId) (old : List Event) : finishedAt n old ≤ old.length := by
  induction old with
  | nil => exact Nat.le_refl 0
  | cons e old ih =>
    by_cases he : e = .finished n
    · rw [he, finishedAt_finished]
      exact Nat.le_refl _
    · rw [finishedAt_cons he]
      exact Nat.le_succ_of_le ih

end FinishedAt

def IsComputing (n : NodeId) (g : List Frame) : Prop :=
  ∃ rt start, .computing n rt start ∈ g

theorem IsComputing.not_bare {n : NodeId} {g : List Frame} (h : IsComputing n g) : ¬ Bare g := by
  obtain ⟨rt, start, hm⟩ := h
  exact fun hb => Bool.noConfusion (hb _ hm)

/-- `KeepsResult w g n`: unless the memo is being computed, its result is what its body yields. -/
def ExplainsResult (w : World) (g : List Frame) (n : NodeId) : Prop :=
  ∀ m r, w.memo? n = some m → m.result = some r → ¬ IsComputing n g →
    m.body.body.Yields ⟨m.body.runtime, []⟩ n (sinceStart n w.history) w.lookup r

/-- What the memo `n` has read of the memo `k` is what `k` keeps, and was computed before `n` was. -/
def StandsOn (w : World) (g : List Frame) (n k : NodeId) (r : Result) : Prop :=
  (∃ m, w.memo? k = some m ∧ m.result = some r) ∧
    (IsComputing n g ∨ finishedAt k w.history < finishedAt n w.history)

/-- What is written down about memos agrees with what they keep. -/
structure Config.Recorded (c : Config) : Prop where
  secluded : Secluded c.stack
  unwinding : c.unwinding → Bare c.stack
  /-- A memo that is being read is clean. -/
  clean : ∀ reader n, .reading reader n ∈ c.stack → c.world.IsClean n
  /-- Nothing has been thrown since a memo that is being computed was started. -/
  computing : ∀ n rt start, .computing n rt start ∈ c.stack → (∃ old, start = .started n :: old) ∧
    c.world.history = sinceStart n c.world.history ++ start ∧
      ∀ message, .threw message ∉ sinceStart n c.world.history
  results : ∀ n, ExplainsResult c.world c.stack n
  reads : ∀ n k r, (c.world.memo? n).isSome → .saw n (.memo k) r ∈ sinceStart n c.world.history →
    c.world.isDirty n ∨ StandsOn c.world c.stack n k r
  /-- A memo that has just been read keeps what it gave. -/
  got : ∀ n r old, c.world.history = .got n r :: old → (∀ f ∈ c.stack, ¬ f.Triggers) ∧
    ¬ IsComputing n c.stack ∧
      ∃ m, c.world.memo? n = some m ∧ m.dirty = false ∧ m.result = some r

/-- `w.Resumes n w'`: the function of the memo was neither started nor has it returned. It keeps its
result, and stays dirty if it was. A new memo is dirty and has none. -/
structure World.Resumes (w : World) (n : NodeId) (w' : World) : Prop where
  past : (w.memo? n).isSome → ∃ new, w'.history = new ++ w.history ∧
    .started n ∉ new ∧ .finished n ∉ new
  kept : ∀ m, w.memo? n = some m →
    ∃ m', w'.memo? n = some m' ∧ (m.dirty → m'.dirty) ∧ m'.result = m.result
  new : ∀ m, w'.memo? n = some m → w.memo? n = none → m.dirty ∧ m.result = none

theorem World.SparesMemos.resumes {g : List Frame} {u : Bool} {w w' : World}
    (h : w.SparesMemos ⟨w, g, u⟩ w') (n : NodeId) : w.Resumes n w' where
  past hm := by
    obtain ⟨new, hn, he⟩ := h.past
    refine ⟨new, hn, fun hs => ?_, fun hf => ?_⟩
    · exact Option.isSome_iff_ne_none.1 hm (he _ hs)
    · exact Option.isSome_iff_ne_none.1 hm (he _ hf)
  kept m hm := by
    obtain ⟨m', hm', hd, hr⟩ := h.kept n m hm
    exact ⟨m', hm', fun hdirty => hd ▸ hdirty, hr⟩
  new := h.new n

namespace World.Resumes

variable {w w' : World} {g g' : List Frame} {n k : NodeId}

theorem of_kept {new : List Event} (hh : w'.history = new ++ w.history)
    (started : .started n ∉ new) (finished : .finished n ∉ new)
    (kept : (w'.memo? n).map (fun m => (m.dirty, m.result)) =
      (w.memo? n).map fun m => (m.dirty, m.result)) : w.Resumes n w' where
  past _ := ⟨new, hh, started, finished⟩
  kept m hm := by
    rw [hm, Option.map_some] at kept
    obtain ⟨m', hm', heq⟩ := Option.map_eq_some_iff.1 kept
    obtain ⟨hd, hr⟩ := Prod.mk.inj heq
    exact ⟨m', hm', fun hdirty => hd.trans hdirty, hr⟩
  new m hm hnone := by
    rw [hm, hnone] at kept
    cases kept

theorem isDirty (h : w.Resumes n w') (hd : w.isDirty n) : w'.isDirty n := by
  rw [World.isDirty] at hd ⊢
  cases hm : w.memo? n with
  | none => rw [hm] at hd; cases hd
  | some m =>
    rw [hm] at hd
    obtain ⟨m', hm', hdirty, -⟩ := h.kept m hm
    rw [hm']
    exact hdirty hd

theorem results (h : w.Resumes n w') (he : w.Extends w')
    (stack : IsComputing n g → IsComputing n g') (hr : ExplainsResult w g n) :
    ExplainsResult w' g' n := by
  intro m' r hm' hres hnot
  cases hm : w.memo? n with
  | none =>
    have hnone := (h.new m' hm' hm).2
    rw [hres] at hnone
    cases hnone
  | some m =>
    obtain ⟨m₁, hm₁, -, hres₁⟩ := h.kept m hm
    obtain rfl : m' = m₁ := Option.some.inj (hm'.symm.trans hm₁)
    obtain ⟨m₂, hm₂, -, hbody⟩ := he.memos n m hm
    obtain rfl : m' = m₂ := Option.some.inj (hm'.symm.trans hm₂)
    obtain ⟨new, hh, hnew, -⟩ := h.past (Option.isSome_of_eq_some hm)
    rw [hbody]
    exact (hr m r hm (hres₁ ▸ hres) fun hc => hnot (stack hc)).mono he hh hnew

theorem finishedAt_eq (h : w.Resumes n w') (hn : (w.memo? n).isSome) :
    finishedAt n w'.history = finishedAt n w.history := by
  obtain ⟨new, hh, -, hnew⟩ := h.past hn
  rw [hh, finishedAt_append hnew]

theorem standsOn (hn : w.Resumes n w') {r : Result} (hsome : (w.memo? n).isSome)
    (stack : IsComputing n g → IsComputing n g') (hs : StandsOn w g n k r)
    (kept : ∀ m, w.memo? k = some m → ∃ m', w'.memo? k = some m' ∧ m'.result = m.result)
    (finished : finishedAt k w'.history = finishedAt k w.history) : StandsOn w' g' n k r := by
  obtain ⟨⟨m, hm, hres⟩, hord⟩ := hs
  obtain ⟨m', hm', hres'⟩ := kept m hm
  refine ⟨⟨m', hm', hres'.trans hres⟩, hord.imp stack fun hlt => ?_⟩
  rwa [hn.finishedAt_eq hsome, finished]

theorem reads (h : ∀ k, w.Resumes k w') (stack : ∀ n, IsComputing n g → IsComputing n g')
    {r : Result} (hn : (w.memo? n).isSome) (hr : w.isDirty n ∨ StandsOn w g n k r) :
    w'.isDirty n ∨ StandsOn w' g' n k r := by
  refine hr.imp (h n).isDirty fun hs => ?_
  obtain ⟨m, hm, -⟩ := hs.1
  refine (h n).standsOn hn (stack n) hs (fun m hm => ?_) ?_
  · obtain ⟨m', hm', -, hr'⟩ := (h k).kept m hm
    exact ⟨m', hm', hr'⟩
  · exact (h k).finishedAt_eq (Option.isSome_of_eq_some hm)

end World.Resumes

theorem computing_append {n : NodeId} {start history : List Event}
    (h : (∃ old, start = .started n :: old) ∧ history = sinceStart n history ++ start ∧
      ∀ message, .threw message ∉ sinceStart n history)
    (new : List Event) (started : .started n ∉ new) (calm : ∀ message, .threw message ∉ new) :
    (∃ old, start = .started n :: old) ∧
      new ++ history = sinceStart n (new ++ history) ++ start ∧
        ∀ message, .threw message ∉ sinceStart n (new ++ history) := by
  obtain ⟨hstart, hh, hcalm⟩ := h
  rw [sinceStart_append started]
  refine ⟨hstart, by rw [List.append_assoc, ← hh], fun message hm => ?_⟩
  exact (List.mem_append.1 hm).elim (calm message) (hcalm message)

theorem Config.Passes.recorded {c c' : Config} (h : c.Passes c') (hc : c.Sane)
    (he : c.world.Extends c'.world) (hr : c.Recorded) : c'.Recorded := by
  obtain ⟨w, g, u⟩ := c
  obtain ⟨w', g', u'⟩ := c'
  have hw : w.SparesMemos ⟨w, g, u⟩ w' := h.world
  obtain ⟨new, hh, hnew⟩ := hw.past
  have hres (n : NodeId) := hw.resumes n
  have stack : g' = g ∨ Bare g ∧ Bare g' := h.stack
  have back (f : Frame) (hf : f.isReading) (hm : f ∈ g') : f ∈ g := by
    rcases stack with rfl | ⟨-, hb⟩
    · exact hm
    · exact absurd (hb f hm) (Bool.eq_false_iff.1.mt (not_not.2 hf))
  have forth (n : NodeId) (hn : IsComputing n g) : IsComputing n g' := by
    rcases stack with rfl | ⟨hb, -⟩
    · exact hn
    · exact absurd hb hn.not_bare
  refine ⟨?_, fun hu => ?_, fun reader n hm => ?_, fun n rt start hm => ?_, fun n => ?_,
    fun n k r hn hs => ?_, fun n r old hg => ?_⟩
  · rcases stack with hg | ⟨-, hb⟩
    · exact hg ▸ hr.secluded
    · exact hb.secluded
  · rcases stack with hg | ⟨-, hb⟩
    · have hb : Bare g := (h.unwinding hu).elim hr.unwinding id
      exact hg ▸ hb
    · exact hb
  · obtain ⟨m, hm, hd⟩ := hr.clean reader n (back _ rfl hm)
    obtain ⟨m', hm', hd', -⟩ := hw.kept n m hm
    exact ⟨m', hm', hd'.trans hd⟩
  · have hm := back _ rfl hm
    have hsome : (w.memo? n).isSome := (hc.frames _ hm).2
    have hcalm (message : String) (ht : .threw message ∈ new) : False := by
      have hb : Bare g := hnew _ ht
      exact IsComputing.not_bare ⟨rt, start, hm⟩ hb
    have hcomp := computing_append (hr.computing n rt start hm) new
      (fun hs => Option.isSome_iff_ne_none.1 hsome (hnew _ hs)) hcalm
    simpa only [hh] using hcomp
  · exact (hres n).results he (forth n) (hr.results n)
  · cases hm : w.memo? n with
    | none =>
      obtain ⟨m', hm'⟩ := Option.isSome_iff_exists.1 hn
      refine .inl ?_
      rw [World.isDirty, hm']
      exact (hw.new n m' hm' hm).1
    | some m =>
      have hn := Option.isSome_of_eq_some hm
      simp only [hh, sinceStart_append fun hs => Option.isSome_iff_ne_none.1 hn (hnew _ hs)] at hs
      refine World.Resumes.reads hres forth hn (hr.reads n k r hn ?_)
      exact (List.mem_append.1 hs).resolve_left fun hs => (hnew _ hs).1 k rfl
  · have hg : w'.history = .got n r :: old := hg
    cases new with
    | cons e new =>
      obtain rfl := (List.cons.inj (hg.symm.trans hh)).1
      exact (hnew _ (List.mem_cons_self ..)).elim
    | nil =>
      have hh : w'.history = w.history := hh
      obtain ⟨ht, hnot, m, hm, hd, hres⟩ := hr.got n r old (hh ▸ hg)
      obtain ⟨m', hm', hd', hres'⟩ := hw.kept n m hm
      refine ⟨h.triggers hh ht, ?_, m', hm', hd'.trans hd, hres'.trans hres⟩
      rintro ⟨rt, start, hmem⟩
      exact hnot ⟨rt, start, back _ rfl hmem⟩

/-- A memo that has been told of a change when nobody is still to be told is dirty. -/
theorem Notified.isDirty {w : World} {g : List Frame} {u : Bool} (hc : Config.Sane ⟨w, g, u⟩)
    (calm : ∀ f ∈ g, ¬ f.Triggers) {n : NodeId} (hn : (w.memo? n).isSome) (h : Notified w g n) :
    w.isDirty n := by
  have none (he : (w.effect? n).isSome) : False := by
    rw [World.memo?_eq_none_of_effect? he] at hn
    cases hn
  cases h with
  | dirty h => exact h
  | disposed h =>
    refine (none ?_).elim
    rw [World.isDisposed, Option.any_eq_true] at h
    obtain ⟨e, he, -⟩ := h
    exact Option.isSome_of_eq_some he
  | @queued rt h =>
    have hrt : rt < w.runtimes.size := by
      by_contra hge
      rw [World.queue, World.runtime, Array.getElem?_eq_none (Nat.le_of_not_lt hge)] at h
      cases h
    exact (none ((hc.world.runtimes rt hrt).1 n h)).elim
  | @owed f mem owes =>
    have hvalid := hc.frames f mem
    cases f with
    | writing => exact absurd trivial (calm _ mem)
    | telling => exact absurd trivial (calm _ mem)
    | pending m => exact (none (owes ▸ hvalid)).elim
    | round rt batch => exact (none (hvalid.2 n owes)).elim
    | _ => exact owes.elim
  | excused he _ => exact (none he).elim

namespace Config.Recorded

variable {w w' : World} {g g' : List Frame} {u : Bool}

theorem dirties (h : Config.Recorded ⟨w, g, u⟩) {w₁ : World} {n : NodeId} (bare : Bare g)
    (bare' : Bare g') (past : w₁ = w ∧ (∃ f ∈ g, f.Triggers) ∨ w₁ = w.note (.dirtied n)) :
    Config.Recorded ⟨w₁.madeDirty n, g', false⟩ := by
  have hx : w.Extends (w₁.madeDirty n) := by
    rcases past with ⟨rfl, -⟩ | rfl
    · exact .madeDirty _ n
    · exact (World.Extends.note w (.dirtied n)).trans (.madeDirty _ n)
  have hpast : ∃ new, (w₁.madeDirty n).history = new ++ w.history ∧
      ∀ e ∈ new, e = .dirtied n := by
    rcases past with ⟨rfl, -⟩ | rfl
    · exact ⟨[], rfl, by simp⟩
    · exact ⟨[.dirtied n], rfl, fun _ he => List.mem_singleton.1 he⟩
  obtain ⟨new, hh, hnew⟩ := hpast
  have hmemo (k : NodeId) : w₁.memo? k = w.memo? k := by
    rcases past with ⟨rfl, -⟩ | rfl <;> rfl
  have hres (k : NodeId) : w.Resumes k (w₁.madeDirty n) := by
    refine ⟨fun _ => ⟨new, hh, fun hs => (by cases hnew _ hs), fun hf => (by cases hnew _ hf)⟩,
      fun m hm => ?_, fun m hm hnone => ?_⟩
    · rw [World.madeDirty, World.memo?_modifyMemo, hmemo, hm]
      split
      · exact ⟨_, rfl, fun _ => rfl, rfl⟩
      · exact ⟨m, rfl, id, rfl⟩
    · rw [World.madeDirty, World.memo?_modifyMemo, hmemo, hnone] at hm
      split at hm <;> cases hm
  have absent (k : NodeId) (hk : IsComputing k g) : IsComputing k g' := absurd bare hk.not_bare
  refine ⟨bare'.secluded, fun _ => bare', fun reader k hm => ?_, fun k rt start hm => ?_,
    fun k => ?_, fun k j r hk hs => ?_, fun k r old hg => ?_⟩
  · cases bare' _ hm
  · cases bare' _ hm
  · exact (hres k).results hx (absent k) (h.results k)
  · have hk : (w.memo? k).isSome := by
      rw [World.madeDirty, World.memo?_modifyMemo, hmemo] at hk
      split at hk
      · rwa [Option.isSome_map] at hk
      · exact hk
    refine World.Resumes.reads hres absent hk (h.reads k j r hk ?_)
    simp only [hh] at hs
    rw [sinceStart_append fun hs => by cases hnew _ hs] at hs
    exact (List.mem_append.1 hs).resolve_left fun hs => by cases hnew _ hs
  · rcases past with ⟨rfl, f, hf, ht⟩ | rfl
    · exact absurd ht ((h.got k r old hg).1 f hf)
    · cases hg

theorem pushReading (h : Config.Recorded ⟨w, g, false⟩) {n : NodeId} {reader : Option NodeId}
    (clean : w.IsClean n) (noted : ∀ k r old, w.history ≠ .got k r :: old) :
    Config.Recorded ⟨w, .reading reader n :: g, false⟩ := by
  have same (k : NodeId) : IsComputing k (.reading reader n :: g) ↔ IsComputing k g := by
    simp [IsComputing]
  refine ⟨h.secluded, nofun, fun x k hm => ?_, fun k rt start hm => ?_, fun k m r hm hr hnot => ?_,
    fun k j r hk hs => ?_, fun k r old hg => absurd hg (noted k r old)⟩
  · rcases List.mem_cons.1 hm with heq | hm
    · obtain ⟨-, rfl⟩ := Frame.reading.inj heq
      exact clean
    · exact h.clean x k hm
  · exact h.computing k rt start ((List.mem_cons.1 hm).resolve_left nofun)
  · exact h.results k m r hm hr ((same k).not.1 hnot)
  · exact (h.reads k j r hk hs).imp_right fun hs => ⟨hs.1, hs.2.imp_left (same k).2⟩

theorem begins (h : Config.Recorded ⟨w, g, false⟩) {n : NodeId} {rt : RuntimeId}
    {reader : Option NodeId} (hn : (w.memo? n).isSome) (apart : ¬ IsComputing n g) :
    Config.Recorded ⟨w.computing n rt,
      .computing n rt (w.computing n rt).history :: .reading reader n :: g, false⟩ := by
  have he := World.Extends.computing w n rt
  have hh : (w.computing n rt).history = [.started n, .cleared n] ++ w.history :=
    w.history_computing n rt
  have finished (k : NodeId) : finishedAt k (w.computing n rt).history = finishedAt k w.history := by
    rw [hh, finishedAt_append (by simp)]
  have kept (k : NodeId) (m : Memo) (hm : w.memo? k = some m) :
      ∃ m', (w.computing n rt).memo? k = some m' ∧ (n ≠ k → m'.dirty = m.dirty) ∧
        m'.result = m.result := by
    obtain ⟨m', hm', hb⟩ := (World.SameNodes.clearedOf w n).memo? hm
    have hd : m'.dirty = m.dirty := by rw [Memo.of_bare hb]
    have hr : m'.result = m.result := by rw [Memo.of_bare hb]
    rw [World.memo?_computing, World.memo?_modifyMemo, hm']
    split
    · next hnk => exact ⟨_, rfl, absurd hnk, hr⟩
    · exact ⟨m', rfl, fun _ => hd, hr⟩
  have hres {k : NodeId} (hk : (w.memo? k).isSome) (hnk : n ≠ k) : w.Resumes k (w.computing n rt) := by
    refine ⟨fun _ => ⟨_, hh, by simp [Ne.symm hnk], by simp⟩, fun m hm => ?_, fun m _ hnone => ?_⟩
    · obtain ⟨m', hm', hd, hr⟩ := kept k m hm
      exact ⟨m', hm', fun hdirty => (hd hnk).trans hdirty, hr⟩
    · rw [hnone] at hk
      cases hk
  have back {k : NodeId} (hk : ((w.computing n rt).memo? k).isSome) : (w.memo? k).isSome := by
    have hb := congrArg Option.isSome ((World.SameNodes.clearedOf w n).2 k)
    rw [Option.isSome_map, Option.isSome_map] at hb
    rw [← hb]
    rw [World.memo?_computing, World.memo?_modifyMemo] at hk
    split at hk
    · rwa [Option.isSome_map] at hk
    · exact hk
  have push {k : NodeId} (hk : IsComputing k g) : IsComputing k
      (.computing n rt (w.computing n rt).history :: .reading reader n :: g) := by
    obtain ⟨rt', start, hm⟩ := hk
    exact ⟨rt', start, List.mem_cons_of_mem _ (List.mem_cons_of_mem _ hm)⟩
  have first : IsComputing n
      (.computing n rt (w.computing n rt).history :: .reading reader n :: g) :=
    ⟨rt, _, List.mem_cons_self ..⟩
  refine ⟨h.secluded, nofun, fun x k hm => ?_, fun k rt' start hm => ?_,
    fun k m r hm hr hnot => ?_, fun k j r hk hs => ?_, fun k r old hg => ?_⟩
  · by_cases hnk : n = k
    · exact hnk ▸ w.isClean_computing hn rt
    · have hm := (List.mem_cons.1 ((List.mem_cons.1 hm).resolve_left nofun)).resolve_left
        fun heq => hnk (Frame.reading.inj heq).2.symm
      exact (h.clean x k hm).computing hnk rt
  · rcases List.mem_cons.1 hm with heq | hm
    · obtain ⟨rfl, rfl, rfl⟩ := Frame.computing.inj heq
      simp
    · have hm := (List.mem_cons.1 hm).resolve_left nofun
      have hnk : n ≠ k := fun hnk => apart ⟨rt', start, hnk ▸ hm⟩
      have hc := computing_append (h.computing k rt' start hm) [.started n, .cleared n]
        (by simp [Ne.symm hnk]) (by simp)
      simpa only [hh] using hc
  · have hnk : n ≠ k := fun hnk => hnot (hnk ▸ first)
    exact (hres (back (Option.isSome_of_eq_some hm)) hnk).results he push (h.results k) m r hm hr hnot
  · have hnk : n ≠ k := by
      rintro rfl
      simp at hs
    have hk := back hk
    simp only [hh] at hs
    rw [sinceStart_append (by simp [Ne.symm hnk])] at hs
    have hs := (List.mem_append.1 hs).resolve_left (by simp)
    refine (h.reads k j r hk hs).imp (hres hk hnk).isDirty fun hst => ?_
    refine (hres hk hnk).standsOn hk push hst (fun m hm => ?_) (finished j)
    obtain ⟨m', hm', -, hr⟩ := kept j m hm
    exact ⟨m', hm', hr⟩
  · rw [World.history_computing] at hg
    cases hg

theorem ends {n : NodeId} {rt : RuntimeId} {start since : List Event} {r : Result}
    (h : Config.Recorded ⟨w, .computing n rt start :: g, false⟩)
    (told : ∀ x r', (w.memo? x).isSome → .saw x (.memo n) r' ∈ sinceStart x w.history → w.isDirty x)
    (history : w.history = since ++ start)
    (yields : ∀ m, w.memo? n = some m →
      (∀ message, .threw message ∉ since) → m.body.body.Yields ⟨m.body.runtime, []⟩ n since w.lookup r) :
    Config.Recorded ⟨w.computed n rt r, g, false⟩ := by
  have he := World.Extends.computed w n rt r
  have hh : (w.computed n rt r).history = [.finished n] ++ w.history := rfl
  have memo (k : NodeId) : (w.computed n rt r).memo? k =
      if n = k then (w.memo? k).map fun m =>
        { m with computeCount := m.computeCount + 1, result := some r } else w.memo? k :=
    World.memo?_modifyMemo ..
  have dirty (k : NodeId) : (w.computed n rt r).isDirty k = w.isDirty k := by
    rw [World.isDirty, World.isDirty, memo]
    split
    · cases w.memo? k <;> rfl
    · rfl
  have hres {k : NodeId} (hnk : n ≠ k) : w.Resumes k (w.computed n rt r) := by
    refine .of_kept hh (by simp) (by simp [Ne.symm hnk]) ?_
    rw [memo, if_neg hnk]
  have stack {k : NodeId} (hnk : n ≠ k) (hk : IsComputing k (.computing n rt start :: g)) :
      IsComputing k g := by
    obtain ⟨rt', start', hm⟩ := hk
    exact ⟨rt', start', (List.mem_cons.1 hm).resolve_left fun heq => hnk (Frame.computing.inj heq).1.symm⟩
  refine ⟨h.secluded, (by simp), fun x k hm => ?_, fun k rt' start' hm => ?_,
    fun k => ?_, fun k j r' hk hs => ?_, fun k r old hg => ?_⟩
  · exact (h.clean x k (List.mem_cons_of_mem _ hm)).modifyMemo n fun _ => id
  · have hc := computing_append (h.computing k rt' start' (List.mem_cons_of_mem _ hm))
      [.finished n] (by simp) (by simp)
    simpa only [hh] using hc
  · by_cases hnk : n = k
    · subst hnk
      intro m' r' hm' hr' _
      rw [memo, if_pos rfl] at hm'
      obtain ⟨m, hm, rfl⟩ := Option.map_eq_some_iff.1 hm'
      obtain rfl : r = r' := Option.some.inj hr'
      obtain ⟨-, hstart, hcalm⟩ := h.computing n rt start (List.mem_cons_self ..)
      have hsince : since = sinceStart n w.history := List.append_cancel_right (history.symm.trans hstart)
      have hy := yields m hm (hsince ▸ hcalm)
      rw [hsince] at hy
      exact hy.mono he hh (by simp)
    · exact (hres hnk).results he (stack hnk) (h.results k)
  · have hk : (w.memo? k).isSome := by
      rw [memo] at hk
      split at hk
      · rwa [Option.isSome_map] at hk
      · exact hk
    simp only [hh] at hs
    rw [sinceStart_append (by simp)] at hs
    have hs := (List.mem_append.1 hs).resolve_left (by simp)
    by_cases hnj : n = j
    · subst hnj
      exact .inl ((dirty k).trans (told k r' hk hs))
    · refine (h.reads k j r' hk hs).imp (fun hd => (dirty k).trans hd) fun hst => ?_
      obtain ⟨⟨m, hm, hr⟩, hord⟩ := hst
      have hkept : ∃ m, (w.computed n rt r).memo? j = some m ∧ m.result = some r' :=
        ⟨m, by rw [memo, if_neg hnj, hm], hr⟩
      refine ⟨hkept, ?_⟩
      have hj : finishedAt j (w.computed n rt r).history = finishedAt j w.history := by
        rw [hh, finishedAt_append (by simp [Ne.symm hnj])]
      by_cases hnk : n = k
      · subst hnk
        refine .inr ?_
        rw [hj]
        exact (finishedAt_le j w.history).trans_lt (by rw [hh]; simp)
      · refine hord.imp (stack hnk) fun hlt => ?_
        rwa [hj, (hres hnk).finishedAt_eq hk]
  · cases hg

theorem gets {n : NodeId} {reader : Option NodeId} {m : Memo} {r : Result}
    (h : Config.Recorded ⟨w, .reading reader n :: g, false⟩) (memo : w.memo? n = some m)
    (result : m.result = some r) (calm : ∀ f ∈ g, ¬ f.Triggers) (apart : ¬ IsComputing n g)
    (active : ∀ x, reader = some x → (w.memo? x).isSome → IsComputing x g) :
    Config.Recorded ⟨w.gotBy reader n r, g, false⟩ := by
  have he := World.Extends.gotBy w reader n r
  have hnodes : (w.gotBy reader n r).nodes = w.nodes := by cases reader <;> rfl
  have hmemo (k : NodeId) : (w.gotBy reader n r).memo? k = w.memo? k := by
    rw [World.memo?, World.memo?, hnodes]
  have hpast : ∃ new, (w.gotBy reader n r).history = new ++ w.history ∧
      ∀ e ∈ new, e = .got n r ∨ ∃ x, reader = some x ∧ e = .saw x (.memo n) r := by
    cases reader with
    | none => exact ⟨[.got n r], rfl, by simp⟩
    | some x => exact ⟨[.got n r, .saw x (.memo n) r], rfl, by simp⟩
  obtain ⟨new, hh, hnew⟩ := hpast
  have started (k : NodeId) : .started k ∉ new := fun hm => by
    rcases hnew _ hm with heq | ⟨x, -, heq⟩ <;> cases heq
  have finished (k : NodeId) : .finished k ∉ new := fun hm => by
    rcases hnew _ hm with heq | ⟨x, -, heq⟩ <;> cases heq
  have hres (k : NodeId) : w.Resumes k (w.gotBy reader n r) :=
    .of_kept hh (started k) (finished k) (by rw [hmemo])
  have stack (k : NodeId) (hk : IsComputing k (.reading reader n :: g)) : IsComputing k g := by
    obtain ⟨rt, start, hm⟩ := hk
    exact ⟨rt, start, (List.mem_cons.1 hm).resolve_left (by simp)⟩
  refine ⟨h.secluded, (by simp), fun x k hm => ?_, fun k rt start hm => ?_,
    fun k => (hres k).results he (stack k) (h.results k), fun k j r' hk hs => ?_,
    fun k r' old hg => ?_⟩
  · obtain ⟨m, hm, hd⟩ := h.clean x k (List.mem_cons_of_mem _ hm)
    exact ⟨m, (hmemo k).trans hm, hd⟩
  · have hc := computing_append (h.computing k rt start (List.mem_cons_of_mem _ hm)) new (started k)
      (fun message hm => by rcases hnew _ hm with heq | ⟨x, -, heq⟩ <;> cases heq)
    simpa only [hh] using hc
  · have hk : (w.memo? k).isSome := hmemo k ▸ hk
    simp only [hh, sinceStart_append (started k)] at hs
    rcases List.mem_append.1 hs with hs | hs
    · rcases hnew _ hs with heq | ⟨x, rfl, heq⟩
      · cases heq
      · obtain ⟨rfl, hread, rfl⟩ := Event.saw.inj heq
        obtain rfl := Read.memo.inj hread
        exact .inr ⟨⟨m, (hmemo j).trans memo, result⟩, .inl (active k rfl hk)⟩
    · exact World.Resumes.reads hres stack hk (h.reads k j r' hk hs)
  · rw [World.history_gotBy] at hg
    obtain ⟨rfl, rfl⟩ := Event.got.inj (List.cons.inj hg).1
    obtain ⟨m', hm', hd⟩ := h.clean reader n (List.mem_cons_self ..)
    obtain rfl : m = m' := Option.some.inj (memo.symm.trans hm')
    exact ⟨calm, apart, m, (hmemo n).trans memo, hd, result⟩

end Config.Recorded

theorem Step.recorded {c c' : Config} (h : Step c c') (hc : c.Sane) (ho : c.Orderly)
    (hs : c.Settled) (hrec : c.Recorded) (one : c'.world.runtimes.size = 1)
    (hp : c'.world.MemosPure) (hr : c'.world.Regular) : c'.Recorded := by
  have he := h.extends
  have ho' := h.orderly hc ho hr
  rcases h.passes_or_recalls hc hrec.secluded hrec.unwinding ho.started hp hr with hpass | hrecall
  · exact hpass.recorded hc he hrec
  · have pure := hp.of_extends he
    cases hrecall with
    | dirties bare bare' past => exact hrec.dirties bare bare' past
    | @reuses w g n m r memo clean result =>
      have hspares : w.SparesMemos ⟨w, g, false⟩ ((w.trackedIn m.runtime (.memo n) .value).note (.recalled n)) :=
        (World.SparesMemos.trackedIn w m.runtime (.memo n) .value).trans (.note _ trivial)
      have hstay : Config.Passes ⟨w, g, false⟩
        ⟨(w.trackedIn m.runtime (.memo n) .value).note (.recalled n), g, false⟩ :=
        .stay hspares .inl
      refine (hstay.recorded hc he hrec).pushReading ?_ nofun
      have hclean : w.IsClean n := ⟨m, memo, clean⟩
      exact hclean.of_sameNodes (.trackedIn w m.runtime (.memo n) .value)
    | @begins w g n m memo =>
      have hx := World.Extends.trackedIn w m.runtime (.memo n) .value
      have hstay : Config.Passes ⟨w, g, false⟩
        ⟨w.trackedIn m.runtime (.memo n) .value, g, false⟩ :=
        .stay (.trackedIn w m.runtime (.memo n) .value) .inl
      refine (hstay.recorded hc hx hrec).begins (hx.isSome_memo? (Option.isSome_of_eq_some memo)) ?_
      rintro ⟨rt, start, hm⟩
      have hn := ho'.layered.1.1
      exact hn (mem_actives.2 (.inr ⟨rt, start, List.mem_cons_of_mem _ hm⟩))
    | @ends w g n rt start since r history follows =>
      have hsize : w.runtimes.size = 1 := by
        have hpop : (w.popContext rt).runtimes.size = 1 := one
        rwa [World.popContext, World.size_modifyRuntime] at hpop
      have calm := ho.layered.not_triggers_of_atCode trivial
      refine hrec.ends (fun x r' hx hsaw => ?_) history fun m hm hcalm => ?_
      · exact (hs.computing n rt start (List.mem_cons_self ..) x r' hsaw).isDirty hc calm hx
      · exact (follows m hm (pure.bodies n m hm) hsize).yields hcalm
    | @gets w g n reader m r memo result =>
      obtain ⟨hcode, hn, hreader⟩ := ho.layered.1
      refine hrec.gets memo result (ho.layered.2.not_triggers_of_atCode hcode) ?_ ?_
      · rintro ⟨rt, start, hm⟩
        exact hn (mem_actives.2 (.inr ⟨rt, start, hm⟩))
      · intro x hx hsome
        rcases mem_actives.1 (hreader x hx) with ⟨rt, hm⟩ | hm
        · have heffect := (hc.frames _ (List.mem_cons_of_mem _ hm)).2
          rw [World.memo?_eq_none_of_effect? heffect] at hsome
          cases hsome
        · exact hm

theorem Config.start_recorded (settings : Settings) (hook : Hook) :
    (Config.start settings hook).Recorded where
  secluded := trivial
  unwinding := nofun
  clean := nofun
  computing := nofun
  results n m r hm := by simp [Config.start, World.start, World.memo?] at hm
  reads n k r hn := by simp [Config.start, World.start, World.memo?] at hn
  got := nofun

end Reactivity
