import Reactivity.Proofs.Run.Content
import Reactivity.Proofs.Run.History
import Reactivity.Proofs.Run.Triggering

namespace Reactivity

/-- The same computations are running in two states, and none was started between. -/
structure World.Calm (w w' : World) : Prop where
  runtimes : w'.runtimes = w.runtimes
  history : ∃ new, w'.history = new ++ w.history ∧ ∀ n, .started n ∉ new

namespace World.Calm

variable {w w' w'' : World}

theorem refl (w : World) : w.Calm w :=
  ⟨rfl, [], rfl, fun _ h => by cases h⟩

theorem trans (h : w.Calm w') (h' : w'.Calm w'') : w.Calm w'' := by
  obtain ⟨hr, new, hn, hs⟩ := h
  obtain ⟨hr', new', hn', hs'⟩ := h'
  refine ⟨hr'.trans hr, new' ++ new, by rw [hn', hn, List.append_assoc], fun n hm => ?_⟩
  rcases List.mem_append.1 hm with hm | hm
  · exact hs' n hm
  · exact hs n hm

theorem currentReader (h : w.Calm w') (rt : RuntimeId) :
    w'.currentReader rt = w.currentReader rt := by
  rw [World.currentReader, World.currentReader, World.runtime, World.runtime, h.runtimes]

theorem note (w : World) (e : Event) (he : ∀ n, e ≠ .started n) : w.Calm (w.note e) :=
  ⟨rfl, [e], rfl, fun n hm => he n (List.mem_singleton.1 hm).symm⟩

theorem of_history (hr : w'.runtimes = w.runtimes) (hh : w'.history = w.history) : w.Calm w' :=
  ⟨hr, [], hh, fun _ h => by cases h⟩

end World.Calm

theorem World.Calm.mem_sinceStart {w w' : World} (h : w.Calm w') {n : NodeId} {e : Event}
    (he : e ∈ sinceStart n w.history) : e ∈ sinceStart n w'.history := by
  obtain ⟨-, new, hn, hs⟩ := h
  rw [hn, sinceStart_append (hs n)]
  exact List.mem_append_right _ he

theorem World.Calm.trackedIn (w : World) (rt : RuntimeId) (h : Handle) (key : Key) :
    w.Calm (w.trackedIn rt h key) := by
  refine ⟨World.runtimes_trackedIn .., ?_⟩
  rw [World.trackedIn]
  split
  · exact ⟨[], rfl, fun _ h => by cases h⟩
  · next n _ => exact ⟨[.tracked n h key], World.history_trackedBy .., fun m => by simp⟩

theorem World.mem_sinceStart_trackedIn {w : World} {rt : RuntimeId} {n : NodeId} {h : Handle}
    {key : Key} (hn : w.currentReader rt = some n) :
    .tracked n h key ∈ sinceStart n (w.trackedIn rt h key).history := by
  rw [World.trackedIn, hn]
  simp only
  rw [World.history_trackedBy]
  exact List.mem_cons_self ..

/-- Plain JSON may have been turned into reactive containers between two states, and nothing else
has happened. -/
structure World.Wraps (w w' : World) : Prop where
  calm : w.Calm w'
  objects : ∀ id, id < w.objects.size → w'.object id = w.object id
  arrays : ∀ id, id < w.arrays.size → w'.array id = w.array id

theorem World.Wraps.refl (w : World) : w.Wraps w :=
  ⟨.refl w, fun _ _ => rfl, fun _ _ => rfl⟩

theorem World.Wraps.trans {w w' w'' : World} (he : w.Extends w') (h : w.Wraps w')
    (h' : w'.Wraps w'') : w.Wraps w'' :=
  ⟨h.calm.trans h'.calm,
    fun id hid => (h'.objects id (he.objects id hid).1).trans (h.objects id hid),
    fun id hid => (h'.arrays id (he.arrays id hid).1).trans (h.arrays id hid)⟩

theorem Number.canonical_canonical (x : Number) : x.canonical.canonical = x.canonical := by
  have hn : nan.isNaN := by decide
  by_cases h : x.isNaN
  · simp [canonical, h, hn]
  · simp [canonical, h]

theorem Value.ofPrimitive_valid (w : World) (j : Json) : (Value.ofPrimitive j).Valid w := by
  cases j with
  | int n => exact Number.canonical_canonical _
  | float x => exact Number.canonical_canonical _
  | _ => trivial

theorem Cell.ofJson_valid (w : World) (j : Json) : (Cell.ofJson j).Valid w := by
  rw [Cell.ofJson]
  split
  · assumption
  · exact Value.ofPrimitive_valid w j

section Does

variable {R : Config → Prop} (hR : Closed R) {w : World} {g : List Frame}
include hR

theorem does_track (rt : RuntimeId) (h : Handle) (key : Key) (code : AtCode g) (valid : h.Valid w)
    (owner : w.owner h = rt) (container : ∀ m, h ≠ .memo m) :
    Does R g false g (track rt h key) (fun _ w' => w' = w.trackedIn rt h key) w := by
  intro hr
  rw [run_track]
  refine ⟨?_, .trackedIn w rt h key, rfl⟩
  rw [World.trackedIn]
  split
  · exact hr
  · next n hn => exact hR.step hr (.track code valid owner container hn)

theorem does_noteRead (rt : RuntimeId) (read : Read) {r : Result} (code : AtCode g)
    (valid : read.handle.Valid w) (owner : w.owner read.handle = rt) (direct : ∀ m, read ≠ .memo m)
    (tracked : ∀ n, w.currentReader rt = some n → ∀ key ∈ read.keys w,
      .tracked n read.handle key ∈ sinceStart n w.history)
    (shown : read.shown w = some r) :
    Does R g false g (noteRead rt read r)
      (fun _ w' => ∀ n, w.currentReader rt = some n → w.Adds w' (.saw n read r)) w := by
  intro hr
  rw [run_noteRead]
  cases hn : w.currentReader rt with
  | none => exact ⟨hr, .refl w, fun n h => by cases h⟩
  | some n =>
    refine ⟨hR.step hr (.see code valid owner hn direct (tracked n hn) shown), .note w _, ?_⟩
    rintro m ⟨⟩
    exact ⟨[.saw n read r], rfl, List.mem_singleton_self _⟩

theorem does_wrap {rt : RuntimeId} {j : Json} (code : AtCode g) (hrt : rt < w.runtimes.size) :
    Does R g false g (wrap rt j)
      (fun v w' => v.Valid w' ∧ (j.isContainer → w'.Copies v j) ∧ w.Wraps w') w := by
  intro hr
  have primitive (hj : j.isContainer = false) (h : wrap rt j = Pure.pure (Value.ofPrimitive j)) :
      Does R g false g (wrap rt j)
        (fun v w' => v.Valid w' ∧ (j.isContainer → w'.Copies v j) ∧ w.Wraps w') w := by
    rw [h]
    exact .pure ⟨Value.ofPrimitive_valid w j, fun hc => by simp [hj] at hc, .refl w⟩
  cases j with
  | null => exact primitive rfl rfl hr
  | bool b => exact primitive rfl rfl hr
  | int n => exact primitive rfl rfl hr
  | float x => exact primitive rfl rfl hr
  | string s => exact primitive rfl rfl hr
  | object members =>
    have values : ∀ p ∈ members.map fun p => (p.1, Cell.ofJson p.2), p.2.Valid w := by
      intro p hp
      obtain ⟨q, -, rfl⟩ := List.mem_map.1 hp
      exact Cell.ofJson_valid w q.2
    have hs := hR.step hr (.newObject code hrt values)
    refine ⟨hs, .trans (.note w _) (.pushObject _ _), ?_, fun _ => ?_, ?_, fun id hid => ?_,
      fun _ _ => rfl⟩
    · show w.objects.size < (w.objects.push _).size
      simp
    · show ((w.objects.push _)[w.objects.size]?.getD _).properties = _
      rw [Array.getElem?_push_size]
      rfl
    · exact ⟨rfl, [_], rfl, fun n => by simp⟩
    · show (w.objects.push _)[id]?.getD _ = _
      simp [World.object, Array.getElem?_push, Nat.ne_of_lt hid]
  | array items =>
    have values : ∀ c ∈ items.map Cell.ofJson, c.Valid w := by
      intro c hc
      obtain ⟨j, -, rfl⟩ := List.mem_map.1 hc
      exact Cell.ofJson_valid w j
    have hs := hR.step hr (.newArray code hrt values)
    refine ⟨hs, .trans (.note w _) (.pushArray _ _), ?_, fun _ => ?_, ?_, fun _ _ => rfl,
      fun id hid => ?_⟩
    · show w.arrays.size < (w.arrays.push _).size
      simp
    · show ((w.arrays.push _)[w.arrays.size]?.getD _).cells = _
      rw [Array.getElem?_push_size]
      rfl
    · exact ⟨rfl, [_], rfl, fun n => by simp⟩
    · show (w.arrays.push _)[id]?.getD _ = _
      simp [World.array, Array.getElem?_push, Nat.ne_of_lt hid]

theorem does_toValue {rt : RuntimeId} {c : Cell} (code : AtCode g) (hrt : rt < w.runtimes.size)
    (hc : c.Valid w) :
    Does R g false g (c.toValue rt) (fun v w' => c.Resolved w' (.value v) ∧ w.Wraps w') w := by
  cases c with
  | value v => exact .pure ⟨.inl rfl, .refl w⟩
  | plain j =>
    refine (does_wrap hR (j := j) code hrt).mono fun v w' _ _ ⟨hv, hj, hw⟩ => ⟨?_, hw⟩
    exact .inr ⟨j, v, rfl, rfl, hj hc, hv⟩

end Does

theorem World.Copies.mono {w w' : World} (hw : w.Wraps w') {v : Value} {j : Json}
    (hv : v.Valid w) (h : w.Copies v j) : w'.Copies v j := by
  cases v with
  | object id =>
    cases j with
    | object members => exact (congrArg ObjectState.properties (hw.objects id hv)).trans h
    | _ => exact h
  | array id =>
    cases j with
    | array items => exact (congrArg ArrayState.cells (hw.arrays id hv)).trans h
    | _ => exact h
  | _ => exact h

theorem Cell.Resolved.mono {w w' : World} (he : w.Extends w') (hw : w.Wraps w') {old new : Cell}
    (h : old.Resolved w new) : old.Resolved w' new := by
  rcases h with h | ⟨j, v, hj, hv, hc, hvalid⟩
  · exact .inl h
  · exact .inr ⟨j, v, hj, hv, hc.mono hw hvalid, hvalid.mono he⟩

theorem does_mapCells (hR : Closed R) {g : List Frame} (code : AtCode g) {rt : RuntimeId} {α : Type}
    (f : α → Cell) (mk : α → Value → β) (xs : List α) {w : World} (hrt : rt < w.runtimes.size)
    (hc : ∀ x ∈ xs, (f x).Valid w) :
    Does R g false g (xs.mapM fun x => return mk x (← (f x).toValue rt))
      (fun ys w' => (∃ vs, ys = List.zipWith mk xs vs ∧
        List.Forall₂ (fun x v => (f x).Resolved w' (.value v)) xs vs) ∧ w.Wraps w') w := by
  induction xs generalizing w with
  | nil => exact .pure ⟨⟨[], rfl, .nil⟩, .refl w⟩
  | cons x xs ih =>
    have head : Does R g false g (do return mk x (← (f x).toValue rt))
        (fun y w' => (∃ v, y = mk x v ∧ (f x).Resolved w' (.value v)) ∧ w.Wraps w') w :=
      .bind (does_toValue hR code hrt (hc x (List.mem_cons_self ..))) fun v w' _ _ h =>
        .pure ⟨⟨v, rfl, h.1⟩, h.2⟩
    rw [List.mapM_cons]
    refine head.bind fun y w₁ _ he₁ ⟨⟨v, hy, hv⟩, hw₁⟩ => ?_
    have hrt₁ := (he₁.runtimes rt hrt).1
    refine (ih hrt₁ fun c hm => (hc c (List.mem_cons_of_mem _ hm)).mono he₁).bind
      fun ys w₂ _ he₂ ⟨⟨vs, hys, hvs⟩, hw₂⟩ => .pure ⟨⟨v :: vs, ?_, ?_⟩, hw₁.trans he₁ hw₂⟩
    · rw [hy, hys]
      rfl
    · exact .cons (hv.mono he₂ hw₂) hvs

theorem Cell.value?_eq_some {c : Cell} {v : Value} : c.value? = some v ↔ c = .value v := by
  cases c <;> simp [Cell.value?]

theorem mapM_eq_some_iff {α β : Type} {f : α → Option β} {mk : β → α}
    (hf : ∀ a b, f a = some b ↔ a = mk b) {xs : List α} {ys : List β} :
    xs.mapM f = some ys ↔ xs = ys.map mk := by
  induction xs generalizing ys with
  | nil => cases ys <;> simp
  | cons x xs ih =>
    rw [List.mapM_cons]
    constructor
    · intro h
      obtain ⟨y, hy, h⟩ := Option.bind_eq_some_iff.1 h
      obtain ⟨ys', hys, h⟩ := Option.bind_eq_some_iff.1 h
      obtain rfl : y :: ys' = ys := Option.some.inj h
      rw [List.map_cons, ← (hf x y).1 hy, ← ih.1 hys]
    · intro h
      cases ys with
      | nil => cases h
      | cons y ys =>
        obtain ⟨hx, hxs⟩ := List.cons.inj h
        rw [(hf x y).2 hx, ih.2 hxs]
        rfl

theorem mapM_value?_eq_some {cells : List Cell} {vs : List Value} :
    cells.mapM Cell.value? = some vs ↔ cells = vs.map .value :=
  mapM_eq_some_iff fun _ _ => Cell.value?_eq_some

theorem Properties.values?_eq_some {ps : Properties} {vs : List (String × Value)} :
    ps.values? = some vs ↔ ps = vs.map fun p => (p.1, .value p.2) := by
  refine mapM_eq_some_iff fun p q => ?_
  obtain ⟨name, c⟩ := p
  obtain ⟨name', v⟩ := q
  simp only [Option.map_eq_some_iff, Cell.value?_eq_some]
  grind

theorem mem_of_lookup {β : Type} {ps : List (String × β)} {name : String} {b : β}
    (h : ps.lookup name = some b) : (name, b) ∈ ps := by
  obtain ⟨front, back, rfl, -⟩ := List.lookup_eq_some_iff.1 h
  exact List.mem_append_right _ (List.mem_cons_self ..)

theorem Properties.lookup_map_value {vs : List (String × Value)} {name : String} {c : Cell}
    (h : List.lookup name (vs.map fun p => (p.1, Cell.value p.2)) = some c) : ∃ v, c = .value v := by
  induction vs with
  | nil => cases h
  | cons p vs ih =>
    rw [List.map_cons, List.lookup_cons] at h
    split at h
    · exact ⟨p.2, (Option.some.inj h).symm⟩
    · exact ih h

/-- What is read of a container depends on the content of containers only. -/
theorem Read.shown_of_sameContent {w w' : World} (h : w.SameContent w') {read : Read}
    (direct : ∀ m, read ≠ .memo m) : read.shown w' = read.shown w := by
  obtain ⟨ho, ha⟩ := h
  cases read with
  | memo m => exact absurd rfl (direct m)
  | size x =>
    cases x with
    | memo m => rfl
    | _ => simp only [shown, ho, ha]
  | _ => simp only [shown, ho, ha]

theorem sameContent_noteRead (rt : RuntimeId) (read : Read) (r : Result) (w : World) :
    w.SameContent ((noteRead rt read r).run w).2 := by
  rw [run_noteRead]
  cases w.currentReader rt <;> exact .of_eq rfl rfl

theorem calm_noteRead (rt : RuntimeId) (read : Read) (r : Result) (w : World) :
    w.Calm ((noteRead rt read r).run w).2 := by
  rw [run_noteRead]
  cases w.currentReader rt with
  | none => exact .refl w
  | some n => exact .note w _ nofun

theorem adds_trackedIn {w : World} {rt : RuntimeId} {n : NodeId} (hn : w.currentReader rt = some n)
    (h : Handle) (key : Key) : w.Adds (w.trackedIn rt h key) (.tracked n h key) :=
  ⟨_, World.history_trackedIn .., by simp [hn]⟩

/-- `read.Made w r w'`: the read was made between the states, with the result, and whoever was
reading has been registered on the parts that were read. -/
structure Read.Made (read : Read) (w : World) (r : Result) (w' : World) : Prop where
  shown : read.shown w' = some r
  registered : ∀ n, w'.currentReader (w'.owner read.handle) = some n → ∀ key ∈ read.keys w',
    w.Adds w' (.tracked n read.handle key)

def World.ReadIn (w : World) (rt : RuntimeId) (read : Read) (r : Result) (w' : World) : Prop :=
  ∀ n, w.currentReader rt = some n → w.Adds w' (.saw n read r)

theorem does_readKey {R : Config → Prop} (hR : Closed R) {g : List Frame} {w : World} {α : Type}
    {rt : RuntimeId} (read : Read) (key : Key) {c : Change α} {result : α → Result}
    (P : α → World → Prop)
    (code : AtCode g) (valid : read.handle.Valid w) (owner : w.owner read.handle = rt)
    (container : ∀ m, read.handle ≠ .memo m)
    (direct : ∀ m, read ≠ .memo m) (keys : ∀ w', read.keys w' = [key])
    (hP : ∀ a {w₁ w₂ : World}, w₁.Extends w₂ → P a w₁ → P a w₂)
    (hc : ∀ w₁, w.Extends w₁ → Does R g false g c
      (fun a w' => P a w' ∧ w₁.Calm w' ∧ read.shown w' = some (result a)) w₁) :
    Does R g false g
      (do
        track rt read.handle key
        let a ← c
        noteRead rt read (result a)
        return a)
      (fun a w' => P a w' ∧ w.ReadIn rt read (result a) w' ∧ read.Made w (result a) w') w := by
  refine (does_track hR rt read.handle key code valid owner container).bind fun _ w₁ _ he₁ hw₁ => ?_
  refine (hc w₁ he₁).bind fun a w₂ _ he₂ ⟨ha, hcalm, hshown⟩ => ?_
  have he := he₁.trans he₂
  have hreader : w₂.currentReader rt = w.currentReader rt := by
    rw [hcalm.currentReader, hw₁, (World.Calm.trackedIn w _ _ _).currentReader]
  have hnote := (does_noteRead hR rt read code (valid.mono he) ((he.owner_eq valid).trans owner) direct
    (fun n hn k hk => ?_) hshown).and_run (Q := fun _ w₃ => w₂.SameContent w₃ ∧ w₂.Calm w₃)
      ⟨sameContent_noteRead .., calm_noteRead ..⟩
  · refine hnote.bind fun _ w₃ _ he₃ ⟨hnoted, hsame, hcalm₃⟩ =>
      .pure ⟨hP a he₃ ha, fun n hn => ?_, ?_, fun n hn k hk => ?_⟩
    · exact (hnoted n (hreader.trans hn)).mono he (.refl w₃)
    · rw [Read.shown_of_sameContent hsame direct, hshown]
    · rw [(he.trans he₃).owner_eq valid, owner, hcalm₃.currentReader, hreader] at hn
      rw [keys, List.mem_singleton] at hk
      have htracked : w.Adds w₁ (.tracked n read.handle k) := by
        rw [hw₁, hk]
        exact adds_trackedIn hn read.handle key
      exact htracked.mono (.refl w) (he₂.trans he₃)
  · rw [keys, List.mem_singleton] at hk
    subst hk
    refine hcalm.mem_sinceStart ?_
    rw [hw₁]
    exact World.mem_sinceStart_trackedIn (hreader ▸ hn)

/-- A tracked read of one part of a container that has nothing to prepare. -/
theorem does_seeKey {R : Config → Prop} (hR : Closed R) {g : List Frame} {w : World} {α : Type}
    {rt : RuntimeId} (read : Read) (key : Key) (f : World → α) (result : α → Result)
    (code : AtCode g) (valid : read.handle.Valid w) (owner : w.owner read.handle = rt)
    (container : ∀ m, read.handle ≠ .memo m) (direct : ∀ m, read ≠ .memo m)
    (keys : ∀ w', read.keys w' = [key]) (shown : ∀ w', read.shown w' = some (result (f w'))) :
    Does R g false g
      (do
        track rt read.handle key
        let w ← get
        noteRead rt read (result (f w))
        return f w)
      (fun a w' => w.ReadIn rt read (result a) w' ∧ read.Made w (result a) w') w := by
  have hc : ∀ w₁, w.Extends w₁ → Does R g false g (do return f (← get) : Change α)
      (fun a w' => True ∧ w₁.Calm w' ∧ read.shown w' = some (result a)) w₁ := by
    intro w₁ _
    exact .of_run (a := f w₁) rfl ⟨trivial, .refl w₁, shown w₁⟩
  exact (does_readKey hR read key (fun _ _ => True) code valid owner container direct keys
    (fun _ _ _ _ h => h) hc).mono fun _ _ _ _ h => h.2

theorem does_trackAll {R : Config → Prop} (hR : Closed R) {g : List Frame} {w : World} {α : Type}
    (rt : RuntimeId) (h : Handle) (key : α → Key) {xs : List α} (code : AtCode g)
    (valid : h.Valid w) (owner : w.owner h = rt) (container : ∀ m, h ≠ .memo m) :
    Does R g false g (xs.forM fun x => track rt h (key x))
      (fun _ w' => w.Calm w' ∧ w.SameContent w' ∧ ∀ n, w.currentReader rt = some n →
        ∀ x ∈ xs, .tracked n h (key x) ∈ sinceStart n w'.history) w := by
  induction xs generalizing w with
  | nil => exact .pure ⟨.refl w, .refl w, fun _ _ _ hx => by cases hx⟩
  | cons x xs ih =>
    refine (does_track hR rt h (key x) code valid owner container).bind fun _ w₁ _ he₁ hw₁ => ?_
    subst hw₁
    have hcalm := World.Calm.trackedIn w rt h (key x)
    refine (ih (valid.mono he₁) ((he₁.owner_eq valid).trans owner)).mono
      fun _ w' _ _ ⟨hcalm', hsame, htracked⟩ => ⟨hcalm.trans hcalm',
        (World.SameContent.trackedIn ..).trans hsame, fun n hn y hy => ?_⟩
    rcases List.mem_cons.1 hy with rfl | hy
    · exact hcalm'.mem_sinceStart (World.mem_sinceStart_trackedIn hn)
    · exact htracked n ((hcalm.currentReader rt).trans hn) y hy

section Object

variable {R : Config → Prop} (hR : Closed R) {w : World} {g : List Frame} {id : ObjectId}

/-- A property that has been turned into a value leaves what was read before as it is. -/
theorem Properties.Resolved.replace {ps : Properties} {name : String} {j : Json} {v : Value}
    (there : ps.lookup name = some (.plain j)) (copies : w.Copies v j) (valid : v.Valid w) :
    Properties.Resolved w ps (ps.replace name (.value v)) where
  names := Properties.names_replace ps name _
  cells p hp := by
    obtain ⟨q, hq, rfl⟩ := List.mem_map.1 hp
    by_cases hn : q.1 = name
    · exact .inr ⟨j, v, by simpa [hn] using mem_of_lookup there, by simp [hn], copies, valid⟩
    · exact .inl (by simpa [hn] using hq)
  kept other x hx := by
    rw [Properties.lookup_replace]
    split
    · next h => simp [h, there] at hx
    · exact hx
  full vs hvs := by
    obtain ⟨v, hv⟩ := lookup_map_value (Properties.values?_eq_some.1 hvs ▸ there)
    cases hv

theorem Properties.Resolved.zipWith {ps : Properties} {vs : List Value}
    (h : List.Forall₂ (fun (p : String × Cell) v => p.2.Resolved w (.value v)) ps vs) :
    Properties.Resolved w ps
      ((List.zipWith (fun (p : String × Cell) v => (p.1, v)) ps vs).map fun p => (p.1, .value p.2)) where
  names := by
    induction h with
    | nil => rfl
    | cons _ _ ih => simpa [Properties.names] using ih
  cells p hp := by
    induction h with
    | nil => cases hp
    | @cons q v ps vs hq _ ih =>
      rcases List.mem_cons.1 hp with rfl | hp
      · rcases hq with hq | ⟨j, x, hj, hx, hc, hv⟩
        · exact .inl (by simp [hq])
        · exact .inr ⟨j, x, by simp [← hj], hx, hc, hv⟩
      · refine (ih hp).imp (List.mem_cons_of_mem _) fun h => ?_
        obtain ⟨j, x, hj, h⟩ := h
        exact ⟨j, x, List.mem_cons_of_mem _ hj, h⟩
  kept name x hx := by
    induction h with
    | nil => cases hx
    | @cons q v ps vs hq _ ih =>
      obtain ⟨k, c⟩ := q
      simp only [List.zipWith_cons_cons, List.map_cons, List.lookup_cons] at hx ⊢
      split
      · next hn =>
        rw [hn] at hx
        rcases hq with hq | ⟨j, y, hj, -⟩
        · rw [hq]
          exact hx
        · cases hj.symm.trans (Option.some.inj hx)
      · next hn =>
        rw [hn] at hx
        exact ih hx
  full xs hxs := by
    induction h generalizing xs with
    | nil => rfl
    | @cons q v ps vs hq _ ih =>
      rw [Properties.values?_eq_some] at hxs
      cases xs with
      | nil => cases hxs
      | cons x xs =>
        obtain ⟨hx, hxs⟩ := List.cons.inj hxs
        rw [List.zipWith_cons_cons, List.map_cons, ih xs (Properties.values?_eq_some.2 hxs)]
        rcases hq with hq | ⟨j, y, hj, -⟩
        · rw [hq]
        · rw [hx] at hj
          cases hj

theorem World.modifyObject_congr {w : World} {id : ObjectId} (hid : id < w.objects.size)
    (f f' : ObjectState → ObjectState) (h : f (w.object id) = f' (w.object id)) :
    w.modifyObject id f = w.modifyObject id f' := by
  have ho : w.object id = w.objects[id] := by simp [World.object, hid]
  simp only [World.modifyObject]
  congr 1
  refine Array.ext (by simp) fun i _ _ => ?_
  simp only [Array.getElem_modify]
  split
  · next hi =>
    subst hi
    rw [← ho, h]
  · rfl

theorem World.properties_modifyObject {w : World} {id : ObjectId} (hid : id < w.objects.size)
    (ps : Properties) :
    ((w.modifyObject id fun o => { o with properties := ps }).object id).properties = ps := by
  rw [World.object_modifyObject, if_pos ⟨rfl, hid⟩]

include hR

theorem does_peekObject {name : String} (code : AtCode g) (hid : id < w.objects.size) :
    Does R g false g (id.peek name)
      (fun v w' => (∀ x, v = some x → x.Valid w') ∧ w.Calm w' ∧
        Cell.shown? ((w'.object id).properties.lookup name) = some (.ofValue? v)) w := by
  refine .intro fun hr => ?_
  have ho := (hR.sane hr).world.objects id hid
  cases hc : (w.object id).properties.lookup name with
  | none =>
    have hrun : (id.peek name).run w = (none, w) := by
      simp [ObjectId.peek, hc]
      rfl
    exact Does.of_run hrun ⟨fun _ hx => (nomatch hx), .refl w, by rw [hc]; rfl⟩
  | some cell =>
    have hcell := ho.2.1 _ (mem_of_lookup hc)
    cases cell with
    | value v =>
      have hrun : (id.peek name).run w = (some v, w) := by
        simp [ObjectId.peek, hc]
        rfl
      refine Does.of_run hrun ⟨?_, .refl w, by rw [hc]; rfl⟩
      rintro x ⟨⟩
      exact hcell
    | plain j =>
      have hw := does_wrap hR (j := j) code ho.1 hr
      intro _
      have hrun : (id.peek name).run w =
          (some ((wrap (w.object id).runtime j).run w).1,
            ((wrap (w.object id).runtime j).run w).2.modifyObject id fun o =>
              { o with
                properties :=
                  o.properties.replace name (.value ((wrap (w.object id).runtime j).run w).1) }) := by
        simp [ObjectId.peek, hc]
        rfl
      rw [hrun]
      generalize (wrap (w.object id).runtime j).run w = o at hw ⊢
      obtain ⟨v, w₁⟩ := o
      obtain ⟨hr₁, he₁, hv, hj, hw₁⟩ := hw
      have hid₁ := (he₁.objects id hid).1
      have ho₁ : (w₁.object id).properties = (w.object id).properties := by rw [hw₁.objects id hid]
      have there : (w₁.object id).properties.lookup name = some (.plain j) := by rw [ho₁, hc]
      have hr' := hR.step hr₁ (.resolveObject code (.replace there (hj hcell) hv))
      have heq := World.modifyObject_congr hid₁
        (fun o => { o with properties := (w₁.object id).properties.replace name (.value v) })
        (fun o => { o with properties := o.properties.replace name (.value v) }) rfl
      rw [heq] at hr'
      have he' := World.Extends.modifyObject w₁ id
        (f := fun o => { o with properties := o.properties.replace name (.value v) }) fun _ => rfl
      refine ⟨hr', he₁.trans he', ?_, hw₁.calm.trans (.of_history rfl rfl), ?_⟩
      · rintro x ⟨⟩
        exact hv.mono he'
      · rw [World.object_modifyObject, if_pos ⟨rfl, hid₁⟩, Properties.lookup_replace, if_pos rfl,
          there]
        rfl

theorem does_readObject {name : String} (code : AtCode g) (hid : id < w.objects.size) :
    Does R g false g (id.read name)
      (fun v w' => (∀ x, v = some x → x.Valid w') ∧
        w.ReadIn (w.object id).runtime (.property id name) (.ofValue? v) w' ∧
          (Read.property id name).Made w (.ofValue? v) w') w := by
  refine .get_bind ?_
  refine does_readKey hR (.property id name) (.property name)
    (fun (v : Option Value) w' => ∀ x, v = some x → x.Valid w') code hid rfl
    (fun _ h => by cases h) (fun _ h => by cases h) (fun _ => rfl)
    (fun v _ _ he hv x hx => (hv x hx).mono he) fun w₁ he₁ => ?_
  exact does_peekObject hR code (he₁.objects id hid).1

theorem does_contains {name : String} (code : AtCode g) (hid : id < w.objects.size) :
    Does R g false g (id.contains name)
      (fun found w' => w.ReadIn (w.object id).runtime (.contains id name) (.ofBool found) w' ∧
        (Read.contains id name).Made w (.ofBool found) w') w :=
  .get_bind <| does_seeKey hR (.contains id name) (.property name)
    (fun w => ((w.object id).properties.lookup name).isSome) .ofBool code hid rfl
    (fun _ h => by cases h) (fun _ h => by cases h) (fun _ => rfl) (fun _ => rfl)

theorem does_keys (code : AtCode g) (hid : id < w.objects.size) :
    Does R g false g id.keys
      (fun names w' =>
        w.ReadIn (w.object id).runtime (.names id) (.list (names.map .ofString)) w' ∧
          (Read.names id).Made w (.list (names.map .ofString)) w') w :=
  .get_bind <| does_seeKey hR (.names id) .shape (fun w => (w.object id).properties.names)
    (fun names => .list (names.map .ofString))
    code hid rfl (fun _ h => by cases h) (fun _ h => by cases h) (fun _ => rfl) (fun _ => rfl)

theorem does_lengthObject (code : AtCode g) (hid : id < w.objects.size) :
    Does R g false g id.length
      (fun n w' => w.ReadIn (w.object id).runtime (.size (.object id)) (.plain (.int n)) w' ∧
        (Read.size (.object id)).Made w (.plain (.int n)) w') w :=
  .get_bind <| does_seeKey hR (.size (.object id)) .shape
    (fun w => (w.object id).properties.length) (fun n => .plain (.int n))
    code hid rfl (fun _ h => by cases h) (fun _ h => by cases h) (fun _ => rfl) (fun _ => rfl)

theorem does_entries (code : AtCode g) (hid : id < w.objects.size) :
    Does R g false g id.entries
      (fun entries w' => (∀ p ∈ entries, p.2.Valid w') ∧
        w.ReadIn (w.object id).runtime (.entries id) (.ofEntries entries) w') w := by
  refine .get_bind ?_
  refine (does_track hR (w.object id).runtime (.object id) .shape code hid rfl
    (fun _ h => by cases h)).bind fun _ w₁ hr₁ he₁ hw₁ => ?_
  have hid₁ := (he₁.objects id hid).1
  have ho₁ := (hR.sane hr₁).world.objects id hid₁
  have hrt₁ : (w₁.object id).runtime = (w.object id).runtime := (he₁.objects id hid).2
  have hps₁ : (w₁.object id).properties = (w.object id).properties := by
    rw [hw₁]
    exact (World.SameContent.trackedIn ..).1 id
  have hmap := does_mapCells hR code (fun p : String × Cell => p.2) (fun p v => (p.1, v))
    (w.object id).properties (hrt₁ ▸ ho₁.1) (hps₁ ▸ ho₁.2.1)
  refine Does.bind hmap fun entries w₂ hr₂ he₂ ⟨⟨vs, hentries, hvs⟩, hw₂⟩ => ?_
  have hid₂ := (he₂.objects id hid₁).1
  have hps₂ : (w₂.object id).properties = (w.object id).properties := by
    rw [hw₂.objects id hid₁, hps₁]
  have hresolved := Properties.Resolved.zipWith hvs
  rw [← hentries, ← hps₂] at hresolved
  have hvalid : ∀ p ∈ entries, p.2.Valid w₂ := by
    intro p hp
    have hmem : (p.1, Cell.value p.2) ∈ entries.map fun p => (p.1, Cell.value p.2) :=
      List.mem_map.2 ⟨p, hp, rfl⟩
    rcases hresolved.cells _ hmem with hold | ⟨j, v, -, hv, -, hval⟩
    · exact ((hR.sane hr₂).world.objects id hid₂).2.1 _ hold
    · exact Cell.value.inj hv ▸ hval
  refine .step hR (do
      entries.forM fun x => track (w.object id).runtime (.object id) (.property x.1)
      noteRead (w.object id).runtime (.entries id) (.ofEntries entries)
      return entries) (.resolveObject code hresolved) rfl ?_
  have he₃ := World.Extends.modifyObject w₂ id
    (f := fun o => { o with properties := entries.map fun p => (p.1, .value p.2) }) fun _ => rfl
  have hps₃ := World.properties_modifyObject hid₂ (entries.map fun p => (p.1, .value p.2))
  have hcalm₃ : w₂.Calm (w₂.modifyObject id fun o =>
      { o with properties := entries.map fun p => (p.1, .value p.2) }) := .of_history rfl rfl
  generalize w₂.modifyObject id
    (fun o => { o with properties := entries.map fun p => (p.1, .value p.2) }) = w₃
    at he₃ hps₃ hcalm₃
  have he := he₁.trans (he₂.trans he₃)
  have hid₃ := (he.objects id hid).1
  have hrt₃ : (w₃.object id).runtime = (w.object id).runtime := (he.objects id hid).2
  refine (does_trackAll hR _ (.object id) (fun x : String × Value => .property x.1) code hid₃
    hrt₃ fun _ h => by cases h).bind fun _ w₄ hr₄ he₄ ⟨hcalm₄, hsame₄, htracked⟩ => ?_
  have hcalm : w₁.Calm w₃ := hw₂.calm.trans hcalm₃
  have hps₄ : (w₄.object id).properties = entries.map fun p => (p.1, .value p.2) := by
    rw [hsame₄.1 id, hps₃]
  have hreader : w₃.currentReader (w.object id).runtime = w.currentReader (w.object id).runtime := by
    rw [hcalm.currentReader, hw₁, (World.Calm.trackedIn ..).currentReader]
  refine (does_noteRead hR _ (.entries id) code (he₄.objects id hid₃).1
    ((he₄.objects id hid₃).2.trans hrt₃) (fun _ h => by cases h) (fun n hn key hkey => ?_)
    ?_).bind fun _ w₅ _ he₅ hnoted => .pure ⟨fun p hp => ?_, fun n hn => ?_⟩
  · rw [hcalm₄.currentReader] at hn
    rcases List.mem_cons.1 hkey with rfl | hkey
    · refine hcalm₄.mem_sinceStart (hcalm.mem_sinceStart ?_)
      rw [hw₁]
      exact World.mem_sinceStart_trackedIn (hreader ▸ hn)
    · obtain ⟨name, hname, rfl⟩ := List.mem_map.1 hkey
      rw [hps₄] at hname
      obtain ⟨q, hq, rfl⟩ := List.mem_map.1 hname
      obtain ⟨p, hp, rfl⟩ := List.mem_map.1 hq
      exact htracked n hn p hp
  · rw [Read.shown, hps₄, Properties.values?_eq_some.2 rfl]
    rfl
  · exact (hvalid p hp).mono ((he₃.trans he₄).trans he₅)
  · refine (hnoted n ?_).mono (he.trans he₄) (.refl w₅)
    rw [hcalm₄.currentReader, hreader, hn]

end Object

section Array

variable {R : Config → Prop} (hR : Closed R) {w : World} {g : List Frame} {id : ArrayId}

theorem World.modifyArray_congr {w : World} {id : ArrayId} (hid : id < w.arrays.size)
    (f f' : ArrayState → ArrayState) (h : f (w.array id) = f' (w.array id)) :
    w.modifyArray id f = w.modifyArray id f' := by
  have ho : w.array id = w.arrays[id] := by simp [World.array, hid]
  simp only [World.modifyArray]
  congr 1
  refine Array.ext (by simp) fun i _ _ => ?_
  simp only [Array.getElem_modify]
  split
  · next hi =>
    subst hi
    rw [← ho, h]
  · rfl

theorem World.cells_modifyArray {w : World} {id : ArrayId} (hid : id < w.arrays.size)
    {cells : List Cell} :
    ((w.modifyArray id fun a => { a with cells := cells }).array id).cells = cells := by
  rw [World.array_modifyArray, if_pos ⟨rfl, hid⟩]

theorem zipWith_right {α β : Type} {xs : List α} {ys : List β} (h : xs.length = ys.length) :
    List.zipWith (fun _ y => y) xs ys = ys := by
  induction xs generalizing ys with
  | nil => exact (List.length_eq_zero_iff.1 h.symm).symm
  | cons x xs ih =>
    cases ys with
    | nil => cases h
    | cons y ys => rw [List.zipWith_cons_cons, ih (Nat.succ.inj h)]

theorem Cell.Resolved.set {cells : List Cell} {i : Nat} {j : Json} {v : Value}
    (there : cells[i]? = some (.plain j)) (copies : w.Copies v j) (valid : v.Valid w) :
    List.Forall₂ (Cell.Resolved w) cells (cells.set i (.value v)) := by
  induction cells generalizing i with
  | nil => exact .nil
  | cons c cells ih =>
    cases i with
    | zero =>
      obtain rfl := Option.some.inj there
      exact .cons (.inr ⟨j, v, rfl, rfl, copies, valid⟩)
        (List.forall₂_same.2 fun _ _ => .inl rfl)
    | succ i => exact .cons (.inl rfl) (ih there)

include hR

theorem does_peekArray {i : Nat} (code : AtCode g) (hid : id < w.arrays.size) :
    Does R g false g (id.peek i)
      (fun v w' => (∀ x, v = some x → x.Valid w') ∧ w.Calm w' ∧
        Cell.shown? (w'.array id).cells[i]? = some (.ofValue? v)) w := by
  refine .intro fun hr => ?_
  have ha := (hR.sane hr).world.arrays id hid
  cases hc : (w.array id).cells[i]? with
  | none =>
    have hrun : (id.peek i).run w = (none, w) := by
      simp [ArrayId.peek, hc]
      rfl
    exact Does.of_run hrun ⟨fun _ hx => (nomatch hx), .refl w, by rw [hc]; rfl⟩
  | some cell =>
    have hcell := ha.2.1 _ (List.mem_of_getElem? hc)
    cases cell with
    | value v =>
      have hrun : (id.peek i).run w = (some v, w) := by
        simp [ArrayId.peek, hc]
        rfl
      refine Does.of_run hrun ⟨?_, .refl w, by rw [hc]; rfl⟩
      rintro x ⟨⟩
      exact hcell
    | plain j =>
      have hw := does_wrap hR (j := j) code ha.1 hr
      intro _
      have hrun : (id.peek i).run w =
          (some ((wrap (w.array id).runtime j).run w).1,
            ((wrap (w.array id).runtime j).run w).2.modifyArray id fun a =>
              { a with cells := a.cells.set i (.value ((wrap (w.array id).runtime j).run w).1) }) := by
        simp [ArrayId.peek, hc]
        rfl
      rw [hrun]
      generalize (wrap (w.array id).runtime j).run w = o at hw ⊢
      obtain ⟨v, w₁⟩ := o
      obtain ⟨hr₁, he₁, hv, hj, hw₁⟩ := hw
      have hid₁ := (he₁.arrays id hid).1
      have hcells : (w₁.array id).cells = (w.array id).cells := by rw [hw₁.arrays id hid]
      have there : (w₁.array id).cells[i]? = some (.plain j) := by rw [hcells, hc]
      have hr' := hR.step hr₁ (.resolveArray code (Cell.Resolved.set there (hj hcell) hv))
      have heq := World.modifyArray_congr hid₁
        (fun a => { a with cells := (w₁.array id).cells.set i (.value v) })
        (fun a => { a with cells := a.cells.set i (.value v) }) rfl
      rw [heq] at hr'
      have he' := World.Extends.modifyArray w₁ id
        (f := fun a => { a with cells := a.cells.set i (.value v) }) fun _ => rfl
      refine ⟨hr', he₁.trans he', ?_, hw₁.calm.trans (.of_history rfl rfl), ?_⟩
      · rintro x ⟨⟩
        exact hv.mono he'
      · rw [World.array_modifyArray, if_pos ⟨rfl, hid₁⟩, List.getElem?_set_self' , there]
        rfl

theorem does_readArray {i : Nat} (code : AtCode g) (hid : id < w.arrays.size) :
    Does R g false g (id.read i)
      (fun v w' => (∀ x, v = some x → x.Valid w') ∧
        w.ReadIn (w.array id).runtime (.slot id i) (.ofValue? v) w' ∧
          (Read.slot id i).Made w (.ofValue? v) w') w := by
  refine .get_bind ?_
  refine does_readKey hR (.slot id i) (.index i)
    (fun (v : Option Value) w' => ∀ x, v = some x → x.Valid w') code hid rfl
    (fun _ h => by cases h) (fun _ h => by cases h) (fun _ => rfl)
    (fun v _ _ he hv x hx => (hv x hx).mono he) fun w₁ he₁ => ?_
  exact does_peekArray hR code (he₁.arrays id hid).1

theorem does_lengthArray (code : AtCode g) (hid : id < w.arrays.size) :
    Does R g false g id.length
      (fun n w' => w.ReadIn (w.array id).runtime (.size (.array id)) (.plain (.int n)) w' ∧
        (Read.size (.array id)).Made w (.plain (.int n)) w') w :=
  .get_bind <| does_seeKey hR (.size (.array id)) .shape
    (fun w => (w.array id).cells.length) (fun n => .plain (.int n))
    code hid rfl (fun _ h => by cases h) (fun _ h => by cases h) (fun _ => rfl) (fun _ => rfl)

theorem does_contents (code : AtCode g) (hid : id < w.arrays.size) :
    Does R g false g id.contents
      (fun vs w' => (∀ v ∈ vs, v.Valid w') ∧ w.Calm w' ∧
        (w'.array id).cells = vs.map .value) w := by
  refine .intro fun hr => .get_bind ?_
  have ha := (hR.sane hr).world.arrays id hid
  have hmap := does_mapCells hR code (fun c : Cell => c) (fun _ v => v) (w.array id).cells ha.1 ha.2.1
  refine Does.bind hmap fun vs w₁ hr₁ he₁ ⟨⟨vs', hvs, hresolved⟩, hw₁⟩ => ?_
  have hid₁ := (he₁.arrays id hid).1
  obtain rfl : vs = vs' := by
    rw [hvs, zipWith_right hresolved.length_eq]
  have hcells : List.Forall₂ (Cell.Resolved w₁) (w₁.array id).cells (vs.map .value) := by
    rw [hw₁.arrays id hid]
    exact List.forall₂_map_right_iff.2 hresolved
  have he' := World.Extends.modifyArray w₁ id (f := fun a => { a with cells := vs.map .value })
    fun _ => rfl
  have hvalid : ∀ v ∈ vs, v.Valid w₁ := fun v hv =>
    forall_valid_of_forall₂ hcells ((hR.sane hr₁).world.arrays id hid₁).2.1 (.value v)
      (List.mem_map_of_mem hv)
  refine .step hR (return vs) (.resolveArray code hcells) rfl (.pure ⟨fun v hv => ?_, ?_, ?_⟩)
  · exact (hvalid v hv).mono he'
  · exact hw₁.calm.trans (.of_history rfl rfl)
  · exact World.cells_modifyArray hid₁

theorem does_values (code : AtCode g) (hid : id < w.arrays.size) :
    Does R g false g id.values
      (fun vs w' => (∀ v ∈ vs, v.Valid w') ∧
        w.ReadIn (w.array id).runtime (.values id) (.list (vs.map .value)) w') w := by
  refine .get_bind ?_
  refine (does_track hR (w.array id).runtime (.array id) .shape code hid rfl
    (fun _ h => by cases h)).bind fun _ w₁ hr₁ he₁ hw₁ => ?_
  have hid₁ := (he₁.arrays id hid).1
  refine (does_contents hR code hid₁).bind fun vs w₂ _ he₂ ⟨hvalid, hcalm, hcells⟩ => ?_
  have he := he₁.trans he₂
  have hid₂ := (he.arrays id hid).1
  have hrt₂ : (w₂.array id).runtime = (w.array id).runtime := (he.arrays id hid).2
  refine (does_trackAll hR _ (.array id) .index code hid₂ hrt₂
    fun _ h => by cases h).bind fun _ w₃ _ he₃ ⟨hcalm₃, hsame₃, htracked⟩ => ?_
  have hcells₃ : (w₃.array id).cells = vs.map .value := by rw [hsame₃.2 id, hcells]
  have hreader : w₂.currentReader (w.array id).runtime = w.currentReader (w.array id).runtime := by
    rw [hcalm.currentReader, hw₁, (World.Calm.trackedIn ..).currentReader]
  refine (does_noteRead hR _ (.values id) code (he₃.arrays id hid₂).1
    ((he₃.arrays id hid₂).2.trans hrt₂) (fun _ h => by cases h) (fun n hn key hkey => ?_)
    ?_).bind fun _ w₄ _ he₄ hnoted => .pure ⟨fun v hv => ?_, fun n hn => ?_⟩
  · rw [hcalm₃.currentReader] at hn
    rcases List.mem_cons.1 hkey with rfl | hkey
    · refine hcalm₃.mem_sinceStart (hcalm.mem_sinceStart ?_)
      rw [hw₁]
      exact World.mem_sinceStart_trackedIn (hreader ▸ hn)
    · obtain ⟨i, hi, rfl⟩ := List.mem_map.1 hkey
      rw [hcells₃, List.length_map] at hi
      exact htracked n hn i hi
  · rw [Read.shown, hcells₃, mapM_value?_eq_some.2 rfl]
    rfl
  · exact (hvalid v hv).mono (he₃.trans he₄)
  · refine (hnoted n ?_).mono (he.trans he₃) (.refl w₄)
    rw [hcalm₃.currentReader, hreader, hn]

end Array

end Reactivity
