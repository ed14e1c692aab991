import Reactivity.Proofs.Arrays.Exactness
import Reactivity.Proofs.Registration.Dropping
import Reactivity.Proofs.Updates.Announced
import Reactivity.Proofs.Updates.Performing

namespace Reactivity

theorem Number.toJson_of_isZero {x : Number} (h : x.isZero) : x.toJson = .int 0 := by
  rw [isZero, Bool.and_eq_true, beq_iff_eq, beq_iff_eq] at h
  have hscale : x.scale = -1074 := by rw [scale, if_pos h.1]
  have hsignificand : x.significand = 0 := by rw [significand, if_pos h.1, h.2]
  have hfinite : x.isFinite = true := by simp [isFinite, h.1]
  rw [toJson, integer?, hfinite, hscale, hsignificand]
  generalize Nat.pow 2 (Int.natAbs (-1074)) = unit
  simp

theorem Number.toJson_of_isNaN {x : Number} (h : x.isNaN) : x.toJson = .null := by
  rw [isNaN, Bool.and_eq_true, Bool.not_eq_true'] at h
  simp [toJson, integer?, h.1]

theorem Number.toJson_of_same {x y : Number} (h : x.same y) : x.toJson = y.toJson := by
  simp only [same, Bool.or_eq_true, Bool.and_eq_true, beq_iff_eq] at h
  rcases h with (rfl | ⟨hx, hy⟩) | ⟨hx, hy⟩
  · rfl
  · rw [toJson_of_isZero hx, toJson_of_isZero hy]
  · rw [toJson_of_isNaN hx, toJson_of_isNaN hy]

theorem Value.eq_of_same {v v' : Value} (h : v.same v') (other : ∀ x, v ≠ .number x) : v' = v := by
  cases v with
  | number x => exact absurd rfl (other x)
  | _ => exact (eq_of_beq h).symm

theorem forall₂_of_same_entries {vs us : List (String × Value)}
    (h : (Result.ofEntries vs).same (.ofEntries us)) :
    List.Forall₂ (fun p q => p.1 = q.1 ∧ p.2.same q.2) vs us := by
  rw [Result.ofEntries, Result.ofEntries, Result.same, Result.sameItems_iff,
    List.forall₂_map_left_iff, List.forall₂_map_right_iff] at h
  refine h.imp fun p q hsame => ?_
  simpa [Result.same, Result.sameItems, Result.ofString, Value.same] using hsame

theorem sameValues_of_same_list {vs us : List Value}
    (h : (Result.list (vs.map .value)).same (.list (us.map .value))) : SameValues vs us := by
  rw [Result.same, Result.sameItems_iff, List.forall₂_map_left_iff, List.forall₂_map_right_iff] at h
  exact h

theorem map_eq_of_forall₂ {α β γ : Type} {R : α → β → Prop} {f : α → γ} {f' : β → γ} {xs : List α}
    {ys : List β} (h : List.Forall₂ R xs ys) (heq : ∀ x ∈ xs, ∀ y, R x y → f x = f' y) :
    xs.map f = ys.map f' := by
  induction h with
  | nil => rfl
  | cons hxy _ ih =>
    rw [List.map_cons, List.map_cons, heq _ (List.mem_cons_self ..) _ hxy,
      ih fun x hx => heq x (List.mem_cons_of_mem _ hx)]

def World.ShowAlike (w w' : World) (h : Handle) : Prop :=
  ∃ r r', h.whole.shown w = some r ∧ h.whole.shown w' = some r' ∧ r.same r'

theorem World.printed_number (w : World) (d : Nat) (x : Number) :
    w.printed d (.number x) = x.toJson := by
  cases d <;> rfl

theorem World.printed_eq_of_simple {w w' : World} {d d' : Nat} {v v' : Value} (same : v.same v')
    (simple : v.handle? = none) : w.printed d v = w'.printed d' v' := by
  cases v with
  | number x =>
    cases v' with
    | number y => rw [printed_number, printed_number, Number.toJson_of_same same]
    | _ => cases same
  | object id => cases simple
  | array id => cases simple
  | _ =>
    obtain rfl := Value.eq_of_same same fun x h => by cases h
    simp only [printed]

/-- Values are printed the same if all that the one holds shows the same, and the depths are enough
for it. -/
theorem World.printed_eq {w w' : World} {d d' : Nat} {v v' : Value} (same : v.same v')
    (alike : ∀ root ∈ v.handle?.toList, ∀ k h, w.Within root k h →
      k < d ∧ k < d' ∧ w.ShowAlike w' h) :
    w.printed d v = w'.printed d' v' := by
  induction d generalizing d' v v' with
  | zero =>
    cases hh : v.handle? with
    | none => exact World.printed_eq_of_simple same hh
    | some root =>
      exact absurd (alike root (Option.mem_toList.2 hh) 0 _ .root).1 (Nat.lt_irrefl 0)
  | succ d ih =>
    cases v with
    | object id =>
      obtain rfl := Value.eq_of_same same nofun
      obtain ⟨-, hd', r, r', hr, hr', hsame⟩ := alike _ (List.mem_singleton_self _) 0 _ .root
      obtain ⟨vs, -, rfl⟩ := Option.map_eq_some_iff.1 hr
      obtain ⟨us, -, rfl⟩ := Option.map_eq_some_iff.1 hr'
      obtain ⟨e, rfl⟩ : ∃ e, d' = e + 1 := ⟨d' - 1, by omega⟩
      rw [printed_object (properties_of_shown hr), printed_object (properties_of_shown hr')]
      refine congrArg Json.object (map_eq_of_forall₂ (forall₂_of_same_entries hsame) ?_)
      intro p hp q ⟨hname, hvalue⟩
      rw [hname, ih hvalue fun root hroot k h hin => ?_]
      have inner : root ∈ (Result.ofEntries vs).containers := by
        rw [Result.containers_ofEntries]
        exact List.mem_filterMap.2 ⟨p, hp, Option.mem_toList.1 hroot⟩
      obtain ⟨hk, hk', halike⟩ :=
        alike _ (List.mem_singleton_self _) (k + 1) h (.prepend hr inner hin)
      exact ⟨Nat.lt_of_succ_lt_succ hk, Nat.lt_of_succ_lt_succ hk', halike⟩
    | array id =>
      obtain rfl := Value.eq_of_same same nofun
      obtain ⟨-, hd', r, r', hr, hr', hsame⟩ := alike _ (List.mem_singleton_self _) 0 _ .root
      obtain ⟨vs, -, rfl⟩ := Option.map_eq_some_iff.1 hr
      obtain ⟨us, -, rfl⟩ := Option.map_eq_some_iff.1 hr'
      obtain ⟨e, rfl⟩ : ∃ e, d' = e + 1 := ⟨d' - 1, by omega⟩
      rw [printed_array (cells_of_shown hr), printed_array (cells_of_shown hr')]
      refine congrArg Json.array (map_eq_of_forall₂ (sameValues_of_same_list hsame) ?_)
      intro u hu u' hsame'
      refine ih hsame' fun root hroot k h hin => ?_
      have inner : root ∈ (Result.list (vs.map .value)).containers := by
        rw [Result.containers_values]
        exact List.mem_filterMap.2 ⟨u, hu, Option.mem_toList.1 hroot⟩
      obtain ⟨hk, hk', halike⟩ :=
        alike _ (List.mem_singleton_self _) (k + 1) h (.prepend hr inner hin)
      exact ⟨Nat.lt_of_succ_lt_succ hk, Nat.lt_of_succ_lt_succ hk', halike⟩
    | _ => exact World.printed_eq_of_simple same rfl

/-- A tracked read operation of a container. Serializing a value reads all that it holds. -/
inductive TrackedRead
  | direct (read : Read)
  | serialize (v : Value)

namespace TrackedRead

def perform (k : Kernel) : TrackedRead → Act Result
  | .direct read => read.perform k
  | .serialize v => return .plain (← (Reactivity.serialize v : Change Json))

def Valid (w : World) : TrackedRead → Prop
  | .direct read => read.handle.Valid w ∧ ∀ m, read.handle ≠ .memo m
  | .serialize v => v.Valid w

/-- `op.Registers w h key`: whoever makes the read is registered on the part of the container.
Serializing reads all of each container that it comes to. -/
def Registers (w : World) : TrackedRead → Handle → Key → Prop
  | .direct read, h, key => h = read.handle ∧ key ∈ read.keys w
  | .serialize v, h, key =>
    ∃ root ∈ v.handle?.toList, ∃ k, w.Within root k h ∧ key ∈ h.whole.keys w

/-- The read comes to an end: no container that is serialized lies within itself. -/
def Ends (w : World) : TrackedRead → Prop
  | .direct _ => True
  | .serialize v => ∀ root ∈ v.handle?.toList, ∀ k h, w.Within root k h → ∀ j, ¬ w.Within h (j + 1) h

end TrackedRead

section Made

variable {R : Config → Prop} {k : Kernel} {g : List Frame} {w : World}

theorem Does.perform {α : Type} {c : Change α} {f : α → Result} {Q : Result → World → Prop}
    (h : Does R g false g c (fun a w' => Q (f a) w') w) (hr : R ⟨w, g, false⟩) :
    ∃ r w', (do return f (← (c : Change α)) : Act Result).run.run w = (.ok r, w') ∧
      R ⟨w', g, false⟩ ∧ w.Extends w' ∧ Q r w' := by
  obtain ⟨hr', he, hq⟩ := h hr
  exact ⟨_, _, rfl, hr', he, hq⟩

theorem Handle.handle_whole (h : Handle) : h.whole.handle = h := by
  cases h <;> rfl

theorem World.Extends.containers_le {w w' : World} (h : w.Extends w') :
    w.objects.size + w.arrays.size ≤ w'.objects.size + w'.arrays.size := by
  have ho : w.objects.size ≤ w'.objects.size := by
    by_contra hlt
    exact Nat.lt_irrefl _ (h.objects _ (Nat.lt_of_not_le hlt)).1
  have ha : w.arrays.size ≤ w'.arrays.size := by
    by_contra hlt
    exact Nat.lt_irrefl _ (h.arrays _ (Nat.lt_of_not_le hlt)).1
  exact Nat.add_le_add ho ha

theorem World.ShowsWhole.made {w' : World} {h : Handle} {r : Result} (hs : w.ShowsWhole h r w')
    (hv : h.Valid w) (handle : h.whole.handle = h) : h.whole.Made w r w' where
  shown := hs.shown
  registered n hn key hkey := by
    rw [handle, hs.reveals.currentReader, hs.reveals.grows.owner_eq hv] at hn
    exact handle.symm ▸ hs.tracked n hn key hkey

/-- A read of a container gives something, and whoever makes it is registered on what it reads. -/
theorem Read.made (hR : Closed R) (code : AtCode g) {read : Read} (valid : read.handle.Valid w)
    (container : ∀ m, read.handle ≠ .memo m) (hr : R ⟨w, g, false⟩) :
    ∃ r w', (read.perform k).run.run w = (.ok r, w') ∧ R ⟨w', g, false⟩ ∧ w.Extends w' ∧
      read.Made w r w' := by
  cases read with
  | property id name =>
    exact ((does_readObject hR code valid).mono fun _ _ _ _ h => h.2.2).perform hr
  | contains id name => exact ((does_contains hR code valid).mono fun _ _ _ _ h => h.2).perform hr
  | names id => exact ((does_keys hR code valid).mono fun _ _ _ _ h => h.2).perform hr
  | entries id =>
    refine Does.perform (((does_entries hR code valid).and_run
      (Q := fun entries w' => (Read.entries id).Made w (.ofEntries entries) w') ?_).mono
        fun _ _ _ _ h => h.2) hr
    exact (showsWhole_entries valid).made valid rfl
  | slot id i => exact ((does_readArray hR code valid).mono fun _ _ _ _ h => h.2.2).perform hr
  | values id =>
    refine Does.perform (((does_values hR code valid).and_run
      (Q := fun vs w' => (Read.values id).Made w (.list (vs.map .value)) w') ?_).mono
        fun _ _ _ _ h => h.2) hr
    exact (showsWhole_values valid).made valid rfl
  | size x =>
    cases x with
    | object id => exact ((does_lengthObject hR code valid).mono fun _ _ _ _ h => h.2).perform hr
    | array id => exact ((does_lengthArray hR code valid).mono fun _ _ _ _ h => h.2).perform hr
    | memo m => exact absurd rfl (container m)
  | memo m => exact absurd rfl (container m)

/-- Serializing gives what is printed of the value when all in it has been read, and whoever
serializes is registered on all of that. -/
theorem TrackedRead.serialized (hR : Closed R) (code : AtCode g) {v : Value} (valid : v.Valid w)
    (hr : R ⟨w, g, false⟩) :
    ∃ w', ((TrackedRead.serialize v).perform k).run.run w =
        (.ok (.plain (w'.printed (w.containerCount + 1) v)), w') ∧
      R ⟨w', g, false⟩ ∧ w.Extends w' ∧ w.Serialized (w.containerCount + 1) v.handle?.toList w' := by
  obtain ⟨hr', he, hser, hj⟩ := does_serialize hR code valid hr
  refine ⟨_, ?_, hr', he, hser⟩
  rw [← hj]
  rfl

/-- Whoever serializes a value is registered on all of each container that is come to. -/
theorem World.Serialized.registers {w' : World} {v : Value} (hs : w'.Sane) (valid : v.Valid w')
    (hser : w.Serialized (w.containerCount + 1) v.handle?.toList w') {h : Handle} {key : Key}
    (registers : (TrackedRead.serialize v).Registers w' h key) {n : NodeId}
    (reader : w'.currentReader (w'.owner h) = some n) : w.Adds w' (.tracked n h key) := by
  obtain ⟨root, hroot, k, hin, hkey⟩ := registers
  obtain ⟨j, hj, hin⟩ := hin.shorten hs (Value.valid_handle? valid (Option.mem_toList.1 hroot))
  have hle := w'.size_le_containerCount
  rw [hser.count] at hle
  exact hser.registered root hroot j h (by omega) hin n reader key hkey

theorem World.Serialized.shown {w' : World} {v : Value} (hs : w'.Sane) (valid : v.Valid w')
    (hser : w.Serialized (w.containerCount + 1) v.handle?.toList w') {root h : Handle} {k : Nat}
    (hroot : root ∈ v.handle?.toList) (hin : w'.Within root k h) :
    ∃ r, h.whole.shown w' = some r := by
  obtain ⟨j, hj, hin⟩ := hin.shorten hs (Value.valid_handle? valid (Option.mem_toList.1 hroot))
  have hle := w'.size_le_containerCount
  rw [hser.count] at hle
  exact (hser.seen root hroot j h (by omega) hin).1

end Made

/-- A tracked read gives a result, and registers whoever makes it. If, after whatever is done next, it
gives another result, then a part that it is registered on has been triggered, or a write was cut short
before it came to that. What lies within itself is never done being serialized. -/
theorem tracked_reads_cover_writes {settings : Settings} {hook : Hook} {w : World} {g : List Frame}
    (reached : Reaches (.start settings hook) ⟨w, g, false⟩) (code : AtCode g) (free : Free w g)
    (depth : Nat) {op : TrackedRead} (valid : op.Valid w) :
    ∃ r w₁, (op.perform (kernel depth)).run.run w = (.ok r, w₁) ∧
      (∀ h key, op.Registers w₁ h key → ∀ n, w₁.currentReader (w₁.owner h) = some n →
        w.Adds w₁ (.tracked n h key)) ∧
      (op.Ends w₁ → ∀ (env : Env) e outcome w₂, env.Valid w₁ →
        (eval (kernel depth) env e).run.run w₁ = (outcome, w₂) →
        ∃ r' w₃, (op.perform (kernel depth)).run.run w₂ = (.ok r', w₃) ∧
          (r.same r' ∨ ∃ h key, op.Registers w₁ h key ∧
            (w₁.Adds w₂ (.triggered h key) ∨ w₁.CutShort w₂ h key))) := by
  have hR := Closed.reaches (Config.start_sane settings hook)
  have frames := (hR.sane reached).frames
  cases op with
  | direct read =>
    obtain ⟨valid, container⟩ := valid
    obtain ⟨r, w₁, hrun, hr₁, he₁, hmade⟩ :=
      Read.made (k := kernel depth) hR code valid container reached
    refine ⟨r, w₁, hrun, fun h key ⟨hh, hkey⟩ n hn => ?_, fun _ env e outcome w₂ henv ran => ?_⟩
    · subst hh
      exact hmade.registered n hn key hkey
    have valid₁ := valid.mono he₁
    obtain ⟨he₂, hr₂, hcover⟩ :=
      kept_or_triggered hr₁ code (free.mono he₁ frames) henv depth e ran
    obtain ⟨r', w₃, hrun', -, -, -⟩ :=
      Read.made (k := kernel depth) hR code (valid₁.mono he₂) container hr₂
    refine ⟨r', w₃, hrun', (hcover read valid₁ container).imp (fun hkept => ?_) fun ⟨key, hk, ha⟩ => ?_⟩
    · obtain ⟨r'', hr'', hsame⟩ := hkept.shown r hmade.shown
      have hr'' := Read.run_perform hr'' depth
      rw [hrun'] at hr''
      exact Except.ok.inj hr'' ▸ hsame
    · exact ⟨read.handle, key, ⟨rfl, hk⟩, ha⟩
  | serialize v =>
    obtain ⟨w₁, hrun, hr₁, he₁, hser⟩ := TrackedRead.serialized (k := kernel depth) hR code valid reached
    have valid₁ : v.Valid w₁ := Value.Valid.mono he₁ valid
    have hs₁ := (hR.sane hr₁).world
    refine ⟨_, w₁, hrun, fun h key hreg n hn => hser.registers hs₁ valid₁ hreg hn,
      fun ends env e outcome w₂ henv ran => ?_⟩
    obtain ⟨he₂, hr₂, hcover⟩ :=
      kept_or_triggered hr₁ code (free.mono he₁ frames) henv depth e ran
    have valid₂ : v.Valid w₂ := Value.Valid.mono he₂ valid₁
    obtain ⟨w₃, hrun', hr₃, he₃, hser'⟩ := TrackedRead.serialized (k := kernel depth) hR code valid₂ hr₂
    refine ⟨_, w₃, hrun', or_iff_not_imp_right.2 fun hnone => ?_⟩
    have heq : w₁.printed (w.containerCount + 1) v = w₃.printed (w₂.containerCount + 1) v := by
      refine World.printed_eq v.same_refl fun root hroot k h hin => ?_
      have hroot' := Value.valid_handle? valid₁ (Option.mem_toList.1 hroot)
      have hk : k < w₁.objects.size + w₁.arrays.size :=
        hin.lt_of_acyclic hs₁ hroot' (ends root hroot)
      have hle₁ := w₁.size_le_containerCount
      have hle₂ := w₂.size_le_containerCount
      have hsize := he₂.containers_le
      rw [hser.count] at hle₁
      refine ⟨by omega, by omega, ?_⟩
      -- What the container shows is kept, because none of its parts has been triggered.
      obtain ⟨hvalid, container⟩ := hin.valid hs₁ hroot'
      obtain ⟨r, hr⟩ := hser.shown hs₁ valid₁ hroot hin
      have hkept : h.whole.Kept w₁ w₂ := by
        have handle := h.handle_whole
        refine (hcover h.whole (handle.symm ▸ hvalid) (handle.symm ▸ container)).resolve_right ?_
        rintro ⟨key, hkey, ha⟩
        exact hnone ⟨h, key, ⟨root, hroot, k, hin, hkey⟩, handle ▸ ha⟩
      obtain ⟨r', hr', hsame⟩ := hkept.shown r hr
      exact ⟨r, r', hr, hser'.reveals.shown (hvalid.mono he₂) container hr', hsame⟩
    rw [heq]
    exact Result.same_refl _

def nestedObject : List Expr :=
  withObject [writeProperty "x" (.apply .wrapObject [.literal (.object [])])]

def writeInner : Expr :=
  .container .set (readProperty "x") [.literal (.string "y"), .literal .null]

theorem World.Within.not_succ {w : World} {root h : Handle} {k : Nat} {r : Result}
    (shown : root.whole.shown w = some r) (leaf : r.containers = []) : ¬ w.Within root (k + 1) h := by
  intro hin
  obtain ⟨r', h', hr', hm, -⟩ := hin.outermost
  obtain rfl := Option.some.inj (shown.symm.trans hr')
  rw [leaf] at hm
  cases hm

/-- The inner object is written, and the JSON of the outer one is another one then. -/
theorem tracked_reads_cover_writes_nested :
    ∃ w₁ w₂, ((TrackedRead.serialize (.object 0)).perform (kernel 2)).run.run
        (World.after .standard .manual 2 nestedObject) =
          (.ok (.plain (.object [("x", .object [])])), w₁) ∧
      (eval (kernel 2) ⟨0, []⟩ writeInner).run.run w₁ = (.ok .nothing, w₂) ∧
      (((TrackedRead.serialize (.object 0)).perform (kernel 2)).run.run w₂).1 =
        .ok (.plain (.object [("x", .object [("y", .null)])])) ∧
      ∃ h key, (TrackedRead.serialize (.object 0)).Registers w₁ h key ∧
        (w₁.Adds w₂ (.triggered h key) ∨ w₁.CutShort w₂ h key) := by
  have hreach := reaches_after .standard .manual 2 nestedObject
  have hsize : (World.after .standard .manual 2 nestedObject).objects.size = 2 := by cbv
  have hread : (((TrackedRead.serialize (.object 0)).perform (kernel 2)).run.run
      (World.after .standard .manual 2 nestedObject)).1 =
        .ok (.plain (.object [("x", .object [])])) := by
    cbv
  have hruntimes : (((TrackedRead.serialize (.object 0)).perform (kernel 2)).run.run
      (World.after .standard .manual 2 nestedObject)).2.runtimes.size = 1 := by
    cbv
  have houter : (Handle.object 0).whole.shown (((TrackedRead.serialize (.object 0)).perform
      (kernel 2)).run.run (World.after .standard .manual 2 nestedObject)).2 =
        some (.ofEntries [("x", .object 1)]) := by
    cbv
  have hinner : (Handle.object 1).whole.shown (((TrackedRead.serialize (.object 0)).perform
      (kernel 2)).run.run (World.after .standard .manual 2 nestedObject)).2 =
        some (.ofEntries []) := by
    cbv
  have hwrite : ((eval (kernel 2) ⟨0, []⟩ writeInner).run.run
      (((TrackedRead.serialize (.object 0)).perform (kernel 2)).run.run
        (World.after .standard .manual 2 nestedObject)).2).1 = .ok .nothing := by
    cbv
  have hreread : (((TrackedRead.serialize (.object 0)).perform (kernel 2)).run.run
      ((eval (kernel 2) ⟨0, []⟩ writeInner).run.run
        (((TrackedRead.serialize (.object 0)).perform (kernel 2)).run.run
          (World.after .standard .manual 2 nestedObject)).2).2).1 =
        .ok (.plain (.object [("x", .object [("y", .null)])])) := by
    cbv
  generalize World.after .standard .manual 2 nestedObject = w at *
  have hvalid : (TrackedRead.serialize (.object 0)).Valid w := by
    change 0 < w.objects.size
    rw [hsize]
    exact Nat.two_pos
  obtain ⟨r, w₁, hrun, -, hcover⟩ := tracked_reads_cover_writes hreach trivial trivial 2 hvalid
  rw [hrun] at hread hruntimes houter hinner hwrite hreread
  obtain rfl := Except.ok.inj hread
  have leaf (j : Nat) (h : Handle) : ¬ w₁.Within (.object 1) (j + 1) h :=
    World.Within.not_succ hinner rfl
  have inside {k : Nat} {h : Handle} (hin : w₁.Within (.object 0) (k + 1) h) : h = .object 1 := by
    obtain ⟨r, h', hr, hm, hin⟩ := hin.outermost
    obtain rfl := Option.some.inj (houter.symm.trans hr)
    obtain rfl : h' = .object 1 := List.mem_singleton.1 hm
    cases k with
    | zero => cases hin; rfl
    | succ k => exact absurd hin (leaf k h)
  have ends : (TrackedRead.serialize (.object 0)).Ends w₁ := by
    intro root hroot k h hin j hcycle
    obtain rfl : root = .object 0 := List.mem_singleton.1 hroot
    cases k with
    | zero =>
      cases hin
      cases inside hcycle
    | succ k =>
      obtain rfl := inside hin
      exact leaf j _ hcycle
  generalize hstep : (eval (kernel 2) ⟨0, []⟩ writeInner).run.run w₁ = o at hwrite hreread
  obtain ⟨outcome, w₂⟩ := o
  obtain rfl : outcome = .ok .nothing := hwrite
  refine ⟨w₁, w₂, hrun, hstep, hreread, ?_⟩
  obtain ⟨r', w₃, hrun', hsame | hkey⟩ :=
    hcover ends ⟨0, []⟩ writeInner _ w₂ ⟨hruntimes ▸ Nat.one_pos, fun _ h => by cases h⟩ hstep
  · rw [hrun'] at hreread
    obtain rfl := Except.ok.inj hreread
    cases hsame
  · exact hkey

set_option maxRecDepth 4000 in
/-- A property is added, but after it has been triggered the hook flushes and throws: the shape, which
whoever has read the names is registered on, is not triggered any more. -/
theorem names_cut_short :
    ∃ w₁ w₂, ((TrackedRead.direct (.names 0)).perform (kernel 3)).run.run
        (World.after .standard .flush 3 (withObject [.effect (breakOn "x")])) =
          (.ok (.list []), w₁) ∧
      (eval (kernel 3) ⟨0, []⟩ (writeProperty "x" (.literal .null))).run.run w₁ =
        (.error (.thrown "broken"), w₂) ∧
      (((TrackedRead.direct (.names 0)).perform (kernel 3)).run.run w₂).1 =
        .ok (.list [.ofString "x"]) ∧
      (Result.list []).same (.list [.ofString "x"]) = false ∧
      ∀ h key, (TrackedRead.direct (.names 0)).Registers w₁ h key →
        ¬ w₁.Adds w₂ (.triggered h key) := by
  have hread : (((TrackedRead.direct (.names 0)).perform (kernel 3)).run.run
      (World.after .standard .flush 3 (withObject [.effect (breakOn "x")]))).1 =
        .ok (.list []) := by
    cbv
  have hwrite : ((eval (kernel 3) ⟨0, []⟩ (writeProperty "x" (.literal .null))).run.run
      (((TrackedRead.direct (.names 0)).perform (kernel 3)).run.run
        (World.after .standard .flush 3 (withObject [.effect (breakOn "x")]))).2).1 =
        .error (.thrown "broken") := by
    cbv
  have hreread : (((TrackedRead.direct (.names 0)).perform (kernel 3)).run.run
      ((eval (kernel 3) ⟨0, []⟩ (writeProperty "x" (.literal .null))).run.run
        (((TrackedRead.direct (.names 0)).perform (kernel 3)).run.run
          (World.after .standard .flush 3 (withObject [.effect (breakOn "x")]))).2).2).1 =
        .ok (.list [.ofString "x"]) := by
    cbv
  have hhistory : ((eval (kernel 3) ⟨0, []⟩ (writeProperty "x" (.literal .null))).run.run
      (((TrackedRead.direct (.names 0)).perform (kernel 3)).run.run
        (World.after .standard .flush 3
          (withObject [.effect (breakOn "x")]))).2).2.history.filterMap Event.triggered? =
        [(.object 0, .property "x")] := by
    cbv
  refine ⟨_, _, Prod.ext hread rfl, Prod.ext hwrite rfl, hreread, rfl, fun h key hreg ha => ?_⟩
  obtain ⟨rfl, hkey⟩ := hreg
  obtain rfl : key = .shape := List.mem_singleton.1 hkey
  obtain ⟨new, hnew, hm⟩ := ha
  have hp : (Handle.object 0, Key.shape) ∈ ((eval (kernel 3) ⟨0, []⟩
      (writeProperty "x" (.literal .null))).run.run
      (((TrackedRead.direct (.names 0)).perform (kernel 3)).run.run
        (World.after .standard .flush 3
          (withObject [.effect (breakOn "x")]))).2).2.history.filterMap Event.triggered? :=
    List.mem_filterMap.2 ⟨_, hnew ▸ List.mem_append_left _ hm, rfl⟩
  rw [hhistory] at hp
  simp at hp

end Reactivity
