import Reactivity.Proofs.Registration.Mirroring
import Reactivity.Proofs.Updates.Sparing
import Mathlib

namespace Reactivity

namespace World

def DirtyUnread (w : World) : Prop :=
  ∀ n, w.isDirty n → w.readers (.memo n) = []

def ReadByValue (w : World) : Prop :=
  ∀ n, ∀ p ∈ w.readers (.memo n), p.1 = .value

theorem SameNodes.isDirty {w w' : World} (h : w.SameNodes w') (n : NodeId) :
    w'.isDirty n = w.isDirty n := by
  cases hm : w.memo? n with
  | none =>
    have hnone := h.2 n
    rw [hm, Option.map_none, Option.map_eq_none_iff] at hnone
    rw [World.isDirty, World.isDirty, hm, hnone]
  | some m =>
    obtain ⟨m', hm', hb⟩ := h.memo? hm
    rw [World.isDirty, World.isDirty, hm, hm', Memo.of_bare hb]
    rfl

theorem isDirty_modifyMemo (w : World) (m n : NodeId) {f : Memo → Memo}
    (hf : ∀ x, (f x).dirty = x.dirty) : (w.modifyMemo m f).isDirty n = w.isDirty n := by
  rw [isDirty, isDirty, memo?_modifyMemo]
  split
  · cases w.memo? n with
    | none => rfl
    | some x => exact hf x
  · rfl

theorem isDirty_madeDirty_of_ne (w : World) {n m : NodeId} (h : m ≠ n) :
    (w.madeDirty n).isDirty m = w.isDirty m := by
  rw [isDirty, madeDirty, memo?_modifyMemo, if_neg (Ne.symm h), isDirty]

theorem readers_madeDirty (w : World) (n : NodeId) (h : Handle) :
    (w.madeDirty n).readers h = w.readers h := by
  rw [madeDirty, readers_modifyMemo]
  exact fun _ => rfl

theorem readers_pushContext (w : World) (rt : RuntimeId) (reader : Option NodeId) (h : Handle) :
    (w.pushContext rt reader).readers h = w.readers h := by
  cases h <;> rfl

theorem readers_computing (w : World) (n : NodeId) (rt : RuntimeId) (h : Handle) :
    (w.computing n rt).readers h = (w.clearedOf n).readers h := by
  rw [computing, readers_note, readers_pushContext, readers_modifyMemo]
  exact fun _ => rfl

theorem isDirty_computing (w : World) (n m : NodeId) (rt : RuntimeId) :
    (w.computing n rt).isDirty m = if n = m then false else w.isDirty m := by
  have hd : (w.computing n rt).isDirty m =
      ((w.clearedOf n).modifyMemo n fun m => { m with dirty := false }).isDirty m := rfl
  rw [hd, isDirty, memo?_modifyMemo]
  split
  · cases (w.clearedOf n).memo? m <;> rfl
  · exact (SameNodes.clearedOf w n).isDirty m

theorem isDirty_eq_of_memo? {w : World} {n : NodeId} {m : Memo} (h : w.memo? n = some m) :
    w.isDirty n = m.dirty := by
  rw [isDirty, h]
  rfl

/-- `w.Tame w'`: no memo that was clean is dirty, and nobody is newly registered on a memo. -/
structure Tame (w w' : World) : Prop where
  readers : ∀ n, (w'.readers (.memo n)).Sublist (w.readers (.memo n))
  dirty : ∀ n, w'.isDirty n → w.isDirty n ∨ w'.readers (.memo n) = []

namespace Tame

variable {w w' w'' : World}

theorem of_nodes (h : w'.nodes = w.nodes) : w.Tame w' where
  readers n := by
    rw [World.readers, World.readers, memo?, memo?, h]
  dirty n hn := by
    rw [isDirty, memo?, h] at hn
    exact .inl hn

theorem refl (w : World) : w.Tame w :=
  of_nodes rfl

theorem trans (h : w.Tame w') (h' : w'.Tame w'') : w.Tame w'' where
  readers n := (h'.readers n).trans (h.readers n)
  dirty n hn := by
    rcases h'.dirty n hn with hd | hd
    · refine (h.dirty n hd).imp_right fun he => ?_
      exact List.sublist_nil.1 (he ▸ h'.readers n)
    · exact .inr hd

theorem of_sameNodes (h : w.SameNodes w')
    (hr : ∀ n, (w'.readers (.memo n)).Sublist (w.readers (.memo n))) : w.Tame w' where
  readers := hr
  dirty n hn := .inl (h.isDirty n ▸ hn)

theorem modifyEffect (w : World) (n : NodeId) (f : Effect → Effect) :
    w.Tame (w.modifyEffect n f) where
  readers m := w.readers_modifyEffect n f (.memo m) ▸ .refl _
  dirty m hm := by
    rw [isDirty, memo?_modifyEffect] at hm
    exact .inl hm

theorem modifyMemo (w : World) (n : NodeId) {f : Memo → Memo}
    (hf : ∀ m, (f m).readers = m.readers ∧ (f m).dirty = m.dirty) : w.Tame (w.modifyMemo n f) where
  readers m := w.readers_modifyMemo n (fun x => (hf x).1) (.memo m) ▸ .refl _
  dirty m hm := .inl (w.isDirty_modifyMemo n m (fun x => (hf x).2) ▸ hm)

theorem pushNode (w : World) {node : Node} (h : ∀ m, node = .memo m → m.readers = []) :
    w.Tame (w.pushNode node) where
  readers n := w.readers_pushNode h (.memo n) ▸ .refl _
  dirty n hn := by
    by_cases hlt : n < w.nodes.size
    · rw [isDirty, memo?_pushNode, if_neg (Nat.ne_of_lt hlt)] at hn
      exact .inl hn
    · refine .inr ?_
      have hnone : w.memo? n = none := by
        by_contra hm
        exact hlt (lt_of_memo? (Option.isSome_iff_ne_none.2 hm))
      rw [readers_pushNode w h, World.readers, hnone]
      rfl

theorem trackedBy (w : World) (n : NodeId) {h : Handle} (hh : ∀ m, h ≠ .memo m) (key : Key) :
    w.Tame (w.trackedBy n h key) := by
  refine of_sameNodes (.trackedBy w n h key) fun m => ?_
  rw [World.trackedBy]
  split
  · exact .refl _
  · rw [readers_modifySources, readers_modifyReaders, if_neg fun he => hh m he.1.symm]
    exact .refl _

theorem clearedOf (w : World) (n : NodeId) : w.Tame (w.clearedOf n) :=
  of_sameNodes (.clearedOf w n) fun m => readers_clearedOf_sublist n w (.memo m)

theorem taken (w : World) (h : Handle) (key : Key) : w.Tame (w.taken h key) :=
  of_sameNodes (.taken w h key) fun m => (Quiet.taken w h key).readers (.memo m)

theorem madeDirty {n : NodeId} {m : Memo} (hm : w.memo? n = some m) (hd : m.dirty) :
    w.Tame (w.madeDirty n) where
  readers x := w.readers_madeDirty n (.memo x) ▸ .refl _
  dirty x hx := by
    by_cases hxn : x = n
    · exact .inl (hxn ▸ (isDirty_eq_of_memo? hm).trans hd)
    · exact .inl (w.isDirty_madeDirty_of_ne hxn ▸ hx)

theorem computed (w : World) (n : NodeId) (rt : RuntimeId) (r : Result) :
    w.Tame (w.computed n rt r) := by
  rw [World.computed]
  refine trans (of_nodes ?_) (modifyMemo _ n fun _ => ⟨rfl, rfl⟩)
  rfl

theorem gotBy (w : World) (reader : Option NodeId) (n : NodeId) (r : Result) :
    w.Tame (w.gotBy reader n r) := by
  cases reader <;> exact of_nodes rfl

theorem running (w : World) (n : NodeId) (rt : RuntimeId) : w.Tame (w.running n rt) := by
  have hc : w.Tame ((w.clearedOf n).pushContext rt (some n)) := (clearedOf w n).trans (of_nodes rfl)
  rw [World.running]
  refine trans (hc.trans (modifyEffect _ n fun e => { e with running := true })) (of_nodes ?_)
  rfl

theorem stopped (w : World) (n : NodeId) (rt : RuntimeId) : w.Tame (w.stopped n rt) := by
  rw [World.stopped]
  exact trans (modifyEffect w n fun e => { e with running := false }) (of_nodes rfl)

theorem ran (w : World) (n : NodeId) (rt : RuntimeId) : w.Tame (w.ran n rt) := by
  have hf : w.Tame ((w.modifyEffect n fun e => { e with running := false }).note (.finished n)) :=
    (modifyEffect w n fun e => { e with running := false }).trans (of_nodes rfl)
  rw [World.ran]
  refine trans (hf.trans (modifyEffect _ n fun e => { e with runCount := e.runCount + 1 }))
    (of_nodes ?_)
  rfl

theorem disposing (w : World) (n : NodeId) : w.Tame (w.disposing n) := by
  rw [World.disposing]
  exact trans (modifyEffect w n _) (clearedOf _ n)

theorem cleaning (w : World) (n : NodeId) (rt : RuntimeId) : w.Tame (w.cleaning n rt) := by
  rw [World.cleaning]
  exact trans (modifyEffect w n _) (of_nodes rfl)

theorem withStore (w : World) (state : ObjectId) : w.Tame (w.withStore state) := by
  rw [World.withStore]
  refine trans (of_nodes ?_) (pushNode _ (by simp))
  rfl

theorem dirtyUnread (h : w.Tame w') (hw : w.DirtyUnread) : w'.DirtyUnread := by
  intro n hn
  rcases h.dirty n hn with hd | hd
  · exact List.sublist_nil.1 (hw n hd ▸ h.readers n)
  · exact hd

theorem readByValue (h : w.Tame w') (hw : w.ReadByValue) : w'.ReadByValue :=
  fun n p hp => hw n p ((h.readers n).subset hp)

end Tame

theorem mem_readers_trackedIn (w : World) {rt : RuntimeId} {h x : Handle} {key : Key}
    {p : Key × NodeId} (hp : p ∈ (w.trackedIn rt h key).readers x) :
    p ∈ w.readers x ∨ x = h ∧ p.1 = key := by
  rw [trackedIn] at hp
  split at hp
  · exact .inl hp
  · rw [trackedBy] at hp
    split at hp
    · rw [readers_note] at hp
      exact .inl hp
    · rw [readers_modifySources, readers_modifyReaders] at hp
      simp only [readers_note] at hp
      split at hp
      · next hx =>
        rcases List.mem_append.1 hp with hp | hp
        · exact .inl (hx.1 ▸ hp)
        · exact .inr ⟨hx.1, by rw [List.mem_singleton.1 hp]⟩
      · exact .inl hp

theorem ReadByValue.trackedIn {w : World} (hw : w.ReadByValue) (rt : RuntimeId) (n : NodeId) :
    (w.trackedIn rt (.memo n) .value).ReadByValue :=
  fun m p hp => (w.mem_readers_trackedIn hp).elim (hw m p) (·.2)

theorem readers_trackedIn_of_ne (w : World) (rt : RuntimeId) {n m : NodeId} (h : m ≠ n) :
    ∀ p ∈ (w.trackedIn rt (.memo n) .value).readers (.memo m), p ∈ w.readers (.memo m) :=
  fun _ hp => (w.mem_readers_trackedIn hp).resolve_right fun he => h (Handle.memo.inj he.1)

theorem DirtyUnread.beginCompute {w : World} (hw : w.DirtyUnread) (rt rt' : RuntimeId)
    (n : NodeId) : ((w.trackedIn rt (.memo n) .value).computing n rt').DirtyUnread := by
  intro m hm
  rw [isDirty_computing, (SameNodes.trackedIn w rt (.memo n) .value).isDirty] at hm
  split at hm
  · cases hm
  · next hnm =>
    refine List.eq_nil_iff_forall_not_mem.2 fun p hp => ?_
    rw [readers_computing] at hp
    have hp' := w.readers_trackedIn_of_ne rt (Ne.symm hnm) p
      ((readers_clearedOf_sublist n _ (.memo m)).subset hp)
    rw [hw m hm] at hp'
    cases hp'

theorem DirtyUnread.reuse {w : World} (hw : w.DirtyUnread) (rt : RuntimeId) {n : NodeId} {m : Memo}
    (hm : w.memo? n = some m) (hd : m.dirty = false) :
    (w.trackedIn rt (.memo n) .value).DirtyUnread := by
  intro x hx
  have hx' : w.isDirty x := (SameNodes.trackedIn w rt (.memo n) .value).isDirty x ▸ hx
  have hne : x ≠ n := by
    rintro rfl
    rw [isDirty_eq_of_memo? hm, hd] at hx'
    cases hx'
  refine List.eq_nil_iff_forall_not_mem.2 fun p hp => ?_
  have hp' := w.readers_trackedIn_of_ne rt hne p hp
  rw [hw x hx'] at hp'
  cases hp'

end World

def Taking (n : NodeId) : List Frame → Prop
  | .writing _ (.memo m) (.value :: _) :: _ => m = n
  | _ => False

theorem AtCode.not_taking {g : List Frame} (h : AtCode g) (n : NodeId) : ¬ Taking n g := by
  cases g with
  | nil => exact id
  | cons f g => cases f <;> first | exact h.elim | exact id

/-- Nobody is registered on a dirty memo whose readers are not about to be taken from it. -/
structure Config.Unread (c : Config) : Prop where
  dirty : ∀ n, c.world.isDirty n → c.world.readers (.memo n) = [] ∨
    c.unwinding = false ∧ Taking n c.stack
  value : c.world.ReadByValue

namespace Config.Unread

variable {w w' : World} {g g' : List Frame} {u u' : Bool}

theorem dirtyUnread (h : Config.Unread ⟨w, g, u⟩) (hg : u = true ∨ ∀ n, ¬ Taking n g) :
    w.DirtyUnread := by
  intro n hn
  refine (h.dirty n hn).resolve_right fun ⟨hu, ht⟩ => ?_
  rcases hg with rfl | hg
  · cases hu
  · exact hg n ht

theorem of_dirtyUnread (h : w.DirtyUnread) (hv : w.ReadByValue) : Config.Unread ⟨w, g, u⟩ where
  dirty n hn := .inl (h n hn)
  value := hv

theorem tame (h : Config.Unread ⟨w, g, u⟩) (hg : u = true ∨ ∀ n, ¬ Taking n g) (ht : w.Tame w') :
    Config.Unread ⟨w', g', u'⟩ :=
  of_dirtyUnread (ht.dirtyUnread (h.dirtyUnread hg)) (ht.readByValue h.value)

theorem stay (h : Config.Unread ⟨w, g, u⟩) (ht : w.Tame w') : Config.Unread ⟨w', g, u⟩ where
  dirty n hn := by
    rcases ht.dirty n hn with hd | hd
    · refine (h.dirty n hd).imp_left fun he => ?_
      exact List.sublist_nil.1 (he ▸ ht.readers n)
    · exact .inl hd
  value := ht.readByValue h.value

theorem madeDirty (h : w.DirtyUnread) (hv : w.ReadByValue) (n : NodeId) (rt : RuntimeId)
    {keys : List Key} :
    Config.Unread ⟨w.madeDirty n, .writing rt (.memo n) (.value :: keys) :: g, false⟩ where
  dirty m hm := by
    by_cases hmn : m = n
    · exact .inr ⟨rfl, hmn.symm⟩
    · refine .inl ((w.readers_madeDirty n _).trans (h m ?_))
      exact w.isDirty_madeDirty_of_ne hmn ▸ hm
  value m p hp := hv m p (w.readers_madeDirty n _ ▸ hp)

theorem taken {rt : RuntimeId} {h : Handle} {key : Key} {keys : List Key}
    (hc : Config.Unread ⟨w, .writing rt h (key :: keys) :: g, false⟩) :
    Config.Unread ⟨w.taken h key, g', u'⟩ := by
  have ht := World.Tame.taken w h key
  refine of_dirtyUnread (fun n hn => ?_) (ht.readByValue hc.value)
  rcases ht.dirty n hn with hd | hd
  · rcases hc.dirty n hd with he | ⟨-, hm⟩
    · exact List.sublist_nil.1 (he ▸ ht.readers n)
    · have hh : h = .memo n ∧ key = .value := by
        cases h <;> cases key <;> first | exact hm.elim | exact ⟨congrArg _ hm, rfl⟩
      obtain ⟨rfl, rfl⟩ := hh
      rw [World.taken, World.readers_modifyReaders, World.readers_note]
      have hnil : (w.readers (.memo n)).clear .value = [] := by
        rw [Readers.clear, List.filter_eq_nil_iff]
        intro p hp
        simp [hc.value n p hp]
      split
      · exact hnil
      · next hv =>
        refine List.eq_nil_iff_forall_not_mem.2 fun p hp => hv ⟨rfl, ?_⟩
        exact World.valid_of_mem_readers hp
  · exact hd

end Config.Unread

theorem Aside.tame {w w' : World} (h : Aside w w') : w.Tame w' := by
  cases h with
  | cancel sub _ =>
    obtain ⟨_, _, h⟩ := w.cancelled_eq sub
    exact .of_nodes (by rw [h])
  | _ => exact .of_nodes rfl

theorem Edit.tame {w w' : World} {write : Write} (h : Edit w write w') : w.Tame w' := by
  cases h <;> exact .of_nodes rfl

/-- A step registers nobody on a dirty memo, and makes no memo dirty that somebody is registered on
without going on to take its readers from it; unless bodies are nested too deeply for that. -/
theorem Step.unread {c c' : Config} (h : Step c c') (hc : c.Unread)
    (he : .exhausted ∉ c'.world.history) : c'.Unread := by
  have code {g : List Frame} {u : Bool} (h : AtCode g) : u = true ∨ ∀ n, ¬ Taking n g :=
    .inr h.not_taking
  cases h with
  | aside h => exact hc.stay h.tame
  | track hg _ _ container _ => exact hc.tame (code hg) (.trackedBy _ _ container _)
  | see hg _ _ _ _ _ _ => exact hc.tame (code hg) (.of_nodes rfl)
  | newObject hg _ _ => exact hc.tame (code hg) (.of_nodes rfl)
  | newArray hg _ _ => exact hc.tame (code hg) (.of_nodes rfl)
  | resolveObject hg _ => exact hc.tame (code hg) (.of_nodes rfl)
  | resolveArray hg _ => exact hc.tame (code hg) (.of_nodes rfl)
  | write hg _ _ edit => exact hc.tame (code hg) edit.tame
  | beginChange hg _ _ _ => exact hc.tame (code hg) (.of_nodes rfl)
  | endChange _ _ => exact hc.tame (.inr fun _ => id) (.of_nodes rfl)
  | abandonChange => exact hc.tame (.inl rfl) (.of_nodes rfl)
  | trigger => exact hc.taken
  | @written w g rt h => exact hc.tame (.inr fun _ ht => by cases h <;> exact ht) (.refl w)
  | told => exact hc.tame (.inr fun _ => id) (.refl _)
  | tellDisposed _ => exact hc.tame (.inr fun _ => id) (.refl _)
  | tellQueued _ _ => exact hc.tame (.inr fun _ => id) (.refl _)
  | tellEffect _ _ => exact hc.tame (.inr fun _ => id) (.of_nodes (World.nodes_queuedIn _ _ _))
  | tellDirty memo dirty => exact hc.tame (.inr fun _ => id) (.madeDirty memo dirty)
  | @tellClean w g rt n ns m _ _ =>
    exact .madeDirty (hc.dirtyUnread (.inr fun _ => id)) hc.value n rt
  | schedule hg _ _ _ _ _ => exact hc.tame (code hg) (.of_nodes (World.nodes_queuedIn _ _ _))
  | markDirty hg memo dirty =>
    refine hc.tame (code hg) ((World.Tame.of_nodes ?_).trans (.madeDirty memo dirty))
    rfl
  | @markClean w g n m hg _ _ _ =>
    have ht : w.Tame (w.note (.dirtied n)) := .of_nodes rfl
    exact .madeDirty (ht.dirtyUnread (hc.dirtyUnread (code hg))) (ht.readByValue hc.value) n _
  | newMemo hg _ _ =>
    refine hc.tame (code hg) (.pushNode _ ?_)
    rintro m ⟨⟩
    rfl
  | @reuse w g n m r hg memo clean _ _ =>
    have ht : (w.trackedIn m.runtime (.memo n) .value).Tame
        ((w.trackedIn m.runtime (.memo n) .value).note (.recalled n)) := .of_nodes rfl
    have hd := (hc.dirtyUnread (code hg)).reuse m.runtime memo clean
    exact .of_dirtyUnread (ht.dirtyUnread hd) (ht.readByValue (hc.value.trackedIn m.runtime n))
  | @beginCompute w g n m hg _ _ _ =>
    refine .of_dirtyUnread ((hc.dirtyUnread (code hg)).beginCompute m.runtime m.runtime n) ?_
    intro x p hp
    rw [World.readers_computing] at hp
    exact hc.value.trackedIn m.runtime n x p
      ((World.readers_clearedOf_sublist n _ (.memo x)).subset hp)
  | endCompute _ _ _ => exact hc.tame (.inr fun _ => id) (.computed _ _ _ _)
  | abandonCompute => exact hc.tame (.inl rfl) (.of_nodes rfl)
  | endReading _ _ => exact hc.tame (.inr fun _ => id) (.gotBy _ _ _ _)
  | newEffect hg _ _ _ _ => exact hc.tame (code hg) (.pushNode _ (by simp))
  | newStore hg _ _ => exact hc.tame (code hg) (.withStore _ _)
  | addCleanup hg _ _ _ _ _ =>
    refine hc.tame (code hg) ((World.Tame.of_nodes ?_).trans (.modifyEffect _ _ _))
    rfl
  | beginCleaning _ => exact hc.tame (.inr fun _ => id) (.cleaning _ _ _)
  | endCleaning => exact hc.tame (.inr fun _ => id) (.of_nodes rfl)
  | abandonCleaning _ => exact hc.tame (.inl rfl) (.of_nodes rfl)
  | skipPending _ => exact hc.tame (.inr fun _ => id) (.refl _)
  | clearRunning _ _ => exact hc.tame (.inr fun _ => id) (.clearedOf _ _)
  | beginRun _ _ _ turn =>
    rcases turn with ⟨rfl, -⟩ | ⟨rfl, -⟩
    · exact hc.tame (.inr fun _ => id) (.running _ _ _)
    · exact hc.tame (.inr fun _ => id) (.running _ _ _)
  | endRun _ => exact hc.tame (.inr fun _ => id) (.ran _ _ _)
  | beginWatch _ _ => exact hc.tame (.inr fun _ => id) (.refl _)
  | advance _ => exact hc.tame (.inr fun _ => id) (.of_nodes rfl)
  | keep _ _ _ => exact hc.tame (.inr fun _ => id) (.modifyEffect _ _ _)
  | endReport => exact hc.tame (.inr fun _ => id) (.refl _)
  | watched _ _ _ => exact hc.tame (.inr fun _ => id) (.refl _)
  | prime _ _ => exact hc.tame (.inr fun _ => id) (.modifyEffect _ _ _)
  | skipPass _ _ _ => exact hc.tame (.inr fun _ => id) (.refl _)
  | watchPass _ _ _ _ => exact hc.tame (.inr fun _ => id) (.of_nodes rfl)
  | watchPostpone _ _ _ => exact hc.tame (.inr fun _ => id) (.of_nodes rfl)
  | endWatch _ => exact hc.tame (.inr fun _ => id) (.ran _ _ _)
  | abandonRun => exact hc.tame (.inl rfl) (.stopped _ _ _)
  | dispose hg _ _ _ => exact hc.tame (code hg) ((World.Tame.disposing _ _).trans (.cleaning _ _ _))
  | retire _ => exact hc.stay ((World.Tame.disposing _ _).trans (.of_nodes rfl))
  | mask hg _ _ => exact hc.tame (code hg) (.of_nodes rfl)
  | unmask => exact hc.tame (.inr fun _ => id) (.of_nodes rfl)
  | beginPass hg _ _ _ => exact hc.tame (code hg) (.of_nodes rfl)
  | endPass => exact hc.tame (.inr fun _ => id) (.of_nodes rfl)
  | postpone hg _ _ => exact hc.tame (code hg) (.of_nodes rfl)
  | settle _ => exact hc.tame (.inr fun _ => id) (.refl _)
  | forgo _ => exact hc.tame (.inr fun _ => id) (.of_nodes rfl)
  | takeUp _ _ _ => exact hc.tame (.inr fun _ => id) (.of_nodes rfl)
  | passOver _ => exact hc.tame (.inr fun _ => id) (.refl _)
  | beginCall _ _ _ | greet _ _ => exact hc.tame (.inr fun _ => id) (.of_nodes rfl)
  | subscribe hg _ _ _ => exact hc.tame (code hg) (.of_nodes rfl)
  | endCall => exact hc.tame (.inr fun _ => id) (.of_nodes rfl)
  | newRuntime hg => exact hc.tame (code hg) (.of_nodes rfl)
  | @beginFlush w g rt hg _ _ _ =>
    refine hc.tame ?_ (.of_nodes rfl)
    rcases hg with hg | ⟨hg, -⟩
    · exact code hg
    · cases g with
      | nil => exact hg.elim
      | cons f g => cases f <;> first | exact hg.elim | exact .inr fun _ => id
  | beginRound _ => exact hc.tame (.inr fun _ => id) (.of_nodes rfl)
  | giveUp _ frames =>
    refine hc.tame (.inr ?_) (.of_nodes rfl)
    rcases frames with rfl | ⟨rfl, -⟩ <;> exact fun _ => id
  | skipTurn _ => exact hc.tame (.inr fun _ => id) (.refl _)
  | beginTurn _ => exact hc.tame (.inr fun _ => id) (.of_nodes rfl)
  | endRound => exact hc.tame (.inr fun _ => id) (.refl _)
  | endFlush _ => exact hc.tame (.inr fun _ => id) (.of_nodes rfl)
  | throw hg => exact hc.tame (code hg) (.of_nodes rfl)
  | exhaust _ => exact absurd (List.mem_cons_self ..) he
  | drop _ => exact hc.tame (.inl rfl) (.refl _)
  | resume => exact hc.tame (.inl rfl) (.refl _)

theorem Reaches.unread {settings : Settings} {hook : Hook} {c : Config}
    (h : Reaches (.start settings hook) c) (he : .exhausted ∉ c.world.history) : c.Unread := by
  induction h with
  | refl =>
    refine .of_dirtyUnread (fun n hn => ?_) fun n p hp => ?_
    · simp [World.start, World.isDirty, World.memo?] at hn
    · simp [World.start, World.readers, World.memo?] at hp
  | tail _ step ih =>
    exact step.unread (ih fun hm => he (step.extends.history.subset hm)) he

/-- Wherever the program's own code may run, and wherever a node is told of a change or a hook is
asked for a flush, nobody is registered on a dirty memo. -/
theorem Reaches.dirtyUnread {settings : Settings} {hook : Hook} {c : Config}
    (h : Reaches (.start settings hook) c) (hc : AtCode c.stack ∨ AtTelling c.stack)
    (he : .exhausted ∉ c.world.history) : c.world.DirtyUnread := by
  intro n hn
  refine ((h.unread he).dirty n hn).resolve_right fun ⟨_, ht⟩ => ?_
  rcases hc with hc | hc
  · exact hc.not_taking n ht
  · obtain ⟨w, g, u⟩ := c
    cases g with
    | nil => exact hc
    | cons f g => cases f <;> first | exact hc | exact ht

theorem World.madeDirty_of_isDirty {w : World} {n : NodeId} (h : w.isDirty n) :
    w.madeDirty n = w := by
  have nodes : (w.madeDirty n).nodes = w.nodes := by
    refine Array.ext_getElem? fun i => ?_
    rw [madeDirty, modifyMemo, Array.getElem?_modify]
    split
    · next hni =>
      subst hni
      rw [isDirty, memo?] at h
      cases hn : w.nodes[n]? with
      | none => rfl
      | some node =>
        cases node with
        | effect e => rfl
        | memo m =>
          have hd : m.dirty = true := by simpa [hn] using h
          simp [← hd]
    · rfl
  exact congrArg (fun nodes => { w with nodes := nodes }) nodes

theorem run_notifyNode_of_isDirty (k : Kernel) (rt : RuntimeId) {w : World} {n : NodeId}
    (h : w.isDirty n) : (notifyNode k rt n).run.run w = (.ok (), w) := by
  obtain ⟨m, hm, hd⟩ : ∃ m, w.nodes[n]? = some (.memo m) ∧ m.dirty = true := by
    rw [World.isDirty, World.memo?] at h
    split at h
    · next m hm => exact ⟨m, hm, h⟩
    · cases h
  have hrun : (notifyNode k rt n).run.run w = (.ok (), w.madeDirty n) := by
    simp only [notifyNode, Act.run_get_bind, hm, Act.run_modify_bind, hd, Bool.not_true,
      Bool.false_eq_true, if_false]
    rfl
  rw [hrun, World.madeDirty_of_isDirty h]

/-- A dirty memo has no readers, whatever a program does: it may read memos in memos, write or
throw in them, and flush in a hook. So where a dirty memo that is notified does nothing, passing
the trigger on would tell nobody. The same holds in the middle of a trigger, where nodes are being
told. -/
theorem dirty_memos_unread (settings : Settings) (hook : Hook) :
    (∀ depth es, Throughout settings hook depth es fun w => .exhausted ∉ w.history →
      w.DirtyUnread ∧ ∀ (k : Kernel) rt n, w.isDirty n →
        (notifyNode k rt n).run.run w = (.ok (), w) ∧
          ((takeReaders (.memo n) .value).run w).1 = []) ∧
      ∀ c, Reaches (.start settings hook) c → AtCode c.stack ∨ AtTelling c.stack →
        .exhausted ∉ c.world.history → c.world.DirtyUnread := by
  refine ⟨fun depth es => throughout_of_reaches (fun {c} hreach _ hcode he => ?_) depth es,
    fun c hreach hc he => hreach.dirtyUnread hc he⟩
  have hd := hreach.dirtyUnread (hcode.imp_right (·.1)) he
  refine ⟨hd, fun k rt n hn => ⟨run_notifyNode_of_isDirty k rt hn, ?_⟩⟩
  change (c.world.readers (.memo n)).on .value = []
  rw [hd n hn]
  rfl

def dirtying : List Expr :=
  [.assign "o" (.apply .wrapObject [.literal (.object [])]),
   .assign "m" (.memo (.path true (.var "o") [.literal (.string "a")])),
   .effect (.apply .readMemo [.var "m"]),
   .container .set (.var "o") [.literal (.string "a"), .literal .null]]

theorem history_dirtying : (World.after .standard .manual 3 dirtying).history =
    [.triggered (.object 0) .shape, .requested 0, .queued 0 1, .triggered (.memo 0) .value,
      .triggered (.object 0) (.property "a"), .wrote (.property 0 "a" none (some .null)),
      .finished 1, .got 0 .nothing, .saw 1 (.memo 0) .nothing, .finished 0,
      .saw 0 (.property 0 "a") .nothing, .tracked 0 (.object 0) (.property "a"), .started 0,
      .cleared 0, .tracked 1 (.memo 0) .value, .started 1, .cleared 1, .cleanedUp 1, .bound "m", .bound "o",
      .wrapped []] := by
  cbv

/-- The memo is dirty then, and the effect that has read it is registered on it no more. -/
theorem dirty_memos_unread_dirtying :
    Throughout .standard .manual 3 dirtying (fun w => .exhausted ∉ w.history →
      w.DirtyUnread ∧ ∀ (k : Kernel) rt n, w.isDirty n →
        (notifyNode k rt n).run.run w = (.ok (), w) ∧
          ((takeReaders (.memo n) .value).run w).1 = []) ∧
    ∃ w, w = World.after .standard .manual 3 dirtying ∧ .exhausted ∉ w.history ∧ w.isDirty 0 ∧
      .tracked 1 (.memo 0) .value ∈ w.history :=
  ⟨(dirty_memos_unread .standard .manual).1 3 dirtying, _, rfl, by simp [history_dirtying],
    by cbv, by simp [history_dirtying]⟩

end Reactivity
