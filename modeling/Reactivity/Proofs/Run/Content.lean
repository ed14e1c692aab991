import Reactivity.Proofs.Run.Sanity

namespace Reactivity

def Effect.bare (e : Effect) : Effect :=
  { e with sources := [] }

/-- A memo apart from what it is registered on and who is registered on it. -/
def Memo.bare (m : Memo) : Memo :=
  { m with sources := [], readers := [] }

theorem Effect.of_bare {e e' : Effect} (h : e'.bare = e.bare) :
    e' = { e with sources := e'.sources } := by
  cases e
  cases e'
  simp only [bare, mk.injEq] at h ⊢
  simp [h]

theorem Memo.of_bare {m m' : Memo} (h : m'.bare = m.bare) :
    m' = { m with sources := m'.sources, readers := m'.readers } := by
  cases m
  cases m'
  simp only [bare, mk.injEq] at h ⊢
  simp [h]

namespace World

def SameContent (w w' : World) : Prop :=
  (∀ id, (w'.object id).properties = (w.object id).properties) ∧
    ∀ id, (w'.array id).cells = (w.array id).cells

namespace SameContent

variable {w w' w'' : World}

theorem refl (w : World) : w.SameContent w :=
  ⟨fun _ => rfl, fun _ => rfl⟩

theorem trans (h : w.SameContent w') (h' : w'.SameContent w'') : w.SameContent w'' :=
  ⟨fun id => (h'.1 id).trans (h.1 id), fun id => (h'.2 id).trans (h.2 id)⟩

theorem of_eq (ho : w'.objects = w.objects) (ha : w'.arrays = w.arrays) : w.SameContent w' :=
  ⟨fun id => by rw [object, object, ho], fun id => by rw [array, array, ha]⟩

theorem modifyReaders (w : World) (h : Handle) (f : Readers → Readers) :
    w.SameContent (w.modifyReaders h f) := by
  cases h with
  | object id =>
    refine ⟨fun j => ?_, fun _ => rfl⟩
    rw [World.modifyReaders, object_modifyObject]
    split <;> rfl
  | array id =>
    refine ⟨fun _ => rfl, fun j => ?_⟩
    rw [World.modifyReaders, array_modifyArray]
    split <;> rfl
  | memo n => exact of_eq rfl rfl

theorem trackedBy (w : World) (n : NodeId) (h : Handle) (key : Key) :
    w.SameContent (w.trackedBy n h key) := by
  rw [World.trackedBy]
  split
  · exact of_eq rfl rfl
  · exact (modifyReaders (w.note (.tracked n h key)) h _).trans (of_eq rfl rfl)

theorem trackedIn (w : World) (rt : RuntimeId) (h : Handle) (key : Key) :
    w.SameContent (w.trackedIn rt h key) := by
  rw [World.trackedIn]
  split
  · exact refl w
  · exact trackedBy w _ h key

theorem removeReaders (w : World) (n : NodeId) (ps : List (Handle × Key)) :
    w.SameContent (ps.foldl (fun w p => w.modifyReaders p.1 (·.remove p.2 n)) w) := by
  induction ps generalizing w with
  | nil => exact refl w
  | cons p ps ih => exact (modifyReaders w p.1 _).trans (ih _)

theorem clearedOf (w : World) (n : NodeId) : w.SameContent (w.clearedOf n) :=
  removeReaders _ n _

theorem taken (w : World) (h : Handle) (key : Key) : w.SameContent (w.taken h key) :=
  modifyReaders _ h _

theorem requested (w : World) (rt : RuntimeId) : w.SameContent (w.requested rt) := by
  rw [World.requested]
  split <;> exact of_eq rfl rfl

theorem queuedIn (w : World) (rt : RuntimeId) (n : NodeId) : w.SameContent (w.queuedIn rt n) := by
  rw [World.queuedIn]
  split
  · exact of_eq rfl rfl
  · exact requested _ rt

theorem computing (w : World) (n : NodeId) (rt : RuntimeId) : w.SameContent (w.computing n rt) :=
  clearedOf w n

theorem gotBy (w : World) (reader : Option NodeId) (n : NodeId) (r : Result) :
    w.SameContent (w.gotBy reader n r) := by
  cases reader <;> exact of_eq rfl rfl

theorem running (w : World) (n : NodeId) (rt : RuntimeId) : w.SameContent (w.running n rt) :=
  clearedOf w n

theorem disposing (w : World) (n : NodeId) : w.SameContent (w.disposing n) :=
  clearedOf (w.modifyEffect n fun e => { e with disposed := true }) n

end SameContent

theorem memo?_eq_none_of_effect? {w : World} {n : NodeId} (h : (w.effect? n).isSome) :
    w.memo? n = none := by
  rw [effect?] at h
  rw [memo?]
  split at h
  · next e he => rw [he]
  · cases h

/-- The nodes of the graph are the same, apart from what they are registered on and who is
registered on them. -/
def SameNodes (w w' : World) : Prop :=
  (∀ n, (w'.effect? n).map Effect.bare = (w.effect? n).map Effect.bare) ∧
    ∀ n, (w'.memo? n).map Memo.bare = (w.memo? n).map Memo.bare

namespace SameNodes

variable {w w' w'' : World}

theorem refl (w : World) : w.SameNodes w :=
  ⟨fun _ => rfl, fun _ => rfl⟩

theorem trans (h : w.SameNodes w') (h' : w'.SameNodes w'') : w.SameNodes w'' :=
  ⟨fun n => (h'.1 n).trans (h.1 n), fun n => (h'.2 n).trans (h.2 n)⟩

theorem of_eq (h : w'.nodes = w.nodes) : w.SameNodes w' :=
  ⟨fun n => by rw [effect?, effect?, h], fun n => by rw [memo?, memo?, h]⟩

theorem modifyReaders (w : World) (h : Handle) (f : Readers → Readers) :
    w.SameNodes (w.modifyReaders h f) := by
  cases h with
  | object id => exact of_eq rfl
  | array id => exact of_eq rfl
  | memo m =>
    refine ⟨fun n => ?_, fun n => ?_⟩
    · rw [World.modifyReaders, effect?_modifyMemo]
    · rw [World.modifyReaders, memo?_modifyMemo]
      split
      · cases w.memo? n <;> rfl
      · rfl

theorem modifySources (w : World) (m : NodeId) (f : List (Handle × Key) → List (Handle × Key)) :
    w.SameNodes (w.modifySources m f) := by
  refine ⟨fun n => ?_, fun n => ?_⟩
  · rw [effect?_modifySources]
    split
    · cases w.effect? n <;> rfl
    · rfl
  · rw [memo?_modifySources]
    split
    · cases w.memo? n <;> rfl
    · rfl

theorem trackedBy (w : World) (n : NodeId) (h : Handle) (key : Key) :
    w.SameNodes (w.trackedBy n h key) := by
  rw [World.trackedBy]
  split
  · exact of_eq rfl
  · exact (of_eq rfl : w.SameNodes (w.note _)).trans ((modifyReaders _ h _).trans (modifySources ..))

theorem trackedIn (w : World) (rt : RuntimeId) (h : Handle) (key : Key) :
    w.SameNodes (w.trackedIn rt h key) := by
  rw [World.trackedIn]
  split
  · exact refl w
  · exact trackedBy w _ h key

theorem removeReaders (w : World) (n : NodeId) (ps : List (Handle × Key)) :
    w.SameNodes (ps.foldl (fun w p => w.modifyReaders p.1 (·.remove p.2 n)) w) := by
  induction ps generalizing w with
  | nil => exact refl w
  | cons p ps ih => exact (modifyReaders w p.1 _).trans (ih _)

theorem clearedOf (w : World) (n : NodeId) : w.SameNodes (w.clearedOf n) :=
  (of_eq rfl : w.SameNodes (w.note (.cleared n))).trans
    ((modifySources _ n _).trans (removeReaders _ n _))

theorem taken (w : World) (h : Handle) (key : Key) : w.SameNodes (w.taken h key) :=
  modifyReaders _ h _

theorem memo? (h : w.SameNodes w') {n : NodeId} {m : Memo} (hm : w.memo? n = some m) :
    ∃ m', w'.memo? n = some m' ∧ m'.bare = m.bare := by
  have := h.2 n
  rw [hm, Option.map_some] at this
  exact Option.map_eq_some_iff.1 this

theorem effect? (h : w.SameNodes w') {n : NodeId} {e : Effect} (he : w.effect? n = some e) :
    ∃ e', w'.effect? n = some e' ∧ e'.bare = e.bare := by
  have := h.1 n
  rw [he, Option.map_some] at this
  exact Option.map_eq_some_iff.1 this

theorem isDisposed (h : w.SameNodes w') (n : NodeId) : w'.isDisposed n = w.isDisposed n := by
  have hd (x : World) : x.isDisposed n = ((x.effect? n).map Effect.bare).any (·.disposed) := by
    rw [World.isDisposed, Option.any_map]
    rfl
  rw [hd, hd, h.1 n]

theorem symm (h : w.SameNodes w') : w'.SameNodes w :=
  ⟨fun n => (h.1 n).symm, fun n => (h.2 n).symm⟩

end SameNodes

theorem isDisposed_disposing (w : World) {n : NodeId} (h : (w.effect? n).isSome) :
    (w.disposing n).isDisposed n := by
  obtain ⟨e, he⟩ := Option.isSome_iff_exists.1 h
  rw [disposing, (SameNodes.clearedOf _ n).isDisposed, isDisposed, effect?_modifyEffect,
    if_pos rfl, he]
  rfl

end World

end Reactivity
