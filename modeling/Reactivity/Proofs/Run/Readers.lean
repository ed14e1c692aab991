import Reactivity.Proofs.Run.Content
import Reactivity.Proofs.Run.History

namespace Reactivity

instance (w : World) (h : Handle) : Decidable (h.Valid w) :=
  match h with
  | .object id => inferInstanceAs (Decidable (id < w.objects.size))
  | .array id => inferInstanceAs (Decidable (id < w.arrays.size))
  | .memo n => inferInstanceAs (Decidable ((w.memo? n).isSome = true))

namespace World

section Readers

variable (w : World)

theorem readers_modifyReaders (h h' : Handle) (f : Readers → Readers) :
    (w.modifyReaders h f).readers h' = if h' = h ∧ h.Valid w then f (w.readers h) else w.readers h' := by
  cases h with
  | object id =>
    cases h' with
    | object id' =>
      simp only [modifyReaders, readers, object_modifyObject, Handle.object.injEq, Handle.Valid]
      grind
    | _ => exact (if_neg (by simp)).symm
  | array id =>
    cases h' with
    | array id' =>
      simp only [modifyReaders, readers, array_modifyArray, Handle.array.injEq, Handle.Valid]
      grind
    | _ => exact (if_neg (by simp)).symm
  | memo n =>
    cases h' with
    | memo n' =>
      simp only [modifyReaders, readers, memo?_modifyMemo, Handle.memo.injEq, Handle.Valid]
      cases hn : w.memo? n <;> grind
    | _ => exact (if_neg (by simp)).symm

theorem readers_modifySources (m : NodeId) (f : List (Handle × Key) → List (Handle × Key))
    (h : Handle) : (w.modifySources m f).readers h = w.readers h := by
  cases h with
  | memo n =>
    simp only [readers, memo?_modifySources]
    split
    · cases w.memo? n <;> rfl
    · rfl
  | _ => rfl

theorem readers_modifyEffect (m : NodeId) (f : Effect → Effect) (h : Handle) :
    (w.modifyEffect m f).readers h = w.readers h := by
  cases h with
  | memo n => rw [readers, memo?_modifyEffect, readers]
  | _ => rfl

theorem readers_modifyMemo (m : NodeId) {f : Memo → Memo} (hf : ∀ m, (f m).readers = m.readers)
    (h : Handle) : (w.modifyMemo m f).readers h = w.readers h := by
  cases h with
  | memo n =>
    simp only [readers, memo?_modifyMemo]
    split
    · cases hn : w.memo? n with
      | none => rfl
      | some m => exact hf m
    · rfl
  | _ => rfl

theorem readers_modifyObject (id : ObjectId) {f : ObjectState → ObjectState}
    (hf : ∀ o, (f o).readers = o.readers) (h : Handle) :
    (w.modifyObject id f).readers h = w.readers h := by
  cases h with
  | object id' =>
    simp only [readers, object_modifyObject]
    split
    · exact hf _
    · rfl
  | _ => rfl

theorem readers_modifyArray (id : ArrayId) {f : ArrayState → ArrayState}
    (hf : ∀ a, (f a).readers = a.readers) (h : Handle) :
    (w.modifyArray id f).readers h = w.readers h := by
  cases h with
  | array id' =>
    simp only [readers, array_modifyArray]
    split
    · exact hf _
    · rfl
  | _ => rfl

theorem readers_pushNode {node : Node} (h : ∀ m, node = .memo m → m.readers = []) (x : Handle) :
    (w.pushNode node).readers x = w.readers x := by
  cases x with
  | memo n =>
    simp only [readers, memo?_pushNode]
    split
    · next hn =>
      have hnone : w.memo? n = none := by
        by_contra hm
        exact Nat.ne_of_lt (lt_of_memo? (Option.isSome_iff_ne_none.2 hm)) hn
      cases node with
      | effect e => rw [hnone]
      | memo m => rw [hnone, Option.elim_none, Option.elim_some, h m rfl]
    · rfl
  | _ => rfl

theorem readers_pushObject {o : ObjectState} (h : o.readers = []) (x : Handle) :
    World.readers { w with objects := w.objects.push o } x = w.readers x := by
  cases x with
  | object id =>
    simp only [readers, object, Array.getElem?_push]
    split
    · next hid => simp [hid, h]; rfl
    · rfl
  | _ => rfl

theorem readers_pushArray {a : ArrayState} (h : a.readers = []) (x : Handle) :
    World.readers { w with arrays := w.arrays.push a } x = w.readers x := by
  cases x with
  | array id =>
    simp only [readers, array, Array.getElem?_push]
    split
    · next hid => simp [hid, h]; rfl
    · rfl
  | _ => rfl

end Readers

section Sources

variable (w : World)

theorem sources_modifyReaders (h : Handle) (f : Readers → Readers) (n : NodeId) :
    (w.modifyReaders h f).sources n = w.sources n := by
  cases h with
  | memo m =>
    simp only [sources, modifyReaders, modifyMemo, Array.getElem?_modify]
    by_cases hmn : m = n
    · rw [if_pos hmn]
      cases w.nodes[n]? with
      | none => rfl
      | some node => cases node <;> rfl
    · rw [if_neg hmn]
  | _ => rfl

theorem sources_modifySources (m n : NodeId) (f : List (Handle × Key) → List (Handle × Key)) :
    (w.modifySources m f).sources n =
      if m = n ∧ n < w.nodes.size then f (w.sources n) else w.sources n := by
  simp only [sources, modifySources, Array.getElem?_modify]
  by_cases h : m = n
  · subst h
    by_cases hm : m < w.nodes.size
    · rw [if_pos rfl, if_pos ⟨rfl, hm⟩, Array.getElem?_eq_getElem hm]
      cases w.nodes[m] <;> rfl
    · rw [if_pos rfl, if_neg (fun h => hm h.2), Array.getElem?_eq_none (Nat.le_of_not_lt hm)]
      rfl
  · rw [if_neg h, if_neg (fun h' => h h'.1)]

theorem sources_modifyEffect (m n : NodeId) {f : Effect → Effect}
    (hf : ∀ e, (f e).sources = e.sources) : (w.modifyEffect m f).sources n = w.sources n := by
  simp only [sources, modifyEffect, Array.getElem?_modify]
  by_cases hmn : m = n
  · rw [if_pos hmn]
    cases w.nodes[n]? with
    | none => rfl
    | some node =>
      cases node with
      | effect e => exact hf e
      | memo x => rfl
  · rw [if_neg hmn]

theorem sources_modifyMemo (m n : NodeId) {f : Memo → Memo}
    (hf : ∀ x, (f x).sources = x.sources) : (w.modifyMemo m f).sources n = w.sources n := by
  simp only [sources, modifyMemo, Array.getElem?_modify]
  by_cases hmn : m = n
  · rw [if_pos hmn]
    cases w.nodes[n]? with
    | none => rfl
    | some node =>
      cases node with
      | effect e => rfl
      | memo x => exact hf x
  · rw [if_neg hmn]

theorem sources_pushNode (node : Node) {n : NodeId} (h : n < w.nodes.size) :
    (w.pushNode node).sources n = w.sources n := by
  simp only [sources, pushNode, Array.getElem?_push, Nat.ne_of_lt h, if_false]

end Sources

end World

end Reactivity
