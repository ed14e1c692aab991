import Reactivity.Proofs.Run.Logic
import Mathlib.Data.List.Sort

namespace Reactivity

/-- A comparison that says whether the first value comes strictly before the second is consistent:
of two values not both come before the other, and not coming after one another is transitive. -/
structure Consistent {α : Type} (lt : α → α → Bool) : Prop where
  asymm : ∀ x y, lt x y → lt y x = false
  trans : ∀ x y z, lt y x = false → lt z y = false → lt z x = false

def notAfter {α : Type} (lt : α → α → Bool) (x y : α) : Bool :=
  !lt y x

def ranked {α : Type} (lt : α → α → Bool) (x : α) (xs : List α) : List α :=
  xs.filter fun y => notAfter lt x y && notAfter lt y x

/-- Puts a value into a list that is sorted backwards, behind all that do not come after it. -/
def placed {α : Type} (lt : α → α → Bool) (x : α) : List α → List α
  | [] => [x]
  | y :: ys => if lt x y then y :: placed lt x ys else x :: y :: ys

def sortedBy {α : Type} (lt : α → α → Bool) (xs : List α) : List α :=
  (xs.foldl (fun sorted x => placed lt x sorted) []).reverse

theorem mem_placed {α : Type} {lt : α → α → Bool} {x z : α} {ys : List α}
    (hm : z ∈ placed lt x ys) : z = x ∨ z ∈ ys := by
  induction ys with
  | nil => exact .inl (List.mem_singleton.1 hm)
  | cons y ys ih =>
    rw [placed] at hm
    split at hm
    · rcases List.mem_cons.1 hm with rfl | hm
      · exact .inr (List.mem_cons_self ..)
      · exact (ih hm).imp_right (List.mem_cons_of_mem y)
    · exact List.mem_cons.1 hm

namespace Consistent

variable {α : Type} {lt : α → α → Bool} (h : Consistent lt)
include h

theorem notAfter_trans (x y z : α) (hxy : notAfter lt x y) (hyz : notAfter lt y z) :
    notAfter lt x z := by
  simp only [notAfter, Bool.not_eq_true'] at hxy hyz ⊢
  exact h.trans x y z hxy hyz

theorem notAfter_total (x y : α) : notAfter lt x y || notAfter lt y x := by
  cases hyx : lt y x with
  | false => simp [notAfter, hyx]
  | true => simp [notAfter, h.asymm y x hyx]

theorem notAfter_refl (x : α) : notAfter lt x x := by
  simpa using h.notAfter_total x x

/-- A sorted list is determined by the values of each rank in their order. -/
theorem eq_of_ranked {xs ys : List α} (hx : xs.Pairwise (notAfter lt · ·))
    (hy : ys.Pairwise (notAfter lt · ·)) (same : ∀ x, ranked lt x xs = ranked lt x ys) : xs = ys := by
  -- A value of the one list stands in the other among those of its rank.
  have mem {xs ys : List α} (same : ∀ x, ranked lt x xs = ranked lt x ys) {x : α} (hm : x ∈ xs) :
      x ∈ ys := by
    have hr : x ∈ ranked lt x xs := List.mem_filter.2 ⟨hm, by simp [h.notAfter_refl x]⟩
    rw [same] at hr
    exact (List.mem_filter.1 hr).1
  induction xs generalizing ys with
  | nil =>
    cases ys with
    | nil => rfl
    | cons y ys => exact nomatch mem (fun x => (same x).symm) (List.mem_cons_self ..)
  | cons x xs ih =>
    cases ys with
    | nil => exact nomatch mem same (List.mem_cons_self ..)
    | cons y ys =>
      have hxy : notAfter lt x y := by
        rcases List.mem_cons.1 (mem (fun x => (same x).symm) (List.mem_cons_self ..)) with rfl | hm
        · exact h.notAfter_refl y
        · exact List.rel_of_pairwise_cons hx hm
      have hyx : notAfter lt y x := by
        rcases List.mem_cons.1 (mem same (List.mem_cons_self ..)) with rfl | hm
        · exact h.notAfter_refl x
        · exact List.rel_of_pairwise_cons hy hm
      obtain rfl : x = y := by
        have hs := same x
        rw [ranked, ranked, List.filter_cons_of_pos (by simp [h.notAfter_refl x]),
          List.filter_cons_of_pos (by simp [hxy, hyx])] at hs
        exact (List.cons.inj hs).1
      refine congrArg (x :: ·) (ih hx.of_cons hy.of_cons fun z => ?_)
      have hs := same z
      rw [ranked, ranked, List.filter_cons, List.filter_cons] at hs
      split at hs
      · exact (List.cons.inj hs).2
      · exact hs

theorem ranked_mergeSort (x : α) (xs : List α) :
    ranked lt x (xs.mergeSort (notAfter lt)) = ranked lt x xs := by
  have hsorted : (ranked lt x xs).Pairwise (notAfter lt · ·) := by
    refine List.pairwise_of_forall_mem_list fun y hy z hz => ?_
    have hy := (List.mem_filter.1 hy).2
    have hz := (List.mem_filter.1 hz).2
    rw [Bool.and_eq_true] at hy hz
    exact h.notAfter_trans y x z hy.2 hz.1
  have hsub : (ranked lt x xs).Sublist (xs.mergeSort (notAfter lt)) :=
    List.sublist_mergeSort h.notAfter_trans h.notAfter_total hsorted List.filter_sublist
  have hsub := hsub.filter fun y => notAfter lt x y && notAfter lt y x
  rw [ranked, List.filter_filter] at hsub
  simp only [Bool.and_self] at hsub
  exact (hsub.eq_of_length ((List.mergeSort_perm xs _).filter _).length_eq.symm).symm

theorem pairwise_placed (x : α) {ys : List α} (hys : ys.Pairwise fun y z => notAfter lt z y) :
    (placed lt x ys).Pairwise fun y z => notAfter lt z y := by
  induction ys with
  | nil => exact List.pairwise_singleton ..
  | cons y ys ih =>
    rw [placed]
    split
    · next hxy =>
      refine List.pairwise_cons.2 ⟨fun z hz => ?_, ih hys.of_cons⟩
      rcases mem_placed hz with rfl | hz
      · simpa [notAfter] using h.asymm z y hxy
      · exact List.rel_of_pairwise_cons hys hz
    · next hxy =>
      have hyx : notAfter lt y x := by simpa [notAfter] using hxy
      refine List.pairwise_cons.2 ⟨fun z hz => ?_, hys⟩
      rcases List.mem_cons.1 hz with rfl | hz
      · exact hyx
      · exact h.notAfter_trans z y x (List.rel_of_pairwise_cons hys hz) hyx

theorem ranked_placed (x z : α) (ys : List α) :
    ranked lt z (placed lt x ys) = ranked lt z (x :: ys) := by
  induction ys with
  | nil => rfl
  | cons y ys ih =>
    rw [placed]
    split
    · next hxy =>
      -- Of two values one of which comes before the other at most one is of the rank.
      have hone : ¬ ((notAfter lt z x && notAfter lt x z) ∧ (notAfter lt z y && notAfter lt y z)) := by
        rintro ⟨hx, hy⟩
        rw [Bool.and_eq_true] at hx hy
        have hyx := h.notAfter_trans y z x hy.2 hx.1
        rw [notAfter, hxy] at hyx
        cases hyx
      simp only [ranked, List.filter_cons] at ih ⊢
      rw [ih]
      split
      · next hy => rw [if_neg fun hx => hone ⟨hx, hy⟩, if_neg fun hx => hone ⟨hx, hy⟩]
      · rfl
    · rfl

theorem sortedBy_eq_mergeSort (xs : List α) : sortedBy lt xs = xs.mergeSort (notAfter lt) := by
  have fold (xs sorted : List α) (hs : sorted.Pairwise fun y z => notAfter lt z y) :
      (xs.foldl (fun sorted x => placed lt x sorted) sorted).Pairwise (fun y z => notAfter lt z y) ∧
        ∀ z, ranked lt z (xs.foldl (fun sorted x => placed lt x sorted) sorted) =
          (ranked lt z xs).reverse ++ ranked lt z sorted := by
    induction xs generalizing sorted with
    | nil => exact ⟨hs, fun z => rfl⟩
    | cons x xs ih =>
      obtain ⟨hp, hr⟩ := ih (placed lt x sorted) (h.pairwise_placed x hs)
      refine ⟨hp, fun z => ?_⟩
      rw [List.foldl_cons, hr, h.ranked_placed]
      simp only [ranked, List.filter_cons]
      split <;> simp
  obtain ⟨hp, hr⟩ := fold xs [] .nil
  refine h.eq_of_ranked (List.pairwise_reverse.2 hp)
    (List.pairwise_mergeSort h.notAfter_trans h.notAfter_total xs) fun z => ?_
  rw [h.ranked_mergeSort]
  have hz := congrArg List.reverse (hr z)
  simpa [ranked, sortedBy, List.filter_reverse] using hz

end Consistent

/-- `Returns I ask a`: from every state that `I` holds of, the action returns `a`, and `I` holds of
the state then. -/
def Returns {α : Type} (I : World → Prop) (ask : Act α) (a : α) : Prop :=
  ∀ w, I w → ∃ w', ask.run.run w = (.ok a, w') ∧ I w'

section Returns

variable {α β : Type} {I : World → Prop}

theorem Returns.pure (a : α) : Returns I (pure a) a :=
  fun w hw => ⟨w, rfl, hw⟩

theorem Returns.bind {act : Act α} {f : α → Act β} {a : α} {b : β} (h : Returns I act a)
    (hf : Returns I (f a) b) : Returns I (act >>= f) b := by
  intro w hw
  obtain ⟨w₁, hrun, hw₁⟩ := h w hw
  rw [Act.run_bind, hrun]
  exact hf w₁ hw₁

variable {less : α → α → Act Bool} {lt : α → α → Bool}

theorem returns_insertSorted {x : α} {ys : List α} (h : ∀ y ∈ ys, Returns I (less x y) (lt x y)) :
    Returns I (insertSorted less x ys) (placed lt x ys) := by
  induction ys with
  | nil => exact .pure _
  | cons y ys ih =>
    have ih := ih fun z hz => h z (List.mem_cons_of_mem y hz)
    refine (h y (List.mem_cons_self ..)).bind ?_
    rw [placed]
    cases lt x y with
    | true => exact ih.bind (.pure _)
    | false => exact .pure _

/-- A comparison that answers by an order on the values of a list sorts the list by it. -/
theorem returns_insertionSort {xs : List α}
    (h : ∀ x ∈ xs, ∀ y ∈ xs, Returns I (less x y) (lt x y)) :
    Returns I (insertionSort less xs) (sortedBy lt xs) := by
  have fold (rest sorted : List α) (hr : ∀ x ∈ rest, x ∈ xs) (hs : ∀ x ∈ sorted, x ∈ xs) :
      Returns I (rest.foldlM (fun sorted x => insertSorted less x sorted) sorted)
        (rest.foldl (fun sorted x => placed lt x sorted) sorted) := by
    induction rest generalizing sorted with
    | nil => exact .pure _
    | cons x rest ih =>
      have hx := hr x (List.mem_cons_self ..)
      rw [List.foldlM_cons]
      refine (returns_insertSorted fun y hy => h x hx y (hs y hy)).bind
        (ih _ (fun y hy => hr y (List.mem_cons_of_mem x hy)) fun y hy => ?_)
      rcases mem_placed hy with rfl | hy
      · exact hx
      · exact hs y hy
  exact (fold xs [] (fun _ => id) fun _ hx => (nomatch hx)).bind (.pure _)

end Returns

end Reactivity
