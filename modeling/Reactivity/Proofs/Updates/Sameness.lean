import Reactivity.State.Result
import Mathlib.Data.List.Forall2

namespace Reactivity

namespace Json

mutual

theorem same_refl : (j : Json) → j.same j
  | .null => rfl
  | .bool b => beq_self_eq_true b
  | .int n => beq_self_eq_true n
  | .float x => x.same_refl
  | .string s => beq_self_eq_true s
  | .array items => sameItems_refl items
  | .object members => sameMembers_refl members

theorem sameItems_refl : (items : List Json) → sameItems items items
  | [] => rfl
  | j :: items => by
    rw [sameItems, same_refl j, sameItems_refl items]
    rfl

theorem sameMembers_refl : (members : List (String × Json)) → sameMembers members members
  | [] => rfl
  | (name, j) :: members => by
    rw [sameMembers, same_refl j, sameMembers_refl members, beq_self_eq_true]
    rfl

end

mutual

theorem same_comm : (i j : Json) → i.same j = j.same i
  | .null, j | .bool _, j | .int _, j | .string _, j => by
    cases j <;> simp [same, Bool.beq_comm]
  | .float x, j => by
    cases j with
    | float y => exact x.same_comm y
    | _ => rfl
  | .array is, j => by
    cases j with
    | array js => exact sameItems_comm is js
    | _ => rfl
  | .object is, j => by
    cases j with
    | object js => exact sameMembers_comm is js
    | _ => rfl

theorem sameItems_comm : (is js : List Json) → sameItems is js = sameItems js is
  | [], [] | [], _ :: _ | _ :: _, [] => rfl
  | i :: is, j :: js => by rw [sameItems, sameItems, same_comm i j, sameItems_comm is js]

theorem sameMembers_comm : (is js : List (String × Json)) → sameMembers is js = sameMembers js is
  | [], [] | [], _ :: _ | _ :: _, [] => rfl
  | (m, i) :: is, (n, j) :: js => by
    rw [sameMembers, sameMembers, same_comm i j, sameMembers_comm is js, Bool.beq_comm]

end

mutual

theorem same_trans : {i j k : Json} → i.same j → j.same k → i.same k
  | .null, .null, _, _, hjk => hjk
  | .bool _, .bool _, _, hij, hjk => by rwa [eq_of_beq hij]
  | .int _, .int _, _, hij, hjk => by rwa [eq_of_beq hij]
  | .float _, .float _, .float _, hij, hjk => Number.same_trans hij hjk
  | .string _, .string _, _, hij, hjk => by rwa [eq_of_beq hij]
  | .array _, .array _, .array _, hij, hjk => sameItems_trans hij hjk
  | .object _, .object _, .object _, hij, hjk => sameMembers_trans hij hjk

theorem sameItems_trans :
    {is js ks : List Json} → sameItems is js → sameItems js ks → sameItems is ks
  | [], [], _, _, hjk => hjk
  | i :: is, j :: js, k :: ks, hij, hjk => by
    rw [sameItems, Bool.and_eq_true] at hij hjk ⊢
    exact ⟨same_trans hij.1 hjk.1, sameItems_trans hij.2 hjk.2⟩

theorem sameMembers_trans : {is js ks : List (String × Json)} → sameMembers is js →
    sameMembers js ks → sameMembers is ks
  | [], [], _, _, hjk => hjk
  | (m, i) :: is, (n, j) :: js, (o, k) :: ks, hij, hjk => by
    simp only [sameMembers, Bool.and_eq_true, beq_iff_eq] at hij hjk ⊢
    obtain ⟨⟨hmn, hij⟩, his⟩ := hij
    obtain ⟨⟨hno, hjk⟩, hjs⟩ := hjk
    exact ⟨⟨hmn.trans hno, same_trans hij hjk⟩, sameMembers_trans his hjs⟩

end

end Json

namespace Result

mutual

theorem same_refl : (r : Result) → r.same r
  | .nothing => rfl
  | .value v => v.same_refl
  | .plain j => j.same_refl
  | .list items => sameItems_refl items
  | .effect n => beq_self_eq_true n
  | .memo n => beq_self_eq_true n
  | .runtime n => beq_self_eq_true n
  | .stats _ => decide_eq_true rfl
  | .error _ => decide_eq_true rfl
  | .thrown message => beq_self_eq_true message

theorem sameItems_refl : (items : List Result) → sameItems items items
  | [] => rfl
  | r :: items => by
    rw [sameItems, same_refl r, sameItems_refl items]
    rfl

end

mutual

theorem same_comm : (q r : Result) → q.same r = r.same q
  | .value v, r => by
    cases r with
    | value w => exact v.same_comm w
    | _ => rfl
  | .plain i, r => by
    cases r with
    | plain j => exact i.same_comm j
    | _ => rfl
  | .list qs, r => by
    cases r with
    | list rs => exact sameItems_comm qs rs
    | _ => rfl
  | .nothing, r | .effect _, r | .memo _, r | .runtime _, r | .stats _, r | .error _, r
  | .thrown _, r => by cases r <;> simp [same, Bool.beq_comm]

theorem sameItems_comm : (qs rs : List Result) → sameItems qs rs = sameItems rs qs
  | [], [] | [], _ :: _ | _ :: _, [] => rfl
  | q :: qs, r :: rs => by rw [sameItems, sameItems, same_comm q r, sameItems_comm qs rs]

end

mutual

theorem same_trans : {q r s : Result} → q.same r → r.same s → q.same s
  | .nothing, .nothing, _, _, hrs => hrs
  | .value _, .value _, .value _, hqr, hrs => Value.same_trans hqr hrs
  | .plain _, .plain _, .plain _, hqr, hrs => Json.same_trans hqr hrs
  | .list _, .list _, .list _, hqr, hrs => sameItems_trans hqr hrs
  | .effect _, .effect _, _, hqr, hrs => by rwa [eq_of_beq hqr]
  | .memo _, .memo _, _, hqr, hrs => by rwa [eq_of_beq hqr]
  | .runtime _, .runtime _, _, hqr, hrs => by rwa [eq_of_beq hqr]
  | .stats _, .stats _, _, hqr, hrs => by rwa [eq_of_beq hqr]
  | .error _, .error _, _, hqr, hrs => by rwa [eq_of_beq hqr]
  | .thrown _, .thrown _, _, hqr, hrs => by rwa [eq_of_beq hqr]

theorem sameItems_trans :
    {qs rs ss : List Result} → sameItems qs rs → sameItems rs ss → sameItems qs ss
  | [], [], _, _, hrs => hrs
  | q :: qs, r :: rs, s :: ss, hqr, hrs => by
    rw [sameItems, Bool.and_eq_true] at hqr hrs ⊢
    exact ⟨same_trans hqr.1 hrs.1, sameItems_trans hqr.2 hrs.2⟩

end

/-- What is the same as a result is the same as all that is the same as the result. -/
theorem same_congr {q r s : Result} (h : q.same r) : q.same s = r.same s := by
  rw [Bool.eq_iff_iff]
  exact ⟨same_trans (same_comm q r ▸ h), same_trans h⟩

theorem sameItems_iff {rs ss : List Result} :
    sameItems rs ss ↔ List.Forall₂ (fun r s => r.same s) rs ss := by
  induction rs generalizing ss with
  | nil => cases ss <;> simp [sameItems]
  | cons r rs ih => cases ss <;> simp [sameItems, ih]

end Result

end Reactivity
