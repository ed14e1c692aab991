import Reactivity.Template.Source

namespace Reactivity.Template

theorem blank_bytes : ∀ w ∈ blanks, ∀ b ∈ w, b < 0x21 ∨ 0x80 ≤ b := by
  decide +kernel

theorem eq_of_blank_prefix_blank : ∀ v ∈ blanks, ∀ w ∈ blanks, v <+: w → v = w := by
  decide +kernel

def IsSolid (b : UInt8) : Prop :=
  0x21 ≤ b ∧ b < 0x80

instance (b : UInt8) : Decidable (IsSolid b) :=
  inferInstanceAs (Decidable (0x21 ≤ b ∧ b < 0x80))

theorem IsSolid.notMem_blank {b : UInt8} (hb : IsSolid b) {w : Source} (hw : w ∈ blanks) :
    b ∉ w := by
  intro h
  obtain ⟨hl, hu⟩ := hb
  rcases blank_bytes w hw b h with hlt | hge
  · exact absurd hl (UInt8.not_le.2 hlt)
  · exact absurd hu (UInt8.not_lt.2 hge)

theorem dropBlank?_eq_none_iff {s : Source} :
    dropBlank? s = none ↔ ∀ w ∈ blanks, ¬ w <+: s := by
  rw [dropBlank?, List.findSome?_eq_none_iff]
  refine forall₂_congr fun w _ => ?_
  rw [← Option.not_isSome_iff_eq_none, Option.isSome_iff_exists]
  refine not_congr ⟨fun ⟨r, h⟩ => ⟨r, (dropPrefix?_eq_some_iff.1 h).symm⟩, fun ⟨r, h⟩ => ⟨r, ?_⟩⟩
  exact dropPrefix?_eq_some_iff.2 h.symm

theorem trimStart_of_dropBlank? {s : Source} (h : dropBlank? s = none) : trimStart s = s := by
  rw [trimStart]
  split
  · next r hr => rw [h] at hr; cases hr
  · rfl

theorem trimStart_of_dropBlank?_some {s r : Source} (h : dropBlank? s = some r) :
    trimStart s = trimStart r := by
  rw [trimStart]
  split
  · next r' hr => rw [h] at hr; cases hr; rfl
  · next hn => rw [h] at hn; cases hn

theorem dropBlank?_trimStart (s : Source) : dropBlank? (trimStart s) = none := by
  fun_induction trimStart s with
  | case1 s r h ih => exact ih
  | case2 s h => exact h

theorem dropBlank?_solid {b : UInt8} (hb : IsSolid b) (s : Source) :
    dropBlank? (b :: s) = none := by
  refine dropBlank?_eq_none_iff.2 fun w hw ⟨r, h⟩ => ?_
  cases w with
  | nil => exact absurd (blank_length_pos hw) (Nat.lt_irrefl 0)
  | cons a w =>
    obtain ⟨rfl, -⟩ := List.cons.inj h
    exact hb.notMem_blank hw (List.mem_cons_self ..)

theorem dropBlank?_append {w : Source} (hw : w ∈ blanks) (s : Source) :
    dropBlank? (w ++ s) = some s := by
  cases h : dropBlank? (w ++ s) with
  | none => exact absurd ⟨s, rfl⟩ (dropBlank?_eq_none_iff.1 h w hw)
  | some r =>
    obtain ⟨v, hv, he⟩ := dropBlank?_eq_append h
    have hvw : v = w := by
      rcases List.prefix_or_prefix_of_prefix ⟨r, he.symm⟩ ⟨s, rfl⟩ with hp | hp
      · exact eq_of_blank_prefix_blank v hv w hw hp
      · exact (eq_of_blank_prefix_blank w hw v hv hp).symm
    subst hvw
    rw [List.append_cancel_left he]

theorem trimStart_append {s : Source} (h : trimStart s = []) (t : Source) :
    trimStart (s ++ t) = trimStart t := by
  fun_induction trimStart s with
  | case1 s r hr ih =>
    obtain ⟨w, hw, rfl⟩ := dropBlank?_eq_append hr
    rw [List.append_assoc, trimStart_of_dropBlank?_some (dropBlank?_append hw _), ih h]
  | case2 => rw [h, List.nil_append]

theorem mem_trimStart {b : UInt8} (hb : IsSolid b) {s : Source} (h : b ∈ s) : b ∈ trimStart s := by
  fun_induction trimStart s with
  | case1 s r hr ih =>
    obtain ⟨w, hw, rfl⟩ := dropBlank?_eq_append hr
    exact ih ((List.mem_append.1 h).resolve_left (hb.notMem_blank hw))
  | case2 => exact h

theorem trimStart_ne_nil {b : UInt8} (hb : IsSolid b) {s : Source} (h : b ∈ s) :
    trimStart s ≠ [] :=
  List.ne_nil_of_mem (mem_trimStart hb h)

theorem exists_append_trimEnd (s : Source) : ∃ w, s = trimEnd s ++ w ∧ trimStart w = [] := by
  induction s with
  | nil => exact ⟨[], rfl, by rw [trimStart_of_dropBlank? (by decide)]⟩
  | cons b r ih =>
    by_cases h : trimStart (b :: r) = []
    · exact ⟨b :: r, by rw [trimEnd, if_pos h, List.nil_append], h⟩
    · obtain ⟨w, hw, hb⟩ := ih
      exact ⟨w, by rw [trimEnd, if_neg h, List.cons_append, ← hw], hb⟩

theorem trimEnd_prefix_self (s : Source) : trimEnd s <+: s := by
  obtain ⟨w, hw, -⟩ := exists_append_trimEnd s
  exact ⟨w, hw.symm⟩

theorem trimEnd_cons {b : UInt8} {r : Source} (h : trimStart (b :: r) ≠ []) :
    trimEnd (b :: r) = b :: trimEnd r := by
  rw [trimEnd, if_neg h]

theorem trimEnd_append {p : Source} {b : UInt8} (hb : IsSolid b) (s : Source) :
    trimEnd (p ++ b :: s) = p ++ b :: trimEnd s := by
  induction p with
  | nil => exact trimEnd_cons (trimStart_ne_nil hb (List.mem_cons_self ..))
  | cons c p ih =>
    rw [List.cons_append, trimEnd_cons, ih, List.cons_append]
    exact trimStart_ne_nil hb (List.mem_cons_of_mem _ (List.mem_append_right _
      (List.mem_cons_self ..)))

theorem trimEnd_eq_nil_iff {s : Source} : trimEnd s = [] ↔ trimStart s = [] := by
  cases s with
  | nil => simp [trimEnd, trimStart_of_dropBlank? (s := []) (by decide)]
  | cons b r =>
    by_cases h : trimStart (b :: r) = []
    · simp [trimEnd, h]
    · simp [trimEnd_cons h, h]

theorem trimEnd_trimEnd (s : Source) : trimEnd (trimEnd s) = trimEnd s := by
  induction s with
  | nil => rfl
  | cons b r ih =>
    by_cases h : trimStart (b :: r) = []
    · rw [trimEnd, if_pos h]
      rfl
    · rw [trimEnd_cons h, trimEnd_cons, ih]
      intro hb
      obtain ⟨w, hw, hw'⟩ := exists_append_trimEnd r
      refine h ?_
      rw [hw, ← List.cons_append, trimStart_append hb, hw']

theorem trimStart_trimEnd {s : Source} (h : dropBlank? s = none) :
    trimStart (trimEnd s) = trimEnd s := by
  refine trimStart_of_dropBlank? (dropBlank?_eq_none_iff.2 fun w hw hp => ?_)
  exact dropBlank?_eq_none_iff.1 h w hw (hp.trans (trimEnd_prefix_self s))

theorem trim_trim (s : Source) : trim (trim s) = trim s := by
  rw [trim, trim, trimStart_trimEnd (dropBlank?_trimStart s), trimEnd_trimEnd]

/-- A text with no white space character at its front that ends with a byte that is none is trimmed. -/
theorem trim_of_ends {s p : Source} {b : UInt8} (h : dropBlank? s = none) (hb : IsSolid b)
    (hs : s = p ++ [b]) : trim s = s := by
  rw [trim, trimStart_of_dropBlank? h, hs, trimEnd_append hb]
  rfl

end Reactivity.Template
