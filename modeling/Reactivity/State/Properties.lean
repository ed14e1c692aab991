import Reactivity.State.Value

namespace Reactivity

abbrev Properties := List (String × Cell)

namespace Properties

def names (ps : Properties) : List String :=
  ps.map (·.1)

/-- Puts a cell in the place of the one of the name. A name that is not there is not added. -/
def replace (ps : Properties) (name : String) (cell : Cell) : Properties :=
  ps.map fun (k, s) => (k, if k = name then cell else s)

def add (ps : Properties) (name : String) (cell : Cell) : Properties :=
  ps ++ [(name, cell)]

def remove (ps : Properties) (name : String) : Properties :=
  ps.filter (·.1 ≠ name)

theorem mem_names {ps : Properties} {name : String} :
    name ∈ ps.names ↔ (ps.lookup name).isSome := by
  induction ps with
  | nil => simp [names]
  | cons p ps ih =>
    obtain ⟨k, s⟩ := p
    by_cases h : name = k
    · simp [names, h]
    · rw [List.lookup_cons, beq_false_of_ne h, ← ih]
      simp [names, h]

theorem names_replace (ps : Properties) (name : String) (cell : Cell) :
    (ps.replace name cell).names = ps.names := by
  simp [names, replace]

theorem names_add (ps : Properties) (name : String) (cell : Cell) :
    (ps.add name cell).names = ps.names ++ [name] := by
  simp [names, add]

theorem names_remove (ps : Properties) (name : String) :
    (ps.remove name).names = ps.names.filter (· ≠ name) := by
  simp only [names, remove, List.filter_map]
  rfl

theorem lookup_replace (ps : Properties) (name other : String) (cell : Cell) :
    (ps.replace name cell).lookup other =
      if other = name then (ps.lookup other).map fun _ => cell else ps.lookup other := by
  induction ps with
  | nil => simp [replace]
  | cons p ps ih =>
    obtain ⟨k, s⟩ := p
    simp only [replace, List.map_cons, List.lookup_cons] at ih ⊢
    rw [ih]
    by_cases h : other = k
    · by_cases hk : k = name <;> simp [h, hk]
    · simp [beq_false_of_ne h]

theorem lookup_add (ps : Properties) (name other : String) (cell : Cell)
    (h : ps.lookup name = none) :
    (ps.add name cell).lookup other =
      if other = name then some cell else ps.lookup other := by
  rw [add, List.lookup_append]
  by_cases ho : other = name
  · simp [ho, h]
  · simp [ho, beq_false_of_ne ho, List.lookup_cons]

theorem lookup_remove (ps : Properties) (name other : String) :
    (ps.remove name).lookup other = if other = name then none else ps.lookup other := by
  induction ps with
  | nil => simp [remove]
  | cons p ps ih =>
    obtain ⟨k, s⟩ := p
    simp only [remove] at ih ⊢
    rw [List.filter_cons]
    by_cases hk : k = name
    · subst k
      rw [if_neg (by simp), ih, List.lookup_cons]
      by_cases ho : other = name
      · rw [if_pos ho, if_pos ho]
      · simp [ho, beq_false_of_ne ho]
    · rw [if_pos (by simpa using hk), List.lookup_cons, List.lookup_cons, ih]
      by_cases ho : other = k
      · subst other
        simp [hk]
      · simp [beq_false_of_ne ho]

end Properties

end Reactivity
