import Reactivity.Template.Isolation

namespace Reactivity.Template

/-- What the search for a closing bracket does at a byte. -/
inductive FrameStep
  /-- The byte closes the last frame. -/
  | close
  /-- The text ends too early. -/
  | stop
  /-- So many bytes are passed by, and the frames change. -/
  | pass (n : Nat) (frames : List Frame)

/-- The step of the search under a stack of frames, by the byte and the one after it. -/
def frameStep (frames : List Frame) (b : UInt8) (next : Option UInt8) : FrameStep :=
  match frames with
  | [] => .stop
  | .quoted q :: st =>
    if b = Source.backslash then if next.isSome then .pass 2 (.quoted q :: st) else .stop
    else if b = Source.newline ∨ b = q then .pass 1 st
    else .pass 1 (.quoted q :: st)
  | .lineComment :: st =>
    if b = Source.newline then .pass 1 st else .pass 1 (.lineComment :: st)
  | .blockComment :: st =>
    if next = none then .stop
    else if b = Source.star ∧ next = some Source.slash then .pass 2 st
    else .pass 1 (.blockComment :: st)
  | .template :: st =>
    if b = Source.backslash then if next.isSome then .pass 2 (.template :: st) else .stop
    else if b = Source.backtick then .pass 1 st
    else if b = Source.dollar ∧ next = none then .stop
    else if b = Source.dollar ∧ next = some Bracket.brace.opening then
      .pass 2 (.code .brace 0 :: .template :: st)
    else .pass 1 (.template :: st)
  | .code k d :: st =>
    if b = Source.doubleQuote ∨ b = Source.singleQuote then .pass 1 (.quoted b :: .code k d :: st)
    else if b = Source.backtick then .pass 1 (.template :: .code k d :: st)
    else if b = Source.slash ∧ next = none then .stop
    else if b = Source.slash ∧ next = some Source.slash then
      .pass 2 (.lineComment :: .code k d :: st)
    else if b = Source.slash ∧ next = some Source.star then
      .pass 2 (.blockComment :: .code k d :: st)
    else if b = Source.slash then .pass 1 (.code k d :: st)
    else if b = k.closing then
      match d, st with
      | 0, [] => .close
      | 0, _ :: _ => .pass 1 st
      | d + 1, _ => .pass 1 (.code k d :: st)
    else if b = k.opening then .pass 1 (.code k (d + 1) :: st)
    else .pass 1 (.code k d :: st)

theorem closeFrom_cons (frames : List Frame) (i : Nat) (b : UInt8) (r : Source) :
    closeFrom frames i (b :: r) =
      match frameStep frames b r.head? with
      | .close => some i
      | .stop => none
      | .pass n frames' => closeFrom frames' (i + n) ((b :: r).drop n) := by
  cases frames with
  | nil => cases r <;> rfl
  | cons f st =>
    cases f with
    | quoted q => cases r <;> grind [closeFrom, frameStep]
    | lineComment => cases r <;> grind [closeFrom, frameStep]
    | blockComment => cases r <;> grind [closeFrom, frameStep]
    | template => cases r <;> grind [closeFrom, frameStep]
    | code k d => cases d <;> cases st <;> cases r <;> grind [closeFrom, frameStep]

/-- What a scan does at a byte. -/
inductive LevelStep
  /-- The scan is over. -/
  | close
  /-- An expression opens in a tagged template. -/
  | record
  /-- So many bytes are passed by, and the levels change. -/
  | pass (n : Nat) (levels : List Level)

/-- The step of a scan under a stack of levels, by the byte and the one after it. -/
def levelStep (tag : Source) (levels : List Level) (before : Source) (b : UInt8)
    (next : Option UInt8) : LevelStep :=
  match levels with
  | [] => .close
  | .quoted q :: st =>
    if b = Source.backslash then .pass 2 (.quoted q :: st)
    else if b = Source.newline ∨ b = q then .pass 1 st
    else .pass 1 (.quoted q :: st)
  | .lineComment :: st =>
    if b = Source.newline then .pass 1 st else .pass 1 (.lineComment :: st)
  | .blockComment :: st =>
    if b = Source.star ∧ next = some Source.slash then .pass 2 st
    else .pass 1 (.blockComment :: st)
  | .template openedAt tagged :: st =>
    if b = Source.backslash then .pass 2 (.template openedAt tagged :: st)
    else if b = Source.backtick then .pass 1 st
    else if b = Source.dollar ∧ next = some Bracket.brace.opening then
      if tagged then .record
      else .pass 2 (.code 0 (some before.length) :: .template openedAt tagged :: st)
    else .pass 1 (.template openedAt tagged :: st)
  | .code depth openedAt :: st =>
    if b = Source.doubleQuote ∨ b = Source.singleQuote then
      .pass 1 (.quoted b :: .code depth openedAt :: st)
    else if b = Source.backtick then
      .pass 1 (.template before.length (endsWithTag tag before) :: .code depth openedAt :: st)
    else if b = Source.slash ∧ next = some Source.slash then
      .pass 2 (.lineComment :: .code depth openedAt :: st)
    else if b = Source.slash ∧ next = some Source.star then
      .pass 2 (.blockComment :: .code depth openedAt :: st)
    else if b = Bracket.brace.opening then .pass 1 (.code (depth + 1) openedAt :: st)
    else if b = Bracket.brace.closing then
      if depth = 0 ∧ openedAt.isSome then .pass 1 st
      else .pass 1 (.code (depth - 1) openedAt :: st)
    else .pass 1 (.code depth openedAt :: st)

theorem scanFrom_cons (tag : Source) (levels : List Level) (before : Source) (b : UInt8)
    (r : Source) (n : Nat) (levels' : List Level)
    (h : levelStep tag levels before b r.head? = .pass n levels') :
    scanFrom tag levels before (b :: r) =
      scanFrom tag levels' (((b :: r).take n).reverse ++ before) ((b :: r).drop n) := by
  cases levels with
  | nil => cases h
  | cons l st =>
    rw [scanFrom.eq_def tag (l :: st)]
    cases l with
    | quoted q => cases r <;> grind [levelStep]
    | lineComment => cases r <;> grind [levelStep]
    | blockComment => cases r <;> grind [levelStep]
    | template openedAt tagged => cases r <;> grind [levelStep]
    | code depth openedAt =>
      cases depth <;> cases openedAt <;> cases r <;> simp only [levelStep] at h ⊢ <;>
        grind

theorem levelStep_eq_record_iff {tag : Source} {levels : List Level} {before : Source} {b : UInt8}
    {next : Option UInt8} :
    levelStep tag levels before b next = .record ↔
      ∃ openedAt st, levels = .template openedAt true :: st ∧ b = Source.dollar ∧
        next = some Bracket.brace.opening := by
  cases levels with
  | nil => simp [levelStep]
  | cons l st =>
    cases l with
    | template openedAt tagged =>
      constructor
      · grind [levelStep]
      · rintro ⟨_, _, he, rfl, rfl⟩
        cases he
        rfl
    | quoted q => grind [levelStep]
    | lineComment => grind [levelStep]
    | blockComment => grind [levelStep]
    | code depth openedAt => grind [levelStep]

def Level.frame : Level → Frame
  | .code depth _ => .code .brace depth
  | .template _ _ => .template
  | .quoted q => .quoted q
  | .lineComment => .lineComment
  | .blockComment => .blockComment

def Inert (b : UInt8) : Prop :=
  b ≠ Source.doubleQuote ∧ b ≠ Source.singleQuote ∧ b ≠ Source.backtick ∧ b ≠ Source.slash

instance (b : UInt8) : Decidable (Inert b) :=
  inferInstanceAs (Decidable (b ≠ Source.doubleQuote ∧ b ≠ Source.singleQuote ∧
    b ≠ Source.backtick ∧ b ≠ Source.slash))

theorem levelStep_base (tag : Source) (depth : Nat) (before : Source) {b : UInt8} (hb : Inert b)
    (next : Option UInt8) :
    ∃ depth', levelStep tag [.code depth none] before b next = .pass 1 [.code depth' none] := by
  obtain ⟨h₁, h₂, h₃, h₄⟩ := hb
  simp only [levelStep, h₁, h₂, h₃, h₄, or_self, false_and, if_false, Option.isSome_none,
    Bool.false_eq_true, and_false]
  split
  · exact ⟨_, rfl⟩
  · split <;> exact ⟨_, rfl⟩

theorem frameStep_base (k : Bracket) (d : Nat) {b : UInt8} (hb : Inert b) (next : Option UInt8) :
    frameStep [.code k d] b next = .close ∨
      ∃ d', frameStep [.code k d] b next = .pass 1 [.code k d'] := by
  obtain ⟨h₁, h₂, h₃, h₄⟩ := hb
  cases d <;> grind [frameStep]

/-- Whether a level is code outside of any template, as only the last one is. -/
def Level.isBase : Level → Bool
  | .code _ none => true
  | _ => false

/-- `Follows k levels frames`: a scan under the levels and a search for the closing bracket of a pair
`k` under the frames are inside of the same constructs. Where the scan counts braces in the code it
began in, the search counts brackets of its own pair. -/
inductive Follows (k : Bracket) : List Level → List Frame → Prop
  | base (depth d : Nat) : Follows k [.code depth none] [.code k d]
  | inner {l : Level} {levels : List Level} {frames : List Frame} (inner : l.isBase = false)
      (rest : Follows k levels frames) : Follows k (l :: levels) (l.frame :: frames)

theorem Follows.ne_nil {k : Bracket} {levels : List Level} {frames : List Frame}
    (h : Follows k levels frames) : frames ≠ [] := by
  cases h <;> exact List.cons_ne_nil _ _

/-- A search that is inside of nothing else follows a scan that is so too. -/
theorem Follows.eq_base {k : Bracket} {levels : List Level} {f : Frame}
    (h : Follows k levels [f]) : ∃ depth d, levels = [.code depth none] ∧ f = .code k d := by
  generalize hfs : [f] = fs at h
  cases h with
  | base depth d => exact ⟨depth, d, rfl, (List.cons.inj hfs).1⟩
  | inner inner rest => exact absurd (List.cons.inj hfs).2.symm rest.ne_nil

theorem Follows.template {k : Bracket} {openedAt : Nat} {tagged : Bool} {levels : List Level}
    {frames : List Frame} (h : Follows k (.template openedAt tagged :: levels) frames) :
    ∃ frames', frames = .template :: frames' := by
  cases h
  exact ⟨_, rfl⟩

/-- A scan and a search that follow one another pass by the same bytes, unless the search ends at the
byte. -/
theorem Follows.step {k : Bracket} {tag : Source} {levels levels' : List Level}
    {frames : List Frame} {before : Source} {b c : UInt8} {next : Option UInt8} {n : Nat}
    (hf : Follows k levels frames) (h : levelStep tag levels before b next = .pass n levels')
    (hc : c = next.getD k.closing) :
    frameStep frames b (some c) = .close ∨
      ∃ frames', frameStep frames b (some c) = .pass n frames' ∧ Follows k levels' frames' := by
  have closing : k.closing ≠ Source.slash ∧ k.closing ≠ Source.star ∧
      k.closing ≠ Bracket.brace.opening := by
    cases k <;> decide
  cases hf with
  | base depth d =>
    have again := Follows.base (k := k) depth d
    by_cases hb : Inert b
    · obtain ⟨depth', hs⟩ := levelStep_base tag depth before hb next
      rw [hs] at h
      cases h
      rcases frameStep_base k d hb (some c) with hclose | ⟨d', hpass⟩
      · exact .inl hclose
      · exact .inr ⟨_, hpass, .base depth' d'⟩
    · have quoted (q : UInt8) := Follows.inner (l := .quoted q) rfl again
      have line := Follows.inner (l := .lineComment) rfl again
      have block := Follows.inner (l := .blockComment) rfl again
      have template (j : Nat) (t : Bool) := Follows.inner (l := .template j t) rfl again
      simp only [Level.frame] at quoted line block template
      have hb : b = Source.doubleQuote ∨ b = Source.singleQuote ∨ b = Source.backtick ∨
          b = Source.slash := by
        grind [Inert]
      rcases hb with rfl | rfl | rfl | rfl <;> cases d <;> cases next <;>
        simp only [levelStep] at h <;> grind [frameStep, Bracket.opening, Bracket.closing]
  | @inner l levels frames inner rest =>
    have hn := rest.ne_nil
    have again : Follows k (l :: levels) (l.frame :: frames) := .inner inner rest
    cases l with
    | code depth openedAt =>
      obtain ⟨i, rfl⟩ : ∃ i, openedAt = some i := by cases openedAt <;> simp_all [Level.isBase]
      have deeper (d : Nat) : Follows k (.code d (some i) :: levels) (.code .brace d :: frames) :=
        .inner rfl rest
      have quoted (q : UInt8) := Follows.inner (l := .quoted q) rfl again
      have line := Follows.inner (l := .lineComment) rfl again
      have block := Follows.inner (l := .blockComment) rfl again
      have template (j : Nat) (t : Bool) := Follows.inner (l := .template j t) rfl again
      simp only [Level.frame] at quoted line block template again
      cases depth <;> cases frames <;> cases next <;> simp only [levelStep] at h <;>
        grind [frameStep, Level.frame, Bracket.closing, Bracket.opening]
    | quoted q => cases next <;> grind [levelStep, frameStep, Level.frame]
    | lineComment => grind [levelStep, frameStep, Level.frame]
    | blockComment => cases next <;> grind [levelStep, frameStep, Level.frame]
    | template openedAt tagged =>
      have code (i : Nat) := Follows.inner (l := .code 0 (some i)) rfl again
      simp only [Level.frame] at code again
      cases next <;> grind [levelStep, frameStep, Level.frame, Bracket.closing, Bracket.opening]

end Reactivity.Template
