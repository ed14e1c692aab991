import Reactivity.Proofs.Isolation.Carrying

namespace Reactivity.Template

/-- An identifier of ASCII letters, digits, underscores and dollars. -/
structure IsName (s : Source) : Prop where
  ne_nil : s ≠ []
  byte : ∀ b ∈ s, isIdentifierByte b ∧ b < 0x80
  front : s.head?.any isDigit = false

def blockText (b : Source) : Source :=
  Bracket.brace.opening :: (b ++ [Bracket.brace.closing])

def methodText (name parameters body : Source) : Source :=
  name ++ Source.ofString "(" ++ parameters ++ Source.ofString ") " ++ blockText body

def arrowText (parameters body : Source) : Source :=
  Source.ofString "(" ++ parameters ++ Source.ofString ") => " ++ blockText body

/-- An arrow function with one parameter and an expression as its body. -/
def shortArrowText (name expression : Source) : Source :=
  name ++ Source.ofString " => " ++ expression

theorem Bracket.Balances.split?_eq {k : Bracket} {s : Source} (h : k.Balances s) (t : Source) :
    k.split? (s ++ k.closing :: t) = some (s, t) := by
  have hclose : k.close? (s ++ k.closing :: t) = some s.length := by
    rw [Bracket.close?, Walks.closeFrom_append (t := k.closing :: t) h.walks 0, closeFrom_cons,
      frameStep_eq_close_iff.2 ⟨_, rfl, rfl⟩, Nat.zero_add]
  rw [Bracket.split?, hclose, Option.map_some, List.take_left, List.drop_append,
    List.drop_of_length_le (Nat.le_succ _), Nat.add_sub_cancel_left]
  rfl

theorem Bracket.Balances.block?_eq {b : Source} (h : Bracket.brace.Balances b) :
    block? (blockText b) = some (blockText b) := by
  have hsplit := h.split?_eq []
  simp only [blockText, block?, if_true, hsplit]
  rw [if_pos (.inl (by decide +kernel))]

theorem trim_blockText (b : Source) : trim (blockText b) = blockText b :=
  trim_of_ends (dropBlank?_solid (by decide) _) (b := Bracket.brace.closing) (by decide)
    (List.cons_append ..).symm

theorem trimStart_space (s : Source) : trimStart (0x20 :: s) = trimStart s :=
  trimStart_append (s := [0x20]) (by decide +kernel) s

theorem trim_space_append (s : Source) : trim (0x20 :: s) = trim s := by
  rw [trim, trim, trimStart_space]

namespace IsName

theorem of_all {name : Source} (ne_nil : name ≠ [])
    (bytes : name.all fun b => isIdentifierByte b && decide (b < 0x80))
    (front : name.head?.any isDigit = false) : IsName name where
  ne_nil := ne_nil
  byte b hb := by simpa using List.all_eq_true.1 bytes b hb
  front := front

variable {name : Source} (h : IsName name)
include h

theorem exists_cons : ∃ c r, name = c :: r ∧ IsSolid c ∧ c ≠ Bracket.paren.opening := by
  cases name with
  | nil => exact absurd rfl h.ne_nil
  | cons c r =>
    obtain ⟨hid, hlt⟩ := h.byte c (List.mem_cons_self ..)
    refine ⟨c, r, rfl, ⟨UInt8.not_lt.1 fun hblank => ?_, hlt⟩, ?_⟩
    · rw [isIdentifierByte_of_lt hblank] at hid
      cases hid
    · rintro rfl
      exact absurd hid (by decide)

theorem dropBlank?_append (t : Source) : dropBlank? (name ++ t) = none := by
  obtain ⟨c, r, rfl, hc, -⟩ := h.exists_cons
  exact dropBlank?_solid hc _

theorem identifierLength_append {b : UInt8} (hb : isIdentifierByte b = false) (t : Source) :
    identifierLength (name ++ b :: t) = name.length := by
  have hfront : (name ++ b :: t).head? = name.head? := by
    rw [List.head?_append]
    cases name with
    | nil => exact absurd rfl h.ne_nil
    | cons c r => rfl
  rw [identifierLength, hfront, h.front, if_neg Bool.false_ne_true,
    List.takeWhile_append_of_pos fun c hc => (h.byte c hc).1, List.takeWhile_cons_of_neg (by simp [hb]),
    List.append_nil]

/-- Another word does not stand at the front of a text that begins with a name. -/
theorem dropWord?_append {word : Source} (hword : word.all isIdentifierByte) (hne : name ≠ word)
    {b : UInt8} (hb : isIdentifierByte b = false) (t : Source) :
    dropWord? word (name ++ b :: t) = none := by
  rw [dropWord?]
  cases hd : dropPrefix? word (name ++ b :: t) with
  | none => rfl
  | some rest =>
    rcases List.append_eq_append_iff.1 (dropPrefix?_eq_some_iff.1 hd) with
      ⟨u, rfl, hu⟩ | ⟨u, rfl, rfl⟩
    · cases u with
      | nil => exact absurd (List.append_nil name).symm hne
      | cons c u =>
        obtain rfl := (List.cons.inj hu).1
        have := List.all_eq_true.1 hword b (List.mem_append_right _ (List.mem_cons_self ..))
        rw [hb] at this
        cases this
    · cases u with
      | nil => exact absurd (List.append_nil word) hne
      | cons c u =>
        have hc := (h.byte c (List.mem_append_right _ (List.mem_cons_self ..))).1
        simp [hc]

/-- A word with a byte that no name has does not stand at the front of a text that begins with a name,
unless it goes on behind that. -/
theorem dropPrefix?_append {word : Source} {c : UInt8} (hc : c ∈ word)
    (hother : isIdentifierByte c = false) {b : UInt8} (hb : b ∉ word) (t : Source) :
    dropPrefix? word (name ++ b :: t) = none := by
  cases hd : dropPrefix? word (name ++ b :: t) with
  | none => rfl
  | some rest =>
    have hid {x : UInt8} (hx : x ∈ name) : x ≠ c := by
      rintro rfl
      rw [(h.byte x hx).1] at hother
      cases hother
    rcases List.append_eq_append_iff.1 (dropPrefix?_eq_some_iff.1 hd) with
      ⟨u, rfl, hu⟩ | ⟨u, rfl, -⟩
    · cases u with
      | nil => exact absurd rfl (hid (by simpa using hc))
      | cons x u =>
        obtain rfl := (List.cons.inj hu).1
        exact absurd (List.mem_append_right _ (List.mem_cons_self ..)) hb
    · exact absurd rfl (hid (List.mem_append_left _ hc))

theorem startsFunction_append (hne : name ≠ Source.ofString "function") {b : UInt8}
    (hb : isIdentifierByte b = false) (hword : b ∉ Source.ofString "function*") (t : Source) :
    startsFunction (name ++ b :: t) = false := by
  rw [startsFunction, h.dropWord?_append (by decide) hne hb,
    h.dropPrefix?_append (c := Source.star) (by decide) (by decide) hword]
  rfl

theorem arrowParts?_append {b : UInt8} (hb : isIdentifierByte b = false) (t : Source) :
    arrowParts? (name ++ b :: t) =
      (dropPrefix? (Source.ofString "=>") (trimStart (b :: t))).bind fun body => some (name, body) := by
  have hlen := h.identifierLength_append hb t
  obtain ⟨c, r, rfl, -, hc⟩ := h.exists_cons
  rw [List.cons_append] at hlen ⊢
  rw [arrowParts?_cons, if_neg hc]
  simp only [hlen]
  rw [if_neg (by simp), ← List.cons_append, List.take_left, List.drop_left, Option.bind_some]

theorem methodParts?_append (t : Source) :
    methodParts? (name ++ Bracket.paren.opening :: t) =
      (Bracket.paren.split? t).map fun parts => (parts.1, trim parts.2) := by
  have hpos : name.length ≠ 0 := fun hl => h.ne_nil (List.length_eq_zero_iff.1 hl)
  have hsolid : trimStart (Bracket.paren.opening :: t) = Bracket.paren.opening :: t :=
    trimStart_of_dropBlank? (dropBlank?_solid (by decide) t)
  simp only [methodParts?, h.identifierLength_append (b := Bracket.paren.opening) (by decide), hpos,
    if_false, List.drop_left, hsolid, if_true]

end IsName

theorem methodParts?_of_head {b : UInt8} (hb : isIdentifierByte b = false) (t : Source) :
    methodParts? (b :: t) = none ∧ withoutModifiers (b :: t) = b :: t := by
  have hword (c : UInt8) (hc : isIdentifierByte c) (word : Source) :
      dropWord? (c :: word) (b :: t) = none := by
    have hne : c ≠ b := by
      rintro rfl
      rw [hb] at hc
      cases hc
    rw [dropWord?, dropPrefix?, if_neg hne]
  constructor
  · have hlen : identifierLength (b :: t) = 0 := by
      rw [identifierLength, List.takeWhile_cons_of_neg (by simp [hb])]
      exact ite_self 0
    rw [methodParts?, hlen]
    rfl
  · have hstatic : dropWord? (Source.ofString "static") (b :: t) = none := hword 0x73 (by decide) _
    have hget : dropWord? (Source.ofString "get") (b :: t) = none := hword 0x67 (by decide) _
    have hset : dropWord? (Source.ofString "set") (b :: t) = none := hword 0x73 (by decide) _
    rw [withoutModifiers, hstatic, Option.getD_none, hget, hset]
    rfl

/-- The text of the expression is not a block, and has nothing around it that is dropped. -/
structure IsExpression (e : Source) : Prop where
  ne_nil : e ≠ []
  trimmed : trim e = e
  complete : e.getLast? ≠ some Source.semicolon
  front : e.head? ≠ some Bracket.brace.opening

namespace IsExpression

variable {e : Source} (h : IsExpression e)
include h

theorem trimStart_eq : trimStart e = e := by
  have hle : trim e <+: trimStart e := trimEnd_prefix_self (trimStart e)
  rw [h.trimmed] at hle
  exact (hle.eq_of_length_le (trimStart_length_le e)).symm

theorem trimEnd_eq : trimEnd e = e := by
  calc trimEnd e = trim e := by rw [trim, h.trimStart_eq]
    _ = e := h.trimmed

theorem dropTrailing_eq : dropTrailing Source.semicolon e = e := by
  obtain ⟨q, c, rfl⟩ := (List.eq_nil_or_concat e).resolve_left h.ne_nil
  have hc : c ≠ Source.semicolon := by simpa using h.complete
  simp [dropTrailing, hc]

theorem block?_eq : block? e = none := by
  cases e with
  | nil => rfl
  | cons b r =>
    have hb : b ≠ Bracket.brace.opening := fun hb => h.front (congrArg some hb)
    rw [block?, if_neg hb]

/-- The parenthesis that closes the expression stands on the same line where it closes it. -/
theorem arrowBlock?_eq : arrowBlock? (0x20 :: e) =
    some (Source.ofString "\x7b return (" ++ e ++
      (if Bracket.paren.Balances e then Source.ofString ")" else Source.ofString "\n)") ++
      Source.ofString "; \x7d") := by
  have htrim : trim (0x20 :: e) = e := by rw [trim_space_append, h.trimmed]
  have hclose : Bracket.paren.closesAtEnd (e ++ [Bracket.paren.closing]) ↔
      Bracket.paren.Balances e := by
    rw [Bracket.closesAtEnd, List.length_append, Bracket.Balances]
    cases Bracket.paren.close? (e ++ [Bracket.paren.closing]) <;> simp
  have hopening : Source.ofString "\x7b return (" =
      Bracket.brace.opening :: Source.ofString " return (" := by
    decide
  have hclosing : Source.ofString "; \x7d" = Source.ofString "; " ++ [Bracket.brace.closing] := by
    decide
  have hline : Source.ofString "\n)" = [Source.newline, Bracket.paren.closing] := by decide
  simp only [arrowBlock?, htrim, h.block?_eq, h.dropTrailing_eq, h.trimEnd_eq, h.ne_nil, if_false]
  rw [returnBlock, if_congr hclose rfl rfl, hopening, hclosing, hline]
  simp only [List.cons_append, List.append_assoc]
  rfl

end IsExpression

/-- The normal form of a trimmed text that does not begin with the word `async`. -/
theorem normalForm_eq_of_dropWord?_none {s : Source} (hs : trim s = s)
    (ha : dropWord? (Source.ofString "async") s = none) : normalForm s = formAfter s [] s := by
  rw [normalForm, hs, ha]
  rfl

theorem normalForm_eq_of_dropWord?_some {s rest : Source} (hs : trim s = s)
    (ha : dropWord? (Source.ofString "async") s = some rest) :
    normalForm s = formAfter s (Source.ofString "async ") rest := by
  rw [normalForm, hs, ha]
  rfl

theorem methodText_eq (name p b : Source) :
    methodText name p b =
      name ++ Bracket.paren.opening :: (p ++ Bracket.paren.closing :: 0x20 :: blockText b) := by
  simp only [methodText, List.append_assoc]
  rfl

theorem arrowText_eq (p b : Source) :
    arrowText p b = Bracket.paren.opening ::
      (p ++ Bracket.paren.closing :: 0x20 :: (Source.ofString "=>" ++ 0x20 :: blockText b)) := by
  simp only [arrowText, List.append_assoc]
  rfl

theorem shortArrowText_eq (name e : Source) :
    shortArrowText name e = name ++ 0x20 :: (Source.ofString "=>" ++ 0x20 :: e) := by
  simp only [shortArrowText, List.append_assoc]
  rfl

theorem trim_methodText {name : Source} (h : IsName name) (p b : Source) :
    trim (methodText name p b) = methodText name p b := by
  refine trim_of_ends ?_ (b := Bracket.brace.closing) (by decide)
    (p := name ++ Source.ofString "(" ++ p ++ Source.ofString ") " ++ Bracket.brace.opening :: b) ?_
  · rw [methodText_eq]
    exact h.dropBlank?_append _
  · simp [methodText, blockText]

theorem trim_arrowText (p b : Source) : trim (arrowText p b) = arrowText p b := by
  refine trim_of_ends ?_ (b := Bracket.brace.closing) (by decide)
    (p := Source.ofString "(" ++ p ++ Source.ofString ") => " ++ Bracket.brace.opening :: b) ?_
  · rw [arrowText_eq]
    exact dropBlank?_solid (by decide) _
  · simp [arrowText, blockText]

theorem trim_shortArrowText {name e : Source} (h : IsName name) (he : IsExpression e) :
    trim (shortArrowText name e) = shortArrowText name e := by
  have hspace : trimStart (0x20 :: e) ≠ [] := by
    rw [trimStart_space, he.trimStart_eq]
    exact he.ne_nil
  have harrow : shortArrowText name e = name ++ [0x20, 0x3D] ++ 0x3E :: 0x20 :: e := by
    rw [shortArrowText_eq, List.append_assoc]
    rfl
  have hfront : dropBlank? (shortArrowText name e) = none := by
    rw [shortArrowText_eq]
    exact h.dropBlank?_append _
  rw [trim, trimStart_of_dropBlank? hfront, harrow, trimEnd_append (by decide), trimEnd_cons hspace,
    he.trimEnd_eq]

theorem dropWord?_self_append {word : Source} {b : UInt8} (hb : isIdentifierByte b = false)
    (t : Source) : dropWord? word (word ++ b :: t) = some (trimStart (b :: t)) := by
  rw [dropWord?, dropPrefix?_eq_some_iff.2 rfl]
  simp [hb]

theorem trimStart_arrow (t : Source) :
    trimStart (0x20 :: (Source.ofString "=>" ++ t)) = Source.ofString "=>" ++ t := by
  have hsolid : dropBlank? (Source.ofString "=>" ++ t) = none :=
    dropBlank?_solid (b := 0x3D) (by decide) _
  rw [trimStart_space, trimStart_of_dropBlank? hsolid]

theorem dropArrow?_eq (t : Source) :
    dropPrefix? (Source.ofString "=>") (trimStart (0x20 :: (Source.ofString "=>" ++ t))) = some t := by
  rw [trimStart_arrow]
  exact dropPrefix?_eq_some_iff.2 rfl

theorem dropArrow?_blockText (b : Source) :
    dropPrefix? (Source.ofString "=>") (trimStart (0x20 :: blockText b)) = none := by
  have hsolid : dropBlank? (blockText b) = none := dropBlank?_solid (by decide) _
  rw [trimStart_space, trimStart_of_dropBlank? hsolid]
  rfl

section Parts

variable {name p b e : Source} (hp : Bracket.paren.Balances p) (hb : Bracket.brace.Balances b)

include hp in
theorem arrowParts?_opening (t : Source) :
    arrowParts? (Bracket.paren.opening :: (p ++ Bracket.paren.closing :: t)) =
      (dropPrefix? (Source.ofString "=>") (trimStart t)).bind fun body => some (p, body) := by
  rw [arrowParts?_cons, if_pos rfl, hp.split?_eq, Option.bind_some]

include hp hb in
/-- A method is brought to the form with the word `function`, whatever its name. -/
theorem normalForm_methodText (h : IsName name) (hfunction : name ≠ Source.ofString "function")
    (hasync : name ≠ Source.ofString "async") :
    normalForm (methodText name p b) = .ok (functionText [] p (blockText b)) := by
  have hother : isIdentifierByte Bracket.paren.opening = false := by decide
  have hword : dropWord? (Source.ofString "async") (methodText name p b) = none := by
    rw [methodText_eq]
    exact h.dropWord?_append (by decide) hasync hother _
  have hstarts : startsFunction (methodText name p b) = false := by
    rw [methodText_eq]
    exact h.startsFunction_append hfunction hother (by decide) _
  have harrow : arrowParts? (methodText name p b) = none := by
    rw [methodText_eq, h.arrowParts?_append hother,
      trimStart_of_dropBlank? (dropBlank?_solid (by decide) _)]
    rfl
  have hmethod : methodParts? (methodText name p b) = some (p, blockText b) := by
    rw [methodText_eq, h.methodParts?_append, hp.split?_eq, Option.map_some, trim_space_append,
      trim_blockText]
  rw [normalForm_eq_of_dropWord?_none (trim_methodText h p b) hword, formAfter, hstarts, harrow, hmethod]
  simp [hb.block?_eq]

include hp hb in
theorem normalForm_arrowText :
    normalForm (arrowText p b) = .ok (functionText [] p (blockText b)) := by
  have hword : dropWord? (Source.ofString "async") (arrowText p b) = none := by
    rw [arrowText_eq]
    rfl
  have hstarts : startsFunction (arrowText p b) = false := by
    rw [arrowText_eq]
    rfl
  have harrow : arrowParts? (arrowText p b) = some (p, 0x20 :: blockText b) := by
    rw [arrowText_eq, arrowParts?_opening hp, dropArrow?_eq, Option.bind_some]
  have hblock : arrowBlock? (0x20 :: blockText b) = some (blockText b) := by
    simp only [arrowBlock?, trim_space_append, trim_blockText, hb.block?_eq]
  rw [normalForm_eq_of_dropWord?_none (trim_arrowText p b) hword, formAfter, hstarts, harrow]
  simp only [Bool.false_eq_true, if_false, hblock]

/-- An arrow function with an expression returns that, whatever its parameter is called. -/
theorem normalForm_shortArrowText (h : IsName name) (he : IsExpression e)
    (hfunction : name ≠ Source.ofString "function") (hasync : name ≠ Source.ofString "async") :
    normalForm (shortArrowText name e) = .ok (functionText [] name
      (Source.ofString "\x7b return (" ++ e ++
        (if Bracket.paren.Balances e then Source.ofString ")" else Source.ofString "\n)") ++
        Source.ofString "; \x7d")) := by
  have hother : isIdentifierByte 0x20 = false := by decide
  have hword : dropWord? (Source.ofString "async") (shortArrowText name e) = none := by
    rw [shortArrowText_eq]
    exact h.dropWord?_append (by decide) hasync hother _
  have hstarts : startsFunction (shortArrowText name e) = false := by
    rw [shortArrowText_eq]
    exact h.startsFunction_append hfunction hother (by decide) _
  have harrow : arrowParts? (shortArrowText name e) = some (name, 0x20 :: e) := by
    rw [shortArrowText_eq, h.arrowParts?_append hother, dropArrow?_eq, Option.bind_some]
  rw [normalForm_eq_of_dropWord?_none (trim_shortArrowText h he) hword, formAfter, hstarts, harrow]
  simp only [Bool.false_eq_true, if_false, he.arrowBlock?_eq]

theorem isName_async : IsName (Source.ofString "async") :=
  .of_all (by decide) (by decide) (by decide)

/-- What begins with no identifier and is no arrow function is no function. -/
theorem formAfter_of_head {c : UInt8} (hc : isIdentifierByte c = false) {s modifier t : Source}
    (hstarts : startsFunction (c :: t) = false) (harrow : arrowParts? (c :: t) = none) :
    formAfter s modifier (c :: t) = .error .unrecognizedFunction := by
  obtain ⟨hmethod, hmodifiers⟩ := methodParts?_of_head hc t
  rw [formAfter, hstarts, harrow, hmodifiers, hmethod]
  rfl

include hp in
theorem normalForm_methodText_async :
    normalForm (methodText (Source.ofString "async") p b) = .error .unrecognizedFunction := by
  have hword : dropWord? (Source.ofString "async") (methodText (Source.ofString "async") p b) =
      some (Bracket.paren.opening :: (p ++ Bracket.paren.closing :: 0x20 :: blockText b)) := by
    rw [methodText_eq, dropWord?_self_append (by decide),
      trimStart_of_dropBlank? (dropBlank?_solid (by decide) _)]
  rw [normalForm_eq_of_dropWord?_some (trim_methodText isName_async p b) hword]
  refine formAfter_of_head (by decide) rfl ?_
  rw [arrowParts?_opening hp, dropArrow?_blockText]
  rfl

theorem normalForm_shortArrowText_async (he : IsExpression e) :
    normalForm (shortArrowText (Source.ofString "async") e) = .error .unrecognizedFunction := by
  have hword : dropWord? (Source.ofString "async") (shortArrowText (Source.ofString "async") e) =
      some (Source.ofString "=>" ++ 0x20 :: e) := by
    rw [shortArrowText_eq, dropWord?_self_append (by decide), trimStart_arrow]
  rw [normalForm_eq_of_dropWord?_some (trim_shortArrowText isName_async he) hword]
  exact formAfter_of_head (c := 0x3D) (by decide) rfl rfl

end Parts

/-- Every name but `function` and `async` may be that of a method and of the parameter of an arrow
function. With balanced parameters and body the one is brought to the form with the word `function`, as
an arrow function with a block is, and the other returns its expression: the parenthesis behind that
stands on the next line where it would not close the expression on the same. The name `async` is taken
for the modifier and refused. -/
theorem normalForm_by_name {name : Source} (hname : IsName name)
    (hfunction : name ≠ Source.ofString "function") :
    (∀ p b, Bracket.paren.Balances p → Bracket.brace.Balances b →
      normalForm (arrowText p b) = .ok (functionText [] p (blockText b)) ∧
      normalForm (methodText name p b) =
        if name = Source.ofString "async" then .error .unrecognizedFunction
        else .ok (functionText [] p (blockText b))) ∧
    ∀ e, IsExpression e →
      normalForm (shortArrowText name e) =
        if name = Source.ofString "async" then .error .unrecognizedFunction
        else .ok (functionText [] name (Source.ofString "\x7b return (" ++ e ++
          (if Bracket.paren.Balances e then Source.ofString ")" else Source.ofString "\n)") ++
          Source.ofString "; \x7d")) := by
  by_cases hasync : name = Source.ofString "async"
  · subst hasync
    simp only [if_true]
    exact ⟨fun p b hp hb => ⟨normalForm_arrowText hp hb, normalForm_methodText_async hp⟩,
      fun e he => normalForm_shortArrowText_async he⟩
  · simp only [hasync, if_false]
    exact ⟨fun p b hp hb =>
        ⟨normalForm_arrowText hp hb, normalForm_methodText hp hb hname hfunction hasync⟩,
      fun e he => normalForm_shortArrowText hname he hfunction hasync⟩

/-- A name that looks like a modifier. The parameter `p` has a template with a parenthesis in it as its
default, and the expression ends in a comment. -/
theorem normalForm_by_name_get :
    let name := Source.ofString "get"
    let p := Source.ofString "p = \x60)$\x7bq\x7d\x60"
    let b := Source.ofString " return \"\x7d\"; "
    let e := Source.ofString "get + 1 // one"
    normalForm (methodText name p b) = .ok (functionText [] p (blockText b)) ∧
      normalForm (arrowText p b) = .ok (functionText [] p (blockText b)) ∧
      normalForm (shortArrowText name e) = .ok (Source.ofString
        "function(get) \x7b return (get + 1 // one\n); \x7d") := by
  intro name p b e
  have hname : IsName name := .of_all (by decide) (by decide) (by decide)
  have hexpression : IsExpression e := ⟨by decide, by decide +kernel, by decide, by decide⟩
  obtain ⟨hblock, hshort⟩ := normalForm_by_name hname (by decide)
  obtain ⟨harrow, hmethod⟩ := hblock p b (by decide +kernel) (by decide +kernel)
  exact ⟨hmethod, harrow, (hshort e hexpression).trans (by decide +kernel)⟩

/-- A method named `async` is refused. -/
theorem normalForm_refuses_name :
    let name := Source.ofString "async"
    let b := Source.ofString " return 1; "
    IsName name ∧ name ≠ Source.ofString "function" ∧ Bracket.paren.Balances [] ∧
      Bracket.brace.Balances b ∧
      methodText name [] b = Source.ofString "async() \x7b return 1; \x7d" ∧
      functionText [] [] (blockText b) = Source.ofString "function() \x7b return 1; \x7d" ∧
      normalForm (methodText name [] b) = .error .unrecognizedFunction := by
  exact ⟨isName_async, by decide, by decide +kernel, by decide +kernel, by decide, by decide,
    by decide +kernel⟩

end Reactivity.Template
