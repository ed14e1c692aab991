import Reactivity.Proofs.Isolation.Alike
import Mathlib.Data.List.TakeWhile

namespace Reactivity.Template

theorem isSome_eq_of_rel {α β : Type} {R : α → β → Prop} {a : Option α} {b : Option β}
    (h : Option.Rel R a b) : a.isSome = b.isSome := by
  cases h <;> rfl

theorem rel_bind {α β γ δ : Type} {R : α → β → Prop} {S : γ → δ → Prop} {a : Option α}
    {b : Option β} {f : α → Option γ} {g : β → Option δ} (h : Option.Rel R a b)
    (hfg : ∀ x y, R x y → Option.Rel S (f x) (g y)) : Option.Rel S (a.bind f) (b.bind g) := by
  cases h with
  | none => exact .none
  | some h => exact hfg _ _ h

theorem inert_of_mem_ofString {w : String} (h : (Source.ofString w).all (Inert ·)) :
    ∀ b ∈ Source.ofString w, Inert b :=
  fun b hb => of_decide_eq_true (List.all_eq_true.1 h b hb)

def afterAsync (s : Source) : Source :=
  (dropWord? (Source.ofString "async") s).getD s

/-- Whether a text without white space around it, and without the word `async` in front, is a
function in one of its forms. -/
def isFunctionForm (rest : Source) : Bool :=
  startsFunction rest ||
    match arrowParts? rest with
    | some (_, body) => (arrowBlock? body).isSome
    | none =>
      match methodParts? rest <|> methodParts? (withoutModifiers rest) with
      | none => false
      | some (_, body) => (block? body).isSome

/-- The normal form of a trimmed text, by the modifier that it keeps and by the text behind it. -/
def formAfter (s modifier rest : Source) : Except TemplateError Source :=
  if startsFunction rest then .ok s
  else
    match arrowParts? rest with
    | some (parameters, body) =>
      match arrowBlock? body with
      | some block => .ok (functionText modifier parameters block)
      | none => .error .unrecognizedFunction
    | none =>
      match methodParts? rest <|> methodParts? (withoutModifiers rest) with
      | none => .error .unrecognizedFunction
      | some (parameters, body) =>
        match block? body with
        | some block => .ok (functionText modifier parameters block)
        | none => .error .unrecognizedFunction

theorem normalForm_eq_formAfter (s : Source) : ∃ modifier,
    (modifier = [] ∨ modifier = Source.ofString "async ") ∧
      normalForm s = formAfter (trim s) modifier (afterAsync (trim s)) := by
  rw [normalForm, afterAsync]
  cases dropWord? (Source.ofString "async") (trim s) with
  | none => exact ⟨[], .inl rfl, rfl⟩
  | some rest => exact ⟨Source.ofString "async ", .inr rfl, rfl⟩

theorem isOk_normalForm (s : Source) :
    (normalForm s).isOk = isFunctionForm (afterAsync (trim s)) := by
  obtain ⟨modifier, -, heq⟩ := normalForm_eq_formAfter s
  rw [heq, formAfter, isFunctionForm]
  generalize afterAsync (trim s) = rest
  cases startsFunction rest with
  | true => rfl
  | false =>
    rw [Bool.false_or, if_neg Bool.false_ne_true]
    rcases arrowParts? rest with _ | ⟨parameters, body⟩
    · rcases methodParts? rest <|> methodParts? (withoutModifiers rest) with _ | ⟨parameters, body⟩
      · rfl
      · dsimp only
        cases block? body <;> rfl
    · dsimp only
      cases arrowBlock? body <;> rfl

theorem normalForm_of_startsFunction {s : Source} (h : startsFunction (afterAsync (trim s))) :
    normalForm s = .ok (trim s) := by
  rw [afterAsync] at h
  rw [normalForm]
  cases hd : dropWord? (Source.ofString "async") (trim s) <;> rw [hd] at h <;> exact if_pos h

theorem arrowParts?_cons (b : UInt8) (r : Source) :
    arrowParts? (b :: r) =
      (if b = Bracket.paren.opening then Bracket.paren.split? r
        else
          let n := identifierLength (b :: r)
          if n = 0 then none else some ((b :: r).take n, (b :: r).drop n)).bind fun p =>
        (dropPrefix? (Source.ofString "=>") (trimStart p.2)).bind fun body => some (p.1, body) := by
  simp only [arrowParts?]
  split
  · rfl
  · split <;> rfl

theorem dropTrailing_prefix_self (b : UInt8) (s : Source) : dropTrailing b s <+: s := by
  rw [← List.reverse_suffix, dropTrailing, List.reverse_reverse]
  exact List.dropWhile_suffix _

theorem dropTrailing_eq_nil_iff {b : UInt8} {s : Source} :
    dropTrailing b s = [] ↔ ∀ c ∈ s, c = b := by
  rw [dropTrailing, List.reverse_eq_nil_iff]
  simp [List.dropWhile_eq_nil_iff]

/-- The body of an arrow function is refused if it is nothing but semicolons. -/
theorem isSome_arrowBlock? (body : Source) :
    (arrowBlock? body).isSome =
      ((block? (trim body)).isSome || !(trim body).all (· == Source.semicolon)) := by
  have hblank := dropBlank?_trimStart body
  have hfront : dropBlank? (dropTrailing Source.semicolon (trim body)) = none := by
    refine dropBlank?_eq_none_iff.2 fun w hw hp => ?_
    obtain ⟨v, hv, -⟩ := exists_append_trimEnd (trimStart body)
    exact dropBlank?_eq_none_iff.1 hblank w hw
      ((hp.trans (dropTrailing_prefix_self _ _)).trans ⟨v, hv.symm⟩)
  have hempty : trimEnd (dropTrailing Source.semicolon (trim body)) = [] ↔
      ∀ b ∈ trim body, b = Source.semicolon := by
    rw [trimEnd_eq_nil_iff, trimStart_of_dropBlank? hfront, dropTrailing_eq_nil_iff]
  rw [arrowBlock?]
  cases block? (trim body) with
  | some block => rfl
  | none =>
    dsimp only
    have hall : (trim body).all (· == Source.semicolon) ↔ ∀ b ∈ trim body, b = Source.semicolon := by
      simp
    by_cases h : ∀ b ∈ trim body, b = Source.semicolon
    · rw [if_pos (hempty.2 h), hall.2 h]
      rfl
    · rw [if_neg (mt hempty.1 h), Bool.eq_false_iff.2 (mt hall.1 h)]
      rfl

namespace Alike

variable {tag : Source} {f : Expression → Option Source} {s t : Source} (hf : Keeps f)
include hf

theorem eq_singleton_iff {b : UInt8} (hb : Inert b) (h : Alike tag f s t) : t = [b] ↔ s = [b] := by
  constructor
  · rintro rfl
    have hh := h.head? hf
    cases s with
    | nil => cases hh
    | cons c r =>
      obtain rfl : b = c := Option.some.inj hh
      obtain ⟨r', hr, hr'⟩ := h.tail hb
      obtain rfl := (List.cons.inj hr).2
      rw [(hr'.eq_nil_iff hf).1 rfl]
  · rintro rfl
    obtain ⟨r', rfl, hr'⟩ := h.tail hb
    rw [(hr'.eq_nil_iff hf).2 rfl]

theorem takeWhile {p : UInt8 → Bool} (hp : ∀ b, p b → Inert b) (h : Alike tag f s t) :
    t.takeWhile p = s.takeWhile p ∧ Alike tag f (s.drop (s.takeWhile p).length)
      (t.drop (s.takeWhile p).length) := by
  induction s generalizing t with
  | nil =>
    obtain rfl := (h.eq_nil_iff hf).2 rfl
    exact ⟨rfl, h⟩
  | cons b r ih =>
    cases hb : p b with
    | false =>
      have hh := h.head? hf
      cases t with
      | nil => cases hh
      | cons c r' =>
        obtain rfl : c = b := Option.some.inj hh
        simpa [hb] using h
    | true =>
      obtain ⟨r', rfl, hr⟩ := h.tail (hp b hb)
      simpa [hb] using ih hr

theorem identifier (h : Alike tag f s t) :
    identifierLength t = identifierLength s ∧
      Alike tag f (s.drop (identifierLength s)) (t.drop (identifierLength s)) := by
  have hw := h.takeWhile hf fun b hb => inert_of_isIdentifierByte hb
  rw [identifierLength, identifierLength, h.head? hf, hw.1]
  split
  · exact ⟨rfl, h⟩
  · exact ⟨rfl, hw.2⟩

theorem dropWord? {word : Source} (hw : ∀ b ∈ word, Inert b) (h : Alike tag f s t) :
    Option.Rel (Alike tag f) (dropWord? word s) (dropWord? word t) := by
  have hd := h.dropPrefix? hf hw
  simp only [Template.dropWord?]
  generalize Template.dropPrefix? word s = a, Template.dropPrefix? word t = b at hd
  cases hd with
  | none => exact .none
  | some hr =>
    simp only [hr.head? hf]
    split
    · exact .none
    · exact .some (hr.trimStart hf)

theorem getD_dropWord? {word : Source} (hw : ∀ b ∈ word, Inert b) (h : Alike tag f s t) :
    Alike tag f ((Template.dropWord? word s).getD s) ((Template.dropWord? word t).getD t) := by
  have hd := h.dropWord? hf hw
  generalize Template.dropWord? word s = a, Template.dropWord? word t = b at hd
  cases hd with
  | none => exact h
  | some hr => exact hr

theorem startsFunction (h : Alike tag f s t) : startsFunction t = startsFunction s := by
  simp only [Template.startsFunction]
  rw [isSome_eq_of_rel (h.dropWord? hf (inert_of_mem_ofString (by decide))),
    isSome_eq_of_rel (h.dropPrefix? hf (inert_of_mem_ofString (by decide)))]

theorem arrowParts? (h : Alike tag f s t) :
    Option.Rel (fun p q => Alike tag f p.2 q.2) (arrowParts? s) (arrowParts? t) := by
  have hh := h.head? hf
  cases s with
  | nil =>
    rw [(h.eq_nil_iff hf).2 rfl]
    exact .none
  | cons b r =>
    cases t with
    | nil => cases hh
    | cons c r' =>
      obtain rfl : c = b := Option.some.inj hh
      have hopening : Inert Bracket.paren.opening := by decide
      have hfront : Option.Rel (fun p q : Source × Source => Alike tag f p.2 q.2)
          (if c = Bracket.paren.opening then Bracket.paren.split? r
            else
              let n := identifierLength (c :: r)
              if n = 0 then none else some ((c :: r).take n, (c :: r).drop n))
          (if c = Bracket.paren.opening then Bracket.paren.split? r'
            else
              let n := identifierLength (c :: r')
              if n = 0 then none else some ((c :: r').take n, (c :: r').drop n)) := by
        obtain ⟨hn, hd⟩ := h.identifier hf
        split
        · next hc =>
          obtain ⟨r'', hr, hr'⟩ := h.tail (hc ▸ hopening)
          obtain ⟨-, rfl⟩ := List.cons.inj hr
          exact hr'.split? hf .paren
        · simp only [hn]
          split
          · exact .none
          · exact .some hd
      rw [arrowParts?_cons, arrowParts?_cons]
      refine rel_bind hfront fun p q hpq => ?_
      have hbody := (hpq.trimStart hf).dropPrefix? hf (inert_of_mem_ofString (w := "=>") (by decide))
      exact rel_bind hbody fun _ _ hb => .some hb

theorem block? (h : Alike tag f s t) : (block? t).isSome = (block? s).isSome := by
  have hh := h.head? hf
  cases s with
  | nil => rw [(h.eq_nil_iff hf).2 rfl]
  | cons b r =>
    cases t with
    | nil => cases hh
    | cons c r' =>
      obtain rfl : c = b := Option.some.inj hh
      simp only [Template.block?]
      split
      · next hc =>
        have hopening : Inert Bracket.brace.opening := by decide
        obtain ⟨r'', hr, hr'⟩ := h.tail (hc ▸ hopening)
        obtain ⟨-, rfl⟩ := List.cons.inj hr
        have hs := hr'.split? hf .brace
        generalize Bracket.brace.split? r = a, Bracket.brace.split? r' = b at hs
        cases hs with
        | none => rfl
        | @some p q hpq =>
          have ht := hpq.trim hf
          simp only [ht.eq_nil_iff hf, ht.eq_singleton_iff hf (b := Source.semicolon) (by decide)]
          split <;> rfl
      · rfl

theorem all_eq_semicolon (h : Alike tag f s t) :
    t.all (· == Source.semicolon) = s.all (· == Source.semicolon) := by
  induction s generalizing t with
  | nil => rw [(h.eq_nil_iff hf).2 rfl]
  | cons b r ih =>
    have hh := h.head? hf
    cases t with
    | nil => cases hh
    | cons c r' =>
      obtain rfl : c = b := Option.some.inj hh
      by_cases hc : c = Source.semicolon
      · obtain ⟨r'', hr, hr'⟩ := h.tail (b := c) (by rw [hc]; decide)
        obtain ⟨-, rfl⟩ := List.cons.inj hr
        rw [List.all_cons, List.all_cons, ih hr']
      · rw [List.all_cons, List.all_cons, beq_false_of_ne hc]
        rfl

theorem arrowBlock? (h : Alike tag f s t) :
    (arrowBlock? t).isSome = (arrowBlock? s).isSome := by
  have ht := h.trim hf
  rw [isSome_arrowBlock?, isSome_arrowBlock?, ht.block? hf, ht.all_eq_semicolon hf]

theorem methodParts? (h : Alike tag f s t) :
    Option.Rel (fun p q => Alike tag f p.2 q.2) (methodParts? s) (methodParts? t) := by
  obtain ⟨hn, hd⟩ := h.identifier hf
  simp only [Template.methodParts?, hn]
  split
  · exact .none
  · have ht := hd.trimStart hf
    generalize Template.trimStart (s.drop (identifierLength s)) = x,
      Template.trimStart (t.drop (identifierLength s)) = y at ht
    have hh := ht.head? hf
    cases x with
    | nil =>
      rw [(ht.eq_nil_iff hf).2 rfl]
      exact .none
    | cons b r =>
      cases y with
      | nil => cases hh
      | cons c r' =>
        obtain rfl : c = b := Option.some.inj hh
        simp only
        split
        · next hc =>
          have hopening : Inert Bracket.paren.opening := by decide
          obtain ⟨r'', hr, hr'⟩ := ht.tail (hc ▸ hopening)
          obtain ⟨-, rfl⟩ := List.cons.inj hr
          rw [Option.map_eq_bind, Option.map_eq_bind]
          exact rel_bind (hr'.split? hf .paren) fun p q hpq => .some (hpq.trim hf)
        · exact .none

theorem withoutModifiers (h : Alike tag f s t) :
    Alike tag f (withoutModifiers s) (withoutModifiers t) := by
  have hs := h.getD_dropWord? hf (inert_of_mem_ofString (w := "static") (by decide))
  simp only [Template.withoutModifiers]
  generalize (Template.dropWord? (Source.ofString "static") s).getD s = s',
    (Template.dropWord? (Source.ofString "static") t).getD t = t' at hs
  have hget := hs.dropWord? hf (inert_of_mem_ofString (w := "get") (by decide))
  have hset := hs.dropWord? hf (inert_of_mem_ofString (w := "set") (by decide))
  generalize Template.dropWord? (Source.ofString "get") s' = a,
    Template.dropWord? (Source.ofString "get") t' = b at hget
  generalize Template.dropWord? (Source.ofString "set") s' = a',
    Template.dropWord? (Source.ofString "set") t' = b' at hset
  cases hget with
  | some hr => exact hr
  | none =>
    cases hset with
    | some hr => exact hr
    | none => exact hs

theorem isFunctionForm (h : Alike tag f s t) : isFunctionForm t = isFunctionForm s := by
  have harrow := h.arrowParts? hf
  have hmethod := h.methodParts? hf
  have hmethod' := (h.withoutModifiers hf).methodParts? hf
  simp only [Template.isFunctionForm, h.startsFunction hf]
  generalize Template.arrowParts? s = a, Template.arrowParts? t = a' at harrow
  generalize Template.methodParts? s = m, Template.methodParts? t = m' at hmethod
  generalize Template.methodParts? (Template.withoutModifiers s) = l,
    Template.methodParts? (Template.withoutModifiers t) = l' at hmethod'
  congr 1
  cases harrow with
  | some hb => exact hb.arrowBlock? hf
  | none =>
    cases hmethod with
    | some hb => exact hb.block? hf
    | none =>
      cases hmethod' with
      | some hb => exact hb.block? hf
      | none => rfl

theorem isOk_normalForm (h : Alike tag f s t) : (normalForm t).isOk = (normalForm s).isOk := by
  rw [Template.isOk_normalForm, Template.isOk_normalForm]
  exact ((h.trim hf).getD_dropWord? hf (inert_of_mem_ofString (w := "async") (by decide))).isFunctionForm
    hf

omit hf in
theorem trimEnd_eq (hf : Keeps f) (h : Alike tag f s t) (hs : Template.trimEnd s = s) :
    Template.trimEnd t = t := by
  obtain ⟨depth, before, rfl⟩ := h
  rw [trimEnd_edited hf, hs]

theorem trim_eq (h : Alike tag f s t) (hs : Template.trim s = s) : Template.trim t = t := by
  have hfront : Template.dropBlank? s = none := by
    rw [← hs, Template.trim]
    exact dropBlank?_eq_none_iff.2 fun w hw hp => dropBlank?_eq_none_iff.1
      (dropBlank?_trimStart s) w hw (hp.trans (trimEnd_prefix_self _))
  have hback : Template.trimEnd s = s := by
    rwa [Template.trim, trimStart_of_dropBlank? hfront] at hs
  have hd := h.dropBlank? hf
  rw [hfront] at hd
  cases ht : Template.dropBlank? t with
  | none => rw [Template.trim, trimStart_of_dropBlank? ht, h.trimEnd_eq hf hback]
  | some r => rw [ht] at hd; cases hd

end Alike

theorem exists_append_of_block? {s block : Source} (h : block? s = some block) :
    ∃ p, block = p ++ [Bracket.brace.closing] := by
  cases s with
  | nil => cases h
  | cons b r =>
    simp only [block?] at h
    split at h
    · rcases hs : Bracket.brace.split? r with _ | ⟨inside, rest⟩
      · rw [hs] at h
        cases h
      · simp only [hs] at h
        split at h
        · cases h
          exact ⟨Bracket.brace.opening :: inside, rfl⟩
        · cases h
    · cases h

theorem exists_append_of_arrowBlock? {s block : Source} (h : arrowBlock? s = some block) :
    ∃ p, block = p ++ [Bracket.brace.closing] := by
  rw [arrowBlock?] at h
  rcases hb : block? (trim s) with _ | block'
  · simp only [hb] at h
    split at h
    · cases h
    · cases h
      exact ⟨_, (List.cons_append ..).symm⟩
  · simp only [hb] at h
    cases h
    exact exists_append_of_block? hb

theorem functionText_normal {modifier : Source}
    (hm : modifier = [] ∨ modifier = Source.ofString "async ") (parameters p : Source) :
    let s := functionText modifier parameters (p ++ [Bracket.brace.closing])
    trim s = s ∧ startsFunction (afterAsync s) := by
  have hword : Source.ofString "function(" = [0x66, 0x75, 0x6E, 0x63, 0x74, 0x69, 0x6F, 0x6E, 0x28] := by
    decide
  have hname : Source.ofString "function" = [0x66, 0x75, 0x6E, 0x63, 0x74, 0x69, 0x6F, 0x6E] := by
    decide
  have hasync : Source.ofString "async" = [0x61, 0x73, 0x79, 0x6E, 0x63] := by decide
  have hasync' : Source.ofString "async " = [0x61, 0x73, 0x79, 0x6E, 0x63] ++ [0x20] := by decide
  have hstarts (x : Source) : startsFunction (Source.ofString "function(" ++ x) := by
    have hd : dropWord? (Source.ofString "function") (Source.ofString "function(" ++ x) =
        some (trimStart (0x28 :: x)) := by
      rw [hword, hname]
      rfl
    rw [startsFunction, hd]
    rfl
  have hblank (x : Source) : dropBlank? (Source.ofString "function(" ++ x) = none := by
    rw [hword]
    exact dropBlank?_solid (by decide) _
  rcases hm with rfl | rfl
  · have he : functionText [] parameters (p ++ [Bracket.brace.closing]) =
        Source.ofString "function(" ++ (parameters ++ Source.ofString ") " ++ (p ++
          [Bracket.brace.closing])) := by
      simp only [functionText, List.nil_append, List.append_assoc]
    refine ⟨trim_of_ends (by rw [he]; exact hblank _) (b := Bracket.brace.closing) (by decide)
      (List.append_assoc ..).symm, ?_⟩
    have hd (x : Source) : dropWord? (Source.ofString "async") (Source.ofString "function(" ++ x) =
        none := by
      rw [hword, hasync]
      rfl
    simp only [afterAsync, he, hd]
    exact hstarts _
  · have he : functionText (Source.ofString "async ") parameters (p ++ [Bracket.brace.closing]) =
        Source.ofString "async" ++ ([0x20] ++ (Source.ofString "function(" ++ (parameters ++
          Source.ofString ") " ++ (p ++ [Bracket.brace.closing])))) := by
      simp only [functionText, hasync, hasync', List.append_assoc]
    refine ⟨trim_of_ends ?_ (b := Bracket.brace.closing) (by decide)
      (List.append_assoc ..).symm, ?_⟩
    · rw [he, hasync]
      exact dropBlank?_solid (by decide) _
    · have hd (x : Source) : dropWord? (Source.ofString "async")
          (Source.ofString "async" ++ ([0x20] ++ (Source.ofString "function(" ++ x))) =
            some (Source.ofString "function(" ++ x) := by
        rw [dropWord?, dropPrefix?_eq_some_iff.2 rfl]
        have hhead : (([0x20] ++ (Source.ofString "function(" ++ x)).head?.any isIdentifierByte) =
            false := rfl
        simp only [hhead, Bool.false_eq_true, if_false]
        rw [trimStart_of_dropBlank?_some (dropBlank?_append (by decide) _),
          trimStart_of_dropBlank? (hblank x)]
      simp only [afterAsync, he, hd]
      exact hstarts _

theorem normalForm_normal {s n : Source} (h : normalForm s = .ok n) :
    trim n = n ∧ startsFunction (afterAsync n) := by
  obtain ⟨modifier, hm, heq⟩ := normalForm_eq_formAfter s
  rw [heq, formAfter] at h
  split at h
  · next hs =>
    cases h
    exact ⟨trim_trim s, hs⟩
  · split at h
    · split at h
      · next hb =>
        cases h
        obtain ⟨p, rfl⟩ := exists_append_of_arrowBlock? hb
        exact functionText_normal hm _ p
      · cases h
    · split at h
      · cases h
      · split at h
        · next hb =>
          cases h
          obtain ⟨p, rfl⟩ := exists_append_of_block? hb
          exact functionText_normal hm _ p
        · cases h

theorem Alike.normalForm_eq {tag : Source} {f : Expression → Option Source} (hf : Keeps f)
    {s n t : Source} (hn : normalForm s = .ok n) (h : Alike tag f n t) : normalForm t = .ok t := by
  obtain ⟨htrim, hstart⟩ := normalForm_normal hn
  have ht := h.trim_eq hf htrim
  have hasync : Alike tag f (afterAsync n) (afterAsync t) :=
    h.getD_dropWord? hf (inert_of_mem_ofString (w := "async") (by decide))
  have hs : Template.startsFunction (afterAsync (Template.trim t)) := by
    rwa [ht, hasync.startsFunction hf]
  rw [normalForm_of_startsFunction hs, ht]

end Reactivity.Template
