import Reactivity.Proofs.Isolation.Balance
import Reactivity.Proofs.Isolation.Names

namespace Reactivity.Template

variable {s t u : Source}

/-- White space at the front stays what it is where a longer text is looked at. -/
theorem trimStart_append_of_mem {b : UInt8} (hb : IsSolid b) (h : b ∈ s) (u : Source) :
    trimStart (s ++ u) = trimStart s ++ u := by
  fun_induction trimStart s with
  | case1 s r hr ih =>
    obtain ⟨w, hw, rfl⟩ := dropBlank?_eq_append hr
    have hmem : b ∈ r := (List.mem_append.1 h).resolve_left (hb.notMem_blank hw)
    rw [List.append_assoc, trimStart_of_dropBlank?_some (dropBlank?_append hw _), ih hmem]
  | case2 s hs =>
    refine trimStart_of_dropBlank? (dropBlank?_eq_none_iff.2 fun w hw hp => ?_)
    rcases List.prefix_or_prefix_of_prefix hp (List.prefix_append s u) with hws | hsw
    · exact dropBlank?_eq_none_iff.1 hs w hw hws
    · exact hb.notMem_blank hw (hsw.subset h)

theorem dropPrefix?_append_of_mem {p : Source} {b : UInt8} (hb : b ∉ p) (h : b ∈ s) (u : Source) :
    dropPrefix? p (s ++ u) = (dropPrefix? p s).map (· ++ u) := by
  cases hd : dropPrefix? p s with
  | some r =>
    rw [Option.map_some, dropPrefix?_eq_some_iff.1 hd, List.append_assoc]
    exact dropPrefix?_eq_some_iff.2 rfl
  | none =>
    cases hu : dropPrefix? p (s ++ u) with
    | none => rfl
    | some r =>
      rcases List.prefix_or_prefix_of_prefix ⟨r, (dropPrefix?_eq_some_iff.1 hu).symm⟩
        (List.prefix_append s u) with ⟨r', hr'⟩ | hsp
      · rw [dropPrefix?_eq_some_iff.2 hr'.symm] at hd
        cases hd
      · exact absurd (hsp.subset h) hb

section Brace

theorem isSolid_closing : IsSolid Bracket.brace.closing := by
  decide

variable (h : Bracket.brace.closing ∈ s)
include h

theorem mem_of_dropPrefix? {p r : Source} (hp : Bracket.brace.closing ∉ p)
    (hr : dropPrefix? p s = some r) : Bracket.brace.closing ∈ r := by
  rw [dropPrefix?_eq_some_iff.1 hr] at h
  exact (List.mem_append.1 h).resolve_left hp

theorem dropWord?_append_of_mem {word : Source} (hword : Bracket.brace.closing ∉ word) (u : Source) :
    dropWord? word (s ++ u) = (dropWord? word s).map (· ++ u) := by
  rw [dropWord?, dropWord?, dropPrefix?_append_of_mem hword h]
  cases hd : dropPrefix? word s with
  | none => rfl
  | some r =>
    have hmem := mem_of_dropPrefix? h hword hd
    have hhead : (r ++ u).head? = r.head? := by
      cases r with
      | nil => cases hmem
      | cons c r => rfl
    simp only [Option.map_some, hhead]
    split
    · rfl
    · rw [trimStart_append_of_mem isSolid_closing hmem, Option.map_some]

theorem startsFunction_append_of_mem (u : Source) : startsFunction (s ++ u) = startsFunction s := by
  rw [startsFunction, startsFunction, dropWord?_append_of_mem h (by decide),
    dropPrefix?_append_of_mem (b := Bracket.brace.closing) (by decide) h, Option.isSome_map,
    Option.isSome_map]

theorem identifierLength_append_of_mem (u : Source) :
    identifierLength (s ++ u) = identifierLength s := by
  have hhead : (s ++ u).head? = s.head? := by
    cases s with
    | nil => cases h
    | cons c r => rfl
  have htake : (s ++ u).takeWhile isIdentifierByte = s.takeWhile isIdentifierByte := by
    rw [List.takeWhile_append, if_neg]
    intro hlen
    have hall : s.takeWhile isIdentifierByte = s :=
      (List.takeWhile_prefix isIdentifierByte).eq_of_length hlen
    rw [← hall] at h
    exact absurd (List.mem_takeWhile_imp h) (by decide)
  rw [identifierLength, identifierLength, hhead, htake]

theorem mem_of_dropWord? {word r : Source} (hword : Bracket.brace.closing ∉ word)
    (hr : dropWord? word s = some r) : Bracket.brace.closing ∈ r := by
  rw [dropWord?] at hr
  split at hr
  · cases hr
  · next rest hrest =>
    split at hr
    · cases hr
    · cases hr
      exact mem_trimStart isSolid_closing (mem_of_dropPrefix? h hword hrest)

theorem afterAsync_append_of_mem (u : Source) : afterAsync (s ++ u) = afterAsync s ++ u := by
  rw [afterAsync, afterAsync, dropWord?_append_of_mem h (by decide)]
  cases dropWord? (Source.ofString "async") s <;> rfl

theorem withoutModifiers_append_of_mem (u : Source) :
    withoutModifiers (s ++ u) = withoutModifiers s ++ u := by
  have hstatic : (dropWord? (Source.ofString "static") (s ++ u)).getD (s ++ u) =
        (dropWord? (Source.ofString "static") s).getD s ++ u ∧
      Bracket.brace.closing ∈ (dropWord? (Source.ofString "static") s).getD s := by
    rw [dropWord?_append_of_mem h (by decide)]
    cases hd : dropWord? (Source.ofString "static") s with
    | none => exact ⟨rfl, h⟩
    | some r => exact ⟨rfl, mem_of_dropWord? h (by decide) hd⟩
  rw [withoutModifiers, withoutModifiers, hstatic.1]
  generalize (dropWord? (Source.ofString "static") s).getD s = s' at hstatic
  obtain ⟨-, hmem⟩ := hstatic
  have hget : Bracket.brace.closing ∉ Source.ofString "get" := by decide
  have hset : Bracket.brace.closing ∉ Source.ofString "set" := by decide
  simp only [dropWord?_append_of_mem hmem hget, dropWord?_append_of_mem hmem hset]
  cases dropWord? (Source.ofString "get") s' with
  | some r => rfl
  | none => cases dropWord? (Source.ofString "set") s' <;> rfl

theorem mem_drop_identifierLength :
    Bracket.brace.closing ∈ s.drop (identifierLength s) := by
  rw [← List.take_append_drop (identifierLength s) s] at h
  refine (List.mem_append.1 h).resolve_left fun hmem => ?_
  exact absurd (isIdentifierByte_of_mem_take _ hmem) (by decide)

theorem drop_identifierLength_append_of_mem (u : Source) :
    (s ++ u).drop (identifierLength s) = s.drop (identifierLength s) ++ u := by
  have hne := List.ne_nil_of_mem (mem_drop_identifierLength h)
  rw [List.drop_append_of_le_length]
  exact Nat.le_of_lt (List.drop_eq_nil_iff.not.1 hne |> Nat.lt_of_not_le)

end Brace

theorem Bracket.balances_of_split? {k : Bracket} {inside rest : Source}
    (h : k.split? s = some (inside, rest)) :
    s = inside ++ k.closing :: rest ∧ k.Balances inside := by
  obtain ⟨j, hj, heq⟩ := Option.map_eq_some_iff.1 h
  obtain ⟨rfl, rfl⟩ := Prod.mk.inj heq
  obtain ⟨p, t, rfl, rfl, hw⟩ := walks_of_closeFrom (k := k) (by simp [Based]) hj
  have hclose : k.Balances p := by
    rw [Bracket.Balances, Bracket.close?, hw.closeFrom_append (t := [k.closing]) 0, closeFrom_cons,
      frameStep_eq_close_iff.2 ⟨k, rfl, rfl⟩, Nat.zero_add]
  have hdrop : (p ++ k.closing :: t).drop (p.length + 1) = t := by
    rw [← List.singleton_append, ← List.append_assoc]
    exact List.drop_left' (by simp)
  simpa [hdrop] using hclose

theorem Bracket.split?_append_of_some {k : Bracket} {inside rest : Source}
    (h : k.split? s = some (inside, rest)) (u : Source) :
    k.split? (s ++ u) = some (inside, rest ++ u) := by
  obtain ⟨rfl, hb⟩ := Bracket.balances_of_split? h
  rw [List.append_assoc, List.cons_append, hb.split?_eq]

/-- The short forms of a function. -/
inductive Form
  | arrow
  | method
  deriving DecidableEq

/-- The form, the parameters and the body of a function in a short form. -/
def functionParts? (s : Source) : Option (Form × Source × Source) :=
  match arrowParts? s with
  | some (parameters, body) => some (.arrow, parameters, trim body)
  | none =>
    (methodParts? s <|> methodParts? (withoutModifiers s)).map fun (parameters, body) =>
      (.method, parameters, body)

theorem dropArrow?_append_of_mem (h : Bracket.brace.closing ∈ s) (u : Source) :
    dropPrefix? (Source.ofString "=>") (trimStart (s ++ u)) =
      (dropPrefix? (Source.ofString "=>") (trimStart s)).map (· ++ u) := by
  rw [trimStart_append_of_mem isSolid_closing h]
  exact dropPrefix?_append_of_mem (b := Bracket.brace.closing) (by decide)
    (mem_trimStart isSolid_closing h) u

theorem arrowParts?_append_of_head {b : UInt8} {r : Source} (hb : b ≠ Bracket.paren.opening)
    (h : Bracket.brace.closing ∈ b :: r) (u : Source) :
    arrowParts? (b :: r ++ u) = (arrowParts? (b :: r)).map fun parts => (parts.1, parts.2 ++ u) := by
  have hlen := identifierLength_append_of_mem h u
  have hdrop := drop_identifierLength_append_of_mem h u
  have htake : (b :: r ++ u).take (identifierLength (b :: r)) =
      (b :: r).take (identifierLength (b :: r)) := by
    refine List.take_append_of_le_length ?_
    have hne := List.ne_nil_of_mem (mem_drop_identifierLength h)
    exact Nat.le_of_lt (Nat.lt_of_not_le (List.drop_eq_nil_iff.not.1 hne))
  rw [List.cons_append] at *
  rw [arrowParts?_cons, arrowParts?_cons, if_neg hb, if_neg hb]
  simp only [hlen, hdrop, htake]
  split
  · rfl
  · rw [Option.bind_some, Option.bind_some,
      dropArrow?_append_of_mem (mem_drop_identifierLength h)]
    cases dropPrefix? (Source.ofString "=>") (trimStart ((b :: r).drop (identifierLength (b :: r)))) <;>
      rfl

theorem arrowParts?_append_of_some {parameters body : Source}
    (h : arrowParts? s = some (parameters, body)) (hbody : Bracket.brace.closing ∈ body) (u : Source) :
    arrowParts? (s ++ u) = some (parameters, body ++ u) := by
  cases s with
  | nil => cases h
  | cons b r =>
    by_cases hb : b = Bracket.paren.opening
    · rw [arrowParts?_cons, if_pos hb] at h
      obtain ⟨⟨p, rest⟩, hsplit, h⟩ := Option.bind_eq_some_iff.1 h
      obtain ⟨body', harrow, heq⟩ := Option.bind_eq_some_iff.1 h
      obtain ⟨rfl, rfl⟩ := Prod.mk.inj (Option.some.inj heq)
      have hrest : Bracket.brace.closing ∈ rest := by
        obtain ⟨w, hw, -⟩ := exists_append_trimStart rest
        rw [hw, dropPrefix?_eq_some_iff.1 harrow]
        exact List.mem_append_right _ (List.mem_append_right _ hbody)
      rw [List.cons_append, arrowParts?_cons, if_pos hb, Bracket.split?_append_of_some hsplit,
        Option.bind_some, dropArrow?_append_of_mem hrest, harrow, Option.map_some, Option.bind_some]
    · obtain ⟨front, -, hs, -⟩ := exists_append_arrowParts? (List.forall_mem_nil _) h
      have hmem : Bracket.brace.closing ∈ b :: r := hs ▸ List.mem_append_right _ hbody
      rw [arrowParts?_append_of_head hb hmem, h, Option.map_some]

theorem methodParts?_eq (s : Source) : methodParts? s =
    if identifierLength s = 0 then none
    else
      match trimStart (s.drop (identifierLength s)) with
      | [] => none
      | b :: r =>
        if b = Bracket.paren.opening then
          (Bracket.paren.split? r).map fun parts => (parts.1, trim parts.2)
        else none :=
  rfl

section Method

variable (h : Bracket.brace.closing ∈ s)
include h

theorem methodParts?_append_of_mem (u : Source) : methodParts? (s ++ u) =
    if identifierLength s = 0 then none
    else
      match trimStart (s.drop (identifierLength s)) with
      | [] => none
      | b :: r =>
        if b = Bracket.paren.opening then
          (Bracket.paren.split? (r ++ u)).map fun parts => (parts.1, trim parts.2)
        else none := by
  have hmem := mem_drop_identifierLength h
  have hne := trimStart_ne_nil isSolid_closing hmem
  rw [methodParts?_eq, identifierLength_append_of_mem h, drop_identifierLength_append_of_mem h,
    trimStart_append_of_mem isSolid_closing hmem]
  cases ht : trimStart (s.drop (identifierLength s)) with
  | nil => exact absurd ht hne
  | cons b r => rfl

theorem methodParts?_append_of_some {parameters body : Source}
    (hs : methodParts? s = some (parameters, body)) : ∃ rest, rest <:+ s ∧ body = trim rest ∧
      ∀ u, methodParts? (s ++ u) = some (parameters, trim (rest ++ u)) := by
  obtain ⟨w, hw, -⟩ := exists_append_trimStart (s.drop (identifierLength s))
  rw [methodParts?_eq] at hs
  split at hs
  · cases hs
  · next hlen =>
    cases ht : trimStart (s.drop (identifierLength s)) with
    | nil => rw [ht] at hs; cases hs
    | cons b r =>
      rw [ht] at hs hw
      simp only at hs
      split at hs
      · next hb =>
        obtain ⟨⟨p, rest⟩, hsplit, heq⟩ := Option.map_eq_some_iff.1 hs
        obtain ⟨rfl, rfl⟩ := Prod.mk.inj heq
        refine ⟨rest, ?_, rfl, fun u => ?_⟩
        · have hr := (Bracket.balances_of_split? hsplit).1
          refine List.IsSuffix.trans ?_ (List.drop_suffix (identifierLength s) s)
          exact ⟨w ++ b :: (p ++ [Bracket.paren.closing]), by rw [hw, hr]; simp⟩
        · rw [methodParts?_append_of_mem h, if_neg hlen, ht]
          simp only [if_pos hb, Bracket.split?_append_of_some hsplit, Option.map_some]
      · cases hs

end Method

/-- Behind a word that is taken off stands what stands behind the identifier. -/
theorem eq_of_dropWord? {word r : Source} (hword : word.all isIdentifierByte)
    (hdigit : word.head?.any isDigit = false) (hr : dropWord? word s = some r) :
    r = trimStart (s.drop (identifierLength s)) := by
  rw [dropWord?] at hr
  split at hr
  · cases hr
  · next rest hrest =>
    obtain rfl := dropPrefix?_eq_some_iff.1 hrest
    split at hr
    · cases hr
    · next hhead =>
      cases hr
      have htake : rest.takeWhile isIdentifierByte = [] := by
        cases rest with
        | nil => rfl
        | cons c rest => exact List.takeWhile_cons_of_neg (by simpa using hhead)
      have hlen : identifierLength (word ++ rest) = word.length := by
        rw [identifierLength]
        split
        · next hany =>
          cases word with
          | nil => rfl
          | cons c word => exact absurd hany (Bool.eq_false_iff.1 hdigit)
        · rw [List.takeWhile_append_of_pos (fun c hc => List.all_eq_true.1 hword c hc), htake,
            List.append_nil]
      rw [hlen, List.drop_left]

/-- Where a parenthesis stands behind the name, no method is left behind a modifier. -/
theorem methodParts?_withoutModifiers {r : Source}
    (hr : trimStart (s.drop (identifierLength s)) = Bracket.paren.opening :: r) :
    withoutModifiers s = s ∨ methodParts? (withoutModifiers s) = none := by
  have hword {word r' : Source} (hd : dropWord? word s = some r') (hword : word.all isIdentifierByte)
      (hdigit : word.head?.any isDigit = false) : r' = Bracket.paren.opening :: r :=
    (eq_of_dropWord? hword hdigit hd).trans hr
  obtain ⟨hmethod, hmodifiers⟩ :=
    methodParts?_of_head (b := Bracket.paren.opening) (by decide) r
  rw [withoutModifiers]
  cases hstatic : dropWord? (Source.ofString "static") s with
  | some r' =>
    obtain rfl := hword hstatic (by decide) (by decide)
    exact .inr hmethod
  | none =>
    rw [Option.getD_none]
    cases hget : dropWord? (Source.ofString "get") s with
    | some r' =>
      obtain rfl := hword hget (by decide) (by decide)
      exact .inr hmethod
    | none =>
      cases hset : dropWord? (Source.ofString "set") s with
      | some r' =>
        obtain rfl := hword hset (by decide) (by decide)
        exact .inr hmethod
      | none => exact .inl rfl

/-- A text that is no method as it stands, but is one behind its modifiers, is none in front of other
text, either. -/
theorem methodParts?_append_of_none (h : Bracket.brace.closing ∈ s) (hs : methodParts? s = none)
    {parts : Source × Source} (hparts : methodParts? (withoutModifiers s) = some parts) (u : Source) :
    methodParts? (s ++ u) = none := by
  rw [methodParts?_append_of_mem h]
  split
  · rfl
  · next hlen =>
    cases ht : trimStart (s.drop (identifierLength s)) with
    | nil => rfl
    | cons b r =>
      by_cases hb : b = Bracket.paren.opening
      · subst hb
        rcases methodParts?_withoutModifiers ht with heq | heq
        · rw [heq, hs] at hparts
          cases hparts
        · rw [heq] at hparts
          cases hparts
      · exact if_neg hb

theorem getLast?_of_suffix {b : UInt8} {r : Source} (hs : s.getLast? = some b) (hr : r <:+ s)
    (hne : r ≠ []) : r.getLast? = some b := by
  obtain ⟨p, rfl⟩ := hr
  rw [List.getLast?_append] at hs
  obtain ⟨c, hc⟩ := Option.isSome_iff_exists.1 (List.getLast?_isSome.2 hne)
  rwa [hc, Option.some_or, ← hc] at hs

theorem trim_append_of_getLast? (h : s.getLast? = some Bracket.brace.closing) (u : Source) :
    (trim s).getLast? = some Bracket.brace.closing ∧ trim (s ++ u) = trim s ++ trimEnd u := by
  have hmem : Bracket.brace.closing ∈ s := List.mem_of_getLast? h
  have hne := trimStart_ne_nil isSolid_closing hmem
  obtain ⟨w, hw, -⟩ := exists_append_trimStart s
  obtain ⟨q, hq⟩ : ∃ q, trimStart s = q ++ [Bracket.brace.closing] :=
    List.getLast?_eq_some_iff.1 (getLast?_of_suffix h ⟨w, hw.symm⟩ hne)
  have htrim : trim s = q ++ [Bracket.brace.closing] := by
    rw [trim, hq, trimEnd_append isSolid_closing, trimEnd]
  refine ⟨by rw [htrim, List.getLast?_append, List.getLast?_singleton, Option.some_or], ?_⟩
  rw [htrim, trim, trimStart_append_of_mem isSolid_closing hmem, hq, List.append_assoc,
    List.singleton_append, trimEnd_append isSolid_closing, List.append_assoc, List.singleton_append]

theorem functionParts?_append {form : Form} {p body : Source}
    (hs : s.getLast? = some Bracket.brace.closing) (h : functionParts? s = some (form, p, body))
    (hbody : Bracket.brace.closing ∈ body) (u : Source) :
    functionParts? (s ++ u) = some (form, p, body ++ trimEnd u) := by
  have hmem : Bracket.brace.closing ∈ s := List.mem_of_getLast? hs
  have last {r : Source} (hr : r <:+ s) (hmem : Bracket.brace.closing ∈ trim r) :
      trim (r ++ u) = trim r ++ trimEnd u := by
    refine (trim_append_of_getLast? (getLast?_of_suffix hs hr ?_) u).2
    rintro rfl
    exact absurd hmem (by simp [trim, trimStart_of_dropBlank? (s := []) (by decide), trimEnd])
  rw [functionParts?] at h ⊢
  cases harrow : arrowParts? s with
  | some parts =>
    obtain ⟨p', body'⟩ := parts
    rw [harrow] at h
    obtain ⟨rfl, rfl, rfl⟩ : Form.arrow = form ∧ p' = p ∧ trim body' = body := by simpa using h
    obtain ⟨front, -, hfront, -⟩ := exists_append_arrowParts? (List.forall_mem_nil _) harrow
    have hmem' : Bracket.brace.closing ∈ body' := (trim_isInfix body').subset hbody
    rw [arrowParts?_append_of_some harrow hmem', ← last ⟨front, hfront.symm⟩ hbody]
  | none =>
    rw [harrow] at h
    obtain ⟨⟨p', body'⟩, hmethod, heq⟩ := Option.map_eq_some_iff.1 h
    obtain ⟨rfl, rfl, rfl⟩ : Form.method = form ∧ p' = p ∧ body' = body := by simpa using heq
    have harrow' : arrowParts? (s ++ u) = none := by
      cases s with
      | nil => cases hmem
      | cons b r =>
        by_cases hb : b = Bracket.paren.opening
        · subst hb
          obtain ⟨hnone, hmodifiers⟩ :=
            methodParts?_of_head (b := Bracket.paren.opening) (by decide) r
          rw [hmodifiers, hnone] at hmethod
          cases hmethod
        · rw [arrowParts?_append_of_head hb hmem, harrow, Option.map_none]
    rw [harrow']
    cases hm : methodParts? s with
    | some parts =>
      rw [hm] at hmethod
      cases hmethod
      obtain ⟨rest, hrest, rfl, happend⟩ := methodParts?_append_of_some hmem hm
      rw [happend, last hrest hbody]
      rfl
    | none =>
      rw [hm] at hmethod
      replace hmethod : methodParts? (withoutModifiers s) = some (p', body') := hmethod
      obtain ⟨q, hq, -⟩ := exists_append_withoutModifiers s
      have hsuffix : withoutModifiers s <:+ s := ⟨q, hq.symm⟩
      have hne : withoutModifiers s ≠ [] := by
        intro hnil
        rw [hnil] at hmethod
        cases hmethod
      have hmem' := List.mem_of_getLast? (getLast?_of_suffix hs hsuffix hne)
      obtain ⟨rest, hrest, rfl, happend⟩ := methodParts?_append_of_some hmem' hmethod
      rw [methodParts?_append_of_none hmem hm hmethod, withoutModifiers_append_of_mem hmem, happend,
        last (hrest.trans hsuffix) hbody]
      rfl

/-- A comment between slashes and stars, or up to the end of the line. -/
inductive IsComment : Source → Prop
  | block {p : Source} (text : CommentText p) :
      IsComment (Source.slash :: Source.star :: (p ++ [Source.star, Source.slash]))
  | line {p : Source} (text : Source.newline ∉ p) : IsComment (Source.slash :: Source.slash :: p)

def keptModifier (s : Source) : Source :=
  if (dropWord? (Source.ofString "async") (trim s)).isSome then Source.ofString "async " else []

/-- `HasBlock s form p b`: the text is a function in a short form with the parameters `p`, and it ends with
the brace that closes its body, the block `b`. -/
structure HasBlock (s : Source) (form : Form) (p b : Source) : Prop where
  last : s.getLast? = some Bracket.brace.closing
  short : startsFunction (afterAsync (trim s)) = false
  parts : functionParts? (afterAsync (trim s)) = some (form, p, blockText b)
  balanced : Bracket.brace.Balances b

theorem normalForm_eq (s : Source) :
    normalForm s = formAfter (trim s) (keptModifier s) (afterAsync (trim s)) := by
  rw [normalForm, afterAsync, keptModifier]
  cases dropWord? (Source.ofString "async") (trim s) <;> rfl

theorem formAfter_eq {s modifier rest p body : Source} {form : Form}
    (hshort : startsFunction rest = false) (hparts : functionParts? rest = some (form, p, body)) :
    formAfter s modifier rest =
      match block? body, form with
      | some block, _ => .ok (functionText modifier p block)
      | none, .arrow =>
        if trimEnd (dropTrailing Source.semicolon body) = [] then .error .unrecognizedFunction
        else .ok (functionText modifier p
          (returnBlock (trimEnd (dropTrailing Source.semicolon body))))
      | none, .method => .error .unrecognizedFunction := by
  rw [formAfter, hshort, if_neg Bool.false_ne_true]
  rw [functionParts?] at hparts
  cases harrow : arrowParts? rest with
  | some parts =>
    obtain ⟨p', body'⟩ := parts
    rw [harrow] at hparts
    obtain ⟨rfl, rfl, rfl⟩ : Form.arrow = form ∧ p' = p ∧ trim body' = body := by simpa using hparts
    simp only [arrowBlock?]
    cases block? (trim body') with
    | some block => rfl
    | none => dsimp only; split_ifs <;> rfl
  | none =>
    rw [harrow] at hparts
    obtain ⟨⟨p', body'⟩, hmethod, heq⟩ := Option.map_eq_some_iff.1 hparts
    obtain ⟨rfl, rfl, rfl⟩ : Form.method = form ∧ p' = p ∧ body' = body := by simpa using heq
    simp only [hmethod]
    cases block? body' <;> rfl

theorem block?_append {b v : Source} (hb : Bracket.brace.Balances b) (hne : trim v ≠ [])
    (hsemicolon : trim v ≠ [Source.semicolon]) : block? (blockText b ++ v) = none := by
  have htext : blockText b ++ v = Bracket.brace.opening :: (b ++ Bracket.brace.closing :: v) := by
    simp [blockText]
  rw [htext, block?, if_pos rfl, hb.split?_eq]
  exact if_neg (not_or.2 ⟨hne, hsemicolon⟩)

theorem dropTrailing_append {a b : UInt8} (h : a ≠ b) (p q : Source) :
    dropTrailing b (p ++ a :: q) = p ++ a :: dropTrailing b q := by
  have hrev : (p ++ a :: q).reverse = q.reverse ++ (a :: p.reverse) := by simp
  rw [dropTrailing, dropTrailing, hrev, List.dropWhile_append]
  split
  · next hnil =>
    rw [List.isEmpty_iff.1 hnil, List.dropWhile_cons_of_neg (by simp [h])]
    simp
  · simp

theorem IsComment.exists_cons {c : Source} (h : IsComment c) : ∃ d, c = Source.slash :: d := by
  cases h <;> exact ⟨_, rfl⟩

def endComment (c : Source) : Source :=
  0x20 :: trimEnd (dropTrailing Source.semicolon (trimEnd c))

theorem IsComment.trimEnd_append {c : Source} (h : IsComment c) (p : Source) :
    trimEnd (dropTrailing Source.semicolon (p ++ trimEnd (0x20 :: c))) = p ++ endComment c := by
  obtain ⟨d, rfl⟩ := h.exists_cons
  have hsolid : IsSolid Source.slash := by decide
  have hne : Source.slash ≠ Source.semicolon := by decide
  have hspace : trimEnd (0x20 :: Source.slash :: d) = 0x20 :: Source.slash :: trimEnd d :=
    Template.trimEnd_append (p := [0x20]) hsolid d
  have hslash (x : Source) : trimEnd (Source.slash :: x) = Source.slash :: trimEnd x :=
    Template.trimEnd_append (p := []) hsolid x
  have hdrop (x : Source) : dropTrailing Source.semicolon (Source.slash :: x) =
      Source.slash :: dropTrailing Source.semicolon x :=
    dropTrailing_append hne [] x
  have hp (x : Source) : p ++ 0x20 :: Source.slash :: x = (p ++ [0x20]) ++ Source.slash :: x := by
    simp
  rw [endComment, hslash, hdrop, hslash, hspace, hp, hp, dropTrailing_append hne,
    Template.trimEnd_append hsolid]

theorem IsComment.trim_eq {c : Source} (h : IsComment c) :
    ∃ x, trim (trimEnd (0x20 :: c)) = Source.slash :: x := by
  obtain ⟨d, rfl⟩ := h.exists_cons
  have hsolid : IsSolid Source.slash := by decide
  have hspace : trimEnd (0x20 :: Source.slash :: d) = 0x20 :: Source.slash :: trimEnd d :=
    Template.trimEnd_append (p := [0x20]) hsolid d
  refine ⟨trimEnd (trimEnd d), ?_⟩
  rw [hspace, trim_space_append, trim, trimStart_of_dropBlank? (dropBlank?_solid hsolid _)]
  exact Template.trimEnd_append (p := []) hsolid _

theorem length_lt_returnBlock (e : Source) : e.length < (returnBlock e).length := by
  rw [returnBlock]
  simp only [List.length_cons, List.length_append]
  omega

theorem HasBlock.with_comment {s p b c : Source} {form : Form} (h : HasBlock s form p b) :
    keptModifier (s ++ 0x20 :: c) = keptModifier s ∧
      startsFunction (afterAsync (trim (s ++ 0x20 :: c))) = false ∧
      functionParts? (afterAsync (trim (s ++ 0x20 :: c))) =
        some (form, p, blockText b ++ trimEnd (0x20 :: c)) := by
  obtain ⟨hlast, htrim⟩ := trim_append_of_getLast? h.last (0x20 :: c)
  have hmem : Bracket.brace.closing ∈ trim s := List.mem_of_getLast? hlast
  have hrest : (afterAsync (trim s)).getLast? = some Bracket.brace.closing := by
    obtain ⟨q, hq, -⟩ := exists_append_getD_dropWord?
      (inert_of_mem_ofString (w := "async") (by decide)) (trim s)
    refine getLast?_of_suffix hlast ⟨q, hq.symm⟩ fun hnil => ?_
    have hparts := h.parts
    rw [hnil] at hparts
    cases hparts
  have hblock : Bracket.brace.closing ∈ blockText b := by simp [blockText]
  refine ⟨?_, ?_, ?_⟩
  · rw [keptModifier, keptModifier, htrim, dropWord?_append_of_mem hmem (by decide), Option.isSome_map]
  · rw [htrim, afterAsync_append_of_mem hmem, startsFunction_append_of_mem (List.mem_of_getLast? hrest),
      h.short]
  · rw [htrim, afterAsync_append_of_mem hmem, functionParts?_append hrest h.parts hblock,
      trimEnd_trimEnd]

/-- A comment behind the brace that closes the body changes what a function in a short form is taken for.
An arrow function returns what was its block as an expression, with the comment; a method is refused. -/
theorem normalForm_with_comment {s p b c : Source} {form : Form} (h : HasBlock s form p b)
    (hc : IsComment c) :
    normalForm s = .ok (functionText (keptModifier s) p (blockText b)) ∧
      normalForm (s ++ 0x20 :: c) =
        (if form = .method then .error .unrecognizedFunction
        else .ok (functionText (keptModifier s) p (returnBlock (blockText b ++ endComment c)))) ∧
      normalForm (s ++ 0x20 :: c) ≠ normalForm s := by
  have hform : normalForm s = .ok (functionText (keptModifier s) p (blockText b)) := by
    rw [normalForm_eq, formAfter_eq h.short h.parts, h.balanced.block?_eq]
  have hcomment : normalForm (s ++ 0x20 :: c) =
      (if form = .method then .error .unrecognizedFunction
      else .ok (functionText (keptModifier s) p (returnBlock (blockText b ++ endComment c)))) := by
    obtain ⟨hmodifier, hshort, hparts⟩ := h.with_comment (c := c)
    have hblock : block? (blockText b ++ trimEnd (0x20 :: c)) = none := by
      obtain ⟨x, hx⟩ := hc.trim_eq
      exact block?_append h.balanced (by simp [hx]) (by simp [hx, Source.slash, Source.semicolon])
    rw [normalForm_eq, formAfter_eq hshort hparts, hblock, hmodifier, hc.trimEnd_append]
    cases form with
    | method => rfl
    | arrow => exact if_neg (by simp [blockText])
  refine ⟨hform, hcomment, ?_⟩
  rw [hform, hcomment]
  cases form with
  | method => simp
  | arrow =>
    intro heq
    have heq := List.append_cancel_left (Except.ok.inj heq)
    have hlt := length_lt_returnBlock (blockText b ++ endComment c)
    rw [heq, List.length_append] at hlt
    omega

/-- An arrow function with a brace in its block, and a comment that ends with a semicolon. -/
theorem normalForm_with_comment_line :
    let s := Source.ofString "async (a) => \x7b f(\"\x7d\"); \x7d"
    let c := Source.ofString "// done;"
    normalForm s = .ok (Source.ofString "async function(a) \x7b f(\"\x7d\"); \x7d") ∧
      normalForm (s ++ 0x20 :: c) = .ok (Source.ofString
        "async function(a) \x7b return (\x7b f(\"\x7d\"); \x7d // done\n); \x7d") := by
  intro s c
  have hs : HasBlock s .arrow (Source.ofString "a") (Source.ofString " f(\"\x7d\"); ") :=
    ⟨by decide, by decide +kernel, by decide +kernel, by decide +kernel⟩
  have hc : IsComment c := .line (p := Source.ofString " done;") (by decide)
  obtain ⟨hform, hcomment, -⟩ := normalForm_with_comment hs hc
  exact ⟨hform.trans (by decide +kernel), hcomment.trans (by decide +kernel)⟩

/-- A block that is returned as an expression because of a comment behind it. -/
theorem normalForm_returns_block :
    let s := Source.ofString "() => \x7b return 1; \x7d"
    let c := Source.ofString "// c"
    HasBlock s .arrow [] (Source.ofString " return 1; ") ∧ IsComment c ∧
      normalForm s = .ok (Source.ofString "function() \x7b return 1; \x7d") ∧
      normalForm (s ++ 0x20 :: c) =
        .ok (Source.ofString "function() \x7b return (\x7b return 1; \x7d // c\n); \x7d") := by
  refine ⟨⟨by decide, by decide +kernel, by decide +kernel, by decide +kernel⟩,
    .line (p := Source.ofString " c") (by decide), by decide +kernel, by decide +kernel⟩

/-- What may stand between the word `function` and the parameters: white space, a star, a name. -/
structure IsFunctionHead (h : Source) : Prop where
  word : h.head?.any isIdentifierByte = false
  byte : ∀ b ∈ h, [b] ∈ blanks ∨ b = Source.star ∨ isIdentifierByte b

def literalText (h p w b : Source) : Source :=
  Source.ofString "function" ++ h ++ Bracket.paren.opening :: (p ++ Bracket.paren.closing ::
    (w ++ blockText b))

/-- A whole function with the word `function`, perhaps after the word `async`. -/
inductive IsFunctionLiteral : Source → Prop
  | plain {h p w b : Source} (head : IsFunctionHead h) (parameters : Bracket.paren.Balances p)
      (blank : trimStart w = []) (body : Bracket.brace.Balances b) :
      IsFunctionLiteral (literalText h p w b)
  | async {v h p w b : Source} (word : v.head?.any isIdentifierByte = false) (ne_nil : v ≠ [])
      (space : trimStart v = []) (head : IsFunctionHead h) (parameters : Bracket.paren.Balances p)
      (blank : trimStart w = []) (body : Bracket.brace.Balances b) :
      IsFunctionLiteral (Source.ofString "async" ++ v ++ literalText h p w b)

theorem IsFunctionHead.opening_notMem {h : Source} (hh : IsFunctionHead h) :
    Bracket.paren.opening ∉ h := by
  intro hmem
  rcases hh.byte _ hmem with hb | hb | hb
  · exact absurd hb (by decide)
  · exact absurd hb (by decide)
  · exact absurd hb (by decide)

/-- White space in front of a byte that is none: what is left stands in front of it. -/
theorem exists_trimStart_append {b : UInt8} (hb : IsSolid b) (p r : Source) :
    ∃ q, q <:+ p ∧ trimStart (p ++ b :: r) = q ++ b :: r := by
  have hmem : b ∈ p ++ [b] := by simp
  obtain ⟨w, hw, -⟩ := exists_append_trimStart (p ++ [b])
  have hlast : (trimStart (p ++ [b])).getLast? = some b :=
    getLast?_of_suffix (s := p ++ [b]) (by simp) ⟨w, hw.symm⟩ (trimStart_ne_nil hb hmem)
  obtain ⟨q, hq⟩ := List.getLast?_eq_some_iff.1 hlast
  refine ⟨q, ⟨w, ?_⟩, ?_⟩
  · rw [hq, ← List.append_assoc] at hw
    exact (List.append_cancel_right hw).symm
  · have happend := trimStart_append_of_mem hb hmem r
    simpa [hq] using happend

/-- A name at the front of a text that begins with a word is the word, or ends within it. -/
theorem exists_append_of_word {word name x rest : Source} (hname : ∀ b ∈ name, isIdentifierByte b)
    (hx : x.head?.any isIdentifierByte = false) (h : word ++ x = name ++ rest) :
    ∃ w, word = name ++ w ∧ rest = w ++ x := by
  rcases List.append_eq_append_iff.1 h with ⟨w, rfl, rfl⟩ | ⟨w, rfl, rfl⟩
  · cases w with
    | nil => exact ⟨[], by simp, rfl⟩
    | cons c w =>
      have hc := hname c (by simp)
      simp [hc] at hx
  · exact ⟨w, rfl, rfl⟩

theorem isCallOf_eq_false {name s : Source}
    (h : ∀ rest a, s = name ++ rest → trimStart rest = Bracket.paren.opening :: a →
      Bracket.paren.closesAtEnd a = false) : isCallOf name s = false := by
  cases hd : dropPrefix? name s with
  | none => cases name <;> simp [isCallOf, hd]
  | some rest =>
    cases name with
    | nil => rfl
    | cons c name =>
      have hcall := h rest
      simp only [isCallOf, hd]
      cases ht : trimStart rest with
      | nil => rfl
      | cons b a =>
        by_cases hb : b = Bracket.paren.opening
        · subst hb
          simpa using hcall a (dropPrefix?_eq_some_iff.1 hd) ht
        · simp [hb]

/-- A text that begins with a word and something in parentheses is a call of that word, or of none, only
if the parentheses close at its end. -/
theorem isCallOf_word {word name h r : Source} (hname : ∀ b ∈ name, isIdentifierByte b)
    (hword : ∀ b ∈ word, IsSolid b ∧ b ≠ Bracket.paren.opening)
    (hh : (h ++ Bracket.paren.opening :: r).head?.any isIdentifierByte = false)
    (hparen : Bracket.paren.opening ∉ h) (hr : Bracket.paren.closesAtEnd r = false) :
    isCallOf name (word ++ (h ++ Bracket.paren.opening :: r)) = false := by
  refine isCallOf_eq_false fun rest a hs ht => ?_
  obtain ⟨w, rfl, rfl⟩ := exists_append_of_word hname hh hs
  cases w with
  | nil =>
    obtain ⟨q, hq, htrim⟩ := exists_trimStart_append (b := Bracket.paren.opening) (by decide) h r
    rw [List.nil_append, htrim] at ht
    cases q with
    | nil =>
      obtain rfl := (List.cons.inj ht).2
      exact hr
    | cons c q =>
      obtain rfl := (List.cons.inj ht).1
      exact absurd (hq.subset (List.mem_cons_self ..)) hparen
  | cons c w =>
    obtain ⟨hsolid, hne⟩ := hword c (by simp)
    rw [List.cons_append, trimStart_of_dropBlank? (dropBlank?_solid hsolid _)] at ht
    exact absurd (List.cons.inj ht).1 hne

theorem closesAtEnd_of_balances {p u : Source} (hp : Bracket.paren.Balances p) (hu : u ≠ []) :
    Bracket.paren.closesAtEnd (p ++ Bracket.paren.closing :: u) = false := by
  have hclose : Bracket.paren.close? (p ++ Bracket.paren.closing :: u) = some p.length := by
    rw [Bracket.close?, hp.walks.closeFrom_append (t := Bracket.paren.closing :: u) 0, closeFrom_cons,
      frameStep_eq_close_iff.2 ⟨_, rfl, rfl⟩, Nat.zero_add]
  simp [Bracket.closesAtEnd, hclose, hu]

section Literal

variable {h p w b : Source} (head : IsFunctionHead h) (parameters : Bracket.paren.Balances p) (u : Source)

theorem literalText_append_eq : literalText h p w b ++ u = Source.ofString "function" ++
    (h ++ Bracket.paren.opening :: (p ++ Bracket.paren.closing :: (w ++ (blockText b ++ u)))) := by
  simp [literalText]

include head in
theorem head?_head (r : Source) :
    (h ++ Bracket.paren.opening :: r).head?.any isIdentifierByte = false := by
  cases h with
  | nil => simp; decide
  | cons c h => exact head.word

include head parameters in
/-- A function with the word `function` is no call of a function with a name, whatever follows it. -/
theorem isCallOf_literalText {name : Source} (hname : ∀ b ∈ name, isIdentifierByte b) :
    isCallOf name (literalText h p w b ++ u) = false := by
  rw [literalText_append_eq]
  refine isCallOf_word hname (by decide +kernel) (head?_head head _) head.opening_notMem ?_
  exact closesAtEnd_of_balances parameters (by simp [blockText])

include head in
theorem startsFunction_literalText : startsFunction (literalText h p w b ++ u) = true := by
  have hhead := head?_head head
    (p ++ Bracket.paren.closing :: (w ++ (blockText b ++ u)))
  rw [literalText_append_eq, startsFunction, dropWord?, dropPrefix?_eq_some_iff.2 rfl]
  simp only [hhead, Bool.false_eq_true, if_false, Option.isSome_some, Bool.true_or]

end Literal

section Async

variable {v r : Source} (word : v.head?.any isIdentifierByte = false) (ne_nil : v ≠ [])
  (space : trimStart v = [])

theorem trimStart_function (space : trimStart v = []) (r : Source) :
    trimStart (v ++ (Source.ofString "function" ++ r)) = Source.ofString "function" ++ r := by
  rw [trimStart_append space, trimStart_of_dropBlank?]
  exact dropBlank?_solid (b := 0x66) (by decide) _

include word ne_nil in
theorem head?_space (r : Source) : (v ++ r).head?.any isIdentifierByte = false := by
  cases v with
  | nil => exact absurd rfl ne_nil
  | cons c v => exact word

include word ne_nil space in
theorem isCallOf_async {name : Source} (hname : ∀ b ∈ name, isIdentifierByte b) :
    isCallOf name (Source.ofString "async" ++ (v ++ (Source.ofString "function" ++ r))) = false := by
  refine isCallOf_eq_false fun rest a hs ht => ?_
  obtain ⟨w, hw, rfl⟩ := exists_append_of_word hname (head?_space word ne_nil _) hs
  cases w with
  | nil =>
    rw [List.nil_append, trimStart_function space] at ht
    exact absurd (List.cons.inj ht).1 (by decide)
  | cons c w =>
    have hc : ∀ b ∈ Source.ofString "async", IsSolid b ∧ b ≠ Bracket.paren.opening := by
      decide +kernel
    obtain ⟨hsolid, hne⟩ := hc c (by simp [hw])
    rw [List.cons_append, trimStart_of_dropBlank? (dropBlank?_solid hsolid _)] at ht
    exact absurd (List.cons.inj ht).1 hne

include word ne_nil space in
theorem dropWord?_async : dropWord? (Source.ofString "async")
    (Source.ofString "async" ++ (v ++ (Source.ofString "function" ++ r))) =
      some (Source.ofString "function" ++ r) := by
  rw [dropWord?, dropPrefix?_eq_some_iff.2 rfl]
  simp only [head?_space word ne_nil, Bool.false_eq_true, if_false, trimStart_function space]

end Async

theorem IsFunctionLiteral.trim_append {f : Source} (hf : IsFunctionLiteral f) (u : Source) :
    trim (f ++ u) = f ++ trimEnd u := by
  have hends {q : Source} (hsolid : dropBlank? f = none) (hq : f = q ++ [Bracket.brace.closing]) :
      trim (f ++ u) = f ++ trimEnd u := by
    rw [(trim_append_of_getLast? (s := f) (by simp [hq]) u).2,
      trim_of_ends hsolid isSolid_closing hq]
  cases hf with
  | @plain h p w b =>
    exact hends (dropBlank?_solid (b := 0x66) (by decide) _)
      (q := Source.ofString "function" ++ h ++ Bracket.paren.opening :: (p ++ Bracket.paren.closing ::
        (w ++ Bracket.brace.opening :: b))) (by simp [literalText, blockText])
  | @async v h p w b =>
    exact hends (dropBlank?_solid (b := 0x61) (by decide) _)
      (q := Source.ofString "async" ++ v ++ (Source.ofString "function" ++ h ++ Bracket.paren.opening ::
        (p ++ Bracket.paren.closing :: (w ++ Bracket.brace.opening :: b))))
      (by simp [literalText, blockText])

/-- A function is no call of a function with a name, and is taken for a function, whatever follows it. -/
theorem IsFunctionLiteral.isFunction {f : Source} (hf : IsFunctionLiteral f) (u : Source) :
    (∀ name : Source, (∀ b ∈ name, isIdentifierByte b) → isCallOf name (f ++ u) = false) ∧
      isFunction (f ++ u) = true := by
  cases hf with
  | @plain h p w b head parameters blank body =>
    refine ⟨fun name hname => isCallOf_literalText head parameters u hname, ?_⟩
    have hword : dropWord? (Source.ofString "async") (literalText h p w b ++ u) = none := by
      rw [literalText_append_eq]
      rfl
    rw [Template.isFunction, hword, Option.getD_none, startsFunction_literalText head, Bool.true_or]
  | @async v h p w b word ne_nil space head parameters blank body =>
    have hstarts := startsFunction_literalText (p := p) (w := w) (b := b) head u
    rw [literalText_append_eq] at hstarts
    rw [List.append_assoc, List.append_assoc, literalText_append_eq]
    refine ⟨fun name hname => isCallOf_async word ne_nil space hname, ?_⟩
    rw [Template.isFunction, dropWord?_async word ne_nil space, Option.getD_some, hstarts, Bool.true_or]

/-- A whole function at the beginning decides alone, also where the function is called or a property of it
is read: the text is no ordinary expression under any options, and where the isolating function and those
that are passed through have names made of identifier bytes, it has the shape of a function. -/
theorem shape_of_function_literal {f : Source} (hf : IsFunctionLiteral f) (u : Source) (o : Options) :
    Shape.of o (f ++ u) ∈ [.isolated, .passedThrough, .function] ∧
      ((∀ b ∈ o.isolator, isIdentifierByte b) →
        (∀ name ∈ o.passthrough, ∀ b ∈ name, isIdentifierByte b) →
          Shape.of o (f ++ u) = .function) := by
  obtain ⟨hcall, hfunction⟩ := hf.isFunction (trimEnd u)
  have hne : f ++ trimEnd u ≠ [] := by
    cases hf <;> simp [literalText]
  have hshape : Shape.of o (f ++ u) =
      if isCallOf o.isolator (f ++ trimEnd u) then .isolated
      else if o.passthrough.any (isCallOf · (f ++ trimEnd u)) then .passedThrough
      else .function := by
    simp only [Shape.of, hf.trim_append, hne, hfunction, if_false, if_true]
  rw [hshape]
  refine ⟨by split_ifs <;> decide, fun hi hp => ?_⟩
  have hpassed : o.passthrough.any (isCallOf · (f ++ trimEnd u)) = false :=
    List.any_eq_false.2 fun name hname => by simp [hcall name (hp name hname)]
  rw [hcall o.isolator hi, hpassed]
  rfl

/-- A generator function in which a template has a brace, called on the spot. -/
theorem shape_of_function_literal_generator :
    Shape.of Options.standard (Source.ofString
      "async function* g(a) \x7b yield \x60\x7d$\x7ba\x7d\x60 \x7d(1).next()") = .function := by
  have hf : IsFunctionLiteral (Source.ofString
      "async function* g(a) \x7b yield \x60\x7d$\x7ba\x7d\x60 \x7d") :=
    .async (v := [0x20]) (h := Source.ofString "* g") (p := Source.ofString "a") (w := [0x20])
      (b := Source.ofString " yield \x60\x7d$\x7ba\x7d\x60 ") (by decide) (by decide) (by decide +kernel)
      ⟨by decide, by decide +kernel⟩ (by decide +kernel) (by decide +kernel) (by decide +kernel)
  exact (shape_of_function_literal hf (Source.ofString "(1).next()") .standard).2
    (by decide +kernel) (by decide +kernel)

/-- A function that is called on the spot has the shape of a function, though the whole is a call. -/
theorem called_function_not_isolated :
    let f := Source.ofString "function() \x7b return 1; \x7d"
    let u := Source.ofString "()"
    IsFunctionLiteral f ∧ trim u ≠ [] ∧ u.head? = some Bracket.paren.opening ∧
      Shape.of Options.standard (f ++ u) = .function := by
  refine ⟨.plain (h := []) (p := []) (w := [0x20]) (b := Source.ofString " return 1; ")
    ⟨by decide +kernel, by decide +kernel⟩ (by decide +kernel) (by decide +kernel)
    (by decide +kernel),
    by decide +kernel, by decide, by decide +kernel⟩

end Reactivity.Template
