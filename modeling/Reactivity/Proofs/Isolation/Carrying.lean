import Mathlib.Data.Bool.AllAny
import Reactivity.Proofs.Isolation.Normal
import Reactivity.Proofs.Isolation.Outline

namespace Reactivity.Template

def AsciiSpaced (s : Source) : Prop :=
  ∀ w ∈ blanks, w <:+: s → ∀ b ∈ w, b < 0x80

theorem AsciiSpaced.mono {s t : Source} (h : AsciiSpaced s) (ht : t <:+: s) : AsciiSpaced t :=
  fun w hw hwt => h w hw (hwt.trans ht)

theorem eq_of_utf8EncodeChar_append {c d : Char} {s t : Source}
    (h : String.utf8EncodeChar c ++ s = String.utf8EncodeChar d ++ t) : c = d := by
  have hc := ByteArray.utf8DecodeChar?_utf8EncodeChar_append (b := s.toByteArray) (c := c)
  have hd := ByteArray.utf8DecodeChar?_utf8EncodeChar_append (b := t.toByteArray) (c := d)
  rw [← List.toByteArray_append, h, List.toByteArray_append, hd] at hc
  exact (Option.some.inj hc).symm

/-- The encoding of a character stands in the encoding of a text only where the character does. -/
theorem exists_append_of_flatMap_eq {c : Char} {cs : List Char} {u v : Source}
    (h : cs.flatMap String.utf8EncodeChar = u ++ (String.utf8EncodeChar c ++ v)) :
    ∃ us vs, cs = us ++ c :: vs ∧ us.flatMap String.utf8EncodeChar = u ∧
      vs.flatMap String.utf8EncodeChar = v := by
  induction cs generalizing u with
  | nil => simp [String.utf8EncodeChar_ne_nil] at h
  | cons d ds ih =>
    rw [List.flatMap_cons] at h
    by_cases hu : u = []
    · subst hu
      obtain rfl := eq_of_utf8EncodeChar_append h
      exact ⟨[], ds, rfl, rfl, List.append_cancel_left h⟩
    · rcases List.append_eq_append_iff.1 h with ⟨a, rfl, ha⟩ | ⟨a, ha, hav⟩
      · obtain ⟨us, vs, rfl, hus, hvs⟩ := ih ha
        exact ⟨d :: us, vs, rfl, by rw [List.flatMap_cons, hus], hvs⟩
      · cases a with
        | nil =>
          obtain ⟨us, vs, rfl, hus, hvs⟩ := ih (u := []) hav.symm
          exact ⟨d :: us, vs, rfl, by rw [List.flatMap_cons, hus, ha, List.append_nil, List.append_nil],
            hvs⟩
        | cons b a =>
          obtain ⟨x, xs, hx⟩ := List.exists_cons_of_ne_nil (String.utf8EncodeChar_ne_nil (c := c))
          have hpos : 0 < (String.utf8EncodeChar c).length := hx ▸ Nat.succ_pos _
          have hc : (String.utf8EncodeChar c)[0] = b := by
            rw [hx] at hav
            simp only [hx, List.getElem_cons_zero]
            exact (List.cons.inj hav).1
          have hlt : u.length < (String.utf8EncodeChar d).length := by
            rw [ha, List.length_append, List.length_cons]
            omega
          have hd : (String.utf8EncodeChar d)[u.length] = b := by
            simp only [ha, List.getElem_append_right (Nat.le_refl _), Nat.sub_self,
              List.getElem_cons_zero]
          have hfirst : (String.utf8EncodeChar c)[0].IsUTF8FirstByte :=
            UInt8.isUTF8FirstByte_getElem_utf8EncodeChar.2 rfl
          rw [hc, ← hd] at hfirst
          exact absurd (List.length_eq_zero_iff.1
            (UInt8.isUTF8FirstByte_getElem_utf8EncodeChar.1 hfirst)) hu

theorem mem_of_utf8EncodeChar_infix {c : Char} {cs : List Char} {u v : Source}
    (h : cs.flatMap String.utf8EncodeChar = u ++ (String.utf8EncodeChar c ++ v)) : c ∈ cs := by
  obtain ⟨us, vs, rfl, -⟩ := exists_append_of_flatMap_eq h
  exact List.mem_append_right us (List.mem_cons_self ..)

/-- Characters outside of ASCII that are no white space do not make any in the encoding. -/
theorem asciiSpaced_ofString {s : String}
    (h : ∀ c ∈ s.toList, c ∈ blankCharacters → c.val < 0x80) : AsciiSpaced (Source.ofString s) := by
  intro w hw hi b hb
  obtain ⟨c, hc, rfl⟩ := List.mem_map.1 hw
  obtain ⟨u, v, heq⟩ := hi
  have hmem : c ∈ s.toList := mem_of_utf8EncodeChar_infix (heq.symm.trans (List.append_assoc ..))
  have hascii : c.val.toNat < 0x80 := UInt32.lt_iff_toNat_lt.1 (h c hmem hc)
  rw [String.utf8EncodeChar, if_pos (Nat.le_of_lt_succ hascii), List.mem_singleton] at hb
  rw [hb, UInt8.lt_iff_toNat_lt, UInt8.toNat_ofNat']
  exact Nat.lt_of_le_of_lt (Nat.mod_le ..) hascii

theorem exists_append_trimStart (s : Source) : ∃ w, s = w ++ trimStart s ∧ trimStart w = [] := by
  fun_induction trimStart s with
  | case1 s r hr ih =>
    obtain ⟨v, hv, rfl⟩ := dropBlank?_eq_append hr
    obtain ⟨w, hw, hblank⟩ := ih
    refine ⟨v ++ w, by rw [List.append_assoc, ← hw], ?_⟩
    rw [trimStart_of_dropBlank?_some (dropBlank?_append hv w), hblank]
  | case2 s hs => exact ⟨[], rfl, trimStart_of_dropBlank? (by decide)⟩

theorem exists_append_trim (s : Source) :
    ∃ v w, s = v ++ (trim s ++ w) ∧ trimStart v = [] ∧ trimStart w = [] := by
  obtain ⟨v, hv, hblank⟩ := exists_append_trimStart s
  obtain ⟨w, hw, hblank'⟩ := exists_append_trimEnd (trimStart s)
  exact ⟨v, w, by rw [trim, ← hw, ← hv], hblank, hblank'⟩

theorem trim_isInfix (s : Source) : trim s <:+: s := by
  obtain ⟨v, w, hs, -⟩ := exists_append_trim s
  exact ⟨v, w, by rw [List.append_assoc, ← hs]⟩

theorem exists_blank_of_mem {w : Source} (h : trimStart w = []) {b : UInt8} (hb : b ∈ w) :
    ∃ v ∈ blanks, v <:+: w ∧ b ∈ v := by
  fun_induction trimStart w with
  | case1 s r hr ih =>
    obtain ⟨v, hv, rfl⟩ := dropBlank?_eq_append hr
    rcases List.mem_append.1 hb with hb | hb
    · exact ⟨v, hv, (List.prefix_append v r).isInfix, hb⟩
    · obtain ⟨v', hv', hi, hb'⟩ := ih h hb
      exact ⟨v', hv', hi.trans (List.suffix_append v r).isInfix, hb'⟩
  | case2 s hs =>
    rw [h] at hb
    cases hb

theorem inert_of_trimStart_eq_nil {w : Source} (h : trimStart w = []) : ∀ b ∈ w, Inert b := by
  intro b hb
  obtain ⟨v, hv, -, hbv⟩ := exists_blank_of_mem h hb
  exact inert_of_mem_blank hv b hbv

theorem AsciiSpaced.lt_of_trimStart_eq_nil {w : Source} (ha : AsciiSpaced w)
    (h : trimStart w = []) : ∀ b ∈ w, b < 0x21 := by
  intro b hb
  obtain ⟨v, hv, hi, hbv⟩ := exists_blank_of_mem h hb
  refine (blank_bytes v hv b hbv).resolve_right ?_
  exact UInt8.not_le.2 (ha v hv hi b hbv)

theorem AsciiSpaced.exists_append_trim {s : Source} (ha : AsciiSpaced s) :
    ∃ v w, s = v ++ (trim s ++ w) ∧ (∀ b ∈ v, b < 0x21) ∧ ∀ b ∈ w, b < 0x21 := by
  obtain ⟨v, w, hs, hv, hw⟩ := Template.exists_append_trim s
  have hv' : v <:+: s := ⟨[], trim s ++ w, hs.symm⟩
  have hw' : w <:+: s := ⟨v ++ trim s, [], by rw [List.append_nil, List.append_assoc, ← hs]⟩
  exact ⟨v, w, hs, (ha.mono hv').lt_of_trimStart_eq_nil hv,
    (ha.mono hw').lt_of_trimStart_eq_nil hw⟩

theorem calm_of_lt {b : UInt8} (h : b < 0x21) : Calm b := by
  have hne {c : UInt8} (hc : 0x21 ≤ c) : b ≠ c := by
    rintro rfl
    exact absurd hc (UInt8.not_le.2 h)
  refine ⟨⟨⟨?_, ?_, ?_, ?_⟩, ?_, ?_, ?_⟩, ?_, ?_⟩ <;> exact hne (by decide)

theorem isIdentifierByte_of_lt {b : UInt8} (h : b < 0x21) : isIdentifierByte b = false := by
  have hlt (c : UInt8) (hc : 0x21 ≤ c) : ¬ c ≤ b := fun hcb =>
    absurd (UInt8.le_trans hc hcb) (UInt8.not_le.2 h)
  have hne (c : UInt8) (hc : 0x21 ≤ c) : b ≠ c := fun hbc => hlt c hc (hbc ▸ UInt8.le_refl b)
  simp [isIdentifierByte, isDigit, hlt, hne Source.underscore (by decide),
    hne Source.dollar (by decide)]

theorem exists_append_dropTrailing (b : UInt8) (s : Source) :
    ∃ w, s = dropTrailing b s ++ w ∧ ∀ c ∈ w, c = b := by
  refine ⟨(s.reverse.takeWhile (· == b)).reverse, ?_, fun c hc => ?_⟩
  · rw [dropTrailing, ← List.reverse_append, List.takeWhile_append_dropWhile, List.reverse_reverse]
  · simpa using List.mem_takeWhile_imp (List.mem_reverse.1 hc)

theorem Crosses.of_lt {tag w : Source} (hw : ∀ b ∈ w, b < 0x21) : Crosses tag w [] := by
  rcases List.eq_nil_or_concat w with rfl | ⟨v, b, rfl⟩
  · exact .nil
  · rw [List.concat_eq_append] at hw ⊢
    have hb := hw b (List.mem_append_right _ (List.mem_singleton_self b))
    exact .of_inert (fun c hc => (calm_of_lt (hw c (List.mem_append_left _ hc))).1.1)
      (calm_of_lt hb).1.1 (isIdentifierByte_of_lt hb)

def Trailing (b : UInt8) : Prop :=
  b < 0x21 ∨ b = Source.semicolon

theorem Trailing.calm {b : UInt8} (h : Trailing b) : Calm b := by
  rcases h with h | rfl
  · exact calm_of_lt h
  · decide

/-- What a normal form may put at the end of a text: nothing, or the end of a block. -/
def blockEnds : List Source :=
  [[], Source.ofString "); \x7d", Source.ofString "\n); \x7d"]

theorem mild_of_mem_blockEnds : ∀ tail ∈ blockEnds, ∀ b ∈ tail, Mild b :=
  List.all_iff_forall_prop.1 (by decide +kernel)

/-- `Reformed tag s n`: both texts hold the same text, behind beginnings that are passed by with records
of the same texts. In the one text only white space and semicolons follow, and in the other at most the
end of a block. -/
def Reformed (tag s n : Source) : Prop :=
  ∃ p p' text rest tail ts, s = p ++ (text ++ rest) ∧ n = p' ++ (text ++ tail) ∧
    Crosses tag p ts ∧ Crosses tag p' ts ∧ (∀ b ∈ rest, Trailing b) ∧ tail ∈ blockEnds

theorem Reformed.refl (tag s : Source) : Reformed tag s s :=
  ⟨[], [], s, [], [], [], by simp, by simp, .nil, .nil, by simp, by simp [blockEnds]⟩

theorem Reformed.prepend {tag p p' s n : Source} {ts : List Source} (hp : Crosses tag p ts)
    (hp' : Crosses tag p' ts) (h : Reformed tag s n) : Reformed tag (p ++ s) (p' ++ n) := by
  obtain ⟨q, q', text, rest, tail, us, rfl, rfl, hq, hq', hrest, htail⟩ := h
  exact ⟨p ++ q, p' ++ q', text, rest, tail, ts ++ us, by rw [List.append_assoc],
    by rw [List.append_assoc], hp.append hq, hp'.append hq', hrest, htail⟩

theorem Reformed.of_trim {tag s n : Source} (ha : AsciiSpaced s) (h : Reformed tag (trim s) n) :
    Reformed tag s n := by
  obtain ⟨v, w, hs, hv, hw⟩ := ha.exists_append_trim
  obtain ⟨p, p', text, rest, tail, ts, hp, rfl, hcross, hcross', hrest, htail⟩ := h
  refine ⟨v ++ p, p', text, rest ++ w, tail, ts, ?_, rfl, ?_, hcross', ?_, htail⟩
  · rw [hs, hp]
    simp only [List.append_assoc]
  · exact (Crosses.of_lt hv).append hcross
  · intro b hb
    exact (List.mem_append.1 hb).elim (hrest b) fun hb => .inl (hw b hb)

/-- The same is found in both texts, where nothing is left open in the one. -/
theorem Reformed.texts?_eq {tag s n : Source} (htag : ∀ b ∈ tag, isIdentifierByte b)
    (h : Reformed tag s n) {ts : List Source} (hts : texts? tag s = some ts) :
    texts? tag n = some ts := by
  obtain ⟨p, p', text, rest, tail, us, rfl, rfl, hp, hp', hrest, htail⟩ := h
  rw [(hp.carries htag).texts?_eq] at hts
  obtain ⟨vs, hvs, rfl⟩ := Option.map_eq_some_iff.1 hts
  have hswap : texts? tag (text ++ tail) = some vs :=
    textsFrom?_append_mild (fun b hb => (hrest b hb).calm) (mild_of_mem_blockEnds tail htail) hvs
  rw [(hp'.carries htag).texts?_eq, hswap, Option.map_some]

theorem exists_append_dropWord? {word s r : Source} (hword : ∀ b ∈ word, Inert b)
    (h : dropWord? word s = some r) : ∃ p, s = p ++ r ∧ ∀ b ∈ p, Inert b := by
  rw [dropWord?] at h
  split at h
  · cases h
  · next rest hrest =>
    split at h
    · cases h
    · obtain ⟨w, hw, hblank⟩ := exists_append_trimStart rest
      obtain rfl := Option.some.inj h
      refine ⟨word ++ w, ?_, fun b hb => ?_⟩
      · rw [dropPrefix?_eq_some_iff.1 hrest, List.append_assoc, ← hw]
      · exact (List.mem_append.1 hb).elim (hword b) (inert_of_trimStart_eq_nil hblank b)

theorem exists_append_getD_dropWord? {word : Source} (hword : ∀ b ∈ word, Inert b) (s : Source) :
    ∃ p, s = p ++ (dropWord? word s).getD s ∧ ∀ b ∈ p, Inert b := by
  cases h : dropWord? word s with
  | none => exact ⟨[], rfl, by simp⟩
  | some r => exact exists_append_dropWord? hword h

theorem exists_append_withoutModifiers (s : Source) :
    ∃ p, s = p ++ withoutModifiers s ∧ ∀ b ∈ p, Inert b := by
  obtain ⟨p, hp, hinert⟩ := exists_append_getD_dropWord?
    (inert_of_mem_ofString (w := "static") (by decide)) s
  rw [withoutModifiers]
  generalize (dropWord? (Source.ofString "static") s).getD s = s' at hp
  obtain ⟨q, hq, hinert'⟩ : ∃ q,
      s' = q ++ (dropWord? (Source.ofString "get") s' <|> dropWord? (Source.ofString "set") s').getD
        s' ∧ ∀ b ∈ q, Inert b := by
    cases hget : dropWord? (Source.ofString "get") s' with
    | some r =>
      exact exists_append_dropWord? (inert_of_mem_ofString (w := "get") (by decide)) hget
    | none =>
      exact exists_append_getD_dropWord? (inert_of_mem_ofString (w := "set") (by decide)) s'
  refine ⟨p ++ q, ?_, fun b hb => ?_⟩
  · rw [List.append_assoc, ← hq, ← hp]
  · exact (List.mem_append.1 hb).elim (hinert b) (hinert' b)

theorem isIdentifierByte_of_mem_take {s : Source} :
    ∀ b ∈ s.take (identifierLength s), isIdentifierByte b := by
  intro b hb
  rw [identifierLength] at hb
  split at hb
  · cases hb
  · rw [← List.prefix_iff_eq_take.1 (List.takeWhile_prefix isIdentifierByte)] at hb
    exact List.mem_takeWhile_imp hb

section Parts

variable {tag : Source} (htag : ∀ b ∈ tag, isIdentifierByte b)
include htag

theorem exists_append_arrowParts? {s parameters body : Source}
    (h : arrowParts? s = some (parameters, body)) :
    ∃ front ts, s = front ++ body ∧ (∀ p, (∀ b ∈ p, Inert b) → Crosses tag (p ++ front) ts) ∧
      Crosses tag (parameters ++ [Bracket.paren.closing]) ts := by
  have harrow : Source.ofString "=>" = [0x3D] ++ [0x3E] := by decide
  -- What follows the parameters, up to the end of the arrow.
  have after {rest : Source} (hbody : dropPrefix? (Source.ofString "=>") (trimStart rest) = some body) :
      ∃ w, rest = w ++ [0x3E] ++ body ∧ ∀ b ∈ w, Inert b := by
    obtain ⟨w, hw, hblank⟩ := exists_append_trimStart rest
    refine ⟨w ++ [0x3D], ?_, fun b hb => ?_⟩
    · rw [hw, dropPrefix?_eq_some_iff.1 hbody, harrow]
      simp only [List.append_assoc]
    · rcases List.mem_append.1 hb with hb | hb
      · exact inert_of_trimStart_eq_nil hblank b hb
      · rw [List.mem_singleton.1 hb]
        decide
  cases s with
  | nil => cases h
  | cons b r =>
    rw [arrowParts?_cons, Option.bind_eq_some_iff] at h
    obtain ⟨⟨parameters', rest⟩, hfront, h⟩ := h
    obtain ⟨body', hbody, heq⟩ := Option.bind_eq_some_iff.1 h
    obtain ⟨rfl, rfl⟩ := Prod.mk.inj (Option.some.inj heq)
    obtain ⟨w, rfl, hw⟩ := after hbody
    have hlast : Inert 0x3E ∧ isIdentifierByte 0x3E = false := by decide
    split at hfront
    · next hb =>
      subst hb
      obtain ⟨rfl, ts, hts⟩ := Bracket.crosses_of_split? htag hfront
      refine ⟨Bracket.paren.opening :: (parameters' ++ Bracket.paren.closing :: (w ++ [0x3E])), ts,
        by simp, fun p hp => ?_, hts⟩
      have hopening : Crosses tag (p ++ [Bracket.paren.opening]) [] :=
        .of_inert hp (by decide) (by decide)
      have hcarries := (hopening.append hts).append (.of_inert hw hlast.1 hlast.2)
      simpa using hcarries
    · simp only at hfront
      split at hfront
      · cases hfront
      · obtain ⟨rfl, hrest⟩ := Prod.mk.inj (Option.some.inj hfront)
        have hname : ∀ c ∈ (b :: r).take (identifierLength (b :: r)), Inert c :=
          fun c hc => inert_of_isIdentifierByte (isIdentifierByte_of_mem_take c hc)
        have hs : b :: r = (b :: r).take (identifierLength (b :: r)) ++ (w ++ [0x3E] ++ body') := by
          rw [← hrest, List.take_append_drop]
        generalize (b :: r).take (identifierLength (b :: r)) = name at hname hs
        refine ⟨name ++ (w ++ [0x3E]), [], by rw [hs]; simp, fun p hp => ?_,
          .of_inert hname (by decide) (by decide)⟩
        have hinert : ∀ c ∈ p ++ name ++ w, Inert c := by
          simpa [or_imp, forall_and] using And.intro hp (And.intro hname hw)
        simpa using Crosses.of_inert hinert hlast.1 hlast.2

theorem exists_append_methodParts? {s parameters body : Source}
    (h : methodParts? s = some (parameters, body)) :
    ∃ front ts rest, s = front ++ rest ∧ body = trim rest ∧
      (∀ p, (∀ b ∈ p, Inert b) → Crosses tag (p ++ front) ts) ∧
        Crosses tag (parameters ++ [Bracket.paren.closing]) ts := by
  have hname : ∀ c ∈ s.take (identifierLength s), Inert c :=
    fun c hc => inert_of_isIdentifierByte (isIdentifierByte_of_mem_take c hc)
  obtain ⟨w, hw, hblank⟩ := exists_append_trimStart (s.drop (identifierLength s))
  have hs : s = s.take (identifierLength s) ++ (w ++ trimStart (s.drop (identifierLength s))) := by
    rw [← hw, List.take_append_drop]
  simp only [methodParts?] at h
  split at h
  · cases h
  · generalize s.take (identifierLength s) = name, trimStart (s.drop (identifierLength s)) = call at *
    cases call with
    | nil => cases h
    | cons b r =>
      simp only at h
      split at h
      · next hb =>
        subst hb
        obtain ⟨⟨parameters', rest⟩, hsplit, heq⟩ := Option.map_eq_some_iff.1 h
        obtain ⟨rfl, rfl⟩ := Prod.mk.inj heq
        obtain ⟨rfl, ts, hts⟩ := Bracket.crosses_of_split? htag hsplit
        refine ⟨name ++ (w ++ [Bracket.paren.opening]) ++ (parameters' ++ [Bracket.paren.closing]),
          ts, rest, by rw [hs]; simp, rfl, fun p hp => ?_, hts⟩
        have hinert : ∀ c ∈ p ++ name ++ w, Inert c := by
          simpa [or_imp, forall_and] using
            And.intro hp (And.intro hname (inert_of_trimStart_eq_nil hblank))
        have hopening : Crosses tag (p ++ name ++ w ++ [Bracket.paren.opening]) [] :=
          .of_inert hinert (by decide) (by decide)
        simpa using hopening.append hts
      · cases h

omit htag in
/-- The beginning of a function is passed by with the records of its parameters. -/
theorem exists_append_functionText {modifier parameters : Source} {ts : List Source}
    (hm : ∀ b ∈ modifier, Inert b) (hp : Crosses tag (parameters ++ [Bracket.paren.closing]) ts) :
    ∃ front, Crosses tag front ts ∧ ∀ body, functionText modifier parameters body = front ++ body := by
  have hword : Source.ofString "function(" = Source.ofString "function" ++ [0x28] := by decide
  have hspace : Source.ofString ") " = [Bracket.paren.closing] ++ [0x20] := by decide
  have hinert : ∀ b ∈ modifier ++ Source.ofString "function", Inert b := by
    intro b hb
    exact (List.mem_append.1 hb).elim (hm b) (inert_of_mem_ofString (by decide) b)
  have hopening : Crosses tag (modifier ++ Source.ofString "function" ++ [0x28]) [] :=
    .of_inert hinert (by decide) (by decide)
  have hspaces : Crosses tag [0x20] [] := .of_lt (by simp)
  refine ⟨_, by simpa using (hopening.append hp).append hspaces, fun body => ?_⟩
  rw [functionText, hword, hspace]
  simp

theorem reformed_block? {s block : Source} (ha : AsciiSpaced s) (h : block? s = some block) :
    Reformed tag s block := by
  cases s with
  | nil => cases h
  | cons b r =>
    simp only [block?] at h
    split at h
    · next hb =>
      subst hb
      rcases hsplit : Bracket.brace.split? r with _ | ⟨inside, rest⟩
      · rw [hsplit] at h
        cases h
      · simp only [hsplit] at h
        split at h
        · next htrailing =>
          obtain rfl := Option.some.inj h
          obtain ⟨rfl, ts, hts⟩ := Bracket.crosses_of_split? htag hsplit
          have hinfix : rest <:+: Bracket.brace.opening :: (inside ++ Bracket.brace.closing :: rest) :=
            ⟨Bracket.brace.opening :: (inside ++ [Bracket.brace.closing]), [], by simp⟩
          obtain ⟨v, w, hrest, hv, hw⟩ := (ha.mono hinfix).exists_append_trim
          have hopening : Crosses tag [Bracket.brace.opening] [] :=
            .of_inert (p := []) (by simp) (by decide) (by decide)
          have hblock := hopening.append hts
          refine ⟨_, _, [], rest, [], _, ?_, ?_, hblock, hblock, fun c hc => ?_, by simp [blockEnds]⟩
          · simp
          · simp
          · rw [hrest, List.mem_append, List.mem_append] at hc
            rcases hc with hc | hc | hc
            · exact .inl (hv c hc)
            · rcases htrailing with ht | ht
              · rw [ht] at hc
                cases hc
              · rw [ht, List.mem_singleton] at hc
                exact .inr hc
            · exact .inl (hw c hc)
        · cases h
    · cases h

omit htag in
/-- A block that returns an expression, in place of the expression with what ends its statement. -/
theorem reformed_returnBlock {expression rest : Source} (hrest : ∀ b ∈ rest, Trailing b) :
    Reformed tag (expression ++ rest) (returnBlock expression) := by
  have hreturn : Bracket.brace.opening :: Source.ofString " return (" =
      Bracket.brace.opening :: Source.ofString " return " ++ [0x28] := by decide
  have hopening : Crosses tag (Bracket.brace.opening :: Source.ofString " return (") [] := by
    rw [hreturn]
    exact .of_inert (List.all_iff_forall_prop.1 (by decide)) (by decide) (by decide)
  have hends (close : Source) (hclose : close ++ (Source.ofString "; " ++ [Bracket.brace.closing]) ∈
      blockEnds) : Reformed tag (expression ++ rest) (Bracket.brace.opening ::
        Source.ofString " return (" ++ expression ++ close ++ Source.ofString "; " ++
          [Bracket.brace.closing]) :=
    ⟨[], _, expression, rest, _, [], rfl, by simp, .nil, hopening, hrest, hclose⟩
  rw [returnBlock]
  split
  · exact hends _ (by decide)
  · exact hends _ (by decide)

theorem reformed_arrowBlock? {body block : Source} (ha : AsciiSpaced body)
    (h : arrowBlock? body = some block) : Reformed tag body block := by
  refine .of_trim ha ?_
  replace ha := ha.mono (trim_isInfix body)
  rw [arrowBlock?] at h
  cases hblock : block? (trim body) with
  | some block' =>
    rw [hblock] at h
    obtain rfl := Option.some.inj h
    exact reformed_block? htag ha hblock
  | none =>
    simp only [hblock] at h
    obtain ⟨q, hq, hsemicolon⟩ := exists_append_dropTrailing Source.semicolon (trim body)
    obtain ⟨u, hu, hblank⟩ := exists_append_trimEnd (dropTrailing Source.semicolon (trim body))
    generalize trimEnd (dropTrailing Source.semicolon (trim body)) = expression at h hu
    split at h
    · cases h
    · obtain rfl := Option.some.inj h
      rw [hu, List.append_assoc] at hq
      have hinfix : u <:+: trim body := ⟨expression, q, by rw [hq, List.append_assoc]⟩
      have hu' := (ha.mono hinfix).lt_of_trimStart_eq_nil hblank
      rw [hq]
      refine reformed_returnBlock fun b hb => ?_
      exact (List.mem_append.1 hb).elim (fun hb => .inl (hu' b hb)) fun hb => .inr (hsemicolon b hb)

/-- The parts of a text that is not a function in normal form, and its normal form. -/
theorem exists_append_formAfter {s p modifier rest n : Source} (hs : s = p ++ rest)
    (hp : ∀ b ∈ p, Inert b) (h : formAfter s modifier rest = .ok n) :
    n = s ∨ ∃ front ts parameters body block, s = front ++ body ∧ Crosses tag front ts ∧
      Crosses tag (parameters ++ [Bracket.paren.closing]) ts ∧ arrowBlock? body = some block ∧
        n = functionText modifier parameters block := by
  rw [formAfter] at h
  split at h
  · exact .inl (Except.ok.inj h).symm
  · refine .inr ?_
    rcases harrow : arrowParts? rest with _ | ⟨parameters, body⟩
    · have method {q rest' parameters body block : Source} (hrest : rest = q ++ rest')
          (hq : ∀ b ∈ q, Inert b) (hmethod : methodParts? rest' = some (parameters, body))
          (hblock : block? body = some block) :
          ∃ front ts body, s = front ++ body ∧ Crosses tag front ts ∧
            Crosses tag (parameters ++ [Bracket.paren.closing]) ts ∧ arrowBlock? body = some block := by
        obtain ⟨front, ts, body', hbody, rfl, hfront, hts⟩ := exists_append_methodParts? htag hmethod
        refine ⟨p ++ q ++ front, ts, body', ?_, hfront (p ++ q) ?_, hts, ?_⟩
        · rw [hs, hrest, hbody]
          simp only [List.append_assoc]
        · simpa [or_imp, forall_and] using And.intro hp hq
        · rw [arrowBlock?, hblock]
      rw [harrow] at h
      simp only at h
      split at h
      · cases h
      · next parameters body hmethod =>
        split at h
        · next block hblock =>
          obtain rfl := Except.ok.inj h
          cases hfirst : methodParts? rest with
          | some parts =>
            rw [hfirst] at hmethod
            obtain rfl := Option.some.inj hmethod
            obtain ⟨front, ts, body', hparts⟩ := method (q := []) rfl (by simp) hfirst hblock
            exact ⟨front, ts, parameters, body', block, hparts.1, hparts.2.1, hparts.2.2.1,
              hparts.2.2.2, rfl⟩
          | none =>
            rw [hfirst] at hmethod
            obtain ⟨q, hq, hinert⟩ := exists_append_withoutModifiers rest
            obtain ⟨front, ts, body', hparts⟩ := method hq hinert hmethod hblock
            exact ⟨front, ts, parameters, body', block, hparts.1, hparts.2.1, hparts.2.2.1,
              hparts.2.2.2, rfl⟩
        · cases h
    · rw [harrow] at h
      simp only at h
      split at h
      · next block hblock =>
        obtain rfl := Except.ok.inj h
        obtain ⟨front, ts, hbody, hfront, hts⟩ := exists_append_arrowParts? htag harrow
        refine ⟨p ++ front, ts, parameters, body, block, ?_, hfront p hp, hts, hblock, rfl⟩
        rw [hs, hbody, List.append_assoc]
      · cases h

theorem reformed_normalForm {source n : Source} (ha : AsciiSpaced source)
    (hn : normalForm source = .ok n) : Reformed tag source n := by
  refine .of_trim ha ?_
  replace ha := ha.mono (trim_isInfix source)
  obtain ⟨modifier, hm, hform⟩ := normalForm_eq_formAfter source
  obtain ⟨p, hp, hinert⟩ := exists_append_getD_dropWord?
    (inert_of_mem_ofString (w := "async") (by decide)) (trim source)
  have hm' : ∀ b ∈ modifier, Inert b := by
    rcases hm with rfl | rfl
    · simp
    · exact inert_of_mem_ofString (by decide)
  rw [hform] at hn
  rcases exists_append_formAfter htag hp hinert hn with rfl |
    ⟨front, us, parameters, body, block, hs, hfront, hparameters, hblock, rfl⟩
  · exact .refl tag _
  · obtain ⟨front', hfront', htext⟩ := exists_append_functionText hm' hparameters
    have hinfix : body <:+: trim source := ⟨front, [], by rw [List.append_nil, hs]⟩
    rw [hs, htext]
    exact (reformed_arrowBlock? htag (ha.mono hinfix) hblock).prepend hfront hfront'

end Parts

/-- A normal form keeps the expressions of the templates with a tag: if nothing is left open in a text
without white space outside of ASCII, then nothing is in its normal form, which has expressions of the
same texts in the same order. -/
theorem normalForm_keeps_expressions {tag : Source} (htag : ∀ b ∈ tag, isIdentifierByte b)
    {source : String} (hspace : ∀ c ∈ source.toList, c ∈ blankCharacters → c.val < 0x80)
    {n : Source} (hn : normalForm (Source.ofString source) = .ok n)
    (hopen : (scan tag (Source.ofString source)).error = none) :
    (scan tag n).error = none ∧
      (scan tag n).expressions.map (·.text) =
        (scan tag (Source.ofString source)).expressions.map (·.text) ∧
      (∀ e ∈ (scan tag n).expressions, e.terminated) ∧
        ∀ e ∈ (scan tag (Source.ofString source)).expressions, e.terminated := by
  have hts : texts? tag (Source.ofString source) = some _ := Scan.texts?_eq_some_iff.2 ⟨hopen, rfl⟩
  have hkept := (reformed_normalForm htag (asciiSpaced_ofString hspace) hn).texts?_eq htag hts
  obtain ⟨herror, htexts⟩ := Scan.texts?_eq_some_iff.1 hkept
  exact ⟨herror, htexts, terminated_of_error_eq_none herror, terminated_of_error_eq_none hopen⟩

/-- The expression stands before a comment, behind which the parenthesis is put on a new line. -/
theorem normalForm_keeps_expressions_comment :
    let source := "async p => html`$\x7bp\x7d`; // p"
    let n := Source.ofString "async function(p) \x7b return (html`$\x7bp\x7d`; // p\n); \x7d"
    normalForm (Source.ofString source) = .ok n ∧
      (scan Options.standard.tag n).error = none ∧
      (scan Options.standard.tag n).expressions.map (·.text) =
        (scan Options.standard.tag (Source.ofString source)).expressions.map (·.text) ∧
      (∀ e ∈ (scan Options.standard.tag n).expressions, e.terminated) ∧
        ∀ e ∈ (scan Options.standard.tag (Source.ofString source)).expressions, e.terminated := by
  have hn : normalForm (Source.ofString "async p => html`$\x7bp\x7d`; // p") =
      .ok (Source.ofString "async function(p) \x7b return (html`$\x7bp\x7d`; // p\n); \x7d") := by
    decide +kernel
  exact ⟨hn, normalForm_keeps_expressions (List.all_eq_true.1 (by decide))
    (List.all_iff_forall_prop.1 (by decide +kernel)) hn (by decide +kernel)⟩

end Reactivity.Template
