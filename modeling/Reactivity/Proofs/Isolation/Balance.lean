import Reactivity.Proofs.Isolation.Unclosed

namespace Reactivity.Template

/-- The bytes of a string behind its quote. A backslash goes together with the byte after it; apart from
such pairs there is no quote of the kind and no line break. -/
inductive StringText (q : UInt8) : Source → Prop
  | nil : StringText q []
  | pair {p : Source} (b : UInt8) (rest : StringText q p) :
      StringText q (Source.backslash :: b :: p)
  | byte {b : UInt8} {p : Source} (pair : b ≠ Source.backslash) (line : b ≠ Source.newline)
      (quote : b ≠ q) (rest : StringText q p) : StringText q (b :: p)

/-- The bytes of a comment up to the star and slash that end it: no others do so before. -/
def CommentText (p : Source) : Prop :=
  ¬ [Source.star, Source.slash] <:+: p ++ [Source.star]

/-- Whether a byte opens a string, template, comment or group, given the byte after it. -/
def Opens (k : Bracket) (b : UInt8) (next : Option UInt8) : Prop :=
  b = Source.doubleQuote ∨ b = Source.singleQuote ∨ b = Source.backtick ∨ b = k.opening ∨
    b = Source.slash ∧ (next = some Source.slash ∨ next = some Source.star)

/-- What items stand in: code in which a pair of brackets is grouped, or the text of a template. -/
inductive Place
  | code (k : Bracket)
  | template

/-- `Items c s t`: a sequence of items is read from the text `s`, and `t` is left. A string or a comment
that a line break ends does not take that with it. -/
inductive Items : Place → Source → Source → Prop
  | nil (c : Place) (s : Source) : Items c s s
  | string {k : Bracket} {q : UInt8} {p s t : Source}
      (quote : q = Source.doubleQuote ∨ q = Source.singleQuote) (text : StringText q p)
      (rest : Items (.code k) s t) : Items (.code k) (q :: (p ++ q :: s)) t
  | brokenString {k : Bracket} {q : UInt8} {p s t : Source}
      (quote : q = Source.doubleQuote ∨ q = Source.singleQuote) (text : StringText q p)
      (rest : Items (.code k) (Source.newline :: s) t) :
      Items (.code k) (q :: (p ++ Source.newline :: s)) t
  | lineComment {k : Bracket} {p s t : Source} (text : Source.newline ∉ p)
      (rest : Items (.code k) (Source.newline :: s) t) :
      Items (.code k) (Source.slash :: Source.slash :: (p ++ Source.newline :: s)) t
  | blockComment {k : Bracket} {p s t : Source} (text : CommentText p)
      (rest : Items (.code k) s t) :
      Items (.code k) (Source.slash :: Source.star :: (p ++ Source.star :: Source.slash :: s)) t
  | template {k : Bracket} {r s t : Source} (text : Items .template r (Source.backtick :: s))
      (rest : Items (.code k) s t) : Items (.code k) (Source.backtick :: r) t
  | group {k : Bracket} {r s t : Source} (inside : Items (.code k) r (k.closing :: s))
      (rest : Items (.code k) s t) : Items (.code k) (k.opening :: r) t
  | byte {k : Bracket} {b : UInt8} {s t : Source} (opens : ¬ Opens k b s.head?)
      (closes : b ≠ k.closing) (rest : Items (.code k) s t) : Items (.code k) (b :: s) t
  | pair {s t : Source} (b : UInt8) (rest : Items .template s t) :
      Items .template (Source.backslash :: b :: s) t
  | expression {r s t : Source} (inside : Items (.code .brace) r (Bracket.brace.closing :: s))
      (rest : Items .template s t) :
      Items .template (Source.dollar :: Bracket.brace.opening :: r) t
  | text {b : UInt8} {s t : Source} (pair : b ≠ Source.backslash) (closes : b ≠ Source.backtick)
      (opens : ¬ (b = Source.dollar ∧ s.head? = some Bracket.brace.opening))
      (rest : Items .template s t) : Items .template (b :: s) t

theorem closeFrom_pass {frames frames' : List Frame} {b : UInt8} {r : Source} {n : Nat} (i : Nat)
    (h : frameStep frames b r.head? = .pass n frames') :
    closeFrom frames i (b :: r) = closeFrom frames' (i + n) ((b :: r).drop n) := by
  rw [closeFrom_cons, h]

theorem frameStep_quoted_byte {q b : UInt8} {st : List Frame} {next : Option UInt8}
    (pair : b ≠ Source.backslash) (line : b ≠ Source.newline) (quote : b ≠ q) :
    frameStep (.quoted q :: st) b next = .pass 1 (.quoted q :: st) := by
  simp only [frameStep, pair, line, quote, or_self, if_false]

theorem frameStep_quoted_end {q b : UInt8} {st : List Frame} {next : Option UInt8}
    (pair : b ≠ Source.backslash) (h : b = Source.newline ∨ b = q) :
    frameStep (.quoted q :: st) b next = .pass 1 st := by
  simp only [frameStep, pair, h, if_false, if_true]

theorem StringText.closeFrom_append {q : UInt8} {p : Source} (h : StringText q p)
    (st : List Frame) (i : Nat) (t : Source) :
    closeFrom (.quoted q :: st) i (p ++ t) = closeFrom (.quoted q :: st) (i + p.length) t := by
  induction h generalizing i with
  | nil => rfl
  | pair b rest ih =>
    refine (closeFrom_pass i rfl).trans ((ih _).trans ?_)
    simp only [List.length_cons]
    congr 1
    omega
  | byte pair line quote rest ih =>
    refine (closeFrom_pass i (frameStep_quoted_byte pair line quote)).trans ((ih _).trans ?_)
    rw [List.length_cons]
    congr 1
    omega

theorem closeFrom_lineComment {p : Source} (h : Source.newline ∉ p) (st : List Frame) (i : Nat)
    (t : Source) :
    closeFrom (.lineComment :: st) i (p ++ t) = closeFrom (.lineComment :: st) (i + p.length) t := by
  induction p generalizing i with
  | nil => rfl
  | cons b p ih =>
    obtain ⟨hb, hp⟩ := not_or.1 (mt List.mem_cons.2 h)
    rw [List.cons_append, closeFrom, if_neg (Ne.symm hb), ih hp, List.length_cons]
    congr 1
    omega

theorem commentText_nil : CommentText [] := by
  rw [CommentText]
  decide

theorem commentText_cons {b : UInt8} {p : Source} :
    CommentText (b :: p) ↔ ¬ (b = Source.star ∧ p.head? = some Source.slash) ∧ CommentText p := by
  rw [CommentText, List.cons_append, List.infix_cons_iff, not_or]
  refine and_congr_left fun _ => not_congr ?_
  cases p with
  | nil => simp [Source.star, Source.slash]
  | cons c p => simp [List.cons_prefix_cons, eq_comm]

theorem CommentText.closeFrom_append {p : Source} (h : CommentText p) (st : List Frame) (i : Nat)
    (t : Source) :
    closeFrom (.blockComment :: st) i (p ++ Source.star :: Source.slash :: t) =
      closeFrom st (i + p.length + 2) t := by
  induction p generalizing i with
  | nil => rfl
  | cons b p ih =>
    obtain ⟨hb, hp⟩ := commentText_cons.1 h
    have hlater : closeFrom (.blockComment :: st) i (b :: (p ++ Source.star :: Source.slash :: t)) =
        closeFrom (.blockComment :: st) (i + 1) (p ++ Source.star :: Source.slash :: t) := by
      cases p with
      | nil => exact if_neg fun h => absurd h.2 (by decide)
      | cons c p => exact if_neg fun h => hb ⟨h.1, congrArg some h.2⟩
    rw [List.cons_append, hlater, ih hp, List.length_cons]
    congr 1
    omega

/-- The frame that a search has at a place, with so many brackets open. -/
def Place.frame (d : Nat) : Place → Frame
  | .code k => .code k d
  | .template => .template

section Code

variable {k : Bracket} {d i : Nat} {st : List Frame} {s : Source}

theorem Bracket.opening_ne (k : Bracket) :
    k.opening ≠ Source.doubleQuote ∧ k.opening ≠ Source.singleQuote ∧ k.opening ≠ Source.backtick ∧
      k.opening ≠ Source.slash ∧ k.opening ≠ k.closing := by
  cases k <;> decide

theorem Bracket.closing_ne (k : Bracket) :
    k.closing ≠ Source.doubleQuote ∧ k.closing ≠ Source.singleQuote ∧ k.closing ≠ Source.backtick ∧
      k.closing ≠ Source.slash := by
  cases k <;> decide

theorem closeFrom_opening : closeFrom (.code k d :: st) i (k.opening :: s) =
    closeFrom (.code k (d + 1) :: st) (i + 1) s := by
  obtain ⟨h₁, h₂, h₃, h₄, h₅⟩ := k.opening_ne
  simp only [closeFrom_cons, frameStep, h₁, h₂, h₃, h₄, h₅, or_self, false_and, if_false, if_true,
    List.drop_succ_cons, List.drop_zero]

theorem closeFrom_closing : closeFrom (.code k (d + 1) :: st) i (k.closing :: s) =
    closeFrom (.code k d :: st) (i + 1) s := by
  obtain ⟨h₁, h₂, h₃, h₄⟩ := k.closing_ne
  simp only [closeFrom_cons, frameStep, h₁, h₂, h₃, h₄, or_self, false_and, if_false, if_true,
    List.drop_succ_cons, List.drop_zero]

theorem closeFrom_byte {b : UInt8} (opens : ¬ Opens k b s.head?) (closes : b ≠ k.closing) :
    closeFrom (.code k d :: st) i (b :: s) = closeFrom (.code k d :: st) (i + 1) s := by
  simp only [Opens, not_or, not_and] at opens
  obtain ⟨h₁, h₂, h₃, h₄, h₅⟩ := opens
  rw [closeFrom_cons]
  simp only [frameStep, h₁, h₂, h₃, h₄, closes, or_self, if_false]
  cases s with
  | nil => split_ifs <;> rfl
  | cons c s =>
    have hline : ¬ (b = Source.slash ∧ (c :: s).head? = some Source.slash) := fun h => (h₅ h.1).1 h.2
    have hblock : ¬ (b = Source.slash ∧ (c :: s).head? = some Source.star) := fun h => (h₅ h.1).2 h.2
    rw [if_neg fun h => Option.some_ne_none c h.2, if_neg hline, if_neg hblock, ite_self]
    rfl

theorem closeFrom_string {q : UInt8} (quote : q = Source.doubleQuote ∨ q = Source.singleQuote) :
    closeFrom (.code k d :: st) i (q :: s) =
      closeFrom (.quoted q :: .code k d :: st) (i + 1) s := by
  exact closeFrom_pass i (if_pos quote)

theorem not_opens_newline (k : Bracket) (next : Option UInt8) : ¬ Opens k Source.newline next := by
  rw [Opens, not_or, not_or, not_or, not_or]
  exact ⟨by decide, by decide, by decide, by cases k <;> decide, fun h => absurd h.1 (by decide)⟩

theorem closeFrom_newline : closeFrom (.code k d :: st) i (Source.newline :: s) =
    closeFrom (.code k d :: st) (i + 1) s :=
  closeFrom_byte (not_opens_newline k _) (by cases k <;> decide)

end Code

/-- A search passes by the items that are read, whatever is open around them. -/
theorem Items.passed {c : Place} {s t : Source} (h : Items c s t) : ∃ p, s = p ++ t ∧
    ∀ d st i, closeFrom (c.frame d :: st) i s = closeFrom (c.frame d :: st) (i + p.length) t := by
  induction h with
  | nil c s => exact ⟨[], rfl, fun _ _ _ => rfl⟩
  | @string k q p s t quote text rest ih =>
    obtain ⟨u, rfl, hu⟩ := ih
    refine ⟨q :: (p ++ q :: u), by simp, fun d st i => ?_⟩
    have hq : q ≠ Source.backslash := by rcases quote with rfl | rfl <;> decide
    rw [Place.frame, closeFrom_string quote, text.closeFrom_append,
      closeFrom_pass _ (frameStep_quoted_end hq (.inr rfl))]
    refine (hu d st _).trans ?_
    simp only [List.length_cons, List.length_append]
    congr 1
    omega
  | @brokenString k q p s t quote text rest ih =>
    obtain ⟨u, hs, hu⟩ := ih
    refine ⟨q :: (p ++ u), by simp [hs], fun d st i => ?_⟩
    rw [Place.frame, closeFrom_string quote, text.closeFrom_append,
      closeFrom_pass _ (frameStep_quoted_end (by decide) (.inl rfl)), List.drop_succ_cons, List.drop_zero, ← closeFrom_newline]
    refine (hu d st _).trans ?_
    simp only [List.length_cons, List.length_append]
    congr 1
    omega
  | @lineComment k p s t text rest ih =>
    obtain ⟨u, hs, hu⟩ := ih
    refine ⟨Source.slash :: Source.slash :: (p ++ u), by simp [hs], fun d st i => ?_⟩
    have hopen : closeFrom (.code k d :: st) i
        (Source.slash :: Source.slash :: (p ++ Source.newline :: s)) =
          closeFrom (.lineComment :: .code k d :: st) (i + 2) (p ++ Source.newline :: s) :=
      closeFrom_pass i rfl
    rw [Place.frame, hopen, closeFrom_lineComment text, closeFrom, if_pos rfl, ← closeFrom_newline]
    refine (hu d st _).trans ?_
    simp only [List.length_cons, List.length_append]
    congr 1
    omega
  | @blockComment k p s t text rest ih =>
    obtain ⟨u, rfl, hu⟩ := ih
    refine ⟨Source.slash :: Source.star :: (p ++ Source.star :: Source.slash :: u), by simp,
      fun d st i => ?_⟩
    have hopen : closeFrom (.code k d :: st) i
        (Source.slash :: Source.star :: (p ++ Source.star :: Source.slash :: (u ++ t))) =
          closeFrom (.blockComment :: .code k d :: st) (i + 2)
            (p ++ Source.star :: Source.slash :: (u ++ t)) := closeFrom_pass i rfl
    rw [Place.frame, hopen, text.closeFrom_append]
    refine (hu d st _).trans ?_
    simp only [List.length_cons, List.length_append]
    congr 1
    omega
  | @template k r s t text rest ihText ih =>
    obtain ⟨p, rfl, hp⟩ := ihText
    obtain ⟨u, rfl, hu⟩ := ih
    refine ⟨Source.backtick :: (p ++ Source.backtick :: u), by simp, fun d st i => ?_⟩
    have hopen : closeFrom (.code k d :: st) i (Source.backtick :: (p ++ Source.backtick :: (u ++ t))) =
        closeFrom (.template :: .code k d :: st) (i + 1) (p ++ Source.backtick :: (u ++ t)) :=
      closeFrom_pass i rfl
    have hclose (j : Nat) : closeFrom (.template :: .code k d :: st) j (Source.backtick :: (u ++ t)) =
        closeFrom (.code k d :: st) (j + 1) (u ++ t) := closeFrom_pass j rfl
    rw [Place.frame, hopen]
    refine (hp 0 (.code k d :: st) _).trans ?_
    rw [Place.frame, hclose]
    refine (hu d st _).trans ?_
    simp only [List.length_cons, List.length_append]
    congr 1
    omega
  | @group k r s t inside rest ihInside ih =>
    obtain ⟨p, rfl, hp⟩ := ihInside
    obtain ⟨u, rfl, hu⟩ := ih
    refine ⟨k.opening :: (p ++ k.closing :: u), by simp, fun d st i => ?_⟩
    rw [Place.frame, closeFrom_opening]
    refine (hp (d + 1) st _).trans ?_
    rw [Place.frame, closeFrom_closing]
    refine (hu d st _).trans ?_
    simp only [List.length_cons, List.length_append]
    congr 1
    omega
  | @byte k b s t opens closes rest ih =>
    obtain ⟨u, rfl, hu⟩ := ih
    refine ⟨b :: u, rfl, fun d st i => ?_⟩
    rw [Place.frame, closeFrom_byte opens closes]
    refine (hu d st _).trans ?_
    rw [List.length_cons, Place.frame]
    congr 1
    omega
  | @pair s t b rest ih =>
    obtain ⟨u, rfl, hu⟩ := ih
    refine ⟨Source.backslash :: b :: u, rfl, fun d st i => ?_⟩
    have hpair : closeFrom (.template :: st) i (Source.backslash :: b :: (u ++ t)) =
        closeFrom (.template :: st) (i + 2) (u ++ t) := closeFrom_pass i rfl
    rw [Place.frame, hpair]
    refine (hu d st _).trans ?_
    simp only [List.length_cons, Place.frame]
    congr 1
    omega
  | @expression r s t inside rest ihInside ih =>
    obtain ⟨p, rfl, hp⟩ := ihInside
    obtain ⟨u, rfl, hu⟩ := ih
    refine ⟨Source.dollar :: Bracket.brace.opening :: (p ++ Bracket.brace.closing :: u), by simp,
      fun d st i => ?_⟩
    have hopen : closeFrom (.template :: st) i (Source.dollar :: Bracket.brace.opening ::
        (p ++ Bracket.brace.closing :: (u ++ t))) =
          closeFrom (.code .brace 0 :: .template :: st) (i + 2)
            (p ++ Bracket.brace.closing :: (u ++ t)) := closeFrom_pass i rfl
    have hclose (j : Nat) : closeFrom (.code .brace 0 :: .template :: st) j
        (Bracket.brace.closing :: (u ++ t)) = closeFrom (.template :: st) (j + 1) (u ++ t) :=
      closeFrom_pass j rfl
    rw [Place.frame, hopen]
    refine (hp 0 (.template :: st) _).trans ?_
    rw [Place.frame, hclose]
    refine (hu d st _).trans ?_
    simp only [List.length_cons, List.length_append, Place.frame]
    congr 1
    omega
  | @text b s t pair closes opens rest ih =>
    obtain ⟨u, rfl, hu⟩ := ih
    refine ⟨b :: u, rfl, fun d st i => ?_⟩
    have hbyte : closeFrom (.template :: st) i (b :: (u ++ t)) =
        closeFrom (.template :: st) (i + 1) (u ++ t) := by
      rw [closeFrom_cons]
      simp only [frameStep, if_neg pair, if_neg closes, if_neg opens]
      generalize u ++ t = s
      cases s with
      | nil => split_ifs <;> rfl
      | cons c s => rw [if_neg fun h => Option.some_ne_none c h.2]; rfl
    rw [Place.frame, hbyte]
    refine (hu d st _).trans ?_
    rw [List.length_cons, Place.frame]
    congr 1
    omega

/-- `Closes k d s t`: items are read up to a closing bracket, and again for each of `d` brackets that are
still open; `t` is left. -/
def Closes (k : Bracket) : Nat → Source → Source → Prop
  | 0, s, t => Items (.code k) s (k.closing :: t)
  | d + 1, s, t => ∃ r, Items (.code k) s (k.closing :: r) ∧ Closes k d r t

theorem Closes.of_items {k : Bracket} {d : Nat} {s s' t : Source}
    (h : ∀ u, Items (.code k) s u → Items (.code k) s' u) (hc : Closes k d s t) : Closes k d s' t := by
  cases d with
  | zero => exact h _ hc
  | succ d => exact hc.imp fun r hr => ⟨h _ hr.1, hr.2⟩

/-- `Finishes frames s t`: what is open by the frames is read to its end in the text `s`, the inner before
the outer, and `t` is left. -/
def Finishes : List Frame → Source → Source → Prop
  | [], s, t => s = t
  | .code k d :: st, s, t => ∃ r, Closes k d s r ∧ Finishes st r t
  | .template :: st, s, t => ∃ r, Items .template s (Source.backtick :: r) ∧ Finishes st r t
  | .quoted q :: st, s, t => ∃ p e r, s = p ++ e :: r ∧ StringText q p ∧ (e = Source.newline ∨ e = q) ∧
      Finishes st r t
  | .lineComment :: st, s, t => ∃ p r, s = p ++ Source.newline :: r ∧ Source.newline ∉ p ∧
      Finishes st r t
  | .blockComment :: st, s, t => ∃ p r, s = p ++ Source.star :: Source.slash :: r ∧ CommentText p ∧
      Finishes st r t

theorem Items.newline {k : Bracket} {s t : Source} (h : Items (.code k) s t) :
    Items (.code k) (Source.newline :: s) t :=
  .byte (not_opens_newline k _) (by cases k <;> decide) h

theorem Finishes.of_step {frames frames' : List Frame} {b : UInt8} {r t : Source} {n : Nat}
    (hs : frameStep frames b r.head? = .pass n frames')
    (h : Finishes frames' ((b :: r).drop n) t) : Finishes frames (b :: r) t := by
  cases frames with
  | nil => cases hs
  | cons f st =>
    cases f with
    | quoted q =>
      simp only [frameStep] at hs
      split_ifs at hs with hpair hnext hend <;> cases hs
      · obtain ⟨c, r, rfl⟩ : ∃ c u, r = c :: u := by cases r <;> simp_all
        obtain ⟨p, e, u, hr, htext, he, hst⟩ := h
        obtain rfl : r = p ++ e :: u := hr
        exact ⟨_ :: c :: p, e, u, rfl, hpair ▸ .pair c htext, he, hst⟩
      · exact ⟨[], b, r, rfl, .nil, hend, h⟩
      · obtain ⟨p, e, u, hr, htext, he, hst⟩ := h
        obtain rfl : r = p ++ e :: u := hr
        exact ⟨b :: p, e, u, rfl, .byte hpair (fun h => hend (.inl h)) (fun h => hend (.inr h)) htext,
          he, hst⟩
    | lineComment =>
      simp only [frameStep] at hs
      split_ifs at hs with hend <;> cases hs
      · exact ⟨[], r, by rw [hend]; rfl, List.not_mem_nil, h⟩
      · obtain ⟨p, u, hr, htext, hst⟩ := h
        obtain rfl : r = p ++ Source.newline :: u := hr
        exact ⟨b :: p, u, rfl, mt List.mem_cons.1 (not_or.2 ⟨Ne.symm hend, htext⟩), hst⟩
    | blockComment =>
      simp only [frameStep] at hs
      split_ifs at hs with hnext hend <;> cases hs
      · obtain ⟨rfl, hc⟩ := hend
        obtain ⟨r, rfl⟩ : ∃ u, r = Source.slash :: u := by cases r <;> simp_all
        exact ⟨[], r, rfl, commentText_nil, h⟩
      · obtain ⟨p, u, hr, htext, hst⟩ := h
        obtain rfl : r = p ++ Source.star :: Source.slash :: u := hr
        refine ⟨b :: p, u, rfl, commentText_cons.2 ⟨fun hp => hend ⟨hp.1, ?_⟩, htext⟩, hst⟩
        rw [List.head?_append, hp.2, Option.some_or]
    | template =>
      simp only [frameStep] at hs
      split_ifs at hs with hpair hnext hend hlast hopen <;> cases hs
      · obtain ⟨c, r, rfl⟩ : ∃ c u, r = c :: u := by cases r <;> simp_all
        obtain ⟨u, hu, hst⟩ := h
        exact ⟨u, hpair ▸ .pair c hu, hst⟩
      · exact ⟨r, hend ▸ .nil _ _, h⟩
      · obtain ⟨rfl, hc⟩ := hopen
        obtain ⟨r, rfl⟩ : ∃ u, r = Bracket.brace.opening :: u := by cases r <;> simp_all
        obtain ⟨u, hu, v, hv, hst⟩ := h
        exact ⟨v, .expression hu hv, hst⟩
      · obtain ⟨u, hu, hst⟩ := h
        exact ⟨u, .text hpair hend hopen hu, hst⟩
    | code k d =>
      simp only [frameStep] at hs
      split_ifs at hs with hquote htick hlast hline hblock hslash hclose hopen
      · cases hs
        obtain ⟨p, e, u, hr, htext, he, v, hv, hst⟩ := h
        obtain rfl : r = p ++ e :: u := hr
        refine ⟨v, hv.of_items fun w hw => ?_, hst⟩
        rcases he with rfl | rfl
        · exact .brokenString hquote htext hw.newline
        · exact .string hquote htext hw
      · cases hs
        obtain ⟨u, hu, v, hv, hst⟩ := h
        exact ⟨v, hv.of_items fun w hw => htick ▸ .template hu hw, hst⟩
      · cases hs
        obtain ⟨rfl, hc⟩ := hline
        obtain ⟨r, rfl⟩ : ∃ u, r = Source.slash :: u := by cases r <;> simp_all
        obtain ⟨p, u, hr, htext, v, hv, hst⟩ := h
        obtain rfl : r = p ++ Source.newline :: u := hr
        exact ⟨v, hv.of_items fun w hw => .lineComment htext hw.newline, hst⟩
      · cases hs
        obtain ⟨rfl, hc⟩ := hblock
        obtain ⟨r, rfl⟩ : ∃ u, r = Source.star :: u := by cases r <;> simp_all
        obtain ⟨p, u, hr, htext, v, hv, hst⟩ := h
        obtain rfl : r = p ++ Source.star :: Source.slash :: u := hr
        exact ⟨v, hv.of_items fun w hw => .blockComment htext hw, hst⟩
      · -- a slash that opens no comment
        cases hs
        obtain ⟨v, hv, hst⟩ := h
        have hopens : ¬ Opens k b r.head? := by
          have := k.opening_ne.2.2.2.1
          grind [Opens]
        exact ⟨v, hv.of_items fun w hw => .byte hopens (hslash ▸ k.closing_ne.2.2.2.symm) hw, hst⟩
      · subst hclose
        cases d with
        | zero =>
          cases st with
          | nil => cases hs
          | cons f st =>
            cases hs
            exact ⟨r, .nil _ _, h⟩
        | succ d =>
          cases hs
          obtain ⟨v, hv, hst⟩ := h
          exact ⟨v, ⟨r, .nil _ _, hv⟩, hst⟩
      · cases hs
        obtain ⟨v, ⟨u, hu, hv⟩, hst⟩ := h
        exact ⟨v, hv.of_items fun w hw => hopen ▸ .group hu hw, hst⟩
      · cases hs
        obtain ⟨v, hv, hst⟩ := h
        have hopens : ¬ Opens k b r.head? := by grind [Opens]
        exact ⟨v, hv.of_items fun w hw => .byte hopens hclose hw, hst⟩

theorem finishes_of_closeFrom {frames : List Frame} {s : Source} {i j : Nat}
    (h : closeFrom frames i s = some j) : ∃ t, Finishes frames s t := by
  match s with
  | [] =>
    rw [closeFrom_nil] at h
    cases h
  | b :: r =>
    rw [closeFrom_cons] at h
    cases hs : frameStep frames b r.head? with
    | stop => simp [hs] at h
    | close =>
      obtain ⟨k, rfl, rfl⟩ := frameStep_eq_close_iff.1 hs
      exact ⟨r, r, .nil _ _, rfl⟩
    | pass n frames' =>
      simp only [hs] at h
      have hn := frameStep_pass hs
      obtain ⟨t, ht⟩ := finishes_of_closeFrom h
      exact ⟨t, ht.of_step hs⟩
termination_by s.length
decreasing_by simp only [List.length_cons, List.length_drop]; omega

/-- The bracket that closes one opened just before an offset is found exactly where a sequence of items
from there ends with a closing bracket. -/
theorem closeFrom_eq_some_iff (k : Bracket) (src : Source) (i j : Nat) :
    closeFrom [.code k 0] i (src.drop i) = some j ↔
      i ≤ j ∧ src[j]? = some k.closing ∧ Items (.code k) (src.drop i) (src.drop j) := by
  have hclose (t : Source) (l : Nat) : closeFrom [.code k 0] l (k.closing :: t) = some l := by
    rw [closeFrom_cons, frameStep_eq_close_iff.2 ⟨k, rfl, rfl⟩]
  constructor
  · intro h
    obtain ⟨t, t', hitems, rfl⟩ := finishes_of_closeFrom h
    obtain ⟨p, hp, hpass⟩ := Items.passed hitems
    have hj : j = i + p.length := by
      have := hpass 0 [] i
      rw [Place.frame, h, hclose] at this
      exact Option.some.inj this
    have hdrop : src.drop j = k.closing :: t' := by
      rw [hj, ← List.drop_drop, hp, List.drop_left]
    refine ⟨by omega, ?_, hdrop ▸ hitems⟩
    rw [← List.head?_drop, hdrop, List.head?_cons]
  · rintro ⟨hle, hj, h⟩
    obtain ⟨p, hp, hpass⟩ := h.passed
    have hdrop : src.drop j = k.closing :: src.drop (j + 1) := by
      obtain ⟨hlt, hget⟩ := List.getElem?_eq_some_iff.1 hj
      rw [List.drop_eq_getElem_cons hlt, hget]
    have hlen : j = i + p.length := by
      have hlt := (List.getElem?_eq_some_iff.1 hj).1
      have := congrArg List.length hp
      simp only [List.length_drop, List.length_append] at this
      omega
    rw [show Frame.code k 0 = Place.frame 0 (.code k) from rfl, hpass, hdrop, Place.frame, hclose, hlen]

/-- Strings and comments go first: a parenthesis in them closes nothing, and the slash of `/*/` does not
end the comment that it is part of. -/
example : closeFrom [.code .paren 0] 0 (Source.ofString "f(a, \")\" /*/ ) */)) + 1") = some 18 := by
  decide +kernel

/-- The scan of an expression, whatever templates are in it and whichever of them carry the tag, ends at
the byte where the search for its closing brace does, and is broken off exactly if that finds none. -/
theorem expression_ends_where_closed (tag src : Source) (i : Nat) :
    let inside := scanFrom tag [.code 0 (some i)] (src.take (i + 2)).reverse (src.drop (i + 2))
    let close := closeFrom [.code .brace 0] (i + 2) (src.drop (i + 2))
    (∀ j, inside.ending = .closed j ↔ close = some j) ∧
      ((∃ e, inside.ending = .broken e) ↔ close = none) := by
  intro inside close
  rcases Nat.lt_or_ge src.length (i + 2) with hlt | hle
  · have hs : src.drop (i + 2) = [] := List.drop_of_length_le (Nat.le_of_lt hlt)
    have hinside : inside.ending = .broken (.unterminatedExpression i) := by
      simp only [inside, hs, scanFrom, endOfText]
    have hclose : close = none := by
      simp only [close, hs, closeFrom_nil]
    simp [hinside, hclose]
  · have hbefore : (src.take (i + 2)).reverse.length = i + 2 := by
      rw [List.length_reverse, List.length_take, Nat.min_eq_left hle]
    have hwithin : Within i [] [.code 0 (some i)] [.code .brace 0] := .base 0
    have hopened : i ≤ (src.take (i + 2)).reverse.length := by omega
    cases hclose : close with
    | none =>
      have hbroken : ∃ e j, inside.ending = .broken e ∧ e.offset? = some j ∧ i ≤ j :=
        hwithin.broken hopened hclose
      obtain ⟨e, -, he, -⟩ := hbroken
      simp [he]
    | some j =>
      have hended : ∃ p r, src.drop (i + 2) = p ++ Bracket.brace.closing :: r ∧
          j = i + 2 + p.length ∧ inside.ending = (scanFrom tag []
            (Bracket.brace.closing :: (p.reverse ++ (src.take (i + 2)).reverse)) r).ending :=
        hwithin.ending_eq hopened hclose
      obtain ⟨p, r, hs, rfl, he⟩ := hended
      have he : inside.ending = .closed (i + 2 + p.length) := by
        refine he.trans ?_
        have hlen : (Bracket.brace.closing :: (p.reverse ++ (src.take (i + 2)).reverse)).length - 1 =
            i + 2 + p.length := by
          rw [List.length_cons, List.length_append, hbefore, List.length_reverse]
          omega
        cases r <;> rw [scanFrom, hlen]
      simp [he]

end Reactivity.Template
