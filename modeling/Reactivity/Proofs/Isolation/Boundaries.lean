import Reactivity.Proofs.Isolation.Offsets

namespace Reactivity.Template

theorem ofString_append (s t : String) :
    Source.ofString (s ++ t) = Source.ofString s ++ Source.ofString t := by
  simp [Source.ofString]

theorem length_ofString (s : String) : (Source.ofString s).length = s.utf8ByteSize := by
  rw [← String.size_toByteArray, ← String.utf8Encode_toList, List.utf8Encode, List.size_toByteArray]
  rfl

theorem ofString_ofList (cs : List Char) :
    Source.ofString (String.ofList cs) = cs.flatMap String.utf8EncodeChar := by
  rw [Source.ofString, String.toList_ofList]

theorem exists_append_of_ofString_eq {source : String} {c : Char} {b : UInt8} {u v : Source}
    (hc : String.utf8EncodeChar c = [b]) (h : Source.ofString source = u ++ b :: v) :
    ∃ p q : String, source = p ++ String.singleton c ++ q ∧ Source.ofString p = u ∧
      Source.ofString q = v := by
  have heq : source.toList.flatMap String.utf8EncodeChar = u ++ (String.utf8EncodeChar c ++ v) := by
    rw [hc]
    exact h
  obtain ⟨us, vs, hsplit, hu, hv⟩ := exists_append_of_flatMap_eq heq
  refine ⟨String.ofList us, String.ofList vs, ?_, (ofString_ofList us).trans hu,
    (ofString_ofList vs).trans hv⟩
  rw [← String.toList_inj, hsplit]
  simp

/-- On both sides of a character of one byte there is a place between characters. -/
theorem isValid_around {source : String} {c : Char} {b : UInt8} {u v : Source}
    (hc : String.utf8EncodeChar c = [b]) (h : Source.ofString source = u ++ b :: v) :
    String.Pos.Raw.IsValid source ⟨u.length⟩ ∧ String.Pos.Raw.IsValid source ⟨u.length + 1⟩ := by
  obtain ⟨p, q, rfl, rfl, -⟩ := exists_append_of_ofString_eq hc h
  have hsize : (String.singleton c).utf8ByteSize = 1 := by
    rw [← length_ofString, Source.ofString, String.toList_singleton, List.flatMap_singleton, hc]
    rfl
  refine ⟨String.Pos.Raw.isValid_iff_exists_append.2 ⟨p, String.singleton c ++ q, ?_, ?_⟩,
    String.Pos.Raw.isValid_iff_exists_append.2 ⟨p ++ String.singleton c, q, rfl, ?_⟩⟩
  · rw [String.append_assoc]
  · rw [String.Pos.Raw.ext_iff, length_ofString, String.byteIdx_rawEndPos]
  · rw [String.Pos.Raw.ext_iff, length_ofString, String.byteIdx_rawEndPos, String.utf8ByteSize_append,
      hsize]

/-- `Comes tag s levels before rest`: the scan of the text `s` comes to what remains of it, with the
levels open and `before` read, last byte first. -/
inductive Comes (tag s : Source) : List Level → Source → Source → Prop
  | start : Comes tag s [.code 0 none] [] s
  | pass {levels levels' : List Level} {before : Source} {b : UInt8} {q t : Source}
      (comes : Comes tag s levels before (b :: (q ++ t)))
      (passes : Passes tag levels before b q t levels') :
      Comes tag s levels' ((b :: q).reverse ++ before) t
  | record {openedAt : Nat} {st : List Level} {before text t : Source}
      (comes : Comes tag s (.template openedAt true :: st) before (inBraces text ++ t))
      (closed : Closed text) :
      Comes tag s (.template openedAt true :: st) ((inBraces text).reverse ++ before) t

theorem Comes.eq_append {tag s before rest : Source} {levels : List Level}
    (h : Comes tag s levels before rest) : s = before.reverse ++ rest := by
  induction h with
  | start => rfl
  | pass _ _ ih => simpa using ih
  | record _ _ ih => simpa using ih

/-- `Cuts tag s i`: the scan cuts the text at the offset, to compare what is before a template with the
tag, or to take out the text of an expression. -/
inductive Cuts (tag s : Source) : Nat → Prop
  | tagged {depth : Nat} {openedAt : Option Nat} {st : List Level} {before rest : Source}
      (comes : Comes tag s (.code depth openedAt :: st) before (Source.backtick :: rest)) :
      Cuts tag s before.length
  | opening {openedAt : Nat} {st : List Level} {before rest : Source}
      (comes : Comes tag s (.template openedAt true :: st) before
        (Source.dollar :: Bracket.brace.opening :: rest)) :
      Cuts tag s (before.length + 2)
  | closing {openedAt close : Nat} {st : List Level} {before rest : Source}
      (comes : Comes tag s (.template openedAt true :: st) before
        (Source.dollar :: Bracket.brace.opening :: rest))
      (closes : Bracket.brace.close? rest = some close) :
      Cuts tag s (before.length + 2 + close)

theorem Cuts.isValid {tag : Source} {source : String} {i : Nat}
    (h : Cuts tag (Source.ofString source) i) : String.Pos.Raw.IsValid source ⟨i⟩ := by
  cases h with
  | @tagged depth openedAt st before rest comes =>
    have around := isValid_around (c := '`') rfl comes.eq_append
    rw [List.length_reverse] at around
    exact around.1
  | @opening openedAt st before rest comes =>
    have heq : Source.ofString source =
        (before.reverse ++ [Source.dollar]) ++ Bracket.brace.opening :: rest := by
      rw [comes.eq_append]
      simp
    have around := isValid_around (c := '{') rfl heq
    rw [List.length_append, List.length_reverse] at around
    exact around.2
  | @closing openedAt close st before rest comes closes =>
    obtain ⟨-, hrest⟩ := closed_of_close?_eq closes
    have hlt : close < rest.length := by
      have hlen := congrArg List.length hrest
      simp only [List.length_append, List.length_take, List.length_cons] at hlen
      omega
    have heq : Source.ofString source =
        (before.reverse ++ (Source.dollar :: Bracket.brace.opening :: rest.take close)) ++
          Bracket.brace.closing :: rest.drop (close + 1) := by
      rw [comes.eq_append]
      simp [← hrest]
    have hlen : (before.reverse ++
        (Source.dollar :: Bracket.brace.opening :: rest.take close)).length =
          before.length + 2 + close := by
      simp only [List.length_append, List.length_reverse, List.length_cons, List.length_take]
      omega
    have around := isValid_around (c := '}') rfl heq
    rw [hlen] at around
    exact around.1

/-- The text of a record lies between two cuts, or behind one where the expression is never closed. -/
theorem Comes.cuts {tag s before rest : Source} {levels : List Level}
    (h : Comes tag s levels before rest) :
    ∀ e ∈ (scanFrom tag levels before rest).expressions, Cuts tag s (e.start + 2) ∧
      (e.terminated → Cuts tag s (e.start + 2 + e.text.length)) := by
  induction levels, before, rest using scan_induction tag with
  | close before rest =>
    rw [scanFrom_nil_levels]
    exact fun _ he => absurd he List.not_mem_nil
  | done levels before =>
    rw [scanFrom_nil_source]
    exact fun _ he => absurd he List.not_mem_nil
  | pass levels before b q t levels' hp ih =>
    rw [hp.scanFrom_eq]
    exact ih (.pass h hp)
  | unterminated openedAt st before rest hc =>
    rw [scanFrom_unterminated hc]
    intro e he
    obtain rfl := List.mem_singleton.1 he
    exact ⟨.opening h, fun ht => Bool.noConfusion ht⟩
  | record openedAt st before text t hc ih =>
    rw [scanFrom_record hc]
    intro e he
    rcases List.mem_cons.1 he with rfl | he
    · have h' : Comes tag s (.template openedAt true :: st) before
          (Source.dollar :: Bracket.brace.opening :: (text ++ Bracket.brace.closing :: t)) := by
        simpa [inBraces] using h
      exact ⟨.opening h', fun _ => .closing h' (hc.close?_eq t)⟩
    · exact ih (.record h hc) e he

theorem Located.exists_append {i : Nat} {es : List Expression} {s : Source} (h : Located i es s) :
    ∀ e ∈ es, ∃ p t, s = p ++ (e.source ++ t) ∧ e.start = i + p.length ∧
      e.stop = e.start + e.source.length := by
  induction h with
  | done => exact fun _ he => absurd he List.not_mem_nil
  | @cons i e es p t start stop _ ih =>
    intro e' he
    rcases List.mem_cons.1 he with rfl | he
    · exact ⟨p, t, rfl, start, stop⟩
    · obtain ⟨p', t', rfl, start', stop'⟩ := ih e' he
      refine ⟨p ++ (e.source ++ p'), t', by simp only [List.append_assoc], ?_, stop'⟩
      simp only [List.length_append]
      omega

theorem Located.pairwise {i : Nat} {es : List Expression} {s : Source} (h : Located i es s) :
    es.Pairwise (·.stop ≤ ·.start) := by
  induction h with
  | done => exact .nil
  | cons _ _ rest ih => exact .cons rest.start_ge ih

/-- An expression of a tagged template that is never closed is recorded last, with all that remains of the
text. -/
theorem scanFrom_openRecord_last {tag : Source} {levels : List Level} {before s : Source}
    {e : Expression} (he : e ∈ (scanFrom tag levels before s).expressions)
    (ht : e.terminated = false) :
    (scanFrom tag levels before s).expressions.getLast? = some e ∧
      e.stop = before.length + s.length := by
  induction levels, before, s using scan_induction tag with
  | close before s =>
    rw [scanFrom_nil_levels] at he
    exact absurd he List.not_mem_nil
  | done levels before =>
    rw [scanFrom_nil_source] at he
    exact absurd he List.not_mem_nil
  | pass levels before b q t levels' hp ih =>
    rw [hp.scanFrom_eq] at he ⊢
    obtain ⟨hlast, hstop⟩ := ih he
    refine ⟨hlast, hstop.trans ?_⟩
    rw [length_reverse_append, ← List.cons_append, List.length_append, Nat.add_assoc]
  | unterminated openedAt st before rest hc =>
    rw [scanFrom_unterminated hc] at he ⊢
    obtain rfl := List.mem_singleton.1 he
    refine ⟨rfl, ?_⟩
    simp only [Expression.openAt, List.length_cons]
    omega
  | record openedAt st before text t hc ih =>
    rw [scanFrom_record hc] at he ⊢
    rcases List.mem_cons.1 he with rfl | he
    · cases ht
    · obtain ⟨hlast, hstop⟩ := ih he
      refine ⟨by rw [List.getLast?_cons, hlast]; rfl, hstop.trans ?_⟩
      rw [length_reverse_append, List.length_append, Nat.add_assoc]

/-- The record is of an expression that stands in the source, with what it says of where that opens, where
it ends and what it holds. -/
def Expression.StandsIn (source : String) (e : Expression) : Prop :=
  ∃ front text : String, e.start = front.utf8ByteSize ∧ e.text = Source.ofString text ∧
    if e.terminated then
      ∃ back, source = front ++ "$\x7b" ++ text ++ "\x7d" ++ back ∧
        e.stop = (front ++ "$\x7b" ++ text ++ "\x7d").utf8ByteSize
    else source = front ++ "$\x7b" ++ text ∧ e.stop = source.utf8ByteSize

theorem exists_append_opening {source : String} {u v : Source}
    (h : Source.ofString source = u ++ (expressionOpening ++ v)) :
    ∃ p q : String, source = p ++ "$\x7b" ++ q ∧ Source.ofString p = u ∧ Source.ofString q = v := by
  obtain ⟨p, r, rfl, hp, hr⟩ := exists_append_of_ofString_eq (c := '$') rfl h
  obtain ⟨p', q, rfl, hp', hq⟩ := exists_append_of_ofString_eq (u := []) (c := '{') rfl hr
  have hempty : p' = "" := by
    rw [← String.utf8ByteSize_eq_zero_iff, ← length_ofString, hp']
    rfl
  refine ⟨p, q, ?_, hp, hq⟩
  rw [hempty]
  simp only [String.append_assoc]
  rfl

theorem Expression.standsIn {source : String} {e : Expression} {p t : Source}
    (h : Source.ofString source = p ++ (e.source ++ t)) (start : e.start = p.length)
    (stop : e.stop = e.start + e.source.length)
    (last : e.terminated = false → e.stop = (Source.ofString source).length) :
    e.StandsIn source := by
  have hsize (s : String) : s.utf8ByteSize = (Source.ofString s).length := (length_ofString s).symm
  cases ht : e.terminated with
  | true =>
    have hsource : e.source = expressionOpening ++ (e.text ++ [Bracket.brace.closing]) := by
      rw [source_of_terminated ht]
      rfl
    have heq : Source.ofString source =
        p ++ (expressionOpening ++ (e.text ++ Bracket.brace.closing :: t)) := by
      rw [h, hsource]
      simp
    obtain ⟨front, q, rfl, rfl, hq⟩ := exists_append_opening heq
    obtain ⟨text, back, rfl, htext, -⟩ := exists_append_of_ofString_eq (c := '}') rfl hq
    refine ⟨front, text, by rw [start, hsize], htext.symm, ?_⟩
    rw [if_pos ht]
    refine ⟨back, by simp only [String.append_assoc]; rfl, ?_⟩
    rw [stop, start, hsource, ← htext, hsize]
    simp only [ofString_append, List.length_append]
    rw [Nat.add_assoc, Nat.add_assoc]
    rfl
  | false =>
    have hsource : e.source = expressionOpening ++ e.text := by
      simp [Expression.source, ht, expressionOpening]
    have hnil : t = [] := by
      have hlen := last ht
      rw [stop, start, h] at hlen
      simp only [List.length_append] at hlen
      exact List.length_eq_zero_iff.1 (by omega)
    have heq : Source.ofString source = p ++ (expressionOpening ++ e.text) := by
      rw [h, hsource, hnil, List.append_nil]
    obtain ⟨front, text, rfl, rfl, htext⟩ := exists_append_opening heq
    refine ⟨front, text, by rw [start, hsize], htext.symm, ?_⟩
    rw [if_neg (by simp [ht])]
    exact ⟨rfl, by rw [last ht, hsize]⟩

/-- The records of a scan are well formed, whatever the source and the tag. The scan cuts the source
between characters only, and the text of each record is cut out so. The records are parts of the source
that stand one after the other; one that is never closed is the last, holds all that remains, and is what
the error points to. Each error points to what it says is left open: a dollar sign with a brace behind it,
or a backtick. -/
theorem records_well_formed (tag : Source) (source : String) :
    let s := Source.ofString source
    let found := scan tag s
    (∀ i, Cuts tag s i → String.Pos.Raw.IsValid source ⟨i⟩) ∧
    (∀ e ∈ found.expressions, Cuts tag s (e.start + 2) ∧
      (e.terminated → Cuts tag s (e.start + 2 + e.text.length))) ∧
    found.expressions.Pairwise (fun e e' => e.stop ≤ e'.start) ∧
    (∀ e ∈ found.expressions, e.start < e.stop ∧ e.StandsIn source ∧
      (e.terminated = false → found.expressions.getLast? = some e ∧
        found.error = some (.unterminatedExpression e.start))) ∧
    ∀ err, found.error = some err → ∃ i, err.offset? = some i ∧ err.Opens (s.drop i) := by
  intro s found
  have located : Located 0 found.expressions s := scan_located tag s
  refine ⟨fun i hi => hi.isValid, Comes.start.cuts, located.pairwise, fun e he => ?_, fun err herr => ?_⟩
  · obtain ⟨p, t, hs, start, stop⟩ := located.exists_append e he
    rw [Nat.zero_add] at start
    have hpos : 0 < e.source.length := by
      cases ht : e.terminated <;> simp [Expression.source, ht, inBraces]
    refine ⟨by omega, e.standsIn hs start stop fun ht => ?_, fun ht => ?_⟩
    · have hstop := (scanFrom_openRecord_last he ht).2
      rwa [List.length_nil, Nat.zero_add] at hstop
    · exact ⟨(scanFrom_openRecord_last he ht).1,
        Scan.error_eq_some_iff.2 (scanFrom_openRecord he ht).1⟩
  · obtain ⟨i, hi, -⟩ := scanFrom_broken (Scan.error_eq_some_iff.1 herr)
    exact ⟨i, hi, scan_opens herr hi⟩

end Reactivity.Template
