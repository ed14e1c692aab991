import Reactivity.Proofs.Run.Step
import Reactivity.Proofs.Updates.Sameness
import Mathlib.Data.List.Chain

namespace Reactivity

def Event.got? (n : NodeId) : Event → Option Result
  | .watchGot m r => if m = n then some r else none
  | _ => none

/-- What the callback of the watch is called with: a result, and the one that was kept before. -/
def Event.call? (n : NodeId) : Event → Option (Result × Option Result)
  | .watchCalled m new old => if m = n then some (new, old) else none
  | _ => none

def gots (n : NodeId) (h : List Event) : List Result :=
  h.filterMap (Event.got? n)

def calls (n : NodeId) (h : List Event) : List (Result × Option Result) :=
  h.filterMap (Event.call? n)

def keptOf : List Result → Option Result
  | [] => none
  | r :: rs =>
    match keptOf rs with
    | none => some r
    | some k => if k.same r then some k else some r

def callsFor (immediate : Bool) : List Result → List (Result × Option Result)
  | [] => []
  | r :: rs =>
    match keptOf rs with
    | none => if immediate then [(r, none)] else []
    | some k => if k.same r then callsFor immediate rs else (r, some k) :: callsFor immediate rs

section Results

variable {r k : Result} {rs : List Result} {immediate : Bool}

theorem keptOf_isSome (r : Result) (rs : List Result) : (keptOf (r :: rs)).isSome := by
  rw [keptOf]
  split
  · rfl
  · split <;> rfl

theorem keptOf_eq_none : keptOf rs = none ↔ rs = [] := by
  cases rs with
  | nil => exact ⟨fun _ => rfl, fun _ => rfl⟩
  | cons r rs =>
    have h := keptOf_isSome r rs
    constructor
    · intro hn
      rw [hn] at h
      cases h
    · exact nofun

theorem same_of_keptOf (h : keptOf (r :: rs) = some k) : k.same r := by
  rw [keptOf] at h
  split at h
  · obtain rfl := Option.some.inj h
    exact r.same_refl
  · split at h
    · next hsame =>
      obtain rfl := Option.some.inj h
      exact hsame
    · obtain rfl := Option.some.inj h
      exact r.same_refl

theorem keptOf_cons_of_same (hk : keptOf rs = some k) (h : k.same r) :
    keptOf (r :: rs) = some k := by
  simp [keptOf, hk, h]

theorem keptOf_cons_of_other (hk : keptOf rs = some k) (h : k.same r = false) :
    keptOf (r :: rs) = some r := by
  simp [keptOf, hk, h]

theorem callsFor_cons_of_same (hk : keptOf rs = some k) (h : k.same r) :
    callsFor immediate (r :: rs) = callsFor immediate rs := by
  simp [callsFor, hk, h]

theorem callsFor_cons_of_other (hk : keptOf rs = some k) (h : k.same r = false) :
    callsFor immediate (r :: rs) = (r, some k) :: callsFor immediate rs := by
  simp [callsFor, hk, h]

theorem callsFor_singleton (immediate : Bool) (r : Result) :
    callsFor immediate [r] = if immediate then [(r, none)] else [] :=
  rfl

/-- Results are one, or more of which the last is the same as the one that was kept, or not. -/
theorem results_cases {motive : List Result → Prop} (rs : List Result) (nil : motive [])
    (single : ∀ r, motive [r])
    (same : ∀ r rs k, keptOf rs = some k → k.same r → motive rs → motive (r :: rs))
    (other : ∀ r rs k, keptOf rs = some k → k.same r = false → motive rs → motive (r :: rs)) :
    motive rs := by
  induction rs with
  | nil => exact nil
  | cons r rs ih =>
    cases hk : keptOf rs with
    | none =>
      obtain rfl := keptOf_eq_none.1 hk
      exact single r
    | some k =>
      cases h : k.same r with
      | true => exact same r rs k hk h ih
      | false => exact other r rs k hk h ih

theorem keptOf_of_head?_callsFor {c : Result × Option Result} :
    (callsFor immediate rs).head? = some c → keptOf rs = some c.1 := by
  induction rs using results_cases with
  | nil => exact nofun
  | single r =>
    rw [callsFor_singleton]
    split
    · intro h
      rw [← Option.some.inj h]
      rfl
    · exact nofun
  | same r rs k hk h ih =>
    rw [callsFor_cons_of_same hk h, keptOf_cons_of_same hk h, ← hk]
    exact ih
  | other r rs k hk h ih =>
    rw [callsFor_cons_of_other hk h, keptOf_cons_of_other hk h]
    intro hc
    rw [← Option.some.inj hc]

theorem isChain_callsFor (immediate : Bool) (rs : List Result) :
    (callsFor immediate rs).IsChain fun later earlier => later.2 = some earlier.1 := by
  induction rs using results_cases with
  | nil => exact .nil
  | single r =>
    rw [callsFor_singleton]
    split
    · exact .singleton _
    · exact .nil
  | same r rs k hk h ih =>
    rw [callsFor_cons_of_same hk h]
    exact ih
  | other r rs k hk h ih =>
    rw [callsFor_cons_of_other hk h, List.isChain_cons]
    refine ⟨fun c hc => ?_, ih⟩
    rw [← hk]
    exact keptOf_of_head?_callsFor hc

theorem other_of_mem_callsFor {c : Result × Option Result} (hc : c ∈ callsFor immediate rs)
    {old : Result} (hold : c.2 = some old) : old.same c.1 = false := by
  induction rs using results_cases with
  | nil => cases hc
  | single r =>
    rw [callsFor_singleton] at hc
    split at hc
    · obtain rfl := List.mem_singleton.1 hc
      cases hold
    · cases hc
  | same r rs k hk h ih =>
    rw [callsFor_cons_of_same hk h] at hc
    exact ih hc
  | other r rs k hk h ih =>
    rw [callsFor_cons_of_other hk h] at hc
    rcases List.mem_cons.1 hc with rfl | hc
    · obtain rfl := Option.some.inj hold
      exact h
    · exact ih hc

theorem getLast?_cons_of_keptOf (hk : keptOf rs = some k) : (r :: rs).getLast? = rs.getLast? := by
  cases rs with
  | nil => cases hk
  | cons => rfl

theorem keptOf_of_callsFor_eq_nil : callsFor false rs = [] → keptOf rs = rs.getLast? := by
  induction rs using results_cases with
  | nil => exact fun _ => rfl
  | single r => exact fun _ => rfl
  | same r rs k hk h ih =>
    rw [callsFor_cons_of_same hk h, keptOf_cons_of_same hk h, getLast?_cons_of_keptOf hk, ← hk]
    exact ih
  | other r rs k hk h ih =>
    rw [callsFor_cons_of_other hk h]
    exact nofun

theorem snd_of_getLast?_callsFor {c : Result × Option Result} :
    (callsFor false rs).getLast? = some c → c.2 = rs.getLast? := by
  induction rs using results_cases with
  | nil => exact nofun
  | single r => exact nofun
  | same r rs k hk h ih =>
    rw [callsFor_cons_of_same hk h, getLast?_cons_of_keptOf hk]
    exact ih
  | other r rs k hk h ih =>
    rw [callsFor_cons_of_other hk h, getLast?_cons_of_keptOf hk]
    cases hcalls : callsFor false rs with
    | nil =>
      intro hc
      obtain rfl : (r, some k) = c := Option.some.inj hc
      exact hk.symm.trans (keptOf_of_callsFor_eq_nil hcalls)
    | cons c' cs =>
      rw [List.getLast?_cons_cons, ← hcalls]
      exact ih

theorem getLast?_callsFor_immediate (rs : List Result) :
    (callsFor true rs).getLast? = rs.getLast?.map fun r => (r, none) := by
  induction rs using results_cases with
  | nil => rfl
  | single r => rfl
  | same r rs k hk h ih =>
    rw [callsFor_cons_of_same hk h, getLast?_cons_of_keptOf hk]
    exact ih
  | other r rs k hk h ih =>
    rw [callsFor_cons_of_other hk h, getLast?_cons_of_keptOf hk, ← ih]
    have hne : rs ≠ [] := fun hn => by simp [hn, keptOf] at hk
    cases hcalls : callsFor true rs with
    | nil =>
      rw [hcalls] at ih
      cases hlast : rs.getLast? with
      | none => exact absurd (List.getLast?_eq_none_iff.1 hlast) hne
      | some x =>
        rw [hlast] at ih
        cases ih
    | cons c cs => rfl

end Results

/-- What a watch keeps from one run to the next. -/
structure Kept where
  immediate : Bool
  fresh : Bool
  last : Option Result

def Job.kept? : Job → Option Kept
  | .watch _ _ immediate fresh last => some ⟨immediate, fresh, last⟩
  | _ => none

theorem Job.kept?_eq_some {job : Job} {k : Kept} : job.kept? = some k ↔
    ∃ getter callback immediate fresh last, job = .watch getter callback immediate fresh last ∧
      k = ⟨immediate, fresh, last⟩ := by
  constructor
  · intro h
    cases job with
    | watch getter callback immediate fresh last =>
      exact ⟨getter, callback, immediate, fresh, last, rfl, (Option.some.inj h).symm⟩
    | _ => cases h
  · rintro ⟨getter, callback, immediate, fresh, last, rfl, rfl⟩
    rfl

def World.kept? (w : World) (n : NodeId) : Option Kept :=
  (w.effect? n).bind fun e => e.job.kept?

/-- The first call of the callback returns before the getter gives another result. -/
def FirstReturns (n : NodeId) (h : List Event) : Prop :=
  ∀ r past, .watchGot n r :: past <:+ h → calls n past ≠ [] → .watchReturned n ∈ past

/-- Whenever the getter gives a result, the callback has been called for those before it. -/
def Punctual (n : NodeId) (immediate : Bool) (h : List Event) : Prop :=
  ∀ r past, .watchGot n r :: past <:+ h → calls n past = callsFor immediate (gots n past)

/-- The watch has done all that there is to do for the results so far. -/
structure Settled (n : NodeId) (k : Kept) (h : List Event) : Prop where
  fresh : k.fresh = (gots n h).isEmpty
  last : k.last = keptOf (gots n h)
  called : calls n h = callsFor k.immediate (gots n h)
  unreturned : gots n h = [] → .watchReturned n ∉ h

/-- The first call of an immediate watch has not returned, and nothing has been kept. -/
structure Failed (n : NodeId) (k : Kept) (h : List Event) : Prop where
  immediate : k.immediate = true
  fresh : k.fresh = false
  last : k.last = none
  once : ∃ r, gots n h = [r] ∧ calls n h = [(r, none)]
  unreturned : .watchReturned n ∉ h

def Rests (n : NodeId) (k : Kept) (h : List Event) : Prop :=
  Settled n k h ∨ Failed n k h

/-- When the duties are done, there is nothing left to do. In every call the watch rests. -/
def Owed (n : NodeId) : List Duty → Kept → List Event → Prop
  | [], k, h => Settled n k h
  | .keep job :: duties, k, h =>
    ∃ k', job.kept? = some k' ∧ k'.immediate = k.immediate ∧ Owed n duties k' h
  | .call new old :: duties, k, h =>
    Rests n k (.watchCalled n new old :: h) ∧
      Owed n duties k (.watchReturned n :: .watchCalled n new old :: h)

/-- What there is left to do, in the stage that the run of the watch is in. -/
def Report (n : NodeId) (k : Kept) (h : List Event) : Option Stage → Prop
  | some (.getting _ job) => job.kept? = some k ∧ Rests n k h
  | some (.reporting _ duties) => Owed n duties k h
  | some (.calling _ _ _ duties) => Rests n k h ∧ Owed n duties k (.watchReturned n :: h)
  | _ => Rests n k h

def Event.OfWatch (n : NodeId) : Event → Prop
  | .watchGot m _ | .watchCalled m .. | .watchReturned m => m = n
  | _ => False

/-- The two pasts say the same about the watch. -/
structure Agree (n : NodeId) (h h' : List Event) : Prop where
  results : gots n h' = gots n h
  called : calls n h' = calls n h
  returned : .watchReturned n ∈ h' ↔ .watchReturned n ∈ h

section Pasts

variable {n : NodeId} {e : Event} {h h' past : List Event} {k : Kept} {immediate : Bool}

theorem Event.got?_eq_none (he : ¬ e.OfWatch n) : e.got? n = none := by
  cases e with
  | watchGot => exact if_neg he
  | _ => rfl

theorem Event.call?_eq_none (he : ¬ e.OfWatch n) : e.call? n = none := by
  cases e with
  | watchCalled => exact if_neg he
  | _ => rfl

@[simp]
theorem gots_cons_got (n : NodeId) (r : Result) (h : List Event) :
    gots n (.watchGot n r :: h) = r :: gots n h :=
  List.filterMap_cons_some (if_pos rfl)

@[simp]
theorem gots_cons_called (n m : NodeId) (new : Result) (old : Option Result) (h : List Event) :
    gots n (.watchCalled m new old :: h) = gots n h :=
  rfl

@[simp]
theorem gots_cons_returned (n m : NodeId) (h : List Event) :
    gots n (.watchReturned m :: h) = gots n h :=
  rfl

@[simp]
theorem calls_cons_got (n m : NodeId) (r : Result) (h : List Event) :
    calls n (.watchGot m r :: h) = calls n h :=
  rfl

@[simp]
theorem calls_cons_called (n : NodeId) (new : Result) (old : Option Result) (h : List Event) :
    calls n (.watchCalled n new old :: h) = (new, old) :: calls n h :=
  List.filterMap_cons_some (if_pos rfl)

@[simp]
theorem calls_cons_returned (n m : NodeId) (h : List Event) :
    calls n (.watchReturned m :: h) = calls n h :=
  rfl

theorem gots_append (n : NodeId) (h h' : List Event) : gots n (h ++ h') = gots n h ++ gots n h' :=
  List.filterMap_append

theorem calls_append (n : NodeId) (h h' : List Event) :
    calls n (h ++ h') = calls n h ++ calls n h' :=
  List.filterMap_append

theorem Agree.append {new : List Event} (hnew : ∀ e ∈ new, ¬ e.OfWatch n) (h : List Event) :
    Agree n h (new ++ h) where
  results := by
    have hnil : gots n new = [] :=
      List.filterMap_eq_nil_iff.2 fun e he => Event.got?_eq_none (hnew e he)
    rw [gots_append, hnil, List.nil_append]
  called := by
    have hnil : calls n new = [] :=
      List.filterMap_eq_nil_iff.2 fun e he => Event.call?_eq_none (hnew e he)
    rw [calls_append, hnil, List.nil_append]
  returned := by
    rw [List.mem_append]
    exact or_iff_right fun he => hnew _ he rfl

theorem Agree.cons (ha : Agree n h h') (e : Event) : Agree n (e :: h) (e :: h') where
  results := by rw [← List.singleton_append, gots_append, ha.results, ← gots_append]; rfl
  called := by rw [← List.singleton_append, calls_append, ha.called, ← calls_append]; rfl
  returned := by rw [List.mem_cons, List.mem_cons, ha.returned]

theorem Settled.agree (hs : Settled n k h) (ha : Agree n h h') : Settled n k h' where
  fresh := by rw [ha.results]; exact hs.fresh
  last := by rw [ha.results]; exact hs.last
  called := by rw [ha.called, ha.results]; exact hs.called
  unreturned := by rw [ha.results, ha.returned]; exact hs.unreturned

theorem Failed.agree (hf : Failed n k h) (ha : Agree n h h') : Failed n k h' where
  immediate := hf.immediate
  fresh := hf.fresh
  last := hf.last
  once := by rw [ha.results, ha.called]; exact hf.once
  unreturned := by rw [ha.returned]; exact hf.unreturned

theorem Rests.agree (hr : Rests n k h) (ha : Agree n h h') : Rests n k h' :=
  hr.imp (·.agree ha) (·.agree ha)

theorem Owed.agree {duties : List Duty} (ho : Owed n duties k h) (ha : Agree n h h') :
    Owed n duties k h' := by
  induction duties generalizing k h h' with
  | nil => exact Settled.agree ho ha
  | cons d duties ih =>
    cases d with
    | keep job =>
      obtain ⟨k', hk, himm, ho⟩ := ho
      exact ⟨k', hk, himm, ih ho ha⟩
    | call new old => exact ⟨ho.1.agree (ha.cons _), ih ho.2 ((ha.cons _).cons _)⟩

theorem Report.agree {s : Option Stage} (hr : Report n k h s) (ha : Agree n h h') :
    Report n k h' s := by
  cases s with
  | none => exact Rests.agree hr ha
  | some s =>
    cases s with
    | getting => exact ⟨hr.1, hr.2.agree ha⟩
    | reporting => exact Owed.agree hr ha
    | calling => exact ⟨hr.1.agree ha, hr.2.agree (ha.cons _)⟩
    | cleaning | cleanup => exact Rests.agree hr ha

theorem FirstReturns.mono (hf : FirstReturns n h') (hs : h <:+ h') : FirstReturns n h :=
  fun r past hp => hf r past (hp.trans hs)

theorem Punctual.of_nil (hg : gots n h = []) : Punctual n immediate h := by
  rintro r past ⟨new, rfl⟩
  simp [gots_append] at hg

theorem Punctual.of_append {new : List Event} (hp : Punctual n immediate h)
    (hnew : ∀ e ∈ new, ¬ e.OfWatch n) : Punctual n immediate (new ++ h) := by
  induction new with
  | nil => exact hp
  | cons e new ih =>
    intro r past hs
    rcases List.suffix_cons_iff.1 hs with hs | hs
    · obtain ⟨rfl, -⟩ := List.cons.inj hs
      exact absurd rfl (hnew _ List.mem_cons_self)
    · exact ih (fun e he => hnew e (List.mem_cons_of_mem _ he)) r past hs

theorem Punctual.cons (hp : Punctual n immediate h) (he : ∀ r, e ≠ .watchGot n r) :
    Punctual n immediate (e :: h) := by
  intro r past hs
  rcases List.suffix_cons_iff.1 hs with hs | hs
  · obtain ⟨rfl, -⟩ := List.cons.inj hs
    exact absurd rfl (he r)
  · exact hp r past hs

theorem Punctual.cons_got (hp : Punctual n k.immediate h) (hs : Settled n k h) (r : Result) :
    Punctual n k.immediate (.watchGot n r :: h) := by
  intro r past hpast
  rcases List.suffix_cons_iff.1 hpast with hpast | hpast
  · obtain ⟨-, rfl⟩ := List.cons.inj hpast
    exact hs.called
  · exact hp r past hpast

/-- A watch that rests has not failed when its getter gives another result. -/
theorem Rests.settled {r : Result} (hr : Rests n k h)
    (hf : k.immediate → FirstReturns n (.watchGot n r :: h)) : Settled n k h := by
  refine hr.resolve_right fun hfailed => hfailed.unreturned ?_
  obtain ⟨r', -, hcalls⟩ := hfailed.once
  exact hf hfailed.immediate r h List.suffix_rfl (by simp [hcalls])

theorem Settled.owed {job : Job} (hs : Settled n k h) (hjob : job.kept? = some k) (r : Result) :
    Owed n (job.duties r) k (.watchGot n r :: h) := by
  obtain ⟨getter, callback, immediate, fresh, last, rfl, rfl⟩ := Job.kept?_eq_some.1 hjob
  obtain ⟨hfresh, hlast, hcalls, hreturned⟩ := hs
  dsimp only at hfresh hlast hcalls
  cases hgots : gots n h with
  | nil =>
    rw [hgots] at hfresh hcalls
    obtain rfl : fresh = true := hfresh
    have hnone : Event.watchReturned n ∉ h := hreturned hgots
    have hnil : calls n h = [] := hcalls
    cases immediate with
    | false =>
      refine ⟨_, rfl, rfl, _, rfl, rfl, ?_⟩
      constructor <;> simp [hgots, hnil, keptOf, callsFor]
    | true =>
      refine ⟨_, rfl, rfl, .inr ?_, _, rfl, rfl, ?_⟩
      · refine ⟨rfl, rfl, rfl, ⟨r, ?_, ?_⟩, ?_⟩ <;> simp [hgots, hnil, hnone]
      · constructor <;> simp [hgots, hnil, keptOf, callsFor]
  | cons q rs =>
    rw [hgots] at hfresh hcalls hlast
    obtain rfl : fresh = false := hfresh
    obtain ⟨k, hk⟩ := Option.isSome_iff_exists.1 (keptOf_isSome q rs)
    obtain rfl : last = some k := hlast.trans hk
    cases hsame : k.same r with
    | true =>
      rw [Job.duties, if_pos hsame]
      constructor <;>
        simp [hgots, hcalls, keptOf_cons_of_same hk hsame, callsFor_cons_of_same hk hsame]
    | false =>
      rw [Job.duties, if_neg (by simp [hsame])]
      have hkept := keptOf_cons_of_other hk hsame
      have hfor : callsFor immediate (r :: q :: rs) = _ := callsFor_cons_of_other hk hsame
      refine ⟨_, rfl, rfl, .inl ?_, ?_⟩ <;> constructor <;> simp [hgots, hcalls, hkept, hfor]

end Pasts

end Reactivity
