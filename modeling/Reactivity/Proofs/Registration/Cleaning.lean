import Reactivity.Proofs.Registration.Acting
import Reactivity.Proofs.Registration.Current

namespace Reactivity

def Event.added? (n : NodeId) : Event → Option Closure
  | .cleanupAdded m c => if m = n then some c else none
  | _ => none

def Event.called? (n : NodeId) : Event → Option Closure
  | .cleanupStarted m c => if m = n then some c else none
  | _ => none

def Event.returned? (n : NodeId) : Event → Option Closure
  | .cleanupReturned m c => if m = n then some c else none
  | _ => none

def cleanupsAdded (n : NodeId) (h : List Event) : List Closure :=
  h.filterMap (Event.added? n)

def cleanupsCalled (n : NodeId) (h : List Event) : List Closure :=
  h.filterMap (Event.called? n)

def cleanupsReturned (n : NodeId) (h : List Event) : List Closure :=
  h.filterMap (Event.returned? n)

/-- The event adds or calls a cleanup of the effect, or ends the call of one. -/
def Event.Tends (n : NodeId) : Event → Prop
  | .cleanupAdded m _ | .cleanupStarted m _ | .cleanupReturned m _ => m = n
  | _ => False

/-- Cleanups are called in the order in which they were added, and all of them before the function
of the effect is started. -/
structure InOrder (n : NodeId) (h : List Event) : Prop where
  once : ∀ old, old <:+ h → cleanupsCalled n old <:+ cleanupsAdded n old
  before : ∀ old, .started n :: old <:+ h → cleanupsCalled n old = cleanupsAdded n old

def Stage.left : Stage → List Closure
  | .cleaning _ _ left | .cleanup _ _ _ left => left
  | _ => []

def Frame.left : Frame → List Closure
  | .amid s => s.left
  | _ => []

def Frame.Cleans : Frame → Prop
  | .amid s => s.mask?.isSome
  | _ => False

def Frame.isCalling : Frame → Bool
  | .amid (.cleanup ..) => true
  | _ => false

def Cleaning (fs : List Frame) : Prop :=
  ∃ f ∈ fs, f.Cleans

/-- What is done for an effect agrees with its plan: no cleanups are called below a run or a turn of
it, and it has none while they are called, nor when they have been. -/
structure Tidy (n : NodeId) (p : Plan) (fs : List Frame) (h : List Event) : Prop where
  screened : fs.Pairwise fun above below => below.Cleans → above.Cleans
  taken : Cleaning fs → p.cleanups = []
  reason : Cleaning fs → p.disposed ∨ .pending n ∈ fs
  spent : p.disposed → p.cleanups = []
  cleaned : (∃ old, h = .cleanedUp n :: old) → p.cleanups = []
  watcher : p.job.isWatcher → p.cleanups = []

def AllReturn (n : NodeId) (fs : List Frame) (h : List Event) : Prop :=
  (cleanupsCalled n h).length = (cleanupsReturned n h).length + fs.countP Frame.isCalling

/-- Unless a cleanup has not returned, the cleanups that were added are those that were called,
those that are called next and those that the effect still has. -/
structure Tallied (n : NodeId) (p : Plan) (fs : List Frame) (h : List Event) : Prop where
  level : (cleanupsReturned n h).length + fs.countP Frame.isCalling ≤ (cleanupsCalled n h).length
  tally : AllReturn n fs h →
    cleanupsAdded n h = (fs.flatMap Frame.left ++ p.cleanups).reverse ++ cleanupsCalled n h
  ordered : AllReturn n fs h → InOrder n h

section Past

variable {n : NodeId} {e : Event} {new h : List Event}

theorem Event.added?_eq_none (he : ¬ e.Tends n) : e.added? n = none := by
  cases e with
  | cleanupAdded => exact if_neg he
  | _ => rfl

theorem Event.called?_eq_none (he : ¬ e.Tends n) : e.called? n = none := by
  cases e with
  | cleanupStarted => exact if_neg he
  | _ => rfl

theorem Event.returned?_eq_none (he : ¬ e.Tends n) : e.returned? n = none := by
  cases e with
  | cleanupReturned => exact if_neg he
  | _ => rfl

theorem Event.Tends.isAbout (he : e.Tends n) : e.IsAbout n := by
  cases e <;> first | exact he | cases he

theorem cleanupsAdded_append (hnew : ∀ e ∈ new, ¬ e.Tends n) (h : List Event) :
    cleanupsAdded n (new ++ h) = cleanupsAdded n h := by
  rw [cleanupsAdded, List.filterMap_append,
    List.filterMap_eq_nil_iff.2 fun e he => Event.added?_eq_none (hnew e he), List.nil_append]
  rfl

theorem cleanupsCalled_append (hnew : ∀ e ∈ new, ¬ e.Tends n) (h : List Event) :
    cleanupsCalled n (new ++ h) = cleanupsCalled n h := by
  rw [cleanupsCalled, List.filterMap_append,
    List.filterMap_eq_nil_iff.2 fun e he => Event.called?_eq_none (hnew e he), List.nil_append]
  rfl

theorem cleanupsReturned_append (hnew : ∀ e ∈ new, ¬ e.Tends n) (h : List Event) :
    cleanupsReturned n (new ++ h) = cleanupsReturned n h := by
  rw [cleanupsReturned, List.filterMap_append,
    List.filterMap_eq_nil_iff.2 fun e he => Event.returned?_eq_none (hnew e he), List.nil_append]
  rfl

theorem InOrder.cons (hi : InOrder n h)
    (once : cleanupsCalled n (e :: h) <:+ cleanupsAdded n (e :: h))
    (before : e = .started n → cleanupsCalled n h = cleanupsAdded n h) : InOrder n (e :: h) where
  once old hs := by
    rcases List.suffix_cons_iff.1 hs with rfl | hs
    · exact once
    · exact hi.once old hs
  before old hs := by
    rcases List.suffix_cons_iff.1 hs with hs | hs
    · obtain ⟨rfl, rfl⟩ := List.cons.inj hs
      exact before rfl
    · exact hi.before old hs

theorem InOrder.append (hi : InOrder n h) (hnew : ∀ e ∈ new, ¬ e.Tends n)
    (hs : .started n ∉ new) : InOrder n (new ++ h) := by
  induction new with
  | nil => exact hi
  | cons e new ih =>
    rw [List.forall_mem_cons] at hnew
    rw [List.mem_cons, not_or] at hs
    have hi := ih hnew.2 hs.2
    have hone : ∀ e' ∈ [e], ¬ e'.Tends n := by simpa using hnew.1
    refine hi.cons ?_ ?_
    · rw [← List.singleton_append, cleanupsCalled_append hone, cleanupsAdded_append hone]
      exact hi.once _ List.suffix_rfl
    · rintro rfl
      exact absurd rfl hs.1

theorem InOrder.of_nil (hadded : cleanupsAdded n h = []) (hcalled : cleanupsCalled n h = []) :
    InOrder n h := by
  have nil {f : Event → Option Closure} (hnil : h.filterMap f = []) {old : List Event}
      (hs : old <:+ h) : old.filterMap f = [] :=
    List.suffix_nil.1 (hnil ▸ hs.filterMap f)
  constructor
  · intro old hs
    rw [cleanupsCalled, nil hcalled hs]
    exact List.nil_suffix
  · intro old hs
    have hs := (List.suffix_cons _ _).trans hs
    exact (nil hcalled hs).trans (nil hadded hs).symm

end Past

section Tidy

variable {n : NodeId} {p : Plan} {f f' : Frame} {fs : List Frame} {e : Event} {new h : List Event}

theorem not_cleaning_of_pairwise
    (hp : (f :: fs).Pairwise fun above below => below.Cleans → above.Cleans) (hf : ¬ f.Cleans) :
    ¬ Cleaning (f :: fs) := by
  rintro ⟨f', hf', hc⟩
  rcases List.mem_cons.1 hf' with rfl | hf'
  · exact hf hc
  · exact hf (List.rel_of_pairwise_cons hp hf' hc)

theorem not_cleaning_of_cons (hno : ¬ Cleaning (f :: fs)) : ¬ Cleaning fs :=
  fun ⟨f', hf', hc⟩ => hno ⟨f', List.mem_cons_of_mem _ hf', hc⟩

theorem Frame.Cleans.ne_pending (hf : f.Cleans) : .pending n ≠ f := by
  rintro rfl
  exact hf

namespace Tidy

theorem made (hp : p.cleanups = []) : Tidy n p [.created n] h := by
  have hno : ¬ Cleaning [.created n] := not_cleaning_of_pairwise (List.pairwise_singleton _ _) id
  exact ⟨List.pairwise_singleton _ _, fun _ => hp, fun hc => absurd hc hno, fun _ => hp,
    fun _ => hp, fun _ => hp⟩

theorem note (ht : Tidy n p fs h) (he : e = .cleanedUp n → p.cleanups = []) :
    Tidy n p fs (e :: h) where
  screened := ht.screened
  taken := ht.taken
  reason := ht.reason
  spent := ht.spent
  cleaned := fun ⟨_, hh⟩ => he (List.cons.inj hh).1
  watcher := ht.watcher

theorem append (ht : Tidy n p fs h) (hnew : ∀ e ∈ new, ¬ e.IsAbout n) : Tidy n p fs (new ++ h) := by
  induction new with
  | nil => exact ht
  | cons e new ih =>
    rw [List.forall_mem_cons] at hnew
    refine (ih hnew.2).note ?_
    rintro rfl
    exact absurd rfl hnew.1

theorem push (ht : Tidy n p fs h) (hno : ¬ Cleaning fs) (hf : ¬ f.Cleans) :
    Tidy n p (f :: fs) h := by
  have hno' : ¬ Cleaning (f :: fs) := by
    rintro ⟨f', hf', hc⟩
    rcases List.mem_cons.1 hf' with rfl | hf'
    · exact hf hc
    · exact hno ⟨f', hf', hc⟩
  exact ⟨List.pairwise_cons.2 ⟨fun f' hf' hc => absurd ⟨f', hf', hc⟩ hno, ht.screened⟩,
    fun hc => absurd hc hno', fun hc => absurd hc hno', ht.spent, ht.cleaned, ht.watcher⟩

theorem pop (ht : Tidy n p (f :: fs) h) : Tidy n p fs h where
  screened := ht.screened.of_cons
  taken := fun ⟨f', hf', hc⟩ => ht.taken ⟨f', List.mem_cons_of_mem _ hf', hc⟩
  reason := by
    rintro ⟨f', hf', hc⟩
    have hf : f.Cleans := List.rel_of_pairwise_cons ht.screened hf' hc
    refine (ht.reason ⟨f', List.mem_cons_of_mem _ hf', hc⟩).imp_right fun hp => ?_
    exact (List.mem_cons.1 hp).resolve_left hf.ne_pending
  spent := ht.spent
  cleaned := ht.cleaned
  watcher := ht.watcher

theorem clean (ht : Tidy n p fs h) (hf : f.Cleans) {disposed : Bool}
    (hreason : disposed ∨ .pending n ∈ fs) :
    Tidy n { p with cleanups := [], disposed := disposed } (f :: fs) h where
  screened := List.pairwise_cons.2 ⟨fun _ _ _ => hf, ht.screened⟩
  taken _ := rfl
  reason _ := hreason.imp_right (List.mem_cons_of_mem _)
  spent _ := rfl
  cleaned _ := rfl
  watcher _ := rfl

theorem swap (ht : Tidy n p (f :: fs) h) (hf : ¬ f.Cleans) (hf' : ¬ f'.Cleans) :
    Tidy n p (f' :: fs) h :=
  ht.pop.push (not_cleaning_of_cons (not_cleaning_of_pairwise ht.screened hf)) hf'

theorem goOn (ht : Tidy n p (f :: fs) h) (hf : f.Cleans) (hf' : f'.Cleans) :
    Tidy n p (f' :: fs) h where
  screened := List.pairwise_cons.2 ⟨fun _ _ _ => hf', ht.screened.of_cons⟩
  taken _ := ht.taken ⟨f, List.mem_cons_self, hf⟩
  reason _ := (ht.reason ⟨f, List.mem_cons_self, hf⟩).imp_right fun hp =>
    List.mem_cons_of_mem _ ((List.mem_cons.1 hp).resolve_left hf.ne_pending)
  spent := ht.spent
  cleaned := ht.cleaned
  watcher := ht.watcher

theorem addCleanup (ht : Tidy n p fs h) (hno : ¬ Cleaning fs) (live : p.disposed = false)
    (other : p.job.isWatcher = false) (c : Closure) :
    Tidy n { p with cleanups := p.cleanups ++ [c] } fs (.cleanupAdded n c :: h) where
  screened := ht.screened
  taken hc := absurd hc hno
  reason hc := absurd hc hno
  spent hd := nomatch live.symm.trans hd
  cleaned := fun ⟨_, hh⟩ => nomatch (List.cons.inj hh).1
  watcher hw := nomatch other.symm.trans hw

theorem keep (ht : Tidy n p fs h) {job : Job} (hj : job.isWatcher = p.job.isWatcher) :
    Tidy n { p with job := job } fs h :=
  ⟨ht.screened, ht.taken, ht.reason, ht.spent, ht.cleaned, fun hw => ht.watcher (hj ▸ hw)⟩

theorem retire (ht : Tidy n p fs h) (hw : p.job.isWatcher) :
    Tidy n { p with disposed := true } fs h :=
  ⟨ht.screened, ht.taken, fun _ => .inl rfl, fun _ => ht.watcher hw, ht.cleaned, ht.watcher⟩

end Tidy

end Tidy

section Tallied

variable {n : NodeId} {p p' : Plan} {f f' : Frame} {fs fs' : List Frame} {new h : List Event}
variable {c : Closure} {left : List Closure} {rt : RuntimeId}

theorem cleanupsAdded_cons (n : NodeId) (c : Closure) (h : List Event) :
    cleanupsAdded n (.cleanupAdded n c :: h) = c :: cleanupsAdded n h :=
  List.filterMap_cons_some (if_pos rfl)

theorem cleanupsCalled_cons (n : NodeId) (c : Closure) (h : List Event) :
    cleanupsCalled n (.cleanupStarted n c :: h) = c :: cleanupsCalled n h :=
  List.filterMap_cons_some (if_pos rfl)

theorem cleanupsReturned_cons (n : NodeId) (c : Closure) (h : List Event) :
    cleanupsReturned n (.cleanupReturned n c :: h) = c :: cleanupsReturned n h :=
  List.filterMap_cons_some (if_pos rfl)

theorem Frame.left_of_not_cleans (f : Frame) (hf : ¬ f.Cleans) :
    f.left = [] ∧ f.isCalling = false := by
  cases f with
  | amid s =>
    cases s with
    | cleaning | cleanup => exact absurd rfl hf
    | _ => exact ⟨rfl, rfl⟩
  | _ => exact ⟨rfl, rfl⟩

theorem left_eq_nil (hno : ¬ Cleaning fs) : fs.flatMap Frame.left = [] := by
  refine List.flatMap_eq_nil_iff.2 fun f hf => (f.left_of_not_cleans ?_).1
  intro hc
  exact hno ⟨f, hf, hc⟩

theorem AllReturn.append (hnew : ∀ e ∈ new, ¬ e.Tends n) :
    AllReturn n fs (new ++ h) ↔ AllReturn n fs h := by
  rw [AllReturn, AllReturn, cleanupsCalled_append hnew, cleanupsReturned_append hnew]

theorem countP_cons_quiet (hf : f.isCalling = false) (fs : List Frame) :
    (f :: fs).countP Frame.isCalling = fs.countP Frame.isCalling :=
  List.countP_cons_of_neg (by simp [hf])

theorem AllReturn.of_call
    (hr : AllReturn n (.amid (.cleanup n rt c left) :: fs) (.cleanupStarted n c :: h)) :
    AllReturn n (.amid (.cleaning n rt (c :: left)) :: fs) h := by
  have hreturned : cleanupsReturned n (.cleanupStarted n c :: h) = cleanupsReturned n h := rfl
  rw [AllReturn, List.countP_cons_of_pos rfl, hreturned, cleanupsCalled_cons,
    List.length_cons] at hr
  rw [AllReturn, countP_cons_quiet rfl]
  omega

theorem AllReturn.of_return
    (hr : AllReturn n (.amid (.cleaning n rt left) :: fs) (.cleanupReturned n c :: h)) :
    AllReturn n (.amid (.cleanup n rt c left) :: fs) h := by
  have hcalled : cleanupsCalled n (.cleanupReturned n c :: h) = cleanupsCalled n h := rfl
  rw [AllReturn, countP_cons_quiet rfl, hcalled, cleanupsReturned_cons, List.length_cons] at hr
  rw [AllReturn, List.countP_cons_of_pos rfl]
  omega

namespace Tallied

theorem append (ha : Tallied n p fs h) (hnew : ∀ e ∈ new, ¬ e.Tends n) (hs : .started n ∉ new) :
    Tallied n p fs (new ++ h) where
  level := by
    rw [cleanupsReturned_append hnew, cleanupsCalled_append hnew]
    exact ha.level
  tally hr := by
    rw [cleanupsAdded_append hnew, cleanupsCalled_append hnew]
    exact ha.tally ((AllReturn.append hnew).1 hr)
  ordered hr := (ha.ordered ((AllReturn.append hnew).1 hr)).append hnew hs

theorem note (ha : Tallied n p fs h) {e : Event} (he : ¬ e.Tends n) (hs : e ≠ .started n) :
    Tallied n p fs (e :: h) := by
  have htends : ∀ e' ∈ [e], ¬ e'.Tends n := by simpa using he
  have hstarted : .started n ∉ [e] := by simpa using hs.symm
  exact ha.append htends hstarted

theorem congr (ha : Tallied n p fs h) (hp : p'.cleanups = p.cleanups)
    (hleft : fs'.flatMap Frame.left = fs.flatMap Frame.left)
    (hcalls : fs'.countP Frame.isCalling = fs.countP Frame.isCalling) : Tallied n p' fs' h where
  level := hcalls ▸ ha.level
  tally hr := by
    rw [AllReturn, hcalls] at hr
    rw [hleft, hp]
    exact ha.tally hr
  ordered hr := by
    rw [AllReturn, hcalls] at hr
    exact ha.ordered hr

theorem made (hp : p.cleanups = []) (hadded : cleanupsAdded n h = [])
    (hcalled : cleanupsCalled n h = []) (hreturned : cleanupsReturned n h = []) :
    Tallied n p [.created n] h where
  level := by rw [hreturned, hcalled]; exact Nat.le_refl _
  tally _ := by rw [hadded, hcalled, hp]; rfl
  ordered _ := .of_nil hadded hcalled

theorem push (ha : Tallied n p fs h) (hf : ¬ f.Cleans) : Tallied n p (f :: fs) h := by
  obtain ⟨hleft, hcalling⟩ := f.left_of_not_cleans hf
  apply ha.congr rfl
  · rw [List.flatMap_cons, hleft, List.nil_append]
  · rw [countP_cons_quiet hcalling]

theorem pop (ha : Tallied n p (f :: fs) h) (hleft : f.left = []) (hf : f.isCalling = false) :
    Tallied n p fs h := by
  apply ha.congr rfl
  · rw [List.flatMap_cons, hleft, List.nil_append]
  · rw [countP_cons_quiet hf]

theorem swap (ha : Tallied n p (f :: fs) h) (hf : ¬ f.Cleans) (hf' : ¬ f'.Cleans) :
    Tallied n p (f' :: fs) h := by
  obtain ⟨hleft, hcalling⟩ := f.left_of_not_cleans hf
  exact (ha.pop hleft hcalling).push hf'

theorem addCleanup (ha : Tallied n p fs h) (c : Closure) :
    Tallied n { p with cleanups := p.cleanups ++ [c] } fs (.cleanupAdded n c :: h) where
  level := ha.level
  tally hr := by
    have hcalled : cleanupsCalled n (.cleanupAdded n c :: h) = cleanupsCalled n h := rfl
    rw [cleanupsAdded_cons, ha.tally hr, hcalled]
    simp
  ordered hr := by
    refine (ha.ordered hr).cons ?_ nofun
    rw [cleanupsAdded_cons]
    exact ((ha.ordered hr).once _ List.suffix_rfl).trans (List.suffix_cons _ _)

/-- The function of the effect is started when there is nothing left to call. -/
theorem start (ha : Tallied n p fs h) (hno : ¬ Cleaning fs) (hp : p.cleanups = []) :
    Tallied n p fs (.started n :: h) where
  level := ha.level
  tally hr := ha.tally hr
  ordered hr := by
    have hall := ha.tally hr
    rw [left_eq_nil hno, hp] at hall
    refine (ha.ordered hr).cons ?_ fun _ => hall.symm
    exact (ha.ordered hr).once h List.suffix_rfl

theorem clean (ha : Tallied n p fs h) (hp : Cleaning fs → p.cleanups = []) (rt : RuntimeId)
    (disposed : Bool) : Tallied n { p with cleanups := [], disposed := disposed }
      (.amid (.cleaning n rt p.cleanups) :: fs) h where
  level := ha.level
  tally hr := by
    have hall := ha.tally hr
    rw [hall, List.flatMap_cons, List.append_nil]
    by_cases hc : Cleaning fs
    · simp [Frame.left, Stage.left, hp hc]
    · simp [Frame.left, Stage.left, left_eq_nil hc]
  ordered hr := ha.ordered hr

theorem call (ha : Tallied n p (.amid (.cleaning n rt (c :: left)) :: fs) h) :
    Tallied n p (.amid (.cleanup n rt c left) :: fs) (.cleanupStarted n c :: h) := by
  have hadded : cleanupsAdded n (.cleanupStarted n c :: h) = cleanupsAdded n h := rfl
  have htally (hr : AllReturn n (.amid (.cleanup n rt c left) :: fs) (.cleanupStarted n c :: h)) :
      cleanupsAdded n h = (left ++ fs.flatMap Frame.left ++ p.cleanups).reverse ++
        c :: cleanupsCalled n h := by
    rw [ha.tally hr.of_call]
    simp [Frame.left, Stage.left]
  constructor
  · have hreturned : cleanupsReturned n (.cleanupStarted n c :: h) = cleanupsReturned n h := rfl
    have hlevel := ha.level
    rw [countP_cons_quiet rfl] at hlevel
    rw [List.countP_cons_of_pos rfl, hreturned, cleanupsCalled_cons, List.length_cons]
    omega
  · intro hr
    rw [hadded, cleanupsCalled_cons, htally hr]
    rfl
  · intro hr
    refine (ha.ordered hr.of_call).cons ?_ nofun
    rw [hadded, cleanupsCalled_cons, htally hr]
    exact List.suffix_append _ _

theorem returned (ha : Tallied n p (.amid (.cleanup n rt c left) :: fs) h) :
    Tallied n p (.amid (.cleaning n rt left) :: fs) (.cleanupReturned n c :: h) := by
  constructor
  · have hcalled : cleanupsCalled n (.cleanupReturned n c :: h) = cleanupsCalled n h := rfl
    have hlevel := ha.level
    rw [List.countP_cons_of_pos rfl] at hlevel
    rw [countP_cons_quiet rfl, hcalled, cleanupsReturned_cons, List.length_cons]
    omega
  · intro hr
    exact ha.tally hr.of_return
  · intro hr
    have hi := ha.ordered hr.of_return
    exact hi.cons (hi.once h List.suffix_rfl) nofun

theorem not_allReturn (ha : Tallied n p (.amid (.cleanup n rt c left) :: fs) h) :
    ¬ AllReturn n fs h := by
  have hlevel := ha.level
  rw [List.countP_cons_of_pos rfl] at hlevel
  rw [AllReturn]
  omega

theorem abandon (ha : Tallied n p (.amid (.cleanup n rt c left) :: fs) h) :
    Tallied n p fs h := by
  have hlevel := ha.level
  rw [List.countP_cons_of_pos rfl] at hlevel
  exact ⟨by omega, fun hr => absurd hr ha.not_allReturn, fun hr => absurd hr ha.not_allReturn⟩

end Tallied

end Tallied

/-- What the state, the stack and the past say about the cleanups of an effect. -/
structure Config.Tended (c : Config) (n : NodeId) : Prop where
  absent : c.world.effect? n = none → cleanupsAdded n c.world.history = [] ∧
    cleanupsCalled n c.world.history = [] ∧ cleanupsReturned n c.world.history = []
  present : ∀ p, c.world.plan n = some p →
    Tidy n p (doneFor n c.stack) c.world.history ∧
      Tallied n p (doneFor n c.stack) c.world.history

section Current

variable {w : World} {g : List Frame} {u : Bool} {n : NodeId} {rt : RuntimeId}

theorem not_cleaning_of_current (hs : Config.Sane ⟨w, g, u⟩) (hc : Config.Separate ⟨w, g, u⟩)
    (hn : w.currentReader rt = some n) (effect : (w.effect? n).isSome)
    (screened : (doneFor n g).Pairwise fun above below => below.Cleans → above.Cleans) :
    ¬ Cleaning (doneFor n g) := by
  have hmade : w.MadeBy rt n := hc.madeBy_of_currentReader hs hn
  obtain ⟨above, f, below, rfl, hf, habove⟩ := hs.exists_current hn
  rcases hf with rfl | ⟨start, rfl⟩
  · have hfor : doneFor n (above ++ .running n rt :: below) =
        doneFor n above ++ .running n rt :: doneFor n below := by
      rw [doneFor, List.filter_append]
      exact congrArg _ (doneFor_cons_of_pos (f := .running n rt) (beq_self_eq_true n) below)
    rw [hfor] at screened ⊢
    rintro ⟨f, hf, hcleans⟩
    rcases List.mem_append.1 hf with hf | hf
    · -- The frame would attribute the reads of the runtime to nobody.
      obtain ⟨hf, hfor⟩ := List.mem_filter.1 hf
      have hhome := hc.frames f (List.mem_append_left _ hf)
      have hsilent := habove f hf
      cases f with
      | amid s =>
        obtain ⟨rt', hmask⟩ := Option.isSome_iff_exists.1 hcleans
        obtain rfl : s.node = n := beq_iff_eq.1 hfor
        obtain rfl := (hhome rt' hmask).unique hmade
        rw [Frame.context?, if_pos hmask] at hsilent
        cases hsilent
      | _ => exact hcleans
    · exact not_cleaning_of_pairwise (List.pairwise_append.1 screened).2.1 id ⟨f, hf, hcleans⟩
  · have hm : (w.memo? n).isSome := (hs.frames (.computing n rt start) (by simp)).2
    rw [World.memo?_eq_none_of_effect? effect] at hm
    cases hm

theorem Standing.of_append (above : List Frame) (h : Standing w (above ++ g)) : Standing w g := by
  induction above with
  | nil => exact h
  | cons f above ih => exact ih h.2

theorem TurnsAtHome.of_append (above : List Frame) (h : TurnsAtHome w (above ++ g)) :
    TurnsAtHome w g := by
  induction above with
  | nil => exact h
  | cons f above ih => exact ih h.2

theorem pending_not_mem {batch : List NodeId} (hstand : Standing w (.round rt (n :: batch) :: g))
    (hc : Config.Separate ⟨w, .round rt (n :: batch) :: g, u⟩)
    (hasks : Config.Asks ⟨w, .round rt (n :: batch) :: g, u⟩ rt) : .pending n ∉ g := by
  intro hp
  have hmade : w.MadeBy rt n := hc.frames _ List.mem_cons_self n List.mem_cons_self
  obtain ⟨⟨g', rfl⟩, hrest⟩ := hstand
  obtain ⟨above, below, hg⟩ := List.append_of_mem hp
  have hturns : TurnsAtHome w (.pending n :: below) := .of_append above (hg ▸ hc.turns.2)
  obtain ⟨⟨rt', batch', s, rfl⟩, ⟨s', rfl⟩, -⟩ : Standing w (.pending n :: below) :=
    .of_append above (hg ▸ hrest)
  obtain rfl := (hturns.1 n rt' batch' _ rfl rfl).unique hmade
  have hflush : rt' ∈ flushes g' := by
    cases above with
    | nil => cases hg
    | cons f above =>
      obtain ⟨-, rfl⟩ := List.cons.inj hg
      simp [flushes, Frame.flush?]
  have hcount : (flushes (.round rt' (n :: batch) :: .flushing rt' :: g')).count rt' ≤ 1 := by
    rw [hasks.count]
    split <;> omega
  have hpos : 0 < (flushes g').count rt' := List.count_pos_iff.2 hflush
  have heq : flushes (.round rt' (n :: batch) :: .flushing rt' :: g') = rt' :: flushes g' := rfl
  rw [heq, List.count_cons_self] at hcount
  omega

end Current

namespace Config.Tended

variable {w w' : World} {g g' : List Frame} {u u' : Bool} {n : NodeId}

theorem act {e : Effect} {f : Plan → Plan} (ht : Config.Tended ⟨w, g, u⟩ n)
    (effect : w.effect? n = some e) (hx : w.Extends w') (hplan : w'.plan n = (w.plan n).map f)
    (step : Tidy n e.plan (doneFor n g) w.history → Tallied n e.plan (doneFor n g) w.history →
      Tidy n (f e.plan) (doneFor n g') w'.history ∧
        Tallied n (f e.plan) (doneFor n g') w'.history) :
    Config.Tended ⟨w', g', u'⟩ n := by
  have hp := World.plan_of_effect? effect
  constructor
  · intro hnone
    rw [hx.effect?_eq_none hnone] at effect
    cases effect
  · intro p hp'
    dsimp only at hp'
    rw [hplan, hp, Option.map_some] at hp'
    obtain rfl := Option.some.inj hp'
    obtain ⟨htidy, htallied⟩ := ht.present e.plan hp
    exact step htidy htallied

theorem hold {e : Effect} (ht : Config.Tended ⟨w, g, u⟩ n) (effect : w.effect? n = some e)
    (hx : w.Extends w') (hplan : w'.plan n = w.plan n)
    (step : Tidy n e.plan (doneFor n g) w.history → Tallied n e.plan (doneFor n g) w.history →
      Tidy n e.plan (doneFor n g') w'.history ∧ Tallied n e.plan (doneFor n g') w'.history) :
    Config.Tended ⟨w', g', u'⟩ n :=
  ht.act effect hx (hplan.trans Option.map_id'.symm) step

theorem leave (ht : Config.Tended ⟨w, g, u⟩ n) (hx : w.Extends w') (hl : w.Leaves n w')
    (frames : ∀ p, Tidy n p (doneFor n g) w.history → Tallied n p (doneFor n g) w.history →
      Tidy n p (doneFor n g') w.history ∧ Tallied n p (doneFor n g') w.history) :
    Config.Tended ⟨w', g', u'⟩ n := by
  obtain ⟨new, hh, hnew, hstarted⟩ := hl.past
  have htends : ∀ e ∈ new, ¬ e.Tends n := fun e he h => hnew e he (Event.Tends.isAbout h)
  constructor
  · intro hnone
    dsimp only
    rw [hh, cleanupsAdded_append htends, cleanupsCalled_append htends,
      cleanupsReturned_append htends]
    exact ht.absent (hx.effect?_eq_none hnone)
  · intro p hp
    dsimp only at hp ⊢
    rw [hl.plan] at hp
    have hs : .started n ∉ new := fun he => nomatch hp.symm.trans (hstarted he)
    obtain ⟨htidy, htallied⟩ := ht.present p hp
    obtain ⟨htidy, htallied⟩ := frames p htidy htallied
    rw [hh]
    exact ⟨htidy.append hnew, htallied.append htends hs⟩

end Config.Tended

theorem exists_effect_of_amid {w : World} {g : List Frame} {s : Stage} {u : Bool}
    (hs : Config.Sane ⟨w, .amid s :: g, u⟩) : ∃ e, w.effect? s.node = some e :=
  Option.isSome_iff_exists.1 (hs.frames _ List.mem_cons_self).1

theorem Step.tended {settings : Settings} {hook : Hook} {c c' : Config}
    (steps : Reaches (.start settings hook) c) (h : Step c c') {n : NodeId} (ht : c.Tended n) :
    c'.Tended n := by
  have hs := steps.sane (Config.start_sane settings hook)
  have hx := h.extends
  have acts := h.acts hs n
  have standing := steps.standing
  have separate := steps.separate
  have linked := steps.linked
  have asks := steps.asks
  -- Whatever refutes an equation of events would look into the run, too.
  clear h steps
  cases acts with
  | leave world frames =>
    apply ht.leave hx world
    intro p htidy htallied
    exact frames ▸ ⟨htidy, htallied⟩
  | @make w w' g p absent size plan new none live history =>
    have hnone := World.plan_eq_none.1 absent
    obtain ⟨hadded, hcalled, hreturned⟩ := ht.absent hnone
    obtain ⟨e, he, -⟩ := World.plan_eq_some.1 plan
    constructor
    · intro hnone'
      rw [hnone'] at he
      cases he
    · intro p' hp'
      obtain rfl := Option.some.inj (plan.symm.trans hp')
      have hfor : doneFor n (.created n :: g) = [.created n] := by
        rw [doneFor_cons_of_pos (f := .created n) (beq_self_eq_true n),
          doneFor_eq_nil hs.frames hnone]
      dsimp only
      rw [hfor, history]
      exact ⟨.made none, .made none hadded hcalled hreturned⟩
  | @addCleanup w g rt e c code free reader effect live =>
    have hother : e.plan.job.isWatcher = false := by
      have hw := standing.1.isWatcher_eq_false hs separate linked
        (code.onCode free) reader
      rw [World.isWatcher, effect, Option.any_some] at hw
      exact e.job.isWatcher_base.trans hw
    apply ht.act effect hx (w.plan_cleanupAdded n c)
    intro htidy htallied
    have hno := not_cleaning_of_current hs separate reader (Option.isSome_of_eq_some effect)
      htidy.screened
    exact ⟨htidy.addCleanup hno live hother c, htallied.addCleanup c⟩
  | @cleanedUp w g u none =>
    constructor
    · intro hnone
      exact ht.absent hnone
    · intro p hp
      obtain ⟨htidy, htallied⟩ := ht.present p hp
      obtain ⟨e, he, rfl⟩ := World.plan_eq_some.1 hp
      exact ⟨htidy.note fun _ => none e he, htallied.note id (by simp)⟩
  | @turn w g rt batch live =>
    obtain ⟨e, effect⟩ : ∃ e, w.effect? n = some e :=
      Option.isSome_iff_exists.1 ((hs.frames _ List.mem_cons_self).2 n List.mem_cons_self)
    have hpending : .pending n ∉ g :=
      pending_not_mem standing.1 separate (asks rt)
    apply ht.hold effect hx rfl
    intro htidy htallied
    have hno : ¬ Cleaning (doneFor n g) := by
      intro hc
      rcases htidy.reason hc with hd | hmem
      · rw [World.isDisposed_eq_of_effect? effect] at live
        exact absurd hd (Bool.eq_false_iff.1 live)
      · have hmem : .pending n ∈ .round rt (n :: batch) :: g := (List.mem_filter.1 hmem).1
        exact hpending ((List.mem_cons.1 hmem).resolve_left (by simp))
    rw [doneFor_run (f := .pending n) (beq_self_eq_true n)]
    exact ⟨(htidy.push hno id).note (by simp), (htallied.push id).note id (by simp)⟩
  | @ended w w' f g g' u u' world runs frames =>
    have hf : f.left = [] ∧ f.isCalling = false := by cases f <;> trivial
    apply ht.leave hx world
    intro p htidy htallied
    rw [frames] at htidy htallied
    exact ⟨htidy.pop, htallied.pop hf.1 hf.2⟩
  | @start w f g rt turn cleaned =>
    have hf : f.runsFor n ∧ ¬ f.Cleans := by
      rcases turn with rfl | rfl <;> exact ⟨beq_self_eq_true n, id⟩
    obtain ⟨e, effect⟩ : ∃ e, w.effect? n = some e := by
      have hvalid := hs.frames f List.mem_cons_self
      rcases turn with rfl | rfl <;> exact Option.isSome_iff_exists.1 hvalid
    apply ht.hold effect hx (w.plan_running n rt)
    rw [doneFor_run hf.1, doneFor_run (f := .running n rt) (beq_self_eq_true n),
      World.history_running]
    intro htidy htallied
    have hquiet : ¬ Frame.Cleans (.running n rt) := id
    have htidy' := htidy.swap hf.2 hquiet
    have htallied' := htallied.swap hf.2 hquiet
    have hno := not_cleaning_of_pairwise htidy'.screened id
    have hcleaned := htidy.cleaned cleaned
    exact ⟨(htidy'.note (e := .cleared n) (by simp)).note (by simp),
      (htallied'.note (e := .cleared n) id (by simp)).start hno hcleaned⟩
  | @clean w g e effect =>
    apply ht.act effect hx (w.plan_cleaning n e.runtime)
    intro htidy htallied
    rw [doneFor_amid (n := n) (s := .cleaning n e.runtime e.cleanups) rfl]
    have hpending : .pending n ∈ doneFor n (.pending n :: g) :=
      List.mem_filter.2 ⟨List.mem_cons_self, beq_self_eq_true n⟩
    exact ⟨htidy.clean (f := .amid (.cleaning n e.runtime e.cleanups)) rfl (.inr hpending),
      htallied.clean htidy.taken e.runtime e.disposed⟩
  | @dispose w g e effect =>
    have hplan := (w.disposing n).plan_cleaning n e.runtime
    rw [w.plan_disposing n, Option.map_map] at hplan
    have hh : ((w.disposing n).cleaning n e.runtime).history = .cleared n :: w.history :=
      w.history_disposing n
    apply ht.act effect hx hplan
    rw [doneFor_amid (n := n) (s := .cleaning n e.runtime e.cleanups) rfl, hh]
    intro htidy htallied
    have htallied := htallied.clean htidy.taken e.runtime true
    have htidy := htidy.clean (f := .amid (.cleaning n e.runtime e.cleanups)) rfl (.inl rfl)
    exact ⟨htidy.note (by simp), htallied.note id (by simp)⟩
  | @endCleaning w g rt =>
    obtain ⟨e, effect⟩ := exists_effect_of_amid hs
    apply ht.hold effect hx rfl
    rw [doneFor_amid (n := n) (s := .cleaning n rt []) rfl]
    intro htidy htallied
    have hp : e.plan.cleanups = [] := htidy.taken ⟨_, List.mem_cons_self, rfl⟩
    exact ⟨htidy.pop.note fun _ => hp, (htallied.pop rfl rfl).note id (by simp)⟩
  | @abandonCleaning w g s rt node mask =>
    have hcode : s.isCode := standing.2 rfl s g rfl
    apply ht.leave hx (.of_nodes rfl rfl)
    rw [doneFor_amid node]
    intro p htidy htallied
    cases s with
    | cleanup m rt' c left =>
      obtain rfl : m = n := node
      exact ⟨htidy.pop, htallied.abandon⟩
    | cleaning => cases hcode
    | _ => cases mask
  | @retire w g u watcher =>
    obtain ⟨store, hstore, hn⟩ := watcher
    obtain ⟨e, primed, effect, job, -⟩ := linked.watcher store hstore
    rw [hn] at effect
    have hw : e.plan.job.isWatcher := by
      rw [Effect.plan, job]
      rfl
    have hh : ((w.disposing n).note (.disposed n)).history =
        [.disposed n, .cleared n] ++ w.history := congrArg _ (w.history_disposing n)
    apply ht.act effect hx (w.plan_disposing n)
    rw [hh]
    intro htidy htallied
    have htallied : Tallied n { e.plan with disposed := true } (doneFor n g) w.history :=
      htallied.congr rfl rfl rfl
    exact ⟨(htidy.retire hw).append (by simp [Event.IsAbout]),
      htallied.append (by simp [Event.Tends]) (by simp)⟩
  | @beginWatch w g rt e effect =>
    apply ht.leave hx (.refl w n)
    rw [doneFor_amid (n := n) (s := .getting n e.job) rfl,
      doneFor_run (f := .running n rt) (beq_self_eq_true n)]
    intro p htidy htallied
    have hno := not_cleaning_of_pairwise htidy.screened id
    exact ⟨htidy.push hno Bool.false_ne_true, htallied.push Bool.false_ne_true⟩
  | @advance w g s s' event hadv node =>
    subst node
    obtain ⟨e, effect⟩ := exists_effect_of_amid hs
    apply ht.hold effect hx rfl
    rw [doneFor_amid rfl, doneFor_amid hadv.node_eq]
    intro htidy htallied
    cases hadv with
    | clean => exact ⟨.note (htidy.goOn rfl rfl) (by simp), htallied.call⟩
    | cleaned => exact ⟨.note (htidy.goOn rfl rfl) (by simp), htallied.returned⟩
    | got | call | called =>
      constructor
      · apply Tidy.note
        · exact htidy.swap Bool.false_ne_true Bool.false_ne_true
        · simp
      · apply Tallied.note
        · exact htallied.swap Bool.false_ne_true Bool.false_ne_true
        · exact id
        · simp
  | @keep w g job duties follows =>
    obtain ⟨e, effect⟩ := exists_effect_of_amid hs
    have hj : job.base.isWatcher = e.plan.job.isWatcher := by
      have hf := (follows e effect).isWatcher_eq
      exact job.isWatcher_base.trans (hf.trans e.job.isWatcher_base.symm)
    have hplan := w.plan_modifyEffect n (f := fun e => { e with job := job })
      (F := fun p => { p with job := job.base }) fun _ => rfl
    apply ht.act effect hx hplan
    rw [doneFor_amid (n := n) (s := .reporting n _) rfl,
      doneFor_amid (n := n) (s := .reporting n duties) rfl]
    intro htidy htallied
    exact ⟨(htidy.keep hj).swap Bool.false_ne_true Bool.false_ne_true,
      .swap (htallied.congr rfl rfl rfl) Bool.false_ne_true Bool.false_ne_true⟩
  | @endReport w g =>
    apply ht.leave hx (.refl w n)
    rw [doneFor_amid (n := n) (s := .reporting n []) rfl]
    intro p htidy htallied
    exact ⟨htidy.pop, htallied.pop rfl rfl⟩
  | @drop w g s node mask =>
    have hf : ¬ (Frame.amid s).Cleans := by
      rw [Frame.Cleans, mask]
      exact Bool.false_ne_true
    obtain ⟨hleft, hcalling⟩ := (Frame.amid s).left_of_not_cleans hf
    apply ht.leave hx (.refl w n)
    rw [doneFor_amid node]
    intro p htidy htallied
    exact ⟨htidy.pop, htallied.pop hleft hcalling⟩

theorem Reaches.tended {settings : Settings} {hook : Hook} {c : Config}
    (steps : Reaches (.start settings hook) c) (n : NodeId) : c.Tended n := by
  induction steps with
  | refl =>
    constructor
    · exact fun _ => ⟨rfl, rfl, rfl⟩
    · intro p hp
      cases hp
  | tail steps step ih => exact step.tended steps ih

end Reactivity
