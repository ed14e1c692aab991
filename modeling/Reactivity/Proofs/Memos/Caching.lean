import Reactivity.Proofs.Memos.Afresh
import Reactivity.Proofs.Memos.Exactness

namespace Reactivity

/-- `w.RestsOn n k`: the memo `n` is `k`, or since its function was last started it has read a memo
that rests on `k`. -/
inductive World.RestsOn (w : World) : NodeId → NodeId → Prop
  | here (n : NodeId) : w.RestsOn n n
  | through {n j k : NodeId} {r : Result} (read : .saw n (.memo j) r ∈ sinceStart n w.history)
    (rests : w.RestsOn j k) : w.RestsOn n k

/-- No variable that the functions of a memo and of those that it rests on name was bound since the
function was last started. -/
def World.NamesKept (w : World) (n : NodeId) : Prop :=
  ∀ k m, w.RestsOn n k → w.memo? k = some m →
    ∀ name ∈ m.body.body.names, .bound name ∉ sinceStart k w.history

theorem World.NamesKept.through {w : World} {n k : NodeId} {r : Result} (h : w.NamesKept n)
    (read : .saw n (.memo k) r ∈ sinceStart n w.history) : w.NamesKept k :=
  fun j m rests => h j m (.through read rests)

section Explained

variable {w : World} {g : List Frame} {u : Bool}

end Explained

end Reactivity
