import ClawDesk.Foundations.History
import Mathlib.Logic.Function.Basic
import Mathlib.Logic.Relation

/-!
# Operation-based replication

A local call on a replica changes its state and sends an operation; every other
replica applies the operation once, at some time when it is ready for it.  The
order of delivery is free otherwise.

`Reachable d cond` are the networks reached by steps in which every delivery meets
the condition `cond`; without a condition it is `fun _ _ => True`.
-/

namespace ClawDesk.Foundations.Broadcast

/-- An operation-based data type. -/
structure DataType (A O σ : Type) where
  /-- What a local call needs to be there. -/
  allowed : A → σ → Prop
  /-- A local call: the operation it sends, and the state after it. -/
  issue : A → σ → O × σ
  /-- What an operation needs to be there: what it is causally after. -/
  ready : O → σ → Prop
  apply : O → σ → σ

/-- A replica, and the operations it has applied by their place in the log. -/
structure Replica (σ : Type) where
  state : σ
  applied : Finset ℕ

/-- All operations ever sent, oldest first, and the replicas. -/
structure Net (ι O σ : Type) where
  ops : List O
  replica : ι → Replica σ

variable {ι A O σ : Type} [DecidableEq ι]

/-- Nothing has happened yet. -/
def Net.initial (init : ι → σ) : Net ι O σ where
  ops := []
  replica r := ⟨init r, ∅⟩

/-- A local call at the replica `r`. -/
def Net.issue (d : DataType A O σ) (net : Net ι O σ) (r : ι) (a : A) : Net ι O σ where
  ops := net.ops ++ [(d.issue a (net.replica r).state).1]
  replica := Function.update net.replica r
    ⟨(d.issue a (net.replica r).state).2, insert net.ops.length (net.replica r).applied⟩

/-- The replica `r` applies the operation `o`, the `i`-th in the log. -/
def Net.deliver (d : DataType A O σ) (net : Net ι O σ) (r : ι) (i : ℕ) (o : O) : Net ι O σ where
  ops := net.ops
  replica := Function.update net.replica r
    ⟨d.apply o (net.replica r).state, insert i (net.replica r).applied⟩

/-- The steps. -/
inductive Step (d : DataType A O σ) (cond : O → σ → Prop) : Net ι O σ → Net ι O σ → Prop
  | issue (net : Net ι O σ) (r : ι) {a : A} (allowed : d.allowed a (net.replica r).state) :
      Step d cond net (net.issue d r a)
  | deliver (net : Net ι O σ) (r : ι) {i : ℕ} {o : O} (sent : net.ops[i]? = some o)
      (once : i ∉ (net.replica r).applied) (ready : d.ready o (net.replica r).state)
      (meets : cond o (net.replica r).state) : Step d cond net (net.deliver d r i o)

/-- What any sequence of steps leads to. -/
def Reachable (d : DataType A O σ) (cond : O → σ → Prop) (init : ι → σ) : Net ι O σ → Prop :=
  Relation.ReflTransGen (Step d cond) (Net.initial init)

section Reachable

variable {d : DataType A O σ} {cond : O → σ → Prop} {init : ι → σ} {net : Net ι O σ}

theorem Reachable.issue (h : Reachable d cond init net) (r : ι) {a : A}
    (allowed : d.allowed a (net.replica r).state) : Reachable d cond init (net.issue d r a) :=
  .tail h (.issue net r allowed)

theorem Reachable.deliver (h : Reachable d cond init net) (r : ι) {i : ℕ} {o : O}
    (sent : net.ops[i]? = some o) (once : i ∉ (net.replica r).applied)
    (ready : d.ready o (net.replica r).state) (meets : cond o (net.replica r).state) :
    Reachable d cond init (net.deliver d r i o) :=
  .tail h (.deliver net r sent once ready meets)

/-- **The rule for runs**: what a call keeps and what a delivery keeps, holds. -/
theorem Reachable.induct {P : Net ι O σ → Prop} (start : P (Net.initial init))
    (issue : ∀ net r a, P net → d.allowed a (net.replica r).state → P (net.issue d r a))
    (deliver : ∀ net r i o, P net → net.ops[i]? = some o → i ∉ (net.replica r).applied →
      d.ready o (net.replica r).state → cond o (net.replica r).state → P (net.deliver d r i o))
    (h : Reachable d cond init net) : P net := by
  induction h with
  | refl => exact start
  | tail _ step ih =>
      cases step with
      | issue r allowed => exact issue _ r _ ih allowed
      | deliver r sent once ready meets => exact deliver _ r _ _ ih sent once ready meets

end Reachable

end ClawDesk.Foundations.Broadcast
