import ClawDesk.Foundations.History
import Mathlib.Data.Set.Insert
import Mathlib.Logic.Function.Basic
import Mathlib.Logic.Relation

/-!
# State-based replication

Replicas of one data type update their own state and merge into it states that
others have been in, at that moment or earlier.

A **causal history** is the set of the updates a state has incorporated, each by
its place in the log of all updates; `Made` says that one of them has a property.
An update records the history it was made with, so what it had observed can be
read off the log.

`Reachable.represents` is the rule for data types whose states are determined by
their history: it is enough to say how one update and one merge change the state.
-/

namespace ClawDesk.Foundations.Replication

/-- The operations of a replicated data type: local updates, which answer their
caller, and merging. -/
structure DataType (A B σ : Type) where
  update : A → σ → B × σ
  merge : σ → σ → σ

/-- A local update: who made it, what it did and answered, and the updates that
the replica knew of before. -/
structure Update (ι A B : Type) where
  replica : ι
  action : A
  answer : B
  past : Finset ℕ

/-- A state with its causal history. -/
structure Stamped (σ : Type) where
  state : σ
  history : Finset ℕ

/-- All updates made so far, every state a replica has been in, and where each
replica is now. -/
structure Net (ι A B σ : Type) where
  updates : List (Update ι A B)
  states : Set (Stamped σ)
  current : ι → Stamped σ

variable {ι A B σ : Type}

section Steps

variable [DecidableEq ι]

/-- Nothing has happened yet. -/
def Net.initial (init : ι → σ) : Net ι A B σ where
  updates := []
  states := Set.range fun r => ⟨init r, ∅⟩
  current r := ⟨init r, ∅⟩

/-- The replica `r` moves to the state `s`. -/
def Net.move (net : Net ι A B σ) (r : ι) (s : Stamped σ) (updates : List (Update ι A B)) :
    Net ι A B σ where
  updates := updates
  states := insert s net.states
  current := Function.update net.current r s

/-- The replica `r` performs a local update. -/
def Net.update (d : DataType A B σ) (net : Net ι A B σ) (r : ι) (a : A) : Net ι A B σ :=
  net.move r
    ⟨(d.update a (net.current r).state).2, insert net.updates.length (net.current r).history⟩
    (net.updates ++
      [⟨r, a, (d.update a (net.current r).state).1, (net.current r).history⟩])

/-- The replica `r` merges the state `s`. -/
def Net.merge (d : DataType A B σ) (net : Net ι A B σ) (r : ι) (s : Stamped σ) : Net ι A B σ :=
  net.move r ⟨d.merge (net.current r).state s.state, (net.current r).history ∪ s.history⟩
    net.updates

/-- The steps: any update, and any merge of a state that a replica is or was in. -/
inductive Step (d : DataType A B σ) : Net ι A B σ → Net ι A B σ → Prop
  | update (net : Net ι A B σ) (r : ι) (a : A) : Step d net (net.update d r a)
  | merge (net : Net ι A B σ) (r : ι) {s : Stamped σ} (known : s ∈ net.states) :
      Step d net (net.merge d r s)

/-- What any sequence of steps leads to. -/
def Reachable (d : DataType A B σ) (init : ι → σ) : Net ι A B σ → Prop :=
  Relation.ReflTransGen (Step d) (Net.initial init)

end Steps

/-! ### Histories -/

/-- Updates know of updates in the log only. -/
def Causal (updates : List (Update ι A B)) : Prop :=
  ∀ (i : ℕ) u, updates[i]? = some u → ∀ j ∈ u.past, j < updates.length

theorem Causal.append {updates : List (Update ι A B)} {u : Update ι A B} (h : Causal updates)
    (hu : ∀ j ∈ u.past, j < updates.length) : Causal (updates ++ [u]) := by
  intro i v hv j hj
  rw [List.length_append, List.length_singleton]
  rcases List.mem_append.mp (List.mem_of_getElem? hv) with hmem | hmem
  · obtain ⟨k, hk⟩ := List.mem_iff_getElem?.mp hmem
    have := h k v hk j hj
    omega
  · rw [List.mem_singleton.mp hmem] at hj
    have := hu j hj
    omega

section Reachable

variable [DecidableEq ι] {d : DataType A B σ} {init : ι → σ} {net : Net ι A B σ}

theorem Reachable.update (h : Reachable d init net) (r : ι) (a : A) :
    Reachable d init (net.update d r a) :=
  .tail h (.update net r a)

theorem Reachable.merge (h : Reachable d init net) (r : ι) {s : Stamped σ}
    (known : s ∈ net.states) : Reachable d init (net.merge d r s) :=
  .tail h (.merge net r known)

/-- Where a replica is, it has been. -/
theorem Reachable.current_mem (h : Reachable d init net) (r : ι) : net.current r ∈ net.states := by
  induction h with
  | refl => exact ⟨r, rfl⟩
  | tail _ step ih =>
      cases step with
      | update r' | merge r' =>
          by_cases hr : r = r'
          · subst hr
            exact .inl (Function.update_self ..)
          · exact .inr (by simpa [Net.update, Net.merge, Net.move, hr] using ih)

/-- Histories are histories of updates that have been made. -/
theorem Reachable.bounded (h : Reachable d init net) :
    (∀ s ∈ net.states, ∀ i ∈ s.history, i < net.updates.length) ∧ Causal net.updates := by
  induction h with
  | refl =>
      refine ⟨?_, fun i u hu => by simp [Net.initial] at hu⟩
      rintro s ⟨r, rfl⟩ i hi
      exact absurd hi (Finset.notMem_empty i)
  | tail reach step ih =>
      obtain ⟨hbounded, hcausal⟩ := ih
      have hcurrent := fun r => hbounded _ (Reachable.current_mem reach r)
      cases step with
      | update r a =>
          refine ⟨?_, hcausal.append (hcurrent r)⟩
          intro s hs i hi
          show i < (_ ++ [_]).length
          rw [List.length_append, List.length_singleton]
          rcases hs with rfl | hs
          · rcases Finset.mem_insert.mp hi with rfl | hi
            · exact Nat.lt_succ_self _
            · exact Nat.lt_succ_of_lt (hcurrent r i hi)
          · exact Nat.lt_succ_of_lt (hbounded s hs i hi)
      | merge r known =>
          refine ⟨?_, hcausal⟩
          rintro s (rfl | hs) i hi
          · rcases Finset.mem_union.mp hi with hi | hi
            · exact hcurrent r i hi
            · exact hbounded _ known i hi
          · exact hbounded s hs i hi

/-- **States represent their histories**, if they do at first and every update and
every merge keeps it so. -/
theorem Reachable.represents {Spec : List (Update ι A B) → Finset ℕ → σ → Prop}
    (start : ∀ r, Spec [] ∅ (init r))
    (append : ∀ {us u H s}, Causal us → (∀ i ∈ H, i < us.length) → Spec us H s →
      Spec (us ++ [u]) H s)
    (update : ∀ {us r a H s}, Causal us → (∀ i ∈ H, i < us.length) → Spec us H s →
      Spec (us ++ [⟨r, a, (d.update a s).1, H⟩]) (insert us.length H) (d.update a s).2)
    (merge : ∀ {us H H' s s'}, Spec us H s → Spec us H' s' → Spec us (H ∪ H') (d.merge s s'))
    (h : Reachable d init net) : ∀ s ∈ net.states, Spec net.updates s.history s.state := by
  induction h with
  | refl =>
      rintro s ⟨r, rfl⟩
      exact start r
  | tail reach step ih =>
      obtain ⟨hbounded, hcausal⟩ := Reachable.bounded reach
      have hmem := Reachable.current_mem reach
      cases step with
      | update r a =>
          rintro s (rfl | hs)
          · exact update hcausal (hbounded _ (hmem r)) (ih _ (hmem r))
          · exact append hcausal (hbounded s hs) (ih s hs)
      | merge r known =>
          rintro s (rfl | hs)
          · exact merge (ih _ (hmem r)) (ih _ known)
          · exact ih s hs

end Reachable

end ClawDesk.Foundations.Replication
