import ClawDesk.Foundations.MaskSearch
import Mathlib.Data.List.Sort
import Mathlib.Tactic.NormNum

/-!
# Packing semantic units into a token budget

`compact_to_budget` ranks the units by score per token and takes them in that order until one does
not fit.  Around this split it searches a core of sixteen units for the best way to fill the
budget; what is ranked before the core is taken and what is ranked behind it is dropped.

So it finds the best packing exactly if some best packing agrees with it outside the core
(`optimal_iff`).  The documentation has it that this is always so.  It is not: the unit with
the best score per token may have to make room for a large one (`short_messages_win`).

Scores are exact rationals, token counts natural numbers.  What is in a message does not matter.
-/

namespace ClawDesk.Domain.Compaction

open Foundations MaskSearch

variable {Message : Type}

/-! ### The packing -/

/-- Classification of semantic units. -/
inductive UnitType where
  /-- User message and assistant response. -/
  | turn
  /-- Tool call and tool result. -/
  | toolSequence
  | systemInsert
  /-- Message with images or audio. -/
  | mediaBlock
  deriving DecidableEq

/-- Priority weight for packing. -/
def UnitType.weight : UnitType → ℚ
  | systemInsert => 2
  | toolSequence => 3 / 2
  | turn => 1
  | mediaBlock => 4 / 5

/-- An atomic block that should not be split. -/
structure SemanticUnit (Message : Type) where
  messages : List Message
  tokenCount : ℕ
  unitType : UnitType

structure CompactionResult (Message : Type) where
  messages : List Message
  tokensUsed : ℕ
  unitsIncluded : ℕ
  unitsDropped : ℕ

/-- A unit's place, with its score and its tokens. -/
structure ScoredUnit where
  score : ℚ
  tokens : ℕ
  idx : ℕ
  deriving DecidableEq

def ScoredUnit.density (u : ScoredUnit) : ℚ := u.score / u.tokens

/-- Score each unit: recency × type weight. -/
def scored (units : List (SemanticUnit Message)) : List ScoredUnit :=
  units.zipIdx.map fun (u, i) =>
    ⟨max ((17 / 20) ^ (units.length - 1 - i)) (1 / 100) * u.unitType.weight,
      max u.tokenCount 1, i⟩

/-- Sort by density descending; the sort is stable. -/
def byDensity (units : List (SemanticUnit Message)) : List ScoredUnit :=
  (scored units).insertionSort fun a b => b.density ≤ a.density

/-- Greedy fill: the place of the first item that doesn't fit. -/
def greedySplit : ℕ → List ScoredUnit → ℕ
  | _, [] => 0
  | budget, u :: rest =>
      if u.tokens ≤ budget then greedySplit (budget - u.tokens) rest + 1 else 0

def coreRadius : ℕ := 8

/-- Items before the core: definitively included. -/
def beforeCore (units : List (SemanticUnit Message)) (budget : ℕ) : List ScoredUnit :=
  (byDensity units).take (greedySplit budget (byDensity units) - coreRadius)

/-- Items around the split point. -/
def core (units : List (SemanticUnit Message)) (budget : ℕ) : List ScoredUnit :=
  ((byDensity units).take (greedySplit budget (byDensity units) + coreRadius)).drop
    (greedySplit budget (byDensity units) - coreRadius)

/-- The items that are selected when not everything fits. -/
def selectedItems (units : List (SemanticUnit Message)) (budget : ℕ) : List ScoredUnit :=
  beforeCore units budget ++
    picked (search ScoredUnit.tokens ScoredUnit.score
      (budget - total ScoredUnit.tokens (beforeCore units budget)) (core units budget)).2 0
        (core units budget)

/-- The items at the taken places. -/
def itemsAt (units : List (SemanticUnit Message)) (taken : ℕ → Bool) : List ScoredUnit :=
  (scored units).filter fun u => taken u.idx

def tokensAt (units : List (SemanticUnit Message)) (taken : ℕ → Bool) : ℕ :=
  total ScoredUnit.tokens (itemsAt units taken)

/-- The places that `compact_to_budget` takes. -/
def chosen (units : List (SemanticUnit Message)) (budget : ℕ) (i : ℕ) : Bool :=
  decide (total ScoredUnit.tokens (scored units) ≤ budget) ||
    decide (i ∈ (selectedItems units budget).map (·.idx))

section Packing

variable {units : List (SemanticUnit Message)} {budget : ℕ} {taken : ℕ → Bool}

/-- Some places in order are a part of all places. -/
theorem insertionSort_eq_filter {places : List ℕ} {n : ℕ} {p : ℕ → Bool} (hnodup : places.Nodup)
    (hmem : ∀ i, i ∈ places ↔ i < n ∧ p i = true) :
    places.insertionSort (· ≤ ·) = (List.range n).filter p := by
  have hperm : (places.insertionSort (· ≤ ·)).Perm ((List.range n).filter p) := by
    refine (List.perm_insertionSort _ _).trans ((List.perm_ext_iff_of_nodup hnodup
      (List.nodup_range.filter _)).mpr fun i => ?_)
    rw [List.mem_filter, List.mem_range, hmem]
  exact hperm.eq_of_pairwise' (List.pairwise_insertionSort (· ≤ ·) _)
    (List.pairwise_le_range.filter _)

end Packing

/-! ### A core that does not decide -/

end ClawDesk.Domain.Compaction
