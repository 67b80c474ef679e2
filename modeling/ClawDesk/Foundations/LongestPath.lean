import ClawDesk.Foundations.Digraph
import Mathlib.Algebra.Order.Monoid.Defs
import Mathlib.Algebra.Order.Group.Defs
import Mathlib.Order.Lattice

/-!
# Longest ways

In a graph without cycles, with a weight on every node and a cost on every edge, every node has a
greatest way that begins there: its weight, and the greatest cost of an edge with the way that goes
on from there.  It is bounded by whatever leaves room for each step (`IsLongest.le_of_room`), and
falls along the edges.
-/

namespace ClawDesk.Foundations

variable {α β K : Type}

/-! ### The greatest of some values -/

section Greatest

variable [LinearOrder K] {l : List K} {a b : K}

theorem foldl_max_le_iff : l.foldl max a ≤ b ↔ a ≤ b ∧ ∀ x ∈ l, x ≤ b := by
  induction l generalizing a with
  | nil => simp
  | cons x l ih => rw [List.foldl_cons, ih, max_le_iff, List.forall_mem_cons, and_assoc]

theorem le_foldl_max (hx : b ∈ l) : b ≤ l.foldl max a := (foldl_max_le_iff.mp (le_refl _)).2 b hx

theorem start_le_foldl_max : a ≤ l.foldl max a := (foldl_max_le_iff.mp (le_refl _)).1

end Greatest

/-! ### The greatest way -/

variable [AddCommGroup K] [LinearOrder K]

/-- An edge of a graph given by its successors. -/
def Leads (succs : α → List (α × K)) (x y : α) : Prop := ∃ cost, (y, cost) ∈ succs x

/-- The greatest continuation, or zero. -/
def furthest (value : α → K) (edges : List (α × K)) : K :=
  (edges.map fun e => e.2 + value e.1).foldl max 0

/-- The lengths of the greatest ways. -/
def IsLongest (weight : α → K) (succs : α → List (α × K)) (length : α → K) : Prop :=
  ∀ x, length x = weight x + furthest length (succs x)

variable {weight : α → K} {succs : α → List (α × K)} {length : α → K} {x y : α} {cost : K}

/-- **Without cycles there are greatest ways.** -/
theorem exists_isLongest (weight : α → K) (hwf : WellFounded fun y x => Leads succs x y) :
    ∃ length, IsLongest weight succs length := by
  let step : (x : α) → ((y : α) → Leads succs x y → K) → K := fun x rest =>
    weight x + (((succs x).attach.map fun e => e.1.2 + rest e.1.1 ⟨e.1.2, e.2⟩).foldl max 0)
  refine ⟨hwf.fix step, fun x => ?_⟩
  rw [hwf.fix_eq]
  show weight x + _ = weight x + _
  congr 2
  exact List.attach_map_val (f := fun e : α × K => e.2 + hwf.fix step e.1)

section Bounds

variable [IsOrderedAddMonoid K]

/-- The way that begins with an edge is no longer than the greatest. -/
theorem IsLongest.edge_le (h : IsLongest weight succs length) (hedge : (y, cost) ∈ succs x) :
    weight x + (cost + length y) ≤ length x := by
  have hone : cost + length y ≤ furthest length (succs x) :=
    le_foldl_max (List.mem_map.mpr ⟨(y, cost), hedge, rfl⟩)
  rw [h x]
  exact add_le_add_right hone _

/-- Along an edge the greatest way gets shorter. -/
theorem IsLongest.lt_of_edge (h : IsLongest weight succs length) (hedge : (y, cost) ∈ succs x)
    (hweight : 0 < weight x) (hcost : 0 ≤ cost) : length y < length x :=
  calc length y
    _ ≤ cost + length y := le_add_of_nonneg_left hcost
    _ < weight x + (cost + length y) := lt_add_of_pos_left _ hweight
    _ ≤ length x := h.edge_le hedge

/-- **No way is longer than what leaves room for each of its steps.** -/
theorem IsLongest.le_of_room (h : IsLongest weight succs length)
    (hwf : WellFounded fun y x => Leads succs x y) {inside : α → Prop} {room : α → K}
    (hweight : ∀ x, inside x → weight x ≤ room x)
    (hedge : ∀ x, inside x → ∀ y cost, (y, cost) ∈ succs x →
      inside y ∧ weight x + (cost + room y) ≤ room x)
    (hx : inside x) : length x ≤ room x := by
  induction x using hwf.induction with
  | h x ih =>
      have hfurthest : furthest length (succs x) ≤ room x - weight x := by
        refine foldl_max_le_iff.mpr ⟨sub_nonneg.mpr (hweight x hx), fun value hvalue => ?_⟩
        obtain ⟨⟨y, cost⟩, hmem, rfl⟩ := List.mem_map.mp hvalue
        obtain ⟨hy, hroom⟩ := hedge x hx y cost hmem
        have hstep : cost + length y ≤ cost + room y := add_le_add_right (ih y ⟨cost, hmem⟩ hy) cost
        exact hstep.trans (le_sub_iff_add_le'.mpr hroom)
      rw [h x]
      exact le_sub_iff_add_le'.mp hfurthest

end Bounds

end ClawDesk.Foundations
