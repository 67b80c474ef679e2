import Mathlib.Data.List.Perm.Basic
import Mathlib.Data.List.Perm.Subperm
import Mathlib.Order.Lattice

/-!
# Queues that give out a least element

A heap is given by what `pop` does: it takes out an element whose key is least, any one of them,
and leaves the others.  `Drains` pops until a number of elements is out, or nothing is left.

What comes out has keys that do not decrease, and each element is a least one of those that are
there when it comes out (`Drains.least`).  Two heaps with the same keys give out the same
keys, whichever of their least elements they take (`Drains.map_eq`).
-/

namespace ClawDesk.Foundations.LeastFirst

variable {α κ : Type} [LinearOrder κ] {key : α → κ} {heap heap' rest rest' out out' : List α}
  {x x' : α} {n : ℕ}

/-- `x` is a least element of the heap, and `rest` is what is left without it. -/
def Pops (key : α → κ) (heap : List α) (x : α) (rest : List α) : Prop :=
  heap.Perm (x :: rest) ∧ ∀ y ∈ heap, key x ≤ key y

/-- Up to `n` elements are popped, one after the other. -/
inductive Drains (key : α → κ) : ℕ → List α → List α → List α → Prop
  | done {heap rest : List α} (same : heap.Perm rest) : Drains key 0 heap [] rest
  | empty (n : ℕ) : Drains key (n + 1) [] [] []
  | pop {n : ℕ} {heap rest out rest' : List α} {x : α} (pops : Pops key heap x rest)
      (drains : Drains key n rest out rest') : Drains key (n + 1) heap (x :: out) rest'

theorem Pops.of_perm (h : Pops key heap x rest) (hperm : heap'.Perm heap) :
    Pops key heap' x rest :=
  ⟨hperm.trans h.1, fun y hy => h.2 y (hperm.mem_iff.mp hy)⟩

theorem Pops.mem (h : Pops key heap x rest) : x ∈ heap := h.1.mem_iff.mpr List.mem_cons_self

theorem Drains.of_perm (h : Drains key n heap out rest) (hperm : heap'.Perm heap) :
    Drains key n heap' out rest := by
  cases h with
  | done same => exact .done (hperm.trans same)
  | empty =>
      rw [hperm.eq_nil]
      exact .empty _
  | pop pops drains => exact .pop (pops.of_perm hperm) drains

/-- Nothing is lost, and nothing is made up. -/
theorem Drains.perm (h : Drains key n heap out rest) : heap.Perm (out ++ rest) := by
  induction h with
  | done same => exact same
  | empty => exact .refl _
  | pop pops _ ih => exact pops.1.trans (ih.cons _)

/-- As many elements come out as are asked for, if there are so many. -/
theorem Drains.length_eq (h : Drains key n heap out rest) : out.length = min n heap.length := by
  induction h with
  | done => simp
  | empty => simp
  | pop pops _ ih =>
      have hlen := pops.1.length_eq
      rw [List.length_cons] at hlen ⊢
      omega

/-- **Each element is a least one** of those that are there when it comes out. -/
theorem Drains.least (h : Drains key n heap out rest) {before after : List α}
    (hsplit : out = before ++ x :: after) : ∀ y ∈ x :: after ++ rest, key x ≤ key y := by
  induction h generalizing before with
  | done => simp at hsplit
  | empty => simp at hsplit
  | @pop n heap rest out rest' z pops drains ih =>
      cases before with
      | nil =>
          obtain ⟨rfl, rfl⟩ := List.cons.inj hsplit
          intro y hy
          refine pops.2 y (pops.1.mem_iff.mpr ?_)
          rw [List.cons_append, List.mem_cons] at hy
          exact List.mem_cons.mpr (hy.imp_right drains.perm.mem_iff.mpr)
      | cons z' before => exact ih (List.cons.inj hsplit).2

/-- The keys of what comes out do not decrease. -/
theorem Drains.sorted (h : Drains key n heap out rest) :
    out.Pairwise fun a b => key a ≤ key b := by
  induction h with
  | done => exact List.Pairwise.nil
  | empty => exact List.Pairwise.nil
  | pop pops drains ih =>
      refine List.pairwise_cons.mpr ⟨fun y hy => pops.2 y (pops.1.mem_iff.mpr ?_), ih⟩
      exact List.mem_cons_of_mem _ (drains.perm.mem_iff.mpr (List.mem_append_left _ hy))

/-- Two heaps with the same keys pop the same key. -/
theorem Pops.key_eq (h : Pops key heap x rest) (h' : Pops key heap' x' rest')
    (hkeys : (heap.map key).Perm (heap'.map key)) : key x = key x' := by
  apply le_antisymm
  · obtain ⟨y, hy, heq⟩ := List.mem_map.mp (hkeys.mem_iff.mpr (List.mem_map_of_mem h'.mem))
    exact heq ▸ h.2 y hy
  · obtain ⟨y, hy, heq⟩ := List.mem_map.mp (hkeys.mem_iff.mp (List.mem_map_of_mem h.mem))
    exact heq ▸ h'.2 y hy

theorem Pops.map_perm (h : Pops key heap x rest) (h' : Pops key heap' x' rest')
    (hkeys : (heap.map key).Perm (heap'.map key)) : (rest.map key).Perm (rest'.map key) := by
  have hcons : (key x :: rest.map key).Perm (key x' :: rest'.map key) :=
    (h.1.map key).symm.trans (hkeys.trans (h'.1.map key))
  rw [h.key_eq h' hkeys] at hcons
  exact hcons.cons_inv

/-- **The keys decide what comes out**, up to elements with the same key. -/
theorem Drains.map_eq (h : Drains key n heap out rest) (h' : Drains key n heap' out' rest')
    (hkeys : (heap.map key).Perm (heap'.map key)) :
    out.map key = out'.map key ∧ (rest.map key).Perm (rest'.map key) := by
  induction h generalizing heap' out' with
  | done same =>
      cases h' with
      | done same' => exact ⟨rfl, (same.map key).symm.trans (hkeys.trans (same'.map key))⟩
  | empty n =>
      cases h' with
      | empty => exact ⟨rfl, .refl _⟩
      | pop pops' => exact absurd (hkeys.symm.subset (List.mem_map_of_mem pops'.mem)) (by simp)
  | pop pops drains ih =>
      cases h' with
      | empty => exact absurd (hkeys.subset (List.mem_map_of_mem pops.mem)) (by simp)
      | pop pops' drains' =>
          obtain ⟨hout, hrest⟩ := ih drains' (pops.map_perm pops' hkeys)
          refine ⟨?_, hrest⟩
          rw [List.map_cons, List.map_cons, hout, pops.key_eq pops' hkeys]

end ClawDesk.Foundations.LeastFirst
