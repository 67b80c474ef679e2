import ClawDesk.Foundations.Fold
import Mathlib.Data.Finset.Card
import Mathlib.Logic.Relation

/-!
# Directed graphs

Facts about directed graphs.

A list in which every node stands after all that comes before it, and to which nothing can be added,
holds what comes after no cycle (`Topological.mem_iff_not_heldUp`).

A cascade starts at one node and goes on to every successor that has nothing alive before it.  A
depth-first search finds just the nodes that it reaches, in whatever order the successors come
(`Cascade.mem_visit_iff`).  It ends if the graph has no cycle (`Cascade.visit_isSome`), and, where
it remembers some of the nodes, exactly if what it reaches has no cycle of others
(`Cascade.visit_isSome_iff`).

One more edge closes a cycle just where a way leads back from its end (`acyclic_insert_iff`).

Where no edge leads from a later node of a list to an earlier one, no cycle stays within the list
(`not_transGen_of_forward`).

Where new nodes take the place of one node of a graph without cycles, so that what came before it
comes before them and what came after it comes after them, the only new cycles are those through an
edge that leads in or out of the new part on its own account (`acyclic_rewired_iff`).
-/

namespace ClawDesk.Foundations

open Relation

variable {α : Type}

/-- No way leads back to where it started. -/
def Acyclic (r : α → α → Prop) : Prop := ∀ a, ¬ TransGen r a a

/-! ### Ways -/

/-- All of a way leads to its end. -/
theorem reflTransGen_getLast {r : α → α → Prop} {path : List α} (h : path.IsChain r) {z x : α}
    (hz : path.getLast? = some z) (hx : x ∈ path) : ReflTransGen r x z := by
  induction path generalizing x with
  | nil => cases hx
  | cons a path ih =>
      cases path with
      | nil =>
          obtain rfl : a = z := Option.some.inj hz
          rw [List.mem_singleton.mp hx]
      | cons b path =>
          obtain ⟨hab, hrest⟩ := List.isChain_cons_cons.mp h
          rw [List.getLast?_cons_cons] at hz
          rcases List.mem_cons.mp hx with rfl | hx
          · exact (ih hrest hz List.mem_cons_self).head hab
          · exact ih hrest hz hx

/-- A way leads from its beginning to all of it. -/
theorem reflTransGen_head {r : α → α → Prop} {path : List α} (h : path.IsChain r) {a x : α}
    (ha : path.head? = some a) (hx : x ∈ path) : ReflTransGen r a x := by
  induction path generalizing a with
  | nil => cases hx
  | cons b path ih =>
      obtain rfl : b = a := Option.some.inj ha
      rcases List.mem_cons.mp hx with rfl | hx
      · exact .refl
      · cases path with
        | nil => cases hx
        | cons c path =>
            obtain ⟨hbc, hrest⟩ := List.isChain_cons_cons.mp h
            exact (ih hrest rfl hx).head hbc

open Classical in
/-- How many nodes of a finite set lie on the ways from a node. -/
noncomputable def span (r : α → α → Prop) (inner : Finset α) (x : α) : ℕ :=
  (inner.filter fun z => ReflTransGen r x z).card

section Span

variable {r : α → α → Prop} {inner : Finset α} {x y : α}

open Classical in
theorem span_le : span r inner x ≤ inner.card := Finset.card_filter_le _ _

open Classical in
theorem span_pos (hx : x ∈ inner) : 0 < span r inner x :=
  Finset.card_pos.mpr ⟨x, Finset.mem_filter.mpr ⟨hx, .refl⟩⟩

open Classical in
/-- Without cycles every edge leads to where fewer are left. -/
theorem span_lt (hacyclic : Acyclic r) (hx : x ∈ inner) (hedge : r x y) :
    span r inner y < span r inner x := by
  refine Finset.card_lt_card (Finset.ssubset_iff_subset_ne.mpr ⟨fun z hz => ?_, fun heq => ?_⟩)
  · obtain ⟨hz, hyz⟩ := Finset.mem_filter.mp hz
    exact Finset.mem_filter.mpr ⟨hz, hyz.head hedge⟩
  · have hself : x ∈ inner.filter fun z => ReflTransGen r x z :=
      Finset.mem_filter.mpr ⟨hx, .refl⟩
    exact hacyclic x (TransGen.head' hedge (Finset.mem_filter.mp (heq ▸ hself)).2)

/-- So one can argue from what comes after. -/
theorem Acyclic.wellFounded (hacyclic : Acyclic r) (hinner : ∀ x y, r x y → x ∈ inner) :
    WellFounded fun y x => r x y :=
  Subrelation.wf (fun {y x} hedge => span_lt hacyclic (hinner x y hedge) hedge)
    (InvImage.wf (span r inner) Nat.lt_wfRel.wf)

end Span

/-- Where no edge leads to an earlier node of a list, a cycle does not stay within the list. -/
theorem not_transGen_of_forward {r : α → α → Prop} {l : List α} {v : α}
    (hforward : l.Pairwise fun later earlier => ¬ r later earlier) (hself : ∀ x ∈ l, ¬ r x x)
    (h : ∀ x, ReflTransGen r v x → ReflTransGen r x v → x ∈ l) : ¬ TransGen r v v := by
  intro hcycle
  -- every node of the cycle has an edge to a node of the cycle
  have hnext : ∀ x, ReflTransGen r v x → ReflTransGen r x v →
      ∃ y, r x y ∧ ReflTransGen r v y ∧ ReflTransGen r y v := by
    intro x hvx hxv
    obtain ⟨y, hxy, hyx⟩ := TransGen.head'_iff.mp ((hcycle.trans_right hxv).trans_left hvx)
    exact ⟨y, hxy, hvx.tail hxy, hyx.trans hxv⟩
  induction l with
  | nil => exact List.not_mem_nil (h v .refl .refl)
  | cons latest l ih =>
      obtain ⟨hlatest, hrest⟩ := List.pairwise_cons.mp hforward
      refine ih hrest (fun x hx => hself x (List.mem_cons_of_mem latest hx)) fun x hvx hxv => ?_
      rcases List.mem_cons.mp (h x hvx hxv) with rfl | hx
      · obtain ⟨y, hxy, hvy, hyv⟩ := hnext x hvx hxv
        rcases List.mem_cons.mp (h y hvy hyv) with rfl | hy
        · exact absurd hxy (hself y List.mem_cons_self)
        · exact absurd hxy (hlatest y hy)
      · exact hx

/-- A way through one more edge: it is not used, or there is a way to it and one from it. -/
theorem transGen_of_insert {r : α → α → Prop} {a b x y : α}
    (h : TransGen (fun u v => r u v ∨ u = a ∧ v = b) x y) :
    TransGen r x y ∨ ReflTransGen r x a ∧ ReflTransGen r b y := by
  induction h with
  | single hedge =>
      rcases hedge with hedge | ⟨rfl, rfl⟩
      · exact Or.inl (.single hedge)
      · exact Or.inr ⟨.refl, .refl⟩
  | tail _ hedge ih =>
      rcases ih with hway | ⟨hfirst, hlast⟩
      · rcases hedge with hedge | ⟨rfl, rfl⟩
        · exact Or.inl (hway.tail hedge)
        · exact Or.inr ⟨hway.to_reflTransGen, .refl⟩
      · rcases hedge with hedge | ⟨rfl, rfl⟩
        · exact Or.inr ⟨hfirst, hlast.tail hedge⟩
        · exact Or.inr ⟨hfirst, .refl⟩

/-- **One more edge closes a cycle just where a way leads back from its end.** -/
theorem acyclic_insert_iff {r : α → α → Prop} {a b : α} (hacyclic : Acyclic r) :
    Acyclic (fun u v => r u v ∨ u = a ∧ v = b) ↔ ¬ ReflTransGen r b a := by
  constructor
  · intro h hback
    have hle : r ≤ fun u v => r u v ∨ u = a ∧ v = b := fun _ _ => Or.inl
    exact h a (TransGen.head' (Or.inr ⟨rfl, rfl⟩) (ReflTransGen.mono hle b a hback))
  · intro hback x hcycle
    rcases transGen_of_insert hcycle with hway | ⟨hfirst, hlast⟩
    · exact hacyclic x hway
    · exact hback (hlast.trans hfirst)

/-! ### Orders -/

section Topological

variable {r : α → α → Prop} {known : α → Prop} {l : List α} {x y z : α}

/-- All that comes before a member of the list stands before it in the list. -/
def Topological (r : α → α → Prop) (l : List α) : Prop :=
  ∀ before x after, l = before ++ x :: after → ∀ y, r y x → y ∈ before

theorem topological_nil : Topological r [] := by
  intro before x after h
  exact absurd h.symm (List.append_ne_nil_of_right_ne_nil _ (List.cons_ne_nil _ _))

theorem topological_snoc_iff :
    Topological r (l ++ [x]) ↔ Topological r l ∧ ∀ y, r y x → y ∈ l := by
  constructor
  · intro h
    refine ⟨fun before z after heq => h before z (after ++ [x]) ?_, h l x [] rfl⟩
    rw [heq, List.append_assoc, List.cons_append]
  · rintro ⟨hl, hx⟩ before z after heq
    rcases concat_eq_append_cons heq with ⟨rfl, rfl, -⟩ | ⟨init, -, hinit⟩
    · exact hx
    · exact hl before z init hinit

/-- What is taken out of an order is not missed among the rest. -/
theorem Topological.filter (h : Topological r l) (p : α → Bool) :
    Topological (fun y x => r y x ∧ p y = true) (l.filter p) := by
  intro before x after heq y hyx
  obtain ⟨front, back, rfl, rfl, hback⟩ := List.filter_eq_append_iff.mp heq
  obtain ⟨skipped, rest, rfl, hskipped, -, -⟩ := List.filter_eq_cons_iff.mp hback
  have hmem := h (front ++ skipped) x rest (List.append_assoc ..).symm y hyx.1
  rcases List.mem_append.mp hmem with hfront | hlate
  · exact List.mem_filter.mpr ⟨hfront, hyx.2⟩
  · exact absurd hyx.2 (hskipped y hlate)

theorem Topological.mem_of_edge (h : Topological r l) (hx : x ∈ l) (hyx : r y x) : y ∈ l := by
  obtain ⟨before, after, rfl⟩ := List.append_of_mem hx
  exact List.mem_append_left _ (h before x after rfl y hyx)

theorem Topological.mem_of_reflTransGen (h : Topological r l) (hx : x ∈ l)
    (hyx : ReflTransGen r y x) : y ∈ l := by
  induction hyx using ReflTransGen.head_induction_on with
  | refl => exact hx
  | head hedge _ ih => exact h.mem_of_edge ih hedge

/-- Nothing that can be so ordered is on a cycle. -/
theorem Topological.not_transGen (h : Topological r l) (hx : x ∈ l) : ¬ TransGen r x x := by
  induction l using List.reverseRecOn generalizing x with
  | nil => exact absurd hx List.not_mem_nil
  | append_singleton l last ih =>
      obtain ⟨hl, hlast⟩ := topological_snoc_iff.mp h
      rcases List.mem_append.mp hx with hx | hx
      · exact ih hl hx
      · obtain rfl := List.mem_singleton.mp hx
        intro hcycle
        -- what comes before the last one on the cycle stands before it, and is on the cycle
        obtain ⟨y, hxy, hyx⟩ := TransGen.tail'_iff.mp hcycle
        exact ih hl (hlast y hyx) (TransGen.head' hyx hxy)

/-- An edge between members leads on. -/
theorem Topological.idxOf_lt [DecidableEq α] (h : Topological r l) (hnodup : l.Nodup) (hx : x ∈ l)
    (hyx : r y x) : l.idxOf y < l.idxOf x := by
  obtain ⟨before, after, rfl⟩ := List.append_of_mem hx
  have hbefore := h before x after rfl y hyx
  have hfresh : x ∉ before := fun hmem =>
    (List.nodup_append.mp hnodup).2.2 x hmem x List.mem_cons_self rfl
  rw [List.idxOf_append_of_mem hbefore, List.idxOf_append_of_notMem hfresh]
  exact Nat.lt_add_right _ (List.idxOf_lt_length_of_mem hbefore)

/-- It comes after a cycle, or after something unknown. -/
def HeldUp (r : α → α → Prop) (known : α → Prop) (x : α) : Prop :=
  ∃ origin, ReflTransGen r origin x ∧ (TransGen r origin origin ∨ ¬ known origin)

theorem HeldUp.tail (h : HeldUp r known x) (hxy : r x y) : HeldUp r known y := by
  obtain ⟨origin, hway, horigin⟩ := h
  exact ⟨origin, hway.tail hxy, horigin⟩

/-- **An order of known things that nothing can be added to holds what is not held up.** -/
theorem Topological.mem_iff_not_heldUp {inner : Finset α} (h : Topological r l)
    (hinner : ∀ x y, r x y → y ∈ inner) (hknown : ∀ x ∈ l, known x)
    (hfull : ∀ x, known x → (∀ y, r y x → y ∈ l) → x ∈ l) :
    x ∈ l ↔ known x ∧ ¬ HeldUp r known x := by
  constructor
  · intro hx
    refine ⟨hknown x hx, ?_⟩
    rintro ⟨origin, hway, hcycle | hunknown⟩
    · exact h.not_transGen (h.mem_of_reflTransGen hx hway) hcycle
    · exact hunknown (hknown origin (h.mem_of_reflTransGen hx hway))
  · -- by induction along the edges that lead back, which have no cycle where nothing is held up
    let back : α → α → Prop := fun a b => r b a ∧ ¬ HeldUp r known a
    have hacyclic : Acyclic back := by
      intro v hcycle
      obtain ⟨w, hvw, -⟩ := TransGen.head'_iff.mp hcycle
      refine hvw.2 ⟨v, .refl, Or.inl ?_⟩
      have hback : back ≤ Function.swap r := fun a b hab => hab.1
      exact transGen_swap.mp (TransGen.mono hback v v hcycle)
    have hwf : WellFounded fun b a => back a b :=
      hacyclic.wellFounded fun a b hab => hinner b a hab.1
    induction x using hwf.induction with
    | h x ih =>
        rintro ⟨hx, hfree⟩
        refine hfull x hx fun y hyx => ih y ⟨hyx, hfree⟩ ⟨?_, fun hy => hfree (hy.tail hyx)⟩
        by_contra hunknown
        exact hfree ⟨y, .single hyx, Or.inr hunknown⟩

end Topological

/-! ### Cascades -/

/-- A graph in which something spreads. -/
structure Cascade (α : Type) where
  succs : α → List α
  preds : α → List α
  /-- Nothing spreads from here. -/
  closed : α → Bool
  /-- A second visit finds the first. -/
  solid : α → Bool
  /-- It does not hold its successors back. -/
  dead : α → Bool

namespace Cascade

variable {c : Cascade α} {depth : ℕ} {start x y : α} {visited visited' : List α}

def Edge (c : Cascade α) (x y : α) : Prop := y ∈ c.succs x

/-- What the cascade reaches. -/
inductive Reached (c : Cascade α) (start : α) : α → Prop where
  | start (hclosed : c.closed start = false) : Reached c start start
  | step {x y : α} (hx : Reached c start x) (hsucc : c.Edge x y)
      (hpreds : ∀ p ∈ c.preds y, c.dead p = false → Reached c start p)
      (hclosed : c.closed y = false) : Reached c start y

theorem Reached.reflTransGen (h : c.Reached start y) : ReflTransGen c.Edge start y := by
  induction h with
  | start => exact .refl
  | step _ hsucc _ _ ih => exact ih.tail hsucc

/-- A loop, from what each round does with the nodes that are left. -/
theorem foldlM_invariant {J : List α → List α → Prop} {f : List α → α → Option (List α)}
    {ys : List α} (hstep : ∀ y rest visited visited', J (y :: rest) visited →
      f visited y = some visited' → J rest visited')
    (hstart : J ys visited) (h : ys.foldlM f visited = some visited') : J [] visited' := by
  induction ys generalizing visited with
  | nil =>
      obtain rfl := Option.some.inj h
      exact hstart
  | cons y ys ih =>
      rw [List.foldlM_cons] at h
      obtain ⟨between, hfirst, hrest⟩ := Option.bind_eq_some_iff.mp h
      exact ih (hstep y ys visited between hstart hfirst) hrest

/-- A loop ends if each round does, and leaves what the next one needs. -/
theorem foldlM_isSome {J : List α → Prop} {f : List α → α → Option (List α)} {ys : List α}
    (hstep : ∀ visited, J visited → ∀ y ∈ ys, ∃ visited', f visited y = some visited' ∧ J visited')
    (hstart : J visited) : (ys.foldlM f visited).isSome := by
  induction ys generalizing visited with
  | nil => rfl
  | cons y ys ih =>
      obtain ⟨between, hfirst, hbetween⟩ := hstep visited hstart y List.mem_cons_self
      rw [List.foldlM_cons, hfirst]
      exact ih (fun visited hvisited z hz => hstep visited hvisited z (List.mem_cons_of_mem y hz))
        hbetween

variable [DecidableEq α]

/-- Nothing is left before the node that holds it back. -/
def ready (c : Cascade α) (visited : List α) (y : α) : Bool :=
  (c.preds y).all fun p => c.dead p || p ∈ visited

/-- The search turns back at once. -/
def stops (c : Cascade α) (visited : List α) (x : α) : Bool :=
  c.closed x || (c.solid x && x ∈ visited)

/-- A depth-first search, with the nodes visited so far; none when it runs too deep. -/
def visit (c : Cascade α) : ℕ → α → List α → Option (List α)
  | 0, _, _ => none
  | depth + 1, x, visited =>
      if c.stops visited x then some visited
      else (c.succs x).foldlM
        (fun visited y => if c.ready visited y then visit c depth y visited else some visited)
        (x :: visited)

theorem ready_iff : c.ready visited y = true ↔
    ∀ p ∈ c.preds y, c.dead p = false → p ∈ visited := by
  rw [ready, List.all_eq_true]
  refine forall₂_congr fun p _ => ?_
  cases c.dead p <;> simp

/-- Whatever is visited is reached. -/
theorem reached_of_visit (hx : c.closed x = false → c.Reached start x)
    (hvisited : ∀ y ∈ visited, c.Reached start y) (h : c.visit depth x visited = some visited') :
    ∀ y ∈ visited', c.Reached start y := by
  induction depth generalizing x visited visited' with
  | zero => cases h
  | succ depth ih =>
      rw [visit] at h
      split at h
      · obtain rfl := Option.some.inj h
        exact hvisited
      · rename_i hgo
        have hclosed : c.closed x = false := by
          rw [stops, Bool.or_eq_true, not_or, Bool.not_eq_true] at hgo
          exact hgo.1
        refine (foldlM_invariant (J := fun rest visited =>
          (∀ y ∈ rest, c.Edge x y) ∧ ∀ y ∈ visited, c.Reached start y) ?_
          ⟨fun _ => id, List.forall_mem_cons.mpr ⟨hx hclosed, hvisited⟩⟩ h).2
        rintro y rest between between' ⟨hedges, hbetween⟩ hround
        obtain ⟨hedge, hrest⟩ := List.forall_mem_cons.mp hedges
        refine ⟨hrest, ?_⟩
        split at hround
        · rename_i hready
          refine ih (fun hclosed' => ?_) hbetween hround
          exact .step (hx hclosed) hedge
            (fun p hp hdead => hbetween p (ready_iff.mp hready p hp hdead)) hclosed'
        · obtain rfl := Option.some.inj hround
          exact hbetween

/-- A node that the search has still to visit. -/
structure Due (c : Cascade α) (visited : List α) (y : α) : Prop where
  closed : c.closed y = false
  fresh : y ∉ visited
  succ : ∃ x ∈ visited, c.Edge x y
  ready : c.ready visited y = true

/-- The lists of successors and predecessors say the same. -/
def Mirrored (c : Cascade α) : Prop := ∀ x y, x ∈ c.preds y ↔ y ∈ c.succs x

/-- With one more node visited, only its successors may be due that were not before. -/
theorem Due.of_cons (hmirrored : c.Mirrored) (h : c.Due (x :: visited) y) :
    c.Due visited y ∨ c.Edge x y := by
  by_cases hedge : c.Edge x y
  · exact Or.inr hedge
  · obtain ⟨z, hz, hzy⟩ := h.succ
    refine Or.inl ⟨h.closed, fun hy => h.fresh (List.mem_cons_of_mem x hy), ⟨z, ?_, hzy⟩, ?_⟩
    · rcases List.mem_cons.mp hz with rfl | hz
      · exact absurd hzy hedge
      · exact hz
    · rw [ready_iff]
      intro p hp hdead
      rcases List.mem_cons.mp (ready_iff.mp h.ready p hp hdead) with rfl | hp'
      · exact absurd ((hmirrored p y).mp hp) hedge
      · exact hp'

/-- A visit leaves nothing due that was not due before. -/
theorem visit_complete (hmirrored : c.Mirrored) (h : c.visit depth x visited = some visited') :
    (c.closed x = false → x ∈ visited') ∧ visited ⊆ visited' ∧
      ∀ y, c.Due visited' y → c.Due visited y := by
  induction depth generalizing x visited visited' with
  | zero => cases h
  | succ depth ih =>
      rw [visit] at h
      split at h
      · rename_i hstop
        obtain rfl := Option.some.inj h
        refine ⟨fun hclosed => ?_, List.Subset.refl _, fun _ => id⟩
        simp only [stops, hclosed, Bool.false_or, Bool.and_eq_true, decide_eq_true_eq] at hstop
        exact hstop.2
      · have hloop := foldlM_invariant (J := fun rest between => x :: visited ⊆ between ∧
          ∀ y, c.Due between y → c.Due visited y ∨ y ∈ rest) ?_
          ⟨List.Subset.refl _, fun y hy => hy.of_cons hmirrored⟩ h
        · obtain ⟨hsub, hdue⟩ := hloop
          exact ⟨fun _ => hsub List.mem_cons_self, fun y hy => hsub (List.mem_cons_of_mem x hy),
            fun y hy => (hdue y hy).resolve_right List.not_mem_nil⟩
        · rintro y rest between between' ⟨hsub, hdue⟩ hround
          split at hround
          · obtain ⟨hmem, hsub', hkeeps⟩ := ih hround
            refine ⟨fun z hz => hsub' (hsub hz), fun z hz => ?_⟩
            rcases hdue z (hkeeps z hz) with hz' | hz'
            · exact Or.inl hz'
            · rcases List.mem_cons.mp hz' with rfl | hz'
              · exact absurd (hmem hz.closed) hz.fresh
              · exact Or.inr hz'
          · rename_i hready
            obtain rfl := Option.some.inj hround
            refine ⟨hsub, fun z hz => (hdue z hz).imp_right fun hz' => ?_⟩
            rcases List.mem_cons.mp hz' with rfl | hz'
            · exact absurd hz.ready hready
            · exact hz'

/-- **The search visits what the cascade reaches.** -/
theorem mem_visit_iff (hmirrored : c.Mirrored) (h : c.visit depth start [] = some visited') :
    y ∈ visited' ↔ c.Reached start y := by
  obtain ⟨hstart, -, hdue⟩ := visit_complete hmirrored h
  constructor
  · exact reached_of_visit .start (fun z hz => absurd hz List.not_mem_nil) h y
  · intro hy
    induction hy with
    | start hclosed => exact hstart hclosed
    | step hx hsucc hpreds hclosed ih ihpreds =>
        rename_i x y
        by_contra hfresh
        have hlate : c.Due visited' y := ⟨hclosed, hfresh, ⟨x, ih, hsucc⟩, ready_iff.mpr ihpreds⟩
        obtain ⟨z, hz, -⟩ := (hdue y hlate).succ
        exact List.not_mem_nil hz

/-- Nothing solid is visited twice. -/
theorem visit_nodup (hnodup : (visited.filter c.solid).Nodup)
    (h : c.visit depth x visited = some visited') : (visited'.filter c.solid).Nodup := by
  induction depth generalizing x visited visited' with
  | zero => cases h
  | succ depth ih =>
      rw [visit] at h
      split at h
      · obtain rfl := Option.some.inj h
        exact hnodup
      · rename_i hgo
        refine foldlM_invariant (J := fun _ between => (between.filter c.solid).Nodup) ?_ ?_ h
        · intro y rest between between' hbetween hround
          split at hround
          · exact ih hbetween hround
          · obtain rfl := Option.some.inj hround
            exact hbetween
        · rw [List.filter_cons]
          split
          · rename_i hsolid
            refine List.nodup_cons.mpr ⟨fun hmem => hgo ?_, hnodup⟩
            rw [stops, hsolid, decide_eq_true (List.mem_filter.mp hmem).1, Bool.and_self,
              Bool.or_true]
          · exact hnodup

/-- The search goes no deeper than there are nodes with successors on the ways from where it is. -/
theorem visit_isSome_of_span {inner : Finset α} (hinner : ∀ x y, c.Edge x y → x ∈ inner)
    (hacyclic : Acyclic c.Edge) (hdepth : span c.Edge inner x < depth) :
    (c.visit depth x visited).isSome := by
  induction depth generalizing x visited with
  | zero => exact absurd hdepth (Nat.not_lt_zero _)
  | succ depth ih =>
      rw [visit]
      split
      · rfl
      · refine foldlM_isSome (J := fun _ => True) (fun between _ y hy => ?_) trivial
        have hless := span_lt hacyclic (hinner x y hy) hy
        split
        · obtain ⟨after, hafter⟩ := Option.isSome_iff_exists.mp
            (ih (hless.trans_le (Nat.lt_succ_iff.mp hdepth)))
          exact ⟨after, hafter, trivial⟩
        · exact ⟨between, rfl, trivial⟩

/-- **The search ends in a graph without cycles**, if it may go as deep as there are nodes with
successors. -/
theorem visit_isSome {inner : Finset α} (hinner : ∀ x y, c.Edge x y → x ∈ inner)
    (hacyclic : Acyclic c.Edge) (hdepth : inner.card < depth) :
    (c.visit depth x visited).isSome :=
  visit_isSome_of_span hinner hacyclic (span_le.trans_lt hdepth)

/-! #### Ways that the search does not remember

A node that is not solid is gone through as often as it is come upon. -/

/-- The search can go from one node to the other without a trace. -/
def Passage (c : Cascade α) (start x y : α) : Prop :=
  c.Edge x y ∧ (c.Reached start x ∧ c.solid x = false) ∧ c.Reached start y ∧ c.solid y = false

open Classical in
/-- How far the search can still go before it turns back or visits something solid. -/
noncomputable def stretch (c : Cascade α) (inner : Finset α) (start x : α) : ℕ :=
  if c.Reached start x ∧ c.solid x = false then span (c.Passage start) inner x else 0

/-- How many solid nodes are still to be visited. -/
def unvisited (c : Cascade α) (inner : Finset α) (visited : List α) : ℕ :=
  (inner.filter fun z => c.solid z = true ∧ z ∉ visited).card

omit [DecidableEq α] in
theorem stretch_le {inner : Finset α} : c.stretch inner start x ≤ inner.card := by
  rw [stretch]
  split
  · exact span_le
  · exact Nat.zero_le _

theorem unvisited_anti {inner : Finset α} (h : visited ⊆ visited') :
    c.unvisited inner visited' ≤ c.unvisited inner visited := by
  refine Finset.card_le_card fun z hz => ?_
  obtain ⟨hz, hsolid, hfresh⟩ := Finset.mem_filter.mp hz
  exact Finset.mem_filter.mpr ⟨hz, hsolid, fun hmem => hfresh (h hmem)⟩

/-- A solid node is visited once. -/
theorem unvisited_lt {inner : Finset α} (hx : x ∈ inner) (hsolid : c.solid x = true)
    (hfresh : x ∉ visited) (h : x :: visited ⊆ visited') :
    c.unvisited inner visited' < c.unvisited inner visited := by
  refine Finset.card_lt_card (Finset.ssubset_iff_subset_ne.mpr ⟨fun z hz => ?_, fun heq => ?_⟩)
  · obtain ⟨hz, hsolid, hlate⟩ := Finset.mem_filter.mp hz
    exact Finset.mem_filter.mpr ⟨hz, hsolid, fun hmem => hlate (h (List.mem_cons_of_mem x hmem))⟩
  · have hmem : x ∈ inner.filter fun z => c.solid z = true ∧ z ∉ visited :=
      Finset.mem_filter.mpr ⟨hx, hsolid, hfresh⟩
    exact (Finset.mem_filter.mp (heq ▸ hmem)).2.2 (h List.mem_cons_self)

omit [DecidableEq α] in
/-- From one node that is not solid to the next the search comes closer to a solid one. -/
theorem stretch_lt {inner : Finset α} (hacyclic : Acyclic (c.Passage start)) (hx : x ∈ inner)
    (hedge : c.Edge x y) (hpasses : c.Reached start x ∧ c.solid x = false) :
    c.stretch inner start y < c.stretch inner start x := by
  rw [stretch, stretch, if_pos hpasses]
  split
  · rename_i hy
    exact span_lt hacyclic hx ⟨hedge, hpasses, hy⟩
  · exact span_pos hx

/-- The search ends: each step visits a solid node for the first time or comes closer to one. -/
theorem visit_isSome_of_measure {inner : Finset α} (hinner : ∀ x y, c.Edge x y → x ∈ inner)
    (hmirrored : c.Mirrored) (hacyclic : Acyclic (c.Passage start))
    (hx : c.closed x = false → c.Reached start x) (hvisited : ∀ y ∈ visited, c.Reached start y)
    (hdepth : c.unvisited inner visited * (inner.card + 1) + c.stretch inner start x < depth) :
    (c.visit depth x visited).isSome := by
  induction depth generalizing x visited with
  | zero => exact absurd hdepth (Nat.not_lt_zero _)
  | succ depth ih =>
      rw [visit]
      split
      · rfl
      · rename_i hgo
        simp only [stops, Bool.or_eq_true, Bool.and_eq_true, decide_eq_true_eq, not_or, not_and,
          Bool.not_eq_true] at hgo
        obtain ⟨hclosed, hfresh⟩ := hgo
        refine foldlM_isSome
          (J := fun between => x :: visited ⊆ between ∧ ∀ y ∈ between, c.Reached start y) ?_
          ⟨List.Subset.refl _, List.forall_mem_cons.mpr ⟨hx hclosed, hvisited⟩⟩
        rintro between ⟨hsub, hbetween⟩ y hy
        split
        · rename_i hready
          have hreached : c.closed y = false → c.Reached start y := fun hclosed' =>
            .step (hx hclosed) hy (fun p hp hdead => hbetween p (ready_iff.mp hready p hp hdead))
              hclosed'
          have hless : c.unvisited inner between * (inner.card + 1) + c.stretch inner start y <
              c.unvisited inner visited * (inner.card + 1) + c.stretch inner start x := by
            rcases Bool.eq_false_or_eq_true (c.solid x) with hsolid | hhollow
            · have hcount := unvisited_lt (hinner x y hy) hsolid (hfresh hsolid) hsub
              have hround := Nat.mul_le_mul_right (inner.card + 1) hcount
              have hstretch : c.stretch inner start y ≤ inner.card := stretch_le
              rw [Nat.succ_mul] at hround
              omega
            · have hcount : c.unvisited inner between ≤ c.unvisited inner visited :=
                unvisited_anti fun z hz => hsub (List.mem_cons_of_mem x hz)
              have hround := Nat.mul_le_mul_right (inner.card + 1) hcount
              have hstretch := stretch_lt hacyclic (hinner x y hy) hy ⟨hx hclosed, hhollow⟩
              omega
          obtain ⟨after, hafter⟩ := Option.isSome_iff_exists.mp
            (ih hreached hbetween (hless.trans_le (Nat.lt_succ_iff.mp hdepth)))
          exact ⟨after, hafter, fun z hz => (visit_complete hmirrored hafter).2.1 (hsub hz),
            reached_of_visit hreached hbetween hafter⟩
        · exact ⟨between, rfl, hsub, hbetween⟩

theorem ready_mono (h : visited ⊆ visited') (hready : c.ready visited y = true) :
    c.ready visited' y = true :=
  ready_iff.mpr fun p hp hdead => h (ready_iff.mp hready p hp hdead)

/-- From each of these nodes the search goes on to another of them. -/
structure Circling (c : Cascade α) (C : α → Prop) : Prop where
  closed : ∀ x, C x → c.closed x = false
  solid : ∀ x, C x → c.solid x = false
  next : ∀ x, C x → ∃ y, C y ∧ c.Edge x y

omit [DecidableEq α] in
/-- A way round without a trace, as a set. -/
theorem circling_of_cycle {v : α} (hcycle : TransGen (c.Passage start) v v) :
    c.Circling fun x => ReflTransGen (c.Passage start) v x ∧ TransGen (c.Passage start) x v := by
  have hpasses : ∀ x, TransGen (c.Passage start) x v →
      c.Reached start x ∧ c.solid x = false := by
    intro x hx
    obtain ⟨y, hxy, -⟩ := TransGen.head'_iff.mp hx
    exact hxy.2.1
  refine ⟨fun x hx => ?_, fun x hx => (hpasses x hx.2).2, fun x hx => ?_⟩
  · cases (hpasses x hx.2).1 with
    | start hclosed => exact hclosed
    | step _ _ _ hclosed => exact hclosed
  · obtain ⟨y, hxy, hyv⟩ := TransGen.head'_iff.mp hx.2
    refine ⟨y, ⟨hx.1.tail hxy, ?_⟩, hxy.1⟩
    rcases hyv.cases_head with rfl | ⟨z, hyz, hzv⟩
    · exact hcycle
    · exact TransGen.head' hyz hzv

/-- The search does not come out of a circle all of which is ready. -/
theorem visit_circling {C : α → Prop} (hmirrored : c.Mirrored) (hC : c.Circling C)
    (hready : ∀ z, C z → c.ready visited z = true) (hx : C x) :
    c.visit depth x visited = none := by
  induction depth generalizing x visited with
  | zero => rfl
  | succ depth ih =>
      have hgo : c.stops visited x = false := by
        rw [stops, hC.closed x hx, hC.solid x hx]
        rfl
      rw [visit, if_neg (hgo ▸ Bool.false_ne_true)]
      refine Option.eq_none_iff_forall_ne_some.mpr fun visited' h => ?_
      obtain ⟨y, hy, hedge⟩ := hC.next x hx
      -- the loop does not get past the next node of the circle
      have hloop := foldlM_invariant (J := fun rest between => y ∈ rest ∧ visited ⊆ between) ?_
        ⟨hedge, fun z hz => List.mem_cons_of_mem x hz⟩ h
      · exact List.not_mem_nil hloop.1
      · rintro z rest between between' ⟨hmem, hsub⟩ hround
        have hne : y ≠ z := by
          rintro rfl
          rw [if_pos (ready_mono hsub (hready y hy)),
            ih (fun z hz => ready_mono hsub (hready z hz)) hy] at hround
          cases hround
        refine ⟨(List.mem_cons.mp hmem).resolve_left hne, ?_⟩
        split at hround
        · exact List.Subset.trans hsub (visit_complete hmirrored hround).2.1
        · obtain rfl := Option.some.inj hround
          exact hsub

/-- So long as the search comes to an end, it has not visited all of a circle. -/
theorem visit_leaves_circle {C : α → Prop} (hmirrored : c.Mirrored) (hC : c.Circling C)
    (hleft : ∃ z, C z ∧ z ∉ visited) (hvisited : ∀ z ∈ visited, C z → c.ready visited z = true)
    (hx : C x → c.ready visited x = true) (h : c.visit depth x visited = some visited') :
    (∃ z, C z ∧ z ∉ visited') ∧ ∀ z ∈ visited', C z → c.ready visited' z = true := by
  induction depth generalizing x visited visited' with
  | zero => cases h
  | succ depth ih =>
      have hrun := h
      rw [visit] at h
      split at h
      · obtain rfl := Option.some.inj h
        exact ⟨hleft, hvisited⟩
      · refine foldlM_invariant (J := fun _ between => (∃ z, C z ∧ z ∉ between) ∧
          ∀ z ∈ between, C z → c.ready between z = true) ?_ ⟨?_, fun z hz hCz => ?_⟩ h
        · rintro y rest between between' ⟨hleft, hbetween⟩ hround
          split at hround
          · rename_i hready
            exact ih hleft hbetween (fun _ => hready) hround
          · obtain rfl := Option.some.inj hround
            exact ⟨hleft, hbetween⟩
        · by_contra hall
          have hall' : ∀ z, C z → z ∈ x :: visited := fun z hz => by
            by_contra hmem
            exact hall ⟨z, hz, hmem⟩
          -- with this node all of the circle has been visited, and so all of it was ready
          obtain ⟨w, hw, hfresh⟩ := hleft
          obtain rfl : w = x := (List.mem_cons.mp (hall' w hw)).resolve_right hfresh
          have hready : ∀ z, C z → c.ready visited z = true := fun z hz => by
            rcases List.mem_cons.mp (hall' z hz) with rfl | hz'
            · exact hx hz
            · exact hvisited z hz' hz
          rw [visit_circling hmirrored hC hready hw] at hrun
          cases hrun
        · refine ready_mono (fun w hw => List.mem_cons_of_mem x hw) ?_
          rcases List.mem_cons.mp hz with rfl | hz
          · exact hx hCz
          · exact hvisited z hz hCz

/-- **The search from a solid node ends exactly if it does not go round in a circle without a
trace.** -/
theorem visit_isSome_iff {inner : Finset α} (hinner : ∀ x y, c.Edge x y → x ∈ inner)
    (hmirrored : c.Mirrored) (hsolid : c.solid start = true)
    (hdepth : (inner.card + 1) * (inner.card + 1) ≤ depth) :
    (c.visit depth start []).isSome = true ↔ Acyclic (c.Passage start) := by
  constructor
  · intro hends v hcycle
    obtain ⟨visited', h⟩ := Option.isSome_iff_exists.mp hends
    have hC := circling_of_cycle hcycle
    obtain ⟨⟨z, hz, hfresh⟩, -⟩ := visit_leaves_circle hmirrored hC
      ⟨v, ⟨.refl, hcycle⟩, List.not_mem_nil⟩ (fun z hz => absurd hz List.not_mem_nil)
      (fun hstart => absurd ((hC.solid start hstart).symm.trans hsolid) Bool.false_ne_true) h
    obtain ⟨y, hzy, -⟩ := TransGen.head'_iff.mp hz.2
    exact hfresh ((mem_visit_iff hmirrored h).mpr hzy.2.1.1)
  · intro hacyclic
    refine visit_isSome_of_measure hinner hmirrored hacyclic .start
      (fun y hy => absurd hy List.not_mem_nil) ?_
    have hcount : c.unvisited inner [] ≤ inner.card := Finset.card_filter_le _ _
    have hstretch : c.stretch inner start start ≤ inner.card := stretch_le
    calc c.unvisited inner [] * (inner.card + 1) + c.stretch inner start start
      _ ≤ inner.card * (inner.card + 1) + inner.card :=
          Nat.add_le_add (Nat.mul_le_mul_right _ hcount) hstretch
      _ < inner.card * (inner.card + 1) + (inner.card + 1) :=
          Nat.add_lt_add_left (Nat.lt_succ_self _) _
      _ = (inner.card + 1) * (inner.card + 1) := (Nat.succ_mul _ _).symm
      _ ≤ depth := hdepth

end Cascade

/-! ### New nodes for an old one -/

section Rewired

variable {E I : α → α → Prop} {R P S : α → Prop} {entry exit f : α}

/-- The edges there were, those of the new part, and those that lead to its entry and away from its
exit. -/
def Rewired (E I : α → α → Prop) (P S : α → Prop) (entry exit a b : α) : Prop :=
  E a b ∨ I a b ∨ (P a ∧ b = entry) ∨ (a = exit ∧ S b)

open Classical in
/-- With the new part drawn together in the old node, a way is a way of the old graph, or stays
inside the new part, or uses an edge across its border. -/
theorem transGen_rewired (hE : ∀ a b, E a b → ¬ R a ∧ ¬ R b) (hentry : R entry) (hexit : R exit)
    (hP : ∀ a, P a → E a f) (hS : ∀ b, S b → E f b) {a b : α}
    (h : TransGen (Rewired E I P S entry exit) a b) :
    (R a ∧ R b ∧ TransGen I a b) ∨
      TransGen E (if R a then f else a) (if R b then f else b) ∨
      ∃ u v, I u v ∧ ¬ (R u ∧ R v) ∧ ReflTransGen (Rewired E I P S entry exit) a u ∧
        ReflTransGen (Rewired E I P S entry exit) v b := by
  have hedge : ∀ a b, Rewired E I P S entry exit a b → (R a ∧ R b ∧ I a b) ∨
      E (if R a then f else a) (if R b then f else b) ∨ (I a b ∧ ¬ (R a ∧ R b)) := by
    rintro a b (hab | hab | ⟨ha, rfl⟩ | ⟨rfl, hb⟩)
    · obtain ⟨ha, hb⟩ := hE a b hab
      exact Or.inr (Or.inl (by rwa [if_neg ha, if_neg hb]))
    · by_cases hin : R a ∧ R b
      · exact Or.inl ⟨hin.1, hin.2, hab⟩
      · exact Or.inr (Or.inr ⟨hab, hin⟩)
    · have hnew := (hE a f (hP a ha)).1
      exact Or.inr (Or.inl (by rw [if_neg hnew, if_pos hentry]; exact hP a ha))
    · have hnew := (hE f b (hS b hb)).2
      exact Or.inr (Or.inl (by rw [if_pos hexit, if_neg hnew]; exact hS b hb))
  induction h with
  | single hab =>
      rcases hedge _ _ hab with ⟨ha, hb, hin⟩ | hold | ⟨hin, hborder⟩
      · exact Or.inl ⟨ha, hb, .single hin⟩
      · exact Or.inr (Or.inl (.single hold))
      · exact Or.inr (Or.inr ⟨_, _, hin, hborder, .refl, .refl⟩)
  | tail hab hbc ih =>
      rcases ih with ⟨ha, hb, hin⟩ | hold | ⟨u, v, hin, hborder, hau, hvb⟩
      · rcases hedge _ _ hbc with ⟨-, hc, hin'⟩ | hold' | ⟨hin', hborder⟩
        · exact Or.inl ⟨ha, hc, hin.tail hin'⟩
        · rw [if_pos hb] at hold'
          exact Or.inr (Or.inl (by rw [if_pos ha]; exact .single hold'))
        · exact Or.inr (Or.inr ⟨_, _, hin', hborder, hab.to_reflTransGen, .refl⟩)
      · rcases hedge _ _ hbc with ⟨hb, hc, -⟩ | hold' | ⟨hin', hborder⟩
        · rw [if_pos hb] at hold
          exact Or.inr (Or.inl (by rwa [if_pos hc]))
        · exact Or.inr (Or.inl (hold.tail hold'))
        · exact Or.inr (Or.inr ⟨_, _, hin', hborder, hab.to_reflTransGen, .refl⟩)
      · exact Or.inr (Or.inr ⟨u, v, hin, hborder, hau, hvb.tail hbc⟩)

/-- **Only an edge across the border of the new part can close a cycle.** -/
theorem acyclic_rewired_iff (hacyclic : Acyclic E) (hI : Acyclic I)
    (hE : ∀ a b, E a b → ¬ R a ∧ ¬ R b) (hentry : R entry) (hexit : R exit)
    (hP : ∀ a, P a → E a f) (hS : ∀ b, S b → E f b) :
    Acyclic (Rewired E I P S entry exit) ↔ ∀ u v, I u v → ¬ (R u ∧ R v) →
      ¬ ReflTransGen (Rewired E I P S entry exit) v u := by
  constructor
  · intro h u v huv _ hback
    exact h u (TransGen.head' (Or.inr (Or.inl huv)) hback)
  · intro h a hcycle
    rcases transGen_rewired hE hentry hexit hP hS hcycle with
      ⟨-, -, hin⟩ | hold | ⟨u, v, huv, hborder, hau, hva⟩
    · exact hI a hin
    · exact hacyclic _ hold
    · exact h u v huv hborder (hva.trans hau)

end Rewired

end ClawDesk.Foundations
