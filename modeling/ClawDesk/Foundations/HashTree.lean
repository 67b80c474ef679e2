import Mathlib.Algebra.Group.Nat.Defs
import Mathlib.Data.List.Infix

/-!
# Hash trees

A list is made the leaves of a tree, level by level: neighbours are paired, and the last node of a
level with an odd number of nodes is paired with itself.

The leaves of the tree are those of the list, and then some of them again (`treeOf_leaves`).  Where
no two different things below two trees have the same hash, the trees have the same hash just if
they are the same (`value_inj`).

Different lists may have one tree.  Then one of them begins with the other, and goes on with leaves
of that (`exists_append_of_treeOf`).  Where these are copies of its last leaf, the numbers of leaves
tell whether the trees are the same (`treeOf_replicate_iff`).
-/

namespace ClawDesk.Foundations

/-- A tree with labels at the leaves. -/
inductive HashTree (α : Type) where
  | leaf (a : α)
  | node (left right : HashTree α)

namespace HashTree

variable {α D : Type} {level : List (HashTree α)} {t : HashTree α} {l : List α}

/-- The labels from left to right. -/
def leaves : HashTree α → List α
  | leaf a => [a]
  | node left right => left.leaves ++ right.leaves

/-- The tree and all trees below it. -/
def subtrees : HashTree α → List (HashTree α)
  | leaf a => [leaf a]
  | node left right => node left right :: (left.subtrees ++ right.subtrees)

/-- The hash of a tree, from those of the labels and of pairs. -/
def value (f : α → D) (g : D → D → D) : HashTree α → D
  | leaf a => f a
  | node left right => g (left.value f g) (right.value f g)

/-- The level above a level; an odd node is paired with itself. -/
def pairUp : List (HashTree α) → List (HashTree α)
  | [] => []
  | [t] => [node t t]
  | s :: t :: rest => node s t :: pairUp rest

theorem length_pairUp (level : List (HashTree α)) :
    (pairUp level).length = (level.length + 1) / 2 := by
  fun_induction pairUp level with
  | case1 => simp
  | case2 => simp
  | case3 s t rest ih =>
      simp only [List.length_cons, ih]
      omega

/-- The tree above a level. -/
def ofLevel (level : List (HashTree α)) : Option (HashTree α) :=
  if level.length ≤ 1 then level.head? else ofLevel (pairUp level)
  termination_by level.length
  decreasing_by
    rw [length_pairUp]
    omega

/-- The tree of a list. -/
def treeOf (l : List α) : Option (HashTree α) := ofLevel (l.map leaf)

/-! ### Leaves -/

theorem flatMap_pairUp (level : List (HashTree α)) :
    level.flatMap leaves <+: (pairUp level).flatMap leaves ∧
      ∀ a ∈ (pairUp level).flatMap leaves, a ∈ level.flatMap leaves := by
  fun_induction pairUp level with
  | case1 => exact ⟨List.prefix_refl _, fun _ => id⟩
  | case2 t =>
      simp only [List.flatMap_cons, List.flatMap_nil, leaves, List.append_nil]
      exact ⟨List.prefix_append _ _, fun a ha => by simpa using ha⟩
  | case3 s t rest ih =>
      simp only [List.flatMap_cons, leaves, List.append_assoc]
      refine ⟨(List.prefix_append_right_inj _).mpr ((List.prefix_append_right_inj _).mpr ih.1),
        fun a ha => ?_⟩
      simp only [List.mem_append] at ha ⊢
      exact ha.imp_right (Or.imp_right (ih.2 a))

theorem ofLevel_leaves (h : ofLevel level = some t) :
    level.flatMap leaves <+: t.leaves ∧ ∀ a ∈ t.leaves, a ∈ level.flatMap leaves := by
  fun_induction ofLevel level with
  | case1 level hshort =>
      rcases level with _ | ⟨s, _ | ⟨t', rest⟩⟩
      · cases h
      · obtain rfl := Option.some.inj h
        simp
      · exact absurd hshort (by simp)
  | case2 level hlong ih =>
      obtain ⟨hfront, hmem⟩ := ih h
      exact ⟨(flatMap_pairUp level).1.trans hfront, fun a ha =>
        (flatMap_pairUp level).2 a (hmem a ha)⟩

/-- **The leaves of a tree begin with the list, and are all from it.** -/
theorem treeOf_leaves (h : treeOf l = some t) : l <+: t.leaves ∧ ∀ a ∈ t.leaves, a ∈ l := by
  have hlevel : (l.map leaf).flatMap leaves = l := by
    rw [List.flatMap_map]
    exact List.flatMap_singleton' l
  have hleaves := ofLevel_leaves h
  rwa [hlevel] at hleaves

theorem ofLevel_isSome (h : level ≠ []) : (ofLevel level).isSome := by
  fun_induction ofLevel level with
  | case1 level hshort =>
      rcases level with _ | ⟨s, rest⟩
      · exact absurd rfl h
      · rfl
  | case2 level hlong ih =>
      refine ih fun hnil => ?_
      have hlength := length_pairUp level
      rw [hnil, List.length_nil] at hlength
      omega

theorem treeOf_isSome (h : l ≠ []) : (treeOf l).isSome :=
  ofLevel_isSome fun hnil => h (List.map_eq_nil_iff.mp hnil)

/-- Two lists that have one tree: one of them begins with the other, and goes on with labels of
that. -/
theorem exists_append_of_treeOf {l l' : List α} (h : treeOf l = some t) (h' : treeOf l' = some t) :
    (∃ more, l' = l ++ more ∧ ∀ a ∈ more, a ∈ l) ∨ ∃ more, l = l' ++ more ∧ ∀ a ∈ more, a ∈ l' := by
  obtain ⟨hfront, hmem⟩ := treeOf_leaves h
  obtain ⟨hfront', hmem'⟩ := treeOf_leaves h'
  rcases List.prefix_or_prefix_of_prefix hfront hfront' with ⟨more, rfl⟩ | ⟨more, rfl⟩
  · exact Or.inl ⟨more, rfl, fun a ha =>
      hmem a (hfront'.subset (List.mem_append_right _ ha))⟩
  · exact Or.inr ⟨more, rfl, fun a ha =>
      hmem' a (hfront.subset (List.mem_append_right _ ha))⟩

/-- In an ascending list, what goes on with labels from before repeats the last one. -/
theorem eq_replicate_of_pairwise {r : α → α → Prop} {l more : List α} {last : α}
    (hsorted : (l ++ more).Pairwise r) (hlast : l.getLast? = some last) (hmem : ∀ a ∈ more, a ∈ l)
    (hantisymm : ∀ a ∈ more, r a last → r last a → a = last) (hrefl : r last last) :
    more = List.replicate more.length last := by
  refine List.eq_replicate_iff.mpr ⟨rfl, fun a ha => ?_⟩
  obtain ⟨front, rfl⟩ := List.getLast?_eq_some_iff.mp hlast
  obtain ⟨hfront, -, hcross⟩ := List.pairwise_append.mp hsorted
  refine hantisymm a ha ?_ (hcross last (by simp) a ha)
  rcases List.mem_append.mp (hmem a ha) with hold | hold
  · exact (List.pairwise_append.mp hfront).2.2 a hold last List.mem_cons_self
  · rw [List.mem_singleton.mp hold]
    exact hrefl

/-! ### Repeated last leaves -/

/-- The height of a tree with leaves at one height. -/
def height : HashTree α → ℕ
  | leaf _ => 0
  | node left _ => left.height + 1

/-- At a level of the tree of `n` leaves there is an odd number of nodes, more than one; all leaves
below the last of them are after the first `m`, and its copy reaches as far as `n'` leaves. -/
def Repeats (m n n' : ℕ) : Prop :=
  ∃ i h, 0 < h ∧ m ≤ 2 * h * 2 ^ i ∧ 2 * h * 2 ^ i < n ∧ n ≤ (2 * h + 1) * 2 ^ i ∧
    n' ≤ (2 * h + 2) * 2 ^ i

/-- The bounds at a level are those one level below for half the leaves. -/
theorem repeats_succ_iff {m n n' i h : ℕ} :
    (m ≤ 2 * h * 2 ^ (i + 1) ∧ 2 * h * 2 ^ (i + 1) < n ∧ n ≤ (2 * h + 1) * 2 ^ (i + 1) ∧
      n' ≤ (2 * h + 2) * 2 ^ (i + 1)) ↔
    (m + 1) / 2 ≤ 2 * h * 2 ^ i ∧ 2 * h * 2 ^ i < (n + 1) / 2 ∧
      (n + 1) / 2 ≤ (2 * h + 1) * 2 ^ i ∧ (n' + 1) / 2 ≤ (2 * h + 2) * 2 ^ i := by
  have hdouble : ∀ k : ℕ, k * 2 ^ (i + 1) = 2 * (k * 2 ^ i) := by
    intro k
    rw [Nat.pow_succ, Nat.mul_comm (2 ^ i), Nat.mul_left_comm]
  simp only [hdouble]
  omega

theorem repeats_iff {m n n' : ℕ} : Repeats m n n' ↔
    (n % 2 = 1 ∧ 1 < n ∧ m < n ∧ n' ≤ n + 1) ∨
      Repeats ((m + 1) / 2) ((n + 1) / 2) ((n' + 1) / 2) := by
  constructor
  · rintro ⟨i, h, hpos, hbounds⟩
    cases i with
    | zero =>
        left
        rw [Nat.pow_zero] at hbounds
        omega
    | succ i => exact Or.inr ⟨i, h, hpos, repeats_succ_iff.mp hbounds⟩
  · rintro (⟨hodd, hlong, hm, hn'⟩ | ⟨i, h, hpos, hbounds⟩)
    · refine ⟨0, n / 2, by omega, ?_⟩
      rw [Nat.pow_zero]
      omega
    · exact ⟨i + 1, h, hpos, repeats_succ_iff.mpr hbounds⟩

theorem not_repeats_self {m n' : ℕ} : ¬ Repeats m m n' := by
  rintro ⟨i, h, -, hm, hlow, -⟩
  exact absurd hlow (Nat.not_lt.mpr hm)

theorem not_repeats_one {m n' : ℕ} : ¬ Repeats m 1 n' := by
  rintro ⟨i, h, hpos, -, hlow, -⟩
  have hlow' := Nat.mul_pos (Nat.mul_pos Nat.two_pos hpos) (Nat.two_pow_pos i)
  exact absurd hlow (Nat.not_lt.mpr hlow')

theorem height_pairUp {d : ℕ} (h : ∀ u ∈ level, u.height = d) :
    ∀ u ∈ pairUp level, u.height = d + 1 := by
  fun_induction pairUp level with
  | case1 => exact fun u hu => absurd hu (List.not_mem_nil)
  | case2 t =>
      intro u hu
      rw [List.mem_singleton.mp hu, height, h t List.mem_cons_self]
  | case3 s t rest ih =>
      intro u hu
      rcases List.mem_cons.mp hu with rfl | hrest
      · rw [height, h s List.mem_cons_self]
      · exact ih (fun u hu => h u (List.mem_cons_of_mem _ (List.mem_cons_of_mem _ hu))) u hrest

theorem height_ofLevel {d : ℕ} (hheight : ∀ u ∈ level, u.height = d) (h : ofLevel level = some t) :
    d ≤ t.height ∧ (1 < level.length → d < t.height) := by
  fun_induction ofLevel level generalizing d with
  | case1 level hshort =>
      refine ⟨?_, fun hlong => absurd hlong (Nat.not_lt.mpr hshort)⟩
      rw [hheight t (List.mem_of_mem_head? h)]
  | case2 level hlong ih =>
      have habove := (ih (height_pairUp hheight) h).1
      exact ⟨by omega, fun _ => by omega⟩

theorem getElem?_pairUp (level : List (HashTree α)) (i : ℕ) :
    (pairUp level)[i]? = level[2 * i]?.map fun s => node s (level[2 * i + 1]?.getD s) := by
  fun_induction pairUp level generalizing i with
  | case1 => rfl
  | case2 s =>
      cases i with
      | zero => rfl
      | succ i => rfl
  | case3 s u rest ih =>
      cases i with
      | zero => rfl
      | succ i => exact ih i

theorem getElem?_pairUp_half {i : ℕ} {u : HashTree α} (h : level[i]? = some u) :
    ∃ left right, (pairUp level)[i / 2]? = some (node left right) ∧
      (i % 2 = 0 → left = u) ∧ (i % 2 = 1 → right = u) := by
  obtain ⟨hi, hu⟩ := List.getElem?_eq_some_iff.mp h
  have hleft : 2 * (i / 2) < level.length := by omega
  refine ⟨level[2 * (i / 2)], level[2 * (i / 2) + 1]?.getD level[2 * (i / 2)], ?_, ?_, ?_⟩
  · rw [getElem?_pairUp, List.getElem?_eq_getElem hleft]
    rfl
  · intro heven
    have hsame : 2 * (i / 2) = i := by omega
    simp only [hsame, hu]
  · intro hodd
    have hsame : 2 * (i / 2) + 1 = i := by omega
    rw [hsame, h]
    rfl

theorem ofLevel_pairUp (h : ¬ level.length ≤ 1) : ofLevel level = ofLevel (pairUp level) := by
  conv_lhs => rw [ofLevel, if_neg h]

theorem ofLevel_singleton (w : HashTree α) : ofLevel [w] = some w := by
  rw [ofLevel, if_pos (Nat.le_of_eq List.length_singleton)]
  rfl

/-- A node is not as high as the tree of a longer level. -/
theorem ofLevel_ne_singleton {w : HashTree α} {d : ℕ} (hheight : ∀ u ∈ level, u.height = d)
    (hw : w.height = d) (hlong : 1 < level.length) : ofLevel level ≠ ofLevel [w] := by
  rw [ofLevel_singleton]
  intro heq
  exact absurd ((height_ofLevel hheight heq).2 hlong) (by omega)

theorem eq_singleton_of_getElem? {w : HashTree α} {i : ℕ} (hlength : level.length ≤ 1)
    (hw : level[i]? = some w) : level = [w] ∧ i = 0 := by
  obtain ⟨hi, hw⟩ := List.getElem?_eq_some_iff.mp hw
  obtain ⟨s, rfl⟩ := List.length_eq_one_iff.mp (Nat.le_antisymm hlength (Nat.zero_lt_of_lt hi))
  obtain rfl : i = 0 := Nat.lt_one_iff.mp hi
  exact ⟨congrArg (fun x => [x]) hw, rfl⟩

/-- Levels that differ somewhere have different trees. -/
theorem ofLevel_ne {level' : List (HashTree α)} {u v : HashTree α} {d i : ℕ}
    (hheight : ∀ w ∈ level, w.height = d) (hheight' : ∀ w ∈ level', w.height = d)
    (hu : level[i]? = some u) (hv : level'[i]? = some v) (hne : u ≠ v) :
    ofLevel level ≠ ofLevel level' := by
  have hud := hheight u (List.mem_of_getElem? hu)
  have hvd := hheight' v (List.mem_of_getElem? hv)
  induction hlength : level.length using Nat.strong_induction_on generalizing
    level level' u v d i with
  | _ n ih =>
      by_cases hshort : level.length ≤ 1
      · obtain ⟨rfl, rfl⟩ := eq_singleton_of_getElem? hshort hu
        by_cases hshort' : level'.length ≤ 1
        · obtain ⟨rfl, -⟩ := eq_singleton_of_getElem? hshort' hv
          rw [ofLevel_singleton, ofLevel_singleton]
          exact fun heq => hne (Option.some.inj heq)
        · exact (ofLevel_ne_singleton hheight' hud (Nat.lt_of_not_le hshort')).symm
      · by_cases hshort' : level'.length ≤ 1
        · obtain ⟨rfl, -⟩ := eq_singleton_of_getElem? hshort' hv
          exact ofLevel_ne_singleton hheight hvd (Nat.lt_of_not_le hshort)
        · rw [ofLevel_pairUp hshort, ofLevel_pairUp hshort']
          obtain ⟨left, right, habove, heven, hodd⟩ := getElem?_pairUp_half hu
          obtain ⟨left', right', habove', heven', hodd'⟩ := getElem?_pairUp_half hv
          have hless : (pairUp level).length < n := by
            rw [length_pairUp]
            omega
          have hpair := height_pairUp hheight
          have hpair' := height_pairUp hheight'
          refine ih _ hless hpair hpair' habove habove' (fun heq => hne ?_)
            (hpair _ (List.mem_of_getElem? habove)) (hpair' _ (List.mem_of_getElem? habove')) rfl
          obtain ⟨hleft, hright⟩ := HashTree.node.inj heq
          rcases Nat.mod_two_eq_zero_or_one i with hi | hi
          · rw [← heven hi, ← heven' hi, hleft]
          · rw [← hodd hi, ← hodd' hi, hright]

theorem pairUp_replicate (t : HashTree α) :
    ∀ r, pairUp (List.replicate r t) = List.replicate ((r + 1) / 2) (node t t)
  | 0 => rfl
  | 1 => rfl
  | r + 2 => by
      have hhalf : (r + 2 + 1) / 2 = (r + 1) / 2 + 1 := by omega
      rw [hhalf, List.replicate_succ, List.replicate_succ, List.replicate_succ, pairUp,
        pairUp_replicate t r]

/-- The level above one that ends with copies. -/
theorem pairUp_append_replicate {base : List (HashTree α)} (hlast : base.getLast? ≠ some t) :
    ∃ base', base'.length = (base.length + 1) / 2 ∧ base'.getLast? ≠ some (node t t) ∧
      ∀ r, (base.length % 2 = 1 → 0 < r) → pairUp (base ++ List.replicate r t) =
        base' ++ List.replicate ((base.length + r + 1) / 2 - (base.length + 1) / 2) (node t t) := by
  fun_induction pairUp base with
  | case1 =>
      refine ⟨[], by simp, by simp, fun r _ => ?_⟩
      rw [List.nil_append, List.nil_append, pairUp_replicate, List.length_nil, Nat.zero_add]
      rfl
  | case2 b =>
      refine ⟨[node b t], by simp, ?_, fun r hr => ?_⟩
      · simpa using hlast
      · obtain ⟨r, rfl⟩ := Nat.exists_eq_succ_of_ne_zero (Nat.ne_of_gt (hr rfl))
        have hcount : ([b].length + (r + 1) + 1) / 2 - ([b].length + 1) / 2 = (r + 1) / 2 := by
          rw [List.length_singleton]
          omega
        rw [Nat.succ_eq_add_one, hcount, List.replicate_succ, List.singleton_append, pairUp,
          pairUp_replicate, List.singleton_append]
  | case3 s u rest ih =>
      have hrest : rest.getLast? ≠ some t := by
        rcases rest with _ | ⟨v, rest⟩
        · exact Option.some_ne_none t ∘ Eq.symm
        · rwa [List.getLast?_cons_cons, List.getLast?_cons_cons] at hlast
      obtain ⟨base', hlength, hlast', hpair⟩ := ih hrest
      refine ⟨node s u :: base', ?_, ?_, fun r hr => ?_⟩
      · rw [List.length_cons, List.length_cons, List.length_cons, hlength]
        omega
      · rcases base' with _ | ⟨v, base'⟩
        · obtain rfl : rest = [] := by
            rw [← List.length_eq_zero_iff]
            rw [List.length_nil] at hlength
            omega
          simp only [List.getLast?_cons_cons, List.getLast?_singleton, ne_eq, Option.some.injEq,
            node.injEq, not_and] at hlast ⊢
          exact fun _ => hlast
        · rwa [List.getLast?_cons_cons]
      · have hcount : ((s :: u :: rest).length + r + 1) / 2 - ((s :: u :: rest).length + 1) / 2 =
            (rest.length + r + 1) / 2 - (rest.length + 1) / 2 := by
          rw [List.length_cons, List.length_cons]
          omega
        rw [hcount, List.cons_append, List.cons_append, pairUp, hpair r fun hodd => hr ?_,
          List.cons_append]
        rw [List.length_cons, List.length_cons]
        omega

/-- What a list is before the copies at its end. -/
theorem exists_append_replicate (l : List α) (a : α) :
    ∃ base r, base.getLast? ≠ some a ∧ l = base ++ List.replicate r a := by
  induction l using List.reverseRecOn with
  | nil => exact ⟨[], 0, Option.some_ne_none a ∘ Eq.symm, rfl⟩
  | append_singleton l b ih =>
      by_cases hb : b = a
      · subst hb
        obtain ⟨base, r, hlast, rfl⟩ := ih
        refine ⟨base, r + 1, hlast, ?_⟩
        rw [List.append_assoc, ← List.replicate_succ']
      · refine ⟨l ++ [b], 0, ?_, by rw [List.replicate_zero, List.append_nil]⟩
        rw [List.getLast?_concat]
        exact fun heq => hb (Option.some.inj heq)

theorem forall_mem_append_replicate {d : ℕ} {base : List (HashTree α)}
    (hheight : ∀ u ∈ base, u.height = d) (ht : t.height = d) (r : ℕ) :
    ∀ u ∈ base ++ List.replicate r t, u.height = d := by
  intro u hu
  rcases List.mem_append.mp hu with hbase | hcopy
  · exact hheight u hbase
  · rw [List.eq_of_mem_replicate hcopy, ht]

/-- Copies put after a level of odd length, which ends with something else. -/
theorem ofLevel_append_replicate_ne {base : List (HashTree α)} {d r : ℕ}
    (hheight : ∀ u ∈ base, u.height = d) (ht : t.height = d) (hlast : base.getLast? ≠ some t)
    (hodd : base.length % 2 = 1) (hlong : 1 < base.length) (hr : 0 < r) :
    ofLevel base ≠ ofLevel (base ++ List.replicate r t) := by
  have hlevel := forall_mem_append_replicate hheight ht r
  have hend : 2 * (base.length / 2) + 1 = base.length := by omega
  have hget := List.getElem?_eq_getElem (l := base) (i := 2 * (base.length / 2)) (by omega)
  rw [List.getLast?_eq_getElem?, ← hend, Nat.add_sub_cancel, hget] at hlast
  have hlong' : ¬ (base ++ List.replicate r t).length ≤ 1 := by
    rw [List.length_append]
    omega
  rw [ofLevel_pairUp hlong', ofLevel_pairUp (Nat.not_le.mpr hlong)]
  refine ofLevel_ne (i := base.length / 2) (height_pairUp hheight) (height_pairUp hlevel)
    ((getElem?_pairUp _ _).trans (congrArg _ hget)) ((getElem?_pairUp _ _).trans
    (congrArg _ ((List.getElem?_append_left (by omega)).trans hget))) fun heq => ?_
  have hright := (HashTree.node.inj heq).2
  rw [hend, List.getElem?_eq_none (Nat.le_refl _), List.getElem?_append_right (Nat.le_refl _),
    Nat.sub_self, List.getElem?_replicate, if_pos hr] at hright
  exact hlast (congrArg some hright)

/-- **Levels that differ in the number of copies at their end.** -/
theorem ofLevel_replicate_iff {base : List (HashTree α)} {d r r' : ℕ}
    (hheight : ∀ u ∈ base, u.height = d) (ht : t.height = d) (hlast : base.getLast? ≠ some t)
    (hne : 0 < base.length + r) (hr : r < r') :
    ofLevel (base ++ List.replicate r t) = ofLevel (base ++ List.replicate r' t) ↔
      Repeats base.length (base.length + r) (base.length + r') := by
  induction hn' : base.length + r' using Nat.strong_induction_on generalizing base t d r r' with
  | _ n' ih =>
      subst hn'
      have hlevel := forall_mem_append_replicate hheight ht
      have hlength : ∀ k, (base ++ List.replicate k t).length = base.length + k := by
        intro k
        rw [List.length_append, List.length_replicate]
      rw [repeats_iff]
      by_cases hone : base.length + r = 1
      · obtain ⟨w, hw⟩ := List.length_eq_one_iff.mp ((hlength r).trans hone)
        have htree : ofLevel (base ++ List.replicate r' t) ≠ ofLevel [w] :=
          ofLevel_ne_singleton (hlevel r') (hlevel r w (by simp [hw]))
            (by rw [hlength]; omega)
        rw [hw, ← repeats_iff, hone]
        exact iff_of_false htree.symm not_repeats_one
      by_cases hmixed : base.length % 2 = 1 ∧ r = 0
      · obtain ⟨hodd, rfl⟩ := hmixed
        refine iff_of_false ?_ (repeats_iff.not.mp not_repeats_self)
        rw [List.replicate_zero, List.append_nil]
        exact ofLevel_append_replicate_ne hheight ht hlast hodd (by omega) hr
      obtain ⟨base', hlength', hlast', hpair⟩ := pairUp_append_replicate hlast
      have hlong : ∀ k, r ≤ k → ¬ (base ++ List.replicate k t).length ≤ 1 := by
        intro k hk
        rw [hlength]
        omega
      rw [ofLevel_pairUp (hlong r (Nat.le_refl r)), ofLevel_pairUp (hlong r' (Nat.le_of_lt hr)),
        hpair r (by omega), hpair r' (by omega)]
      by_cases hsame : (base.length + r + 1) / 2 = (base.length + r' + 1) / 2
      · rw [hsame]
        exact iff_of_true rfl (Or.inl (by omega))
      · have hheight' : ∀ u ∈ base', u.height = d + 1 := by
          intro u hu
          apply height_pairUp (hlevel r') u
          rw [hpair r' (by omega)]
          exact List.mem_append_left _ hu
        have ht' : (node t t).height = d + 1 := congrArg (· + 1) ht
        refine (ih ((base.length + r' + 1) / 2) ?_ hheight' ht' hlast' ?_ ?_ ?_).trans ?_
        · omega
        · omega
        · omega
        · omega
        · have hcount : base'.length + ((base.length + r + 1) / 2 - (base.length + 1) / 2) =
              (base.length + r + 1) / 2 := by omega
          rw [hcount, hlength']
          exact ⟨Or.inr, Or.rec (fun hnow => absurd hnow (by omega)) id⟩

/-- **Lists that differ in the number of copies at their end: when they have one tree.** -/
theorem treeOf_replicate_iff {base : List α} {a : α} {r r' : ℕ} (hlast : base.getLast? ≠ some a)
    (hne : 0 < base.length + r) (hr : r < r') :
    treeOf (base ++ List.replicate r a) = treeOf (base ++ List.replicate r' a) ↔
      Repeats base.length (base.length + r) (base.length + r') := by
  have hleaf : ∀ u ∈ base.map leaf, u.height = 0 := by
    intro u hu
    obtain ⟨b, -, rfl⟩ := List.mem_map.mp hu
    rfl
  have hlast' : (base.map leaf).getLast? ≠ some (leaf a) := by
    rw [List.getLast?_map]
    intro heq
    obtain ⟨b, hb, hba⟩ := Option.map_eq_some_iff.mp heq
    exact hlast (hb.trans (congrArg some (HashTree.leaf.inj hba)))
  have hcount : (base.map (leaf : α → HashTree α)).length = base.length := List.length_map _
  rw [treeOf, treeOf, List.map_append, List.map_append, List.map_replicate, List.map_replicate,
    ofLevel_replicate_iff hleaf rfl hlast' (by rwa [hcount]) hr, hcount]

/-! ### Hashes -/

/-- Two trees with one hash have it from the same. -/
def SameInput (f : α → D) (g : D → D → D) : HashTree α → HashTree α → Prop
  | leaf a, leaf b => a = b
  | node s t, node s' t' => s.value f g = s'.value f g ∧ t.value f g = t'.value f g
  | _, _ => False

theorem self_mem_subtrees (t : HashTree α) : t ∈ t.subtrees := by
  cases t <;> exact List.mem_cons_self

theorem mem_leaves_of_mem_subtrees {a : α} (h : leaf a ∈ t.subtrees) : a ∈ t.leaves := by
  induction t with
  | leaf b =>
      obtain rfl := HashTree.leaf.inj (List.mem_singleton.mp h)
      exact List.mem_cons_self
  | node left right ihl ihr =>
      rcases List.mem_cons.mp h with heq | hbelow
      · cases heq
      · rw [leaves, List.mem_append]
        exact (List.mem_append.mp hbelow).imp ihl ihr

/-- **Where no two different things have the same hash, trees with the same hash are the same.** -/
theorem value_inj {f : α → D} {g : D → D → D} {s t : HashTree α}
    (h : ∀ u ∈ s.subtrees, ∀ v ∈ t.subtrees, u.value f g = v.value f g → SameInput f g u v)
    (heq : s.value f g = t.value f g) : s = t := by
  induction s generalizing t with
  | leaf a =>
      have hsame := h (leaf a) (self_mem_subtrees _) t (self_mem_subtrees t) heq
      cases t with
      | leaf b => exact congrArg leaf hsame
      | node => exact absurd hsame id
  | node left right ihl ihr =>
      have hsame := h (node left right) (self_mem_subtrees _) t (self_mem_subtrees t) heq
      cases t with
      | leaf => exact absurd hsame id
      | node left' right' =>
          have hleft : left = left' := ihl (fun u hu v hv =>
            h u (by simp [subtrees, hu]) v (by simp [subtrees, hv])) hsame.1
          have hright : right = right' := ihr (fun u hu v hv =>
            h u (by simp [subtrees, hu]) v (by simp [subtrees, hv])) hsame.2
          rw [hleft, hright]

end HashTree

end ClawDesk.Foundations
