import Mathlib.Data.List.Lex
import Mathlib.Data.List.Infix
import Mathlib.Logic.Function.Basic
import Mathlib.Order.Lattice

/-!
# Preorder of an ordered tree

Nodes name their parent, and the children of a node are ordered.  The **path** of
a node lists the nodes from the root down to it; the lexicographic order of paths
is the order in which a preorder walk meets the nodes (`Tree.Before`).

A list in that order is kept in it when a new child is put behind its parent and
the smaller siblings that follow, provided none of these has children
(`Tree.pairwise_insert`).
-/

namespace ClawDesk.Foundations

variable {α : Type}

/-! ### Lexicographic order -/

section Lex

variable [LinearOrder α]

theorem lt_concat (l : List α) (a : α) : l < l ++ [a] := by
  induction l with
  | nil => exact List.Lex.nil
  | cons b l ih => exact List.Lex.cons ih

theorem append_cons_lt (l : List α) {a b : α} (s t : List α) (h : a < b) :
    l ++ a :: s < l ++ b :: t := by
  induction l with
  | nil => exact List.Lex.rel h
  | cons c l ih => exact List.Lex.cons ih

/-- A list that comes first is a prefix, or comes first with anything appended. -/
theorem prefix_or_append_lt {l m : List α} (h : l < m) : l <+: m ∨ ∀ s, l ++ s < m := by
  induction l generalizing m with
  | nil => exact .inl (List.nil_prefix ..)
  | cons a l ih =>
      rcases h with _ | h | h
      · exact .inr fun s => List.Lex.rel h
      · rcases ih h with hpre | happend
        · exact .inl (List.cons_prefix_cons.mpr ⟨rfl, hpre⟩)
        · exact .inr fun s => List.Lex.cons (happend s)

end Lex

/-! ### Trees -/

/-- A tree by its parent function; a path ends in its node, and what is before
that is the path of the parent. -/
structure Tree (α : Type) where
  parent : α → Option α
  path : α → List α
  path_eq : ∀ a, path a = (parent a).elim [] path ++ [a]

namespace Tree

variable (T : Tree α) {a b : α}

/-- The path of a possible parent. -/
def stem (p : Option α) : List α := p.elim [] T.path

@[simp] theorem stem_none : T.stem none = [] := rfl

@[simp] theorem stem_some (a : α) : T.stem (some a) = T.path a := rfl

theorem path_eq_stem (a : α) : T.path a = T.stem (T.parent a) ++ [a] := T.path_eq a

variable {T}

theorem path_injective (h : T.path a = T.path b) : a = b := by
  rw [path_eq_stem, T.path_eq_stem b] at h
  simpa using congrArg List.getLast? h

theorem stem_injective {p q : Option α} (h : T.stem p = T.stem q) : p = q := by
  cases p with
  | none =>
      cases q with
      | none => rfl
      | some b =>
          rw [stem_none, stem_some, path_eq_stem] at h
          simp at h
  | some a =>
      cases q with
      | none =>
          rw [stem_none, stem_some, path_eq_stem] at h
          simp at h
      | some b => rw [path_injective h]

/-- The node that a path ends in, with its parent read off the path. -/
theorem parent_eq_of_path {p : Option α} (h : T.path a = T.stem p ++ [b]) :
    a = b ∧ T.parent a = p := by
  rw [path_eq_stem] at h
  obtain ⟨hstem, hlast⟩ := List.append_inj' h rfl
  exact ⟨by simpa using hlast, stem_injective hstem⟩

/-- With every node, the list has its parent. -/
def Closed (T : Tree α) (l : List α) : Prop := ∀ b ∈ l, ∀ a, T.parent b = some a → a ∈ l

/-- With every node, a closed list has all nodes on its path. -/
theorem Closed.exists_ancestor {l : List α} (closed : T.Closed l) {s : List α} (hb : b ∈ l)
    (h : s ++ [a] <+: T.path b) : a ∈ l ∧ T.path a = s ++ [a] := by
  generalize hn : (T.path b).length = n
  induction n using Nat.strong_induction_on generalizing b with
  | _ n ih =>
      subst hn
      rw [path_eq_stem] at h
      rcases List.prefix_concat_iff.mp h with heq | hpre
      · obtain ⟨rfl, rfl⟩ : s = T.stem (T.parent b) ∧ a = b := by simpa using heq
        exact ⟨hb, T.path_eq_stem a⟩
      · cases hparent : T.parent b with
        | none =>
            rw [hparent] at hpre
            simp at hpre
        | some c =>
            rw [hparent] at hpre
            have hlt : (T.path c).length < (T.path b).length := by
              rw [T.path_eq_stem b, hparent]
              simp
            exact ih _ hlt (closed b hb c hparent) hpre rfl

/-! ### The order of the nodes -/

section Order

variable [LinearOrder α]

/-- A preorder walk meets `a` before `b`. -/
def Before (T : Tree α) (a b : α) : Prop := T.path a < T.path b

theorem Before.trans {c : α} (h : T.Before a b) (h' : T.Before b c) : T.Before a c :=
  lt_trans (α := List α) h h'

theorem before_irrefl (a : α) : ¬ T.Before a a := lt_irrefl (α := List α) _

theorem before_child {p : Option α} (h : T.parent b = p) (ha : a ∈ p) : T.Before a b := by
  obtain rfl := Option.mem_def.mp ha
  rw [Before, T.path_eq_stem b, h]
  exact lt_concat _ _

theorem before_sibling (h : T.parent a = T.parent b) (hlt : a < b) : T.Before a b := by
  rw [Before, path_eq_stem, T.path_eq_stem b, h]
  exact append_cons_lt _ _ _ hlt

/-- What comes before the parent, and the parent, comes before the child. -/
theorem before_of_mem_front {front : List α} {e : α} (sorted : front.Pairwise T.Before)
    (parent : front.getLast? = T.parent e) (ha : a ∈ front) : T.Before a e := by
  rcases List.eq_nil_or_concat front with rfl | ⟨init, q, rfl⟩
  · simp at ha
  · have hq : T.Before q e := before_child parent.symm (by simp)
    rw [List.concat_eq_append] at ha sorted
    rcases List.mem_append.mp ha with hinit | hlast
    · exact ((List.pairwise_append.mp sorted).2.2 a hinit q (by simp)).trans hq
    · rw [List.mem_singleton.mp hlast]
      exact hq

/-- Behind the parent, the first node that is neither a smaller sibling nor below
one comes after the child. -/
theorem before_of_after_parent {l : List α} {e : α} (closed : T.Closed l) (new : e ∉ l)
    (hb : b ∈ l) (behind : T.stem (T.parent e) < T.path b)
    (next : T.parent b = T.parent e → e < b)
    (childless : ∀ a ∈ l, T.parent a = T.parent e → a < e → ∀ d ∈ l, T.parent d ≠ some a) :
    T.Before e b := by
  rw [Before, T.path_eq_stem e]
  rcases prefix_or_append_lt behind with ⟨below, hpath⟩ | happend
  · cases below with
    | nil =>
        rw [List.append_nil] at hpath
        exact absurd behind (hpath ▸ lt_irrefl (α := List α) _)
    | cons c tail =>
        -- `c` is the sibling of `e` that `b` is, or is below.
        obtain ⟨hc, hpathc⟩ := closed.exists_ancestor hb ⟨tail, by simpa using hpath⟩
        obtain ⟨-, hparent⟩ := parent_eq_of_path hpathc
        rcases lt_trichotomy c e with hlt | rfl | hgt
        · cases tail with
          | nil =>
              obtain ⟨rfl, -⟩ := parent_eq_of_path hpath.symm
              exact absurd hlt (next hparent).asymm
          | cons d tail =>
              obtain ⟨hd, hpathd⟩ :=
                closed.exists_ancestor hb (s := _ ++ [c]) ⟨tail, by simpa using hpath⟩
              rw [← hpathc, ← T.stem_some c] at hpathd
              exact absurd (parent_eq_of_path hpathd).2 (childless c hc hparent hlt d hd)
        · exact absurd hc new
        · rw [← hpath]
          exact append_cons_lt _ _ _ hgt
  · exact happend _

/-- **A new child goes behind its parent and the smaller siblings there.** -/
theorem pairwise_insert {front siblings rest : List α} {e : α}
    (sorted : (front ++ (siblings ++ rest)).Pairwise T.Before)
    (closed : T.Closed (front ++ (siblings ++ rest)))
    (new : e ∉ front ++ (siblings ++ rest)) (parent : front.getLast? = T.parent e)
    (smaller : ∀ a ∈ siblings, T.parent a = T.parent e ∧ a < e)
    (next : ∀ b, rest.head? = some b → T.parent b = T.parent e → e < b)
    (childless : ∀ a ∈ front ++ (siblings ++ rest), T.parent a = T.parent e → a < e →
      ∀ d ∈ front ++ (siblings ++ rest), T.parent d ≠ some a) :
    (front ++ (siblings ++ e :: rest)).Pairwise T.Before := by
  obtain ⟨hfront, hback, hcross⟩ := List.pairwise_append.mp sorted
  obtain ⟨hsiblings, hrest, hcross'⟩ := List.pairwise_append.mp hback
  have hbefore : ∀ a ∈ front, T.Before a e := fun a ha => before_of_mem_front hfront parent ha
  have hsibling : ∀ a ∈ siblings, T.Before a e := fun a ha =>
    before_sibling (smaller a ha).1 (smaller a ha).2
  have hafter : ∀ b ∈ rest, T.Before e b := by
    intro b hb
    cases rest with
    | nil => simp at hb
    | cons b₀ rest =>
        have hbehind : T.stem (T.parent e) < T.path b₀ := by
          rw [← parent]
          cases hlast : front.getLast? with
          | none =>
              rw [stem_none, path_eq_stem]
              cases T.stem (T.parent b₀) <;> exact List.Lex.nil
          | some q => exact hcross q (List.mem_of_getLast? hlast) b₀ (by simp)
        have hb₀ : T.Before e b₀ :=
          before_of_after_parent closed new (by simp) hbehind (next b₀ rfl) childless
        rcases List.mem_cons.mp hb with rfl | hb
        · exact hb₀
        · exact hb₀.trans ((List.pairwise_cons.mp hrest).1 b hb)
  refine List.pairwise_append.mpr ⟨hfront, List.pairwise_append.mpr
    ⟨hsiblings, List.pairwise_cons.mpr ⟨hafter, hrest⟩, ?_⟩, ?_⟩
  · intro a ha b hb
    rcases List.mem_cons.mp hb with rfl | hb
    · exact hsibling a ha
    · exact hcross' a ha b hb
  · intro a ha b hb
    rcases List.mem_append.mp hb with hb | hb
    · exact hcross a ha b (List.mem_append_left _ hb)
    · rcases List.mem_cons.mp hb with rfl | hb
      · exact hbefore a ha
      · exact hcross a ha b (List.mem_append_right _ hb)

/-- Lists in the order of the tree with the same entries are the same. -/
theorem eq_of_pairwise {β : Type} (f : β → α) {l l' : List β}
    (sorted : (l.map f).Pairwise T.Before) (sorted' : (l'.map f).Pairwise T.Before)
    (same : ∀ x, x ∈ l ↔ x ∈ l') : l = l' := by
  rw [List.pairwise_map] at sorted sorted'
  have nodup {m : List β} (h : m.Pairwise fun x y => T.Before (f x) (f y)) : m.Nodup :=
    h.imp fun hlt => by
      rintro rfl
      exact before_irrefl _ hlt
  refine ((List.perm_ext_iff_of_nodup (nodup sorted) (nodup sorted')).mpr same).eq_of_pairwise
    ?_ sorted sorted'
  intro x y _ _ hxy hyx
  exact absurd (hxy.trans hyx) (before_irrefl (f x))

end Order

/-! ### Growing -/

section Attach

variable [DecidableEq α]

/-- A tree without edges. -/
def isolated : Tree α where
  parent _ := none
  path a := [a]
  path_eq _ := rfl

/-- Paths of possible parents are not changed by giving `a` another path. -/
theorem elim_update_path (T : Tree α) {a : α} {q : Option α} (hq : a ∉ q) (path : List α) :
    q.elim [] (Function.update T.path a path) = T.stem q := by
  cases q with
  | none => rfl
  | some c =>
      have hc : c ≠ a := fun h => hq (Option.mem_def.mpr (by rw [h]))
      rw [Option.elim_some, Function.update_of_ne hc, stem_some]

/-- Give the leaf `a` the parent `p`. -/
def attach (T : Tree α) (a : α) (p : Option α) (leaf : ∀ b, a ∉ T.parent b) (hp : a ∉ p) :
    Tree α where
  parent := Function.update T.parent a p
  path := Function.update T.path a (T.stem p ++ [a])
  path_eq b := by
    by_cases hb : b = a
    · subst hb
      rw [Function.update_self, Function.update_self, elim_update_path T hp]
    · rw [Function.update_of_ne hb, Function.update_of_ne hb, elim_update_path T (leaf b),
        path_eq_stem]

variable {a : α} {p : Option α} {leaf : ∀ b, a ∉ T.parent b} {hp : a ∉ p}

@[simp] theorem attach_parent_self : (T.attach a p leaf hp).parent a = p :=
  Function.update_self ..

theorem attach_parent_of_ne {b : α} (hb : b ≠ a) :
    (T.attach a p leaf hp).parent b = T.parent b :=
  Function.update_of_ne hb ..

/-- The other nodes keep their order. -/
theorem attach_before [LinearOrder α] {b c : α} (hb : b ≠ a) (hc : c ≠ a) :
    (T.attach a p leaf hp).Before b c ↔ T.Before b c := by
  show Function.update T.path a _ b < Function.update T.path a _ c ↔ _
  rw [Function.update_of_ne hb, Function.update_of_ne hc, Before]

end Attach

end Tree

end ClawDesk.Foundations
