import ClawDesk.Domain.ContextGuard
import Mathlib.Data.List.GetD
import Mathlib.Data.List.Induction
import Mathlib.Order.Bounds.Basic

/-!
# The markers of the quantile estimator

Once five observations are in, the heights of the markers are sorted, the outer ones are the
least and the greatest observation, and the positions are increasing whole numbers from one to
the number of observations (`Settled`).

An observation moves the outer markers outwards, shifts the positions above its cell and adjusts
the inner markers one by one.  An inner marker moves by one position only where it has room, so
neighbours keep different positions and nothing is divided by zero; its height stays between
those of its neighbours (`adjust_cases`).
-/

namespace ClawDesk.Domain.P2QuantileEstimator

variable {e : P2QuantileEstimator} {x : ℚ} {xs : List ℚ} {i : Fin 5}

/-! ### One marker moves -/

/-- A family stays in order when one of its values changes and keeps its place. -/
theorem update_rel {ι α : Type} [LinearOrder ι] {r : α → α → Prop} {f : ι → α} {i : ι} {v : α}
    (h : ∀ a b, a < b → r (f a) (f b)) (hlow : ∀ j < i, r (f j) v) (hhigh : ∀ j, i < j → r v (f j))
    (a b : ι) (hab : a < b) : r (Function.update f i v a) (Function.update f i v b) := by
  by_cases ha : a = i
  · subst ha
    rw [Function.update_self, Function.update_of_ne hab.ne']
    exact hhigh b hab
  · rw [Function.update_of_ne ha]
    by_cases hb : b = i
    · subst hb
      rw [Function.update_self]
      exact hlow a hab
    · rw [Function.update_of_ne hb]
      exact h a b hab

/-- The neighbours of an inner marker are the ones next to it. -/
theorem le_pred {i j : Fin 5} (hi : i ≠ 0) (h : j < i) : j ≤ i - 1 := by
  revert i j
  decide

theorem succ_le {i j : Fin 5} (hi : i ≠ 4) (h : i < j) : i + 1 ≤ j := by
  revert i j
  decide

theorem pred_lt {i : Fin 5} (hi : i ≠ 0) : i - 1 < i := by
  revert i
  decide

theorem lt_succ {i : Fin 5} (hi : i ≠ 4) : i < i + 1 := by
  revert i
  decide

/-- The heights are sorted, and the positions are increasing whole numbers. -/
structure Ordered (e : P2QuantileEstimator) : Prop where
  heights : Monotone e.q
  positions : ∃ m : Fin 5 → ℕ, StrictMono m ∧ ∀ i, e.n i = m i

namespace Ordered

theorem strictMono (h : e.Ordered) : StrictMono e.n := by
  obtain ⟨m, hm, hn⟩ := h.positions
  intro a b hab
  rw [hn, hn]
  exact_mod_cast hm hab

/-- A part of the way to the neighbour above. -/
theorem linear_up {a b w : ℚ} (hab : a ≤ b) (hw : 1 < w) : a ≤ a + 1 * (b - a) / w ∧
    a + 1 * (b - a) / w ≤ b := by
  have hnonneg : 0 ≤ (b - a) / w := div_nonneg (by linarith) (by linarith)
  have hpart : (b - a) / w ≤ b - a := div_le_self (by linarith) hw.le
  rw [one_mul]
  constructor <;> linarith

/-- A part of the way to the neighbour below. -/
theorem linear_down {a b w : ℚ} (hab : b ≤ a) (hw : w < -1) : b ≤ a + -1 * (b - a) / w ∧
    a + -1 * (b - a) / w ≤ a := by
  have hflip : -1 * (b - a) / w = -((a - b) / -w) := by
    rw [div_neg, neg_neg]
    ring
  have hnonneg : 0 ≤ (a - b) / -w := div_nonneg (by linarith) (by linarith)
  have hpart : (a - b) / -w ≤ a - b := div_le_self (by linarith) (by linarith)
  rw [hflip]
  constructor <;> linarith

/-- What adjusting an inner marker can do. -/
theorem adjust_cases (h : e.Ordered) (hi : i ≠ 0) (hi' : i ≠ 4) : e.adjust i = e ∨
    ∃ v sign, e.adjust i =
        { e with q := Function.update e.q i v, n := Function.update e.n i (e.n i + sign) } ∧
      e.q (i - 1) ≤ v ∧ v ≤ e.q (i + 1) ∧
      (sign = 1 ∧ 1 < e.n (i + 1) - e.n i ∨ sign = -1 ∧ e.n (i - 1) - e.n i < -1) := by
  have hlow := h.heights (pred_lt hi).le
  have hhigh := h.heights (lt_succ hi').le
  by_cases hroom : (1 ≤ e.nPrime i - e.n i ∧ 1 < e.n (i + 1) - e.n i) ∨
      (e.nPrime i - e.n i ≤ -1 ∧ e.n (i - 1) - e.n i < -1)
  · refine .inr ⟨_, _, if_pos hroom, ?_⟩
    rcases hroom with ⟨hd, hup⟩ | ⟨hd, hdown⟩
    · have hsign : 0 < e.nPrime i - e.n i := by linarith
      obtain ⟨hlo, hhi⟩ := linear_up hhigh hup
      simp only [if_pos hsign, if_pos one_pos]
      split
      case isTrue hbetween => exact ⟨hbetween.1.le, hbetween.2.le, .inl ⟨trivial, hup⟩⟩
      case isFalse => exact ⟨hlow.trans hlo, hhi, .inl ⟨trivial, hup⟩⟩
    · have hsign : ¬ 0 < e.nPrime i - e.n i := by linarith
      have hneg : ¬ (0 : ℚ) < -1 := by norm_num
      obtain ⟨hlo, hhi⟩ := linear_down hlow hdown
      simp only [if_neg hsign, if_neg hneg]
      split
      case isTrue hbetween => exact ⟨hbetween.1.le, hbetween.2.le, .inr ⟨trivial, hdown⟩⟩
      case isFalse => exact ⟨hlo, hhi.trans hhigh, .inr ⟨trivial, hdown⟩⟩
  · exact .inl (if_neg hroom)

/-- Adjusting an inner marker keeps the order. -/
theorem adjust (h : e.Ordered) (hi : i ≠ 0) (hi' : i ≠ 4) : (e.adjust i).Ordered := by
  rcases h.adjust_cases hi hi' with heq | ⟨v, sign, heq, hlo, hhi, hsign⟩
  · rwa [heq]
  obtain ⟨m, hm, hn⟩ := h.positions
  rw [heq]
  constructor
  · refine (monotone_iff_forall_lt).mpr (update_rel (fun a b hab => h.heights hab.le) ?_ ?_)
    · exact fun j hj => (h.heights (le_pred hi hj)).trans hlo
    · exact fun j hj => hhi.trans (h.heights (succ_le hi' hj))
  · -- The marker moves to a whole number strictly between the positions next to it.
    obtain ⟨k, hk, hbelow, habove⟩ :
        ∃ k : ℕ, e.n i + sign = k ∧ m (i - 1) < k ∧ k < m (i + 1) := by
      have hprev := hm (pred_lt hi)
      have hnext := hm (lt_succ hi')
      rw [hn, hn, hn] at hsign
      rw [hn]
      rcases hsign with ⟨rfl, hup⟩ | ⟨rfl, hdown⟩
      · have hroom : m i + 1 < m (i + 1) := by
          have : (m i + 1 : ℚ) < m (i + 1) := by linarith
          exact_mod_cast this
        exact ⟨m i + 1, by push_cast; ring, by omega, hroom⟩
      · have hroom : m (i - 1) + 1 < m i := by
          have : (m (i - 1) + 1 : ℚ) < m i := by linarith
          exact_mod_cast this
        refine ⟨m i - 1, ?_, by omega, by omega⟩
        rw [Nat.cast_sub (by omega)]
        push_cast
        ring
    refine ⟨Function.update m i k, fun a b hab => update_rel (fun a b hab => hm hab) ?_ ?_ a b hab,
      fun j => ?_⟩
    · exact fun j hj => (hm.monotone (le_pred hi hj)).trans_lt hbelow
    · exact fun j hj => habove.trans_le (hm.monotone (succ_le hi' hj))
    · by_cases hj : j = i
      · subst hj
        simp [hk]
      · simp [Function.update_of_ne hj, hn]

end Ordered

/-! ### The outer markers -/

/-- Adjusting a marker leaves the others where they are. -/
theorem adjust_of_ne {j : Fin 5} (hj : j ≠ i) :
    (e.adjust i).q j = e.q j ∧ (e.adjust i).n j = e.n j := by
  rw [adjust]
  dsimp only
  split
  · exact ⟨Function.update_of_ne hj _ _, Function.update_of_ne hj _ _⟩
  · exact ⟨rfl, rfl⟩

theorem count_adjust : (e.adjust i).count = e.count := by
  rw [adjust]
  dsimp only
  split <;> rfl

/-- The outer markers and the count are the same. -/
structure SameEnds (e e' : P2QuantileEstimator) : Prop where
  low : e'.q 0 = e.q 0
  high : e'.q 4 = e.q 4
  first : e'.n 0 = e.n 0
  last : e'.n 4 = e.n 4
  count : e'.count = e.count

/-- Adjusting inner markers keeps the order and the ends. -/
theorem Ordered.foldl_adjust {l : List (Fin 5)} (hl : ∀ i ∈ l, i ≠ 0 ∧ i ≠ 4) (h : e.Ordered) :
    (l.foldl P2QuantileEstimator.adjust e).Ordered ∧
      SameEnds e (l.foldl P2QuantileEstimator.adjust e) := by
  induction l generalizing e with
  | nil => exact ⟨h, rfl, rfl, rfl, rfl, rfl⟩
  | cons i l ih =>
      obtain ⟨hi, hi'⟩ := hl i List.mem_cons_self
      obtain ⟨hordered, hends⟩ :=
        ih (fun j hj => hl j (List.mem_cons_of_mem _ hj)) (h.adjust hi hi')
      have hlow := adjust_of_ne (e := e) (Ne.symm hi)
      have hhigh := adjust_of_ne (e := e) (Ne.symm hi')
      exact ⟨hordered, hends.low.trans hlow.1, hends.high.trans hhigh.1,
        hends.first.trans hlow.2, hends.last.trans hhigh.2, hends.count.trans count_adjust⟩

/-- An observation lies in one of four cells, and may move an outer marker. -/
theorem cell_eq (h : Monotone e.q) : ∃ k < 4, e.cell x =
    (k, { e with
      q := Function.update (Function.update e.q 0 (min (e.q 0) x)) 4 (max (e.q 4) x) }) := by
  have hfirst : e.q 0 ≤ e.q 1 := h (by decide)
  have hlast : e.q 3 ≤ e.q 4 := h (by decide)
  have hupTo (k : Fin 5) : e.q 0 ≤ e.q k := h (Fin.zero_le k)
  have hfrom (k : Fin 5) : e.q k ≤ e.q 4 := h (Fin.le_last k)
  -- Between the outer markers nothing moves.
  have hinside (hlo : e.q 0 ≤ x) (hhi : x ≤ e.q 4) :
      Function.update (Function.update e.q 0 (min (e.q 0) x)) 4 (max (e.q 4) x) = e.q := by
    rw [min_eq_left hlo, max_eq_left hhi, Function.update_eq_self, Function.update_eq_self]
  unfold cell
  split_ifs with h0 h1 h2 h3 h4
  · have hsame : Function.update (Function.update e.q 0 x) 4 (e.q 4) = Function.update e.q 0 x := by
      rw [Function.update_eq_self_iff, Function.update_of_ne (by decide)]
    exact ⟨0, by decide, by rw [min_eq_right h0.le, max_eq_left (h0.le.trans (hupTo 4)), hsame]⟩
  · exact ⟨0, by decide, by rw [hinside (not_lt.mp h0) (h1.le.trans (hfrom 1))]⟩
  · exact ⟨1, by decide, by rw [hinside (not_lt.mp h0) (h2.le.trans (hfrom 2))]⟩
  · exact ⟨2, by decide, by rw [hinside (not_lt.mp h0) (h3.le.trans hlast)]⟩
  · refine ⟨3, by decide, ?_⟩
    rw [min_eq_left (not_lt.mp h0), max_eq_right h4.le, Function.update_eq_self]
  · exact ⟨3, by decide, by rw [hinside (not_lt.mp h0) (not_lt.mp h4)]⟩

/-- The markers when an observation is in its cell and none has been adjusted. -/
def shifted (e : P2QuantileEstimator) (x : ℚ) : P2QuantileEstimator :=
  let (k, e) := { e with count := e.count + 1 }.cell x
  { e with
    n := fun i => if k < i then e.n i + 1 else e.n i
    nPrime := fun i => e.nPrime i + e.dn i }

theorem observe_eq (h : 5 ≤ e.count) : e.observe x = [1, 2, 3].foldl adjust (e.shifted x) :=
  if_neg (by omega)

/-- Before any marker is adjusted the order is kept, and the ends cover the observation. -/
theorem Ordered.shifted (h : e.Ordered) : (e.shifted x).Ordered ∧
    SameEnds { e with
      q := Function.update (Function.update e.q 0 (min (e.q 0) x)) 4 (max (e.q 4) x)
      n := Function.update e.n 4 (e.n 4 + 1)
      count := e.count + 1 } (e.shifted x) := by
  obtain ⟨k, hk, hcell⟩ := cell_eq (e := { e with count := e.count + 1 }) (x := x) h.heights
  obtain ⟨m, hm, hn⟩ := h.positions
  rw [P2QuantileEstimator.shifted, hcell]
  refine ⟨⟨?_, fun i => if k < i then m i + 1 else m i, ?_, fun i => ?_⟩,
    ⟨rfl, rfl, ?_, ?_, rfl⟩⟩
  · refine monotone_iff_forall_lt.mpr (update_rel (update_rel ?_ ?_ ?_) ?_ ?_)
    · exact fun a b hab => h.heights hab.le
    · exact fun j hj => absurd hj (Fin.not_lt_zero j)
    · exact fun j hj => (min_le_left _ _).trans (h.heights hj.le)
    · intro j hj
      by_cases hj0 : j = 0
      · subst hj0
        rw [Function.update_self]
        exact (min_le_left _ _).trans ((h.heights (Fin.zero_le 4)).trans (le_max_left _ _))
      · rw [Function.update_of_ne hj0]
        exact (h.heights hj.le).trans (le_max_left _ _)
    · exact fun j hj => absurd hj (Fin.le_last j).not_gt
  · intro a b hab
    have hlt := hm hab
    dsimp only
    split_ifs with ha hb hb
    · omega
    · exact absurd (ha.trans hab) hb
    · omega
    · exact hlt
  · dsimp only
    split_ifs <;> simp [hn]
  · dsimp only
    rw [if_neg (Fin.not_lt_zero k), Function.update_of_ne (by decide)]
  · dsimp only
    rw [if_pos hk, Function.update_self]

/-! ### After the observations -/

/-- The estimator of the `p`-quantile after the observations `xs`. -/
def after (p : ℚ) (xs : List ℚ) : P2QuantileEstimator := xs.foldl observe (new p)

theorem after_append {p : ℚ} : after p (xs ++ [x]) = (after p xs).observe x := List.foldl_append

/-- The markers after the observations `xs`, of which there are at least five. -/
structure Settled (xs : List ℚ) (e : P2QuantileEstimator) : Prop where
  counted : e.count = xs.length
  ordered : e.Ordered
  least : IsLeast {y | y ∈ xs} (e.q 0)
  greatest : IsGreatest {y | y ∈ xs} (e.q 4)
  first : e.n 0 = 1
  last : e.n 4 = e.count

theorem setOf_mem_append : {y | y ∈ xs ++ [x]} = insert x {y | y ∈ xs} := by
  ext y
  simp [or_comm]

/-- One more observation. -/
theorem Settled.observe (h : Settled xs e) (hlen : 5 ≤ xs.length) :
    Settled (xs ++ [x]) (e.observe x) := by
  obtain ⟨hordered, hshift⟩ := h.ordered.shifted (x := x)
  obtain ⟨hordered', hends⟩ := hordered.foldl_adjust (l := [1, 2, 3]) (by decide)
  have hlow : (e.observe x).q 0 = min x (e.q 0) := by
    rw [observe_eq (h.counted.symm ▸ hlen), hends.low, hshift.low, min_comm]
    rfl
  have hhigh : (e.observe x).q 4 = max x (e.q 4) := by
    rw [observe_eq (h.counted.symm ▸ hlen), hends.high, hshift.high, max_comm]
    rfl
  have hcount : (e.observe x).count = e.count + 1 := by
    rw [observe_eq (h.counted.symm ▸ hlen), hends.count, hshift.count]
  constructor
  · rw [hcount, h.counted, List.length_append, List.length_singleton]
  · rwa [observe_eq (h.counted.symm ▸ hlen)]
  · rw [setOf_mem_append, hlow]
    exact h.least.insert x
  · rw [setOf_mem_append, hhigh]
    exact h.greatest.insert x
  · rw [observe_eq (h.counted.symm ▸ hlen), hends.first, hshift.first]
    exact h.first
  · rw [hcount, observe_eq (h.counted.symm ▸ hlen), hends.last, hshift.last]
    push_cast
    rw [← h.last]
    rfl

/-- The first observations are only collected. -/
theorem after_early {p : ℚ} (h : xs.length < 5) :
    after p xs = { new p with count := xs.length, initial := xs } := by
  induction xs using List.reverseRecOn with
  | nil => rfl
  | append_singleton xs x ih =>
      have hlen : (xs ++ [x]).length = xs.length + 1 := by simp
      rw [hlen] at h
      rw [after_append, ih (by omega), hlen, observe,
        if_pos (by dsimp only; omega)]
      exact if_neg (by dsimp only; omega)

/-- The fifth observation sets the markers. -/
theorem settled_fifth {p : ℚ} (h : xs.length = 4) :
    Settled (xs ++ [x]) (({ new p with count := xs.length, initial := xs } :
      P2QuantileEstimator).observe x) := by
  obtain ⟨sorted, hsorted⟩ : ∃ sorted, sorted = (xs ++ [x]).insertionSort (· ≤ ·) := ⟨_, rfl⟩
  have hmem (y : ℚ) : y ∈ sorted ↔ y ∈ xs ++ [x] := by rw [hsorted, List.mem_insertionSort]
  have hlen : sorted.length = 5 := by rw [hsorted, List.length_insertionSort]; simp [h]
  have hget (i : Fin 5) : sorted.getD i 0 = sorted[(i : ℕ)] := by
    rw [List.getD_eq_getElem]
  have hmono : Monotone fun i : Fin 5 => sorted.getD i 0 := by
    refine monotone_iff_forall_lt.mpr fun a b hab => ?_
    have hpairwise : sorted.Pairwise (· ≤ ·) := hsorted ▸ List.pairwise_insertionSort _ _
    rw [hget, hget]
    exact List.pairwise_iff_getElem.mp hpairwise a b (by omega) (by omega) hab
  have hbound (y : ℚ) (hy : y ∈ xs ++ [x]) : ∃ i : Fin 5, sorted.getD i 0 = y := by
    obtain ⟨i, hi, hiy⟩ := List.getElem_of_mem ((hmem y).mpr hy)
    exact ⟨⟨i, hlen ▸ hi⟩, by rw [hget]; exact hiy⟩
  have hends (i : Fin 5) : sorted.getD i 0 ∈ xs ++ [x] := by
    rw [hget, ← hmem]
    exact List.getElem_mem _
  have hobserve : ({ new p with count := xs.length, initial := xs } :
      P2QuantileEstimator).observe x =
        { new p with
          count := 5
          initial := sorted
          q := fun i => sorted.getD i 0
          n := fun i => i + 1 } := by
    rw [observe, if_pos (by dsimp only; omega), if_pos (by dsimp only; omega), h, hsorted]
    rfl
  rw [hobserve]
  refine ⟨by simp [h], ⟨hmono, fun i => i + 1, ?_, fun i => by push_cast; rfl⟩, ⟨hends 0, ?_⟩,
    ⟨hends 4, ?_⟩, by simp, by norm_num⟩
  · exact fun a b hab => Nat.add_lt_add_right hab 1
  · intro y hy
    obtain ⟨i, rfl⟩ := hbound y hy
    exact hmono (Fin.zero_le i)
  · intro y hy
    obtain ⟨i, rfl⟩ := hbound y hy
    exact hmono (Fin.le_last i)

/-- **From the fifth observation on the markers are settled.** -/
theorem settled_after {p : ℚ} (h : 5 ≤ xs.length) : Settled xs (after p xs) := by
  induction xs using List.reverseRecOn with
  | nil => simp at h
  | append_singleton xs x ih =>
      rw [List.length_append, List.length_singleton] at h
      rw [after_append]
      rcases Nat.lt_or_ge xs.length 5 with hearly | hlate
      · rw [after_early hearly]
        exact settled_fifth (by omega)
      · exact (ih hlate).observe hlate

/-! ### No division by zero -/

theorem Ordered.denominators_ne_zero (h : e.Ordered) (hi : i ≠ 0) (hi' : i ≠ 4) :
    ∀ d ∈ e.denominators i, d ≠ 0 := by
  have hprev := h.strictMono (pred_lt hi)
  have hnext := h.strictMono (lt_succ hi')
  simp only [denominators, List.forall_mem_cons, List.not_mem_nil, false_implies, implies_true,
    and_true]
  exact ⟨by linarith, by linarith, by linarith, by linarith⟩

/-- Whenever an inner marker is adjusted, nothing is divided by zero. -/
theorem Ordered.adjusts_defined (h : e.Ordered) {done rest : List (Fin 5)}
    (hsplit : [1, 2, 3] = done ++ i :: rest) :
    ∀ d ∈ (done.foldl P2QuantileEstimator.adjust (e.shifted x)).denominators i, d ≠ 0 := by
  have hinner : ∀ j ∈ done ++ i :: rest, j ≠ 0 ∧ j ≠ 4 := hsplit ▸ by decide
  obtain ⟨hi, hi'⟩ := hinner i (by simp)
  exact ((h.shifted.1.foldl_adjust fun j hj => hinner j (by simp [hj])).1).denominators_ne_zero
    hi hi'

/-- **From the fifth observation on the markers are sorted between the least and the greatest
observation, their positions increase from one to the count, a further observation divides by
nothing that is zero, and the estimate is within the observations.** -/
theorem settled_and_estimate (p : ℚ) (xs : List ℚ) (h : 5 ≤ xs.length) :
    Settled xs (after p xs) ∧
    (∀ x, (after p xs).observe x = [1, 2, 3].foldl adjust ((after p xs).shifted x) ∧
      ∀ (done rest : List (Fin 5)) (i : Fin 5), [1, 2, 3] = done ++ i :: rest →
        ∀ d ∈ (done.foldl adjust ((after p xs).shifted x)).denominators i, d ≠ 0) ∧
    ∃ v lo hi, (after p xs).estimate = some v ∧ IsLeast {y | y ∈ xs} lo ∧
      IsGreatest {y | y ∈ xs} hi ∧ lo ≤ v ∧ v ≤ hi := by
  have hsettled : Settled xs (after p xs) := settled_after h
  have hcount : 5 ≤ (after p xs).count := hsettled.counted.symm ▸ h
  refine ⟨hsettled, fun x => ⟨observe_eq hcount, fun done rest i hsplit =>
    hsettled.ordered.adjusts_defined hsplit⟩, (after p xs).q 2, (after p xs).q 0, (after p xs).q 4,
    if_neg (by omega), hsettled.least, hsettled.greatest, ?_, ?_⟩
  · exact hsettled.ordered.heights (by decide)
  · exact hsettled.ordered.heights (by decide)

/-- Six growths, of which the last is the least. -/
theorem settled_and_estimate_six :
    5 ≤ [700, 300, 900, 400, 800, (100 : ℚ)].length ∧
      Settled [700, 300, 900, 400, 800, 100]
        (after (95 / 100) [700, 300, 900, 400, 800, 100]) :=
  ⟨by decide, (settled_and_estimate (95 / 100) _ (by decide)).1⟩

end ClawDesk.Domain.P2QuantileEstimator
