import Mathlib.Data.List.TakeWhile
import Mathlib.Data.Nat.Digits.Lemmas

/-!
# Numbers written out in a base, with their leading zeros

A list of digits, the most significant one first, is a number and a count of leading zeros, and
nothing more (`eq_spell`).  So two lists in two bases say the same when these two agree.

The digits of a quotient come out of a long division, which keeps no leading zero
(`longDivision_eq`), and those of `n * k + c` out of a multiplication with carries, which needs
none (`mulAdd_eq`).
-/

namespace ClawDesk.Foundations.Radix

variable {b k c n d : ℕ} {ds : List ℕ}

/-! ### A list of digits -/

/-- The number that the digits spell in base `b`. -/
def value (b : ℕ) (ds : List ℕ) : ℕ := Nat.ofDigits b ds.reverse

/-- How many zeros the digits begin with. -/
def leadingZeros (ds : List ℕ) : ℕ := (ds.takeWhile (· = 0)).length

/-- The digits of `n`, without a leading zero. -/
def digits (b n : ℕ) : List ℕ := (Nat.digits b n).reverse

/-- The digits of `n` after some zeros. -/
def spell (b zeros n : ℕ) : List ℕ := List.replicate zeros 0 ++ digits b n

@[simp] theorem value_nil : value b [] = 0 := rfl

@[simp] theorem value_append_singleton : value b (ds ++ [d]) = value b ds * b + d := by
  rw [value, List.reverse_append, List.reverse_singleton, List.singleton_append,
    Nat.ofDigits_cons, value]
  ring

@[simp] theorem digits_zero : digits b 0 = [] := by
  rw [digits, Nat.digits_zero, List.reverse_nil]

@[simp] theorem value_digits : value b (digits b n) = n := by
  rw [value, digits, List.reverse_reverse, Nat.ofDigits_digits]

theorem digits_eq_nil_iff : digits b n = [] ↔ n = 0 := by
  rw [digits, List.reverse_eq_nil_iff, Nat.digits_eq_nil_iff_eq_zero]

theorem digits_lt (hb : 1 < b) (hd : d ∈ digits b n) : d < b :=
  Nat.digits_lt_base hb (List.mem_reverse.mp hd)

/-- One more digit at the end. -/
theorem digits_mul_add (hb : 1 < b) (hd : d < b) (hne : n ≠ 0 ∨ d ≠ 0) :
    digits b (n * b + d) = digits b n ++ [d] := by
  rw [digits, mul_comm, add_comm, Nat.digits_add b hb d n hd hne.symm, List.reverse_cons, digits]

theorem value_replicate_append (zeros : ℕ) :
    value b (List.replicate zeros 0 ++ ds) = value b ds := by
  rw [value, List.reverse_append, List.reverse_replicate, Nat.ofDigits_append,
    Nat.ofDigits_replicate_zero, mul_zero, add_zero, value]

@[simp] theorem value_spell (zeros : ℕ) : value b (spell b zeros n) = n := by
  rw [spell, value_replicate_append, value_digits]

theorem spell_lt (hb : 1 < b) {zeros : ℕ} (hd : d ∈ spell b zeros n) : d < b := by
  rcases List.mem_append.mp hd with hd | hd
  · rw [List.eq_of_mem_replicate hd]
    omega
  · exact digits_lt hb hd

/-- The first digit of a number is not zero. -/
theorem leadingZeros_digits : leadingZeros (digits b n) = 0 := by
  rw [leadingZeros, List.length_eq_zero_iff]
  by_cases hn : n = 0
  · rw [hn, digits_zero, List.takeWhile_nil]
  · have hne : Nat.digits b n ≠ [] := Nat.digits_ne_nil_iff_ne_zero.mpr hn
    have hlast := Nat.getLast_digit_ne_zero b hn
    rw [digits, ← List.dropLast_append_getLast hne, List.reverse_append, List.reverse_singleton,
      List.singleton_append, List.takeWhile_cons_of_neg (by simpa using hlast)]

@[simp] theorem leadingZeros_spell (zeros : ℕ) : leadingZeros (spell b zeros n) = zeros := by
  have hfirst := leadingZeros_digits (b := b) (n := n)
  rw [leadingZeros, spell, List.takeWhile_append_of_pos (by simp), List.length_append,
    List.length_replicate, ← leadingZeros, hfirst, add_zero]

/-- **A list of digits is its number and its leading zeros.** -/
theorem eq_spell (hb : 1 < b) (hds : ∀ d ∈ ds, d < b) :
    ds = spell b (leadingZeros ds) (value b ds) := by
  have hzeros : ds.takeWhile (· = 0) = List.replicate (leadingZeros ds) 0 :=
    List.eq_replicate_of_mem fun d hd => by simpa using List.mem_takeWhile_imp hd
  have hsplit := List.takeWhile_append_dropWhile (p := (· = 0)) (l := ds)
  have hrest : digits b (value b (ds.dropWhile (· = 0))) = ds.dropWhile (· = 0) := by
    rw [digits, value, Nat.digits_ofDigits b hb _ (fun d hd => hds d
      ((List.dropWhile_suffix _).subset (List.mem_reverse.mp hd))) ?_, List.reverse_reverse]
    intro hne
    rw [List.getLast_reverse]
    exact of_decide_eq_false (List.head_dropWhile_not (· = 0) (List.reverse_ne_nil_iff.mp hne))
  have hvalue : value b ds = value b (ds.dropWhile (· = 0)) := by
    rw [← hsplit, hzeros, value_replicate_append, ← hzeros, hsplit]
  rw [spell, hvalue, hrest, ← hzeros, hsplit]

theorem value_eq_zero_iff (hb : 1 < b) (hds : ∀ d ∈ ds, d < b) :
    value b ds = 0 ↔ ∀ d ∈ ds, d = 0 := by
  constructor
  · intro hvalue d hd
    rw [eq_spell hb hds, hvalue, spell, digits_zero, List.append_nil] at hd
    exact List.eq_of_mem_replicate hd
  · intro hzero
    rw [List.eq_replicate_of_mem hzero, ← List.append_nil (List.replicate _ _),
      value_replicate_append, value_nil]

/-! ### Digit lists of one length -/

theorem value_cons : value b (d :: ds) = b ^ ds.length * d + value b ds := by
  rw [value, List.reverse_cons, Nat.ofDigits_append, List.length_reverse, Nat.ofDigits_singleton,
    value, add_comm]

theorem value_lt_pow (hb : 1 < b) (hds : ∀ d ∈ ds, d < b) : value b ds < b ^ ds.length := by
  rw [value, ← List.length_reverse]
  exact Nat.ofDigits_lt_base_pow_length hb fun d hd => hds d (List.mem_reverse.mp hd)

/-- A number below `b ^ w` has room in `w` digits. -/
theorem length_spell (hb : 1 < b) {w : ℕ} (hn : n < b ^ w) :
    (spell b (w - (digits b n).length) n).length = w := by
  have hlen : (digits b n).length ≤ w := by
    rw [digits, List.length_reverse]
    exact (Nat.digits_length_le_iff hb n).mpr hn
  rw [spell, List.length_append, List.length_replicate, Nat.sub_add_cancel hlen]

/-- Written with symbols in the order of the digits, digit lists of one length are ordered like
their values. -/
theorem map_lt_map {α : Type} [LT α] {symbol : ℕ → α}
    (hsymbol : ∀ d e, d < e → e < b → symbol d < symbol e) (hb : 1 < b) {es : List ℕ}
    (hds : ∀ d ∈ ds, d < b) (hes : ∀ e ∈ es, e < b) (hlen : ds.length = es.length)
    (h : value b ds < value b es) : ds.map symbol < es.map symbol := by
  induction ds generalizing es with
  | nil =>
      obtain rfl := List.eq_nil_of_length_eq_zero hlen.symm
      exact absurd h (lt_irrefl _)
  | cons d ds ih =>
      cases es with
      | nil => simp at hlen
      | cons e es =>
          have hlen' : ds.length = es.length := by simpa using hlen
          have hsmall : value b es < b ^ es.length :=
            value_lt_pow hb fun x hx => hes x (List.mem_cons_of_mem _ hx)
          rw [value_cons, value_cons, hlen'] at h
          rcases lt_trichotomy d e with hlt | rfl | hgt
          · exact List.Lex.rel (hsymbol d e hlt (hes e List.mem_cons_self))
          · exact List.Lex.cons (ih (fun x hx => hds x (List.mem_cons_of_mem _ hx))
              (fun x hx => hes x (List.mem_cons_of_mem _ hx)) hlen' (by omega))
          · have : b ^ es.length * (e + 1) ≤ b ^ es.length * d := Nat.mul_le_mul_left _ hgt
            rw [Nat.mul_add] at this
            omega

/-! ### Long division -/

/-- One digit brought down, with the quotient so far and the remainder; zeros in front of the
quotient are left out. -/
def bringDown (b k : ℕ) (state : List ℕ × ℕ) (d : ℕ) : List ℕ × ℕ :=
  let acc := state.2 * b + d
  (if state.1 ≠ [] ∨ 0 < acc / k then state.1 ++ [acc / k] else state.1, acc % k)

/-- The digits of the quotient by `k`, and the remainder. -/
def longDivision (b k : ℕ) (ds : List ℕ) : List ℕ × ℕ := ds.foldl (bringDown b k) ([], 0)

theorem longDivision_append_singleton :
    longDivision b k (ds ++ [d]) = bringDown b k (longDivision b k ds) d := by
  rw [longDivision, List.foldl_append, List.foldl_cons, List.foldl_nil, longDivision]

/-- A digit of the quotient is below the base. -/
theorem quotient_lt {r : ℕ} (hr : r < k) (hd : d < b) : (r * b + d) / k < b := by
  rw [Nat.div_lt_iff_lt_mul (by omega)]
  calc r * b + d < r * b + b := by omega
    _ = (r + 1) * b := by ring
    _ ≤ k * b := Nat.mul_le_mul_right b hr
    _ = b * k := mul_comm k b

/-- **Long division divides.** -/
theorem longDivision_eq (hb : 1 < b) (hk : 0 < k) (hds : ∀ d ∈ ds, d < b) :
    longDivision b k ds = (digits b (value b ds / k), value b ds % k) := by
  induction ds using List.reverseRecOn with
  | nil => simp [longDivision]
  | append_singleton ds d ih =>
      obtain ⟨hds, hd⟩ := List.forall_mem_append.mp hds
      have hd : d < b := hd d (List.mem_singleton_self d)
      have hq := quotient_lt (Nat.mod_lt (value b ds) hk) hd
      have hacc : value b ds * b + d =
          value b ds % k * b + d + k * (value b ds / k * b) := by
        conv_lhs => rw [← Nat.mod_add_div (value b ds) k]
        ring
      have hquot : (value b ds * b + d) / k =
          value b ds / k * b + (value b ds % k * b + d) / k := by
        rw [hacc, Nat.add_mul_div_left _ _ hk, add_comm]
      rw [longDivision_append_singleton, ih hds, value_append_singleton, bringDown, hquot]
      refine Prod.ext ?_ ?_
      · dsimp only
        split_ifs with hkeep
        · rw [digits_mul_add hb hq (hkeep.imp (fun hne => mt digits_eq_nil_iff.mpr hne)
            Nat.pos_iff_ne_zero.mp)]
        · obtain ⟨hnil, hzero⟩ := not_or.mp hkeep
          rw [digits_eq_nil_iff.mp (not_not.mp hnil), Nat.eq_zero_of_not_pos hzero]
          simp
      · rw [hacc, Nat.add_mul_mod_self_left]

/-! ### Multiplication with carries -/

/-- One digit multiplied, from the right, with the digits done and the carry. -/
def carryOver (b k d : ℕ) (state : List ℕ × ℕ) : List ℕ × ℕ :=
  ((d * k + state.2) % b :: state.1, (d * k + state.2) / b)

/-- The digits multiplied by `k`, with `c` added at the end. -/
def mulAdd (b k : ℕ) (ds : List ℕ) (c : ℕ) : List ℕ :=
  let state := ds.foldr (carryOver b k) ([], c)
  digits b state.2 ++ state.1

/-- The last digit of a number, and the digits in front of it. -/
theorem digits_eq_append (hb : 1 < b) (hn : n ≠ 0) : digits b n = digits b (n / b) ++ [n % b] := by
  rw [digits, Nat.digits_eq_cons_digits_div hb hn, List.reverse_cons, digits]

theorem foldr_carryOver (hb : 1 < b) (hk : 0 < k) (done : List ℕ) :
    digits b ((digits b n).foldr (carryOver b k) (done, c)).2 ++
      ((digits b n).foldr (carryOver b k) (done, c)).1 = digits b (n * k + c) ++ done := by
  induction n using Nat.strong_induction_on generalizing c done with
  | _ n ih =>
      by_cases hn : n = 0
      · rw [hn, digits_zero, List.foldr_nil, zero_mul, zero_add]
      · have hsplit : n * k + c =
            (n / b * k + (n % b * k + c) / b) * b + (n % b * k + c) % b := by
          conv_lhs => rw [← Nat.mod_add_div n b]
          linarith [Nat.mod_add_div (n % b * k + c) b]
        have hne : n / b * k + (n % b * k + c) / b ≠ 0 ∨ (n % b * k + c) % b ≠ 0 := by
          have hpos : 0 < n * k := Nat.mul_pos (Nat.pos_of_ne_zero hn) hk
          by_contra h
          obtain ⟨hquot, hrem⟩ := not_or.mp h
          rw [not_not.mp hquot, not_not.mp hrem] at hsplit
          omega
        rw [digits_eq_append hb hn, List.foldr_append, List.foldr_cons, List.foldr_nil, carryOver,
          ih (n / b) (Nat.div_lt_self (Nat.pos_of_ne_zero hn) hb), hsplit,
          digits_mul_add hb (Nat.mod_lt _ (by omega)) hne, List.append_assoc,
          List.singleton_append]

/-- **Carries multiply a number that has no leading zero.** -/
theorem mulAdd_eq (hb : 1 < b) (hk : 0 < k) : mulAdd b k (digits b n) c = digits b (n * k + c) := by
  rw [mulAdd, foldr_carryOver hb hk, List.append_nil]

end ClawDesk.Foundations.Radix
