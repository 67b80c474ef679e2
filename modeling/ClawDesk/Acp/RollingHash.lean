import Mathlib.Data.List.Induction
import Mathlib.Data.Nat.Digits.Defs
import Mathlib.Data.Nat.ModEq

/-!
# The rolling hash

A polynomial hash modulo the Mersenne prime `2^61 - 1`.  The hash of a text
extended by a chunk is computed from the hash of the text and the chunk alone, so
a state is carried along and extended (`fromData_append`).  Products are taken in
128 bits, which they fit in.
-/

namespace ClawDesk.Acp

/-- Mersenne prime `2^61 - 1`. -/
def mersenne61 : ℕ := 2 ^ 61 - 1

/-- Hash base. -/
def hashBase : ℕ := 131

def modMul (a b : ℕ) : ℕ := a * b % mersenne61

def modAdd (a b : ℕ) : ℕ := (a + b) % mersenne61

/-- The loop of `mod_pow`, for at most the given number of rounds. -/
def modPowLoop : ℕ → ℕ → ℕ → ℕ → ℕ
  | 0, result, _, _ => result
  | rounds + 1, result, base, exp =>
      if exp = 0 then result
      else
        modPowLoop rounds (if exp % 2 = 1 then modMul result base else result)
          (if 0 < exp / 2 then modMul base base else base) (exp / 2)

/-- Modular exponentiation.  The exponent is halved in every round. -/
def modPow (base exp : ℕ) : ℕ :=
  if exp = 0 then 1 else modPowLoop exp 1 (base % mersenne61) exp

/-- Hash a byte slice. -/
def hashBytes (data : List UInt8) : ℕ :=
  data.foldl (fun h byte => modAdd (modMul h hashBase) byte.toNat) 0

/-- Composable polynomial rolling hash: the hash, and the power of the base. -/
structure RollingHash where
  hash : ℕ
  pPower : ℕ
  deriving DecidableEq

namespace RollingHash

def new : RollingHash where
  hash := 0
  pPower := 1

/-- Append bytes and update the hash. -/
def append (h : RollingHash) (data : List UInt8) : RollingHash :=
  if data = [] then h
  else
    let pPow := modPow hashBase data.length
    { hash := modAdd (modMul h.hash pPow) (hashBytes data)
      pPower := modMul h.pPower pPow }

/-- Initialize from existing data. -/
def fromData (data : List UInt8) : RollingHash := new.append data

/-- Restore from checkpoint state. -/
def fromCheckpointState (hash pPower : ℕ) : RollingHash := ⟨hash, pPower⟩

def value (h : RollingHash) : ℕ := h.hash

/-- The accumulated power. -/
def power (h : RollingHash) : ℕ := h.pPower

def compute (data : List UInt8) : ℕ := hashBytes data

end RollingHash

/-! ### What is computed -/

/-- **The loop**, for a base that is reduced already. -/
theorem modPowLoop_modEq {rounds result base exp : ℕ} (hrounds : exp ≤ rounds) :
    modPowLoop rounds result base exp ≡ result * base ^ exp [MOD mersenne61] := by
  induction rounds generalizing result base exp with
  | zero =>
      obtain rfl : exp = 0 := Nat.le_zero.mp hrounds
      rw [modPowLoop, pow_zero, mul_one]
  | succ rounds ih =>
      unfold modPowLoop
      split_ifs with hzero hodd hhalf hhalf
      · rw [hzero, pow_zero, mul_one]
      all_goals refine (ih (by omega)).trans ?_
      · -- `exp = 2 k + 1` with `k > 0`
        calc modMul result base * modMul base base ^ (exp / 2)
            ≡ result * base * (base * base) ^ (exp / 2) [MOD mersenne61] :=
              (Nat.mod_modEq _ _).mul ((Nat.mod_modEq _ _).pow _)
          _ = result * base ^ exp := by
              rw [← pow_two, ← pow_mul, mul_assoc, ← pow_succ']
              congr 2
              omega
      · -- `exp = 1`
        obtain rfl : exp = 1 := by omega
        rw [pow_one]
        show modMul result base * modMul base base ^ 0 ≡ _ [MOD _]
        rw [pow_zero, mul_one]
        exact Nat.mod_modEq _ _
      · calc result * modMul base base ^ (exp / 2)
            ≡ result * (base * base) ^ (exp / 2) [MOD mersenne61] :=
              ((Nat.mod_modEq _ _).pow _).mul_left _
          _ = result * base ^ exp := by
              rw [← pow_two, ← pow_mul]
              congr 2
              omega
      · omega

theorem modPowLoop_lt {rounds result base exp : ℕ} (hresult : result < mersenne61) :
    modPowLoop rounds result base exp < mersenne61 := by
  induction rounds generalizing result base exp with
  | zero => exact hresult
  | succ rounds ih =>
      unfold modPowLoop
      split_ifs
      · exact hresult
      all_goals exact ih (by first | exact Nat.mod_lt _ (by decide) | exact hresult)

theorem modPow_eq (base exp : ℕ) : modPow base exp = base ^ exp % mersenne61 := by
  unfold modPow
  split_ifs with hzero
  · rw [hzero]
    rfl
  · have hmod : modPowLoop exp 1 (base % mersenne61) exp ≡ base ^ exp [MOD mersenne61] := by
      refine (modPowLoop_modEq le_rfl).trans ?_
      rw [one_mul]
      exact (Nat.mod_modEq _ _).pow _
    rw [← hmod, Nat.mod_eq_of_lt (modPowLoop_lt (by decide))]

/-- The hash of a text is its value as a number in the given base. -/
theorem hashBytes_eq (data : List UInt8) :
    hashBytes data = Nat.ofDigits hashBase (data.reverse.map UInt8.toNat) % mersenne61 := by
  induction data using List.reverseRecOn with
  | nil => rfl
  | append_singleton data byte ih =>
      have hfold : hashBytes (data ++ [byte]) =
          modAdd (modMul (hashBytes data) hashBase) byte.toNat := by
        rw [hashBytes, List.foldl_append]
        rfl
      rw [hfold, ih, List.reverse_append, List.map_append, List.reverse_singleton,
        List.map_singleton, List.singleton_append, Nat.ofDigits_cons, modAdd, modMul]
      simp only [Nat.add_mod, Nat.mul_mod, Nat.mod_mod]
      rw [Nat.add_comm, Nat.mul_comm]

/-- **The hash composes.** -/
theorem hashBytes_append (data chunk : List UInt8) :
    hashBytes (data ++ chunk) =
      modAdd (modMul (hashBytes data) (modPow hashBase chunk.length)) (hashBytes chunk) := by
  rw [hashBytes_eq, hashBytes_eq, hashBytes_eq, modPow_eq, List.reverse_append, List.map_append,
    Nat.ofDigits_append, List.length_map, List.length_reverse, modAdd, modMul]
  simp only [Nat.add_mod, Nat.mul_mod, Nat.mod_mod]
  rw [Nat.add_comm, Nat.mul_comm]

namespace RollingHash

theorem hashBytes_lt (data : List UInt8) : hashBytes data < mersenne61 := by
  rw [hashBytes_eq]
  exact Nat.mod_lt _ (by decide)

theorem fromData_eq (data : List UInt8) :
    fromData data = ⟨hashBytes data, modPow hashBase data.length⟩ := by
  unfold fromData append
  split_ifs with hdata
  · rw [hdata]
    rfl
  · have hlt : hashBytes data < mersenne61 := hashBytes_lt data
    simp only [new, modMul, modAdd, Nat.zero_mul, Nat.zero_mod, Nat.zero_add, Nat.one_mul,
      Nat.mod_eq_of_lt hlt, modPow_eq, Nat.mod_mod]

/-- **Appending a chunk is hashing the longer text.** -/
theorem fromData_append (data chunk : List UInt8) :
    (fromData data).append chunk = fromData (data ++ chunk) := by
  by_cases hchunk : chunk = []
  · simp [append, hchunk]
  · have hpower : modMul (modPow hashBase data.length) (modPow hashBase chunk.length) =
        modPow hashBase (data ++ chunk).length := by
      rw [modPow_eq, modPow_eq, modPow_eq, List.length_append, pow_add, modMul, ← Nat.mul_mod]
    rw [fromData_eq, fromData_eq, hashBytes_append, append, if_neg hchunk, ← hpower]

end RollingHash

end ClawDesk.Acp
