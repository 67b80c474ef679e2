import ClawDesk.Acp.RollingHash

/-!
# The rolling hash in machine words

The hash as it runs: residues are 64-bit words, sums and products are taken in 128
bits and reduced.  A computation carries the reductions it makes, so that what holds of
every intermediate word can be said (`Reduction.Fits`).  Each function computes the
number its counterpart on the natural numbers computes, with reductions that all fit
(`Computes`).

Lengths and exponents only count, and are natural numbers here.
-/

namespace ClawDesk.Acp

/-- One reduction modulo the prime: the exact sum or product, and the word left of it. -/
structure Reduction where
  exact : ℕ
  residue : UInt64

/-- The exact value is a 128-bit one, and the word is below the modulus. -/
def Reduction.Fits (r : Reduction) : Prop := r.exact < 2 ^ 128 ∧ r.residue.toNat < mersenne61

/-- A value and the reductions made on the way to it. -/
structure Reduced (α : Type) where
  value : α
  reductions : List Reduction

namespace Reduced

instance : Monad Reduced where
  pure a := ⟨a, []⟩
  bind c f := ⟨(f c.value).value, c.reductions ++ (f c.value).reductions⟩

/-- Every reduction made fits. -/
def Fit {α : Type} (c : Reduced α) : Prop := ∀ r ∈ c.reductions, r.Fits

@[simp] theorem value_pure {α : Type} (a : α) : (pure a : Reduced α).value = a := rfl

@[simp] theorem value_bind {α β : Type} (c : Reduced α) (f : α → Reduced β) :
    (c >>= f).value = (f c.value).value := rfl

theorem fit_pure {α : Type} (a : α) : (pure a : Reduced α).Fit := by
  intro r hr
  cases hr

theorem Fit.bind {α β : Type} {c : Reduced α} {f : α → Reduced β} (hc : c.Fit)
    (hf : (f c.value).Fit) : (c >>= f).Fit := by
  intro r hr
  rcases List.mem_append.mp hr with hr | hr
  · exact hc r hr
  · exact hf r hr

end Reduced

/-- The computation gives the word of this number, and all its reductions fit. -/
structure Computes (c : Reduced UInt64) (n : ℕ) : Prop where
  toNat_eq : c.value.toNat = n
  fit : c.Fit

theorem computes_pure (word : UInt64) : Computes (pure word) word.toNat :=
  ⟨rfl, Reduced.fit_pure word⟩

/-- Two computations in sequence. -/
theorem Computes.bind {c : Reduced UInt64} {f : UInt64 → Reduced UInt64} {n m : ℕ}
    (hc : Computes c n) (hf : ∀ word : UInt64, word.toNat = n → Computes (f word) m) :
    Computes (c >>= f) m :=
  ⟨(hf c.value hc.toNat_eq).toNat_eq, hc.fit.bind (hf c.value hc.toNat_eq).fit⟩

namespace Machine

/-- Reduce a 128-bit value, which wraps around, and keep the low 64 bits. -/
def reduce (exact : ℕ) : Reduced UInt64 :=
  let residue := UInt64.ofNat (exact % 2 ^ 128 % mersenne61)
  ⟨residue, [⟨exact, residue⟩]⟩

/-- Modular multiplication, using 128 bits to avoid overflow. -/
def modMul (a b : UInt64) : Reduced UInt64 := reduce (a.toNat * b.toNat)

/-- Modular addition. -/
def modAdd (a b : UInt64) : Reduced UInt64 := reduce (a.toNat + b.toNat)

/-- The loop of `mod_pow`, for at most the given number of rounds. -/
def modPowLoop : ℕ → UInt64 → UInt64 → ℕ → Reduced UInt64
  | 0, result, _, _ => pure result
  | rounds + 1, result, base, exp =>
      if exp = 0 then pure result
      else do
        let result ← (if exp % 2 = 1 then modMul result base else pure result)
        let base ← (if 0 < exp / 2 then modMul base base else pure base)
        modPowLoop rounds result base (exp / 2)

/-- Modular exponentiation, via binary exponentiation. -/
def modPow (base : UInt64) (exp : ℕ) : Reduced UInt64 :=
  if exp = 0 then pure 1
  else do
    let base ← reduce base.toNat
    modPowLoop exp 1 base exp

/-- The loop of `hash_bytes`, from the hash so far. -/
def hashFrom (h : UInt64) : List UInt8 → Reduced UInt64
  | [] => pure h
  | byte :: data => do
      let product ← modMul h (UInt64.ofNat hashBase)
      let h ← modAdd product byte.toUInt64
      hashFrom h data

/-- Hash a byte slice. -/
def hashBytes (data : List UInt8) : Reduced UInt64 := hashFrom 0 data

/-- The rolling hash, in words. -/
structure RollingHash where
  hash : UInt64
  pPower : UInt64

namespace RollingHash

def new : RollingHash where
  hash := 0
  pPower := 1

/-- Append bytes and update the hash. -/
def append (h : RollingHash) (data : List UInt8) : Reduced RollingHash :=
  if data = [] then pure h
  else do
    let pPow ← modPow (UInt64.ofNat hashBase) data.length
    let chunkHash ← hashBytes data
    let product ← modMul h.hash pPow
    let hash ← modAdd product chunkHash
    let pPower ← modMul h.pPower pPow
    pure ⟨hash, pPower⟩

/-- Append one chunk after the other. -/
def appendAll (h : RollingHash) : List (List UInt8) → Reduced RollingHash
  | [] => pure h
  | chunk :: chunks => do
      let h ← h.append chunk
      h.appendAll chunks

end RollingHash

/-! ### The words computed -/

/-- **A reduction** of a value that fits in 128 bits. -/
theorem computes_reduce {exact : ℕ} (h : exact < 2 ^ 128) :
    Computes (reduce exact) (exact % mersenne61) := by
  have hlt : exact % mersenne61 < mersenne61 := Nat.mod_lt _ (by decide)
  have hvalue : (UInt64.ofNat (exact % 2 ^ 128 % mersenne61)).toNat = exact % mersenne61 := by
    rw [Nat.mod_eq_of_lt h, UInt64.toNat_ofNat']
    exact Nat.mod_eq_of_lt (hlt.trans (by decide))
  refine ⟨hvalue, fun r hr => ?_⟩
  obtain rfl : r = ⟨exact, _⟩ := List.mem_singleton.mp hr
  exact ⟨h, hvalue.trans_lt hlt⟩

theorem computes_modMul (a b : UInt64) : Computes (modMul a b) (Acp.modMul a.toNat b.toNat) := by
  refine computes_reduce ?_
  calc a.toNat * b.toNat < 2 ^ 64 * 2 ^ 64 := Nat.mul_lt_mul'' a.toNat_lt b.toNat_lt
    _ = 2 ^ 128 := by norm_num

theorem computes_modAdd (a b : UInt64) : Computes (modAdd a b) (Acp.modAdd a.toNat b.toNat) := by
  have ha : a.toNat < 2 ^ 64 := a.toNat_lt
  have hb : b.toNat < 2 ^ 64 := b.toNat_lt
  exact computes_reduce (by omega)

/-- **The loop of the power** takes the steps of the loop on the natural numbers. -/
theorem computes_modPowLoop (rounds : ℕ) (result base : UInt64) (exp : ℕ) :
    Computes (modPowLoop rounds result base exp)
      (Acp.modPowLoop rounds result.toNat base.toNat exp) := by
  induction rounds generalizing result base exp with
  | zero => exact computes_pure result
  | succ rounds ih =>
      unfold modPowLoop Acp.modPowLoop
      by_cases hzero : exp = 0
      · rw [if_pos hzero, if_pos hzero]
        exact computes_pure result
      · rw [if_neg hzero, if_neg hzero]
        -- one reduction for an odd exponent, one for the square, none in the last round
        have hresult : Computes (if exp % 2 = 1 then modMul result base else pure result)
            (if exp % 2 = 1 then Acp.modMul result.toNat base.toNat else result.toNat) := by
          split_ifs
          · exact computes_modMul result base
          · exact computes_pure result
        have hbase : Computes (if 0 < exp / 2 then modMul base base else pure base)
            (if 0 < exp / 2 then Acp.modMul base.toNat base.toNat else base.toNat) := by
          split_ifs
          · exact computes_modMul base base
          · exact computes_pure base
        refine hresult.bind fun result' hresult' => hbase.bind fun base' hbase' => ?_
        rw [← hresult', ← hbase']
        exact ih result' base' (exp / 2)

theorem computes_modPow (base : UInt64) (exp : ℕ) :
    Computes (modPow base exp) (base.toNat ^ exp % mersenne61) := by
  rw [← Acp.modPow_eq]
  unfold modPow Acp.modPow
  by_cases hzero : exp = 0
  · rw [if_pos hzero, if_pos hzero]
    exact computes_pure 1
  · rw [if_neg hzero, if_neg hzero]
    refine (computes_reduce (base.toNat_lt.trans (by decide))).bind fun base' hbase' => ?_
    rw [← hbase']
    exact computes_modPowLoop exp 1 base' exp

theorem computes_hashFrom (data : List UInt8) (h : UInt64) :
    Computes (hashFrom h data)
      (data.foldl (fun h byte => Acp.modAdd (Acp.modMul h hashBase) byte.toNat) h.toNat) := by
  induction data generalizing h with
  | nil => exact computes_pure h
  | cons byte data ih =>
      refine (computes_modMul h (UInt64.ofNat hashBase)).bind fun product hproduct => ?_
      refine (computes_modAdd product byte.toUInt64).bind fun h' hh' => ?_
      have hstep : h'.toNat = Acp.modAdd (Acp.modMul h.toNat hashBase) byte.toNat := by
        rw [hh', hproduct, UInt8.toNat_toUInt64]
        rfl
      rw [List.foldl_cons, ← hstep]
      exact ih h'

theorem computes_hashBytes (data : List UInt8) :
    Computes (hashBytes data) (Acp.hashBytes data) := computes_hashFrom data 0

namespace RollingHash

/-- The rolling hash on the natural numbers that the words stand for. -/
def toNat (h : RollingHash) : Acp.RollingHash := ⟨h.hash.toNat, h.pPower.toNat⟩

/-- **One append** computes the words of the append on the natural numbers. -/
theorem append_spec (h : RollingHash) (data : List UInt8) :
    (h.append data).value.toNat = h.toNat.append data ∧ (h.append data).Fit := by
  unfold append Acp.RollingHash.append
  by_cases hdata : data = []
  · rw [if_pos hdata, if_pos hdata]
    exact ⟨rfl, Reduced.fit_pure h⟩
  · rw [if_neg hdata, if_neg hdata, Acp.modPow_eq]
    obtain ⟨hpow, hfitPow⟩ := computes_modPow (UInt64.ofNat hashBase) data.length
    obtain ⟨hchunk, hfitChunk⟩ := computes_hashBytes data
    obtain ⟨hproduct, hfitProduct⟩ :=
      computes_modMul h.hash (modPow (UInt64.ofNat hashBase) data.length).value
    obtain ⟨hhash, hfitHash⟩ := computes_modAdd
      (modMul h.hash (modPow (UInt64.ofNat hashBase) data.length).value).value
      (hashBytes data).value
    obtain ⟨hpower, hfitPower⟩ :=
      computes_modMul h.pPower (modPow (UInt64.ofNat hashBase) data.length).value
    constructor
    · have hbase : (UInt64.ofNat hashBase).toNat = hashBase := rfl
      rw [hbase] at hpow
      rw [hproduct, hchunk, hpow] at hhash
      rw [hpow] at hpower
      exact congrArg₂ Acp.RollingHash.mk hhash hpower
    · exact hfitPow.bind (hfitChunk.bind (hfitProduct.bind (hfitHash.bind
        (hfitPower.bind (Reduced.fit_pure _)))))

theorem appendAll_spec (h : RollingHash) (chunks : List (List UInt8)) :
    (h.appendAll chunks).value.toNat = chunks.foldl Acp.RollingHash.append h.toNat ∧
      (h.appendAll chunks).Fit := by
  induction chunks generalizing h with
  | nil => exact ⟨rfl, Reduced.fit_pure h⟩
  | cons chunk chunks ih =>
      obtain ⟨hvalue, hfit⟩ := h.append_spec chunk
      obtain ⟨hrest, hfitRest⟩ := ih (h.append chunk).value
      refine ⟨?_, hfit.bind hfitRest⟩
      rw [List.foldl_cons, ← hvalue, ← hrest]
      rfl

end RollingHash

end Machine

/-- Appending chunk after chunk is hashing what they make together. -/
theorem RollingHash.foldl_append_fromData (chunks : List (List UInt8)) (data : List UInt8) :
    chunks.foldl append (fromData data) = fromData (data ++ chunks.flatten) := by
  induction chunks generalizing data with
  | nil => rw [List.flatten_nil, List.append_nil, List.foldl_nil]
  | cons chunk chunks ih =>
      rw [List.foldl_cons, fromData_append, ih, List.flatten_cons, List.append_assoc]

/-- **The hash does not depend on the chunks, and nothing overflows on the way to it.**
The power is the power of the base for the whole length, the exponentiation is right for
every base and exponent, and every word computed is below the modulus. -/
theorem hash_of_chunks (chunks : List (List UInt8)) (base : UInt64) (exp : ℕ) :
    (Machine.RollingHash.new.appendAll chunks).value.hash =
        (Machine.hashBytes chunks.flatten).value ∧
      (Machine.RollingHash.new.appendAll chunks).value.pPower.toNat =
        hashBase ^ chunks.flatten.length % mersenne61 ∧
      (Machine.modPow base exp).value.toNat = base.toNat ^ exp % mersenne61 ∧
      (∀ r ∈ (Machine.RollingHash.new.appendAll chunks).reductions ++
          (Machine.hashBytes chunks.flatten).reductions ++ (Machine.modPow base exp).reductions,
        r.exact < 2 ^ 128 ∧ r.residue.toNat < mersenne61) := by
  obtain ⟨hvalue, hfit⟩ := Machine.RollingHash.new.appendAll_spec chunks
  obtain ⟨hwhole, hfitWhole⟩ := Machine.computes_hashBytes chunks.flatten
  obtain ⟨hpow, hfitPow⟩ := Machine.computes_modPow base exp
  have hfold : (Machine.RollingHash.new.appendAll chunks).value.toNat =
      ⟨hashBytes chunks.flatten, modPow hashBase chunks.flatten.length⟩ := by
    rw [hvalue, ← RollingHash.fromData_eq]
    exact RollingHash.foldl_append_fromData chunks []
  refine ⟨?_, ?_, hpow, ?_⟩
  · apply UInt64.toNat.inj
    rw [hwhole]
    exact congrArg RollingHash.hash hfold
  · rw [← modPow_eq]
    exact congrArg RollingHash.pPower hfold
  · intro r hr
    rcases List.mem_append.mp hr with hr | hr
    · rcases List.mem_append.mp hr with hr | hr
      · exact hfit r hr
      · exact hfitWhole r hr
    · exact hfitPow r hr

end ClawDesk.Acp
