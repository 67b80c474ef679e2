import ClawDesk.Foundations.Radix
import Mathlib.Data.Nat.Digits.Lemmas
import Mathlib.Data.List.Lex

/-!
# Texts put together from parts

A text whose last or first part has no separator in it is cut uniquely there
(`eq_of_append_sep`, `eq_of_sep_append`).

`decimal w n` prints `n` in base ten, padded on the left with zeros to at least
`w` characters.  Printing loses nothing (`decimal_injective`), and among numbers
that fit the width the order of the texts is the order of the numbers
(`decimal_lt_decimal`).  A number that does not fit is printed in full, so beyond
the width the two orders part.
-/

namespace ClawDesk.Foundations

/-! ### Separators -/

section Separator

variable {α : Type} {sep : α} {l₁ l₂ r₁ r₂ : List α}

/-- A text is cut uniquely at its first separator. -/
theorem eq_of_append_sep (h₁ : sep ∉ l₁) (h₂ : sep ∉ l₂)
    (h : l₁ ++ sep :: r₁ = l₂ ++ sep :: r₂) : l₁ = l₂ ∧ r₁ = r₂ := by
  induction l₁ generalizing l₂ with
  | nil =>
      cases l₂ with
      | nil => exact ⟨rfl, by simpa using h⟩
      | cons c l₂ =>
          obtain ⟨rfl, -⟩ := List.cons.inj h
          exact absurd List.mem_cons_self h₂
  | cons c l₁ ih =>
      cases l₂ with
      | nil =>
          obtain ⟨rfl, -⟩ := List.cons.inj h
          exact absurd List.mem_cons_self h₁
      | cons d l₂ =>
          obtain ⟨rfl, htail⟩ := List.cons.inj h
          obtain ⟨rfl, rfl⟩ := ih (fun hc => h₁ (List.mem_cons_of_mem _ hc))
            (fun hc => h₂ (List.mem_cons_of_mem _ hc)) htail
          exact ⟨rfl, rfl⟩

/-- …and at its last one. -/
theorem eq_of_sep_append (h₁ : sep ∉ r₁) (h₂ : sep ∉ r₂)
    (h : l₁ ++ sep :: r₁ = l₂ ++ sep :: r₂) : l₁ = l₂ ∧ r₁ = r₂ := by
  have hrev : r₁.reverse ++ sep :: l₁.reverse = r₂.reverse ++ sep :: l₂.reverse := by
    simpa using congrArg List.reverse h
  obtain ⟨hr, hl⟩ := eq_of_append_sep (by simpa using h₁) (by simpa using h₂) hrev
  exact ⟨List.reverse_injective hl, List.reverse_injective hr⟩

/-- Up to a separator, a text begins another one at one of that one's separators. -/
theorem sep_prefix_iff {l m r : List α} : l ++ [sep] <+: m ++ sep :: r ↔
    l ++ [sep] <+: m ∨ l = m ∨ ∃ l', l = m ++ sep :: l' ∧ l' ++ [sep] <+: r := by
  induction m generalizing l with
  | nil =>
      cases l with
      | nil => simp
      | cons c l =>
          rw [List.nil_append, List.cons_append, List.cons_prefix_cons]
          constructor
          · rintro ⟨rfl, hprefix⟩
            exact Or.inr (Or.inr ⟨l, rfl, hprefix⟩)
          · rintro (hnil | hnil | ⟨l', heq, hprefix⟩)
            · simp at hnil
            · simp at hnil
            · obtain ⟨rfl, rfl⟩ := List.cons.inj heq
              exact ⟨rfl, hprefix⟩
  | cons c m ih =>
      cases l with
      | nil => simp [List.cons_prefix_cons]
      | cons d l =>
          rw [List.cons_append, List.cons_append, List.cons_prefix_cons, ih,
            List.cons_prefix_cons, List.cons.injEq]
          simp only [List.cons_append, List.cons.injEq, and_assoc, ← and_or_left,
            exists_and_left]

theorem not_prefix_sep {l m : List α} (h : sep ∉ m) : ¬ l ++ [sep] <+: m := fun hpre =>
  h (hpre.subset (List.mem_append_right l List.mem_cons_self))

/-- A text without a separator is not one that has one. -/
theorem ne_append_sep {l l' r : List α} (h : sep ∉ l) : l ≠ l' ++ sep :: r := by
  rintro rfl
  exact h (by simp)

end Separator

/-! ### Lexicographic order -/

/-- What follows two different texts of one length does not change their order. -/
theorem append_lt_append {α : Type} [LT α] {l m s t : List α} (hlen : l.length = m.length)
    (h : l < m) : l ++ s < m ++ t := by
  induction l generalizing m with
  | nil =>
      obtain rfl := List.eq_nil_of_length_eq_zero hlen.symm
      cases h
  | cons a l ih =>
      rcases h with _ | h | h
      · exact List.Lex.rel h
      · exact List.Lex.cons (ih (by simpa using hlen) h)

/-! ### Zero-padded decimals -/

/-- The decimal digits of `n`, most significant first. -/
def bigEndian (n : ℕ) : List ℕ := (Nat.digits 10 n).reverse

/-- The value of a list of digits, most significant first. -/
def ofBigEndian (ds : List ℕ) : ℕ := Nat.ofDigits 10 ds.reverse

/-- The digits of `n`, padded with zeros to the width `w`. -/
def paddedDigits (w n : ℕ) : List ℕ :=
  List.replicate (w - (bigEndian n).length) 0 ++ bigEndian n

/-- The character of a digit. -/
def digitChar (d : ℕ) : Char := Char.ofNat (48 + d)

/-- `n` in decimal, zero-padded to the width `w`. -/
def decimal (w n : ℕ) : List Char := (paddedDigits w n).map digitChar

theorem ofBigEndian_cons (d : ℕ) (ds : List ℕ) :
    ofBigEndian (d :: ds) = 10 ^ ds.length * d + ofBigEndian ds := by
  simp [ofBigEndian, Nat.ofDigits_append]
  ring

theorem ofBigEndian_replicate_append (k : ℕ) (ds : List ℕ) :
    ofBigEndian (List.replicate k 0 ++ ds) = ofBigEndian ds := by
  induction k with
  | zero => rfl
  | succ k ih => rw [List.replicate_succ, List.cons_append, ofBigEndian_cons, ih]; simp

theorem mem_bigEndian_lt {n d : ℕ} (h : d ∈ bigEndian n) : d < 10 :=
  Nat.digits_lt_base (by norm_num) (List.mem_reverse.mp h)

theorem mem_paddedDigits_lt {w n d : ℕ} (h : d ∈ paddedDigits w n) : d < 10 := by
  rcases List.mem_append.mp h with hzero | hdigit
  · rw [List.eq_of_mem_replicate hzero]
    norm_num
  · exact mem_bigEndian_lt hdigit

/-- The value is read back from the padded digits. -/
theorem ofBigEndian_paddedDigits (w n : ℕ) : ofBigEndian (paddedDigits w n) = n := by
  rw [paddedDigits, ofBigEndian_replicate_append]
  simp [ofBigEndian, bigEndian, Nat.ofDigits_digits]

/-- A number below `10 ^ w` is printed in exactly `w` characters. -/
theorem length_paddedDigits {w n : ℕ} (h : n < 10 ^ w) : (paddedDigits w n).length = w :=
  Radix.length_spell (by norm_num) h

theorem digitChar_toNat {d : ℕ} (h : d < 10) : (digitChar d).toNat = 48 + d := by
  interval_cases d <;> rfl

theorem digitChar_lt {d e : ℕ} (hd : d < 10) (he : e < 10) (h : d < e) :
    digitChar d < digitChar e := by
  interval_cases e <;> interval_cases d <;> first | omega | decide

/-- Only digits are printed. -/
theorem notMem_decimal {c : Char} (h : c.toNat < 48 ∨ 58 ≤ c.toNat) (w n : ℕ) :
    c ∉ decimal w n := by
  intro hmem
  obtain ⟨d, hd, hchar⟩ := List.mem_map.mp hmem
  have htoNat := congrArg Char.toNat hchar
  have hlt := mem_paddedDigits_lt hd
  rw [digitChar_toNat hlt] at htoNat
  omega

/-- Printed digits are never a colon. -/
theorem colon_notMem_decimal (w n : ℕ) : ':' ∉ decimal w n :=
  notMem_decimal (Or.inr (le_refl 58)) w n

theorem map_toNat_map_digitChar {ds : List ℕ} (hds : ∀ d ∈ ds, d < 10) :
    (ds.map digitChar).map (fun c => c.toNat - 48) = ds := by
  rw [List.map_map]
  conv_rhs => rw [← List.map_id ds]
  refine List.map_congr_left fun d hd => ?_
  simp [digitChar_toNat (hds d hd)]

/-- **Printing loses nothing.** -/
theorem decimal_injective (w : ℕ) : Function.Injective (decimal w) := by
  intro m n h
  have hdigits : paddedDigits w m = paddedDigits w n := by
    rw [← map_toNat_map_digitChar fun _ => mem_paddedDigits_lt (w := w) (n := m),
      ← map_toNat_map_digitChar fun _ => mem_paddedDigits_lt (w := w) (n := n)]
    exact congrArg _ h
  rw [← ofBigEndian_paddedDigits w m, hdigits, ofBigEndian_paddedDigits]

/-- Digit lists of one length are ordered like their values. -/
theorem map_digitChar_lt {ds es : List ℕ} (hds : ∀ d ∈ ds, d < 10) (hes : ∀ e ∈ es, e < 10)
    (hlen : ds.length = es.length) (h : ofBigEndian ds < ofBigEndian es) :
    ds.map digitChar < es.map digitChar :=
  Radix.map_lt_map (fun _ _ hlt he => digitChar_lt (hlt.trans he) he hlt) (by norm_num) hds hes
    hlen h

/-- **Below `10 ^ w` the texts are ordered like the numbers.** -/
theorem decimal_lt_decimal {w m n : ℕ} (hn : n < 10 ^ w) (h : m < n) :
    decimal w m < decimal w n := by
  refine map_digitChar_lt (fun _ => mem_paddedDigits_lt) (fun _ => mem_paddedDigits_lt) ?_ ?_
  · rw [length_paddedDigits (h.trans hn), length_paddedDigits hn]
  · rwa [ofBigEndian_paddedDigits, ofBigEndian_paddedDigits]

end ClawDesk.Foundations
