import ClawDesk.Foundations.Radix
import ClawDesk.Foundations.Text
import Mathlib.Data.BitVec

/-!
# IP addresses and their texts

An IPv4 address is written in one way only: four decimal numbers without leading zeros, with dots in
between (`parseIpv4_iff`).  An IPv6 address has many texts; the reader takes groups of up to four
hexadecimal digits, one run of zero groups left out, and an IPv4 address in place of the last two.

A block of addresses is a network and a mask, and an address is in it exactly if it agrees with the
network in the leading bits that the mask keeps (`and_mask_eq_iff`).
-/

namespace ClawDesk.Foundations

/-! ### Addresses -/

/-- The low eight bits of a number. -/
def octet (n : ℕ) : Fin 256 := ⟨n % 256, Nat.mod_lt n (by decide)⟩

/-- An IPv4 address. -/
structure Ipv4Addr where
  a : Fin 256
  b : Fin 256
  c : Fin 256
  d : Fin 256
  deriving DecidableEq

namespace Ipv4Addr

/-- `Ipv4Addr::new`. -/
def new (a b c d : ℕ) : Ipv4Addr := ⟨octet a, octet b, octet c, octet d⟩

/-- The address as a number. -/
def toNat (ip : Ipv4Addr) : ℕ := ((ip.a * 256 + ip.b) * 256 + ip.c) * 256 + ip.d

theorem toNat_lt (ip : Ipv4Addr) : ip.toNat < 2 ^ 32 := by
  have ha := ip.a.isLt
  have hb := ip.b.isLt
  have hc := ip.c.isLt
  have hd := ip.d.isLt
  rw [toNat]
  omega

/-- `u32::from`. -/
def bits (ip : Ipv4Addr) : BitVec 32 := BitVec.ofNat 32 ip.toNat

@[simp] theorem toNat_bits (ip : Ipv4Addr) : ip.bits.toNat = ip.toNat := by
  rw [bits, BitVec.toNat_ofNat, Nat.mod_eq_of_lt ip.toNat_lt]

/-- The text of an address. -/
def display (ip : Ipv4Addr) : List Char :=
  decimal 1 ip.a ++ '.' :: (decimal 1 ip.b ++ '.' :: (decimal 1 ip.c ++ '.' :: decimal 1 ip.d))

end Ipv4Addr

/-- An address of either kind; the segments of an IPv6 address are eight numbers of 16 bits. -/
inductive IpAddr where
  | v4 (ip : Ipv4Addr)
  | v6 (segments : List ℕ)
  deriving DecidableEq

/-- The IPv4 address in the last two segments. -/
def embedded (high low : ℕ) : Ipv4Addr :=
  .new (high / 256) high (low / 256) low

/-- `Ipv6Addr::to_ipv4_mapped`. -/
def toIpv4Mapped : List ℕ → Option Ipv4Addr
  | [0, 0, 0, 0, 0, 0xffff, high, low] => some (embedded high low)
  | _ => none

/-! ### Reading numbers -/

/-- `char::to_digit`. -/
def digitValue (radix : ℕ) (c : Char) : Option ℕ :=
  let value :=
    if '0' ≤ c ∧ c ≤ '9' then c.toNat - 48
    else if 'a' ≤ c ∧ c ≤ 'z' then c.toNat - 87
    else if 'A' ≤ c ∧ c ≤ 'Z' then c.toNat - 55
    else radix
  if value < radix then some value else none

def isDigit (radix : ℕ) (c : Char) : Bool := (digitValue radix c).isSome

/-- The number that some digits spell. -/
def numberOf (radix : ℕ) (text : List Char) : ℕ :=
  Radix.value radix (text.filterMap (digitValue radix))

/-- All digits at the front, which must not be too many nor spell too large a number. -/
def readNumber (radix maxDigits bound : ℕ) (zeroPrefix : Bool) (s : List Char) :
    Option (ℕ × List Char) :=
  let text := s.takeWhile (isDigit radix)
  if text = [] ∨ maxDigits < text.length then none
  else if !zeroPrefix && text.head? = some '0' && 1 < text.length then none
  else if numberOf radix text < bound then some (numberOf radix text, s.dropWhile (isDigit radix))
  else none

def readChar (c : Char) : List Char → Option (List Char)
  | [] => none
  | d :: s => if d = c then some s else none

/-- After a separator, except at the start. -/
def readSeparator {β : Type} (sep : Char) (index : ℕ) (inner : List Char → Option β)
    (s : List Char) : Option β :=
  if 0 < index then (readChar sep s).bind inner else inner s

/-! ### Reading addresses -/

/-- A number of one octet.  An octal spelling is refused. -/
def readOctet (s : List Char) : Option (Fin 256 × List Char) :=
  (readNumber 10 3 256 false s).map fun r => (octet r.1, r.2)

def readIpv4 (s : List Char) : Option (Ipv4Addr × List Char) := do
  let (a, s) ← readOctet s
  let (b, s) ← readSeparator '.' 1 readOctet s
  let (c, s) ← readSeparator '.' 2 readOctet s
  let (d, s) ← readSeparator '.' 3 readOctet s
  some (⟨a, b, c, d⟩, s)

/-- Groups from the given index on, and whether the last two are an IPv4 address. -/
def readGroups : ℕ → ℕ → List Char → List ℕ × Bool × List Char
  | 0, _, s => ([], false, s)
  | left + 1, index, s =>
      match if 0 < left then readSeparator ':' index readIpv4 s else none with
      | some (ip, s) => ([ip.a * 256 + ip.b, ip.c * 256 + ip.d], true, s)
      | none =>
          match readSeparator ':' index (readNumber 16 4 65536 true) s with
          | some (group, s) =>
              let rest := readGroups left (index + 1) s
              (group :: rest.1, rest.2)
          | none => ([], false, s)

def readIpv6 (s : List Char) : Option (List ℕ × List Char) :=
  let (head, headIpv4, s) := readGroups 8 0 s
  if head.length = 8 then some (head, s)
  -- an IPv4 part is not allowed before the zeros that are left out
  else if headIpv4 then none
  else do
    let s ← readChar ':' s
    let s ← readChar ':' s
    let (tail, _, s) := readGroups (8 - (head.length + 1)) 0 s
    some (head ++ List.replicate (8 - head.length - tail.length) 0 ++ tail, s)

/-- The whole text is used up. -/
def complete {β : Type} : Option (β × List Char) → Option β
  | some (x, []) => some x
  | _ => none

/-- `str::parse::<Ipv4Addr>`. -/
def parseIpv4 (s : List Char) : Option Ipv4Addr :=
  if 15 < s.length then none else complete (readIpv4 s)

/-- `str::parse::<IpAddr>`. -/
def parseIpAddr (s : List Char) : Option IpAddr :=
  complete (match readIpv4 s with
    | some (ip, s) => some (.v4 ip, s)
    | none => (readIpv6 s).map fun r => (.v6 r.1, r.2))

/-- `str::parse::<u32>`, which allows a sign. -/
def parseU32 (s : List Char) : Option ℕ :=
  let text := if s.head? = some '+' then s.tail else s
  if text ≠ [] ∧ text.all (isDigit 10) ∧ numberOf 10 text < 2 ^ 32 then some (numberOf 10 text)
  else none

example : parseIpAddr "::ffff:10.0.0.1".toList =
    some (.v6 [0, 0, 0, 0, 0, 0xffff, 2560, 1]) := by decide +kernel

example : toIpv4Mapped [0, 0, 0, 0, 0, 0xffff, 2560, 1] = some ⟨10, 0, 0, 1⟩ := by decide +kernel

/-! ### The text of an IPv4 address -/

section Decimal

variable {s rest text : List Char} {n d : ℕ} {ds : List ℕ}

/-- No digit comes next. -/
def Ends (radix : ℕ) (s : List Char) : Prop := s.takeWhile (isDigit radix) = []

theorem digitValue_digitChar (hd : d < 10) : digitValue 10 (digitChar d) = some d := by
  interval_cases d <;> decide

theorem digitChar_of_digitValue {c : Char} (h : digitValue 10 c = some d) :
    d < 10 ∧ c = digitChar d := by
  rw [digitValue] at h
  split_ifs at h with hdigit hlt hlower hlt hupper hlt hlt
  · obtain rfl := Option.some.inj h
    have hlow : 48 ≤ c.toNat := hdigit.1
    exact ⟨hlt, by rw [digitChar, Nat.add_sub_cancel' hlow, Char.ofNat_toNat]⟩
  · have hlow : 97 ≤ c.toNat := hlower.1
    omega
  · have hlow : 65 ≤ c.toNat := hupper.1
    omega
  · omega

theorem isDigit_digitChar (hd : d < 10) : isDigit 10 (digitChar d) = true := by
  rw [isDigit, digitValue_digitChar hd]
  rfl

/-- Digits are the text of what they spell. -/
theorem exists_digits (htext : ∀ c ∈ text, isDigit 10 c = true) :
    ∃ ds : List ℕ, (∀ d ∈ ds, d < 10) ∧ text = ds.map digitChar := by
  induction text with
  | nil => exact ⟨[], by simp, rfl⟩
  | cons c text ih =>
      obtain ⟨hc, htext⟩ := List.forall_mem_cons.mp htext
      obtain ⟨d, hd⟩ := Option.isSome_iff_exists.mp hc
      obtain ⟨ds, hds, rfl⟩ := ih htext
      obtain ⟨hlt, rfl⟩ := digitChar_of_digitValue hd
      exact ⟨d :: ds, List.forall_mem_cons.mpr ⟨hlt, hds⟩, rfl⟩

theorem numberOf_map_digitChar (hds : ∀ d ∈ ds, d < 10) :
    numberOf 10 (ds.map digitChar) = Radix.value 10 ds := by
  rw [numberOf, List.filterMap_map]
  congr 1
  conv_rhs => rw [← List.filterMap_some (l := ds)]
  exact List.filterMap_congr fun d hd => digitValue_digitChar (hds d hd)

/-- Digits that end where they end. -/
theorem takeWhile_digits (hds : ∀ d ∈ ds, d < 10) (hrest : Ends 10 rest) :
    (ds.map digitChar ++ rest).takeWhile (isDigit 10) = ds.map digitChar := by
  rw [List.takeWhile_append_of_pos, hrest, List.append_nil]
  intro c hc
  obtain ⟨d, hd, rfl⟩ := List.mem_map.mp hc
  exact isDigit_digitChar (hds d hd)

/-- The digits of a number as it is printed. -/
def printed (n : ℕ) : List ℕ := if n = 0 then [0] else Radix.digits 10 n

theorem printed_lt (hd : d ∈ printed n) : d < 10 := by
  rw [printed] at hd
  split at hd
  · rw [List.mem_singleton.mp hd]
    omega
  · exact Radix.digits_lt (by omega) hd

theorem value_printed : Radix.value 10 (printed n) = n := by
  rw [printed]
  split
  · subst_vars
    rfl
  · exact Radix.value_digits

theorem printed_ne_nil : printed n ≠ [] := by
  rw [printed]
  split
  · exact List.cons_ne_nil 0 []
  · rwa [ne_eq, Radix.digits_eq_nil_iff]

/-- Digits without a needless zero are the printed digits of what they spell. -/
theorem eq_printed (hds : ∀ d ∈ ds, d < 10) (hne : ds ≠ [])
    (hzero : ¬ (ds.head? = some 0 ∧ 1 < ds.length)) : ds = printed (Radix.value 10 ds) := by
  have hspell := Radix.eq_spell (by omega) hds
  cases hzeros : Radix.leadingZeros ds with
  | zero =>
      rw [hzeros, Radix.spell, List.replicate_zero, List.nil_append] at hspell
      rw [printed, if_neg, ← hspell]
      intro hvalue
      rw [hvalue, Radix.digits_zero] at hspell
      exact hne hspell
  | succ k =>
      rw [hzeros, Radix.spell, List.replicate_succ, List.cons_append] at hspell
      have hlength : ds.length ≤ 1 := by
        by_contra hlong
        exact hzero ⟨by rw [hspell]; rfl, by omega⟩
      obtain ⟨d, rfl⟩ : ∃ d, ds = [d] := by
        cases ds with
        | nil => exact absurd rfl hne
        | cons d ds => exact ⟨d, by simpa using hlength⟩
      obtain ⟨rfl, -⟩ := List.cons.inj hspell
      rfl

theorem decimal_one_eq : decimal 1 n = (printed n).map digitChar := by
  rw [decimal, paddedDigits, printed]
  split
  · subst_vars
    rfl
  · rename_i hn
    have hlength : 1 - (bigEndian n).length = 0 := by
      have hne : Nat.digits 10 n ≠ [] := Nat.digits_ne_nil_iff_ne_zero.mpr hn
      have hpos : 0 < (bigEndian n).length := by
        rw [bigEndian, List.length_reverse]
        exact List.length_pos_of_ne_nil hne
      omega
    rw [hlength]
    rfl

theorem digitChar_eq_zero_iff (hd : d < 10) : digitChar d = '0' ↔ d = 0 := by
  interval_cases d <;> decide

theorem length_printed_le (hn : n < 256) : (printed n).length ≤ 3 := by
  rw [printed]
  split
  · exact Nat.le_add_left 1 2
  · rw [Radix.digits, List.length_reverse, Nat.digits_length_le_iff (by omega)]
    omega

/-- A number of more than one digit does not begin with a zero. -/
theorem printed_head (hhead : ((printed n).map digitChar).head? = some '0')
    (hlong : 1 < (printed n).length) : False := by
  rw [printed] at hhead hlong
  split at hhead
  · rename_i hn
    rw [if_pos hn] at hlong
    exact absurd hlong (lt_irrefl _)
  · have hzeros := Radix.leadingZeros_digits (b := 10) (n := n)
    cases hdigits : Radix.digits 10 n with
    | nil =>
        rw [hdigits] at hhead
        cases hhead
    | cons d ds =>
        rw [hdigits] at hhead hzeros
        have hd : d < 10 := Radix.digits_lt (b := 10) (n := n) (by omega) (by simp [hdigits])
        have hzero : d = 0 := (digitChar_eq_zero_iff hd).mp (Option.some.inj hhead)
        simp [Radix.leadingZeros, hzero] at hzeros

/-- An octet is read from its decimal text, and from nothing else. -/
theorem readNumber_decimal_iff :
    readNumber 10 3 256 false s = some (n, rest) ↔
      n < 256 ∧ s = decimal 1 n ++ rest ∧ Ends 10 rest := by
  constructor
  · intro h
    have hdigits : ∀ c ∈ s.takeWhile (isDigit 10), isDigit 10 c = true :=
      fun c hc => List.mem_takeWhile_imp hc
    obtain ⟨ds, hds, htext⟩ := exists_digits hdigits
    have hsplit := List.takeWhile_append_dropWhile (p := isDigit 10) (l := s)
    rw [readNumber, htext, numberOf_map_digitChar hds] at h
    split_ifs at h with hshape hzero hbound
    obtain ⟨rfl, rfl⟩ := Prod.mk.inj (Option.some.inj h)
    refine ⟨hbound, ?_, ?_⟩
    · have hne : ds ≠ [] := fun hnil => hshape (Or.inl (by rw [hnil]; rfl))
      have hprinted : ds = printed (Radix.value 10 ds) := by
        refine eq_printed hds hne fun ⟨hhead, hlong⟩ => hzero ?_
        simp [hhead, hlong, digitChar]
      rw [decimal_one_eq, ← hprinted, ← htext, hsplit]
    · exact List.takeWhile_eq_nil_iff.mpr fun hpos =>
        List.dropWhile_get_zero_not (isDigit 10) s hpos
  · rintro ⟨hbound, rfl, hrest⟩
    have hlt : ∀ d ∈ printed n, d < 10 := fun d hd => printed_lt hd
    have htake := takeWhile_digits hlt hrest
    rw [← decimal_one_eq] at htake
    have hdrop : (decimal 1 n ++ rest).dropWhile (isDigit 10) = rest := by
      have hsplit := List.takeWhile_append_dropWhile (p := isDigit 10) (l := decimal 1 n ++ rest)
      rw [htake] at hsplit
      exact List.append_cancel_left hsplit
    have hnumber : numberOf 10 (decimal 1 n) = n := by
      rw [decimal_one_eq, numberOf_map_digitChar hlt, value_printed]
    have hshape : ¬ (decimal 1 n = [] ∨ 3 < (decimal 1 n).length) := by
      rw [decimal_one_eq, List.map_eq_nil_iff, List.length_map, not_or, not_lt]
      exact ⟨printed_ne_nil, length_printed_le hbound⟩
    have hzero :
        ¬ (!false && (decimal 1 n).head? = some '0' && 1 < (decimal 1 n).length) = true := by
      rw [decimal_one_eq, List.length_map]
      intro h
      simp only [Bool.not_false, Bool.true_and, Bool.and_eq_true, decide_eq_true_eq] at h
      exact printed_head h.1 h.2
    rw [readNumber, htake, hdrop, hnumber, if_neg hshape, if_neg hzero, if_pos hbound]

theorem readOctet_iff {x : Fin 256} :
    readOctet s = some (x, rest) ↔ s = decimal 1 x ++ rest ∧ Ends 10 rest := by
  rw [readOctet, Option.map_eq_some_iff]
  constructor
  · rintro ⟨⟨n, rest'⟩, hread, heq⟩
    obtain ⟨rfl, rfl⟩ := Prod.mk.inj heq
    obtain ⟨hn, rfl, hrest⟩ := readNumber_decimal_iff.mp hread
    have hvalue : (octet n : ℕ) = n := Nat.mod_eq_of_lt hn
    exact ⟨by rw [hvalue], hrest⟩
  · rintro ⟨rfl, hrest⟩
    refine ⟨(x, rest), readNumber_decimal_iff.mpr ⟨x.isLt, rfl, hrest⟩, ?_⟩
    exact congrArg (·, rest) (Fin.ext (Nat.mod_eq_of_lt x.isLt))

theorem readDotted_iff {x : Fin 256} {index : ℕ} (hindex : 0 < index) :
    readSeparator '.' index readOctet s = some (x, rest) ↔
      s = '.' :: (decimal 1 x ++ rest) ∧ Ends 10 rest := by
  rw [readSeparator, if_pos hindex]
  cases s with
  | nil => exact iff_of_false nofun fun h => nomatch h.1
  | cons c s =>
      rw [readChar]
      split
      · subst_vars
        rw [Option.bind_some, readOctet_iff, List.cons_inj_right]
      · rename_i hc
        exact iff_of_false nofun fun h => hc (List.cons.inj h.1).1

theorem readIpv4_iff {ip : Ipv4Addr} :
    readIpv4 s = some (ip, rest) ↔ s = ip.display ++ rest ∧ Ends 10 rest := by
  have hdot : ∀ t, Ends 10 ('.' :: t) := fun t => rfl
  rw [readIpv4, Ipv4Addr.display]
  constructor
  · intro h
    obtain ⟨⟨a, s₁⟩, ha, h⟩ := Option.bind_eq_some_iff.mp h
    obtain ⟨⟨b, s₂⟩, hb, h⟩ := Option.bind_eq_some_iff.mp h
    obtain ⟨⟨c, s₃⟩, hc, h⟩ := Option.bind_eq_some_iff.mp h
    obtain ⟨⟨d, s₄⟩, hd, h⟩ := Option.bind_eq_some_iff.mp h
    obtain ⟨rfl, rfl⟩ := Prod.mk.inj (Option.some.inj h)
    obtain ⟨rfl, -⟩ := readOctet_iff.mp ha
    obtain ⟨rfl, -⟩ := (readDotted_iff (by omega)).mp hb
    obtain ⟨rfl, -⟩ := (readDotted_iff (by omega)).mp hc
    obtain ⟨rfl, hrest⟩ := (readDotted_iff (by omega)).mp hd
    exact ⟨by simp, hrest⟩
  · rintro ⟨rfl, hrest⟩
    refine Option.bind_eq_some_iff.mpr ⟨(ip.a, _), readOctet_iff.mpr ⟨?_, hdot _⟩,
      Option.bind_eq_some_iff.mpr ⟨(ip.b, _), (readDotted_iff (by omega)).mpr ⟨rfl, hdot _⟩,
        Option.bind_eq_some_iff.mpr ⟨(ip.c, _), (readDotted_iff (by omega)).mpr ⟨rfl, hdot _⟩,
          Option.bind_eq_some_iff.mpr ⟨(ip.d, rest), (readDotted_iff (by omega)).mpr
            ⟨rfl, hrest⟩, rfl⟩⟩⟩⟩
    simp

theorem length_decimal_le {x : Fin 256} : (decimal 1 x).length ≤ 3 := by
  rw [decimal_one_eq, List.length_map]
  exact length_printed_le x.isLt

/-- **An IPv4 address is read from its text, and from nothing else.** -/
theorem parseIpv4_iff {ip : Ipv4Addr} : parseIpv4 s = some ip ↔ s = ip.display := by
  have hcomplete : complete (readIpv4 s) = some ip ↔ readIpv4 s = some (ip, []) := by
    cases hread : readIpv4 s with
    | none => exact iff_of_false nofun nofun
    | some r =>
        obtain ⟨ip', rest⟩ := r
        cases rest <;> simp [complete]
  have hlength : ip.display.length ≤ 15 := by
    have ha := length_decimal_le (x := ip.a)
    have hb := length_decimal_le (x := ip.b)
    have hc := length_decimal_le (x := ip.c)
    have hd := length_decimal_le (x := ip.d)
    simp only [Ipv4Addr.display, List.length_append, List.length_cons]
    omega
  rw [parseIpv4]
  split
  · rename_i hlong
    refine iff_of_false nofun ?_
    rintro rfl
    omega
  · rw [hcomplete, readIpv4_iff, List.append_nil, and_iff_left (show Ends 10 [] from rfl)]

end Decimal

/-! ### Blocks of addresses -/

/-- What a mask of leading bits keeps. -/
theorem toNat_and_mask (x : BitVec 32) (k : ℕ) :
    (x &&& (BitVec.allOnes 32 <<< k)).toNat = x.toNat / 2 ^ k * 2 ^ k := by
  have hshift : x &&& (BitVec.allOnes 32 <<< k) = (x >>> k) <<< k := by
    ext i hi
    simp only [BitVec.getElem_and, BitVec.getElem_shiftLeft, BitVec.getElem_allOnes,
      BitVec.getElem_ushiftRight]
    by_cases hk : i < k
    · simp [hk]
    · simp [hk, BitVec.getLsbD_eq_getElem hi, Nat.add_sub_cancel' (not_lt.mp hk)]
  have hlt : x.toNat / 2 ^ k * 2 ^ k < 2 ^ 32 := (Nat.div_mul_le_self _ _).trans_lt x.isLt
  rw [hshift, BitVec.toNat_shiftLeft, BitVec.toNat_ushiftRight, Nat.shiftLeft_eq,
    Nat.shiftRight_eq_div_pow, Nat.mod_eq_of_lt hlt]

/-- Two numbers agree under a mask if they agree in the leading bits that it keeps. -/
theorem and_mask_eq_iff (x y : BitVec 32) (k : ℕ) :
    x &&& (BitVec.allOnes 32 <<< k) = y &&& (BitVec.allOnes 32 <<< k) ↔
      x.toNat / 2 ^ k = y.toNat / 2 ^ k := by
  rw [← BitVec.toNat_inj, toNat_and_mask, toNat_and_mask]
  exact Nat.mul_left_inj (Nat.two_pow_pos k).ne'

end ClawDesk.Foundations
