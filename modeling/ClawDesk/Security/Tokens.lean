import ClawDesk.Foundations.Radix

/-!
# Scoped tokens as text

A token is packed into 76 bytes, and the bytes are written in base 62: a big-endian number with a
`'0'` in front for each leading zero byte.  Encoding divides by 62 again and again, decoding
multiplies by 62 and adds.

Decoding is exact: it accepts the spelling of its bytes in base 62 and nothing else
(`base62Decode_eq_ok_iff`).  Encoding writes that spelling, save for bytes that are all zero: the
number zero has no digits, but the division loop runs once and leaves a `'0'` of its own
(`base62Encode_of_zero`).  So the two are inverse to each other everywhere except there
(`roundTrips_iff`).
-/

namespace ClawDesk.Security

open Foundations

/-! ### Base 62 -/

/-- The base 62 character set. -/
def base62Chars : List Char :=
  "0123456789ABCDEFGHIJKLMNOPQRSTUVWXYZabcdefghijklmnopqrstuvwxyz".toList

/-- The character of a digit. -/
def base62Char (digit : ℕ) : Char := base62Chars.getD digit '0'

/-- One byte of the long division, with the quotient so far and the remainder. -/
def divideByte (state : List UInt8 × ℕ) (byte : UInt8) : List UInt8 × ℕ :=
  let (newDigits, remainder) := state
  let acc := remainder <<< 8 ||| byte.toNat
  let quotient := acc / 62
  (if !newDigits.isEmpty || decide (0 < quotient) then newDigits ++ [UInt8.ofNat quotient]
    else newDigits, acc % 62)

/-- One pass over the digits: the quotient by 62, and the remainder. -/
def dividePass (digits : List UInt8) : List UInt8 × ℕ := digits.foldl divideByte ([], 0)

/-- The bytes as numbers. -/
def byteValues (data : List UInt8) : List ℕ := data.map UInt8.toNat

theorem byteValues_lt {data : List UInt8} : ∀ d ∈ byteValues data, d < 256 := by
  intro d hd
  obtain ⟨byte, -, rfl⟩ := List.mem_map.mp hd
  exact byte.toNat_lt

theorem byteValues_injective : Function.Injective byteValues :=
  List.map_injective_iff.mpr fun _ _ h => UInt8.toNat_inj.mp h

/-- Shifting makes room for a byte. -/
theorem shiftLeft_or_byte (remainder : ℕ) (byte : UInt8) :
    remainder <<< 8 ||| byte.toNat = remainder * 256 + byte.toNat := by
  rw [← Nat.shiftLeft_add_eq_or_of_lt (i := 8) byte.toNat_lt, Nat.shiftLeft_eq]

/-- One byte is brought down as in a long division. -/
theorem divideByte_eq {newDigits : List UInt8} {remainder : ℕ} (hrem : remainder < 62)
    (byte : UInt8) :
    (byteValues (divideByte (newDigits, remainder) byte).1,
        (divideByte (newDigits, remainder) byte).2) =
      Radix.bringDown 256 62 (byteValues newDigits, remainder) byte.toNat := by
  have hquot : (remainder * 256 + byte.toNat) / 62 < 256 := Radix.quotient_lt hrem byte.toNat_lt
  have hkeep : (!newDigits.isEmpty || decide (0 < (remainder * 256 + byte.toNat) / 62)) = true ↔
      byteValues newDigits ≠ [] ∨ 0 < (remainder * 256 + byte.toNat) / 62 := by
    rw [Bool.or_eq_true, decide_eq_true_eq, Bool.not_eq_true', List.isEmpty_eq_false_iff,
      byteValues, Ne, Ne, List.map_eq_nil_iff]
  simp only [divideByte, Radix.bringDown, shiftLeft_or_byte, hkeep]
  split_ifs
  · rw [byteValues, List.map_append, List.map_singleton, UInt8.toNat_ofNat_of_lt' hquot, byteValues]
  · rfl

/-- **A pass is a long division.** -/
theorem dividePass_eq (digits : List UInt8) :
    (byteValues (dividePass digits).1, (dividePass digits).2) =
      (Radix.digits 256 (Radix.value 256 (byteValues digits) / 62),
        Radix.value 256 (byteValues digits) % 62) := by
  rw [← Radix.longDivision_eq (by omega) (by omega) byteValues_lt]
  induction digits using List.reverseRecOn with
  | nil => rfl
  | append_singleton digits byte ih =>
      have hrem : (dividePass digits).2 < 62 := by
        have hmod := congrArg Prod.snd ih
        rw [Radix.longDivision_eq (by omega) (by omega) byteValues_lt] at hmod
        exact hmod ▸ Nat.mod_lt _ (by omega)
      have hstep : dividePass (digits ++ [byte]) = divideByte (dividePass digits) byte := by
        rw [dividePass, List.foldl_append, List.foldl_cons, List.foldl_nil, dividePass]
      have hvalues : byteValues (digits ++ [byte]) = byteValues digits ++ [byte.toNat] :=
        List.map_append
      rw [hstep, hvalues, Radix.longDivision_append_singleton, ← ih]
      exact divideByte_eq hrem byte

/-- The number that bytes spell. -/
def byteNumber (data : List UInt8) : ℕ := Radix.value 256 (byteValues data)

theorem byteNumber_dividePass (digits : List UInt8) :
    byteNumber (dividePass digits).1 = byteNumber digits / 62 := by
  rw [byteNumber, (Prod.mk.inj (dividePass_eq digits)).1, Radix.value_digits, byteNumber]

theorem fst_dividePass_eq_nil_iff (digits : List UInt8) :
    (dividePass digits).1 = [] ↔ byteNumber digits / 62 = 0 := by
  rw [← Radix.digits_eq_nil_iff (b := 256), byteNumber, ← (Prod.mk.inj (dividePass_eq digits)).1,
    byteValues, List.map_eq_nil_iff]

/-- What is left to write: the number, and one more for the round that writes its last digit. -/
def digitsLeft (digits : List UInt8) : ℕ := if digits = [] then 0 else byteNumber digits + 1

theorem digitsLeft_dividePass {digits : List UInt8} (hne : digits ≠ []) :
    digitsLeft (dividePass digits).1 < digitsLeft digits := by
  rw [digitsLeft, digitsLeft, if_neg hne]
  split_ifs with hnil
  · omega
  · rw [fst_dividePass_eq_nil_iff] at hnil
    rw [byteNumber_dividePass]
    omega

/-- The characters in the order in which the loop pushes them, the last digit first. -/
def encodeDigits (digits : List UInt8) : List Char :=
  if _hempty : digits = [] then []
  else base62Char (dividePass digits).2 :: encodeDigits (dividePass digits).1
termination_by digitsLeft digits
decreasing_by exact digitsLeft_dividePass _hempty

/-- Bytes to a base 62 string. -/
def base62Encode (data : List UInt8) : String :=
  if data.isEmpty then ""
  else
    let result := encodeDigits data
    let zeros := (data.takeWhile (· = 0)).map fun _ => base62Char 0
    String.ofList (result ++ zeros).reverse

/-- The digit of a character. -/
def base62Digit (ch : Char) : Option ℕ :=
  if '0' ≤ ch ∧ ch ≤ '9' then some (ch.toNat - '0'.toNat)
  else if 'A' ≤ ch ∧ ch ≤ 'Z' then some (ch.toNat - 'A'.toNat + 10)
  else if 'a' ≤ ch ∧ ch ≤ 'z' then some (ch.toNat - 'a'.toNat + 36)
  else none

/-- One digit multiplied, from the right, with the digits done and the carry. -/
def multiplyByte (digit : UInt8) (state : List UInt8 × ℕ) : List UInt8 × ℕ :=
  let acc := digit.toNat * 62 + state.2
  (UInt8.ofNat (acc &&& 0xFF) :: state.1, acc >>> 8)

/-- The carry that is left, in front of the digits. -/
def insertCarry (digits : List UInt8) (carry : ℕ) : List UInt8 :=
  if _hpos : 0 < carry then insertCarry (UInt8.ofNat (carry &&& 0xFF) :: digits) (carry >>> 8)
  else digits
termination_by carry
decreasing_by
  rw [Nat.shiftRight_eq_div_pow]
  exact Nat.div_lt_self _hpos (by omega)

/-- The digits by 62, and the value of one more character. -/
def multiplyAdd (digits : List UInt8) (val : ℕ) : List UInt8 :=
  let (digits, carry) := digits.foldr multiplyByte ([], val)
  insertCarry digits carry

/-- The loop over the characters; one outside ASCII is refused at its first byte. -/
def decodeDigits (digits : List UInt8) : List Char → Except String (List UInt8)
  | [] => .ok digits
  | ch :: rest =>
      match base62Digit ch with
      | none => .error "invalid base62 character"
      | some val => decodeDigits (multiplyAdd digits val) rest

/-- A base 62 string to bytes. -/
def base62Decode (s : String) : Except String (List UInt8) :=
  if s.isEmpty then .ok []
  else
    match decodeDigits [] s.toList with
    | .error e => .error e
    | .ok digits =>
        let leadingZeros := (s.toList.takeWhile (· = '0')).length
        .ok (List.replicate leadingZeros 0 ++ digits)

/-! ### What the loops compute -/

/-- The base 62 spelling of bytes: a `'0'` for each leading zero byte, then their number. -/
def spelling (data : List UInt8) : List Char :=
  (Radix.spell 62 (Radix.leadingZeros (byteValues data)) (byteNumber data)).map base62Char

theorem base62Digit_char : ∀ digit < 62, base62Digit (base62Char digit) = some digit := by
  decide +kernel

/-- A character that has a digit is the character of this digit. -/
theorem base62Char_digit {ch : Char} {digit : ℕ} (h : base62Digit ch = some digit) :
    digit < 62 ∧ base62Char digit = ch := by
  have hascii : ∀ n < 128, ∀ digit ∈ base62Digit (Char.ofNat n),
      digit < 62 ∧ base62Char digit = Char.ofNat n := by decide +kernel
  have hlt : ch.toNat < 128 := by
    by_contra hge
    rw [base62Digit, if_neg, if_neg, if_neg] at h
    · cases h
    all_goals
      rintro ⟨-, hle⟩
      exact hge (lt_of_le_of_lt (show ch.toNat ≤ _ from hle) (by decide))
  have hch := hascii ch.toNat hlt
  rw [Char.ofNat_toNat] at hch
  exact hch digit h

/-- Each character of the alphabet is that of a digit. -/
theorem exists_base62Char {ch : Char} (hch : ch ∈ base62Chars) :
    ∃ digit < 62, base62Char digit = ch := by
  obtain ⟨digit, hdigit, rfl⟩ := List.mem_iff_getElem.mp hch
  refine ⟨digit, hdigit, ?_⟩
  rw [base62Char, List.getD_eq_getElem?_getD, List.getElem?_eq_getElem hdigit]
  rfl

theorem base62Char_eq_zero_iff : ∀ digit < 62, base62Char digit = '0' ↔ digit = 0 := by
  decide +kernel

/-- **The encoding loop writes the digits of the number**, and a `'0'` for the number zero. -/
theorem reverse_encodeDigits (digits : List UInt8) :
    (encodeDigits digits).reverse =
      if digits ≠ [] ∧ byteNumber digits = 0 then [base62Char 0]
      else (Radix.digits 62 (byteNumber digits)).map base62Char := by
  induction digits using encodeDigits.induct with
  | case1 =>
      rw [encodeDigits, dif_pos rfl, if_neg (by simp)]
      simp [byteNumber, byteValues]
  | case2 digits hne ih =>
      have hrem := (Prod.mk.inj (dividePass_eq digits)).2
      have hquot : ¬((dividePass digits).1 ≠ [] ∧ byteNumber digits / 62 = 0) := fun h =>
        h.1 ((fst_dividePass_eq_nil_iff digits).mpr h.2)
      rw [encodeDigits, dif_neg hne, List.reverse_cons, ih, byteNumber_dividePass, if_neg hquot,
        hrem, ← byteNumber]
      split_ifs with hzero
      · rw [hzero.2]
        simp
      · have hnumber : byteNumber digits ≠ 0 := fun h => hzero ⟨hne, h⟩
        rw [Radix.digits_eq_append (by omega) hnumber, List.map_append, List.map_singleton]

/-- **Encoding writes the spelling**, and one `'0'` more for bytes that are all zero. -/
theorem toList_base62Encode (data : List UInt8) :
    (base62Encode data).toList =
      if data ≠ [] ∧ byteNumber data = 0 then base62Char 0 :: spelling data else spelling data := by
  by_cases hnil : data = []
  · subst hnil
    rfl
  · have hzeros : (data.takeWhile (· = 0)).map (fun _ => base62Char 0) =
        List.replicate (Radix.leadingZeros (byteValues data)) (base62Char 0) := by
      rw [List.map_const', Radix.leadingZeros, byteValues, List.takeWhile_map, List.length_map]
      congr 3
      ext byte
      simp [← UInt8.toNat_inj]
    rw [base62Encode, if_neg (by simpa using hnil), String.toList_ofList, hzeros,
      List.reverse_append, List.reverse_replicate, reverse_encodeDigits, spelling, Radix.spell,
      List.map_append, List.map_replicate]
    split_ifs with hzero
    · rw [hzero.2, Radix.digits_zero, List.map_nil, List.append_nil]
      exact List.replicate_succ'.symm.trans List.replicate_succ
    · rfl

theorem base62Encode_of_zero {data : List UInt8} (hne : data ≠ []) (hzero : byteNumber data = 0) :
    (base62Encode data).toList = '0' :: spelling data := by
  rw [toList_base62Encode, if_pos ⟨hne, hzero⟩]
  rfl

/-! The decoding loop. -/

theorem and_byte (n : ℕ) : (UInt8.ofNat (n &&& 0xFF)).toNat = n % 256 := by
  rw [UInt8.toNat_ofNat', show (0xFF : ℕ) = 2 ^ 8 - 1 from rfl, Nat.and_two_pow_sub_one_eq_mod,
    Nat.mod_mod]

theorem byteValues_insertCarry (digits : List UInt8) (carry : ℕ) :
    byteValues (insertCarry digits carry) = Radix.digits 256 carry ++ byteValues digits := by
  induction digits, carry using insertCarry.induct with
  | case1 digits carry hpos ih =>
      rw [insertCarry, dif_pos hpos, ih, Nat.shiftRight_eq_div_pow,
        Radix.digits_eq_append (by omega) hpos.ne', byteValues, List.map_cons, and_byte]
      simp [byteValues]
  | case2 digits carry hzero =>
      rw [insertCarry, dif_neg hzero, Nat.eq_zero_of_not_pos hzero, Radix.digits_zero,
        List.nil_append]

theorem foldr_multiplyByte (digits : List UInt8) (val : ℕ) :
    (byteValues (digits.foldr multiplyByte ([], val)).1,
        (digits.foldr multiplyByte ([], val)).2) =
      (byteValues digits).foldr (Radix.carryOver 256 62) ([], val) := by
  induction digits with
  | nil => rfl
  | cons digit digits ih =>
      have hvalues : byteValues (digit :: digits) = digit.toNat :: byteValues digits := rfl
      rw [List.foldr_cons, multiplyByte, hvalues, List.foldr_cons, ← ih]
      dsimp only
      rw [byteValues, List.map_cons, and_byte, Nat.shiftRight_eq_div_pow]
      rfl

/-- **One character multiplies by 62 and adds its digit.** -/
theorem byteValues_multiplyAdd {digits : List UInt8} {n : ℕ}
    (h : byteValues digits = Radix.digits 256 n) (val : ℕ) :
    byteValues (multiplyAdd digits val) = Radix.digits 256 (n * 62 + val) := by
  have hfold := Prod.mk.inj (foldr_multiplyByte digits val)
  rw [← Radix.mulAdd_eq (by omega) (by omega), Radix.mulAdd, ← h, ← hfold.1, ← hfold.2,
    multiplyAdd, byteValues_insertCarry]

/-- The loop reads the number that the characters spell. -/
theorem decodeDigits_map {ds : List ℕ} (hds : ∀ d ∈ ds, d < 62) {digits : List UInt8}
    {before : List ℕ} (h : byteValues digits = Radix.digits 256 (Radix.value 62 before)) :
    ∃ out, decodeDigits digits (ds.map base62Char) = .ok out ∧
      byteValues out = Radix.digits 256 (Radix.value 62 (before ++ ds)) := by
  induction ds generalizing digits before with
  | nil => exact ⟨digits, rfl, by rw [List.append_nil, h]⟩
  | cons d ds ih =>
      obtain ⟨hd, hds⟩ := List.forall_mem_cons.mp hds
      have hnext : byteValues (multiplyAdd digits d) =
          Radix.digits 256 (Radix.value 62 (before ++ [d])) := by
        rw [byteValues_multiplyAdd h, Radix.value_append_singleton]
      obtain ⟨out, hout, hvalues⟩ := ih hds hnext
      refine ⟨out, ?_, ?_⟩
      · rw [List.map_cons, decodeDigits, base62Digit_char d hd]
        exact hout
      · rw [hvalues, List.append_assoc, List.singleton_append]

/-- Only characters of the alphabet are accepted. -/
theorem exists_digits_of_decodeDigits {chars : List Char} {digits out : List UInt8}
    (h : decodeDigits digits chars = .ok out) :
    ∃ ds : List ℕ, (∀ d ∈ ds, d < 62) ∧ chars = ds.map base62Char := by
  induction chars generalizing digits with
  | nil => exact ⟨[], by simp, rfl⟩
  | cons ch chars ih =>
      rw [decodeDigits] at h
      split at h
      · cases h
      · next d hd =>
        obtain ⟨ds, hds, rfl⟩ := ih h
        obtain ⟨hlt, hch⟩ := base62Char_digit hd
        exact ⟨d :: ds, List.forall_mem_cons.mpr ⟨hlt, hds⟩, by rw [List.map_cons, hch]⟩

theorem length_takeWhile_zero {ds : List ℕ} (hds : ∀ d ∈ ds, d < 62) :
    ((ds.map base62Char).takeWhile (· = '0')).length = Radix.leadingZeros ds := by
  rw [Radix.leadingZeros]
  induction ds with
  | nil => rfl
  | cons d ds ih =>
      obtain ⟨hd, hds⟩ := List.forall_mem_cons.mp hds
      have hzero := base62Char_eq_zero_iff d hd
      rw [List.map_cons]
      by_cases h : d = 0
      · rw [List.takeWhile_cons_of_pos (by simp [hzero.mpr h]),
          List.takeWhile_cons_of_pos (by simp [h]), List.length_cons, List.length_cons, ih hds]
      · rw [List.takeWhile_cons_of_neg (by simp [mt hzero.mp h]),
          List.takeWhile_cons_of_neg (by simp [h])]
        rfl

/-- Decoding keeps the number and the leading zeros. -/
theorem base62Decode_map {ds : List ℕ} (hds : ∀ d ∈ ds, d < 62) {s : String}
    (hs : s.toList = ds.map base62Char) :
    ∃ data, base62Decode s = .ok data ∧
      byteValues data = Radix.spell 256 (Radix.leadingZeros ds) (Radix.value 62 ds) := by
  have hstart : byteValues [] = Radix.digits 256 (Radix.value 62 []) := by
    rw [Radix.value_nil, Radix.digits_zero]
    rfl
  obtain ⟨out, hout, hvalues⟩ := decodeDigits_map hds hstart
  rw [List.nil_append] at hvalues
  rw [base62Decode]
  split_ifs with hempty
  · obtain rfl := String.isEmpty_iff.mp hempty
    obtain rfl : ds = [] := List.map_eq_nil_iff.mp hs.symm
    exact ⟨[], rfl, rfl⟩
  · rw [hs, hout]
    refine ⟨_, rfl, ?_⟩
    rw [length_takeWhile_zero hds, byteValues, List.map_append, List.map_replicate, ← byteValues,
      hvalues, Radix.spell]
    rfl

theorem spelling_lt {data : List UInt8} :
    ∀ d ∈ Radix.spell 62 (Radix.leadingZeros (byteValues data)) (byteNumber data), d < 62 :=
  fun _ hd => Radix.spell_lt (by omega) hd

/-- Bytes are the value and the leading zeros of their spelling. -/
theorem byteValues_eq_spell (data : List UInt8) :
    byteValues data = Radix.spell 256 (Radix.leadingZeros (byteValues data)) (byteNumber data) :=
  Radix.eq_spell (by omega) byteValues_lt

/-- **A string is accepted exactly when it is the spelling of the bytes that it gives.** -/
theorem base62Decode_eq_ok_iff {s : String} {data : List UInt8} :
    base62Decode s = .ok data ↔ s.toList = spelling data := by
  constructor
  · intro h
    obtain ⟨ds, hds, hs⟩ : ∃ ds : List ℕ, (∀ d ∈ ds, d < 62) ∧ s.toList = ds.map base62Char := by
      rw [base62Decode] at h
      split_ifs at h with hempty
      · exact ⟨[], by simp, by rw [String.isEmpty_iff.mp hempty]; rfl⟩
      · split at h
        · cases h
        · next hok => exact exists_digits_of_decodeDigits hok
    obtain ⟨data', hdata', hvalues⟩ := base62Decode_map hds hs
    obtain rfl : data' = data := Except.ok.inj (hdata'.symm.trans h)
    rw [hs, spelling, byteNumber, hvalues, Radix.leadingZeros_spell, Radix.value_spell,
      ← Radix.eq_spell (by omega) hds]
  · intro hs
    obtain ⟨data', hdata', hvalues⟩ := base62Decode_map spelling_lt hs
    rw [Radix.leadingZeros_spell, Radix.value_spell, ← byteValues_eq_spell] at hvalues
    rw [hdata', byteValues_injective hvalues]

theorem spelling_nil : spelling [] = [] := rfl

theorem spelling_injective : Function.Injective spelling := by
  intro data data' h
  have hok := base62Decode_eq_ok_iff.mpr (String.toList_ofList (l := spelling data))
  have hok' := base62Decode_eq_ok_iff.mpr ((String.toList_ofList (l := spelling data)).trans h)
  exact Except.ok.inj (hok.symm.trans hok')

theorem spelling_eq_nil_iff {data : List UInt8} : spelling data = [] ↔ data = [] := by
  rw [← spelling_nil]
  exact spelling_injective.eq_iff

theorem byteNumber_eq_zero_iff {data : List UInt8} :
    byteNumber data = 0 ↔ ∀ byte ∈ data, byte = 0 := by
  rw [byteNumber, Radix.value_eq_zero_iff (by omega) byteValues_lt, byteValues,
    List.forall_mem_map]
  exact forall₂_congr fun byte _ => UInt8.toNat_inj (b := 0)

/-- The number zero is spelled with zeros only. -/
theorem spelling_eq_zeros_iff {data : List UInt8} :
    (∀ ch ∈ spelling data, ch = '0') ↔ byteNumber data = 0 := by
  have hvalue := Radix.value_spell (b := 62) (n := byteNumber data)
    (Radix.leadingZeros (byteValues data))
  rw [spelling, List.forall_mem_map]
  conv_rhs => rw [← hvalue, Radix.value_eq_zero_iff (by omega) spelling_lt]
  exact forall₂_congr fun d hd => base62Char_eq_zero_iff d (spelling_lt d hd)

theorem toList_base62Encode_eq_iff {data : List UInt8} :
    (base62Encode data).toList = spelling data ↔ data = [] ∨ byteNumber data ≠ 0 := by
  rw [toList_base62Encode]
  split_ifs with h
  · exact iff_of_false (List.cons_ne_self _ _) (not_or.mpr ⟨h.1, not_not.mpr h.2⟩)
  · exact iff_of_true rfl ((not_and_or.mp h).imp_left not_not.mp)

/-- Zero bytes, spelled. -/
theorem spelling_replicate (n : ℕ) : spelling (List.replicate n 0) = List.replicate n '0' := by
  have hzero : byteNumber (List.replicate n 0) = 0 :=
    byteNumber_eq_zero_iff.mpr fun _ => List.eq_of_mem_replicate
  have hvalues : byteValues (List.replicate n 0) = Radix.spell 256 n 0 := by
    rw [byteValues, List.map_replicate, Radix.spell, Radix.digits_zero, List.append_nil]
    rfl
  rw [spelling, hzero, hvalues, Radix.leadingZeros_spell, Radix.spell, Radix.digits_zero,
    List.append_nil, List.map_replicate]
  rfl

/-- One zero byte more is decoded than was encoded. -/
theorem base62_replicate (n : ℕ) :
    base62Encode (List.replicate (n + 1) 0) = String.ofList (List.replicate (n + 2) '0') ∧
      base62Decode (String.ofList (List.replicate (n + 2) '0')) =
        .ok (List.replicate (n + 2) 0) := by
  have hzero : byteNumber (List.replicate (n + 1) 0) = 0 :=
    byteNumber_eq_zero_iff.mpr fun _ => List.eq_of_mem_replicate
  constructor
  · rw [← String.toList_inj, base62Encode_of_zero (by simp) hzero, spelling_replicate,
      String.toList_ofList]
    rfl
  · rw [base62Decode_eq_ok_iff, String.toList_ofList, spelling_replicate]

/-- Decoding undoes encoding, save for bytes that are all zero. -/
theorem base62Decode_base62Encode_iff (data : List UInt8) :
    base62Decode (base62Encode data) = .ok data ↔ data = [] ∨ ∃ byte ∈ data, byte ≠ 0 := by
  rw [base62Decode_eq_ok_iff, toList_base62Encode_eq_iff, Ne, byteNumber_eq_zero_iff]
  push Not
  rfl

/-- Encoding undoes decoding, save for strings of zeros. -/
theorem base62Encode_eq_iff {s : String} {data : List UInt8} (h : base62Decode s = .ok data) :
    base62Encode data = s ↔ s = "" ∨ ∃ ch ∈ s.toList, ch ≠ '0' := by
  have hs := base62Decode_eq_ok_iff.mp h
  have hempty : s = "" ↔ data = [] := by
    rw [← spelling_eq_nil_iff, ← hs, String.toList_eq_nil_iff]
  rw [← String.toList_inj, hs, toList_base62Encode_eq_iff, hempty, Ne, ← spelling_eq_zeros_iff]
  push Not
  rfl

/-- Every string over the alphabet is accepted. -/
theorem exists_base62Decode {s : String} (hs : ∀ ch ∈ s.toList, ch ∈ base62Chars) :
    ∃ data, base62Decode s = .ok data := by
  have hdigit : ∀ ch ∈ base62Chars, (base62Digit ch).getD 0 < 62 ∧
      base62Char ((base62Digit ch).getD 0) = ch := by
    intro ch hch
    obtain ⟨digit, hlt, rfl⟩ := exists_base62Char hch
    rw [base62Digit_char digit hlt]
    exact ⟨hlt, rfl⟩
  have hmap : (s.toList.map fun ch => (base62Digit ch).getD 0).map base62Char = s.toList := by
    rw [List.map_map]
    conv_rhs => rw [← List.map_id s.toList]
    exact List.map_congr_left fun ch hch => (hdigit ch (hs ch hch)).2
  obtain ⟨data, hdata, -⟩ := base62Decode_map
    (List.forall_mem_map.mpr fun ch hch => (hdigit ch (hs ch hch)).1) hmap.symm
  exact ⟨data, hdata⟩

/-! ### Tokens -/

/-- `TokenScope`, as its bits. -/
abbrev TokenScope := UInt32

/-- What can be wrong with a token. -/
inductive AuthError where
  | expired
  | invalidSignature
  | insufficientScope (required actual : TokenScope)
  | malformed
  deriving DecidableEq

/-- A token with its capabilities, its expiry, its peer and its signature. -/
structure ScopedToken where
  scope : TokenScope
  expiresAt : UInt64
  peerId : Vector UInt8 32
  signature : Vector UInt8 32
  deriving DecidableEq

/-- `to_le_bytes`, for an integer of the given width. -/
def toLeBytes : ℕ → ℕ → List UInt8
  | 0, _ => []
  | width + 1, n => UInt8.ofNat n :: toLeBytes width (n / 256)

/-- `from_le_bytes`. -/
def fromLeBytes (bytes : List UInt8) : ℕ := bytes.foldr (fun byte n => byte.toNat + 256 * n) 0

/-- `buf[start..stop]`. -/
def slice (buf : List UInt8) (start stop : ℕ) : List UInt8 := (buf.drop start).take (stop - start)

@[simp] theorem length_toLeBytes (width n : ℕ) : (toLeBytes width n).length = width := by
  induction width generalizing n with
  | zero => rfl
  | succ width ih => rw [toLeBytes, List.length_cons, ih]

theorem fromLeBytes_toLeBytes {width n : ℕ} (h : n < 256 ^ width) :
    fromLeBytes (toLeBytes width n) = n := by
  induction width generalizing n with
  | zero => exact (Nat.lt_one_iff.mp h).symm
  | succ width ih =>
      have hquot : n / 256 < 256 ^ width := Nat.div_lt_of_lt_mul (by rwa [mul_comm, ← pow_succ])
      rw [toLeBytes, fromLeBytes, List.foldr_cons, ← fromLeBytes, ih hquot, UInt8.toNat_ofNat']
      exact Nat.mod_add_div n 256

theorem toLeBytes_fromLeBytes {width : ℕ} {bytes : List UInt8} (hlen : bytes.length = width) :
    toLeBytes width (fromLeBytes bytes) = bytes := by
  subst hlen
  induction bytes with
  | nil => rfl
  | cons byte bytes ih =>
      have hbyte := byte.toNat_lt
      have hlow : UInt8.ofNat (byte.toNat + 256 * fromLeBytes bytes) = byte := by
        rw [← UInt8.toNat_inj, UInt8.toNat_ofNat']
        omega
      have hrest : (byte.toNat + 256 * fromLeBytes bytes) / 256 = fromLeBytes bytes := by omega
      rw [fromLeBytes, List.foldr_cons, ← fromLeBytes, List.length_cons, toLeBytes, hlow, hrest, ih]

theorem fromLeBytes_lt {width : ℕ} {bytes : List UInt8} (hlen : bytes.length = width) :
    fromLeBytes bytes < 256 ^ width := by
  subst hlen
  induction bytes with
  | nil => exact Nat.one_pos
  | cons byte bytes ih =>
      have hbyte := byte.toNat_lt
      rw [fromLeBytes, List.foldr_cons, ← fromLeBytes, List.length_cons, pow_succ]
      omega

theorem length_slice {buf : List UInt8} {start stop : ℕ} (h : stop ≤ buf.length) :
    (slice buf start stop).length = stop - start := by
  rw [slice, List.length_take, List.length_drop]
  omega

theorem slice_append_slice (buf : List UInt8) {i j k : ℕ} (hij : i ≤ j) (hjk : j ≤ k) :
    slice buf i j ++ slice buf j k = slice buf i k := by
  have hdrop : buf.drop j = (buf.drop i).drop (j - i) := by
    rw [List.drop_drop, Nat.add_sub_cancel' hij]
  rw [slice, slice, slice, hdrop, ← List.take_add, show j - i + (k - j) = k - i by omega]

namespace ScopedToken

/-- The 76 bytes of a token. -/
def toBuf (t : ScopedToken) : List UInt8 :=
  toLeBytes 4 t.scope.toNat ++ toLeBytes 8 t.expiresAt.toNat ++ t.peerId.toList ++
    t.signature.toList

/-- The fields of a token in its bytes. -/
def ofBuf (buf : List UInt8) (hlen : buf.length = 76) : ScopedToken where
  scope := UInt32.ofNat (fromLeBytes (slice buf 0 4))
  expiresAt := UInt64.ofNat (fromLeBytes (slice buf 4 12))
  peerId := ⟨(slice buf 12 44).toArray, by simp [slice, hlen]⟩
  signature := ⟨(slice buf 44 76).toArray, by simp [slice, hlen]⟩

/-- Encode to compact binary format. -/
def encode (t : ScopedToken) : String := base62Encode t.toBuf

/-- Decode from compact binary format. -/
def decode (encoded : String) : Except AuthError ScopedToken :=
  match base62Decode encoded with
  | .error _ => .error .malformed
  | .ok buf => if hlen : buf.length = 76 then .ok (ofBuf buf hlen) else .error .malformed

/-- The token that is zero in every bit. -/
def zero : ScopedToken := ⟨0, 0, Vector.replicate 32 0, Vector.replicate 32 0⟩

@[simp] theorem length_toBuf (t : ScopedToken) : t.toBuf.length = 76 := by
  simp [toBuf]

theorem toBuf_injective : Function.Injective toBuf := by
  intro t t' h
  obtain ⟨h, hsignature⟩ := List.append_inj h (by simp)
  obtain ⟨h, hpeerId⟩ := List.append_inj h (by simp)
  obtain ⟨hscope, hexpiresAt⟩ := List.append_inj h (by simp)
  have hscope := congrArg fromLeBytes hscope
  have hexpiresAt := congrArg fromLeBytes hexpiresAt
  rw [fromLeBytes_toLeBytes t.scope.toNat_lt, fromLeBytes_toLeBytes t'.scope.toNat_lt] at hscope
  rw [fromLeBytes_toLeBytes t.expiresAt.toNat_lt, fromLeBytes_toLeBytes t'.expiresAt.toNat_lt]
    at hexpiresAt
  cases t
  cases t'
  rw [mk.injEq]
  exact ⟨UInt32.toNat_inj.mp hscope, UInt64.toNat_inj.mp hexpiresAt, Vector.toList_inj.mp hpeerId,
    Vector.toList_inj.mp hsignature⟩

/-- The fields are read back into the same bytes. -/
theorem toBuf_ofBuf (buf : List UInt8) (hlen : buf.length = 76) : (ofBuf buf hlen).toBuf = buf := by
  have hscope : (slice buf 0 4).length = 4 := length_slice (by omega)
  have hexpiresAt : (slice buf 4 12).length = 8 := length_slice (by omega)
  have hscopeNat : (UInt32.ofNat (fromLeBytes (slice buf 0 4))).toNat =
      fromLeBytes (slice buf 0 4) :=
    UInt32.toNat_ofNat_of_lt' (fromLeBytes_lt hscope)
  have hexpiresAtNat : (UInt64.ofNat (fromLeBytes (slice buf 4 12))).toNat =
      fromLeBytes (slice buf 4 12) :=
    UInt64.toNat_ofNat_of_lt' (fromLeBytes_lt hexpiresAt)
  rw [toBuf]
  simp only [ofBuf]
  rw [hscopeNat, hexpiresAtNat, toLeBytes_fromLeBytes hscope, toLeBytes_fromLeBytes hexpiresAt]
  show slice buf 0 4 ++ slice buf 4 12 ++ slice buf 12 44 ++ slice buf 44 76 = buf
  rw [slice_append_slice buf (by omega) (by omega), slice_append_slice buf (by omega) (by omega),
    slice_append_slice buf (by omega) (by omega), slice, List.drop_zero,
    List.take_of_length_le (by omega)]

theorem decode_eq_ok_iff {s : String} {t : ScopedToken} :
    decode s = .ok t ↔ base62Decode s = .ok t.toBuf := by
  rw [decode]
  split
  · next h => exact iff_of_false (by simp) (by simp [h])
  · next buf h =>
    rw [h, Except.ok.injEq]
    split_ifs with hlen
    · rw [Except.ok.injEq, ← toBuf_injective.eq_iff, toBuf_ofBuf]
    · refine iff_of_false (by simp) fun heq => hlen ?_
      rw [heq, length_toBuf]

theorem toBuf_ne_nil (t : ScopedToken) : t.toBuf ≠ [] := by
  intro h
  have hlen := t.length_toBuf
  rw [h] at hlen
  cases hlen

theorem toBuf_zero : zero.toBuf = List.replicate 76 0 := by
  decide +kernel

theorem byteNumber_toBuf_eq_zero_iff (t : ScopedToken) : byteNumber t.toBuf = 0 ↔ t = zero := by
  rw [← toBuf_injective.eq_iff, toBuf_zero, byteNumber_eq_zero_iff, List.eq_replicate_iff]
  exact (and_iff_right t.length_toBuf).symm

/-- **Encoding and decoding are inverse to each other, save where everything is zero.** -/
theorem roundTrips_iff (t : ScopedToken) (s s' : String) (data : List UInt8) :
    (decode (encode t) = .ok t ↔ t ≠ zero) ∧
    (decode s = .ok t → (encode t = s ↔ ∃ ch ∈ s.toList, ch ≠ '0')) ∧
    (decode s = .ok t → decode s' = .ok t → s = s') ∧
    (base62Decode (base62Encode data) = .ok data ↔ data = [] ∨ ∃ byte ∈ data, byte ≠ 0) ∧
    ((∀ ch ∈ s.toList, ch ∈ base62Chars) →
      ∃ decoded, base62Decode s = .ok decoded ∧
        (base62Encode decoded = s ↔ s = "" ∨ ∃ ch ∈ s.toList, ch ≠ '0')) := by
  refine ⟨?_, fun h => ?_, fun h h' => ?_, base62Decode_base62Encode_iff data, fun hs => ?_⟩
  · rw [decode_eq_ok_iff, encode, base62Decode_eq_ok_iff, toList_base62Encode_eq_iff,
      or_iff_right t.toBuf_ne_nil, Ne, byteNumber_toBuf_eq_zero_iff]
  · have hne : s ≠ "" := by
      rintro rfl
      exact t.toBuf_ne_nil (Except.ok.inj (decode_eq_ok_iff.mp h)).symm
    rw [encode, base62Encode_eq_iff (decode_eq_ok_iff.mp h), or_iff_right hne]
  · have hs := base62Decode_eq_ok_iff.mp (decode_eq_ok_iff.mp h)
    have hs' := base62Decode_eq_ok_iff.mp (decode_eq_ok_iff.mp h')
    exact String.toList_inj.mp (hs.trans hs'.symm)
  · obtain ⟨decoded, hdecoded⟩ := exists_base62Decode hs
    exact ⟨decoded, hdecoded, base62Encode_eq_iff hdecoded⟩

theorem roundTrips_iff_chat :
    decode (encode { zero with scope := 1 }) = .ok { zero with scope := 1 } :=
  (roundTrips_iff { zero with scope := 1 } "" "" []).1.mpr (by decide)

/-- **The zero token is encoded to a string that is too long**, and so is a zero byte. -/
theorem zero_malformed :
    decode (encode zero) = .error .malformed ∧ base62Encode [0] = "00" ∧
      base62Decode "00" = .ok [0, 0] := by
  refine ⟨?_, (base62_replicate 0).1, (base62_replicate 0).2⟩
  rw [decode, encode, toBuf_zero, (base62_replicate 75).1, (base62_replicate 75).2]
  rfl

end ScopedToken

end ClawDesk.Security
