import Mathlib.Data.List.Basic

/-!
# Byte offsets in a text

A text is a list of characters, and its bytes are those of its encoding.  It can be split at a
number of bytes just where that is the size of some of its first characters (`splitBytes_iff`); so
it can in front of every byte that begins a character (`exists_splitBytes`).
-/

namespace ClawDesk.Foundations

/-- The bytes of a text. -/
def utf8 (cs : List Char) : List UInt8 := cs.flatMap String.utf8EncodeChar

/-- A text split at a byte offset, which has to lie on the boundary of a character. -/
def splitBytes : ℕ → List Char → Option (List Char × List Char)
  | 0, cs => some ([], cs)
  | _ + 1, [] => none
  | n + 1, c :: cs =>
      if c.utf8Size ≤ n + 1 then
        (splitBytes (n + 1 - c.utf8Size) cs).map fun parts => (c :: parts.1, parts.2)
      else none

/-- The text between two byte offsets. -/
def slice (start stop : ℕ) (cs : List Char) : Option (List Char) :=
  (splitBytes start cs).bind fun parts => (splitBytes (stop - start) parts.2).map Prod.fst

variable {n i start stop : ℕ} {b : UInt8} {c : Char} {cs front back : List Char}

theorem utf8_cons : utf8 (c :: cs) = String.utf8EncodeChar c ++ utf8 cs := List.flatMap_cons

theorem utf8_append (front back : List Char) : utf8 (front ++ back) = utf8 front ++ utf8 back :=
  List.flatMap_append

theorem utf8_eq_nil : utf8 cs = [] ↔ cs = [] := by
  cases cs with
  | nil => exact iff_of_true rfl rfl
  | cons c cs =>
      refine iff_of_false (fun hnil => ?_) (List.cons_ne_nil _ _)
      have hlength := congrArg List.length hnil
      rw [utf8_cons, List.length_append, String.length_utf8EncodeChar, List.length_nil] at hlength
      have hpos := c.utf8Size_pos
      omega

theorem length_utf8_cons : (utf8 (c :: cs)).length = c.utf8Size + (utf8 cs).length := by
  rw [utf8_cons, List.length_append, String.length_utf8EncodeChar]

/-- **The two parts of a text.** -/
theorem splitBytes_iff :
    splitBytes n cs = some (front, back) ↔ cs = front ++ back ∧ (utf8 front).length = n := by
  fun_induction splitBytes n cs generalizing front with
  | case1 cs =>
      rw [Option.some.injEq, Prod.mk.injEq]
      constructor
      · rintro ⟨rfl, rfl⟩
        exact ⟨rfl, rfl⟩
      · rintro ⟨rfl, hzero⟩
        obtain rfl := utf8_eq_nil.mp (List.length_eq_zero_iff.mp hzero)
        exact ⟨rfl, rfl⟩
  | case2 n =>
      refine iff_of_false (Option.some_ne_none _ ∘ Eq.symm) ?_
      rintro ⟨hnil, hlength⟩
      obtain ⟨rfl, rfl⟩ := List.append_eq_nil_iff.mp hnil.symm
      exact absurd hlength (Nat.succ_ne_zero n).symm
  | case3 n c cs hfits ih =>
      rw [Option.map_eq_some_iff]
      constructor
      · rintro ⟨⟨front, back'⟩, hsplit, heq⟩
        obtain ⟨rfl, rfl⟩ := Prod.mk.inj heq
        obtain ⟨rfl, hlength⟩ := ih.mp hsplit
        refine ⟨rfl, ?_⟩
        rw [length_utf8_cons, hlength]
        omega
      · rintro ⟨hcs, hlength⟩
        cases front with
        | nil => exact absurd hlength (Nat.succ_ne_zero n).symm
        | cons d front =>
            obtain ⟨rfl, rfl⟩ := List.cons.inj hcs
            rw [length_utf8_cons] at hlength
            exact ⟨(front, back), ih.mpr ⟨rfl, by omega⟩, rfl⟩
  | case4 n c cs hlong =>
      refine iff_of_false (Option.some_ne_none _ ∘ Eq.symm) ?_
      rintro ⟨hcs, hlength⟩
      cases front with
      | nil => exact absurd hlength (Nat.succ_ne_zero n).symm
      | cons d front =>
          obtain ⟨rfl, rfl⟩ := List.cons.inj hcs
          rw [length_utf8_cons] at hlength
          omega

/-- **A text can be split in front of a byte that begins a character.** -/
theorem exists_splitBytes (h : (utf8 cs)[i]? = some b) (hb : b.IsUTF8FirstByte) :
    ∃ front back, splitBytes i cs = some (front, back) := by
  induction cs generalizing i with
  | nil => cases h
  | cons c cs ih =>
      rw [utf8_cons] at h
      by_cases hi : i < (String.utf8EncodeChar c).length
      · rw [List.getElem?_append_left hi, List.getElem?_eq_getElem hi] at h
        obtain rfl := Option.some.inj h
        obtain rfl := UInt8.isUTF8FirstByte_getElem_utf8EncodeChar.mp hb
        exact ⟨[], c :: cs, rfl⟩
      · rw [List.getElem?_append_right (Nat.le_of_not_lt hi)] at h
        obtain ⟨front, back, hsplit⟩ := ih h
        obtain ⟨rfl, hlength⟩ := splitBytes_iff.mp hsplit
        refine ⟨c :: front, back, splitBytes_iff.mpr ⟨rfl, ?_⟩⟩
        rw [length_utf8_cons, hlength, ← String.length_utf8EncodeChar]
        exact Nat.add_sub_of_le (Nat.le_of_not_lt hi)

/-- **What lies between two byte offsets.** -/
theorem slice_iff {window : List Char} (h : start ≤ stop) :
    slice start stop cs = some window ↔ ∃ front back, cs = front ++ window ++ back ∧
      (utf8 front).length = start ∧ (utf8 (front ++ window)).length = stop := by
  rw [slice, Option.bind_eq_some_iff]
  constructor
  · rintro ⟨⟨front, rest⟩, hstart, hmap⟩
    obtain ⟨⟨window, back⟩, hstop, rfl⟩ := Option.map_eq_some_iff.mp hmap
    obtain ⟨rfl, hfront⟩ := splitBytes_iff.mp hstart
    obtain ⟨hrest, hwindow⟩ := splitBytes_iff.mp hstop
    refine ⟨front, back, ?_, hfront, ?_⟩
    · rw [List.append_assoc, ← hrest]
    · rw [utf8_append, List.length_append, hwindow, hfront]
      omega
  · rintro ⟨front, back, rfl, hfront, hwindow⟩
    rw [utf8_append, List.length_append] at hwindow
    refine ⟨(front, window ++ back), splitBytes_iff.mpr ⟨List.append_assoc _ _ _, hfront⟩, ?_⟩
    rw [splitBytes_iff.mpr ⟨rfl, show (utf8 window).length = stop - start by omega⟩]
    rfl

/-- A text can be sliced where it can be split at both ends. -/
theorem exists_slice_iff (h : start ≤ stop) : (∃ window, slice start stop cs = some window) ↔
    (splitBytes start cs).isSome ∧ (splitBytes stop cs).isSome := by
  constructor
  · rintro ⟨window, hslice⟩
    obtain ⟨front, back, rfl, hfront, hwindow⟩ := (slice_iff h).mp hslice
    rw [splitBytes_iff.mpr ⟨List.append_assoc _ _ _, hfront⟩, splitBytes_iff.mpr ⟨rfl, hwindow⟩]
    exact ⟨rfl, rfl⟩
  · rintro ⟨hstart, hstop⟩
    obtain ⟨⟨front, rest⟩, hstart⟩ := Option.isSome_iff_exists.mp hstart
    obtain ⟨⟨front', back⟩, hstop⟩ := Option.isSome_iff_exists.mp hstop
    obtain ⟨rfl, hfront⟩ := splitBytes_iff.mp hstart
    obtain ⟨hcs, hfront'⟩ := splitBytes_iff.mp hstop
    have hprefix : front <+: front' := by
      rcases List.prefix_or_prefix_of_prefix (List.prefix_append front rest)
        (hcs ▸ List.prefix_append front' back) with hle | ⟨more, rfl⟩
      · exact hle
      · rw [utf8_append, List.length_append] at hfront
        obtain rfl := utf8_eq_nil.mp (List.length_eq_zero_iff.mp
          (show (utf8 more).length = 0 by omega))
        exact ⟨[], by rw [List.append_nil, List.append_nil]⟩
    obtain ⟨window, rfl⟩ := hprefix
    exact ⟨window, (slice_iff h).mpr ⟨front, back, hcs, hfront, hfront'⟩⟩

end ClawDesk.Foundations
