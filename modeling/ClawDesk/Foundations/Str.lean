import Mathlib.Data.List.TakeWhile
import Mathlib.Tactic.Common

/-!
# Strings as lists of characters

The methods of `str` that several parts of the program use.
-/

namespace ClawDesk.Foundations.Str

/-- `char::is_whitespace`, the Unicode property `White_Space`. -/
def isWhitespace (c : Char) : Bool :=
  (9 ≤ c.toNat && c.toNat ≤ 13) || (0x2000 ≤ c.toNat && c.toNat ≤ 0x200A) ||
    [0x20, 0x85, 0xA0, 0x1680, 0x2028, 0x2029, 0x202F, 0x205F, 0x3000].contains c.toNat

/-- `trim_start`. -/
def trimStart (cs : List Char) : List Char := cs.dropWhile isWhitespace

/-- `trim`. -/
def trim (cs : List Char) : List Char :=
  ((trimStart cs).reverse.dropWhile isWhitespace).reverse

/-- `trim_matches`, for a character. -/
def trimMatches (c : Char) (cs : List Char) : List Char :=
  ((cs.dropWhile (· = c)).reverse.dropWhile (· = c)).reverse

/-- `strip_prefix`. -/
def stripFront (front cs : List Char) : Option (List Char) :=
  if front.isPrefixOf cs then some (cs.drop front.length) else none

/-- `strip_suffix`. -/
def stripBack (back cs : List Char) : Option (List Char) :=
  if back.isSuffixOf cs then some (cs.take (cs.length - back.length)) else none

/-- `splitn(2, sep)`: the parts before and after the first separator, or the whole. -/
def splitTwo (sep : Char) (cs : List Char) : List (List Char) :=
  match cs.dropWhile (· ≠ sep) with
  | [] => [cs]
  | _ :: rest => [cs.takeWhile (· ≠ sep), rest]

/-- `split_whitespace`. -/
def splitWhitespace (cs : List Char) : List (List Char) :=
  (cs.splitOnP isWhitespace).filter (· ≠ [])

/-- Trimming leaves nothing of a blank text, and of no other. -/
theorem trim_eq_nil_iff {cs : List Char} : trim cs = [] ↔ ∀ c ∈ cs, isWhitespace c = true := by
  rw [trim, List.reverse_eq_nil_iff, List.dropWhile_eq_nil_iff]
  simp only [List.mem_reverse]
  refine ⟨fun hrest => ?_, fun h c hc => h c ((List.dropWhile_sublist _).subset hc)⟩
  have hnil : trimStart cs = [] := by
    by_contra hne
    have hhead := List.head_dropWhile_not isWhitespace hne
    exact Bool.noConfusion ((hrest _ (List.head_mem hne)).symm.trans hhead)
  exact List.dropWhile_eq_nil_iff.mp hnil

theorem stripFront_eq_some {front cs rest : List Char} (h : stripFront front cs = some rest) :
    cs = front ++ rest := by
  unfold stripFront at h
  split_ifs at h with hfront
  obtain rfl := Option.some.inj h
  exact (List.prefix_iff_eq_append.mp (List.isPrefixOf_iff_prefix.mp hfront)).symm

theorem stripBack_eq_some {back cs rest : List Char} (h : stripBack back cs = some rest) :
    cs = rest ++ back := by
  unfold stripBack at h
  split_ifs at h with hback
  obtain rfl := Option.some.inj h
  exact (List.suffix_iff_eq_append.mp (List.isSuffixOf_iff_suffix.mp hback)).symm

theorem stripFront_eq_some_iff {front cs rest : List Char} :
    stripFront front cs = some rest ↔ cs = front ++ rest := by
  refine ⟨stripFront_eq_some, ?_⟩
  rintro rfl
  rw [stripFront, if_pos (by simp), List.drop_left]

theorem stripBack_eq_some_iff {back cs rest : List Char} :
    stripBack back cs = some rest ↔ cs = rest ++ back := by
  refine ⟨stripBack_eq_some, ?_⟩
  rintro rfl
  rw [stripBack, if_pos (by simp), List.length_append, Nat.add_sub_cancel, List.take_left]

/-- A text with two parts has a separator between them. -/
theorem splitTwo_eq_pair {sep : Char} {cs front back : List Char}
    (h : splitTwo sep cs = [front, back]) : cs = front ++ sep :: back := by
  unfold splitTwo at h
  cases hdrop : cs.dropWhile (· ≠ sep) with
  | nil =>
      rw [hdrop] at h
      cases h
  | cons c rest =>
      rw [hdrop] at h
      obtain ⟨rfl, rfl⟩ : cs.takeWhile (· ≠ sep) = front ∧ rest = back := by
        simpa using h
      have hc : c = sep := by
        have hhead := List.head?_dropWhile_not (fun x => decide (x ≠ sep)) cs
        rw [hdrop] at hhead
        simpa using hhead
      have hsplit : cs.takeWhile (· ≠ sep) ++ cs.dropWhile (· ≠ sep) = cs :=
        List.takeWhile_append_dropWhile
      rw [hdrop, hc] at hsplit
      exact hsplit.symm

end ClawDesk.Foundations.Str
