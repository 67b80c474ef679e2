import Mathlib.Data.List.AList

/-!
# Stores whose keys are texts

`StartsWith` is the test that a text begins with another one, and `stripPrefix`
takes the beginning off.  `retain` keeps the entries of a store whose keys pass a
test.
-/

namespace ClawDesk.Foundations

/-! ### Beginnings of texts -/

/-- `str::starts_with`. -/
def startsWith (s pre : String) : Bool := pre.toList.isPrefixOf s.toList

/-- `str::strip_prefix`, and the text itself where it does not begin that way. -/
def stripPrefix (s pre : String) : String :=
  if startsWith s pre then String.ofList (s.toList.drop pre.toList.length) else s

theorem startsWith_iff {s pre : String} : startsWith s pre = true ↔ ∃ rest, s = pre ++ rest := by
  unfold startsWith
  rw [List.isPrefixOf_iff_prefix]
  constructor
  · rintro ⟨rest, hrest⟩
    refine ⟨String.ofList rest, String.toList_inj.mp ?_⟩
    rw [String.toList_append, String.toList_ofList, hrest]
  · rintro ⟨rest, rfl⟩
    rw [String.toList_append]
    exact List.prefix_append _ _

theorem startsWith_append (pre rest : String) : startsWith (pre ++ rest) pre = true :=
  startsWith_iff.mpr ⟨rest, rfl⟩

@[simp] theorem stripPrefix_append (pre rest : String) : stripPrefix (pre ++ rest) pre = rest := by
  unfold stripPrefix
  rw [if_pos (startsWith_append pre rest), String.toList_append, List.drop_left,
    String.ofList_toList]

/-- A text is cut in one way at a place. -/
theorem append_left_cancel {pre a b : String} (h : pre ++ a = pre ++ b) : a = b := by
  have hlist := congrArg String.toList h
  rw [String.toList_append, String.toList_append] at hlist
  exact String.toList_inj.mp (List.append_cancel_left hlist)

/-! ### Retaining -/

section Retain

variable {α β : Type} [DecidableEq α] {m : AList fun _ : α => β} {p : α → Bool} {a : α}

/-- `HashMap::retain`, by the keys. -/
def retain (m : AList fun _ : α => β) (p : α → Bool) : AList fun _ : α => β where
  entries := m.entries.filter fun e => p e.1
  nodupKeys := List.NodupKeys.sublist List.filter_sublist m.nodupKeys

theorem lookup_retain {b : β} :
    (retain m p).lookup a = some b ↔ m.lookup a = some b ∧ p a = true := by
  have hmem {m : AList fun _ : α => β} : m.lookup a = some b ↔ ⟨a, b⟩ ∈ m.entries :=
    AList.mem_lookup_iff
  rw [hmem, hmem]
  exact List.mem_filter

theorem lookup_retain_of_pos (h : p a = true) : (retain m p).lookup a = m.lookup a := by
  ext b
  rw [lookup_retain]
  exact and_iff_left h

theorem lookup_retain_of_neg (h : p a = false) : (retain m p).lookup a = none := by
  rw [Option.eq_none_iff_forall_ne_some]
  intro b hb
  rw [lookup_retain, h] at hb
  exact absurd hb.2 (by decide)

end Retain

end ClawDesk.Foundations
