import ClawDesk.Foundations.CompactJson
import ClawDesk.Foundations.Text
import ClawDesk.Sochdb.Transaction
import Mathlib.Logic.Function.Basic

/-!
# Compaction manifests

A manifest is stored as compact JSON.  Two manifests are never stored as the same bytes
(`manifestToVec_injective`), so a reader that gets back what was written exists
(`manifestReader`).
-/

namespace ClawDesk.Sochdb

open Foundations
open Foundations.Json (naturalText)

/-- Persistent record of a compaction operation.  The time is kept as the text it is stored
as. -/
@[ext]
structure CompactionManifest where
  /-- Monotonically increasing epoch counter for this session. -/
  epoch : ℕ
  sessionId : String
  compactedAt : String
  /-- Message keys that were deleted in this compaction. -/
  compactedKeys : List String
  /-- The summary key where the compacted text was stored. -/
  summaryKey : String
  sourceDigest : String
  messageCount : ℕ
  rangeStartMs : ℤ
  rangeEndMs : ℤ
  deriving DecidableEq

/-- An integer in decimal. -/
def intText (i : ℤ) : String :=
  String.ofList ((if i < 0 then ['-'] else []) ++ decimal 1 i.natAbs)

def manifestMembers (manifest : CompactionManifest) : List (String × Json) :=
  [("epoch", .number (intText manifest.epoch)),
    ("session_id", .string manifest.sessionId),
    ("compacted_at", .string manifest.compactedAt),
    ("compacted_keys", .array (manifest.compactedKeys.map .string)),
    ("summary_key", .string manifest.summaryKey),
    ("source_digest", .string manifest.sourceDigest),
    ("message_count", .number (intText manifest.messageCount)),
    ("range_start_ms", .number (intText manifest.rangeStartMs)),
    ("range_end_ms", .number (intText manifest.rangeEndMs))]

/-- `str::as_bytes`. -/
def asBytes (s : String) : Bytes := s.toUTF8.data.toList

/-- `serde_json::to_vec` of a manifest. -/
def manifestToVec (manifest : CompactionManifest) : Bytes :=
  asBytes (Json.object (manifestMembers manifest)).render

theorem asBytes_injective : Function.Injective asBytes := by
  intro s t h
  refine String.toByteArray_inj.mp (ByteArray.ext (Array.toList_inj.mp ?_))
  exact h

/-! ### Numbers -/

/-- What stands after a member of an object. -/
def Closes (c : Char) : Prop := c = ',' ∨ c = '\x7d'

theorem Closes.notMem_intText {c : Char} (hc : Closes c) (i : ℤ) : c ∉ (intText i).toList := by
  have hdecimal (n : ℕ) : c ∉ decimal 1 n := by
    rcases hc with rfl | rfl
    · exact notMem_decimal (Or.inl (by decide)) 1 n
    · exact notMem_decimal (Or.inr (by decide)) 1 n
  have hsign : c ∉ if i < 0 then ['-'] else [] := by
    rcases hc with rfl | rfl <;> split <;> decide
  rw [intText, String.toList_ofList, List.mem_append, not_or]
  exact ⟨hsign, hdecimal _⟩

theorem intText_injective : Function.Injective intText := by
  intro i j h
  have hlist := String.ofList_injective h
  have hdash (n : ℕ) : '-' ∉ decimal 1 n := notMem_decimal (Or.inl (by decide)) 1 n
  have hne {m n : ℕ} : '-' :: decimal 1 m ≠ decimal 1 n := by
    intro heq
    exact hdash n (heq ▸ List.mem_cons_self)
  by_cases hi : i < 0 <;> by_cases hj : j < 0 <;>
    simp only [hi, hj, if_true, if_false, List.singleton_append, List.nil_append] at hlist
  · have := decimal_injective 1 (List.cons.inj hlist).2
    omega
  · exact absurd hlist hne
  · exact absurd hlist.symm hne
  · have := decimal_injective 1 hlist
    omega

/-! ### Members -/

/-- A printed value is told from another one by what comes before the member's end. -/
def Legible (v w : Json) : Prop :=
  ∀ ⦃c : Char⦄ ⦃r s : List Char⦄, Closes c →
    v.render.toList ++ c :: r = w.render.toList ++ c :: s → v = w ∧ r = s

theorem legible_regular {v w : Json} (hv : v.regular naturalText = true)
    (hw : w.regular naturalText = true) : Legible v w := by
  intro c r s hc h
  have hstops (rest : List Char) : Json.Stops (c :: rest) := by
    refine Json.stops_cons ?_ rest
    rcases hc with rfl | rfl <;> decide
  obtain ⟨fuel, hvfuel, hwfuel⟩ : ∃ fuel, v.render.toList.length < fuel ∧
      w.render.toList.length < fuel :=
    ⟨max v.render.toList.length w.render.toList.length + 1, by omega, by omega⟩
  have hread := Json.readValue_render v fuel (c :: r) hv hvfuel (hstops r)
  rw [h, Json.readValue_render w fuel (c :: s) hw hwfuel (hstops s)] at hread
  obtain ⟨rfl, hrest⟩ := Prod.mk.inj (Option.some.inj hread)
  exact ⟨rfl, (List.cons.inj hrest).2.symm⟩

theorem legible_intText (i j : ℤ) : Legible (.number (intText i)) (.number (intText j)) := by
  intro c r s hc h
  obtain ⟨htext, rfl⟩ := eq_of_append_sep (hc.notMem_intText i) (hc.notMem_intText j) h
  rw [String.toList_inj.mp htext]
  exact ⟨rfl, rfl⟩

theorem Legible.member {v w : Json} (hlegible : Legible v w) {name : String} {c : Char}
    {r s : List Char} (hc : Closes c)
    (h : Json.memberText (name, v) ++ c :: r = Json.memberText (name, w) ++ c :: s) :
    v = w ∧ r = s := by
  rw [Json.memberText, Json.memberText, List.append_assoc, List.append_assoc] at h
  exact hlegible hc (List.cons.inj (List.append_cancel_left h)).2

theorem members_eq {ms ns : List (String × Json)}
    (hlegible : List.Forall₂ (fun m n => m.1 = n.1 ∧ Legible m.2 n.2) ms ns)
    (h : Json.membersText ms ++ ['\x7d'] = Json.membersText ns ++ ['\x7d']) : ms = ns := by
  induction hlegible with
  | nil => rfl
  | @cons m n ms ns hfirst hrest ih =>
      obtain ⟨name, v⟩ := m
      obtain ⟨_, w⟩ := n
      obtain ⟨rfl, hvalue⟩ := hfirst
      cases hrest with
      | nil =>
          rw [Json.membersText_singleton, Json.membersText_singleton] at h
          obtain ⟨rfl, -⟩ := Legible.member hvalue (Or.inr rfl) h
          rfl
      | cons hnext hlater =>
          rw [Json.membersText_cons, Json.membersText_cons, List.append_assoc, List.append_assoc,
            List.cons_append, List.cons_append] at h
          obtain ⟨rfl, htail⟩ := Legible.member hvalue (Or.inl rfl) h
          rw [ih htail]

theorem regular_keys (ks : List String) :
    (Json.array (ks.map .string)).regular naturalText = true := by
  rw [Json.regular]
  induction ks with
  | nil => rfl
  | cons k ks ih =>
      rw [List.map_cons, Json.regularItems, ih]
      rfl

theorem legible_members (m n : CompactionManifest) :
    List.Forall₂ (fun m n => m.1 = n.1 ∧ Legible m.2 n.2) (manifestMembers m)
      (manifestMembers n) := by
  have hnumber := legible_intText
  have hstring (s t : String) : Legible (.string s) (.string t) :=
    legible_regular (by simp [Json.regular]) (by simp [Json.regular])
  have hkeys := legible_regular (regular_keys m.compactedKeys) (regular_keys n.compactedKeys)
  unfold manifestMembers
  refine .cons ⟨rfl, hnumber _ _⟩ (.cons ⟨rfl, hstring _ _⟩ (.cons ⟨rfl, hstring _ _⟩
    (.cons ⟨rfl, hkeys⟩ (.cons ⟨rfl, hstring _ _⟩ (.cons ⟨rfl, hstring _ _⟩
      (.cons ⟨rfl, hnumber _ _⟩ (.cons ⟨rfl, hnumber _ _⟩
        (.cons ⟨rfl, hnumber _ _⟩ .nil))))))))

theorem manifestMembers_injective : Function.Injective manifestMembers := by
  intro m n h
  have hkeys : Function.Injective Json.string := fun _ _ h => Json.string.inj h
  simp only [manifestMembers, List.cons.injEq, Prod.mk.injEq, Json.number.injEq,
    Json.string.injEq, Json.array.injEq, hkeys.list_map.eq_iff, intText_injective.eq_iff,
    Nat.cast_inj, true_and, and_true] at h
  exact CompactionManifest.ext_iff.mpr h

/-- **Two manifests are never stored as the same bytes.** -/
theorem manifestToVec_injective : Function.Injective manifestToVec := by
  intro m n h
  have hrender := congrArg String.toList (asBytes_injective h)
  rw [Json.toList_render_object, Json.toList_render_object] at hrender
  exact manifestMembers_injective
    (members_eq (legible_members m n) (List.cons.inj hrender).2)

/-- A reader of what is written. -/
noncomputable def manifestReader : Bytes → Option CompactionManifest :=
  Function.partialInv manifestToVec

theorem manifestReader_toVec (manifest : CompactionManifest) :
    manifestReader (manifestToVec manifest) = some manifest :=
  Function.partialInv_left manifestToVec_injective manifest

end ClawDesk.Sochdb
