import Mathlib.Algebra.Order.Field.Rat
import Mathlib.Data.List.Defs
import Mathlib.Logic.Relation

/-!
# Capability sets

Capabilities imply one another: speech understanding is audio processing, and audio
processing is media processing.  A set of them is a word with a bit for each
(`CapSet`), and its closure sets the bits of everything implied.

How far a set meets a requirement is the share of the requirement's bits that it
has.  A share above nothing comes from a capability the two have in common
(`exists_common`).
-/

namespace ClawDesk.Acp

/-- Well-known capability identifiers. -/
inductive CapabilityId where
  | textGeneration
  | codeExecution
  | webSearch
  | fileProcessing
  | apiIntegration
  | dataManagement
  | mathematics
  | scheduling
  | messaging
  | mediaProcessing
  | imageProcessing
  | audioProcessing
  | videoProcessing
  | documentProcessing
  | voiceUnderstanding
  | textToSpeech
  | codeGeneration
  | summarization
  | translation
  | reasoningAdvanced
  | toolUse
  | multiModal
  deriving DecidableEq

namespace CapabilityId

/-- Bit index for this capability. -/
def bitIndex : CapabilityId → ℕ
  | textGeneration => 0
  | codeExecution => 1
  | webSearch => 2
  | fileProcessing => 3
  | apiIntegration => 4
  | dataManagement => 5
  | mathematics => 6
  | scheduling => 7
  | messaging => 8
  | mediaProcessing => 9
  | imageProcessing => 10
  | audioProcessing => 11
  | videoProcessing => 12
  | documentProcessing => 13
  | voiceUnderstanding => 14
  | textToSpeech => 15
  | codeGeneration => 16
  | summarization => 17
  | translation => 18
  | reasoningAdvanced => 19
  | toolUse => 20
  | multiModal => 21

/-- Parent capability in the implication hierarchy, if any. -/
def parent : CapabilityId → Option CapabilityId
  | imageProcessing | audioProcessing | videoProcessing | documentProcessing =>
      some mediaProcessing
  | voiceUnderstanding | textToSpeech => some audioProcessing
  | codeGeneration | summarization | translation => some textGeneration
  | _ => none

/-- All known capabilities. -/
def all : List CapabilityId :=
  [textGeneration, codeExecution, webSearch, fileProcessing, apiIntegration, dataManagement,
    mathematics, scheduling, messaging, mediaProcessing, imageProcessing, audioProcessing,
    videoProcessing, documentProcessing, voiceUnderstanding, textToSpeech, codeGeneration,
    summarization, translation, reasoningAdvanced, toolUse, multiModal]

theorem mem_all (cap : CapabilityId) : cap ∈ all := by
  cases cap <;> decide

theorem bitIndex_lt (cap : CapabilityId) : cap.bitIndex < 64 := by
  cases cap <;> decide

theorem all_getElem?_bitIndex (cap : CapabilityId) : all[cap.bitIndex]? = some cap := by
  cases cap <;> rfl

theorem bitIndex_injective : Function.Injective bitIndex := by
  intro c c' h
  have := all_getElem?_bitIndex c
  rw [h, all_getElem?_bitIndex] at this
  exact (Option.some.inj this).symm

/-- A parent comes before its children. -/
theorem bitIndex_parent_lt {cap p : CapabilityId} (h : cap.parent = some p) :
    p.bitIndex < cap.bitIndex := by
  cases cap <;> simp only [parent, reduceCtorEq, Option.some.injEq] at h <;> subst h <;> decide

/-- A capability implies itself, its parent, and what that implies. -/
def Implies : CapabilityId → CapabilityId → Prop :=
  Relation.ReflTransGen fun a b => a.parent = some b

theorem implies_iff {a c : CapabilityId} :
    a.Implies c ↔ a = c ∨ ∃ p ∈ a.parent, p.Implies c := by
  unfold Implies
  rw [Relation.ReflTransGen.cases_head_iff]
  rfl

end CapabilityId

/-- A set of capabilities, one bit for each. -/
structure CapSet where
  bits : BitVec 64
  deriving DecidableEq

namespace CapSet

open CapabilityId (bitIndex_lt bitIndex_injective)

/-- Empty capability set. -/
def empty : CapSet := ⟨0#64⟩

/-- Set a capability bit. -/
def insert (s : CapSet) (cap : CapabilityId) : CapSet := ⟨s.bits ||| 1#64 <<< cap.bitIndex⟩

/-- Test if a capability is present. -/
def contains (s : CapSet) (cap : CapabilityId) : Bool := s.bits &&& 1#64 <<< cap.bitIndex != 0#64

/-- Bitwise AND. -/
def intersection (s t : CapSet) : CapSet := ⟨s.bits &&& t.bits⟩

/-- Total set bits. -/
def count (s : CapSet) : ℕ := s.bits.cpop.toNat

/-- The set of some capabilities. -/
def ofList (caps : List CapabilityId) : CapSet := caps.foldl insert empty

/-- Walk a parent chain and set all ancestors.  A chain is shorter than the bit index of the
capability that it starts from. -/
def insertAncestors (closed : CapSet) : ℕ → Option CapabilityId → CapSet
  | _, none => closed
  | 0, some _ => closed
  | n + 1, some p => (closed.insert p).insertAncestors n p.parent

/-- One round of the closure. -/
def closeStep (closed : CapSet) (cap : CapabilityId) : CapSet :=
  if closed.contains cap then closed.insertAncestors cap.bitIndex cap.parent else closed

/-- Compute the hierarchical closure. -/
def close (s : CapSet) : CapSet := CapabilityId.all.foldl closeStep s

/-- Capability overlap score. -/
def overlapScore (s required : CapSet) : ℚ :=
  let requiredCount := required.count
  if requiredCount = 0 then 1
  else ((s.intersection required).count : ℚ) / (requiredCount : ℚ)

variable {s t : CapSet} {cap c : CapabilityId} {i : ℕ}

/-! ### What a word contains -/

theorem contains_eq : s.contains cap = s.bits.getLsbD cap.bitIndex := by
  unfold contains
  rw [← BitVec.twoPow_eq, BitVec.and_twoPow]
  have hne : BitVec.twoPow 64 cap.bitIndex ≠ 0#64 := by
    intro h
    have hbit := congrArg (fun b => b.getLsbD cap.bitIndex) h
    simp [bitIndex_lt] at hbit
  cases s.bits.getLsbD cap.bitIndex <;> simp [hne]

theorem getLsbD_insert : (s.insert cap).bits.getLsbD i = true ↔
    s.bits.getLsbD i = true ∨ cap.bitIndex = i := by
  unfold insert
  rw [← BitVec.twoPow_eq, BitVec.getLsbD_or, BitVec.getLsbD_twoPow]
  simp [bitIndex_lt]

theorem contains_insert : (s.insert cap).contains c = true ↔ s.contains c = true ∨ cap = c := by
  rw [contains_eq, contains_eq, getLsbD_insert]
  exact or_congr_right bitIndex_injective.eq_iff

theorem contains_intersection : (s.intersection t).contains c = true ↔
    s.contains c = true ∧ t.contains c = true := by
  rw [contains_eq, contains_eq, contains_eq, intersection, BitVec.getLsbD_and,
    Bool.and_eq_true]

theorem contains_foldl_insert {caps : List CapabilityId} :
    (caps.foldl insert s).contains c = true ↔ s.contains c = true ∨ c ∈ caps := by
  induction caps generalizing s with
  | nil => simp
  | cons cap caps ih =>
      rw [List.foldl_cons, ih, contains_insert, List.mem_cons, or_assoc, @eq_comm _ cap]

theorem contains_ofList {caps : List CapabilityId} :
    (ofList caps).contains c = true ↔ c ∈ caps := by
  have hempty : empty.contains c = false := by
    rw [contains_eq, empty, BitVec.getLsbD_zero]
  rw [ofList, contains_foldl_insert, hempty]
  simp

/-! ### The closure -/

theorem contains_insertAncestors {n : ℕ} {p : Option CapabilityId}
    (h : ∀ q ∈ p, q.bitIndex < n) : (s.insertAncestors n p).contains c = true ↔
      s.contains c = true ∨ ∃ q ∈ p, q.Implies c := by
  induction n generalizing s p with
  | zero =>
      cases p with
      | none => simp [insertAncestors]
      | some q => exact absurd (h q rfl) (Nat.not_lt_zero _)
  | succ n ih =>
      cases p with
      | none => simp [insertAncestors]
      | some q =>
          have hparent : ∀ r ∈ q.parent, r.bitIndex < n := fun r hr =>
            (CapabilityId.bitIndex_parent_lt hr).trans_le (Nat.lt_succ_iff.mp (h q rfl))
          rw [insertAncestors, ih hparent, contains_insert, or_assoc,
            ← CapabilityId.implies_iff]
          simp

theorem contains_closeStep : (s.closeStep cap).contains c = true ↔
    s.contains c = true ∨ s.contains cap = true ∧ ∃ p ∈ cap.parent, p.Implies c := by
  unfold closeStep
  split_ifs with h
  · rw [contains_insertAncestors fun _ => CapabilityId.bitIndex_parent_lt]
    simp [h]
  · simp [h]

theorem contains_foldl_closeStep (caps : List CapabilityId) (h : s.contains c = true) :
    (caps.foldl closeStep s).contains c = true := by
  induction caps generalizing s with
  | nil => exact h
  | cons cap caps ih => exact ih (contains_closeStep.mpr (.inl h))

/-- Nothing is set but what is implied. -/
theorem implied_of_contains_foldl {caps : List CapabilityId}
    (h : (caps.foldl closeStep s).contains c = true) :
    ∃ a, s.contains a = true ∧ a.Implies c := by
  induction caps generalizing s with
  | nil => exact ⟨c, h, .refl⟩
  | cons cap caps ih =>
      obtain ⟨a, ha, hac⟩ := ih h
      rcases contains_closeStep.mp ha with ha | ⟨hcap, p, hp, hpa⟩
      · exact ⟨a, ha, hac⟩
      · exact ⟨cap, hcap, CapabilityId.implies_iff.mpr (.inr ⟨p, hp, hpa.trans hac⟩)⟩

/-- **The closure holds what is implied.** -/
theorem contains_close : s.close.contains c = true ↔
    ∃ a, s.contains a = true ∧ a.Implies c := by
  constructor
  · exact implied_of_contains_foldl
  · rintro ⟨a, ha, hac⟩
    obtain ⟨before, after, hsplit⟩ := List.append_of_mem a.mem_all
    rw [close, hsplit, List.foldl_append, List.foldl_cons]
    apply contains_foldl_closeStep
    have hstill := contains_foldl_closeStep before ha
    rw [contains_closeStep]
    rcases CapabilityId.implies_iff.mp hac with rfl | himplied
    · exact .inl hstill
    · exact .inr ⟨hstill, himplied⟩

/-- **The closed set of some capabilities** holds what they imply and nothing else, and closing it
again adds nothing. -/
theorem close_ofList (caps : List CapabilityId) :
    (∀ c, (ofList caps).close.contains c = true ↔ ∃ a ∈ caps, a.Implies c) ∧
      ∀ c, (ofList caps).close.close.contains c = (ofList caps).close.contains c := by
  refine ⟨fun c => ?_, fun c => ?_⟩
  · rw [contains_close]
    exact exists_congr fun a => and_congr_left fun _ => contains_ofList
  · rw [Bool.eq_iff_iff, contains_close]
    constructor
    · rintro ⟨b, hb, hbc⟩
      obtain ⟨a, ha, hab⟩ := contains_close.mp hb
      exact contains_close.mpr ⟨a, ha, hab.trans hbc⟩
    · exact fun hc => ⟨c, hc, .refl⟩

/-! ### The overlap -/

/-- Every bit is the bit of a capability. -/
def Named (s : CapSet) : Prop :=
  ∀ i, s.bits.getLsbD i = true → ∃ cap : CapabilityId, cap.bitIndex = i

theorem Named.insert (h : s.Named) : (s.insert cap).Named := by
  intro i hi
  rcases getLsbD_insert.mp hi with hi | rfl
  · exact h i hi
  · exact ⟨cap, rfl⟩

theorem Named.insertAncestors {n : ℕ} {p : Option CapabilityId} (h : s.Named) :
    (s.insertAncestors n p).Named := by
  fun_induction CapSet.insertAncestors s n p with
  | case1 => exact h
  | case2 => exact h
  | case3 closed n p ih => exact ih h.insert

theorem Named.closeStep (h : s.Named) : (s.closeStep cap).Named := by
  unfold CapSet.closeStep
  split_ifs
  · exact h.insertAncestors
  · exact h

theorem Named.foldl {step : CapSet → CapabilityId → CapSet} {caps : List CapabilityId}
    (h : s.Named) (hstep : ∀ (s : CapSet) cap, s.Named → (step s cap).Named) :
    (caps.foldl step s).Named := by
  induction caps generalizing s with
  | nil => exact h
  | cons cap caps ih => exact ih (hstep s cap h)

theorem named_ofList (caps : List CapabilityId) : (ofList caps).Named := by
  have hempty : empty.Named := by
    intro i hi
    rw [empty, BitVec.getLsbD_zero] at hi
    exact absurd hi (by decide)
  exact hempty.foldl fun _ _ => Named.insert

theorem Named.close (h : s.Named) : s.close.Named :=
  h.foldl fun _ _ => Named.closeStep

theorem lt_cpopNatRec {w n acc : ℕ} {x : BitVec w} (hi : i < n) (hbit : x.getLsbD i = true) :
    acc < x.cpopNatRec n acc := by
  induction n generalizing acc with
  | zero => exact absurd hi (Nat.not_lt_zero _)
  | succ n ih =>
      rw [BitVec.cpopNatRec_succ]
      rcases Nat.lt_succ_iff_lt_or_eq.mp hi with hlt | rfl
      · exact (Nat.le_add_right _ _).trans_lt (ih hlt)
      · rw [hbit, BitVec.cpopNatRec_eq]
        exact Nat.lt_add_left _ (Nat.lt_succ_self _)

/-- A set is counted as none just if it contains none. -/
theorem count_eq_zero_iff (h : s.Named) : s.count = 0 ↔ ∀ cap, s.contains cap = false := by
  constructor
  · intro hcount cap
    by_contra hcontains
    rw [Bool.not_eq_false, contains_eq] at hcontains
    have hpos : 0 < s.bits.cpopNatRec 64 0 := lt_cpopNatRec (bitIndex_lt cap) hcontains
    rw [count, BitVec.toNat_cpop] at hcount
    omega
  · intro hnone
    have hzero : s.bits = 0#64 := by
      apply BitVec.eq_of_getLsbD_eq
      intro i _
      rw [BitVec.getLsbD_zero]
      by_contra hbit
      rw [Bool.not_eq_false] at hbit
      obtain ⟨cap, rfl⟩ := h i hbit
      rw [← contains_eq, hnone cap] at hbit
      exact absurd hbit (by decide)
    rw [count, hzero, BitVec.cpop_zero]
    rfl

/-- **A score above nothing comes from a capability in common.** -/
theorem exists_common (hs : s.Named) (ht : t.Named) (hrequired : t.contains c = true)
    (hscore : s.overlapScore t ≠ 0) : ∃ cap, s.contains cap = true ∧ t.contains cap = true := by
  by_contra hnone
  apply hscore
  have hcount : t.count ≠ 0 := by
    intro hzero
    rw [(count_eq_zero_iff ht).mp hzero c] at hrequired
    exact absurd hrequired (by decide)
  have hnamed : (s.intersection t).Named := by
    intro i hi
    rw [intersection, BitVec.getLsbD_and, Bool.and_eq_true] at hi
    exact hs i hi.1
  have hcommon : (s.intersection t).count = 0 := by
    rw [count_eq_zero_iff hnamed]
    intro cap
    by_contra hcap
    rw [Bool.not_eq_false, contains_intersection] at hcap
    exact hnone ⟨cap, hcap⟩
  unfold overlapScore
  dsimp only
  rw [if_neg hcount, hcommon, Nat.cast_zero, zero_div]

end CapSet

end ClawDesk.Acp
