import ClawDesk.Foundations.Str
import Mathlib.Algebra.Group.Nat.Defs
import Mathlib.Logic.Function.Iterate
import Mathlib.Order.Nat

/-!
# Chunking of a text for search

A long text is cut into chunks of at most `maxChars` characters, behind the best kind of
boundary that a window has, and each chunk repeats the last `overlapChars` characters of the
one before.

The best boundary of a window may lie close behind its start.  Where it is not more than the
overlap away, the next chunk would start where this one did, and the loop never ends.  Otherwise
every pass moves forward (`chunkText_returns_iff`); so it is wherever a chunk has to be longer
than the overlap (`not_stalls_of_overlapChars_le`).

Positions count characters.  The hash of a chunk is a parameter.
-/

namespace ClawDesk.Memory.Chunker

open Foundations

/-- Configuration for the chunker. -/
structure ChunkerConfig where
  /-- Maximum characters per chunk. -/
  maxChars : ℕ
  /-- Overlap characters carried to the next chunk. -/
  overlapChars : ℕ
  /-- Minimum chunk size. -/
  minChars : ℕ

instance : Inhabited ChunkerConfig := ⟨2048, 200, 100⟩

/-- A chunk produced by the chunker. -/
structure Chunk where
  text : List Char
  /-- Zero-based chunk index within the source. -/
  index : ℕ
  /-- Character offset of this chunk within the original text. -/
  charOffset : ℕ
  /-- Number of characters in this chunk. -/
  charLen : ℕ
  contentHash : String
  deriving DecidableEq

/-! ### Boundaries -/

/-- The kinds of boundaries a text is cut at. -/
inductive Boundary where
  | paragraph
  | sentence
  | newline
  | word
  deriving DecidableEq

namespace Boundary

/-- Whether a boundary of the kind starts at a position. -/
def startsAt (text : List Char) : Boundary → ℕ → Bool
  | paragraph, i => text[i]? = some '\n' && text[i + 1]? = some '\n'
  | sentence, i =>
      (text[i]? = some '.' || text[i]? = some '!' || text[i]? = some '?') &&
        (text[i + 1]? = some ' ' || text[i + 1]? = some '\n')
  | newline, i => text[i]? = some '\n'
  | word, i => text[i]? = some ' '

/-- How far behind its start the cut is made. -/
def width : Boundary → ℕ
  | paragraph => 2
  | _ => 1

/-- The kinds in the order they are looked for. -/
def kinds : List Boundary := [paragraph, sentence, newline, word]

/-- The kinds that are looked for before a kind. -/
def preferred (kind : Boundary) : List Boundary := kinds.takeWhile (· ≠ kind)

theorem width_pos (kind : Boundary) : 0 < kind.width := by cases kind <;> decide

theorem mem_kinds (kind : Boundary) : kind ∈ kinds := by cases kind <;> decide

theorem preferred_eq {front back : List Boundary} {kind : Boundary}
    (h : kinds = front ++ kind :: back) : kind.preferred = front := by
  have hnodup : (front ++ kind :: back).Nodup := h ▸ by decide
  have hnot : ∀ other ∈ front, decide (other ≠ kind) = true := fun other hmem => by
    rw [decide_eq_true_iff]
    exact (List.nodup_append.mp hnodup).2.2 other hmem kind List.mem_cons_self
  rw [preferred, h, List.takeWhile_append_of_pos hnot, List.takeWhile_cons_of_neg (by simp),
    List.append_nil]

end Boundary

/-- The last position of a range where a test succeeds, searched backward. -/
def findBack (test : ℕ → Bool) (lo : ℕ) : ℕ → Option ℕ
  | 0 => none
  | hi + 1 => if hi < lo then none else if test hi then some hi else findBack test lo hi

theorem findBack_eq_none_iff {test : ℕ → Bool} {lo hi : ℕ} :
    findBack test lo hi = none ↔ ∀ i, lo ≤ i → i < hi → test i = false := by
  induction hi with
  | zero => simp [findBack]
  | succ hi ih =>
      unfold findBack
      split_ifs with hlo htest
      · simp only [true_iff]
        intro i hi' hlt
        omega
      · refine iff_of_false id fun h => ?_
        have := h hi (by omega) (by omega)
        simp [this] at htest
      · rw [ih]
        refine ⟨fun h i hi' hlt => ?_, fun h i hi' hlt => h i hi' (by omega)⟩
        rcases Nat.lt_succ_iff_lt_or_eq.mp hlt with hlt | rfl
        · exact h i hi' hlt
        · simpa using htest

theorem findBack_eq_some {test : ℕ → Bool} {lo hi i : ℕ} (h : findBack test lo hi = some i) :
    lo ≤ i ∧ i < hi ∧ test i = true ∧ ∀ j, i < j → j < hi → test j = false := by
  induction hi with
  | zero => cases h
  | succ hi ih =>
      unfold findBack at h
      split_ifs at h with hlo htest
      · obtain rfl := Option.some.inj h
        exact ⟨by omega, by omega, htest, fun j hj hlt => by omega⟩
      · obtain ⟨hle, hlt, hi', hlast⟩ := ih h
        refine ⟨hle, by omega, hi', fun j hj hj' => ?_⟩
        rcases Nat.lt_succ_iff_lt_or_eq.mp hj' with hj' | rfl
        · exact hlast j hj hj'
        · simpa using htest

/-- Find the best split point in the range `[start, stop)`. -/
def findBestSplit (charIndices : List Char) (start stop minChars : ℕ) : ℕ :=
  -- The addition wraps around.
  let searchStart := (start + minChars) % 2 ^ 64
  if stop ≤ searchStart then stop
  else
    let split := Boundary.kinds.findSome? fun kind =>
      (findBack (kind.startsAt charIndices) searchStart stop).map (· + kind.width)
    split.getD stop

section Window

variable {text : List Char} {start stop minChars bound : ℕ}

/-- A kind of boundary starts somewhere in the searched part of a window. -/
def Occurs (text : List Char) (lo stop : ℕ) (kind : Boundary) : Prop :=
  ∃ i, lo ≤ i ∧ i < stop ∧ kind.startsAt text i = true

theorem not_occurs_iff {lo : ℕ} {kind : Boundary} :
    ¬ Occurs text lo stop kind ↔ findBack (kind.startsAt text) lo stop = none := by
  rw [findBack_eq_none_iff, Occurs]
  simp only [not_exists, not_and, Bool.not_eq_true]

/-- The best kind of boundary in the searched part of a window. -/
def IsBest (text : List Char) (lo stop : ℕ) (kind : Boundary) : Prop :=
  Occurs text lo stop kind ∧ ∀ other ∈ kind.preferred, ¬ Occurs text lo stop other

/-- **The split is at the end of the window, or behind the last boundary of the best kind.** -/
theorem findBestSplit_cases (text : List Char) (start stop minChars : ℕ) :
    (findBestSplit text start stop minChars = stop ∧
      ∀ kind, ¬ Occurs text ((start + minChars) % 2 ^ 64) stop kind) ∨
    ∃ kind i, findBestSplit text start stop minChars = i + kind.width ∧
      IsBest text ((start + minChars) % 2 ^ 64) stop kind ∧
      (start + minChars) % 2 ^ 64 ≤ i ∧ i < stop ∧ kind.startsAt text i = true ∧
      ∀ j, i < j → j < stop → kind.startsAt text j = false := by
  unfold findBestSplit
  generalize (start + minChars) % 2 ^ 64 = lo
  dsimp only
  split_ifs with hlo
  · exact Or.inl ⟨rfl, fun kind ⟨i, hle, hlt, _⟩ => by omega⟩
  · cases hfind : Boundary.kinds.findSome? fun kind =>
        (findBack (kind.startsAt text) lo stop).map (· + kind.width) with
    | none =>
        refine Or.inl ⟨rfl, fun kind => not_occurs_iff.mpr ?_⟩
        simpa using List.findSome?_eq_none_iff.mp hfind kind kind.mem_kinds
    | some split =>
        obtain ⟨front, kind, back, hkinds, hsome, hfront⟩ := List.findSome?_eq_some_iff.mp hfind
        obtain ⟨i, hi, rfl⟩ := Option.map_eq_some_iff.mp hsome
        obtain ⟨hle, hlt, htest, hlast⟩ := findBack_eq_some hi
        refine Or.inr ⟨kind, i, rfl, ⟨⟨i, hle, hlt, htest⟩, ?_⟩, hle, hlt, htest, hlast⟩
        rw [Boundary.preferred_eq hkinds]
        exact fun other hother => not_occurs_iff.mpr (by simpa using hfront other hother)

theorem IsBest.unique {lo : ℕ} {kind other : Boundary} (h : IsBest text lo stop kind)
    (hother : IsBest text lo stop other) : kind = other := by
  by_contra hne
  obtain ⟨front, back, hkinds⟩ := List.append_of_mem kind.mem_kinds
  have hmem : other ∈ front ++ kind :: back := hkinds ▸ other.mem_kinds
  rcases List.mem_append.mp hmem with hfront | hback
  · exact h.2 other (Boundary.preferred_eq hkinds ▸ hfront) hother.1
  · obtain ⟨mid, last, rfl⟩ := List.append_of_mem
      ((List.mem_cons.mp hback).resolve_left fun heq => hne heq.symm)
    have hsplit : Boundary.kinds = (front ++ kind :: mid) ++ other :: last := by
      rw [hkinds, List.append_assoc, List.cons_append]
    exact hother.2 kind (Boundary.preferred_eq hsplit ▸ by simp) h.1

/-- The split lies no further than a bound inside the window where no boundary of the best kind
leads beyond it. -/
theorem findBestSplit_le_iff (hbound : bound < stop) :
    findBestSplit text start stop minChars ≤ bound ↔
      ∃ kind, IsBest text ((start + minChars) % 2 ^ 64) stop kind ∧
        ∀ i, (start + minChars) % 2 ^ 64 ≤ i → i < stop → kind.startsAt text i = true →
          i + kind.width ≤ bound := by
  rcases findBestSplit_cases text start stop minChars with
    ⟨hsplit, hnone⟩ | ⟨kind, i, hsplit, hbest, hle, hlt, htest, hlast⟩
  · rw [hsplit]
    exact iff_of_false (by omega) fun ⟨kind, hbest, _⟩ => hnone kind hbest.1
  · rw [hsplit]
    constructor
    · refine fun hi => ⟨kind, hbest, fun j _ hj hjtest => ?_⟩
      have : ¬ i < j := fun hij => by simp [hlast j hij hj] at hjtest
      omega
    · rintro ⟨other, hother, hall⟩
      obtain rfl := hbest.unique hother
      exact hall i hle hlt htest

end Window

/-! ### The loop -/

section Loop

variable (sha256Hex : List Char → String) (text : List Char) (config : ChunkerConfig)

/-- The state of the chunking loop. -/
inductive Flow where
  /-- About to test whether `startChar` is inside the text. -/
  | looping (startChar : ℕ) (chunks : List Chunk)
  | ended (chunks : List Chunk)
  /-- The range of a slice ended before its start. -/
  | panicked

/-- The split point for a chunk at a position. -/
def splitChar (startChar : ℕ) : ℕ :=
  let endChar := min (startChar + config.maxChars) text.length
  if text.length ≤ endChar then text.length
  else findBestSplit text startChar endChar config.minChars

/-- The body of the loop. -/
def pass (startChar : ℕ) (chunks : List Chunk) : Flow :=
  let split := splitChar text config startChar
  if split < startChar then .panicked
  else
    let chunkText := (text.drop startChar).take (split - startChar)
    let chunks :=
      if Str.trim chunkText = [] then chunks
      else chunks ++ [{
        text := chunkText
        index := chunks.length
        charOffset := startChar
        charLen := split - startChar
        contentHash := sha256Hex chunkText }]
    if text.length ≤ split then .ended chunks
    else .looping (split - min config.overlapChars (split - startChar)) chunks

/-- One step of the loop. -/
def Flow.step : Flow → Flow
  | .looping startChar chunks =>
      if startChar < text.length then pass sha256Hex text config startChar chunks
      else .ended chunks
  | .ended chunks => .ended chunks
  | .panicked => .panicked

/-- The loop after some steps. -/
def loopAfter (steps : ℕ) : Flow := (Flow.step sha256Hex text config)^[steps] (.looping 0 [])

/-- Merge the last chunk if it's too small. -/
def mergeLast (chunks : List Chunk) : List Chunk :=
  match chunks.reverse with
  | removed :: prev :: rest =>
      if removed.charLen < config.minChars then
        let merged := { prev with
          text := prev.text ++ removed.text
          charLen := prev.charLen + removed.charLen
          contentHash := sha256Hex (prev.text ++ removed.text) }
        (merged :: rest).reverse
      else chunks
  | _ => chunks

/-- Chunk text into overlapping segments at semantic boundaries, with a bound on the steps of
the loop. -/
def chunkText (steps : ℕ) : Option (List Chunk) :=
  if text = [] then some []
  else if text.length ≤ config.maxChars then
    some [⟨text, 0, 0, text.length, sha256Hex text⟩]
  else
    match loopAfter sha256Hex text config steps with
    | .ended chunks => some (mergeLast sha256Hex config chunks)
    | _ => none

end Loop

/-! ### Progress -/

section Progress

variable {sha256Hex : List Char → String} {text : List Char} {config : ChunkerConfig}
  {startChar steps : ℕ} {chunks : List Chunk}

/-- Where the window does not reach the end of the text, and the best boundary behind the minimum
size never leads further than the overlap. -/
def Stalls (text : List Char) (config : ChunkerConfig) (startChar : ℕ) : Prop :=
  startChar + config.maxChars < text.length ∧
    ∃ kind,
      IsBest text ((startChar + config.minChars) % 2 ^ 64) (startChar + config.maxChars) kind ∧
      ∀ i, (startChar + config.minChars) % 2 ^ 64 ≤ i → i < startChar + config.maxChars →
        kind.startsAt text i = true → i + kind.width ≤ startChar + config.overlapChars

/-- A start position of a pass of the loop. -/
def Reached (sha256Hex : List Char → String) (text : List Char) (config : ChunkerConfig)
    (startChar : ℕ) : Prop :=
  ∃ steps chunks, loopAfter sha256Hex text config steps = .looping startChar chunks

theorem stalls_iff (h : config.overlapChars < config.maxChars) :
    Stalls text config startChar ↔ startChar + config.maxChars < text.length ∧
      splitChar text config startChar ≤ startChar + config.overlapChars := by
  unfold Stalls
  refine and_congr_right fun hlt => ?_
  have hsplit : splitChar text config startChar =
      findBestSplit text startChar (startChar + config.maxChars) config.minChars := by
    unfold splitChar
    rw [Nat.min_eq_left hlt.le, if_neg (not_le.mpr hlt)]
  rw [hsplit, findBestSplit_le_iff (by omega)]

/-- A chunk longer than the overlap is enough. -/
theorem not_stalls_of_overlapChars_le (h : config.overlapChars ≤ config.minChars)
    (hwrap : startChar + config.minChars < 2 ^ 64) : ¬ Stalls text config startChar := by
  rintro ⟨-, kind, ⟨⟨i, hle, hlt, htest⟩, -⟩, hall⟩
  have hi := hall i hle hlt htest
  have hpos := kind.width_pos
  rw [Nat.mod_eq_of_lt hwrap] at hle
  omega

theorem length_append_chunk_le (chunk : Chunk) (p : Prop) [Decidable p] :
    (if p then chunks else chunks ++ [chunk]).length ≤ chunks.length + 1 := by
  split_ifs
  · exact Nat.le_succ _
  · exact List.length_append.le

/-- A pass that does not stall ends the loop or moves forward, with at most one more chunk. -/
theorem pass_of_not_stalls (h : config.overlapChars < config.maxChars)
    (hstart : startChar < text.length) (hstalls : ¬ Stalls text config startChar) :
    ∃ chunks', chunks'.length ≤ chunks.length + 1 ∧
      (pass sha256Hex text config startChar chunks = .ended chunks' ∨
        ∃ next, startChar < next ∧ next < text.length ∧
          pass sha256Hex text config startChar chunks = .looping next chunks') := by
  have hsplit : text.length ≤ splitChar text config startChar ∨
      startChar + config.overlapChars < splitChar text config startChar := by
    by_cases hlt : startChar + config.maxChars < text.length
    · refine Or.inr (not_le.mp fun hle => hstalls ((stalls_iff h).mpr ⟨hlt, hle⟩))
    · refine Or.inl ?_
      unfold splitChar
      rw [if_pos (le_min (not_lt.mp hlt) le_rfl)]
  unfold pass
  dsimp only
  rw [if_neg (by omega)]
  by_cases hend : text.length ≤ splitChar text config startChar
  · rw [if_pos hend]
    exact ⟨_, length_append_chunk_le _ _, Or.inl rfl⟩
  · rw [if_neg hend]
    exact ⟨_, length_append_chunk_le _ _, Or.inr ⟨_, by omega, by omega, rfl⟩⟩

/-- A pass that stalls panics or starts again where it started. -/
theorem pass_of_stalls (h : config.overlapChars < config.maxChars)
    (hstalls : Stalls text config startChar) :
    pass sha256Hex text config startChar chunks = .panicked ∨
      ∃ chunks', pass sha256Hex text config startChar chunks = .looping startChar chunks' := by
  obtain ⟨hlt, hle⟩ := (stalls_iff h).mp hstalls
  unfold pass
  dsimp only
  by_cases hback : splitChar text config startChar < startChar
  · rw [if_pos hback]
    exact Or.inl rfl
  · rw [if_neg hback, if_neg (by omega)]
    refine Or.inr ⟨_, congrArg (Flow.looping · _) ?_⟩
    omega

theorem loopAfter_succ : loopAfter sha256Hex text config (steps + 1) =
    Flow.step sha256Hex text config (loopAfter sha256Hex text config steps) :=
  Function.iterate_succ_apply' ..

/-- Each step of a loop that never stalls moves forward, with at most one more chunk. -/
theorem loopAfter_of_not_stalls (h : config.overlapChars < config.maxChars) (htext : text ≠ [])
    (hforward : ∀ startChar, Reached sha256Hex text config startChar →
      ¬ Stalls text config startChar) (steps : ℕ) :
    (∃ chunks, loopAfter sha256Hex text config steps = .ended chunks ∧
      chunks.length ≤ text.length) ∨
    ∃ startChar chunks, loopAfter sha256Hex text config steps = .looping startChar chunks ∧
      steps ≤ startChar ∧ startChar < text.length ∧ chunks.length ≤ startChar := by
  induction steps with
  | zero => exact Or.inr ⟨0, [], rfl, le_rfl, List.length_pos_iff.mpr htext, le_rfl⟩
  | succ steps ih =>
      rw [loopAfter_succ]
      rcases ih with ⟨chunks, hended, hlen⟩ | ⟨startChar, chunks, hloop, hsteps, hlt, hlen⟩
      · rw [hended]
        exact Or.inl ⟨chunks, rfl, hlen⟩
      · obtain ⟨chunks', hlen', hpass⟩ :=
          @pass_of_not_stalls sha256Hex _ _ _ chunks h hlt (hforward _ ⟨_, _, hloop⟩)
        rw [hloop]
        simp only [Flow.step, if_pos hlt]
        rcases hpass with hpass | ⟨next, hnext, hlt', hpass⟩
        · exact Or.inl ⟨chunks', hpass, by omega⟩
        · exact Or.inr ⟨next, chunks', hpass, by omega, hlt', by omega⟩

/-- A loop that stalls does not end. -/
theorem loopAfter_of_stalls (h : config.overlapChars < config.maxChars)
    (hstalls : Stalls text config startChar)
    (hloop : loopAfter sha256Hex text config steps = .looping startChar chunks) (more : ℕ) :
    loopAfter sha256Hex text config (steps + more) = .panicked ∨
      ∃ chunks', loopAfter sha256Hex text config (steps + more) = .looping startChar chunks' := by
  induction more with
  | zero => exact Or.inr ⟨chunks, hloop⟩
  | succ more ih =>
      rw [← Nat.add_assoc, loopAfter_succ]
      rcases ih with hpanic | ⟨chunks', hlooping⟩
      · rw [hpanic]
        exact Or.inl rfl
      · rw [hlooping]
        have hstart : startChar < text.length := (Nat.le_add_right _ _).trans_lt hstalls.1
        simp only [Flow.step, if_pos hstart]
        exact pass_of_stalls h hstalls

theorem loopAfter_ended_add (hended : loopAfter sha256Hex text config steps = .ended chunks)
    (more : ℕ) : loopAfter sha256Hex text config (steps + more) = .ended chunks := by
  induction more with
  | zero => exact hended
  | succ more ih => rw [← Nat.add_assoc, loopAfter_succ, ih, Flow.step]

theorem length_mergeLast_le : (mergeLast sha256Hex config chunks).length ≤ chunks.length := by
  unfold mergeLast
  split
  · rename_i removed prev rest hrev
    split_ifs
    · have hlen := congrArg List.length hrev
      rw [List.length_reverse] at hlen
      simp only [List.length_reverse, hlen, List.length_cons]
      omega
    · exact le_rfl
  · exact le_rfl

/-- Chunking does not return where a pass stalls. -/
theorem chunkText_of_stalls (h : config.overlapChars < config.maxChars)
    (hreached : Reached sha256Hex text config startChar) (hstalls : Stalls text config startChar)
    (steps : ℕ) : chunkText sha256Hex text config steps = none := by
  obtain ⟨before, chunks, hloop⟩ := hreached
  have hlong : config.maxChars < text.length := (Nat.le_add_left _ _).trans_lt hstalls.1
  unfold chunkText
  rw [if_neg (List.length_pos_iff.mp (Nat.zero_lt_of_lt hlong)), if_neg (not_le.mpr hlong)]
  cases hafter : loopAfter sha256Hex text config steps with
  | looping | panicked => rfl
  | ended done =>
      have hended := loopAfter_ended_add hafter before
      rw [Nat.add_comm] at hended
      rcases loopAfter_of_stalls h hstalls hloop steps with hpanic | ⟨chunks', hlooping⟩
      · rw [hpanic] at hended
        cases hended
      · rw [hlooping] at hended
        cases hended

/-- Chunking returns where no pass stalls, with no more chunks than characters. -/
theorem chunkText_of_not_stalls (h : config.overlapChars < config.maxChars)
    (hforward : ∀ startChar, Reached sha256Hex text config startChar →
      ¬ Stalls text config startChar) :
    ∃ steps chunks, chunkText sha256Hex text config steps = some chunks ∧
      chunks.length ≤ text.length := by
  by_cases htext : text = []
  · refine ⟨0, [], ?_, Nat.zero_le _⟩
    rw [chunkText, if_pos htext]
  by_cases hlong : text.length ≤ config.maxChars
  · refine ⟨0, [⟨text, 0, 0, text.length, sha256Hex text⟩], ?_, List.length_pos_iff.mpr htext⟩
    rw [chunkText, if_neg htext, if_pos hlong]
  rcases loopAfter_of_not_stalls h htext hforward text.length with
    ⟨chunks, hended, hlen⟩ | ⟨startChar, chunks, -, hsteps, hlt, -⟩
  · refine ⟨text.length, mergeLast sha256Hex config chunks, ?_, length_mergeLast_le.trans hlen⟩
    rw [chunkText, if_neg htext, if_neg hlong, hended]
  · omega

/-- **Chunking returns, every pass moving forward, just where no pass stalls.** -/
theorem chunkText_returns_iff (sha256Hex : List Char → String) (text : List Char)
    (config : ChunkerConfig) (h : config.overlapChars < config.maxChars) :
    ((∃ steps chunks, chunkText sha256Hex text config steps = some chunks ∧
        chunks.length ≤ text.length) ∧
      ∀ steps startChar chunks startChar' chunks',
        loopAfter sha256Hex text config steps = .looping startChar chunks →
        loopAfter sha256Hex text config (steps + 1) = .looping startChar' chunks' →
        startChar < startChar') ↔
    ∀ startChar, Reached sha256Hex text config startChar → ¬ Stalls text config startChar := by
  constructor
  · rintro ⟨⟨steps, chunks, hreturns, -⟩, -⟩ startChar hreached hstalls
    rw [chunkText_of_stalls h hreached hstalls steps] at hreturns
    cases hreturns
  · intro hforward
    refine ⟨chunkText_of_not_stalls h hforward, ?_⟩
    intro steps startChar chunks startChar' chunks' hloop hnext
    rw [loopAfter_succ, hloop, Flow.step] at hnext
    split_ifs at hnext with hstart
    obtain ⟨_, -, hended | ⟨next, hlt, -, hlooping⟩⟩ :=
      @pass_of_not_stalls sha256Hex _ _ _ chunks h hstart (hforward _ ⟨_, _, hloop⟩)
    · rw [hended] at hnext
      cases hnext
    · rw [hlooping] at hnext
      cases hnext
      exact hlt

theorem chunkText_returns_iff_small : ∃ steps chunks,
    chunkText String.ofList ['a', 'b', 'c'] ⟨2, 1, 1⟩ steps = some chunks ∧ chunks.length ≤ 3 := by
  refine ((chunkText_returns_iff String.ofList ['a', 'b', 'c'] ⟨2, 1, 1⟩ (by decide)).mpr ?_).1
  intro startChar _ hstalls
  have hlt : startChar + 2 < 3 := hstalls.1
  exact not_stalls_of_overlapChars_le le_rfl (by dsimp only; omega) hstalls

/-- A word, a space and a word that is longer than a chunk. -/
def longWord : List Char := List.replicate 101 'x' ++ ' ' :: List.replicate 2100 'x'

theorem longWord_getElem? {i : ℕ} {c : Char} (h : longWord[i]? = some c) :
    c = 'x' ∨ c = ' ' ∧ i = 101 := by
  unfold longWord at h
  rw [List.getElem?_append, List.length_replicate] at h
  split_ifs at h with hfirst
  · exact Or.inl (List.eq_of_mem_replicate (List.mem_of_getElem? h))
  · obtain ⟨_ | n, hn⟩ : ∃ n, i - 101 = n := ⟨_, rfl⟩
    · rw [hn] at h
      exact Or.inr ⟨(Option.some.inj h).symm, by omega⟩
    · rw [hn, List.getElem?_cons_succ] at h
      exact Or.inl (List.eq_of_mem_replicate (List.mem_of_getElem? h))

/-- The space is the only boundary of the first window, and not far enough behind its start. -/
theorem stalls_longWord : Stalls longWord default 0 := by
  have hword : ∀ i, Boundary.word.startsAt longWord i = true → i = 101 := fun i hi => by
    rcases longWord_getElem? (of_decide_eq_true hi) with hc | hc
    · cases hc
    · exact hc.2
  have hother : ∀ kind ∈ Boundary.word.preferred, ∀ i, kind.startsAt longWord i = false := by
    intro kind hkind i
    have hchar : ∀ c, c ≠ 'x' → c ≠ ' ' → longWord[i]? ≠ some c := fun c hx hspace hi => by
      rcases longWord_getElem? hi with hc | hc
      · exact hx hc
      · exact hspace hc.1
    cases kind with
    | paragraph => simp [Boundary.startsAt, hchar]
    | sentence => simp [Boundary.startsAt, hchar]
    | newline => simp [Boundary.startsAt, hchar]
    | word => exact absurd hkind (by decide)
  refine ⟨by decide +kernel, .word, ⟨⟨101, by decide, by decide, by decide +kernel⟩, ?_⟩, ?_⟩
  · rintro kind hkind ⟨i, -, -, hi⟩
    simp [hother kind hkind i] at hi
  · rintro i - - hi
    rw [hword i hi]
    decide

/-- With the default configuration, a text is chunked forever. -/
theorem chunkText_longWord_diverges : (default : ChunkerConfig).overlapChars <
      (default : ChunkerConfig).maxChars ∧
    ∀ (sha256Hex : List Char → String) (steps : ℕ),
      chunkText sha256Hex longWord default steps = none :=
  ⟨by decide, fun _ => chunkText_of_stalls (by decide) ⟨0, [], rfl⟩ stalls_longWord⟩

end Progress

end ClawDesk.Memory.Chunker
