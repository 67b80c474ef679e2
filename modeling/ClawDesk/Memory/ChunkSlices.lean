import ClawDesk.Memory.Chunker
import Mathlib.Data.List.Chain

/-!
# The chunks as parts of the text

A chunk says where in the text it stands.  The windows of the loop are parts of the text that
leave nothing but whitespace out, and each starts at most the overlap before the end of the one
before (`Cut`).

Two things break what a chunk says of itself.  A paragraph break is found by its first newline,
so the second one may lie behind the window (`Overlong`).  And a last chunk that is too small is
appended to the one before with the characters that both have (`Seamless`).  Where neither
happens, the chunks are as they say (`chunks_conform_iff`).
-/

namespace ClawDesk.Memory.Chunker

open Foundations

/-! ### Equal parts of a list -/

section Parts

variable {P : ℕ → Prop} {start other len : ℕ}

/-- A property passes through a part that is repeated further on, from all that comes behind
it. -/
theorem forall_of_repeat_behind (hlt : start < other)
    (hrepeat : ∀ j, j < len → P (other + j) → P (start + j))
    (hbehind : ∀ p, start + len ≤ p → P p) : ∀ p, start ≤ p → P p := by
  intro p hp
  induction hrest : start + len - p using Nat.strong_induction_on generalizing p with
  | _ rest ih =>
      by_cases hin : p < start + len
      · have hnext : P (p + (other - start)) := ih _ (by omega) _ (by omega) rfl
        have := hrepeat (p - start) (by omega)
        rw [show other + (p - start) = p + (other - start) by omega,
          show start + (p - start) = p by omega] at this
        exact this hnext
      · exact hbehind p (by omega)

/-- A property passes through a part that repeats an earlier one, from all that lies between. -/
theorem forall_of_repeat_before (hlt : other < start)
    (hrepeat : ∀ j, j < len → P (other + j) → P (start + j))
    (hbetween : ∀ p, other ≤ p → p < start → P p) : ∀ p, other ≤ p → p < start + len → P p := by
  intro p
  induction p using Nat.strong_induction_on with
  | _ p ih =>
      intro hle hp
      by_cases hin : p < start
      · exact hbetween p hle hin
      · have hbefore : P (p - (start - other)) := ih _ (by omega) (by omega) (by omega)
        have := hrepeat (p - start) (by omega)
        rw [show other + (p - start) = p - (start - other) by omega,
          show start + (p - start) = p by omega] at this
        exact this hbefore

end Parts

section Chunks

variable (text : List Char) (config : ChunkerConfig)

/-- The position behind a chunk. -/
def Chunk.stop (chunk : Chunk) : ℕ := chunk.charOffset + chunk.charLen

/-- A chunk's text is what stands in the text where the chunk says. -/
def Chunk.IsSlice (chunk : Chunk) : Prop :=
  chunk.stop ≤ text.length ∧ chunk.text = (text.drop chunk.charOffset).take chunk.charLen

/-- A position lies in a chunk. -/
def Covered (chunks : List Chunk) (p : ℕ) : Prop :=
  ∃ chunk ∈ chunks, chunk.charOffset ≤ p ∧ p < chunk.stop

/-- The chunks are slices of the text in their order, leave out whitespace only, have at most
`maxChars` characters unless the last one is enlarged, and overlap by at most `overlapChars`. -/
structure Conforms (enlarged : Prop) (chunks : List Chunk) : Prop where
  isSlice : ∀ chunk ∈ chunks, chunk.IsSlice text
  index_eq : chunks.map Chunk.index = List.range chunks.length
  covered : ∀ p c, text[p]? = some c → Str.isWhitespace c = false → Covered chunks p
  charLen_le : ∀ chunk ∈ chunks, config.maxChars < chunk.charLen →
    enlarged ∧ chunks.getLast? = some chunk
  overlap_le : chunks.IsChain fun chunk next => chunk.stop ≤ next.charOffset + config.overlapChars

/-- The chunks before the last one is merged. -/
def unmerged (sha256Hex : List Char → String) (steps : ℕ) : Option (List Chunk) :=
  if text = [] then some []
  else if text.length ≤ config.maxChars then
    some [⟨text, 0, 0, text.length, sha256Hex text⟩]
  else
    match loopAfter sha256Hex text config steps with
    | .ended chunks => some chunks
    | _ => none

/-- The last of several chunks is too small. -/
def Merges (chunks : List Chunk) : Prop :=
  ∃ front prev removed, chunks = front ++ [prev, removed] ∧ removed.charLen < config.minChars

/-- A chunk that is merged starts just behind the one before. -/
def Seamless (chunks : List Chunk) : Prop :=
  ∀ front prev removed, chunks = front ++ [prev, removed] →
    removed.charLen < config.minChars → removed.charOffset = prev.stop

/-- The window at a position ends between the newlines of a paragraph break. -/
def Overlong (startChar : ℕ) : Prop :=
  startChar + config.maxChars < text.length ∧
    (startChar + config.minChars) % 2 ^ 64 < startChar + config.maxChars ∧
    text[startChar + config.maxChars - 1]? = some '\n' ∧
    text[startChar + config.maxChars]? = some '\n'

end Chunks

variable {sha256Hex : List Char → String} {text : List Char} {config : ChunkerConfig}
  {startChar next steps : ℕ} {chunk : Chunk} {chunks : List Chunk}

/-! ### The end of a window -/

theorem splitChar_eq_of_lt (h : startChar + config.maxChars < text.length) :
    splitChar text config startChar =
      findBestSplit text startChar (startChar + config.maxChars) config.minChars := by
  unfold splitChar
  rw [Nat.min_eq_left h.le, if_neg (not_le.mpr h)]

theorem splitChar_eq_of_le (h : text.length ≤ startChar + config.maxChars) :
    splitChar text config startChar = text.length := by
  unfold splitChar
  rw [if_pos (le_min h le_rfl)]

theorem splitChar_le_length : splitChar text config startChar ≤ text.length := by
  by_cases hlt : startChar + config.maxChars < text.length
  · rw [splitChar_eq_of_lt hlt]
    rcases findBestSplit_cases text startChar (startChar + config.maxChars) config.minChars with
      ⟨hsplit, -⟩ | ⟨kind, i, hsplit, -, -, hi, htest, -⟩
    · omega
    · cases kind with
      | paragraph =>
          simp only [Boundary.startsAt, Bool.and_eq_true, decide_eq_true_iff] at htest
          obtain ⟨hsecond, -⟩ := List.getElem?_eq_some_iff.mp htest.2
          simp only [Boundary.width] at hsplit
          omega
      | sentence | newline | word =>
          simp only [Boundary.width] at hsplit
          omega
  · rw [splitChar_eq_of_le (not_lt.mp hlt)]

/-- **Only a paragraph break leads behind the window.** -/
theorem splitChar_le_iff :
    splitChar text config startChar ≤ startChar + config.maxChars ↔
      ¬ Overlong text config startChar := by
  by_cases hlt : startChar + config.maxChars < text.length
  swap
  · rw [splitChar_eq_of_le (not_lt.mp hlt)]
    exact iff_of_true (not_lt.mp hlt) fun hover => hlt hover.1
  rw [splitChar_eq_of_lt hlt]
  have hparagraph : Overlong text config startChar →
      (startChar + config.minChars) % 2 ^ 64 ≤ startChar + config.maxChars - 1 ∧
        startChar + config.maxChars - 1 < startChar + config.maxChars ∧
        Boundary.paragraph.startsAt text (startChar + config.maxChars - 1) = true := by
    rintro ⟨-, hlo, hfirst, hsecond⟩
    refine ⟨by omega, by omega, ?_⟩
    rw [Boundary.startsAt, hfirst, show startChar + config.maxChars - 1 + 1 =
      startChar + config.maxChars by omega, hsecond]
    rfl
  rcases findBestSplit_cases text startChar (startChar + config.maxChars) config.minChars with
    ⟨hsplit, hnone⟩ | ⟨kind, i, hsplit, hbest, hle, hi, htest, hlast⟩
  · refine iff_of_true hsplit.le fun hover => ?_
    exact hnone .paragraph ⟨_, hparagraph hover⟩
  · rw [hsplit]
    constructor
    · intro hwidth hover
      obtain ⟨hlo, hstop, hstarts⟩ := hparagraph hover
      obtain rfl : kind = .paragraph :=
        hbest.unique ⟨⟨_, hlo, hstop, hstarts⟩, fun other hother => by cases hother⟩
      have hbehind : ¬ i < startChar + config.maxChars - 1 := fun hbefore => by
        simp [hlast _ hbefore hstop] at hstarts
      simp only [Boundary.width] at hwidth
      omega
    · intro hover
      cases kind with
      | paragraph =>
          simp only [Boundary.startsAt, Bool.and_eq_true, decide_eq_true_iff] at htest
          by_contra hwidth
          simp only [Boundary.width] at hwidth
          obtain rfl : i = startChar + config.maxChars - 1 := by omega
          rw [show startChar + config.maxChars - 1 + 1 = startChar + config.maxChars by omega]
            at htest
          exact hover ⟨hlt, by omega, htest.1, htest.2⟩
      | sentence | newline | word =>
          simp only [Boundary.width]
          omega

/-! ### The windows of the loop -/

/-- Nothing but whitespace stands at a position. -/
def Blank (text : List Char) (p : ℕ) : Prop := ∀ c, text[p]? = some c → Str.isWhitespace c = true

/-- A position up to which nothing but whitespace stands behind a chunk, and from which not more
than the overlap is repeated. -/
structure Reaches (text : List Char) (config : ChunkerConfig) (chunk : Chunk) (next : ℕ) :
    Prop where
  offset_le : chunk.charOffset ≤ next
  stop_le : chunk.stop ≤ next + config.overlapChars
  blank : ∀ p, chunk.stop ≤ p → p < next → Blank text p

/-- A chunk that holds what a pass has read, more than whitespace. -/
structure IsWindow (text : List Char) (config : ChunkerConfig) (chunk : Chunk) : Prop where
  stop_eq : chunk.stop = splitChar text config chunk.charOffset
  isSlice : chunk.IsSlice text
  not_blank : ¬ ∀ c ∈ chunk.text, Str.isWhitespace c = true

/-- The chunks of a text up to a position. -/
structure Cut (text : List Char) (config : ChunkerConfig) (next : ℕ) (chunks : List Chunk) :
    Prop where
  next_le : next ≤ text.length
  isWindow : ∀ chunk ∈ chunks, IsWindow text config chunk
  index_eq : chunks.map Chunk.index = List.range chunks.length
  chain : chunks.IsChain fun chunk after => Reaches text config chunk after.charOffset
  reaches : ∀ chunk ∈ chunks.getLast?, Reaches text config chunk next
  covered : ∀ p, p < next → ¬ Blank text p → Covered chunks p

theorem Blank.of_lt {p : ℕ} (h : p < text.length → Blank text p) : Blank text p := fun c hc =>
  h (List.getElem?_eq_some_iff.mp hc).1 c hc

theorem getElem?_slice {start len j : ℕ} (h : j < len) :
    ((text.drop start).take len)[j]? = text[start + j]? := by
  rw [List.getElem?_take_of_lt h, List.getElem?_drop]

theorem blank_slice_iff {start len : ℕ} :
    (∀ c ∈ (text.drop start).take len, Str.isWhitespace c = true) ↔
      ∀ j, j < len → Blank text (start + j) := by
  constructor
  · intro h j hj c hc
    exact h c (List.mem_of_getElem? ((getElem?_slice hj).trans hc))
  · intro h c hc
    obtain ⟨j, hj⟩ := List.mem_iff_getElem?.mp hc
    have hlt : j < len := by
      have hlen := (List.getElem?_eq_some_iff.mp hj).1
      rw [List.length_take] at hlen
      omega
    exact h j hlt c ((getElem?_slice hlt).symm.trans hj)

theorem Cut.start : Cut text config 0 [] where
  next_le := Nat.zero_le _
  isWindow := fun _ h => by cases h
  index_eq := rfl
  chain := .nil
  reaches := fun _ h => by cases h
  covered := fun p hp => absurd hp p.not_lt_zero

theorem Cut.covered_of_getElem? (h : Cut text config text.length chunks) {p : ℕ} {c : Char}
    (hc : text[p]? = some c) (hblack : Str.isWhitespace c = false) : Covered chunks p :=
  h.covered p (List.getElem?_eq_some_iff.mp hc).1 fun hblank =>
    Bool.noConfusion ((hblank c hc).symm.trans hblack)

/-- A window of whitespace is left out. -/
theorem Cut.skip {split : ℕ} (h : Cut text config startChar chunks) (hle : startChar ≤ next)
    (hsplit : next ≤ split) (hlen : split ≤ text.length)
    (hblank : ∀ c ∈ (text.drop startChar).take (split - startChar), Str.isWhitespace c = true) :
    Cut text config next chunks := by
  have hwindow : ∀ p, startChar ≤ p → p < next → Blank text p := by
    intro p hp hnext
    have hj := blank_slice_iff.mp hblank (p - startChar) (by omega)
    rwa [Nat.add_sub_of_le hp] at hj
  refine ⟨hsplit.trans hlen, h.isWindow, h.index_eq, h.chain, ?_, ?_⟩
  · intro last hlast
    have hreaches := h.reaches last hlast
    refine ⟨hreaches.offset_le.trans hle, hreaches.stop_le.trans (by omega), ?_⟩
    intro p hstop hp
    by_cases hbefore : p < startChar
    · exact hreaches.blank p hstop hbefore
    · exact hwindow p (not_lt.mp hbefore) hp
  · intro p hp hblack
    by_cases hbefore : p < startChar
    · exact h.covered p hbefore hblack
    · exact absurd (hwindow p (not_lt.mp hbefore) hp) hblack

/-- Any other window becomes a chunk. -/
theorem Cut.push (h : Cut text config startChar chunks) (hchunk : IsWindow text config chunk)
    (hindex : chunk.index = chunks.length) (hoffset : chunk.charOffset = startChar)
    (hle : startChar ≤ next) (hnext : next ≤ chunk.stop)
    (hoverlap : chunk.stop ≤ next + config.overlapChars) :
    Cut text config next (chunks ++ [chunk]) := by
  refine ⟨hnext.trans hchunk.isSlice.1, ?_, ?_, ?_, ?_, ?_⟩
  · intro other hother
    rcases List.mem_append.mp hother with hold | hnew
    · exact h.isWindow other hold
    · exact List.mem_singleton.mp hnew ▸ hchunk
  · rw [List.map_append, h.index_eq, List.length_append, List.map_singleton, hindex,
      List.length_singleton, List.range_succ]
  · refine List.isChain_append.mpr ⟨h.chain, .singleton _, ?_⟩
    intro last hlast first hfirst
    obtain rfl : chunk = first := by simpa using hfirst
    exact hoffset ▸ h.reaches last hlast
  · intro last hlast
    obtain rfl : chunk = last := by simpa using hlast
    exact ⟨hoffset.le.trans hle, hoverlap, fun p hp hlt => by omega⟩
  · intro p hp hblack
    by_cases hbefore : p < startChar
    · obtain ⟨other, hother, hin⟩ := h.covered p hbefore hblack
      exact ⟨other, List.mem_append_left _ hother, hin⟩
    · exact ⟨chunk, by simp, by omega, by omega⟩

/-- What holds of the loop in each of its states. -/
def Flow.Cuts (text : List Char) (config : ChunkerConfig) : Flow → Prop
  | .looping startChar chunks => Cut text config startChar chunks
  | .ended chunks => Cut text config text.length chunks
  | .panicked => True

/-- The chunks behind a window, up to each position that its end overlaps. -/
theorem Cut.window (h : Cut text config startChar chunks)
    (hsplit : startChar ≤ splitChar text config startChar) (hle : startChar ≤ next)
    (hnext : next ≤ splitChar text config startChar)
    (hoverlap : splitChar text config startChar ≤ next + config.overlapChars) :
    let chunkText := (text.drop startChar).take (splitChar text config startChar - startChar)
    Cut text config next
      (if Str.trim chunkText = [] then chunks
      else chunks ++ [{
        text := chunkText
        index := chunks.length
        charOffset := startChar
        charLen := splitChar text config startChar - startChar
        contentHash := sha256Hex chunkText }]) := by
  dsimp only
  have hlen : splitChar text config startChar ≤ text.length := splitChar_le_length
  have hstop : startChar + (splitChar text config startChar - startChar) =
      splitChar text config startChar := Nat.add_sub_of_le hsplit
  split_ifs with hblank
  · exact h.skip hle hnext hlen (Str.trim_eq_nil_iff.mp hblank)
  · exact h.push ⟨hstop, ⟨hstop.le.trans hlen, rfl⟩, Str.trim_eq_nil_iff.not.mp hblank⟩ rfl rfl hle
      (hnext.trans hstop.ge) (hstop.le.trans hoverlap)

/-- A pass cuts the text a bit further. -/
theorem pass_cuts (h : Cut text config startChar chunks) :
    (pass sha256Hex text config startChar chunks).Cuts text config := by
  unfold pass
  dsimp only
  by_cases hback : splitChar text config startChar < startChar
  · rw [if_pos hback]
    trivial
  rw [if_neg hback]
  by_cases hend : text.length ≤ splitChar text config startChar
  · rw [if_pos hend]
    exact h.window (not_lt.mp hback) h.next_le hend
      (splitChar_le_length.trans (Nat.le_add_right _ _))
  · rw [if_neg hend]
    exact h.window (not_lt.mp hback) (by omega) (Nat.sub_le _ _) (by omega)

/-- **The loop cuts the text.** -/
theorem loopAfter_cuts (sha256Hex : List Char → String) (text : List Char)
    (config : ChunkerConfig) (steps : ℕ) :
    (loopAfter sha256Hex text config steps).Cuts text config := by
  induction steps with
  | zero => exact Cut.start
  | succ steps ih =>
      rw [loopAfter_succ]
      cases hloop : loopAfter sha256Hex text config steps with
      | looping startChar chunks =>
          rw [hloop] at ih
          simp only [Flow.step]
          split_ifs with hstart
          · exact pass_cuts ih
          · have hcut : Cut text config startChar chunks := ih
            have hend : startChar = text.length := Nat.le_antisymm hcut.next_le (not_lt.mp hstart)
            rw [hend] at hcut
            exact hcut
      | ended chunks =>
          rw [hloop] at ih
          exact ih
      | panicked => trivial

/-! ### The last chunk -/

/-- A chunk with the next one merged into it. -/
def Chunk.merge (sha256Hex : List Char → String) (prev removed : Chunk) : Chunk :=
  { prev with
    text := prev.text ++ removed.text
    charLen := prev.charLen + removed.charLen
    contentHash := sha256Hex (prev.text ++ removed.text) }

section Merge

variable {front back : List Chunk} {prev removed : Chunk}

theorem mergeLast_of_not_merges (h : ¬ Merges config chunks) :
    mergeLast sha256Hex config chunks = chunks := by
  unfold mergeLast
  split
  · rename_i removed prev rest hrev
    rw [if_neg fun hsmall => h ⟨rest.reverse, prev, removed, ?_, hsmall⟩]
    simpa using congrArg List.reverse hrev
  · rfl

theorem mergeLast_append (h : removed.charLen < config.minChars) :
    mergeLast sha256Hex config (front ++ [prev, removed]) =
      front ++ [prev.merge sha256Hex removed] := by
  simp only [mergeLast, List.reverse_append, List.reverse_cons, List.reverse_nil, List.nil_append,
    List.cons_append, if_pos h, Chunk.merge, List.reverse_reverse]

theorem chunkText_eq_map (sha256Hex : List Char → String) (text : List Char)
    (config : ChunkerConfig) (steps : ℕ) : chunkText sha256Hex text config steps =
      (unmerged text config sha256Hex steps).map (mergeLast sha256Hex config) := by
  unfold chunkText unmerged
  split_ifs
  · rfl
  · rfl
  · cases loopAfter sha256Hex text config steps <;> rfl

theorem index_eq_length (h : chunks.map Chunk.index = List.range chunks.length)
    (hsplit : chunks = front ++ chunk :: back) : chunk.index = front.length := by
  have hindex := congrArg (·[front.length]?) h
  simpa [hsplit] using hindex

theorem index_lt_length (h : chunks.map Chunk.index = List.range chunks.length)
    (hsplit : chunks = front ++ back) (hmem : chunk ∈ front) : chunk.index < front.length := by
  obtain ⟨before, after, rfl⟩ := List.append_of_mem hmem
  rw [index_eq_length h (hsplit.trans (List.append_assoc _ _ _)), List.length_append]
  exact Nat.lt_add_of_pos_right (Nat.succ_pos _)

theorem length_le_index (h : chunks.map Chunk.index = List.range chunks.length)
    (hsplit : chunks = front ++ back) (hmem : chunk ∈ back) : front.length ≤ chunk.index := by
  obtain ⟨before, after, rfl⟩ := List.append_of_mem hmem
  rw [index_eq_length h (hsplit.trans (List.append_assoc _ _ _).symm), List.length_append]
  exact Nat.le_add_right _ _

theorem IsWindow.charLen_le_iff (h : IsWindow text config chunk) :
    chunk.charLen ≤ config.maxChars ↔ ¬ Overlong text config chunk.charOffset := by
  rw [← splitChar_le_iff, ← h.stop_eq, Chunk.stop]
  omega

theorem merge_text_eq_iff (h : prev.IsSlice text) :
    prev.text ++ removed.text =
        (text.drop prev.charOffset).take (prev.charLen + removed.charLen) ↔
      removed.text = (text.drop prev.stop).take removed.charLen := by
  rw [List.take_add, List.drop_drop, ← h.2, List.append_cancel_left_eq]
  rfl

/-- **The merged chunk is a slice only where the removed one starts behind the one before.** -/
theorem offset_eq_of_isSlice (hcut : Cut text config text.length (front ++ [prev, removed]))
    (hslice : (prev.merge sha256Hex removed).IsSlice text) : removed.charOffset = prev.stop := by
  have hprev := (hcut.isWindow prev (by simp)).isSlice
  have hremoved := hcut.isWindow removed (by simp)
  have hnext : Reaches text config prev removed.charOffset := by
    have hchain := (List.isChain_append.mp hcut.chain).2.1
    exact (List.isChain_cons_cons.mp hchain).1
  have htext := (merge_text_eq_iff hprev).mp hslice.2
  -- The text of the removed chunk stands in two places.
  have hrepeat : ∀ j, j < removed.charLen → Blank text (prev.stop + j) →
      Blank text (removed.charOffset + j) := by
    intro j hj hblank c hc
    refine hblank c ?_
    rw [← getElem?_slice hj, ← htext, hremoved.isSlice.2, getElem?_slice hj, hc]
  by_contra hne
  refine hremoved.not_blank ?_
  rw [hremoved.isSlice.2, blank_slice_iff]
  intro j hj
  rcases Nat.lt_or_gt_of_ne hne with hlt | hgt
  · refine forall_of_repeat_behind hlt hrepeat (fun p hp => Blank.of_lt fun hlen => ?_) _
      (Nat.le_add_right _ _)
    exact (hcut.reaches removed (by simp)).blank p hp hlen
  · exact forall_of_repeat_before hgt hrepeat hnext.blank _ (by omega) (by omega)

theorem stop_merge (hseam : removed.charOffset = prev.stop) :
    (prev.merge sha256Hex removed).stop = removed.stop := by
  rw [Chunk.stop, Chunk.stop, hseam, Chunk.stop]
  exact (Nat.add_assoc _ _ _).symm

theorem isSlice_merge (hcut : Cut text config text.length (front ++ [prev, removed]))
    (hseam : removed.charOffset = prev.stop) : (prev.merge sha256Hex removed).IsSlice text := by
  have hprev := (hcut.isWindow prev (by simp)).isSlice
  have hremoved := (hcut.isWindow removed (by simp)).isSlice
  exact ⟨(stop_merge hseam).le.trans hremoved.1,
    (merge_text_eq_iff hprev).mpr (hseam ▸ hremoved.2)⟩

theorem index_merge
    (h : (front ++ [prev, removed]).map Chunk.index =
      List.range (front ++ [prev, removed]).length) :
    (front ++ [prev.merge sha256Hex removed]).map Chunk.index =
      List.range (front ++ [prev.merge sha256Hex removed]).length := by
  rw [show front ++ [prev, removed] = front ++ [prev] ++ [removed] by simp, List.map_append,
    List.length_append, List.length_singleton, List.range_succ] at h
  have hinit := (List.append_inj' h rfl).1
  rw [List.map_append, List.length_append] at hinit
  rw [List.map_append, List.length_append]
  exact hinit

/-- What lies in a chunk lies in one afterwards. -/
theorem covered_merge (hseam : removed.charOffset = prev.stop) {p : ℕ}
    (h : Covered (front ++ [prev, removed]) p) :
    Covered (front ++ [prev.merge sha256Hex removed]) p := by
  obtain ⟨chunk, hmem, hle, hlt⟩ := h
  have hmerge := @stop_merge sha256Hex _ _ hseam
  have hoffset : (prev.merge sha256Hex removed).charOffset = prev.charOffset := rfl
  have hprev : prev.charOffset ≤ prev.stop := Nat.le_add_right _ _
  have hremoved : removed.charOffset ≤ removed.stop := Nat.le_add_right _ _
  simp only [List.mem_append, List.mem_cons, List.not_mem_nil, or_false] at hmem
  rcases hmem with hmem | rfl | rfl
  · exact ⟨chunk, List.mem_append_left _ hmem, hle, hlt⟩
  · exact ⟨_, List.mem_concat_self, by omega, by omega⟩
  · exact ⟨_, List.mem_concat_self, by omega, by omega⟩

theorem chain_merge {overlap : ℕ}
    (h : (front ++ [prev, removed]).IsChain fun chunk next =>
      chunk.stop ≤ next.charOffset + overlap) :
    (front ++ [prev.merge sha256Hex removed]).IsChain fun chunk next =>
      chunk.stop ≤ next.charOffset + overlap := by
  obtain ⟨hchain, -, hnext⟩ := List.isChain_append.mp h
  refine List.isChain_append.mpr ⟨hchain, .singleton _, fun last hmem first hfirst => ?_⟩
  obtain rfl : prev.merge sha256Hex removed = first := by simpa using hfirst
  exact hnext last hmem prev rfl

/-- Where nothing is merged. -/
theorem conforms_of_not_merges (hcut : Cut text config text.length chunks)
    (h : ¬ Merges config chunks) :
    Conforms text config (Merges config chunks) chunks ↔
      ∀ chunk ∈ chunks, ¬ Overlong text config chunk.charOffset := by
  constructor
  · intro hconforms chunk hmem hover
    have hlong : config.maxChars < chunk.charLen :=
      not_le.mp fun hle => (hcut.isWindow chunk hmem).charLen_le_iff.mp hle hover
    exact h (hconforms.charLen_le chunk hmem hlong).1
  · intro hshort
    refine ⟨fun chunk hmem => (hcut.isWindow chunk hmem).isSlice, hcut.index_eq, ?_, ?_, ?_⟩
    · exact fun p c hc hblack => hcut.covered_of_getElem? hc hblack
    · intro chunk hmem hlong
      have hle := (hcut.isWindow chunk hmem).charLen_le_iff.mpr (hshort chunk hmem)
      exact absurd hlong (not_lt.mpr hle)
    · exact hcut.chain.imp fun _ _ hreaches => hreaches.stop_le

/-- Where the last chunk is merged. -/
theorem conforms_merge (hcut : Cut text config text.length (front ++ [prev, removed]))
    {enlarged : Prop} (h : enlarged) :
    Conforms text config enlarged (front ++ [prev.merge sha256Hex removed]) ↔
      removed.charOffset = prev.stop ∧
      ∀ chunk ∈ front, ¬ Overlong text config chunk.charOffset := by
  have hfront : ∀ chunk ∈ front, IsWindow text config chunk := fun chunk hmem =>
    hcut.isWindow chunk (List.mem_append_left _ hmem)
  have hindex : prev.index = front.length := index_eq_length hcut.index_eq rfl
  constructor
  · intro hconforms
    refine ⟨offset_eq_of_isSlice hcut (hconforms.isSlice _ List.mem_concat_self), ?_⟩
    intro chunk hmem hover
    have hlong : config.maxChars < chunk.charLen :=
      not_le.mp fun hle => (hfront chunk hmem).charLen_le_iff.mp hle hover
    have hlast := (hconforms.charLen_le chunk (List.mem_append_left _ hmem) hlong).2
    rw [List.getLast?_concat] at hlast
    have hlt := index_lt_length hcut.index_eq rfl hmem
    rw [← Option.some.inj hlast] at hlt
    exact absurd hindex hlt.ne
  · rintro ⟨hseam, hshort⟩
    refine ⟨?_, ?_, ?_, ?_, ?_⟩
    · intro chunk hmem
      rcases List.mem_append.mp hmem with hmem | hmem
      · exact (hfront chunk hmem).isSlice
      · exact List.mem_singleton.mp hmem ▸ isSlice_merge hcut hseam
    · exact index_merge hcut.index_eq
    · exact fun p c hc hblack => covered_merge hseam (hcut.covered_of_getElem? hc hblack)
    · intro chunk hmem hlong
      rcases List.mem_append.mp hmem with hmem | hmem
      · have hle := (hfront chunk hmem).charLen_le_iff.mpr (hshort chunk hmem)
        exact absurd hlong (not_lt.mpr hle)
      · rw [List.mem_singleton.mp hmem, List.getLast?_concat]
        exact ⟨h, rfl⟩
    · exact chain_merge (hcut.chain.imp fun _ _ hreaches => hreaches.stop_le)

/-- The chunks of a loop that has ended. -/
theorem conforms_iff_of_cut (hcut : Cut text config text.length chunks) :
    Conforms text config (Merges config chunks) (mergeLast sha256Hex config chunks) ↔
      Seamless config chunks ∧ ∀ chunk ∈ chunks, Overlong text config chunk.charOffset →
        Merges config chunks ∧ chunks.length ≤ chunk.index + 2 := by
  by_cases h : Merges config chunks
  · obtain ⟨front, prev, removed, rfl, hsmall⟩ := id h
    rw [mergeLast_append hsmall, conforms_merge hcut h]
    refine and_congr ⟨?_, fun hseamless => hseamless front prev removed rfl hsmall⟩ ⟨?_, ?_⟩
    · intro hseam front' prev' removed' heq _
      obtain ⟨-, hlast⟩ := List.append_inj' heq rfl
      cases hlast
      exact hseam
    · intro hshort chunk hmem hover
      refine ⟨h, ?_⟩
      rcases List.mem_append.mp hmem with hmem | hmem
      · exact absurd hover (hshort chunk hmem)
      · rw [List.length_append]
        exact Nat.add_le_add_right (length_le_index hcut.index_eq rfl hmem) 2
    · intro hover chunk hmem hlong
      have hlt := index_lt_length hcut.index_eq rfl hmem
      have hle := (hover chunk (List.mem_append_left _ hmem) hlong).2
      rw [List.length_append] at hle
      exact absurd hlt (not_lt.mpr (Nat.le_of_add_le_add_right hle))
  · rw [mergeLast_of_not_merges h, conforms_of_not_merges hcut h]
    constructor
    · intro hshort
      exact ⟨fun front prev removed heq hsmall => absurd ⟨front, prev, removed, heq, hsmall⟩ h,
        fun chunk hmem hover => absurd hover (hshort chunk hmem)⟩
    · rintro ⟨-, hover⟩ chunk hmem hlong
      exact h (hover chunk hmem hlong).1

end Merge

/-- A text that fits is its only chunk. -/
theorem conforms_single (h : text.length ≤ config.maxChars) (hash : String) (enlarged : Prop) :
    Conforms text config enlarged [⟨text, 0, 0, text.length, hash⟩] := by
  refine ⟨?_, rfl, ?_, ?_, .singleton _⟩
  · intro chunk hmem
    obtain rfl := List.mem_singleton.mp hmem
    exact ⟨(Nat.zero_add _).le, by simp⟩
  · intro p c hc _
    exact ⟨_, List.mem_singleton.mpr rfl, Nat.zero_le _,
      (List.getElem?_eq_some_iff.mp hc).1.trans_eq (Nat.zero_add _).symm⟩
  · intro chunk hmem hlong
    obtain rfl := List.mem_singleton.mp hmem
    exact absurd hlong (not_lt.mpr h)

/-- **The chunks are the parts of the text that they say they are just where the last one is
merged into one that it follows at once, and no window that is kept ends inside a paragraph
break.** -/
theorem chunks_conform_iff (sha256Hex : List Char → String) (text : List Char)
    (config : ChunkerConfig) (steps : ℕ) (chunks : List Chunk)
    (h : chunkText sha256Hex text config steps = some chunks) :
    ∃ done, unmerged text config sha256Hex steps = some done ∧
      (Conforms text config (Merges config done) chunks ↔
        Seamless config done ∧ ∀ chunk ∈ done, Overlong text config chunk.charOffset →
          Merges config done ∧ done.length ≤ chunk.index + 2) := by
  rw [chunkText_eq_map] at h
  obtain ⟨done, hdone, rfl⟩ := Option.map_eq_some_iff.mp h
  refine ⟨done, hdone, ?_⟩
  unfold unmerged at hdone
  split_ifs at hdone with hnil hshort
  · obtain rfl := Option.some.inj hdone
    exact conforms_iff_of_cut (hnil ▸ Cut.start)
  · obtain rfl := Option.some.inj hdone
    refine iff_of_true (conforms_single hshort _ _) ⟨?_, ?_⟩
    · intro front prev removed heq _
      have hlen := congrArg List.length heq
      rw [List.length_append] at hlen
      simp only [List.length_cons, List.length_nil] at hlen
      omega
    · intro chunk hmem hover
      obtain rfl := List.mem_singleton.mp hmem
      exact absurd hover.1 (by simpa using hshort)
  · have hcuts := loopAfter_cuts sha256Hex text config steps
    cases hloop : loopAfter sha256Hex text config steps with
    | looping | panicked =>
        rw [hloop] at hdone
        cases hdone
    | ended ended =>
        rw [hloop] at hdone hcuts
        obtain rfl := Option.some.inj hdone
        exact conforms_iff_of_cut hcuts

theorem chunks_conform_iff_small : ∃ done,
    unmerged ['a', 'b', 'c'] ⟨2, 1, 1⟩ String.ofList 2 = some done ∧
    (Conforms ['a', 'b', 'c'] ⟨2, 1, 1⟩ (Merges ⟨2, 1, 1⟩ done)
        [⟨['a', 'b'], 0, 0, 2, "ab"⟩, ⟨['b', 'c'], 1, 1, 2, "bc"⟩] ↔
      Seamless ⟨2, 1, 1⟩ done ∧
        ∀ chunk ∈ done, Overlong ['a', 'b', 'c'] ⟨2, 1, 1⟩ chunk.charOffset →
          Merges ⟨2, 1, 1⟩ done ∧ done.length ≤ chunk.index + 2) :=
  chunks_conform_iff String.ofList ['a', 'b', 'c'] ⟨2, 1, 1⟩ 2 _ (by decide +kernel)

/-- A text whose last window is small, and one with a paragraph break at the end of a window. -/
theorem chunkText_not_conforms :
    (∃ chunks, chunkText String.ofList ['a', 'b', 'c', 'd', 'e', 'f'] ⟨5, 2, 4⟩ 2 = some chunks ∧
      ∀ enlarged, ¬ Conforms ['a', 'b', 'c', 'd', 'e', 'f'] ⟨5, 2, 4⟩ enlarged chunks) ∧
    ∃ chunks,
      chunkText String.ofList ['a', 'b', '\n', '\n', 'c', 'd'] ⟨3, 0, 1⟩ 2 = some chunks ∧
      ∀ enlarged, ¬ Conforms ['a', 'b', '\n', '\n', 'c', 'd'] ⟨3, 0, 1⟩ enlarged chunks := by
  refine ⟨⟨[⟨['a', 'b', 'c', 'd', 'e', 'd', 'e', 'f'], 0, 0, 8, "abcdedef"⟩],
    by decide +kernel, ?_⟩, ⟨[⟨['a', 'b', '\n', '\n'], 0, 0, 4, "ab\n\n"⟩,
    ⟨['c', 'd'], 1, 4, 2, "cd"⟩], by decide +kernel, ?_⟩⟩
  · intro enlarged hconforms
    exact absurd (hconforms.isSlice _ (List.mem_singleton.mpr rfl)).1 (by decide)
  · intro enlarged hconforms
    exact absurd (hconforms.charLen_le _ List.mem_cons_self (by decide)).2 (by decide)

end ClawDesk.Memory.Chunker
