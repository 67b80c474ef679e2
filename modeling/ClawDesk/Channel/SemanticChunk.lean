import ClawDesk.Foundations.Utf8
import Mathlib.Algebra.Group.Nat.Defs
import Mathlib.Data.List.TakeWhile
import Mathlib.Logic.Function.Iterate

/-!
# Cutting a reply into segments

A reply that is too long is cut into segments of at most `maxLength` bytes.  The place of each cut
is searched in the last fifth of that length: the cheapest kind of boundary there, the last of its
kind where that is a line end.

A cut is always made at the boundary of a character (`boundary_findMinCostSplit`), but the ends of
the searched window are byte offsets.  Where one of these lies inside of a character the slice
panics.  Otherwise the segments are short enough, and give the text back up to blanks
(`semanticChunk_returns_iff`).
-/

namespace ClawDesk.Channel.SemanticChunk

open Foundations

/-! ### Segmentation cost constants -/

namespace Costs

def paragraphBreak : ℕ := 0
def sentenceEnd : ℕ := 1
def lineBreak : ℕ := 2
def wordBoundary : ℕ := 5
def codeBlockMid : ℕ := 20
def hardBreak : ℕ := 50

end Costs

/-- A semantically chunked message segment. -/
structure ChunkedSegment where
  /-- The formatted text content. -/
  content : List Char
  /-- Part number (1-indexed). -/
  part : ℕ
  /-- Total number of parts. -/
  totalParts : ℕ
  /-- Whether this segment ends mid-code-block. -/
  endsInCodeBlock : Bool
  /-- Cost of the split point that produced this segment. -/
  splitCost : ℕ
  deriving DecidableEq

/-! ### The split point of a window -/

/-- Whether a fence starts at a position. -/
def fenceAt (bytes : List UInt8) (i : ℕ) : Bool := (bytes.drop i).take 3 = [96, 96, 96]

/-- The cost of a split at a position. -/
def costAt (bytes : List UInt8) (i : ℕ) (codeBlock : Bool) : ℕ :=
  if codeBlock then Costs.codeBlockMid
  else if (bytes.drop i).take 2 = [10, 10] then Costs.paragraphBreak
  else if 0 < i ∧ bytes[i]? = some 10 then
    if 2 ≤ i ∧ (bytes[i - 1]? = some 46 ∨ bytes[i - 1]? = some 63 ∨ bytes[i - 1]? = some 33) then
      Costs.sentenceEnd
    else Costs.lineBreak
  else if bytes[i]? = some 32 then Costs.wordBoundary
  else Costs.hardBreak

/-- The best split so far, and whether the scan is in a code block. -/
structure Best where
  offset : ℕ
  cost : ℕ
  codeBlock : Bool
  deriving DecidableEq

/-- The scan of the bytes at some positions. -/
def scan (bytes : List UInt8) : List ℕ → Best → Best
  | [], best => best
  | i :: rest, best =>
      let codeBlock := if fenceAt bytes i then !best.codeBlock else best.codeBlock
      let cost := costAt bytes i codeBlock
      if cost < best.cost ∨ cost = best.cost ∧ cost ≤ Costs.lineBreak then
        if cost = Costs.paragraphBreak then ⟨i, cost, codeBlock⟩
        else scan bytes rest ⟨i, cost, codeBlock⟩
      else scan bytes rest { best with codeBlock := codeBlock }

/-- Find the minimum-cost split point in a text window. -/
def findMinCostSplit (window : List Char) (inCodeBlock : Bool) : Best :=
  scan (utf8 window) (List.range (utf8 window).length)
    ⟨(utf8 window).length, Costs.hardBreak, inCodeBlock⟩

/-! ### The loop -/

/-- Where the search window starts: behind the first 80% of the length. -/
def searchStart (maxLength : ℕ) : ℕ := maxLength * 4 % 2 ^ 64 / 5

/-- Where a text is cut: never in front of its first byte. -/
def splitPoint (maxLength : ℕ) (best : Best) : ℕ :=
  if searchStart maxLength + best.offset = 0 then maxLength else searchStart maxLength + best.offset

/-- The content of a segment, its cost, and its flag. -/
abbrev Segment := List Char × ℕ × Bool

/-- The state of the loop. -/
inductive Flow where
  /-- About to test whether something remains. -/
  | looping (remaining : List Char) (inCodeBlock : Bool) (segments : List Segment)
  | ended (segments : List Segment)
  /-- A slice began or ended inside of a character. -/
  | panicked
  deriving DecidableEq

/-- The body of the loop. -/
def pass (maxLength : ℕ) (remaining : List Char) (inCodeBlock : Bool) (segments : List Segment) :
    Flow :=
  if (utf8 remaining).length ≤ maxLength then .ended (segments ++ [(remaining, 0, false)])
  else
    match slice (searchStart maxLength) maxLength remaining with
    | none => .panicked
    | some window =>
        let best := findMinCostSplit window inCodeBlock
        match splitBytes (splitPoint maxLength best) remaining with
        | none => .panicked
        | some (content, rest) =>
            .looping (rest.dropWhile (· = ' ')) best.codeBlock
              (segments ++ [(content, best.cost, inCodeBlock)])

/-- One step of the loop. -/
def Flow.step (maxLength : ℕ) : Flow → Flow
  | .looping remaining inCodeBlock segments =>
      if remaining = [] then .ended segments else pass maxLength remaining inCodeBlock segments
  | .ended segments => .ended segments
  | .panicked => .panicked

/-- The loop after some steps. -/
def loopAfter (maxLength : ℕ) (text : List Char) (steps : ℕ) : Flow :=
  (Flow.step maxLength)^[steps] (.looping text false [])

/-- The segments with their numbers. -/
def number (segments : List Segment) : List ChunkedSegment :=
  segments.mapIdx fun i segment => {
    content := segment.1
    part := i + 1
    totalParts := segments.length
    endsInCodeBlock := segment.2.2
    splitCost := segment.2.1 }

/-- Split text into semantically-bounded chunks using minimum-cost segmentation, with a bound on
the steps of the loop. -/
def semanticChunk (text : List Char) (maxLength steps : ℕ) : Option (List ChunkedSegment) :=
  if (utf8 text).length ≤ maxLength then some [⟨text, 1, 1, false, 0⟩]
  else
    match loopAfter maxLength text steps with
    | .ended segments => some (number segments)
    | _ => none

/-! ### Where a cut is made -/

section Cut

variable {bytes : List UInt8} {inCodeBlock : Bool} {best : Best} {i k : ℕ}

/-- Whether a position is in a code block: the fences in front of it open and close one. -/
def blockAt (bytes : List UInt8) (inCodeBlock : Bool) : ℕ → Bool
  | 0 => inCodeBlock
  | i + 1 => if fenceAt bytes i then !blockAt bytes inCodeBlock i else blockAt bytes inCodeBlock i

/-- The cost of a position in the scan, which counts a fence there. -/
def scanCost (bytes : List UInt8) (inCodeBlock : Bool) (i : ℕ) : ℕ :=
  costAt bytes i (blockAt bytes inCodeBlock (i + 1))

/-- A split is the cheapest of the positions in front of one, and the first such if it is not at a
line end; or it is the end. -/
structure Seen (bytes : List UInt8) (inCodeBlock : Bool) (i : ℕ) (best : Best) : Prop where
  least : ∀ j < i, best.cost ≤ scanCost bytes inCodeBlock j
  attained : (best.offset < i ∧ scanCost bytes inCodeBlock best.offset = best.cost ∧
      best.cost < Costs.hardBreak) ∨
    best.offset = bytes.length ∧ best.cost = Costs.hardBreak
  first : best.offset < i → Costs.lineBreak < best.cost →
    ∀ j < best.offset, best.cost < scanCost bytes inCodeBlock j

theorem Seen.cost_le (h : Seen bytes inCodeBlock i best) : best.cost ≤ Costs.hardBreak := by
  rcases h.attained with ⟨-, -, hcost⟩ | ⟨-, hcost⟩
  · exact Nat.le_of_lt hcost
  · exact Nat.le_of_eq hcost

/-- A cheaper position, or a line end as cheap. -/
theorem Seen.update {codeBlock : Bool} (h : Seen bytes inCodeBlock i best)
    (hless : scanCost bytes inCodeBlock i < best.cost ∨
      scanCost bytes inCodeBlock i = best.cost ∧ scanCost bytes inCodeBlock i ≤ Costs.lineBreak) :
    Seen bytes inCodeBlock (i + 1) ⟨i, scanCost bytes inCodeBlock i, codeBlock⟩ := by
  have hle : scanCost bytes inCodeBlock i ≤ best.cost := by omega
  have hcheap : scanCost bytes inCodeBlock i < Costs.hardBreak := by
    have hbest := h.cost_le
    have hline : Costs.lineBreak < Costs.hardBreak := by decide
    omega
  refine ⟨fun j hj => ?_, Or.inl ⟨Nat.lt_succ_self i, rfl, hcheap⟩, fun _ hcost j hj => ?_⟩
  · rcases Nat.lt_succ_iff_lt_or_eq.mp hj with hlt | rfl
    · exact Nat.le_trans hle (h.least j hlt)
    · exact Nat.le_refl _
  · have hlt : scanCost bytes inCodeBlock i < best.cost :=
      hless.resolve_right fun heq => Nat.not_le.mpr hcost heq.2
    exact Nat.lt_of_lt_of_le hlt (h.least j hj)

/-- Another position. -/
theorem Seen.keep {codeBlock : Bool} (h : Seen bytes inCodeBlock i best) (hi : i < bytes.length)
    (hnot : ¬ scanCost bytes inCodeBlock i < best.cost) :
    Seen bytes inCodeBlock (i + 1) { best with codeBlock := codeBlock } := by
  refine ⟨fun j hj => ?_, ?_, fun hoffset hcost j hj => ?_⟩
  · rcases Nat.lt_succ_iff_lt_or_eq.mp hj with hlt | rfl
    · exact h.least j hlt
    · exact Nat.le_of_not_lt hnot
  · exact h.attained.imp_left fun hin => ⟨Nat.lt_succ_of_lt hin.1, hin.2⟩
  · rcases h.attained with hin | hend
    · exact h.first hin.1 hcost j hj
    · have hoffset' : best.offset < i + 1 := hoffset
      omega

/-- A paragraph break ends the scan. -/
theorem Seen.paragraph (h : Seen bytes inCodeBlock i best) (hi : i ≤ bytes.length)
    (hoffset : best.offset < i) (hcost : best.cost = Costs.paragraphBreak) :
    Seen bytes inCodeBlock bytes.length best := by
  refine ⟨fun j _ => ?_, ?_, fun _ hline => ?_⟩
  · rw [hcost]
    exact Nat.zero_le _
  · exact h.attained.imp_left fun hin => ⟨Nat.lt_of_lt_of_le hoffset hi, hin.2⟩
  · rw [hcost] at hline
    exact absurd hline (by decide)

/-- **The rest of a scan.** -/
theorem Seen.scan (hseen : Seen bytes inCodeBlock i best) (hi : i + k = bytes.length)
    (hcode : best.codeBlock = blockAt bytes inCodeBlock i) :
    Seen bytes inCodeBlock bytes.length (scan bytes (List.range' i k) best) := by
  induction k generalizing i best with
  | zero =>
      rw [Nat.add_zero] at hi
      rw [← hi]
      exact hseen
  | succ k ih =>
      have hcode' : (if fenceAt bytes i then !best.codeBlock else best.codeBlock) =
          blockAt bytes inCodeBlock (i + 1) := by
        rw [blockAt, hcode]
      have hcost : costAt bytes i (blockAt bytes inCodeBlock (i + 1)) =
          scanCost bytes inCodeBlock i := rfl
      rw [List.range'_succ, SemanticChunk.scan]
      simp only [hcode', hcost]
      have hlt : i < bytes.length := by omega
      have hrest : i + 1 + k = bytes.length := by omega
      split_ifs with hless hparagraph
      · exact (hseen.update hless).paragraph hlt (Nat.lt_succ_self i) hparagraph
      · exact ih (hseen.update hless) hrest rfl
      · exact ih (hseen.keep hlt fun hlt => hless (Or.inl hlt)) hrest rfl

/-- **The split point of a window.** -/
theorem seen_findMinCostSplit (window : List Char) (inCodeBlock : Bool) :
    Seen (utf8 window) inCodeBlock (utf8 window).length (findMinCostSplit window inCodeBlock) := by
  rw [findMinCostSplit, List.range_eq_range']
  refine Seen.scan ⟨fun j hj => ?_, Or.inr ⟨rfl, rfl⟩, fun hlt => ?_⟩ (Nat.zero_add _) rfl
  · exact absurd hj (Nat.not_lt_zero j)
  · exact absurd hlt (Nat.not_lt_zero _)

/-- What a costed position looks like. -/
theorem fst_of_take {n : ℕ} {b : UInt8} {l : List UInt8}
    (h : (bytes.drop i).take (n + 1) = b :: l) : bytes[i]? = some b := by
  cases hdrop : bytes.drop i with
  | nil =>
      rw [hdrop] at h
      cases h
  | cons c rest =>
      rw [hdrop, List.take_succ_cons] at h
      rw [← List.head?_drop, hdrop, (List.cons.inj h).1]
      rfl

/-- A position at either end of some bytes, or in front of a byte that begins a character. -/
def Boundary (bytes : List UInt8) (i : ℕ) : Prop :=
  i = 0 ∨ i = bytes.length ∨ ∃ b, bytes[i]? = some b ∧ b.IsUTF8FirstByte

/-- The positions with a cost below that of a break in a code block. -/
theorem getElem?_of_costAt_lt {codeBlock : Bool}
    (h : costAt bytes i codeBlock < Costs.codeBlockMid) :
    codeBlock = false ∧ (bytes[i]? = some 10 ∨ bytes[i]? = some 32) := by
  unfold costAt at h
  split_ifs at h with hcode hparagraph hline hsentence hword
  · exact absurd h (by decide)
  · exact ⟨by simpa using hcode, Or.inl (fst_of_take hparagraph)⟩
  · exact ⟨by simpa using hcode, Or.inl hline.2⟩
  · exact ⟨by simpa using hcode, Or.inl hline.2⟩
  · exact ⟨by simpa using hcode, Or.inr hword⟩
  · exact absurd h (by decide)

/-- Any other cost below that of a break in a word is one in a code block. -/
theorem codeBlock_of_costAt_lt {codeBlock : Bool} (h : costAt bytes i codeBlock < Costs.hardBreak)
    (hcostly : ¬ costAt bytes i codeBlock < Costs.codeBlockMid) : codeBlock = true := by
  by_contra hcode
  apply hcostly
  unfold costAt at h ⊢
  rw [if_neg hcode] at h ⊢
  split_ifs at h ⊢ <;> first | decide | exact absurd h (by decide)

/-- **A cut is made at the boundary of a character.** -/
theorem Seen.boundary (h : Seen bytes inCodeBlock bytes.length best) :
    Boundary bytes best.offset := by
  rcases h.attained with ⟨hin, hcost, hhard⟩ | ⟨hend, -⟩
  · by_cases hcheap : best.cost < Costs.codeBlockMid
    · rw [← hcost] at hcheap
      rcases (getElem?_of_costAt_lt hcheap).2 with hbyte | hbyte
      · exact Or.inr (Or.inr ⟨10, hbyte, by decide⟩)
      · exact Or.inr (Or.inr ⟨32, hbyte, by decide⟩)
    · rw [← hcost] at hhard hcheap
      have hcode := codeBlock_of_costAt_lt hhard hcheap
      by_cases hfence : fenceAt bytes best.offset = true
      · exact Or.inr (Or.inr ⟨96, fst_of_take (of_decide_eq_true hfence), by decide⟩)
      · refine Or.inl (Nat.eq_zero_of_not_pos fun hpos => ?_)
        obtain ⟨j, hj⟩ := Nat.exists_eq_succ_of_ne_zero (Nat.ne_of_gt hpos)
        -- the position in front would be in the code block as well
        rw [blockAt, if_neg hfence, hj] at hcode
        have hbefore : scanCost bytes inCodeBlock j = Costs.codeBlockMid := by
          rw [scanCost, hcode]
          rfl
        have hhere : scanCost bytes inCodeBlock best.offset = Costs.codeBlockMid := by
          rw [scanCost, blockAt, if_neg hfence, hj, hcode]
          rfl
        have hline : Costs.lineBreak < best.cost := by
          rw [← hcost, hhere]
          decide
        have hfirst := h.first hin hline j (by omega)
        rw [← hcost, hhere, hbefore] at hfirst
        exact Nat.lt_irrefl _ hfirst
  · exact Or.inr (Or.inl hend)

end Cut

/-! ### One pass -/

section Pass

variable {maxLength : ℕ} {text remaining window : List Char} {inCodeBlock : Bool}
  {segments : List Segment}

theorem searchStart_lt (h : 0 < maxLength) : searchStart maxLength < maxLength := by
  have hmod := Nat.mod_le (maxLength * 4) (2 ^ 64)
  unfold searchStart
  omega

/-- The window of a text begins and ends at the boundary of a character, if there is one. -/
def Splittable (maxLength : ℕ) (remaining : List Char) : Prop :=
  maxLength < (utf8 remaining).length →
    (splitBytes (searchStart maxLength) remaining).isSome ∧ (splitBytes maxLength remaining).isSome

/-- The blanks at the front of a text. -/
theorem exists_blanks (rest : List Char) :
    ∃ k, rest = List.replicate k ' ' ++ rest.dropWhile (· = ' ') := by
  refine ⟨(rest.takeWhile (· = ' ')).length, ?_⟩
  have hblank : rest.takeWhile (· = ' ') =
      List.replicate (rest.takeWhile (· = ' ')).length ' ' :=
    List.eq_replicate_iff.mpr ⟨rfl, fun c hc => by simpa using List.mem_takeWhile_imp hc⟩
  rw [← hblank, List.takeWhile_append_dropWhile]

/-- The cut that is found in a window. -/
theorem exists_splitBytes_of_slice (h : 0 < maxLength)
    (hslice : slice (searchStart maxLength) maxLength remaining = some window) :
    ∃ content rest, splitBytes
        (searchStart maxLength + (findMinCostSplit window inCodeBlock).offset) remaining =
      some (content, rest) ∧ (utf8 content).length ≤ maxLength := by
  have hstart := Nat.le_of_lt (searchStart_lt h)
  obtain ⟨front, back, rfl, hfront, hwindow⟩ := (slice_iff hstart).mp hslice
  generalize hoffset : (findMinCostSplit window inCodeBlock).offset = offset
  have hsplit : ∃ before after, splitBytes offset window = some (before, after) := by
    rw [← hoffset]
    rcases (seen_findMinCostSplit window inCodeBlock).boundary with hzero | hend | ⟨b, hb, hfirst⟩
    · exact ⟨[], window, by rw [hzero, splitBytes]⟩
    · exact ⟨window, [], splitBytes_iff.mpr ⟨(List.append_nil _).symm, hend.symm⟩⟩
    · exact exists_splitBytes hb hfirst
  obtain ⟨before, after, hsplit⟩ := hsplit
  obtain ⟨rfl, hbefore⟩ := splitBytes_iff.mp hsplit
  refine ⟨front ++ before, after ++ back, splitBytes_iff.mpr ⟨?_, ?_⟩, ?_⟩
  · simp only [List.append_assoc]
  · rw [utf8_append, List.length_append, hfront, hbefore]
  · rw [utf8_append, utf8_append, List.length_append, List.length_append] at hwindow
    rw [utf8_append, List.length_append]
    omega

/-- What is cut off is not empty, and short enough. -/
theorem exists_splitBytes_splitPoint (h : 0 < maxLength)
    (hslice : slice (searchStart maxLength) maxLength remaining = some window) :
    ∃ content rest, splitBytes (splitPoint maxLength (findMinCostSplit window inCodeBlock))
        remaining = some (content, rest) ∧
      0 < (utf8 content).length ∧ (utf8 content).length ≤ maxLength := by
  unfold splitPoint
  split_ifs with hzero
  · have hstart := Nat.le_of_lt (searchStart_lt h)
    have hstop := ((exists_slice_iff hstart).mp ⟨window, hslice⟩).2
    obtain ⟨⟨content, rest⟩, hparts⟩ := Option.isSome_iff_exists.mp hstop
    have hlength := (splitBytes_iff.mp hparts).2
    exact ⟨content, rest, hparts, by omega, Nat.le_of_eq hlength⟩
  · obtain ⟨content, rest, hparts, hle⟩ :=
      @exists_splitBytes_of_slice maxLength remaining window inCodeBlock h hslice
    have hlength := (splitBytes_iff.mp hparts).2
    exact ⟨content, rest, hparts, by omega, hle⟩

/-- What one pass does. -/
theorem pass_cases (h : 0 < maxLength) (remaining : List Char) (inCodeBlock : Bool)
    (segments : List Segment) :
    ((utf8 remaining).length ≤ maxLength ∧
      pass maxLength remaining inCodeBlock segments =
        .ended (segments ++ [(remaining, 0, false)])) ∨
    (¬ Splittable maxLength remaining ∧
      pass maxLength remaining inCodeBlock segments = .panicked) ∨
    ∃ window content k rest,
      maxLength < (utf8 remaining).length ∧
      slice (searchStart maxLength) maxLength remaining = some window ∧
      remaining = content ++ List.replicate k ' ' ++ rest ∧ content ≠ [] ∧
      (utf8 content).length ≤ maxLength ∧
      pass maxLength remaining inCodeBlock segments =
        .looping rest (findMinCostSplit window inCodeBlock).codeBlock
          (segments ++ [(content, (findMinCostSplit window inCodeBlock).cost, inCodeBlock)]) := by
  have hstart := Nat.le_of_lt (searchStart_lt h)
  unfold pass
  by_cases hshort : (utf8 remaining).length ≤ maxLength
  · exact Or.inl ⟨hshort, if_pos hshort⟩
  rw [if_neg hshort]
  have hlong := Nat.lt_of_not_le hshort
  cases hslice : slice (searchStart maxLength) maxLength remaining with
  | none =>
      refine Or.inr (Or.inl ⟨fun hsplit => ?_, rfl⟩)
      obtain ⟨window, hwindow⟩ := (exists_slice_iff hstart).mpr (hsplit hlong)
      rw [hslice] at hwindow
      cases hwindow
  | some window =>
      refine Or.inr (Or.inr ?_)
      obtain ⟨content, rest, hsplit, hpos, hle⟩ :=
        @exists_splitBytes_splitPoint maxLength remaining window inCodeBlock h hslice
      obtain ⟨rfl, -⟩ := splitBytes_iff.mp hsplit
      obtain ⟨k, hblanks⟩ := exists_blanks rest
      refine ⟨window, content, k, rest.dropWhile (· = ' '), hlong, rfl, ?_, ?_, hle, ?_⟩
      · rw [List.append_assoc, ← hblanks]
      · rintro rfl
        exact Nat.lt_irrefl 0 hpos
      · simp only [hsplit]

end Pass

/-! ### The run of the loop -/

section Run

variable {maxLength steps : ℕ} {text remaining : List Char} {inCodeBlock : Bool}
  {segments : List Segment}

/-- A text is some contents, one after the other, each with a number of blanks behind it. -/
def Rejoins (text : List Char) (contents : List (List Char)) : Prop :=
  ∃ parts : List (List Char × ℕ), parts.map Prod.fst = contents ∧
    text = parts.flatMap fun part => part.1 ++ List.replicate part.2 ' '

/-- The text that a pass of the loop finds. -/
def Reached (maxLength : ℕ) (text remaining : List Char) : Prop :=
  ∃ steps inCodeBlock segments,
    loopAfter maxLength text steps = .looping remaining inCodeBlock segments

/-- The segments are short enough and rejoin the text, up to what remains. -/
def Kept (maxLength : ℕ) (text : List Char) : Flow → Prop
  | .looping remaining _ segments =>
      (∀ s ∈ segments, (utf8 s.1).length ≤ maxLength) ∧
        ∃ before, Rejoins before (segments.map Prod.fst) ∧ text = before ++ remaining
  | .ended segments =>
      (∀ s ∈ segments, (utf8 s.1).length ≤ maxLength) ∧ Rejoins text (segments.map Prod.fst)
  | .panicked => True

theorem loopAfter_succ (maxLength : ℕ) (text : List Char) (steps : ℕ) :
    loopAfter maxLength text (steps + 1) = (loopAfter maxLength text steps).step maxLength :=
  Function.iterate_succ_apply' _ _ _

theorem Rejoins.concat {before : List Char} {contents : List (List Char)}
    (h : Rejoins before contents) (content : List Char) (k : ℕ) :
    Rejoins (before ++ (content ++ List.replicate k ' ')) (contents ++ [content]) := by
  obtain ⟨parts, rfl, rfl⟩ := h
  refine ⟨parts ++ [(content, k)], ?_, ?_⟩
  · rw [List.map_append]
    rfl
  · rw [List.flatMap_append, List.flatMap_singleton]

/-- One step keeps the text. -/
theorem Kept.step {flow : Flow} (hmax : 0 < maxLength) (h : Kept maxLength text flow) :
    Kept maxLength text (flow.step maxLength) := by
  cases flow with
  | ended => exact h
  | panicked => exact h
  | looping remaining inCodeBlock segments =>
      obtain ⟨hsize, before, hrejoins, htext⟩ := h
      rw [Flow.step]
      split_ifs with hnil
      · rw [hnil, List.append_nil] at htext
        exact ⟨hsize, htext ▸ hrejoins⟩
      rcases pass_cases hmax remaining inCodeBlock segments with
        ⟨hshort, hpass⟩ | ⟨-, hpass⟩ |
        ⟨window, content, k, rest, -, -, hremaining, -, hlength, hpass⟩
      · rw [hpass]
        refine ⟨List.forall_mem_append.mpr ⟨hsize, List.forall_mem_singleton.mpr hshort⟩, ?_⟩
        have hlast := hrejoins.concat remaining 0
        rw [List.replicate_zero, List.append_nil, ← htext] at hlast
        rwa [List.map_append]
      · rw [hpass]
        exact trivial
      · rw [hpass]
        refine ⟨List.forall_mem_append.mpr ⟨hsize, List.forall_mem_singleton.mpr hlength⟩,
          before ++ (content ++ List.replicate k ' '), ?_, ?_⟩
        · rw [List.map_append]
          exact hrejoins.concat content k
        · rw [htext, hremaining]
          simp only [List.append_assoc]

theorem kept_loopAfter (hmax : 0 < maxLength) (text : List Char) (steps : ℕ) :
    Kept maxLength text (loopAfter maxLength text steps) := by
  induction steps with
  | zero => exact ⟨fun s hs => absurd hs List.not_mem_nil, [], ⟨[], rfl, rfl⟩, rfl⟩
  | succ steps ih =>
      rw [loopAfter_succ]
      exact ih.step hmax

/-- A loop that has stopped stays so. -/
theorem loopAfter_add {flow : Flow} (h : loopAfter maxLength text steps = flow)
    (hstops : flow.step maxLength = flow) (more : ℕ) :
    loopAfter maxLength text (steps + more) = flow := by
  induction more with
  | zero => exact h
  | succ more ih => rw [← Nat.add_assoc, loopAfter_succ, ih, hstops]

/-- **Where every window can be sliced, the loop ends.** -/
theorem exists_ended (hmax : 0 < maxLength)
    (hsplit : ∀ remaining, Reached maxLength text remaining → Splittable maxLength remaining)
    (h : loopAfter maxLength text steps = .looping remaining inCodeBlock segments) :
    ∃ steps segments, loopAfter maxLength text steps = .ended segments := by
  induction hn : remaining.length using Nat.strong_induction_on generalizing
    steps remaining inCodeBlock segments with
  | _ n ih =>
      have hnext := loopAfter_succ maxLength text steps
      rw [h, Flow.step] at hnext
      by_cases hnil : remaining = []
      · exact ⟨steps + 1, segments, hnext.trans (if_pos hnil)⟩
      rw [if_neg hnil] at hnext
      rcases pass_cases hmax remaining inCodeBlock segments with
        ⟨-, hpass⟩ | ⟨hnot, -⟩ | ⟨window, content, k, rest, -, -, hremaining, hne, -, hpass⟩
      · exact ⟨steps + 1, _, hnext.trans hpass⟩
      · exact absurd (hsplit remaining ⟨steps, inCodeBlock, segments, h⟩) hnot
      · have hshorter : rest.length < n := by
          have hpos := List.length_pos_iff.mpr hne
          rw [← hn, hremaining, List.length_append, List.length_append]
          omega
        exact ih rest.length hshorter (hnext.trans hpass) rfl

/-- **Where the loop ends, every window could be sliced.** -/
theorem splittable_of_ended (hmax : 0 < maxLength)
    (hended : loopAfter maxLength text steps = .ended segments)
    (hreached : Reached maxLength text remaining) : Splittable maxLength remaining := by
  by_contra hnot
  obtain ⟨passes, inCodeBlock, before, hloop⟩ := hreached
  have hnil : remaining ≠ [] := by
    rintro rfl
    exact hnot fun hlong => absurd hlong (Nat.not_lt_zero _)
  have hpanic : loopAfter maxLength text (passes + 1) = .panicked := by
    rw [loopAfter_succ, hloop, Flow.step, if_neg hnil]
    rcases pass_cases hmax remaining inCodeBlock before with
      ⟨hshort, -⟩ | ⟨-, hpass⟩ | ⟨window, content, k, rest, hlong, hslice, -⟩
    · exact absurd (fun hlong => absurd hlong (Nat.not_lt.mpr hshort)) hnot
    · exact hpass
    · exact absurd (fun _ => (exists_slice_iff (Nat.le_of_lt (searchStart_lt hmax))).mp
        ⟨window, hslice⟩) hnot
  have hlate := loopAfter_add hpanic rfl steps
  have hlate' := loopAfter_add hended rfl (passes + 1)
  rw [Nat.add_comm, hlate] at hlate'
  cases hlate'

end Run

/-! ### The segments -/

/-- The segments of a text are short enough, numbered, and give the text back up to blanks. -/
structure Sound (maxLength : ℕ) (text : List Char) (segments : List ChunkedSegment) : Prop where
  size : ∀ s ∈ segments, (utf8 s.content).length ≤ maxLength
  numbered : ∀ i s, segments[i]? = some s → s.part = i + 1 ∧ s.totalParts = segments.length
  rejoins : Rejoins text (segments.map ChunkedSegment.content)

theorem sound_number {maxLength : ℕ} {text : List Char} {segments : List Segment}
    (h : Kept maxLength text (.ended segments)) : Sound maxLength text (number segments) := by
  obtain ⟨hsize, hrejoins⟩ := h
  have hcontent : (number segments).map ChunkedSegment.content = segments.map Prod.fst := by
    apply List.ext_getElem?
    intro i
    rw [number, List.getElem?_map, List.getElem?_mapIdx, List.getElem?_map, Option.map_map]
    rfl
  refine ⟨fun s hs => ?_, fun i s hs => ?_, hcontent ▸ hrejoins⟩
  · have hmem := List.mem_map_of_mem (f := ChunkedSegment.content) hs
    rw [hcontent] at hmem
    obtain ⟨segment, hsegment, heq⟩ := List.mem_map.mp hmem
    exact heq ▸ hsize segment hsegment
  · rw [number, List.getElem?_mapIdx, Option.map_eq_some_iff] at hs
    obtain ⟨segment, -, rfl⟩ := hs
    exact ⟨rfl, List.length_mapIdx.symm⟩

/-- The text that is one segment. -/
theorem sound_single {maxLength : ℕ} {text : List Char} (h : (utf8 text).length ≤ maxLength) :
    Sound maxLength text [⟨text, 1, 1, false, 0⟩] := by
  refine ⟨List.forall_mem_singleton.mpr h, fun i s hs => ?_, [(text, 0)], rfl, ?_⟩
  · cases i with
    | zero =>
        obtain rfl := Option.some.inj hs
        exact ⟨rfl, rfl⟩
    | succ i => cases hs
  · rw [List.flatMap_singleton, List.replicate_zero, List.append_nil]

/-- **The segments are sound just where every window begins and ends between two characters.** -/
theorem semanticChunk_returns_iff (text : List Char) (maxLength : ℕ) (h : 4 ≤ maxLength) :
    (∃ steps segments, semanticChunk text maxLength steps = some segments ∧
        Sound maxLength text segments) ↔
      ∀ remaining, Reached maxLength text remaining → Splittable maxLength remaining := by
  have hmax : 0 < maxLength := Nat.lt_of_lt_of_le (by decide) h
  constructor
  · rintro ⟨steps, segments, hsegments, -⟩ remaining hreached
    unfold semanticChunk at hsegments
    split_ifs at hsegments with hshort
    · obtain ⟨passes, inCodeBlock, before, hloop⟩ := hreached
      have hkept := kept_loopAfter hmax text passes
      rw [hloop] at hkept
      obtain ⟨-, front, -, rfl⟩ := hkept
      rw [utf8_append, List.length_append] at hshort
      exact fun hlong => absurd hlong (by omega)
    · cases hloop : loopAfter maxLength text steps with
      | ended segments => exact splittable_of_ended hmax hloop hreached
      | looping => simp [hloop] at hsegments
      | panicked => simp [hloop] at hsegments
  · intro hsplit
    by_cases hshort : (utf8 text).length ≤ maxLength
    · exact ⟨0, _, if_pos hshort, sound_single hshort⟩
    · obtain ⟨steps, segments, hended⟩ := exists_ended hmax hsplit
        (show loopAfter maxLength text 0 = .looping text false [] from rfl)
      refine ⟨steps, number segments, ?_, ?_⟩
      · rw [semanticChunk, if_neg hshort, hended]
      · exact sound_number (hended ▸ kept_loopAfter hmax text steps)

theorem semanticChunk_returns_iff_hello :
    4 ≤ 4 ∧
      ((∃ steps segments, semanticChunk ['h', 'e', 'l', 'l', 'o'] 4 steps = some segments ∧
          Sound 4 ['h', 'e', 'l', 'l', 'o'] segments) ↔
        ∀ remaining, Reached 4 ['h', 'e', 'l', 'l', 'o'] remaining → Splittable 4 remaining) :=
  ⟨Nat.le_refl 4, semanticChunk_returns_iff ['h', 'e', 'l', 'l', 'o'] 4 (Nat.le_refl 4)⟩

/-- Three characters of two bytes, to be cut after at most four bytes: the window would begin with
the second byte of one. -/
theorem semanticChunk_panics :
    loopAfter 4 ['é', 'é', 'é'] 1 = .panicked ∧
      ¬ ∃ steps segments, semanticChunk ['é', 'é', 'é'] 4 steps = some segments := by
  have hpanic : loopAfter 4 ['é', 'é', 'é'] 1 = .panicked := by decide +kernel
  refine ⟨hpanic, ?_⟩
  rintro ⟨steps, segments, hsegments⟩
  have hlong : ¬ (utf8 ['é', 'é', 'é']).length ≤ 4 := by decide +kernel
  rw [semanticChunk, if_neg hlong] at hsegments
  cases steps with
  | zero => cases hsegments
  | succ steps =>
      rw [Nat.add_comm, loopAfter_add hpanic rfl] at hsegments
      cases hsegments

end ClawDesk.Channel.SemanticChunk
