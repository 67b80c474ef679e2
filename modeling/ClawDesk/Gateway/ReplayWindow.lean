import ClawDesk.Foundations.CircularWindow
import Mathlib.Data.List.Induction

/-!
# The replay window

Counters are accepted once, and not when they are older than the window.  The code
keeps one bit for each of the 2048 newest counters, in a ring of 32 words, and clears
the places that are passed when the window moves on, word by word.

Bit by bit the words are a ring (`bit_clearBitRange`, `bit_advanceWindow`), and the
ring mirrors the set of accepted counters, so that every answer is the one the set
gives (`Tracks.step`), but for one: while no counter but 0 has been seen, 0 counts as
the first packet, and is accepted every time (`conforms_iff`).

Counters are below `2^64`, and nothing that is computed with them leaves that range.
-/

namespace ClawDesk.Gateway

open Foundations

/-- The words of the bitmap. -/
abbrev Bitmap := Fin 32 → BitVec 64

/-- The window: a bit for each of the newest counters, the summary of the words that
have any, and the largest counter. -/
structure ReplayWindow where
  bitmapL0 : Bitmap
  summaryL1 : BitVec 64
  counterMax : ℕ

namespace ReplayWindow

/-- Create a new replay window starting at counter 0. -/
def new : ReplayWindow where
  bitmapL0 := fun _ => 0
  summaryL1 := 0
  counterMax := 0

/-- Map a counter to the index of its word and its mask. -/
def bitPosition (counter : ℕ) : Fin 32 × BitVec 64 :=
  let bitIndex := counter % 2048
  (⟨bitIndex / 64, by omega⟩, 1#64 <<< (bitIndex % 64))

/-- An access to the word with the given index. -/
def modifyWord (bitmap : Bitmap) (word : ℕ) (change : BitVec 64 → BitVec 64) : Bitmap :=
  fun w => if w.val = word then change (bitmap w) else bitmap w

/-- `(1u64 << n) - 1`. -/
def lowBits (n : ℕ) : BitVec 64 := 1#64 <<< n - 1

/-- Clear a contiguous range of bits `[startBit, endBit)` in the bitmap. -/
def clearBitRange (bitmap : Bitmap) (startBit endBit : ℕ) : Bitmap :=
  let firstWord := startBit / 64
  let firstOffset := startBit % 64
  let lastWord := (endBit - 1) / 64
  let lastEnd := endBit % 64
  if firstWord = lastWord then
    let count := endBit - startBit
    if firstOffset = 0 ∧ count = 64 then modifyWord bitmap firstWord fun _ => 0
    else modifyWord bitmap firstWord fun word => word &&& ~~~(lowBits count <<< firstOffset)
  else
    -- first word: clear bits `[firstOffset, 64)`
    let bitmap := if firstOffset = 0 then modifyWord bitmap firstWord fun _ => 0
      else modifyWord bitmap firstWord fun word => word &&& lowBits firstOffset
    -- interior words
    let bitmap : Bitmap := fun w => if firstWord < w ∧ w < lastWord then 0 else bitmap w
    -- last word: clear bits `[0, lastEnd)`, or all if aligned
    if lastEnd = 0 then modifyWord bitmap lastWord fun _ => 0
    else modifyWord bitmap lastWord fun word => word &&& ~~~lowBits lastEnd

/-- `bitmap_l0[bit.0].fetch_or(bit.1)`, with the word that was there before. -/
def fetchOr (rw : ReplayWindow) (bit : Fin 32 × BitVec 64) : BitVec 64 × ReplayWindow :=
  (rw.bitmapL0 bit.1,
    { rw with bitmapL0 := modifyWord rw.bitmapL0 bit.1 fun word => word ||| bit.2 })

/-- Clear what the window passes between the two maxima. -/
def clearPassed (rw : ReplayWindow) (oldMax newMax : ℕ) : ReplayWindow :=
  let advance := newMax - oldMax
  if 2048 ≤ advance then { rw with bitmapL0 := fun _ => 0, summaryL1 := 0 }
  else if 1 < advance then
    let bitsToClear := advance - 1
    let firstBit := (oldMax + 1) % 2048
    let endBit := firstBit + bitsToClear
    if endBit ≤ 2048 then { rw with bitmapL0 := clearBitRange rw.bitmapL0 firstBit endBit }
    else
      -- wraps around the circular boundary
      { rw with
        bitmapL0 := clearBitRange (clearBitRange rw.bitmapL0 firstBit 2048) 0 (endBit - 2048) }
  else rw

/-- Advance the window when we see a new maximum counter value. -/
def advanceWindow (rw : ReplayWindow) (oldMax newMax : ℕ) : ReplayWindow :=
  let rw := rw.clearPassed oldMax newMax
  if newMax ≤ rw.counterMax then rw else { rw with counterMax := newMax }

/-- Check and accept a counter value: whether the packet should be accepted. -/
def checkAndAccept (rw : ReplayWindow) (counter : ℕ) : Bool × ReplayWindow :=
  let max := rw.counterMax
  if counter = 0 ∧ max = 0 then
    -- first packet ever: set the bit
    (true, (rw.fetchOr (bitPosition 0)).2)
  else if max < counter then
    -- new high water mark: advance window, set bit, accept
    (true, ((rw.advanceWindow max counter).fetchOr (bitPosition counter)).2)
  else if 2048 ≤ max - counter then (false, rw)
  else
    let bit := bitPosition counter
    let (prev, rw) := rw.fetchOr bit
    if prev &&& bit.2 ≠ 0 then (false, rw)
    else (true, { rw with summaryL1 := rw.summaryL1 ||| 1#64 <<< bit.1.val })

/-! ### The words, bit by bit -/

/-- The bit in place `p`. -/
def bit (bitmap : Bitmap) (p : ℕ) : Bool := (bitmap (Fin.ofNat 32 (p / 64))).getLsbD (p % 64)

variable {bitmap : Bitmap} {p : ℕ}

theorem getLsbD_lowBits {n i : ℕ} (hn : n < 64) : (lowBits n).getLsbD i = decide (i < n) := by
  have hpow : 2 ^ n < 2 ^ 64 := Nat.pow_lt_pow_right (by decide) hn
  have htoNat : (lowBits n).toNat = 2 ^ n - 1 := by
    have hone : (1#64 <<< n).toNat = 2 ^ n := by
      rw [BitVec.toNat_shiftLeft, BitVec.toNat_ofNat, Nat.shiftLeft_eq,
        Nat.mod_eq_of_lt (by decide : 1 < 2 ^ 64), Nat.one_mul]
      exact Nat.mod_eq_of_lt hpow
    rw [lowBits, BitVec.toNat_sub_of_le, hone]
    · rfl
    · rw [BitVec.le_def, hone]
      exact Nat.one_le_two_pow
  rw [← BitVec.testBit_toNat, htoNat, Nat.testBit_two_pow_sub_one]

/-- A change of one word that clears the bits from `lo` to `hi`. -/
def Clears (lo hi : ℕ) (change : BitVec 64 → BitVec 64) : Prop :=
  ∀ word i, i < 64 → (change word).getLsbD i = (word.getLsbD i && !decide (lo ≤ i ∧ i < hi))

theorem clears_all : Clears 0 64 fun _ => 0 := by
  intro word i hi
  simp [hi]

theorem clears_from {lo : ℕ} (hlo : lo < 64) : Clears lo 64 fun word => word &&& lowBits lo := by
  intro word i hi
  rw [BitVec.getLsbD_and, getLsbD_lowBits hlo]
  congr 1
  grind

theorem clears_below {hi : ℕ} (hhi : hi < 64) :
    Clears 0 hi fun word => word &&& ~~~lowBits hi := by
  intro word i hi'
  rw [BitVec.getLsbD_and, BitVec.getLsbD_not, getLsbD_lowBits hhi]
  grind

theorem clears_within {lo count : ℕ} (hcount : count < 64) :
    Clears lo (lo + count) fun word => word &&& ~~~(lowBits count <<< lo) := by
  intro word i hi
  rw [BitVec.getLsbD_and, BitVec.getLsbD_not, BitVec.getLsbD_shiftLeft, getLsbD_lowBits hcount]
  grind

/-- The word of a place, and the bit in that word. -/
theorem place_word (hp : p < 2048) : (Fin.ofNat 32 (p / 64)).val = p / 64 :=
  Nat.mod_eq_of_lt (by omega)

theorem bit_modifyWord {word lo hi : ℕ} {change : BitVec 64 → BitVec 64}
    (hchange : Clears lo hi change) (hhi : hi ≤ 64) (hp : p < 2048) :
    bit (modifyWord bitmap word change) p =
      (bit bitmap p && !decide (64 * word + lo ≤ p ∧ p < 64 * word + hi)) := by
  unfold bit modifyWord
  rw [place_word hp]
  split_ifs with hword
  · rw [hchange _ _ (Nat.mod_lt _ (by decide))]
    congr 3
    exact propext (by omega)
  · have hout : ¬ (64 * word + lo ≤ p ∧ p < 64 * word + hi) := by omega
    simp [hout]

theorem bit_interior {first last : ℕ} (hp : p < 2048) :
    bit (fun w => if first < w.val ∧ w.val < last then 0 else bitmap w) p =
      (bit bitmap p && !decide (64 * (first + 1) ≤ p ∧ p < 64 * last)) := by
  simp only [bit, place_word hp]
  split_ifs with hword
  · have hin : 64 * (first + 1) ≤ p ∧ p < 64 * last := by omega
    simp [hin]
  · have hout : ¬ (64 * (first + 1) ≤ p ∧ p < 64 * last) := by omega
    simp [hout]

/-- **Clearing a range clears its bits and no other.** -/
theorem bit_clearBitRange {startBit endBit : ℕ} (hlt : startBit < endBit) (hle : endBit ≤ 2048)
    (hp : p < 2048) : bit (clearBitRange bitmap startBit endBit) p =
      (bit bitmap p && !decide (startBit ≤ p ∧ p < endBit)) := by
  unfold clearBitRange
  dsimp only
  split_ifs with hsingle haligned hlast hfirst hfirst
  · rw [bit_modifyWord clears_all le_rfl hp]
    grind
  · rw [bit_modifyWord (clears_within (by omega)) (by omega) hp]
    grind
  · rw [bit_modifyWord clears_all le_rfl hp, bit_interior hp, bit_modifyWord clears_all le_rfl hp]
    grind
  · rw [bit_modifyWord clears_all le_rfl hp, bit_interior hp,
      bit_modifyWord (clears_from (by omega)) le_rfl hp]
    grind
  · rw [bit_modifyWord (clears_below (by omega)) (by omega) hp, bit_interior hp,
      bit_modifyWord clears_all le_rfl hp]
    grind
  · rw [bit_modifyWord (clears_below (by omega)) (by omega) hp, bit_interior hp,
      bit_modifyWord (clears_from (by omega)) le_rfl hp]
    grind

theorem bit_setMask (counter : ℕ) (hp : p < 2048) :
    bit (modifyWord bitmap (bitPosition counter).1 fun word => word ||| (bitPosition counter).2) p =
      (bit bitmap p || decide (p = counter % 2048)) := by
  simp only [bit, modifyWord, place_word hp, bitPosition]
  split_ifs with hword
  · rw [BitVec.getLsbD_or, ← BitVec.twoPow_eq, BitVec.getLsbD_twoPow]
    congr 1
    grind
  · have hne : p ≠ counter % 2048 := fun heq => hword (by rw [heq])
    simp [hne]

/-- The test of `check_and_accept` on the word that was there before. -/
theorem masked_ne_zero_iff (counter : ℕ) :
    bitmap (bitPosition counter).1 &&& (bitPosition counter).2 ≠ 0 ↔
      bit bitmap (counter % 2048) = true := by
  have hlt : counter % 2048 < 2048 := Nat.mod_lt _ (by decide)
  have hword : (bitPosition counter).1 = Fin.ofNat 32 (counter % 2048 / 64) := by
    ext
    rw [place_word hlt]
    rfl
  rw [hword]
  unfold bit bitPosition
  dsimp only
  rw [← BitVec.twoPow_eq, BitVec.and_twoPow]
  split_ifs with hbit
  · refine iff_of_true (fun hzero => ?_) hbit
    have hone := congrArg (BitVec.getLsbD · (counter % 2048 % 64)) hzero
    simp [Nat.mod_lt] at hone
  · exact iff_of_false (not_not.mpr rfl) hbit

/-! ### The ring of bits -/

variable {rw : ReplayWindow} {old new c : ℕ} {accepted : List ℕ}

/-- What is passed before the last place is cleared. -/
theorem bit_clearPassed_of_passed (hlt : old < new) (hp : p < 2048)
    (hpassed : Passed 2048 old (new - 1) p) :
    bit (rw.clearPassed old new).bitmapL0 p = false := by
  unfold clearPassed
  dsimp only
  have hnew : new - 1 = old + (new - old - 1) := by omega
  rw [hnew] at hpassed
  split_ifs with hlap hmany hend
  · simp [bit]
  · rw [passed_iff_interval hp hend] at hpassed
    rw [bit_clearBitRange (by omega) hend hp]
    simp [hpassed]
  · have hfirst : (old + 1) % 2048 < 2048 := Nat.mod_lt _ (by decide)
    rw [passed_iff_wrapped hp (by omega) (by omega)] at hpassed
    rw [bit_clearBitRange (by omega) (by omega) hp, bit_clearBitRange (by omega) le_rfl hp]
    simp only [Bool.and_eq_false_iff, Bool.not_eq_false', decide_eq_true_eq]
    omega
  · obtain ⟨d, hd, hle, -⟩ := hpassed
    omega

/-- What is not passed is kept. -/
theorem bit_clearPassed_of_not_passed (hlt : old < new) (hp : p < 2048)
    (hkept : ¬ Passed 2048 old new p) :
    bit (rw.clearPassed old new).bitmapL0 p = bit rw.bitmapL0 p := by
  have hbefore : ¬ Passed 2048 old (new - 1) p := fun h => hkept ((passed_iff hlt).mpr (.inl h))
  unfold clearPassed
  dsimp only
  have hnew : new - 1 = old + (new - old - 1) := by omega
  rw [hnew] at hbefore
  split_ifs with hlap hmany hend
  · exact absurd (passed_of_lap hp (by omega)) hkept
  · rw [passed_iff_interval hp hend] at hbefore
    rw [bit_clearBitRange (by omega) hend hp]
    simp [hbefore]
  · have hfirst : (old + 1) % 2048 < 2048 := Nat.mod_lt _ (by decide)
    rw [passed_iff_wrapped hp (by omega) (by omega), not_or] at hbefore
    rw [bit_clearBitRange (by omega) (by omega) hp, bit_clearBitRange (by omega) le_rfl hp]
    have hfar : ¬ p < (old + 1) % 2048 + (new - old - 1) - 2048 := hbefore.2
    simp [hbefore.1, hfar]
  · rfl

@[simp] theorem clearPassed_counterMax : (rw.clearPassed old new).counterMax = rw.counterMax := by
  unfold clearPassed
  dsimp only
  split_ifs <;> rfl

/-! ### The set of accepted counters -/

/-- The set accepts a counter that it does not have and that is newer than the largest
one it has, less 2048. -/
def Allowed (accepted : List ℕ) (c : ℕ) : Prop := c ∉ accepted ∧ ∀ m ∈ accepted, m < c + 2048

/-- The window keeps the accepted counters, as far as they matter. -/
structure Tracks (rw : ReplayWindow) (accepted : List ℕ) : Prop where
  le_max : ∀ c ∈ accepted, c ≤ rw.counterMax
  max_mem : rw.counterMax = 0 ∨ rw.counterMax ∈ accepted
  mirrors : Mirrors 2048 (bit rw.bitmapL0) rw.counterMax fun c => decide (c ∈ accepted)

theorem tracks_new : Tracks ReplayWindow.new [] := by
  refine ⟨by simp, .inl rfl, fun c _ => ?_⟩
  simp [bit, ReplayWindow.new]

/-- Setting the bit of a counter in the window. -/
theorem mirrors_fetchOr {bitmap : Bitmap} {newest : ℕ}
    (h : Mirrors 2048 (bit bitmap) newest fun c => decide (c ∈ accepted))
    (hc : InWindow 2048 newest c) :
    Mirrors 2048 (bit (modifyWord bitmap (bitPosition c).1 fun word => word ||| (bitPosition c).2))
      newest fun d => decide (d ∈ c :: accepted) := by
  intro d hd
  have hset := h.set (a := true) hc d hd
  rw [bit_setMask c (Nat.mod_lt _ (by decide))]
  simp only [Function.update_apply] at hset
  simp only [List.mem_cons, Bool.decide_or]
  grind

theorem Tracks.first (h : Tracks rw accepted) (hmax : rw.counterMax = 0) :
    Tracks (rw.fetchOr (bitPosition 0)).2 (0 :: accepted) where
  le_max c hc := by
    rcases List.mem_cons.mp hc with rfl | hc
    · exact Nat.zero_le _
    · exact h.le_max c hc
  max_mem := .inl hmax
  mirrors := mirrors_fetchOr h.mirrors
    ⟨Nat.zero_le _, show rw.counterMax < 0 + 2048 by omega⟩

/-- A new maximum. -/
theorem Tracks.advance (h : Tracks rw accepted) (hlt : rw.counterMax < c) :
    Tracks ((rw.advanceWindow rw.counterMax c).fetchOr (bitPosition c)).2 (c :: accepted) := by
  have hadvance : rw.advanceWindow rw.counterMax c =
      { rw.clearPassed rw.counterMax c with counterMax := c } := by
    unfold advanceWindow
    dsimp only
    rw [clearPassed_counterMax, if_neg (by omega)]
  rw [hadvance]
  refine ⟨fun d hd => ?_, .inr List.mem_cons_self, ?_⟩
  · rcases List.mem_cons.mp hd with rfl | hd
    · exact le_rfl
    · exact (h.le_max d hd).trans hlt.le
  · -- with its own place cleared too, the ring mirrors the old set in the new window
    have hcleared : Mirrors 2048
        (fun p => bit (rw.clearPassed rw.counterMax c).bitmapL0 p && decide (p ≠ c % 2048)) c
        fun d => decide (d ∈ accepted) := by
      refine h.mirrors.clear (a := false) (by decide) hlt.le (fun p hp hpassed => ?_)
        (fun p hp hkept => ?_) fun d hd => ?_
      · rcases (passed_iff hlt).mp hpassed with hbefore | rfl
        · simp [bit_clearPassed_of_passed hlt hp hbefore]
        · simp
      · have hne : p ≠ c % 2048 := fun heq => hkept ((passed_iff hlt).mpr (.inr heq))
        simp [bit_clearPassed_of_not_passed hlt hp hkept, hne]
      · exact decide_eq_false fun hmem => absurd (h.le_max d hmem) (by omega)
    intro d hd
    have hset := hcleared.set (a := true) ⟨le_rfl, by omega⟩ d hd
    show bit (modifyWord _ _ _) _ = _
    rw [bit_setMask c (Nat.mod_lt _ (by decide))]
    simp only [Function.update_apply] at hset
    simp only [List.mem_cons, Bool.decide_or]
    grind

/-- A counter in the window. -/
theorem Tracks.insert (h : Tracks rw accepted) (hle : c ≤ rw.counterMax)
    (hnear : rw.counterMax < c + 2048) (summary : BitVec 64) :
    Tracks { (rw.fetchOr (bitPosition c)).2 with summaryL1 := summary } (c :: accepted) where
  le_max d hd := by
    rcases List.mem_cons.mp hd with rfl | hd
    · exact hle
    · exact h.le_max d hd
  max_mem := h.max_mem.imp_right (List.mem_cons_of_mem c)
  mirrors := mirrors_fetchOr h.mirrors ⟨hle, hnear⟩

/-- A replay: the bit was set before. -/
theorem Tracks.replay (h : Tracks rw accepted) (hle : c ≤ rw.counterMax)
    (hnear : rw.counterMax < c + 2048) (hmem : c ∈ accepted) :
    Tracks (rw.fetchOr (bitPosition c)).2 accepted where
  le_max := h.le_max
  max_mem := h.max_mem
  mirrors := by
    intro d hd
    have hset := mirrors_fetchOr h.mirrors ⟨hle, hnear⟩ d hd
    refine hset.trans (decide_eq_decide.mpr ?_)
    rw [List.mem_cons]
    exact ⟨fun hd => hd.elim (fun heq => heq ▸ hmem) id, .inr⟩

theorem Tracks.allowed_iff (h : Tracks rw accepted) :
    Allowed accepted c ↔ c ∉ accepted ∧ rw.counterMax < c + 2048 := by
  refine and_congr_right fun _ => ⟨fun hall => ?_, fun hmax m hm => (h.le_max m hm).trans_lt hmax⟩
  rcases h.max_mem with hzero | hmem
  · omega
  · exact hall _ hmem

/-- **One call** keeps track, and answers as the set does unless the counter is a
repeated 0 at the very beginning. -/
theorem Tracks.step (h : Tracks rw accepted) (c : ℕ) :
    Tracks (rw.checkAndAccept c).2
      (if (rw.checkAndAccept c).1 = true then c :: accepted else accepted) ∧
    (¬ (c = 0 ∧ rw.counterMax = 0 ∧ 0 ∈ accepted) →
      ((rw.checkAndAccept c).1 = true ↔ Allowed accepted c)) := by
  rw [h.allowed_iff]
  unfold checkAndAccept
  dsimp only
  by_cases hfirst : c = 0 ∧ rw.counterMax = 0
  · -- the branch for the first packet does not look at the bit
    rw [if_pos hfirst]
    obtain ⟨rfl, hmax⟩ := hfirst
    refine ⟨h.first hmax, fun hne => iff_of_true rfl ⟨fun hmem => hne ⟨rfl, hmax, hmem⟩, ?_⟩⟩
    omega
  rw [if_neg hfirst]
  by_cases hnew : rw.counterMax < c
  · rw [if_pos hnew]
    refine ⟨h.advance hnew, fun _ => iff_of_true rfl ⟨fun hmem => ?_, by omega⟩⟩
    exact absurd (h.le_max c hmem) (by omega)
  rw [if_neg hnew]
  by_cases hold : 2048 ≤ rw.counterMax - c
  · rw [if_pos hold]
    refine ⟨h, fun _ => iff_of_false Bool.false_ne_true fun hallowed => ?_⟩
    have hnear := hallowed.2
    omega
  rw [if_neg hold]
  have hwindow : InWindow 2048 rw.counterMax c := ⟨by omega, by omega⟩
  have hbit : (rw.fetchOr (bitPosition c)).1 &&& (bitPosition c).2 ≠ 0 ↔ c ∈ accepted := by
    refine masked_ne_zero_iff c |>.trans ?_
    rw [h.mirrors c hwindow, decide_eq_true_eq]
  by_cases hseen : (rw.fetchOr (bitPosition c)).1 &&& (bitPosition c).2 ≠ 0
  · rw [if_pos hseen]
    refine ⟨h.replay hwindow.1 hwindow.2 (hbit.mp hseen), fun _ => ?_⟩
    exact iff_of_false Bool.false_ne_true fun hallowed => hallowed.1 (hbit.mp hseen)
  · rw [if_neg hseen]
    exact ⟨h.insert hwindow.1 hwindow.2 _,
      fun _ => iff_of_true rfl ⟨fun hmem => hseen (hbit.mpr hmem), hwindow.2⟩⟩

/-! ### Any sequence of calls -/

/-- Present one more counter, and note it if it is accepted. -/
def feed (st : ReplayWindow × List ℕ) (c : ℕ) : ReplayWindow × List ℕ :=
  let (accepts, rw) := st.1.checkAndAccept c
  (rw, if accepts = true then c :: st.2 else st.2)

/-- Present counters to a new window: the window, and the counters it has accepted. -/
def present (counters : List ℕ) : ReplayWindow × List ℕ :=
  counters.foldl feed (ReplayWindow.new, [])

/-- Every answer is the one the set gives, and nothing is accepted twice. -/
structure Conforms (counters : List ℕ) : Prop where
  agrees : ∀ before c after, counters = before ++ c :: after →
    (((present before).1.checkAndAccept c).1 = true ↔ Allowed (present before).2 c)
  once : (present counters).2.Nodup

variable {counters before : List ℕ}

theorem present_concat (counters : List ℕ) (c : ℕ) :
    present (counters ++ [c]) = feed (present counters) c := List.foldl_append

theorem tracks_present (counters : List ℕ) : Tracks (present counters).1 (present counters).2 := by
  induction counters using List.reverseRecOn with
  | nil => exact tracks_new
  | append_singleton counters c ih =>
      rw [present_concat]
      exact (ih.step c).1

/-- No counter presented is above the maximum. -/
theorem le_counterMax (counters : List ℕ) :
    ∀ c ∈ counters, c ≤ (present counters).1.counterMax := by
  induction counters using List.reverseRecOn with
  | nil => simp
  | append_singleton counters c ih =>
      have hmax : (present counters).1.counterMax ≤ (present (counters ++ [c])).1.counterMax ∧
          c ≤ (present (counters ++ [c])).1.counterMax := by
        rw [present_concat]
        show _ ≤ ((present counters).1.checkAndAccept c).2.counterMax ∧
          _ ≤ ((present counters).1.checkAndAccept c).2.counterMax
        unfold checkAndAccept advanceWindow fetchOr
        dsimp only
        rw [clearPassed_counterMax]
        split_ifs <;> simp <;> omega
      intro d hd
      rcases List.mem_append.mp hd with hd | hd
      · exact (ih d hd).trans hmax.1
      · obtain rfl := List.mem_singleton.mp hd
        exact hmax.2

/-- Answers that agree with the set never accept a counter again. -/
theorem nodup_of_agrees (h : ∀ before c after, counters = before ++ c :: after →
    (((present before).1.checkAndAccept c).1 = true ↔ Allowed (present before).2 c)) :
    (present counters).2.Nodup := by
  induction counters using List.reverseRecOn with
  | nil => exact List.nodup_nil
  | append_singleton counters c ih =>
      have hnodup := ih fun before d after hsplit => h before d (after ++ [c]) (by simp [hsplit])
      rw [present_concat]
      unfold feed
      dsimp only
      split_ifs with haccepts
      · exact List.nodup_cons.mpr ⟨((h counters c [] rfl).mp haccepts).1, hnodup⟩
      · exact hnodup

/-- The second 0 is accepted although the first one was. -/
theorem not_conforms_zeros (rest : List ℕ) : ¬ Conforms (0 :: 0 :: rest) :=
  fun h => absurd ((h.agrees [0] 0 rest rfl).mp rfl).1 (by decide)

/-- **The window refines the set of accepted counters exactly when the first two
counters are not both 0.** -/
theorem conforms_iff (counters : List ℕ) : Conforms counters ↔ ¬ [0, 0] <+: counters := by
  constructor
  · rintro h ⟨rest, rfl⟩
    exact not_conforms_zeros rest h
  · intro hprefix
    have hagrees : ∀ before c after, counters = before ++ c :: after →
        (((present before).1.checkAndAccept c).1 = true ↔ Allowed (present before).2 c) := by
      rintro before c after rfl
      refine ((tracks_present before).step c).2 ?_
      rintro ⟨rfl, hmax, hmem⟩
      -- all counters before this 0 are 0, and there is one
      have hzero : ∀ d ∈ before, d = 0 := fun d hd =>
        Nat.le_zero.mp (hmax ▸ le_counterMax before d hd)
      cases before with
      | nil => exact absurd hmem List.not_mem_nil
      | cons d before =>
          obtain rfl := hzero d List.mem_cons_self
          cases before with
          | nil => exact hprefix ⟨after, rfl⟩
          | cons e before =>
              obtain rfl := hzero e (by simp)
              exact hprefix ⟨before ++ 0 :: after, by simp⟩
    exact ⟨hagrees, nodup_of_agrees hagrees⟩

/-- **The first packet is accepted twice.** -/
theorem zero_twice : ¬ Conforms [0, 0] ∧ (present [0, 0]).2 = [0, 0] :=
  ⟨not_conforms_zeros [], by decide⟩

end ReplayWindow

end ClawDesk.Gateway
