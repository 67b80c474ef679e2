import ClawDesk.Domain.CompactBudget

/-!
# The packing in machine integers

`compact_to_budget` counts tokens in 64 bits.  Here every addition and subtraction of counts is
checked: one that leaves the range is a panic, as in a build with overflow checks (without them
the number wraps around).

Nothing but the sum of all token counts can overflow, and what is subtracted from the budget always
fits in it: the greedy split bounds what is taken before the core, and the search bounds what is
taken in the core.  So the packing is returned, and is sound, exactly if that sum is a 64-bit number
(`compact_sound_iff`).  The scores do not matter for this; they are of any type with the operations
of `f64`.
-/

namespace ClawDesk.Domain.Compaction

open Foundations MaskSearch

/-! ### Checked arithmetic -/

def checkedAdd (a b : ℕ) : Option ℕ := if a + b < 2 ^ 64 then some (a + b) else none

def checkedSub (a b : ℕ) : Option ℕ := if b ≤ a then some (a - b) else none

/-- Add up some counts. -/
def checkedSum : ℕ → List ℕ → Option ℕ
  | sum, [] => some sum
  | sum, count :: counts => do
      let sum ← checkedAdd sum count
      checkedSum sum counts

theorem checkedSum_eq (counts : List ℕ) {sum : ℕ} (hsum : sum < 2 ^ 64) :
    checkedSum sum counts =
      if sum + counts.sum < 2 ^ 64 then some (sum + counts.sum) else none := by
  induction counts generalizing sum with
  | nil => rw [checkedSum, List.sum_nil, Nat.add_zero, if_pos hsum]
  | cons count counts ih =>
      rw [checkedSum, checkedAdd, List.sum_cons, ← Nat.add_assoc]
      by_cases hcount : sum + count < 2 ^ 64
      · rw [if_pos hcount]
        exact ih hcount
      · rw [if_neg hcount, if_neg (by omega)]
        rfl

/-! ### The packing, checked -/

/-- The operations on scores. -/
structure ScoreOps (F : Type) where
  /-- Recency, from the distance to the last unit, × type weight. -/
  score : ℕ → UnitType → F
  density : F → ℕ → F
  zero : F
  add : F → F → F
  lt : F → F → Bool

/-- A unit's place, with its density, score and tokens. -/
structure RankedUnit (F : Type) where
  density : F
  score : F
  tokens : ℕ
  idx : ℕ

section Checked

variable {F Message : Type} (ops : ScoreOps F)

/-- The score and the tokens of each unit. -/
def scoredUnits (units : List (SemanticUnit Message)) : List (RankedUnit F) :=
  units.zipIdx.map fun (u, i) =>
    let score := ops.score (units.length - 1 - i) u.unitType
    let tokens := max u.tokenCount 1
    ⟨ops.density score tokens, score, tokens, i⟩

/-- The units by density, the densest first. -/
def rankedUnits (units : List (SemanticUnit Message)) : List (RankedUnit F) :=
  (scoredUnits ops units).insertionSort fun a b => ops.lt a.density b.density = false

/-- Greedy fill: the place of the first item that doesn't fit. -/
def checkedSplit : ℕ → List (RankedUnit F) → Option ℕ
  | _, [] => some 0
  | budget, u :: rest =>
      if u.tokens ≤ budget then do
        let budget ← checkedSub budget u.tokens
        let split ← checkedSplit budget rest
        some (split + 1)
      else some 0

/-- Take the tokens of some items from what remains. -/
def spend : ℕ → List (RankedUnit F) → Option ℕ
  | remaining, [] => some remaining
  | remaining, u :: rest => do
      let remaining ← checkedSub remaining u.tokens
      spend remaining rest

/-- Add up the items of a mask from the given bit on; `some none` as soon as they weigh too
much. -/
def checkedWeigh (remaining mask : ℕ) : ℕ → ℕ → F → List (RankedUnit F) → Option (Option F)
  | _, _, score, [] => some (some score)
  | bit, tokens, score, u :: rest =>
      if mask.testBit bit then do
        let tokens ← checkedAdd tokens u.tokens
        if remaining < tokens then some none
        else checkedWeigh remaining mask (bit + 1) tokens (ops.add score u.score) rest
      else checkedWeigh remaining mask (bit + 1) tokens score rest

/-- Run through the masks, with the best one so far and its score. -/
def checkedSearch (remaining : ℕ) (items : List (RankedUnit F)) : F → ℕ → List ℕ → Option ℕ
  | _, bestMask, [] => some bestMask
  | bestScore, bestMask, mask :: masks => do
      let weighed ← checkedWeigh ops remaining mask 0 0 ops.zero items
      match weighed with
      | some score =>
          if ops.lt bestScore score then checkedSearch remaining items score mask masks
          else checkedSearch remaining items bestScore bestMask masks
      | none => checkedSearch remaining items bestScore bestMask masks

/-- The units at some places; a place without a unit is a panic. -/
def unitsAt (units : List (SemanticUnit Message)) :
    List ℕ → Option (List (SemanticUnit Message))
  | [] => some []
  | idx :: rest => do
      let u ← units[idx]?
      let us ← unitsAt units rest
      some (u :: us)

/-- Pack the ranked units into the budget. -/
def packRanked (units : List (SemanticUnit Message)) (ranked : List (RankedUnit F)) (budget : ℕ) :
    Option (CompactionResult Message) := do
  let split ← checkedSplit budget ranked
  let before := ranked.take (split - coreRadius)
  let coreItems := (ranked.take (split + coreRadius)).drop (split - coreRadius)
  let remaining ← spend budget before
  let bestMask ← checkedSearch ops remaining coreItems ops.zero 0
    (List.range (2 ^ coreItems.length))
  let remaining ← spend remaining (picked bestMask 0 coreItems)
  let selected := ((before ++ picked bestMask 0 coreItems).map (·.idx)).insertionSort (· ≤ ·)
  let tokensUsed ← checkedSub budget remaining
  let included ← unitsAt units selected
  let unitsDropped ← checkedSub units.length selected.length
  some ⟨included.flatMap (·.messages), tokensUsed, selected.length, unitsDropped⟩

/-- Pack semantic units into the budget. -/
def compactChecked (units : List (SemanticUnit Message)) (budget : ℕ) :
    Option (CompactionResult Message) :=
  if units.isEmpty then some ⟨[], 0, 0, 0⟩
  else do
    let totalTokens ← checkedSum 0 ((scoredUnits ops units).map (·.tokens))
    if totalTokens ≤ budget then
      some ⟨units.flatMap (·.messages), totalTokens, units.length, 0⟩
    else packRanked ops units (rankedUnits ops units) budget

/-! ### What is subtracted fits -/

section Steps

variable {ops} {items : List (RankedUnit F)} {budget remaining mask : ℕ}

theorem checkedSub_eq {a b : ℕ} (h : b ≤ a) : checkedSub a b = some (a - b) := if_pos h

/-- The greedy split: what is ranked before it fits. -/
theorem checkedSplit_spec (items : List (RankedUnit F)) (budget : ℕ) :
    ∃ split, checkedSplit budget items = some split ∧
      total RankedUnit.tokens (items.take split) ≤ budget := by
  induction items generalizing budget with
  | nil => exact ⟨0, rfl, Nat.zero_le _⟩
  | cons u items ih =>
      rw [checkedSplit]
      by_cases hfits : u.tokens ≤ budget
      · obtain ⟨split, hsplit, hle⟩ := ih (budget - u.tokens)
        rw [if_pos hfits, checkedSub_eq hfits]
        refine ⟨split + 1, ?_, ?_⟩
        · show (checkedSplit (budget - u.tokens) items >>= _) = _
          rw [hsplit]
          rfl
        · simp only [total, List.take_succ_cons, List.map_cons, List.sum_cons] at hle ⊢
          omega
      · rw [if_neg hfits]
        exact ⟨0, rfl, Nat.zero_le _⟩

/-- Items that fit are paid for. -/
theorem spend_eq (h : total RankedUnit.tokens items ≤ remaining) :
    spend remaining items = some (remaining - total RankedUnit.tokens items) := by
  induction items generalizing remaining with
  | nil => rfl
  | cons u items ih =>
      simp only [total, List.map_cons, List.sum_cons] at h ih ⊢
      have hu : u.tokens ≤ remaining := by omega
      rw [spend, checkedSub_eq hu]
      show spend (remaining - u.tokens) items = _
      rw [ih (by omega), Nat.sub_sub]

/-- A mask is weighed without overflow, and what is not refused fits. -/
theorem checkedWeigh_spec (items : List (RankedUnit F)) {bit tokens : ℕ} {score : F}
    (hrange : tokens + total RankedUnit.tokens items < 2 ^ 64) (hfits : tokens ≤ remaining) :
    ∃ weighed, checkedWeigh ops remaining mask bit tokens score items = some weighed ∧
      (weighed ≠ none →
        tokens + total RankedUnit.tokens (picked mask bit items) ≤ remaining) := by
  induction items generalizing bit tokens score with
  | nil => exact ⟨some score, rfl, fun _ => hfits⟩
  | cons u items ih =>
      simp only [total, List.map_cons, List.sum_cons, ← Nat.add_assoc] at hrange ih
      rw [checkedWeigh, picked]
      by_cases hbit : mask.testBit bit = true
      · rw [if_pos hbit, if_pos hbit, checkedAdd, if_pos (by omega)]
        show ∃ weighed, (if remaining < tokens + u.tokens then _ else _) = _ ∧ _
        by_cases hover : remaining < tokens + u.tokens
        · rw [if_pos hover]
          exact ⟨none, rfl, fun h => absurd rfl h⟩
        · rw [if_neg hover]
          simp only [total, List.map_cons, List.sum_cons, ← Nat.add_assoc]
          exact ih hrange (not_lt.mp hover)
      · rw [if_neg hbit, if_neg hbit]
        exact ih (by omega) hfits

/-- The search ends with a mask that fits. -/
theorem checkedSearch_spec (hrange : total RankedUnit.tokens items < 2 ^ 64) (masks : List ℕ)
    {bestScore : F} {bestMask : ℕ}
    (hfits : total RankedUnit.tokens (picked bestMask 0 items) ≤ remaining) :
    ∃ found, checkedSearch ops remaining items bestScore bestMask masks = some found ∧
      total RankedUnit.tokens (picked found 0 items) ≤ remaining := by
  induction masks generalizing bestScore bestMask with
  | nil => exact ⟨bestMask, rfl, hfits⟩
  | cons mask masks ih =>
      obtain ⟨weighed, hweighed, hmask⟩ : ∃ weighed,
          checkedWeigh ops remaining mask 0 0 ops.zero items = some weighed ∧ (weighed ≠ none →
            0 + total RankedUnit.tokens (picked mask 0 items) ≤ remaining) :=
        checkedWeigh_spec items (by rwa [Nat.zero_add]) (Nat.zero_le remaining)
      rw [Nat.zero_add] at hmask
      rw [checkedSearch, hweighed]
      cases weighed with
      | none => exact ih hfits
      | some score =>
          show ∃ found, (if ops.lt bestScore score then _ else _) = _ ∧ _
          by_cases hbetter : ops.lt bestScore score = true
          · rw [if_pos hbetter]
            exact ih (hmask (Option.some_ne_none score))
          · rw [if_neg hbetter]
            exact ih hfits

end Steps

/-! ### What is returned -/

section Result

variable {ops} {units : List (SemanticUnit Message)} {budget : ℕ}

/-- The tokens a unit counts for. -/
def SemanticUnit.tokens (u : SemanticUnit Message) : ℕ := max u.tokenCount 1

/-- The result consists of some of the units, whole and in their order, and they fit. -/
def Sound (units : List (SemanticUnit Message)) (budget : ℕ)
    (result : CompactionResult Message) : Prop :=
  ∃ included : List (SemanticUnit Message), included.Sublist units ∧
    result.messages = included.flatMap (·.messages) ∧
    result.tokensUsed = (included.map (·.tokens)).sum ∧ result.tokensUsed ≤ budget ∧
    result.unitsIncluded = included.length ∧
    result.unitsIncluded + result.unitsDropped = units.length

theorem scoredUnits_tokens :
    (scoredUnits ops units).map (·.tokens) = units.map (·.tokens) := by
  unfold scoredUnits
  rw [List.map_map]
  conv_rhs => rw [← List.zipIdx_map_fst 0 units, List.map_map]
  rfl

theorem scoredUnits_idx : (scoredUnits ops units).map (·.idx) = List.range units.length := by
  unfold scoredUnits
  rw [List.map_map, List.range_eq_range', ← List.zipIdx_map_snd 0 units]
  rfl

/-- A ranked unit counts for the tokens of the unit at its place. -/
theorem getElem_idx {r : RankedUnit F} (hr : r ∈ scoredUnits ops units) :
    units[r.idx]?.map (·.tokens) = some r.tokens := by
  obtain ⟨⟨u, i⟩, hu, rfl⟩ := List.mem_map.mp hr
  show units[i]?.map _ = _
  rw [List.mk_mem_zipIdx_iff_getElem?.mp hu]
  rfl

theorem unitsAt_of_map {places : List ℕ} {included : List (SemanticUnit Message)}
    (h : places.map (units[·]?) = included.map some) : unitsAt units places = some included := by
  induction places generalizing included with
  | nil =>
      obtain rfl := List.map_eq_nil_iff.mp h.symm
      rfl
  | cons idx places ih =>
      obtain ⟨u, rest, rfl, hu, hrest⟩ := List.map_eq_cons_iff.mp h.symm
      have hidx : units[idx]? = some u := hu.symm
      rw [unitsAt, hidx, ih hrest.symm]
      rfl

/-- The units at some of the places, in order. -/
theorem unitsAt_filter (p : ℕ → Bool) :
    ∃ included, unitsAt units ((List.range units.length).filter p) = some included ∧
      included.Sublist units ∧ included.length = ((List.range units.length).filter p).length ∧
      included.map (fun u => some u.tokens) =
        ((List.range units.length).filter p).map (fun i => units[i]?.map (·.tokens)) := by
  have hplaces : (List.range units.length).filter p =
      (units.zipIdx.filter fun u => p u.2).map Prod.snd := by
    rw [List.range_eq_range', ← List.zipIdx_map_snd 0 units, List.filter_map]
    rfl
  have hget : ∀ u ∈ units.zipIdx.filter fun u => p u.2, units[u.2]? = some u.1 := fun u hu =>
    List.mk_mem_zipIdx_iff_getElem?.mp (List.mem_of_mem_filter hu)
  refine ⟨(units.zipIdx.filter fun u => p u.2).map Prod.fst, unitsAt_of_map ?_, ?_, ?_, ?_⟩
  · rw [hplaces, List.map_map, List.map_map]
    exact List.map_congr_left hget
  · conv_rhs => rw [← List.zipIdx_map_fst 0 units]
    exact List.filter_sublist.map _
  · rw [hplaces, List.length_map, List.length_map]
  · rw [hplaces, List.map_map, List.map_map]
    refine List.map_congr_left fun u hu => ?_
    show some u.1.tokens = units[u.2]?.map (·.tokens)
    rw [hget u hu]
    rfl

/-- **What is selected** of the ranked units, put in order. -/
theorem unitsAt_selected {ranked selected : List (RankedUnit F)}
    (hperm : ranked.Perm (scoredUnits ops units)) (hsub : selected.Sublist ranked) :
    ∃ included, unitsAt units ((selected.map (·.idx)).insertionSort (· ≤ ·)) = some included ∧
      included.Sublist units ∧ included.length = selected.length ∧
      (included.map (·.tokens)).sum = total RankedUnit.tokens selected := by
  have hnodup : (selected.map (·.idx)).Nodup := by
    refine List.Nodup.sublist (hsub.map _) ((hperm.map _).nodup_iff.mpr ?_)
    rw [scoredUnits_idx]
    exact List.nodup_range
  have hscored : ∀ r ∈ selected, r ∈ scoredUnits ops units := fun r hr =>
    hperm.subset (hsub.subset hr)
  have hsorted : (selected.map (·.idx)).insertionSort (· ≤ ·) =
      (List.range units.length).filter fun i => i ∈ selected.map (·.idx) := by
    refine insertionSort_eq_filter hnodup fun i => ?_
    rw [decide_eq_true_iff, iff_and_self, ← List.mem_range, ← scoredUnits_idx]
    exact fun hi => (hperm.map _).subset ((hsub.map _).subset hi)
  obtain ⟨included, hunits, hincluded, hlength, htokens⟩ : ∃ included,
      unitsAt units ((List.range units.length).filter fun i => i ∈ selected.map (·.idx)) =
        some included ∧ _ := unitsAt_filter _
  rw [← hsorted] at hunits hlength htokens
  refine ⟨included, hunits, hincluded, ?_, ?_⟩
  · rw [hlength, List.length_insertionSort, List.length_map]
  · -- the same numbers in another order
    have hnumbers : (included.map (fun u => some u.tokens)).Perm
        (selected.map fun r => some r.tokens) := by
      rw [htokens]
      refine ((List.perm_insertionSort _ _).map _).trans (List.Perm.of_eq ?_)
      rw [List.map_map]
      exact List.map_congr_left fun r hr => getElem_idx (hscored r hr)
    have hsum : ((included.map (·.tokens)).map some).Perm
        ((selected.map (·.tokens)).map some) := by
      rw [List.map_map, List.map_map]
      exact hnumbers
    exact ((List.map_perm_map_iff (Option.some_injective ℕ)).mp hsum).sum_eq

/-- **The packing of ranked units**, when their tokens can be added up. -/
theorem packRanked_sound {ranked : List (RankedUnit F)}
    (hperm : ranked.Perm (scoredUnits ops units))
    (hrange : (units.map (·.tokens)).sum < 2 ^ 64) :
    ∃ result, packRanked ops units ranked budget = some result ∧ Sound units budget result := by
  obtain ⟨split, hsplit, hgreedy⟩ := checkedSplit_spec ranked budget
  have hle : split - coreRadius ≤ split + coreRadius := by omega
  have hbefore : total RankedUnit.tokens (ranked.take (split - coreRadius)) ≤ budget := by
    have hsub : (ranked.take (split - coreRadius)).Sublist (ranked.take split) :=
      (List.take_prefix_take_left (Nat.sub_le split coreRadius)).sublist
    exact ((hsub.map _).sum_le_sum fun _ _ => Nat.zero_le _).trans hgreedy
  -- what is taken before the core and the core are apart
  have hparts : (ranked.take (split - coreRadius) ++
      (ranked.take (split + coreRadius)).drop (split - coreRadius)).Sublist ranked := by
    have htake : (ranked.take (split + coreRadius)).take (split - coreRadius) =
        ranked.take (split - coreRadius) := by rw [List.take_take, min_eq_left hle]
    rw [← htake, List.take_append_drop]
    exact List.take_sublist _ _
  have hcore : total RankedUnit.tokens
      ((ranked.take (split + coreRadius)).drop (split - coreRadius)) < 2 ^ 64 := by
    have hall : total RankedUnit.tokens _ ≤ total RankedUnit.tokens ranked :=
      (hparts.map _).sum_le_sum fun _ _ => Nat.zero_le _
    rw [total_append, total_perm hperm, total, total, total, scoredUnits_tokens] at hall
    exact lt_of_le_of_lt (Nat.le_of_add_left_le hall) hrange
  generalize hfront : ranked.take (split - coreRadius) = before at *
  generalize hitems : (ranked.take (split + coreRadius)).drop (split - coreRadius) = items at *
  obtain ⟨mask, hmask, hfits⟩ : ∃ mask, checkedSearch ops
        (budget - total RankedUnit.tokens before) items ops.zero 0
        (List.range (2 ^ items.length)) = some mask ∧
      total RankedUnit.tokens (picked mask 0 items) ≤
        budget - total RankedUnit.tokens before :=
    checkedSearch_spec hcore _ (by simp [picked_zero, total])
  obtain ⟨included, hunits, hincluded, hlength, hsum⟩ := unitsAt_selected hperm
    (((List.Sublist.refl before).append picked_sublist).trans hparts)
  have hdropped : included.length ≤ units.length := hincluded.length_le
  have hsorted : (((before ++ picked mask 0 items).map (·.idx)).insertionSort (· ≤ ·)).length =
      included.length := by
    rw [List.length_insertionSort, List.length_map, hlength]
  rw [total_append] at hsum
  refine ⟨⟨included.flatMap (·.messages), (included.map (·.tokens)).sum, included.length,
    units.length - included.length⟩, ?_, included, hincluded, rfl, rfl, ?_, rfl, ?_⟩
  · have hused : budget - (budget - total RankedUnit.tokens before -
        total RankedUnit.tokens (picked mask 0 items)) = (included.map (·.tokens)).sum := by omega
    simp only [packRanked, hsplit, Option.bind_eq_bind, Option.bind_some, hfront, hitems,
      spend_eq hbefore, hmask, spend_eq hfits, hunits, hsorted, checkedSub_eq hdropped]
    rw [checkedSub_eq (by omega), hused]
    rfl
  · show (included.map (·.tokens)).sum ≤ budget
    omega
  · show included.length + (units.length - included.length) = units.length
    omega

/-- The whole function, when the tokens can be added up. -/
theorem compactChecked_sound (hrange : (units.map (·.tokens)).sum < 2 ^ 64) :
    ∃ result, compactChecked ops units budget = some result ∧ Sound units budget result := by
  by_cases hempty : units = []
  · subst hempty
    exact ⟨⟨[], 0, 0, 0⟩, rfl, [], List.Sublist.refl [], rfl, rfl, Nat.zero_le _, rfl, rfl⟩
  have htotal : checkedSum 0 ((scoredUnits ops units).map (·.tokens)) =
      some (units.map (·.tokens)).sum := by
    rw [checkedSum_eq _ (by decide), scoredUnits_tokens, Nat.zero_add, if_pos hrange]
  rw [compactChecked, if_neg (by simp [hempty]), htotal]
  show ∃ result, (if (units.map (·.tokens)).sum ≤ budget then _ else _) = _ ∧ _
  by_cases hfits : (units.map (·.tokens)).sum ≤ budget
  · rw [if_pos hfits]
    exact ⟨_, rfl, units, List.Sublist.refl units, rfl, rfl, hfits, rfl, Nat.add_zero _⟩
  · rw [if_neg hfits]
    exact packRanked_sound (List.perm_insertionSort _ _) hrange

/-- **The packing is returned and sound exactly if the tokens of all units can be added up**, for
every list of units and every budget. -/
theorem compact_sound_iff (ops : ScoreOps F) (units : List (SemanticUnit Message)) (budget : ℕ) :
    (∃ result, compactChecked ops units budget = some result ∧ Sound units budget result) ↔
      (units.map (·.tokens)).sum < 2 ^ 64 := by
  refine ⟨?_, compactChecked_sound⟩
  rintro ⟨result, hresult, -⟩
  by_contra hrange
  have hempty : units ≠ [] := by
    rintro rfl
    exact hrange (Nat.two_pow_pos 64)
  have htotal : checkedSum 0 ((scoredUnits ops units).map (·.tokens)) = none := by
    rw [checkedSum_eq _ (by decide), scoredUnits_tokens, Nat.zero_add, if_neg hrange]
  rw [compactChecked, if_neg (by simp [hempty]), htotal] at hresult
  cases hresult

end Result

end Checked

/-- Scores as exact rationals. -/
def rationalOps : ScoreOps ℚ where
  score distance unitType := max ((17 / 20) ^ distance) (1 / 100) * unitType.weight
  density score tokens := score / tokens
  zero := 0
  add := (· + ·)
  lt a b := a < b

/-- Two units of half the range each. -/
def halves : List (SemanticUnit Empty) := [⟨[], 2 ^ 63, .turn⟩, ⟨[], 2 ^ 63, .turn⟩]

/-- **The sum of the token counts overflows.** -/
theorem halves_not_packed :
    ¬ ∃ result, compactChecked rationalOps halves 0 = some result ∧ Sound halves 0 result := by
  rintro ⟨result, hresult, -⟩
  have hnone : compactChecked rationalOps halves 0 = none := rfl
  rw [hnone] at hresult
  cases hresult

end ClawDesk.Domain.Compaction
