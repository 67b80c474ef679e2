import ClawDesk.Domain.ContextGuard
import ClawDesk.Foundations.Fold

/-!
# Circuit breakers over time

An open breaker is to let one call through when its cooldown is over, and to close or
open again by how that call ends.  Two things keep it from this.

* A half-open breaker lets every call through, not only the first one.
* A failure counts from zero if the last one was more than a cooldown ago.  That is
  when a breaker is half open, so there a failure is often the first of a new count
  and opens nothing.

A run of calls keeps to one call a cooldown, and to opening again, exactly if nobody
asks a half-open breaker too early and every failure that it sees reaches the
threshold (`breaker_conforms_iff`).
-/

namespace ClawDesk.Domain

open Foundations

/-- The breaker of a provider, which is the breaker of the compaction once more. -/
abbrev ProviderCircuitBreaker : Type := CircuitBreaker

namespace CircuitBreaker

/-- The calls of a breaker's users. -/
inductive Call where
  | isAllowed
  | recordFailure
  | recordSuccess
  deriving DecidableEq

/-- A breaker, and when it last let a call through. -/
structure Watched where
  breaker : CircuitBreaker
  lastGrant : Option ℕ

/-- Does the breaker let the call through? -/
def Watched.grants (w : Watched) (now : ℕ) : Bool := (w.breaker.isAllowed now).1

/-- A call at the time that comes with it. -/
def Watched.perform (w : Watched) (call : ℕ × Call) : Watched :=
  match call.2 with
  | .isAllowed =>
      { breaker := (w.breaker.isAllowed call.1).2
        lastGrant := if w.grants call.1 then some call.1 else w.lastGrant }
  | .recordFailure => { w with breaker := w.breaker.recordFailure call.1 }
  | .recordSuccess => { w with breaker := w.breaker.recordSuccess }

def fresh (threshold cooldown : ℕ) : Watched := ⟨new threshold cooldown, none⟩

/-- A new breaker after some calls. -/
def run (threshold cooldown : ℕ) (calls : List (ℕ × Call)) : Watched :=
  calls.foldl Watched.perform (fresh threshold cooldown)

/-- The clock never goes back. -/
def Timed (calls : List (ℕ × Call)) : Prop := calls.Pairwise fun a b => a.1 ≤ b.1

/-! ### What a breaker is for -/

/-- Once the breaker has opened, calls that it lets through are a cooldown apart,
until a success is recorded. -/
def OnePerCooldown (threshold cooldown : ℕ) (calls : List (ℕ × Call)) : Prop :=
  ∀ before t between t' after,
    calls = before ++ (t, .isAllowed) :: (between ++ (t', .isAllowed) :: after) →
    (run threshold cooldown before).breaker.state ≠ .closed →
    (run threshold cooldown before).grants t = true →
    (∀ call ∈ between, call.2 ≠ .recordSuccess) →
    (run threshold cooldown (before ++ (t, .isAllowed) :: between)).grants t' = true →
    t + cooldown ≤ t'

/-- A failure opens a half-open breaker. -/
def Reopens (w : Watched) (call : ℕ × Call) : Prop :=
  call.2 = .recordFailure → w.breaker.state = .halfOpen →
    (w.perform call).breaker.state = .open_ call.1

/-- A half-open breaker is asked again only when a cooldown is over. -/
def AsksLate (w : Watched) (call : ℕ × Call) : Prop :=
  call.2 = .isAllowed → w.breaker.state = .halfOpen →
    ∀ g, w.lastGrant = some g → g + w.breaker.cooldown ≤ call.1

/-- The last failure was so long ago that the counter starts again. -/
def Forgets (b : CircuitBreaker) (now : ℕ) : Prop :=
  ∃ last, b.lastFailure = some last ∧ b.cooldown < now - last

instance (b : CircuitBreaker) (now : ℕ) : Decidable (Forgets b now) :=
  decidable_of_iff ((b.lastFailure.any fun last => b.cooldown < now - last) = true)
    (by simp [Forgets, Option.any_eq_true])

instance (w : Watched) (call : ℕ × Call) : Decidable (AsksLate w call) :=
  decidable_of_iff (call.2 = .isAllowed → w.breaker.state = .halfOpen →
      (w.lastGrant.all fun g => g + w.breaker.cooldown ≤ call.1) = true)
    (by simp [AsksLate, Option.all_eq_true])

/-- A failure that a half-open breaker sees is one too many. -/
def Exceeds (w : Watched) (call : ℕ × Call) : Prop :=
  call.2 = .recordFailure → w.breaker.state = .halfOpen →
    (Forgets w.breaker call.1 → w.breaker.threshold ≤ 1) ∧
      (¬ Forgets w.breaker call.1 →
        w.breaker.threshold ≤ (w.breaker.failureCount + 1) % 2 ^ 32)

instance (w : Watched) (call : ℕ × Call) : Decidable (Exceeds w call) := by
  unfold Exceeds
  infer_instance

/-! ### Single calls -/

variable {b : CircuitBreaker} {w : Watched} {now t : ℕ}

theorem isAllowed_fst : (b.isAllowed now).1 = true ↔
    ∀ o, b.state = .open_ o → b.cooldown ≤ now - o := by
  unfold isAllowed
  cases hstate : b.state with
  | closed => simp
  | open_ o =>
      dsimp only
      split
      · next h => simpa using h
      · next h => simpa using h
  | halfOpen => simp

theorem state_isAllowed : (b.isAllowed now).2.state =
    if b.state ≠ .closed ∧ (b.isAllowed now).1 = true then .halfOpen else b.state := by
  unfold isAllowed
  cases hstate : b.state with
  | closed => simp [hstate]
  | open_ o =>
      dsimp only
      split <;> simp [hstate]
  | halfOpen => simp [hstate]

@[simp]
theorem cooldown_perform (w : Watched) (call : ℕ × Call) :
    (w.perform call).breaker.cooldown = w.breaker.cooldown := by
  obtain ⟨now, call⟩ := call
  cases call with
  | isAllowed =>
      show (w.breaker.isAllowed now).2.cooldown = _
      unfold isAllowed
      split
      · rfl
      · split <;> rfl
      · rfl
  | recordFailure | recordSuccess => rfl

theorem cooldown_run (threshold cooldown : ℕ) (calls : List (ℕ × Call)) :
    (run threshold cooldown calls).breaker.cooldown = cooldown := by
  induction calls using List.reverseRecOn with
  | nil => rfl
  | append_singleton calls call ih =>
      rw [run, List.foldl_append]
      exact (cooldown_perform _ call).trans ih

theorem run_concat (threshold cooldown : ℕ) (calls : List (ℕ × Call)) (call : ℕ × Call) :
    run threshold cooldown (calls ++ [call]) = (run threshold cooldown calls).perform call := by
  rw [run, List.foldl_append]
  rfl

/-- A breaker that is not closed is half open after it lets a call through. -/
theorem perform_isAllowed_of_grants (hstate : w.breaker.state ≠ .closed)
    (h : w.grants t = true) :
    (w.perform (t, .isAllowed)).breaker.state = .halfOpen ∧
      (w.perform (t, .isAllowed)).lastGrant = some t := by
  constructor
  · show (w.breaker.isAllowed t).2.state = _
    rw [state_isAllowed, if_pos ⟨hstate, h⟩]
  · show (if w.grants t = true then some t else w.lastGrant) = some t
    rw [if_pos h]

theorem state_recordFailure (b : CircuitBreaker) (now : ℕ) :
    (b.recordFailure now).state = .open_ now ∨ (b.recordFailure now).state = b.state :=
  ite_eq_or_eq _ _ _

/-- When a failure opens a half-open breaker. -/
theorem reopens_iff_exceeds (w : Watched) (call : ℕ × Call) : Reopens w call ↔ Exceeds w call := by
  obtain ⟨now, call⟩ := call
  refine forall_congr' fun hcall => forall_congr' fun hstate => ?_
  obtain rfl : call = .recordFailure := hcall
  have hforgets : (w.breaker.lastFailure.any fun last => w.breaker.cooldown < now - last) = true ↔
      Forgets w.breaker now := by
    simp [Forgets, Option.any_eq_true]
  show (if w.breaker.threshold ≤ _ then CircuitBreakerState.open_ now else w.breaker.state) =
    .open_ now ↔ _
  rw [hstate]
  by_cases h : Forgets w.breaker now
  · rw [if_pos (hforgets.mpr h)]
    simp [h]
  · rw [if_neg (mt hforgets.mp h)]
    simp [h]

/-! ### What calls keep -/

/-- The last call that was let through lies before the opening, and both before now. -/
structure Past (now : ℕ) (w : Watched) : Prop where
  grant_le : ∀ g, w.lastGrant = some g → g ≤ now
  opened_le : ∀ o, w.breaker.state = .open_ o → o ≤ now
  grant_le_opened : ∀ o, w.breaker.state = .open_ o → ∀ g, w.lastGrant = some g → g ≤ o

theorem Past.mono (h : Past now w) (hle : now ≤ t) : Past t w where
  grant_le g hg := (h.grant_le g hg).trans hle
  opened_le o ho := (h.opened_le o ho).trans hle
  grant_le_opened := h.grant_le_opened

/-- A call that is let through leaves no open breaker behind. -/
theorem Past.isAllowed (h : Past t w) : Past t (w.perform (t, .isAllowed)) := by
  have hstate : (w.perform (t, .isAllowed)).breaker.state =
      if w.breaker.state ≠ .closed ∧ w.grants t = true then .halfOpen else w.breaker.state :=
    state_isAllowed
  have hgrant : (w.perform (t, .isAllowed)).lastGrant =
      if w.grants t = true then some t else w.lastGrant := rfl
  by_cases hallowed : w.grants t = true
  · rw [if_pos hallowed] at hgrant
    have hnot (o : ℕ) : (w.perform (t, .isAllowed)).breaker.state ≠ .open_ o := by
      rw [hstate]
      split
      · simp
      · next hclosed =>
          rw [not_and_or, not_not, or_iff_left (by simpa using hallowed)] at hclosed
          simp [hclosed]
    refine ⟨fun g hg => ?_, fun o ho => absurd ho (hnot o), fun o ho => absurd ho (hnot o)⟩
    rw [hgrant] at hg
    exact (Option.some.inj hg).ge
  · rw [if_neg hallowed] at hgrant
    rw [if_neg fun hboth => hallowed hboth.2] at hstate
    refine ⟨fun g hg => h.grant_le g (hgrant ▸ hg), fun o ho => h.opened_le o (hstate ▸ ho), ?_⟩
    exact fun o ho g hg => h.grant_le_opened o (hstate ▸ ho) g (hgrant ▸ hg)

theorem Past.perform (h : Past now w) {call : ℕ × Call} (hle : now ≤ call.1) :
    Past call.1 (w.perform call) := by
  obtain ⟨t, call⟩ := call
  have hpast := h.mono hle
  cases call with
  | isAllowed => exact hpast.isAllowed
  | recordFailure =>
      refine ⟨hpast.grant_le, fun o ho => ?_, fun o ho g hg => ?_⟩
      · rcases state_recordFailure w.breaker t with hstate | hstate
        · exact (CircuitBreakerState.open_.inj (hstate.symm.trans ho)).ge
        · exact hpast.opened_le o (hstate.symm.trans ho)
      · rcases state_recordFailure w.breaker t with hstate | hstate
        · exact CircuitBreakerState.open_.inj (hstate.symm.trans ho) ▸ hpast.grant_le g hg
        · exact hpast.grant_le_opened o (hstate.symm.trans ho) g hg
  | recordSuccess =>
      refine ⟨hpast.grant_le, fun o ho => ?_, fun o ho => ?_⟩ <;> cases ho

theorem past_run (threshold cooldown : ℕ) {calls : List (ℕ × Call)} (htimed : Timed calls)
    (hbefore : ∀ call ∈ calls, call.1 ≤ now) : Past now (run threshold cooldown calls) := by
  induction calls using List.reverseRecOn generalizing now with
  | nil => exact ⟨fun g hg => (by cases hg), fun o ho => (by cases ho), fun o ho => (by cases ho)⟩
  | append_singleton calls call ih =>
      rw [Timed, List.pairwise_append] at htimed
      obtain ⟨hinit, -, hlast⟩ := htimed
      rw [run_concat]
      have hpast := ih hinit fun c hc => hlast c hc call (List.mem_singleton_self _)
      exact (hpast.perform le_rfl).mono (hbefore call (by simp))

/-- Without a success a breaker does not close, and it lets calls through only later. -/
structure Since (t : ℕ) (w : Watched) : Prop where
  state_ne : w.breaker.state ≠ .closed
  grant : ∃ g, w.lastGrant = some g ∧ t ≤ g

theorem Since.perform (h : Since t w) {call : ℕ × Call} (hle : t ≤ call.1)
    (hcall : call.2 ≠ .recordSuccess) : Since t (w.perform call) := by
  obtain ⟨now, call⟩ := call
  obtain ⟨g, hg, htg⟩ := h.grant
  cases call with
  | isAllowed =>
      constructor
      · show (w.breaker.isAllowed now).2.state ≠ _
        rw [state_isAllowed]
        split
        · simp
        · exact h.state_ne
      · show ∃ g, (if w.grants now = true then some now else w.lastGrant) = some g ∧ t ≤ g
        split
        · exact ⟨now, rfl, hle⟩
        · exact ⟨g, hg, htg⟩
  | recordFailure =>
      refine ⟨?_, g, hg, htg⟩
      show (w.breaker.recordFailure now).state ≠ _
      rcases state_recordFailure w.breaker now with hstate | hstate
      · rw [hstate]
        simp
      · rw [hstate]
        exact h.state_ne
  | recordSuccess => exact absurd rfl hcall

theorem Since.foldl (h : Since t w) {calls : List (ℕ × Call)} (hle : ∀ call ∈ calls, t ≤ call.1)
    (hcalls : ∀ call ∈ calls, call.2 ≠ .recordSuccess) :
    Since t (calls.foldl Watched.perform w) := by
  induction calls generalizing w with
  | nil => exact h
  | cons call calls ih =>
      rw [List.forall_mem_cons] at hle hcalls
      exact ih (h.perform hle.1 hcalls.1) hle.2 hcalls.2

/-- A half-open breaker has let a call through when it was not closed, and no success
has been recorded since. -/
theorem exists_grant_of_halfOpen {threshold cooldown : ℕ} {calls : List (ℕ × Call)}
    (h : (run threshold cooldown calls).breaker.state = .halfOpen) :
    ∃ before g between, calls = before ++ (g, .isAllowed) :: between ∧
      (run threshold cooldown before).breaker.state ≠ .closed ∧
      (run threshold cooldown before).grants g = true ∧
      (∀ call ∈ between, call.2 ≠ .recordSuccess) ∧
      (run threshold cooldown calls).lastGrant = some g := by
  induction calls using List.reverseRecOn with
  | nil => cases h
  | append_singleton calls call ih =>
      obtain ⟨now, call⟩ := call
      rw [run_concat] at h ⊢
      cases call with
      | isAllowed =>
          have hstate : (run threshold cooldown calls).breaker.state ≠ .closed := by
            intro hclosed
            rw [show (Watched.perform _ (now, Call.isAllowed)).breaker.state = _
              from state_isAllowed, if_neg fun hboth => hboth.1 hclosed, hclosed] at h
            cases h
          have hgrants : (run threshold cooldown calls).grants now = true := by
            by_contra hnot
            rw [show (Watched.perform _ (now, Call.isAllowed)).breaker.state = _
              from state_isAllowed, if_neg fun hboth => hnot hboth.2] at h
            exact hnot (isAllowed_fst.mpr fun o ho => by rw [h] at ho; cases ho)
          exact ⟨calls, now, [], rfl, hstate, hgrants, fun c hc => absurd hc List.not_mem_nil,
            (perform_isAllowed_of_grants hstate hgrants).2⟩
      | recordFailure =>
          have hbefore : (run threshold cooldown calls).breaker.state = .halfOpen := by
            rcases state_recordFailure (run threshold cooldown calls).breaker now with hs | hs
            · cases hs.symm.trans h
            · exact hs.symm.trans h
          obtain ⟨before, g, between, rfl, hstate, hgrants, hnone, hlast⟩ := ih hbefore
          refine
            ⟨before, g, between ++ [(now, .recordFailure)], by simp, hstate, hgrants, ?_, hlast⟩
          intro c hc
          rcases List.mem_append.mp hc with hc | hc
          · exact hnone c hc
          · rw [List.mem_singleton.mp hc]
            simp
      | recordSuccess => cases h

/-- **Calls are let through one a cooldown exactly if nobody asks too early.** -/
theorem onePerCooldown_iff (threshold cooldown : ℕ) {calls : List (ℕ × Call)}
    (htimed : Timed calls) :
    OnePerCooldown threshold cooldown calls ↔
      EachStep Watched.perform (fresh threshold cooldown) calls AsksLate := by
  constructor
  · rintro hone pre ⟨t', call⟩ after hsplit hcall hstate g hg
    obtain rfl : call = .isAllowed := hcall
    have hhalf : (run threshold cooldown pre).breaker.state = .halfOpen := hstate
    obtain ⟨before, g', between, rfl, hne, hgrants, hnone, hlast⟩ :=
      exists_grant_of_halfOpen hhalf
    obtain rfl : g' = g := Option.some.inj (hlast.symm.trans hg)
    have hgranted : (run threshold cooldown (before ++ (g', .isAllowed) :: between)).grants t' =
        true := isAllowed_fst.mpr fun o ho => by cases hstate.symm.trans ho
    have hapart := hone before g' between t' after (by rw [hsplit]; simp) hne hgrants hnone hgranted
    exact (congrArg (g' + ·) (cooldown_run threshold cooldown _)).trans_le hapart
  · rintro hlate before t between t' after rfl hne hgrants hnone hgranted
    have hpair := htimed
    rw [Timed, List.pairwise_append, List.pairwise_cons, List.pairwise_append] at hpair
    obtain ⟨-, ⟨hafter, -, -, hbetween⟩, hbefore⟩ := hpair
    have htt' : t ≤ t' := hafter (t', .isAllowed) (by simp)
    -- the state in which the second call finds the breaker
    obtain ⟨hopen, hlast⟩ := perform_isAllowed_of_grants hne hgrants
    have hsince : Since t (run threshold cooldown (before ++ (t, .isAllowed) :: between)) := by
      rw [run, List.foldl_append, List.foldl_cons]
      refine Since.foldl ⟨?_, t, hlast, le_rfl⟩ (fun c hc => hafter c (by simp [hc])) hnone
      rw [show (Watched.perform _ _).breaker.state = _ from hopen]
      simp
    have hpast : Past t' (run threshold cooldown (before ++ (t, .isAllowed) :: between)) := by
      rw [show before ++ (t, Call.isAllowed) :: (between ++ (t', Call.isAllowed) :: after) =
        (before ++ (t, Call.isAllowed) :: between) ++ (t', Call.isAllowed) :: after by simp,
        Timed, List.pairwise_append] at htimed
      exact past_run threshold cooldown htimed.1 fun c hc =>
        htimed.2.2 c hc _ List.mem_cons_self
    obtain ⟨g, hg, htg⟩ := hsince.grant
    cases hstate : (run threshold cooldown
        (before ++ (t, .isAllowed) :: between)).breaker.state with
    | closed => exact absurd hstate hsince.state_ne
    | open_ o =>
        have hwait := isAllowed_fst.mp hgranted o hstate
        rw [cooldown_run] at hwait
        have := hpast.grant_le_opened o hstate g hg
        omega
    | halfOpen =>
        have hasked : g + (run threshold cooldown
            (before ++ (t, .isAllowed) :: between)).breaker.cooldown ≤ t' :=
          hlate (before ++ (t, .isAllowed) :: between) (t', .isAllowed) after (by simp) rfl hstate
            g hg
        rw [cooldown_run] at hasked
        omega

/-- **A circuit breaker does what it is for exactly if** a half-open breaker is asked
again only when a cooldown is over, and a failure that it sees reaches the threshold. -/
theorem breaker_conforms_iff (threshold cooldown : ℕ) (calls : List (ℕ × Call))
    (htimed : Timed calls) :
    (OnePerCooldown threshold cooldown calls ∧
        EachStep Watched.perform (fresh threshold cooldown) calls Reopens) ↔
      EachStep Watched.perform (fresh threshold cooldown) calls AsksLate ∧
        EachStep Watched.perform (fresh threshold cooldown) calls Exceeds := by
  rw [onePerCooldown_iff threshold cooldown htimed]
  refine and_congr_right fun _ => ?_
  constructor
  · exact fun h before call after hsplit =>
      (reopens_iff_exceeds _ _).mp (h before call after hsplit)
  · exact fun h before call after hsplit =>
      (reopens_iff_exceeds _ _).mpr (h before call after hsplit)

/-- With a threshold of one a probe that fails opens the breaker again. -/
theorem breaker_conforms_probe :
    let calls := [(0, .recordFailure), (10, .isAllowed), (12, .recordFailure), (15, .isAllowed),
      (22, .isAllowed), (23, .recordSuccess), (24, .isAllowed)]
    OnePerCooldown 1 10 calls ∧ EachStep Watched.perform (fresh 1 10) calls Reopens :=
  (breaker_conforms_iff 1 10 _ (by simp [Timed])).mpr ⟨by decide, by decide⟩

/-- The probe fails, the count starts again with it, and everybody is let through. -/
theorem breaker_stays_halfOpen : ∃ calls, Timed calls ∧ ¬ OnePerCooldown 2 10 calls ∧
    ¬ EachStep Watched.perform (fresh 2 10) calls Reopens := by
  refine ⟨[(0, .recordFailure), (0, .recordFailure), (20, .isAllowed), (20, .recordFailure),
    (21, .isAllowed)], by simp [Timed], fun hone => ?_, fun hreopens => ?_⟩
  · have hapart := hone [(0, .recordFailure), (0, .recordFailure)] 20 [(20, .recordFailure)] 21 []
      rfl (by decide) (by decide) (by decide) (by decide)
    omega
  · have hopen := hreopens [(0, .recordFailure), (0, .recordFailure), (20, .isAllowed)]
      (20, .recordFailure) [(21, .isAllowed)] rfl rfl rfl
    exact absurd hopen (by decide)

end CircuitBreaker

end ClawDesk.Domain
