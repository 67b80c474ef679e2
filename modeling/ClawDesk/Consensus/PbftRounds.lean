import ClawDesk.Consensus.Pbft
import Mathlib.Data.Finset.Card
import Mathlib.Data.Finset.Lattice.Lemmas

/-!
# What two rounds have in common

Whoever calls `prepare` votes: the engine knows how many agents there are, but
not which.  If the voters come from a group of `n` agents, two decided rounds
share at least `2 (2f + 1) - n` agreeing agents, which is more than `f` when
`n = 3f + 1` (`quorums_intersect`).

`evaluate` may be called again in a round that has been decided.  The agents are
then credited a second time, or, after a view change has cleared the votes, the
round is recorded once more as undecided.  Nothing else breaks the agreement of
the results of one round (`agreement_iff`).
-/

namespace ClawDesk.Consensus.PbftConsensus

variable {config : PbftConfig} {engine : PbftConsensus} {calls : List Call}

/-! ### Two quorums -/

/-- The agents whose agreeing votes were counted. -/
def agreeing (r : ConsensusResult) : Finset String :=
  ((r.agentVotes.filter (·.agrees)).map (·.agentId)).toFinset

/-- The votes are those of distinct voters, and so are the quorums of the decided
rounds. -/
structure Counted (config : PbftConfig) (agents : Set String) (engine : PbftConsensus) : Prop where
  config_eq : engine.config = config
  distinct : (engine.state.prepares.map Prod.fst).Nodup
  voters : ∀ entry ∈ engine.state.prepares, entry.1 ∈ agents
  quorum : ∀ r ∈ engine.history, r.reached = true →
    config.quorum ≤ (agreeing r).card ∧ ∀ agent ∈ agreeing r, agent ∈ agents

/-- The agents that agree in the current round. -/
theorem agreeing_result :
    agreeing engine.result = ((engine.counted.filter (·.2.agrees)).map Prod.fst).toFinset := by
  rw [agreeing, result_agentVotes, List.filter_map, List.map_map]
  rfl

theorem card_agreeing_result (distinct : (engine.state.prepares.map Prod.fst).Nodup) :
    (agreeing engine.result).card = engine.result.agreeVotes := by
  have hsub : ((engine.counted.filter (·.2.agrees)).map Prod.fst).Sublist
      (engine.state.prepares.map Prod.fst) :=
    (List.filter_sublist.trans List.filter_sublist).map _
  rw [agreeing_result, List.toFinset_card_of_nodup (distinct.sublist hsub), List.length_map,
    result_agreeVotes]

variable {agents : Set String}

theorem counted_initial : Counted config agents (initial config) where
  config_eq := rfl
  distinct := List.nodup_nil
  voters := by simp [initial]
  quorum := by simp [initial]

/-- **One call.** -/
theorem Counted.step (h : Counted config agents engine) {call : Call}
    (voter : ∀ agentId agrees confidence, call = .prepare agentId agrees confidence →
      agentId ∈ agents) : Counted config agents (engine.step call) := by
  cases call with
  | propose leader decision => exact ⟨h.config_eq, List.nodup_nil, by simp [PbftConsensus.step,
      PbftConsensus.propose], h.quorum⟩
  | viewChange agentIds => exact ⟨h.config_eq, List.nodup_nil, by simp [PbftConsensus.step,
      PbftConsensus.viewChange], h.quorum⟩
  | prepare agentId agrees confidence =>
      obtain heq | ⟨-, hnew, heq⟩ := @step_prepare engine agentId agrees confidence
      · rw [heq]
        exact h
      · rw [heq]
        refine ⟨h.config_eq, ?_, ?_, h.quorum⟩
        · simp only [List.map_append, List.map_cons, List.map_nil]
          exact List.nodup_append.mpr ⟨h.distinct, List.nodup_singleton _, fun a ha b hb heq =>
            hnew (List.mem_singleton.mp hb ▸ heq ▸ ha)⟩
        · intro entry hentry
          rcases List.mem_append.mp hentry with hold | hlast
          · exact h.voters entry hold
          · obtain rfl := List.mem_singleton.mp hlast
            exact voter agentId agrees confidence rfl
  | evaluate =>
      refine ⟨h.config_eq, h.distinct, h.voters, ?_⟩
      intro r hr hreached
      rcases List.mem_append.mp hr with hold | hlast
      · exact h.quorum r hold hreached
      · obtain rfl := List.mem_singleton.mp hlast
        refine ⟨?_, ?_⟩
        · rw [card_agreeing_result h.distinct, ← h.config_eq]
          exact quorum_le_of_reached hreached
        · intro agent hagent
          rw [agreeing_result, List.mem_toFinset, List.mem_map] at hagent
          obtain ⟨entry, hentry, rfl⟩ := hagent
          exact h.voters entry (List.mem_of_mem_filter (List.mem_of_mem_filter hentry))

/-- **A run.** -/
theorem Counted.run (h : Counted config agents engine)
    (voters : ∀ agentId agrees confidence, .prepare agentId agrees confidence ∈ calls →
      agentId ∈ agents) : Counted config agents (engine.run calls) := by
  induction calls generalizing engine with
  | nil => exact h
  | cons call calls ih =>
      refine ih (h.step fun a b c hcall => voters a b c ?_) fun a b c hmem =>
        voters a b c (List.mem_cons_of_mem _ hmem)
      rw [hcall]
      exact List.mem_cons_self

/-- **Quorum intersection.**  Every decided round has the agreeing votes of a quorum
of distinct agents.  If all votes come from a group of at most `n` agents, the
quorums of two decided rounds lie in it and share at least `2 (2f + 1) - n` agents,
more than `f` when `n = 3f + 1`. -/
theorem quorums_intersect (start : new config = .ok engine) {r r' : ConsensusResult}
    (hr : r ∈ (engine.run calls).history) (hr' : r' ∈ (engine.run calls).history)
    (reached : r.reached = true) (reached' : r'.reached = true) :
    (config.quorum ≤ (agreeing r).card ∧ config.quorum ≤ (agreeing r').card) ∧
    ∀ group : Finset String, group.card ≤ config.numAgents →
      (∀ agentId agrees confidence, .prepare agentId agrees confidence ∈ calls → agentId ∈ group) →
        (agreeing r ∪ agreeing r').card ≤ config.numAgents ∧
        2 * config.quorum ≤ (agreeing r ∩ agreeing r').card + config.numAgents ∧
        (config.numAgents = 3 * config.maxFaults + 1 →
          config.maxFaults < (agreeing r ∩ agreeing r').card) := by
  obtain ⟨-, rfl⟩ := new_eq_ok start
  have hall : Counted config Set.univ ((initial config).run calls) :=
    counted_initial.run fun _ _ _ _ => trivial
  have hquorum := (hall.quorum r hr reached).1
  have hquorum' := (hall.quorum r' hr' reached').1
  refine ⟨⟨hquorum, hquorum'⟩, fun group hgroup voters => ?_⟩
  have hin : Counted config (group : Set String) ((initial config).run calls) :=
    counted_initial.run voters
  have hsub : agreeing r ∪ agreeing r' ⊆ group := Finset.union_subset
    (fun agent => (hin.quorum r hr reached).2 agent)
    (fun agent => (hin.quorum r' hr' reached').2 agent)
  have hunion : (agreeing r ∪ agreeing r').card ≤ config.numAgents :=
    (Finset.card_le_card hsub).trans hgroup
  have hsum := Finset.card_union_add_card_inter (agreeing r) (agreeing r')
  have hinter : 2 * config.quorum ≤ (agreeing r ∩ agreeing r').card + config.numAgents := by omega
  refine ⟨hunion, hinter, fun hn => ?_⟩
  rw [PbftConfig.quorum] at hinter
  omega

/-! ### Runs of the code -/

/-- One agent and no faults, or two agents and no faults. -/
def tolerant (numAgents : ℕ) : PbftConfig :=
  { PbftConfig.fromFaultTolerance 0 with numAgents := numAgents }

/-- Two rounds, each decided by the vote of one agent. -/
def twoRounds (voter voter' : String) : List Call :=
  [.propose "l" "x", .prepare voter true 1, .evaluate,
    .propose "l" "y", .prepare voter' true 1, .evaluate]

/-- Any two decided rounds of the run involve at most `n` agents, more than `f` of
them twice. -/
def Intersecting (config : PbftConfig) (calls : List Call) : Prop :=
  ∀ r ∈ ((initial config).run calls).history, ∀ r' ∈ ((initial config).run calls).history,
    r.reached = true → r'.reached = true →
      (agreeing r ∪ agreeing r').card ≤ config.numAgents ∧
        config.maxFaults < (agreeing r ∩ agreeing r').card

instance (config : PbftConfig) (calls : List Call) : Decidable (Intersecting config calls) :=
  inferInstanceAs (Decidable (∀ r ∈ _, ∀ r' ∈ _, _))

/-- The two quorums of a run in which the same agent decides both rounds. -/
theorem quorums_intersect_twoRounds : ∃ r r' : ConsensusResult, r.round ≠ r'.round ∧
    (PbftConfig.quorum (tolerant 1) ≤ (agreeing r).card ∧
      PbftConfig.quorum (tolerant 1) ≤ (agreeing r').card) ∧
    ∀ group : Finset String, group.card ≤ (tolerant 1).numAgents →
      (∀ agentId agrees confidence,
        .prepare agentId agrees confidence ∈ twoRounds "a" "a" → agentId ∈ group) →
        (agreeing r ∪ agreeing r').card ≤ (tolerant 1).numAgents ∧
        2 * PbftConfig.quorum (tolerant 1) ≤
          (agreeing r ∩ agreeing r').card + (tolerant 1).numAgents ∧
        ((tolerant 1).numAgents = 3 * (tolerant 1).maxFaults + 1 →
          (tolerant 1).maxFaults < (agreeing r ∩ agreeing r').card) := by
  have hreached : ((initial (tolerant 1)).run (twoRounds "a" "a")).history.map
      (fun r => (r.round, r.reached)) = [(1, true), (2, true)] := by decide +kernel
  obtain ⟨r, r', hhistory⟩ : ∃ r r', ((initial (tolerant 1)).run (twoRounds "a" "a")).history =
      [r, r'] := by
    have hlength := congrArg List.length hreached
    rw [List.length_map] at hlength
    exact List.length_eq_two.mp hlength
  have hr : r ∈ ((initial (tolerant 1)).run (twoRounds "a" "a")).history := by simp [hhistory]
  have hr' : r' ∈ ((initial (tolerant 1)).run (twoRounds "a" "a")).history := by simp [hhistory]
  obtain ⟨⟨h₁, h₁'⟩, h₂, h₂'⟩ : (r.round = 1 ∧ r.reached = true) ∧
      r'.round = 2 ∧ r'.reached = true := by simpa [hhistory] using hreached
  exact ⟨r, r', by omega, quorums_intersect rfl hr hr' h₁' h₂'⟩

/-- **Two decided rounds need not share an agent**: strangers may vote, and with
more agents than `3f + 1` two quorums may be disjoint. -/
theorem quorums_disjoint :
    ((tolerant 1).validate = .ok () ∧ ¬ Intersecting (tolerant 1) (twoRounds "a" "b")) ∧
      (tolerant 2).validate = .ok () ∧ ¬ Intersecting (tolerant 2) (twoRounds "a" "b") := by
  refine ⟨⟨rfl, ?_⟩, rfl, ?_⟩ <;> decide +kernel

/-! ### One round, several results -/

/-- The agents whose record a call updates. -/
def updates (engine : PbftConsensus) : Call → List String
  | .evaluate =>
      if engine.result.reached then engine.result.agentVotes.map (·.agentId) else []
  | _ => []

/-- The updates along a run, each with the round it was made in. -/
def updatesAlong : PbftConsensus → List Call → List (ℕ × String)
  | _, [] => []
  | engine, call :: calls =>
      (engine.updates call).map (engine.state.round, ·) ++ (engine.step call).updatesAlong calls

/-- How often the record of an agent has been updated. -/
def recordedRounds (engine : PbftConsensus) (agentId : String) : ℕ :=
  ((engine.agentAccuracy agentId).map (·.rounds)).getD 0

/-- The results of one round agree. -/
def Agreement (history : List ConsensusResult) : Prop :=
  ∀ r ∈ history, ∀ r' ∈ history, r.round = r'.round →
    r.reached = r'.reached ∧ r.decision = r'.decision

/-- The round has been decided. -/
def Decided (engine : PbftConsensus) : Prop :=
  ∃ r ∈ engine.history, r.round = engine.state.round ∧ r.reached = true

/-- `evaluate` is never called in a round that has been decided. -/
def EvaluatedOnce : PbftConsensus → List Call → Prop
  | _, [] => True
  | engine, call :: calls =>
      (call = .evaluate → ¬ engine.Decided) ∧ (engine.step call).EvaluatedOnce calls

/-- The record of an agent counts the updates made to it. -/
theorem recordedRounds_credit (alpha : ℚ) (details : List AgentVoteDetail) (agentId : String)
    (accuracies : String → Option AgentAccuracy) :
    (((details.foldl (credit alpha) accuracies) agentId).map (·.rounds)).getD 0 =
      ((accuracies agentId).map (·.rounds)).getD 0 +
        (details.map (·.agentId)).count agentId := by
  induction details generalizing accuracies with
  | nil => rfl
  | cons detail details ih =>
      rw [List.foldl_cons, ih, List.map_cons, List.count_cons, credit]
      by_cases h : detail.agentId = agentId
      · subst h
        cases accuracies detail.agentId <;> simp [AgentAccuracy.new] <;> omega
      · rw [Function.update_of_ne (Ne.symm h)]
        simp [h]

theorem recordedRounds_step (call : Call) (agentId : String) :
    (engine.step call).recordedRounds agentId =
      engine.recordedRounds agentId + (engine.updates call).count agentId := by
  cases call with
  | prepare voter agrees confidence =>
      obtain heq | ⟨-, -, heq⟩ := @step_prepare engine voter agrees confidence <;> rw [heq] <;> rfl
  | evaluate =>
      simp only [recordedRounds, step_evaluate, evaluate, updates]
      cases engine.result.reached with
      | true => exact recordedRounds_credit _ _ _ _
      | false => rfl
  | _ => rfl

/-- **The records along a run.** -/
theorem recordedRounds_run (agentId : String) :
    (engine.run calls).recordedRounds agentId =
      engine.recordedRounds agentId + ((engine.updatesAlong calls).map Prod.snd).count agentId := by
  induction calls generalizing engine with
  | nil => rfl
  | cons call calls ih =>
      rw [run_cons, ih, recordedRounds_step, updatesAlong, List.map_append, List.map_map,
        List.count_append]
      show _ = _ + (List.count agentId ((engine.updates call).map fun a => a) + _)
      rw [List.map_id', Nat.add_assoc]

/-- What is known of the current round, and of the updates made so far. -/
structure Inv (prior : List (ℕ × String)) (engine : PbftConsensus) : Prop where
  past : ∀ r ∈ engine.history, r.round ≤ engine.state.round
  priorPast : ∀ u ∈ prior, u.1 ≤ engine.state.round
  distinct : (engine.state.prepares.map Prod.fst).Nodup
  undecided : ∀ r ∈ engine.history, r.reached = false → r.decision = none
  /-- A round that has been evaluated takes no more votes. -/
  closed : (∃ r ∈ engine.history, r.round = engine.state.round) → engine.state.phase ≠ .prepare
  /-- …so if it was not decided then, it never will be. -/
  stuck : (∃ r ∈ engine.history, r.round = engine.state.round) → ¬ engine.Decided →
    engine.result.reached = false
  /-- If it was, the agents that count have been credited. -/
  credited : engine.Decided → ∀ entry ∈ engine.counted, (engine.state.round, entry.1) ∈ prior
  priorDecided : ∀ u ∈ prior, u.1 = engine.state.round → engine.Decided

variable {prior : List (ℕ × String)}

theorem inv_initial : Inv [] (initial config) := by
  constructor <;> simp [initial, Decided]

/-- In a new round nothing has happened yet. -/
theorem Inv.fresh (h : Inv prior engine) {state : PbftState}
    (hround : engine.state.round < state.round) (hprepares : state.prepares = []) :
    Inv prior { engine with state := state } := by
  have hnone : ¬ ∃ r ∈ engine.history, r.round = state.round := by
    rintro ⟨r, hr, heq⟩
    have := h.past r hr
    omega
  have hundecided : ¬ Decided { engine with state := state } := fun ⟨r, hr, heq, _⟩ =>
    hnone ⟨r, hr, heq⟩
  refine ⟨fun r hr => (h.past r hr).trans hround.le, fun u hu => (h.priorPast u hu).trans hround.le,
    ?_, h.undecided, fun hexists => absurd hexists hnone, fun hexists => absurd hexists hnone,
    fun hdecided => absurd hdecided hundecided, fun u hu heq => ?_⟩
  · rw [hprepares]
    exact List.nodup_nil
  · have := h.priorPast u hu
    have heq' : u.1 = state.round := heq
    omega

/-- Dropping the votes of a round leaves nothing to decide it with. -/
theorem Inv.cleared (h : Inv prior engine) {state : PbftState}
    (hround : state.round = engine.state.round) (hphase : state.phase ≠ .prepare)
    (hprepares : state.prepares = []) : Inv prior { engine with state := state } := by
  have hdecided : Decided { engine with state := state } ↔ engine.Decided := by
    simp only [Decided, hround]
  refine ⟨fun r hr => hround ▸ h.past r hr, fun u hu => hround ▸ h.priorPast u hu, ?_, h.undecided,
    fun _ => hphase, fun _ _ => result_of_prepares_eq_nil hprepares, fun _ entry hentry => ?_,
    fun u hu heq => hdecided.mpr (h.priorDecided u hu (heq.trans hround))⟩
  · rw [hprepares]
    exact List.nodup_nil
  · rw [counted] at hentry
    simp [hprepares] at hentry

/-- A vote is only taken in a round that has not been evaluated. -/
theorem Inv.voted (h : Inv prior engine) (hphase : engine.state.phase = .prepare)
    {prepares : List (String × PbftMessage)} (hdistinct : (prepares.map Prod.fst).Nodup) :
    Inv prior { engine with state := { engine.state with prepares := prepares } } := by
  have hnone : ¬ ∃ r ∈ engine.history, r.round = engine.state.round :=
    fun hexists => h.closed hexists hphase
  exact ⟨h.past, h.priorPast, hdistinct, h.undecided, h.closed, fun hexists => absurd hexists hnone,
    fun ⟨r, hr, heq, _⟩ => absurd ⟨r, hr, heq⟩ hnone, h.priorDecided⟩

/-- The evaluation of the current round is recorded, and its agents are credited. -/
theorem Inv.evaluated (h : Inv prior engine) :
    Inv (prior ++ (engine.updates .evaluate).map (engine.state.round, ·)) engine.evaluate.2 := by
  have hmem {r} (hr : r ∈ engine.evaluate.2.history) :
      r ∈ engine.history ∨ r = engine.result := by
    simpa [evaluate] using hr
  have hdecided : engine.evaluate.2.Decided ↔
      engine.Decided ∨ engine.result.reached = true := by
    constructor
    · rintro ⟨r, hr, heq, hreached⟩
      rcases hmem hr with hr | rfl
      · exact .inl ⟨r, hr, heq, hreached⟩
      · exact .inr hreached
    · rintro (⟨r, hr, heq, hreached⟩ | hreached)
      · exact ⟨r, List.mem_append_left _ hr, heq, hreached⟩
      · exact ⟨engine.result, List.mem_append_right _ List.mem_cons_self, rfl, hreached⟩
  refine ⟨fun r hr => ?_, fun u hu => ?_, h.distinct, fun r hr => ?_, fun _ => ?_, fun _ hnot => ?_,
    fun hd entry hentry => ?_, fun u hu heq => ?_⟩
  · rcases hmem hr with hr | rfl
    · exact h.past r hr
    · exact le_rfl
  · rcases List.mem_append.mp hu with hu | hu
    · exact h.priorPast u hu
    · obtain ⟨a, -, rfl⟩ := List.mem_map.mp hu
      exact le_rfl
  · rcases hmem hr with hr | rfl
    · exact h.undecided r hr
    · intro hreached
      show (if engine.result.reached then engine.state.proposal else none) = none
      simp [hreached]
  · simp only [evaluate]
    split_ifs <;> decide
  · have hreached : engine.result.reached = false := by
      by_contra hreached
      exact hnot (hdecided.mpr (.inr (Bool.not_eq_false _ ▸ hreached)))
    rw [evaluate_of_not_reached hreached]
    exact hreached
  · rcases hdecided.mp hd with hd | hreached
    · exact List.mem_append_left _ (h.credited hd entry hentry)
    · refine List.mem_append_right _ (List.mem_map.mpr ⟨entry.1, ?_, rfl⟩)
      simp only [updates, hreached, if_true, result_agentVotes, List.map_map]
      exact List.mem_map.mpr ⟨entry, hentry, rfl⟩
  · rcases List.mem_append.mp hu with hu | hu
    · exact hdecided.mpr (.inl (h.priorDecided u hu heq))
    · obtain ⟨a, ha, -⟩ := List.mem_map.mp hu
      refine hdecided.mpr (.inr ?_)
      by_contra hreached
      simp [updates, hreached] at ha

/-- **One call.** -/
theorem Inv.step (h : Inv prior engine) (call : Call) :
    Inv (prior ++ (engine.updates call).map (engine.state.round, ·)) (engine.step call) := by
  cases call with
  | evaluate => exact h.evaluated
  | propose leader decision =>
      simp only [updates, List.map_nil, List.append_nil]
      exact h.fresh (Nat.lt_succ_self _) rfl
  | viewChange agentIds =>
      simp only [updates, List.map_nil, List.append_nil]
      exact h.cleared rfl (fun h => nomatch h) rfl
  | prepare agentId agrees confidence =>
      simp only [updates, List.map_nil, List.append_nil]
      obtain heq | ⟨hphase, hnew, heq⟩ := @step_prepare engine agentId agrees confidence
      · rw [heq]
        exact h
      · rw [heq]
        refine h.voted hphase ?_
        simp only [List.map_append, List.map_cons, List.map_nil]
        exact List.nodup_append.mpr ⟨h.distinct, List.nodup_singleton _, fun a ha b hb hab =>
          hnew (List.mem_singleton.mp hb ▸ hab ▸ ha)⟩

/-- Only an evaluation records anything. -/
theorem history_step (call : Call) :
    (engine.step call).history =
      engine.history ++ if call = .evaluate then [engine.result] else [] := by
  cases call with
  | evaluate => simp [evaluate]
  | prepare agentId agrees confidence =>
      obtain heq | ⟨-, -, heq⟩ := @step_prepare engine agentId agrees confidence <;> simp [heq]
  | propose | viewChange => simp [PbftConsensus.step, PbftConsensus.propose,
      PbftConsensus.viewChange]

theorem mem_history_run {r : ConsensusResult} (h : r ∈ engine.history) :
    r ∈ (engine.run calls).history := by
  induction calls generalizing engine with
  | nil => exact h
  | cons call calls ih =>
      refine ih ?_
      rw [history_step]
      exact List.mem_append_left _ h

/-- A call that does not evaluate a decided round keeps the results of the rounds in
agreement. -/
theorem Inv.agreement_step (h : Inv prior engine) (hagree : Agreement engine.history) {call : Call}
    (once : call = .evaluate → ¬ engine.Decided) : Agreement (engine.step call).history := by
  rw [history_step]
  split_ifs with hcall
  · have hundecided := once hcall
    -- An earlier result of the round did not decide it, and nor does this one.
    have hsame {r} (hr : r ∈ engine.history) (heq : r.round = engine.state.round) :
        r.reached = engine.result.reached ∧ r.decision = engine.result.decision := by
      have hnot : r.reached = false := by
        by_contra hreached
        exact hundecided ⟨r, hr, heq, Bool.not_eq_false _ ▸ hreached⟩
      have hnot' := h.stuck ⟨r, hr, heq⟩ hundecided
      refine ⟨hnot.trans hnot'.symm, (h.undecided r hr hnot).trans ?_⟩
      show none = if engine.result.reached then engine.state.proposal else none
      simp [hnot']
    intro r hr r' hr' heq
    rcases List.mem_append.mp hr with hr | hr <;> rcases List.mem_append.mp hr' with hr' | hr'
    · exact hagree r hr r' hr' heq
    · obtain rfl := List.mem_singleton.mp hr'
      exact hsame hr heq
    · obtain rfl := List.mem_singleton.mp hr
      exact ⟨(hsame hr' heq.symm).1.symm, (hsame hr' heq.symm).2.symm⟩
    · obtain rfl := List.mem_singleton.mp hr
      obtain rfl := List.mem_singleton.mp hr'
      exact ⟨rfl, rfl⟩
  · simpa using hagree

/-- …and updates nobody a second time. -/
theorem Inv.nodup_step (h : Inv prior engine) (hnodup : prior.Nodup) {call : Call}
    (once : call = .evaluate → ¬ engine.Decided) :
    (prior ++ (engine.updates call).map (engine.state.round, ·)).Nodup := by
  cases call with
  | evaluate =>
      have hsub : (engine.counted.map Prod.fst).Nodup :=
        h.distinct.sublist (List.filter_sublist.map _)
      refine List.nodup_append.mpr ⟨hnodup, ?_, ?_⟩
      · refine List.Nodup.map (fun a b hab => (Prod.mk.inj hab).2) ?_
        simp only [updates]
        split_ifs
        · rwa [result_agentVotes, List.map_map]
        · exact List.nodup_nil
      · rintro u hu v hv rfl
        obtain ⟨a, -, rfl⟩ := List.mem_map.mp hv
        exact once rfl (h.priorDecided _ hu rfl)
  | _ => simpa [updates] using hnodup

/-- **Evaluating a decided round again is noticed.** -/
theorem Inv.evaluated_again (h : Inv prior engine) (hdecided : engine.Decided)
    (hagree : Agreement engine.evaluate.2.history) :
    ¬ (prior ++ (engine.updates .evaluate).map (engine.state.round, ·)).Nodup := by
  obtain ⟨r, hr, heq, hreached⟩ := hdecided
  have hagain : engine.result.reached = true := by
    rw [← (hagree r (List.mem_append_left _ hr) engine.result
      (List.mem_append_right _ List.mem_cons_self) heq).1]
    exact hreached
  -- A quorum is not empty, and its first agent is credited again.
  have hquorum := quorum_le_of_reached hagain
  rw [result_agreeVotes, PbftConfig.quorum] at hquorum
  obtain ⟨entry, hentry⟩ : ∃ entry, entry ∈ engine.counted.filter (·.2.agrees) :=
    List.exists_mem_of_length_pos (by omega)
  have hentry := List.mem_of_mem_filter hentry
  have hprior := h.credited ⟨r, hr, heq, hreached⟩ entry hentry
  intro hnodup
  refine (List.nodup_append.mp hnodup).2.2 _ hprior _ (List.mem_map.mpr ⟨entry.1, ?_, rfl⟩) rfl
  simp only [updates, hagain, if_true, result_agentVotes, List.map_map]
  exact List.mem_map.mpr ⟨entry, hentry, rfl⟩

theorem Inv.agreement_from (h : Inv prior engine) (hagree : Agreement engine.history)
    (hnodup : prior.Nodup) :
    Agreement (engine.run calls).history ∧ (prior ++ engine.updatesAlong calls).Nodup ↔
      engine.EvaluatedOnce calls := by
  induction calls generalizing engine prior with
  | nil => simpa [updatesAlong, EvaluatedOnce] using ⟨hagree, hnodup⟩
  | cons call calls ih =>
      rw [run_cons, updatesAlong, EvaluatedOnce, ← List.append_assoc]
      constructor
      · rintro ⟨hfinal, hall⟩
        have hkept := (List.nodup_append.mp hall).1
        have once : call = .evaluate → ¬ engine.Decided := by
          rintro rfl hdecided
          refine h.evaluated_again hdecided (fun r hr r' hr' => ?_) hkept
          exact hfinal r (mem_history_run hr) r' (mem_history_run hr')
        exact ⟨once, (ih (h.step call) (h.agreement_step hagree once) hkept).mp ⟨hfinal, hall⟩⟩
      · rintro ⟨once, hrest⟩
        exact (ih (h.step call) (h.agreement_step hagree once) (h.nodup_step hnodup once)).mpr hrest

/-- **The results of a round agree, and no agent is credited twice for one round,
exactly when no decided round is evaluated again.** -/
theorem agreement_iff (start : new config = .ok engine) (calls : List Call) :
    Agreement (engine.run calls).history ∧ (engine.updatesAlong calls).Nodup ↔
      engine.EvaluatedOnce calls := by
  obtain ⟨-, rfl⟩ := new_eq_ok start
  exact inv_initial.agreement_from (by simp [Agreement, initial]) List.nodup_nil

theorem agreement_iff_twoRounds :
    Agreement ((initial (tolerant 1)).run (twoRounds "a" "a")).history ∧
      ((initial (tolerant 1)).updatesAlong (twoRounds "a" "a")).Nodup := by
  refine (agreement_iff (show new (tolerant 1) = .ok (initial (tolerant 1)) from rfl) _).mpr ?_
  simp only [twoRounds, EvaluatedOnce, Decided]
  decide +kernel

/-- **A decided round is recorded as undecided, and an agent is credited twice for
one round.** -/
theorem decided_again :
    ¬ Agreement ((initial (tolerant 1)).run [.propose "l" "x", .prepare "a" true 1, .evaluate,
        .viewChange [], .evaluate]).history ∧
      ¬ ((initial (tolerant 1)).updatesAlong [.propose "l" "x", .prepare "a" true 1, .evaluate,
        .evaluate]).Nodup := by
  constructor
  · simp only [Agreement]
    decide +kernel
  · decide +kernel

end ClawDesk.Consensus.PbftConsensus
