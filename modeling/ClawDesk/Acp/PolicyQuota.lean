import ClawDesk.Acp.Policy
import ClawDesk.Foundations.Fold

/-!
# The quota law

The decisions of a policy engine are a function of the tasks it has allowed and of the clock:
a requester whose quota lies within the window is limited, everybody else gets what the rules
say (`Lawful`).  The first check of a requester, however, finds no window and is passed whatever
the quota, so the law holds just where no quota is zero (`lawful_iff`).
-/

namespace ClawDesk.Acp

open Foundations SlidingLog

/-! ### The law -/

/-- One call of `evaluate`: the request, and the clock where it reads it. -/
structure Evaluation where
  request : DelegationRequest
  checkedAt : ℕ
  recordedAt : ℕ
  ordered : checkedAt ≤ recordedAt

/-- When tasks of the requester were allowed, the oldest first. -/
def granted (past : List (Evaluation × PolicyDecision)) (requesterId : String) : List ℕ :=
  (past.filter fun p => p.1.request.requesterId = requesterId ∧ p.2 = .allow).map (·.1.recordedAt)

/-- The effect of the first rule that matches, or the default. -/
def A2APolicy.ruling (policy : A2APolicy) (request : DelegationRequest) : PolicyEffect :=
  (policy.rules.find? (·.matchesRequest request)).elim policy.defaultEffect (·.effect)

/-- What a decision says of the rules; a limit says nothing of them. -/
def PolicyDecision.effect : PolicyDecision → Option PolicyEffect
  | allow => some .allow
  | deny _ => some .deny
  | rateLimited _ => none

/-- The law for one decision, after those of the past. -/
structure Lawful (policy : A2APolicy) (past : List (Evaluation × PolicyDecision))
    (e : Evaluation) (decision : PolicyDecision) : Prop where
  /-- No interval shorter than the window holds more allowed tasks than the quota. -/
  quota : ∀ config, policy.limitFor e.request.requesterId = some config →
    ∀ a b, b < a + config.window →
      ((granted (past ++ [(e, decision)]) e.request.requesterId).filter
        fun t => a ≤ t ∧ t ≤ b).length ≤ config.maxTasks
  limited : decision.effect = none ↔
    ∃ config, policy.limitFor e.request.requesterId = some config ∧
      config.maxTasks ≤
        (recent config.window e.checkedAt (granted past e.request.requesterId)).length
  ruled : decision.effect ≠ none → decision.effect = some (policy.ruling e.request)

/-- An engine with its history. -/
structure PolicySession where
  engine : PolicyEngine
  past : List (Evaluation × PolicyDecision)

namespace PolicySession

def new (policy : A2APolicy) : PolicySession := ⟨.new policy, []⟩

/-- One more evaluation; `none` once one has panicked. -/
def next (s : Option PolicySession) (e : Evaluation) : Option PolicySession :=
  s.bind fun s => (s.engine.evaluate e.request e.checkedAt e.recordedAt).map
    fun (decision, engine) => ⟨engine, s.past ++ [(e, decision)]⟩

/-- The next evaluation returns, and returns what the law says. -/
def Obeys (policy : A2APolicy) (s : Option PolicySession) (e : Evaluation) : Prop :=
  ∃ session decision engine, s = some session ∧
    session.engine.evaluate e.request e.checkedAt e.recordedAt = some (decision, engine) ∧
    Lawful policy session.past e decision

end PolicySession

/-- The clock does not run backwards, and is a window away from its first instant. -/
structure Timely (policy : A2APolicy) (evaluations : List Evaluation) : Prop where
  ordered : evaluations.Pairwise fun a b => a.recordedAt ≤ b.checkedAt
  late : ∀ e ∈ evaluations, ∀ config, policy.limitFor e.request.requesterId = some config →
    config.window ≤ e.checkedAt

/-! ### What the engine remembers -/

/-- A requester has a window if and only if it was allowed a task, and of its allowed tasks there
are in it all that count. -/
inductive Remembers (config : RateLimitConfig) (times : List ℕ) (clock : ℕ) :
    Option RateWindow → Prop
  | none (never : times = []) : Remembers config times clock none
  | some {timestamps : List ℕ} (nonempty : times ≠ []) (sorted : timestamps.Pairwise (· ≤ ·))
      (kept : ∀ now, clock ≤ now →
        recent config.window now timestamps = recent config.window now times) :
      Remembers config times clock (some ⟨timestamps, config.maxTasks, config.window⟩)

/-- The engine remembers the allowed tasks, and no quota was ever exceeded. -/
structure Keeps (policy : A2APolicy) (times : String → List ℕ) (clock : ℕ)
    (engine : PolicyEngine) : Prop where
  policy_eq : engine.policy = policy
  past : ∀ r, ∀ t ∈ times r, t ≤ clock
  metered : ∀ r config, policy.limitFor r = some config →
    Metered config.window config.maxTasks (times r)
  windows : ∀ r config, policy.limitFor r = some config →
    Remembers config (times r) clock (engine.rateWindows.lookup r)

section Keeps

variable {policy : A2APolicy} {times : String → List ℕ} {clock now : ℕ} {engine : PolicyEngine}
  {r : String} {config : RateLimitConfig} {w : RateWindow}

theorem Remembers.mono {ts : List ℕ} {w : Option RateWindow} (h : Remembers config ts clock w)
    (hle : clock ≤ now) : Remembers config ts now w := by
  cases h with
  | none never => exact .none never
  | some nonempty sorted kept =>
      exact .some nonempty sorted fun now' hle' => kept now' (hle.trans hle')

theorem Keeps.mono (h : Keeps policy times clock engine) (hle : clock ≤ now) :
    Keeps policy times now engine where
  policy_eq := h.policy_eq
  past r t ht := (h.past r t ht).trans hle
  metered := h.metered
  windows r config hlimit := (h.windows r config hlimit).mono hle

theorem keeps_new : Keeps policy (fun _ => []) clock (.new policy) where
  policy_eq := rfl
  past _ _ ht := absurd ht List.not_mem_nil
  metered _ _ _ := .nil
  windows _ _ _ := .none rfl

/-- A window of the requester is replaced by one that remembers as much. -/
theorem Keeps.setWindow (h : Keeps policy times clock engine)
    (hw : ∀ config, policy.limitFor r = some config →
      Remembers config (times r) clock (some w)) :
    Keeps policy times clock (engine.setWindow r w) where
  policy_eq := h.policy_eq
  past := h.past
  metered := h.metered
  windows r' config hlimit := by
    by_cases hr : r' = r
    · subst hr
      rw [PolicyEngine.setWindow, AList.lookup_insert]
      exact hw config hlimit
    · rw [PolicyEngine.setWindow, AList.lookup_insert_ne hr]
      exact h.windows r' config hlimit

/-- Eviction leaves what counts now. -/
theorem evictExpired_eq {timestamps : List ℕ} (sorted : timestamps.Pairwise (· ≤ ·))
    (hlate : config.window ≤ now) :
    (⟨timestamps, config.maxTasks, config.window⟩ : RateWindow).evictExpired now =
      some ⟨recent config.window now timestamps, config.maxTasks, config.window⟩ := by
  have hfront : (fun front : ℕ => decide (front ≤ now - config.window)) =
      fun front => decide (front + config.window ≤ now) := by
    funext front
    rw [decide_eq_decide]
    omega
  rw [RateWindow.evictExpired, if_neg hlate.not_gt]
  simp only [hfront, dropWhile_eq_recent sorted]

/-- The check: nothing is forgotten, and a requester is limited if it has a window in which its
quota lies. -/
theorem Keeps.checkRateLimit (h : Keeps policy times clock engine) (hle : clock ≤ now)
    (hlate : ∀ config, policy.limitFor r = some config → config.window ≤ now) :
    ∃ limited engine', engine.checkRateLimit r now = some (limited, engine') ∧
      Keeps policy times now engine' ∧
      (∀ decision, limited = some decision → decision.effect = none) ∧
      (limited.isSome ↔ ∃ config, policy.limitFor r = some config ∧ times r ≠ [] ∧
        config.maxTasks ≤ (recent config.window now (times r)).length) := by
  have hnow : Keeps policy times now engine := h.mono hle
  unfold PolicyEngine.checkRateLimit
  rw [h.policy_eq]
  cases hlimit : policy.limitFor r with
  | none => exact ⟨none, engine, rfl, hnow, nofun, by simp⟩
  | some config =>
      have hwindow := h.windows r config hlimit
      cases hlookup : engine.rateWindows.lookup r with
      | none =>
          rw [hlookup] at hwindow
          cases hwindow with
          | none never => exact ⟨none, engine, rfl, hnow, nofun, by simp [never]⟩
      | some w =>
          rw [hlookup] at hwindow
          cases hwindow with
          | @some timestamps nonempty sorted kept =>
              have hmetered := h.metered r config hlimit
              have hsmall : (recent config.window now (times r)).length ≤ config.maxTasks :=
                hmetered.recent_le (hnow.past r)
              have hmod := Nat.mod_eq_of_lt (hsmall.trans_lt config.maxTasks_lt)
              simp only [RateWindow.isAllowed, evictExpired_eq sorted (hlate config hlimit),
                kept now hle, Option.map_some, hmod]
              refine ⟨_, _, rfl, hnow.setWindow fun config' hlimit' => ?_, ?_, ?_⟩
              · rw [hlimit] at hlimit'
                cases hlimit'
                exact .some nonempty (hmetered.sorted.sublist List.filter_sublist)
                  fun now' hle' => recent_recent hle'
              · intro decision hdecision
                split_ifs at hdecision
                cases hdecision
                rfl
              · simp [nonempty]

/-- One requester is allowed one more task, and the windows of the others stay. -/
theorem Keeps.grant (h : Keeps policy times clock engine) (hle : clock ≤ now)
    {engine' : PolicyEngine} (hpolicy : engine'.policy = policy)
    (hothers : ∀ r', r' ≠ r → engine'.rateWindows.lookup r' = engine.rateWindows.lookup r')
    (hmetered : ∀ config, policy.limitFor r = some config →
      Metered config.window config.maxTasks (times r ++ [now]))
    (hwindow : ∀ config, policy.limitFor r = some config →
      Remembers config (times r ++ [now]) now (engine'.rateWindows.lookup r)) :
    Keeps policy (Function.update times r (times r ++ [now])) now engine' where
  policy_eq := hpolicy
  past r' t ht := by
    by_cases hr : r' = r
    · subst hr
      rw [Function.update_self] at ht
      rcases List.mem_append.mp ht with ht | ht
      · exact (h.past r' t ht).trans hle
      · exact (List.mem_singleton.mp ht).le
    · rw [Function.update_of_ne hr] at ht
      exact (h.past r' t ht).trans hle
  metered r' config hlimit := by
    by_cases hr : r' = r
    · subst hr
      rw [Function.update_self]
      exact hmetered config hlimit
    · rw [Function.update_of_ne hr]
      exact h.metered r' config hlimit
  windows r' config hlimit := by
    by_cases hr : r' = r
    · subst hr
      rw [Function.update_self]
      exact hwindow config hlimit
    · rw [Function.update_of_ne hr, hothers r' hr]
      exact (h.windows r' config hlimit).mono hle

/-- The window that a task is recorded in, be it a new one. -/
theorem Keeps.getD_window (h : Keeps policy times clock engine) (hle : clock ≤ now)
    (hlimit : policy.limitFor r = some config) :
    ∃ timestamps, (engine.rateWindows.lookup r).getD
        (RateWindow.new config.maxTasks config.window) =
          ⟨timestamps, config.maxTasks, config.window⟩ ∧ timestamps.Pairwise (· ≤ ·) ∧
      recent config.window now timestamps = recent config.window now (times r) := by
  have hwindow := h.windows r config hlimit
  generalize engine.rateWindows.lookup r = w at hwindow ⊢
  cases hwindow with
  | none never => exact ⟨[], rfl, List.Pairwise.nil, by rw [never]⟩
  | @some timestamps _ sorted kept => exact ⟨timestamps, rfl, sorted, kept now hle⟩

/-- The record of a task for which there is room. -/
theorem Keeps.recordTask (h : Keeps policy times clock engine) (hle : clock ≤ now)
    (hlate : ∀ config, policy.limitFor r = some config → config.window ≤ now)
    (room : ∀ config, policy.limitFor r = some config →
      (recent config.window now (times r)).length < config.maxTasks) :
    ∃ engine', engine.recordTask r now = some engine' ∧
      Keeps policy (Function.update times r (times r ++ [now])) now engine' := by
  have hpast : ∀ t ∈ times r, t ≤ now := fun t ht => (h.past r t ht).trans hle
  unfold PolicyEngine.recordTask
  rw [h.policy_eq]
  cases hlimit : policy.limitFor r with
  | none =>
      refine ⟨engine, rfl, h.grant hle h.policy_eq (fun _ _ => rfl) ?_ ?_⟩
      · exact fun config hlimit' => absurd (hlimit.symm.trans hlimit') nofun
      · exact fun config hlimit' => absurd (hlimit.symm.trans hlimit') nofun
  | some config =>
      obtain ⟨timestamps, hw, hsorted, hkept⟩ := h.getD_window hle hlimit
      have hmetered : Metered config.window config.maxTasks (times r ++ [now]) :=
        (h.metered r config hlimit).concat hpast (room config hlimit)
      simp only [hw, RateWindow.record, evictExpired_eq hsorted (hlate config hlimit), hkept,
        Option.map_some]
      refine ⟨_, rfl, h.grant hle h.policy_eq (fun r' hr => AList.lookup_insert_ne hr) ?_ ?_⟩
      · intro config' hlimit'
        obtain rfl := Option.some.inj (hlimit.symm.trans hlimit')
        exact hmetered
      · intro config' hlimit'
        obtain rfl := Option.some.inj (hlimit.symm.trans hlimit')
        rw [PolicyEngine.setWindow, AList.lookup_insert]
        refine .some (by simp) ?_ fun now' hle' => ?_
        · exact hmetered.sorted.sublist (List.filter_sublist.append_right _)
        · rw [recent_append, recent_recent hle', recent_append]

end Keeps

/-! ### One evaluation -/

section Evaluation

variable {policy : A2APolicy} {past : List (Evaluation × PolicyDecision)} {clock : ℕ}
  {engine engine' : PolicyEngine} {e : Evaluation} {decision : PolicyDecision}

theorem granted_allow : granted (past ++ [(e, .allow)]) =
    Function.update (granted past) e.request.requesterId
      (granted past e.request.requesterId ++ [e.recordedAt]) := by
  funext r
  by_cases hr : r = e.request.requesterId
  · subst hr
    simp [granted]
  · rw [Function.update_of_ne hr]
    simp [granted, Ne.symm hr]

/-- Only allowed tasks are counted, whoever asks. -/
theorem granted_of_ne (hne : decision ≠ .allow) :
    granted (past ++ [(e, decision)]) = granted past := by
  funext r
  simp [granted, hne]

/-- After the check the rules decide. -/
theorem evaluate_of_passed {checkedAt : ℕ} (recordedAt : ℕ) {request : DelegationRequest}
    (hcheck : engine.checkRateLimit request.requesterId checkedAt = some (none, engine')) :
    (engine'.policy.ruling request = .allow ∧ engine.evaluate request checkedAt recordedAt =
        (engine'.recordTask request.requesterId recordedAt).map fun engine => (.allow, engine)) ∨
      engine'.policy.ruling request = .deny ∧ ∃ reason,
        engine.evaluate request checkedAt recordedAt = some (.deny reason, engine') := by
  simp only [PolicyEngine.evaluate, A2APolicy.ruling, hcheck, Option.bind_some]
  cases engine'.policy.rules.find? (·.matchesRequest request) with
  | some rule =>
      cases heffect : rule.effect with
      | allow => exact .inl ⟨heffect, by simp only [heffect]; rfl⟩
      | deny => exact .inr ⟨heffect, _, by simp only [heffect]; rfl⟩
  | none =>
      cases heffect : engine'.policy.defaultEffect with
      | allow => exact .inl ⟨rfl, rfl⟩
      | deny => exact .inr ⟨rfl, _, rfl⟩

theorem evaluate_of_limited {checkedAt recordedAt : ℕ} {request : DelegationRequest}
    (hcheck : engine.checkRateLimit request.requesterId checkedAt =
      some (some decision, engine')) :
    engine.evaluate request checkedAt recordedAt = some (decision, engine') := by
  rw [PolicyEngine.evaluate, hcheck, Option.bind_some]

theorem Keeps.quota {times : String → List ℕ} (h : Keeps policy times clock engine) {r : String}
    {config : RateLimitConfig} (hlimit : policy.limitFor r = some config) (a b : ℕ)
    (hshort : b < a + config.window) :
    ((times r).filter fun t => a ≤ t ∧ t ≤ b).length ≤ config.maxTasks :=
  (h.metered r config hlimit).interval_le hshort

/-- What the rules say to a task for which there is room. -/
theorem Keeps.evaluate_of_room (h : Keeps policy (granted past) e.checkedAt engine')
    (hcheck : engine.checkRateLimit e.request.requesterId e.checkedAt = some (none, engine'))
    (hlate : ∀ config, policy.limitFor e.request.requesterId = some config →
      config.window ≤ e.checkedAt)
    (room : ∀ config, policy.limitFor e.request.requesterId = some config →
      (recent config.window e.checkedAt (granted past e.request.requesterId)).length <
        config.maxTasks) :
    ∃ decision engine₂, engine.evaluate e.request e.checkedAt e.recordedAt =
        some (decision, engine₂) ∧ decision.effect = some (policy.ruling e.request) ∧
      Keeps policy (granted (past ++ [(e, decision)])) e.recordedAt engine₂ := by
  rcases evaluate_of_passed e.recordedAt hcheck with
    ⟨hruling, heval⟩ | ⟨hruling, reason, heval⟩
  · rw [h.policy_eq] at hruling
    have hroom : ∀ config, policy.limitFor e.request.requesterId = some config →
        (recent config.window e.recordedAt (granted past e.request.requesterId)).length <
          config.maxTasks := by
      intro config hlimit
      rw [← recent_recent e.ordered]
      exact (List.length_filter_le _ _).trans_lt (room config hlimit)
    obtain ⟨engine₂, hrecord, h₂⟩ := h.recordTask e.ordered
      (fun config hlimit => (hlate config hlimit).trans e.ordered) hroom
    rw [hrecord] at heval
    refine ⟨.allow, engine₂, heval, congrArg some hruling.symm, ?_⟩
    rw [granted_allow]
    exact h₂
  · rw [h.policy_eq] at hruling
    refine ⟨.deny reason, engine', heval, congrArg some hruling.symm, ?_⟩
    rw [granted_of_ne PolicyDecision.noConfusion]
    exact h.mono e.ordered

/-- Where the quota is not zero, the next decision is lawful, and is remembered. -/
theorem Keeps.evaluate (h : Keeps policy (granted past) clock engine) (hle : clock ≤ e.checkedAt)
    (hlate : ∀ config, policy.limitFor e.request.requesterId = some config →
      config.window ≤ e.checkedAt)
    (hpos : ∀ config, policy.limitFor e.request.requesterId = some config → 0 < config.maxTasks) :
    ∃ decision engine', engine.evaluate e.request e.checkedAt e.recordedAt =
        some (decision, engine') ∧ Lawful policy past e decision ∧
      Keeps policy (granted (past ++ [(e, decision)])) e.recordedAt engine' := by
  obtain ⟨limited, engine₁, hcheck, h₁, hlimited, hiff⟩ := h.checkRateLimit hle hlate
  -- a quota that is not zero does not lie in an empty window
  have hiff' : limited.isSome ↔ ∃ config, policy.limitFor e.request.requesterId = some config ∧
      config.maxTasks ≤
        (recent config.window e.checkedAt (granted past e.request.requesterId)).length := by
    refine hiff.trans (exists_congr fun config => and_congr_right fun hlimit =>
      and_iff_right_of_imp fun hfull hnil => ?_)
    rw [hnil] at hfull
    exact (hpos config hlimit).not_ge hfull
  cases limited with
  | some decision =>
      have heffect : decision.effect = none := hlimited decision rfl
      have h₂ : Keeps policy (granted (past ++ [(e, decision)])) e.recordedAt engine₁ := by
        rw [granted_of_ne (by rintro rfl; cases heffect)]
        exact h₁.mono e.ordered
      exact ⟨decision, engine₁, evaluate_of_limited hcheck, ⟨fun _ => h₂.quota,
        iff_of_true heffect (hiff'.mp rfl), fun hne => absurd heffect hne⟩, h₂⟩
  | none =>
      have hroom := mt hiff'.mpr (by simp)
      obtain ⟨decision, engine₂, heval, heffect, h₂⟩ := h₁.evaluate_of_room hcheck hlate
        fun config hlimit => not_le.mp fun hfull => hroom ⟨config, hlimit, hfull⟩
      have hne : decision.effect ≠ none := by
        rw [heffect]
        exact Option.some_ne_none _
      exact ⟨decision, engine₂, heval, ⟨fun _ => h₂.quota, iff_of_false hne hroom,
        fun _ => heffect⟩, h₂⟩

/-- A quota of zero is exceeded at the requester's first check, but nobody is limited there. -/
theorem Keeps.pos_of_lawful (h : Keeps policy (granted past) clock engine)
    (hle : clock ≤ e.checkedAt)
    (hlate : ∀ config, policy.limitFor e.request.requesterId = some config →
      config.window ≤ e.checkedAt)
    (heval : engine.evaluate e.request e.checkedAt e.recordedAt = some (decision, engine'))
    (lawful : Lawful policy past e decision) {config : RateLimitConfig}
    (hlimit : policy.limitFor e.request.requesterId = some config) : 0 < config.maxTasks := by
  by_contra hzero
  obtain hzero : config.maxTasks = 0 := Nat.eq_zero_of_not_pos hzero
  have hnever : granted past e.request.requesterId = [] := by
    have hmetered := h.metered _ config hlimit
    rw [hzero] at hmetered
    exact hmetered.eq_nil
  have hlimited : decision.effect = none :=
    lawful.limited.mpr ⟨config, hlimit, hzero.le.trans (Nat.zero_le _)⟩
  obtain ⟨limited, engine₁, hcheck, h₁, -, hiff⟩ := h.checkRateLimit hle hlate
  cases limited with
  | some _ =>
      obtain ⟨-, -, hne, -⟩ := hiff.mp rfl
      exact hne hnever
  | none =>
      rcases evaluate_of_passed e.recordedAt hcheck with
        ⟨-, heval'⟩ | ⟨-, reason, heval'⟩
      · rw [heval'] at heval
        obtain ⟨_, -, heq⟩ := Option.map_eq_some_iff.mp heval
        cases heq
        cases hlimited
      · rw [heval'] at heval
        cases heval
        cases hlimited

end Evaluation

/-! ### Whole runs -/

namespace PolicySession

variable {policy : A2APolicy} {evaluations : List Evaluation}

/-- The sessions of a run remember what happened in them. -/
def Sound (policy : A2APolicy) (s : Option PolicySession) : Prop :=
  ∃ session, s = some session ∧ ∀ now, (∀ p ∈ session.past, p.1.recordedAt ≤ now) →
    Keeps policy (granted session.past) now session.engine

/-- The evaluations of the past are those of the run. -/
theorem past_of_foldl {session : PolicySession}
    (h : evaluations.foldl next (some (new policy)) = some session) :
    session.past.map Prod.fst = evaluations := by
  induction evaluations using List.reverseRecOn generalizing session with
  | nil =>
      cases h
      rfl
  | append_singleton evaluations e ih =>
      rw [List.foldl_append, List.foldl_cons, List.foldl_nil] at h
      obtain ⟨before, hbefore, h⟩ := Option.bind_eq_some_iff.mp h
      obtain ⟨⟨decision, engine⟩, -, rfl⟩ := Option.map_eq_some_iff.mp h
      simp [ih hbefore]

/-- The clock is past all that has been recorded, and a window away from its first instant. -/
def Due (policy : A2APolicy) (s : Option PolicySession) (e : Evaluation) : Prop :=
  (∀ session, s = some session → ∀ p ∈ session.past, p.1.recordedAt ≤ e.checkedAt) ∧
    ∀ config, policy.limitFor e.request.requesterId = some config → config.window ≤ e.checkedAt

theorem due_of_timely (timely : Timely policy evaluations) :
    EachStep next (some (new policy)) evaluations (Due policy) := by
  rintro before e after rfl
  refine ⟨fun session hsession p hp => ?_, timely.late e (by simp)⟩
  have hbefore : p.1 ∈ before := by
    rw [← past_of_foldl hsession]
    exact List.mem_map_of_mem hp
  exact (List.pairwise_append.mp timely.ordered).2.2 p.1 hbefore e List.mem_cons_self

theorem sound_new : Sound policy (some (new policy)) :=
  ⟨new policy, rfl, fun _ _ => keeps_new⟩

/-- A lawful step for a quota that is not zero. -/
theorem Sound.step {s : Option PolicySession} {e : Evaluation} (h : Sound policy s)
    (due : Due policy s e)
    (hpos : ∀ config, policy.limitFor e.request.requesterId = some config → 0 < config.maxTasks) :
    Sound policy (next s e) ∧ Obeys policy s e := by
  obtain ⟨session, rfl, hkeeps⟩ := h
  obtain ⟨decision, engine, heval, lawful, hkeeps'⟩ :=
    (hkeeps e.checkedAt (due.1 session rfl)).evaluate le_rfl due.2 hpos
  refine ⟨⟨⟨engine, session.past ++ [(e, decision)]⟩, ?_, fun now hnow => ?_⟩,
    session, decision, engine, rfl, heval, lawful⟩
  · simp [next, heval]
  · exact hkeeps'.mono (hnow _ (List.mem_append_right _ (List.mem_singleton_self _)))

/-- **Every decision is lawful exactly if no quota of those who ask is zero.** -/
theorem lawful_iff (timely : Timely policy evaluations) :
    EachStep next (some (new policy)) evaluations (Obeys policy) ↔
      ∀ e ∈ evaluations, ∀ config, policy.limitFor e.request.requesterId = some config →
        0 < config.maxTasks := by
  refine (eachStep_congr (Sound policy) (due_of_timely timely) sound_new ?_ ?_).trans
    eachStep_forall
  · exact fun s e h due hpos => (h.step due hpos).1
  · refine fun s e h due => ⟨fun hobeys config hlimit => ?_, fun hpos => (h.step due hpos).2⟩
    obtain ⟨session, rfl, hkeeps⟩ := h
    obtain ⟨_, decision, engine, hsession, heval, lawful⟩ := hobeys
    obtain rfl := Option.some.inj hsession
    exact (hkeeps e.checkedAt (due.1 _ rfl)).pos_of_lawful le_rfl due.2 heval lawful hlimit

end PolicySession

/-! ### Quotas of one and of zero -/

/-- Everybody may delegate to everybody, each at most `maxTasks` times a second. -/
def openPolicy (config : RateLimitConfig) : A2APolicy where
  rules := []
  defaultEffect := .allow
  rateLimits := ∅
  globalRateLimit := some config

/-- Asked and answered two seconds after the first instant of the clock. -/
def asked : Evaluation where
  request := ⟨"a", "b", none, none⟩
  checkedAt := 2000000000
  recordedAt := 2000000000
  ordered := le_rfl

theorem timely_asked {n : ℕ} (hn : n < 2 ^ 32) :
    Timely (openPolicy ⟨n, 1, hn⟩) [asked, asked] where
  ordered := by simp [asked]
  late e he config hlimit := by
    obtain rfl : e = asked := by simpa using he
    obtain rfl : _ = config := Option.some.inj hlimit
    show 1 * 10 ^ 9 ≤ 2000000000
    decide

/-- The second of two requests is limited to a quota of one. -/
theorem lawful_one : EachStep PolicySession.next
    (some (.new (openPolicy ⟨1, 1, by decide⟩))) [asked, asked]
      (PolicySession.Obeys (openPolicy ⟨1, 1, by decide⟩)) := by
  refine (PolicySession.lawful_iff (timely_asked (by decide))).mpr fun e _ config hlimit => ?_
  obtain rfl : _ = config := Option.some.inj hlimit
  decide

/-- **A quota of zero allows one task.** -/
theorem zero_allows : ∃ engine, (PolicyEngine.new (openPolicy ⟨0, 1, by decide⟩)).evaluate
      asked.request asked.checkedAt asked.recordedAt = some (.allow, engine) ∧
    ¬ EachStep PolicySession.next (some (.new (openPolicy ⟨0, 1, by decide⟩))) [asked]
      (PolicySession.Obeys (openPolicy ⟨0, 1, by decide⟩)) := by
  refine ⟨_, rfl, fun h => ?_⟩
  obtain ⟨session, decision, engine, hsession, heval, lawful⟩ := h [] asked [] rfl
  cases hsession
  cases heval
  have hlimited := lawful.limited.mpr ⟨_, rfl, Nat.zero_le _⟩
  cases hlimited

end ClawDesk.Acp
