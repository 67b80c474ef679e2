import ClawDesk.Foundations.Glob
import ClawDesk.Foundations.JsonText
import ClawDesk.Foundations.Str

/-!
# The policy language

A policy document is a list of rules.  A rule has a pattern for the names of tools and
may have a condition on the arguments of the call; the first rule that applies decides.

A pattern is a glob as long as it has no star, or a single one at one of its ends
(`matchesTool_iff_globs_iff`).  A condition that cannot be read does not hold, so its rule
is passed over.  Whether this fails closed depends on the rules behind it
(`never_widens_iff`).
-/

namespace ClawDesk.Domain.PolicyDsl

open Foundations

/-- What to do when a rule matches. -/
inductive PolicyAction where
  | allow
  | requireApproval
  | deny
  | allowWithAudit
  deriving DecidableEq

/-- How permissive an action is. -/
def PolicyAction.permissiveness : PolicyAction → ℕ
  | deny => 0
  | requireApproval => 1
  | allowWithAudit => 2
  | allow => 3

/-- A single policy rule. -/
structure PolicyRule where
  name : String
  matchTool : String
  condition : Option String
  action : PolicyAction
  reason : String

/-- A complete policy document containing ordered rules. -/
structure PolicyDocument where
  rules : List PolicyRule
  defaultAction : PolicyAction
  version : String

/-- Result of evaluating a policy. -/
structure PolicyDecision where
  action : PolicyAction
  matchedRule : Option String
  reason : String
  deriving DecidableEq

/-- Match a tool name against a pattern. -/
def matchesTool (pattern toolName : String) : Bool :=
  if pattern.toList = ['*'] then true
  else if pattern.toList.getLast? = some '*' then
    pattern.toList.dropLast.isPrefixOf toolName.toList
  else if pattern.toList.head? = some '*' then pattern.toList.tail.isSuffixOf toolName.toList
  else pattern.toList = toolName.toList

/-- The inside of a condition `name(…)`. -/
def inside (name : String) (condition : List Char) : Option (List Char) :=
  (Str.stripFront (name.toList ++ ['(']) condition).bind (Str.stripBack [')'])

/-- A text without the quotes around it. -/
def unquote (cs : List Char) : List Char :=
  Str.trimMatches (Char.ofNat 34) (Str.trimMatches (Char.ofNat 39) cs)

/-- Evaluate a simple condition expression against tool arguments. -/
def evaluateCondition (condition : String) (args : Json) : Bool :=
  let condition := Str.trim condition.toList
  if condition = "always".toList then true
  else
    match inside "path_starts_with" condition with
    | some pathPattern =>
        match args.textAt "path" with
        | some path => (unquote pathPattern).isPrefixOf path.toList
        | none => false
    | none =>
        match inside "arg_equals" condition with
        | some inner =>
            match Str.splitTwo ',' inner with
            | [key, val] =>
                match args.textAt (String.ofList (unquote (Str.trim key))) with
                | some actual => actual.toList = unquote (Str.trim val)
                | none => false
            | _ => false
        | none =>
            match inside "arg_present" condition with
            | some inner => (args.get (String.ofList (unquote (Str.trim inner)))).isSome
            -- unknown condition
            | none => false

/-- The loop of `evaluate` over the rules. -/
def evaluateRules (toolName : String) (args : Json) (defaultAction : PolicyAction) :
    List PolicyRule → PolicyDecision
  | [] => ⟨defaultAction, none, "no matching rule — default policy applied"⟩
  | rule :: rules =>
      if matchesTool rule.matchTool toolName = false then
        evaluateRules toolName args defaultAction rules
      else if rule.condition.any (fun cond => evaluateCondition cond args = false) then
        evaluateRules toolName args defaultAction rules
      else ⟨rule.action, some rule.name, rule.reason⟩

/-- Evaluates tool calls against a policy document. -/
structure PolicyEngine where
  document : PolicyDocument

/-- Evaluate a tool call against the policy. -/
def PolicyEngine.evaluate (engine : PolicyEngine) (toolName : String) (args : Json) :
    PolicyDecision :=
  evaluateRules toolName args engine.document.defaultAction engine.document.rules

/-! ### Patterns -/

/-- A pattern without stars, or with one star that is its first or its last letter. -/
def StarAtEnd (pattern : String) : Prop :=
  '*' ∉ pattern.toList ∨
    pattern.toList.count '*' = 1 ∧
      (pattern.toList.head? = some '*' ∨ pattern.toList.getLast? = some '*')

instance (pattern : String) : Decidable (StarAtEnd pattern) := inferInstanceAs (Decidable (_ ∨ _))

/-- The three shapes of such a pattern. -/
theorem StarAtEnd.shape {pattern : String} (h : StarAtEnd pattern) :
    '*' ∉ pattern.toList ∨ (∃ front, '*' ∉ front ∧ pattern.toList = front ++ ['*']) ∨
      ∃ back, '*' ∉ back ∧ pattern.toList = '*' :: back := by
  unfold StarAtEnd at h
  generalize pattern.toList = p at h ⊢
  rcases h with hnone | ⟨hone, hhead | hlast⟩
  · exact .inl hnone
  · obtain ⟨back, rfl⟩ := List.head?_eq_some_iff.mp hhead
    rw [List.count_cons_self] at hone
    exact .inr (.inr ⟨back, List.count_eq_zero.mp (Nat.succ.inj hone), rfl⟩)
  · obtain ⟨front, rfl⟩ := List.getLast?_eq_some_iff.mp hlast
    rw [List.count_append, List.count_singleton_self] at hone
    exact .inr (.inl ⟨front, List.count_eq_zero.mp (Nat.succ.inj hone), rfl⟩)

/-- A star after or before a text without stars. -/
theorem starAtEnd_of_shape {pattern : String} {front : List Char} (hfront : '*' ∉ front)
    (h : pattern.toList = front ++ ['*'] ∨ pattern.toList = '*' :: front) : StarAtEnd pattern := by
  have hzero : front.count '*' = 0 := List.count_eq_zero.mpr hfront
  unfold StarAtEnd
  rcases h with h | h <;> rw [h]
  · refine .inr ⟨?_, .inr List.getLast?_concat⟩
    rw [List.count_append, hzero, List.count_singleton_self]
  · exact .inr ⟨by rw [List.count_cons_self, hzero], .inl rfl⟩

/-- **Such a pattern is matched as a glob.** -/
theorem matchesTool_iff_globs {pattern : String} (h : StarAtEnd pattern) (toolName : String) :
    matchesTool pattern toolName = true ↔ Globs '*' pattern.toList toolName.toList := by
  unfold matchesTool
  obtain hnone | ⟨front, hfront, hp⟩ | ⟨back, hback, hp⟩ := h.shape
  · have hall : pattern.toList ≠ ['*'] := fun hp => hnone (hp ▸ List.mem_cons_self)
    have hlast : pattern.toList.getLast? ≠ some '*' := fun hp => hnone (List.mem_of_getLast? hp)
    have hhead : pattern.toList.head? ≠ some '*' := fun hp => hnone (List.mem_of_head? hp)
    rw [if_neg hall, if_neg hlast, if_neg hhead, globs_of_notMem hnone, decide_eq_true_iff]
    exact eq_comm
  · rw [hp, globs_concat_star hfront]
    split_ifs with hall hlast
    · obtain rfl : front = [] := List.append_left_eq_self.mp hall
      exact iff_of_true rfl List.nil_prefix
    · rw [List.dropLast_concat]
      exact List.isPrefixOf_iff_prefix
    all_goals exact absurd List.getLast?_concat hlast
  · rw [hp, globs_star_cons hback]
    split_ifs with hall hlast hhead
    · obtain rfl : back = [] := (List.cons.inj hall).2
      exact iff_of_true rfl List.nil_suffix
    · -- the last letter is the star at the beginning
      rw [List.getLast?_cons] at hlast
      cases hend : back.getLast? with
      | none =>
          obtain rfl := List.getLast?_eq_none_iff.mp hend
          exact absurd rfl hall
      | some c =>
          rw [hend] at hlast
          obtain rfl : c = '*' := Option.some.inj hlast
          exact absurd (List.mem_of_getLast? hend) hback
    · exact List.isSuffixOf_iff_suffix
    · exact absurd rfl hhead

/-- **Any other pattern matches no name without stars.** -/
theorem matchesTool_eq_false {pattern toolName : String} (h : ¬ StarAtEnd pattern)
    (hname : '*' ∉ toolName.toList) : matchesTool pattern toolName = false := by
  unfold matchesTool
  split_ifs with hall hlast hhead
  · exact absurd (starAtEnd_of_shape List.not_mem_nil (.inl hall)) h
  · obtain ⟨front, hp⟩ := List.getLast?_eq_some_iff.mp hlast
    by_contra hmatch
    rw [Bool.not_eq_false, hp, List.dropLast_concat] at hmatch
    have hbegins := List.isPrefixOf_iff_prefix.mp hmatch
    exact h (starAtEnd_of_shape (fun hmem => hname (hbegins.subset hmem)) (.inl hp))
  · obtain ⟨back, hp⟩ := List.head?_eq_some_iff.mp hhead
    by_contra hmatch
    rw [Bool.not_eq_false, hp, List.tail_cons] at hmatch
    have hends := List.isSuffixOf_iff_suffix.mp hmatch
    exact h (starAtEnd_of_shape (fun hmem => hname (hends.subset hmem)) (.inr hp))
  · by_contra hmatch
    rw [Bool.not_eq_false, decide_eq_true_iff] at hmatch
    exact h (.inl fun hmem => hname (hmatch ▸ hmem))

/-- **A pattern is matched as a glob exactly if it has no star, or one star that is its
first or its last letter.**  The names of tools have no stars. -/
theorem matchesTool_iff_globs_iff (pattern : String) :
    (∀ toolName : String, '*' ∉ toolName.toList →
      (matchesTool pattern toolName = true ↔ Globs '*' pattern.toList toolName.toList)) ↔
    StarAtEnd pattern := by
  constructor
  · intro h
    by_contra hpattern
    -- the pattern without its stars is a name that it matches
    have hname : '*' ∉ (String.ofList (pattern.toList.filter (· ≠ '*'))).toList := by
      rw [String.toList_ofList, List.mem_filter]
      simp
    have hglobs : Globs '*' pattern.toList
        (String.ofList (pattern.toList.filter (· ≠ '*'))).toList := by
      rw [String.toList_ofList]
      exact globs_filter pattern.toList
    have hmatch := (h _ hname).mpr hglobs
    rw [matchesTool_eq_false hpattern hname] at hmatch
    cases hmatch
  · intro h toolName _
    exact matchesTool_iff_globs h toolName

/-- **A star inside a pattern stands for itself.** -/
theorem star_inside_not_glob :
    matchesTool "mcp_*_delete" "mcp_files_delete" = false ∧
      Globs '*' "mcp_*_delete".toList "mcp_files_delete".toList := by
  refine ⟨by decide, ?_⟩
  have hback : Globs '*' "_delete".toList "_delete".toList :=
    (globs_of_notMem (by decide)).mpr rfl
  have hfront : '*' ∉ "mcp_".toList := by decide
  exact (globs_append hfront).mpr ⟨_, rfl, .star "files".toList hback⟩

/-! ### Conditions that cannot be read -/

/-- The conditions of the language, without the white space around them. -/
inductive WellFormed : List Char → Prop
  | always : WellFormed "always".toList
  | pathStartsWith (pattern : List Char) :
      WellFormed ("path_starts_with".toList ++ ['('] ++ (pattern ++ [')']))
  | argEquals (key val : List Char) :
      WellFormed ("arg_equals".toList ++ ['('] ++ (key ++ ',' :: val ++ [')']))
  | argPresent (key : List Char) :
      WellFormed ("arg_present".toList ++ ['('] ++ (key ++ [')']))

/-- The condition is unknown or malformed. -/
def Malformed (condition : String) : Prop := ¬ WellFormed (Str.trim condition.toList)

theorem inside_eq_some {name : String} {condition rest : List Char}
    (h : inside name condition = some rest) :
    condition = name.toList ++ ['('] ++ (rest ++ [')']) := by
  obtain ⟨rest', hfront, hback⟩ := Option.bind_eq_some_iff.mp h
  rw [Str.stripFront_eq_some hfront, Str.stripBack_eq_some hback]

/-- **A condition that holds is one of the language.** -/
theorem wellFormed_of_evaluateCondition {condition : String} {args : Json}
    (h : evaluateCondition condition args = true) : WellFormed (Str.trim condition.toList) := by
  unfold evaluateCondition at h
  by_cases halways : Str.trim condition.toList = "always".toList
  · rw [halways]
    exact .always
  simp only [if_neg halways] at h
  cases hpath : inside "path_starts_with" (Str.trim condition.toList) with
  | some pattern =>
      rw [inside_eq_some hpath]
      exact .pathStartsWith pattern
  | none =>
      simp only [hpath] at h
      cases hequals : inside "arg_equals" (Str.trim condition.toList) with
      | some inner =>
          simp only [hequals] at h
          split at h
          · rename_i key val hsplit
            rw [inside_eq_some hequals, Str.splitTwo_eq_pair hsplit]
            exact .argEquals key val
          · cases h
      | none =>
          simp only [hequals] at h
          cases hpresent : inside "arg_present" (Str.trim condition.toList) with
          | some key =>
              rw [inside_eq_some hpresent]
              exact .argPresent key
          | none =>
              rw [hpresent] at h
              cases h

theorem Malformed.evaluateCondition {condition : String} (h : Malformed condition) (args : Json) :
    evaluateCondition condition args = false := by
  by_contra hholds
  exact h (wellFormed_of_evaluateCondition (Bool.not_eq_false _ ▸ hholds))

/-- Such a condition ends with a bracket. -/
theorem WellFormed.getLast {text : List Char} (h : WellFormed text) :
    text = "always".toList ∨ text.getLast? = some ')' := by
  cases h with
  | always => exact .inl rfl
  | pathStartsWith | argEquals | argPresent =>
      rw [← List.append_assoc]
      exact .inr List.getLast?_concat

theorem malformed_empty : Malformed "" := by
  intro h
  rcases h.getLast with hal | hlast
  · cases hal
  · cases hlast

/-! ### The rule that decides -/

section Evaluate

variable {toolName : String} {args : Json} {defaultAction : PolicyAction}

/-- The rule matches the tool, and its condition holds. -/
def PolicyRule.Applies (toolName : String) (args : Json) (rule : PolicyRule) : Bool :=
  matchesTool rule.matchTool toolName &&
    rule.condition.all (fun cond => evaluateCondition cond args)

/-- The action of the first rule that applies, or the default. -/
def decided (toolName : String) (args : Json) (defaultAction : PolicyAction)
    (rules : List PolicyRule) : PolicyAction :=
  ((rules.find? (·.Applies toolName args)).map (·.action)).getD defaultAction

theorem decided_cons_of_not {rule : PolicyRule} {rules : List PolicyRule}
    (h : rule.Applies toolName args = false) :
    decided toolName args defaultAction (rule :: rules) =
      decided toolName args defaultAction rules := by
  unfold decided
  rw [List.find?_cons_of_neg (ne_true_of_eq_false h)]

theorem decided_cons_of_applies {rule : PolicyRule} {rules : List PolicyRule}
    (h : rule.Applies toolName args = true) :
    decided toolName args defaultAction (rule :: rules) = rule.action := by
  unfold decided
  rw [List.find?_cons_of_pos h]
  rfl

/-- **The loop** ends at the first rule that applies. -/
theorem evaluateRules_action (rules : List PolicyRule) :
    (evaluateRules toolName args defaultAction rules).action =
      decided toolName args defaultAction rules := by
  induction rules with
  | nil => rfl
  | cons rule rules ih =>
      have happlies : rule.Applies toolName args = (matchesTool rule.matchTool toolName &&
          !rule.condition.any (fun cond => evaluateCondition cond args = false)) := by
        unfold PolicyRule.Applies
        cases rule.condition with
        | none => rfl
        | some cond => simp
      unfold evaluateRules
      by_cases hmatch : matchesTool rule.matchTool toolName = false
      · rw [hmatch, Bool.false_and] at happlies
        rw [if_pos hmatch, ih, decided_cons_of_not happlies]
      · rw [Bool.not_eq_false] at hmatch
        rw [if_neg (Bool.not_eq_false _ ▸ hmatch)]
        by_cases hcond : rule.condition.any (fun cond => evaluateCondition cond args = false) = true
        · rw [hmatch, hcond] at happlies
          rw [if_pos hcond, ih, decided_cons_of_not happlies]
        · rw [hmatch, Bool.eq_false_iff.mpr hcond] at happlies
          rw [if_neg hcond, decided_cons_of_applies happlies]

theorem Malformed.applies {condition : String} (h : Malformed condition) (rule : PolicyRule) :
    ({ rule with condition := some condition } : PolicyRule).Applies toolName args = false := by
  rw [PolicyRule.Applies, Option.all_some, h.evaluateCondition, Bool.and_false]

/-- Either a rule in front decides, or what comes behind. -/
theorem decided_append (front back : List PolicyRule) :
    decided toolName args defaultAction (front ++ back) =
      decided toolName args (decided toolName args defaultAction back) front := by
  unfold decided
  rw [List.find?_append]
  cases front.find? (·.Applies toolName args) <;> rfl

theorem decided_of_none {rules : List PolicyRule}
    (h : ∀ r ∈ rules, r.Applies toolName args = false) :
    decided toolName args defaultAction rules = defaultAction := by
  unfold decided
  rw [List.find?_eq_none.mpr fun r hr => ne_true_of_eq_false (h r hr)]
  rfl

/-- A rule that applies somewhere keeps the default, and all that is behind it, away. -/
theorem decided_of_mem {rules : List PolicyRule} {r : PolicyRule} (hr : r ∈ rules)
    (happlies : r.Applies toolName args = true) (other : PolicyAction) :
    decided toolName args defaultAction rules = decided toolName args other rules := by
  unfold decided
  cases hfind : rules.find? (·.Applies toolName args) with
  | some first => rfl
  | none => exact absurd happlies (List.find?_eq_none.mp hfind r hr)

end Evaluate

/-- Replacing a condition that holds by one that cannot be read does not make the action
more permissive. -/
def NeverWidens (doc : PolicyDocument) (toolName : String) (args : Json) : Prop :=
  ∀ (i : ℕ) (rule : PolicyRule) (held malformed : String), doc.rules[i]? = some rule →
    rule.condition = some held → evaluateCondition held args = true → Malformed malformed →
    ((PolicyEngine.mk { doc with
        rules := doc.rules.set i { rule with condition := some malformed } }).evaluate
          toolName args).action.permissiveness ≤
      ((PolicyEngine.mk doc).evaluate toolName args).action.permissiveness

/-- If the rule that decides has a condition, the rules behind it, or the default, decide
nothing more permissive. -/
def Guarded (doc : PolicyDocument) (toolName : String) (args : Json) : Prop :=
  ∀ (front : List PolicyRule) (rule : PolicyRule) (back : List PolicyRule),
    doc.rules = front ++ rule :: back → (∀ r ∈ front, r.Applies toolName args = false) →
    rule.Applies toolName args = true → rule.condition ≠ none →
    (decided toolName args doc.defaultAction back).permissiveness ≤ rule.action.permissiveness

/-- **A policy fails closed exactly if what lies behind a rule with a condition is no more
permissive than the rule.** -/
theorem never_widens_iff (doc : PolicyDocument) (toolName : String) (args : Json) :
    NeverWidens doc toolName args ↔ Guarded doc toolName args := by
  constructor
  · intro h front rule back hrules hfront happlies hcondition
    obtain ⟨held, hheld⟩ := Option.ne_none_iff_exists'.mp hcondition
    have hholds : evaluateCondition held args = true := by
      rw [PolicyRule.Applies, hheld] at happlies
      exact (Bool.and_eq_true_iff.mp happlies).2
    have hget : doc.rules[front.length]? = some rule := by
      rw [hrules, List.getElem?_append_right (Nat.le_refl _), Nat.sub_self]
      rfl
    have hle := h front.length rule held "" hget hheld hholds malformed_empty
    simp only [PolicyEngine.evaluate, evaluateRules_action] at hle
    rw [hrules, List.set_append_right _ _ (Nat.le_refl _), Nat.sub_self, List.set_cons_zero,
      decided_append, decided_append, decided_of_none hfront, decided_of_none hfront,
      decided_cons_of_applies happlies, decided_cons_of_not (malformed_empty.applies rule)] at hle
    exact hle
  · intro h i rule held malformed hget hheld hholds hmalformed
    obtain ⟨hi, hrule⟩ := List.getElem?_eq_some_iff.mp hget
    have hrules : doc.rules = doc.rules.take i ++ rule :: doc.rules.drop (i + 1) := by
      rw [← hrule, ← List.drop_eq_getElem_cons hi, List.take_append_drop]
    simp only [PolicyEngine.evaluate, evaluateRules_action]
    rw [List.set_eq_take_append_cons_drop, if_pos hi, decided_append,
      decided_cons_of_not (hmalformed.applies rule)]
    nth_rewrite 3 [hrules]
    rw [decided_append]
    by_cases hfront : ∀ r ∈ doc.rules.take i, r.Applies toolName args = false
    · rw [decided_of_none hfront, decided_of_none hfront]
      by_cases hmatch : matchesTool rule.matchTool toolName = true
      · -- the rule decided before
        have happlies : rule.Applies toolName args = true := by
          rw [PolicyRule.Applies, hmatch, hheld]
          exact hholds
        rw [decided_cons_of_applies happlies]
        exact h _ rule _ hrules hfront happlies (hheld ▸ Option.some_ne_none held)
      · have happlies : rule.Applies toolName args = false := by
          rw [PolicyRule.Applies, Bool.eq_false_iff.mpr hmatch, Bool.false_and]
        refine Nat.le_of_eq ?_
        rw [decided_cons_of_not happlies]
    · -- a rule in front decides, before and after
      push Not at hfront
      obtain ⟨r, hr, happlies⟩ := hfront
      rw [Bool.ne_false_iff] at happlies
      exact Nat.le_of_eq (congrArg _ (decided_of_mem hr happlies _))

/-- A document that denies a tool under a condition and allows everything else. -/
def denyUnless (condition : String) : PolicyDocument where
  rules := [⟨"deny_shell", "shell_exec", some condition, .deny, "no shell"⟩]
  defaultAction := .allow
  version := "1"

/-- **A misspelt condition of a denial allows what it denied.** -/
theorem misspelt_denial_allows :
    evaluateCondition "always" .null = true ∧ Malformed "allways" ∧
      ((PolicyEngine.mk (denyUnless "always")).evaluate "shell_exec" .null).action = .deny ∧
      ((PolicyEngine.mk (denyUnless "allways")).evaluate "shell_exec" .null).action = .allow := by
  refine ⟨by decide, fun h => ?_, by decide, by decide⟩
  rcases h.getLast with hal | hlast
  · exact absurd hal (by decide)
  · exact absurd hlast (by decide)

end ClawDesk.Domain.PolicyDsl
