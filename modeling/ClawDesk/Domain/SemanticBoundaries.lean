import ClawDesk.Domain.CompactBudget
import ClawDesk.Domain.ContextGuard
import ClawDesk.Foundations.Segments

/-!
# Semantic boundaries

A conversation is cut into units that compaction keeps or drops as a whole.  Whether a unit ends
after a message is decided from the role of the message and of the next one.

No message is lost and no token (`flatMap_detect`, `tokens_detect`).  But a look at the
next message does not tell whether a call still waits for its result, so a call and its result are
in one unit only if no message between them ends one, and a system message is a unit of its own
only if the message before it ends one (`atomic_iff`).
-/

namespace ClawDesk.Domain.Compaction

open Foundations

/-! ### The units -/

/-- Agent message role in a conversation. -/
inductive Role where
  | user
  | assistant
  | system
  | tool
  | toolResult
  deriving DecidableEq

/-- A single message in a conversation history. -/
structure AgentMessage where
  role : Role
  content : String
  timestamp : ℤ
  model : Option String
  tokenCount : Option ℕ
  toolCallId : Option String
  toolName : Option String
  deriving DecidableEq

/-- A unit with the time of its last message. -/
structure DetectedUnit extends SemanticUnit AgentMessage where
  timestamp : ℤ

/-- Content tokens, and four for role and metadata. -/
def estimateMessageTokens (msg : AgentMessage) : ℕ := estimateTokens msg.content + 4

def hasPendingToolCall (remaining : List AgentMessage) : Bool :=
  (remaining.head?.map fun m => decide (m.role = .tool)).getD false

def classifyUnitType (messages : List AgentMessage) : UnitType :=
  let hasTool := messages.any (·.role = .tool)
  let hasToolResult := messages.any (·.role = .toolResult)
  let hasSystem := messages.any (·.role = .system)
  if hasSystem && messages.length = 1 then .systemInsert
  else if hasTool || hasToolResult then .toolSequence
  else .turn

/-- A unit may end after the message, before the remaining ones. -/
def isBoundary (msg : AgentMessage) (remaining : List AgentMessage) : Bool :=
  match msg.role with
  | .assistant =>
      (remaining.head?.map fun next => next.role = .user || next.role = .system).getD true
  | .toolResult => !hasPendingToolCall remaining
  | .system => true
  | .user | .tool => false

/-- The scan, with the messages of the unit under way and their tokens. -/
def detectFrom (currentMsgs : List AgentMessage) (currentTokens : ℕ) :
    List AgentMessage → List DetectedUnit
  | [] =>
      -- flush the remaining messages
      match currentMsgs.getLast? with
      | none => []
      | some last => [⟨⟨currentMsgs, currentTokens, .turn⟩, last.timestamp⟩]
  | msg :: rest =>
      let currentMsgs := currentMsgs ++ [msg]
      let currentTokens := currentTokens + estimateMessageTokens msg
      if isBoundary msg rest && !currentMsgs.isEmpty then
        ⟨⟨currentMsgs, currentTokens, classifyUnitType currentMsgs⟩, msg.timestamp⟩ ::
          detectFrom [] 0 rest
      else detectFrom currentMsgs currentTokens rest

/-- Detect semantic boundaries in a conversation. -/
def detectSemanticBoundaries (messages : List AgentMessage) : List DetectedUnit :=
  detectFrom [] 0 messages

/-! ### The units as segments -/

section Detect

variable {current messages : List AgentMessage}

theorem detectFrom_messages (current : List AgentMessage) (tokens : ℕ)
    (messages : List AgentMessage) :
    (detectFrom current tokens messages).map (·.messages) =
      segmentsFrom isBoundary current messages := by
  induction messages generalizing current tokens with
  | nil =>
      rw [detectFrom, segmentsFrom]
      cases hlast : current.getLast? with
      | none =>
          obtain rfl := List.getLast?_eq_none_iff.mp hlast
          rfl
      | some last =>
          have hne : current.isEmpty = false := by
            cases current with
            | nil => cases hlast
            | cons m current => rfl
          rw [hne]
          rfl
  | cons msg rest ih =>
      have hne : (current ++ [msg]).isEmpty = false := by simp
      simp only [detectFrom, segmentsFrom, hne, Bool.not_false, Bool.and_true]
      split_ifs
      · rw [List.map_cons, ih]
      · exact ih _ _

/-- The tokens of the messages of a unit. -/
theorem detectFrom_tokens {tokens : ℕ} (h : tokens = (current.map estimateMessageTokens).sum)
    {u : DetectedUnit} (hu : u ∈ detectFrom current tokens messages) :
    u.tokenCount = (u.messages.map estimateMessageTokens).sum := by
  induction messages generalizing current tokens with
  | nil =>
      rw [detectFrom] at hu
      cases hlast : current.getLast? with
      | none =>
          rw [hlast] at hu
          cases hu
      | some last =>
          rw [hlast] at hu
          rw [List.mem_singleton.mp hu]
          exact h
  | cons msg rest ih =>
      have hnext : tokens + estimateMessageTokens msg =
          ((current ++ [msg]).map estimateMessageTokens).sum := by
        rw [h, List.map_append, List.sum_append, List.map_singleton, List.sum_singleton]
      simp only [detectFrom] at hu
      split_ifs at hu
      · rcases List.mem_cons.mp hu with rfl | hu
        · exact hnext
        · exact ih rfl hu
      · exact ih hnext hu

/-- **No message is lost**, and their order is kept. -/
theorem flatMap_detect (messages : List AgentMessage) :
    (detectSemanticBoundaries messages).flatMap (·.messages) = messages := by
  rw [List.flatMap_def, detectSemanticBoundaries, detectFrom_messages]
  exact flatten_segmentsFrom [] messages

/-- **No token is lost.** -/
theorem tokens_detect (messages : List AgentMessage) :
    ((detectSemanticBoundaries messages).map (·.tokenCount)).sum =
      (messages.map estimateMessageTokens).sum := by
  conv_rhs => rw [← flatMap_detect messages]
  rw [List.map_flatMap, List.flatMap_def, List.sum_flatten, List.map_map]
  congr 1
  exact List.map_congr_left fun u hu => detectFrom_tokens rfl hu

end Detect

/-! ### Calls and results -/

/-- `b` is the result of the call `a`. -/
def Answers (a b : AgentMessage) : Prop :=
  a.role = .tool ∧ b.role = .toolResult ∧
    ∃ id, a.toolCallId = some id ∧ b.toolCallId = some id

/-- The messages at two places lie in one unit. -/
def SameUnit (units : List DetectedUnit) (i j : ℕ) : Prop :=
  SameSegment (units.map (·.messages)) i j

/-- Nothing is lost, a result is in the unit of its call, and a system message is alone in its
unit. -/
structure Atomic (messages : List AgentMessage) (units : List DetectedUnit) : Prop where
  messages_eq : units.flatMap (·.messages) = messages
  tokens_eq : (units.map (·.tokenCount)).sum = (messages.map estimateMessageTokens).sum
  call : ∀ (i j : ℕ) (a b : AgentMessage), i < j → messages[i]? = some a →
    messages[j]? = some b → Answers a b → SameUnit units i j
  system : ∀ (i j : ℕ) (m : AgentMessage), messages[i]? = some m → m.role = .system →
    j < messages.length → SameUnit units i j → j = i

/-- A unit ends after `m` when `next` follows it. -/
def EndsBefore (m next : AgentMessage) : Prop :=
  m.role = .system ∨ (m.role = .assistant ∧ (next.role = .user ∨ next.role = .system)) ∨
    (m.role = .toolResult ∧ next.role ≠ .tool)

instance (m next : AgentMessage) : Decidable (EndsBefore m next) :=
  inferInstanceAs (Decidable (_ ∨ _))

/-- No unit ends between a call and its result, and no system message follows directly on a user
message or a call. -/
structure WellPaced (messages : List AgentMessage) : Prop where
  call : ∀ (i j : ℕ) (a b : AgentMessage), i < j → messages[i]? = some a →
    messages[j]? = some b → Answers a b →
    ∀ (p : ℕ) (m next : AgentMessage), i < p → p < j → messages[p]? = some m →
      messages[p + 1]? = some next → ¬ EndsBefore m next
  system : ∀ (p : ℕ) (m next : AgentMessage), messages[p]? = some m →
    messages[p + 1]? = some next → next.role = .system → m.role ≠ .user ∧ m.role ≠ .tool

section Atomic

variable {messages : List AgentMessage} {i j p : ℕ} {m next : AgentMessage}

/-- Where a unit ends, when it is not at the end of the conversation. -/
theorem cutAfter_iff (hm : messages[p]? = some m) (hnext : messages[p + 1]? = some next) :
    cutAfter isBoundary messages p = true ↔ EndsBefore m next := by
  have hhead : (messages.drop (p + 1)).head? = some next := by
    rw [List.head?_drop, hnext]
  rw [cutAfter_eq hm, isBoundary, EndsBefore]
  cases hrole : m.role <;> simp [hhead, hasPendingToolCall]

theorem sameUnit_iff (hij : i ≤ j) (hj : j < messages.length) :
    SameUnit (detectSemanticBoundaries messages) i j ↔
      ∀ p, i ≤ p → p < j → cutAfter isBoundary messages p = false := by
  rw [SameUnit, detectSemanticBoundaries, detectFrom_messages]
  exact sameSegment_iff hij hj

/-- No unit ends after a call, or after a user's message. -/
theorem cutAfter_eq_false (hm : messages[p]? = some m) (hrole : m.role = .user ∨ m.role = .tool) :
    cutAfter isBoundary messages p = false := by
  rw [cutAfter_eq hm, isBoundary]
  rcases hrole with hrole | hrole <;> rw [hrole]

/-- A unit ends before a system message unless it follows on a user's message or a call. -/
theorem endsBefore_system (hnext : next.role = .system)
    (hrole : m.role ≠ .user ∧ m.role ≠ .tool) : EndsBefore m next := by
  rw [EndsBefore, hnext]
  cases hm : m.role with
  | user => exact absurd hm hrole.1
  | tool => exact absurd hm hrole.2
  | assistant => exact .inr (.inl ⟨rfl, .inr rfl⟩)
  | system => exact .inl rfl
  | toolResult => exact .inr (.inr ⟨rfl, nofun⟩)

theorem Atomic.wellPaced (h : Atomic messages (detectSemanticBoundaries messages)) :
    WellPaced messages := by
  constructor
  · intro i j a b hij ha hb hanswers p m next hip hpj hm hnext hends
    have hj : j < messages.length := (List.getElem?_eq_some_iff.mp hb).1
    have huncut := (sameUnit_iff hij.le hj).mp (h.call i j a b hij ha hb hanswers) p hip.le hpj
    rw [(cutAfter_iff hm hnext).mpr hends] at huncut
    cases huncut
  · intro p m next hm hnext hsystem
    have hp : p + 1 < messages.length := (List.getElem?_eq_some_iff.mp hnext).1
    by_contra hrole
    -- the system message would go into the unit of the message before it
    have huncut : cutAfter isBoundary messages p = false := by
      refine cutAfter_eq_false hm ?_
      by_contra hother
      exact hrole (not_or.mp hother)
    have hsame : SameUnit (detectSemanticBoundaries messages) p (p + 1) :=
      (sameUnit_iff (Nat.le_succ p) hp).mpr fun q hq hqp => by
        obtain rfl : q = p := by omega
        exact huncut
    have heq : p = p + 1 := h.system (p + 1) p next hnext hsystem (by omega) hsame.symm
    omega

theorem WellPaced.atomic (h : WellPaced messages) :
    Atomic messages (detectSemanticBoundaries messages) where
  messages_eq := flatMap_detect messages
  tokens_eq := tokens_detect messages
  call i j a b hij ha hb hanswers := by
    have hj : j < messages.length := (List.getElem?_eq_some_iff.mp hb).1
    refine (sameUnit_iff hij.le hj).mpr fun q hq hqj => ?_
    rcases Nat.eq_or_lt_of_le hq with rfl | hlt
    · exact cutAfter_eq_false ha (.inr hanswers.1)
    · have hm : messages[q]? = some messages[q] := List.getElem?_eq_getElem (by omega)
      have hnext : messages[q + 1]? = some messages[q + 1] := List.getElem?_eq_getElem (by omega)
      exact Bool.eq_false_iff.mpr fun hcut =>
        h.call i j a b hij ha hb hanswers q _ _ hlt hqj hm hnext ((cutAfter_iff hm hnext).mp hcut)
  system i j m hm hsystem hj hsame := by
    have hi : i < messages.length := (List.getElem?_eq_some_iff.mp hm).1
    rcases lt_trichotomy j i with hlt | heq | hgt
    · -- a unit ends directly before the system message
      obtain ⟨p, rfl⟩ : ∃ p, i = p + 1 := ⟨i - 1, by omega⟩
      have hbefore : messages[p]? = some messages[p] := List.getElem?_eq_getElem (by omega)
      have hends := endsBefore_system hsystem (h.system p _ m hbefore hm hsystem)
      have huncut := (sameUnit_iff hlt.le hi).mp hsame.symm p (by omega) (Nat.lt_succ_self p)
      rw [(cutAfter_iff hbefore hm).mpr hends] at huncut
      cases huncut
    · exact heq
    · have huncut := (sameUnit_iff hgt.le hj).mp hsame i le_rfl hgt
      rw [cutAfter_eq hm, isBoundary, hsystem] at huncut
      cases huncut

/-- **Calls stay with their results and system messages alone exactly if the conversation is well
paced**, for every conversation. -/
theorem atomic_iff (messages : List AgentMessage) :
    Atomic messages (detectSemanticBoundaries messages) ↔ WellPaced messages :=
  ⟨Atomic.wellPaced, WellPaced.atomic⟩

/-- A message with nothing in it but its role and the id of its call. -/
def bare (role : Role) (toolCallId : Option String) : AgentMessage :=
  ⟨role, "", 0, none, none, toolCallId, none⟩

/-- **Two calls before their results**: the second result comes after the unit has ended. -/
theorem batch_split : ¬ Atomic
    [bare .tool (some "a"), bare .tool (some "b"), bare .toolResult (some "a"),
      bare .toolResult (some "b")]
    (detectSemanticBoundaries [bare .tool (some "a"), bare .tool (some "b"),
      bare .toolResult (some "a"), bare .toolResult (some "b")]) := by
  intro h
  have hsame : SameUnit _ 1 3 := h.call 1 3 (bare .tool (some "b")) (bare .toolResult (some "b"))
    (by decide) rfl rfl ⟨rfl, rfl, "b", rfl, rfl⟩
  rcases hsame with ⟨-, hlt⟩ | ⟨hge, -⟩
  · exact absurd hlt (by decide +kernel)
  · exact absurd hge (by decide +kernel)

end Atomic

end ClawDesk.Domain.Compaction
