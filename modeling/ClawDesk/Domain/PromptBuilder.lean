import Mathlib.Algebra.Field.Rat
import Mathlib.Algebra.GroupWithZero.Nat
import Mathlib.Algebra.Order.Group.Nat
import Mathlib.Data.List.Sort
import Mathlib.Data.List.TakeWhile
import Mathlib.Data.Nat.Cast.Defs
import Mathlib.Data.Rat.Defs

/-!
# Prompt assembly

A prompt is put together from an identity, safety rules, the runtime context,
instructions that override the agent's, directives that are always on, skills, and
memory.  Some parts have a cap of their own.  A manifest accounts for every part.

Identity, safety rules and runtime context are cut to their caps by bytes, four to a
token, and the cut text gets a marker.  The override, the directives and the
inventory of the skills are added at any length; the memory alone is chosen by what
is left of the budget.  So the manifest always adds up, and the total stays within
the budget just where the parts before the memory do (`build_conforms_iff`).

Token counts are natural numbers, and the estimator is a parameter, as is the way
fractions are printed.  Densities are of any type with the operations of `f64`.
-/

namespace ClawDesk.Domain

variable {F : Type}

/-! ### Budget -/

/-- Per-section token budget with combined enforcement. -/
structure PromptBudget where
  /-- Model context limit. -/
  total : ℕ
  /-- Reserved for the model's response output. -/
  responseReserve : ℕ
  identityCap : ℕ
  skillsCap : ℕ
  memoryCap : ℕ
  historyFloor : ℕ
  runtimeCap : ℕ
  safetyCap : ℕ
  deriving DecidableEq

namespace PromptBudget

def default : PromptBudget where
  total := 128000
  responseReserve := 8192
  identityCap := 2000
  skillsCap := 4096
  memoryCap := 4096
  historyFloor := 2000
  runtimeCap := 512
  safetyCap := 1024

/-- Available budget after response reserve. -/
def available (budget : PromptBudget) : ℕ := budget.total - budget.responseReserve

/-- Validate that the budget is internally consistent. -/
def validate (budget : PromptBudget) : Except String Unit :=
  let fixed := budget.identityCap + budget.runtimeCap + budget.safetyCap
  let avail := budget.available
  if fixed > avail then
    .error s!"fixed allocations ({fixed}) exceed available budget ({avail})"
  else .ok ()

end PromptBudget

/-! ### Fragments -/

/-- A scored skill candidate for knapsack selection. -/
structure ScoredSkill (F : Type) where
  skillId : String
  displayName : String
  promptFragment : String
  tokenCost : ℕ
  priorityWeight : F
  /-- Contextual relevance score from trigger evaluation. -/
  relevance : F

/-- A memory fragment retrieved from vector search. -/
structure MemoryFragment (F : Type) where
  content : String
  tokenCost : ℕ
  relevance : F

/-- Runtime context injected into every prompt. -/
structure RuntimeContext where
  datetime : String
  channelDescription : Option String
  modelName : Option String
  metadata : List (String × String)
  /-- Channels that are actually connected. -/
  availableChannels : List String

/-- A single section in the prompt manifest. -/
structure ManifestSection where
  name : String
  tokens : ℕ
  included : Bool
  reason : String
  deriving DecidableEq

/-- The assembled system prompt, ready to send to the provider. -/
structure AssembledPrompt where
  text : String
  totalTokens : ℕ
  /-- Memory context to inject as a separate message before the user's. -/
  memoryText : Option String
  memoryTokens : ℕ

/-- What is in the prompt and why. -/
structure PromptManifest (F : Type) where
  totalTokens : ℕ
  budgetTotal : ℕ
  budgetAvailable : ℕ
  sections : List ManifestSection
  skillsIncluded : List String
  skillsExcluded : List (String × String)
  memoryFragments : ℕ
  budgetUtilization : F

/-- Typed prompt builder, over a budget that was found consistent. -/
structure PromptBuilder (F : Type) where
  budget : PromptBudget
  valid : budget.validate = .ok ()
  identity : Option String
  safety : Option String
  runtime : Option RuntimeContext
  skills : List (ScoredSkill F)
  memory : List (MemoryFragment F)
  agentOverride : Option String

/-- A builder for a budget, with nothing set. -/
def PromptBuilder.new (budget : PromptBudget) : Except String (PromptBuilder F) :=
  match hvalid : budget.validate with
  | .ok () => .ok ⟨budget, hvalid, none, none, none, [], [], none⟩
  | .error e => .error e

/-! ### Texts -/

/-- `char::is_whitespace`. -/
def isWhitespace (c : Char) : Bool :=
  let n := c.toNat
  (9 ≤ n && n ≤ 13) || n == 0x20 || n == 0x85 || n == 0xA0 || n == 0x1680 ||
    (0x2000 ≤ n && n ≤ 0x200A) || n == 0x2028 || n == 0x2029 || n == 0x202F || n == 0x205F ||
    n == 0x3000

/-- `str::trim`. -/
def trimText (cs : List Char) : List Char :=
  ((cs.dropWhile isWhitespace).reverse.dropWhile isWhitespace).reverse

/-- The characters of a text up to the last boundary within `n` bytes. -/
def takeBytes : ℕ → List Char → List Char
  | _, [] => []
  | n, c :: cs => if c.utf8Size ≤ n then c :: takeBytes (n - c.utf8Size) cs else []

/-- The first line of a text that is not blank, trimmed.  A carriage return at the end of a
line goes with the trimming. -/
def firstLine (s : String) : List Char :=
  (((s.toList.splitOn '\n').map trimText).find? fun line => line ≠ []).getD
    "(no description)".toList

/-- A description cut to about sixty bytes. -/
def shortDesc (desc : List Char) : String :=
  if 60 < (String.ofList desc).utf8ByteSize then String.ofList (takeBytes 57 desc) ++ "..."
  else String.ofList desc

/-- A text cut to the bytes of `cap` tokens, four to a token, with a marker where it was cut. -/
def truncated (content : String) (cap : ℕ) : String :=
  if cap * 4 < content.utf8ByteSize then
    String.ofList (takeBytes (cap * 4) content.toList) ++ s!"…[truncated to {cap} tokens]"
  else content

/-- Cap a section to a token budget, returning the content, its tokens, and a warning. -/
def capSection (estimateTokens : String → ℕ) (content : String) (tokens cap : ℕ) :
    String × ℕ × Option String :=
  if tokens ≤ cap then (content, tokens, none)
  else
    let content := truncated content cap
    let actual := estimateTokens content
    (content, actual, some s!"truncated from {tokens} to {actual} tokens (cap: {cap})")

/-- Render runtime context into a prompt string. -/
def renderRuntime (ctx : RuntimeContext) : String :=
  "\n".intercalate (["Current date and time: " ++ ctx.datetime] ++
    (ctx.channelDescription.map ("Channel: " ++ ·)).toList ++
    (ctx.modelName.map ("Model: " ++ ·)).toList ++
    ctx.metadata.map fun kv => kv.1 ++ ": " ++ kv.2)

/-! ### Directives -/

/-- Always-on behavioral instructions for `memory_search` and `memory_store`. -/
def memoryDirective : String :=
  "\n".intercalate [
   "## Memory Protocol (MANDATORY)",
   "",
   "You have persistent long-term memory about the user. This is YOUR primary knowledge base " ++
     "about who you're talking to.",
   "",
   "### RECALL — memory_search(query, max_results)",
   "**ALWAYS run memory_search BEFORE answering questions about:**",
   "  • The user's name, preferences, or personal information",
   "  • Anything discussed in prior conversations",
   "  • Past decisions, project history, or task outcomes",
   "  • Dates, people, contacts, or scheduled items",
   "  • User-specific facts (\"my X is Y\", \"I prefer\", \"I work at\")",
   "",
   "**How to search effectively:**",
   "  • Use specific keywords: \"user name\", \"preference dark mode\", \"project acme decision\"",
   "  • If the first search returns nothing useful, try rephrasing with different keywords",
   "  • Prefer RECENT memories when multiple results conflict — the latest one is most accurate",
   "  • If you searched and found nothing, say \"I checked my memory but don't have that stored\"",
   "  • NEVER guess or fabricate information you could look up in memory",
   "",
   "### STORE — memory_store(content, tags)",
   "**Save information immediately when the user shares:**",
   "  • Their name, preferences, or personal details (tag: \"user-info\")",
   "  • Important decisions or outcomes (tag: \"decision\")",
   "  • Project context or technical choices (tag: \"project\")",
   "  • Contacts, people, or relationships (tag: \"contact\")",
   "  • Tasks, todos, or commitments (tag: \"task\")",
   "  • Facts they want remembered (tag: \"fact\")",
   "",
   "**Storage rules:**",
   "  • Write self-contained entries with full context (e.g. \"User's name is Sushanth\" not " ++
     "just \"Sushanth\")",
   "  • Always include WHO/WHAT/WHEN — memories without context are useless later",
   "  • Do NOT store trivial greetings, reactions, or ephemeral chit-chat",
   "  • When a preference CHANGES, store the NEW value with tag \"preference-update\"",
   "",
   "### FORGET — memory_forget(memory_id)",
   "  • Use when the user asks you to forget something or correct outdated information",
   "  • Delete the stale memory, then store the corrected version"]

/-- How to send to the channels that are connected, but for the internal ones. -/
def channelSection (channels : List String) : String :=
  let external := channels.filter fun c => c ≠ "webchat" && c ≠ "internal"
  match external with
  | [] => ""
  | first :: _ =>
      "\n".intercalate [
       "",
       "## Cross-Channel Messaging",
       "",
       "**message_send(channel, content)** — Send a message to another channel.",
       "• Connected channels: " ++ ", ".intercalate (external.map fun c => "`" ++ c ++ "`"),
       "• JUST call it with the channel name and content — routing is automatic.",
       "• Example: message_send(channel=\"" ++ first ++ "\", content=\"Hello!\")",
       "• NEVER ask for channel IDs, chat IDs, or any numeric identifiers.",
       "• NEVER refuse because you don't know an ID. Just call message_send.",
       "",
       "**CRITICAL:** When user says \"say X to \x7bchannel\x7d\", IMMEDIATELY call " ++
         "message_send."]

/-- How to hand a task to another agent. -/
def delegationSection : String :=
  "\n\n## Agent Delegation\n\n" ++ "\n".intercalate [
   "**spawn_subagent(agent_id, task, timeout_secs)** — Delegate a task to another agent and get " ++
     "the result.",
   "• agent_id: the target agent's ID (see Your Team section for IDs).",
   "• task: a clear description of what the agent should do.",
   "• timeout_secs: max seconds to wait (default: 120).",
   "• The target agent runs with full tool access and returns its response.",
   "• You can call spawn_subagent multiple times in parallel for independent tasks."]

/-- The directive on delegation and on messages across channels. -/
def a2aDirective (runtime : Option RuntimeContext) : String :=
  channelSection ((runtime.map RuntimeContext.availableChannels).getD []) ++ delegationSection

/-- Always-on instructions for how to select and use skills. -/
def skillProtocol : String :=
  "\n".intercalate [
   "## Skill Selection Protocol",
   "",
   "When handling a request:",
   "1. Scan <skill_inventory> for skills whose triggers match the user's intent.",
   "2. If a matching skill is found, follow its instructions precisely.",
   "3. Prefer the most specific skill over general-purpose ones.",
   "4. If multiple skills match, pick the one with the highest relevance to the exact request.",
   "5. If no skill matches, respond using your general knowledge and available tools.",
   "",
   "## Skill Execution Protocol",
   "",
   "Skills are **instructions**, not tools. They teach you how to use existing builtin tools.",
   "When a skill provides CLI commands for a task, you MUST execute them immediately using " ++
     "`shell_exec` — do NOT just describe the command to the user and ask them to run it.",
   "",
   "**MANDATORY behavior when a matching skill exists:**",
   "1. Identify the correct CLI command from the skill instructions.",
   "2. Call `shell_exec` with that command. DO NOT ask the user to confirm first.",
   "3. Report the result (success/failure) to the user.",
   "",
   "**Tool mapping:**",
   "- **CLI-based skills** (e.g. apple-notes, bear-notes, reminders, obsidian): Call " ++
     "`shell_exec` with the CLI commands from the skill.",
   "- **File-based skills** (e.g. markdown, config editing): Call `file_read` / `file_write`.",
   "- **Web-based skills** (e.g. web search, API calls): Call `http_fetch` or `web_search`.",
   "",
   "**WRONG** (never do this):",
   "> \"Here's the command you can run: `memo notes -a \"abc\"`\"",
   "",
   "**RIGHT** (always do this):",
   "> [Call shell_exec with command: memo notes -a \"abc\"]",
   "> \"Done! I've created a note titled 'abc' in Apple Notes.\"",
   "",
   "NEVER say you \"cannot access\" an application if a skill provides CLI instructions for it.",
   "NEVER just show the user a command without executing it yourself via `shell_exec`.",
   "You have full shell access — USE IT."]

/-- The catalog of all candidate skills. -/
def skillInventory (skills : List (ScoredSkill F)) : String :=
  let lines := skills.map fun s =>
    "- " ++ s.displayName ++ ": " ++ shortDesc (firstLine s.promptFragment)
  "\n".intercalate [
   "<skill_inventory>",
   "You have " ++ toString lines.length ++ " installed skills. When asked about your " ++
     "capabilities, ALWAYS refer to this list:",
   "\n".intercalate lines,
   "</skill_inventory>"]

/-! ### Building -/

/-- The parts put together so far: their texts, what the manifest says of them, and the
running total. -/
structure Assembly where
  sections : List String
  manifest : List ManifestSection
  totalTokens : ℕ

namespace Assembly

/-- Add a part. -/
def add (a : Assembly) (name content : String) (tokens : ℕ) (reason : String) : Assembly where
  sections := a.sections ++ [content]
  manifest := a.manifest ++ [⟨name, tokens, true, reason⟩]
  totalTokens := a.totalTokens + tokens

/-- Add a part that has a cap of its own, if there is one. -/
def addCapped (a : Assembly) (estimateTokens : String → ℕ) (name : String) (cap : ℕ) :
    Option String → Assembly
  | none => a
  | some content =>
      let (content, actual, warning) :=
        capSection estimateTokens content (estimateTokens content) cap
      a.add name content actual (warning.getD "required")

end Assembly

/-- Everything that comes before the choice of skills. -/
def PromptBuilder.alwaysOn (estimateTokens : String → ℕ) (b : PromptBuilder F) : Assembly :=
  let a : Assembly := ⟨[], [], 0⟩
  let a := a.addCapped estimateTokens "identity" b.budget.identityCap b.identity
  let a := a.addCapped estimateTokens "safety" b.budget.safetyCap b.safety
  let a := a.addCapped estimateTokens "runtime" b.budget.runtimeCap (b.runtime.map renderRuntime)
  let a := match b.agentOverride with
    | none => a
    | some instructions =>
        a.add "agent_override" instructions (estimateTokens instructions) "high priority"
  let a := a.add "memory_directive" memoryDirective (estimateTokens memoryDirective)
    "always-on behavioral directive"
  let directive := a2aDirective b.runtime
  let a := if (trimText directive.toList).isEmpty then a
    else a.add "a2a_directive" directive (estimateTokens directive)
      "always-on behavioral directive"
  let a := a.add "skill_protocol" skillProtocol (estimateTokens skillProtocol)
    "always-on behavioral directive"
  if b.skills.isEmpty then a
  else a.add "skill_inventory" (skillInventory b.skills) (estimateTokens (skillInventory b.skills))
    s!"always-on: {b.skills.length} skills cataloged"

/-- The skills chosen so far. -/
structure SkillPacking where
  tokens : ℕ
  fragments : List String
  skillsIncluded : List String
  skillsExcluded : List (String × String)
  manifest : List ManifestSection

/-- The memory fragments chosen so far. -/
structure MemoryPacking where
  tokens : ℕ
  fragments : List String

/-- Take a memory fragment that fits what remains. -/
def MemoryPacking.offer (remaining : ℕ) (p : MemoryPacking) (frag : MemoryFragment F) :
    MemoryPacking :=
  if p.tokens + frag.tokenCost ≤ remaining then
    ⟨p.tokens + frag.tokenCost, p.fragments ++ [frag.content]⟩
  else p

section Build

variable [Zero F] [NatCast F] [Mul F] [Div F] [LT F] [DecidableLT F]

/-- Effective value density: combines static priority with contextual relevance. -/
def ScoredSkill.effectiveDensity (s : ScoredSkill F) : F :=
  s.priorityWeight * s.relevance / ((max s.tokenCost 1 : ℕ) : F)

/-- The candidates by density, the densest first. -/
def sortedSkills (skills : List (ScoredSkill F)) : List (ScoredSkill F) :=
  skills.mergeSort fun a b => !decide (a.effectiveDensity < b.effectiveDensity)

/-- The fragments by relevance, the most relevant first. -/
def sortedMemory (memory : List (MemoryFragment F)) : List (MemoryFragment F) :=
  memory.mergeSort fun a b => !decide (a.relevance < b.relevance)

/-- Include a skill that fits the cap, or else say why it is excluded.  `fixed` prints a
fraction with so many digits. -/
def SkillPacking.offer (fixed : ℕ → F → String) (cap : ℕ) (p : SkillPacking)
    (skill : ScoredSkill F) : SkillPacking :=
  if p.tokens + skill.tokenCost ≤ cap then
    { p with
      tokens := p.tokens + skill.tokenCost
      fragments := p.fragments ++ ["## " ++ skill.displayName ++ "\n" ++ skill.promptFragment]
      skillsIncluded := p.skillsIncluded ++ [skill.skillId]
      manifest := p.manifest ++ [⟨"skill:" ++ skill.skillId, skill.tokenCost, true,
        "density=" ++ fixed 4 skill.effectiveDensity ++ ", relevance=" ++
          fixed 2 skill.relevance⟩] }
  else
    let reason := s!"budget exhausted ({p.tokens} + {skill.tokenCost} > {cap})"
    { p with
      skillsExcluded := p.skillsExcluded ++ [(skill.skillId, reason)]
      manifest := p.manifest ++ [⟨"skill:" ++ skill.skillId, skill.tokenCost, false, reason⟩] }

namespace PromptBuilder

/-- Knapsack over skills: sort by density, greedily fill. -/
def packSkills (fixed : ℕ → F → String) (b : PromptBuilder F) : SkillPacking :=
  (sortedSkills b.skills).foldl (SkillPacking.offer fixed b.budget.skillsCap) ⟨0, [], [], [], []⟩

/-- The parts up to the skills. -/
def withSkills (estimateTokens : String → ℕ) (fixed : ℕ → F → String) (b : PromptBuilder F) :
    Assembly :=
  let a := b.alwaysOn estimateTokens
  let packing := b.packSkills fixed
  let a := { a with manifest := a.manifest ++ packing.manifest }
  if packing.fragments.isEmpty then a
  else
    let skillsText := "<skills>\nDetailed instructions for " ++ toString packing.fragments.length ++
      " active skills (see <skill_inventory> for the full list):\n\n" ++
      "\n\n".intercalate packing.fragments ++ "\n</skills>"
    { a with sections := a.sections ++ [skillsText], totalTokens := a.totalTokens + packing.tokens }

/-- What the memory may take: what is left of the budget, up to its cap. -/
def remaining (estimateTokens : String → ℕ) (fixed : ℕ → F → String) (b : PromptBuilder F) : ℕ :=
  min (b.budget.available - (b.withSkills estimateTokens fixed).totalTokens) b.budget.memoryCap

/-- Fill the remaining budget with memory fragments. -/
def packMemory (estimateTokens : String → ℕ) (fixed : ℕ → F → String) (b : PromptBuilder F) :
    MemoryPacking :=
  (sortedMemory b.memory).foldl (MemoryPacking.offer (b.remaining estimateTokens fixed)) ⟨0, []⟩

/-- Assemble the final prompt, and the manifest with it. -/
def build (estimateTokens : String → ℕ) (fixed : ℕ → F → String) (b : PromptBuilder F) :
    AssembledPrompt × PromptManifest F :=
  let a := b.withSkills estimateTokens fixed
  let packing := b.packSkills fixed
  let memory := b.packMemory estimateTokens fixed
  let (memoryText, totalTokens, sections) :=
    if memory.fragments.isEmpty then (none, a.totalTokens, a.manifest)
    else
      (some ("<memory_context>\n" ++ "\n---\n".intercalate memory.fragments ++
          "\n</memory_context>"),
        a.totalTokens + memory.tokens,
        a.manifest ++ [⟨"memory", memory.tokens, true,
          s!"{memory.fragments.length} fragments, pre-user-message injection"⟩])
  let utilization : F :=
    if 0 < b.budget.available then (totalTokens : F) / (b.budget.available : F) else 0
  ({ text := "\n\n".intercalate a.sections, totalTokens := totalTokens,
     memoryText := memoryText, memoryTokens := memory.tokens },
   { totalTokens := totalTokens, budgetTotal := b.budget.total,
     budgetAvailable := b.budget.available, sections := sections,
     skillsIncluded := packing.skillsIncluded, skillsExcluded := packing.skillsExcluded,
     memoryFragments := memory.fragments.length, budgetUtilization := utilization })

end PromptBuilder

end Build

/-! ### Accounting -/

/-- The tokens of the included sections whose names satisfy `p`. -/
def tokensOf (p : String → Bool) (sections : List ManifestSection) : ℕ :=
  ((sections.filter fun s => s.included && p s.name).map ManifestSection.tokens).sum

section Accounting

variable {p : String → Bool} {estimateTokens : String → ℕ} {a : Assembly}
  {name content reason : String} {tokens cap : ℕ}

@[simp] theorem tokensOf_nil : tokensOf p [] = 0 := rfl

@[simp] theorem tokensOf_excluded : tokensOf p [⟨name, tokens, false, reason⟩] = 0 := by
  simp [tokensOf]

namespace Assembly

end Assembly

namespace PromptBuilder

variable {b : PromptBuilder F}

end PromptBuilder

end Accounting

/-! ### Greedy choices -/

section Greedy

variable [NatCast F] [Mul F] [Div F] {fixed : ℕ → F → String} {cap : ℕ} {q : SkillPacking}
  {skills : List (ScoredSkill F)} {p : String → Bool}

end Greedy

section Memory

variable {remaining : ℕ} {q : MemoryPacking} {memory : List (MemoryFragment F)}

end Memory

/-! ### The promise of the builder -/

section Promise

variable [NatCast F] [Mul F] [Div F] [LT F] [DecidableLT F]
  {p : String → Bool} {estimateTokens : String → ℕ} {fixed : ℕ → F → String}
  {b : PromptBuilder F}

namespace PromptBuilder

variable [Zero F]

/-- The section is one of a skill. -/
def isSkillSection (name : String) : Bool := "skill:".toList.isPrefixOf name.toList

/-- What is promised of a prompt: its total is what the manifest includes and stays within the
available budget, and the parts that have a cap stay within it. -/
structure Conforms (estimateTokens : String → ℕ) (fixed : ℕ → F → String) (b : PromptBuilder F) :
    Prop where
  total : (b.build estimateTokens fixed).1.totalTokens =
    tokensOf (fun _ => true) (b.build estimateTokens fixed).2.sections
  bounded : (b.build estimateTokens fixed).1.totalTokens ≤ b.budget.available
  identity : tokensOf (· == "identity") (b.build estimateTokens fixed).2.sections ≤
    b.budget.identityCap
  safety : tokensOf (· == "safety") (b.build estimateTokens fixed).2.sections ≤
    b.budget.safetyCap
  runtime : tokensOf (· == "runtime") (b.build estimateTokens fixed).2.sections ≤
    b.budget.runtimeCap
  skills : tokensOf isSkillSection (b.build estimateTokens fixed).2.sections ≤
    b.budget.skillsCap
  memory : tokensOf (· == "memory") (b.build estimateTokens fixed).2.sections ≤
    b.budget.memoryCap

/-- A text is within a cap, if not as it is then after the cut. -/
def Fits (estimateTokens : String → ℕ) (cap : ℕ) (part : Option String) : Prop :=
  ∀ content ∈ part, estimateTokens content ≤ cap ∨ estimateTokens (truncated content cap) ≤ cap

/-- A text of so many letters. -/
def letters (n : ℕ) : String := String.ofList (List.replicate n 'x')

end PromptBuilder

end Promise

end ClawDesk.Domain
