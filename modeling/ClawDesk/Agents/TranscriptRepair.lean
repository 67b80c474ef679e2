import ClawDesk.Domain.ContextGuard
import ClawDesk.Foundations.JsonText
import ClawDesk.Runtime.Types

/-!
# Transcript repair

Six passes over the message history: orphaned tool results are removed, calls of the
last assistant message that have no result get a synthetic one, duplicate results are
removed, verbose fields are stripped, oversized results are truncated, and, where the
provider requires it, consecutive messages of one role are merged.

What the passes read of a message is JSON inside its content, so all of them take the
JSON library as an argument.  A slice of a text outside a character boundary panics:
the truncating pass, and with it `repairTranscript`, returns nothing then.  Lengths are
in bytes.
-/

namespace ClawDesk.Agents

open Foundations (Json JsonCodec)
open ClawDesk.Runtime (ChatMessage MessageRole)

/-- Configuration for transcript repair.  The provider's name, which no pass reads, is
left out. -/
structure RepairConfig where
  /-- Remove orphaned tool results. -/
  repairOrphans : Bool := true
  /-- Strip tool result details. -/
  stripDetails : Bool := true
  /-- Merge consecutive messages of one role. -/
  enforceAlternation : Bool := false
  /-- Append synthetic results for unanswered calls. -/
  repairOrphanedToolUse : Bool := true
  /-- Remove duplicate tool results. -/
  removeDuplicateResults : Bool := true
  /-- Truncate oversized tool results. -/
  truncateOversized : Bool := true
  /-- Maximum token count per tool result. -/
  maxResultTokens : ℕ := 8192
  deriving DecidableEq

/-- How much each pass has modified. -/
structure RepairResult where
  orphansRemoved : ℕ := 0
  detailsStripped : ℕ := 0
  messagesMerged : ℕ := 0
  syntheticResultsAdded : ℕ := 0
  duplicatesRemoved : ℕ := 0
  resultsTruncated : ℕ := 0
  deriving DecidableEq

/-! ### Texts -/

def byteLen (cs : List Char) : ℕ := (cs.map Char.utf8Size).sum

/-- The slice of the first `n` bytes, if it ends on a character boundary. -/
def takeBytes : ℕ → List Char → Option (List Char)
  | 0, _ => some []
  | _ + 1, [] => none
  | n + 1, c :: cs =>
      if c.utf8Size ≤ n + 1 then (takeBytes (n + 1 - c.utf8Size) cs).map (c :: ·) else none

/-- The byte offset of the last occurrence of `pattern`. -/
def rfind (pattern : List Char) : List Char → Option ℕ
  | [] => if pattern = [] then some 0 else none
  | c :: cs =>
      match rfind pattern cs with
      | some pos => some (c.utf8Size + pos)
      | none => if pattern.isPrefixOf (c :: cs) then some 0 else none

/-- The characters with the Unicode property `White_Space`. -/
def isWhitespace (c : Char) : Bool :=
  (9 ≤ c.toNat && c.toNat ≤ 13) || (8192 ≤ c.toNat && c.toNat ≤ 8202) ||
    [32, 133, 160, 5760, 8232, 8233, 8239, 8287, 12288].contains c.toNat

def trim (cs : List Char) : List Char :=
  ((cs.dropWhile isWhitespace).reverse.dropWhile isWhitespace).reverse

/-- The lines of a text without their line endings; a last empty line is not one. -/
def lines (content : List Char) : List (List Char) :=
  let parts := content.splitOn '\n'
  let ended := parts.dropLast.map fun line =>
    if line.getLast? = some '\r' then line.dropLast else line
  match parts.getLast? with
  | none | some [] => ended
  | some last => ended ++ [last]

/-! ### Ids -/

/-- The id of a `tool_use` block. -/
def toolUseId (v : Json) : Option String :=
  if v.textAt "type" = some "tool_use" then v.textAt "id" else none

mutual

/-- The ids in a value: tool-call ids and the ids of `tool_use` blocks. -/
def collectIdsRecursive : Json → List String
  | .object members =>
      ((Json.object members).textAt "tool_call_id").toList ++
        (toolUseId (.object members)).toList ++ collectIdsMembers members
  | .array items => collectIdsItems items
  | _ => []

def collectIdsItems : List Json → List String
  | [] => []
  | v :: rest => collectIdsRecursive v ++ collectIdsItems rest

def collectIdsMembers : List (String × Json) → List String
  | [] => []
  | m :: rest => collectIdsRecursive m.2 ++ collectIdsMembers rest

end

mutual

/-- Add the ids of the `tool_use` blocks in a value, each once, in their order. -/
def collectIdsOrdered : Json → List String → List String
  | .object members, ids =>
      collectOrderedMembers members <|
        match toolUseId (.object members) with
        | some id => if id ∈ ids then ids else ids ++ [id]
        | none => ids
  | .array items, ids => collectOrderedItems items ids
  | _, ids => ids

def collectOrderedItems : List Json → List String → List String
  | [], ids => ids
  | v :: rest, ids => collectOrderedItems rest (collectIdsOrdered v ids)

def collectOrderedMembers : List (String × Json) → List String → List String
  | [], ids => ids
  | m :: rest, ids => collectOrderedMembers rest (collectIdsOrdered m.2 ids)

end

section Passes

variable (codec : JsonCodec)

/-- The values in a content: the whole of it, or else those of its lines that look like
an object or an array. -/
def jsonValues (content : String) : List Json :=
  match codec.parse content with
  | some v => [v]
  | none =>
      (lines content.toList).filterMap fun line =>
        if (trim line).head? = some '\x7b' ∨ (trim line).head? = some '[' then
          codec.parse (String.ofList (trim line))
        else none

/-- Collect tool_use IDs from a message's content. -/
def collectToolUseIds (content : String) (role : MessageRole) : List String :=
  if role ≠ .assistant then []
  else (jsonValues codec content).flatMap collectIdsRecursive

/-- Collect tool_use IDs, preserving order. -/
def collectToolUseIdsInto (content : String) (ids : List String) : List String :=
  (jsonValues codec content).foldl (fun ids v => collectIdsOrdered v ids) ids

/-- Extract tool_call_id from a tool result message's content. -/
def extractToolCallId (content : String) : Option String :=
  (codec.parse content).bind (·.textAt "tool_call_id")

/-! ### Pairing calls and results -/

/-- Remove tool results whose tool_use is no longer present. -/
def removeOrphanedToolResults (messages : List ChatMessage) : List ChatMessage × ℕ :=
  let toolUseIds := messages.flatMap fun msg => collectToolUseIds codec msg.content msg.role
  let kept := messages.filter fun msg =>
    msg.role ≠ .tool || (extractToolCallId codec msg.content).all (· ∈ toolUseIds)
  (kept, messages.length - kept.length)

/-- The backward scan to the last assistant message, from the end of the history. -/
def scanPending : List ChatMessage → List String → List String
  | [], pending => pending
  | msg :: earlier, pending =>
      match msg.role, extractToolCallId codec msg.content with
      | .assistant, _ => collectToolUseIdsInto codec msg.content pending
      | .tool, some id => scanPending earlier (pending.filter (· ≠ id))
      | _, _ => scanPending earlier pending

/-- The ids of the tool results after the last assistant message. -/
def existingResultIds (messages : List ChatMessage) : List String :=
  let after := (messages.reverse.takeWhile fun msg => msg.role ≠ .assistant).reverse
  (after.filter fun msg => msg.role = .tool).filterMap fun msg =>
    extractToolCallId codec msg.content

def syntheticResult (toolId : String) : Json :=
  .object [("tool_call_id", .string toolId),
    ("content", .string
      "[Tool execution interrupted — session was terminated or crashed before completion]"),
    ("is_error", .bool true),
    ("synthetic", .bool true)]

/-- Append synthetic results for the unanswered calls of the last assistant message. -/
def repairOrphanedToolUse (messages : List ChatMessage) : List ChatMessage × ℕ :=
  let scanned := scanPending codec messages.reverse []
  let pending :=
    if scanned ≠ [] ∧ messages.any (fun msg => msg.role = .assistant) then
      scanned.filter (· ∉ existingResultIds codec messages)
    else scanned
  (messages ++ pending.map fun id =>
    ChatMessage.new .tool (codec.serialize (syntheticResult id)), pending.length)

/-- The messages without the results seen since the last assistant message. -/
def retainUnseen : List String → List ChatMessage → List ChatMessage
  | _, [] => []
  | seen, msg :: rest =>
      match msg.role, extractToolCallId codec msg.content with
      | .assistant, _ => msg :: retainUnseen [] rest
      | .tool, some id =>
          if id ∈ seen then retainUnseen seen rest else msg :: retainUnseen (id :: seen) rest
      | _, _ => msg :: retainUnseen seen rest

/-- Remove duplicate tool results with the same tool_call_id. -/
def removeDuplicateToolResults (messages : List ChatMessage) : List ChatMessage × ℕ :=
  let kept := retainUnseen codec [] messages
  (kept, messages.length - kept.length)

/-! ### Stripping -/

def fieldsToStrip : List String :=
  ["debug", "stack_trace", "raw_response", "headers", "request_body", "timing", "metadata",
    "trace", "http_status", "request_url", "elapsed_ms", "stderr"]

/-- Remove one field, and remember whether it was there. -/
def stripField (state : List (String × Json) × Bool) (field : String) :
    List (String × Json) × Bool :=
  if (state.1.lookup field).isSome then (Json.swapRemove field state.1, true) else state

/-- Give a message another content; its cached token count is then out of date. -/
def rewrite (msg : ChatMessage) (content : String) : ChatMessage :=
  { msg with content := content, cachedTokens := none }

/-- Strip one message, and say whether it was changed. -/
def stripMessage (msg : ChatMessage) : ChatMessage × Bool :=
  if msg.role ≠ .tool then (msg, false)
  else
    match codec.parse msg.content with
    | some (.object members) =>
        let stripped := fieldsToStrip.foldl stripField (members, false)
        if stripped.2 then (rewrite msg (codec.serialize (.object stripped.1)), true)
        else (msg, false)
    | _ => (msg, false)

/-- Strip verbose metadata fields from tool results. -/
def stripToolResultDetails (messages : List ChatMessage) : List ChatMessage × ℕ :=
  (messages.map fun msg => (stripMessage codec msg).1,
    messages.countP fun msg => (stripMessage codec msg).2)

/-! ### Truncating -/

/-- The cached token count, or an estimate. -/
def tokenCount (msg : ChatMessage) : ℕ :=
  msg.cachedTokens.getD (Domain.estimateTokens msg.content)

/-- Truncate at a paragraph or line boundary in the second half, or else hard. -/
def truncateAtBoundary (content : List Char) (maxChars : ℕ) : Option (List Char) :=
  if byteLen content ≤ maxChars then some content
  else
    (takeBytes (min maxChars (byteLen content)) content).bind fun searchRegion =>
      match (rfind ['\n', '\n'] searchRegion).filter fun pos => maxChars / 2 < pos with
      | some pos =>
          (takeBytes pos content).map
            (· ++ "\n\n[… output truncated for context budget]".toList)
      | none =>
          match (rfind ['\n'] searchRegion).filter fun pos => maxChars / 2 < pos with
          | some pos =>
              (takeBytes pos content).map
                (· ++ "\n[… output truncated for context budget]".toList)
          | none => (takeBytes maxChars content).map (· ++ " [… truncated]".toList)

/-- The members of a result whose content is cut to `content`. -/
def cutMembers (content : List Char) (tokens : ℕ) (members : List (String × Json)) :
    List (String × Json) :=
  Json.insertMember "original_tokens" (.number (toString (tokens % 2 ^ 64))) <|
    Json.insertMember "truncated" (.bool true) <|
      Json.insertMember "content" (.string (String.ofList content)) members

/-- Four bytes per token; the product wraps. -/
def maxCharsFor (maxTokens : ℕ) : ℕ := maxTokens * 4 % 2 ^ 64

/-- Truncate one message to `maxTokens`, and say whether it was changed. -/
def truncateMessage (maxTokens : ℕ) (msg : ChatMessage) : Option (ChatMessage × Bool) :=
  if msg.role ≠ .tool ∨ tokenCount msg ≤ maxTokens ∨
      byteLen msg.content.toList ≤ maxCharsFor maxTokens then
    some (msg, false)
  else
    match codec.parse msg.content with
    | some (.object members) =>
        match (Json.object members).textAt "content" with
        | some content =>
            if maxCharsFor maxTokens < byteLen content.toList then
              (truncateAtBoundary content.toList (maxCharsFor maxTokens)).map fun cut =>
                (rewrite msg (codec.serialize (.object (cutMembers cut (tokenCount msg) members))),
                  true)
            else some (msg, false)
        | none => some (msg, false)
    | some _ => some (msg, false)
    -- a content that is not JSON is cut as it stands
    | none =>
        (truncateAtBoundary msg.content.toList (maxCharsFor maxTokens)).map fun cut =>
          (rewrite msg (String.ofList cut), true)

/-- Truncate oversized tool results to a token budget per message. -/
def truncateOversizedResults (maxTokens : ℕ) (messages : List ChatMessage) :
    Option (List ChatMessage × ℕ) :=
  (messages.mapM (truncateMessage codec maxTokens)).map fun results =>
    (results.map Prod.fst, results.countP Prod.snd)

/-! ### Merging -/

def mergeInto (last msg : ChatMessage) : ChatMessage :=
  rewrite last (last.content ++ "\n" ++ msg.content)

/-- Merge on from `last`, the newest message of the result so far. -/
def mergeTurns (last : ChatMessage) : List ChatMessage → List ChatMessage × ℕ
  | [] => ([last], 0)
  | msg :: rest =>
      if last.role = msg.role ∧ msg.role ≠ .system then
        let merged := mergeTurns (mergeInto last msg) rest
        (merged.1, merged.2 + 1)
      else
        let merged := mergeTurns msg rest
        (last :: merged.1, merged.2)

/-- Enforce turn alternation by merging consecutive messages of one role. -/
def enforceTurnAlternation : List ChatMessage → List ChatMessage × ℕ
  | [] => ([], 0)
  | first :: rest => mergeTurns first rest

/-! ### The pipeline -/

/-- Run a pass if it is configured. -/
def runIf (on : Bool) (pass : List ChatMessage → List ChatMessage × ℕ)
    (messages : List ChatMessage) : List ChatMessage × ℕ :=
  if on then pass messages else (messages, 0)

/-- Run all configured repair passes on the message history. -/
def repairTranscript (messages : List ChatMessage) (config : RepairConfig) :
    Option (List ChatMessage × RepairResult) :=
  let owned := runIf config.repairOrphans (removeOrphanedToolResults codec) messages
  let answered := runIf config.repairOrphanedToolUse (repairOrphanedToolUse codec) owned.1
  let unrepeated :=
    runIf config.removeDuplicateResults (removeDuplicateToolResults codec) answered.1
  let stripped := runIf config.stripDetails (stripToolResultDetails codec) unrepeated.1
  let truncated :=
    if config.truncateOversized then
      truncateOversizedResults codec config.maxResultTokens stripped.1
    else some (stripped.1, 0)
  truncated.map fun truncated =>
    let merged := runIf config.enforceAlternation enforceTurnAlternation truncated.1
    (merged.1,
      { orphansRemoved := owned.2
        syntheticResultsAdded := answered.2
        duplicatesRemoved := unrepeated.2
        detailsStripped := stripped.2
        resultsTruncated := truncated.2
        messagesMerged := merged.2 })

/-- Repair for Anthropic API requirements. -/
def repairForAnthropic (messages : List ChatMessage) :
    Option (List ChatMessage × RepairResult) :=
  repairTranscript codec messages {}

end Passes

end ClawDesk.Agents
