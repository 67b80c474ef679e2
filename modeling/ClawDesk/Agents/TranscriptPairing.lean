import ClawDesk.Agents.TranscriptRepair
import ClawDesk.Foundations.CallResult
import ClawDesk.Foundations.CompactJson

/-!
# Pairing of tool calls and results

The first three passes read of a message only its event: which ids an assistant message
names and calls, and which id a tool result answers (`view`).  On the events they are
the three edits of `Foundations.CallResult`.  Stripping and truncating rewrite contents
but keep every event, so what the three passes establish is there in the repaired
history (`repairTranscript_paired`).

The repair of unanswered calls is for the end of the history: a call of an earlier
assistant message may stay without a result (`repair_leaves_unanswered`).
-/

namespace ClawDesk.Agents

open Foundations (Json JsonCodec Calls CallEvent)
open ClawDesk.Runtime (ChatMessage MessageRole)

/-! ### The events of a history -/

mutual

theorem mem_collectIdsOrdered : ∀ (v : Json) {ids : List String} {id : String},
    id ∈ collectIdsOrdered v ids → id ∈ ids ∨ id ∈ collectIdsRecursive v
  | .object members, ids, id, h => by
      rw [collectIdsOrdered] at h
      rw [collectIdsRecursive]
      rcases mem_collectOrderedMembers members h with h | h
      · cases huse : toolUseId (.object members) with
        | none =>
            rw [huse] at h
            exact Or.inl h
        | some id' =>
            rw [huse] at h
            dsimp only at h
            split at h
            · exact Or.inl h
            · rcases List.mem_append.mp h with h | h
              · exact Or.inl h
              · exact Or.inr (by simp [List.mem_singleton.mp h])
      · exact Or.inr (List.mem_append_right _ h)
  | .array items, ids, id, h => by
      rw [collectIdsOrdered] at h
      rw [collectIdsRecursive]
      exact mem_collectOrderedItems items h
  | .null, _, _, h => Or.inl h
  | .bool _, _, _, h => Or.inl h
  | .number _, _, _, h => Or.inl h
  | .string _, _, _, h => Or.inl h

theorem mem_collectOrderedItems : ∀ (items : List Json) {ids : List String} {id : String},
    id ∈ collectOrderedItems items ids → id ∈ ids ∨ id ∈ collectIdsItems items
  | [], _, _, h => Or.inl h
  | v :: rest, ids, id, h => by
      rw [collectIdsItems, List.mem_append]
      rcases mem_collectOrderedItems rest h with h | h
      · exact (mem_collectIdsOrdered v h).imp_right Or.inl
      · exact Or.inr (Or.inr h)

theorem mem_collectOrderedMembers : ∀ (members : List (String × Json)) {ids : List String}
    {id : String}, id ∈ collectOrderedMembers members ids →
    id ∈ ids ∨ id ∈ collectIdsMembers members
  | [], _, _, h => Or.inl h
  | m :: rest, ids, id, h => by
      rw [collectIdsMembers, List.mem_append]
      rcases mem_collectOrderedMembers rest h with h | h
      · exact (mem_collectIdsOrdered m.2 h).imp_right Or.inl
      · exact Or.inr (Or.inr h)

end

section View

variable (codec : JsonCodec)

/-- Every call is one of the ids that the message names. -/
theorem mem_collectToolUseIdsInto {content : String} {ids : List String} {id : String}
    (h : id ∈ collectToolUseIdsInto codec content ids) :
    id ∈ ids ∨ id ∈ collectToolUseIds codec content .assistant := by
  rw [collectToolUseIds, if_neg (by simp)]
  rw [collectToolUseIdsInto] at h
  generalize jsonValues codec content = values at h ⊢
  induction values generalizing ids with
  | nil => exact Or.inl h
  | cons v values ih =>
      rw [List.flatMap_cons, List.mem_append]
      rcases ih h with h | h
      · exact (mem_collectIdsOrdered v h).imp_right Or.inl
      · exact Or.inr (Or.inr h)

/-- The ids of an assistant message. -/
def callsOf (content : String) : Calls String where
  known := collectToolUseIds codec content .assistant
  uses := collectToolUseIdsInto codec content []
  uses_known _ h := (mem_collectToolUseIdsInto codec h).resolve_left (by simp)

/-- What the pairing passes read of a message. -/
def view (msg : ChatMessage) : CallEvent String :=
  match msg.role, extractToolCallId codec msg.content with
  | .assistant, _ => .call (callsOf codec msg.content)
  | .tool, some id => .result id
  | _, _ => .other

variable {codec}

theorem view_assistant {msg : ChatMessage} (h : msg.role = .assistant) :
    view codec msg = .call (callsOf codec msg.content) := by
  unfold view
  rw [h]

theorem view_result {msg : ChatMessage} {id : String} (h : msg.role = .tool)
    (hid : extractToolCallId codec msg.content = some id) : view codec msg = .result id := by
  unfold view
  rw [h, hid]

theorem view_unnamed {msg : ChatMessage} (h : msg.role = .tool)
    (hid : extractToolCallId codec msg.content = none) : view codec msg = .other := by
  unfold view
  rw [h, hid]

theorem view_of_ne {msg : ChatMessage} (h : msg.role ≠ .assistant) (h' : msg.role ≠ .tool) :
    view codec msg = .other := by
  unfold view
  cases hrole : msg.role <;> simp_all

/-- The four kinds of messages. -/
theorem view_cases (codec : JsonCodec) (msg : ChatMessage) :
    (msg.role = .assistant ∧ view codec msg = .call (callsOf codec msg.content)) ∨
      (∃ id, msg.role = .tool ∧ extractToolCallId codec msg.content = some id ∧
        view codec msg = .result id) ∨
      (msg.role = .tool ∧ extractToolCallId codec msg.content = none ∧
        view codec msg = .other) ∨
      (msg.role ≠ .assistant ∧ msg.role ≠ .tool ∧ view codec msg = .other) := by
  by_cases h : msg.role = .assistant
  · exact Or.inl ⟨h, view_assistant h⟩
  · by_cases h' : msg.role = .tool
    · cases hid : extractToolCallId codec msg.content with
      | some id => exact Or.inr (Or.inl ⟨id, h', rfl, view_result h' hid⟩)
      | none => exact Or.inr (Or.inr (Or.inl ⟨h', rfl, view_unnamed h' hid⟩))
    · exact Or.inr (Or.inr (Or.inr ⟨h, h', view_of_ne h h'⟩))

theorem isCall_view (msg : ChatMessage) :
    (view codec msg).isCall = decide (msg.role = .assistant) := by
  rcases view_cases codec msg with ⟨h, hv⟩ | ⟨id, h, -, hv⟩ | ⟨h, -, hv⟩ | ⟨h, -, hv⟩ <;>
    simp [hv, h, CallEvent.isCall]

/-- Is the message a tool result for `id`? -/
def isResultFor (codec : JsonCodec) (id : String) (msg : ChatMessage) : Bool :=
  decide (msg.role = .tool) && decide (extractToolCallId codec msg.content = some id)

theorem answers_view (id : String) (msg : ChatMessage) :
    (view codec msg).answers id = isResultFor codec id msg := by
  unfold isResultFor
  rcases view_cases codec msg with ⟨h, hv⟩ | ⟨id', h, hid, hv⟩ | ⟨h, hid, hv⟩ | ⟨-, h, hv⟩ <;>
    simp_all [CallEvent.answers]

theorem names_view (msg : ChatMessage) :
    (view codec msg).names = collectToolUseIds codec msg.content msg.role := by
  rcases view_cases codec msg with ⟨h, hv⟩ | ⟨id, h, -, hv⟩ | ⟨h, -, hv⟩ | ⟨h, -, hv⟩
  · rw [hv, h]
    rfl
  all_goals
    rw [hv, collectToolUseIds, if_pos (by simp [h])]
    rfl

theorem known_map_view (messages : List ChatMessage) :
    CallEvent.known (messages.map (view codec)) =
      messages.flatMap fun msg => collectToolUseIds codec msg.content msg.role := by
  rw [CallEvent.known, List.flatMap_map]
  exact congrArg (fun f => messages.flatMap f) (funext names_view)

/-! ### The passes on events -/

theorem removeOrphanedToolResults_eq (messages : List ChatMessage) :
    (removeOrphanedToolResults codec messages).1 =
      messages.filter
        (CallEvent.keptBy (CallEvent.known (messages.map (view codec))) ∘ view codec) := by
  refine List.filter_congr fun msg _ => ?_
  rw [Function.comp_apply, known_map_view]
  rcases view_cases codec msg with ⟨h, hv⟩ | ⟨id, h, hid, hv⟩ | ⟨h, hid, hv⟩ | ⟨-, h, hv⟩ <;>
    simp [*, CallEvent.keptBy]

theorem view_removeOrphanedToolResults (messages : List ChatMessage) :
    (removeOrphanedToolResults codec messages).1.map (view codec) =
      CallEvent.dropOrphans (messages.map (view codec)) := by
  rw [removeOrphanedToolResults_eq, CallEvent.dropOrphans, List.filter_map]

theorem view_retainUnseen (seen : List String) (messages : List ChatMessage) :
    (retainUnseen codec seen messages).map (view codec) =
      CallEvent.dropRepeats seen (messages.map (view codec)) := by
  induction messages generalizing seen with
  | nil => rfl
  | cons msg rest ih =>
      rw [List.map_cons]
      unfold retainUnseen
      rcases view_cases codec msg with ⟨h, hv⟩ | ⟨id, h, hid, hv⟩ | ⟨h, hid, hv⟩ | ⟨h, h', hv⟩
      · rw [hv, h, CallEvent.dropRepeats]
        simp only [List.map_cons, hv, ih]
      · rw [hv, h, hid, CallEvent.dropRepeats]
        by_cases hseen : id ∈ seen
        · simp only [if_pos hseen, ih]
        · simp only [if_neg hseen, List.map_cons, hv, ih]
      · rw [hv, h, hid, CallEvent.dropRepeats]
        simp only [List.map_cons, hv, ih]
      · rw [hv, CallEvent.dropRepeats]
        cases hrole : msg.role <;> simp_all

/-- A history is cut at its last assistant message. -/
theorem exists_last_assistant {messages : List ChatMessage}
    (h : ∃ msg ∈ messages, msg.role = .assistant) :
    ∃ before asst after, messages = before ++ asst :: after ∧ asst.role = .assistant ∧
      ∀ msg ∈ after, msg.role ≠ .assistant := by
  obtain ⟨asst, hfind⟩ : ∃ asst,
      messages.reverse.find? (fun msg => decide (msg.role = .assistant)) = some asst := by
    rw [← Option.isSome_iff_exists, List.find?_isSome]
    simpa using h
  obtain ⟨hasst, after, before, hsplit, hafter⟩ := List.find?_eq_some_iff_append.mp hfind
  refine ⟨before.reverse, asst, after.reverse, ?_, by simpa using hasst, ?_⟩
  · rw [← List.reverse_reverse messages, hsplit]
    simp
  · intro msg hmsg
    simpa using hafter msg (List.mem_reverse.mp hmsg)

theorem scanPending_of_ne {after earlier : List ChatMessage}
    (h : ∀ msg ∈ after, msg.role ≠ .assistant) :
    scanPending codec (after ++ earlier) [] = scanPending codec earlier [] := by
  induction after with
  | nil => rfl
  | cons msg after ih =>
      have hrest := ih fun msg hmsg => h msg (List.mem_cons_of_mem _ hmsg)
      rw [List.cons_append, scanPending]
      have hmsg := h msg List.mem_cons_self
      cases hrole : msg.role with
      | assistant => exact absurd hrole hmsg
      | tool => cases extractToolCallId codec msg.content <;> simpa using hrest
      | user => exact hrest
      | system => exact hrest

theorem mem_existingResultIds {before after : List ChatMessage} {asst : ChatMessage}
    (hasst : asst.role = .assistant) (h : ∀ msg ∈ after, msg.role ≠ .assistant)
    (id : String) : id ∈ existingResultIds codec (before ++ asst :: after) ↔
      after.any (isResultFor codec id) = true := by
  have htake : ((before ++ asst :: after).reverse.takeWhile
      fun msg => decide (msg.role ≠ .assistant)).reverse = after := by
    rw [List.reverse_append, List.reverse_cons, List.append_assoc,
      List.takeWhile_append_of_pos (by simpa using h)]
    simp [hasst]
  simp only [existingResultIds, htake, List.mem_filterMap, List.mem_filter, List.any_eq_true,
    isResultFor, Bool.and_eq_true, decide_eq_true_eq, and_assoc]

/-- The calls that get a synthetic result are the unanswered ones. -/
theorem pending_eq_unanswered (messages : List ChatMessage) :
    (let scanned := scanPending codec messages.reverse []
     if scanned ≠ [] ∧ messages.any (fun msg => msg.role = .assistant) then
       scanned.filter (· ∉ existingResultIds codec messages)
     else scanned) = CallEvent.unanswered [] (messages.map (view codec)) := by
  by_cases hany : ∃ msg ∈ messages, msg.role = .assistant
  · obtain ⟨before, asst, after, rfl, hasst, hafter⟩ := exists_last_assistant hany
    have hscan : scanPending codec (before ++ asst :: after).reverse [] =
        collectToolUseIdsInto codec asst.content [] := by
      rw [List.reverse_append, List.reverse_cons, List.append_assoc,
        scanPending_of_ne (by simpa using hafter), List.singleton_append, scanPending, hasst]
    have hevents : CallEvent.unanswered [] ((before ++ asst :: after).map (view codec)) =
        (collectToolUseIdsInto codec asst.content []).filter
          fun id => !after.any (isResultFor codec id) := by
      rw [List.map_append, CallEvent.unanswered_append, List.map_cons, view_assistant hasst,
        CallEvent.unanswered,
        CallEvent.unanswered_of_not_isCall (by simpa [isCall_view] using hafter)]
      simp [List.any_map, Function.comp_def, answers_view, callsOf]
    rw [hscan, hevents]
    dsimp only
    split
    · refine List.filter_congr fun id _ => ?_
      rw [Bool.eq_iff_iff]
      simp [mem_existingResultIds hasst hafter]
    · next hnone =>
        have hempty : collectToolUseIdsInto codec asst.content [] = [] := by
          by_contra hne
          exact hnone ⟨hne, by simp [hasst]⟩
        simp [hempty]
  · have hno : ∀ msg ∈ messages, msg.role ≠ .assistant := by simpa using hany
    have hscan : scanPending codec messages.reverse [] = [] := by
      have hskip := @scanPending_of_ne codec messages.reverse [] (by simpa using hno)
      rwa [List.append_nil] at hskip
    rw [hscan, CallEvent.unanswered_of_not_isCall (by simpa [isCall_view] using hno)]
    simp

theorem repairOrphanedToolUse_eq (messages : List ChatMessage) :
    repairOrphanedToolUse codec messages =
      (messages ++ (CallEvent.unanswered [] (messages.map (view codec))).map fun id =>
        ChatMessage.new .tool (codec.serialize (syntheticResult id)),
      (CallEvent.unanswered [] (messages.map (view codec))).length) := by
  rw [← pending_eq_unanswered]
  rfl

/-! ### Contents that are rewritten -/

theorem sound_syntheticResult (numeric : String → Bool) (id : String) :
    (syntheticResult id).Sound numeric := by
  rw [syntheticResult, Json.sound_object_iff]
  refine ⟨by simp, ?_⟩
  simp [Json.soundMember_string, Json.soundMember_bool]

/-- Stripping removes the fields and nothing else, and notices if one was there. -/
theorem foldl_stripField {numeric : String → Bool} (fields : List String)
    {members : List (String × Json)} (h : (Json.object members).Sound numeric) (changed : Bool) :
    (Json.object (fields.foldl stripField (members, changed)).1).Sound numeric ∧
      (∀ name, (fields.foldl stripField (members, changed)).1.lookup name =
        if name ∈ fields then none else members.lookup name) ∧
      (fields.foldl stripField (members, changed)).2 =
        (changed || fields.any fun field => (members.lookup field).isSome) := by
  induction fields generalizing members changed with
  | nil => exact ⟨h, by simp, by simp⟩
  | cons field fields ih =>
      rw [List.foldl_cons, stripField]
      split
      · next hfield =>
          obtain ⟨hsound, hlookup, hchanged⟩ := ih (Json.sound_swapRemove field h) true
          have hnodup := (Json.sound_object_iff.mp h).1
          refine ⟨hsound, fun name => ?_, ?_⟩
          · rw [hlookup, Json.lookup_swapRemove field name hnodup]
            by_cases hname : name = field <;> simp [hname]
          · rw [hchanged, List.any_cons]
            dsimp only at hfield
            simp [hfield]
      · next hfield =>
          obtain ⟨hsound, hlookup, hchanged⟩ := ih h changed
          have hnone : members.lookup field = none := by
            rwa [Option.not_isSome_iff_eq_none] at hfield
          refine ⟨hsound, fun name => ?_, ?_⟩
          · rw [hlookup]
            by_cases hname : name = field <;> simp [hname, hnone]
          · rw [hchanged, List.any_cons]
            simp [hnone]

theorem sound_cutMembers {numeric : String → Bool} {members : List (String × Json)}
    (h : (Json.object members).Sound numeric) (content : List Char) {tokens : ℕ}
    (htokens : numeric (toString (tokens % 2 ^ 64)) = true) :
    (Json.object (cutMembers content tokens members)).Sound numeric :=
  Json.sound_insertMember (Json.soundMember_number htokens)
    (Json.sound_insertMember (Json.soundMember_bool _ _)
      (Json.sound_insertMember (Json.soundMember_string _ _) h))

/-- Every text cut to a budget ends in a notice. -/
theorem truncateAtBoundary_ending {content cut : List Char} {maxChars : ℕ}
    (h : truncateAtBoundary content maxChars = some cut) (hlen : maxChars < byteLen content) :
    ∃ l c, cut = l ++ [c, ']'] ∧ c.isAlpha = true ∧ c ≠ 'e' ∧ c ≠ 'l' := by
  have hbudget (kept : List Char) {notice : List Char}
      (hnotice : notice = "\n\n[… output truncated for context budget]".toList ∨
        notice = "\n[… output truncated for context budget]".toList) :
      ∃ l c, kept ++ notice = l ++ [c, ']'] ∧ c.isAlpha = true ∧ c ≠ 'e' ∧ c ≠ 'l' := by
    refine ⟨kept ++ notice.take (notice.length - 2), 't', ?_, by decide, by decide, by decide⟩
    rw [List.append_assoc, List.append_cancel_left_eq]
    rcases hnotice with rfl | rfl <;> decide
  rw [truncateAtBoundary, if_neg (by omega), Option.bind_eq_some_iff] at h
  obtain ⟨region, -, h⟩ := h
  split at h
  · obtain ⟨kept, -, rfl⟩ := Option.map_eq_some_iff.mp h
    exact hbudget kept (Or.inl rfl)
  · split at h
    · obtain ⟨kept, -, rfl⟩ := Option.map_eq_some_iff.mp h
      exact hbudget kept (Or.inr rfl)
    · obtain ⟨kept, -, rfl⟩ := Option.map_eq_some_iff.mp h
      refine ⟨kept ++ " [… truncate".toList, 'd', ?_, by decide, by decide, by decide⟩
      rw [List.append_assoc, List.append_cancel_left_eq]
      decide

theorem forall₂_of_mapM {α β : Type} {f : α → Option β} {l : List α} {results : List β}
    (h : l.mapM f = some results) : List.Forall₂ (fun a b => f a = some b) l results := by
  induction l generalizing results with
  | nil =>
      rw [List.mapM_nil] at h
      cases h
      exact List.Forall₂.nil
  | cons a l ih =>
      rw [List.mapM_cons] at h
      obtain ⟨b, hb, hrest⟩ := Option.bind_eq_some_iff.mp h
      obtain ⟨rest, hmap, heq⟩ := Option.bind_eq_some_iff.mp hrest
      cases heq
      exact List.Forall₂.cons hb (ih hmap)

/-- A rewritten tool result is the same event if it answers the same id. -/
theorem view_rewrite {msg : ChatMessage} {content : String} (h : msg.role = .tool)
    (hid : extractToolCallId codec content = extractToolCallId codec msg.content) :
    view codec (rewrite msg content) = view codec msg := by
  rcases view_cases codec msg with ⟨h', -⟩ | ⟨id, -, hmsg, hv⟩ | ⟨-, hmsg, hv⟩ | ⟨-, h', -⟩
  · rw [h] at h'
    contradiction
  · rw [hv]
    exact view_result h (hid.trans hmsg)
  · rw [hv]
    exact view_unnamed h (hid.trans hmsg)
  · exact absurd h h'

/-- Is the message one that truncation cuts? -/
def oversized (codec : JsonCodec) (maxTokens : ℕ) (msg : ChatMessage) : Bool :=
  decide (msg.role = .tool) && decide (maxTokens < tokenCount msg) &&
    decide (maxCharsFor maxTokens < byteLen msg.content.toList) &&
    match codec.parse msg.content with
    | some v => (v.textAt "content").any fun text => maxCharsFor maxTokens < byteLen text.toList
    | none => true

/-- `msg'` is what truncation makes of the oversized `msg`: its content member is cut, or
the whole of its content. -/
inductive CutTo (codec : JsonCodec) (maxTokens : ℕ) (msg : ChatMessage) : ChatMessage → Prop
  | member {members : List (String × Json)} {text : String} {cut : List Char}
      (parsed : codec.parse msg.content = some (.object members))
      (long : maxCharsFor maxTokens < byteLen text.toList)
      (truncated : truncateAtBoundary text.toList (maxCharsFor maxTokens) = some cut) :
      CutTo codec maxTokens msg
        (rewrite msg (codec.serialize (.object (cutMembers cut (tokenCount msg) members))))
  | whole {cut : List Char} (notJson : codec.parse msg.content = none)
      (long : maxCharsFor maxTokens < byteLen msg.content.toList)
      (truncated : truncateAtBoundary msg.content.toList (maxCharsFor maxTokens) = some cut) :
      CutTo codec maxTokens msg (rewrite msg (String.ofList cut))

theorem truncateMessage_of_not_oversized {maxTokens : ℕ} {msg : ChatMessage}
    (h : oversized codec maxTokens msg = false) :
    truncateMessage codec maxTokens msg = some (msg, false) := by
  unfold oversized at h
  unfold truncateMessage
  by_cases hskip : msg.role ≠ .tool ∨ tokenCount msg ≤ maxTokens ∨
      byteLen msg.content.toList ≤ maxCharsFor maxTokens
  · rw [if_pos hskip]
  · rw [if_neg hskip]
    push Not at hskip
    obtain ⟨htool, htokens, hlen⟩ := hskip
    cases hparse : codec.parse msg.content with
    | none => simp [htool, htokens, hlen, hparse] at h
    | some v =>
        cases v with
        | object members =>
            cases htext : (Json.object members).textAt "content" with
            | none => simp [htext]
            | some text =>
                have hshort : ¬maxCharsFor maxTokens < byteLen text.toList := by
                  simpa [htool, htokens, hlen, hparse, htext] using h
                simp only [htext, if_neg hshort]
        | _ => rfl

theorem cutTo_of_oversized {maxTokens : ℕ} {msg msg' : ChatMessage} {changed : Bool}
    (h : oversized codec maxTokens msg = true)
    (htruncate : truncateMessage codec maxTokens msg = some (msg', changed)) :
    changed = true ∧ CutTo codec maxTokens msg msg' := by
  unfold oversized at h
  unfold truncateMessage at htruncate
  simp only [Bool.and_eq_true, decide_eq_true_eq] at h
  obtain ⟨⟨⟨htool, htokens⟩, hlen⟩, h⟩ := h
  rw [if_neg (by push Not; exact ⟨htool, htokens, hlen⟩)] at htruncate
  cases hparse : codec.parse msg.content with
  | none =>
      rw [hparse] at htruncate
      obtain ⟨cut, hcut, hmsg⟩ := Option.map_eq_some_iff.mp htruncate
      cases hmsg
      exact ⟨rfl, CutTo.whole hparse hlen hcut⟩
  | some v =>
      rw [hparse] at h htruncate
      dsimp only at h
      rw [Option.any_eq_true] at h
      obtain ⟨text, htext, hlong⟩ := h
      rw [decide_eq_true_eq] at hlong
      cases v with
      | object members =>
          simp only [htext, if_pos hlong] at htruncate
          obtain ⟨cut, hcut, hmsg⟩ := Option.map_eq_some_iff.mp htruncate
          cases hmsg
          exact ⟨rfl, CutTo.member hparse hlong hcut⟩
      | _ => simp [Json.textAt, Json.get] at htext

section Lawful

variable (law : codec.Lawful)

include law

/-- A printed value answers the id it carries. -/
theorem extractToolCallId_serialize {v : Json} (h : v.Sound codec.numeric) :
    extractToolCallId codec (codec.serialize v) = v.textAt "tool_call_id" := by
  obtain ⟨v', hparse, hforget⟩ := law.reads h
  rw [extractToolCallId, hparse, Option.bind_some]
  exact Json.textAt_eq_of_forget_eq hforget _

theorem view_synthetic (id : String) :
    view codec (ChatMessage.new .tool (codec.serialize (syntheticResult id))) = .result id := by
  refine view_result rfl ?_
  show extractToolCallId codec (codec.serialize _) = _
  rw [extractToolCallId_serialize law (sound_syntheticResult _ id)]
  rfl

theorem view_repairOrphanedToolUse (messages : List ChatMessage) :
    (repairOrphanedToolUse codec messages).1.map (view codec) =
      CallEvent.answer (messages.map (view codec)) := by
  rw [repairOrphanedToolUse_eq, List.map_append, List.map_map, CallEvent.answer]
  exact congrArg (fun f => _ ++ List.map f _) (funext (view_synthetic law))

/-- A text cut to a budget is not JSON. -/
theorem parse_truncateAtBoundary {content cut : List Char} {maxChars : ℕ}
    (h : truncateAtBoundary content maxChars = some cut) (hlen : maxChars < byteLen content) :
    codec.parse (String.ofList cut) = none := by
  obtain ⟨l, c, rfl, hc, he, hl⟩ := truncateAtBoundary_ending h hlen
  by_contra hparse
  obtain ⟨v, hv⟩ := Option.ne_none_iff_exists'.mp hparse
  rcases law.ending hv (String.toList_ofList) hc with rfl | rfl
  · exact he rfl
  · exact hl rfl

theorem numeric_natural (n : ℕ) : codec.numeric (toString (n % 2 ^ 64)) = true := by
  rw [JsonCodec.numeric, law.natural (Nat.mod_lt _ (by norm_num))]
  rfl

theorem view_stripMessage (msg : ChatMessage) :
    view codec (stripMessage codec msg).1 = view codec msg := by
  unfold stripMessage
  split
  · rfl
  · next htool =>
      split
      · next members hparse =>
          obtain ⟨hsound, hlookup, -⟩ :=
            foldl_stripField fieldsToStrip (law.sound hparse) false
          dsimp only
          split
          · refine view_rewrite (by simpa using htool) ?_
            rw [extractToolCallId_serialize law hsound, extractToolCallId, hparse,
              Option.bind_some, Json.textAt, Json.textAt, Json.get, Json.get, hlookup,
              if_neg (by decide)]
          · rfl
      · rfl

theorem view_stripToolResultDetails (messages : List ChatMessage) :
    (stripToolResultDetails codec messages).1.map (view codec) = messages.map (view codec) := by
  rw [stripToolResultDetails, List.map_map]
  exact congrArg (fun f => List.map f messages) (funext (view_stripMessage law))

theorem view_cutTo {maxTokens : ℕ} {msg msg' : ChatMessage} (htool : msg.role = .tool)
    (h : CutTo codec maxTokens msg msg') : view codec msg' = view codec msg := by
  cases h with
  | @member members text cut hparse hlong hcut =>
      have hsound := sound_cutMembers (law.sound hparse) cut
        (numeric_natural law (tokenCount msg))
      refine view_rewrite htool ?_
      rw [extractToolCallId_serialize law hsound, extractToolCallId, hparse,
        Option.bind_some, Json.textAt, Json.textAt, Json.get, Json.get, cutMembers,
        Json.lookup_insertMember, if_neg (by decide), Json.lookup_insertMember,
        if_neg (by decide), Json.lookup_insertMember, if_neg (by decide)]
  | whole hparse hlong hcut =>
      refine view_rewrite htool ?_
      rw [extractToolCallId, extractToolCallId, hparse, parse_truncateAtBoundary law hcut hlong]

theorem view_truncateMessage {maxTokens : ℕ} {msg : ChatMessage} {r : ChatMessage × Bool}
    (h : truncateMessage codec maxTokens msg = some r) : view codec r.1 = view codec msg := by
  cases hsize : oversized codec maxTokens msg with
  | false =>
      rw [truncateMessage_of_not_oversized hsize] at h
      cases h
      rfl
  | true =>
      have htool : msg.role = .tool := by
        simp only [oversized, Bool.and_eq_true, decide_eq_true_eq] at hsize
        exact hsize.1.1.1
      exact view_cutTo law htool (cutTo_of_oversized hsize h).2

theorem view_truncateOversizedResults {maxTokens count : ℕ} {messages out : List ChatMessage}
    (h : truncateOversizedResults codec maxTokens messages = some (out, count)) :
    out.map (view codec) = messages.map (view codec) := by
  obtain ⟨results, hresults, hout⟩ := Option.map_eq_some_iff.mp h
  cases hout
  have hall := forall₂_of_mapM hresults
  clear h hresults
  rw [List.map_map]
  induction hall with
  | nil => rfl
  | cons hr _ ih => rw [List.map_cons, List.map_cons, ih, Function.comp_apply,
      view_truncateMessage law hr]

end Lawful

/-! ### The history after the pairing passes -/

variable (codec)

/-- The history after the first three passes. -/
def pairMessages (config : RepairConfig) (messages : List ChatMessage) : List ChatMessage :=
  (runIf config.removeDuplicateResults (removeDuplicateToolResults codec)
    (runIf config.repairOrphanedToolUse (repairOrphanedToolUse codec)
      (runIf config.repairOrphans (removeOrphanedToolResults codec) messages).1).1).1

/-- The history that reaches the truncating pass. -/
def untruncated (config : RepairConfig) (messages : List ChatMessage) : List ChatMessage :=
  (runIf config.stripDetails (stripToolResultDetails codec) (pairMessages codec config messages)).1

/-- The history that reaches the merging pass, if no slice panics. -/
def unmerged (config : RepairConfig) (messages : List ChatMessage) :
    Option (List ChatMessage × ℕ) :=
  if config.truncateOversized then
    truncateOversizedResults codec config.maxResultTokens (untruncated codec config messages)
  else some (untruncated codec config messages, 0)

variable {codec}

theorem view_runIf (edit : List (CallEvent String) → List (CallEvent String)) {on : Bool}
    {pass : List ChatMessage → List ChatMessage × ℕ} {messages : List ChatMessage}
    (h : (pass messages).1.map (view codec) = edit (messages.map (view codec))) :
    (runIf on pass messages).1.map (view codec) =
      if on then edit (messages.map (view codec)) else messages.map (view codec) := by
  unfold runIf
  split
  · exact h
  · rfl

/-- **The pairing passes establish what they are for**, and each keeps what the ones
before it have established. -/
theorem pairMessages_events (law : codec.Lawful) (config : RepairConfig)
    (messages : List ChatMessage) :
    (config.repairOrphans = true →
        CallEvent.Owned ((pairMessages codec config messages).map (view codec))) ∧
      (config.repairOrphanedToolUse = true →
        CallEvent.unanswered [] ((pairMessages codec config messages).map (view codec)) = []) ∧
      (config.removeDuplicateResults = true →
        CallEvent.Fresh [] ((pairMessages codec config messages).map (view codec))) := by
  rw [pairMessages, view_runIf (CallEvent.dropRepeats []) (view_retainUnseen [] _),
    view_runIf CallEvent.answer (view_repairOrphanedToolUse law _),
    view_runIf CallEvent.dropOrphans (view_removeOrphanedToolResults _)]
  generalize messages.map (view codec) = es
  refine ⟨fun horphans => ?_, fun hanswer => ?_, fun hrepeats => ?_⟩
  · rw [if_pos horphans]
    have howned := CallEvent.owned_dropOrphans es
    have hanswered : CallEvent.Owned (if config.repairOrphanedToolUse = true then
        CallEvent.answer (CallEvent.dropOrphans es) else CallEvent.dropOrphans es) := by
      split
      · exact CallEvent.owned_answer howned fun id hid =>
          (CallEvent.mem_unanswered hid).resolve_left (by simp)
      · exact howned
    split
    · exact CallEvent.owned_dropRepeats hanswered []
    · exact hanswered
  · rw [if_pos hanswer]
    split
    · rw [CallEvent.unanswered_dropRepeats (by simp), CallEvent.unanswered_answer]
    · exact CallEvent.unanswered_answer _
  · rw [if_pos hrepeats]
    exact CallEvent.fresh_dropRepeats [] _

/-- Before merging, a repaired history is what the truncating pass leaves. -/
theorem repairTranscript_eq_some {config : RepairConfig} {messages out : List ChatMessage}
    {result : RepairResult} (h : repairTranscript codec messages config = some (out, result)) :
    ∃ truncated count, unmerged codec config messages = some (truncated, count) ∧
      out = (runIf config.enforceAlternation enforceTurnAlternation truncated).1 := by
  obtain ⟨⟨truncated, count⟩, htruncated, hout⟩ := Option.map_eq_some_iff.mp h
  cases hout
  exact ⟨truncated, count, htruncated, rfl⟩

/-- Stripping and truncating keep every event. -/
theorem view_unmerged (law : codec.Lawful) {config : RepairConfig}
    {messages truncated : List ChatMessage} {count : ℕ}
    (h : unmerged codec config messages = some (truncated, count)) :
    truncated.map (view codec) = (pairMessages codec config messages).map (view codec) := by
  have hstrip : (untruncated codec config messages).map (view codec) =
      (pairMessages codec config messages).map (view codec) := by
    rw [untruncated, view_runIf id (view_stripToolResultDetails law _)]
    simp
  rw [← hstrip]
  unfold unmerged at h
  split at h
  · exact view_truncateOversizedResults law h
  · cases h
    rfl

/-! ### The repaired history -/

/-- Calls and results are paired as far as the passes go. -/
structure Paired (codec : JsonCodec) (messages : List ChatMessage) : Prop where
  /-- Every tool result answers an id that some assistant message names. -/
  owned : ∀ msg ∈ messages, ∀ id, isResultFor codec id msg = true →
    ∃ asst ∈ messages, id ∈ collectToolUseIds codec asst.content asst.role
  /-- Between two assistant messages no id is answered twice. -/
  unrepeated : ∀ stretch, stretch <:+: messages → (∀ msg ∈ stretch, msg.role ≠ .assistant) →
    ∀ id, stretch.countP (isResultFor codec id) ≤ 1
  /-- Every call of the last assistant message is answered exactly once after it. -/
  answered : ∀ before asst after, messages = before ++ asst :: after →
    asst.role = .assistant → (∀ msg ∈ after, msg.role ≠ .assistant) →
    ∀ id ∈ collectToolUseIdsInto codec asst.content [],
      after.countP (isResultFor codec id) = 1

theorem countP_isResultFor (id : String) (messages : List ChatMessage) :
    (messages.map (view codec)).countP (CallEvent.answers id) =
      messages.countP (isResultFor codec id) := by
  rw [List.countP_map]
  exact congrArg (fun p => messages.countP p) (funext (answers_view id))

theorem mem_result_iff {id : String} {messages : List ChatMessage} :
    CallEvent.result id ∈ messages.map (view codec) ↔
      ∃ msg ∈ messages, isResultFor codec id msg = true := by
  rw [List.mem_map]
  refine exists_congr fun msg => and_congr_right fun _ => ?_
  rw [← answers_view]
  cases view codec msg <;> simp [CallEvent.answers, eq_comm]

/-- What the events say is what the messages say. -/
theorem paired_of_events {messages : List ChatMessage}
    (howned : CallEvent.Owned (messages.map (view codec)))
    (hanswered : CallEvent.unanswered [] (messages.map (view codec)) = [])
    (hfresh : CallEvent.Fresh [] (messages.map (view codec))) : Paired codec messages := by
  have hunrepeated : ∀ stretch, stretch <:+: messages →
      (∀ msg ∈ stretch, msg.role ≠ .assistant) →
      ∀ id, stretch.countP (isResultFor codec id) ≤ 1 := by
    intro stretch hin hstretch id
    rw [← countP_isResultFor]
    exact CallEvent.countP_answers_le_one hfresh (hin.map _)
      (by simpa [isCall_view] using hstretch) id
  refine ⟨fun msg hmsg id hid => ?_, hunrepeated, ?_⟩
  · have hknown := howned id (mem_result_iff.mpr ⟨msg, hmsg, hid⟩)
    rw [known_map_view] at hknown
    exact List.mem_flatMap.mp hknown
  · rintro before asst after rfl hasst hafter id hid
    have hle := hunrepeated after ⟨before ++ [asst], [], by simp⟩ hafter id
    suffices hsome : after.any (isResultFor codec id) = true by
      obtain ⟨msg, hmsg, hres⟩ := List.any_eq_true.mp hsome
      have := List.countP_pos_iff.mpr ⟨msg, hmsg, hres⟩
      omega
    rw [List.map_append, CallEvent.unanswered_append, List.map_cons, view_assistant hasst,
      CallEvent.unanswered,
      CallEvent.unanswered_of_not_isCall (by simpa [isCall_view] using hafter),
      List.filter_eq_nil_iff] at hanswered
    have hid' := hanswered id hid
    rw [List.any_map, show CallEvent.answers id ∘ view codec = isResultFor codec id from
      funext (answers_view id)] at hid'
    simpa using hid'

/-- **Calls and results are paired in every repaired history** whose turns are not merged:
every result is owned, no id is answered twice between two assistant messages, and the
calls of the last assistant message are answered exactly once. -/
theorem repairTranscript_paired (law : codec.Lawful) {config : RepairConfig}
    (orphans : config.repairOrphans = true) (toolUse : config.repairOrphanedToolUse = true)
    (duplicates : config.removeDuplicateResults = true)
    (alternation : config.enforceAlternation = false) {messages out : List ChatMessage}
    {result : RepairResult} (h : repairTranscript codec messages config = some (out, result)) :
    Paired codec out := by
  obtain ⟨truncated, count, htruncated, hout⟩ := repairTranscript_eq_some h
  have hmerge : out = truncated := by
    rw [hout, runIf, alternation]
    rfl
  have hview := view_unmerged law htruncated
  rw [← hmerge] at hview
  obtain ⟨howned, hanswered, hfresh⟩ := pairMessages_events law config messages
  rw [← hview] at howned hanswered hfresh
  exact paired_of_events (howned orphans) (hanswered toolUse) (hfresh duplicates)

/-- An assistant message that calls `x`. -/
def callX : ChatMessage :=
  .new .assistant "[\x7b\"type\":\"tool_use\",\"id\":\"x\"\x7d]"

/-- A tool result for `x`. -/
def resultX : ChatMessage := .new .tool "\x7b\"tool_call_id\":\"x\",\"content\":\"ok\"\x7d"

/-- The call is answered, and its duplicate result removed. -/
theorem repairTranscript_paired_call :
    repairForAnthropic Json.compactJson [resultX, callX, resultX, resultX] =
      some ([resultX, callX, resultX], { duplicatesRemoved := 1 }) ∧
    Paired Json.compactJson [resultX, callX, resultX] := by
  have h : repairForAnthropic Json.compactJson [resultX, callX, resultX, resultX] =
      some ([resultX, callX, resultX], { duplicatesRemoved := 1 }) := by decide +kernel
  exact ⟨h, repairTranscript_paired Json.compactJson_lawful rfl rfl rfl rfl h⟩

/-- A call that is not the last assistant message's may stay without a result, and a
result may stand before its call, or answer an id that is named but not called. -/
theorem repair_leaves_unanswered :
    let namesY := ChatMessage.new .assistant "\x7b\"tool_call_id\":\"y\"\x7d"
    let resultY := ChatMessage.new .tool "\x7b\"tool_call_id\":\"y\",\"content\":\"ok\"\x7d"
    repairForAnthropic Json.compactJson [resultX, callX, namesY, resultY] =
        some ([resultX, callX, namesY, resultY], {}) ∧
      collectToolUseIdsInto Json.compactJson callX.content [] = ["x"] ∧
      [namesY, resultY].countP (isResultFor Json.compactJson "x") = 0 ∧
      collectToolUseIdsInto Json.compactJson namesY.content [] = [] ∧
      isResultFor Json.compactJson "x" resultX = true ∧
      isResultFor Json.compactJson "y" resultY = true := by
  decide +kernel

end View

end ClawDesk.Agents
