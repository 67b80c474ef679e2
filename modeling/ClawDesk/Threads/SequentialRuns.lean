import ClawDesk.Threads.Upkeep

/-!
# One procedure after the other

A run is a list of operations on an empty store.  Its counts and indexes are right after every
operation, and every listing by agent is exact, precisely if no message is appended to a thread
that does not exist, no updater changes the agent or the count, no counter overflows, and no
listing is for an agent whose prefix picks out threads of others (`consistent_iff`).
-/

namespace ClawDesk.Threads

open Foundations

variable {w : World} {id t m : Uuid} {ts us : ℕ} {agent : String} {metadata : ThreadMeta}

/-! ### Listing by agent -/

/-- All threads of an agent. -/
def agentQuery (agent : String) (sort : SortOrder) : ThreadQuery where
  agentId := some agent
  includeArchived := true
  limit := none
  offset := 0
  sort := sort

/-- The listing has exactly the threads whose agent is `agent`, each once. -/
def Lists (w : World) (agent : String) (out : List ThreadSummary) : Prop :=
  out.Nodup ∧ ∀ s, s ∈ out ↔ ∃ id metadata, w.lookup (.thread id) = some metadata ∧
    metadata.agentId = agent ∧ metadata.summary = s

/-- The metadata that an index entry points to. -/
def World.indexed (w : World) (e : Sigma Key.Val) : Option ThreadMeta :=
  (Key.extractThreadId e.1.text).bind fun id => w.lookup (.thread id)

theorem eval_fetchThreads (entries : List (Sigma Key.Val)) :
    (fetchThreads entries).eval World.serve w = (entries.filterMap w.indexed, w) := by
  induction entries with
  | nil => rfl
  | cons e entries ih =>
      cases hid : Key.extractThreadId e.1.text with
      | none =>
          rw [fetchThreads, hid, List.filterMap_cons_none (by rw [World.indexed, hid]; rfl)]
          exact ih
      | some id =>
          simp only [fetchThreads, hid, getThread, Prog.bind_eq, Prog.ask_bind, Prog.eval_op,
            World.serve, Prog.eval_bind, ih, Prog.pure_eq, Prog.eval_ret]
          cases hm : w.lookup (.thread id) with
          | none =>
              rw [List.filterMap_cons_none (by rw [World.indexed, hid, Option.bind_some, hm])]
              rfl
          | some metadata =>
              rw [List.filterMap_cons_some (b := metadata)
                (by rw [World.indexed, hid, Option.bind_some, hm])]
              rfl

/-- Sorting only moves the threads that the index points to. -/
theorem answer_listThreads (w : World) (agent : String) (sort : SortOrder) :
    (w.answer (listThreads (agentQuery agent sort))).Perm
      (((w.scan (Key.idxAgentPrefix agent)).filterMap w.indexed).map ThreadMeta.summary) := by
  simp only [World.answer, listThreads, rawThreads, agentQuery, Prog.bind_eq, Prog.ask_bind,
    Prog.eval_op, World.serve, Prog.eval_bind, eval_fetchThreads, Prog.pure_eq, Prog.eval_ret,
    Bool.true_or, List.filter_true, Option.map_none, Option.getD_none, Nat.zero_min,
    List.take_length, List.drop_zero]
  exact (List.mergeSort_perm _ _).trans (List.mergeSort_perm _ _)

theorem after_listThreads (w : World) (agent : String) (sort : SortOrder) :
    w.after (listThreads (agentQuery agent sort)) = w := by
  simp only [World.after, listThreads, rawThreads, agentQuery, Prog.bind_eq, Prog.ask_bind,
    Prog.eval_op, World.serve, Prog.eval_bind, eval_fetchThreads, Prog.pure_eq, Prog.eval_ret]

/-- The entries that a listing by agent reads, and what they point to. -/
theorem Kept.indexed (h : Kept 0 w) {e : Sigma Key.Val}
    (he : e ∈ w.scan (Key.idxAgentPrefix agent)) : ∃ metadata, w.indexed e = some metadata ∧
      e.1 = .idxAgentThread metadata.agentId (timestampMicros metadata.updatedAt) metadata.id := by
  obtain ⟨hmem, hpre⟩ := mem_keys_scan.mp (List.mem_keys_of_mem he)
  obtain ⟨agent', us, t, hkey⟩ := Key.exists_of_prefix_idxAgent hpre
  rw [hkey] at hmem
  obtain ⟨metadata, hm, rfl, rfl⟩ := h.index.mp hmem
  refine ⟨metadata, ?_, ?_⟩
  · rw [World.indexed, hkey, Key.extractThreadId_text, Option.bind_some, hm]
  · rw [hkey, h.thread_id hm]

theorem Kept.mem_listThreads (h : Kept 0 w) {sort : SortOrder} {s : ThreadSummary} :
    s ∈ w.answer (listThreads (agentQuery agent sort)) ↔ ∃ id metadata,
      w.lookup (.thread id) = some metadata ∧ metadata.summary = s ∧
        Key.idxAgentPrefix agent <+: (Key.idxAgentThread metadata.agentId
          (timestampMicros metadata.updatedAt) id).text := by
  rw [(answer_listThreads w agent sort).mem_iff, List.mem_map]
  constructor
  · rintro ⟨metadata, hmem, rfl⟩
    obtain ⟨e, he, hindexed⟩ := List.mem_filterMap.mp hmem
    obtain ⟨metadata', hindexed', hkey⟩ := h.indexed he
    obtain rfl := Option.some.inj (hindexed.symm.trans hindexed')
    refine ⟨metadata.id, metadata, ?_, rfl, ?_⟩
    · rwa [World.indexed, hkey, Key.extractThreadId_text, Option.bind_some] at hindexed
    · rw [← hkey]
      exact (mem_scan.mp he).2
  · rintro ⟨id, metadata, hm, rfl, hpre⟩
    have hmem : .idxAgentThread metadata.agentId (timestampMicros metadata.updatedAt) id ∈ w :=
      h.index.mpr ⟨metadata, hm, rfl, rfl⟩
    obtain ⟨v, hv⟩ := List.exists_of_mem_keys (mem_keys_scan.mpr ⟨hmem, hpre⟩)
    refine ⟨metadata, List.mem_filterMap.mpr ⟨_, hv, ?_⟩, rfl⟩
    rw [World.indexed, Key.extractThreadId_text, Option.bind_some, hm]

/-- A thread is listed once, having one entry in the index. -/
theorem Kept.nodup_listThreads (h : Kept 0 w) (agent : String) (sort : SortOrder) :
    (w.answer (listThreads (agentQuery agent sort))).Nodup := by
  rw [(answer_listThreads w agent sort).nodup_iff]
  have hentries : (w.scan (Key.idxAgentPrefix agent)).Pairwise fun e e' =>
      ∀ m ∈ w.indexed e, ∀ m' ∈ w.indexed e', m.id ≠ m'.id := by
    have hkeys := List.nodupKeys_iff_pairwise.mp (nodupKeys_scan w (Key.idxAgentPrefix agent))
    refine hkeys.imp_of_mem fun {e e'} he he' hne m hm m' hm' hid => ?_
    obtain ⟨metadata, hindexed, hkey⟩ := h.indexed he
    obtain ⟨metadata', hindexed', hkey'⟩ := h.indexed he'
    obtain rfl := Option.some.inj (hindexed.symm.trans hm)
    obtain rfl := Option.some.inj (hindexed'.symm.trans hm')
    have hsame : w.indexed e = w.lookup (.thread metadata.id) := by
      rw [World.indexed, hkey, Key.extractThreadId_text, Option.bind_some]
    have hsame' : w.indexed e' = w.lookup (.thread metadata'.id) := by
      rw [World.indexed, hkey', Key.extractThreadId_text, Option.bind_some]
    rw [hindexed, hid, ← hsame', hindexed'] at hsame
    obtain rfl := Option.some.inj hsame
    exact hne (hkey.trans hkey'.symm)
  refine List.Nodup.of_map ThreadSummary.id ?_
  rw [List.map_map, List.Nodup, List.pairwise_map]
  exact hentries.filterMap _ fun e e' hne m hm m' hm' => hne m hm m' hm'

/-- **A listing by agent is exact if the agent's prefix picks out no entry of another agent.** -/
theorem Kept.lists_iff (h : Kept 0 w) {sort : SortOrder} :
    Lists w agent (w.answer (listThreads (agentQuery agent sort))) ↔
      ∀ id metadata, w.lookup (.thread id) = some metadata →
        ¬ agent.toList ++ ['/'] <+: metadata.agentId.toList ∧
          agent.toList ≠ metadata.agentId.toList ++
            '/' :: decimal 20 (timestampMicros metadata.updatedAt) := by
  rw [Lists, and_iff_right (h.nodup_listThreads agent sort)]
  simp only [h.mem_listThreads, Key.prefix_idxAgent_iff]
  constructor
  · intro hexact id metadata hm
    have hown : agent = metadata.agentId ∨ agent.toList ++ ['/'] <+: metadata.agentId.toList ∨
        agent.toList = metadata.agentId.toList ++
          '/' :: decimal 20 (timestampMicros metadata.updatedAt) → agent = metadata.agentId := by
      intro hpre
      obtain ⟨_, metadata', -, hagent, hsummary⟩ :=
        (hexact metadata.summary).mp ⟨id, metadata, hm, rfl, hpre⟩
      rw [← hagent]
      exact congrArg ThreadSummary.agentId hsummary
    constructor
    · intro hbelow
      have hlength := (hown (Or.inr (Or.inl hbelow)) ▸ hbelow).length_le
      simp at hlength
    · intro hlonger
      have hlength := congrArg List.length (hown (Or.inr (Or.inr hlonger)) ▸ hlonger)
      simp at hlength
  · intro hnone s
    constructor
    · rintro ⟨id, metadata, hm, rfl, hagent | hbelow | hlonger⟩
      · exact ⟨id, metadata, hm, hagent.symm, rfl⟩
      · exact absurd hbelow (hnone id metadata hm).1
      · exact absurd hlonger (hnone id metadata hm).2
    · rintro ⟨id, metadata, hm, rfl, rfl⟩
      exact ⟨id, metadata, hm, rfl, Or.inl rfl⟩

/-! ### Operations -/

/-- An updater that keeps the id. -/
structure Updater where
  apply : ThreadMeta → ThreadMeta
  id_apply : ∀ metadata, (apply metadata).id = metadata.id

inductive Operation where
  | createThread (id : Uuid) (now : Instant) (agentId title : String) (model : Option String)
  | appendMessage (m : NewMessage)
  | appendMessageWithAttachment (m : NewMessage) (attachment : List UInt8)
  | updateThread (id : Uuid) (updater : Updater) (now : Instant)
  | deleteMessage (threadId : Uuid) (timestampUs : ℕ) (msgId : Uuid)
  | deleteThread (id : Uuid)
  | listThreads (agent : String) (sort : SortOrder)

/-- What is stored after an operation. -/
def step (w : World) : Operation → World
  | .createThread id now agentId title model => w.after (createThread id now agentId title model)
  | .appendMessage m => w.after (appendMessage m)
  | .appendMessageWithAttachment m blob => w.after (appendMessageWithAttachment m blob)
  | .updateThread id updater now => w.after (updateThread id updater.apply now)
  | .deleteMessage t ts m => w.after (deleteMessage t ts m)
  | .deleteThread id => w.after (deleteThread id)
  | .listThreads agent sort => w.after (listThreads (agentQuery agent sort))

/-- The id of a message record. -/
def Key.messageId : Key → Option Uuid
  | .message _ _ m => some m
  | _ => none

/-- The ids that are drawn are not in use. -/
def Operation.Fresh (w : World) : Operation → Prop
  | .createThread id _ _ _ _ => .thread id ∉ w
  | .appendMessage m => ∀ k ∈ w.keys, k.messageId ≠ some m.id
  | .appendMessageWithAttachment m _ => ∀ k ∈ w.keys, k.messageId ≠ some m.id
  | _ => True

/-- The counts are right, no record is left over, and every thread has one entry in the agent
index. -/
structure Consistent (w : World) : Prop where
  threads : w.counter .threads = keyCount w Key.isThread
  messages : w.counter .messages = keyCount w Key.isMessage
  messageCount : ∀ {t metadata}, w.lookup (.thread t) = some metadata →
    metadata.messageCount = keyCount w (Key.isMessageOf t)
  messageHome : ∀ {t ts m}, .message t ts m ∈ w → .thread t ∈ w
  attachmentHome : ∀ {m}, .attachment m ∈ w → ∃ t ts, .message t ts m ∈ w ∧ .thread t ∈ w
  index : ∀ {t metadata}, w.lookup (.thread t) = some metadata → ∀ agent us,
    .idxAgentThread agent us t ∈ w ↔
      agent = metadata.agentId ∧ us = timestampMicros metadata.updatedAt

/-- What is asked of an operation: the store is consistent after it, and a listing is exact. -/
def Operation.Holds (w : World) (op : Operation) : Prop :=
  Consistent (step w op) ∧ ∀ agent sort, op = .listThreads agent sort →
    Lists w agent (w.answer (Threads.listThreads (agentQuery agent sort)))

/-- No message is appended to a thread that does not exist, an updater keeps the agent and the
count, no counter overflows, and the prefix of an agent that is listed picks out no thread of
another. -/
def Operation.Careful (w : World) : Operation → Prop
  | .createThread _ _ _ _ _ => keyCount w Key.isThread + 1 < 2 ^ 64
  | .appendMessage m => .thread m.threadId ∈ w ∧ keyCount w Key.isMessage + 1 < 2 ^ 64
  | .appendMessageWithAttachment m _ =>
      .thread m.threadId ∈ w ∧ keyCount w Key.isMessage + 1 < 2 ^ 64
  | .updateThread id updater _ => ∀ metadata ∈ w.lookup (.thread id),
      (updater.apply metadata).agentId = metadata.agentId ∧
        (updater.apply metadata).messageCount = metadata.messageCount
  | .deleteMessage _ _ _ => True
  | .deleteThread _ => True
  | .listThreads agent _ => ∀ metadata ∈ threadMetas w.entries,
      ¬ agent.toList ++ ['/'] <+: metadata.agentId.toList ∧
        agent.toList ≠ metadata.agentId.toList ++
          '/' :: decimal 20 (timestampMicros metadata.updatedAt)

instance Operation.decidableFresh (w : World) : ∀ op : Operation, Decidable (op.Fresh w)
  | .createThread id _ _ _ _ => inferInstanceAs (Decidable (Key.thread id ∉ w))
  | .appendMessage m => inferInstanceAs (Decidable (∀ k ∈ w.keys, k.messageId ≠ some m.id))
  | .appendMessageWithAttachment m _ =>
      inferInstanceAs (Decidable (∀ k ∈ w.keys, k.messageId ≠ some m.id))
  | .updateThread _ _ _ | .deleteMessage _ _ _ | .deleteThread _ | .listThreads _ _ =>
      isTrue trivial

instance Operation.decidableCareful (w : World) : ∀ op : Operation, Decidable (op.Careful w)
  | .createThread _ _ _ _ _ => inferInstanceAs (Decidable (_ + 1 < 2 ^ 64))
  | .appendMessage m => inferInstanceAs (Decidable (Key.thread m.threadId ∈ w ∧ _ + 1 < 2 ^ 64))
  | .appendMessageWithAttachment m _ =>
      inferInstanceAs (Decidable (Key.thread m.threadId ∈ w ∧ _ + 1 < 2 ^ 64))
  | .updateThread id updater _ => inferInstanceAs (Decidable (∀ metadata ∈ w.lookup (.thread id),
      (updater.apply metadata).agentId = metadata.agentId ∧
        (updater.apply metadata).messageCount = metadata.messageCount))
  | .listThreads agent _ => inferInstanceAs (Decidable (∀ metadata ∈ threadMetas w.entries,
      ¬ agent.toList ++ ['/'] <+: metadata.agentId.toList ∧
        agent.toList ≠ metadata.agentId.toList ++
          '/' :: decimal 20 (timestampMicros metadata.updatedAt)))
  | .deleteMessage _ _ _ | .deleteThread _ => isTrue trivial

theorem mem_threadMetas : metadata ∈ threadMetas w.entries ↔
    ∃ id, w.lookup (.thread id) = some metadata := by
  rw [threadMetas, List.mem_filterMap]
  constructor
  · rintro ⟨⟨k, v⟩, hmem, hk⟩
    cases k with
    | thread id =>
        obtain rfl := Option.some.inj hk
        exact ⟨id, AList.mem_lookup_iff.mpr hmem⟩
    | _ => cases hk
  · rintro ⟨id, hm⟩
    exact ⟨⟨.thread id, metadata⟩, AList.mem_lookup_iff.mp hm, rfl⟩

theorem forall_message_notMem {m : Uuid} (h : ∀ k ∈ w.keys, k.messageId ≠ some m) (t : Uuid)
    (ts : ℕ) : .message t ts m ∉ w :=
  fun hmem => h _ (AList.mem_keys.mp hmem) rfl

theorem Kept.consistent (h : Kept 0 w) : Consistent w where
  threads := h.counter_eq .threads
  messages := h.counter_eq .messages
  messageCount := h.messageCount_eq
  messageHome := h.home
  attachmentHome hatt := by
    obtain ⟨t, ts, msg, hmsg, -⟩ := h.attachment hatt
    have hmem : .message t ts _ ∈ w := AList.lookup_isSome.mp (by rw [hmsg]; rfl)
    exact ⟨t, ts, hmem, h.home hmem⟩
  index {t metadata} hm agent us := by
    rw [h.index, hm]
    constructor
    · rintro ⟨metadata', heq, rfl, rfl⟩
      obtain rfl := Option.some.inj heq
      exact ⟨rfl, rfl⟩
    · rintro ⟨rfl, rfl⟩
      exact ⟨metadata, rfl, rfl, rfl⟩

/-- A careful operation pays its debts. -/
theorem Kept.step {op : Operation} (h : Kept 0 w) (hfresh : op.Fresh w) (hop : op.Careful w) :
    Kept 0 (Threads.step w op) := by
  cases op with
  | createThread id now agentId title model =>
      exact h.createThread hfresh hop now agentId title model
  | appendMessage m => exact h.appendMessage (forall_message_notMem hfresh) hop.1 hop.2
  | appendMessageWithAttachment m blob =>
      exact h.appendMessageWithAttachment (forall_message_notMem hfresh) hop.1 hop.2 blob
  | updateThread id updater now => exact h.updateThread updater.apply now updater.id_apply hop
  | deleteMessage t ts m => exact h.deleteMessage t ts m
  | deleteThread id => exact h.deleteThread id
  | listThreads agent sort => rwa [Threads.step, after_listThreads]

/-! ### Operations that are not careful -/

theorem Consistent.of_createThread {now : Instant} {agentId title : String}
    {model : Option String}
    (hafter : Consistent (w.after (createThread id now agentId title model)))
    (hfresh : .thread id ∉ w) : keyCount w Key.isThread + 1 < 2 ^ 64 := by
  have hcount : keyCount (w.after (createThread id now agentId title model)) Key.isThread =
      keyCount w Key.isThread + 1 := by
    rw [after_createThread]
    exact (keyCount_incrementCounter _ _ (.stored .threads)).trans (keyCount_newThread hfresh)
  have hcounter := hafter.threads
  rw [hcount, after_createThread, counter_incrementCounter] at hcounter
  rw [← hcounter]
  exact Nat.mod_lt _ (by positivity)

/-- A message is stored before its thread is looked for. -/
theorem Consistent.of_append {w' : World} (now : Instant)
    (hafter : Consistent (World.after (w'.after (touchThread t now)) (incrementCounter .messages)))
    (hmem : .message t ts m ∈ w') : .thread t ∈ w' ∧ keyCount w' Key.isMessage < 2 ^ 64 := by
  constructor
  · have hstays : .message t ts m ∈
        World.after (w'.after (touchThread t now)) (incrementCounter .messages) := by
      rwa [mem_congr (lookup_incrementCounter (by simp)),
        mem_congr (lookup_touchThread (by simp) (by simp) now)]
    have hhome := hafter.messageHome hstays
    rwa [mem_congr (lookup_incrementCounter (by simp)), mem_touchThread] at hhome
  · have hcounter := hafter.messages
    have hkeys : keyCount (World.after (w'.after (touchThread t now))
        (incrementCounter .messages)) Key.isMessage = keyCount w' Key.isMessage :=
      (keyCount_incrementCounter _ _ (.stored .messages)).trans
        (keyCount_touchThread w' t now (.stored .messages))
    rw [hkeys, counter_incrementCounter] at hcounter
    rw [← hcounter]
    exact Nat.mod_lt _ (by positivity)

theorem Consistent.of_updateThread {updater : ThreadMeta → ThreadMeta} {now : Instant}
    (hafter : Consistent (w.after (updateThread id updater now))) (h : Kept 0 w)
    (hm : w.lookup (.thread id) = some metadata) :
    (updater metadata).agentId = metadata.agentId ∧
      (updater metadata).messageCount = metadata.messageCount := by
  rw [after_updateThread_of_stored updater now hm] at hafter
  have hself := lookup_putThread_thread w id metadata.updatedAt
    { updater metadata with updatedAt := now }
  constructor
  · by_contra hmoved
    -- the old entry is deleted under the new agent
    have hold : .idxAgentThread metadata.agentId (timestampMicros metadata.updatedAt) id ∈
        w.putThread id metadata.updatedAt { updater metadata with updatedAt := now } := by
      rw [mem_putThread_index]
      exact Or.inr ⟨fun hsame => hmoved hsame.1, h.index.mpr ⟨metadata, hm, rfl, rfl⟩⟩
    exact hmoved ((hafter.index hself _ _).mp hold).1.symm
  · have hcount := hafter.messageCount hself
    have hthread : Key.thread id ∈ w := AList.lookup_isSome.mp (by rw [hm]; rfl)
    rw [h.messageCount_eq hm]
    exact hcount.trans (keyCount_putThread hthread _ _ (.messagesOf id))

/-- **What holds after an operation says how it was called.** -/
theorem Operation.holds_iff {op : Operation} (h : Kept 0 w) (hfresh : op.Fresh w) :
    op.Holds w ↔ op.Careful w := by
  constructor
  · rintro ⟨hafter, hlists⟩
    cases op with
    | createThread id now agentId title model => exact hafter.of_createThread hfresh
    | appendMessage m =>
        rw [Threads.step, after_appendMessage] at hafter
        obtain ⟨ht, hfits⟩ := hafter.of_append _ (AList.mem_insert w |>.mpr (Or.inl rfl))
        rw [keyCount_insert_new (forall_message_notMem hfresh)] at hfits
        exact ⟨by simpa using ht, hfits⟩
    | appendMessageWithAttachment m blob =>
        rw [Threads.step, after_appendMessageWithAttachment] at hafter
        obtain ⟨ht, hfits⟩ := hafter.of_append _ (by
          rw [AList.mem_insert, AList.mem_insert]
          exact Or.inr (Or.inl rfl))
        rw [keyCount_insert_of_neg rfl, keyCount_insert_new (forall_message_notMem hfresh)] at hfits
        exact ⟨by simpa using ht, hfits⟩
    | updateThread id updater now => exact fun metadata hm => hafter.of_updateThread h hm
    | deleteMessage t ts m => trivial
    | deleteThread id => trivial
    | listThreads agent sort =>
        intro metadata hmem
        obtain ⟨id, hm⟩ := mem_threadMetas.mp hmem
        exact h.lists_iff.mp (hlists agent sort rfl) id metadata hm
  · intro hop
    refine ⟨(h.step hfresh hop).consistent, ?_⟩
    rintro agent sort rfl
    exact h.lists_iff.mpr fun id metadata hm => hop metadata (mem_threadMetas.mpr ⟨id, hm⟩)

/-- **The counts, the homes and the index entries are right after every operation of a run, and
every listing is exact, precisely if every operation is careful.** -/
theorem consistent_iff (ops : List Operation)
    (hfresh : EachStep step ∅ ops fun w op => op.Fresh w) :
    EachStep step ∅ ops (fun w op => op.Holds w) ↔ EachStep step ∅ ops fun w op => op.Careful w :=
  eachStep_congr (Kept 0) hfresh kept_empty (fun _ _ h hop hcareful => h.step hop hcareful)
    fun _ _ h hop => Operation.holds_iff h hop

/-! ### Two runs -/

namespace Session

def greeting : NewMessage where
  id := 7
  threadId := 1
  role := .user
  content := "hello"
  metadata := none
  now := 2000
  touched := 3000

def reply : NewMessage where
  id := 8
  threadId := 1
  role := .assistant
  content := "hi"
  metadata := none
  now := 4000
  touched := 5000

def rename : Updater := ⟨fun metadata => { metadata with title := "greetings" }, fun _ => rfl⟩

def moveAway : Updater := ⟨fun metadata => { metadata with agentId := "b" }, fun _ => rfl⟩

/-- A thread and two messages, one of them with an attachment; all are deleted again. -/
def conversation : List Operation :=
  [.createThread 1 1000 "a" "new" none, .appendMessage greeting,
    .appendMessageWithAttachment reply [104, 105], .updateThread 1 rename 6000,
    .listThreads "a" .updatedDesc, .deleteMessage 1 2 7, .deleteThread 1]

theorem consistent_conversation : EachStep step ∅ conversation fun w op => op.Holds w :=
  (consistent_iff conversation (by decide +kernel)).mpr (by decide +kernel)

/-- A thread is moved to another agent. -/
def move : List Operation := [.createThread 1 1000 "a" "new" none, .updateThread 1 moveAway 2000]

theorem not_consistent_move : EachStep step ∅ move (fun w op => op.Fresh w) ∧
    ¬ EachStep step ∅ move fun w op => op.Holds w := by
  refine ⟨by decide +kernel, ?_⟩
  intro h
  have hkept : Kept 0 (step ∅ (.createThread 1 1000 "a" "new" none)) :=
    kept_empty.step (by decide +kernel) (by decide +kernel)
  have hmoved := h [.createThread 1 1000 "a" "new" none] (.updateThread 1 moveAway 2000) [] rfl
  have hfresh : Operation.Fresh (step ∅ (.createThread 1 1000 "a" "new" none))
      (.updateThread 1 moveAway 2000) := trivial
  exact absurd ((Operation.holds_iff hkept hfresh).mp hmoved) (by decide +kernel)

end Session

end ClawDesk.Threads
