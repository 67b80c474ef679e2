import ClawDesk.Threads.ConcurrentCalls

/-!
# The balance of a call

Every access of a call adds to balances, by what it writes and what the call has read before.
A call that has finished balances (`total_messageGain`, `total_threadGain`, `total_indexGain`),
provided that the counts it has read can be written back changed by one.
-/

namespace ClawDesk.Threads

open Foundations

variable {t : Uuid} {agent : String} {us : ℕ} {l : List (Sigma Access.Res)}

/-! ### What every access contributes -/

/-- To the global counter, compared with the messages. -/
def messageGain : Sigma Access.Res → List (Sigma Access.Res) → ℤ
  | ⟨.put (.counter .messages) n, _⟩, earlier => (n : ℤ) - lastCounter .messages earlier
  | ⟨.put (.message _ _ _) _, _⟩, _ => -1
  | ⟨.delete (.message _ _ _), _⟩, _ => 1
  | _, _ => 0

/-- To the count of a thread, compared with its messages. -/
def threadGain (t : Uuid) : Sigma Access.Res → List (Sigma Access.Res) → ℤ
  | ⟨.put (.thread id) metadata, _⟩, earlier => if id = t then
      (metadata.messageCount : ℤ) - (lastThread t earlier).elim 0 ThreadMeta.messageCount else 0
  | ⟨.put (.message t' _ _) _, _⟩, _ => if t' = t then -1 else 0
  | ⟨.delete (.message t' _ _), _⟩, _ => if t' = t then 1 else 0
  | _, _ => 0

/-- Is this the index entry of the record? -/
def ThreadMeta.entry (metadata : ThreadMeta) (agent : String) (us : ℕ) : ℤ :=
  if metadata.agentId = agent ∧ timestampMicros metadata.updatedAt = us then 1 else 0

/-- To the entry that the record has, compared with what is in the index. -/
def indexGain (t : Uuid) (agent : String) (us : ℕ) :
    Sigma Access.Res → List (Sigma Access.Res) → ℤ
  | ⟨.put (.thread id) metadata, _⟩, earlier => if id = t then
      metadata.entry agent us - (lastThread t earlier).elim 0 (·.entry agent us) else 0
  | ⟨.put (.idxAgentThread agent' us' t') _, _⟩, _ =>
      if t' = t ∧ agent' = agent ∧ us' = us then -1 else 0
  | ⟨.delete (.idxAgentThread agent' us' t'), _⟩, _ =>
      if t' = t ∧ agent' = agent ∧ us' = us then 1 else 0
  | _, _ => 0

/-! ### Calls that balance -/

/-- The count in a record can be written, and an updater keeps it and the agent. -/
def Call.FitsThread : Call → ThreadMeta → Prop
  | .appendMessage _, metadata => metadata.messageCount + 1 < 2 ^ 64
  | .deleteMessage _ _ _, metadata => metadata.messageCount ≠ 0
  | .updateThread _ updater _, metadata => (updater.apply metadata).agentId = metadata.agentId ∧
      (updater.apply metadata).messageCount = metadata.messageCount

/-- The global counter can be written. -/
def Call.FitsCounter : Call → ℕ → Prop
  | .appendMessage _, n => n + 1 < 2 ^ 64
  | .deleteMessage _ _ _, n => n ≠ 0
  | .updateThread _ _ _, _ => True

instance Call.decidableFitsThread (metadata : ThreadMeta) :
    ∀ call : Call, Decidable (call.FitsThread metadata)
  | .appendMessage _ => inferInstanceAs (Decidable (metadata.messageCount + 1 < 2 ^ 64))
  | .deleteMessage _ _ _ => inferInstanceAs (Decidable (metadata.messageCount ≠ 0))
  | .updateThread _ updater _ => inferInstanceAs (Decidable
      ((updater.apply metadata).agentId = metadata.agentId ∧
        (updater.apply metadata).messageCount = metadata.messageCount))

instance Call.decidableFitsCounter (n : ℕ) : ∀ call : Call, Decidable (call.FitsCounter n)
  | .appendMessage _ => inferInstanceAs (Decidable (n + 1 < 2 ^ 64))
  | .deleteMessage _ _ _ => inferInstanceAs (Decidable (n ≠ 0))
  | .updateThread _ _ _ => isTrue trivial

/-- …of what the call has read. -/
def Call.Fits (call : Call) : Sigma Access.Res → List (Sigma Access.Res) → Prop
  | ⟨.put (.thread id) _, _⟩, earlier => ∀ metadata, lastThread id earlier = some metadata →
      call.FitsThread metadata
  | ⟨.put (.counter .messages) _, _⟩, earlier => call.FitsCounter (lastCounter .messages earlier)
  | _, _ => True

theorem total_messageGain {call : Call} (h : call.program.Trace l ())
    (hfits : Along call.Fits l.reverse) : total messageGain l.reverse = 0 := by
  cases call with
  | appendMessage m =>
      obtain ⟨n, htouch⟩ := trace_appendMessage h
      cases htouch <;>
        simp [counterPath, putThreadPath, Along, total, Call.Fits, messageGain, lastCounter,
          Call.FitsCounter] at hfits ⊢ <;> omega
  | deleteMessage t ts m =>
      cases trace_deleteMessage h with
      | missing => rfl
      | stored msg n hreduce =>
          cases hreduce <;> cases msg.hasAttachment <;>
            simp [counterPath, Along, total, Call.Fits, messageGain, lastCounter,
              Call.FitsCounter] at hfits ⊢ <;> omega
  | updateThread id updater now =>
      cases trace_updateThread h <;> rfl

/-- The record of the thread is found. -/
def Finds (t : Uuid) : Sigma Access.Res → List (Sigma Access.Res) → Prop
  | ⟨.get (.thread id), r⟩, _ => id = t → r ≠ none
  | _, _ => True

theorem total_threadGain {call : Call} (h : call.program.Trace l ())
    (hfits : Along call.Fits l.reverse) (hfinds : Along (Finds t) l.reverse) :
    total (threadGain t) l.reverse = 0 := by
  cases call with
  | appendMessage m =>
      obtain ⟨n, htouch⟩ := trace_appendMessage h
      by_cases ht : m.threadId = t
      · subst ht
        cases htouch <;>
          simp [counterPath, putThreadPath, Along, Finds, total, Call.Fits, threadGain, lastThread,
            Call.FitsThread, ThreadMeta.touched] at hfits hfinds ⊢
        omega
      · cases htouch <;> simp [counterPath, putThreadPath, total, threadGain, ht]
  | deleteMessage t' ts m =>
      cases trace_deleteMessage h with
      | missing => rfl
      | stored msg n hreduce =>
          by_cases ht : t' = t
          · subst ht
            cases hflag : msg.hasAttachment <;> cases hreduce <;>
              simp [counterPath, Along, Finds, total, Call.Fits, threadGain, lastThread,
                Call.FitsThread, ThreadMeta.reduced, hflag] at hfits hfinds ⊢ <;> omega
          · cases msg.hasAttachment <;> cases hreduce <;>
              simp [counterPath, total, threadGain, ht]
  | updateThread id updater now =>
      cases trace_updateThread h with
      | missing => rfl
      | stored metadata =>
        by_cases ht : id = t
        · subst ht
          simp [putThreadPath, Along, total, Call.Fits, threadGain, lastThread, Call.FitsThread,
            ThreadMeta.updated] at hfits ⊢
          omega
        · simp [putThreadPath, total, threadGain, ht]

theorem total_indexGain {call : Call} (h : call.program.Trace l ())
    (hfits : Along call.Fits l.reverse) : total (indexGain t agent us) l.reverse = 0 := by
  cases call with
  | appendMessage m =>
      obtain ⟨n, htouch⟩ := trace_appendMessage h
      by_cases ht : m.threadId = t
      · subst ht
        cases htouch <;>
          simp [counterPath, putThreadPath, total, indexGain, lastThread, ThreadMeta.touched,
            ThreadMeta.entry]
        split_ifs <;> rfl
      · cases htouch <;> simp [counterPath, putThreadPath, total, indexGain, ht]
  | deleteMessage t' ts m =>
      cases trace_deleteMessage h with
      | missing => rfl
      | stored msg n hreduce =>
          by_cases ht : t' = t
          · subst ht
            cases msg.hasAttachment <;> cases hreduce <;>
              simp [counterPath, total, indexGain, lastThread, ThreadMeta.reduced,
                ThreadMeta.entry]
          · cases msg.hasAttachment <;> cases hreduce <;>
              simp [counterPath, total, indexGain, ht]
  | updateThread id updater now =>
      cases trace_updateThread h with
      | missing => rfl
      | stored metadata =>
        by_cases ht : id = t
        · subst ht
          simp [putThreadPath, Along, Call.Fits, lastThread, Call.FitsThread] at hfits
          simp [putThreadPath, total, indexGain, lastThread, ThreadMeta.updated, ThreadMeta.entry,
            hfits.1]
          split_ifs <;> rfl
        · simp [putThreadPath, total, indexGain, ht]

/-! ### Other facts about calls -/

/-- Does the access leave the records of threads and the counters in place? -/
def Access.isMild : Access → Bool
  | .delete (.thread _) => false
  | .delete (.counter _) => false
  | _ => true

theorem isMild_of_trace {call : Call} (h : call.program.Trace l ()) :
    ∀ e ∈ l, e.1.isMild = true := by
  cases call with
  | appendMessage m =>
      obtain ⟨n, htouch⟩ := trace_appendMessage h
      cases htouch <;> simp [counterPath, putThreadPath, Access.isMild]
  | deleteMessage t ts m =>
      cases trace_deleteMessage h with
      | missing => simp [Access.isMild]
      | stored msg n hreduce =>
          cases hreduce <;> cases msg.hasAttachment <;> simp [counterPath, Access.isMild]
  | updateThread id updater now =>
      cases trace_updateThread h <;> simp [putThreadPath, Access.isMild]

/-- Does the access change the index entries of the thread? -/
def Access.indexes (t : Uuid) : Access → Bool
  | .put (.idxAgentThread _ _ t') _ => t' = t
  | .delete (.idxAgentThread _ _ t') => t' = t
  | _ => false

/-- A call that deletes an index entry puts one after that. -/
theorem find?_indexes_of_trace {call : Call} (h : call.program.Trace l ()) {e : Sigma Access.Res}
    (he : l.reverse.find? (fun e => e.1.indexes t) = some e) :
    ∃ agent us, e.1 = .put (.idxAgentThread agent us t) () := by
  cases call with
  | appendMessage m =>
      obtain ⟨n, htouch⟩ := trace_appendMessage h
      by_cases ht : m.threadId = t
      · subst ht
        cases htouch <;>
          simp [counterPath, putThreadPath, Access.indexes] at he
        subst he
        exact ⟨_, _, rfl⟩
      · cases htouch <;> simp [counterPath, putThreadPath, Access.indexes, ht] at he
  | deleteMessage t' ts m =>
      cases trace_deleteMessage h with
      | missing => cases he
      | stored msg n hreduce =>
          cases hflag : msg.hasAttachment <;> cases hreduce <;>
            simp [counterPath, Access.indexes, hflag] at he
  | updateThread id updater now =>
      cases trace_updateThread h with
      | missing => cases he
      | stored metadata =>
          by_cases ht : id = t
          · subst ht
            simp [putThreadPath, Access.indexes] at he
            subst he
            exact ⟨_, _, rfl⟩
          · simp [putThreadPath, Access.indexes, ht] at he

/-- A field that the store does not maintain itself. -/
def Unmaintained {β : Type} (φ : ThreadMeta → β) : Prop :=
  ∀ (metadata : ThreadMeta) n u, φ { metadata with messageCount := n, updatedAt := u } = φ metadata

/-- The field of the thread is written as it was read. -/
def KeepsField {β : Type} (φ : ThreadMeta → β) (id : Uuid) :
    Sigma Access.Res → List (Sigma Access.Res) → Prop
  | ⟨.put (.thread id') metadata, _⟩, earlier =>
      id' = id → ∀ old, lastThread id earlier = some old → φ metadata = φ old
  | _, _ => True

/-- Only an updater of the thread changes such a field. -/
theorem keepsField_of_trace {β : Type} {φ : ThreadMeta → β} (hφ : Unmaintained φ) {id : Uuid}
    {call : Call} (h : call.program.Trace l ())
    (hcall : ∀ updater now, call ≠ .updateThread id updater now) :
    Along (KeepsField φ id) l.reverse := by
  cases call with
  | appendMessage m =>
      obtain ⟨n, htouch⟩ := trace_appendMessage h
      cases htouch with
      | missing => simp [counterPath, Along, KeepsField]
      | stored metadata =>
          simp [counterPath, putThreadPath, Along, KeepsField, lastThread]
          rintro rfl
          exact hφ metadata _ _
  | deleteMessage t ts m =>
      cases trace_deleteMessage h with
      | missing => exact ⟨trivial, trivial⟩
      | stored msg n hreduce =>
          cases hreduce with
          | missing =>
            cases msg.hasAttachment <;> simp [counterPath, Along, KeepsField]
          | stored metadata =>
            cases msg.hasAttachment <;> simp [counterPath, Along, KeepsField, lastThread] <;>
              (rintro rfl; exact hφ metadata _ _)
  | updateThread id' updater now =>
      cases trace_updateThread h with
      | missing => exact ⟨trivial, trivial⟩
      | stored metadata =>
          have hne : id' ≠ id := by
            rintro rfl
            exact hcall updater now rfl
          simp [putThreadPath, Along, KeepsField, hne]

end ClawDesk.Threads
