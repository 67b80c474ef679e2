import ClawDesk.Foundations.Fold
import ClawDesk.Threads.Consistency

/-!
# The procedures of the thread store, run alone

Every procedure pays all the debts it makes, where its counters do not overflow, the thread
that it appends to exists and an updater leaves the agent and the count alone
(`Kept.createThread`, `Kept.appendMessage`, `Kept.updateThread`, `Kept.deleteMessage`,
`Kept.deleteThread`).
-/

namespace ClawDesk.Threads

open Foundations

variable {w : World} {id t m : Uuid} {ts us : ℕ} {metadata : ThreadMeta} {msg : Message}
  {c : Counter} {debts : Tally → ℤ} {α β : Type}

/-- What a procedure leaves when it runs alone. -/
def World.after (w : World) (p : Proc α) : World := (p.eval World.serve w).2

/-- What it returns. -/
def World.answer (w : World) (p : Proc α) : α := (p.eval World.serve w).1

theorem after_bind (p : Proc α) (f : α → Proc β) :
    w.after (p.bind f) = (w.after p).after (f (w.answer p)) := by
  rw [World.after, Prog.eval_bind]
  rfl

/-! ### Counters -/

theorem after_incrementCounter (w : World) (c : Counter) :
    w.after (incrementCounter c) = w.insert (.counter c) ((w.counter c + 1) % 2 ^ 64) := by
  simp only [World.after, incrementCounter, readCounter, Prog.bind_eq, Prog.eval_bind]
  rfl

theorem after_decrementCounterBy (w : World) (c : Counter) (n : ℕ) :
    w.after (decrementCounterBy c n) = w.insert (.counter c) (w.counter c - n) := by
  simp only [World.after, decrementCounterBy, readCounter, Prog.bind_eq, Prog.eval_bind]
  rfl

theorem counter_incrementCounter (w : World) (c : Counter) :
    World.counter (w.after (incrementCounter c)) c = (w.counter c + 1) % 2 ^ 64 := by
  rw [after_incrementCounter, World.counter, AList.lookup_insert]
  rfl

theorem lookup_incrementCounter {k : Key} (hk : k ≠ .counter c) :
    (w.after (incrementCounter c)).lookup k = w.lookup k := by
  rw [after_incrementCounter, AList.lookup_insert_ne hk]

theorem keyCount_incrementCounter (w : World) (c : Counter) (q : Tally) :
    keyCount (w.after (incrementCounter c)) q.counts = keyCount w q.counts := by
  rw [after_incrementCounter, keyCount_insert_of_neg (by rcases q with (_ | _) | _ <;> rfl)]

theorem Kept.congr {debts' : Tally → ℤ} (h : Kept debts w) (heq : debts = debts') :
    Kept debts' w := heq ▸ h

theorem Kept.incrementCounter (h : Kept debts w) (hfits : w.counter c + 1 < 2 ^ 64) :
    Kept (debts - Pi.single (.stored c) 1) (w.after (incrementCounter c)) := by
  rw [after_incrementCounter, Nat.mod_eq_of_lt hfits]
  refine (h.insert_counter c _).congr ?_
  funext q
  rw [Pi.add_apply, Pi.sub_apply, Pi.single_apply, Pi.single_apply]
  split_ifs <;> omega

theorem Kept.decrementCounterBy {n : ℕ} (h : Kept debts w) (hn : n ≤ w.counter c) :
    Kept (debts + Pi.single (.stored c) (n : ℤ)) (w.after (decrementCounterBy c n)) := by
  rw [after_decrementCounterBy]
  refine (h.insert_counter c _).congr ?_
  funext q
  rw [Pi.add_apply, Pi.add_apply, Pi.single_apply, Pi.single_apply]
  split_ifs <;> omega

/-! ### Threads -/

theorem after_createThread (w : World) (id : Uuid) (now : Instant) (agentId title : String)
    (model : Option String) : w.after (createThread id now agentId title model) =
      World.after (w.newThread (newMeta id now agentId title model))
        (incrementCounter .threads) := by
  simp only [World.after, createThread, Prog.bind_eq, Prog.ask_bind, Prog.eval_op, Prog.eval_bind,
    Prog.pure_eq, Prog.eval_ret]
  rfl

theorem counter_newThread (w : World) (metadata : ThreadMeta) (c : Counter) :
    World.counter (w.newThread metadata) c = w.counter c := by
  rw [World.counter, World.counter, World.newThread, AList.lookup_insert_ne (by simp),
    AList.lookup_insert_ne (by simp), AList.lookup_insert_ne (by simp)]

theorem keyCount_newThread (hfresh : .thread metadata.id ∉ w) :
    keyCount (w.newThread metadata) Key.isThread = keyCount w Key.isThread + 1 := by
  rw [World.newThread, keyCount_insert_of_neg rfl, keyCount_insert_of_neg rfl,
    keyCount_insert_of_notMem hfresh rfl]

/-- Nothing is owed. -/
theorem Kept.counter_eq (h : Kept 0 w) (c : Counter) :
    w.counter c = keyCount w (Tally.counts (.stored c)) := by
  have htally := h.tally (q := .stored c) rfl
  rw [Pi.zero_apply, add_zero] at htally
  exact_mod_cast htally

theorem Kept.messageCount_eq (h : Kept 0 w) (hm : w.lookup (.thread t) = some metadata) :
    metadata.messageCount = keyCount w (Key.isMessageOf t) := by
  have htally := h.tally (q := .messagesOf t) (n := metadata.messageCount)
    (by rw [Tally.value, hm, Option.map_some])
  rw [Pi.zero_apply, add_zero] at htally
  exact_mod_cast htally

theorem Kept.createThread (h : Kept 0 w) (hfresh : .thread id ∉ w)
    (hfits : keyCount w Key.isThread + 1 < 2 ^ 64) (now : Instant) (agentId title : String)
    (model : Option String) :
    Kept 0 (w.after (createThread id now agentId title model)) := by
  have hnew : Kept (Pi.single (.stored .threads) 1)
      (w.newThread (newMeta id now agentId title model)) := h.newThread hfresh rfl
  rw [after_createThread]
  refine (hnew.incrementCounter ?_).congr (sub_self _)
  rw [counter_newThread, h.counter_eq]
  exact hfits

theorem after_updateThread_of_stored (updater : ThreadMeta → ThreadMeta) (now : Instant)
    (hm : w.lookup (.thread id) = some metadata) :
    w.after (updateThread id updater now) =
      w.putThread id metadata.updatedAt { updater metadata with updatedAt := now } := by
  simp only [World.after, updateThread, getThread, Prog.bind_eq, Prog.ask_bind, Prog.eval_op,
    World.serve, hm]
  rfl

theorem after_updateThread_of_missing (updater : ThreadMeta → ThreadMeta) (now : Instant)
    (hm : w.lookup (.thread id) = none) : w.after (updateThread id updater now) = w := by
  simp only [World.after, updateThread, getThread, Prog.bind_eq, Prog.ask_bind, Prog.eval_op,
    World.serve, hm]
  rfl

theorem Kept.updateThread (h : Kept 0 w) (updater : ThreadMeta → ThreadMeta) (now : Instant)
    (hid : ∀ m, (updater m).id = m.id)
    (hkeeps : ∀ metadata ∈ w.lookup (.thread id), (updater metadata).agentId = metadata.agentId ∧
      (updater metadata).messageCount = metadata.messageCount) :
    Kept 0 (w.after (updateThread id updater now)) := by
  cases hm : w.lookup (.thread id) with
  | none => rwa [after_updateThread_of_missing updater now hm]
  | some metadata =>
      obtain ⟨hagent, hcount⟩ := hkeeps metadata hm
      rw [after_updateThread_of_stored updater now hm]
      refine (h.putThread hm { updater metadata with updatedAt := now } (hid metadata)
        hagent).congr ?_
      rw [hcount, sub_self, Pi.single_zero, add_zero]

/-! ### Messages -/

theorem after_touchThread_of_stored (now : Instant)
    (hm : w.lookup (.thread id) = some metadata) :
    w.after (touchThread id now) = w.putThread id metadata.updatedAt
      { metadata with messageCount := (metadata.messageCount + 1) % 2 ^ 64, updatedAt := now } := by
  simp only [World.after, touchThread, getThread, Prog.bind_eq, Prog.ask_bind, Prog.eval_op,
    World.serve, hm]
  rfl

theorem after_touchThread_of_missing (now : Instant) (hm : w.lookup (.thread id) = none) :
    w.after (touchThread id now) = w := by
  simp only [World.after, touchThread, getThread, Prog.bind_eq, Prog.ask_bind, Prog.eval_op,
    World.serve, hm]
  rfl

theorem lookup_touchThread {k : Key} (hthread : k ≠ .thread t)
    (hindex : ∀ agent us, k ≠ .idxAgentThread agent us t) (now : Instant) :
    (w.after (touchThread t now)).lookup k = w.lookup k := by
  cases hm : w.lookup (.thread t) with
  | none => rw [after_touchThread_of_missing now hm]
  | some metadata =>
      rw [after_touchThread_of_stored now hm, lookup_putThread_of_ne hthread hindex]

theorem mem_touchThread (w : World) (t id : Uuid) (now : Instant) :
    .thread id ∈ w.after (touchThread t now) ↔ .thread id ∈ w := by
  by_cases heq : id = t
  · subst heq
    cases hm : w.lookup (.thread id) with
    | none => rw [after_touchThread_of_missing now hm]
    | some metadata =>
        rw [after_touchThread_of_stored now hm]
        refine iff_of_true (AList.lookup_isSome.mp ?_) (AList.lookup_isSome.mp ?_)
        · rw [lookup_putThread_thread]
          rfl
        · rw [hm]
          rfl
  · exact mem_congr (lookup_touchThread (by simpa using heq) (by simp) now)

theorem keyCount_touchThread (w : World) (t : Uuid) (now : Instant) (q : Tally) :
    keyCount (w.after (touchThread t now)) q.counts = keyCount w q.counts := by
  cases hm : w.lookup (.thread t) with
  | none => rw [after_touchThread_of_missing now hm]
  | some metadata =>
      rw [after_touchThread_of_stored now hm,
        keyCount_putThread (AList.lookup_isSome.mp (by rw [hm]; rfl))]

/-- The counts follow a message that has been stored. -/
theorem Kept.touchThread
    (h : Kept (Pi.single (.stored .messages) 1 + Pi.single (.messagesOf t) 1) w)
    (ht : .thread t ∈ w) (hfits : keyCount w Key.isMessage < 2 ^ 64) (now : Instant) :
    Kept 0 ((w.after (touchThread t now)).after (Threads.incrementCounter .messages)) := by
  obtain ⟨metadata, hm⟩ := Option.isSome_iff_exists.mp (AList.lookup_isSome.mpr ht)
  have hcount : metadata.messageCount + 1 = keyCount w (Key.isMessageOf t) := by
    have htally := h.tally (q := .messagesOf t) (n := metadata.messageCount)
      (by rw [Tally.value, hm, Option.map_some])
    rw [Pi.add_apply, Pi.single_apply, Pi.single_apply, if_neg (by simp), if_pos rfl] at htally
    exact_mod_cast htally
  have hmessages : w.counter .messages + 1 = keyCount w Key.isMessage := by
    have htally := h.tally (q := .stored .messages) (n := w.counter .messages) rfl
    rw [Pi.add_apply, Pi.single_apply, Pi.single_apply, if_pos rfl, if_neg (by simp)] at htally
    exact_mod_cast htally
  have hle : keyCount w (Key.isMessageOf t) ≤ keyCount w Key.isMessage := by
    refine keyCount_mono fun k _ hk => ?_
    cases k with
    | message _ _ _ => rfl
    | _ => cases hk
  have hsame : (w.after (Threads.touchThread t now)).counter .messages = w.counter .messages := by
    rw [World.counter, World.counter, lookup_touchThread (by simp) (by simp)]
  have htouched := h.putThread hm { metadata with
    messageCount := (metadata.messageCount + 1) % 2 ^ 64, updatedAt := now } rfl rfl
  rw [← after_touchThread_of_stored now hm] at htouched
  refine (htouched.incrementCounter (by rw [hsame]; omega)).congr ?_
  funext q
  simp only [Nat.mod_eq_of_lt (show metadata.messageCount + 1 < 2 ^ 64 by omega), Pi.add_apply,
    Pi.sub_apply, Pi.single_apply, Pi.zero_apply]
  push_cast
  split_ifs <;> omega

theorem after_appendMessage (w : World) (m : NewMessage) : w.after (appendMessage m) =
    World.after (World.after (w.insert (.message m.threadId (timestampMicros m.now) m.id)
      (m.message false)) (touchThread m.threadId m.touched)) (incrementCounter .messages) := by
  simp only [World.after, appendMessage, Prog.bind_eq, Prog.ask_bind, Prog.eval_op, Prog.eval_bind,
    Prog.pure_eq, Prog.eval_ret]
  rfl

theorem after_appendMessageWithAttachment (w : World) (m : NewMessage) (blob : List UInt8) :
    w.after (appendMessageWithAttachment m blob) =
      World.after (World.after ((w.insert (.message m.threadId (timestampMicros m.now) m.id)
        (m.message true)).insert (.attachment m.id) blob) (touchThread m.threadId m.touched))
          (incrementCounter .messages) := by
  simp only [World.after, appendMessageWithAttachment, Prog.bind_eq, Prog.ask_bind, Prog.eval_op,
    Prog.eval_bind, Prog.pure_eq, Prog.eval_ret]
  rfl

/-- The message of an id that has been drawn is stored. -/
theorem Kept.insert_new {m : NewMessage} (h : Kept 0 w) (hfresh : ∀ t ts, .message t ts m.id ∉ w)
    (ht : .thread m.threadId ∈ w) (flag : Bool) :
    Kept (Pi.single (.stored .messages) 1 + Pi.single (.messagesOf m.threadId) 1)
      (w.insert (.message m.threadId (timestampMicros m.now) m.id) (m.message flag)) :=
  (h.insert_message ht hfresh (show (m.message flag).id = m.id from rfl)).congr (by rw [zero_add])

theorem keyCount_insert_new {m : NewMessage} (hfresh : ∀ t ts, .message t ts m.id ∉ w)
    (flag : Bool) :
    keyCount (w.insert (.message m.threadId (timestampMicros m.now) m.id) (m.message flag))
      Key.isMessage = keyCount w Key.isMessage + 1 :=
  keyCount_insert_of_notMem (hfresh _ _) rfl

theorem Kept.appendMessage {m : NewMessage} (h : Kept 0 w)
    (hfresh : ∀ t ts, .message t ts m.id ∉ w) (ht : .thread m.threadId ∈ w)
    (hfits : keyCount w Key.isMessage + 1 < 2 ^ 64) : Kept 0 (w.after (appendMessage m)) := by
  rw [after_appendMessage]
  refine (h.insert_new hfresh ht false).touchThread (by simpa using ht) ?_ _
  rwa [keyCount_insert_new hfresh]

theorem Kept.appendMessageWithAttachment {m : NewMessage} (h : Kept 0 w)
    (hfresh : ∀ t ts, .message t ts m.id ∉ w) (ht : .thread m.threadId ∈ w)
    (hfits : keyCount w Key.isMessage + 1 < 2 ^ 64) (blob : List UInt8) :
    Kept 0 (w.after (appendMessageWithAttachment m blob)) := by
  rw [after_appendMessageWithAttachment]
  have hstored := (h.insert_new hfresh ht true).insert_attachment blob (AList.lookup_insert w) rfl
  refine hstored.touchThread (by simpa using ht) ?_ _
  rwa [keyCount_insert_of_neg rfl, keyCount_insert_new hfresh]

/-- What the deletion of a message leaves, but for the counts. -/
def World.dropMessage (w : World) (t : Uuid) (ts : ℕ) (m : Uuid) (msg : Message) : World :=
  (if msg.hasAttachment then w.erase (.attachment m) else w).erase (.message t ts m)

theorem Kept.dropMessage (h : Kept debts w) (hmsg : w.lookup (.message t ts m) = some msg) :
    Kept (debts - Pi.single (.stored .messages) 1 - Pi.single (.messagesOf t) 1)
      (w.dropMessage t ts m msg) := by
  have hmem : .message t ts m ∈ w := AList.lookup_isSome.mp (by rw [hmsg]; rfl)
  unfold World.dropMessage
  cases hflag : msg.hasAttachment with
  | true => exact (h.erase_attachment m).erase_message (by simpa using hmem) (by simp)
  | false =>
      refine h.erase_message hmem ?_
      intro hatt
      obtain ⟨t', ts', msg', hmsg', hflag'⟩ := h.attachment hatt
      obtain ⟨rfl, rfl⟩ := h.unique hmem (AList.lookup_isSome.mp (by rw [hmsg']; rfl))
      rw [hmsg] at hmsg'
      obtain rfl := Option.some.inj hmsg'
      rw [hflag] at hflag'
      cases hflag'

theorem lookup_dropMessage {k : Key} (hatt : k ≠ .attachment m) (hmsg : k ≠ .message t ts m) :
    (w.dropMessage t ts m msg).lookup k = w.lookup k := by
  rw [World.dropMessage, AList.lookup_erase_ne hmsg]
  split_ifs
  · exact AList.lookup_erase_ne hatt
  · rfl

theorem notMem_dropMessage : .message t ts m ∉ w.dropMessage t ts m msg := by
  rw [World.dropMessage, AList.mem_erase]
  exact fun h => h.1 rfl

theorem after_deleteMessage_of_missing (h : w.lookup (.message t ts m) = none) :
    w.after (deleteMessage t ts m) = w := by
  simp only [World.after, deleteMessage, Prog.bind_eq, Prog.ask_bind, Prog.eval_op, World.serve, h]
  rfl

theorem after_deleteMessage_of_stored (hmsg : w.lookup (.message t ts m) = some msg)
    (hm : w.lookup (.thread t) = some metadata) :
    w.after (deleteMessage t ts m) =
      World.after ((w.dropMessage t ts m msg).insert (.thread t)
        { metadata with messageCount := metadata.messageCount - 1 })
          (decrementCounterBy .messages 1) := by
  have hm' : (w.dropMessage t ts m msg).lookup (.thread t) = some metadata := by
    rw [lookup_dropMessage (by simp) (by simp), hm]
  unfold World.dropMessage at hm' ⊢
  cases hflag : msg.hasAttachment with
  | true =>
      rw [hflag, if_pos rfl] at hm'
      simp only [World.after, deleteMessage, Prog.bind_eq, Prog.ask_bind, Prog.eval_op, World.serve,
        hmsg, hflag, if_true, Prog.eval_bind, getThread, hm']
      rfl
  | false =>
      rw [hflag, if_neg (by simp)] at hm'
      simp only [World.after, deleteMessage, Prog.bind_eq, Prog.ask_bind, Prog.eval_op, World.serve,
        hmsg, hflag, Bool.false_eq_true, if_false, Prog.eval_bind, Prog.pure_eq, Prog.eval_ret,
        getThread, hm']
      rfl

theorem Kept.deleteMessage (h : Kept 0 w) (t : Uuid) (ts : ℕ) (m : Uuid) :
    Kept 0 (w.after (deleteMessage t ts m)) := by
  cases hmsg : w.lookup (.message t ts m) with
  | none => rwa [after_deleteMessage_of_missing hmsg]
  | some msg =>
      have ht : .thread t ∈ w := h.home (AList.lookup_isSome.mp (by rw [hmsg]; rfl))
      obtain ⟨metadata, hm⟩ := Option.isSome_iff_exists.mp (AList.lookup_isSome.mpr ht)
      have hm' : (w.dropMessage t ts m msg).lookup (.thread t) = some metadata := by
        rw [lookup_dropMessage (by simp) (by simp), hm]
      have hdrop := h.dropMessage hmsg
      have hcount : 1 ≤ metadata.messageCount := by
        have htally := hdrop.tally (q := .messagesOf t) (n := metadata.messageCount)
          (by rw [Tally.value, hm', Option.map_some])
        rw [Pi.sub_apply, Pi.sub_apply, Pi.single_apply, Pi.single_apply, if_neg (by simp),
          if_pos rfl, Pi.zero_apply] at htally
        omega
      have hput := hdrop.insert_thread hm'
        { metadata with messageCount := metadata.messageCount - 1 } rfl rfl rfl
      have hmessages : 1 ≤ World.counter ((w.dropMessage t ts m msg).insert (.thread t)
          { metadata with messageCount := metadata.messageCount - 1 }) .messages := by
        have htally := hput.tally (q := .stored .messages) rfl
        rw [Pi.add_apply, Pi.sub_apply, Pi.sub_apply, Pi.single_apply, Pi.single_apply,
          Pi.single_apply, if_pos rfl, if_neg (by simp), if_neg (by simp), Pi.zero_apply] at htally
        omega
      rw [after_deleteMessage_of_stored hmsg hm]
      refine (hput.decrementCounterBy hmessages).congr ?_
      funext q
      simp only [Pi.add_apply, Pi.sub_apply, Pi.single_apply, Pi.zero_apply]
      split_ifs <;> omega

/-! ### The messages of a thread -/

theorem after_deleteMessageKey (h : Kept debts w) (hmsg : w.lookup (.message t ts m) = some msg) :
    w.after (deleteMessageKey (.message t ts m)) = w.dropMessage t ts m msg := by
  have hid := h.message_id hmsg
  unfold World.dropMessage
  cases hflag : msg.hasAttachment with
  | true =>
      simp only [World.after, deleteMessageKey, Prog.bind_eq, Prog.ask_bind, Prog.eval_op,
        World.serve, hmsg, hflag, if_true, hid]
      rfl
  | false =>
      simp only [World.after, deleteMessageKey, Prog.bind_eq, Prog.ask_bind, Prog.eval_op,
        World.serve, hmsg, hflag, Bool.false_eq_true, if_false]
      rfl

/-- One message after the other is deleted. -/
theorem Kept.deleteMessageKeys {entries : List (Sigma Key.Val)} (h : Kept debts w)
    (hnodup : entries.NodupKeys)
    (hall : ∀ e ∈ entries, e.1 ∈ w ∧ ∃ ts m, e.1 = .message id ts m) :
    Kept (debts - Pi.single (.stored .messages) (entries.length : ℤ) -
        Pi.single (.messagesOf id) (entries.length : ℤ)) (w.after (deleteMessageKeys entries)) ∧
      (∀ ts m, .message id ts m ∈ w.after (deleteMessageKeys entries) →
        .message id ts m ∈ w ∧ .message id ts m ∉ entries.keys) ∧
      ∀ t, (w.after (deleteMessageKeys entries)).lookup (.thread t) = w.lookup (.thread t) := by
  induction entries generalizing w debts with
  | nil =>
      refine ⟨h.congr ?_, fun ts m hmem => ⟨hmem, List.not_mem_nil⟩, fun t => rfl⟩
      rw [List.length_nil, Nat.cast_zero, Pi.single_zero, Pi.single_zero, sub_zero, sub_zero]
  | cons e entries ih =>
      obtain ⟨hmem, ts, m, hkey⟩ := hall e List.mem_cons_self
      obtain ⟨k, v⟩ := e
      obtain rfl : k = .message id ts m := hkey
      obtain ⟨msg, hmsg⟩ := Option.isSome_iff_exists.mp (AList.lookup_isSome.mpr hmem)
      rw [List.nodupKeys_cons] at hnodup
      have hafter : w.after (Threads.deleteMessageKeys (⟨.message id ts m, v⟩ :: entries)) =
          World.after (w.dropMessage id ts m msg) (Threads.deleteMessageKeys entries) := by
        rw [← after_deleteMessageKey h hmsg]
        exact after_bind _ _
      have hrest : ∀ e ∈ entries, e.1 ∈ w.dropMessage id ts m msg ∧
          ∃ ts m, e.1 = .message id ts m := by
        intro e he
        obtain ⟨hmem', ts', m', hkey'⟩ := hall e (List.mem_cons_of_mem _ he)
        have hne : e.1 ≠ .message id ts m := by
          intro heq
          have hkeys := List.mem_keys_of_mem he
          rw [heq] at hkeys
          exact hnodup.1 hkeys
        refine ⟨(mem_congr (lookup_dropMessage ?_ hne)).mpr hmem', ts', m', hkey'⟩
        rw [hkey']
        simp
      obtain ⟨hkept, hleft, hthread⟩ := ih (h.dropMessage hmsg) hnodup.2 hrest
      rw [hafter]
      refine ⟨hkept.congr ?_, fun ts' m' hmem' => ?_, fun t => ?_⟩
      · funext q
        simp only [Pi.sub_apply, Pi.single_apply, List.length_cons]
        push_cast
        split_ifs <;> omega
      · obtain ⟨hdropped, hnot⟩ := hleft ts' m' hmem'
        have hne : Key.message id ts' m' ≠ .message id ts m := by
          intro heq
          rw [heq] at hdropped
          exact notMem_dropMessage hdropped
        refine ⟨(mem_congr (lookup_dropMessage (by simp) hne)).mp hdropped, ?_⟩
        rw [List.keys_cons, List.mem_cons, not_or]
        exact ⟨hne, hnot⟩
      · rw [hthread, lookup_dropMessage (by simp) (by simp)]

/-! ### Scans -/

theorem mem_scan {pre : List Char} {e : Sigma Key.Val} :
    e ∈ w.scan pre ↔ e ∈ w.entries ∧ pre <+: e.1.text := by
  rw [World.scan, List.mem_insertionSort, List.mem_filter, Key.startsWith_iff]

theorem mem_keys_scan {pre : List Char} {k : Key} :
    k ∈ (w.scan pre).keys ↔ k ∈ w ∧ pre <+: k.text := by
  rw [List.mem_keys, AList.mem_keys, AList.keys, List.mem_keys]
  simp only [mem_scan, exists_and_right]

theorem nodupKeys_scan (w : World) (pre : List Char) : (w.scan pre).NodupKeys := by
  have hperm : (w.scan pre).Perm (w.entries.filter fun e => e.1.startsWith pre) :=
    List.perm_insertionSort _ _
  exact (List.perm_nodupKeys hperm).mpr (w.nodupKeys.sublist List.filter_sublist)

/-! ### Threads with their messages -/

theorem after_deleteThread_of_missing (h : w.lookup (.thread id) = none) :
    w.after (deleteThread id) = w := by
  simp only [World.after, deleteThread, getThread, Prog.bind_eq, Prog.ask_bind, Prog.eval_op,
    World.serve, h]
  rfl

theorem after_deleteThread_of_stored (hm : w.lookup (.thread id) = some metadata) :
    w.after (deleteThread id) =
      World.after (World.after (World.dropThread (w.after (deleteMessageKeys (w.scan
        (Key.threadMessagesPrefix id)))) id metadata) (decrementCounterBy .threads 1))
          (decrementCounterBy .messages (w.scan (Key.threadMessagesPrefix id)).length) := by
  simp only [World.after, deleteThread, getThread, Prog.bind_eq, Prog.ask_bind, Prog.eval_op,
    World.serve, hm, Prog.eval_bind, Prog.pure_eq, Prog.eval_ret]
  rfl

theorem Kept.deleteThread (h : Kept 0 w) (id : Uuid) : Kept 0 (w.after (deleteThread id)) := by
  cases hm : w.lookup (.thread id) with
  | none => rwa [after_deleteThread_of_missing hm]
  | some metadata =>
      have hentries : ∀ e ∈ w.scan (Key.threadMessagesPrefix id),
          e.1 ∈ w ∧ ∃ ts m, e.1 = .message id ts m := by
        intro e he
        obtain ⟨hmem, hpre⟩ := mem_keys_scan.mp (List.mem_keys_of_mem he)
        exact ⟨hmem, Key.prefix_threadMessages_iff.mp hpre⟩
      obtain ⟨hkept, hleft, hthread⟩ := h.deleteMessageKeys (nodupKeys_scan w _) hentries
      have hempty : ∀ ts m, .message id ts m ∉
          w.after (Threads.deleteMessageKeys (w.scan (Key.threadMessagesPrefix id))) := by
        intro ts m hmem
        obtain ⟨hmem', hnot⟩ := hleft ts m hmem
        exact hnot (mem_keys_scan.mpr ⟨hmem', Key.prefix_threadMessages_iff.mpr ⟨ts, m, rfl⟩⟩)
      have hgone : .thread id ∉ World.dropThread (w.after (Threads.deleteMessageKeys (w.scan
          (Key.threadMessagesPrefix id)))) id metadata := by
        rw [World.dropThread, AList.mem_erase]
        exact fun hmem => hmem.1 rfl
      have hdrop := hkept.dropThread ((hthread id).trans hm) hempty
      have hforgiven := hdrop.forgive hgone (w.scan (Key.threadMessagesPrefix id)).length
      rw [after_deleteThread_of_stored hm]
      generalize (w.scan (Key.threadMessagesPrefix id)).length = n at *
      generalize World.dropThread _ id metadata = w₁ at *
      have hthreads : 1 ≤ World.counter w₁ .threads := by
        have htally := hforgiven.tally (q := .stored .threads) rfl
        simp only [Pi.add_apply, Pi.sub_apply, Pi.single_apply, Pi.zero_apply, Tally.stored.injEq,
          reduceCtorEq, if_true, if_false] at htally
        omega
      have hcounted := hforgiven.decrementCounterBy hthreads
      have hmessages : n ≤ World.counter (World.after w₁ (Threads.decrementCounterBy .threads 1))
          .messages := by
        have htally := hcounted.tally (q := .stored .messages) rfl
        simp only [Pi.add_apply, Pi.sub_apply, Pi.single_apply, Pi.zero_apply, Tally.stored.injEq,
          reduceCtorEq, if_true, if_false] at htally
        omega
      refine (hcounted.decrementCounterBy hmessages).congr ?_
      funext q
      simp only [Pi.add_apply, Pi.sub_apply, Pi.single_apply, Pi.zero_apply]
      split_ifs <;> omega

end ClawDesk.Threads
