import ClawDesk.Foundations.KeyCount
import ClawDesk.Threads.Store
import Mathlib.Algebra.Group.Pi.Basic
import Mathlib.Data.Int.Basic
import Mathlib.Tactic.Linarith
import Mathlib.Tactic.Ring

/-!
# Consistency of the thread store

Counts and indexes are kept by hand beside the records.  While a procedure runs they are behind
by some debts, and each of its parts pays some of them (`Kept`).
-/

namespace ClawDesk.Threads

open Foundations

variable {w : World} {id t m : Uuid} {ts us : ℕ} {agent : String} {metadata : ThreadMeta}
  {msg : Message} {c : Counter}

/-! ### What is stored -/

def Key.isThread : Key → Bool
  | .thread _ => true
  | _ => false

def Key.isMessage : Key → Bool
  | .message _ _ _ => true
  | _ => false

def Key.isMessageOf (t : Uuid) : Key → Bool
  | .message t' _ _ => t' = t
  | _ => false

/-- The value that a counter is read as. -/
def World.counter (w : World) (c : Counter) : ℕ := (w.lookup (.counter c)).getD 0

/-! ### The counts and the indexes -/

/-- What a count is kept of. -/
inductive Tally where
  | stored (c : Counter)
  | messagesOf (t : Uuid)
  deriving DecidableEq

/-- The records that are counted. -/
def Tally.counts : Tally → Key → Bool
  | .stored .threads => Key.isThread
  | .stored .messages => Key.isMessage
  | .messagesOf t => Key.isMessageOf t

/-- The count that is stored; a thread that does not exist has none. -/
def Tally.value (w : World) : Tally → Option ℕ
  | .stored c => some (w.counter c)
  | .messagesOf t => (w.lookup (.thread t)).map ThreadMeta.messageCount

/-- The counts are behind the records by the debts, and all other records fit together. -/
structure Kept (debts : Tally → ℤ) (w : World) : Prop where
  tally : ∀ {q : Tally} {n : ℕ}, q.value w = some n → (n : ℤ) + debts q = keyCount w q.counts
  thread_id : ∀ {id metadata}, w.lookup (.thread id) = some metadata → metadata.id = id
  home : ∀ {t ts m}, .message t ts m ∈ w → .thread t ∈ w
  message_id : ∀ {t ts m msg}, w.lookup (.message t ts m) = some msg → msg.id = m
  unique : ∀ {t ts t' ts' m}, .message t ts m ∈ w → .message t' ts' m ∈ w → t = t' ∧ ts = ts'
  attachment : ∀ {m}, .attachment m ∈ w →
    ∃ t ts msg, w.lookup (.message t ts m) = some msg ∧ msg.hasAttachment = true
  index : ∀ {agent us id}, .idxAgentThread agent us id ∈ w ↔ ∃ metadata,
    w.lookup (.thread id) = some metadata ∧ metadata.agentId = agent ∧
      timestampMicros metadata.updatedAt = us

theorem kept_empty : Kept 0 ∅ where
  tally {q n} h := by
    rw [keyCount_empty]
    cases q with
    | stored c =>
        obtain rfl := Option.some.inj h
        rfl
    | messagesOf t => simp [Tally.value] at h
  thread_id h := by simp at h
  home h := absurd h (AList.notMem_empty _)
  message_id h := by simp at h
  unique h := absurd h (AList.notMem_empty _)
  attachment h := absurd h (AList.notMem_empty _)
  index := by simp

variable {debts : Tally → ℤ}

/-! ### Parts of procedures -/

/-- The keys that hold a count. -/
def Key.holdsCount : Key → Bool
  | .counter _ => true
  | .thread _ => true
  | _ => false

theorem Tally.value_congr {w w' : World} (q : Tally)
    (h : ∀ k : Key, k.holdsCount = true → w'.lookup k = w.lookup k) : q.value w' = q.value w := by
  cases q with
  | stored c => rw [Tally.value, Tally.value, World.counter, World.counter, h _ rfl]
  | messagesOf t => rw [Tally.value, Tally.value, h _ rfl]

theorem lookup_insert_of_not {k k' : Key} {v : k.Val} (f : Key → Bool) (hk : f k = false)
    (hk' : f k' = true) : (w.insert k v).lookup k' = w.lookup k' :=
  AList.lookup_insert_ne (by rintro rfl; rw [hk] at hk'; cases hk')

theorem lookup_erase_of_not {k k' : Key} (f : Key → Bool) (hk : f k = false) (hk' : f k' = true) :
    (w.erase k).lookup k' = w.lookup k' :=
  AList.lookup_erase_ne (by rintro rfl; rw [hk] at hk'; cases hk')

theorem mem_congr {w w' : World} {k : Key} (h : w'.lookup k = w.lookup k) : k ∈ w' ↔ k ∈ w := by
  rw [← AList.lookup_isSome, h, AList.lookup_isSome]

/-- Only counts and attachments differ. -/
theorem Kept.frame {w' : World} {debts' : Tally → ℤ} (h : Kept debts w)
    (hsame : ∀ k : Key, (∀ c, k ≠ .counter c) → (∀ m, k ≠ .attachment m) →
      w'.lookup k = w.lookup k)
    (htally : ∀ {q : Tally} {n : ℕ}, q.value w' = some n →
      (n : ℤ) + debts' q = keyCount w' q.counts)
    (hattachment : ∀ {m}, .attachment m ∈ w' →
      ∃ t ts msg, w.lookup (.message t ts m) = some msg ∧ msg.hasAttachment = true) :
    Kept debts' w' where
  tally := htally
  thread_id hm := h.thread_id (by rwa [hsame _ (by simp) (by simp)] at hm)
  home {t ts m} hmem := by
    rw [mem_congr (hsame _ (by simp) (by simp))] at hmem ⊢
    exact h.home hmem
  message_id hm := h.message_id (by rwa [hsame _ (by simp) (by simp)] at hm)
  unique h₁ h₂ := by
    rw [mem_congr (hsame _ (by simp) (by simp))] at h₁ h₂
    exact h.unique h₁ h₂
  attachment hmem := by
    obtain ⟨t, ts, msg, hmsg, hflag⟩ := hattachment hmem
    exact ⟨t, ts, msg, by rwa [hsame _ (by simp) (by simp)], hflag⟩
  index := by
    intro agent us id
    rw [mem_congr (hsame _ (by simp) (by simp)), h.index, hsame _ (by simp) (by simp)]

/-- A counter is written. -/
theorem Kept.insert_counter (h : Kept debts w) (c : Counter) (n : ℕ) :
    Kept (debts + Pi.single (.stored c) (w.counter c - n : ℤ)) (w.insert (.counter c) n) := by
  refine h.frame (fun k hcounter _ => AList.lookup_insert_ne (hcounter c)) ?_
    fun hmem => h.attachment (by simpa using hmem)
  intro q k hq
  have hcount : keyCount (w.insert (.counter c) n) q.counts = keyCount w q.counts :=
    keyCount_insert_of_neg (by rcases q with (_ | _) | _ <;> rfl)
  rw [hcount, Pi.add_apply, Pi.single_apply]
  by_cases hc : q = .stored c
  · subst hc
    obtain rfl : n = k := by simpa [Tally.value, World.counter] using hq
    rw [if_pos rfl, ← h.tally (n := w.counter c) rfl]
    ring
  · rw [if_neg hc, add_zero]
    refine h.tally ?_
    rw [← hq]
    cases q with
    | stored c' =>
        have hne : Key.counter c' ≠ .counter c := by simpa using hc
        simp [Tally.value, World.counter, AList.lookup_insert_ne hne]
    | messagesOf t =>
        have hne : Key.thread t ≠ .counter c := by simp
        simp [Tally.value, AList.lookup_insert_ne hne]

/-- A new message of a thread that exists. -/
theorem Kept.insert_message (h : Kept debts w) (ht : .thread t ∈ w)
    (hfresh : ∀ t ts, .message t ts m ∉ w) (hid : msg.id = m) :
    Kept (debts + Pi.single (.stored .messages) 1 + Pi.single (.messagesOf t) 1)
      (w.insert (.message t ts m) msg) where
  tally {q n} hq := by
    rw [Tally.value_congr q fun k hk => lookup_insert_of_not Key.holdsCount rfl hk] at hq
    have hold := h.tally hq
    rw [Pi.add_apply, Pi.add_apply, Pi.single_apply, Pi.single_apply]
    rcases q with (_ | _) | t'
    · rw [keyCount_insert_of_neg rfl, if_neg (by simp), if_neg (by simp)]
      linarith
    · rw [keyCount_insert_of_notMem (hfresh t ts) rfl, if_pos rfl, if_neg (by simp)]
      push_cast
      linarith
    · rw [if_neg (by simp)]
      by_cases htt : t' = t
      · subst htt
        rw [keyCount_insert_of_notMem (hfresh t' ts) (by simp [Tally.counts, Key.isMessageOf]),
          if_pos rfl]
        push_cast
        linarith
      · rw [keyCount_insert_of_neg (by simp [Tally.counts, Key.isMessageOf, Ne.symm htt]),
          if_neg (by simpa using htt)]
        linarith
  thread_id hm := h.thread_id (by rwa [AList.lookup_insert_ne (by simp)] at hm)
  home {t' ts' m'} hm := by
    rw [AList.mem_insert] at hm ⊢
    rcases hm with heq | hm
    · obtain ⟨rfl, -⟩ := Key.message.inj heq
      exact Or.inr ht
    · exact Or.inr (h.home hm)
  message_id {t' ts' m' msg'} hm := by
    by_cases heq : Key.message t' ts' m' = .message t ts m
    · obtain ⟨rfl, rfl, rfl⟩ := Key.message.inj heq
      rw [AList.lookup_insert] at hm
      rw [← Option.some.inj hm, hid]
    · rw [AList.lookup_insert_ne heq] at hm
      exact h.message_id hm
  unique {t₁ ts₁ t₂ ts₂ m'} hm₁ hm₂ := by
    rw [AList.mem_insert] at hm₁ hm₂
    rcases hm₁ with h₁ | hm₁ <;> rcases hm₂ with h₂ | hm₂
    · obtain ⟨rfl, rfl, rfl⟩ := Key.message.inj h₁
      obtain ⟨rfl, rfl, -⟩ := Key.message.inj h₂
      exact ⟨rfl, rfl⟩
    · obtain ⟨-, -, rfl⟩ := Key.message.inj h₁
      exact absurd hm₂ (hfresh _ _)
    · obtain ⟨-, -, rfl⟩ := Key.message.inj h₂
      exact absurd hm₁ (hfresh _ _)
    · exact h.unique hm₁ hm₂
  attachment {m'} hm := by
    obtain ⟨t', ts', msg', hmsg, hflag⟩ := h.attachment (by simpa using hm)
    refine ⟨t', ts', msg', ?_, hflag⟩
    rw [AList.lookup_insert_ne, hmsg]
    intro heq
    obtain ⟨-, -, rfl⟩ := Key.message.inj heq
    exact hfresh t' ts' (AList.lookup_isSome.mp (by rw [hmsg]; rfl))
  index := by
    intro agent us id
    rw [AList.mem_insert, or_iff_right (by simp), h.index, AList.lookup_insert_ne (by simp)]

/-- The attachment of a message. -/
theorem Kept.insert_attachment (h : Kept debts w) (blob : List UInt8)
    (hmsg : w.lookup (.message t ts m) = some msg) (hflag : msg.hasAttachment = true) :
    Kept debts (w.insert (.attachment m) blob) := by
  refine h.frame (fun k _ hattachment => AList.lookup_insert_ne (hattachment m)) ?_ ?_
  · intro q n hq
    rw [Tally.value_congr q fun k hk => lookup_insert_of_not Key.holdsCount rfl hk] at hq
    rw [keyCount_insert_of_neg (by rcases q with (_ | _) | _ <;> rfl)]
    exact h.tally hq
  · intro m' hmem
    rw [AList.mem_insert] at hmem
    rcases hmem with heq | hmem
    · obtain rfl := Key.attachment.inj heq
      exact ⟨t, ts, msg, hmsg, hflag⟩
    · exact h.attachment hmem

/-- The metadata of a thread and its index entries are replaced, and nothing else. -/
theorem Kept.replace_thread {w' : World} {metadata' : ThreadMeta} (h : Kept debts w)
    (hm : w.lookup (.thread id) = some metadata) (hid : metadata'.id = metadata.id)
    (hself : w'.lookup (.thread id) = some metadata')
    (hother : ∀ k, k ≠ .thread id → (∀ agent us, k ≠ .idxAgentThread agent us id) →
      w'.lookup k = w.lookup k)
    (hindex : ∀ agent us, .idxAgentThread agent us id ∈ w' ↔
      metadata'.agentId = agent ∧ timestampMicros metadata'.updatedAt = us)
    (hcount : ∀ q : Tally, keyCount w' q.counts = keyCount w q.counts) :
    Kept (debts + Pi.single (.messagesOf id)
      (metadata.messageCount - metadata'.messageCount : ℤ)) w' where
  tally {q n} hq := by
    rw [hcount, Pi.add_apply, Pi.single_apply]
    by_cases hthis : q = .messagesOf id
    · subst hthis
      rw [Tally.value, hself] at hq
      obtain rfl := Option.some.inj hq
      have hold : Tally.value w (.messagesOf id) = some metadata.messageCount := by
        rw [Tally.value, hm, Option.map_some]
      have htally := h.tally hold
      rw [if_pos rfl, ← htally]
      ring
    · rw [if_neg hthis, add_zero]
      refine h.tally ?_
      rw [← hq]
      cases q with
      | stored c => rw [Tally.value, Tally.value, World.counter, World.counter, hother _ (by simp)
          (by simp)]
      | messagesOf t =>
          have hne : Key.thread t ≠ .thread id := by simpa using hthis
          rw [Tally.value, Tally.value, hother _ hne (by simp)]
  thread_id {id' m'} hm' := by
    by_cases heq : id' = id
    · subst heq
      rw [hself] at hm'
      rw [← Option.some.inj hm', hid, h.thread_id hm]
    · rw [hother _ (by simpa using heq) (by simp)] at hm'
      exact h.thread_id hm'
  home {t ts m} hmem := by
    rw [mem_congr (hother _ (by simp) (by simp))] at hmem
    by_cases heq : t = id
    · subst heq
      rw [← AList.lookup_isSome, hself]
      rfl
    · rw [mem_congr (hother _ (by simpa using heq) (by simp))]
      exact h.home hmem
  message_id hm' := h.message_id (by rwa [hother _ (by simp) (by simp)] at hm')
  unique h₁ h₂ := by
    rw [mem_congr (hother _ (by simp) (by simp))] at h₁ h₂
    exact h.unique h₁ h₂
  attachment hmem := by
    rw [mem_congr (hother _ (by simp) (by simp))] at hmem
    obtain ⟨t, ts, msg, hmsg, hflag⟩ := h.attachment hmem
    exact ⟨t, ts, msg, by rwa [hother _ (by simp) (by simp)], hflag⟩
  index {agent us id'} := by
    by_cases heq : id' = id
    · subst heq
      rw [hindex, hself]
      simp
    · have hidx (agent' : String) (us' : ℕ) :
          Key.idxAgentThread agent us id' ≠ .idxAgentThread agent' us' id := by
        intro hkey
        exact heq (Key.idxAgentThread.inj hkey).2.2
      rw [mem_congr (hother _ (by simp) hidx), h.index, hother _ (by simpa using heq) (by simp)]

/-- Metadata that keeps its index entry. -/
theorem Kept.insert_thread (h : Kept debts w) (hm : w.lookup (.thread id) = some metadata)
    (metadata' : ThreadMeta) (hid : metadata'.id = metadata.id)
    (hagent : metadata'.agentId = metadata.agentId)
    (hupdated : metadata'.updatedAt = metadata.updatedAt) :
    Kept (debts + Pi.single (.messagesOf id)
      (metadata.messageCount - metadata'.messageCount : ℤ)) (w.insert (.thread id) metadata') := by
  have hthread : Key.thread id ∈ w := AList.lookup_isSome.mp (by rw [hm]; rfl)
  refine h.replace_thread hm hid (AList.lookup_insert w) ?_ ?_ ?_
  · intro k hne _
    exact AList.lookup_insert_ne hne
  · intro agent us
    rw [AList.mem_insert, or_iff_right (by simp), h.index, hm, hagent, hupdated]
    simp
  · intro q
    exact keyCount_insert_of_mem hthread

/-- What `putThread` leaves. -/
def World.putThread (w : World) (id : Uuid) (oldUpdated : Instant) (metadata : ThreadMeta) :
    World :=
  ((w.insert (.thread id) metadata).erase
    (.idxAgentThread metadata.agentId (timestampMicros oldUpdated) id)).insert
      (.idxAgentThread metadata.agentId (timestampMicros metadata.updatedAt) id) ()

theorem lookup_putThread_thread (w : World) (id : Uuid) (old : Instant) (metadata : ThreadMeta) :
    (w.putThread id old metadata).lookup (.thread id) = some metadata := by
  rw [World.putThread, AList.lookup_insert_ne (by simp), AList.lookup_erase_ne (by simp),
    AList.lookup_insert]

theorem lookup_putThread_of_ne {k : Key} (hthread : k ≠ .thread id)
    (hindex : ∀ agent us, k ≠ .idxAgentThread agent us id) (old : Instant)
    (metadata : ThreadMeta) : (w.putThread id old metadata).lookup k = w.lookup k := by
  rw [World.putThread, AList.lookup_insert_ne (hindex _ _), AList.lookup_erase_ne (hindex _ _),
    AList.lookup_insert_ne hthread]

theorem mem_putThread_index (w : World) (old : Instant) (metadata : ThreadMeta) :
    .idxAgentThread agent us id ∈ w.putThread id old metadata ↔
      (metadata.agentId = agent ∧ timestampMicros metadata.updatedAt = us) ∨
      (¬ (metadata.agentId = agent ∧ timestampMicros old = us) ∧
        .idxAgentThread agent us id ∈ w) := by
  rw [World.putThread, AList.mem_insert, AList.mem_erase, AList.mem_insert]
  simp only [Key.idxAgentThread.injEq, and_true, reduceCtorEq, false_or, ne_eq, eq_comm]

theorem keyCount_putThread (hthread : .thread id ∈ w) (old : Instant) (metadata : ThreadMeta)
    (q : Tally) : keyCount (w.putThread id old metadata) q.counts = keyCount w q.counts := by
  have hneg (agent : String) (us : ℕ) : q.counts (.idxAgentThread agent us id) = false := by
    rcases q with (_ | _) | _ <;> rfl
  rw [World.putThread, keyCount_insert_of_neg (hneg _ _), keyCount_erase_of_neg (hneg _ _),
    keyCount_insert_of_mem hthread]

/-- The metadata is written, and its index entry moves with it. -/
theorem Kept.putThread (h : Kept debts w) (hm : w.lookup (.thread id) = some metadata)
    (metadata' : ThreadMeta) (hid : metadata'.id = metadata.id)
    (hagent : metadata'.agentId = metadata.agentId) :
    Kept (debts + Pi.single (.messagesOf id)
      (metadata.messageCount - metadata'.messageCount : ℤ))
        (w.putThread id metadata.updatedAt metadata') := by
  have hthread : Key.thread id ∈ w := AList.lookup_isSome.mp (by rw [hm]; rfl)
  refine h.replace_thread hm hid (lookup_putThread_thread w id _ metadata')
    (fun k hne hidx => lookup_putThread_of_ne hne hidx _ metadata') ?_
    (keyCount_putThread hthread _ metadata')
  intro agent us
  rw [mem_putThread_index, h.index, hm, hagent]
  constructor
  · rintro (hnew | ⟨hold, m₀, heq, hagent₀, hupdated₀⟩)
    · exact hnew
    · obtain rfl := Option.some.inj heq
      exact absurd ⟨hagent₀, hupdated₀⟩ hold
  · exact Or.inl

/-- A debt of a thread that does not exist is forgotten. -/
theorem Kept.forgive (h : Kept debts w) (ht : .thread t ∉ w) (d : ℤ) :
    Kept (debts + Pi.single (.messagesOf t) d) w where
  tally {q n} hq := by
    have hne : q ≠ .messagesOf t := by
      rintro rfl
      rw [Tally.value, AList.lookup_eq_none.mpr ht] at hq
      cases hq
    rw [Pi.add_apply, Pi.single_apply, if_neg hne, add_zero]
    exact h.tally hq
  thread_id := h.thread_id
  home := h.home
  message_id := h.message_id
  unique := h.unique
  attachment := h.attachment
  index := h.index

/-- A thread that does not exist has no messages. -/
theorem Kept.notMem_message (h : Kept debts w) (ht : .thread t ∉ w) (ts : ℕ) (m : Uuid) :
    .message t ts m ∉ w := fun hmem => ht (h.home hmem)

theorem Kept.notMem_index (h : Kept debts w) (ht : .thread t ∉ w) (agent : String) (us : ℕ) :
    .idxAgentThread agent us t ∉ w := by
  rw [h.index]
  rintro ⟨metadata, hm, -⟩
  exact ht (AList.lookup_isSome.mp (by rw [hm]; rfl))

theorem keyCount_messagesOf_eq_zero (h : ∀ ts m, .message t ts m ∉ w) :
    keyCount w (Key.isMessageOf t) = 0 := by
  by_contra hne
  obtain ⟨k, hk, hof⟩ := keyCount_pos_iff.mp (Nat.pos_of_ne_zero hne)
  cases k with
  | message t' ts m =>
      obtain rfl : t' = t := by simpa [Key.isMessageOf] using hof
      exact h ts m hk
  | _ => simp [Key.isMessageOf] at hof

/-- What `createThread` leaves, but for the counter. -/
def World.newThread (w : World) (metadata : ThreadMeta) : World :=
  ((w.insert (.thread metadata.id) metadata).insert
    (.idxAgentThread metadata.agentId (timestampMicros metadata.updatedAt) metadata.id) ()).insert
      (.idxThreadAgent metadata.id) metadata.agentId

/-- A new thread, without messages. -/
theorem Kept.newThread (h : Kept 0 w) (hfresh : .thread metadata.id ∉ w)
    (hcount : metadata.messageCount = 0) :
    Kept (Pi.single (.stored .threads) 1) (w.newThread metadata) := by
  have hself : (w.newThread metadata).lookup (.thread metadata.id) = some metadata := by
    rw [World.newThread, AList.lookup_insert_ne (by simp), AList.lookup_insert_ne (by simp),
      AList.lookup_insert]
  have hother : ∀ k, k ≠ .thread metadata.id → (∀ agent us id, k ≠ .idxAgentThread agent us id) →
      k ≠ .idxThreadAgent metadata.id → (w.newThread metadata).lookup k = w.lookup k := by
    intro k hne hidx hrev
    rw [World.newThread, AList.lookup_insert_ne hrev, AList.lookup_insert_ne (hidx _ _ _),
      AList.lookup_insert_ne hne]
  have hkeys (q : Tally) : keyCount (w.newThread metadata) q.counts =
      keyCount (w.insert (.thread metadata.id) metadata) q.counts := by
    rw [World.newThread, keyCount_insert_of_neg (by rcases q with (_ | _) | _ <;> rfl),
      keyCount_insert_of_neg (by rcases q with (_ | _) | _ <;> rfl)]
  have hmessage {t ts m} : Key.message t ts m ∈ w.newThread metadata ↔ .message t ts m ∈ w :=
    mem_congr (hother _ (by simp) (by simp) (by simp))
  constructor
  case tally =>
    intro q n hq
    rw [hkeys, Pi.single_apply]
    cases q with
    | stored c =>
        have hold := h.tally (q := .stored c) (n := n) (by
          rwa [Tally.value, World.counter, hother _ (by simp) (by simp) (by simp)] at hq)
        cases c with
        | threads =>
            rw [keyCount_insert_of_notMem hfresh rfl, if_pos rfl]
            push_cast
            linarith [Pi.zero_apply (M := fun _ : Tally => ℤ) (.stored .threads)]
        | messages =>
            rw [keyCount_insert_of_neg rfl, if_neg (by simp)]
            exact hold
    | messagesOf t =>
        rw [keyCount_insert_of_neg rfl, if_neg (by simp)]
        by_cases heq : t = metadata.id
        · subst heq
          rw [Tally.value, hself] at hq
          obtain rfl := Option.some.inj hq
          rw [hcount, Tally.counts, keyCount_messagesOf_eq_zero (h.notMem_message hfresh)]
          rfl
        · refine h.tally (q := .messagesOf t) ?_
          rwa [Tally.value, hother _ (by simpa using heq) (by simp) (by simp)] at hq
  case thread_id =>
    intro id m hm
    by_cases heq : id = metadata.id
    · subst heq
      rw [hself] at hm
      rw [← Option.some.inj hm]
    · rw [hother _ (by simpa using heq) (by simp) (by simp)] at hm
      exact h.thread_id hm
  case home =>
    intro t ts m hmem
    rw [hmessage] at hmem
    have hne : Key.thread t ≠ .thread metadata.id := by
      intro heq
      exact hfresh (Key.thread.inj heq ▸ h.home hmem)
    rw [mem_congr (hother _ hne (by simp) (by simp))]
    exact h.home hmem
  case message_id =>
    intro t ts m msg hm
    exact h.message_id (by rwa [hother _ (by simp) (by simp) (by simp)] at hm)
  case unique =>
    intro t ts t' ts' m h₁ h₂
    exact h.unique (hmessage.mp h₁) (hmessage.mp h₂)
  case attachment =>
    intro m hmem
    rw [mem_congr (hother _ (by simp) (by simp) (by simp))] at hmem
    obtain ⟨t, ts, msg, hmsg, hflag⟩ := h.attachment hmem
    exact ⟨t, ts, msg, by rwa [hother _ (by simp) (by simp) (by simp)], hflag⟩
  case index =>
    intro agent us id
    rw [World.newThread, AList.mem_insert, or_iff_right (by simp), AList.mem_insert,
      AList.mem_insert, or_iff_right (a := _ = Key.thread _) (by simp), ← World.newThread]
    by_cases heq : id = metadata.id
    · subst heq
      rw [hself, or_iff_left (h.notMem_index hfresh agent us)]
      simp [eq_comm]
    · rw [hother _ (by simpa using heq) (by simp) (by simp), h.index,
        or_iff_right (by simp [heq])]

/-- An attachment is deleted. -/
theorem Kept.erase_attachment (h : Kept debts w) (m : Uuid) :
    Kept debts (w.erase (.attachment m)) := by
  refine h.frame (fun k _ hattachment => AList.lookup_erase_ne (hattachment m)) ?_
    fun hmem => h.attachment (AList.mem_erase.mp hmem).2
  intro q n hq
  rw [Tally.value_congr q fun k hk => lookup_erase_of_not Key.holdsCount rfl hk] at hq
  rw [keyCount_erase_of_neg (by rcases q with (_ | _) | _ <;> rfl)]
  exact h.tally hq

/-- A message without an attachment is deleted. -/
theorem Kept.erase_message (h : Kept debts w) (hmem : .message t ts m ∈ w)
    (hatt : .attachment m ∉ w) :
    Kept (debts - Pi.single (.stored .messages) 1 - Pi.single (.messagesOf t) 1)
      (w.erase (.message t ts m)) where
  tally {q n} hq := by
    rw [Tally.value_congr q fun k hk => lookup_erase_of_not Key.holdsCount rfl hk] at hq
    have hold := h.tally hq
    rw [Pi.sub_apply, Pi.sub_apply, Pi.single_apply, Pi.single_apply]
    rcases q with (_ | _) | t'
    · rw [keyCount_erase_of_neg rfl, if_neg (by simp), if_neg (by simp)]
      linarith
    · have hcount : keyCount (w.erase (.message t ts m)) Key.isMessage + 1 =
          keyCount w Key.isMessage := keyCount_erase_of_mem hmem rfl
      rw [if_pos rfl, if_neg (by simp)]
      simp only [Tally.counts] at hold ⊢
      omega
    · rw [if_neg (by simp)]
      by_cases htt : t' = t
      · subst htt
        have hcount : keyCount (w.erase (.message t' ts m)) (Key.isMessageOf t') + 1 =
            keyCount w (Key.isMessageOf t') :=
          keyCount_erase_of_mem hmem (by simp [Key.isMessageOf])
        rw [if_pos rfl]
        simp only [Tally.counts] at hold ⊢
        omega
      · rw [keyCount_erase_of_neg (by simp [Tally.counts, Key.isMessageOf, Ne.symm htt]),
          if_neg (by simpa using htt)]
        linarith
  thread_id hm := h.thread_id (by rwa [AList.lookup_erase_ne (by simp)] at hm)
  home hm := by
    rw [AList.mem_erase] at hm ⊢
    exact ⟨by simp, h.home hm.2⟩
  message_id {t' ts' m' msg'} hm := by
    have hne : Key.message t' ts' m' ≠ .message t ts m := by
      intro heq
      obtain ⟨rfl, rfl, rfl⟩ := Key.message.inj heq
      rw [AList.lookup_erase] at hm
      cases hm
    rw [AList.lookup_erase_ne hne] at hm
    exact h.message_id hm
  unique hm hm' := h.unique (AList.mem_erase.mp hm).2 (AList.mem_erase.mp hm').2
  attachment {m'} hm := by
    obtain ⟨t', ts', msg', hmsg, hflag⟩ := h.attachment (AList.mem_erase.mp hm).2
    refine ⟨t', ts', msg', ?_, hflag⟩
    rw [AList.lookup_erase_ne, hmsg]
    intro heq
    obtain ⟨-, -, rfl⟩ := Key.message.inj heq
    exact hatt (AList.mem_erase.mp hm).2
  index := by
    intro agent us id
    rw [AList.mem_erase, and_iff_right (by simp), h.index, AList.lookup_erase_ne (by simp)]

/-- What `deleteThread` leaves after the messages are gone, but for the counters. -/
def World.dropThread (w : World) (id : Uuid) (metadata : ThreadMeta) : World :=
  ((w.erase (.idxAgentThread metadata.agentId (timestampMicros metadata.updatedAt) id)).erase
    (.idxThreadAgent id)).erase (.thread id)

/-- A thread without messages is deleted. -/
theorem Kept.dropThread (h : Kept debts w) (hm : w.lookup (.thread id) = some metadata)
    (hempty : ∀ ts m, .message id ts m ∉ w) :
    Kept (debts - Pi.single (.stored .threads) 1) (w.dropThread id metadata) := by
  have hthread : Key.thread id ∈ w := AList.lookup_isSome.mp (by rw [hm]; rfl)
  have hself : (w.dropThread id metadata).lookup (.thread id) = none := AList.lookup_erase _ _
  have hother : ∀ k, k ≠ .thread id → (∀ agent us id, k ≠ .idxAgentThread agent us id) →
      k ≠ .idxThreadAgent id → (w.dropThread id metadata).lookup k = w.lookup k := by
    intro k hne hidx hrev
    rw [World.dropThread, AList.lookup_erase_ne hne, AList.lookup_erase_ne hrev,
      AList.lookup_erase_ne (hidx _ _ _)]
  have hmessage {t ts m} : Key.message t ts m ∈ w.dropThread id metadata ↔ .message t ts m ∈ w :=
    mem_congr (hother _ (by simp) (by simp) (by simp))
  constructor
  case tally =>
    intro q n hq
    rw [Pi.sub_apply, Pi.single_apply]
    rcases q with (_ | _) | t
    · have hold := h.tally (q := .stored .threads) (n := n) (by
        rwa [Tally.value, World.counter, hother _ (by simp) (by simp) (by simp)] at hq)
      have hcount : keyCount (w.dropThread id metadata) Key.isThread + 1 =
          keyCount w Key.isThread := by
        rw [World.dropThread, keyCount_erase_of_mem (by simpa using hthread) rfl,
          keyCount_erase_of_neg rfl, keyCount_erase_of_neg rfl]
      rw [if_pos rfl]
      simp only [Tally.counts] at hold ⊢
      omega
    · rw [if_neg (by simp), sub_zero, World.dropThread, keyCount_erase_of_neg rfl,
        keyCount_erase_of_neg rfl, keyCount_erase_of_neg rfl]
      refine h.tally (q := .stored .messages) ?_
      rwa [Tally.value, World.counter, hother _ (by simp) (by simp) (by simp)] at hq
    · rw [if_neg (by simp), sub_zero, World.dropThread, keyCount_erase_of_neg rfl,
        keyCount_erase_of_neg rfl, keyCount_erase_of_neg rfl]
      refine h.tally (q := .messagesOf t) ?_
      have hne : t ≠ id := by
        rintro rfl
        rw [Tally.value, hself] at hq
        cases hq
      rwa [Tally.value, hother _ (by simpa using hne) (by simp) (by simp)] at hq
  case thread_id =>
    intro id' m hm'
    have hne : Key.thread id' ≠ .thread id := by
      intro heq
      obtain rfl := Key.thread.inj heq
      rw [hself] at hm'
      cases hm'
    exact h.thread_id (by rwa [hother _ hne (by simp) (by simp)] at hm')
  case home =>
    intro t ts m hmem
    rw [hmessage] at hmem
    have hne : Key.thread t ≠ .thread id := by
      intro heq
      obtain rfl := Key.thread.inj heq
      exact hempty ts m hmem
    rw [mem_congr (hother _ hne (by simp) (by simp))]
    exact h.home hmem
  case message_id =>
    intro t ts m msg hm'
    exact h.message_id (by rwa [hother _ (by simp) (by simp) (by simp)] at hm')
  case unique =>
    intro t ts t' ts' m h₁ h₂
    exact h.unique (hmessage.mp h₁) (hmessage.mp h₂)
  case attachment =>
    intro m hmem
    rw [mem_congr (hother _ (by simp) (by simp) (by simp))] at hmem
    obtain ⟨t, ts, msg, hmsg, hflag⟩ := h.attachment hmem
    exact ⟨t, ts, msg, by rwa [hother _ (by simp) (by simp) (by simp)], hflag⟩
  case index =>
    intro agent us id'
    rw [World.dropThread, AList.mem_erase, and_iff_right (by simp), AList.mem_erase,
      and_iff_right (by simp), AList.mem_erase, ← World.dropThread, h.index]
    by_cases heq : id' = id
    · subst heq
      rw [hself, hm]
      simp [eq_comm]
    · rw [hother _ (by simpa using heq) (by simp) (by simp), and_iff_right (by simp [heq])]

end ClawDesk.Threads
