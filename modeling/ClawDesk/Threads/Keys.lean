import ClawDesk.Foundations.IpAddress
import ClawDesk.Foundations.Json
import ClawDesk.Foundations.Text
import Mathlib.Data.BitVec

/-!
# Keys of the thread store

A `Key` is a key builder applied to its arguments, and `Key.text` is the string it builds.
The builders never collide (`Key.text_injective`), so the store may be keyed by `Key`; what a
prefix scan picks out is decided on the strings.  An agent id may have slashes, and so the
prefix of one agent also picks out index entries of others (`prefix_idxAgent_iff`).
-/

namespace ClawDesk.Threads

open Foundations

/-- A UUID, as a `u128`. -/
abbrev Uuid := BitVec 128

/-- Nanoseconds since the Unix epoch.  The texts of times are kept as the instants they
denote. -/
abbrev Instant := ℤ

/-- `timestamp_micros() as u64`. -/
def timestampMicros (t : Instant) : ℕ := ((t / 1000) % 2 ^ 64).toNat

/-- Metadata for a chat thread. -/
structure ThreadMeta where
  id : Uuid
  /-- Agent that owns this thread. -/
  agentId : String
  title : String
  createdAt : Instant
  updatedAt : Instant
  /-- Total number of messages in this thread (maintained incrementally). -/
  messageCount : ℕ
  model : Option String
  pinned : Bool
  archived : Bool
  tags : List String
  spawnMode : String
  parentThreadId : Option Uuid
  capabilities : List String
  skills : List String
  deriving DecidableEq

inductive MessageRole where
  | user
  | assistant
  | system
  | tool
  deriving DecidableEq

/-- A single chat message. -/
structure Message where
  id : Uuid
  /-- Thread this message belongs to. -/
  threadId : Uuid
  role : MessageRole
  content : String
  timestampUs : ℕ
  metadata : Option Json
  /-- If true, a separate attachment blob exists. -/
  hasAttachment : Bool

/-- The two global counters. -/
inductive Counter where
  | threads
  | messages
  deriving DecidableEq

/-- A key of the store, by the builder that makes it. -/
inductive Key where
  | thread (id : Uuid)
  | message (thread : Uuid) (timestampUs : ℕ) (msg : Uuid)
  | attachment (msg : Uuid)
  | idxAgentThread (agent : String) (updatedUs : ℕ) (thread : Uuid)
  | idxThreadAgent (thread : Uuid)
  | counter (c : Counter)
  deriving DecidableEq

namespace Key

/-- What is stored under a key, after deserialization. -/
@[reducible] def Val : Key → Type
  | thread _ => ThreadMeta
  | message _ _ _ => Message
  | attachment _ => List UInt8
  | idxAgentThread _ _ _ => Unit
  | idxThreadAgent _ => String
  | counter _ => ℕ

/-! ### The texts of keys -/

/-- 32 hexadecimal digits. -/
def hex32 (id : Uuid) : List Char :=
  (Radix.spell 16 (32 - (Radix.digits 16 id.toNat).length) id.toNat).map Json.hexDigit

def threadsPrefix : List Char := "threads/".toList
def msgsPrefix : List Char := "msgs/".toList
def attachmentsPrefix : List Char := "attachments/".toList
def idxAgent : List Char := "idx/agent/".toList
def idxThreadAgentPrefix : List Char := "idx/thread_agent/".toList

def metaText : Counter → List Char
  | .threads => "meta/thread_count".toList
  | .messages => "meta/msg_count".toList

/-- The string a builder makes. -/
def text : Key → List Char
  | thread id => threadsPrefix ++ hex32 id
  | message t ts m => msgsPrefix ++ (hex32 t ++ '/' :: (decimal 20 ts ++ '/' :: hex32 m))
  | attachment m => attachmentsPrefix ++ hex32 m
  | idxAgentThread agent us t =>
      idxAgent ++ (agent.toList ++ '/' :: (decimal 20 us ++ '/' :: hex32 t))
  | idxThreadAgent t => idxThreadAgentPrefix ++ hex32 t
  | counter c => metaText c

/-- Scan prefix for all messages in a thread. -/
def threadMessagesPrefix (t : Uuid) : List Char := msgsPrefix ++ (hex32 t ++ ['/'])

/-- Scan prefix for all threads belonging to an agent. -/
def idxAgentPrefix (agent : String) : List Char := idxAgent ++ (agent.toList ++ ['/'])

/-- Does the key's string start with `pre`? -/
def startsWith (pre : List Char) (k : Key) : Bool := pre.isPrefixOf k.text

theorem startsWith_iff {pre : List Char} {k : Key} :
    k.startsWith pre = true ↔ pre <+: k.text := List.isPrefixOf_iff_prefix

theorem digit_lt {id : Uuid} {zeros d : ℕ} (hd : d ∈ Radix.spell 16 zeros id.toNat) : d < 16 :=
  Radix.spell_lt (by norm_num) hd

theorem slash_notMem_hex32 (id : Uuid) : '/' ∉ hex32 id := by
  intro hmem
  obtain ⟨d, hd, hchar⟩ := List.mem_map.mp hmem
  have hslash : ∀ d < 16, Json.hexDigit d ≠ '/' := by decide
  exact hslash d (digit_lt hd) hchar

theorem slash_notMem_decimal (n : ℕ) : '/' ∉ decimal 20 n :=
  notMem_decimal (Or.inl (by decide)) 20 n

/-- The digits are read back. -/
theorem filterMap_hex32 (id : Uuid) : (hex32 id).filterMap (digitValue 16) =
    Radix.spell 16 (32 - (Radix.digits 16 id.toNat).length) id.toNat := by
  have hread : ∀ d < 16, digitValue 16 (Json.hexDigit d) = some d := by decide
  rw [hex32, List.filterMap_map]
  conv_rhs => rw [← List.filterMap_some (l := Radix.spell _ _ _)]
  exact List.filterMap_congr fun d hd => hread d (digit_lt hd)

theorem numberOf_hex32 (id : Uuid) : numberOf 16 (hex32 id) = id.toNat := by
  rw [numberOf, filterMap_hex32, Radix.value_spell]

theorem hex32_injective : Function.Injective hex32 := by
  intro a b h
  rw [← BitVec.toNat_inj, ← numberOf_hex32 a, h, numberOf_hex32]

/-- Thirty-two digits, ordered like the numbers. -/
theorem hex32_lt_hex32 {a b : Uuid} (h : a < b) : hex32 a < hex32 b := by
  have hlen (id : Uuid) : (Radix.spell 16 (32 - (Radix.digits 16 id.toNat).length)
      id.toNat).length = 32 := Radix.length_spell (by norm_num) (by simpa using id.isLt)
  have hdigit : ∀ e < 16, ∀ d < e, Json.hexDigit d < Json.hexDigit e := by decide
  refine Radix.map_lt_map (fun d e hlt he => hdigit e he d hlt) (by norm_num)
    (fun _ => digit_lt) (fun _ => digit_lt) ((hlen a).trans (hlen b).symm) ?_
  rw [Radix.value_spell, Radix.value_spell]
  exact h

/-- The literal parts spelled out, for comparing two keys character by character. -/
private theorem threadLiterals :
    threadsPrefix = ['t', 'h', 'r', 'e', 'a', 'd', 's', '/'] ∧
    msgsPrefix = ['m', 's', 'g', 's', '/'] ∧
    attachmentsPrefix = ['a', 't', 't', 'a', 'c', 'h', 'm', 'e', 'n', 't', 's', '/'] ∧
    idxAgent = ['i', 'd', 'x', '/', 'a', 'g', 'e', 'n', 't', '/'] ∧
    idxThreadAgentPrefix = ['i', 'd', 'x', '/', 't', 'h', 'r', 'e', 'a', 'd', '_', 'a', 'g', 'e',
        'n', 't', '/'] ∧
    metaText .threads = ['m', 'e', 't', 'a', '/', 't', 'h', 'r', 'e', 'a', 'd', '_', 'c', 'o',
        'u', 'n', 't'] ∧
    metaText .messages = ['m', 'e', 't', 'a', '/', 'm', 's', 'g', '_', 'c', 'o', 'u', 'n', 't'] :=
  ⟨rfl, rfl, rfl, rfl, rfl, rfl, rfl⟩

/-- The end of an index key, and of a message key. -/
theorem tail_injective {us us' : ℕ} {id id' : Uuid}
    (h : decimal 20 us ++ '/' :: hex32 id = decimal 20 us' ++ '/' :: hex32 id') :
    us = us' ∧ id = id' := by
  obtain ⟨hus, hid⟩ := eq_of_append_sep (slash_notMem_decimal us) (slash_notMem_decimal us') h
  exact ⟨decimal_injective 20 hus, hex32_injective hid⟩

/-- **The key builders never collide.** -/
theorem text_injective : Function.Injective text := by
  intro k k' h
  cases k with
  | thread a =>
      cases k' with
      | thread b =>
          exact congrArg thread (hex32_injective (by simpa [text, threadLiterals] using h))
      | counter c => cases c <;> simp [text, threadLiterals] at h
      | _ => simp [text, threadLiterals] at h
  | message t ts m =>
      cases k' with
      | message t' ts' m' =>
          obtain ⟨ht, htail⟩ := eq_of_append_sep (slash_notMem_hex32 t) (slash_notMem_hex32 t')
            (by simpa [text, threadLiterals] using h)
          obtain ⟨rfl, rfl⟩ := tail_injective htail
          rw [hex32_injective ht]
      | counter c => cases c <;> simp [text, threadLiterals] at h
      | _ => simp [text, threadLiterals] at h
  | attachment a =>
      cases k' with
      | attachment b =>
          exact congrArg attachment (hex32_injective (by simpa [text, threadLiterals] using h))
      | counter c => cases c <;> simp [text, threadLiterals] at h
      | _ => simp [text, threadLiterals] at h
  | idxAgentThread a us t =>
      cases k' with
      | idxAgentThread a' us' t' =>
          have hsplit : (a.toList ++ '/' :: decimal 20 us) ++ '/' :: hex32 t =
              (a'.toList ++ '/' :: decimal 20 us') ++ '/' :: hex32 t' := by
            simpa [text, threadLiterals] using h
          obtain ⟨hfront, ht⟩ :=
            eq_of_sep_append (slash_notMem_hex32 t) (slash_notMem_hex32 t') hsplit
          obtain ⟨ha, hus⟩ := eq_of_sep_append (slash_notMem_decimal us)
            (slash_notMem_decimal us') hfront
          rw [String.toList_inj.mp ha, decimal_injective 20 hus, hex32_injective ht]
      | counter c => cases c <;> simp [text, threadLiterals] at h
      | _ => simp [text, threadLiterals] at h
  | idxThreadAgent a =>
      cases k' with
      | idxThreadAgent b =>
          exact congrArg idxThreadAgent (hex32_injective (by simpa [text, threadLiterals] using h))
      | counter c => cases c <;> simp [text, threadLiterals] at h
      | _ => simp [text, threadLiterals] at h
  | counter c =>
      cases k' with
      | counter c' => cases c <;> cases c' <;> simp [text, threadLiterals] at h ⊢
      | _ => cases c <;> simp [text, threadLiterals] at h

/-! ### The order of message keys -/

theorem length_decimal (ts : BitVec 64) : (decimal 20 ts.toNat).length = 20 := by
  rw [decimal, List.length_map]
  exact length_paddedDigits (ts.isLt.trans (by norm_num))

theorem message_lt_message {t m m' : Uuid} {ts ts' : BitVec 64}
    (h : ts < ts' ∨ ts = ts' ∧ m < m') :
    (message t ts.toNat m).text < (message t ts'.toNat m').text := by
  refine List.Lex.append_left _ (List.Lex.append_left _ (List.Lex.cons ?_) _) _
  rcases h with hlt | ⟨rfl, hlt⟩
  · have hdecimal : decimal 20 ts.toNat < decimal 20 ts'.toNat :=
      decimal_lt_decimal (ts'.isLt.trans (by norm_num)) hlt
    exact append_lt_append ((length_decimal ts).trans (length_decimal ts').symm) hdecimal
  · exact List.Lex.append_left _ (List.Lex.cons (hex32_lt_hex32 hlt)) _

/-- **The messages of a thread are sorted by time, and at one time by id.** -/
theorem message_lt_iff {t m m' : Uuid} {ts ts' : BitVec 64} :
    (message t ts.toNat m).text < (message t ts'.toNat m').text ↔
      ts < ts' ∨ ts = ts' ∧ m < m' := by
  refine ⟨fun h => ?_, message_lt_message⟩
  rcases lt_trichotomy ts.toNat ts'.toNat with hts | hts | hts
  · exact .inl hts
  · obtain rfl := BitVec.eq_of_toNat_eq hts
    rcases lt_trichotomy m.toNat m'.toNat with hm | hm | hm
    · exact .inr ⟨rfl, hm⟩
    · rw [BitVec.eq_of_toNat_eq hm] at h
      exact absurd h (List.lt_irrefl _)
    · exact absurd h (List.lt_asymm (message_lt_message (.inr ⟨rfl, hm⟩)))
  · exact absurd h (List.lt_asymm (message_lt_message (.inl hts)))

/-! ### What a prefix scan picks out -/

/-- The messages of a thread, and nothing else. -/
theorem prefix_threadMessages_iff {t : Uuid} {k : Key} :
    threadMessagesPrefix t <+: k.text ↔ ∃ ts m, k = message t ts m := by
  constructor
  · rintro ⟨rest, h⟩
    cases k with
    | message t' ts m =>
        obtain ⟨ht, -⟩ := eq_of_append_sep (slash_notMem_hex32 t) (slash_notMem_hex32 t')
          (by simpa [text, threadMessagesPrefix, threadLiterals] using h)
        exact ⟨ts, m, by rw [hex32_injective ht]⟩
    | counter c => cases c <;> simp [text, threadMessagesPrefix, threadLiterals] at h
    | _ => simp [text, threadMessagesPrefix, threadLiterals] at h
  · rintro ⟨ts, m, rfl⟩
    exact ⟨decimal 20 ts ++ '/' :: hex32 m, by simp [text, threadMessagesPrefix]⟩

/-- An agent's prefix picks out index keys only. -/
theorem exists_of_prefix_idxAgent {agent : String} {k : Key} (h : idxAgentPrefix agent <+: k.text) :
    ∃ agent' us t, k = idxAgentThread agent' us t := by
  cases k with
  | idxAgentThread agent' us t => exact ⟨agent', us, t, rfl⟩
  | counter c => cases c <;> simp [text, idxAgentPrefix, threadLiterals] at h
  | _ => simp [text, idxAgentPrefix, threadLiterals] at h

/-- **The prefix of an agent also picks out agents below it, and an agent whose index key goes
on with the rest of the prefix.** -/
theorem prefix_idxAgent_iff {agent agent' : String} {us : ℕ} {t : Uuid} :
    idxAgentPrefix agent <+: (idxAgentThread agent' us t).text ↔
      agent = agent' ∨ agent.toList ++ ['/'] <+: agent'.toList ∨
        agent.toList = agent'.toList ++ '/' :: decimal 20 us := by
  have hend {l : List Char} :
      l ++ ['/'] <+: decimal 20 us ++ '/' :: hex32 t ↔ l = decimal 20 us := by
    rw [sep_prefix_iff, or_iff_right (not_prefix_sep (slash_notMem_decimal us))]
    refine or_iff_left ?_
    rintro ⟨l', -, hprefix⟩
    exact not_prefix_sep (slash_notMem_hex32 t) hprefix
  rw [idxAgentPrefix, text, List.prefix_append_right_inj, sep_prefix_iff, or_left_comm,
    String.toList_inj]
  simp only [hend, exists_eq_right]

/-! ### Thread ids in index keys -/

/-- `u128::from_str_radix(text, 16)`. -/
def uuidOfHex (text : List Char) : Option Uuid :=
  let digits := if text.head? = some '+' then text.tail else text
  if digits ≠ [] ∧ digits.all (isDigit 16) ∧ numberOf 16 digits < 2 ^ 128 then
    some (BitVec.ofNat 128 (numberOf 16 digits))
  else none

theorem uuidOfHex_hex32 (id : Uuid) : uuidOfHex (hex32 id) = some id := by
  have hne : hex32 id ≠ [] := by
    intro hnil
    rw [hex32, List.map_eq_nil_iff, Radix.spell, List.append_eq_nil_iff] at hnil
    rw [hnil.2] at hnil
    exact absurd hnil.1 (by simp)
  have hbound : numberOf 16 (hex32 id) < 2 ^ 128 := by
    rw [numberOf_hex32]
    exact id.isLt
  have hdigit : ∀ d < 16, isDigit 16 (Json.hexDigit d) = true ∧ Json.hexDigit d ≠ '+' := by
    decide
  have hall : ∀ c ∈ hex32 id, isDigit 16 c = true ∧ c ≠ '+' := by
    intro c hc
    obtain ⟨d, hd, rfl⟩ := List.mem_map.mp hc
    exact hdigit d (digit_lt hd)
  have hsign : (hex32 id).head? ≠ some '+' := fun hhead =>
    (hall '+' (List.mem_of_head? hhead)).2 rfl
  unfold uuidOfHex
  simp only [if_neg hsign]
  rw [if_pos ⟨hne, List.all_eq_true.mpr fun c hc => (hall c hc).1, hbound⟩, numberOf_hex32,
    BitVec.ofNat_toNat, BitVec.setWidth_eq]

/-- Extract the thread id from an agent index key: what follows the last slash. -/
def extractThreadId (text : List Char) : Option Uuid :=
  if '/' ∈ text then uuidOfHex (text.reverse.takeWhile (· ≠ '/')).reverse else none

/-- **The thread of an index entry is read off its key.** -/
theorem extractThreadId_text (agent : String) (us : ℕ) (t : Uuid) :
    extractThreadId (idxAgentThread agent us t).text = some t := by
  have hslash : '/' ∈ (idxAgentThread agent us t).text := by simp [text]
  have hlast : ((idxAgentThread agent us t).text.reverse.takeWhile (· ≠ '/')).reverse =
      hex32 t := by
    have hall : ∀ c ∈ (hex32 t).reverse, decide (c ≠ '/') = true := by
      intro c hc
      exact decide_eq_true fun heq => slash_notMem_hex32 t (heq ▸ List.mem_reverse.mp hc)
    have hsplit : (idxAgentThread agent us t).text.reverse =
        (hex32 t).reverse ++
          '/' :: (idxAgent ++ (agent.toList ++ '/' :: decimal 20 us)).reverse := by
      simp [text]
    rw [hsplit, List.takeWhile_append_of_pos hall, List.takeWhile_cons_of_neg (by simp),
      List.append_nil, List.reverse_reverse]
  rw [extractThreadId, if_pos hslash, hlast, uuidOfHex_hex32]

/-! ### What the store relies on -/

theorem message_injective :
    Function.Injective fun p : Uuid × BitVec 64 × Uuid => (message p.1 p.2.1.toNat p.2.2).text := by
  rintro ⟨t, ts, m⟩ ⟨t', ts', m'⟩ h
  obtain ⟨ht, hts, hm⟩ := Key.message.inj (text_injective h)
  exact Prod.ext ht (Prod.ext (BitVec.eq_of_toNat_eq hts) hm)

theorem prefix_and_message_iff {t : Uuid} {s : List Char} :
    (threadMessagesPrefix t <+: s ∧
        ∃ (t' : Uuid) (ts : BitVec 64) (m : Uuid), s = (message t' ts.toNat m).text) ↔
      ∃ (ts : BitVec 64) (m : Uuid), s = (message t ts.toNat m).text := by
  constructor
  · rintro ⟨hpre, t', ts, m, rfl⟩
    obtain ⟨_, _, hkey⟩ := prefix_threadMessages_iff.mp hpre
    obtain ⟨rfl, -, -⟩ := Key.message.inj hkey
    exact ⟨ts, m, rfl⟩
  · rintro ⟨ts, m, rfl⟩
    exact ⟨prefix_threadMessages_iff.mpr ⟨_, m, rfl⟩, t, ts, m, rfl⟩

/-- **The texts of keys identify them, sort the messages of a thread, and give a thread's
messages by its prefix and a thread by its index entries.** -/
theorem texts_of_keys :
    (Function.Injective fun p : Uuid × BitVec 64 × Uuid =>
      (message p.1 p.2.1.toNat p.2.2).text) ∧
    (∀ (t : Uuid) (ts ts' : BitVec 64) (m m' : Uuid),
      (message t ts.toNat m).text < (message t ts'.toNat m').text ↔
        ts < ts' ∨ ts = ts' ∧ m < m') ∧
    (∀ (t : Uuid) (s : List Char),
      (threadMessagesPrefix t <+: s ∧
          ∃ (t' : Uuid) (ts : BitVec 64) (m : Uuid), s = (message t' ts.toNat m).text) ↔
        ∃ (ts : BitVec 64) (m : Uuid), s = (message t ts.toNat m).text) ∧
    Function.Injective text ∧
    ∀ (agent : String) (us : ℕ) (t : Uuid),
      extractThreadId (idxAgentThread agent us t).text = some t :=
  ⟨message_injective, fun _ _ _ _ _ => message_lt_iff, fun _ _ => prefix_and_message_iff,
    text_injective, extractThreadId_text⟩

end Key

end ClawDesk.Threads
