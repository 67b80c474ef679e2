import ClawDesk.Foundations.Text
import ClawDesk.Runtime.Types

/-!
# Store keys

Every record of the runtime lives in one key-value store whose keys are strings:

```text
runtime:runs:{run_id}                       WorkflowRun
runtime:runs:{run_id}:checkpoint            Checkpoint
runtime:runs:{run_id}:journal:{seq:010}     JournalEntry
runtime:leases:{run_id}                     Lease
runtime:index:state:{label}:{run_id}        run id
runtime:index:worker:{worker_id}:{run_id}   run id
runtime:dlq:{run_id}                        DeadLetterEntry
```

A `Key` is a key builder applied to its arguments and `Key.text` is the string
it builds.  Because a run id has no colon the builders never collide
(`Key.text_injective`), so a store may be keyed by `Key`; what a prefix scan
picks out is decided on the strings, and the `prefix_` lemmas say which
builders that is.
-/

namespace ClawDesk.Runtime

open Foundations (decimal decimal_injective eq_of_append_sep eq_of_sep_append ne_append_sep)

/-- A key of the store, by the builder that makes it. -/
inductive Key where
  | run (id : RunId)
  | checkpoint (id : RunId)
  | journal (id : RunId) (seq : ℕ)
  | lease (id : RunId)
  | indexState (label : String) (id : RunId)
  | indexWorker (worker : WorkerId) (id : RunId)
  | dlq (id : RunId)
  deriving DecidableEq

namespace Key

/-- What is stored under a key, after deserialization. -/
@[reducible] def Val : Key → Type
  | run _ => WorkflowRun
  | checkpoint _ => Checkpoint
  | journal _ _ => JournalEntry
  | lease _ => Lease
  | indexState _ _ => RunId
  | indexWorker _ _ => RunId
  | dlq _ => DeadLetterEntry

/-- The run a key is about. -/
def runId : Key → RunId
  | run id => id
  | checkpoint id => id
  | journal id _ => id
  | lease id => id
  | indexState _ id => id
  | indexWorker _ id => id
  | dlq id => id

/-! ### The literal parts of the keys -/

def runsPrefix : List Char := "runtime:runs:".toList
def checkpointSuffix : List Char := ":checkpoint".toList
def journalInfix : List Char := ":journal:".toList
def leasesPrefix : List Char := "runtime:leases:".toList
def statePrefix : List Char := "runtime:index:state:".toList
def workerPrefix : List Char := "runtime:index:worker:".toList
def dlqPrefix : List Char := "runtime:dlq:".toList

/-- The string a builder makes. -/
def text : Key → List Char
  | run id => runsPrefix ++ id.text.toList
  | checkpoint id => runsPrefix ++ (id.text.toList ++ checkpointSuffix)
  | journal id seq => runsPrefix ++ (id.text.toList ++ (journalInfix ++ decimal 10 seq))
  | lease id => leasesPrefix ++ id.text.toList
  | indexState label id => statePrefix ++ (label.toList ++ ':' :: id.text.toList)
  | indexWorker worker id => workerPrefix ++ (worker.toList ++ ':' :: id.text.toList)
  | dlq id => dlqPrefix ++ id.text.toList

/-- The prefix `runtime:runs:{run_id}:journal:`. -/
def journalPrefix (id : RunId) : List Char := runsPrefix ++ (id.text.toList ++ journalInfix)

/-- The prefix `runtime:index:state:{label}:`. -/
def indexStatePrefix (label : String) : List Char := statePrefix ++ (label.toList ++ [':'])

/-- The prefix `runtime:index:worker:{worker_id}:`. -/
def indexWorkerPrefix (worker : WorkerId) : List Char :=
  workerPrefix ++ (worker.toList ++ [':'])

/-- Does the key's string start with `pre`? -/
def startsWith (pre : List Char) (k : Key) : Bool := pre.isPrefixOf k.text

theorem startsWith_iff {pre : List Char} {k : Key} :
    k.startsWith pre = true ↔ pre <+: k.text := List.isPrefixOf_iff_prefix

/-- The literal parts spelled out, for comparing two keys character by character. -/
private theorem literals :
    runsPrefix = ['r', 'u', 'n', 't', 'i', 'm', 'e', ':', 'r', 'u', 'n', 's', ':'] ∧
    checkpointSuffix = [':', 'c', 'h', 'e', 'c', 'k', 'p', 'o', 'i', 'n', 't'] ∧
    journalInfix = [':', 'j', 'o', 'u', 'r', 'n', 'a', 'l', ':'] ∧
    leasesPrefix = ['r', 'u', 'n', 't', 'i', 'm', 'e', ':', 'l', 'e', 'a', 's', 'e', 's', ':'] ∧
    statePrefix = ['r', 'u', 'n', 't', 'i', 'm', 'e', ':', 'i', 'n', 'd', 'e', 'x',
        ':', 's', 't', 'a', 't', 'e', ':'] ∧
    workerPrefix = ['r', 'u', 'n', 't', 'i', 'm', 'e', ':', 'i', 'n', 'd', 'e', 'x',
        ':', 'w', 'o', 'r', 'k', 'e', 'r', ':'] ∧
    dlqPrefix = ['r', 'u', 'n', 't', 'i', 'm', 'e', ':', 'd', 'l', 'q', ':'] :=
  ⟨rfl, rfl, rfl, rfl, rfl, rfl, rfl⟩

theorem runId_ext {a b : RunId} (h : a.text.toList = b.text.toList) : a = b := by
  obtain ⟨a, ha⟩ := a
  obtain ⟨b, hb⟩ := b
  obtain rfl : a = b := String.toList_inj.mp h
  rfl

/-- **The key builders never collide.** -/
theorem text_injective : Function.Injective text := by
  intro k k' h
  cases k with
  | run a =>
    cases k' with
    | run b => exact congrArg run (runId_ext (by simpa [text, literals] using h))
    | checkpoint b => exact absurd (by simpa [text, literals] using h) (ne_append_sep a.noColon)
    | journal b n => exact absurd (by simpa [text, literals] using h) (ne_append_sep a.noColon)
    | _ => simp [text, literals] at h
  | checkpoint a =>
    cases k' with
    | run b => exact absurd (by simpa [text, literals] using h.symm) (ne_append_sep b.noColon)
    | checkpoint b => exact congrArg checkpoint (runId_ext (by simpa [text, literals] using h))
    | journal b n =>
        have := (eq_of_append_sep a.noColon b.noColon (by simpa [text, literals] using h)).2
        simp at this
    | _ => simp [text, literals] at h
  | journal a m =>
    cases k' with
    | run b => exact absurd (by simpa [text, literals] using h.symm) (ne_append_sep b.noColon)
    | checkpoint b =>
        have := (eq_of_append_sep a.noColon b.noColon (by simpa [text, literals] using h)).2
        simp at this
    | journal b n =>
        obtain ⟨hid, hseq⟩ :=
          eq_of_append_sep a.noColon b.noColon (by simpa [text, literals] using h)
        have hseq' : m = n := decimal_injective 10 (by simpa using hseq)
        rw [runId_ext hid, hseq']
    | _ => simp [text, literals] at h
  | lease a =>
    cases k' with
    | lease b => exact congrArg lease (runId_ext (by simpa [text, literals] using h))
    | _ => simp [text, literals] at h
  | indexState l a =>
    cases k' with
    | indexState l' b =>
        obtain ⟨hl, hid⟩ := eq_of_sep_append a.noColon b.noColon (by simpa [text, literals] using h)
        rw [runId_ext hid, String.toList_inj.mp hl]
    | _ => simp [text, literals] at h
  | indexWorker w a =>
    cases k' with
    | indexWorker w' b =>
        obtain ⟨hw, hid⟩ := eq_of_sep_append a.noColon b.noColon (by simpa [text, literals] using h)
        rw [runId_ext hid, String.toList_inj.mp hw]
    | _ => simp [text, literals] at h
  | dlq a =>
    cases k' with
    | dlq b => exact congrArg dlq (runId_ext (by simpa [text, literals] using h))
    | _ => simp [text, literals] at h

/-! ### What a prefix scan picks out -/

/-- The journal of a run, and nothing else. -/
theorem prefix_journal {id : RunId} {k : Key} :
    journalPrefix id <+: k.text ↔ ∃ seq, k = journal id seq := by
  constructor
  · rintro ⟨rest, h⟩
    cases k with
    | run a =>
        exact absurd (by simpa [text, journalPrefix, literals] using h.symm)
          (ne_append_sep a.noColon)
    | checkpoint a =>
        have := (eq_of_append_sep id.noColon a.noColon
          (by simpa [text, journalPrefix, literals] using h)).2
        simp at this
    | journal a seq =>
        have := (eq_of_append_sep id.noColon a.noColon
          (by simpa [text, journalPrefix, literals] using h)).1
        exact ⟨seq, by rw [runId_ext this]⟩
    | _ => simp [text, journalPrefix, literals] at h
  · rintro ⟨seq, rfl⟩
    exact ⟨decimal 10 seq, by simp [text, journalPrefix]⟩

/-- `l:` starts `l':id` only if `l = l'`, when neither `l'` nor `id` has a colon. -/
theorem colon_prefix_iff {l l' : String} {id : RunId} (h' : ':' ∉ l'.toList) :
    l.toList ++ [':'] <+: l'.toList ++ ':' :: id.text.toList ↔ l = l' := by
  constructor
  · rintro ⟨rest, h⟩
    have hrest : ':' ∉ rest := by
      intro hmem
      have hcount := congrArg (List.count ':') h
      have : 0 < rest.count ':' := List.count_pos_iff.mpr hmem
      simp [List.count_eq_zero.mpr h', List.count_eq_zero.mpr id.noColon] at hcount
      omega
    exact String.toList_inj.mp (eq_of_sep_append hrest id.noColon (by simpa using h)).1
  · rintro rfl
    exact ⟨id.text.toList, by simp⟩

/-- The runs indexed under one state label. -/
theorem prefix_indexState {label label' : String} {id : RunId} (h' : ':' ∉ label'.toList) :
    indexStatePrefix label <+: (indexState label' id).text ↔ label = label' :=
  (List.prefix_append_right_inj _).trans (colon_prefix_iff h')

/-- The runs indexed under one worker. -/
theorem prefix_indexWorker {worker worker' : WorkerId} {id : RunId}
    (h' : ':' ∉ worker'.toList) :
    indexWorkerPrefix worker <+: (indexWorker worker' id).text ↔ worker = worker' :=
  (List.prefix_append_right_inj _).trans (colon_prefix_iff h')

/-- A state-index prefix picks out state-index keys only. -/
theorem exists_of_prefix_indexState {label : String} {k : Key}
    (h : indexStatePrefix label <+: k.text) : ∃ label' id, k = indexState label' id := by
  cases k with
  | indexState label' id => exact ⟨label', id, rfl⟩
  | _ => simp [text, indexStatePrefix, literals] at h

/-- A worker-index prefix picks out worker-index keys only. -/
theorem exists_of_prefix_indexWorker {worker : WorkerId} {k : Key}
    (h : indexWorkerPrefix worker <+: k.text) : ∃ worker' id, k = indexWorker worker' id := by
  cases k with
  | indexWorker worker' id => exact ⟨worker', id, rfl⟩
  | _ => simp [text, indexWorkerPrefix, literals] at h

end Key

end ClawDesk.Runtime
