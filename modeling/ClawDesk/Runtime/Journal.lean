import ClawDesk.Runtime.Store

/-!
# The activity journal

One store entry per durable side-effect, under the entry's sequence number,
padded to ten digits so that a scan returns entries in insertion order.
-/

namespace ClawDesk.Runtime.ActivityJournal

open Foundations

/-- Append an entry to the journal of a run. -/
def append (runId : RunId) (entry : JournalEntry) : Proc (Except RuntimeError Unit) :=
  (putEntry (.journal runId entry.seq) entry).andThen fun _ => .ret (.ok ())

/-- The journal entry stored in a scanned entry. -/
def entryOf : Sigma Key.Val → Option JournalEntry
  | ⟨.journal _ _, entry⟩ => some entry
  | _ => none

/-- Load all entries of a run, in the order of their keys. -/
def loadAll (runId : RunId) : Proc (Except RuntimeError (List JournalEntry)) :=
  (scanEntries (Key.journalPrefix runId)).andThen fun entries =>
    .ret (.ok (entries.filterMap entryOf))

end ClawDesk.Runtime.ActivityJournal
