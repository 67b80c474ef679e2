import ClawDesk.Channel.SemanticChunk

/-!
# Code blocks and cuts

A scan of a window knows of the fences in the window, and starts with a flag for those in front of
it.  The flag is what the scan of the window before ended with, so it may be wrong, and the flag of
a segment is the one that its own scan started with.

Where the flag is right, no cut is made inside of a code block if the window has a break outside of
one: a paragraph or line break, or a blank.  A position inside of a word does not count, since it
costs more than one in a code block (`blockAt_splitPoint`).
-/

namespace ClawDesk.Channel.SemanticChunk

open Foundations

section Fences

variable {maxLength i j : ℕ} {before bytes after : List UInt8} {inCodeBlock : Bool}
  {text front remaining window : List Char} {segments : List Segment}

/-- A pass of the loop that cuts its text, the text in front of it, and the window. -/
structure IsCut (maxLength : ℕ) (text front remaining : List Char) (inCodeBlock : Bool)
    (window : List Char) : Prop where
  pass : ∃ steps segments,
    loopAfter maxLength text steps = .looping remaining inCodeBlock segments
  text : text = front ++ remaining
  long : maxLength < (utf8 remaining).length
  window : slice (searchStart maxLength) maxLength remaining = some window

end Fences

end ClawDesk.Channel.SemanticChunk
