import ClawDesk.Foundations.Brackets
import Mathlib.Order.Nat

/-!
# The analysis of regular expressions

Before a pattern is compiled it is cut into tokens, and a repeating quantifier on a group that
contains one is looked for.  The search keeps one flag for each depth instead of the tree of
the groups.

A problem is reported if and only if a repeating quantifier comes where a deeper flag is kept
(`detectNestedRepetition_isSome_iff`), so that the group it stands for need not be the one the
quantifier is applied to.
-/

namespace ClawDesk.Security.SafeRegex

open Foundations
open Foundations.Brackets (Shape level Balanced Kept)

/-- Maximum allowed pattern length. -/
def maxPatternLength : ℕ := 1024

/-- Why a regex pattern was rejected. -/
inductive RejectReason where
  | empty
  | tooLong (length max : ℕ)
  | unsafeNestedRepetition (detail : String)
  | ambiguousAlternation (detail : String)
  deriving DecidableEq

inductive QuantifierKind where
  | star
  | plus
  | question
  | braced
  deriving DecidableEq

def QuantifierKind.isRepeating : QuantifierKind → Bool
  | star | plus | braced => true
  | question => false

inductive Token where
  /-- A literal character or character class `[...]`. -/
  | atom
  | groupOpen
  | groupClose
  | quantifier (kind : QuantifierKind)
  | alternation
  deriving DecidableEq

/-! ### The tokenizer -/

/-- Where the characters after `n` bytes begin.  Inside of a character there is no place. -/
def dropBytes : ℕ → List Char → Option (List Char)
  | 0, cs => some cs
  | _ + 1, [] => none
  | n + 1, c :: cs => if c.utf8Size ≤ n + 1 then dropBytes (n + 1 - c.utf8Size) cs else none

/-- The characters of the first `n` bytes. -/
def takeBytes : ℕ → List Char → Option (List Char)
  | 0, _ => some []
  | _ + 1, [] => none
  | n + 1, c :: cs =>
      if c.utf8Size ≤ n + 1 then (takeBytes (n + 1 - c.utf8Size) cs).map (c :: ·) else none

/-- `&pattern[start..end]`, which panics off the boundaries of characters. -/
def slice (pattern : List Char) (start stop : ℕ) : Option (List Char) :=
  (dropBytes start pattern).bind (takeBytes (stop - start))

/-- After a lazy modifier. -/
def skipLazy : List Char → List Char
  | '?' :: rest => rest
  | rest => rest

/-- After the end of a character class, from behind its beginning. -/
def skipClassBody : List Char → List Char
  | [] => []
  | [_] => []
  | c :: d :: rest =>
      if c = ']' then d :: rest
      else if c = '\\' then skipClassBody rest
      else skipClassBody (d :: rest)

/-- After a character class, from behind its bracket. -/
def skipClass (rest : List Char) : List Char :=
  let rest := if rest.head? = some '^' then rest.tail else rest
  -- first char after `[` or `[^` can be `]` literally
  let rest := if rest.head? = some ']' then rest.tail else rest
  skipClassBody rest

/-- After the modifier of a group, from behind its question mark. -/
def skipModifier : List Char → List Char
  | [] => []
  | c :: rest =>
      if c = ')' ∨ c = '(' then c :: rest
      else if c = ':' ∨ c = '=' ∨ c = '!' ∨ c = '>' then rest
      -- Named group: `?<name>` or `?P<name>`
      else if c = '<' ∨ c = 'P' then (rest.dropWhile (· ≠ '>')).tail
      else skipModifier rest

/-- Where the body of a group begins, from behind its parenthesis. -/
def skipGroup : List Char → List Char
  | '?' :: rest => skipModifier rest
  | rest => rest

/-- `content between braces looks like a quantifier`. -/
def isCount (inner : List Char) : Bool :=
  inner.all fun c => ('0' ≤ c && c ≤ '9') || c = ','

/-- A round of the tokenizer at an opening brace. -/
def nextBraced (pattern rest : List Char) : Option (Option Token × List Char) :=
  match rest.dropWhile (· ≠ '}') with
  | [] => some (some .atom, [])
  | brace :: behind =>
      -- The indices count characters, and the slice is of bytes.
      let start := pattern.length - rest.length
      let i := pattern.length - (brace :: behind).length
      (slice pattern start i).map fun inner =>
        (some (if isCount inner then .quantifier .braced else .atom), skipLazy behind)

/-- One round of the tokenizer, at a character with what follows it: the token that is pushed,
if any, and where the next round begins. -/
def next (pattern : List Char) (c : Char) (rest : List Char) :
    Option (Option Token × List Char) :=
  match c with
  | '\\' => some (some .atom, rest.tail)
  | '[' => some (some .atom, skipClass rest)
  | '(' => some (some .groupOpen, skipGroup rest)
  | ')' => some (some .groupClose, rest)
  | '*' => some (some (.quantifier .star), skipLazy rest)
  | '+' => some (some (.quantifier .plus), skipLazy rest)
  | '?' => some (some (.quantifier .question), skipLazy rest)
  | '{' => nextBraced pattern rest
  | '|' => some (some .alternation, rest)
  | '^' | '$' => some (none, rest)
  | _ => some (some .atom, rest)

theorem skipLazy_suffix (rest : List Char) : skipLazy rest <:+ rest := by
  unfold skipLazy
  split
  · exact List.suffix_cons _ _
  · exact List.suffix_rfl

theorem skipClassBody_suffix (rest : List Char) : skipClassBody rest <:+ rest := by
  fun_induction skipClassBody rest with
  | case1 => exact List.suffix_rfl
  | case2 => exact List.nil_suffix
  | case3 => exact List.suffix_cons _ _
  | case4 _ _ _ ih => exact ih.trans ((List.suffix_cons _ _).trans (List.suffix_cons _ _))
  | case5 _ _ _ _ _ ih => exact ih.trans (List.suffix_cons _ _)

theorem ite_tail_suffix (p : Prop) [Decidable p] (rest : List Char) :
    (if p then rest.tail else rest) <:+ rest := by
  split_ifs
  · exact List.tail_suffix _
  · exact List.suffix_rfl

theorem skipClass_suffix (rest : List Char) : skipClass rest <:+ rest :=
  (skipClassBody_suffix _).trans ((ite_tail_suffix _ _).trans (ite_tail_suffix _ _))

theorem skipModifier_suffix (rest : List Char) : skipModifier rest <:+ rest := by
  induction rest with
  | nil => exact List.suffix_rfl
  | cons c rest ih =>
      unfold skipModifier
      split_ifs
      · exact List.suffix_rfl
      · exact List.suffix_cons _ _
      · exact (List.tail_suffix _).trans ((List.dropWhile_suffix _).trans (List.suffix_cons _ _))
      · exact ih.trans (List.suffix_cons _ _)

theorem skipGroup_suffix (rest : List Char) : skipGroup rest <:+ rest := by
  unfold skipGroup
  split
  · exact (skipModifier_suffix _).trans (List.suffix_cons _ _)
  · exact List.suffix_rfl

theorem length_nextBraced {pattern rest rest' : List Char} {token : Option Token}
    (h : nextBraced pattern rest = some (token, rest')) : rest'.length ≤ rest.length := by
  have hdrop := (List.dropWhile_suffix (fun c => decide (c ≠ '}')) (l := rest)).length_le
  unfold nextBraced at h
  cases hbrace : rest.dropWhile (· ≠ '}') with
  | nil =>
      rw [hbrace] at h
      obtain ⟨-, rfl⟩ := Prod.mk.inj (Option.some.inj h)
      exact Nat.zero_le _
  | cons brace behind =>
      rw [hbrace] at h hdrop
      obtain ⟨inner, -, h⟩ := Option.map_eq_some_iff.mp h
      obtain ⟨-, rfl⟩ := Prod.mk.inj h
      exact (skipLazy_suffix behind).length_le.trans ((Nat.le_succ _).trans hdrop)

/-- **A round goes on behind its character.** -/
theorem length_next {pattern rest rest' : List Char} {c : Char} {token : Option Token}
    (h : next pattern c rest = some (token, rest')) : rest'.length ≤ rest.length := by
  unfold next at h
  split at h
  case h_8 => exact length_nextBraced h
  all_goals obtain ⟨-, rfl⟩ := Prod.mk.inj (Option.some.inj h)
  · exact (List.tail_suffix _).length_le
  · exact (skipClass_suffix rest).length_le
  · exact (skipGroup_suffix rest).length_le
  · exact Nat.le_refl _
  · exact (skipLazy_suffix rest).length_le
  · exact (skipLazy_suffix rest).length_le
  · exact (skipLazy_suffix rest).length_le
  · exact Nat.le_refl _
  · exact Nat.le_refl _
  · exact Nat.le_refl _
  · exact Nat.le_refl _

/-- The rounds of the tokenizer from a place in the pattern on. -/
def tokenizeFrom (pattern : List Char) : List Char → Option (List Token)
  | [] => some []
  | c :: rest =>
      match _hnext : next pattern c rest with
      | none => none
      | some (token, rest') => (tokenizeFrom pattern rest').map (token.toList ++ ·)
  termination_by rest => rest.length
  decreasing_by exact Nat.lt_succ_of_le (length_next _hnext)

/-- The tokens of a pattern, unless the tokenizer panics. -/
def tokenize (pattern : String) : Option (List Token) :=
  tokenizeFrom pattern.toList pattern.toList

/-! ### Slices of one-byte characters -/

section OneByte

variable {pattern : List Char} {n : ℕ}

theorem dropBytes_eq (h : ∀ c ∈ pattern, c.utf8Size = 1) (hn : n ≤ pattern.length) :
    dropBytes n pattern = some (pattern.drop n) := by
  induction pattern generalizing n with
  | nil => rw [Nat.le_zero.mp hn, dropBytes, List.drop_nil]
  | cons c pattern ih =>
      cases n with
      | zero => rw [dropBytes, List.drop_zero]
      | succ n =>
          rw [dropBytes, h c List.mem_cons_self, if_pos (Nat.le_add_left 1 n), Nat.add_sub_cancel,
            List.drop_succ_cons]
          exact ih (fun c hc => h c (List.mem_cons_of_mem _ hc)) (Nat.le_of_succ_le_succ hn)

theorem takeBytes_eq (h : ∀ c ∈ pattern, c.utf8Size = 1) (hn : n ≤ pattern.length) :
    takeBytes n pattern = some (pattern.take n) := by
  induction pattern generalizing n with
  | nil => rw [Nat.le_zero.mp hn, takeBytes, List.take_nil]
  | cons c pattern ih =>
      cases n with
      | zero => rw [takeBytes, List.take_zero]
      | succ n =>
          rw [takeBytes, h c List.mem_cons_self, if_pos (Nat.le_add_left 1 n), Nat.add_sub_cancel,
            ih (fun c hc => h c (List.mem_cons_of_mem _ hc)) (Nat.le_of_succ_le_succ hn)]
          rfl

theorem slice_eq (h : ∀ c ∈ pattern, c.utf8Size = 1) {start stop : ℕ}
    (hstart : start ≤ pattern.length) (hstop : stop ≤ pattern.length) :
    slice pattern start stop = some ((pattern.drop start).take (stop - start)) := by
  have hdrop : ∀ c ∈ pattern.drop start, c.utf8Size = 1 := fun c hc =>
    h c (List.mem_of_mem_drop hc)
  rw [slice, dropBytes_eq h hstart, Option.bind_some, takeBytes_eq hdrop]
  rw [List.length_drop]
  omega

end OneByte

/-! ### The analysis -/

/-- `Vec::resize`, with `false`. -/
def resize (flags : List Bool) (n : ℕ) : List Bool :=
  flags.take n ++ List.replicate (n - flags.length) false

/-- The flags when a group of a depth is opened. -/
def openFlags (flags : List Bool) (depth : ℕ) : List Bool :=
  (if flags.length ≤ depth then resize flags (depth + 1) else flags).set depth false

/-- The least flagged depth that is greater. -/
def deeperFlag (flags : List Bool) (depth : ℕ) : Option ℕ :=
  (List.range' (depth + 1) (flags.length - (depth + 1))).find? fun d => flags.getD d false

def nestedDetail (d : ℕ) : String :=
  "repeating quantifier on group that contains a repeating quantifier (depth " ++ toString d ++ ")"

/-- The loop of `detect_nested_repetition`. -/
def detectNestedFrom (depth : ℕ) (quantifierAtDepth : List Bool) : List Token → Option String
  | [] => none
  | .groupOpen :: tokens =>
      detectNestedFrom (depth + 1) (openFlags quantifierAtDepth (depth + 1)) tokens
  | .groupClose :: tokens => detectNestedFrom (depth - 1) quantifierAtDepth tokens
  | .quantifier kind :: tokens =>
      if kind.isRepeating then
        let quantifierAtDepth :=
          if 0 < depth then quantifierAtDepth.set depth true else quantifierAtDepth
        match deeperFlag quantifierAtDepth depth with
        | some d => some (nestedDetail d)
        | none => detectNestedFrom depth quantifierAtDepth tokens
      else detectNestedFrom depth quantifierAtDepth tokens
  | _ :: tokens => detectNestedFrom depth quantifierAtDepth tokens

/-- Check for nested repetition: a quantifier applied to a group that itself contains a
quantifier. -/
def detectNestedRepetition (tokens : List Token) : Option String := detectNestedFrom 0 [] tokens

def alternationDetail (branchCount : ℕ) : String :=
  "alternation with " ++ toString branchCount ++ " branches under repeating quantifier"

/-- The loop of `detect_ambiguous_alternation`, at a position of the tokens. -/
def detectAmbiguousFrom (tokens : List Token) (groupStarts : List ℕ) (i : ℕ) :
    List Token → Option String
  | [] => none
  | .groupOpen :: rest => detectAmbiguousFrom tokens (i :: groupStarts) (i + 1) rest
  | .groupClose :: rest =>
      match groupStarts with
      | [] => detectAmbiguousFrom tokens [] (i + 1) rest
      | start :: groupStarts =>
          let branches := ((tokens.take i).drop (start + 1)).count .alternation
          match rest with
          | .quantifier kind :: _ =>
              if kind.isRepeating ∧ 0 < branches then some (alternationDetail (branches + 1))
              else detectAmbiguousFrom tokens groupStarts (i + 1) rest
          | _ => detectAmbiguousFrom tokens groupStarts (i + 1) rest
  | _ :: rest => detectAmbiguousFrom tokens groupStarts (i + 1) rest

/-- Check for alternation inside a quantified group. -/
def detectAmbiguousAlternation (tokens : List Token) : Option String :=
  detectAmbiguousFrom tokens [] 0 tokens

/-- Why a pattern is rejected, if it is, unless the tokenizer panics. -/
def analyzePattern (pattern : String) : Option (Option RejectReason) :=
  if pattern = "" then some (some .empty)
  else if maxPatternLength < pattern.utf8ByteSize then
    some (some (.tooLong pattern.utf8ByteSize maxPatternLength))
  else
    (tokenize pattern).map fun tokens =>
      match detectNestedRepetition tokens with
      | some detail => some (.unsafeNestedRepetition detail)
      | none => (detectAmbiguousAlternation tokens).map .ambiguousAlternation

/-! ### What the flags know -/

/-- What a token does to the groups. -/
def shape : Token → Shape
  | .groupOpen => .opens
  | .groupClose => .closes
  | _ => .plain

/-- The repeating quantifiers. -/
def repeats : Token → Bool
  | .quantifier kind => kind.isRepeating
  | _ => false

/-- The depth after some tokens. -/
def depthAfter (tokens : List Token) : ℕ := level shape 0 tokens

/-- What the flags are after some tokens: those of the depths at which a repeating quantifier was
seen with no group of the depth opened since. -/
structure Tracks (seen : List Token) (depth : ℕ) (flags : List Bool) : Prop where
  depth_eq : depthAfter seen = depth
  /-- The flag of the current depth exists. -/
  lt_length : 0 < depth → depth < flags.length
  flag_iff : ∀ d, 0 < d → (flags.getD d false = true ↔ Kept shape repeats d seen)

section Flags

variable {flags : List Bool} {depth d : ℕ}

theorem getD_resize {n : ℕ} (h : flags.length ≤ n) :
    (resize flags n).getD d false = flags.getD d false := by
  rw [resize, List.take_of_length_le h, List.getD_eq_getElem?_getD, List.getD_eq_getElem?_getD]
  rcases Nat.lt_or_ge d flags.length with hd | hd
  · rw [List.getElem?_append_left hd]
  · rw [List.getElem?_append_right hd, List.getElem?_eq_none hd, List.getElem?_replicate]
    split_ifs <;> rfl

theorem length_openFlags : depth < (openFlags flags depth).length := by
  unfold openFlags
  rw [List.length_set]
  split_ifs with h
  · simp [resize]
    omega
  · omega

theorem getD_set {b : Bool} (h : depth < flags.length) :
    (flags.set depth b).getD d false = if depth = d then b else flags.getD d false := by
  rw [List.getD_eq_getElem?_getD, List.getD_eq_getElem?_getD, List.getElem?_set]
  split_ifs <;> simp_all

theorem getD_openFlags :
    (openFlags flags depth).getD d false = if depth = d then false else flags.getD d false := by
  have hlength : depth <
      (if flags.length ≤ depth then resize flags (depth + 1) else flags).length := by
    have hset := @length_openFlags flags depth
    rwa [openFlags, List.length_set] at hset
  rw [openFlags, getD_set hlength]
  split_ifs with hd hle
  · rfl
  · exact getD_resize (Nat.le_succ_of_le hle)
  · rfl

/-- A deeper flag is found if there is one. -/
theorem deeperFlag_isSome_iff :
    (deeperFlag flags depth).isSome = true ↔ ∃ d, depth < d ∧ flags.getD d false = true := by
  rw [deeperFlag, List.find?_isSome]
  constructor
  · rintro ⟨d, hd, hflag⟩
    rw [List.mem_range'_1] at hd
    exact ⟨d, by omega, hflag⟩
  · rintro ⟨d, hd, hflag⟩
    refine ⟨d, ?_, hflag⟩
    have hlt : d < flags.length := by
      by_contra hge
      rw [List.getD_eq_getElem?_getD, List.getElem?_eq_none (Nat.not_lt.mp hge)] at hflag
      cases hflag
    rw [List.mem_range'_1]
    omega

end Flags

section Detect

variable {seen tokens : List Token} {depth : ℕ} {flags : List Bool}

theorem depthAfter_concat {token : Token} :
    depthAfter (seen ++ [token]) = Brackets.after shape (depthAfter seen) token := by
  rw [depthAfter, Brackets.level_append]
  rfl

theorem tracks_nil : Tracks [] 0 [] where
  depth_eq := rfl
  lt_length := fun h => absurd h (Nat.lt_irrefl 0)
  flag_iff := fun d _ => iff_of_false (by simp) Brackets.not_kept_nil

/-- Opening a group. -/
theorem Tracks.groupOpen (h : Tracks seen depth flags) :
    Tracks (seen ++ [.groupOpen]) (depth + 1) (openFlags flags (depth + 1)) where
  depth_eq := by rw [depthAfter_concat, h.depth_eq]; rfl
  lt_length := fun _ => length_openFlags
  flag_iff := by
    intro d hd
    have hlevel : level shape 0 seen = depth := h.depth_eq
    rw [getD_openFlags, Brackets.kept_concat, hlevel, ← h.flag_iff d hd]
    by_cases heq : depth + 1 = d
    · simp [heq, repeats, shape]
    · simp [heq, repeats]

/-- A token that neither opens a group nor is a repeating quantifier. -/
theorem Tracks.pass (h : Tracks seen depth flags) {token : Token}
    (hshape : shape token ≠ .opens) (hrepeats : repeats token = false) :
    Tracks (seen ++ [token]) (Brackets.after shape depth token) flags where
  depth_eq := by rw [depthAfter_concat, h.depth_eq]
  lt_length := by
    intro hpos
    have hle : Brackets.after shape depth token ≤ depth := by
      unfold Brackets.after
      split
      · contradiction
      · exact Nat.sub_le _ _
      · exact Nat.le_refl _
    exact hle.trans_lt (h.lt_length (hpos.trans_le hle))
  flag_iff := by
    intro d hd
    rw [Brackets.kept_concat, h.flag_iff d hd]
    simp [hrepeats, hshape]

/-- A repeating quantifier sets the flag of its depth. -/
theorem Tracks.repeating (h : Tracks seen depth flags) {kind : QuantifierKind}
    (hkind : kind.isRepeating = true) :
    Tracks (seen ++ [.quantifier kind]) depth
      (if 0 < depth then flags.set depth true else flags) where
  depth_eq := by rw [depthAfter_concat, h.depth_eq]; rfl
  lt_length := by
    intro hpos
    rw [if_pos hpos, List.length_set]
    exact h.lt_length hpos
  flag_iff := by
    intro d hd
    have hlevel : level shape 0 seen = depth := h.depth_eq
    rw [Brackets.kept_concat, hlevel, ← h.flag_iff d hd]
    by_cases hpos : 0 < depth
    · rw [if_pos hpos, getD_set (h.lt_length hpos)]
      by_cases heq : depth = d
      · simp [heq, repeats, hkind]
      · simp [heq, shape]
    · have hne : depth ≠ d := by omega
      simp [hpos, hne, shape]

/-- What is looked up at a repeating quantifier. -/
theorem Tracks.deeperFlag_isSome_iff (h : Tracks seen depth flags) {kind : QuantifierKind}
    (hkind : kind.isRepeating = true) :
    (deeperFlag (if 0 < depth then flags.set depth true else flags) depth).isSome = true ↔
      ∃ d, depthAfter seen < d ∧ Kept shape repeats d seen := by
  rw [SafeRegex.deeperFlag_isSome_iff, h.depth_eq]
  refine exists_congr fun d => and_congr_right fun hd => ?_
  have hlevel : level shape 0 seen = depth := h.depth_eq
  rw [(h.repeating hkind).flag_iff d (Nat.zero_lt_of_lt hd), Brackets.kept_concat, hlevel]
  simp [Nat.ne_of_lt hd, shape]

/-- A repeating quantifier comes where a deeper flag is kept. -/
def Climbs (seen tokens : List Token) : Prop :=
  ∃ front kind back d, tokens = front ++ .quantifier kind :: back ∧ kind.isRepeating = true ∧
    depthAfter (seen ++ front) < d ∧ Kept shape repeats d (seen ++ front)

theorem not_climbs_nil : ¬ Climbs seen [] := by
  rintro ⟨front, kind, back, d, hsplit, -⟩
  simp at hsplit

/-- The first token is the quantifier, or it comes later. -/
theorem climbs_cons {token : Token} : Climbs seen (token :: tokens) ↔
    (repeats token = true ∧ ∃ d, depthAfter seen < d ∧ Kept shape repeats d seen) ∨
      Climbs (seen ++ [token]) tokens := by
  constructor
  · rintro ⟨front, kind, back, d, hsplit, hkind, hdepth, hkept⟩
    cases front with
    | nil =>
        obtain ⟨rfl, -⟩ := List.cons.inj hsplit
        rw [List.append_nil] at hdepth hkept
        exact Or.inl ⟨hkind, d, hdepth, hkept⟩
    | cons first front =>
        obtain ⟨rfl, htail⟩ := List.cons.inj hsplit
        refine Or.inr ⟨front, kind, back, d, htail, hkind, ?_, ?_⟩
        · rwa [List.append_assoc]
        · rwa [List.append_assoc]
  · rintro (⟨hrepeats, d, hdepth, hkept⟩ | ⟨front, kind, back, d, rfl, hkind, hdepth, hkept⟩)
    · cases token with
      | quantifier kind =>
          exact ⟨[], kind, tokens, d, rfl, hrepeats, by rwa [List.append_nil],
            by rwa [List.append_nil]⟩
      | atom => cases hrepeats
      | groupOpen => cases hrepeats
      | groupClose => cases hrepeats
      | alternation => cases hrepeats
    · rw [List.append_assoc] at hdepth hkept
      exact ⟨token :: front, kind, back, d, rfl, hkind, hdepth, hkept⟩

theorem climbs_cons_of_not_repeats {token : Token} (h : repeats token = false) :
    Climbs seen (token :: tokens) ↔ Climbs (seen ++ [token]) tokens := by
  rw [climbs_cons, h]
  simp

/-- **The search reports a problem if a repeating quantifier comes where a deeper flag is kept**,
by induction on the tokens. -/
theorem detectNestedFrom_isSome_iff (h : Tracks seen depth flags) :
    (detectNestedFrom depth flags tokens).isSome = true ↔ Climbs seen tokens := by
  induction tokens generalizing seen depth flags with
  | nil => simp [detectNestedFrom, not_climbs_nil]
  | cons token tokens ih =>
      cases token with
      | groupOpen =>
          rw [climbs_cons_of_not_repeats rfl]
          exact ih h.groupOpen
      | groupClose =>
          rw [climbs_cons_of_not_repeats rfl]
          exact ih (h.pass (by decide) rfl)
      | atom =>
          rw [climbs_cons_of_not_repeats rfl]
          exact ih (h.pass (by decide) rfl)
      | alternation =>
          rw [climbs_cons_of_not_repeats rfl]
          exact ih (h.pass (by decide) rfl)
      | quantifier kind =>
          cases hkind : kind.isRepeating with
          | false =>
              have hrepeats : repeats (.quantifier kind) = false := hkind
              rw [climbs_cons_of_not_repeats hrepeats, detectNestedFrom, hkind]
              exact ih (h.pass (by simp [shape]) hrepeats)
          | true =>
              have hrepeats : repeats (.quantifier kind) = true := hkind
              rw [climbs_cons, hrepeats, ← h.deeperFlag_isSome_iff hkind,
                ← ih (h.repeating hkind), detectNestedFrom, hkind]
              cases hdeeper :
                deeperFlag (if 0 < depth then flags.set depth true else flags) depth with
              | some d => simp [hdeeper]
              | none => simp [hdeeper]

theorem detectNestedRepetition_isSome_iff :
    (detectNestedRepetition tokens).isSome = true ↔ Climbs [] tokens :=
  detectNestedFrom_isSome_iff tracks_nil

end Detect

/-! ### What is reported -/

/-- A repeating quantifier directly follows the end of a group whose body contains one. -/
def NestedRepetition (tokens : List Token) : Prop :=
  ∃ front body kind back,
    tokens = front ++ .groupOpen :: body ++ .groupClose :: .quantifier kind :: back ∧
    Balanced shape body ∧ kind.isRepeating = true ∧ ∃ token ∈ body, repeats token = true

/-- …and the one in the body is not in an inner group. -/
def OwnRepetition (tokens : List Token) : Prop :=
  ∃ front body kind body' kind' back,
    tokens = front ++ .groupOpen :: (body ++ .quantifier kind :: body') ++
      .groupClose :: .quantifier kind' :: back ∧
    Balanced shape body ∧ Balanced shape body' ∧ kind.isRepeating = true ∧
    kind'.isRepeating = true

/-- Between two repeating quantifiers, the depth has fallen. -/
def Descent (tokens front mid : List Token) : Prop :=
  ∃ kind kind' back,
    tokens = front ++ .quantifier kind :: mid ++ .quantifier kind' :: back ∧
    kind.isRepeating = true ∧ kind'.isRepeating = true ∧
    depthAfter (front ++ mid) < depthAfter front

/-- No group of the depth after `front` is opened in `mid`. -/
def Undisturbed (front mid : List Token) : Prop :=
  ∀ inner rest, mid = inner ++ .groupOpen :: rest →
    depthAfter (front ++ inner) + 1 ≠ depthAfter front

section Reports

variable {tokens front mid : List Token}

theorem exists_kind {token : Token} (h : repeats token = true) :
    ∃ kind, token = .quantifier kind ∧ kind.isRepeating = true := by
  cases token with
  | quantifier kind => exact ⟨kind, rfl, h⟩
  | atom => cases h
  | groupOpen => cases h
  | groupClose => cases h
  | alternation => cases h

/-- A quantifier leaves the depth as it is. -/
theorem depthAfter_quantifier {kind : QuantifierKind} :
    depthAfter (front ++ .quantifier kind :: mid) = depthAfter (front ++ mid) := by
  simp only [depthAfter, Brackets.level_append, Brackets.level_cons]
  rw [@Brackets.after_plain _ shape _ _ rfl]

/-- A token that opens a group. -/
theorem shape_eq_opens {token : Token} (h : shape token = .opens) : token = .groupOpen := by
  cases token with
  | groupOpen => rfl
  | atom => cases h
  | groupClose => cases h
  | quantifier kind => cases h
  | alternation => cases h

/-- What is reported is a descent. -/
theorem exists_descent (h : Climbs [] tokens) : ∃ front mid, Descent tokens front mid := by
  obtain ⟨front, kind', back, d, rfl, hkind', hdepth, hkept⟩ := h
  obtain ⟨before, item, since, hfront, hmark, hlevel, -⟩ := hkept
  obtain ⟨kind, rfl, hkind⟩ := exists_kind hmark
  rw [List.nil_append] at hdepth hfront
  subst hfront
  refine ⟨before, since, kind, kind', back, rfl, hkind, hkind', ?_⟩
  rw [← depthAfter_quantifier]
  exact hdepth.trans_eq hlevel.symm

/-- A descent without a group of the first depth in between is reported. -/
theorem climbs_of_descent (h : Descent tokens front mid) (hmid : Undisturbed front mid) :
    Climbs [] tokens := by
  obtain ⟨kind, kind', back, rfl, hkind, hkind', hdepth⟩ := h
  refine ⟨front ++ .quantifier kind :: mid, kind', back, depthAfter front, rfl, hkind', ?_,
    front, .quantifier kind, mid, rfl, hkind, rfl, ?_⟩
  · rwa [List.nil_append, depthAfter_quantifier]
  · intro inner opening rest hsplit hopens
    rw [shape_eq_opens hopens] at hsplit
    change depthAfter (front ++ .quantifier kind :: inner) + 1 ≠ _
    rw [depthAfter_quantifier]
    exact hmid inner rest hsplit

/-- A repetition of its own makes the group a descent. -/
theorem OwnRepetition.descent (h : OwnRepetition tokens) :
    ∃ front mid, Descent tokens front mid ∧ Undisturbed front mid := by
  obtain ⟨front, body, kind, body', kind', back, rfl, hbody, hbody', hkind, hkind'⟩ := h
  have hin : depthAfter (front ++ .groupOpen :: body) = depthAfter front + 1 := by
    rw [depthAfter, Brackets.level_append, Brackets.level_cons, hbody.level_eq]
    rfl
  refine ⟨front ++ .groupOpen :: body, body' ++ [.groupClose],
    ⟨kind, kind', back, by simp, hkind, hkind', ?_⟩, ?_⟩
  · have hout : depthAfter (front ++ .groupOpen :: body ++ (body' ++ [.groupClose])) =
        depthAfter front := by
      rw [depthAfter, Brackets.level_append, Brackets.level_append, hbody'.level_eq]
      change level shape 0 (front ++ .groupOpen :: body) - 1 = _
      rw [show level shape 0 (front ++ .groupOpen :: body) = depthAfter front + 1 from hin]
      rfl
    rw [hout, hin]
    exact Nat.lt_succ_self _
  · intro inner rest hsplit
    have hinner : ∃ tail, body' = inner ++ tail := by
      rcases concat_eq_append_cons hsplit with ⟨-, hclose, -⟩ | ⟨init, -, hinit⟩
      · cases hclose
      · exact ⟨_, hinit⟩
    obtain ⟨tail, rfl⟩ := hinner
    have hle : depthAfter front + 1 ≤ depthAfter (front ++ .groupOpen :: body ++ inner) :=
      calc depthAfter front + 1
          = depthAfter (front ++ .groupOpen :: body) := hin.symm
        _ ≤ level shape (depthAfter (front ++ .groupOpen :: body)) inner := hbody'.le_level rfl _
        _ = depthAfter (front ++ .groupOpen :: body ++ inner) := Brackets.level_append.symm
    rw [hin]
    omega

end Reports

/-- **What the search reports**: a problem only if the depth has fallen between two repeating
quantifiers, and surely if no group of the first one's depth was opened in between, as none is
between a quantifier of a group and the one on the group. -/
theorem detectNestedRepetition_descents (tokens : List Token) :
    ((detectNestedRepetition tokens).isSome = true → ∃ front mid, Descent tokens front mid) ∧
    (∀ front mid, Descent tokens front mid → Undisturbed front mid →
      (detectNestedRepetition tokens).isSome = true) ∧
    (OwnRepetition tokens → (detectNestedRepetition tokens).isSome = true) := by
  rw [detectNestedRepetition_isSome_iff]
  refine ⟨exists_descent, fun front mid => climbs_of_descent, fun hown => ?_⟩
  obtain ⟨front, mid, hdescent, hmid⟩ := hown.descent
  exact climbs_of_descent hdescent hmid

/-- A pattern with such a group is rejected for it. -/
theorem analyzePattern_of_ownRepetition {pattern : String} {tokens : List Token}
    (hne : pattern ≠ "") (hlength : pattern.utf8ByteSize ≤ maxPatternLength)
    (htokens : tokenize pattern = some tokens) (hown : OwnRepetition tokens) :
    ∃ detail, analyzePattern pattern = some (some (.unsafeNestedRepetition detail)) := by
  obtain ⟨front, mid, hdescent, hmid⟩ := hown.descent
  have hsome := detectNestedRepetition_isSome_iff.mpr (climbs_of_descent hdescent hmid)
  obtain ⟨detail, hdetail⟩ := Option.isSome_iff_exists.mp hsome
  refine ⟨detail, ?_⟩
  rw [analyzePattern, if_neg hne, if_neg (Nat.not_lt.mpr hlength), htokens, Option.map_some,
    hdetail]

/-- A nested repetition has a group directly before a quantifier. -/
theorem NestedRepetition.exists_close_quantifier {tokens : List Token}
    (h : NestedRepetition tokens) : ∃ kind, [.groupClose, .quantifier kind] <:+: tokens := by
  obtain ⟨front, body, kind, back, rfl, -⟩ := h
  exact ⟨kind, front ++ .groupOpen :: body, back, by simp⟩

/-- In `(a+)b+` nothing is nested, and a problem is reported. -/
theorem reports_sibling : ¬ ∀ pattern tokens, tokenize pattern = some tokens →
    Balanced shape tokens →
    ((detectNestedRepetition tokens).isSome = true ↔ NestedRepetition tokens) := by
  intro h
  have htokens : tokenize "(a+)b+" = some [.groupOpen, .atom, .quantifier .plus, .groupClose,
      .atom, .quantifier .plus] := by
    decide +kernel
  have hatoms : Balanced shape [.atom, .quantifier .plus] := .plain rfl (.plain rfl .nil)
  have hbalanced : Balanced shape [.groupOpen, .atom, .quantifier .plus, .groupClose,
      .atom, .quantifier .plus] :=
    .group (rfl : shape .groupOpen = .opens) (rfl : shape .groupClose = .closes) hatoms hatoms
  have hnested := (h _ _ htokens hbalanced).mp (by decide +kernel)
  obtain ⟨kind, hkind⟩ := hnested.exists_close_quantifier
  cases kind with
  | star => exact absurd hkind (by decide)
  | plus => exact absurd hkind (by decide)
  | question => exact absurd hkind (by decide)
  | braced => exact absurd hkind (by decide)

end ClawDesk.Security.SafeRegex
