import ClawDesk.Security.SafeRegex
import Mathlib.Data.List.TakeWhile

/-!
# What the tokenizer reads

A round of the tokenizer takes a character with what belongs to it: what is escaped, a character
class, the head of a group, or braces.  Where the next round begins does not depend on how braces
are classified (`ownNext`), so the tokens of a pattern can be told without a byte position
(`ownTokens`), and its parentheses by reading what the rounds pass over (`read`).

The tokenizer finds these tokens and these parentheses just where the bytes that it takes for the
text between two braces are read as that text is, and no parenthesis stands in the head of a group
or between braces (`tokenize_eq_read_iff`).
-/

namespace ClawDesk.Security.SafeRegex

/-! ### Rounds -/

/-- The text between two braces, from behind the first. -/
def ownText (rest : List Char) : List Char := rest.takeWhile (· ≠ '}')

/-- A round at an opening brace, without byte positions. -/
def ownBraced (rest : List Char) : Token × List Char :=
  match rest.dropWhile (· ≠ '}') with
  | [] => (.atom, [])
  | _ :: behind =>
      (if isCount (ownText rest) then .quantifier .braced else .atom, skipLazy behind)

/-- One round, with braces that are classified from their own text. -/
def ownNext (c : Char) (rest : List Char) : Option Token × List Char :=
  match c with
  | '\\' => (some .atom, rest.tail)
  | '[' => (some .atom, skipClass rest)
  | '(' => (some .groupOpen, skipGroup rest)
  | ')' => (some .groupClose, rest)
  | '*' => (some (.quantifier .star), skipLazy rest)
  | '+' => (some (.quantifier .plus), skipLazy rest)
  | '?' => (some (.quantifier .question), skipLazy rest)
  | '{' => (some (ownBraced rest).1, (ownBraced rest).2)
  | '|' => (some .alternation, rest)
  | '^' | '$' => (none, rest)
  | _ => (some .atom, rest)

theorem ownBraced_suffix (rest : List Char) : (ownBraced rest).2 <:+ rest := by
  have hdrop : rest.dropWhile (· ≠ '}') <:+ rest := List.dropWhile_suffix _
  unfold ownBraced
  split
  · exact List.nil_suffix
  · rename_i brace behind heq
    rw [heq] at hdrop
    exact (skipLazy_suffix behind).trans ((List.suffix_cons brace behind).trans hdrop)

/-- **A round ends where a later one begins.** -/
theorem ownNext_suffix (c : Char) (rest : List Char) : (ownNext c rest).2 <:+ rest := by
  unfold ownNext
  split
  · exact List.tail_suffix _
  · exact skipClass_suffix rest
  · exact skipGroup_suffix rest
  · exact List.suffix_rfl
  · exact skipLazy_suffix rest
  · exact skipLazy_suffix rest
  · exact skipLazy_suffix rest
  · exact ownBraced_suffix rest
  all_goals exact List.suffix_rfl

/-- The rounds of the tokenizer: each character that begins one, with what follows it. -/
def rounds : List Char → List (Char × List Char)
  | [] => []
  | c :: rest => (c, rest) :: rounds (ownNext c rest).2
  termination_by cs => cs.length
  decreasing_by exact Nat.lt_succ_of_le (ownNext_suffix c rest).length_le

/-- The tokens of a pattern whose braces are classified from their own text. -/
def ownTokens (cs : List Char) : List Token :=
  (rounds cs).flatMap fun round => (ownNext round.1 round.2).1.toList

/-! ### Parentheses -/

def Token.isGroup : Token → Bool
  | groupOpen | groupClose => true
  | _ => false

/-- The token of a parenthesis. -/
def paren : Char → List Token
  | '(' => [.groupOpen]
  | ')' => [.groupClose]
  | _ => []

/-- The unescaped parentheses of a text outside of its character classes. -/
def parens : List Char → List Token
  | [] => []
  | c :: rest =>
      if c = '\\' then parens rest.tail
      else if c = '[' then parens (skipClass rest)
      else paren c ++ parens rest
  termination_by cs => cs.length
  decreasing_by
  · exact Nat.lt_succ_of_le (List.tail_suffix _).length_le
  · exact Nat.lt_succ_of_le (skipClass_suffix _).length_le
  · exact Nat.lt_succ_self _

/-- What a round passes over that is neither escaped nor a class: the head of a group, braces, a
lazy modifier. -/
def passed (c : Char) (rest : List Char) : List Char :=
  if c = '\\' ∨ c = '[' then [] else rest.take (rest.length - (ownNext c rest).2.length)

/-- The unescaped parentheses of a pattern outside of its character classes, where an escape and a
class that begin in the head of a group or between braces end there. -/
def read (cs : List Char) : List Token :=
  (rounds cs).flatMap fun round => paren round.1 ++ parens (passed round.1 round.2)

/-- The bytes between the two positions of a text in braces, which count characters, are whole
characters, and are taken for a count where that text is one. -/
def Aligned (pattern rest : List Char) : Prop :=
  '}' ∈ rest → ∃ inner,
    slice pattern (pattern.length - rest.length)
      (pattern.length - (rest.dropWhile (· ≠ '}')).length) = some inner ∧
    isCount inner = isCount (ownText rest)

variable {pattern rest cs : List Char} {c : Char}

theorem rounds_cons : rounds (c :: rest) = (c, rest) :: rounds (ownNext c rest).2 := by
  rw [rounds]

theorem ownTokens_cons :
    ownTokens (c :: rest) = (ownNext c rest).1.toList ++ ownTokens (ownNext c rest).2 := by
  rw [ownTokens, rounds_cons, List.flatMap_cons]
  rfl

theorem tokenizeFrom_cons : tokenizeFrom pattern (c :: rest) =
    (next pattern c rest).bind fun round =>
      (tokenizeFrom pattern round.2).map (round.1.toList ++ ·) := by
  rw [tokenizeFrom]
  split
  · rename_i hnone
    rw [hnone]
    rfl
  · rename_i token rest' hsome
    rw [hsome]
    rfl

/-! ### Panics and counts -/

/-- Only a round at a brace depends on byte positions. -/
theorem next_eq_ownNext (h : c ≠ '{') : next pattern c rest = some (ownNext c rest) := by
  unfold next ownNext
  split <;> grind

theorem mem_iff_dropWhile_ne_nil : '}' ∈ rest ↔ rest.dropWhile (· ≠ '}') ≠ [] := by
  rw [Ne, List.dropWhile_eq_nil_iff]
  simp

/-- A round at a brace. -/
theorem nextBraced_cases (pattern rest : List Char) :
    (nextBraced pattern rest = none ∧ ¬ Aligned pattern rest) ∨
      ∃ token, nextBraced pattern rest = some (some token, (ownBraced rest).2) ∧
        (token = (ownBraced rest).1 ↔ Aligned pattern rest) := by
  have hmem := @mem_iff_dropWhile_ne_nil rest
  unfold nextBraced ownBraced Aligned
  cases hdrop : rest.dropWhile (· ≠ '}') with
  | nil =>
      rw [hdrop] at hmem
      exact .inr ⟨.atom, rfl, iff_of_true rfl fun h => absurd rfl (hmem.mp h)⟩
  | cons brace behind =>
      rw [hdrop] at hmem
      have hclosed : '}' ∈ rest := hmem.mpr (List.cons_ne_nil _ _)
      dsimp only
      cases hslice : slice pattern (pattern.length - rest.length)
          (pattern.length - (brace :: behind).length) with
      | none => exact .inl ⟨rfl, fun h => by simpa using h hclosed⟩
      | some inner =>
          refine .inr ⟨_, rfl, ?_⟩
          simp only [hclosed, true_implies, Option.some.injEq, exists_eq_left']
          cases isCount inner <;> cases isCount (ownText rest) <;> simp

/-- **The tokenizer finds a pattern's own tokens just where each count is read from its own
text.** -/
theorem tokenizeFrom_eq_iff : tokenizeFrom pattern cs = some (ownTokens cs) ↔
    ∀ round ∈ rounds cs, round.1 = '{' → Aligned pattern round.2 := by
  fun_induction rounds cs with
  | case1 => simp [tokenizeFrom, ownTokens, rounds]
  | case2 c rest ih =>
      rw [List.forall_mem_cons, ← ih, tokenizeFrom_cons, ownTokens_cons]
      by_cases hbrace : c = '{'
      · subst hbrace
        have hnext : next pattern '{' rest = nextBraced pattern rest := rfl
        rw [hnext]
        rcases nextBraced_cases pattern rest with ⟨hnone, hnot⟩ | ⟨token, hsome, htoken⟩
        · rw [hnone]
          exact iff_of_false (by simp) fun h => hnot (h.1 rfl)
        · rw [hsome, ← htoken]
          simp [ownNext, and_comm]
      · rw [next_eq_ownNext hbrace]
        simp [hbrace]

theorem rounds_suffix : ∀ round ∈ rounds cs, round.2 <:+ cs := by
  fun_induction rounds cs with
  | case1 => simp
  | case2 c rest ih =>
      refine List.forall_mem_cons.mpr ⟨List.suffix_cons _ _, fun round hround => ?_⟩
      exact (ih round hround).trans ((ownNext_suffix c rest).trans (List.suffix_cons _ _))

theorem aligned_of_oneByte (h : ∀ c ∈ pattern, c.utf8Size = 1) (hrest : rest <:+ pattern) :
    Aligned pattern rest := by
  obtain ⟨before, rfl⟩ := hrest
  intro _
  refine ⟨_, slice_eq h (Nat.sub_le _ _) (Nat.sub_le _ _), congrArg isCount ?_⟩
  have hsplit : ownText rest ++ rest.dropWhile (· ≠ '}') = rest :=
    List.takeWhile_append_dropWhile
  have hlen := congrArg List.length hsplit
  rw [List.length_append] at hlen
  rw [List.length_append, Nat.add_sub_cancel, List.drop_left,
    show before.length + rest.length - (rest.dropWhile (· ≠ '}')).length - before.length =
      (ownText rest).length by omega]
  exact (List.prefix_iff_eq_take.mp (List.takeWhile_prefix _)).symm

/-- **On a pattern of one-byte characters every count is read from its own text.** -/
theorem tokenize_eq_ownTokens {pattern : String} (h : ∀ c ∈ pattern.toList, c.utf8Size = 1) :
    tokenize pattern = some (ownTokens pattern.toList) :=
  tokenizeFrom_eq_iff.mpr fun round hround _ => aligned_of_oneByte h (rounds_suffix round hround)

theorem tokenize_eq_ownTokens_repeat : tokenize "(a{2})+" = some (ownTokens "(a{2})+".toList) :=
  tokenize_eq_ownTokens (by simp [Char.utf8Size])

/-! ### Groups -/

theorem filter_isGroup_toList (c : Char) (rest : List Char) :
    (ownNext c rest).1.toList.filter Token.isGroup = paren c := by
  unfold ownNext
  split
  case h_8 =>
    unfold ownBraced
    split
    · rfl
    · dsimp only
      split_ifs <;> rfl
  case h_12 =>
    unfold paren
    split <;> first | rfl | contradiction
  all_goals rfl

/-- The parentheses among a pattern's own tokens begin a round each. -/
theorem filter_ownTokens (cs : List Char) : (ownTokens cs).filter Token.isGroup =
    (rounds cs).flatMap fun round => paren round.1 := by
  rw [ownTokens, List.filter_flatMap]
  simp only [filter_isGroup_toList]

theorem length_flatMap_le {α β : Type} {l : List α} {f g : α → List β} :
    (l.flatMap f).length ≤ (l.flatMap fun a => f a ++ g a).length := by
  induction l with
  | nil => exact Nat.le_refl _
  | cons a l ih =>
      simp only [List.flatMap_cons, List.length_append]
      omega

/-- Nothing is added to the parts of a list just where each addition is empty. -/
theorem flatMap_eq_flatMap_append_iff {α β : Type} {l : List α} {f g : α → List β} :
    (l.flatMap f = l.flatMap fun a => f a ++ g a) ↔ ∀ a ∈ l, g a = [] := by
  induction l with
  | nil => simp
  | cons a l ih =>
      rw [List.forall_mem_cons, ← ih, List.flatMap_cons, List.flatMap_cons, List.append_assoc,
        List.append_cancel_left_eq]
      have hlen := @length_flatMap_le _ _ l f g
      constructor
      · intro heq
        have hnil : g a = [] := by
          rw [heq, List.length_append] at hlen
          exact List.length_eq_zero_iff.mp (by omega)
        rw [hnil, List.nil_append] at heq
        exact ⟨hnil, heq⟩
      · rintro ⟨hnil, heq⟩
        rw [hnil, List.nil_append, heq]

/-- The tokenizer returns, with one token for each parenthesis that is read, and with braces that
are classified from their own text. -/
def ReadsRight (pattern : String) : Prop :=
  ∃ tokens, tokenize pattern = some tokens ∧
    tokens.filter Token.isGroup = read pattern.toList ∧ tokens = ownTokens pattern.toList

/-- **The tokenizer reads a pattern right just where the bytes between the positions of two braces
are whole characters, read as the text between them is, and no parenthesis stands in the head of
a group or between braces.** -/
theorem tokenize_eq_read_iff (pattern : String) : ReadsRight pattern ↔
    ∀ round ∈ rounds pattern.toList, (round.1 = '{' → Aligned pattern.toList round.2) ∧
      parens (passed round.1 round.2) = [] := by
  have hgroups : (ownTokens pattern.toList).filter Token.isGroup = read pattern.toList ↔
      ∀ round ∈ rounds pattern.toList, parens (passed round.1 round.2) = [] := by
    rw [filter_ownTokens, read]
    exact flatMap_eq_flatMap_append_iff
  rw [forall₂_and, ← tokenizeFrom_eq_iff, ← hgroups]
  constructor
  · rintro ⟨tokens, htokens, hread, rfl⟩
    exact ⟨htokens, hread⟩
  · rintro ⟨htokens, hread⟩
    exact ⟨_, htokens, hread, rfl⟩

theorem passed_append (h : ¬ (c = '\\' ∨ c = '[')) :
    passed c rest ++ (ownNext c rest).2 = rest := by
  have hdrop := List.suffix_iff_eq_drop.mp (ownNext_suffix c rest)
  rw [passed, if_neg h]
  exact (congrArg (_ ++ ·) hdrop).trans (List.take_append_drop _ _)

theorem parens_append {front back : List Char} (h : ∀ c ∈ front, c ≠ '\\' ∧ c ≠ '[') :
    parens (front ++ back) = parens front ++ parens back := by
  induction front with
  | nil => rw [parens, List.nil_append, List.nil_append]
  | cons c front ih =>
      obtain ⟨⟨hescape, hclass⟩, hfront⟩ := List.forall_mem_cons.mp h
      rw [List.cons_append, parens, parens, if_neg hescape, if_neg hclass, if_neg hescape,
        if_neg hclass, ih hfront, List.append_assoc]

/-- **The parentheses that are read are all there are, where no escape and no class begins in the
head of a group or between braces.** -/
theorem read_eq_parens
    (h : ∀ round ∈ rounds cs, ∀ c ∈ passed round.1 round.2, c ≠ '\\' ∧ c ≠ '[') :
    read cs = parens cs := by
  fun_induction rounds cs with
  | case1 => rw [parens, read, rounds, List.flatMap_nil]
  | case2 c rest ih =>
      obtain ⟨hpassed, hrest⟩ := List.forall_mem_cons.mp h
      have hread : read (c :: rest) =
          paren c ++ parens (passed c rest) ++ read (ownNext c rest).2 := by
        rw [read, rounds_cons, List.flatMap_cons]
        rfl
      rw [hread, ih hrest, parens]
      split_ifs with hescape hclass
      · subst hescape
        rw [passed, if_pos (.inl rfl), parens]
        rfl
      · subst hclass
        rw [passed, if_pos (.inr rfl), parens]
        rfl
      · have hsplit := @passed_append rest c (not_or.mpr ⟨hescape, hclass⟩)
        conv_rhs => rw [← hsplit]
        rw [parens_append hpassed, List.append_assoc]

/-- A count that is taken from the wrong bytes, one that is cut inside a character, and a
parenthesis between braces. -/
theorem not_readsRight :
    ¬ ReadsRight "é{2}" ∧ ¬ ReadsRight "日{2}" ∧ ¬ ReadsRight "{(}" := by
  refine ⟨?_, ?_, ?_⟩
  · rintro ⟨tokens, htokens, -, hown⟩
    have h : tokenize "é{2}" = some [.atom, .atom] := by decide +kernel
    rw [h] at htokens
    obtain rfl := Option.some.inj htokens
    exact absurd hown (by decide +kernel)
  · rintro ⟨tokens, htokens, -, -⟩
    have h : tokenize "日{2}" = none := by decide +kernel
    rw [h] at htokens
    cases htokens
  · rintro ⟨tokens, htokens, hread, -⟩
    have h : tokenize "{(}" = some [.atom] := by decide +kernel
    rw [h] at htokens
    obtain rfl := Option.some.inj htokens
    exact absurd hread (by decide +kernel)

end ClawDesk.Security.SafeRegex
