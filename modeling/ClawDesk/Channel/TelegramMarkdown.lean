import Mathlib.Data.List.Induction

/-!
# Replies in Telegram's MarkdownV2

Outside of code, the characters that MarkdownV2 reserves are escaped with a backslash.  A backslash
of the text itself is not.

So the text can be read back just where it has no backslash outside of code, other than at its end
(`readFrom_toTelegramV2_iff`).  Any other backslash escapes what comes next: a character of the
text, which is lost as such, or the backslash of an escape, and then a reserved character is left
without one.
-/

namespace ClawDesk.Channel

/-- The characters that are escaped outside of code. -/
def mustEscape : List Char :=
  ['_', '[', ']', '(', ')', '~', '>', '#', '+', '-', '=', '|', '\x7b', '\x7d', '.', '!']

/-- The conversion of the rest of a text, inside or outside of code. -/
def toTelegramV2From : Bool → Bool → List Char → List Char
  | _, _, [] => []
  -- a fenced block ends at the first three backticks
  | true, inInlineCode, '`' :: '`' :: '`' :: rest =>
      '`' :: '`' :: '`' :: toTelegramV2From false inInlineCode rest
  | true, inInlineCode, '`' :: '`' :: rest =>
      '`' :: '`' :: toTelegramV2From true inInlineCode rest
  | true, inInlineCode, ch :: rest => ch :: toTelegramV2From true inInlineCode rest
  | false, true, '`' :: rest => '`' :: toTelegramV2From false false rest
  | false, true, ch :: rest => ch :: toTelegramV2From false true rest
  | false, false, '`' :: '`' :: '`' :: rest =>
      '`' :: '`' :: '`' :: toTelegramV2From true false rest
  | false, false, '`' :: '`' :: rest => '`' :: '`' :: toTelegramV2From false false rest
  | false, false, '`' :: rest => '`' :: toTelegramV2From false true rest
  | false, false, '*' :: rest => '*' :: toTelegramV2From false false rest
  | false, false, ch :: rest =>
      if ch ∈ mustEscape then '\\' :: ch :: toTelegramV2From false false rest
      else ch :: toTelegramV2From false false rest

/-- Convert Markdown to Telegram MarkdownV2. -/
def toTelegramV2 (md : List Char) : List Char := toTelegramV2From false false md

/-! ### Reading -/

/-- What MarkdownV2 reserves. -/
def reserved : List Char :=
  ['_', '*', '[', ']', '(', ')', '~', '`', '>', '#', '+', '-', '=', '|', '\x7b', '\x7d', '.', '!']

/-- The marks that are passed through. -/
def marks : List Char := ['*', '`']

theorem mem_mustEscape {ch : Char} : ch ∈ mustEscape ↔ ch ∈ reserved ∧ ch ∉ marks := by
  have hfilter : mustEscape = reserved.filter fun ch => ch ∉ marks := by decide
  rw [hfilter, List.mem_filter, decide_eq_true_iff]

/-- A text of MarkdownV2 read from left to right.  Outside of code a backslash escapes the next
character, and is removed; there is no reading where a reserved character other than a mark is not
escaped. -/
def readFrom : Bool → Bool → List Char → Option (List Char)
  | _, _, [] => some []
  | true, inInlineCode, '`' :: '`' :: '`' :: rest =>
      (readFrom false inInlineCode rest).map (['`', '`', '`'] ++ ·)
  | true, inInlineCode, '`' :: '`' :: rest =>
      (readFrom true inInlineCode rest).map (['`', '`'] ++ ·)
  | true, inInlineCode, ch :: rest => (readFrom true inInlineCode rest).map ([ch] ++ ·)
  | false, true, '`' :: rest => (readFrom false false rest).map (['`'] ++ ·)
  | false, true, ch :: rest => (readFrom false true rest).map ([ch] ++ ·)
  | false, false, '`' :: '`' :: '`' :: rest => (readFrom true false rest).map (['`', '`', '`'] ++ ·)
  | false, false, '`' :: '`' :: rest => (readFrom false false rest).map (['`', '`'] ++ ·)
  | false, false, '`' :: rest => (readFrom false true rest).map (['`'] ++ ·)
  | false, false, '\\' :: ch :: rest => (readFrom false false rest).map ([ch] ++ ·)
  | false, false, ch :: rest =>
      if ch ∈ reserved ∧ ch ∉ marks then none else (readFrom false false rest).map ([ch] ++ ·)

/-- The characters of a text that are not in code, with the marks that open code. -/
def outsideFrom : Bool → Bool → List Char → List Char
  | _, _, [] => []
  | true, inInlineCode, '`' :: '`' :: '`' :: rest => outsideFrom false inInlineCode rest
  | true, inInlineCode, '`' :: '`' :: rest => outsideFrom true inInlineCode rest
  | true, inInlineCode, _ :: rest => outsideFrom true inInlineCode rest
  | false, true, '`' :: rest => outsideFrom false false rest
  | false, true, _ :: rest => outsideFrom false true rest
  | false, false, '`' :: '`' :: '`' :: rest => ['`', '`', '`'] ++ outsideFrom true false rest
  | false, false, '`' :: '`' :: rest => ['`', '`'] ++ outsideFrom false false rest
  | false, false, '`' :: rest => ['`'] ++ outsideFrom false true rest
  | false, false, ch :: rest => [ch] ++ outsideFrom false false rest

/-- No backslash is outside of code, other than at the end of the text. -/
def NoLooseBackslash (inCodeBlock inInlineCode : Bool) (md : List Char) : Prop :=
  '\\' ∉ (outsideFrom inCodeBlock inInlineCode md).dropLast

-- The cases of the three functions are their equations.
attribute [simp] toTelegramV2From readFrom outsideFrom

variable {inCodeBlock inInlineCode : Bool} {md rest text : List Char} {ch : Char}

/-! ### Backticks -/

/-- The conversion puts no backtick at the front. -/
theorem head?_ne_tick (h : ∀ rest, md = '`' :: rest → False) :
    (toTelegramV2From inCodeBlock inInlineCode md).head? ≠ some '`' := by
  fun_cases toTelegramV2From inCodeBlock inInlineCode md <;> simp_all

/-- The conversion keeps a character at the front that it does not escape. -/
theorem head?_toTelegramV2From (h : ∀ ch ∈ md.head?, ch ∉ mustEscape) :
    (toTelegramV2From inCodeBlock inInlineCode md).head? = md.head? := by
  fun_cases toTelegramV2From inCodeBlock inInlineCode md <;> simp_all

theorem readFrom_block_two (h : text.head? ≠ some '`') :
    readFrom true inInlineCode ('`' :: '`' :: text) =
      (readFrom true inInlineCode text).map (['`', '`'] ++ ·) := by
  rw [readFrom]
  rintro rest rfl
  exact h rfl

theorem readFrom_block_char (h : ch = '`' → text.head? ≠ some '`') :
    readFrom true inInlineCode (ch :: text) =
      (readFrom true inInlineCode text).map ([ch] ++ ·) := by
  rw [readFrom]
  · rintro rest hch rfl
    exact h hch rfl
  · rintro rest hch rfl
    exact h hch rfl

theorem readFrom_text_two (h : text.head? ≠ some '`') :
    readFrom false false ('`' :: '`' :: text) =
      (readFrom false false text).map (['`', '`'] ++ ·) := by
  rw [readFrom]
  rintro rest rfl
  exact h rfl

theorem readFrom_text_one (h : text.head? ≠ some '`') :
    readFrom false false ('`' :: text) = (readFrom false true text).map (['`'] ++ ·) := by
  rw [readFrom]
  · rintro rest rfl
    exact h rfl
  · rintro rest rfl
    exact h rfl

theorem readFrom_text_char (htick : ch ≠ '`') (hback : ch ≠ '\\') (hfree : ch ∉ mustEscape) :
    readFrom false false (ch :: text) = (readFrom false false text).map ([ch] ++ ·) := by
  rw [readFrom, if_neg (mem_mustEscape.not.mp hfree)]
  all_goals simp_all

theorem readFrom_text_reserved (h : ch ∈ mustEscape) :
    readFrom false false (ch :: text) = none := by
  have htick : ch ≠ '`' := by
    rintro rfl
    exact absurd h (by decide)
  have hback : ch ≠ '\\' := by
    rintro rfl
    exact absurd h (by decide)
  rw [readFrom, if_pos (mem_mustEscape.mp h)]
  all_goals simp_all

theorem toTelegramV2From_escape (h : ch ∈ mustEscape) :
    toTelegramV2From false false (ch :: rest) =
      '\\' :: ch :: toTelegramV2From false false rest := by
  have htick : ch ≠ '`' := by
    rintro rfl
    exact absurd h (by decide)
  have hstar : ch ≠ '*' := by
    rintro rfl
    exact absurd h (by decide)
  rw [toTelegramV2From, if_pos h]
  all_goals simp_all

theorem toTelegramV2From_backslash :
    toTelegramV2From false false ('\\' :: rest) = '\\' :: toTelegramV2From false false rest := by
  rw [toTelegramV2From, if_neg (by decide)]
  all_goals simp

theorem readFrom_escape (ch : Char) (text : List Char) :
    readFrom false false ('\\' :: ch :: text) = (readFrom false false text).map ([ch] ++ ·) := by
  rw [readFrom]

theorem readFrom_end : readFrom false false ['\\'] = some ['\\'] := by
  rw [readFrom, if_neg (by decide)]
  · rfl
  all_goals simp

/-! ### Loose backslashes -/

theorem map_append_eq_some_iff {read : Option (List Char)} {front : List Char} :
    read.map (front ++ ·) = some (front ++ text) ↔ read = some text := by
  cases read <;> simp

theorem head?_readFrom {out : List Char} (hhead : out.head? = some ch) (hback : ch ≠ '\\')
    (h : readFrom inCodeBlock inInlineCode out = some text) : text.head? = some ch := by
  have hfront : ∀ {read : Option (List Char)} {front : List Char}, front.head? = some ch →
      read.map (front ++ ·) = some text → text.head? = some ch := by
    intro read front hfront hread
    obtain ⟨back, -, rfl⟩ := Option.map_eq_some_iff.mp hread
    rw [List.head?_append, hfront]
    rfl
  revert h
  fun_cases readFrom inCodeBlock inInlineCode out
  case case1 => cases hhead
  case case10 => exact absurd (Option.some.inj hhead).symm hback
  case case11 => exact fun h => absurd h.symm (Option.some_ne_none _)
  all_goals exact hfront hhead

/-- What is read first of a text that does not begin with a backslash. -/
theorem head?_of_readFrom (hback : ch ≠ '\\')
    (h : readFrom false false (toTelegramV2From false false (ch :: rest)) = some text) :
    text.head? = some ch := by
  by_cases hescape : ch ∈ mustEscape
  · rw [toTelegramV2From_escape hescape, readFrom_escape, Option.map_eq_some_iff] at h
    obtain ⟨read, -, rfl⟩ := h
    rfl
  · have hhead : (toTelegramV2From false false (ch :: rest)).head? = some ch := by
      apply head?_toTelegramV2From
      rintro c hc
      obtain rfl := Option.some.inj hc
      exact hescape
    exact head?_readFrom hhead hback h

/-- A loose backslash is not read as one, where what is behind the next character is not read with
more backslashes at the front. -/
theorem readFrom_loose_ne {c : Char} (hrest : ∀ j, readFrom false false
      (toTelegramV2From false false rest) ≠ some (List.replicate (j + 1) '\\' ++ rest)) (j : ℕ) :
    readFrom false false (toTelegramV2From false false ('\\' :: c :: rest)) ≠
      some (List.replicate j '\\' ++ '\\' :: c :: rest) := by
  have hfirst : List.replicate j '\\' ++ '\\' :: c :: rest =
      ['\\'] ++ (List.replicate j '\\' ++ c :: rest) := by
    rw [← List.singleton_append, ← List.append_assoc, ← List.append_assoc,
      ← List.replicate_succ', List.replicate_succ]
    rfl
  rw [toTelegramV2From_backslash, hfirst]
  by_cases hback : c = '\\'
  · subst hback
    rw [toTelegramV2From_backslash, readFrom_escape, ne_eq, map_append_eq_some_iff]
    intro heq
    refine hrest j (heq.trans ?_)
    rw [List.replicate_succ', List.append_assoc]
    rfl
  · by_cases hescape : c ∈ mustEscape
    · rw [toTelegramV2From_escape hescape, readFrom_escape, readFrom_text_reserved hescape]
      exact Option.some_ne_none _ ∘ Eq.symm
    · have hhead : (toTelegramV2From false false (c :: rest)).head? = some c := by
        apply head?_toTelegramV2From
        rintro d hd
        obtain rfl := Option.some.inj hd
        exact hescape
      obtain ⟨out, hout⟩ := List.head?_eq_some_iff.mp hhead
      rw [hout, readFrom_escape]
      intro heq
      obtain ⟨read, -, hread⟩ := Option.map_eq_some_iff.mp heq
      exact hback (List.cons.inj hread).1

/-- A reading does not have more backslashes at the front than the text. -/
theorem readFrom_ne (rest : List Char) (j : ℕ) :
    readFrom false false (toTelegramV2From false false rest) ≠
      some (List.replicate (j + 1) '\\' ++ rest) := by
  have hother : ∀ {ch : Char} {rest : List Char} (j : ℕ), ch ≠ '\\' →
      readFrom false false (toTelegramV2From false false (ch :: rest)) ≠
        some (List.replicate (j + 1) '\\' ++ ch :: rest) := fun j hback heq =>
    hback (Option.some.inj (head?_of_readFrom hback heq)).symm
  induction rest using List.twoStepInduction generalizing j with
  | nil => simp [toTelegramV2From, readFrom]
  | singleton ch =>
      by_cases hback : ch = '\\'
      · subst hback
        rw [toTelegramV2From_backslash, toTelegramV2From, readFrom_end]
        intro heq
        have hlength := congrArg List.length (Option.some.inj heq)
        simp at hlength
      · exact hother j hback
  | cons_cons ch c rest ih _ =>
      by_cases hback : ch = '\\'
      · subst hback
        exact readFrom_loose_ne ih (j + 1)
      · exact hother j hback

theorem outsideFrom_ne_nil (hmd : md ≠ []) (hblock : inCodeBlock = false)
    (hinline : inInlineCode = false) : outsideFrom inCodeBlock inInlineCode md ≠ [] := by
  fun_cases outsideFrom inCodeBlock inInlineCode md <;> simp_all

theorem not_mem_dropLast_append {front : List Char} (h : '\\' ∉ front) :
    '\\' ∉ (front ++ text).dropLast ↔ '\\' ∉ text.dropLast := by
  rcases eq_or_ne text [] with rfl | hne
  · rw [List.append_nil]
    exact iff_of_true (fun hmem => h (List.dropLast_subset _ hmem)) List.not_mem_nil
  · rw [List.dropLast_append_of_ne_nil hne, List.mem_append, not_or]
    exact and_iff_right h

theorem outsideFrom_backslash :
    outsideFrom false false ('\\' :: rest) = ['\\'] ++ outsideFrom false false rest := by
  rw [outsideFrom]
  all_goals simp

/-- A backslash in front is read as one just if it is the whole text. -/
theorem readFrom_backslash_iff :
    readFrom false false (toTelegramV2From false false ('\\' :: rest)) = some ('\\' :: rest) ↔
      NoLooseBackslash false false ('\\' :: rest) := by
  rw [NoLooseBackslash, outsideFrom_backslash]
  rcases rest with _ | ⟨c, rest⟩
  · rw [toTelegramV2From_backslash]
    exact iff_of_true readFrom_end List.not_mem_nil
  · refine iff_of_false (readFrom_loose_ne (readFrom_ne rest) 0) (not_not_intro ?_)
    rw [List.dropLast_append_of_ne_nil (outsideFrom_ne_nil (List.cons_ne_nil _ _) rfl rfl)]
    exact List.mem_cons_self

theorem readFrom_iff :
    readFrom inCodeBlock inInlineCode (toTelegramV2From inCodeBlock inInlineCode md) = some md ↔
      NoLooseBackslash inCodeBlock inInlineCode md := by
  fun_induction toTelegramV2From inCodeBlock inInlineCode md with
  | case1 => simp [readFrom, NoLooseBackslash, outsideFrom]
  | case2 inInlineCode rest ih =>
      rw [readFrom, NoLooseBackslash, outsideFrom]
      exact map_append_eq_some_iff.trans ih
  | case3 inInlineCode rest hrest ih =>
      rw [readFrom_block_two (head?_ne_tick hrest), NoLooseBackslash, outsideFrom]
      · exact map_append_eq_some_iff.trans ih
      · exact hrest
  | case4 inInlineCode ch rest hthree htwo ih =>
      rw [readFrom_block_char, NoLooseBackslash, outsideFrom]
      · exact map_append_eq_some_iff.trans ih
      · exact hthree
      · exact htwo
      · exact fun hch => head?_ne_tick fun rest' => htwo rest' hch
  | case5 rest ih =>
      rw [readFrom, NoLooseBackslash, outsideFrom]
      exact map_append_eq_some_iff.trans ih
  | case6 ch rest hch ih =>
      rw [readFrom, NoLooseBackslash, outsideFrom]
      · exact map_append_eq_some_iff.trans ih
      · exact hch
      · exact hch
  | case7 rest ih =>
      rw [readFrom, NoLooseBackslash, outsideFrom, not_mem_dropLast_append (by decide)]
      exact map_append_eq_some_iff.trans ih
  | case8 rest hrest ih =>
      rw [readFrom_text_two (head?_ne_tick hrest), NoLooseBackslash, outsideFrom,
        not_mem_dropLast_append (by decide)]
      · exact map_append_eq_some_iff.trans ih
      · exact hrest
  | case9 rest hthree htwo ih =>
      rw [readFrom_text_one (head?_ne_tick htwo), NoLooseBackslash, outsideFrom,
        not_mem_dropLast_append (by decide)]
      · exact map_append_eq_some_iff.trans ih
      · exact hthree
      · exact htwo
  | case10 rest ih =>
      rw [readFrom_text_char (by decide) (by decide) (by decide), NoLooseBackslash, outsideFrom,
        not_mem_dropLast_append (by decide)]
      · exact map_append_eq_some_iff.trans ih
      all_goals simp
  | case11 ch rest hthree htwo htick hstar hescape ih =>
      have hback : '\\' ≠ ch := by
        rintro rfl
        exact absurd hescape (by decide)
      rw [readFrom_escape, NoLooseBackslash, outsideFrom,
        not_mem_dropLast_append (List.mem_singleton.not.mpr hback)]
      · exact map_append_eq_some_iff.trans ih
      · exact hthree
      · exact htwo
      · exact htick
  | case12 ch rest hthree htwo htick hstar hescape ih =>
      by_cases hback : '\\' = ch
      · subst hback
        rw [← toTelegramV2From_backslash]
        exact readFrom_backslash_iff
      · rw [readFrom_text_char htick (Ne.symm hback) hescape, NoLooseBackslash, outsideFrom,
          not_mem_dropLast_append (List.mem_singleton.not.mpr hback)]
        · exact map_append_eq_some_iff.trans ih
        · exact hthree
        · exact htwo
        · exact htick

/-- **What is sent to Telegram can be read back just where the text has no loose backslash.** -/
theorem readFrom_toTelegramV2_iff (md : List Char) :
    readFrom false false (toTelegramV2 md) = some md ↔ NoLooseBackslash false false md :=
  readFrom_iff

/-- A backslash before a full stop takes the escape of it, and one before a letter is lost. -/
theorem toTelegramV2_loose : readFrom false false (toTelegramV2 ['\\', '.']) = none ∧
    readFrom false false (toTelegramV2 ['a', '\\', 'b']) = some ['a', 'b'] := by
  decide

end ClawDesk.Channel
