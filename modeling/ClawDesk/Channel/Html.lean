import Mathlib.Algebra.Group.Nat.Defs
import Mathlib.Data.List.TakeWhile

/-!
# Replies in HTML

A Markdown text is converted to HTML in one pass, with a loop of its own for every construct.  What
is put out is kept here as pieces, which say whether a character is markup or comes from the text.

The loops for bold and italic text, for headings and for the language of a code block put out the
characters as they are, and a code block that the text does not end is left open.  So the markup of
the output is the converter's own, and nested, just where none of the elements of the text is one of
these cases (`toHtml_safe_iff`).
-/

namespace ClawDesk.Channel

/-! ### Pieces of HTML -/

/-- The tags with an end. -/
inductive Tag where
  | strong
  | em
  | code
  | pre
  /-- `h{level}`, with the number in 32 bits. -/
  | heading (level : ℤ)
  deriving DecidableEq

/-- A piece of the output. -/
inductive Piece where
  | opening (tag : Tag)
  /-- The tag of code with its language as class. -/
  | classed (lang : List Char)
  | closing (tag : Tag)
  | br
  /-- A character of the text as an entity. -/
  | entity (c : Char)
  /-- A character of the text as it is. -/
  | char (c : Char)
  deriving DecidableEq

/-- The characters that are HTML-escaped. -/
def special : List Char := ['<', '>', '&']

namespace Tag

def name : Tag → List Char
  | strong => "strong".toList
  | em => "em".toList
  | code => "code".toList
  | pre => "pre".toList
  | heading level => 'h' :: (toString level).toList

/-- One of the tags that the converter is to use. -/
def Fixed : Tag → Prop
  | heading level => 1 ≤ level ∧ level ≤ 6
  | _ => True

end Tag

namespace Piece

/-- The text of a piece. -/
def render : Piece → List Char
  | opening tag => '<' :: tag.name ++ ['>']
  | classed lang => "<code class=\"language-".toList ++ lang ++ "\">".toList
  | closing tag => "</".toList ++ tag.name ++ ['>']
  | br => "<br/>".toList
  | entity c =>
      if c = '<' then "&lt;".toList else if c = '>' then "&gt;".toList else "&amp;".toList
  | char c => [c]

/-- HTML-escape. -/
def escape (c : Char) : Piece := if c ∈ special then entity c else char c

/-- The characters of the text that a piece has as they are. -/
def copied : Piece → List Char
  | classed lang => lang
  | char c => [c]
  | _ => []

/-- Markup of the converter. -/
def Markup : Piece → Prop
  | opening tag => tag.Fixed
  | closing tag => tag.Fixed
  | classed _ => True
  | br => True
  | _ => False

/-- The open tags behind a piece; there are none where it closes another tag than the last one. -/
def nest (stack : List Tag) : Piece → Option (List Tag)
  | opening tag => some (tag :: stack)
  | classed _ => some (.code :: stack)
  | closing tag => if stack.head? = some tag then some stack.tail else none
  | _ => some stack

/-- A piece without tags. -/
def IsText : Piece → Prop
  | entity _ => True
  | char _ => True
  | _ => False

end Piece

/-! ### The conversion -/

/-- What is bold, and the text behind it. -/
def strongBody : List Char → List Char × List Char
  | [] => ([], [])
  | '*' :: '*' :: rest => ([], rest)
  | c :: rest => (c :: (strongBody rest).1, (strongBody rest).2)

theorem length_strongBody (rest : List Char) : (strongBody rest).2.length ≤ rest.length := by
  fun_induction strongBody rest with
  | case1 => exact Nat.le_refl 0
  | case2 rest => exact Nat.le_add_right rest.length 2
  | case3 c rest _ ih => exact Nat.le_succ_of_le ih

/-- The number of a level in 32 bits. -/
def asI32 (level : ℕ) : ℤ := Int.bmod level (2 ^ 32)

/-- The tag of a heading. -/
def headingTag (level : ℕ) : Tag := .heading (min (asI32 level) 6)

/-- The tag that opens code in a block. -/
def openCode (lang : List Char) : Piece := if lang = [] then .opening .code else .classed lang

/-- What is in front of a character, or all. -/
def upTo (stop : Char) (rest : List Char) : List Char := rest.takeWhile (· ≠ stop)

/-- What is behind the first of a character. -/
def behind (stop : Char) (rest : List Char) : List Char := (rest.dropWhile (· ≠ stop)).drop 1

/-- The text from the title of a heading on. -/
def headingTitle (rest : List Char) : List Char :=
  if (rest.dropWhile (· = '#')).head? = some ' ' then (rest.dropWhile (· = '#')).tail
  else rest.dropWhile (· = '#')

theorem length_behind (stop : Char) (rest : List Char) :
    (behind stop rest).length ≤ rest.length := by
  have hdrop := (List.dropWhile_sublist (l := rest) (· ≠ stop)).length_le
  rw [behind, List.length_drop]
  omega

theorem length_headingTitle (rest : List Char) : (headingTitle rest).length ≤ rest.length := by
  have hdrop := (List.dropWhile_sublist (l := rest) (· = '#')).length_le
  unfold headingTitle
  split_ifs
  · rw [List.length_tail]
    omega
  · exact hdrop

theorem length_headingEnd (rest : List Char) :
    ((headingTitle rest).dropWhile (· ≠ '\n')).length ≤ rest.length :=
  (List.dropWhile_sublist _).length_le.trans (length_headingTitle rest)

/-- The conversion of the rest of a text, inside or outside of a code block. -/
def toHtmlFrom (inCodeBlock : Bool) (chars : List Char) : List Piece :=
  match inCodeBlock, chars with
  | _, [] => []
  | true, '`' :: '`' :: '`' :: rest => .closing .code :: .closing .pre :: toHtmlFrom false rest
  -- the second of two backticks is lost
  | true, '`' :: '`' :: rest => .escape '`' :: toHtmlFrom true rest
  | true, ch :: rest => .escape ch :: toHtmlFrom true rest
  | false, '`' :: '`' :: '`' :: rest =>
      .opening .pre :: openCode (upTo '\n' rest) :: toHtmlFrom true (behind '\n' rest)
  | false, '`' :: '`' :: rest => toHtmlFrom false rest
  | false, '`' :: rest =>
      .opening .code :: (upTo '`' rest).map .escape ++
        .closing .code :: toHtmlFrom false (behind '`' rest)
  | false, '*' :: '*' :: rest =>
      .opening .strong :: (strongBody rest).1.map .char ++
        .closing .strong :: toHtmlFrom false (strongBody rest).2
  | false, '*' :: rest =>
      .opening .em :: (upTo '*' rest).map .char ++
        .closing .em :: toHtmlFrom false (behind '*' rest)
  | false, '#' :: rest =>
      let tag := headingTag (1 + (rest.takeWhile (· = '#')).length)
      .opening tag :: (upTo '\n' (headingTitle rest)).map .char ++
        .closing tag :: toHtmlFrom false ((headingTitle rest).dropWhile (· ≠ '\n'))
  | false, '\n' :: '\n' :: rest => .br :: .br :: toHtmlFrom false rest
  | false, ch :: rest => .escape ch :: toHtmlFrom false rest
  termination_by chars.length
  decreasing_by
    all_goals
      have := length_behind '\n' rest
      have := length_behind '`' rest
      have := length_behind '*' rest
      have := length_strongBody rest
      have := length_headingEnd rest
      simp only [List.length_cons]
      omega

/-- Convert Markdown to basic HTML. -/
def toHtml (md : List Char) : List Char := (toHtmlFrom false md).flatMap Piece.render

/-! ### The elements of a text -/

/-- The body of a code block, whether it has an end, and the text behind it. -/
def codeBody : List Char → List Char × Bool × List Char
  | [] => ([], false, [])
  | '`' :: '`' :: '`' :: rest => ([], true, rest)
  | '`' :: '`' :: rest => ('`' :: (codeBody rest).1, (codeBody rest).2)
  | ch :: rest => (ch :: (codeBody rest).1, (codeBody rest).2)

/-- A construct of Markdown. -/
inductive Element where
  | plain (c : Char)
  | lineBreak
  | code (body : List Char)
  | strong (body : List Char)
  | em (body : List Char)
  | heading (level : ℕ) (title : List Char)
  | codeBlock (lang body : List Char) (closed : Bool)

theorem length_codeBody (rest : List Char) : (codeBody rest).2.2.length ≤ rest.length := by
  fun_induction codeBody rest with
  | case1 => exact Nat.le_refl 0
  | case2 rest => exact Nat.le_add_right rest.length 3
  | case3 rest _ ih => exact ih.trans (Nat.le_add_right rest.length 2)
  | case4 ch rest _ _ ih => exact Nat.le_succ_of_le ih

/-- The elements of a text. -/
def elements (md : List Char) : List Element :=
  match md with
  | [] => []
  | '`' :: '`' :: '`' :: rest =>
      let code := codeBody (behind '\n' rest)
      .codeBlock (upTo '\n' rest) code.1 code.2.1 :: elements code.2.2
  | '`' :: '`' :: rest => elements rest
  | '`' :: rest => .code (upTo '`' rest) :: elements (behind '`' rest)
  | '*' :: '*' :: rest => .strong (strongBody rest).1 :: elements (strongBody rest).2
  | '*' :: rest => .em (upTo '*' rest) :: elements (behind '*' rest)
  | '#' :: rest =>
      .heading (1 + (rest.takeWhile (· = '#')).length) (upTo '\n' (headingTitle rest)) ::
        elements ((headingTitle rest).dropWhile (· ≠ '\n'))
  | '\n' :: '\n' :: rest => .lineBreak :: elements rest
  | ch :: rest => .plain ch :: elements rest
  termination_by md.length
  decreasing_by
    all_goals
      have := length_codeBody (behind '\n' rest)
      have := length_behind '\n' rest
      have := length_behind '`' rest
      have := length_behind '*' rest
      have := length_strongBody rest
      have := length_headingEnd rest
      simp only [List.length_cons]
      omega

/-- The end of a code block. -/
def codeEnd (closed : Bool) : List Piece := if closed then [.closing .code, .closing .pre] else []

namespace Element

/-- What an element is put out as. -/
def pieces : Element → List Piece
  | plain c => [.escape c]
  | lineBreak => [.br, .br]
  | code body => .opening .code :: body.map .escape ++ [.closing .code]
  | strong body => .opening .strong :: body.map .char ++ [.closing .strong]
  | em body => .opening .em :: body.map .char ++ [.closing .em]
  | heading level title =>
      .opening (headingTag level) :: title.map .char ++ [.closing (headingTag level)]
  | codeBlock lang body closed =>
      .opening .pre :: openCode lang :: body.map .escape ++ codeEnd closed

end Element

theorem toHtmlFrom_codeBlock (rest : List Char) :
    toHtmlFrom true rest = (codeBody rest).1.map .escape ++ (codeEnd (codeBody rest).2.1 ++
      toHtmlFrom false (codeBody rest).2.2) := by
  fun_induction codeBody rest with
  | case1 =>
      rw [toHtmlFrom, toHtmlFrom]
      rfl
  | case2 rest =>
      rw [toHtmlFrom]
      rfl
  | case3 rest hrest ih =>
      rw [toHtmlFrom, ih]
      · rfl
      · exact hrest
  | case4 ch rest hthree htwo ih =>
      rw [toHtmlFrom, ih]
      · rfl
      · exact hthree
      · exact htwo

/-- **The loop puts out the elements of the text.** -/
theorem toHtmlFrom_eq (md : List Char) :
    toHtmlFrom false md = (elements md).flatMap Element.pieces := by
  fun_induction elements md with
  | case1 =>
      rw [toHtmlFrom]
      rfl
  | case2 rest code ih =>
      rw [toHtmlFrom, toHtmlFrom_codeBlock, ih, List.flatMap_cons, Element.pieces]
      simp only [List.cons_append, List.append_assoc]
      rfl
  | case3 rest hrest ih =>
      rw [toHtmlFrom, ih]
      exact hrest
  | case4 rest hthree htwo ih =>
      rw [toHtmlFrom, ih, List.flatMap_cons, Element.pieces]
      · simp only [List.cons_append, List.append_assoc, List.nil_append]
      · exact hthree
      · exact htwo
  | case5 rest ih =>
      rw [toHtmlFrom, ih, List.flatMap_cons, Element.pieces]
      simp only [List.cons_append, List.append_assoc, List.nil_append]
  | case6 rest hrest ih =>
      rw [toHtmlFrom, ih, List.flatMap_cons, Element.pieces]
      · simp only [List.cons_append, List.append_assoc, List.nil_append]
      · exact hrest
  | case7 rest ih =>
      rw [toHtmlFrom, ih, List.flatMap_cons, Element.pieces]
      simp only [List.cons_append, List.append_assoc, List.nil_append]
  | case8 rest ih =>
      rw [toHtmlFrom, ih, List.flatMap_cons, Element.pieces]
      rfl
  | case9 ch rest hcode₃ hcode₂ hcode hstrong hem hheading hbreak ih =>
      rw [toHtmlFrom, ih, List.flatMap_cons, Element.pieces]
      · rfl
      all_goals assumption

/-! ### Safe output -/

/-- The only markup is the converter's, and the tags are nested. -/
structure Safe (html : List Piece) : Prop where
  markup : ∀ p ∈ html, '<' ∈ p.render → p.Markup
  escaped : ∀ p ∈ html, ∀ c ∈ p.copied, c ∉ special
  classes : ∀ p ∈ html, ∀ lang, p = .classed lang → '\x22' ∉ lang
  nested : html.foldlM Piece.nest [] = some []

/-- What `Safe` asks of one piece. -/
def Piece.Clean (p : Piece) : Prop :=
  ('<' ∈ p.render → p.Markup) ∧ (∀ c ∈ p.copied, c ∉ special) ∧
    ∀ lang, p = .classed lang → '\x22' ∉ lang

/-- The elements that are put out without harm. -/
def Element.Harmless : Element → Prop
  | strong body => ∀ c ∈ body, c ∉ special
  | em body => ∀ c ∈ body, c ∉ special
  | heading level title => 0 < asI32 level ∧ ∀ c ∈ title, c ∉ special
  | codeBlock lang _ closed => (∀ c ∈ lang, c ∉ special ∧ c ≠ '\x22') ∧ closed = true
  | _ => True

/-- Whether the tags of an element are all closed. -/
def Element.closed : Element → Bool
  | codeBlock _ _ closed => closed
  | _ => true

namespace Piece

variable {tag : Tag} {lang : List Char} {c : Char}

theorem clean_opening : (opening tag).Clean ↔ tag.Fixed := by
  refine ⟨fun h => h.1 List.mem_cons_self, fun h => ⟨fun _ => h, ?_, ?_⟩⟩
  · exact fun c hc => absurd hc List.not_mem_nil
  · exact fun lang hlang => Piece.noConfusion hlang

theorem clean_closing : (closing tag).Clean ↔ tag.Fixed := by
  refine ⟨fun h => h.1 List.mem_cons_self, fun h => ⟨fun _ => h, ?_, ?_⟩⟩
  · exact fun c hc => absurd hc List.not_mem_nil
  · exact fun lang hlang => Piece.noConfusion hlang

theorem clean_classed : (classed lang).Clean ↔ ∀ c ∈ lang, c ∉ special ∧ c ≠ '\x22' := by
  constructor
  · rintro ⟨-, hcopied, hclasses⟩ c hc
    refine ⟨hcopied c hc, ?_⟩
    rintro rfl
    exact hclasses lang rfl hc
  · intro h
    refine ⟨fun _ => trivial, fun c hc => (h c hc).1, ?_⟩
    rintro lang' hlang hquote
    obtain rfl := Piece.classed.inj hlang
    exact (h _ hquote).2 rfl

theorem clean_br : br.Clean :=
  ⟨fun _ => trivial, fun _ hc => absurd hc List.not_mem_nil, fun _ hlang => Piece.noConfusion hlang⟩

theorem clean_char : (char c).Clean ↔ c ∉ special := by
  constructor
  · exact fun h => h.2.1 c List.mem_cons_self
  · intro h
    refine ⟨fun hmem => ?_, fun d hd => ?_, fun lang hlang => Piece.noConfusion hlang⟩
    · obtain rfl := List.mem_singleton.mp hmem
      exact absurd (List.mem_cons_self) h
    · rwa [List.mem_singleton.mp hd]

theorem clean_escape : (escape c).Clean := by
  unfold escape
  split_ifs with h
  · have hrender : '<' ∉ (entity c).render := by
      show '<' ∉ if c = '<' then "&lt;".toList else if c = '>' then "&gt;".toList
        else "&amp;".toList
      split_ifs <;> decide +kernel
    refine ⟨fun hmem => absurd hmem hrender, ?_, fun lang hlang => Piece.noConfusion hlang⟩
    exact fun d hd => absurd hd List.not_mem_nil
  · exact clean_char.mpr h

theorem clean_openCode : (openCode lang).Clean ↔ ∀ c ∈ lang, c ∉ special ∧ c ≠ '\x22' := by
  unfold openCode
  split_ifs with h
  · subst h
    exact iff_of_true (clean_opening.mpr trivial) fun _ hc => absurd hc List.not_mem_nil
  · exact clean_classed

end Piece

theorem forall_clean_map_escape (body : List Char) :
    ∀ p ∈ body.map Piece.escape, p.Clean := by
  intro p hp
  obtain ⟨c, -, rfl⟩ := List.mem_map.mp hp
  exact Piece.clean_escape

theorem forall_clean_map_char {body : List Char} :
    (∀ p ∈ body.map Piece.char, p.Clean) ↔ ∀ c ∈ body, c ∉ special := by
  rw [List.forall_mem_map]
  exact forall₂_congr fun c _ => Piece.clean_char

/-- What stands between two tags. -/
theorem forall_clean_tagged {tag : Tag} {body : List Piece} :
    (∀ p ∈ .opening tag :: body ++ [.closing tag], Piece.Clean p) ↔
      tag.Fixed ∧ ∀ p ∈ body, p.Clean := by
  rw [List.cons_append, List.forall_mem_cons, List.forall_mem_append, List.forall_mem_singleton,
    Piece.clean_opening, Piece.clean_closing]
  exact ⟨fun h => ⟨h.1, h.2.1⟩, fun h => ⟨h.1, h.2, h.1⟩⟩

theorem fixed_headingTag {level : ℕ} : (headingTag level).Fixed ↔ 0 < asI32 level := by
  show 1 ≤ min (asI32 level) 6 ∧ min (asI32 level) 6 ≤ 6 ↔ 0 < asI32 level
  omega

/-- The pieces of an element are clean, and its tags closed, just where it is harmless. -/
theorem Element.harmless_iff (e : Element) :
    e.Harmless ↔ (∀ p ∈ e.pieces, p.Clean) ∧ e.closed = true := by
  cases e with
  | plain c => exact iff_of_true trivial ⟨forall_clean_map_escape [c], rfl⟩
  | lineBreak =>
      refine iff_of_true trivial ⟨?_, rfl⟩
      exact List.forall_mem_cons.mpr ⟨Piece.clean_br, List.forall_mem_singleton.mpr Piece.clean_br⟩
  | code body =>
      exact iff_of_true trivial
        ⟨forall_clean_tagged.mpr ⟨trivial, forall_clean_map_escape body⟩, rfl⟩
  | strong body =>
      rw [pieces, forall_clean_tagged, forall_clean_map_char]
      exact ⟨fun h => ⟨⟨trivial, h⟩, rfl⟩, fun h => h.1.2⟩
  | em body =>
      rw [pieces, forall_clean_tagged, forall_clean_map_char]
      exact ⟨fun h => ⟨⟨trivial, h⟩, rfl⟩, fun h => h.1.2⟩
  | heading level title =>
      rw [pieces, forall_clean_tagged, forall_clean_map_char, fixed_headingTag]
      exact ⟨fun h => ⟨h, rfl⟩, fun h => h.1⟩
  | codeBlock lang body closed =>
      have hend : ∀ p ∈ codeEnd closed, p.Clean := by
        unfold codeEnd
        split_ifs
        · exact List.forall_mem_cons.mpr ⟨Piece.clean_closing.mpr trivial,
            List.forall_mem_singleton.mpr (Piece.clean_closing.mpr trivial)⟩
        · exact fun p hp => absurd hp List.not_mem_nil
      rw [pieces, List.cons_append, List.cons_append, List.forall_mem_cons, List.forall_mem_cons,
        List.forall_mem_append, Piece.clean_openCode]
      exact ⟨fun h => ⟨⟨Piece.clean_opening.mpr trivial, h.1, forall_clean_map_escape body, hend⟩,
        h.2⟩, fun h => ⟨h.1.2.1, h.2⟩⟩

/-! ### Nesting -/

theorem nest_text {body : List Piece} (h : ∀ p ∈ body, p.IsText) (stack : List Tag) :
    body.foldlM Piece.nest stack = some stack := by
  induction body with
  | nil => rfl
  | cons p body ih =>
      have hp : Piece.nest stack p = some stack := by
        have htext := h p List.mem_cons_self
        cases p with
        | entity c => rfl
        | char c => rfl
        | _ => exact absurd htext id
      rw [List.foldlM_cons, hp]
      exact ih fun q hq => h q (List.mem_cons_of_mem _ hq)

theorem isText_map_char (body : List Char) : ∀ p ∈ body.map Piece.char, p.IsText :=
  List.forall_mem_map.mpr fun _ _ => trivial

theorem isText_map_escape (body : List Char) : ∀ p ∈ body.map Piece.escape, p.IsText := by
  rw [List.forall_mem_map]
  intro c _
  unfold Piece.escape
  split_ifs <;> exact trivial

theorem nest_tagged {tag : Tag} {body : List Piece} (h : ∀ p ∈ body, p.IsText)
    (stack : List Tag) :
    (Piece.opening tag :: body ++ [Piece.closing tag]).foldlM Piece.nest stack = some stack := by
  rw [List.cons_append, List.foldlM_cons]
  show (body ++ [Piece.closing tag]).foldlM Piece.nest (tag :: stack) = some stack
  rw [List.foldlM_append, nest_text h]
  show Piece.nest (tag :: stack) (Piece.closing tag) >>= pure = some stack
  rw [bind_pure]
  exact if_pos rfl

/-- What an element leaves open. -/
theorem Element.exists_nest (e : Element) (stack : List Tag) :
    ∃ opened, e.pieces.foldlM Piece.nest stack = some (opened ++ stack) ∧
      (opened = [] ↔ e.closed = true) := by
  cases e with
  | plain c => exact ⟨[], nest_text (isText_map_escape [c]) stack, iff_of_true rfl rfl⟩
  | lineBreak => exact ⟨[], rfl, iff_of_true rfl rfl⟩
  | code body => exact ⟨[], nest_tagged (isText_map_escape body) stack, iff_of_true rfl rfl⟩
  | strong body => exact ⟨[], nest_tagged (isText_map_char body) stack, iff_of_true rfl rfl⟩
  | em body => exact ⟨[], nest_tagged (isText_map_char body) stack, iff_of_true rfl rfl⟩
  | heading level title =>
      exact ⟨[], nest_tagged (isText_map_char title) stack, iff_of_true rfl rfl⟩
  | codeBlock lang body closed =>
      have hopen : ∀ stack, Piece.nest stack (openCode lang) = some (.code :: stack) := by
        intro stack
        unfold openCode
        split_ifs <;> rfl
      have hstart : (pieces (codeBlock lang body closed)).foldlM Piece.nest stack =
          (codeEnd closed).foldlM Piece.nest (.code :: .pre :: stack) := by
        rw [pieces, List.cons_append, List.cons_append, List.foldlM_cons]
        show (openCode lang :: (body.map Piece.escape ++ codeEnd closed)).foldlM Piece.nest
          (.pre :: stack) = _
        rw [List.foldlM_cons, hopen]
        show (body.map Piece.escape ++ codeEnd closed).foldlM Piece.nest
          (.code :: .pre :: stack) = _
        rw [List.foldlM_append, nest_text (isText_map_escape body)]
        rfl
      rw [hstart]
      cases closed with
      | true => exact ⟨[], rfl, iff_of_true rfl rfl⟩
      | false => exact ⟨[.code, .pre], rfl, iff_of_false (List.cons_ne_nil _ _) Bool.noConfusion⟩

theorem exists_nest (es : List Element) (stack : List Tag) :
    ∃ opened, (es.flatMap Element.pieces).foldlM Piece.nest stack = some (opened ++ stack) ∧
      (opened = [] ↔ ∀ e ∈ es, e.closed = true) := by
  induction es generalizing stack with
  | nil => exact ⟨[], rfl, iff_of_true rfl fun _ he => absurd he List.not_mem_nil⟩
  | cons e es ih =>
      obtain ⟨opened, hnest, hclosed⟩ := e.exists_nest stack
      obtain ⟨opened', hnest', hclosed'⟩ := ih (opened ++ stack)
      refine ⟨opened' ++ opened, ?_, ?_⟩
      · rw [List.flatMap_cons, List.foldlM_append, hnest, List.append_assoc]
        exact hnest'
      · rw [List.append_eq_nil_iff, hclosed, hclosed', List.forall_mem_cons, and_comm]

/-- **The output is safe just where all elements of the text are harmless.** -/
theorem toHtml_safe_iff (md : List Char) :
    Safe (toHtmlFrom false md) ↔ ∀ e ∈ elements md, e.Harmless := by
  obtain ⟨opened, hnest, hclosed⟩ := exists_nest (elements md) []
  rw [← toHtmlFrom_eq, List.append_nil] at hnest
  have hclean : (∀ p ∈ toHtmlFrom false md, p.Clean) ↔
      ∀ e ∈ elements md, ∀ p ∈ e.pieces, p.Clean := by
    rw [toHtmlFrom_eq, List.forall_mem_flatMap]
  constructor
  · intro h e he
    rw [Element.harmless_iff]
    refine ⟨hclean.mp (fun p hp => ⟨h.markup p hp, h.escaped p hp, h.classes p hp⟩) e he, ?_⟩
    exact hclosed.mp (Option.some.inj (hnest.symm.trans h.nested)) e he
  · intro h
    have hpieces := hclean.mpr fun e he => (e.harmless_iff.mp (h e he)).1
    refine ⟨fun p hp => (hpieces p hp).1, fun p hp => (hpieces p hp).2.1,
      fun p hp => (hpieces p hp).2.2, ?_⟩
    rw [hnest, hclosed.mpr fun e he => (e.harmless_iff.mp (h e he)).2]

/-- A `<` in bold text is put out as it is, and a code block at the end is left open. -/
theorem toHtml_raw :
    (toHtmlFrom false ['*', '*', '<', '*', '*'] =
        [.opening .strong, .char '<', .closing .strong] ∧
      ¬ Safe (toHtmlFrom false ['*', '*', '<', '*', '*'])) ∧
    toHtmlFrom false ['`', '`', '`'] = [.opening .pre, .opening .code] ∧
      ¬ Safe (toHtmlFrom false ['`', '`', '`']) := by
  have hbold : toHtmlFrom false ['*', '*', '<', '*', '*'] =
      [.opening .strong, .char '<', .closing .strong] := by
    rw [toHtmlFrom]
    show _ :: Piece.char '<' :: Piece.closing .strong :: toHtmlFrom false [] = _
    rw [toHtmlFrom]
  have hblock : toHtmlFrom false ['`', '`', '`'] = [.opening .pre, .opening .code] := by
    rw [toHtmlFrom]
    show _ :: _ :: toHtmlFrom true [] = _
    rw [toHtmlFrom]
    rfl
  rw [hbold, hblock]
  refine ⟨⟨rfl, fun h => ?_⟩, rfl, fun h => ?_⟩
  · exact h.escaped (.char '<') (by decide) '<' List.mem_cons_self List.mem_cons_self
  · exact absurd h.nested (by decide)

end ClawDesk.Channel
