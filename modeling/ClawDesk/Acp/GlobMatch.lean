import ClawDesk.Acp.Policy
import ClawDesk.Foundations.Glob
import Mathlib.Data.List.TakeWhile
import Mathlib.Logic.Relation

/-!
# What the glob matcher matches

In a pattern of the policy engine a star stands for any text and a question mark for one character.
The matcher goes through pattern and text at once and goes back to the last star it has met.  What
it matches is in the language of the pattern (`inLanguage_of_globMatch`).

Before it looks whether the pattern is at a star it compares characters, so a star of the text is
taken for the star of the pattern, and the pattern's is not remembered.  The matcher finds all of
the language as long as no two stars meet (`agrees_of_starsApart`).  For a text it does so whatever
the pattern is exactly if the text has no star, and for a pattern whatever the text is exactly if
the pattern has none or is a star (`agrees_iff`).
-/

namespace ClawDesk.Acp.GlobMatch

open Foundations GlobState

/-- The text belongs to the language of the pattern. -/
def InLanguage (pattern text : String) : Prop := Wild '*' '?' pattern.toList text.toList

/-- The matcher decides whether the text belongs to the language of the pattern. -/
def Agrees (pattern text : String) : Prop := globMatch pattern text = true ↔ InLanguage pattern text

/-! ### Rounds of the loop -/

variable {s s' : GlobState} {t : Char} {pattern text : List Char}

/-- One round. -/
def Round (s s' : GlobState) : Prop := s.text ≠ [] ∧ s.advance = some s'

/-- Pattern and text are both at a star. -/
def Meets (s : GlobState) : Prop := s.pattern.head? = some '*' ∧ s.text.head? = some '*'

/-- No star of the pattern meets a star of the text. -/
def StarsApart (pattern text : String) : Prop :=
  ∀ s, Relation.ReflTransGen Round ⟨pattern.toList, text.toList, none⟩ s → ¬ Meets s

/-- What a round can do. -/
theorem advance_cases (htext : s.text = t :: text) :
    (∃ p pattern, s.pattern = p :: pattern ∧ (p = '?' ∨ p = t) ∧
      s.advance = some ⟨pattern, text, s.star⟩) ∨
    (∃ pattern, s.pattern = '*' :: pattern ∧ t ≠ '*' ∧
      s.advance = some ⟨pattern, s.text, some (pattern, s.text)⟩) ∨
    (∀ p pattern, s.pattern = p :: pattern → p ≠ '*' ∧ p ≠ '?' ∧ p ≠ t) ∧
      s.advance = s.backtrack := by
  obtain ⟨pattern, text', star⟩ := s
  obtain rfl : text' = t :: text := htext
  cases pattern with
  | nil => exact .inr (.inr ⟨by simp, rfl⟩)
  | cons p pattern =>
      by_cases hchar : p = '?' ∨ p = t
      · exact .inl ⟨p, pattern, rfl, hchar, if_pos hchar⟩
      · obtain ⟨hany, hne⟩ := not_or.mp hchar
        by_cases hstar : p = '*'
        · subst hstar
          refine .inr (.inl ⟨pattern, rfl, Ne.symm hne, ?_⟩)
          exact (if_neg hchar).trans (if_pos rfl)
        · refine .inr (.inr ⟨?_, (if_neg hchar).trans (if_neg hstar)⟩)
          rintro p' pattern' h
          obtain ⟨rfl, rfl⟩ := List.cons.inj h
          exact ⟨hstar, hany, hne⟩

theorem globLoop_nil (htext : s.text = []) : globLoop s = true ↔ ∀ c ∈ s.pattern, c = '*' := by
  rw [globLoop, dif_pos htext, List.isEmpty_iff, List.dropWhile_eq_nil_iff]
  simp

theorem globLoop_of_advance (htext : s.text ≠ []) (h : s.advance = some s') :
    globLoop s = globLoop s' := by
  rw [globLoop, dif_neg htext]
  split
  case h_1 hnone => simp [h] at hnone
  case h_2 hsome =>
    obtain rfl := Option.some.inj (h.symm.trans hsome)
    rfl

theorem globLoop_of_none (htext : s.text ≠ []) (h : s.advance = none) : globLoop s = false := by
  rw [globLoop, dif_neg htext]
  split
  case h_1 => rfl
  case h_2 hsome => simp [h] at hsome

/-! ### What a state accepts -/

/-- What is left of the text matches what is left of the pattern, or some later end of the text
matches what follows the last star. -/
def Accepts (s : GlobState) : Prop :=
  Wild '*' '?' s.pattern s.text ∨
    ∃ q u, s.star = some (q, u) ∧ Wild '*' '?' ('*' :: q) u.tail

/-- A star stands for nothing, or for a character more. -/
theorem wild_star_iff {q u : List Char} :
    Wild '*' '?' ('*' :: q) u ↔ Wild '*' '?' q u ∨ Wild '*' '?' ('*' :: q) u.tail := by
  cases u with
  | nil => simp [wild_nil_iff]
  | cons d u => exact wild_star_cons

/-- At a star that is remembered. -/
theorem accepts_at_star {q u : List Char} :
    Accepts ⟨q, u, some (q, u)⟩ ↔ Wild '*' '?' ('*' :: q) u := by
  rw [wild_star_iff]
  simp [Accepts]

/-- Where the pattern goes on with a character that is not the next one. -/
theorem not_wild_of_ne (htext : s.text = t :: text)
    (h : ∀ p pattern, s.pattern = p :: pattern → p ≠ '*' ∧ p ≠ '?' ∧ p ≠ t) :
    ¬ Wild '*' '?' s.pattern s.text := by
  intro hwild
  rw [htext] at hwild
  cases hpattern : s.pattern with
  | nil =>
      rw [hpattern] at hwild
      cases hwild
  | cons p pattern =>
      obtain ⟨hstar, hany, hne⟩ := h p pattern hpattern
      rw [hpattern, wild_cons_letter hstar] at hwild
      obtain ⟨d, rest, heq, hcd, -⟩ := hwild
      obtain ⟨rfl, rfl⟩ := List.cons.inj heq
      exact hcd.elim hany hne

/-- Going back to the last star. -/
theorem accepts_backtrack (hwild : ¬ Wild '*' '?' s.pattern s.text) :
    Accepts s ↔ ∃ s', s.backtrack = some s' ∧ Accepts s' := by
  obtain ⟨pattern, text, star⟩ := s
  cases star with
  | none => simp [Accepts, backtrack, hwild]
  | some star =>
      obtain ⟨q, u⟩ := star
      have haccepts : Accepts ⟨pattern, text, some (q, u)⟩ ↔ Wild '*' '?' ('*' :: q) u.tail := by
        simp [Accepts, hwild]
      rw [haccepts, ← accepts_at_star]
      simp [backtrack]

/-- **What a round accepts has been acceptable before.** -/
theorem accepts_of_advance (htext : s.text = t :: text) (h : s.advance = some s')
    (haccepts : Accepts s') : Accepts s := by
  rcases advance_cases htext with ⟨p, pattern, hpattern, hchar, hsome⟩ |
    ⟨pattern, hpattern, -, hsome⟩ | ⟨hne, hback⟩
  · obtain rfl := Option.some.inj (hsome.symm.trans h)
    refine haccepts.imp_left fun hwild => ?_
    rw [hpattern, htext]
    by_cases hp : p = '*'
    · obtain rfl : t = '*' := by
        rcases hchar with hany | heq
        · exact absurd (hp.symm.trans hany) (by decide)
        · exact heq ▸ hp
      rw [hp]
      exact .star ['*'] hwild
    · exact .letter hp hchar hwild
  · obtain rfl := Option.some.inj (hsome.symm.trans h)
    refine .inl ?_
    rw [hpattern]
    exact accepts_at_star.mp haccepts
  · exact (accepts_backtrack (not_wild_of_ne htext hne)).mpr ⟨s', hback ▸ h, haccepts⟩

theorem accepts_of_globLoop (h : globLoop s = true) : Accepts s := by
  induction s using globLoop.induct with
  | case1 s htext =>
      refine .inl ?_
      rw [htext, wild_nil_iff]
      exact (globLoop_nil htext).mp h
  | case2 s htext hnone => simp [globLoop_of_none htext hnone] at h
  | case3 s htext s' hsome _ ih =>
      obtain ⟨t, text, heq⟩ := List.exists_cons_of_ne_nil htext
      exact accepts_of_advance heq hsome (ih (globLoop_of_advance htext hsome ▸ h))

/-! ### Nothing is missed as long as no stars meet -/

/-- What has been read since the last star: a part of the pattern without a star, and as much
text. -/
def SinceStar (s : GlobState) : Prop :=
  ∀ q u, s.star = some (q, u) → ∃ a, '*' ∉ a ∧ q = a ++ s.pattern ∧ a.length ≤ u.length ∧
    s.text = u.drop a.length

theorem sinceStar_at_star {q u : List Char} : SinceStar ⟨q, u, some (q, u)⟩ := by
  intro q' u' h
  obtain ⟨rfl, rfl⟩ := Prod.mk.inj (Option.some.inj h)
  exact ⟨[], by simp, rfl, Nat.zero_le _, rfl⟩

/-- What a later end of the text could still match, matches from the star the pattern is at. -/
theorem SinceStar.wild_of_star (h : SinceStar s) (hpattern : s.pattern = '*' :: pattern)
    {q u : List Char} (hstar : s.star = some (q, u)) (hwild : Wild '*' '?' ('*' :: q) u.tail) :
    Wild '*' '?' ('*' :: pattern) s.text := by
  obtain ⟨a, ha, hq, -, htext⟩ := h q u hstar
  rw [hq, hpattern] at hwild
  rw [htext]
  exact hwild.last_star ha (List.tail_suffix u)

/-- A round between two different characters loses nothing. -/
theorem accepts_advance (h : SinceStar s) (hmeets : ¬ Meets s) (htext : s.text = t :: text)
    (haccepts : Accepts s) : ∃ s', s.advance = some s' ∧ SinceStar s' ∧ Accepts s' := by
  rcases advance_cases htext with ⟨p, pattern, hpattern, hchar, hsome⟩ |
    ⟨pattern, hpattern, -, hsome⟩ | ⟨hne, hback⟩
  · have hp : p ≠ '*' := by
      rintro rfl
      rcases hchar with hany | rfl
      · exact absurd hany (by decide)
      · exact hmeets ⟨by rw [hpattern]; rfl, by rw [htext]; rfl⟩
    refine ⟨_, hsome, ?_, haccepts.imp_left fun hwild => ?_⟩
    · intro q u hstar
      obtain ⟨a, ha, hq, hlen, hdrop⟩ := h q u hstar
      rw [htext] at hdrop
      have hlt : a.length < u.length := by
        by_contra hge
        rw [List.drop_of_length_le (Nat.le_of_not_lt hge)] at hdrop
        cases hdrop
      refine ⟨a ++ [p], by simp [ha, Ne.symm hp], by simp [hq, hpattern], ?_, ?_⟩
      · rw [List.length_append, List.length_singleton]
        exact hlt
      · rw [List.length_append, List.length_singleton, ← List.tail_drop, ← hdrop]
        rfl
    · rw [hpattern, htext, wild_cons_letter hp] at hwild
      obtain ⟨d, rest, heq, -, hrest⟩ := hwild
      rw [(List.cons.inj heq).2]
      exact hrest
  · refine ⟨_, hsome, sinceStar_at_star, accepts_at_star.mpr ?_⟩
    rcases haccepts with hwild | ⟨q, u, hstar, hwild⟩
    · rwa [hpattern] at hwild
    · exact h.wild_of_star hpattern hstar hwild
  · obtain ⟨s', hs', haccepts'⟩ := (accepts_backtrack (not_wild_of_ne htext hne)).mp haccepts
    refine ⟨s', hback ▸ hs', ?_, haccepts'⟩
    obtain ⟨star, -, rfl⟩ := Option.map_eq_some_iff.mp hs'
    exact sinceStar_at_star

/-- At the end of the text only stars may be left. -/
theorem SinceStar.stars_of_accepts (h : SinceStar s) (htext : s.text = []) (haccepts : Accepts s) :
    ∀ c ∈ s.pattern, c = '*' := by
  rcases haccepts with hwild | ⟨q, u, hstar, hwild⟩
  · rwa [htext, wild_nil_iff] at hwild
  · obtain ⟨a, ha, hq, hlen, hdrop⟩ := h q u hstar
    obtain ⟨rest, hrest, hmatch⟩ := wild_cons_star.mp hwild
    rw [hq] at hmatch
    obtain ⟨hfits, hpattern⟩ := hmatch.drop ha
    -- The end of the text that is matched has room for no more than what has been read.
    have hall : u.length ≤ a.length := List.drop_eq_nil_iff.mp (hdrop.symm.trans htext)
    have hshort := hrest.length_le
    rw [List.length_tail] at hshort
    rw [List.drop_of_length_le (by omega), wild_nil_iff] at hpattern
    exact hpattern

theorem globLoop_of_accepts (hapart : ∀ s', Relation.ReflTransGen Round s s' → ¬ Meets s')
    (h : SinceStar s) (haccepts : Accepts s) : globLoop s = true := by
  induction s using globLoop.induct with
  | case1 s htext => exact (globLoop_nil htext).mpr (h.stars_of_accepts htext haccepts)
  | case2 s htext hnone =>
      obtain ⟨t, text, heq⟩ := List.exists_cons_of_ne_nil htext
      obtain ⟨s', hsome, -, -⟩ := accepts_advance h (hapart s .refl) heq haccepts
      simp [hnone] at hsome
  | case3 s htext s' hsome _ ih =>
      obtain ⟨t, text, heq⟩ := List.exists_cons_of_ne_nil htext
      obtain ⟨s'', hsome', hsince, haccepts'⟩ :=
        accepts_advance h (hapart s .refl) heq haccepts
      obtain rfl := Option.some.inj (hsome.symm.trans hsome')
      rw [globLoop_of_advance htext hsome]
      exact ih (fun s'' hs'' => hapart s'' (.head ⟨htext, hsome⟩ hs'')) hsince haccepts'

/-! ### The matcher -/

theorem inLanguage_star (text : String) : InLanguage "*" text := by
  have h : Wild '*' '?' ['*'] (text.toList ++ []) := .star _ .nil
  rwa [List.append_nil] at h

/-- Past the two shortcuts. -/
theorem globMatch_eq_globLoop {pattern text : String} (hne : pattern ≠ "*")
    (hspecial : '*' ∈ pattern.toList ∨ '?' ∈ pattern.toList) :
    globMatch pattern text = globLoop ⟨pattern.toList, text.toList, none⟩ := by
  rw [globMatch, if_neg hne, if_neg]
  rintro ⟨hstar, hany⟩
  exact hspecial.elim hstar hany

theorem agrees_of_globLoop {pattern text : String}
    (h : globLoop ⟨pattern.toList, text.toList, none⟩ = true ↔ InLanguage pattern text) :
    Agrees pattern text := by
  by_cases hne : pattern = "*"
  · subst hne
    exact iff_of_true (if_pos rfl) (inLanguage_star text)
  · by_cases hspecial : '*' ∈ pattern.toList ∨ '?' ∈ pattern.toList
    · rwa [Agrees, globMatch_eq_globLoop hne hspecial]
    · obtain ⟨hstar, hany⟩ := not_or.mp hspecial
      rw [Agrees, globMatch, if_neg hne, if_pos ⟨hstar, hany⟩, decide_eq_true_iff, InLanguage,
        wild_of_notMem hstar hany, String.toList_inj]

theorem accepts_start {pattern text : String} :
    Accepts ⟨pattern.toList, text.toList, none⟩ ↔ InLanguage pattern text := by
  simp [Accepts, InLanguage]

/-- **What the matcher matches is in the language.** -/
theorem inLanguage_of_globMatch {pattern text : String} (h : globMatch pattern text = true) :
    InLanguage pattern text := by
  by_cases hne : pattern = "*"
  · exact hne ▸ inLanguage_star text
  · by_cases hspecial : '*' ∈ pattern.toList ∨ '?' ∈ pattern.toList
    · rw [globMatch_eq_globLoop hne hspecial] at h
      exact accepts_start.mp (accepts_of_globLoop h)
    · obtain ⟨hstar, hany⟩ := not_or.mp hspecial
      rw [globMatch, if_neg hne, if_pos ⟨hstar, hany⟩] at h
      rw [InLanguage, wild_of_notMem hstar hany, of_decide_eq_true h]

/-- **As long as no stars meet, the matcher decides the language.** -/
theorem agrees_of_starsApart {pattern text : String} (h : StarsApart pattern text) :
    Agrees pattern text := by
  refine agrees_of_globLoop ⟨fun hloop => accepts_start.mp (accepts_of_globLoop hloop), ?_⟩
  exact fun hwild => globLoop_of_accepts h nofun (accepts_start.mpr hwild)

/-- What holds of the start and is kept by rounds, and does not let stars meet. -/
theorem starsApart_of_invariant {pattern text : String} (Inv : GlobState → Prop)
    (hstart : Inv ⟨pattern.toList, text.toList, none⟩)
    (hround : ∀ s s', Inv s → Round s s' → Inv s') (hapart : ∀ s, Inv s → ¬ Meets s) :
    StarsApart pattern text := by
  intro s hs
  refine hapart s ?_
  induction hs with
  | refl => exact hstart
  | tail _ hlast ih => exact hround _ _ ih hlast

/-- A text without a star has none later on. -/
theorem starsApart_of_text {pattern text : String} (h : '*' ∉ text.toList) :
    StarsApart pattern text := by
  refine starsApart_of_invariant
    (fun s => '*' ∉ s.text ∧ ∀ q u, s.star = some (q, u) → '*' ∉ u) ⟨h, nofun⟩ ?_ ?_
  · rintro s s' ⟨htext, hstar⟩ ⟨hne, hsome⟩
    obtain ⟨t, text, heq⟩ := List.exists_cons_of_ne_nil hne
    rcases advance_cases heq with ⟨p, pattern, -, -, hadvance⟩ | ⟨pattern, -, -, hadvance⟩ |
      ⟨-, hadvance⟩
    · obtain rfl := Option.some.inj (hadvance.symm.trans hsome)
      rw [heq] at htext
      exact ⟨fun hmem => htext (List.mem_cons_of_mem _ hmem), hstar⟩
    · obtain rfl := Option.some.inj (hadvance.symm.trans hsome)
      refine ⟨htext, fun q u hstar => ?_⟩
      obtain ⟨-, rfl⟩ := Prod.mk.inj (Option.some.inj hstar)
      exact htext
    · obtain ⟨⟨q, u⟩, hlast, rfl⟩ := Option.map_eq_some_iff.mp (hadvance ▸ hsome)
      have htail : '*' ∉ u.tail := fun hmem => hstar q u hlast (List.mem_of_mem_tail hmem)
      refine ⟨htail, fun q' u' hstar' => ?_⟩
      obtain ⟨-, rfl⟩ := Prod.mk.inj (Option.some.inj hstar')
      exact htail
  · rintro s ⟨htext, -⟩ ⟨-, hhead⟩
    exact htext (List.mem_of_head? hhead)

/-- A pattern without a star remembers none. -/
theorem starsApart_of_pattern {pattern text : String} (h : '*' ∉ pattern.toList) :
    StarsApart pattern text := by
  refine starsApart_of_invariant (fun s => '*' ∉ s.pattern ∧ s.star = none) ⟨h, rfl⟩ ?_ ?_
  · rintro s s' ⟨hpattern, hstar⟩ ⟨hne, hsome⟩
    obtain ⟨t, text, heq⟩ := List.exists_cons_of_ne_nil hne
    rcases advance_cases heq with ⟨p, pattern, hp, -, hadvance⟩ | ⟨pattern, hp, -, -⟩ |
      ⟨-, hadvance⟩
    · obtain rfl := Option.some.inj (hadvance.symm.trans hsome)
      rw [hp] at hpattern
      exact ⟨fun hmem => hpattern (List.mem_cons_of_mem _ hmem), hstar⟩
    · rw [hp] at hpattern
      exact absurd List.mem_cons_self hpattern
    · rw [hadvance, backtrack, hstar] at hsome
      cases hsome
  · rintro s ⟨hpattern, -⟩ ⟨hhead, -⟩
    exact hpattern (List.mem_of_head? hhead)

/-! ### Where stars meet -/

/-- The same text in front of both is read without going back. -/
theorem globLoop_append (front pattern text : List Char) (star : Option (List Char × List Char)) :
    globLoop ⟨front ++ pattern, front ++ text, star⟩ = globLoop ⟨pattern, text, star⟩ := by
  induction front with
  | nil => rfl
  | cons c front ih =>
      rw [← ih]
      exact globLoop_of_advance (by simp) (if_pos (.inr rfl))

/-- Stars that meet at the start are gone, and what is left has no star to go back to. -/
theorem not_agrees_of_meet {front rest text : List Char} (hrest : '*' ∉ rest)
    (hlen : rest.length ≠ text.length) (hne : front ≠ [] ∨ rest ≠ [])
    (hwild : Wild '*' '?' ('*' :: rest) ('*' :: text)) :
    ¬ Agrees (String.ofList (front ++ '*' :: rest)) (String.ofList (front ++ '*' :: text)) := by
  have hstar : String.ofList (front ++ '*' :: rest) ≠ "*" := by
    intro heq
    have hlist : front ++ '*' :: rest = ['*'] := by
      rw [← @String.toList_ofList (front ++ '*' :: rest), heq]
      rfl
    rcases List.append_eq_singleton_iff.mp hlist with ⟨rfl, htail⟩ | ⟨-, hnil⟩
    · exact hne.elim (absurd rfl) fun hne => hne (List.cons.inj htail).2
    · cases hnil
  have hfalse : globLoop ⟨rest, text, none⟩ ≠ true := by
    intro htrue
    rcases accepts_of_globLoop htrue with hmatch | ⟨_, _, hnone, -⟩
    · exact hlen (hmatch.length_eq hrest)
    · cases hnone
  rw [Agrees, globMatch_eq_globLoop hstar (by simp), String.toList_ofList, String.toList_ofList,
    InLanguage, String.toList_ofList, String.toList_ofList, globLoop_append,
    show globLoop ⟨'*' :: rest, '*' :: text, none⟩ = globLoop ⟨rest, text, none⟩ from
      globLoop_append ['*'] rest text none]
  exact fun h => hfalse (h.mpr (hwild.append front))

/-- An agent whose id goes on with a star after the beginning asked for. -/
theorem worker_not_matched : ¬ Agrees "worker-*" "worker-*x" := by
  have hwild : Wild '*' '?' ['*'] ['*', 'x'] := .star ['*', 'x'] .nil
  exact @not_agrees_of_meet "worker-".toList [] ['x'] (by simp) (by simp) (.inl (by simp)) hwild

/-- A list that has a letter, cut at the last one. -/
theorem exists_last {c : Char} {l : List Char} (h : c ∈ l) :
    ∃ front rest, l = front ++ c :: rest ∧ c ∉ rest := by
  obtain ⟨front, rest, hl, hfront⟩ := List.eq_append_cons_of_mem (List.mem_reverse.mpr h)
  refine ⟨rest.reverse, front.reverse, ?_, by simpa using hfront⟩
  rw [← List.reverse_reverse l, hl]
  simp

/-- For a text with a star there is a pattern that the matcher gets wrong. -/
theorem exists_not_agrees_of_text {text : String} (h : '*' ∈ text.toList) :
    ∃ pattern, ¬ Agrees pattern text := by
  obtain ⟨front, rest, htext⟩ := List.append_of_mem h
  have hquestions : ∀ l : List Char, Wild '*' '?' (List.replicate l.length '?') l := by
    intro l
    induction l with
    | nil => exact .nil
    | cons d l ih => exact .letter (by decide) (.inl rfl) ih
  refine ⟨String.ofList (front ++ '*' :: List.replicate (rest.length + 1) '?'), ?_⟩
  rw [← @String.ofList_toList text, htext]
  refine not_agrees_of_meet (by simp [List.mem_replicate]) (by simp) (.inr (by simp)) ?_
  exact .star [] (hquestions ('*' :: rest))

/-- For a pattern with a star that is not all of it there is a text that the matcher gets wrong. -/
theorem exists_not_agrees_of_pattern {pattern : String} (h : '*' ∈ pattern.toList)
    (hne : pattern ≠ "*") : ∃ text, ¬ Agrees pattern text := by
  obtain ⟨front, rest, hpattern, hrest⟩ := exists_last h
  refine ⟨String.ofList (front ++ '*' :: 'x' :: rest), ?_⟩
  rw [← @String.ofList_toList pattern, hpattern]
  refine not_agrees_of_meet hrest (by simp) ?_ (.star ['*', 'x'] ?_)
  · by_contra hnil
    obtain ⟨hfront, hrest⟩ := not_or.mp hnil
    rw [not_not] at hfront hrest
    subst hfront hrest
    refine hne (String.toList_inj.mp ?_)
    rw [hpattern]
    rfl
  · have hnil : Wild '*' '?' [] [] := .nil
    have hself := hnil.append rest
    rwa [List.append_nil] at hself

/-- **The matcher never matches too much, and decides the language as long as no stars meet; it
gets every pattern right exactly for the texts without a star, and every text exactly for the
patterns without a star and the star.** -/
theorem agrees_iff (pattern text : String) :
    (globMatch pattern text = true → InLanguage pattern text) ∧
    (StarsApart pattern text → Agrees pattern text) ∧
    ((∀ other, Agrees other text) ↔ '*' ∉ text.toList) ∧
    ((∀ other, Agrees pattern other) ↔ '*' ∉ pattern.toList ∨ pattern = "*") := by
  refine ⟨inLanguage_of_globMatch, agrees_of_starsApart, ?_, ?_⟩
  · constructor
    · intro hagrees hstar
      obtain ⟨other, hnot⟩ := exists_not_agrees_of_text hstar
      exact hnot (hagrees other)
    · exact fun hstar other => agrees_of_starsApart (starsApart_of_text hstar)
  · constructor
    · intro hagrees
      by_contra hnone
      obtain ⟨hstar, hne⟩ := not_or.mp hnone
      obtain ⟨other, hnot⟩ := exists_not_agrees_of_pattern (not_not.mp hstar) hne
      exact hnot (hagrees other)
    · rintro (hstar | rfl) other
      · exact agrees_of_starsApart (starsApart_of_pattern hstar)
      · exact iff_of_true (if_pos rfl) (inLanguage_star other)

end ClawDesk.Acp.GlobMatch
