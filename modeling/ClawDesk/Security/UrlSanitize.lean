import ClawDesk.Foundations.Str
import ClawDesk.Foundations.Substring
import Mathlib.Data.List.DropRight
import Mathlib.Logic.Relation

/-!
# Removing credentials from URLs

A text is searched for each of the listed schemes, one after the other.  Where a scheme is
found, the URL goes up to white space, a quote or `>`; what stands before the last `@` of its
authority is removed, and the search goes on behind the URL.

The search ends, since a URL is never empty, and the text is only changed by removing the
userinfo of a listed scheme (`deletes_sanitizeEmbeddedUrls`).  Run by run, the search of a
scheme strips the first of its occurrences (`sanitizeFrom_cut`).
-/

namespace ClawDesk.Security.UrlSanitize

open Foundations
open Foundations.Substring (find run afterRun IsRun)

/-- What ends a URL in a text. -/
def isStop (c : Char) : Bool := Str.isWhitespace c || c = '\x22' || c = '\x27' || c = '>'

/-- What ends the authority of a URL. -/
def endsAuthority (c : Char) : Bool := c = '/' || c = '?' || c = '#'

/-- `://`. -/
def separator : List Char := [':', '/', '/']

/-- What a scheme may be named with. -/
def isPlain (c : Char) : Bool := !isStop c && !endsAuthority c && c != ':' && c != '@'

/-- A scheme, by its name. -/
structure Scheme where
  name : List Char
  ne_nil : name ≠ []
  plain : name.all isPlain = true

/-- The scheme as it is searched for. -/
def Scheme.text (scheme : Scheme) : List Char := scheme.name ++ separator

/-- Common URI schemes that might carry credentials. -/
def schemes : List Scheme := [
  ⟨"http".toList, by decide, by decide⟩,
  ⟨"https".toList, by decide, by decide⟩,
  ⟨"mongodb".toList, by decide, by decide⟩,
  ⟨"mongodb+srv".toList, by decide, by decide⟩,
  ⟨"postgresql".toList, by decide, by decide⟩,
  ⟨"postgres".toList, by decide, by decide⟩,
  ⟨"redis".toList, by decide, by decide⟩,
  ⟨"rediss".toList, by decide, by decide⟩,
  ⟨"amqp".toList, by decide, by decide⟩,
  ⟨"amqps".toList, by decide, by decide⟩,
  ⟨"mysql".toList, by decide, by decide⟩,
  ⟨"ftp".toList, by decide, by decide⟩,
  ⟨"sftp".toList, by decide, by decide⟩,
  ⟨"ssh".toList, by decide, by decide⟩,
  ⟨"nats".toList, by decide, by decide⟩]

/-- Strip userinfo (username/password) from a URL. -/
def stripUrlUserinfo (url : List Char) : List Char :=
  match find separator url with
  | none => url
  | some schemeEnd =>
      let rest := url.drop (schemeEnd + 3)
      let authority := run endsAuthority rest
      let remainder := afterRun endsAuthority rest
      -- Check for `@` in the authority — indicates userinfo.
      if '@' ∈ authority then
        let host := authority.rtakeWhile (· ≠ '@')
        url.take schemeEnd ++ separator ++ host ++ remainder
      else url

/-- One round of the loop of a scheme, at a URL: the text with the URL sanitized, and where the
search goes on. -/
def sanitizeAt (result : List Char) (urlStart : ℕ) : List Char × ℕ :=
  let url := run isStop (result.drop urlStart)
  let sanitized := stripUrlUserinfo url
  let next :=
    if sanitized ≠ url then
      result.take urlStart ++ sanitized ++ afterRun isStop (result.drop urlStart)
    else result
  (next, urlStart + sanitized.length)

section Round

variable {scheme : Scheme} {front rest : List Char}

/-- A round puts the URL without its userinfo in the place of the URL. -/
theorem sanitizeAt_append : sanitizeAt (front ++ rest) front.length =
    (front ++ stripUrlUserinfo (run isStop rest) ++ afterRun isStop rest,
      (front ++ stripUrlUserinfo (run isStop rest)).length) := by
  unfold sanitizeAt
  rw [List.drop_left, List.take_left, List.length_append]
  refine Prod.ext ?_ rfl
  dsimp only
  split_ifs with heq
  · rfl
  · rw [not_not.mp heq, List.append_assoc, Substring.run_append_afterRun]

theorem Scheme.plain_of_mem {c : Char} (hc : c ∈ scheme.name) :
    isStop c = false ∧ endsAuthority c = false ∧ c ≠ ':' ∧ c ≠ '@' := by
  simpa [isPlain, and_assoc] using List.all_eq_true.mp scheme.plain c hc

theorem isRun_separator : IsRun isStop separator := Substring.isRun_iff_all.mpr (by decide)

theorem Scheme.isRun_text (scheme : Scheme) : IsRun isStop scheme.text :=
  Substring.isRun_append.mpr ⟨fun _ hc => (Scheme.plain_of_mem hc).1, isRun_separator⟩

theorem Scheme.text_ne_nil (scheme : Scheme) : scheme.text ≠ [] :=
  List.append_ne_nil_of_left_ne_nil scheme.ne_nil _

/-- A URL is not empty. -/
theorem length_afterRun_lt (h : scheme.text <+: rest) :
    (afterRun isStop rest).length < rest.length := by
  obtain ⟨back, rfl⟩ := h
  rw [afterRun, List.dropWhile_append_of_pos fun c hc => by simp [scheme.isRun_text c hc],
    List.length_append]
  have hpos := List.length_pos_iff.mpr scheme.text_ne_nil
  have hle := (List.dropWhile_suffix (fun c => !isStop c) (l := back)).length_le
  omega

/-- **A round leaves less of the text to search.** -/
theorem length_sanitizeAt {result : List Char} {searchFrom idx : ℕ}
    (h : find scheme.text (result.drop searchFrom) = some idx) :
    (sanitizeAt result (searchFrom + idx)).1.length -
      (sanitizeAt result (searchFrom + idx)).2 < result.length - searchFrom := by
  obtain ⟨hoccurs, hidx, -⟩ := Substring.find_eq_some_iff.mp h
  rw [List.drop_drop] at hoccurs
  have hlt := length_afterRun_lt hoccurs
  have hle := hoccurs.length_le
  have hpos := List.length_pos_iff.mpr scheme.text_ne_nil
  rw [List.length_drop] at hlt hle hidx
  have htake : (result.take (searchFrom + idx)).length = searchFrom + idx := by
    rw [List.length_take]
    omega
  have hround := @sanitizeAt_append (result.take (searchFrom + idx))
    (result.drop (searchFrom + idx))
  rw [List.take_append_drop, htake] at hround
  rw [hround]
  simp only [List.length_append]
  omega

end Round

/-- The loop of a scheme. -/
def sanitizeFrom (scheme : Scheme) (result : List Char) (searchFrom : ℕ) : List Char :=
  match _hfind : find scheme.text (result.drop searchFrom) with
  | none => result
  | some idx =>
      let round := sanitizeAt result (searchFrom + idx)
      sanitizeFrom scheme round.1 round.2
  termination_by result.length - searchFrom
  decreasing_by exact length_sanitizeAt _hfind

/-- Sanitize a string that may contain embedded URLs with credentials. -/
def sanitizeEmbeddedUrls (text : List Char) : List Char :=
  schemes.foldl (fun result scheme => sanitizeFrom scheme result 0) text

/-! ### One URL -/

/-- What follows a scheme, without the userinfo. -/
def stripAuthority (rest : List Char) : List Char :=
  (run endsAuthority rest).rtakeWhile (· ≠ '@') ++ afterRun endsAuthority rest

section Url

variable {scheme : Scheme} {rest : List Char}

theorem stripAuthority_of_notMem (h : '@' ∉ run endsAuthority rest) :
    stripAuthority rest = rest := by
  have hself : (run endsAuthority rest).rtakeWhile (· ≠ '@') = run endsAuthority rest := by
    rw [List.rtakeWhile_eq_self_iff]
    intro c hc
    exact decide_eq_true fun heq => h (heq ▸ hc)
  rw [stripAuthority, hself, Substring.run_append_afterRun]

theorem notMem_run_stripAuthority (rest : List Char) :
    '@' ∉ run endsAuthority (stripAuthority rest) := by
  have hhost : '@' ∉ (run endsAuthority rest).rtakeWhile (· ≠ '@') := fun hmem => by
    simpa using List.mem_rtakeWhile_imp hmem
  have hrun : IsRun endsAuthority ((run endsAuthority rest).rtakeWhile (· ≠ '@')) := fun c hc =>
    Substring.isRun_run rest c ((List.rtakeWhile_suffix _ _).subset hc)
  unfold stripAuthority
  cases hafter : afterRun endsAuthority rest with
  | nil => rwa [List.append_nil, Substring.run_eq_self hrun]
  | cons c back => rwa [Substring.run_append_stop hrun (Substring.afterRun_eq_cons hafter)]

/-- Nothing is stripped, or all up to the last `@` of the authority. -/
theorem stripAuthority_cases (rest : List Char) : stripAuthority rest = rest ∨
    ∃ user, rest = user ++ '@' :: stripAuthority rest ∧ IsRun endsAuthority user := by
  have hcut := @Substring.run_append_afterRun _ endsAuthority rest
  rcases Substring.eq_or_cut_last '@' (run endsAuthority rest) with hwhole | ⟨user, huser⟩
  · refine Or.inl (stripAuthority_of_notMem ?_)
    rw [hwhole]
    intro hmem
    simpa using List.mem_rtakeWhile_imp hmem
  · refine Or.inr ⟨user, ?_, ?_⟩
    · rw [stripAuthority, ← List.cons_append, ← List.append_assoc, ← huser, hcut]
    · intro c hc
      refine Substring.isRun_run rest c ?_
      rw [huser]
      exact List.mem_append_left _ hc

theorem find_separator : find separator (scheme.text ++ rest) = some scheme.name.length := by
  refine Substring.find_eq_length fun front' back' heq => ?_
  rw [List.append_assoc, List.append_assoc] at heq
  rcases List.append_eq_append_iff.mp heq with ⟨more, rfl, -⟩ | ⟨more, hname, hrest⟩
  · rw [List.length_append]
    exact Nat.le_add_right _ _
  · cases more with
    | nil => rw [hname, List.append_nil]
    | cons c more =>
        have hc : c = ':' := (List.cons.inj hrest).1.symm
        have hmem : c ∈ scheme.name := by simp [hname]
        exact absurd hc (Scheme.plain_of_mem hmem).2.2.1

/-- **From a URL that begins with a scheme**, the userinfo of its authority is stripped. -/
theorem stripUrlUserinfo_text :
    stripUrlUserinfo (scheme.text ++ rest) = scheme.text ++ stripAuthority rest := by
  unfold stripUrlUserinfo
  rw [find_separator]
  have hdrop : (scheme.text ++ rest).drop (scheme.name.length + 3) = rest := by
    rw [show scheme.name.length + 3 = scheme.text.length by simp [Scheme.text, separator],
      List.drop_left]
  have htake : (scheme.text ++ rest).take scheme.name.length = scheme.name := by
    rw [Scheme.text, List.append_assoc, List.take_left]
  simp only [hdrop, htake]
  split_ifs with hat
  · simp only [Scheme.text, stripAuthority, List.append_assoc]
  · rw [stripAuthority_of_notMem hat]

end Url

/-! ### The loop, run by run -/

section Loop

variable {scheme : Scheme} {result rest w t : List Char} {c : Char} {searchFrom idx : ℕ}

theorem sanitizeFrom_of_none (h : find scheme.text (result.drop searchFrom) = none) :
    sanitizeFrom scheme result searchFrom = result := by
  rw [sanitizeFrom]
  split
  · rfl
  · rename_i hfind
    rw [h] at hfind
    cases hfind

theorem sanitizeFrom_of_some (h : find scheme.text (result.drop searchFrom) = some idx) :
    sanitizeFrom scheme result searchFrom =
      sanitizeFrom scheme (sanitizeAt result (searchFrom + idx)).1
        (sanitizeAt result (searchFrom + idx)).2 := by
  rw [sanitizeFrom]
  split
  · rename_i hfind
    rw [h] at hfind
    cases hfind
  · rename_i hfind
    rw [h] at hfind
    rw [Option.some.inj hfind]

/-- A round, behind a part of the text that has been searched. -/
theorem sanitizeFrom_round (h : find scheme.text rest = some idx) (done : List Char) :
    sanitizeFrom scheme (done ++ rest) done.length =
      sanitizeFrom scheme
        (done ++ rest.take idx ++ stripUrlUserinfo (run isStop (rest.drop idx)) ++
          afterRun isStop (rest.drop idx))
        (done ++ rest.take idx ++ stripUrlUserinfo (run isStop (rest.drop idx))).length := by
  have hidx : (done ++ rest.take idx).length = done.length + idx := by
    rw [List.length_append, List.length_take_of_le (Substring.find_eq_some_iff.mp h).2.1]
  have hround := @sanitizeAt_append (done ++ rest.take idx) (rest.drop idx)
  rw [List.append_assoc, List.take_append_drop, hidx] at hround
  rw [sanitizeFrom_of_some (by rwa [List.drop_left]), hround]

theorem length_afterRun_drop (h : find scheme.text rest = some idx) :
    (afterRun isStop (rest.drop idx)).length < rest.length := by
  refine (length_afterRun_lt (Substring.find_eq_some_iff.mp h).1).trans_le ?_
  rw [List.length_drop]
  exact Nat.sub_le _ _

/-- The search does not look back, by induction on what is left of the text. -/
theorem sanitizeFrom_append (scheme : Scheme) (done rest : List Char) :
    sanitizeFrom scheme (done ++ rest) done.length = done ++ sanitizeFrom scheme rest 0 := by
  induction hlength : rest.length using Nat.strongRecOn generalizing done rest with
  | ind n ih =>
      cases hfind : find scheme.text rest with
      | none =>
          rw [sanitizeFrom_of_none (by rwa [List.drop_left]), sanitizeFrom_of_none hfind]
      | some idx =>
          have hlt := hlength ▸ length_afterRun_drop hfind
          have hzero := sanitizeFrom_round hfind []
          rw [List.length_nil, List.nil_append, List.nil_append, ih _ hlt _ _ rfl] at hzero
          rw [sanitizeFrom_round hfind, ih _ hlt _ _ rfl, hzero, List.append_assoc,
            List.append_assoc, List.append_assoc]

/-- Where the scheme is found, the search goes on behind the URL. -/
theorem sanitizeFrom_zero (h : find scheme.text rest = some idx) :
    sanitizeFrom scheme rest 0 = rest.take idx ++
      stripUrlUserinfo (run isStop (rest.drop idx)) ++
      sanitizeFrom scheme (afterRun isStop (rest.drop idx)) 0 := by
  have hround := sanitizeFrom_round h []
  rwa [sanitizeFrom_append, sanitizeFrom_append] at hround

/-- The first occurrence of a scheme in a run, and what follows it, without userinfo. -/
def stripFirst (scheme : Scheme) (w : List Char) : List Char :=
  match find scheme.text w with
  | none => w
  | some idx => w.take idx ++ stripUrlUserinfo (w.drop idx)

/-- In a run the first occurrence is all that is treated. -/
theorem sanitizeFrom_run (hw : IsRun isStop w) : sanitizeFrom scheme w 0 = stripFirst scheme w := by
  unfold stripFirst
  cases hfind : find scheme.text w with
  | none => exact sanitizeFrom_of_none hfind
  | some idx =>
      have hrun : IsRun isStop (w.drop idx) := fun c hc => hw c (List.mem_of_mem_drop hc)
      rw [sanitizeFrom_zero hfind, Substring.run_eq_self hrun, Substring.afterRun_eq_nil hrun,
        sanitizeFrom_of_none, List.append_nil]
      rw [List.drop_nil, Substring.find_eq_none_iff, List.infix_nil]
      exact scheme.text_ne_nil

/-- What has none of the scheme is passed over. -/
theorem sanitizeFrom_cut_of_none (h : find scheme.text w = none) (hc : isStop c = true) :
    sanitizeFrom scheme (w ++ c :: t) 0 = w ++ c :: sanitizeFrom scheme t 0 := by
  have hcut := @Substring.find_cut _ _ scheme.text w t c
    (Substring.notMem_of_isRun scheme.isRun_text hc)
  rw [h, Option.none_or] at hcut
  cases hrest : find scheme.text t with
  | none =>
      rw [hrest, Option.map_none] at hcut
      rw [sanitizeFrom_of_none hcut, sanitizeFrom_of_none hrest]
  | some idx =>
      rw [hrest, Option.map_some] at hcut
      have htake : (w ++ c :: t).take (w.length + 1 + idx) = w ++ c :: t.take idx := by
        rw [Nat.add_assoc, List.take_length_add_append, Nat.add_comm 1 idx, List.take_succ_cons]
      rw [sanitizeFrom_zero hcut, sanitizeFrom_zero hrest, Substring.drop_cut, htake]
      simp only [List.append_assoc, List.cons_append]

/-- **The runs are treated one by one.** -/
theorem sanitizeFrom_cut (hw : IsRun isStop w) (hc : isStop c = true) :
    sanitizeFrom scheme (w ++ c :: t) 0 = stripFirst scheme w ++ c :: sanitizeFrom scheme t 0 := by
  unfold stripFirst
  cases hfind : find scheme.text w with
  | none => exact sanitizeFrom_cut_of_none hfind hc
  | some idx =>
      have hidx := (Substring.find_eq_some_iff.mp hfind).2.1
      have hrun : IsRun isStop (w.drop idx) := fun d hd => hw d (List.mem_of_mem_drop hd)
      have hcut : find scheme.text (w ++ c :: t) = some idx := by
        rw [Substring.find_cut (Substring.notMem_of_isRun scheme.isRun_text hc), hfind,
          Option.some_or]
      have hnil : find scheme.text [] = none := by
        rw [Substring.find_eq_none_iff, List.infix_nil]
        exact scheme.text_ne_nil
      have htail := @sanitizeFrom_cut_of_none scheme [] t c hnil hc
      rw [List.nil_append, List.nil_append] at htail
      rw [sanitizeFrom_zero hcut, List.take_append_of_le_length hidx,
        List.drop_append_of_le_length hidx, Substring.run_append_stop hrun hc,
        Substring.afterRun_append_stop hrun hc, htail]

end Loop

/-! ### What a run becomes -/

section Run

variable {scheme : Scheme} {front back w t : List Char} {c : Char}

theorem stripFirst_of_notInfix (h : ¬ scheme.text <:+: w) : stripFirst scheme w = w := by
  rw [stripFirst, Substring.find_eq_none_iff.mpr h]

/-- The first occurrence loses the userinfo behind it. -/
theorem stripFirst_of_first
    (h : ∀ front' back', front ++ scheme.text ++ back = front' ++ scheme.text ++ back' →
      front.length ≤ front'.length) :
    stripFirst scheme (front ++ scheme.text ++ back) =
      front ++ scheme.text ++ stripAuthority back := by
  rw [stripFirst, Substring.find_eq_length h]
  dsimp only
  rw [List.append_assoc, List.take_left, List.drop_left, stripUrlUserinfo_text,
    List.append_assoc]

/-- There is no occurrence, or a first one. -/
theorem stripFirst_cases (scheme : Scheme) (w : List Char) : stripFirst scheme w = w ∨
    ∃ front back, w = front ++ scheme.text ++ back ∧
      stripFirst scheme w = front ++ scheme.text ++ stripAuthority back := by
  cases hfind : find scheme.text w with
  | none => exact Or.inl (stripFirst_of_notInfix (Substring.find_eq_none_iff.mp hfind))
  | some idx =>
      obtain ⟨back, hback⟩ := Substring.eq_of_find hfind
      have hidx := List.length_take_of_le (Substring.find_eq_some_iff.mp hfind).2.1
      refine Or.inr ⟨w.take idx, back, hback, ?_⟩
      have hfirst := @stripFirst_of_first scheme (w.take idx) back fun front' back' heq => by
        rw [hidx]
        exact Substring.le_of_find hfind (hback.trans heq)
      rwa [← hback] at hfirst

/-- All characters of the stripped run are in the run. -/
theorem isRun_stripFirst (hw : IsRun isStop w) : IsRun isStop (stripFirst scheme w) := by
  rcases stripFirst_cases scheme w with heq | ⟨front, back, rfl, heq⟩
  · rwa [heq]
  · rw [heq]
    rw [Substring.isRun_append] at hw ⊢
    refine ⟨hw.1, fun c hc => hw.2 c ?_⟩
    rcases stripAuthority_cases back with hsame | ⟨user, hsplit, -⟩
    · rwa [hsame] at hc
    · rw [hsplit]
      exact List.mem_append_right _ (List.mem_cons_of_mem _ hc)

/-- A run after all loops. -/
def clean (w : List Char) : List Char := schemes.foldl (fun w scheme => stripFirst scheme w) w

theorem isRun_clean (hw : IsRun isStop w) : IsRun isStop (clean w) := by
  unfold clean
  exact List.foldlRecOn schemes _ hw fun _ hw _ _ => isRun_stripFirst hw

theorem sanitizeEmbeddedUrls_run (hw : IsRun isStop w) : sanitizeEmbeddedUrls w = clean w := by
  have hrel := @List.foldl_rel _ _ _ schemes (fun result scheme => sanitizeFrom scheme result 0)
    (fun w scheme => stripFirst scheme w) w w (fun result w => result = w ∧ IsRun isStop w)
    ⟨rfl, hw⟩
  refine (hrel fun scheme _ result w h => ?_).1
  rw [h.1, sanitizeFrom_run h.2]
  exact ⟨rfl, isRun_stripFirst h.2⟩

/-- **A text is sanitized run by run.** -/
theorem sanitizeEmbeddedUrls_cut (hw : IsRun isStop w) (hc : isStop c = true) :
    sanitizeEmbeddedUrls (w ++ c :: t) = clean w ++ c :: sanitizeEmbeddedUrls t := by
  unfold sanitizeEmbeddedUrls clean
  generalize schemes = schemes
  induction schemes generalizing w t with
  | nil => rfl
  | cons scheme schemes ih =>
      rw [List.foldl_cons, List.foldl_cons, List.foldl_cons, sanitizeFrom_cut hw hc]
      exact ih (isRun_stripFirst hw)

end Run

/-! ### What is removed -/

/-- The userinfo of a listed scheme, up to the last `@` of the authority, is taken out. -/
def Deletes (text text' : List Char) : Prop :=
  ∃ scheme ∈ schemes, ∃ front user back,
    text = front ++ scheme.text ++ (user ++ '@' :: back) ∧
    text' = front ++ scheme.text ++ back ∧ IsRun isStop user ∧ IsRun endsAuthority user ∧
    '@' ∉ run endsAuthority (run isStop back)

section Deletes

variable {scheme : Scheme} {text text' w t : List Char} {c : Char}

theorem Deletes.append_left (h : Deletes text text') (front : List Char) :
    Deletes (front ++ text) (front ++ text') := by
  obtain ⟨scheme, hscheme, front', user, back, rfl, rfl, h⟩ := h
  exact ⟨scheme, hscheme, front ++ front', user, back, by simp, by simp, h⟩

theorem Deletes.append_right (h : Deletes text text') (hc : isStop c = true) (t : List Char) :
    Deletes (text ++ c :: t) (text' ++ c :: t) := by
  obtain ⟨scheme, hscheme, front, user, back, rfl, rfl, hstop, hends, hat⟩ := h
  refine ⟨scheme, hscheme, front, user, back ++ c :: t, by simp, by simp, hstop, hends, ?_⟩
  rwa [Substring.run_append_cons _ _ hc]

theorem deletes_stripFirst (hscheme : scheme ∈ schemes) (hw : IsRun isStop w) :
    Relation.ReflTransGen Deletes w (stripFirst scheme w) := by
  rcases stripFirst_cases scheme w with heq | ⟨front, back, rfl, heq⟩
  · rw [heq]
  · rw [heq]
    rcases stripAuthority_cases back with hsame | ⟨user, hsplit, huser⟩
    · rw [hsame]
    · have hback : IsRun isStop (user ++ '@' :: stripAuthority back) :=
        hsplit ▸ (Substring.isRun_append.mp hw).2
      obtain ⟨hstop, hrest⟩ := Substring.isRun_append.mp hback
      have hhost : IsRun isStop (stripAuthority back) := fun c hc =>
        hrest c (List.mem_cons_of_mem _ hc)
      refine Relation.ReflTransGen.single ⟨scheme, hscheme, front, user, stripAuthority back,
        by rw [← hsplit], rfl, hstop, huser, ?_⟩
      rw [Substring.run_eq_self hhost]
      exact notMem_run_stripAuthority back

theorem deletes_clean (hw : IsRun isStop w) : Relation.ReflTransGen Deletes w (clean w) := by
  unfold clean
  have hfold := List.foldlRecOn
    (motive := fun v => IsRun isStop v ∧ Relation.ReflTransGen Deletes w v) schemes
    (fun w scheme => stripFirst scheme w) ⟨hw, .refl⟩ fun v h scheme hscheme =>
      ⟨isRun_stripFirst h.1, h.2.trans (deletes_stripFirst hscheme h.1)⟩
  exact hfold.2

/-- **The text is only changed by removing userinfo.** -/
theorem deletes_sanitizeEmbeddedUrls (text : List Char) :
    Relation.ReflTransGen Deletes text (sanitizeEmbeddedUrls text) := by
  induction text using Substring.run_induction isStop with
  | whole w hw =>
      rw [sanitizeEmbeddedUrls_run hw]
      exact deletes_clean hw
  | cut w c t hw hc ih =>
      rw [sanitizeEmbeddedUrls_cut hw hc]
      have hrun := (deletes_clean hw).lift (· ++ c :: t) fun _ _ h => h.append_right hc t
      have hrest := ih.lift (clean w ++ c :: ·) fun _ _ h => by
        have happend := h.append_left (clean w ++ [c])
        rwa [List.append_assoc, List.append_assoc] at happend
      exact hrun.trans hrest

end Deletes

end ClawDesk.Security.UrlSanitize
