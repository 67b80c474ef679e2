import ClawDesk.Foundations.Separated
import ClawDesk.Security.UrlSanitize

/-!
# Credentials that are left in a text

A run of a text is cut at `://` into parts.  A listed scheme stands where a part ends with its
name, and the next part begins with the authority.  Sanitizing a run strips, for each scheme, the
part behind the first part that ends with it (`getElem?_stripParts`).
-/

namespace ClawDesk.Security.UrlSanitize

open Foundations
open Foundations.Substring (find run afterRun IsRun)
open Foundations.Separated (IsCut)

/-! ### The parts of a run -/

theorem unbordered_separator : Separated.Unbordered separator where
  ne_nil := by decide
  border := fun e hbegin hend => by
    have htails : ∀ e ∈ separator.tails, e <+: separator → e = [] ∨ e = separator := by decide
    exact htails e ((List.mem_tails _ _).mpr hend) hbegin

section Part

variable {scheme : Scheme} {p q user host rest : List Char}

theorem rtakeWhile_append_cons {c : Char} (front : List Char) (h : c ∉ host) :
    (front ++ c :: host).rtakeWhile (· ≠ c) = host := by
  rw [List.rtakeWhile, List.reverse_append, List.reverse_cons, List.append_assoc,
    List.takeWhile_append_of_pos, List.singleton_append, List.takeWhile_cons_of_neg (by simp),
    List.append_nil, List.reverse_reverse]
  intro d hd
  exact decide_eq_true fun heq => h (heq ▸ List.mem_reverse.mp hd)

/-- The userinfo goes up to the last `@` of the authority. -/
theorem stripAuthority_append (huser : IsRun endsAuthority user)
    (h : '@' ∉ run endsAuthority host) : stripAuthority (user ++ '@' :: host) = host := by
  have hat : IsRun endsAuthority (user ++ ['@']) :=
    Substring.isRun_append.mpr ⟨huser, Substring.isRun_iff_all.mpr (by decide)⟩
  have hpos : ∀ c ∈ user ++ ['@'], (!endsAuthority c) = true := fun c hc => by
    rw [hat c hc]
    rfl
  rw [stripAuthority, run, afterRun, List.append_cons, List.takeWhile_append_of_pos hpos,
    List.dropWhile_append_of_pos hpos, List.append_assoc, List.singleton_append]
  exact (congrArg (· ++ _) (rtakeWhile_append_cons user h)).trans
    (Substring.run_append_afterRun host)

/-- The authority does not reach over the next `://`. -/
theorem at_mem_run_append : '@' ∈ run endsAuthority (q ++ (separator ++ rest)) ↔
    '@' ∈ run endsAuthority q := by
  have hcut : q ++ (separator ++ rest) = (q ++ [':']) ++ '/' :: '/' :: rest := by
    rw [separator]
    simp
  rw [hcut, Substring.run_append_cons _ _ (by decide), run, run, List.takeWhile_append]
  split_ifs with hwhole
  · rw [List.mem_append, (List.takeWhile_prefix _).eq_of_length hwhole]
    exact or_iff_left (by decide)
  · rfl

/-- What stands behind the next `://` stays. -/
theorem stripAuthority_append_separator (q rest : List Char) :
    stripAuthority (q ++ (separator ++ rest)) = stripAuthority q ++ (separator ++ rest) := by
  rcases stripAuthority_cases q with heq | ⟨user, hq, huser⟩
  · have hnot : '@' ∉ run endsAuthority q := heq ▸ notMem_run_stripAuthority q
    rw [heq, stripAuthority_of_notMem (mt at_mem_run_append.mp hnot)]
  · conv_lhs => rw [hq, List.append_assoc, List.cons_append]
    exact stripAuthority_append huser
      (mt at_mem_run_append.mp (notMem_run_stripAuthority q))

theorem stripAuthority_stripAuthority (q : List Char) :
    stripAuthority (stripAuthority q) = stripAuthority q :=
  stripAuthority_of_notMem (notMem_run_stripAuthority q)

theorem stripAuthority_suffix (q : List Char) : stripAuthority q <:+ q := by
  rcases stripAuthority_cases q with heq | ⟨user, hq, -⟩
  · rw [heq]
  · exact ⟨user ++ ['@'], by rw [List.append_assoc, List.singleton_append, ← hq]⟩

theorem Scheme.notMem_name (scheme : Scheme) {c : Char}
    (h : isStop c = true ∨ endsAuthority c = true ∨ c = ':' ∨ c = '@') : c ∉ scheme.name := by
  intro hc
  obtain ⟨hstop, hends, hcolon, hat⟩ := Scheme.plain_of_mem hc
  simp [hstop, hends, hcolon, hat] at h

/-- A part that is stripped ends with the same schemes. -/
theorem name_suffix_stripAuthority : scheme.name <:+ stripAuthority q ↔ scheme.name <:+ q := by
  rcases stripAuthority_cases q with heq | ⟨user, hq, -⟩
  · rw [heq]
  · conv_rhs => rw [hq]
    exact (Substring.suffix_cut (scheme.notMem_name (by simp))).symm

end Part

/-- The first part that ends with the name. -/
def firstEnd (scheme : Scheme) (ps : List (List Char)) : ℕ :=
  ps.findIdx fun p => decide (scheme.name <:+ p)

/-- The part behind it, without userinfo. -/
def stripPart (scheme : Scheme) (ps : List (List Char)) : List (List Char) :=
  ps.modify (firstEnd scheme ps + 1) stripAuthority

section Parts

variable {scheme : Scheme} {w front back p : List Char} {ps : List (List Char)} {n k : ℕ}

theorem name_suffix_iff (h : IsCut separator w ps) (hp : ps.getLast? = some p) :
    scheme.name <:+ w ↔ scheme.name <:+ p := by
  rcases h.last hp with rfl | ⟨t, rfl⟩
  · rfl
  · rw [show t ++ (separator ++ p) = (t ++ [':', '/']) ++ '/' :: p by simp [separator]]
    exact Substring.suffix_cut (scheme.notMem_name (by decide))

theorem at_mem_run_iff (h : IsCut separator w (p :: ps)) :
    '@' ∈ run endsAuthority w ↔ '@' ∈ run endsAuthority p := by
  rcases h.head with rfl | ⟨t, rfl⟩
  · rfl
  · exact at_mem_run_append

/-- The part ends with the name of the scheme. -/
def Ends (scheme : Scheme) (ps : List (List Char)) (k : ℕ) : Prop :=
  ∃ p, ps[k]? = some p ∧ scheme.name <:+ p

theorem firstEnd_le (h : Ends scheme ps k) : firstEnd scheme ps ≤ k := by
  obtain ⟨p, hp, hname⟩ := h
  obtain ⟨hk, rfl⟩ := List.getElem?_eq_some_iff.mp hp
  by_contra hlt
  simpa [hname] using List.not_of_lt_findIdx (Nat.not_le.mp hlt)

theorem ends_firstEnd (h : firstEnd scheme ps < ps.length) :
    Ends scheme ps (firstEnd scheme ps) := by
  refine ⟨_, List.getElem?_eq_getElem h, ?_⟩
  exact of_decide_eq_true (List.findIdx_getElem (w := h))

/-- The scheme stands behind the part, with the text before it and behind it. -/
structure At (scheme : Scheme) (ps : List (List Char)) (k : ℕ) (front back : List Char) : Prop where
  ends : Ends scheme ps k
  before : IsCut separator (front ++ scheme.name) (ps.take (k + 1))
  behind : IsCut separator back (ps.drop (k + 1))

theorem At.lt_length (h : At scheme ps k front back) : k + 1 < ps.length := by
  have hpos := List.length_pos_iff.mpr h.behind.ne_nil
  rw [List.length_drop] at hpos
  omega

theorem At.text_eq (h : At scheme ps k front back) (hcut : IsCut separator w ps) :
    w = front ++ scheme.text ++ back := by
  rw [(hcut.take_drop k.succ_pos h.lt_length).1, h.before.join, h.behind.join, Scheme.text]
  simp only [List.append_assoc]

theorem ends_iff (h : IsCut separator w (ps.take (k + 1))) (hk : k < ps.length) :
    Ends scheme ps k ↔ scheme.name <:+ w := by
  have hlast : (ps.take (k + 1)).getLast? = some ps[k] := by
    rw [List.take_add_one, List.getElem?_eq_getElem hk, Option.toList_some, List.getLast?_concat]
  rw [name_suffix_iff h hlast, Ends, List.getElem?_eq_getElem hk]
  simp only [Option.some.injEq, exists_eq_left']

/-- Every occurrence of the scheme stands behind a part. -/
theorem exists_at_of_eq (hcut : IsCut separator w ps) (heq : w = front ++ scheme.text ++ back) :
    ∃ k, At scheme ps k front back := by
  have hsplit : w = (front ++ scheme.name) ++ (separator ++ back) := by
    rw [heq, Scheme.text]
    simp only [List.append_assoc]
  obtain ⟨n, hn, hfront, hback⟩ := hcut.exists_take_drop unbordered_separator hsplit
  cases n with
  | zero => exact absurd List.take_zero hfront.ne_nil
  | succ k =>
      have hends := (ends_iff hfront (Nat.lt_of_succ_lt hn)).mpr (List.suffix_append _ _)
      exact ⟨k, hends, hfront, hback⟩

/-- It stands behind every part that ends with its name, but the last one. -/
theorem exists_at (hcut : IsCut separator w ps) (hends : Ends scheme ps k)
    (hk : k + 1 < ps.length) : ∃ front back, At scheme ps k front back := by
  obtain ⟨-, hbefore, hbehind⟩ := hcut.take_drop k.succ_pos hk
  obtain ⟨front, hfront⟩ := (ends_iff hbefore (Nat.lt_of_succ_lt hk)).mp hends
  exact ⟨front, _, hends, hfront ▸ hbefore, hbehind⟩

theorem isCut_stripAuthority (h : IsCut separator back (p :: ps)) :
    IsCut separator (stripAuthority back) (stripAuthority p :: ps) where
  ne_nil := List.cons_ne_nil _ _
  free := by
    rw [List.forall_mem_cons]
    refine ⟨fun hp => h.free p List.mem_cons_self ?_, fun q hq => ?_⟩
    · exact hp.trans (stripAuthority_suffix p).isInfix
    · exact h.free q (List.mem_cons_of_mem _ hq)
  join := by
    have hjoin := h.join
    cases ps with
    | nil =>
        rw [List.intercalate_singleton] at hjoin ⊢
        rw [hjoin]
    | cons q ps =>
        rw [List.intercalate_cons_cons, List.append_assoc] at hjoin ⊢
        rw [← hjoin, stripAuthority_append_separator]

/-- **The search of a scheme strips the part behind the first part that ends with it.** -/
theorem isCut_stripFirst (hcut : IsCut separator w ps) :
    IsCut separator (stripFirst scheme w) (stripPart scheme ps) := by
  rcases Nat.lt_or_ge (firstEnd scheme ps + 1) ps.length with hlt | hge
  · obtain ⟨front, back, hat⟩ := exists_at hcut (ends_firstEnd (Nat.lt_of_succ_lt hlt)) hlt
    have hfirst : stripFirst scheme (front ++ scheme.text ++ back) =
        front ++ scheme.text ++ stripAuthority back := by
      apply stripFirst_of_first
      intro front' back' heq
      obtain ⟨k, hat'⟩ := exists_at_of_eq hcut ((hat.text_eq hcut).trans heq)
      have hle := @Separated.length_intercalate_le _ separator _ _
        (List.take_prefix_take_left (l := ps) (Nat.succ_le_succ (firstEnd_le hat'.ends)))
      rw [hat.before.join, hat'.before.join, List.length_append, List.length_append] at hle
      exact Nat.le_of_add_le_add_right hle
    have hbehind := hat.behind
    rw [hat.text_eq hcut, hfirst, stripPart, List.modify_eq_take_drop, Scheme.text,
      ← List.append_assoc, List.append_assoc (front ++ scheme.name)]
    refine hat.before.append ?_
    cases hdrop : ps.drop (firstEnd scheme ps + 1) with
    | nil => exact absurd hdrop hbehind.ne_nil
    | cons q rest =>
        rw [hdrop] at hbehind
        exact isCut_stripAuthority hbehind
  · rw [stripPart, List.modify_eq_self hge, stripFirst_of_notInfix]
    · exact hcut
    · rintro ⟨front, back, heq⟩
      obtain ⟨k, hat⟩ := exists_at_of_eq hcut heq.symm
      have hle := firstEnd_le hat.ends
      have hlt := hat.lt_length
      omega

end Parts

/-! ### All schemes -/

section All

variable {scheme : Scheme} {w : List Char} {ps : List (List Char)} {k n : ℕ}

/-- Stripping moves no part, and none ends with another scheme. -/
theorem firstEnd_modify (scheme : Scheme) (ps : List (List Char)) (n : ℕ) :
    firstEnd scheme (ps.modify n stripAuthority) = firstEnd scheme ps := by
  have hmap : (ps.modify n stripAuthority).map (fun p => decide (scheme.name <:+ p)) =
      ps.map fun p => decide (scheme.name <:+ p) := by
    apply List.ext_getElem?
    intro k
    rw [List.getElem?_map, List.getElem?_map, List.getElem?_modify]
    cases ps[k]? with
    | none => rfl
    | some p =>
        refine congrArg some (decide_eq_decide.mpr ?_)
        split_ifs
        · exact name_suffix_stripAuthority
        · rfl
  have hfirst : ∀ qs : List (List Char), firstEnd scheme qs =
      (qs.map fun p => decide (scheme.name <:+ p)).findIdx id := fun qs => by
    rw [List.findIdx_map]
    rfl
  rw [hfirst, hfirst, hmap]

/-- The parts after all loops. -/
def stripParts (ps : List (List Char)) : List (List Char) :=
  schemes.foldl (fun ps scheme => stripPart scheme ps) ps

theorem firstEnd_stripParts (scheme : Scheme) (ps : List (List Char)) :
    firstEnd scheme (stripParts ps) = firstEnd scheme ps := by
  unfold stripParts
  exact List.foldlRecOn (motive := fun qs => firstEnd scheme qs = firstEnd scheme ps) schemes
    (fun ps scheme => stripPart scheme ps) rfl fun qs h _ _ => (firstEnd_modify scheme qs _).trans h

theorem isCut_clean (hcut : IsCut separator w ps) : IsCut separator (clean w) (stripParts ps) := by
  unfold clean stripParts
  exact List.foldl_rel hcut fun _ _ _ _ h => isCut_stripFirst h

theorem getElem?_foldl_stripPart (schemes : List Scheme) (ps : List (List Char)) (n : ℕ) :
    (schemes.foldl (fun ps scheme => stripPart scheme ps) ps)[n]? =
      ps[n]?.map fun q =>
        if ∃ scheme ∈ schemes, firstEnd scheme ps + 1 = n then stripAuthority q else q := by
  induction schemes generalizing ps with
  | nil => simp
  | cons scheme schemes ih =>
      rw [List.foldl_cons, ih, stripPart, List.getElem?_modify]
      simp only [firstEnd_modify, List.exists_mem_cons_iff]
      cases ps[n]? with
      | none => rfl
      | some q =>
          refine congrArg some ?_
          dsimp only
          by_cases hfirst : firstEnd scheme ps + 1 = n
          · rw [if_pos hfirst, if_pos (Or.inl hfirst), stripAuthority_stripAuthority, ite_self]
          · rw [if_neg hfirst]
            simp only [hfirst, false_or]

/-- The part stands behind the first one that ends with some listed scheme. -/
def Treated (ps : List (List Char)) (n : ℕ) : Prop :=
  ∃ scheme ∈ schemes, firstEnd scheme ps + 1 = n

instance (ps : List (List Char)) (n : ℕ) : Decidable (Treated ps n) :=
  inferInstanceAs (Decidable (∃ scheme ∈ schemes, firstEnd scheme ps + 1 = n))

/-- **What becomes of a part.** -/
theorem getElem?_stripParts (ps : List (List Char)) (n : ℕ) : (stripParts ps)[n]? =
    ps[n]?.map fun q => if Treated ps n then stripAuthority q else q :=
  getElem?_foldl_stripPart schemes ps n

theorem ends_stripParts : Ends scheme (stripParts ps) k ↔ Ends scheme ps k := by
  unfold Ends
  rw [getElem?_stripParts]
  cases ps[k]? with
  | none => simp
  | some p =>
      simp only [Option.map_some, Option.some.injEq, exists_eq_left']
      split_ifs
      · exact name_suffix_stripAuthority
      · rfl

theorem treated_stripParts : Treated (stripParts ps) n ↔ Treated ps n := by
  unfold Treated
  simp only [firstEnd_stripParts]

theorem stripParts_stripParts (ps : List (List Char)) :
    stripParts (stripParts ps) = stripParts ps := by
  apply List.ext_getElem?
  intro n
  rw [getElem?_stripParts, getElem?_stripParts, Option.map_map]
  refine congrArg (Option.map · _) ?_
  funext q
  simp only [Function.comp_apply, treated_stripParts]
  split_ifs
  · exact stripAuthority_stripAuthority q
  · rfl

/-- A run that has been sanitized stays as it is. -/
theorem clean_clean (w : List Char) : clean (clean w) = clean w := by
  obtain ⟨ps, hcut⟩ := Separated.exists_isCut unbordered_separator.ne_nil w
  have honce := isCut_clean hcut
  have htwice := isCut_clean honce
  rw [← htwice.join, stripParts_stripParts, honce.join]

end All

/-! ### Occurrences of a scheme -/

/-- A listed scheme occurs where this holds of its run up to the end of the scheme, and of the
run behind it. -/
def Occurs (P : List Char → List Char → Prop) (text : List Char) : Prop :=
  ∃ scheme ∈ schemes, ∃ front back, text = front ++ scheme.text ++ back ∧
    P (front.rtakeWhile (fun c => !isStop c) ++ scheme.text) (run isStop back)

/-- An `@` is in the authority behind a listed scheme. -/
def Exposed : List Char → Prop := Occurs fun _ url => '@' ∈ run endsAuthority url

/-- An `@` is in the authority behind a listed scheme, and each of the listed schemes that end
there occurs in the same run before. -/
def Shadowed : List Char → Prop := Occurs fun head url => '@' ∈ run endsAuthority url ∧
  ∀ scheme ∈ schemes, ∀ front, head = front ++ scheme.text → scheme.text <:+: front

section Occurs

variable {P : List Char → List Char → Prop} {scheme scheme' : Scheme}
  {w t front back : List Char} {c : Char} {ps : List (List Char)} {k : ℕ}

theorem occurs_run (hw : IsRun isStop w) : Occurs P w ↔ ∃ scheme ∈ schemes, ∃ front back,
    w = front ++ scheme.text ++ back ∧ P (front ++ scheme.text) back := by
  unfold Occurs
  refine exists_congr fun scheme => and_congr_right fun _ => ?_
  refine exists_congr fun front => exists_congr fun back => and_congr_right fun heq => ?_
  rw [heq, Substring.isRun_append, Substring.isRun_append] at hw
  have hfront : front.rtakeWhile (fun c => !isStop c) = front := by
    rw [List.rtakeWhile_eq_self_iff]
    intro c hc
    rw [hw.1.1 c hc]
    rfl
  rw [hfront, Substring.run_eq_self hw.2]

theorem rtakeWhile_stop (w t : List Char) (hc : isStop c = true) :
    (w ++ c :: t).rtakeWhile (fun c => !isStop c) = t.rtakeWhile fun c => !isStop c := by
  rw [List.rtakeWhile, List.reverse_append, List.reverse_cons, List.append_assoc]
  exact congrArg List.reverse (Substring.run_append_cons t.reverse w.reverse hc)

/-- A scheme occurs in one run or in the rest of the text. -/
theorem occurs_cut (hc : isStop c = true) : Occurs P (w ++ c :: t) ↔ Occurs P w ∨ Occurs P t := by
  constructor
  · rintro ⟨scheme, hscheme, front, back, heq, hP⟩
    have hnot := Substring.notMem_of_isRun scheme.isRun_text hc
    rcases Substring.occurs_cut hnot heq with ⟨rest, hw, rfl⟩ | ⟨rest, ht, rfl⟩
    · rw [Substring.run_append_cons _ _ hc] at hP
      exact Or.inl ⟨scheme, hscheme, front, rest, hw, hP⟩
    · rw [rtakeWhile_stop _ _ hc] at hP
      exact Or.inr ⟨scheme, hscheme, rest, back, ht, hP⟩
  · rintro (⟨scheme, hscheme, front, back, rfl, hP⟩ | ⟨scheme, hscheme, front, back, rfl, hP⟩)
    · refine ⟨scheme, hscheme, front, back ++ c :: t, List.append_assoc _ _ _, ?_⟩
      rwa [Substring.run_append_cons _ _ hc]
    · refine ⟨scheme, hscheme, w ++ c :: front, back, by simp, ?_⟩
      rwa [rtakeWhile_stop _ _ hc]

/-- What holds where a scheme occurs is read off the parts before and behind it. -/
theorem occurs_iff_parts (hw : IsRun isStop w) (hcut : IsCut separator w ps)
    {R : ℕ → List Char → Prop} (hP : ∀ {scheme k front back}, At scheme ps k front back →
      (P (front ++ scheme.text) back ↔ ∃ q, ps[k + 1]? = some q ∧ R k q)) :
    Occurs P w ↔ ∃ scheme ∈ schemes, ∃ k q, Ends scheme ps k ∧ ps[k + 1]? = some q ∧ R k q := by
  rw [occurs_run hw]
  refine exists_congr fun scheme => and_congr_right fun _ => ?_
  constructor
  · rintro ⟨front, back, heq, hocc⟩
    obtain ⟨k, hat⟩ := exists_at_of_eq hcut heq
    obtain ⟨q, hq, hR⟩ := (hP hat).mp hocc
    exact ⟨k, q, hat.ends, hq, hR⟩
  · rintro ⟨k, q, hends, hq, hR⟩
    obtain ⟨hk, -⟩ := List.getElem?_eq_some_iff.mp hq
    obtain ⟨front, back, hat⟩ := exists_at hcut hends hk
    exact ⟨front, back, hat.text_eq hcut, (hP hat).mpr ⟨q, hq, hR⟩⟩

theorem At.at_mem_run_iff (h : At scheme ps k front back) :
    '@' ∈ run endsAuthority back ↔ ∃ q, ps[k + 1]? = some q ∧ '@' ∈ run endsAuthority q := by
  have hbehind := h.behind
  rw [List.drop_eq_getElem_cons h.lt_length] at hbehind
  rw [UrlSanitize.at_mem_run_iff hbehind, List.getElem?_eq_getElem h.lt_length]
  simp only [Option.some.injEq, exists_eq_left']

/-- **A scheme that ends behind the part occurs before**, or the part is the first one that ends
with it. -/
theorem At.earlier_iff (h : At scheme ps k front back) :
    (∀ front', front ++ scheme.text = front' ++ scheme'.text → scheme'.text <:+: front') ↔
      (Ends scheme' ps k → firstEnd scheme' ps ≠ k) := by
  have hk := h.lt_length
  have hlength : (ps.take (k + 1)).length = k + 1 := List.length_take_of_le hk.le
  have htake : ∀ {j}, j ≤ k → (Ends scheme' (ps.take (k + 1)) j ↔ Ends scheme' ps j) := by
    intro j hj
    rw [Ends, Ends, List.getElem?_take_of_lt (Nat.lt_succ_of_le hj)]
  have hends := @ends_iff scheme' _ _ _ h.before (Nat.lt_of_succ_lt hk)
  constructor
  · intro hearlier hk' hfirst
    obtain ⟨front', heq⟩ := hends.mp hk'
    obtain ⟨a, b, rfl⟩ := hearlier front' (by
      rw [Scheme.text, Scheme.text, ← List.append_assoc, ← List.append_assoc, heq])
    rw [List.append_assoc _ b] at heq
    obtain ⟨j, hat⟩ := exists_at_of_eq h.before heq.symm
    have hlt := hat.lt_length
    rw [hlength] at hlt
    have hle := firstEnd_le ((htake (by omega)).mp hat.ends)
    omega
  · intro hne front' heq
    rw [Scheme.text, Scheme.text, ← List.append_assoc, ← List.append_assoc] at heq
    have hname := List.append_cancel_right heq
    have hk' : Ends scheme' ps k := hends.mpr ⟨front', hname.symm⟩
    have hlt := (firstEnd_le hk').lt_of_ne (hne hk')
    have hfirst := ends_firstEnd (hlt.trans (Nat.lt_of_succ_lt hk))
    have hnext : firstEnd scheme' ps + 1 < (ps.take (k + 1)).length := by
      rw [hlength]
      exact Nat.succ_lt_succ hlt
    obtain ⟨a, b, hat⟩ := exists_at h.before ((htake hlt.le).mpr hfirst) hnext
    -- The part of the scheme is the last one behind the earlier occurrence too.
    obtain ⟨p, hp, hpname⟩ := hk'
    have hlast : ((ps.take (k + 1)).drop (firstEnd scheme' ps + 1)).getLast? = some p := by
      rw [List.getLast?_drop, if_neg (Nat.not_le.mpr hnext), List.take_add_one, hp,
        Option.toList_some, List.getLast?_concat]
    obtain ⟨b', rfl⟩ := (name_suffix_iff hat.behind hlast).mpr hpname
    refine ⟨a, b', (List.append_left_inj scheme'.name).mp ?_⟩
    rw [List.append_assoc, ← hat.text_eq h.before, hname]

theorem exposed_iff (hw : IsRun isStop w) (hcut : IsCut separator w ps) :
    Exposed w ↔ ∃ scheme ∈ schemes, ∃ k q, Ends scheme ps k ∧ ps[k + 1]? = some q ∧
      '@' ∈ run endsAuthority q :=
  occurs_iff_parts hw hcut fun hat => hat.at_mem_run_iff

/-- The part behind is treated, unless each scheme that ends there occurs before. -/
theorem At.not_treated_iff (h : At scheme ps k front back) : ¬ Treated ps (k + 1) ↔
    ∀ scheme' ∈ schemes, ∀ front', front ++ scheme.text = front' ++ scheme'.text →
      scheme'.text <:+: front' := by
  simp only [Treated, Nat.add_right_cancel_iff, not_exists, not_and]
  refine forall₂_congr fun scheme' _ => ?_
  rw [h.earlier_iff]
  refine ⟨fun hne _ => hne, fun hne heq => hne ?_ heq⟩
  rw [← heq]
  exact ends_firstEnd (heq ▸ Nat.lt_of_succ_lt h.lt_length)

theorem shadowed_iff (hw : IsRun isStop w) (hcut : IsCut separator w ps) :
    Shadowed w ↔ ∃ scheme ∈ schemes, ∃ k q, Ends scheme ps k ∧ ps[k + 1]? = some q ∧
      '@' ∈ run endsAuthority q ∧ ¬ Treated ps (k + 1) := by
  refine occurs_iff_parts hw hcut fun {scheme k front back} hat => ?_
  rw [hat.at_mem_run_iff, ← hat.not_treated_iff]
  simp only [← and_assoc, exists_and_right]

/-- **What is left exposed in a run is what is shadowed in it.** -/
theorem exposed_clean_iff (hw : IsRun isStop w) : Exposed (clean w) ↔ Shadowed w := by
  obtain ⟨ps, hcut⟩ := Separated.exists_isCut unbordered_separator.ne_nil w
  rw [exposed_iff (isRun_clean hw) (isCut_clean hcut), shadowed_iff hw hcut]
  refine exists_congr fun scheme => and_congr_right fun _ => exists_congr fun k => ?_
  rw [getElem?_stripParts]
  simp only [ends_stripParts, exists_and_left]
  refine and_congr_right fun _ => ?_
  cases ps[k + 1]? with
  | none => simp
  | some q =>
      simp only [Option.map_some, Option.some.injEq, exists_eq_left']
      split_ifs with htreated
      · exact iff_of_false (notMem_run_stripAuthority q) fun h => h.2 htreated
      · exact (and_iff_left htreated).symm

end Occurs

/-! ### A whole text -/

/-- **What is left exposed is what is shadowed**, by induction along the runs. -/
theorem exposed_sanitizeEmbeddedUrls_iff (text : List Char) :
    Exposed (sanitizeEmbeddedUrls text) ↔ Shadowed text := by
  induction text using Substring.run_induction isStop with
  | whole w hw => rw [sanitizeEmbeddedUrls_run hw, exposed_clean_iff hw]
  | cut w c t hw hc ih =>
      rw [sanitizeEmbeddedUrls_cut hw hc, Exposed, occurs_cut hc, ← Exposed, exposed_clean_iff hw,
        ih, Shadowed, occurs_cut hc]

/-- A text that has been sanitized stays as it is. -/
theorem sanitizeEmbeddedUrls_idem (text : List Char) :
    sanitizeEmbeddedUrls (sanitizeEmbeddedUrls text) = sanitizeEmbeddedUrls text := by
  induction text using Substring.run_induction isStop with
  | whole w hw =>
      rw [sanitizeEmbeddedUrls_run hw, sanitizeEmbeddedUrls_run (isRun_clean hw), clean_clean]
  | cut w c t hw hc ih =>
      rw [sanitizeEmbeddedUrls_cut hw hc, sanitizeEmbeddedUrls_cut (isRun_clean hw) hc, ih,
        clean_clean]

/-- No listed scheme is followed by userinfo in what is returned, which is sanitized as it is
and comes from the text by removing userinfo. -/
structure Sanitized (text : List Char) : Prop where
  hidden : ¬ Exposed (sanitizeEmbeddedUrls text)
  idem : sanitizeEmbeddedUrls (sanitizeEmbeddedUrls text) = sanitizeEmbeddedUrls text
  deletes : Relation.ReflTransGen Deletes text (sanitizeEmbeddedUrls text)

/-- **A text is sanitized if no userinfo stands behind a further occurrence**, in the same run, of
each listed scheme that ends there. -/
theorem sanitized_iff (text : List Char) : Sanitized text ↔ ¬ Shadowed text := by
  rw [← exposed_sanitizeEmbeddedUrls_iff]
  refine ⟨Sanitized.hidden, fun h => ⟨h, ?_, ?_⟩⟩
  · exact sanitizeEmbeddedUrls_idem text
  · exact deletes_sanitizeEmbeddedUrls text

/-- The second URL of a run keeps its password. -/
theorem keeps_second_password : ¬ Sanitized "http://a,http://u:p@h".toList := by
  have hsame : sanitizeEmbeddedUrls "http://a,http://u:p@h".toList =
      "http://a,http://u:p@h".toList := by decide +kernel
  intro h
  apply h.hidden
  rw [hsame]
  exact ⟨⟨"http".toList, by decide, by decide⟩, List.mem_cons_self, "http://a,".toList,
    "u:p@h".toList, by decide, by decide⟩

end ClawDesk.Security.UrlSanitize
