import ClawDesk.Agents.TranscriptPairing
import ClawDesk.Foundations.CompactJson

/-!
# Cutting oversized results

A text is cut behind the last paragraph break of its first `maxChars` bytes, if that
is in their second half, else behind their last line break, else behind all of them,
and a notice is put in the place of the rest (`truncateAtBoundary_eq_some_iff`).  The
kept part is a prefix of the text.

Two things can go wrong.  The first `maxChars` bytes need not end on a character
boundary, and the rest may be shorter than what is put in its place: the notice, and
in a JSON result also the two members that are added.  An oversized result is cut
without a panic and does not grow exactly if neither is the case
(`truncateOversizedResults_shortens_iff`).
-/

namespace ClawDesk.Agents

open Foundations (Json JsonCodec)
open ClawDesk.Runtime (ChatMessage MessageRole)

/-! ### Bytes -/

@[simp]
theorem byteLen_nil : byteLen [] = 0 := rfl

@[simp]
theorem byteLen_cons (c : Char) (cs : List Char) : byteLen (c :: cs) = c.utf8Size + byteLen cs := by
  rw [byteLen, List.map_cons, List.sum_cons]
  rfl

@[simp]
theorem byteLen_append (l r : List Char) : byteLen (l ++ r) = byteLen l + byteLen r := by
  rw [byteLen, List.map_append, List.sum_append]
  rfl

theorem eq_nil_of_byteLen_eq_zero {cs : List Char} (h : byteLen cs = 0) : cs = [] := by
  cases cs with
  | nil => rfl
  | cons c cs =>
      rw [byteLen_cons] at h
      have := c.utf8Size_pos
      omega

/-- The slice is the prefix with that many bytes. -/
theorem takeBytes_eq_some_iff {n : ℕ} {cs kept : List Char} :
    takeBytes n cs = some kept ↔ kept <+: cs ∧ byteLen kept = n := by
  induction n, cs using takeBytes.induct generalizing kept with
  | case1 cs =>
      rw [takeBytes, Option.some.injEq]
      constructor
      · rintro rfl
        exact ⟨List.nil_prefix, rfl⟩
      · exact fun h => (eq_nil_of_byteLen_eq_zero h.2).symm
  | case2 n =>
      rw [takeBytes]
      refine iff_of_false (by simp) ?_
      rintro ⟨hpre, hlen⟩
      rw [List.prefix_nil.mp hpre, byteLen_nil] at hlen
      exact Nat.succ_ne_zero n hlen.symm
  | case3 n c cs hfits ih =>
      rw [takeBytes, if_pos hfits, Option.map_eq_some_iff]
      constructor
      · rintro ⟨kept, hkept, rfl⟩
        obtain ⟨hpre, hlen⟩ := ih.mp hkept
        refine ⟨List.cons_prefix_cons.mpr ⟨rfl, hpre⟩, ?_⟩
        rw [byteLen_cons]
        omega
      · rintro ⟨hpre, hlen⟩
        cases kept with
        | nil => exact absurd hlen (Nat.succ_ne_zero n).symm
        | cons d kept =>
            obtain ⟨rfl, htail⟩ := List.cons_prefix_cons.mp hpre
            rw [byteLen_cons] at hlen
            exact ⟨kept, ih.mpr ⟨htail, by omega⟩, rfl⟩
  | case4 n c cs hlong =>
      rw [takeBytes, if_neg hlong]
      refine iff_of_false (by simp) ?_
      rintro ⟨hpre, hlen⟩
      cases kept with
      | nil => exact absurd hlen (Nat.succ_ne_zero n).symm
      | cons d kept =>
          obtain ⟨rfl, -⟩ := List.cons_prefix_cons.mp hpre
          rw [byteLen_cons] at hlen
          omega

/-! ### Where a text is cut -/

def paragraphNotice : List Char := "\n\n[… output truncated for context budget]".toList

def lineNotice : List Char := "\n[… output truncated for context budget]".toList

def hardNotice : List Char := " [… truncated]".toList

/-- The last occurrence of `pattern`, if it is in the second half. -/
def breakIn (pattern region : List Char) (maxChars : ℕ) : Option ℕ :=
  (rfind pattern region).filter fun pos => maxChars / 2 < pos

/-- How many bytes of a text with the first `maxChars` bytes `region` are kept, and the
notice for the rest. -/
def cutPlace (region : List Char) (maxChars : ℕ) : ℕ × List Char :=
  match breakIn ['\n', '\n'] region maxChars with
  | some pos => (pos, paragraphNotice)
  | none =>
      match breakIn ['\n'] region maxChars with
      | some pos => (pos, lineNotice)
      | none => (maxChars, hardNotice)

/-- `kept` is kept of the text, and `notice` is put in the place of `rest`. -/
structure CutAt (text : List Char) (maxChars : ℕ) (kept rest notice : List Char) : Prop where
  split : kept ++ rest = text
  place : ∃ region, takeBytes maxChars text = some region ∧
    cutPlace region maxChars = (byteLen kept, notice)

theorem CutAt.notice_mem {text kept rest notice : List Char} {maxChars : ℕ}
    (h : CutAt text maxChars kept rest notice) :
    notice ∈ [paragraphNotice, lineNotice, hardNotice] := by
  obtain ⟨region, -, hplace⟩ := h.place
  unfold cutPlace at hplace
  split at hplace
  · cases hplace
    simp
  · split at hplace <;> cases hplace <;> simp

theorem truncateAtBoundary_of_lt {text : List Char} {maxChars : ℕ} (h : maxChars < byteLen text) :
    truncateAtBoundary text maxChars = (takeBytes maxChars text).bind fun region =>
      (takeBytes (cutPlace region maxChars).1 text).map (· ++ (cutPlace region maxChars).2) := by
  rw [truncateAtBoundary, if_neg (by omega), Nat.min_eq_left h.le]
  congr 1
  funext region
  unfold cutPlace breakIn
  cases (rfind ['\n', '\n'] region).filter fun pos => maxChars / 2 < pos with
  | some pos => rfl
  | none =>
      cases (rfind ['\n'] region).filter fun pos => maxChars / 2 < pos with
      | some pos => rfl
      | none => rfl

/-- **A long text is cut at its place**, and only there. -/
theorem truncateAtBoundary_eq_some_iff {text cut : List Char} {maxChars : ℕ}
    (h : maxChars < byteLen text) :
    truncateAtBoundary text maxChars = some cut ↔
      ∃ kept rest notice, CutAt text maxChars kept rest notice ∧ cut = kept ++ notice := by
  rw [truncateAtBoundary_of_lt h, Option.bind_eq_some_iff]
  constructor
  · rintro ⟨region, hregion, hcut⟩
    obtain ⟨kept, hkept, rfl⟩ := Option.map_eq_some_iff.mp hcut
    obtain ⟨⟨rest, hsplit⟩, hlen⟩ := takeBytes_eq_some_iff.mp hkept
    exact ⟨kept, rest, _, ⟨hsplit, region, hregion, Prod.ext hlen.symm rfl⟩, rfl⟩
  · rintro ⟨kept, rest, notice, ⟨hsplit, region, hregion, hplace⟩, rfl⟩
    refine ⟨region, hregion, ?_⟩
    rw [hplace, takeBytes_eq_some_iff.mpr ⟨⟨rest, hsplit⟩, rfl⟩]
    rfl

/-! ### The length of a printed object -/

def quotedLen (cs : List Char) : ℕ := byteLen (cs.flatMap Json.escapeChar)

theorem quotedLen_append (l r : List Char) : quotedLen (l ++ r) = quotedLen l + quotedLen r := by
  rw [quotedLen, List.flatMap_append, byteLen_append]
  rfl

/-- The bytes that a member takes in a printed object, with a comma or a brace. -/
def memberLen (m : String × Json) : ℕ := byteLen (Json.memberText m) + 1

def membersLen (members : List (String × Json)) : ℕ := (members.map memberLen).sum

/-- The bytes of the member that a member called `name` takes the place of. -/
def replacedLen (name : String) (members : List (String × Json)) : ℕ :=
  ((members.lookup name).map fun v => memberLen (name, v)).getD 0

theorem byteLen_render_object {members : List (String × Json)} (h : members ≠ []) :
    byteLen (Json.object members).render.toList = membersLen members + 1 := by
  have hbrace : byteLen ['\x7b'] = 1 ∧ byteLen ['\x7d'] = 1 ∧ byteLen [','] = 1 := by decide
  have hmembers : byteLen (Json.membersText members) + 1 = membersLen members := by
    induction members with
    | nil => exact absurd rfl h
    | cons m rest ih =>
        cases rest with
        | nil => simp [membersLen, memberLen]
        | cons m' rest =>
            have hrest := ih (List.cons_ne_nil _ _)
            rw [Json.membersText_cons, byteLen_append, ← List.singleton_append, byteLen_append,
              hbrace.2.2]
            show _ = memberLen m + membersLen (m' :: rest)
            rw [← hrest, memberLen]
            omega
  rw [Json.toList_render_object, ← List.singleton_append, byteLen_append, byteLen_append,
    hbrace.1, hbrace.2.1]
  omega

theorem membersLen_insertMember (name : String) (v : Json) (members : List (String × Json)) :
    membersLen (Json.insertMember name v members) + replacedLen name members =
      membersLen members + memberLen (name, v) := by
  induction members with
  | nil => simp [Json.insertMember, membersLen, replacedLen]
  | cons m rest ih =>
      obtain ⟨k, w⟩ := m
      unfold replacedLen at ih ⊢
      rw [Json.insertMember, Json.lookup_cons_if]
      by_cases hk : k = name
      · subst hk
        rw [if_pos rfl, if_pos rfl]
        show memberLen (k, v) + membersLen rest + memberLen (k, w) =
          memberLen (k, w) + membersLen rest + memberLen (k, v)
        omega
      · rw [if_neg hk, if_neg (Ne.symm hk)]
        show memberLen (k, w) + membersLen _ + _ = memberLen (k, w) + membersLen rest + _
        omega

theorem replacedLen_insertMember {name other : String} (h : other ≠ name) (v : Json)
    (members : List (String × Json)) :
    replacedLen other (Json.insertMember name v members) = replacedLen other members := by
  rw [replacedLen, Json.lookup_insertMember, if_neg h]
  rfl

/-- The two members that a cut result is given. -/
def marksLen (tokens : ℕ) : ℕ :=
  memberLen ("truncated", .bool true) +
    memberLen ("original_tokens", .number (toString (tokens % 2 ^ 64)))

theorem memberLen_string (name : String) (cs : List Char) :
    memberLen (name, .string (String.ofList cs)) =
      memberLen (name, .string "") + quotedLen cs := by
  have hempty : quotedLen [] = 0 := rfl
  simp only [memberLen, Json.memberText, Json.render, Json.toList_quote, String.toList_ofList,
    byteLen_append, byteLen_cons, quotedLen]
  simp
  omega

/-- What cutting the content adds to an object, and what it removes. -/
theorem membersLen_cutMembers {members : List (String × Json)} {text : String}
    (htext : members.lookup "content" = some (.string text)) {kept rest : List Char}
    (hsplit : kept ++ rest = text.toList) (notice : List Char) (tokens : ℕ) :
    membersLen (cutMembers (kept ++ notice) tokens members) +
        (quotedLen rest + replacedLen "truncated" members +
          replacedLen "original_tokens" members) =
      membersLen members + (quotedLen notice + marksLen tokens) := by
  have hcontent := membersLen_insertMember "content"
    (.string (String.ofList (kept ++ notice))) members
  have htruncated := membersLen_insertMember "truncated" (.bool true)
    (Json.insertMember "content" (.string (String.ofList (kept ++ notice))) members)
  have htokens := membersLen_insertMember "original_tokens"
    (.number (toString (tokens % 2 ^ 64))) (Json.insertMember "truncated" (.bool true)
      (Json.insertMember "content" (.string (String.ofList (kept ++ notice))) members))
  rw [replacedLen_insertMember (by decide)] at htruncated
  rw [replacedLen_insertMember (by decide), replacedLen_insertMember (by decide)] at htokens
  have hold : replacedLen "content" members = memberLen ("content", .string "") +
      (quotedLen kept + quotedLen rest) := by
    rw [replacedLen, htext, Option.map_some, Option.getD_some, ← quotedLen_append, hsplit,
      ← memberLen_string, String.ofList_toList]
  rw [hold, memberLen_string "content" (kept ++ notice), quotedLen_append] at hcontent
  unfold cutMembers marksLen
  omega

/-! ### Cutting a result -/

/-- The text of a tool result: its content member, or the whole of it. -/
def resultText (codec : JsonCodec) (content : String) : List Char :=
  (((codec.parse content).bind fun v => v.textAt "content").getD content).toList

/-- `msg'` says a prefix of what `msg` says, perhaps with a notice, and is not longer. -/
structure Shortened (codec : JsonCodec) (msg msg' : ChatMessage) : Prop where
  kept : ∃ kept notice, resultText codec msg'.content = kept ++ notice ∧
    kept <+: resultText codec msg.content ∧
    notice ∈ [[], paragraphNotice, lineNotice, hardNotice]
  length : byteLen msg'.content.toList ≤ byteLen msg.content.toList

/-- The pass gets through the message and shortens it, or leaves it as it is. -/
def Shortens (codec : JsonCodec) (maxTokens : ℕ) (msg : ChatMessage) : Prop :=
  ∃ msg' changed, truncateMessage codec maxTokens msg = some (msg', changed) ∧
    Shortened codec msg msg'

/-- The budget ends on a character boundary, and what is left out is no shorter than
what is put in its place.  A JSON result is printed anew and marked as truncated, so
there the two members count too, and the lengths are those of the printed texts. -/
inductive Roomy (codec : JsonCodec) (maxTokens : ℕ) (msg : ChatMessage) : Prop
  | whole {kept rest notice : List Char} (notJson : codec.parse msg.content = none)
      (cut : CutAt msg.content.toList (maxCharsFor maxTokens) kept rest notice)
      (room : byteLen notice ≤ byteLen rest)
  | member {members : List (String × Json)} {text : String} {kept rest notice : List Char}
      (parsed : codec.parse msg.content = some (.object members))
      (content : members.lookup "content" = some (.string text))
      (cut : CutAt text.toList (maxCharsFor maxTokens) kept rest notice)
      (room : byteLen (Json.object members).render.toList +
          (quotedLen notice + marksLen (tokenCount msg)) ≤
        byteLen msg.content.toList + (quotedLen rest + replacedLen "truncated" members +
          replacedLen "original_tokens" members))

theorem lookup_of_textAt {members : List (String × Json)} {name text : String}
    (h : (Json.object members).textAt name = some text) :
    members.lookup name = some (.string text) := by
  obtain ⟨v, hv, hstr⟩ := Option.bind_eq_some_iff.mp h
  cases v with
  | string s => exact hv.trans (congrArg _ (congrArg _ (Option.some.inj hstr)))
  | _ => cases hstr

variable {codec : JsonCodec} {maxTokens : ℕ} {msg : ChatMessage}

/-- An oversized result is long text, or JSON with a long content. -/
theorem oversized_cases (h : oversized codec maxTokens msg = true) :
    (codec.parse msg.content = none ∧ maxCharsFor maxTokens < byteLen msg.content.toList) ∨
      ∃ members text, codec.parse msg.content = some (.object members) ∧
        members.lookup "content" = some (.string text) ∧
        maxCharsFor maxTokens < byteLen text.toList := by
  unfold oversized at h
  simp only [Bool.and_eq_true, decide_eq_true_eq] at h
  obtain ⟨⟨-, hlen⟩, h⟩ := h
  cases hparse : codec.parse msg.content with
  | none => exact .inl ⟨rfl, hlen⟩
  | some v =>
      rw [hparse] at h
      dsimp only at h
      rw [Option.any_eq_true] at h
      obtain ⟨text, htext, hlong⟩ := h
      cases v with
      | object members =>
          exact .inr ⟨members, text, rfl, lookup_of_textAt htext, of_decide_eq_true hlong⟩
      | _ => simp [Json.textAt, Json.get] at htext

theorem truncateMessage_whole (h : oversized codec maxTokens msg = true)
    (hparse : codec.parse msg.content = none) :
    truncateMessage codec maxTokens msg =
      (truncateAtBoundary msg.content.toList (maxCharsFor maxTokens)).map fun cut =>
        (rewrite msg (String.ofList cut), true) := by
  simp only [oversized, Bool.and_eq_true, decide_eq_true_eq] at h
  rw [truncateMessage, if_neg (by push Not; exact ⟨h.1.1.1, h.1.1.2, h.1.2⟩), hparse]

theorem truncateMessage_member (h : oversized codec maxTokens msg = true)
    {members : List (String × Json)} {text : String}
    (hparse : codec.parse msg.content = some (.object members))
    (htext : members.lookup "content" = some (.string text))
    (hlong : maxCharsFor maxTokens < byteLen text.toList) :
    truncateMessage codec maxTokens msg =
      (truncateAtBoundary text.toList (maxCharsFor maxTokens)).map fun cut =>
        (rewrite msg (codec.serialize (.object (cutMembers cut (tokenCount msg) members))),
          true) := by
  simp only [oversized, Bool.and_eq_true, decide_eq_true_eq] at h
  have htextAt : (Json.object members).textAt "content" = some text := by
    rw [Json.textAt, Json.get, htext]
    rfl
  rw [truncateMessage, if_neg (by push Not; exact ⟨h.1.1.1, h.1.1.2, h.1.2⟩), hparse]
  simp only [htextAt, if_pos hlong]

/-- A result that is not oversized stays as it is. -/
theorem shortens_of_not_oversized (h : oversized codec maxTokens msg = false) :
    Shortens codec maxTokens msg := by
  refine ⟨msg, false, truncateMessage_of_not_oversized h, ?_, le_rfl⟩
  exact ⟨_, [], (List.append_nil _).symm, List.prefix_rfl, List.mem_cons_self⟩

/-- A text is cut and printed again: the pass shortens the message if there is room for the
notice in the printed text. -/
theorem shortens_cut_iff {text : List Char} {print : List Char → String}
    {Room : List Char → List Char → List Char → Prop}
    (htruncate : truncateMessage codec maxTokens msg =
      (truncateAtBoundary text (maxCharsFor maxTokens)).map fun cut =>
        (rewrite msg (print cut), true))
    (hlong : maxCharsFor maxTokens < byteLen text)
    (htext : resultText codec msg.content = text)
    (hprint : ∀ cut, truncateAtBoundary text (maxCharsFor maxTokens) = some cut →
      resultText codec (print cut) = cut)
    (hlen : ∀ kept rest notice, CutAt text (maxCharsFor maxTokens) kept rest notice →
      (byteLen (print (kept ++ notice)).toList ≤ byteLen msg.content.toList ↔
        Room kept rest notice)) :
    Shortens codec maxTokens msg ↔ ∃ kept rest notice,
      CutAt text (maxCharsFor maxTokens) kept rest notice ∧ Room kept rest notice := by
  rw [Shortens, htruncate]
  constructor
  · rintro ⟨msg', changed, hmap, hshort⟩
    obtain ⟨cut, hcut, hmsg⟩ := Option.map_eq_some_iff.mp hmap
    cases hmsg
    obtain ⟨kept, rest, notice, hplace, rfl⟩ := (truncateAtBoundary_eq_some_iff hlong).mp hcut
    exact ⟨kept, rest, notice, hplace, (hlen _ _ _ hplace).mp hshort.length⟩
  · rintro ⟨kept, rest, notice, hplace, hroom⟩
    have hcut := (truncateAtBoundary_eq_some_iff hlong).mpr ⟨kept, rest, notice, hplace, rfl⟩
    refine ⟨rewrite msg (print (kept ++ notice)), true, by rw [hcut, Option.map_some], ?_,
      (hlen _ _ _ hplace).mpr hroom⟩
    refine ⟨kept, notice, hprint _ hcut, ?_, List.mem_cons_of_mem _ hplace.notice_mem⟩
    rw [htext]
    exact ⟨rest, hplace.split⟩

section Lawful

variable (law : codec.Lawful)

include law

theorem shortens_whole_iff (h : oversized codec maxTokens msg = true)
    (hparse : codec.parse msg.content = none)
    (hlong : maxCharsFor maxTokens < byteLen msg.content.toList) :
    Shortens codec maxTokens msg ↔ ∃ kept rest notice,
      CutAt msg.content.toList (maxCharsFor maxTokens) kept rest notice ∧
        byteLen notice ≤ byteLen rest := by
  refine shortens_cut_iff (truncateMessage_whole h hparse) hlong ?_ ?_ ?_
  · rw [resultText, hparse]
    rfl
  · intro cut hcut
    rw [resultText, parse_truncateAtBoundary law hcut hlong]
    exact String.toList_ofList
  · intro kept rest notice hcut
    rw [String.toList_ofList, ← hcut.split, byteLen_append, byteLen_append]
    omega

theorem shortens_member_iff (printed : codec.Compact) (h : oversized codec maxTokens msg = true)
    {members : List (String × Json)} {text : String}
    (hparse : codec.parse msg.content = some (.object members))
    (htext : members.lookup "content" = some (.string text))
    (hlong : maxCharsFor maxTokens < byteLen text.toList) :
    Shortens codec maxTokens msg ↔ ∃ kept rest notice,
      CutAt text.toList (maxCharsFor maxTokens) kept rest notice ∧
        byteLen (Json.object members).render.toList +
            (quotedLen notice + marksLen (tokenCount msg)) ≤
          byteLen msg.content.toList + (quotedLen rest + replacedLen "truncated" members +
            replacedLen "original_tokens" members) := by
  have hsound (cut : List Char) :=
    sound_cutMembers (law.sound hparse) cut (numeric_natural law (tokenCount msg))
  have hne : members ≠ [] := by
    rintro rfl
    cases htext
  have hne' (cut : List Char) : cutMembers cut (tokenCount msg) members ≠ [] := by
    intro hnil
    have := Json.lookup_insertMember "original_tokens" "original_tokens"
      (.number (toString (tokenCount msg % 2 ^ 64))) (Json.insertMember "truncated" (.bool true)
        (Json.insertMember "content" (.string (String.ofList cut)) members))
    rw [show Json.insertMember _ _ _ = [] from hnil, if_pos rfl] at this
    cases this
  refine shortens_cut_iff (truncateMessage_member h hparse htext hlong) hlong ?_ ?_ ?_
  · rw [resultText, hparse]
    simp only [Option.bind_some, Json.textAt, Json.get, htext]
    rfl
  · intro cut _
    obtain ⟨v, hv, hforget⟩ := law.reads (hsound cut)
    rw [resultText, hv, Option.bind_some, Json.textAt_eq_of_forget_eq hforget]
    simp [Json.textAt, Json.get, cutMembers, Json.lookup_insertMember, Json.asStr]
  · -- the printed object changes by what is cut off and what is put in
    intro kept rest notice hcut
    have hmembers := membersLen_cutMembers htext hcut.split notice (tokenCount msg)
    rw [printed (hsound _), byteLen_render_object hne, byteLen_render_object (hne' _)]
    omega

/-- **A result is cut without a panic and does not grow exactly if there is room.** -/
theorem shortens_iff (printed : codec.Compact) :
    Shortens codec maxTokens msg ↔
      (oversized codec maxTokens msg = true → Roomy codec maxTokens msg) := by
  cases h : oversized codec maxTokens msg with
  | false => exact iff_of_true (shortens_of_not_oversized h) fun hfalse => by cases hfalse
  | true =>
      rw [imp_iff_right rfl]
      rcases oversized_cases h with ⟨hparse, hlong⟩ | ⟨members, text, hparse, htext, hlong⟩
      · rw [shortens_whole_iff law h hparse hlong]
        constructor
        · rintro ⟨kept, rest, notice, hcut, hroom⟩
          exact .whole hparse hcut hroom
        · intro hroomy
          cases hroomy with
          | whole _ hcut hroom => exact ⟨_, _, _, hcut, hroom⟩
          | member hparse' => cases hparse.symm.trans hparse'
      · rw [shortens_member_iff law printed h hparse htext hlong]
        constructor
        · rintro ⟨kept, rest, notice, hcut, hroom⟩
          exact .member hparse htext hcut hroom
        · intro hroomy
          cases hroomy with
          | whole hparse' => cases hparse.symm.trans hparse'
          | member hparse' htext' hcut hroom =>
              cases hparse.symm.trans hparse'
              cases htext.symm.trans htext'
              exact ⟨_, _, _, hcut, hroom⟩

end Lawful

/-! ### The pass -/

theorem mapM_eq_some_iff_forall₂ {α β : Type} {f : α → Option β} {l : List α}
    {results : List β} :
    l.mapM f = some results ↔ List.Forall₂ (fun a b => f a = some b) l results := by
  refine ⟨forall₂_of_mapM, fun h => ?_⟩
  induction h with
  | nil => rfl
  | cons hb _ ih =>
      rw [List.mapM_cons, hb, ih]
      rfl

/-- The pass returns, with a shortened message for every message. -/
def PassShortens (codec : JsonCodec) (maxTokens : ℕ) (messages : List ChatMessage) : Prop :=
  ∃ truncated, truncateOversizedResults codec maxTokens messages = some truncated ∧
    List.Forall₂ (Shortened codec) messages truncated.1

/-- The pass shortens a history if it shortens each message. -/
theorem passShortens_iff_forall {messages : List ChatMessage} :
    PassShortens codec maxTokens messages ↔ ∀ msg ∈ messages, Shortens codec maxTokens msg := by
  constructor
  · rintro ⟨truncated, htruncate, hshort⟩ msg hmsg
    obtain ⟨results, hresults, rfl⟩ := Option.map_eq_some_iff.mp htruncate
    have hboth := mapM_eq_some_iff_forall₂.mp hresults
    rw [List.forall₂_map_right_iff] at hshort
    clear hresults htruncate
    induction hboth with
    | nil => exact absurd hmsg List.not_mem_nil
    | cons hb _ ih =>
        obtain ⟨hhead, htail⟩ := List.forall₂_cons.mp hshort
        rcases List.mem_cons.mp hmsg with rfl | hmsg
        · exact ⟨_, _, hb, hhead⟩
        · exact ih hmsg htail
  · intro hall
    have hresults : ∃ results, List.Forall₂ (fun msg (r : ChatMessage × Bool) =>
        truncateMessage codec maxTokens msg = some r ∧ Shortened codec msg r.1)
        messages results := by
      induction messages with
      | nil => exact ⟨[], .nil⟩
      | cons msg rest ih =>
          obtain ⟨msg', changed, hmsg, hshort⟩ := hall msg List.mem_cons_self
          obtain ⟨results, hrest⟩ := ih fun m hm => hall m (List.mem_cons_of_mem _ hm)
          exact ⟨(msg', changed) :: results, .cons ⟨hmsg, hshort⟩ hrest⟩
    obtain ⟨results, hresults⟩ := hresults
    refine ⟨_, Option.map_eq_some_iff.mpr ⟨results, ?_, rfl⟩, ?_⟩
    · exact mapM_eq_some_iff_forall₂.mpr (hresults.imp fun _ _ h => h.1)
    · exact List.forall₂_map_right_iff.mpr (hresults.imp fun _ _ h => h.2)

/-- **The truncating pass shortens a history exactly if there is room in every
oversized result.** -/
theorem truncateOversizedResults_shortens_iff (law : codec.Lawful) (printed : codec.Compact)
    (maxTokens : ℕ) (messages : List ChatMessage) :
    PassShortens codec maxTokens messages ↔
      ∀ msg ∈ messages, oversized codec maxTokens msg = true → Roomy codec maxTokens msg := by
  rw [passShortens_iff_forall]
  exact forall₂_congr fun msg _ => shortens_iff law printed

/-- A long line leaves room for the notice. -/
theorem truncateOversizedResults_shortens_line :
    PassShortens Json.compactJson 1 [.new .tool "a line of twenty-eight bytes"] := by
  have hcut : CutAt "a line of twenty-eight bytes".toList (maxCharsFor 1) "a li".toList
      "ne of twenty-eight bytes".toList hardNotice :=
    ⟨rfl, "a li".toList, by decide, by decide⟩
  refine (truncateOversizedResults_shortens_iff Json.compactJson_lawful
    Json.compactJson_compact 1 _).mpr fun msg hmsg _ => ?_
  obtain rfl := List.mem_singleton.mp hmsg
  exact .whole (by decide +kernel) hcut (by decide)

/-- The budget ends inside a character, and a text that is just over it grows. -/
theorem cut_panics_or_grows :
    truncateOversizedResults Json.compactJson 1 [.new .tool "ab€€€"] = none ∧
      ¬ PassShortens Json.compactJson 1 [.new .tool "ab€€€"] ∧
      ¬ PassShortens Json.compactJson 1 [.new .tool "abcdefgh"] := by
  have hpanics : truncateOversizedResults Json.compactJson 1 [.new .tool "ab€€€"] = none := by
    decide +kernel
  have hgrows : truncateOversizedResults Json.compactJson 1 [.new .tool "abcdefgh"] =
      some ([.new .tool "abcd [… truncated]"], 1) := by decide +kernel
  refine ⟨hpanics, ?_, ?_⟩
  · rintro ⟨truncated, htruncated, -⟩
    rw [hpanics] at htruncated
    cases htruncated
  · rintro ⟨truncated, htruncated, hshort⟩
    rw [hgrows] at htruncated
    cases htruncated
    exact absurd (List.forall₂_cons.mp hshort).1.length (by decide)

end ClawDesk.Agents
