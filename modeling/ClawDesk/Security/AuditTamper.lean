import ClawDesk.Foundations.Text
import ClawDesk.Security.Audit

/-!
# What the audit log gives away

The hash of an entry covers the text `id:timestamp:action` and the hash before it.  If the
hash function is injective and its values have no colon, the last stored hash therefore fixes
all hashes before it and all of these texts, by induction from the end of the chain.

The category, the actor, the target, the detail and the outcome are not in the text, and the
text does not fix where the id ends.  So a changed log is found out exactly when a text or a
stored hash has changed, or when entries have been dropped, which makes every log invalid
(`tampering_detected_iff`).
-/

namespace ClawDesk.Security

open Foundations

namespace AuditLogger

/-- The log with other entries in its ring. -/
def tampered (logger : AuditLogger) (entries : List AuditEntry) : AuditLogger :=
  { logger with entries := entries }

/-- No colon in the text. -/
def ColonFree (text : String) : Prop := ':' ∉ text.toList

theorem colonFree_genesis : ColonFree genesis := by
  have hzeros : genesis.toList = List.replicate 64 '0' := String.toList_ofList
  show ':' ∉ genesis.toList
  rw [hzeros]
  simp

section Tampering

variable (sha256Hex : String → String) (showTime : ℤ → String)

/-- What the hash of an entry covers besides the hash before it. -/
def chainText (entry : AuditEntry) : String :=
  entry.id ++ ":" ++ showTime entry.timestamp ++ ":" ++ entry.action

/-- The text of an entry, and its stored hash. -/
def covered (entry : AuditEntry) : String × String := (chainText showTime entry, entry.prevHash)

/-- Every stored hash is the hash of its entry after the one before it. -/
def Linked : String → List AuditEntry → Prop
  | _, [] => True
  | prevHash, entry :: rest =>
      chainHash sha256Hex showTime entry.id entry.timestamp entry.action prevHash =
        entry.prevHash ∧ Linked entry.prevHash rest

/-- The last stored hash, or the one before the first entry. -/
def lastHash (prevHash : String) (entries : List AuditEntry) : String :=
  (entries.getLast?.map (·.prevHash)).getD prevHash

variable {sha256Hex : String → String} {showTime : ℤ → String} {prevHash prevHash' : String}
  {entry entry' : AuditEntry} {entries entries' : List AuditEntry}

theorem chainHash_eq (entry : AuditEntry) (prevHash : String) :
    chainHash sha256Hex showTime entry.id entry.timestamp entry.action prevHash =
      sha256Hex (chainText showTime entry ++ ":" ++ prevHash) := rfl

theorem lastHash_cons : lastHash prevHash (entry :: entries) = lastHash entry.prevHash entries := by
  rw [lastHash, lastHash, List.getLast?_cons, Option.map_some, Option.getD_some]
  cases entries.getLast? <;> rfl

/-- **Verification checks the links.** -/
theorem verifyFrom_valid_iff (i checked : ℕ) :
    (verifyFrom sha256Hex showTime prevHash i checked entries).valid = true ↔
      Linked sha256Hex showTime prevHash entries := by
  induction entries generalizing prevHash i checked with
  | nil => exact iff_of_true rfl trivial
  | cons entry rest ih =>
      rw [verifyFrom, Linked]
      split_ifs with hne
      · exact iff_of_false (by simp) fun h => hne h.1
      · rw [ih]
        exact (and_iff_right (not_not.mp hne)).symm

theorem verifyChain_valid_iff (logger : AuditLogger) :
    (logger.verifyChain sha256Hex showTime).valid = true ↔
      Linked sha256Hex showTime genesis logger.entries := by
  unfold verifyChain
  split_ifs with hempty
  · rw [List.isEmpty_iff.mp hempty]
    exact iff_of_true rfl trivial
  · exact verifyFrom_valid_iff 0 0

/-- What was logged is linked. -/
theorem linked_chain (rs : List AuditRecord) :
    Linked sha256Hex showTime prevHash (chain sha256Hex showTime prevHash rs) :=
  (verifyFrom_valid_iff 0 0).mp (by rw [verifyFrom_chain])

/-- The links depend on what the hashes cover. -/
theorem Linked.congr (h : Linked sha256Hex showTime prevHash entries)
    (hcovered : entries'.map (covered showTime) = entries.map (covered showTime)) :
    Linked sha256Hex showTime prevHash entries' := by
  induction entries generalizing prevHash entries' with
  | nil =>
      rw [List.map_nil, List.map_eq_nil_iff] at hcovered
      rw [hcovered]
      trivial
  | cons entry rest ih =>
      obtain ⟨entry', rest', rfl, hentry, hrest⟩ := List.map_eq_cons_iff.mp hcovered
      obtain ⟨htext, hhash⟩ := Prod.mk.inj hentry
      refine ⟨?_, ?_⟩
      · rw [chainHash_eq, htext, hhash]
        exact h.1
      · rw [hhash]
        exact ih h.2 hrest

variable (hinj : Function.Injective sha256Hex) (hhex : ∀ text, ColonFree (sha256Hex text))

include hinj in
/-- An injective hash fixes the text and the hash before it. -/
theorem chainHash_inj (hfree : ColonFree prevHash) (hfree' : ColonFree prevHash')
    (h : chainHash sha256Hex showTime entry.id entry.timestamp entry.action prevHash =
      chainHash sha256Hex showTime entry'.id entry'.timestamp entry'.action prevHash') :
    chainText showTime entry = chainText showTime entry' ∧ prevHash = prevHash' := by
  rw [chainHash_eq, chainHash_eq] at h
  have htexts := congrArg String.toList (hinj h)
  simp only [String.toList_append, List.append_assoc] at htexts
  obtain ⟨htext, hhash⟩ := eq_of_sep_append hfree hfree' htexts
  exact ⟨String.toList_inj.mp htext, String.toList_inj.mp hhash⟩

include hinj hhex in
/-- **The last hash fixes everything that is covered.** -/
theorem Linked.covered_eq (h : Linked sha256Hex showTime prevHash entries)
    (h' : Linked sha256Hex showTime prevHash' entries') (hfree : ColonFree prevHash)
    (hfree' : ColonFree prevHash') (hlen : entries.length = entries'.length)
    (hlast : lastHash prevHash entries = lastHash prevHash' entries') :
    prevHash = prevHash' ∧ entries.map (covered showTime) = entries'.map (covered showTime) := by
  induction entries generalizing prevHash prevHash' entries' with
  | nil =>
      obtain rfl := List.eq_nil_of_length_eq_zero hlen.symm
      exact ⟨hlast, rfl⟩
  | cons entry rest ih =>
      obtain ⟨entry', rest', rfl⟩ := List.exists_cons_of_length_eq_add_one hlen.symm
      rw [lastHash_cons, lastHash_cons] at hlast
      -- the stored hashes agree from here on, by the entries that follow
      obtain ⟨hstored, hrest⟩ := ih h.2 h'.2 (h.1 ▸ hhex _) (h'.1 ▸ hhex _)
        (Nat.succ.inj hlen) hlast
      have hhash := h.1.trans (hstored.trans h'.1.symm)
      obtain ⟨htext, hbefore⟩ := chainHash_inj hinj hfree hfree' hhash
      refine ⟨hbefore, ?_⟩
      rw [List.map_cons, List.map_cons, hrest]
      exact congrArg (· :: _) (Prod.ext htext hstored)

/-- The hash before the oldest entry retained. -/
def hashBefore (sha256Hex : String → String) (showTime : ℤ → String) (maxEntries : ℕ)
    (rs : List AuditRecord) : String :=
  hashAfter sha256Hex showTime genesis (rs.take (rs.length - max 1 maxEntries))

theorem linked_logAll (maxEntries : ℕ) (rs : List AuditRecord) :
    Linked sha256Hex showTime (hashBefore sha256Hex showTime maxEntries rs)
      ((new maxEntries).logAll sha256Hex showTime rs).entries := by
  rw [entries_logAll, drop_chain]
  exact linked_chain _

include hhex in
theorem colonFree_hashAfter (rs : List AuditRecord) :
    ColonFree (hashAfter sha256Hex showTime genesis rs) := by
  induction rs using List.reverseRecOn with
  | nil => exact colonFree_genesis
  | append_singleton rs r _ =>
      rw [hashAfter, List.foldl_append]
      exact hhex _

include hinj hhex in
/-- **A log that was tampered with is found out exactly when a text `id:timestamp:action` or a
stored hash has changed**, or when entries had been dropped before. -/
theorem tampering_detected_iff (maxEntries : ℕ) (rs : List AuditRecord)
    (hlen : entries.length = ((new maxEntries).logAll sha256Hex showTime rs).entries.length)
    (hlast : entries.getLast?.map (·.prevHash) =
      ((new maxEntries).logAll sha256Hex showTime rs).entries.getLast?.map (·.prevHash)) :
    ((((new maxEntries).logAll sha256Hex showTime rs).tampered entries).verifyChain sha256Hex
        showTime).valid = false ↔
      entries.map (covered showTime) ≠
          ((new maxEntries).logAll sha256Hex showTime rs).entries.map (covered showTime) ∨
        hashBefore sha256Hex showTime maxEntries rs ≠ genesis := by
  have hlogged : Linked sha256Hex showTime (hashBefore sha256Hex showTime maxEntries rs) _ :=
    linked_logAll maxEntries rs
  rw [← Bool.not_eq_true, verifyChain_valid_iff, ← not_and_or, not_iff_not]
  constructor
  · intro h
    by_cases hnil : entries = []
    · subst hnil
      have hlength := hlen
      rw [entries_logAll, List.length_drop, length_chain, List.length_nil] at hlength
      obtain rfl : rs = [] := List.eq_nil_of_length_eq_zero (by omega)
      exact ⟨by simp [entries_logAll, chain], by simp [hashBefore, hashAfter]⟩
    · have hsame : lastHash genesis entries = lastHash (hashBefore sha256Hex showTime maxEntries rs)
          ((new maxEntries).logAll sha256Hex showTime rs).entries := by
        obtain ⟨last, hsome⟩ := Option.ne_none_iff_exists'.mp (mt List.getLast?_eq_none_iff.mp hnil)
        rw [lastHash, lastHash, ← hlast, hsome]
        rfl
      obtain ⟨hbefore, hcovered⟩ := Linked.covered_eq hinj hhex h hlogged colonFree_genesis
        (colonFree_hashAfter hhex _) hlen hsame
      exact ⟨hcovered, hbefore.symm⟩
  · rintro ⟨hcovered, hbefore⟩
    rw [hbefore] at hlogged
    exact hlogged.congr hcovered

end Tampering

/-! ### An outcome that is rewritten -/

/-- Every character as seven decimal digits: injective, and without a colon. -/
def digits (text : String) : String :=
  String.ofList (text.toList.flatMap fun c => decimal 7 c.toNat)

theorem toNat_lt (c : Char) : c.toNat < 10 ^ 7 := by
  have hvalid := c.valid
  unfold UInt32.isValidChar Nat.isValidChar at hvalid
  show c.val.toNat < 10 ^ 7
  omega

theorem digits_injective : Function.Injective digits := by
  have hchars : ∀ l l' : List Char, (l.flatMap fun c => decimal 7 c.toNat) =
      (l'.flatMap fun c => decimal 7 c.toNat) → l = l' := by
    have hlength : ∀ c : Char, (decimal 7 c.toNat).length = 7 := fun c => by
      rw [decimal, List.length_map, length_paddedDigits (toNat_lt c)]
    intro l
    induction l with
    | nil =>
        intro l' h
        cases l' with
        | nil => rfl
        | cons c l' =>
            have hlen := congrArg List.length h
            rw [List.flatMap_cons, List.length_append, hlength] at hlen
            exact absurd hlen (by simp; omega)
    | cons c l ih =>
        intro l' h
        cases l' with
        | nil =>
            have hlen := congrArg List.length h
            simp [hlength] at hlen
        | cons c' l' =>
            rw [List.flatMap_cons, List.flatMap_cons] at h
            obtain ⟨hc, hl⟩ := List.append_inj h ((hlength c).trans (hlength c').symm)
            rw [ih l' hl, Char.toNat_inj.mp (decimal_injective 7 hc)]
  intro text text' h
  exact String.toList_inj.mp (hchars _ _ (String.ofList_injective h))

theorem colonFree_digits (text : String) : ColonFree (digits text) := by
  intro hmem
  rw [digits, String.toList_ofList] at hmem
  obtain ⟨c, -, hc⟩ := List.mem_flatMap.mp hmem
  exact colon_notMem_decimal 7 c.toNat hc

/-- A time as it is printed. -/
def aTime : ℤ → String := fun _ => "1970-01-01 00:00:00 UTC"

/-- The entry of a log that has only one. -/
def first : AuditEntry := entryAfter digits aTime genesis (sample "1")

theorem entries_first : ((new 10).logAll digits aTime [sample "1"]).entries = [first] := by
  simp [entries_logAll, chain, first]

theorem tampering_detected_iff_action :
    ((((new 10).logAll digits aTime [sample "1"]).tampered
      [{ first with action := "other" }]).verifyChain digits aTime).valid = false := by
  refine (tampering_detected_iff digits_injective colonFree_digits 10 [sample "1"] ?_ ?_).mpr
    (.inl fun h => ?_)
  · rw [entries_first]
    rfl
  · rw [entries_first]
    rfl
  · rw [entries_first] at h
    have htext := congrArg (fun l => (l.map Prod.fst).map String.toList) h
    simp [covered, chainText, first, entryAfter, sample] at htext

/-- **A success that is rewritten to a failure goes unnoticed.** -/
theorem outcome_rewritten :
    ((new 10).logAll digits aTime [sample "1"]).entries = [first] ∧
    { first with outcome := .failed }.prevHash = first.prevHash ∧
    { first with outcome := .failed } ≠ first ∧
    ((((new 10).logAll digits aTime [sample "1"]).tampered
      [{ first with outcome := .failed }]).verifyChain digits aTime).valid = true := by
  refine ⟨entries_first, rfl, fun h => ?_, ?_⟩
  · have houtcome := congrArg AuditEntry.outcome h
    simp [first, entryAfter, sample] at houtcome
  · rw [verifyChain_valid_iff]
    exact ⟨rfl, trivial⟩

end AuditLogger

end ClawDesk.Security
