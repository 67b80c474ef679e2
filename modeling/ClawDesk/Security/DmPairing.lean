import ClawDesk.Foundations.Fold
import ClawDesk.Foundations.Text
import Mathlib.Data.List.AList

/-!
# Pairing with unknown senders

An unknown sender gets a short code, and the owner of the device approves or rejects it.  The
pending challenges are kept in a map, and beside it their codes in a queue, which gives way at its
front when the map is full.

The queue is always the codes of the map, each once, so the eviction loop comes to an end.  But a
sender who asks again gets the pending challenge before the expired ones are evicted.  So a
challenge that is returned can be approved exactly when the sender had no expired one pending
(`pairing_iff`).
-/

namespace ClawDesk.Security

open Foundations

/-! ### The manager -/

/-- Maximum pending pairings. -/
def maxPending : ℕ := 100

/-- A pending pairing challenge. -/
structure PairingChallenge where
  code : String
  senderId : String
  channel : String
  displayName : Option String
  createdAt : Option ℕ
  createdAtIso : String
  deriving DecidableEq

/-- Result of a pairing attempt. -/
inductive PairingResult where
  | approved (senderId : String)
  | invalidCode
  | expired
  | rejected
  deriving DecidableEq

/-- Pending pairings keyed by code. -/
abbrev Pending := AList fun _ : String => PairingChallenge

namespace Pending

def len (pending : Pending) : ℕ := pending.keys.length

/-- Remove the codes one after the other. -/
def removeAll (pending : Pending) (codes : List String) : Pending :=
  codes.foldl (fun pending code => pending.erase code) pending

end Pending

/-- What the generator of random numbers gives to a call.  Only the numbers up to the first free
code are read. -/
structure Draws where
  numbers : List (Fin 1000000)
  enough : maxPending ≤ numbers.dedup.length

/-- A number as six digits. -/
def formatCode (number : Fin 1000000) : String := String.ofList (decimal 6 number)

/-- The DM pairing manager. -/
structure DmPairingManager where
  pending : Pending
  order : List String
  expiry : ℕ

namespace DmPairingManager

/-- A manager without pending pairings. -/
def withExpiry (expiry : ℕ) : DmPairingManager := ⟨∅, [], expiry⟩

/-- Create a manager, with an expiry of 300 s in nanoseconds. -/
def new : DmPairingManager := withExpiry (300 * 10 ^ 9)

/-- More time has elapsed since the challenge was created than a code is valid for. -/
def isExpired (expiry now : ℕ) (challenge : PairingChallenge) : Bool :=
  match challenge.createdAt with
  | some created => expiry < now - created
  | none => false

/-- Remove expired challenges. -/
def evictExpired (m : DmPairingManager) (now : ℕ) : DmPairingManager :=
  let expiredCodes := (m.pending.entries.filter fun s => isExpired m.expiry now s.2).map (·.1)
  { m with
    pending := m.pending.removeAll expiredCodes
    order := m.order.filter (· ∉ expiredCodes) }

/-- The loop that evicts the oldest ones; with an empty queue it would run forever. -/
def evictOldest : List String → Pending → Option (List String × Pending)
  | [], pending => if maxPending ≤ pending.len then none else some ([], pending)
  | oldCode :: order, pending =>
      if maxPending ≤ pending.len then evictOldest order (pending.erase oldCode)
      else some (oldCode :: order, pending)

/-- The first drawn code that is free. -/
def generateCode (pending : Pending) (draws : Draws) : Option String :=
  (draws.numbers.map formatCode).find? (· ∉ pending)

/-- The pending challenge of a sender. -/
def existing (m : DmPairingManager) (senderId channel : String) : Option PairingChallenge :=
  (m.pending.entries.find? fun s => s.2.senderId = senderId ∧ s.2.channel = channel).map (·.2)

/-- Generate a pairing challenge.  The clock is read for the eviction and once more for the
creation, and the seconds of the system clock go into the text; none if a loop does not end. -/
def challenge (m : DmPairingManager) (senderId channel : String) (displayName : Option String)
    (draws : Draws) (evictedAt now epochSecs : ℕ) : Option (PairingChallenge × DmPairingManager) :=
  match m.existing senderId channel with
  | some challenge => some (challenge, m)
  | none => do
      let m := m.evictExpired evictedAt
      let (order, pending) ← evictOldest m.order m.pending
      let code ← generateCode pending draws
      let challenge : PairingChallenge :=
        ⟨code, senderId, channel, displayName, some now, toString epochSecs⟩
      return (challenge,
        { m with pending := pending.insert code challenge, order := order ++ [code] })

/-- Take a code out of the map and of the queue. -/
def remove (m : DmPairingManager) (code : String) : DmPairingManager :=
  { m with pending := m.pending.erase code, order := m.order.filter (· ≠ code) }

/-- Approve a pending pairing by code. -/
def approve (m : DmPairingManager) (code : String) (now : ℕ) : PairingResult × DmPairingManager :=
  match m.pending.lookup code with
  | some challenge =>
      if isExpired m.expiry now challenge then (.expired, m.remove code)
      else (.approved challenge.senderId, m.remove code)
  | none => (.invalidCode, m)

/-- Reject a pending pairing by code. -/
def reject (m : DmPairingManager) (code : String) : PairingResult × DmPairingManager :=
  match m.pending.lookup code with
  | some _ => (.rejected, m.remove code)
  | none => (.invalidCode, m)

end DmPairingManager

/-! ### Calls and what they should do -/

/-- A call, with the times that it reads. -/
inductive PairingCall where
  | challenge (senderId channel : String) (displayName : Option String) (draws : Draws)
      (evictedAt now epochSecs : ℕ)
  | approve (code : String) (now : ℕ)
  | reject (code : String)
  | evictExpired (now : ℕ)

/-- What a call returns; none for a challenge that never comes. -/
inductive PairingAnswer where
  | challenge (challenge : Option PairingChallenge)
  | result (result : PairingResult)
  | done

namespace DmPairingManager

def perform (m : DmPairingManager) : PairingCall → PairingAnswer × DmPairingManager
  | .challenge senderId channel displayName draws evictedAt now epochSecs =>
      match m.challenge senderId channel displayName draws evictedAt now epochSecs with
      | some (challenge, m) => (.challenge (some challenge), m)
      | none => (.challenge none, m)
  | .approve code now => ((m.approve code now).map .result id)
  | .reject code => ((m.reject code).map .result id)
  | .evictExpired now => (.done, m.evictExpired now)

/-- Calls and their answers, the last one first. -/
abbrev PairingLog := List (PairingCall × PairingAnswer)

/-- One more call. -/
def feed (st : DmPairingManager × PairingLog) (call : PairingCall) :
    DmPairingManager × PairingLog :=
  let (answer, m) := st.1.perform call
  (m, (call, answer) :: st.2)

/-- The challenge that was last returned with the code, unless it has been approved or rejected
since. -/
def outstanding (code : String) : PairingLog → Option PairingChallenge
  | [] => none
  | (.approve c _, _) :: log => if c = code then none else outstanding code log
  | (.reject c, _) :: log => if c = code then none else outstanding code log
  | (.challenge _ _ _ _ _ _ _, .challenge (some challenge)) :: log =>
      if challenge.code = code then some challenge else outstanding code log
  | _ :: log => outstanding code log

/-- The queue holds each pending code once and nothing else, and not too many are pending, nor two
of one sender. -/
structure Orderly (m : DmPairingManager) : Prop where
  order : m.order.Perm m.pending.keys
  bounded : m.pending.len ≤ maxPending
  single : ∀ code code' c c', m.pending.lookup code = some c → m.pending.lookup code' = some c' →
    c.senderId = c'.senderId → c.channel = c'.channel → code = code'

/-- What a call is to keep. -/
structure Conforms (st : DmPairingManager × PairingLog) (call : PairingCall) : Prop where
  orderly : Orderly (feed st call).1
  approved : ∀ code now senderId, call = .approve code now →
    (st.1.perform call).1 = .result (.approved senderId) →
    ∃ c created, outstanding code st.2 = some c ∧ c.senderId = senderId ∧
      c.createdAt = some created ∧ now - created ≤ st.1.expiry
  acceptable : ∀ senderId channel displayName draws evictedAt now epochSecs,
    call = .challenge senderId channel displayName draws evictedAt now epochSecs →
    ∃ c, (st.1.perform call).1 = .challenge (some c) ∧ c.senderId = senderId ∧
      c.channel = channel ∧ ((feed st call).1.approve c.code now).1 = .approved senderId

/-- A challenge finds no expired one of the same sender. -/
def Regular (st : DmPairingManager × PairingLog) : PairingCall → Prop
  | .challenge senderId channel _ _ _ now _ => ∀ code c, st.1.pending.lookup code = some c →
      c.senderId = senderId → c.channel = channel → isExpired st.1.expiry now c = false
  | _ => True

/-! ### What the operations do -/

variable {m : DmPairingManager} {pending pending' : Pending} {order codes : List String}
  {code senderId channel : String} {displayName : Option String} {draws : Draws}
  {evictedAt now epochSecs : ℕ} {c : PairingChallenge}

/-- Every entry of the one map is an entry of the other. -/
def Shrinks (pending' pending : Pending) : Prop :=
  ∀ code c, pending'.lookup code = some c → pending.lookup code = some c

theorem lookup_erase_eq_some_iff {other : String} :
    (pending.erase code).lookup other = some c ↔
      other ≠ code ∧ pending.lookup other = some c := by
  by_cases h : other = code
  · rw [h, AList.lookup_erase]
    simp
  · rw [AList.lookup_erase_ne h]
    exact (and_iff_right h).symm

theorem shrinks_erase : Shrinks (pending.erase code) pending :=
  fun _ _ h => (lookup_erase_eq_some_iff.mp h).2

theorem Shrinks.trans {pending'' : Pending} (h : Shrinks pending'' pending')
    (h' : Shrinks pending' pending) : Shrinks pending'' pending :=
  fun code c hlookup => h' code c (h code c hlookup)

theorem Shrinks.len_le (h : Shrinks pending' pending) : pending'.len ≤ pending.len := by
  refine (pending'.keys_nodup.subperm fun code hcode => ?_).length_le
  obtain ⟨c, hc⟩ := Option.isSome_iff_exists.mp (AList.lookup_isSome.mpr (AList.mem_keys.mpr hcode))
  exact AList.mem_keys.mp (AList.lookup_isSome.mp (Option.isSome_iff_exists.mpr ⟨c, h code c hc⟩))

theorem shrinks_removeAll : Shrinks (pending.removeAll codes) pending := by
  induction codes generalizing pending with
  | nil => exact fun _ _ h => h
  | cons code codes ih => exact ih.trans shrinks_erase

theorem keys_erase_eq_filter : (pending.erase code).keys = pending.keys.filter (· ≠ code) := by
  rw [AList.keys_erase, pending.keys_nodup.erase_eq_filter]
  exact List.filter_congr fun other _ => by by_cases h : other = code <;> simp [h]

theorem keys_removeAll :
    (pending.removeAll codes).keys = pending.keys.filter (· ∉ codes) := by
  induction codes generalizing pending with
  | nil => simp [Pending.removeAll]
  | cons code codes ih =>
      rw [Pending.removeAll, List.foldl_cons, ← Pending.removeAll, ih, keys_erase_eq_filter,
        List.filter_filter]
      exact List.filter_congr fun _ _ => by simp [Bool.and_comm]

theorem perm_evictExpired (h : m.order.Perm m.pending.keys) (now : ℕ) :
    (m.evictExpired now).order.Perm (m.evictExpired now).pending.keys := by
  rw [evictExpired]
  dsimp only
  rw [keys_removeAll]
  exact h.filter _

theorem perm_remove (h : m.order.Perm m.pending.keys) (code : String) :
    (m.remove code).order.Perm (m.remove code).pending.keys := by
  rw [remove]
  dsimp only
  rw [keys_erase_eq_filter]
  exact h.filter _

/-- **The eviction loop comes to an end**, since the queue has all the codes of the map. -/
theorem exists_evictOldest (h : order.Perm pending.keys) :
    ∃ order' pending', evictOldest order pending = some (order', pending') ∧
      order'.Perm pending'.keys ∧ pending'.len < maxPending ∧ Shrinks pending' pending := by
  induction order generalizing pending with
  | nil =>
      have hlen : pending.len < maxPending := by
        rw [Pending.len, ← h.length_eq]
        exact Nat.zero_lt_succ _
      exact ⟨[], pending, if_neg (by omega), h, hlen, fun _ _ h => h⟩
  | cons oldCode order ih =>
      -- the oldest code is in the map, so each round makes it smaller
      rw [evictOldest]
      split_ifs with hfull
      · have hrest : order.Perm (pending.erase oldCode).keys := by
          rw [AList.keys_erase]
          simpa using h.erase oldCode
        obtain ⟨order', pending', heq, hperm, hlen, hshrinks⟩ := ih hrest
        exact ⟨order', pending', heq, hperm, hlen, hshrinks.trans shrinks_erase⟩
      · exact ⟨_, pending, rfl, h, by omega, fun _ _ h => h⟩

theorem formatCode_injective : Function.Injective formatCode := by
  intro n n' h
  exact Fin.val_injective (decimal_injective 6 (String.ofList_injective h))

/-- A hundred draws find a free code as long as fewer are taken. -/
theorem exists_generateCode (hlen : pending.len < maxPending) (draws : Draws) :
    ∃ code, generateCode pending draws = some code ∧ code ∉ pending := by
  cases hfind : generateCode pending draws with
  | some code =>
      exact ⟨code, rfl, by simpa using List.find?_some hfind⟩
  | none =>
      exfalso
      have htaken : ∀ code ∈ draws.numbers.dedup.map formatCode, code ∈ pending.keys := by
        intro code hcode
        obtain ⟨n, hn, rfl⟩ := List.mem_map.mp hcode
        have hnone := List.find?_eq_none.mp hfind (formatCode n)
          (List.mem_map_of_mem (List.mem_dedup.mp hn))
        exact AList.mem_keys.mp (by simpa using hnone)
      have hnodup := (draws.numbers.nodup_dedup).map formatCode_injective
      have hle := (hnodup.subperm htaken).length_le
      have henough := draws.enough
      rw [List.length_map] at hle
      rw [Pending.len] at hlen
      omega

theorem mem_entries_iff : (⟨code, c⟩ : Sigma fun _ : String => PairingChallenge) ∈ pending.entries ↔
    pending.lookup code = some c := AList.mem_lookup_iff.symm

theorem existing_eq_some (h : m.existing senderId channel = some c) :
    (∃ code, m.pending.lookup code = some c) ∧ c.senderId = senderId ∧ c.channel = channel := by
  obtain ⟨⟨code, c⟩, hfind, rfl⟩ := Option.map_eq_some_iff.mp h
  exact ⟨⟨code, mem_entries_iff.mp (List.mem_of_find?_eq_some hfind)⟩,
    by simpa using List.find?_some hfind⟩

theorem existing_eq_none (h : m.existing senderId channel = none) :
    ∀ code c, m.pending.lookup code = some c → ¬ (c.senderId = senderId ∧ c.channel = channel) := by
  intro code c hlookup
  simpa using List.find?_eq_none.mp (Option.map_eq_none_iff.mp h) _ (mem_entries_iff.mpr hlookup)

/-- **A challenge is the pending one, or it is new and its code was free.** -/
theorem challenge_cases (horder : m.order.Perm m.pending.keys) (displayName : Option String)
    (draws : Draws) (evictedAt now epochSecs : ℕ) :
    (∃ c, m.existing senderId channel = some c ∧
      m.challenge senderId channel displayName draws evictedAt now epochSecs = some (c, m)) ∨
    m.existing senderId channel = none ∧ ∃ code order pending c,
      c = ⟨code, senderId, channel, displayName, some now, toString epochSecs⟩ ∧
      code ∉ pending ∧ order.Perm pending.keys ∧ pending.len < maxPending ∧
      Shrinks pending m.pending ∧
      m.challenge senderId channel displayName draws evictedAt now epochSecs =
        some (c, ⟨pending.insert code c, order ++ [code], m.expiry⟩) := by
  rw [challenge]
  cases hexisting : m.existing senderId channel with
  | some c => exact .inl ⟨c, rfl, rfl⟩
  | none =>
      right
      obtain ⟨order, pending, hevict, hperm, hlen, hshrinks⟩ :=
        exists_evictOldest (perm_evictExpired horder evictedAt)
      obtain ⟨code, hcode, hfree⟩ := exists_generateCode hlen draws
      refine ⟨rfl, code, order, pending, _, rfl, hfree, hperm, hlen,
        hshrinks.trans shrinks_removeAll, ?_⟩
      simp only [hevict, hcode, Option.bind_eq_bind, Option.bind_some]
      rfl

/-! ### What every call keeps -/

variable {st : DmPairingManager × PairingLog} {log : PairingLog} {call : PairingCall}

/-- What is pending has been returned, and neither approved nor rejected since. -/
structure Tracks (st : DmPairingManager × PairingLog) : Prop where
  orderly : Orderly st.1
  returned : ∀ code c, st.1.pending.lookup code = some c →
    c.code = code ∧ c.createdAt.isSome = true ∧ outstanding code st.2 = some c

theorem tracks_withExpiry (expiry : ℕ) : Tracks (withExpiry expiry, []) where
  orderly := ⟨List.Perm.refl _, Nat.zero_le _, fun _ _ _ _ h => by simp [withExpiry] at h⟩
  returned _ _ h := by simp [withExpiry] at h

/-- Some challenges are dropped. -/
theorem Orderly.shrink (h : Orderly m) (hshrinks : Shrinks pending m.pending)
    (hperm : order.Perm pending.keys) {expiry : ℕ} : Orderly ⟨pending, order, expiry⟩ where
  order := hperm
  bounded := hshrinks.len_le.trans h.bounded
  single code code' c c' hc hc' :=
    h.single code code' c c' (hshrinks code c hc) (hshrinks code' c' hc')

/-- A challenge for a sender who has none. -/
theorem Orderly.insert (h : Orderly m) (hshrinks : Shrinks pending m.pending)
    (hperm : order.Perm pending.keys) (hlen : pending.len < maxPending) (hfree : code ∉ pending)
    (hnone : ∀ code' c', m.pending.lookup code' = some c' →
      ¬ (c'.senderId = c.senderId ∧ c'.channel = c.channel)) {expiry : ℕ} :
    Orderly ⟨pending.insert code c, order ++ [code], expiry⟩ where
  order := by
    dsimp only
    rw [AList.insert_of_notMem hfree]
    exact (List.perm_append_singleton code order).trans (hperm.cons code)
  bounded := by
    dsimp only
    rw [Pending.len, AList.insert_of_notMem hfree]
    exact hlen
  single := by
    intro code₁ code₂ c₁ c₂ h₁ h₂ hsender hchannel
    dsimp only at h₁ h₂
    -- the sender of the new challenge has no other
    by_cases hcode₁ : code₁ = code <;> by_cases hcode₂ : code₂ = code
    · rw [hcode₁, hcode₂]
    · subst hcode₁
      rw [AList.lookup_insert] at h₁
      rw [AList.lookup_insert_ne hcode₂] at h₂
      cases h₁
      exact absurd ⟨hsender.symm, hchannel.symm⟩ (hnone code₂ c₂ (hshrinks _ _ h₂))
    · subst hcode₂
      rw [AList.lookup_insert] at h₂
      rw [AList.lookup_insert_ne hcode₁] at h₁
      cases h₂
      exact absurd ⟨hsender, hchannel⟩ (hnone code₁ c₁ (hshrinks _ _ h₁))
    · rw [AList.lookup_insert_ne hcode₁] at h₁
      rw [AList.lookup_insert_ne hcode₂] at h₂
      exact h.single _ _ _ _ (hshrinks _ _ h₁) (hshrinks _ _ h₂) hsender hchannel

/-- A code is taken out by the owner. -/
theorem Tracks.remove (h : Tracks st) {entry : PairingCall × PairingAnswer}
    (hentry : ∀ other, outstanding other (entry :: st.2) =
      if code = other then none else outstanding other st.2) :
    Tracks (st.1.remove code, entry :: st.2) where
  orderly := h.orderly.shrink shrinks_erase (perm_remove h.orderly.order code)
  returned other c hc := by
    obtain ⟨hne, hc⟩ := lookup_erase_eq_some_iff.mp hc
    rw [hentry, if_neg (Ne.symm hne)]
    exact h.returned other c hc

/-- A code that is not pending. -/
theorem Tracks.miss (h : Tracks st) {entry : PairingCall × PairingAnswer}
    (hentry : ∀ other, outstanding other (entry :: st.2) =
      if code = other then none else outstanding other st.2)
    (hnone : st.1.pending.lookup code = none) : Tracks (st.1, entry :: st.2) where
  orderly := h.orderly
  returned other c hc := by
    have hne : code ≠ other := by
      rintro rfl
      rw [hnone] at hc
      cases hc
    rw [hentry, if_neg hne]
    exact h.returned other c hc

theorem Tracks.onChallenge (h : Tracks st) (displayName : Option String) (draws : Draws)
    (evictedAt now epochSecs : ℕ) :
    Tracks (feed st (.challenge senderId channel displayName draws evictedAt now epochSecs)) := by
  rw [feed, perform]
  rcases challenge_cases h.orderly.order displayName draws evictedAt now epochSecs with
    ⟨c, hexisting, heq⟩ | ⟨hnone, code, order, pending, c, hc, hfree, hperm, hlen, hshrinks, heq⟩
  · rw [heq]
    refine ⟨h.orderly, fun code' c' hc' => ?_⟩
    obtain ⟨⟨code, hc⟩, -, -⟩ := existing_eq_some hexisting
    obtain ⟨hcode, -, -⟩ := h.returned code c hc
    obtain ⟨hcode', hdated, hout⟩ := h.returned code' c' hc'
    refine ⟨hcode', hdated, ?_⟩
    rw [outstanding]
    split_ifs with hsame
    · -- the challenge that is returned again is the outstanding one
      rw [← hcode, hsame, hc'] at hc
      exact hc.symm
    · exact hout
  · rw [heq]
    have hsender : c.senderId = senderId ∧ c.channel = channel := by
      rw [hc]
      exact ⟨rfl, rfl⟩
    refine ⟨h.orderly.insert hshrinks hperm hlen hfree fun code' c' hc' => ?_,
      fun code' c' hc' => ?_⟩
    · rw [hsender.1, hsender.2]
      exact existing_eq_none hnone code' c' hc'
    · dsimp only at hc'
      rw [outstanding]
      by_cases hcode : code' = code
      · subst hcode
        rw [AList.lookup_insert] at hc'
        obtain rfl : c = c' := Option.some.inj hc'
        rw [if_pos (by rw [hc]), hc]
        exact ⟨rfl, rfl, rfl⟩
      · rw [AList.lookup_insert_ne hcode] at hc'
        rw [if_neg (by rw [hc]; exact Ne.symm hcode)]
        exact h.returned code' c' (hshrinks code' c' hc')

/-- Every call keeps the invariant, whatever it finds. -/
theorem Tracks.step (h : Tracks st) (call : PairingCall) : Tracks (feed st call) := by
  cases call with
  | challenge senderId channel displayName draws evictedAt now epochSecs =>
      exact h.onChallenge displayName draws evictedAt now epochSecs
  | approve code now =>
      rw [feed, perform, approve]
      cases hlookup : st.1.pending.lookup code with
      | none => exact h.miss (fun _ => rfl) hlookup
      | some c =>
          dsimp only
          split_ifs
          · exact h.remove fun _ => rfl
          · exact h.remove fun _ => rfl
  | reject code =>
      rw [feed, perform, reject]
      cases hlookup : st.1.pending.lookup code with
      | none => exact h.miss (fun _ => rfl) hlookup
      | some c => exact h.remove fun _ => rfl
  | evictExpired now =>
      exact ⟨h.orderly.shrink shrinks_removeAll (perm_evictExpired h.orderly.order now),
        fun code c hc => h.returned code c (shrinks_removeAll code c hc)⟩

/-- What is approved was returned, and has not expired. -/
theorem Tracks.approved (h : Tracks st)
    (happroved : (st.1.approve code now).1 = .approved senderId) :
    ∃ c created, outstanding code st.2 = some c ∧ c.senderId = senderId ∧
      c.createdAt = some created ∧ now - created ≤ st.1.expiry := by
  rw [approve] at happroved
  cases hlookup : st.1.pending.lookup code with
  | none =>
      rw [hlookup] at happroved
      cases happroved
  | some c =>
      rw [hlookup] at happroved
      dsimp only at happroved
      obtain ⟨-, hdated, hout⟩ := h.returned code c hlookup
      obtain ⟨created, hcreated⟩ := Option.isSome_iff_exists.mp hdated
      split_ifs at happroved with hexpired
      · rw [isExpired, hcreated] at hexpired
        exact ⟨c, created, hout, PairingResult.approved.inj happroved, hcreated,
          by simpa using hexpired⟩

theorem approve_of_lookup (h : m.pending.lookup code = some c) (now : ℕ) :
    (m.approve code now).1 = .approved c.senderId ↔ isExpired m.expiry now c = false := by
  rw [approve, h]
  dsimp only
  split_ifs with hexpired
  · exact iff_of_false (by simp) (by simp [hexpired])
  · exact iff_of_true rfl (by simpa using hexpired)

/-- A challenge that is returned can be approved, unless it is an expired one. -/
theorem Tracks.acceptable_iff (h : Tracks st) (displayName : Option String) (draws : Draws)
    (evictedAt now epochSecs : ℕ) :
    (∃ c, (st.1.perform
        (.challenge senderId channel displayName draws evictedAt now epochSecs)).1 =
          .challenge (some c) ∧ c.senderId = senderId ∧ c.channel = channel ∧
        ((feed st (.challenge senderId channel displayName draws evictedAt now epochSecs)).1.approve
          c.code now).1 = .approved senderId) ↔
      ∀ code c, st.1.pending.lookup code = some c → c.senderId = senderId → c.channel = channel →
        isExpired st.1.expiry now c = false := by
  rw [feed, perform]
  rcases challenge_cases h.orderly.order displayName draws evictedAt now epochSecs with
    ⟨c, hexisting, heq⟩ | ⟨hnone, code, order, pending, c, hc, hfree, hperm, hlen, hshrinks, heq⟩
  · rw [heq]
    obtain ⟨⟨code, hc⟩, hsender, hchannel⟩ := existing_eq_some hexisting
    obtain ⟨hcode, -, -⟩ := h.returned code c hc
    have happrove := approve_of_lookup hc now
    rw [hsender] at happrove
    constructor
    · rintro ⟨c', hc', -, -, happroved⟩ code' other hother hsender' hchannel'
      obtain rfl : c = c' := by simpa using hc'
      -- it is the only one of this sender
      obtain rfl := h.orderly.single code code' c other hc hother (hsender.trans hsender'.symm)
        (hchannel.trans hchannel'.symm)
      obtain rfl := Option.some.inj (hc.symm.trans hother)
      rw [hcode] at happroved
      exact happrove.mp happroved
    · intro hfresh
      refine ⟨c, rfl, hsender, hchannel, ?_⟩
      rw [hcode]
      exact happrove.mpr (hfresh code c hc hsender hchannel)
  · rw [heq]
    refine iff_of_true ⟨c, rfl, by rw [hc], by rw [hc], ?_⟩ fun code' c' hc' hsender hchannel =>
      absurd ⟨hsender, hchannel⟩ (existing_eq_none hnone code' c' hc')
    have hlookup : (pending.insert code c).lookup c.code = some c := by
      rw [hc, AList.lookup_insert]
    dsimp only
    rw [approve, hlookup]
    dsimp only
    rw [if_neg (by simp [isExpired, hc]), hc]

theorem Tracks.conforms_iff_regular (h : Tracks st) (call : PairingCall) :
    Conforms st call ↔ Regular st call := by
  constructor
  · intro hconforms
    cases call with
    | challenge senderId channel displayName draws evictedAt now epochSecs =>
        exact (h.acceptable_iff displayName draws evictedAt now epochSecs).mp
          (hconforms.acceptable _ _ _ _ _ _ _ rfl)
    | approve code now => trivial
    | reject code => trivial
    | evictExpired now => trivial
  · intro hregular
    refine ⟨(h.step call).orderly, ?_, ?_⟩
    · rintro code now senderId rfl happroved
      exact h.approved (PairingAnswer.result.inj happroved)
    · rintro senderId channel displayName draws evictedAt now epochSecs rfl
      exact (h.acceptable_iff displayName draws evictedAt now epochSecs).mpr hregular

/-! ### Every sequence of calls -/

/-- **Every call does what it should exactly when no challenge finds an expired one of the same
sender.** -/
theorem pairing_iff (expiry : ℕ) (calls : List PairingCall) :
    EachStep feed (withExpiry expiry, []) calls Conforms ↔
      EachStep feed (withExpiry expiry, []) calls Regular := by
  refine eachStep_congr (A := fun _ _ => True) Tracks (fun _ _ _ _ => trivial)
    (tracks_withExpiry expiry) ?_ ?_
  · intro _ call htracks _ _
    exact htracks.step call
  · intro _ call htracks _
    exact htracks.conforms_iff_regular call

/-- The numbers from zero on. -/
def ascending : Draws where
  numbers := (List.range 100).map (Fin.ofNat 1000000)
  enough := by decide +kernel

/-- A sender who asks at the given time. -/
def asks (now : ℕ) : PairingCall := .challenge "user1" "telegram" none ascending now now 0

/-- One challenge is pending after the first call. -/
theorem pending_asks : ∃ code c, c.senderId = "user1" ∧ c.channel = "telegram" ∧
    c.createdAt = some 0 ∧ ∀ code' c',
      (feed (withExpiry 300, []) (asks 0)).1.pending.lookup code' = some c' ↔
        code' = code ∧ c' = c := by
  have horder : (withExpiry 300).order.Perm (withExpiry 300).pending.keys := List.Perm.refl _
  rcases @challenge_cases _ "user1" "telegram" horder none ascending 0 0 0 with
    ⟨c, hexisting, -⟩ | ⟨-, code, order, pending, c, hc, -, -, -, hshrinks, heq⟩
  · obtain ⟨⟨code, hlookup⟩, -⟩ := existing_eq_some hexisting
    cases hlookup
  · refine ⟨code, c, by rw [hc], by rw [hc], by rw [hc], fun code' c' => ?_⟩
    have hfeed : (feed (withExpiry 300, []) (asks 0)).1.pending = pending.insert code c := by
      rw [asks, feed, perform, heq]
    rw [hfeed]
    by_cases hcode : code' = code
    · rw [hcode, AList.lookup_insert, Option.some.injEq]
      exact ⟨fun h => ⟨rfl, h.symm⟩, fun h => h.2.symm⟩
    · rw [AList.lookup_insert_ne hcode]
      refine iff_of_false (fun h => ?_) fun h => hcode h.1
      cases hshrinks code' c' h

theorem pairing_iff_twice :
    EachStep feed (withExpiry 300, []) [asks 0, asks 300] Conforms := by
  refine (pairing_iff 300 [asks 0, asks 300]).mpr
    (eachStep_cons.mpr ⟨?_, eachStep_cons.mpr ⟨?_, eachStep_nil⟩⟩)
  · intro code c h
    cases h
  · intro code' c' h _ _
    obtain ⟨code, c, -, -, hcreated, hlookup⟩ := pending_asks
    obtain ⟨-, rfl⟩ := (hlookup code' c').mp h
    rw [isExpired, hcreated]
    rfl

/-- **A sender who asks again gets the expired challenge.** -/
theorem expired_returned :
    ¬ EachStep feed (withExpiry 300, []) [asks 0, asks 301] Conforms := by
  intro h
  obtain ⟨code, c, hsender, hchannel, hcreated, hlookup⟩ := pending_asks
  have htracks : Tracks (feed (withExpiry 300, []) (asks 0)) := (tracks_withExpiry 300).step _
  have hregular := (htracks.conforms_iff_regular (asks 301)).mp (h [asks 0] (asks 301) [] rfl)
  have hfresh := hregular code c ((hlookup code c).mpr ⟨rfl, rfl⟩) hsender hchannel
  rw [isExpired, hcreated] at hfresh
  cases hfresh

end DmPairingManager

end ClawDesk.Security
