import ClawDesk.Foundations.Fold
import ClawDesk.Foundations.JsonTree
import Mathlib.Data.List.DropRight
import Mathlib.Order.Nat

/-!
# The tool loop guard

A guard counts the calls of a round by a hash of the tool's name and the arguments, and keeps the
newest tool names in a ring.  It is right about a call where two readings agree
(`verdicts_correct_iff`).

* The hash reads every number as a double.  Integers that are rounded to the same double are
  counted together, and so are `1` and `1.0`; the two zeros are equal and counted apart.
* The ring forgets.  One that is shorter than the alternation it looks for never sees it.

The hasher is a parameter: an injective function of the values that are written to it.
-/

namespace ClawDesk.Agents.ToolLoopGuard

open Foundations

/-! ### Arguments -/

/-- The numbers of a JSON value. -/
inductive Number where
  | posInt (n : UInt64)
  /-- Always less than zero. -/
  | negInt (n : Int64) (h : n < 0)
  /-- Always finite. -/
  | float (x : Float) (h : x.isFinite = true)

namespace Number

/-- `==` -/
def eq : Number → Number → Bool
  | posInt n, posInt m => n == m
  | negInt n _, negInt m _ => n == m
  | float x _, float y _ => x == y
  | _, _ => false

/-- `as_f64` -/
def asF64 : Number → Option Float
  | posInt n => some n.toFloat
  | negInt n _ => some (.ofModel (.ofInt64 n))
  | float x _ => some x

/-- What the hasher is given of a number. -/
def toBits (n : Number) : UInt64 := (n.asF64.getD (.ofBits 0)).toBits

/-- Two numbers that the hasher does not tell apart. -/
def sameDouble (n m : Number) : Bool := n.toBits == m.toBits

end Number

/-- The arguments of a call. -/
abbrev Value : Type := JsonTree Number

/-- What is written to the hasher. -/
inductive Written where
  | u8 (n : UInt8)
  | u64 (n : UInt64)
  | usize (n : ℕ)
  | bytes (s : String)
  deriving DecidableEq

/-- A string writes its bytes and an end. -/
def hashStr (s : String) : List Written := [.bytes s, .u8 0xFF]

mutual

/-- Recursively hash a value. -/
def hashValue : Value → List Written
  | .null => [.u8 0]
  | .bool b => [.u8 1, .u8 b.toUInt8]
  | .number n => [.u8 2, .u64 n.toBits]
  | .string s => .u8 3 :: hashStr s
  | .array items => .u8 4 :: .usize items.length :: hashItems items
  | .object members => .u8 5 :: .usize members.length :: hashMembers members

def hashItems : List Value → List Written
  | [] => []
  | v :: rest => hashValue v ++ hashItems rest

def hashMembers : List (String × Value) → List Written
  | [] => []
  | (name, v) :: rest => hashStr name ++ hashValue v ++ hashMembers rest

end

/-! ### The guard -/

/-- Verdict issued by the loop guard for a tool call. -/
inductive LoopVerdict where
  | allow
  | warn (count : ℕ)
  | block (count : ℕ)
  | circuitBreak (count : ℕ)
  deriving DecidableEq

/-- Configuration for the loop guard thresholds. -/
structure LoopGuardConfig where
  /-- Number of identical calls before issuing a `warn`. -/
  warnThreshold : ℕ
  /-- Number of identical calls before blocking. -/
  blockThreshold : ℕ
  /-- Number of identical calls before circuit-breaking the entire round. -/
  circuitThreshold : ℕ
  /-- Size of the ring buffer for ping-pong detection. -/
  ringSize : ℕ
  /-- Number of 2-tool cycle repetitions to trigger the ping-pong block. -/
  pingPongThreshold : ℕ

instance : Inhabited LoopGuardConfig := ⟨3, 5, 8, 16, 4⟩

/-- Tracks call patterns and issues verdicts. -/
structure LoopGuard (H : Type) where
  config : LoopGuardConfig
  /-- Call hashes and their counts. -/
  callCounts : H → ℕ
  /-- Recent tool names, the newest last. -/
  ring : List String
  /-- Total calls tracked. -/
  totalCalls : ℕ
  /-- Whether the circuit breaker has been tripped. -/
  circuitBroken : Bool

namespace LoopGuard

variable {H : Type}

/-- A guard that has seen no call. -/
def new (config : LoopGuardConfig) : LoopGuard H := ⟨config, fun _ => 0, [], 0, false⟩

/-- Reset the guard state. -/
def reset (guard : LoopGuard H) : LoopGuard H :=
  { guard with callCounts := fun _ => 0, ring := [], totalCalls := 0, circuitBroken := false }

/-- Push a tool name into the ring buffer. -/
def pushRing (ringSize : ℕ) (ring : List String) (name : String) : List String :=
  let ring := if ringSize ≤ ring.length then ring.tail else ring
  ring ++ [name]

/-- The alternating pairs that end at a place of the ring. -/
def pairsBack (ring : List String) (a b : String) : ℕ → ℕ
  | i + 2 => if ring[i]? = some a ∧ ring[i + 1]? = some b then pairsBack ring a b i + 1 else 0
  | _ => 0

/-- Detect two tools alternating repeatedly. -/
def detectPingPong (pingPongThreshold : ℕ) (ring : List String) : Bool :=
  if ring.length < 4 then false
  else
    match ring[ring.length - 2]?, ring[ring.length - 1]? with
    | some a, some b => a ≠ b && pingPongThreshold ≤ pairsBack ring a b ring.length
    | _, _ => false

variable (fx : List Written → H)

/-- The hash of a tool's name and its arguments. -/
def hashCall (toolName : String) (args : Value) : H :=
  fx (hashStr toolName ++ .u8 0xFF :: hashValue args)

variable [DecidableEq H]

/-- Check a tool call and return a verdict. -/
def check (guard : LoopGuard H) (toolName : String) (args : Value) : LoopVerdict × LoopGuard H :=
  if guard.circuitBroken then (.circuitBreak guard.totalCalls, guard)
  else
    let hash := hashCall fx toolName args
    let current := guard.callCounts hash + 1
    let guard := { guard with
      callCounts := fun h => if h = hash then current else guard.callCounts h
      ring := pushRing guard.config.ringSize guard.ring toolName
      totalCalls := guard.totalCalls + 1 }
    if detectPingPong guard.config.pingPongThreshold guard.ring then
      (.circuitBreak current, { guard with circuitBroken := true })
    else if guard.config.circuitThreshold ≤ current then
      (.circuitBreak current, { guard with circuitBroken := true })
    else if guard.config.blockThreshold ≤ current then (.block current, guard)
    else if guard.config.warnThreshold ≤ current then (.warn current, guard)
    else (.allow, guard)

end LoopGuard

/-! ### What is written of a call -/

attribute [simp] hashValue hashItems hashMembers Number.sameDouble

theorem hashStr_append_iff {a b : String} {s t : List Written} :
    hashStr a ++ s = hashStr b ++ t ↔ a = b ∧ s = t := by
  simp [hashStr]

theorem toUInt8_inj {b b' : Bool} : b.toUInt8 = b'.toUInt8 ↔ b = b' := by
  cases b <;> cases b' <;> decide

mutual

/-- **What is written of a value ends where the value does.** -/
theorem hashValue_append_iff : ∀ (v w : Value) (s t : List Written),
    hashValue v ++ s = hashValue w ++ t ↔ v.eqBy Number.sameDouble w = true ∧ s = t
  | .null, w, s, t => by cases w <;> simp
  | .bool b, w, s, t => by cases w <;> simp [toUInt8_inj]
  | .number n, w, s, t => by cases w <;> simp
  | .string a, w, s, t => by cases w <;> simp [hashStr_append_iff]
  | .array items, w, s, t => by
      cases w with
      | array items' =>
          simp only [hashValue, List.cons_append, List.cons.injEq, true_and, Written.usize.injEq,
            JsonTree.eqBy]
          constructor
          · rintro ⟨hlen, h⟩
            exact (hashItems_append_iff items items' hlen s t).mp h
          · rintro ⟨heq, hrest⟩
            have hlen := JsonTree.length_eq_of_eqItems heq
            exact ⟨hlen, (hashItems_append_iff items items' hlen s t).mpr ⟨heq, hrest⟩⟩
      | null | bool | number | string | object => simp
  | .object members, w, s, t => by
      cases w with
      | object members' =>
          simp only [hashValue, List.cons_append, List.cons.injEq, true_and, Written.usize.injEq,
            JsonTree.eqBy]
          constructor
          · rintro ⟨hlen, h⟩
            exact (hashMembers_append_iff members members' hlen s t).mp h
          · rintro ⟨heq, hrest⟩
            have hlen := JsonTree.length_eq_of_eqMembers heq
            exact ⟨hlen, (hashMembers_append_iff members members' hlen s t).mpr ⟨heq, hrest⟩⟩
      | null | bool | number | string | array => simp

theorem hashItems_append_iff : ∀ (items items' : List Value), items.length = items'.length →
    ∀ s t : List Written, hashItems items ++ s = hashItems items' ++ t ↔
      JsonTree.eqItems Number.sameDouble items items' = true ∧ s = t
  | [], [], _, s, t => by simp
  | v :: rest, w :: rest', hlen, s, t => by
      have hrest := hashItems_append_iff rest rest' (Nat.succ.inj hlen) s t
      rw [hashItems, hashItems, List.append_assoc, List.append_assoc, hashValue_append_iff v w,
        hrest, JsonTree.eqItems, Bool.and_eq_true, and_assoc]

theorem hashMembers_append_iff : ∀ (members members' : List (String × Value)),
    members.length = members'.length →
    ∀ s t : List Written, hashMembers members ++ s = hashMembers members' ++ t ↔
      JsonTree.eqMembers Number.sameDouble members members' = true ∧ s = t
  | [], [], _, s, t => by simp
  | (name, v) :: rest, (name', w) :: rest', hlen, s, t => by
      have hrest := hashMembers_append_iff rest rest' (Nat.succ.inj hlen) s t
      rw [hashMembers, hashMembers, List.append_assoc, List.append_assoc, List.append_assoc,
        List.append_assoc, hashStr_append_iff, hashValue_append_iff v w, hrest,
        JsonTree.eqMembers, Bool.and_eq_true, Bool.and_eq_true, beq_iff_eq, and_assoc, and_assoc]

end

/-- Calls have one hash where the hasher is given the same. -/
theorem hashCall_eq_iff {H : Type} {fx : List Written → H} (hfx : Function.Injective fx)
    {tool tool' : String} {args args' : Value} :
    LoopGuard.hashCall fx tool args = LoopGuard.hashCall fx tool' args' ↔
      tool = tool' ∧ args.eqBy Number.sameDouble args' = true := by
  have hvalue := hashValue_append_iff args args' [] []
  rw [List.append_nil, List.append_nil] at hvalue
  rw [LoopGuard.hashCall, LoopGuard.hashCall, hfx.eq_iff, hashStr_append_iff, List.cons.injEq,
    hvalue]
  simp only [and_true, true_and]

/-! ### The ring -/

section Ring

open LoopGuard

variable {ring names : List String} {a b name : String} {k n i : ℕ}

/-- Pushing a name keeps the newest ones. -/
theorem pushRing_rtake (ringSize : ℕ) (names : List String) (name : String) :
    pushRing ringSize (names.rtake (max ringSize 1)) name =
      (names ++ [name]).rtake (max ringSize 1) := by
  obtain ⟨k, hk⟩ : ∃ k, max ringSize 1 = k + 1 := Nat.exists_eq_add_of_le' (le_max_right _ _)
  rw [hk, List.rtake_concat_succ, pushRing]
  refine congrArg (· ++ [name]) ?_
  unfold List.rtake
  rw [List.length_drop]
  split_ifs with hfull
  · rw [List.tail_drop]
    rcases Nat.lt_or_ge k names.length with hlt | hge
    · rw [show names.length - (k + 1) + 1 = names.length - k by omega]
    · -- A ring of size zero is asked to drop a name that it does not have.
      have hnil : names = [] := List.length_eq_zero_iff.mp (by omega)
      rw [hnil, List.drop_nil, List.drop_nil]
  · rw [show names.length - (k + 1) = names.length - k by omega]

/-- A pair of names several times over. -/
def pingPong (n : ℕ) (a b : String) : List String := (List.replicate n [a, b]).flatten

theorem pingPong_succ : pingPong (n + 1) a b = pingPong n a b ++ [a, b] := by
  rw [pingPong, List.replicate_succ', List.flatten_append, pingPong, List.flatten_singleton]

@[simp] theorem length_pingPong : (pingPong n a b).length = 2 * n := by
  induction n with
  | zero => rfl
  | succ n ih =>
      rw [pingPong_succ, List.length_append, ih]
      rfl

theorem concat_suffix_concat {α : Type} {l l' : List α} {x y : α} :
    l ++ [x] <:+ l' ++ [y] ↔ l <:+ l' ∧ x = y := by
  rw [List.suffix_concat_iff]
  simp only [List.append_eq_nil_iff, List.cons_ne_nil, and_false, false_or]
  constructor
  · rintro ⟨u, heq, hu⟩
    obtain ⟨rfl, hlast⟩ := List.append_inj' heq rfl
    exact ⟨hu, List.singleton_inj.mp hlast⟩
  · rintro ⟨h, rfl⟩
    exact ⟨l, rfl, h⟩

/-- The pairs that end at a place are those of the longest alternation that does. -/
theorem le_pairsBack_iff (hi : i ≤ ring.length) :
    n ≤ pairsBack ring a b i ↔ pingPong n a b <:+ ring.take i := by
  induction n generalizing i with
  | zero => exact iff_of_true (Nat.zero_le _) (List.nil_suffix)
  | succ n ih =>
      match i with
      | 0 | 1 =>
          refine iff_of_false (Nat.not_succ_le_zero n) fun h => ?_
          have hlen := h.length_le
          rw [length_pingPong, List.length_take] at hlen
          omega
      | i + 2 =>
          have hfirst : ring[i]? = some ring[i] := List.getElem?_eq_getElem (by omega)
          have hsecond : ring[i + 1]? = some ring[i + 1] := List.getElem?_eq_getElem (by omega)
          have htake : ring.take (i + 2) = ring.take i ++ [ring[i]] ++ [ring[i + 1]] := by
            rw [List.take_succ_eq_append_getElem (by omega),
              List.take_succ_eq_append_getElem (by omega)]
          rw [htake, pingPong_succ, show [a, b] = [a] ++ [b] from rfl, ← List.append_assoc,
            concat_suffix_concat, concat_suffix_concat, ← ih (by omega), pairsBack]
          simp only [hfirst, hsecond, Option.some.injEq]
          split_ifs with heq
          · simp only [Nat.add_le_add_iff_right, heq.1, heq.2, and_true]
          · refine iff_of_false (Nat.not_succ_le_zero n) ?_
            rintro ⟨⟨-, rfl⟩, rfl⟩
            exact heq ⟨rfl, rfl⟩

/-- The newest names are a pair of different tools, several times over. -/
def Alternates (n : ℕ) (names : List String) : Prop :=
  ∃ a ∈ names, ∃ b ∈ names, a ≠ b ∧ pingPong n a b <:+ names

instance : Decidable (Alternates n names) := inferInstanceAs (Decidable (∃ a ∈ names, _))

theorem alternates_iff (hn : 0 < n) :
    Alternates n names ↔ ∃ a b, a ≠ b ∧ pingPong n a b <:+ names := by
  constructor
  · rintro ⟨a, -, b, -, h⟩
    exact ⟨a, b, h⟩
  · rintro ⟨a, b, hne, hsuffix⟩
    obtain ⟨n, rfl⟩ := Nat.exists_eq_add_of_le' hn
    have hpair : ∀ x ∈ [a, b], x ∈ names := fun x hx =>
      hsuffix.subset (pingPong_succ ▸ List.mem_append_right _ hx)
    exact ⟨a, hpair a (by simp), b, hpair b (by simp), hne, hsuffix⟩

/-- What the newest names are after an alternation. -/
theorem getElem?_of_pingPong_suffix (hn : 0 < n) (h : pingPong n a b <:+ ring) :
    ring[ring.length - 2]? = some a ∧ ring[ring.length - 1]? = some b := by
  obtain ⟨n, rfl⟩ := Nat.exists_eq_add_of_le' hn
  obtain ⟨front, rfl⟩ := h
  rw [pingPong_succ, ← List.append_assoc]
  generalize front ++ pingPong n a b = rest
  simp

theorem detectPingPong_iff (hn : 2 ≤ n) :
    detectPingPong n ring = true ↔ ∃ a b, a ≠ b ∧ pingPong n a b <:+ ring := by
  unfold detectPingPong
  split_ifs with hshort
  · refine iff_of_false id ?_
    rintro ⟨a, b, -, hsuffix⟩
    have hlen := hsuffix.length_le
    rw [length_pingPong] at hlen
    omega
  · have hx : ring[ring.length - 2]? = some ring[ring.length - 2] :=
      List.getElem?_eq_getElem (by omega)
    have hy : ring[ring.length - 1]? = some ring[ring.length - 1] :=
      List.getElem?_eq_getElem (by omega)
    rw [hx, hy]
    simp only [Bool.and_eq_true, decide_eq_true_iff, le_pairsBack_iff le_rfl, List.take_length]
    constructor
    · exact fun h => ⟨_, _, h⟩
    · rintro ⟨a, b, hne, hsuffix⟩
      obtain ⟨ha, hb⟩ := getElem?_of_pingPong_suffix (by omega) hsuffix
      rw [Option.some.inj (hx.symm.trans ha), Option.some.inj (hy.symm.trans hb)]
      exact ⟨hne, hsuffix⟩

/-- **The ring shows an alternation that it is long enough for.** -/
theorem detectPingPong_rtake_iff (hn : 2 ≤ n) :
    detectPingPong n (names.rtake k) = true ↔ Alternates n names ∧ 2 * n ≤ k := by
  rw [detectPingPong_iff hn, alternates_iff (by omega)]
  have hrtake : names.rtake k <:+ names := List.drop_suffix _ _
  constructor
  · rintro ⟨a, b, hne, hsuffix⟩
    refine ⟨⟨a, b, hne, hsuffix.trans hrtake⟩, ?_⟩
    have hlen := hsuffix.length_le
    rw [length_pingPong, List.rtake, List.length_drop] at hlen
    omega
  · rintro ⟨⟨a, b, hne, hsuffix⟩, hk⟩
    refine ⟨a, b, hne, List.suffix_of_suffix_length_le hsuffix hrtake ?_⟩
    have hlen := hsuffix.length_le
    rw [length_pingPong] at hlen
    rw [length_pingPong, List.rtake, List.length_drop]
    omega

end Ring

/-! ### A round -/

/-- A call of a tool. -/
structure Call where
  toolName : String
  args : Value

/-- Two calls of one tool with equal arguments. -/
def Call.same (call other : Call) : Bool :=
  call.toolName == other.toolName && call.args.eqBy Number.eq other.args

namespace LoopVerdict

def isCircuitBreak : LoopVerdict → Bool
  | circuitBreak _ => true
  | _ => false

end LoopVerdict

namespace LoopGuardConfig

/-- The thresholds of each verdict. -/
def classify (config : LoopGuardConfig) (count : ℕ) : LoopVerdict :=
  if count < config.warnThreshold then .allow
  else if count < config.blockThreshold then .warn count
  else if count < config.circuitThreshold then .block count
  else .circuitBreak count

/-- The verdict on a call, from all that came before it. -/
def verdict (config : LoopGuardConfig) (calls : List Call) (call : Call) : LoopVerdict :=
  let count := calls.countP (·.same call) + 1
  if Alternates config.pingPongThreshold ((calls ++ [call]).map Call.toolName) then
    .circuitBreak count
  else config.classify count

end LoopGuardConfig

/-- What happens to a guard. -/
inductive Event where
  | check (call : Call)
  | reset

/-- A guard, with its verdicts since it was reset. -/
structure Round (H : Type) where
  guard : LoopGuard H
  history : List (Call × LoopVerdict)

section Round

variable {H : Type} [DecidableEq H] (fx : List Written → H) (config : LoopGuardConfig)

def Round.step (round : Round H) : Event → Round H
  | .check call =>
      let (verdict, guard) := round.guard.check fx call.toolName call.args
      ⟨guard, round.history ++ [(call, verdict)]⟩
  | .reset => ⟨round.guard.reset, []⟩

/-- A new guard after some events. -/
def run (events : List Event) : Round H := events.foldl (Round.step fx) ⟨.new config, []⟩

/-- The circuit breaker has tripped. -/
def Tripped (before : List (Call × LoopVerdict)) : Prop :=
  ∃ entry ∈ before, entry.2.isCircuitBreak = true

instance {before : List (Call × LoopVerdict)} : Decidable (Tripped before) :=
  inferInstanceAs (Decidable (∃ entry ∈ before, entry.2.isCircuitBreak = true))

/-- A verdict is the one that the calls so far ask for, and just the equal ones are counted with
the call; behind a tripped breaker nothing passes. -/
structure Correct (before : List (Call × LoopVerdict)) (call : Call) (verdict : LoopVerdict) :
    Prop where
  tripped : Tripped before → verdict.isCircuitBreak = true
  counted : ¬ Tripped before → ∀ entry ∈ before,
    (LoopGuard.hashCall fx entry.1.toolName entry.1.args =
      LoopGuard.hashCall fx call.toolName call.args ↔ entry.1.same call = true)
  verdict_eq : ¬ Tripped before → verdict = config.verdict (before.map Prod.fst) call

/-- No earlier call of the tool is confused with a call or wrongly told from it, and an
alternation that it completes fits in the ring, or the call is one too many in any case. -/
structure Meets (calls : List Call) (call : Call) : Prop where
  doubles : ∀ c ∈ calls, c.toolName = call.toolName →
    c.args.eqBy Number.sameDouble call.args = c.args.eqBy Number.eq call.args
  ring : Alternates config.pingPongThreshold ((calls ++ [call]).map Call.toolName) →
    2 * config.pingPongThreshold ≤ config.ringSize ∨
      config.circuitThreshold ≤ calls.countP (·.same call) + 1

/-- What a guard keeps of the calls that it has let pass. -/
structure Tracks (calls : List Call) (guard : LoopGuard H) : Prop where
  config_eq : guard.config = config
  callCounts_eq : ∀ h, guard.callCounts h =
    calls.countP fun c => LoopGuard.hashCall fx c.toolName c.args = h
  ring_eq : guard.ring = (calls.map Call.toolName).rtake (max config.ringSize 1)
  circuitBroken_eq : guard.circuitBroken = false

/-- The verdict of a guard that keeps these calls. -/
def given (calls : List Call) (call : Call) : LoopVerdict :=
  let current := (calls.countP fun c => LoopGuard.hashCall fx c.toolName c.args =
    LoopGuard.hashCall fx call.toolName call.args) + 1
  if LoopGuard.detectPingPong config.pingPongThreshold
      (((calls ++ [call]).map Call.toolName).rtake (max config.ringSize 1)) then
    .circuitBreak current
  else if config.circuitThreshold ≤ current then .circuitBreak current
  else if config.blockThreshold ≤ current then .block current
  else if config.warnThreshold ≤ current then .warn current
  else .allow

/-- What holds of a guard and of its verdicts since it was reset. -/
structure Recorded (round : Round H) : Prop where
  config_eq : round.guard.config = config
  tracks : ¬ Tripped round.history → Tracks fx config (round.history.map Prod.fst) round.guard
  circuitBroken : Tripped round.history → round.guard.circuitBroken = true
  entries : ∀ front call verdict back, round.history = front ++ (call, verdict) :: back →
    (Tripped front → verdict.isCircuitBreak = true) ∧
      (¬ Tripped front → verdict = given fx config (front.map Prod.fst) call)

variable {fx config} {calls : List Call} {call : Call} {guard : LoopGuard H} {round : Round H}
  {before : List (Call × LoopVerdict)} {verdict : LoopVerdict}

theorem tripped_concat :
    Tripped (before ++ [(call, verdict)]) ↔ Tripped before ∨ verdict.isCircuitBreak = true := by
  simp [Tripped, or_and_right, exists_or]

theorem tracks_nil (h : guard.config = config) : Tracks fx config [] guard.reset where
  config_eq := h
  callCounts_eq := fun _ => rfl
  ring_eq := by simp [LoopGuard.reset, List.rtake]
  circuitBroken_eq := rfl

/-- A call of a guard whose breaker has not tripped. -/
theorem check_of_tracks (h : Tracks fx config calls guard) (call : Call) :
    (guard.check fx call.toolName call.args).1 = given fx config calls call ∧
      ((given fx config calls call).isCircuitBreak = true →
        (guard.check fx call.toolName call.args).2.circuitBroken = true) ∧
      (¬ (given fx config calls call).isCircuitBreak = true →
        Tracks fx config (calls ++ [call]) (guard.check fx call.toolName call.args).2) := by
  have hring : LoopGuard.pushRing guard.config.ringSize guard.ring call.toolName =
      ((calls ++ [call]).map Call.toolName).rtake (max config.ringSize 1) := by
    rw [h.config_eq, h.ring_eq, pushRing_rtake, List.map_append, List.map_singleton]
  have hnext : Tracks fx config (calls ++ [call]) { guard with
      callCounts := fun hash =>
        if hash = LoopGuard.hashCall fx call.toolName call.args then
          guard.callCounts (LoopGuard.hashCall fx call.toolName call.args) + 1
        else guard.callCounts hash
      ring := LoopGuard.pushRing guard.config.ringSize guard.ring call.toolName
      totalCalls := guard.totalCalls + 1 } := by
    refine ⟨h.config_eq, fun hash => ?_, hring, h.circuitBroken_eq⟩
    rw [List.countP_append, List.countP_singleton]
    by_cases heq : hash = LoopGuard.hashCall fx call.toolName call.args
    · simp [heq, h.callCounts_eq]
    · simp [heq, Ne.symm heq, h.callCounts_eq]
  obtain rfl := h.config_eq
  unfold LoopGuard.check given
  rw [if_neg (by simp [h.circuitBroken_eq]), ← h.callCounts_eq, ← hring]
  dsimp only
  split_ifs
  · exact ⟨rfl, fun _ => rfl, fun hnot => absurd rfl hnot⟩
  · exact ⟨rfl, fun _ => rfl, fun hnot => absurd rfl hnot⟩
  all_goals exact ⟨rfl, fun hbreak => (by cases hbreak), fun _ => hnext⟩

theorem check_config {toolName : String} {args : Value} :
    (guard.check fx toolName args).2.config = guard.config := by
  unfold LoopGuard.check
  split_ifs
  · rfl
  · dsimp only
    split_ifs <;> rfl

theorem Recorded.start : Recorded fx config ⟨.new config, []⟩ where
  config_eq := rfl
  tracks := fun _ => @tracks_nil H _ fx config (.new config) rfl
  circuitBroken := by simp [Tripped]
  entries := by simp

/-- Each event is recorded. -/
theorem Recorded.step (h : Recorded fx config round) (event : Event) :
    Recorded fx config (round.step fx event) := by
  cases event with
  | reset =>
      refine ⟨h.config_eq, fun _ => tracks_nil h.config_eq, ?_, ?_⟩
      · simp [Round.step, Tripped]
      · simp [Round.step]
  | check call =>
      by_cases htripped : Tripped round.history
      · have hcheck : round.guard.check fx call.toolName call.args =
            (.circuitBreak round.guard.totalCalls, round.guard) := by
          rw [LoopGuard.check, if_pos (h.circuitBroken htripped)]
        simp only [Round.step, hcheck]
        refine ⟨h.config_eq, fun hnot => absurd (tripped_concat.mpr (.inl htripped)) hnot,
          fun _ => h.circuitBroken htripped, ?_⟩
        intro front call' verdict back hsplit
        rcases concat_eq_append_cons hsplit with ⟨rfl, heq, -⟩ | ⟨init, -, hinit⟩
        · cases heq
          exact ⟨fun _ => rfl, fun hnot => absurd htripped hnot⟩
        · exact h.entries front call' verdict init hinit
      · obtain ⟨hverdict, hbroken, hpass⟩ := check_of_tracks (h.tracks htripped) call
        have hconfig : (round.guard.check fx call.toolName call.args).2.config = config :=
          check_config.trans h.config_eq
        refine ⟨hconfig, fun hnot => ?_, fun hbreak => ?_, ?_⟩
        · rw [Round.step, List.map_append]
          exact hpass fun hbreak => hnot (tripped_concat.mpr (.inr (hverdict ▸ hbreak)))
        · rcases tripped_concat.mp hbreak with hbefore | hcall
          · exact absurd hbefore htripped
          · exact hbroken (hverdict ▸ hcall)
        · intro front call' verdict back hsplit
          rcases concat_eq_append_cons hsplit with ⟨rfl, heq, -⟩ | ⟨init, -, hinit⟩
          · cases heq
            exact ⟨fun hbefore => absurd hbefore htripped, fun _ => hverdict⟩
          · exact h.entries front call' verdict init hinit

/-- **Every run is recorded.** -/
theorem recorded_run (events : List Event) : Recorded fx config (run fx config events) := by
  induction events using List.reverseRecOn with
  | nil => exact Recorded.start
  | append_singleton events event ih =>
      rw [run, List.foldl_append]
      exact ih.step event

omit [DecidableEq H] in
/-- The hasher tells apart just the calls that differ where no number is misread. -/
theorem counted_iff (hfx : Function.Injective fx) :
    (∀ c ∈ calls, (LoopGuard.hashCall fx c.toolName c.args =
      LoopGuard.hashCall fx call.toolName call.args ↔ c.same call = true)) ↔
    ∀ c ∈ calls, c.toolName = call.toolName →
      c.args.eqBy Number.sameDouble call.args = c.args.eqBy Number.eq call.args := by
  refine forall₂_congr fun c _ => ?_
  rw [hashCall_eq_iff hfx, Call.same, Bool.and_eq_true, beq_iff_eq]
  by_cases hname : c.toolName = call.toolName
  · simp only [hname, true_and, forall_const]
    exact Bool.eq_iff_iff.symm
  · simp only [hname, false_and, false_implies]

/-- The thresholds in the order that the guard tests them in. -/
theorem classify_eq (hblock : config.warnThreshold ≤ config.blockThreshold)
    (hcircuit : config.blockThreshold ≤ config.circuitThreshold) (count : ℕ) :
    config.classify count =
      if config.circuitThreshold ≤ count then .circuitBreak count
      else if config.blockThreshold ≤ count then .block count
      else if config.warnThreshold ≤ count then .warn count
      else .allow := by
  unfold LoopGuardConfig.classify
  split_ifs <;> first | rfl | omega

theorem classify_eq_circuitBreak_iff (hblock : config.warnThreshold ≤ config.blockThreshold)
    (hcircuit : config.blockThreshold ≤ config.circuitThreshold) {count : ℕ} :
    config.classify count = .circuitBreak count ↔ config.circuitThreshold ≤ count := by
  rw [classify_eq hblock hcircuit]
  split_ifs with h <;> simp [h]

/-- The verdict where the equal calls are those that are counted. -/
theorem given_eq (hblock : config.warnThreshold ≤ config.blockThreshold)
    (hcircuit : config.blockThreshold ≤ config.circuitThreshold)
    (hpingPong : 2 ≤ config.pingPongThreshold)
    (hcounted : ∀ c ∈ calls, (LoopGuard.hashCall fx c.toolName c.args =
      LoopGuard.hashCall fx call.toolName call.args ↔ c.same call = true)) :
    given fx config calls call =
      if Alternates config.pingPongThreshold ((calls ++ [call]).map Call.toolName) ∧
          2 * config.pingPongThreshold ≤ config.ringSize then
        .circuitBreak (calls.countP (·.same call) + 1)
      else config.classify (calls.countP (·.same call) + 1) := by
  have hcount : (calls.countP fun c => LoopGuard.hashCall fx c.toolName c.args =
      LoopGuard.hashCall fx call.toolName call.args) = calls.countP (·.same call) :=
    List.countP_congr fun c hc => by rw [decide_eq_true_iff, hcounted c hc]
  have hring : 2 * config.pingPongThreshold ≤ max config.ringSize 1 ↔
      2 * config.pingPongThreshold ≤ config.ringSize := by omega
  rw [given, hcount, classify_eq hblock hcircuit]
  simp only [detectPingPong_rtake_iff hpingPong, hring]

/-- **A call is counted with its equals, and its verdict is right, just where no number is misread
and the ring is long enough.** -/
theorem given_eq_iff (hfx : Function.Injective fx)
    (hblock : config.warnThreshold ≤ config.blockThreshold)
    (hcircuit : config.blockThreshold ≤ config.circuitThreshold)
    (hpingPong : 2 ≤ config.pingPongThreshold) :
    ((∀ c ∈ calls, (LoopGuard.hashCall fx c.toolName c.args =
        LoopGuard.hashCall fx call.toolName call.args ↔ c.same call = true)) ∧
      given fx config calls call = config.verdict calls call) ↔ Meets config calls call := by
  have hverdict : (∀ c ∈ calls, (LoopGuard.hashCall fx c.toolName c.args =
      LoopGuard.hashCall fx call.toolName call.args ↔ c.same call = true)) →
      (given fx config calls call = config.verdict calls call ↔
        (Alternates config.pingPongThreshold ((calls ++ [call]).map Call.toolName) →
          2 * config.pingPongThreshold ≤ config.ringSize ∨
            config.circuitThreshold ≤ calls.countP (·.same call) + 1)) := by
    intro hcounted
    rw [given_eq hblock hcircuit hpingPong hcounted, LoopGuardConfig.verdict]
    by_cases halternates :
        Alternates config.pingPongThreshold ((calls ++ [call]).map Call.toolName)
    · by_cases hring : 2 * config.pingPongThreshold ≤ config.ringSize
      · rw [if_pos ⟨halternates, hring⟩, if_pos halternates]
        exact iff_of_true rfl fun _ => .inl hring
      · rw [if_neg fun h => hring h.2, if_pos halternates,
          classify_eq_circuitBreak_iff hblock hcircuit]
        simp only [halternates, hring, forall_const, false_or]
    · rw [if_neg fun h => halternates h.1, if_neg halternates]
      exact iff_of_true rfl fun h => absurd h halternates
  constructor
  · rintro ⟨hcounted, heq⟩
    exact ⟨(counted_iff hfx).mp hcounted, (hverdict hcounted).mp heq⟩
  · intro h
    have hcounted := (counted_iff hfx).mpr h.doubles
    exact ⟨hcounted, (hverdict hcounted).mpr h.ring⟩

/-- **Since a reset, every verdict is the one that the calls so far ask for just where every call
that finds the breaker closed meets the condition.** -/
theorem verdicts_correct_iff (fx : List Written → H) (hfx : Function.Injective fx)
    (config : LoopGuardConfig)
    (hblock : config.warnThreshold ≤ config.blockThreshold)
    (hcircuit : config.blockThreshold ≤ config.circuitThreshold)
    (hpingPong : 2 ≤ config.pingPongThreshold) (events : List Event) :
    (∀ before call verdict after,
      (run fx config events).history = before ++ (call, verdict) :: after →
      Correct fx config before call verdict) ↔
    ∀ before call verdict after,
      (run fx config events).history = before ++ (call, verdict) :: after →
      ¬ Tripped before → Meets config (before.map Prod.fst) call := by
  have hrecorded : Recorded fx config (run fx config events) := recorded_run events
  constructor
  · intro hcorrect before call verdict after hsplit htripped
    have h := hcorrect before call verdict after hsplit
    obtain ⟨-, hgiven⟩ := hrecorded.entries before call verdict after hsplit
    rw [← given_eq_iff hfx hblock hcircuit hpingPong, ← hgiven htripped]
    refine ⟨fun c hc => ?_, h.verdict_eq htripped⟩
    obtain ⟨entry, hentry, rfl⟩ := List.mem_map.mp hc
    exact h.counted htripped entry hentry
  · intro hmeets before call verdict after hsplit
    obtain ⟨hbroken, hgiven⟩ := hrecorded.entries before call verdict after hsplit
    refine ⟨hbroken, fun htripped entry hentry => ?_, fun htripped => ?_⟩
    · have h := hmeets before call verdict after hsplit htripped
      exact ((given_eq_iff hfx hblock hcircuit hpingPong).mpr h).1 _
        (List.mem_map_of_mem hentry)
    · have h := hmeets before call verdict after hsplit htripped
      rw [hgiven htripped]
      exact ((given_eq_iff hfx hblock hcircuit hpingPong).mpr h).2

theorem verdicts_correct_iff_single :
    (∀ before call verdict after,
      (run id default [.check ⟨"read", .null⟩]).history = before ++ (call, verdict) :: after →
      Correct id default before call verdict) ↔
    ∀ before call verdict after,
      (run id default [.check ⟨"read", .null⟩]).history = before ++ (call, verdict) :: after →
      ¬ Tripped before → Meets default (before.map Prod.fst) call :=
  verdicts_correct_iff id Function.injective_id default (by decide) (by decide) (by decide)
    [.check ⟨"read", .null⟩]

/-- A guard that warns of a second call, is right about the first one, and looks for three pairs of
tools in a ring of four. -/
def narrow : LoopGuardConfig := ⟨2, 3, 9, 4, 3⟩

/-- Two integers that are one double are counted together, two zeros are counted apart, and six
calls of two tools in turn go through. -/
theorem verdicts_not_correct :
    (∃ before call verdict,
      (run id narrow [.check ⟨"read", .number (.posInt 9007199254740992)⟩,
        .check ⟨"read", .number (.posInt 9007199254740993)⟩]).history =
          before ++ [(call, verdict)] ∧ ¬ Correct id narrow before call verdict) ∧
    (∃ before call verdict,
      (run id narrow [.check ⟨"read", .number (.float (.ofBits 0) (by decide +kernel))⟩,
        .check ⟨"read", .number (.float (.ofBits 9223372036854775808)
          (by decide +kernel))⟩]).history =
          before ++ [(call, verdict)] ∧ ¬ Correct id narrow before call verdict) ∧
    ∃ before call verdict,
      (run id narrow [.check ⟨"read", .null⟩, .check ⟨"write", .null⟩, .check ⟨"read", .null⟩,
        .check ⟨"write", .null⟩, .check ⟨"read", .null⟩, .check ⟨"write", .null⟩]).history =
          before ++ [(call, verdict)] ∧ ¬ Correct id narrow before call verdict := by
  refine ⟨⟨[_], _, _, rfl, ?_⟩, ⟨[_], _, _, rfl, ?_⟩, ⟨[_, _, _, _, _], _, _, rfl, ?_⟩⟩
  · exact fun h => absurd (h.verdict_eq (by decide +kernel)) (by decide +kernel)
  · exact fun h => absurd (h.verdict_eq (by decide +kernel)) (by decide +kernel)
  · exact fun h => absurd (h.verdict_eq (by decide +kernel)) (by decide +kernel)

end Round

end ClawDesk.Agents.ToolLoopGuard
