import ClawDesk.Foundations.EarliestMatch

/-!
# The content scanner

The scanner searches content for all fixed strings in one pass, then for the regular expressions
one by one, and passes it if nothing of high or critical severity was found.

The one pass reports matches that do not overlap.  A match of a lesser severity that ends
inside of a severe one takes its first characters away, and the severe one is never seen.
So the scanner detects the severe fixed strings exactly if, of those in the content, one comes
first where the pass begins anew (`scan_detects_iff`).
-/

namespace ClawDesk.Security

open Foundations
open Foundations.EarliestMatch (Match IsMatch Reported FindIter)

inductive Severity where
  | info
  | low
  | medium
  | high
  | critical
  deriving DecidableEq

/-- High or critical. -/
def Severity.isSevere (severity : Severity) : Bool := severity = .critical || severity = .high

/-- Tier of the security scan cascade. -/
inductive ScanTier where
  | regex
  | ast
  | semantic
  deriving DecidableEq

/-- Individual finding from a security scan. -/
structure ScanFinding where
  severity : Severity
  rule : String
  description : String
  location : Option String

/-- The result of a scan, without the time it took. -/
structure ScanResult where
  passed : Bool
  tierReached : ScanTier
  findings : List ScanFinding

/-- A regex-based scan pattern. -/
structure ScanPattern (ρ : Type) where
  name : String
  pattern : ρ
  severity : Severity
  description : String

/-- A fixed-string pattern for the Aho-Corasick automaton. -/
structure AcPattern where
  name : String
  needle : String
  severity : Severity
  description : String
  /-- If true, match case-insensitively (needle is stored lowercase). -/
  caseInsensitive : Bool

/-- Configuration for the cascade scanner. -/
structure CascadeScannerConfig (ρ : Type) where
  /-- Maximum content length before flagging as suspicious. -/
  maxContentLength : ℕ
  /-- Patterns for Tier 1 regex scan. -/
  patterns : List (ScanPattern ρ)
  /-- Fixed-string patterns for the AC automaton. -/
  acPatterns : List AcPattern
  /-- Maximum allowed regex pattern length. -/
  maxPatternLength : ℕ

namespace CascadeScannerConfig

def defaultPatterns {ρ : Type} (regexNew : String → ρ) : List (ScanPattern ρ) := [
  { name := "pii_email"
    pattern := regexNew "[a-zA-Z0-9._%+-]+@[a-zA-Z0-9.-]+\\.[a-zA-Z]\x7b2,\x7d"
    severity := .medium
    description := "Email address detected" },
  { name := "secret_api_key"
    pattern := regexNew "sk-[a-zA-Z0-9]\x7b20,\x7d"
    severity := .critical
    description := "Potential API secret key detected" },
  { name := "secret_bearer_token"
    pattern := regexNew "(?i)bearer\\s+[a-zA-Z0-9._\\-]\x7b20,\x7d"
    severity := .high
    description := "Bearer token detected" },
  { name := "injection_sql"
    pattern := regexNew "(?i)(union\\s+select|drop\\s+table|;\\s*delete\\s+from)"
    severity := .high
    description := "Potential SQL injection pattern" },
  { name := "injection_path_traversal"
    pattern := regexNew "\\.\\./\\.\\./"
    severity := .high
    description := "Path traversal attempt" }]

/-- Fixed-string patterns compiled into a single Aho-Corasick automaton. -/
def defaultAcPatterns : List AcPattern := [
  { name := "ast_eval", needle := "eval(", severity := .high
    description := "Potentially dangerous eval() call", caseInsensitive := true },
  { name := "ast_exec", needle := "exec(", severity := .high
    description := "Potentially dangerous exec() call", caseInsensitive := true },
  { name := "ast_script", needle := "<script", severity := .high
    description := "Script tag injection", caseInsensitive := true },
  { name := "ast_javascript_uri", needle := "javascript:", severity := .high
    description := "JavaScript URI scheme", caseInsensitive := true },
  { name := "ast_data_html", needle := "data:text/html", severity := .high
    description := "Data URI HTML injection", caseInsensitive := true },
  { name := "ac_password_field", needle := "password", severity := .medium
    description := "Password field detected", caseInsensitive := true },
  { name := "ac_private_key", needle := "-----begin", severity := .critical
    description := "PEM private key header detected", caseInsensitive := true }]

def default {ρ : Type} (regexNew : String → ρ) : CascadeScannerConfig ρ where
  maxContentLength := 100000
  patterns := defaultPatterns regexNew
  acPatterns := defaultAcPatterns
  maxPatternLength := 512

end CascadeScannerConfig

/-! ### What the scanner takes from elsewhere -/

/-- The bytes of a text. -/
def utf8 (s : String) : List UInt8 := s.toUTF8.toList

/-- A byte under ASCII case folding. -/
def foldByte (b : UInt8) : UInt8 := if 65 ≤ b ∧ b ≤ 90 then b + 32 else b

/-- A text under ASCII case folding. -/
def folded (s : String) : List UInt8 := (utf8 s).map foldByte

/-- The functions of the libraries that the scanner calls. -/
structure ScanEngine (ρ : Type) where
  /-- `str::to_lowercase`. -/
  toLowercase : String → String
  /-- `AhoCorasick::find_iter`, of an automaton that ignores the case of ASCII letters. -/
  findIter : {k : ℕ} → (Fin k → List UInt8) → List UInt8 → List (Match k)
  /-- `Regex::as_str`. -/
  asStr : ρ → String
  /-- `Regex::is_match`. -/
  isMatch : ρ → String → Bool
  /-- `Regex::find`, the start and the end of a match. -/
  find : ρ → String → Option (ℕ × ℕ)

/-- **The automaton's matches** are standard: as soon as they end, and without overlap. -/
def ScanEngine.Standard {ρ : Type} (engine : ScanEngine ρ) : Prop :=
  ∀ {k : ℕ} (needles : Fin k → List UInt8) (hay : List UInt8),
    FindIter (fun i => (needles i).map foldByte) (hay.map foldByte) 0 none
      (engine.findIter needles hay)

/-! ### The scanner -/

/-- What the automaton searches for. -/
def AcPattern.stored (toLowercase : String → String) (pattern : AcPattern) : String :=
  if pattern.caseInsensitive then toLowercase pattern.needle else pattern.needle

/-- 3-tier cascade content scanner with Aho-Corasick acceleration. -/
structure CascadeScanner (ρ : Type) where
  config : CascadeScannerConfig ρ
  /-- The needles that the automaton was built from. -/
  acAutomaton : Fin config.acPatterns.length → List UInt8

/-- `offset {start}..{end}`. -/
def offsets (start stop : ℕ) : String := "offset " ++ toString start ++ ".." ++ toString stop

namespace CascadeScanner

section Scan

variable {ρ : Type} (engine : ScanEngine ρ)

def new (config : CascadeScannerConfig ρ) : CascadeScanner ρ where
  config := { config with
    patterns := config.patterns.filter fun p =>
      !(config.maxPatternLength < (engine.asStr p.pattern).utf8ByteSize : Bool) }
  acAutomaton i := utf8 ((config.acPatterns.get i).stored engine.toLowercase)

/-- A finding is pushed, and a critical one returned. -/
def push (findings : List ScanFinding) (finding : ScanFinding) :
    Except ScanResult (List ScanFinding) :=
  if finding.severity = .critical then .error ⟨false, .regex, findings ++ [finding]⟩
  else .ok (findings ++ [finding])

variable (scanner : CascadeScanner ρ) (content : String)

def acFinding (mat : Match scanner.config.acPatterns.length) : ScanFinding :=
  let pattern := scanner.config.acPatterns.get mat.pattern
  { severity := pattern.severity
    rule := pattern.name
    description := pattern.description
    location := some (offsets mat.start mat.stop) }

def regexFinding (pattern : ScanPattern ρ) : ScanFinding where
  severity := pattern.severity
  rule := pattern.name
  description := pattern.description
  location := (engine.find pattern.pattern content).map fun m => offsets m.1 m.2

/-- What is flagged about the size of the content. -/
def oversizeFindings : List ScanFinding :=
  if scanner.config.maxContentLength < content.utf8ByteSize then
    [{ severity := .medium
       rule := "ast_oversize"
       description := "Content exceeds max length (" ++ toString content.utf8ByteSize ++ " > " ++
         toString scanner.config.maxContentLength ++ ")"
       location := none }]
  else []

/-- The cascade.  An error is the result of an early return. -/
def cascade : Except ScanResult ScanResult := do
  -- Tier 0.5: Aho-Corasick single-pass
  let findings ← (engine.findIter scanner.acAutomaton (utf8 content)).foldlM
    (fun findings mat => push findings (acFinding scanner mat)) []
  -- Tier 1: Regex patterns
  let findings ← scanner.config.patterns.foldlM (fun findings pattern =>
    if engine.isMatch pattern.pattern content then
      push findings (regexFinding engine content pattern)
    else pure findings) findings
  -- Tier 2: AST / structural checks
  let findings := findings ++ oversizeFindings scanner content
  pure ⟨!(findings.any fun f => f.severity.isSevere), .semantic, findings⟩

/-- Scan content through the cascade.  Short-circuits on Critical findings. -/
def scan : ScanResult :=
  match cascade engine scanner content with
  | .ok result => result
  | .error result => result

end Scan

/-! ### What a scan finds -/

section Findings

variable {ρ : Type} {engine : ScanEngine ρ} {scanner : CascadeScanner ρ} {content : String}

/-- Findings without a critical one are all pushed. -/
theorem foldlM_push_of_not_critical {findings : List ScanFinding}
    (h : ∀ f ∈ findings, f.severity ≠ .critical) (before : List ScanFinding) :
    findings.foldlM push before = .ok (before ++ findings) := by
  induction findings generalizing before with
  | nil => simp [pure, Except.pure]
  | cons f findings ih =>
      rw [List.foldlM_cons, push, if_neg (h f List.mem_cons_self)]
      change findings.foldlM push (before ++ [f]) = _
      rw [ih fun f hf => h f (List.mem_cons_of_mem _ hf), List.append_assoc]
      rfl

/-- A critical finding is returned. -/
theorem foldlM_push_of_critical {findings : List ScanFinding}
    (h : ∃ f ∈ findings, f.severity = .critical) (before : List ScanFinding) :
    ∃ result, findings.foldlM push before = .error result ∧ result.passed = false := by
  induction findings generalizing before with
  | nil => simp at h
  | cons f findings ih =>
      rw [List.foldlM_cons]
      by_cases hf : f.severity = .critical
      · exact ⟨_, by rw [push, if_pos hf]; rfl, rfl⟩
      · rw [push, if_neg hf]
        obtain ⟨g, hg, hcritical⟩ := h
        rcases List.mem_cons.mp hg with rfl | hg
        · exact absurd hcritical hf
        · exact ih ⟨g, hg, hcritical⟩ _

/-- The findings of the automaton. -/
def acFindings (engine : ScanEngine ρ) (scanner : CascadeScanner ρ) (content : String) :
    List ScanFinding :=
  (engine.findIter scanner.acAutomaton (utf8 content)).map (acFinding scanner)

/-- The findings of the regular expressions. -/
def regexFindings (engine : ScanEngine ρ) (scanner : CascadeScanner ρ) (content : String) :
    List ScanFinding :=
  (scanner.config.patterns.filter fun p => engine.isMatch p.pattern content).map
    (regexFinding engine content)

/-- The two passes push one list of findings. -/
theorem cascade_eq : cascade engine scanner content = (do
    let findings ← (acFindings engine scanner content ++
      regexFindings engine scanner content).foldlM push []
    let findings := findings ++ oversizeFindings scanner content
    pure ⟨!(findings.any fun f => f.severity.isSevere), .semantic, findings⟩) := by
  unfold cascade acFindings regexFindings
  simp only [List.foldlM_append, List.foldlM_map, List.foldlM_filter, bind_assoc]

theorem not_severe_of_mem_oversize {f : ScanFinding} (h : f ∈ oversizeFindings scanner content) :
    f.severity.isSevere = false := by
  unfold oversizeFindings at h
  split_ifs at h
  · obtain rfl := List.mem_singleton.mp h
    rfl
  · cases h

/-- **A scan fails** on a severe finding of the automaton or of a regular expression. -/
theorem scan_passed_eq_false_iff : (scan engine scanner content).passed = false ↔
    (∃ f ∈ acFindings engine scanner content, f.severity.isSevere = true) ∨
      ∃ f ∈ regexFindings engine scanner content, f.severity.isSevere = true := by
  rw [← exists_or]
  simp only [← or_and_right, ← List.mem_append]
  rw [scan, cascade_eq]
  generalize acFindings engine scanner content ++ regexFindings engine scanner content = findings
  by_cases hcritical : ∃ f ∈ findings, f.severity = .critical
  · obtain ⟨result, hresult, hpassed⟩ := foldlM_push_of_critical hcritical []
    obtain ⟨f, hf, hcritical⟩ := hcritical
    rw [hresult]
    exact iff_of_true hpassed ⟨f, hf, by rw [hcritical]; rfl⟩
  · rw [foldlM_push_of_not_critical (by simpa using hcritical), List.nil_append]
    change (!((findings ++ _).any _)) = false ↔ _
    rw [Bool.not_eq_false', List.any_append, Bool.or_eq_true, List.any_eq_true]
    refine or_iff_left ?_
    rw [List.any_eq_true]
    rintro ⟨f, hf, hsevere⟩
    rw [not_severe_of_mem_oversize hf] at hsevere
    cases hsevere

end Findings

/-! ### What a scan should find -/

section Detects

variable {ρ : Type} (engine : ScanEngine ρ) (config : CascadeScannerConfig ρ) (content : String)

/-- A severe fixed string occurs in the content, under ASCII case folding. -/
def HasSevere : Prop :=
  ∃ p ∈ config.acPatterns, p.severity.isSevere = true ∧ folded p.needle <:+: folded content

/-- A severe regular expression of the scanner matches the content. -/
def MatchesSevere : Prop :=
  ∃ p ∈ (new engine config).config.patterns, p.severity.isSevere = true ∧
    engine.isMatch p.pattern content = true

/-- **No severe pattern goes unseen.** -/
structure Detects : Prop where
  fails : HasSevere config content → (scan engine (new engine config) content).passed = false
  passes : (scan engine (new engine config) content).passed = true →
    ¬ HasSevere config content ∧ ¬ MatchesSevere engine config content

/-- What the automaton searches for, under ASCII case folding. -/
def needles (i : Fin config.acPatterns.length) : List UInt8 :=
  folded ((config.acPatterns.get i).stored engine.toLowercase)

/-- A match of a severe fixed string comes first from a place where the pass begins anew. -/
def ReportsSevere : Prop :=
  ∃ m, Reported (needles engine config) (folded content) m ∧
    (config.acPatterns.get m.pattern).severity.isSevere = true

variable {engine config content}

/-- What the automaton finds is what is reported of its needles. -/
theorem mem_findIter_iff (hstandard : engine.Standard) {m : Match config.acPatterns.length} :
    m ∈ engine.findIter (new engine config).acAutomaton (utf8 content) ↔
      Reported (needles engine config) (folded content) m :=
  (hstandard _ _).mem_iff

theorem scan_fails_iff (hstandard : engine.Standard) :
    (scan engine (new engine config) content).passed = false ↔
      ReportsSevere engine config content ∨ MatchesSevere engine config content := by
  rw [scan_passed_eq_false_iff]
  refine or_congr ?_ ?_
  · unfold acFindings ReportsSevere
    simp only [List.mem_map, exists_exists_and_eq_and, ← mem_findIter_iff hstandard]
    rfl
  · unfold regexFindings MatchesSevere
    simp only [List.mem_map, exists_exists_and_eq_and, List.mem_filter]
    exact exists_congr fun p => ⟨fun ⟨⟨hp, hmatch⟩, hsevere⟩ => ⟨hp, hsevere, hmatch⟩,
      fun ⟨hp, hsevere, hmatch⟩ => ⟨⟨hp, hmatch⟩, hsevere⟩⟩

/-- **When no severe pattern goes unseen**: no severe fixed string occurs, or a severe regular
expression matches, or a match of a severe fixed string comes first where the pass begins
anew. -/
theorem scan_detects_iff (hstandard : engine.Standard) (config : CascadeScannerConfig ρ)
    (content : String) : Detects engine config content ↔
      ¬ HasSevere config content ∨ MatchesSevere engine config content ∨
        ReportsSevere engine config content := by
  have hfails := @scan_fails_iff _ _ config content hstandard
  constructor
  · intro h
    by_cases hsevere : HasSevere config content
    · exact Or.inr (hfails.mp (h.fails hsevere)).symm
    · exact Or.inl hsevere
  · intro h
    have hpasses : (scan engine (new engine config) content).passed = true →
        ¬ ReportsSevere engine config content ∧ ¬ MatchesSevere engine config content := by
      rw [← not_or, ← hfails, Bool.not_eq_false]
      exact id
    refine ⟨fun hsevere => ?_, fun hpassed => ?_⟩
    · rcases h with hnot | h
      · exact absurd hsevere hnot
      · exact hfails.mpr h.symm
    · obtain ⟨hreports, hmatches⟩ := hpasses hpassed
      rcases h with hnot | h | h
      · exact ⟨hnot, hmatches⟩
      · exact absurd h hmatches
      · exact absurd h hreports

/-- An occurrence is seen if no lesser needle ends inside of it. -/
theorem scan_fails_of_undisturbed (hstandard : engine.Standard)
    (hne : ∀ i, needles engine config i ≠ []) {m : Match config.acPatterns.length}
    (hm : IsMatch (needles engine config) (folded content) m)
    (hsevere : ∀ m', IsMatch (needles engine config) (folded content) m' → m.start < m'.stop →
      m'.stop ≤ m.stop → (config.acPatterns.get m'.pattern).severity.isSevere = true) :
    (scan engine (new engine config) content).passed = false := by
  have hiter := @hstandard _ (new engine config).acAutomaton (utf8 content)
  obtain ⟨m', hm', hstart, hstop⟩ := hiter.exists_within (by simp) hne hm (Nat.zero_le _)
  have hreported := (mem_findIter_iff hstandard).mp hm'
  obtain ⟨s, last, -, hfirst, -⟩ := id hreported
  exact (scan_fails_iff hstandard).mpr
    (Or.inl ⟨m', hreported, hsevere m' hfirst.isMatch hstart hstop⟩)

end Detects

/-- An engine that searches in one pass and whose regular expressions match nothing. -/
def plainEngine : ScanEngine String where
  toLowercase s := String.ofList (s.toList.map Char.toLower)
  findIter needles hay :=
    EarliestMatch.findIter (fun i => (needles i).map foldByte) (hay.map foldByte)
  asStr := id
  isMatch _ _ := false
  find _ _ := none

theorem plainEngine_standard : plainEngine.Standard := fun _ _ => EarliestMatch.findIter_spec

/-- `eval(` is seen. -/
theorem scan_detects_eval : Detects plainEngine (.default id) "please run Eval(x)" := by
  refine (scan_detects_iff plainEngine_standard _ _).mpr
    (Or.inr (Or.inr ⟨⟨⟨0, by decide⟩, 11, 16⟩, ?_, rfl⟩))
  rw [← mem_findIter_iff plainEngine_standard]
  change _ ∈ EarliestMatch.findIter (needles plainEngine (.default id))
    (folded "please run Eval(x)")
  decide +kernel

/-- The last character of `password` hides `data:text/html`. -/
theorem password_hides_data : plainEngine.Standard ∧
    ¬ Detects plainEngine (.default id) "passwordata:text/html" := by
  refine ⟨plainEngine_standard, fun h => ?_⟩
  have hsevere : HasSevere (.default (@id String)) "passwordata:text/html" := by
    unfold HasSevere
    decide +kernel
  exact absurd (h.fails hsevere) (by decide +kernel)

end CascadeScanner

end ClawDesk.Security
