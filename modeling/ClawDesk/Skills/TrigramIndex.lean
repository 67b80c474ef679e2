import ClawDesk.Foundations.Fold
import ClawDesk.Skills.StoreSync
import Mathlib.Algebra.Group.Nat.Defs
import Mathlib.Data.List.Infix

/-!
# Trigram search in the skill store

Every document is listed under the trigrams of bytes that it contains, by its number in 32 bits.  A
query takes the shortest list among those of its trigrams, and counts for each document in it how
many of them it contains.

With no more documents than there are numbers of 32 bits, nothing that contains the query is missed,
and nothing comes twice (`search_build_spec`).  The conversion to lower case is a parameter.
-/

namespace ClawDesk.Skills

open Foundations

/-- A window of three bytes. -/
abbrev Trigram := UInt8 × UInt8 × UInt8

/-- A trigram search index for string documents. -/
structure TrigramIndex where
  /-- Posting lists: trigram → sorted list of document indices. -/
  postings : AList fun _ : Trigram => List ℕ
  /-- Original indexed strings (lowercase). -/
  documents : List String
  /-- Total number of trigrams across all documents. -/
  totalTrigrams : ℕ

namespace TrigramIndex

/-- `windows(3)`. -/
def windows : List UInt8 → List Trigram
  | a :: b :: c :: rest => (a, b, c) :: windows (b :: c :: rest)
  | _ => []

/-- The trigrams, each where it is first seen. -/
def distinct (trigrams : List Trigram) : List Trigram :=
  trigrams.foldl (fun seen t => if t ∈ seen then seen else seen ++ [t]) []

/-- The whole of a very short string, filled up with blanks. -/
def padded (bytes : List UInt8) : Trigram :=
  (bytes[0]?.getD 32, bytes[1]?.getD 32, bytes[2]?.getD 32)

/-- What a document is listed under. -/
def keys (bytes : List UInt8) : List Trigram :=
  if bytes.length < 3 then
    if bytes = [] then [] else [padded bytes]
  else distinct (windows bytes)

/-- `as u32`. -/
def asU32 (i : ℕ) : ℕ := i % 2 ^ 32

/-- A document is listed under a trigram. -/
def post (idx : ℕ) (index : TrigramIndex) (key : Trigram) : TrigramIndex :=
  { index with
    postings := index.postings.insert key ((index.postings.lookup key).getD [] ++ [asU32 idx])
    totalTrigrams := index.totalTrigrams + 1 }

/-- One round of the loop that builds the index. -/
def addDocument (index : TrigramIndex) (lower : String) : TrigramIndex :=
  let idx := index.documents.length
  (keys (textBytes lower)).foldl (post idx) { index with documents := index.documents ++ [lower] }

/-- `dedup` of a sorted list. -/
def dedup : List ℕ → List ℕ
  | a :: b :: rest => if a = b then dedup (b :: rest) else a :: dedup (b :: rest)
  | l => l

/-- A posting list, sorted. -/
def sorted (list : List ℕ) : List ℕ := dedup (list.mergeSort fun a b => decide (a ≤ b))

/-- The postings, with every list sorted. -/
def sortPostings (postings : AList fun _ : Trigram => List ℕ) : AList fun _ : Trigram => List ℕ :=
  ⟨postings.entries.map fun entry => ⟨entry.1, sorted entry.2⟩, by
    have h := postings.nodupKeys
    rw [List.NodupKeys, List.keys] at h ⊢
    rwa [List.map_map]⟩

variable (toLowercase : String → String)

/-- Build a trigram index from a set of documents. -/
def build (texts : List String) : TrigramIndex :=
  let index := texts.foldl (fun index text => addDocument index (toLowercase text)) ⟨∅, [], 0⟩
  { index with postings := sortPostings index.postings }

/-- `contains`, which compares bytes. -/
def containsText (doc query : String) : Bool := decide (textBytes query <:+: textBytes doc)

/-- The shortest of the posting lists of some trigrams, the first of them; at first any list is
shorter. -/
def shortestList (index : TrigramIndex) (trigrams : List Trigram) : Option (List ℕ) :=
  trigrams.foldl (fun shortest trigram =>
    match index.postings.lookup trigram, shortest with
    | none, _ => shortest
    | some list, none => some list
    | some list, some best => if list.length < best.length then some list else shortest) none

/-- How many of the trigrams a document contains. -/
def countMatches (trigrams : List Trigram) (doc : String) : ℕ :=
  trigrams.countP fun t => t ∈ windows (textBytes doc)

/-- Score a candidate; none if there is no such document. -/
def score (index : TrigramIndex) (trigrams : List Trigram) (scores : AList fun _ : ℕ => ℕ)
    (docId : ℕ) : Option (AList fun _ : ℕ => ℕ) :=
  index.documents[docId]?.map fun doc =>
    let count := countMatches trigrams doc
    if 0 < count then scores.insert docId count else scores

/-- Search the index for documents matching the query; none if a candidate is no document. -/
def search (it : HashOrder (ℕ × ℕ)) (index : TrigramIndex) (query : String) : Option (List ℕ) :=
  let lower := toLowercase query
  if (textBytes lower).length < 3 then
    some ((index.documents.zipIdx.filter fun doc => containsText doc.1 lower).map
      fun doc => asU32 doc.2)
  else
    let queryTrigrams := distinct (windows (textBytes lower))
    if queryTrigrams = [] then some []
    else
      match shortestList index queryTrigrams with
      | none => some []
      | some candidates =>
          (candidates.foldlM (score index queryTrigrams) ∅).map fun scores =>
            let results := it.order (scores.entries.map fun entry => (entry.1, entry.2))
            (results.mergeSort fun a b => decide (b.2 ≤ a.2)).map (·.1)

/-! ### Trigrams -/

variable {bytes doc query : List UInt8} {trigrams : List Trigram} {t key : Trigram}

theorem mem_windows_iff {a b c : UInt8} : (a, b, c) ∈ windows bytes ↔ [a, b, c] <:+: bytes := by
  fun_induction windows bytes with
  | case1 x y z rest ih =>
      have hcons : [a, b, c] <:+: x :: y :: z :: rest ↔
          [a, b, c] <+: x :: y :: z :: rest ∨ [a, b, c] <:+: y :: z :: rest :=
        List.infix_cons_iff
      rw [List.mem_cons, ih, hcons]
      refine or_congr_left ?_
      simp
  | case2 bytes hshort =>
      refine iff_of_false List.not_mem_nil fun hwithin => ?_
      have hlength := hwithin.length_le
      rcases bytes with _ | ⟨x, _ | ⟨y, _ | ⟨z, rest⟩⟩⟩
      · exact absurd hlength (by simp)
      · exact absurd hlength (by simp)
      · exact absurd hlength (by simp)
      · exact hshort x y z rest rfl

/-- What is contained has no other trigrams. -/
theorem windows_subset (h : query <:+: doc) : windows query ⊆ windows doc := by
  rintro ⟨a, b, c⟩ ht
  exact mem_windows_iff.mpr ((mem_windows_iff.mp ht).trans h)

theorem windows_ne_nil (h : 3 ≤ bytes.length) : windows bytes ≠ [] := by
  rcases bytes with _ | ⟨x, _ | ⟨y, _ | ⟨z, rest⟩⟩⟩
  · exact absurd h (by simp)
  · exact absurd h (by simp)
  · exact absurd h (by simp)
  · exact List.cons_ne_nil _ _

theorem distinct_snoc (trigrams : List Trigram) (t : Trigram) : distinct (trigrams ++ [t]) =
    if t ∈ distinct trigrams then distinct trigrams else distinct trigrams ++ [t] := by
  rw [distinct, List.foldl_append]
  rfl

theorem mem_distinct : t ∈ distinct trigrams ↔ t ∈ trigrams := by
  induction trigrams using List.reverseRecOn with
  | nil => exact Iff.rfl
  | append_singleton trigrams last ih =>
      rw [distinct_snoc, List.mem_append, ← ih, List.mem_singleton]
      split_ifs with hlast
      · exact (or_iff_left_of_imp fun heq => heq ▸ hlast).symm
      · rw [List.mem_append, List.mem_singleton]

/-- A document that is not very short is listed under its trigrams. -/
theorem mem_keys_iff (h : 3 ≤ bytes.length) : t ∈ keys bytes ↔ t ∈ windows bytes := by
  rw [keys, if_neg (not_lt.mpr h), mem_distinct]

/-! ### The index -/

variable {index : TrigramIndex} {idx id : ℕ}

/-- The documents listed under a trigram. -/
def listed (index : TrigramIndex) (key : Trigram) : List ℕ := (index.postings.lookup key).getD []

theorem foldl_post (ks : List Trigram) (index : TrigramIndex) :
    (ks.foldl (post idx) index).documents = index.documents ∧
      ∀ key id, id ∈ listed (ks.foldl (post idx) index) key ↔
        id ∈ listed index key ∨ key ∈ ks ∧ id = asU32 idx := by
  induction ks generalizing index with
  | nil => simp
  | cons k ks ih =>
      obtain ⟨hdocuments, hlisted⟩ := ih (post idx index k)
      refine ⟨hdocuments, fun key id => ?_⟩
      rw [List.foldl_cons, hlisted, listed, post]
      rcases eq_or_ne key k with rfl | hne
      · rw [AList.lookup_insert, Option.getD_some, List.mem_append, List.mem_singleton]
        simp only [listed, List.mem_cons]
        tauto
      · rw [AList.lookup_insert_ne hne]
        simp only [listed, List.mem_cons, hne, false_or]

/-- Every document is listed under its keys, by its number in 32 bits. -/
def Lists (index : TrigramIndex) : Prop :=
  ∀ key id, id ∈ listed index key ↔
    ∃ i doc, index.documents[i]? = some doc ∧ key ∈ keys (textBytes doc) ∧ id = asU32 i

theorem Lists.addDocument (h : Lists index) (lower : String) : Lists (addDocument index lower) := by
  obtain ⟨hdocuments, hlisted⟩ := @foldl_post index.documents.length (keys (textBytes lower))
    { index with documents := index.documents ++ [lower] }
  intro key id
  unfold TrigramIndex.addDocument
  dsimp only
  rw [hlisted, hdocuments]
  constructor
  · rintro (hold | ⟨hkey, rfl⟩)
    · obtain ⟨i, doc, hdoc, hkey, rfl⟩ := (h key id).mp hold
      refine ⟨i, doc, ?_, hkey, rfl⟩
      rw [List.getElem?_append_left (List.getElem?_eq_some_iff.mp hdoc).1, hdoc]
    · exact ⟨_, lower, List.getElem?_concat_length, hkey, rfl⟩
  · rintro ⟨i, doc, hdoc, hkey, rfl⟩
    rw [List.getElem?_append] at hdoc
    split_ifs at hdoc with hi
    · exact Or.inl ((h key _).mpr ⟨i, doc, hdoc, hkey, rfl⟩)
    · obtain ⟨hlast, rfl⟩ := List.getElem?_eq_some_iff.mp hdoc
      have heq : i = index.documents.length := by
        rw [List.length_singleton] at hlast
        omega
      subst heq
      refine Or.inr ⟨?_, rfl⟩
      simpa using hkey

theorem mem_dedup {list : List ℕ} : id ∈ dedup list ↔ id ∈ list := by
  fun_induction dedup list with
  | case1 a rest ih =>
      simp only [ih, List.mem_cons]
      tauto
  | case2 a b rest hne ih => rw [List.mem_cons, ih, ← List.mem_cons]
  | case3 => exact Iff.rfl

theorem lookup_sortPostings (postings : AList fun _ : Trigram => List ℕ) (key : Trigram) :
    (sortPostings postings).lookup key = (postings.lookup key).map sorted := by
  exact @List.dlookup_map₂ Trigram _ (fun _ => List ℕ) (fun _ => List ℕ) postings.entries
    (fun _ => sorted) key

theorem documents_foldl (texts : List String) (index : TrigramIndex) :
    (texts.foldl (fun index text => addDocument index (toLowercase text)) index).documents =
      index.documents ++ texts.map toLowercase := by
  induction texts generalizing index with
  | nil => exact (List.append_nil _).symm
  | cons text texts ih =>
      rw [List.foldl_cons, ih, addDocument, (foldl_post _ _).1, List.append_assoc]
      rfl

theorem documents_build (texts : List String) :
    (build toLowercase texts).documents = texts.map toLowercase := by
  unfold build
  dsimp only
  rw [documents_foldl]
  rfl

/-- **The index lists every document under its keys.** -/
theorem lists_build (texts : List String) : Lists (build toLowercase texts) := by
  have hbuilt : Lists (texts.foldl (fun index text => addDocument index (toLowercase text))
      ⟨∅, [], 0⟩) := by
    refine List.foldlRecOn (motive := Lists) texts _ ?_ fun index h text _ => h.addDocument _
    intro key id
    simp [listed]
  intro key id
  refine Iff.trans ?_ (hbuilt key id)
  rw [listed, listed, build, lookup_sortPostings]
  cases hlookup : (texts.foldl (fun index text => addDocument index (toLowercase text))
      ⟨∅, [], 0⟩).postings.lookup key with
  | none => exact Iff.rfl
  | some list =>
      show id ∈ sorted list ↔ id ∈ list
      rw [sorted, mem_dedup, List.mem_mergeSort]

/-! ### The search -/

variable {toLowercase} {it : HashOrder (ℕ × ℕ)} {texts : List String} {candidates : List ℕ}

/-- The shortest list is one of the lists of the trigrams; there is none only if nothing is listed
under any of them. -/
theorem shortestList_cases (index : TrigramIndex) (trigrams : List Trigram) :
    (shortestList index trigrams = none ∧ ∀ t ∈ trigrams, index.postings.lookup t = none) ∨
      ∃ list, shortestList index trigrams = some list ∧
        ∃ t ∈ trigrams, index.postings.lookup t = some list := by
  induction trigrams using List.reverseRecOn with
  | nil => exact Or.inl ⟨rfl, fun t ht => absurd ht List.not_mem_nil⟩
  | append_singleton trigrams last ih =>
      unfold shortestList at ih ⊢
      rw [List.foldl_append, List.foldl_cons, List.foldl_nil]
      cases hlast : index.postings.lookup last with
      | none =>
          rcases ih with ⟨hnone, hall⟩ | ⟨list, hlist, t, ht, hlookup⟩
          · refine Or.inl ⟨hnone, fun t ht => ?_⟩
            rcases List.mem_append.mp ht with ht | ht
            · exact hall t ht
            · rw [List.mem_singleton.mp ht, hlast]
          · exact Or.inr ⟨list, hlist, t, List.mem_append_left _ ht, hlookup⟩
      | some new =>
          refine Or.inr ?_
          rcases ih with ⟨hnone, -⟩ | ⟨list, hlist, t, ht, hlookup⟩
          · rw [hnone]
            exact ⟨new, rfl, last, by simp, hlast⟩
          · rw [hlist]
            dsimp only
            split_ifs
            · exact ⟨new, rfl, last, by simp, hlast⟩
            · exact ⟨list, rfl, t, List.mem_append_left _ ht, hlookup⟩

/-- The trigrams that a document contains, by its number. -/
def hits (index : TrigramIndex) (trigrams : List Trigram) (id : ℕ) : ℕ :=
  (index.documents[id]?.map (countMatches trigrams)).getD 0

/-- The candidates that contain one of the trigrams are scored. -/
theorem foldlM_score (hin : ∀ id ∈ candidates, id < index.documents.length) :
    ∃ scores, candidates.foldlM (score index trigrams) ∅ = some scores ∧
      ∀ id n, scores.lookup id = some n ↔
        id ∈ candidates ∧ hits index trigrams id = n ∧ 0 < n := by
  induction candidates using List.reverseRecOn with
  | nil => exact ⟨∅, rfl, by simp⟩
  | append_singleton candidates last ih =>
      obtain ⟨scores, hrun, hscores⟩ := ih fun id hid => hin id (List.mem_append_left _ hid)
      have hlast : last < index.documents.length := hin last (by simp)
      have hcount : hits index trigrams last = countMatches trigrams index.documents[last] := by
        rw [hits, List.getElem?_eq_getElem hlast]
        rfl
      refine ⟨if 0 < hits index trigrams last then
        scores.insert last (hits index trigrams last) else scores, ?_, fun id n => ?_⟩
      · rw [List.foldlM_append, hrun, hcount]
        show [last].foldlM (score index trigrams) scores = _
        rw [List.foldlM_cons, score, List.getElem?_eq_getElem hlast]
        rfl
      · rw [List.mem_append, List.mem_singleton]
        split_ifs with hpos
        · rcases eq_or_ne id last with rfl | hne
          · rw [AList.lookup_insert, Option.some.injEq]
            constructor
            · rintro rfl
              exact ⟨Or.inr rfl, rfl, hpos⟩
            · exact fun h => h.2.1
          · rw [AList.lookup_insert_ne hne, hscores, or_iff_left hne]
        · rw [hscores]
          constructor
          · exact fun ⟨hid, hrest⟩ => ⟨Or.inl hid, hrest⟩
          · rintro ⟨hid | rfl, hn, hn'⟩
            · exact ⟨hid, hn, hn'⟩
            · exact absurd (hn ▸ hn') hpos

/-- The scored documents come by descending score. -/
theorem sorted_results (it : HashOrder (ℕ × ℕ)) (scores : AList fun _ : ℕ => ℕ) (f : ℕ → ℕ)
    (hscores : ∀ id n, scores.lookup id = some n → f id = n) :
    let results := ((it.order (scores.entries.map fun entry => (entry.1, entry.2))).mergeSort
      fun a b => decide (b.2 ≤ a.2)).map (·.1)
    results.Nodup ∧ (∀ id, id ∈ results ↔ ∃ n, scores.lookup id = some n) ∧
      results.Pairwise fun i j => f j ≤ f i := by
  intro results
  have hperm : results.Perm scores.keys := by
    refine ((List.mergeSort_perm _ _).map _).trans (((it.perm _).map _).trans ?_)
    rw [List.map_map]
    exact List.Perm.refl _
  refine ⟨hperm.nodup_iff.mpr scores.keys_nodup, fun id => ?_, ?_⟩
  · rw [hperm.mem_iff, ← AList.mem_keys, ← AList.lookup_isSome, Option.isSome_iff_exists]
  · have hsorted := @List.pairwise_mergeSort (ℕ × ℕ) (fun a b => decide (b.2 ≤ a.2))
      (fun a b c hab hbc => decide_eq_true
        ((of_decide_eq_true hbc).trans (of_decide_eq_true hab)))
      (fun a b => by simpa using le_total b.2 a.2)
      (it.order (scores.entries.map fun entry => (entry.1, entry.2)))
    refine List.pairwise_map.mpr (hsorted.imp_of_mem fun {a b} ha hb hab => ?_)
    have hscored : ∀ c ∈ (it.order (scores.entries.map fun entry => (entry.1, entry.2))).mergeSort
        (fun a b => decide (b.2 ≤ a.2)), f c.1 = c.2 := by
      intro c hc
      obtain ⟨entry, hentry, rfl⟩ :=
        List.mem_map.mp ((it.perm _).mem_iff.mp (List.mem_mergeSort.mp hc))
      exact hscores _ _ (AList.mem_lookup_iff.mpr hentry)
    rw [hscored a ha, hscored b hb]
    exact of_decide_eq_true hab

/-! ### Not too many documents -/

section Numbered

variable (htexts : texts.length ≤ 2 ^ 32)

include htexts in
theorem asU32_of_lt {i : ℕ} (hi : i < texts.length) : asU32 i = i :=
  Nat.mod_eq_of_lt (hi.trans_le htexts)

include htexts in
theorem mem_listed_iff : id ∈ listed (build toLowercase texts) key ↔
    ∃ text, texts[id]? = some text ∧ key ∈ keys (textBytes (toLowercase text)) := by
  rw [lists_build, documents_build]
  simp only [List.getElem?_map, Option.map_eq_some_iff]
  constructor
  · rintro ⟨i, doc, ⟨text, htext, rfl⟩, hkey, rfl⟩
    rw [asU32_of_lt htexts (List.getElem?_eq_some_iff.mp htext).1]
    exact ⟨text, htext, hkey⟩
  · rintro ⟨text, htext, hkey⟩
    exact ⟨id, _, ⟨text, htext, rfl⟩, hkey,
      (asU32_of_lt htexts (List.getElem?_eq_some_iff.mp htext).1).symm⟩

include htexts in
/-- A document that contains the query is listed under each of its trigrams. -/
theorem mem_listed_of_infix {q : List UInt8} {text : String} (hq : 3 ≤ q.length)
    (htext : texts[id]? = some text) (hwithin : q <:+: textBytes (toLowercase text))
    (ht : t ∈ windows q) : id ∈ listed (build toLowercase texts) t := by
  rw [mem_listed_iff htexts]
  refine ⟨text, htext, ?_⟩
  rw [mem_keys_iff (hq.trans hwithin.length_le)]
  exact windows_subset hwithin ht

/-- A very short query finds the documents that contain it. -/
theorem search_short (it : HashOrder (ℕ × ℕ)) (texts : List String) {query : String}
    (hshort : (textBytes (toLowercase query)).length < 3) :
    search toLowercase it (build toLowercase texts) query =
      some ((((texts.map toLowercase).zipIdx.filter fun doc =>
        containsText doc.1 (toLowercase query)).map (·.2)).map asU32) := by
  unfold search
  dsimp only
  rw [if_pos hshort, documents_build, List.map_map]
  rfl

include htexts in
theorem search_short_spec (it : HashOrder (ℕ × ℕ)) {query : String}
    (hshort : (textBytes (toLowercase query)).length < 3) :
    ∃ results, search toLowercase it (build toLowercase texts) query = some results ∧
      results.Nodup ∧ ∀ i, i ∈ results ↔ ∃ text, texts[i]? = some text ∧
        textBytes (toLowercase query) <:+: textBytes (toLowercase text) := by
  have hsub : (((texts.map toLowercase).zipIdx.filter fun doc =>
      containsText doc.1 (toLowercase query)).map (·.2)).Sublist (List.range texts.length) := by
    rw [List.range_eq_range', ← List.length_map (f := toLowercase), ← List.zipIdx_map_snd]
    exact List.filter_sublist.map _
  have hsame : ∀ l : List ℕ, l.Sublist (List.range texts.length) → l.map asU32 = l := by
    intro l hl
    rw [List.map_congr_left fun i hi => asU32_of_lt htexts (List.mem_range.mp (hl.subset hi)),
      List.map_id']
  refine ⟨_, search_short it texts hshort, ?_, fun i => ?_⟩
  · rw [hsame _ hsub]
    exact hsub.nodup List.nodup_range
  · rw [hsame _ hsub]
    constructor
    · intro hi
      obtain ⟨⟨doc, j⟩, hdoc, rfl⟩ := List.mem_map.mp hi
      obtain ⟨hzip, hcontains⟩ := List.mem_filter.mp hdoc
      rw [List.mk_mem_zipIdx_iff_getElem?, List.getElem?_map, Option.map_eq_some_iff] at hzip
      obtain ⟨text, htext, rfl⟩ := hzip
      exact ⟨text, htext, of_decide_eq_true hcontains⟩
    · rintro ⟨text, htext, hwithin⟩
      refine List.mem_map.mpr ⟨(toLowercase text, i), List.mem_filter.mpr ⟨?_, ?_⟩, rfl⟩
      · rw [List.mk_mem_zipIdx_iff_getElem?, List.getElem?_map, htext]
        rfl
      · exact decide_eq_true hwithin

/-- The distinct trigrams of the query that a document contains, by its number. -/
def contained (toLowercase : String → String) (texts : List String) (query : String) (i : ℕ) : ℕ :=
  (texts[i]?.map fun text => countMatches
    (distinct (windows (textBytes (toLowercase query)))) (toLowercase text)).getD 0

theorem hits_build (texts : List String) (query : String) (i : ℕ) :
    hits (build toLowercase texts) (distinct (windows (textBytes (toLowercase query)))) i =
      contained toLowercase texts query i := by
  rw [hits, documents_build, List.getElem?_map, Option.map_map]
  rfl

/-- A document that contains the query contains its trigrams. -/
theorem contained_pos {query text : String} {i : ℕ}
    (hlong : 3 ≤ (textBytes (toLowercase query)).length) (htext : texts[i]? = some text)
    (hwithin : textBytes (toLowercase query) <:+: textBytes (toLowercase text)) :
    0 < contained toLowercase texts query i := by
  obtain ⟨t, ht⟩ := List.exists_mem_of_ne_nil _ (windows_ne_nil hlong)
  rw [contained, htext]
  exact List.countP_pos_iff.mpr
    ⟨t, mem_distinct.mpr ht, decide_eq_true (windows_subset hwithin ht)⟩

include htexts in
theorem lt_of_mem_listed (h : id ∈ listed (build toLowercase texts) key) : id < texts.length := by
  obtain ⟨text, htext, -⟩ := (mem_listed_iff htexts).mp h
  exact (List.getElem?_eq_some_iff.mp htext).1

include htexts in
/-- A longer query finds the documents that contain it among those listed under one of its
trigrams. -/
theorem search_long_spec (it : HashOrder (ℕ × ℕ)) {query : String}
    (hlong : 3 ≤ (textBytes (toLowercase query)).length) :
    ∃ results, search toLowercase it (build toLowercase texts) query = some results ∧
      results.Nodup ∧
      (∀ i ∈ results, i < texts.length ∧ 0 < contained toLowercase texts query i) ∧
      (∀ i text, texts[i]? = some text →
        textBytes (toLowercase query) <:+: textBytes (toLowercase text) → i ∈ results) ∧
      results.Pairwise fun i j =>
        contained toLowercase texts query j ≤ contained toLowercase texts query i := by
  have hne : distinct (windows (textBytes (toLowercase query))) ≠ [] := by
    obtain ⟨t, ht⟩ := List.exists_mem_of_ne_nil _ (windows_ne_nil hlong)
    exact List.ne_nil_of_mem (mem_distinct.mpr ht)
  unfold search
  dsimp only
  rw [if_neg (not_lt.mpr hlong), if_neg hne]
  rcases shortestList_cases (build toLowercase texts)
    (distinct (windows (textBytes (toLowercase query)))) with
    ⟨hnone, hall⟩ | ⟨candidates, hlist, t, ht, hlookup⟩
  · rw [hnone]
    refine ⟨[], rfl, List.nodup_nil, by simp, fun i text htext hwithin => ?_, List.Pairwise.nil⟩
    obtain ⟨t, ht⟩ := List.exists_mem_of_ne_nil _ hne
    have hmem := mem_listed_of_infix htexts hlong htext hwithin (mem_distinct.mp ht)
    rw [listed, hall t ht] at hmem
    exact absurd hmem List.not_mem_nil
  · rw [hlist]
    have hlisted : listed (build toLowercase texts) t = candidates := by
      rw [listed, hlookup]
      rfl
    have hin : ∀ i ∈ candidates, i < texts.length := fun i hi =>
      lt_of_mem_listed htexts (hlisted.symm ▸ hi)
    obtain ⟨scores, hrun, hscores⟩ := @foldlM_score
      (distinct (windows (textBytes (toLowercase query)))) (build toLowercase texts) candidates
      (by simpa [documents_build] using hin)
    simp only [hits_build] at hscores
    obtain ⟨hnodup, hmem, hsorted⟩ := sorted_results it scores
      (contained toLowercase texts query) fun i n hn => ((hscores i n).mp hn).2.1
    refine ⟨_, congrArg (Option.map _) hrun, hnodup, fun i hi => ?_, fun i text htext hwithin => ?_,
      hsorted⟩
    · obtain ⟨n, hn⟩ := (hmem i).mp hi
      obtain ⟨hi', rfl, hpos⟩ := (hscores i n).mp hn
      exact ⟨hin i hi', hpos⟩
    · have hi := mem_listed_of_infix htexts hlong htext hwithin (mem_distinct.mp ht)
      exact (hmem i).mpr
        ⟨_, (hscores i _).mpr ⟨hlisted ▸ hi, rfl, contained_pos hlong htext hwithin⟩⟩

end Numbered

/-- **With no more documents than numbers, nothing comes twice, nothing that contains the query is
missed, and what contains more of its trigrams comes first.** -/
theorem search_build_spec (toLowercase : String → String) (it : HashOrder (ℕ × ℕ))
    (texts : List String) (query : String) (htexts : texts.length ≤ 2 ^ 32) :
    ∃ results, search toLowercase it (build toLowercase texts) query = some results ∧
      results.Nodup ∧ (∀ i ∈ results, i < texts.length) ∧
      (∀ i text, texts[i]? = some text →
        textBytes (toLowercase query) <:+: textBytes (toLowercase text) → i ∈ results) ∧
      (3 ≤ (textBytes (toLowercase query)).length →
        results.Pairwise (fun i j =>
          contained toLowercase texts query j ≤ contained toLowercase texts query i) ∧
        ∀ i ∈ results, 0 < contained toLowercase texts query i) := by
  rcases Nat.lt_or_ge (textBytes (toLowercase query)).length 3 with hshort | hlong
  · obtain ⟨results, hrun, hnodup, hmem⟩ := search_short_spec htexts it hshort
    refine ⟨results, hrun, hnodup, fun i hi => ?_, fun i text htext hwithin =>
      (hmem i).mpr ⟨text, htext, hwithin⟩, fun hlong => absurd hlong (not_le.mpr hshort)⟩
    obtain ⟨text, htext, -⟩ := (hmem i).mp hi
    exact (List.getElem?_eq_some_iff.mp htext).1
  · obtain ⟨results, hrun, hnodup, hmem, hfound, hsorted⟩ := search_long_spec htexts it hlong
    exact ⟨results, hrun, hnodup, fun i hi => (hmem i hi).1, hfound,
      fun _ => ⟨hsorted, fun i hi => (hmem i hi).2⟩⟩

theorem search_build_spec_weather : ∃ results,
    search (fun text => text) ⟨fun l => l, fun _ => .refl _⟩
      (build (fun text => text) ["weather", "sky"]) "eat" = some results ∧ results.Nodup := by
  obtain ⟨results, hrun, hnodup, -⟩ := search_build_spec (fun text => text)
    ⟨fun l => l, fun _ => .refl _⟩ ["weather", "sky"] "eat" (by decide)
  exact ⟨results, hrun, hnodup⟩

/-- With one document more than there are numbers, the first and the last have one. -/
theorem not_nodup_asU32 (toLowercase : String → String) {query : String} {n : ℕ} (hn : 2 ^ 32 < n) :
    ¬ (((((List.replicate n query).map toLowercase).zipIdx.filter fun doc =>
      containsText doc.1 (toLowercase query)).map (·.2)).map asU32).Nodup := by
  intro hnodup
  have hmem : ∀ i < n, i ∈ (((List.replicate n query).map toLowercase).zipIdx.filter fun doc =>
      containsText doc.1 (toLowercase query)).map (·.2) := by
    intro i hi
    refine List.mem_map.mpr ⟨(toLowercase query, i), List.mem_filter.mpr ⟨?_, ?_⟩, rfl⟩
    · rw [List.mk_mem_zipIdx_iff_getElem?, List.getElem?_map, List.getElem?_replicate, if_pos hi]
      rfl
    · exact decide_eq_true (List.infix_refl _)
  have hequal := List.inj_on_of_nodup_map hnodup (hmem 0 (Nat.zero_lt_of_lt hn)) (hmem (2 ^ 32) hn)
    (by simp [asU32])
  exact absurd hequal (by simp)

/-- **With one document more than there are numbers, one comes twice.** -/
theorem search_wraps : ∃ results,
    search (fun text => text) ⟨fun l => l, fun _ => .refl _⟩
      (build (fun text => text) (List.replicate (2 ^ 32 + 1) "sk")) "sk" = some results ∧
        ¬ results.Nodup :=
  ⟨_, search_short _ _ (by decide), not_nodup_asU32 (fun text => text) (Nat.lt_succ_self _)⟩

end TrigramIndex

end ClawDesk.Skills
