import ClawDesk.Acp.DeltaStream

/-!
# Reassembling a stream

Whatever is delivered twice, and however often the decoder starts again from a
checkpoint, its text is that of the deltas up to its position, and its hash state
is that of its text (`Decodes`).  The position is all it has to know.

Whether the stream is complete is not part of a checkpoint.  A decoder that is
resumed from its own checkpoint after the final delta has forgotten it, and
skips the final delta when it comes again (`faithful_iff`).
-/

namespace ClawDesk.Acp

variable {prior chunks : List String} {encoder : DeltaEncoder} {decoder : DeltaDecoder}
  {pos : ℕ}

/-! ### What the encoder sends -/

/-- The state of the hash of a text. -/
def hashOf (text : String) : RollingHash := .fromData (bytesOf text)

/-- The checkpoint after delta `seq`, at which the text is `text`. -/
def markOf (seq : ℕ) (text : String) : StreamCheckpoint where
  lastSeq := seq
  offset := text.utf8ByteSize
  hash := (hashOf text).value
  hashPower := (hashOf text).power

/-- The delta that extends `text` by `chunk`. -/
def deltaOf (seq : ℕ) (text chunk : String) : TextDelta where
  seq := seq
  offset := text.utf8ByteSize
  text := chunk
  done := false
  hash := (hashOf (text ++ chunk)).value

/-- The final delta. -/
def finalOf (seq : ℕ) (text : String) : TextDelta where
  seq := seq
  offset := text.utf8ByteSize
  text := ""
  done := true
  hash := (hashOf text).value

theorem hashOf_append (text chunk : String) :
    (hashOf text).append (bytesOf chunk) = hashOf (text ++ chunk) := by
  rw [hashOf, hashOf, RollingHash.fromData_append, bytesOf_append]

/-- The encoder has pushed these chunks. -/
structure Encodes (prior : List String) (encoder : DeltaEncoder) : Prop where
  assembled : encoder.assembled = String.join prior
  seq : encoder.seq = prior.length
  rollingHash : encoder.rollingHash = hashOf (String.join prior)
  checkpoints : ∀ cp ∈ encoder.checkpoints, ∃ before after, prior = before ++ after ∧
    before ≠ [] ∧ cp = markOf (before.length - 1) (String.join before)

theorem encodes_new (taskId : String) (interval : ℕ+) :
    Encodes [] ((DeltaEncoder.new taskId).withCheckpointInterval interval) :=
  ⟨rfl, rfl, rfl, fun _ h => absurd h List.not_mem_nil⟩

theorem mem_of_mem_keep {cp cp' : StreamCheckpoint} (h : cp' ∈ encoder.keep cp) :
    cp' ∈ encoder.checkpoints ∨ cp' = cp := by
  have hmem : cp' ∈ encoder.checkpoints ++ [cp] := by
    unfold DeltaEncoder.keep at h
    split_ifs at h
    · exact List.mem_of_mem_tail h
    · exact h
  simpa using hmem

theorem Encodes.push (h : Encodes prior encoder) (chunk : String) :
    (encoder.push chunk).1 = deltaOf prior.length (String.join prior) chunk ∧
      Encodes (prior ++ [chunk]) (encoder.push chunk).2 := by
  have hjoin : String.join (prior ++ [chunk]) = String.join prior ++ chunk := by
    simp [String.join_append]
  have hhash :
      encoder.rollingHash.append (bytesOf chunk) = hashOf (String.join prior ++ chunk) := by
    rw [h.rollingHash, hashOf_append]
  refine ⟨?_, ?_, ?_, ?_, ?_⟩
  · simp only [DeltaEncoder.push, deltaOf, h.assembled, h.seq, hhash]
  · simp only [DeltaEncoder.push, h.assembled, hjoin]
  · simp only [DeltaEncoder.push, h.seq, List.length_append, List.length_singleton]
  · simp only [DeltaEncoder.push, hhash, hjoin]
  · intro cp hcp
    have hcases : cp ∈ encoder.checkpoints ∨
        cp = markOf prior.length (String.join (prior ++ [chunk])) := by
      simp only [DeltaEncoder.push, hhash, h.assembled, h.seq] at hcp
      split_ifs at hcp
      · rw [hjoin]
        exact mem_of_mem_keep hcp
      · exact .inl hcp
    rcases hcases with hold | rfl
    · obtain ⟨before, after, rfl, hne, rfl⟩ := h.checkpoints cp hold
      exact ⟨before, after ++ [chunk], by rw [List.append_assoc], hne, rfl⟩
    · refine ⟨prior ++ [chunk], [], by rw [List.append_nil], by simp, ?_⟩
      rw [List.length_append, List.length_singleton, Nat.add_sub_cancel]

theorem Encodes.pushAll (h : Encodes prior encoder) (chunks : List String) :
    (∀ delta ∈ (encoder.pushAll chunks).1, ∃ before chunk after, chunks = before ++ chunk :: after ∧
      delta = deltaOf (prior ++ before).length (String.join (prior ++ before)) chunk) ∧
    Encodes (prior ++ chunks) (encoder.pushAll chunks).2 := by
  induction chunks generalizing prior encoder with
  | nil =>
      refine ⟨fun _ hmem => absurd hmem List.not_mem_nil, ?_⟩
      rw [List.append_nil]
      exact h
  | cons chunk chunks ih =>
      obtain ⟨hdelta, hnext⟩ := h.push chunk
      obtain ⟨hdeltas, hlast⟩ := ih hnext
      refine ⟨fun delta hmem => ?_, ?_⟩
      · rcases List.mem_cons.mp hmem with rfl | hmem
        · exact ⟨[], chunk, chunks, rfl, by rw [List.append_nil]; exact hdelta⟩
        · obtain ⟨before, next, after, rfl, rfl⟩ := hdeltas delta hmem
          refine ⟨chunk :: before, next, after, rfl, ?_⟩
          rw [List.append_assoc, List.singleton_append]
      · rw [List.append_assoc, List.singleton_append] at hlast
        exact hlast

/-- **The deltas of a stream.** -/
theorem Encodes.stream (h : Encodes [] encoder) {delta : TextDelta}
    (hmem : delta ∈ encoder.stream chunks) :
    (∃ before chunk after, chunks = before ++ chunk :: after ∧
      delta = deltaOf before.length (String.join before) chunk) ∨
    delta = finalOf chunks.length (String.join chunks) := by
  obtain ⟨hdeltas, hlast⟩ := h.pushAll chunks
  rcases List.mem_append.mp hmem with hmem | hmem
  · exact .inl (hdeltas delta hmem)
  · obtain rfl := List.mem_singleton.mp hmem
    refine .inr ?_
    simp only [DeltaEncoder.finish, finalOf, hlast.assembled, hlast.seq, hlast.rollingHash,
      List.nil_append]

/-! ### What the decoder receives -/

/-- Something that happens to the decoder. -/
inductive Delivery where
  | delta (delta : TextDelta)
  /-- Reconnect from its own checkpoint and text. -/
  | resume
  /-- Reconnect from a checkpoint of the encoder and a prefix of the text. -/
  | restore (cp : StreamCheckpoint) (text : String)

/-- The decoder after a delivery, and what `apply` returned. -/
def DeltaDecoder.receive (decoder : DeltaDecoder) : Delivery → Option (Bool × DeltaDecoder)
  | .delta delta => decoder.apply delta
  | .resume =>
      some (true, match decoder.checkpoint with
        | some cp => fromCheckpoint cp decoder.assembled
        | none => decoder)
  | .restore cp text => some (true, fromCheckpoint cp text)

/-- The next delta to come, after a delivery. -/
def advance (pos : ℕ) : Delivery → ℕ
  | .delta delta => if delta.seq = pos then pos + 1 else pos
  | .resume => pos
  | .restore cp _ => cp.lastSeq + 1

/-- The delta is the next one, or an older one; a checkpoint is one that there is,
and the text is the one that belongs to it. -/
def Permitted (encoder : DeltaEncoder) (chunks : List String) (pos : ℕ) : Delivery → Prop
  | .delta delta => delta ∈ encoder.stream chunks ∧ delta.seq ≤ pos
  | .resume => 0 < pos
  | .restore cp text =>
      (∃ k, cp ∈ (encoder.pushAll (chunks.take k)).2.checkpoints) ∧
        text.utf8ByteSize = cp.offset ∧ ∃ rest, String.join chunks = text ++ rest

/-- All deliveries are permitted, and they end after the final delta. -/
def Delivers (encoder : DeltaEncoder) (chunks : List String) : ℕ → List Delivery → Prop
  | pos, [] => pos = chunks.length + 1
  | pos, d :: ds => Permitted encoder chunks pos d ∧ Delivers encoder chunks (advance pos d) ds

/-- Every `apply` returns true, no mismatch is counted, and at the end the decoder is
done and has the text. -/
def Faithful (text : String) : DeltaDecoder → List Delivery → Prop
  | decoder, [] =>
      decoder.hashMismatches = 0 ∧ decoder.done = true ∧ decoder.assembled = text
  | decoder, d :: ds =>
      decoder.hashMismatches = 0 ∧
        ∃ decoder', decoder.receive d = some (true, decoder') ∧ Faithful text decoder' ds

/-- Some later reconnect is from a checkpoint of the encoder. -/
def Restored (ds : List Delivery) : Prop := ∃ cp text, .restore cp text ∈ ds

/-- A decoder that has the final delta is not resumed from its own checkpoint, unless
it is restored later. -/
def KeepsDone (final : ℕ) : ℕ → List Delivery → Prop
  | _, [] => True
  | pos, d :: ds =>
      (d = .resume → pos = final + 1 → Restored ds) ∧ KeepsDone final (advance pos d) ds

/-! ### The decoder at a position -/

/-- The decoder has the deltas before `pos`. -/
structure Decodes (chunks : List String) (pos : ℕ) (decoder : DeltaDecoder) : Prop where
  le : pos ≤ chunks.length + 1
  assembled : decoder.assembled = String.join (chunks.take pos)
  lastSeq : decoder.lastSeq = if pos = 0 then none else some (pos - 1)
  rollingHash : decoder.rollingHash = hashOf decoder.assembled
  hashValid : decoder.hashValid = true
  hashMismatches : decoder.hashMismatches = 0
  done : decoder.done = true → pos = chunks.length + 1

theorem decodes_new : Decodes chunks 0 .new := by
  constructor <;> simp [DeltaDecoder.new, hashOf, bytesOf, RollingHash.fromData, RollingHash.append]

/-- An older delta is skipped. -/
theorem Decodes.skip (h : Decodes chunks pos decoder) {delta : TextDelta} (old : delta.seq < pos) :
    decoder.apply delta = some (true, decoder) := by
  have hlast : decoder.lastSeq = some (pos - 1) := by
    rw [h.lastSeq, if_neg (by omega)]
  rw [DeltaDecoder.apply, hlast, Option.any_some, if_pos (by simp; omega)]

/-- The next delta is not skipped. -/
theorem Decodes.not_skip (h : Decodes chunks pos decoder) {delta : TextDelta}
    (hseq : delta.seq = pos) :
    ¬ decoder.lastSeq.any (fun last => decide (delta.seq ≤ last)) = true := by
  rw [h.lastSeq, hseq]
  split_ifs with hzero
  · simp
  · simp
    omega

/-- A delta whose hash is that of the text is accepted. -/
theorem verify_of_eq {delta : TextDelta} (hvalid : decoder.hashValid = true)
    (heq : decoder.rollingHash.value = delta.hash) :
    decoder.verify delta = (true, decoder) := by
  rw [DeltaDecoder.verify, DeltaDecoder.currentHash, if_pos hvalid, if_neg (not_not.mpr heq)]

theorem Decodes.not_done (h : Decodes chunks pos decoder) (hpos : pos ≤ chunks.length) :
    decoder.done = false := by
  by_contra hdone
  have := h.done (by simpa using hdone)
  omega

/-- **The next chunk.** -/
theorem Decodes.extend {before after : List String} {chunk : String}
    (h : Decodes (before ++ chunk :: after) before.length decoder) :
    ∃ decoder', decoder.apply (deltaOf before.length (String.join before) chunk) =
        some (true, decoder') ∧
      Decodes (before ++ chunk :: after) (before.length + 1) decoder' ∧ decoder'.done = false := by
  have hassembled : decoder.assembled = String.join before := by
    rw [h.assembled, List.take_left]
  have hdone : decoder.done = false := h.not_done (by simp)
  have hedit : decoder.edit (deltaOf before.length (String.join before) chunk) =
      some (String.join before ++ chunk, hashOf (String.join before ++ chunk)) := by
    simp only [DeltaDecoder.edit, deltaOf, hassembled, h.hashValid, if_true, h.rollingHash,
      hashOf_append]
  refine ⟨{ decoder with
    assembled := String.join before ++ chunk
    rollingHash := hashOf (String.join before ++ chunk)
    lastSeq := some before.length
    deltasApplied := decoder.deltasApplied + 1 }, ?_, ?_, hdone⟩
  · rw [DeltaDecoder.apply, if_neg (h.not_skip rfl), hedit]
    simp only [deltaOf, Bool.false_eq_true, if_false, Option.map_some]
    exact congrArg some (verify_of_eq h.hashValid rfl)
  · refine ⟨by simp, ?_, by simp, rfl, h.hashValid, h.hashMismatches, ?_⟩
    · have htake : (before ++ chunk :: after).take (before.length + 1) = before ++ [chunk] := by
        simp [List.take_append]
      rw [htake, String.join_append]
      simp
    · intro hdone'
      exact absurd (hdone.symm.trans hdone') nofun

/-- **The final delta.** -/
theorem Decodes.finish (h : Decodes chunks chunks.length decoder) :
    ∃ decoder', decoder.apply (finalOf chunks.length (String.join chunks)) = some (true, decoder') ∧
      Decodes chunks (chunks.length + 1) decoder' ∧ decoder'.done = true := by
  have hassembled : decoder.assembled = String.join chunks := by
    rw [h.assembled, List.take_length]
  refine ⟨{ decoder with
    done := true
    lastSeq := some chunks.length }, ?_, ?_, rfl⟩
  · rw [DeltaDecoder.apply, if_neg (h.not_skip rfl),
      if_pos (show (finalOf chunks.length (String.join chunks)).done = true from rfl)]
    refine congrArg some (verify_of_eq h.hashValid ?_)
    show decoder.rollingHash.value = _
    rw [h.rollingHash, hassembled]
    rfl
  · refine ⟨le_rfl, ?_, by simp, h.rollingHash, h.hashValid, h.hashMismatches, fun _ => rfl⟩
    show decoder.assembled = _
    rw [hassembled, List.take_of_length_le (Nat.le_succ _)]

/-- A checkpoint and its text put the decoder where it was taken. -/
theorem decodes_fromCheckpoint {text : String} (hpos : pos ≤ chunks.length)
    (htext : text = String.join (chunks.take (pos + 1))) :
    Decodes chunks (pos + 1) (.fromCheckpoint (markOf pos text) text) := by
  refine ⟨by omega, htext, by simp [DeltaDecoder.fromCheckpoint, markOf], rfl, rfl, rfl, ?_⟩
  intro hdone
  cases hdone

/-- **Resumption from the decoder's own checkpoint.** -/
theorem Decodes.resume (h : Decodes chunks pos decoder) (hpos : 0 < pos) :
    ∃ decoder', decoder.receive .resume = some (true, decoder') ∧ Decodes chunks pos decoder' ∧
      decoder'.done = false := by
  obtain ⟨m, rfl⟩ : ∃ m, pos = m + 1 := ⟨pos - 1, by omega⟩
  have hcheckpoint : decoder.checkpoint = some (markOf m decoder.assembled) := by
    rw [DeltaDecoder.checkpoint, h.lastSeq, if_neg (Nat.succ_ne_zero m), Option.map_some,
      DeltaDecoder.currentHash, if_pos h.hashValid, h.rollingHash, Nat.add_sub_cancel]
    rfl
  refine ⟨.fromCheckpoint (markOf m decoder.assembled) decoder.assembled, ?_, ?_, rfl⟩
  · rw [DeltaDecoder.receive, hcheckpoint]
  · exact decodes_fromCheckpoint (Nat.le_of_succ_le_succ h.le) h.assembled

/-- A prefix of a text is determined by its length. -/
theorem eq_of_append_eq {s s' t t' : String} (heq : s ++ t = s' ++ t')
    (hsize : s.utf8ByteSize = s'.utf8ByteSize) : s = s' := by
  have hbytes : bytesOf s ++ bytesOf t = bytesOf s' ++ bytesOf t' := by
    rw [← bytesOf_append, ← bytesOf_append, heq]
  have hinj : bytesOf s = bytesOf s' := (List.append_inj hbytes hsize).1
  exact String.toByteArray_inj.mp (ByteArray.ext (Array.toList_inj.mp hinj))

/-- **Restoration from a checkpoint of the encoder.** -/
theorem Encodes.restore (h : Encodes [] encoder) {cp : StreamCheckpoint} {text rest : String}
    {k : ℕ} (hcp : cp ∈ (encoder.pushAll (chunks.take k)).2.checkpoints)
    (hsize : text.utf8ByteSize = cp.offset) (hsplit : String.join chunks = text ++ rest) :
    cp.lastSeq < chunks.length ∧
      Decodes chunks (cp.lastSeq + 1) (.fromCheckpoint cp text) := by
  obtain ⟨before, after, htake, hne, rfl⟩ := (h.pushAll (chunks.take k)).2.checkpoints cp hcp
  have hchunks : chunks = before ++ (after ++ chunks.drop k) := by
    rw [← List.append_assoc, ← htake, List.nil_append, List.take_append_drop]
  have hlength : 0 < before.length := List.length_pos_iff.mpr hne
  have hpos : (markOf (before.length - 1) (String.join before)).lastSeq + 1 = before.length := by
    simp only [markOf]
    omega
  have htext : text = String.join before := by
    refine @eq_of_append_eq _ _ rest (String.join (after ++ chunks.drop k)) ?_ hsize
    rw [← hsplit, ← String.join_append, ← hchunks]
  have hle : before.length ≤ chunks.length := by
    rw [hchunks, List.length_append]
    omega
  refine ⟨by omega, ?_⟩
  rw [htext]
  refine decodes_fromCheckpoint (by simp only [markOf]; omega) ?_
  have htake : chunks.take before.length = before := by
    rw [hchunks, List.take_left]
  show String.join before = String.join (chunks.take (before.length - 1 + 1))
  rw [Nat.sub_add_cancel hlength, htake]

/-! ### A whole delivery -/

theorem Encodes.faithful_from (hencoder : Encodes [] encoder) {ds : List Delivery}
    (h : Decodes chunks pos decoder) (hds : Delivers encoder chunks pos ds) :
    Faithful (String.join chunks) decoder ds ↔
      KeepsDone chunks.length pos ds ∧
        (pos = chunks.length + 1 → decoder.done = true ∨ Restored ds) := by
  induction ds generalizing pos decoder with
  | nil =>
      obtain rfl : pos = chunks.length + 1 := hds
      have hassembled : decoder.assembled = String.join chunks := by
        rw [h.assembled, List.take_of_length_le (Nat.le_succ _)]
      simp [Faithful, KeepsDone, Restored, h.hashMismatches, hassembled]
  | cons d ds ih =>
      obtain ⟨hpermitted, hds⟩ := hds
      have hreceive {decoder'} (heq : decoder.receive d = some (true, decoder')) :
          Faithful (String.join chunks) decoder (d :: ds) ↔
            Faithful (String.join chunks) decoder' ds := by
        simp [Faithful, h.hashMismatches, heq]
      have hrestored : Restored (d :: ds) ↔ (∃ cp text, .restore cp text = d) ∨ Restored ds := by
        simp only [Restored, List.mem_cons, exists_or]
      cases d with
      | delta delta =>
          obtain ⟨hmem, hle⟩ := hpermitted
          rcases hle.lt_or_eq with hold | rfl
          · -- skipped
            have hadvance : advance pos (.delta delta) = pos := if_neg hold.ne
            rw [hadvance] at hds
            rw [hreceive (h.skip hold), ih h hds, KeepsDone, hadvance, hrestored]
            simp
          · -- applied
            have hadvance : advance delta.seq (.delta delta) = delta.seq + 1 := if_pos rfl
            rw [hadvance] at hds
            rcases hencoder.stream hmem with ⟨before, chunk, after, rfl, rfl⟩ | rfl
            · obtain ⟨decoder', heq, h', hdone⟩ := h.extend
              rw [hreceive heq, ih h' hds, KeepsDone, hadvance]
              have hne : before.length + 1 ≠ (before ++ chunk :: after).length + 1 := by simp
              have hne' : before.length ≠ (before ++ chunk :: after).length + 1 := by simp; omega
              simp only [deltaOf, reduceCtorEq, false_imp_iff, true_and, hne, hne', and_true]
            · obtain ⟨decoder', heq, h', hdone⟩ := h.finish
              rw [hreceive heq, ih h' hds, KeepsDone, hadvance]
              simp [finalOf, hdone]
      | resume =>
          obtain ⟨decoder', heq, h', hdone⟩ := h.resume hpermitted
          rw [hreceive heq, ih h' hds, KeepsDone, hrestored, hdone]
          simp only [advance]
          constructor
          · rintro ⟨hkeeps, hdone⟩
            have hrestore (hpos : pos = chunks.length + 1) : Restored ds :=
              (hdone hpos).resolve_left nofun
            exact ⟨⟨fun _ => hrestore, hkeeps⟩, fun hpos => .inr (.inr (hrestore hpos))⟩
          · rintro ⟨⟨hrestore, hkeeps⟩, -⟩
            exact ⟨hkeeps, fun hpos => .inr (hrestore trivial hpos)⟩
      | restore cp text =>
          obtain ⟨⟨k, hcp⟩, hsize, rest, hsplit⟩ := hpermitted
          obtain ⟨hlt, h'⟩ := hencoder.restore hcp hsize hsplit
          rw [hreceive rfl, ih h' hds, KeepsDone, hrestored]
          simp only [advance]
          constructor
          · rintro ⟨hkeeps, -⟩
            exact ⟨⟨nofun, hkeeps⟩, fun _ => .inr (.inl ⟨cp, text, rfl⟩)⟩
          · rintro ⟨⟨-, hkeeps⟩, -⟩
            exact ⟨hkeeps, fun hpos => by omega⟩

/-- **Reassembly.**  A stream that is delivered in order, with any repetitions and any
reconnects, is reassembled faithfully exactly when a decoder that has the final
delta is not resumed from its own checkpoint for good. -/
theorem faithful_iff (taskId : String) (interval : ℕ+) (chunks : List String)
    {ds : List Delivery}
    (delivered : Delivers ((DeltaEncoder.new taskId).withCheckpointInterval interval) chunks 0 ds) :
    Faithful (String.join chunks) .new ds ↔ KeepsDone chunks.length 0 ds := by
  rw [(encodes_new taskId interval).faithful_from decodes_new delivered]
  exact and_iff_left fun hzero => absurd hzero.symm (Nat.succ_ne_zero _)

/-- An encoder that keeps a checkpoint for every delta. -/
def eager : DeltaEncoder := (DeltaEncoder.new "t").withCheckpointInterval 1

/-- A delta twice, a resumption, a restoration, and the final delta. -/
def interrupted : List Delivery :=
  [.delta (deltaOf 0 "" "a"), .delta (deltaOf 0 "" "a"), .resume, .restore (markOf 1 "ab") "ab",
    .delta (finalOf 2 "ab")]

theorem faithful_iff_interrupted : Faithful "ab" .new interrupted := by
  have hds : Delivers eager ["a", "b"] 0 interrupted := by
    refine ⟨⟨by decide +kernel, by decide⟩, ⟨by decide +kernel, by decide⟩, Nat.one_pos,
      ⟨⟨2, by decide +kernel⟩, by decide, "", by decide⟩, ⟨by decide +kernel, by decide⟩, rfl⟩
  refine (faithful_iff "t" 1 ["a", "b"] hds).mpr ?_
  exact ⟨nofun, nofun, fun _ hpos => absurd hpos (by decide), nofun, nofun, trivial⟩

/-- **A stream that is complete is resumed, and never complete again.** -/
theorem completion_lost : ∃ ds, Delivers eager ["a"] 0 ds ∧ ¬ Faithful "a" .new ds := by
  have hds : Delivers eager ["a"] 0
      [.delta (deltaOf 0 "" "a"), .delta (finalOf 1 "a"), .resume, .delta (finalOf 1 "a")] :=
    ⟨⟨by decide +kernel, by decide⟩, ⟨by decide +kernel, by decide⟩, Nat.two_pos,
      ⟨by decide +kernel, by decide⟩, rfl⟩
  refine ⟨_, hds, ?_⟩
  rintro ⟨-, _, ⟨⟩, -, _, ⟨⟩, -, _, ⟨⟩, -, _, ⟨⟩, -, hdone, -⟩
  cases hdone

end ClawDesk.Acp
