import Mathlib.Algebra.Order.Monoid.Prod
import Kist.Backup.Advance
import Kist.Backup.Covered
import Kist.Lib.Cbor

/-!
# What a backup has uploaded

The report of a backup counts the chunks it has stored and their bytes. `chunk_reader` counts them
for the file it reads, and `process_file` adds these counts to the report once the file was read to
its end. The chunks themselves are in the packs by then, also those of a file whose reading broke
off.

* `balanced_readFile`: what a read stores is what it adds to the report, and what it loses.
* `upload_accounting`: the report agrees with the packs of the run if and only if no read broke off
  behind a chunk that was new.
-/

namespace Kist

/-- The number of chunks, and of their bytes. -/
def tally (entries : List PackEntry) : ℕ × ℕ := (entries.length, (entries.map PackEntry.rawLen).sum)

theorem tally_append (l l' : List PackEntry) : tally (l ++ l') = tally l + tally l' := by
  simp [tally]

namespace Backup

open Checked (bind_eq_ok)

/-- The chunks that this run has stored, in the packs it has finished and in the one it fills. -/
def stored (b : Backup) : List PackEntry :=
  b.newPacks.flatMap IndexPack.entries ++ b.packer.chunks.map Prod.fst

/-- The uploads that the report counts. -/
def counted (b : Backup) : ℕ × ℕ := (b.report.chunksNew, b.report.bytesStored)

/-- The uploads that are counted for the file being cut. -/
def ChunkState.counted (st : ChunkState) : ℕ × ℕ := (st.chunksNew, st.bytesNew)

/-- The chunk lies in a pack without a mark. -/
def Has (b : Backup) (chunk : Bytes) : Prop :=
  ∃ loc, b.index.get (b.repo.keys.chunkId chunk) = some loc ∧ loc.pack ∉ b.marked

/-- The read breaks off behind a chunk that is new: the error came when the buffer had been filled,
and a chunk had been taken out of it that is not in the repository yet. -/
def Wastes (b : Backup) : FileRead → Prop
  | .broken delivered _ => ∃ chunk ∈ b.chunker.cutFailing delivered, ¬b.Has chunk
  | _ => False

/-- What a read stores without an addition to the report. -/
def wasted (b : Backup) : FileRead → ℕ × ℕ
  | .broken delivered _ => (b.addChunks {} (b.chunker.cutFailing delivered)).2.counted
  | _ => 0

section Chunks

variable {b : Backup} {st : ChunkState}

theorem stored_flushPack (b : Backup) : b.flushPack.stored = b.stored := by
  unfold flushPack
  by_cases hempty : b.packer.chunks = []
  · rw [if_pos hempty]
  · rw [if_neg hempty]
    simp [stored, PackWriter.new]

theorem counted_flushPack (b : Backup) : b.flushPack.counted = b.counted := by
  unfold flushPack
  by_cases hempty : b.packer.chunks = []
  · rw [if_pos hempty]
  · rw [if_neg hempty]
    rfl

theorem storeChunk_tally (b : Backup) (st : ChunkState) (id : ChunkId) (chunk : Bytes) (m : Bool) :
    tally (b.storeChunk st id chunk m).1.stored = tally b.stored + (1, chunk.length) ∧
      (b.storeChunk st id chunk m).1.counted = b.counted ∧
        (b.storeChunk st id chunk m).2.counted = st.counted + (1, chunk.length) := by
  let e : PackEntry := ⟨id, b.packer.len, b.repo.keys.sealedLen chunk, chunk.length⟩
  let b₁ : Backup := { b with
    packer := (b.packer.add b.repo.keys id chunk).2
    index := if m then b.index.replacePending e else b.index.addPending e }
  have hstored : b₁.stored = b.stored ++ [e] := by
    show b.newPacks.flatMap IndexPack.entries ++
      (b.packer.chunks ++ [(e, Sealed.chunk id chunk)]).map Prod.fst = _
    rw [List.map_append, ← List.append_assoc]
    rfl
  have htally : tally b₁.stored = tally b.stored + (1, chunk.length) := by
    rw [hstored, tally_append]
    rfl
  have hif : (b.storeChunk st id chunk m).1 =
      if b₁.packer.isFull b₁.repo.config.packTargetSize then b₁.flushPack else b₁ := rfl
  refine ⟨?_, ?_, rfl⟩
  · rw [hif]
    split_ifs
    · rw [stored_flushPack, htally]
    · exact htally
  · rw [hif]
    split_ifs
    · exact counted_flushPack b₁
    · rfl

/-- A chunk that lies in a pack without a mark is not stored. -/
theorem addChunk_of_has {chunk : Bytes} (h : b.Has chunk) :
    (b.addChunk st chunk).2.counted = st.counted ∧ (b.addChunk st chunk).1.index = b.index ∧
      (b.addChunk st chunk).1.stored = b.stored ∧ (b.addChunk st chunk).1.counted = b.counted := by
  obtain ⟨loc, hget, hmarked⟩ := h
  unfold addChunk
  dsimp only
  rw [hget]
  dsimp only
  rw [if_neg hmarked]
  exact ⟨rfl, rfl, rfl, rfl⟩

/-- A chunk that does not is stored. -/
theorem addChunk_of_not_has {chunk : Bytes} (h : ¬b.Has chunk) :
    tally (b.addChunk st chunk).1.stored = tally b.stored + (1, chunk.length) ∧
      (b.addChunk st chunk).1.counted = b.counted ∧
        (b.addChunk st chunk).2.counted = st.counted + (1, chunk.length) := by
  unfold addChunk
  dsimp only
  cases hget : b.index.get (b.repo.keys.chunkId chunk) with
  | none => exact storeChunk_tally b _ _ chunk false
  | some loc =>
    have hmarked : loc.pack ∈ b.marked := by
      by_contra hnot
      exact h ⟨loc, hget, hnot⟩
    dsimp only
    rw [if_pos hmarked]
    exact storeChunk_tally b _ _ chunk true

/-- **One chunk** is stored if and only if it is counted for the file. -/
theorem addChunk_tally (b : Backup) (st : ChunkState) (chunk : Bytes) :
    ∃ new, tally (b.addChunk st chunk).1.stored = tally b.stored + new ∧
      (b.addChunk st chunk).1.counted = b.counted ∧
        (b.addChunk st chunk).2.counted = st.counted + new := by
  by_cases h : b.Has chunk
  · obtain ⟨hst, -, hstored, hcounted⟩ := @addChunk_of_has b st chunk h
    exact ⟨0, by rw [hstored, add_zero], hcounted, by rw [hst, add_zero]⟩
  · exact ⟨_, addChunk_of_not_has h⟩

/-- The chunks of a file. -/
theorem addChunks_tally (chunks : List Bytes) (b : Backup) (st : ChunkState) :
    ∃ new, tally (b.addChunks st chunks).1.stored = tally b.stored + new ∧
      (b.addChunks st chunks).1.counted = b.counted ∧
        (b.addChunks st chunks).2.counted = st.counted + new := by
  induction chunks generalizing b st with
  | nil => exact ⟨0, (add_zero _).symm, rfl, (add_zero _).symm⟩
  | cons chunk chunks ih =>
    obtain ⟨new, hstored, hcounted, hst⟩ := addChunk_tally b st chunk
    obtain ⟨more, hstored', hcounted', hst'⟩ := ih (b.addChunk st chunk).1 (b.addChunk st chunk).2
    exact ⟨new + more, by rw [addChunks, hstored', hstored, add_assoc],
      by rw [addChunks, hcounted', hcounted], by rw [addChunks, hst', hst, add_assoc]⟩

/-- A chunk that is not stored leaves it to the others which of them are new. -/
theorem has_addChunk_iff {chunk c : Bytes} (h : b.Has chunk) :
    (b.addChunk st chunk).1.Has c ↔ b.Has c := by
  obtain ⟨-, hindex, -⟩ := @addChunk_of_has b st chunk h
  have hsame := b.sameRun_addChunk st chunk
  unfold Has
  rw [hindex, hsame.keys, hsame.marked]

/-- Chunks that lie in packs without a mark leave nothing to count. -/
theorem addChunks_of_has {chunks : List Bytes} (h : ∀ chunk ∈ chunks, b.Has chunk) :
    (b.addChunks st chunks).2.counted = st.counted := by
  induction chunks generalizing b st with
  | nil => rfl
  | cons chunk chunks ih =>
    have hchunk := h chunk List.mem_cons_self
    have hrest : ∀ c ∈ chunks, (b.addChunk st chunk).1.Has c := fun c hc =>
      (has_addChunk_iff hchunk).2 (h c (List.mem_cons_of_mem _ hc))
    exact (ih hrest).trans (addChunk_of_has hchunk).1

/-- The first chunk that is new is counted. -/
theorem addChunks_pos {chunks : List Bytes} (h : ∃ chunk ∈ chunks, ¬b.Has chunk) :
    st.counted.1 < (b.addChunks st chunks).2.counted.1 := by
  induction chunks generalizing b st with
  | nil =>
    obtain ⟨chunk, hmem, -⟩ := h
    cases hmem
  | cons chunk chunks ih =>
    rw [addChunks]
    by_cases hhas : b.Has chunk
    · rw [← (@addChunk_of_has b st chunk hhas).1]
      refine ih ?_
      obtain ⟨c, hmem, hnew⟩ := h
      rcases List.mem_cons.1 hmem with rfl | hmem
      · exact absurd hhas hnew
      · exact ⟨c, hmem, fun hc => hnew ((has_addChunk_iff hhas).1 hc)⟩
    · obtain ⟨-, -, hst⟩ := @addChunk_of_not_has b st chunk hhas
      obtain ⟨more, -, -, hst'⟩ := addChunks_tally chunks (b.addChunk st chunk).1
        (b.addChunk st chunk).2
      rw [hst', hst]
      simp only [Prod.fst_add]
      omega

/-- A read wastes nothing if and only if no chunk that it left behind was new. -/
theorem wasted_eq_zero_iff (b : Backup) (read : FileRead) : b.wasted read = 0 ↔ ¬b.Wastes read := by
  cases read with
  | unreadable | bytes => exact iff_of_true rfl id
  | broken delivered reason =>
    by_cases h : ∃ chunk ∈ b.chunker.cutFailing delivered, ¬b.Has chunk
    · have hpos := @addChunks_pos b {} _ h
      refine iff_of_false (fun hzero => ?_) fun hnot => hnot h
      rw [show (b.addChunks {} (b.chunker.cutFailing delivered)).2.counted = 0 from hzero] at hpos
      exact absurd hpos (by simp)
    · refine iff_of_true ?_ h
      push Not at h
      exact addChunks_of_has h

end Chunks

/-! ### Files -/

section Files

variable {b : Backup}

theorem chunkBytes_tally (b : Backup) (content : Bytes) :
    tally (b.chunkBytes content).2.stored =
        tally b.stored + ((b.chunkBytes content).1.chunksNew, (b.chunkBytes content).1.bytesNew) ∧
      (b.chunkBytes content).2.counted = b.counted := by
  obtain ⟨new, hstored, hcounted, hst⟩ := addChunks_tally (b.chunker.cut content) b {}
  have hnew : (b.addChunks {} (b.chunker.cut content)).2.counted = new := by
    rw [hst]
    exact zero_add new
  exact ⟨by rw [← hnew] at hstored; exact hstored, hcounted⟩

theorem countBytes_tally (b : Backup) (f : FileFacts) (size : ℕ) :
    (b.countBytes f size).stored = b.stored ∧ (b.countBytes f size).counted = b.counted := by
  unfold countBytes
  split
  · split_ifs
    · exact ⟨rfl, rfl⟩
    · exact ⟨rfl, rfl⟩
  · exact ⟨rfl, rfl⟩

/-- The list of the chunks of a long file is counted at once. -/
theorem storeContent_tally (b : Backup) (result : FileResult) :
    ∃ new, tally (b.storeContent result).2.stored = tally b.stored + new ∧
      (b.storeContent result).2.counted = b.counted + new := by
  unfold storeContent
  split_ifs
  · exact ⟨0, (add_zero _).symm, (add_zero _).symm⟩
  · obtain ⟨hstored, hcounted⟩ := b.chunkBytes_tally (b.repo.keys.encodeList (.new result.chunks))
    exact ⟨_, hstored, by rw [← hcounted]; rfl⟩

/-- **One read.** What it stores it adds to the report, but for what it wastes. -/
theorem balanced_readFile (b : Backup) (f : FileFacts) (read : FileRead) :
    ∃ new, tally (b.readFile f read).2.stored = tally b.stored + (new + b.wasted read) ∧
      (b.readFile f read).2.counted = b.counted + new := by
  cases read with
  | unreadable reason => exact ⟨0, (add_zero _).symm, (add_zero _).symm⟩
  | broken delivered reason =>
    obtain ⟨new, hstored, hcounted, hst⟩ := addChunks_tally (b.chunker.cutFailing delivered) b {}
    have hnew : (b.addChunks {} (b.chunker.cutFailing delivered)).2.counted = new := by
      rw [hst]
      exact zero_add new
    refine ⟨0, ?_, by rw [add_zero]; exact hcounted⟩
    rw [zero_add]
    exact hstored.trans (by rw [← hnew]; rfl)
  | bytes content =>
    obtain ⟨hstored₁, hcounted₁⟩ := b.chunkBytes_tally content
    set r := b.chunkBytes content with hr
    obtain ⟨hstored₂, hcounted₂⟩ := countBytes_tally r.2 f r.1.bytesTotal
    let b₂ : Backup := { r.2.countBytes f r.1.bytesTotal with
      report.bytesStored := (r.2.countBytes f r.1.bytesTotal).report.bytesStored + r.1.bytesNew
      report.chunksNew := (r.2.countBytes f r.1.bytesTotal).report.chunksNew + r.1.chunksNew }
    have hb₂ : b₂.counted = b.counted + (r.1.chunksNew, r.1.bytesNew) := by
      rw [← hcounted₁, ← hcounted₂]
      rfl
    have hs₂ : tally b₂.stored = tally b.stored + (r.1.chunksNew, r.1.bytesNew) := by
      rw [← hstored₁, ← hstored₂]
      rfl
    obtain ⟨new, hstored, hcounted⟩ := storeContent_tally b₂ r.1
    refine ⟨(r.1.chunksNew, r.1.bytesNew) + new, ?_, ?_⟩
    · rw [← add_assoc, ← add_assoc, ← hs₂, ← hstored]
      unfold readFile
      simp only [chunkReader, ← hr]
      cases hardlinkKey f <;> rfl
    · rw [← add_assoc, ← hb₂, ← hcounted]
      unfold readFile
      simp only [chunkReader, ← hr]
      cases hardlinkKey f <;> rfl

end Files

/-! ### Runs -/

/-- A run by its steps, with the reads that it has made and the states before them. -/
inductive Run (start : Backup) : List (Backup × FileRead) → Backup → Prop
  | start : Run start [] start
  | note {reads : List (Backup × FileRead)} {b : Backup} (h : Run start reads b)
    (stats : SnapshotStats) (report : BackupReport) (referenced : Dict ObjectId (List ChunkId))
    (hardlinks : Dict InodeKey FileContent) (countedHardlinks : List InodeKey) (tick : ℕ)
    (hsame : SameUploads b.report report) :
    Run start reads { b with stats, report, referenced, hardlinks, countedHardlinks, tick }
  | tree {reads : List (Backup × FileRead)} {b : Backup} (h : Run start reads b) {t : Tree}
    {r : TreeId × Backup} (hwrite : b.writeTree t = .ok r) : Run start reads r.2
  | read {reads : List (Backup × FileRead)} {b : Backup} (h : Run start reads b) (f : FileFacts)
    (read : FileRead) : Run start (reads ++ [(b, read)]) (b.readFile f read).2

section Run

variable {start b : Backup} {reads : List (Backup × FileRead)}

/-- A walk goes on with a run. -/
theorem along_run (start : Backup) : Along fun b b' =>
    ∀ reads, Run start reads b → ∃ more, Run start (reads ++ more) b' where
  refl b reads h := ⟨[], by rwa [List.append_nil]⟩
  trans h h' reads hrun := by
    obtain ⟨more, hmore⟩ := h reads hrun
    obtain ⟨more', hmore'⟩ := h' _ hmore
    exact ⟨more ++ more', by rwa [← List.append_assoc]⟩
  note b stats report referenced hardlinks countedHardlinks tick hsame reads h :=
    ⟨[], by
      rw [List.append_nil]
      exact .note h stats report referenced hardlinks countedHardlinks tick hsame⟩
  tree hwrite reads h := ⟨[], by
    rw [List.append_nil]
    exact .tree h hwrite⟩
  read b f read reads h := ⟨[(b, read)], .read h f read⟩

/-- The walk of all sources is a run. -/
theorem run_prepareRoots {exclude : Exclusions} {parentRoots : List Root}
    {plans : List (Bytes × RootPlan)} {r : List Root × Backup}
    (h : start.prepareRoots exclude parentRoots plans = .ok r) : ∃ reads, Run start reads r.2 :=
  (along_run start).prepareRoots h [] .start

/-- A tree that is written changes nothing but trees. -/
theorem writeTree_tally {t : Tree} {r : TreeId × Backup} (h : b.writeTree t = .ok r) :
    r.2.stored = b.stored ∧ r.2.counted = b.counted ∧ r.2.newPacks = b.newPacks ∧
      r.2.repo.store.packs = b.repo.store.packs := by
  obtain ⟨id, b'⟩ := r
  obtain ⟨-, -, ⟨-, rfl⟩ | ⟨b₁, rfl, rfl | rfl⟩⟩ := writeTree_cases h
  · exact ⟨rfl, rfl, rfl, rfl⟩
  · unfold putTreeReplica putTree
    split <;> split_ifs <;> exact ⟨rfl, rfl, rfl, rfl⟩
  · unfold touchTree putTreeReplica putTree
    split <;> split_ifs <;> exact ⟨rfl, rfl, rfl, rfl⟩

/-- What the reads of a run have wasted. -/
def wastedBy (reads : List (Backup × FileRead)) : ℕ × ℕ :=
  (reads.map fun r => r.1.wasted r.2).sum

/-- **A run.** What it has stored it has counted, but for what its reads have wasted. -/
theorem Run.balanced (h : Run start reads b) (hstart : tally start.stored = start.counted) :
    tally b.stored = b.counted + wastedBy reads := by
  induction h with
  | start => exact hstart
  | note h stats report referenced hardlinks countedHardlinks tick hsame ih =>
    refine ih.trans ?_
    congr 1
    exact Prod.ext hsame.1.symm hsame.2.symm
  | tree h hwrite ih =>
    obtain ⟨hstored, hcounted, -⟩ := writeTree_tally hwrite
    rw [hstored, hcounted]
    exact ih
  | @read reads b h f read ih =>
    obtain ⟨new, hstored, hcounted⟩ := b.balanced_readFile f read
    rw [hstored, hcounted, ih, wastedBy, wastedBy, List.map_append, List.sum_append,
      List.map_singleton, List.sum_singleton, add_assoc, add_assoc]
    congr 1
    rw [← add_assoc, ← add_assoc, add_comm _ new]

theorem wastedBy_eq_zero_iff : wastedBy reads = 0 ↔ ∀ r ∈ reads, ¬r.1.Wastes r.2 := by
  unfold wastedBy
  rw [List.sum_eq_zero_iff, List.forall_mem_map]
  exact forall₂_congr fun r _ => wasted_eq_zero_iff r.1 r.2

end Run

/-! ### Packs -/

/-- The entry of the index for a pack that was put. -/
def indexPackOf (w : ObjectId × Pack) : IndexPack := ⟨w.1, w.2.size, w.2.chunks.map Prod.fst⟩

/-- The packs that were put since the store had those of `packs`. -/
structure Wrote (packs : Dict ObjectId Pack) (written : List (ObjectId × Pack)) (b : Backup) :
    Prop where
  packs : b.repo.store.packs = written.foldl (fun d w => d.insert w.1 w.2) packs
  newPacks : b.newPacks = written.map indexPackOf

section Wrote

variable {packs : Dict ObjectId Pack} {written : List (ObjectId × Pack)} {b b' : Backup}

theorem Wrote.flushPack (h : Wrote packs written b) :
    ∃ written, Wrote packs written b.flushPack := by
  unfold Backup.flushPack
  split_ifs
  · exact ⟨written, h⟩
  · let pack : Pack := ⟨b.repo.keys.packLen (b.packer.chunks.map Prod.fst), b.packer.chunks⟩
    refine ⟨written ++ [(b.repo.keys.packId b.nonce b.packer.chunks, pack)], ?_, ?_⟩
    · rw [List.foldl_append, ← h.packs]
      rfl
    · rw [List.map_append, ← h.newPacks]
      rfl

theorem Wrote.storeChunk (h : Wrote packs written b) (st : ChunkState) (id : ChunkId)
    (chunk : Bytes) (m : Bool) : ∃ written, Wrote packs written (b.storeChunk st id chunk m).1 := by
  unfold Backup.storeChunk
  dsimp only
  split
  · exact @Wrote.flushPack packs written _ ⟨h.packs, h.newPacks⟩
  · exact ⟨written, h.packs, h.newPacks⟩

/-- One step of a backup. -/
theorem Wrote.does (hdoes : Does b b') (h : ∃ written, Wrote packs written b) :
    ∃ written, Wrote packs written b' := by
  obtain ⟨written, h⟩ := h
  cases hdoes with
  | note => exact ⟨written, h.packs, h.newPacks⟩
  | chunk st chunk =>
    unfold Backup.addChunk
    dsimp only
    split
    · split_ifs
      · exact h.storeChunk _ _ chunk true
      · exact ⟨written, h.packs, h.newPacks⟩
    · exact h.storeChunk _ _ chunk false
  | tree t r hwrite =>
    obtain ⟨-, -, hnewPacks, hpacks⟩ := writeTree_tally hwrite
    exact ⟨written, hpacks.trans h.packs, hnewPacks.trans h.newPacks⟩

end Wrote

/-- The chunks of packs. -/
def entriesOf (written : List (ObjectId × Pack)) : List PackEntry :=
  written.flatMap fun w => w.2.chunks.map Prod.fst

/-- What the commit is told of the uploads. -/
theorem finish_uploads (b : Backup) (opts : BackupOptions) (started : Time) (roots : List Root)
    (parentKey : Option SnapshotKey) :
    (b.finish opts started roots parentKey).report = b.flushPack.report ∧
      (b.finish opts started roots parentKey).ownPacks = b.flushPack.newPacks.map IndexPack.pack ∧
      (b.finish opts started roots parentKey).repo.store.packs = b.flushPack.repo.store.packs := by
  refine ⟨rfl, rfl, ?_⟩
  unfold finish
  dsimp only
  split_ifs <;> rfl

/-- At the end of a run nothing waits to be put. -/
theorem stored_of_wrote {packs : Dict ObjectId Pack} {written : List (ObjectId × Pack)} {b : Backup}
    (h : Wrote packs written b.flushPack) : b.stored = entriesOf written := by
  have hempty : b.flushPack.packer.chunks = [] := by
    unfold flushPack
    by_cases hempty : b.packer.chunks = []
    · rwa [if_pos hempty]
    · rw [if_neg hempty]
      rfl
  rw [← stored_flushPack, stored, hempty, h.newPacks, List.map_nil, List.append_nil,
    List.flatMap_map]
  rfl

end Backup

/-- The report counts what is in the packs. -/
def BackupReport.Accounts (report : BackupReport) (written : List (ObjectId × Pack)) : Prop :=
  report.chunksNew = (Backup.entriesOf written).length ∧
    report.bytesStored = ((Backup.entriesOf written).map PackEntry.rawLen).sum

section Prepare

variable {repo : Repository} {opts : BackupOptions} {nonce : ℕ} {started now : Time}
  {p : PreparedBackup}

/-- **The accounting of uploads.** The walk of a backup is a run of reads, and `written` are the
packs that it puts. The report agrees with these packs if and only if none of the reads broke off
behind a chunk that was new. -/
theorem upload_accounting (h : repo.backupPrepare opts nonce started now = .ok p) :
    ∃ (prep : Prepared repo opts nonce started now p) (written : List (ObjectId × Pack)),
      p.repo.store.packs = written.foldl (fun d w => d.insert w.1 w.2) repo.store.packs ∧
        p.ownPacks = written.map Prod.fst ∧
          (∃ reads, Backup.Run prep.start reads prep.walked.2) ∧
            ∀ reads, Backup.Run prep.start reads prep.walked.2 →
              (p.report.Accounts written ↔ ∀ r ∈ reads, ¬r.1.Wastes r.2) := by
  obtain ⟨prep⟩ := backupPrepare_ok h
  obtain ⟨written₀, hwrote₀⟩ : ∃ written, Backup.Wrote repo.store.packs written prep.walked.2 :=
    (Backup.prepareRoots_advances prep.walk).invariant (fun _ _ => Backup.Wrote.does)
      ⟨[], rfl, rfl⟩
  obtain ⟨written, hwrote⟩ := hwrote₀.flushPack
  obtain ⟨hreport, hown, hpacks⟩ := prep.walked.2.finish_uploads opts started prep.walked.1
    (prep.parent.map Prod.fst)
  have hmade := prep.eq
  refine ⟨prep, written, ?_, ?_, Backup.run_prepareRoots prep.walk, fun reads hrun => ?_⟩
  · exact (congrArg (fun p => p.repo.store.packs) hmade).trans (hpacks.trans hwrote.packs)
  · refine (congrArg PreparedBackup.ownPacks hmade).trans (hown.trans ?_)
    rw [hwrote.newPacks, List.map_map]
    rfl
  · have hbalanced := hrun.balanced rfl
    rw [Backup.stored_of_wrote hwrote, ← Backup.counted_flushPack] at hbalanced
    rw [← Backup.wastedBy_eq_zero_iff, BackupReport.Accounts,
      (congrArg PreparedBackup.report hmade).trans hreport]
    have hfirst := congrArg Prod.fst hbalanced
    have hsecond := congrArg Prod.snd hbalanced
    simp only [Backup.counted, tally, Prod.fst_add, Prod.snd_add] at hfirst hsecond
    rw [Prod.ext_iff, Prod.fst_zero, Prod.snd_zero]
    omega

end Prepare

theorem upload_accounting_oneByte :
    ∃ p, Repository.emptyIdeal.backupPrepare oneByteOptions 0 100 100 = .ok p ∧
      p.report.chunksNew = 1 ∧ ∃ (prep : Prepared Repository.emptyIdeal oneByteOptions 0 100 100 p)
        (written : List (ObjectId × Pack)), p.ownPacks = written.map Prod.fst ∧
          ∀ reads, Backup.Run prep.start reads prep.walked.2 →
            (p.report.Accounts written ↔ ∀ r ∈ reads, ¬r.1.Wastes r.2) := by
  have hnew : (Repository.emptyIdeal.backupPrepare oneByteOptions 0 100 100).toOption.map
      (fun p => p.report.chunksNew) = some 1 := by decide +kernel
  cases hp : Repository.emptyIdeal.backupPrepare oneByteOptions 0 100 100 with
  | error e => rw [hp] at hnew; cases hnew
  | ok p =>
    rw [hp] at hnew
    obtain ⟨prep, written, -, hown, -, hiff⟩ := upload_accounting hp
    exact ⟨p, rfl, Option.some.inj hnew, prep, written, hown, hiff⟩

/-- Two KiB and a byte. -/
def twoKibBytes : Bytes := List.replicate 2049 7

/-- A directory `r` that holds the file `f` of these bytes. -/
def twoKib : SourceTree :=
  .ofItems
    [([], .dir ⟨0o40755, 0, 0, 5, 5, 1, 1, 3⟩),
      ([[114]], .dir ⟨0o40755, 0, 0, 5, 5, 2, 1, 2⟩),
      ([[114], [102]], .file ⟨0o100644, 0, 0, 5, 5, 3, 1, 1⟩ twoKibBytes)]
    ⟨by decide, by decide, by decide, by simp [Backup.isRegular]⟩

/-- The same, where the last byte of the file cannot be read. -/
def breakingFs : LocalFs :=
  let fs := twoKib.localFs fun _ => .ok [[114]]
  { fs with
    source := fun path =>
      { fs.source path with
        read := fun _ _ => .broken (twoKibBytes.take 2048) "input/output error" } }

/-- The source `r` of such a file system. -/
def breakingOptions : BackupOptions :=
  { oneByteOptions with source := .localPaths breakingFs [[114]] }

/-- A repository without objects, in which all chunks have 1 KiB. -/
def Repository.oneKibChunks : Repository where
  keys := { RepoKeys.ideal with chunkId := fun bytes => Cbor.ofBe bytes + 1 }
  config := ⟨⟨1024, 1024, 1024⟩, 4096, 0⟩
  store := ⟨∅, ∅, ∅, ∅, ∅, ∅, ∅, ∅⟩

/-- The first KiB is in the pack of the run, and the report counts nothing. -/
theorem not_upload_accounting :
    ∃ p, Repository.oneKibChunks.backupPrepare breakingOptions 0 100 100 = .ok p ∧
      ∀ written : List (ObjectId × Pack),
        p.repo.store.packs = written.foldl (fun d w => d.insert w.1 w.2) ∅ →
          p.ownPacks = written.map Prod.fst → ¬p.report.Accounts written := by
  have hrun : (Repository.oneKibChunks.backupPrepare breakingOptions 0 100 100).toOption.map
      (fun p => (p.report.chunksNew, p.ownPacks,
        (p.repo.store.packs.lookup 1).map fun pack => pack.chunks.length)) =
      some (0, [1], some 1) := by decide +kernel
  cases hp : Repository.oneKibChunks.backupPrepare breakingOptions 0 100 100 with
  | error e => rw [hp] at hrun; cases hrun
  | ok p =>
    rw [hp] at hrun
    obtain ⟨hnew, hrest⟩ := Prod.mk.inj (Option.some.inj hrun)
    obtain ⟨hown, hpack⟩ := Prod.mk.inj hrest
    refine ⟨p, rfl, fun written hpacks hwritten haccounts => ?_⟩
    rw [hown] at hwritten
    obtain ⟨w, rfl, hw⟩ : ∃ w, written = [w] ∧ w.1 = 1 := by
      cases written with
      | nil => cases hwritten
      | cons w rest =>
        obtain ⟨hw, hrest⟩ := List.cons.inj hwritten
        exact ⟨w, by rw [List.map_eq_nil_iff.1 hrest.symm], hw.symm⟩
    rw [hpacks, List.foldl_cons, List.foldl_nil, Dict.lookup_insert', if_pos hw.symm,
      Option.map_some, Option.some.injEq] at hpack
    have hcount := haccounts.1
    rw [hnew, Backup.entriesOf, List.flatMap_singleton, List.length_map, hpack] at hcount
    exact absurd hcount (by decide)

end Kist
