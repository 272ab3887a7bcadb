import InstantMirror.Download

/-!
# From one disk to another

What a mirror is for, in two steps. The torrent is made: `set_piece_hashes` reads one piece after
another into the same buffer and hashes it (`InstantMirror.Libtorrent.setPieceHashes`). It looks at
errors only, not at how much was read, so after a short read the end of the piece before is hashed
once more; the hashes are those of the files where the reads are whole
(`InstantMirror.Libtorrent.setPieceHashes_eq`).

The torrent is downloaded elsewhere, from an empty disk or with some of its files there already.
When `getTorrent` has waited for a file, that file is byte for byte the one that was hashed
(`InstantMirror.Libtorrent.mirror_of_exitTest`), in whatever order the blocks came.
-/

namespace InstantMirror.Libtorrent

section Making

variable (S : HashSettings) (F : Files) (disk : SavedFiles) (io : ℕ → Transfers)

/-- What is in the buffer after a piece has been read into it. -/
def readPiece (i : ℕ) (buf : Bytes) : ℤ × Bytes :=
  let size := F.layout.pieceSize i
  let (ret, read) := readv F disk (io i) [buf.take size] i 0
  (ret, (fillBufs [buf.take size] read).flatten ++ buf.drop size)

/-- **The loop of `set_piece_hashes`**, for so many pieces from this one on. -/
def hashPieces : ℕ → ℕ → Bytes → Option (List Bytes)
  | _, 0, _ => some []
  | i, num + 1, buf =>
    let (ret, buf') := readPiece F disk io i buf
    if ret = -1 then none
    else
      let h := internalUpdate S.order (sha1Init S.junk) (buf'.take (F.layout.pieceSize i))
      (hashPieces (i + 1) num buf').map (sha1Final S.order h :: ·)

/-- **`set_piece_hashes`**, with what is in the buffer at first; `none` where it stops with an
error. -/
def setPieceHashes (buf : Bytes) : Option (List Bytes) :=
  hashPieces S F disk io 0 F.layout.numPieces buf

variable {F disk io} {buf : Bytes} {i : ℕ}

/-- **A piece is read** whole, and the buffer keeps its size. -/
theorem readPiece_eq (hpads : F.PadsEndPieces)
    (hall : ∀ pos < F.totalSize, ∃ b, F.byte disk pos = some b) (hio : (io i).Whole)
    (hi : i < F.layout.numPieces) (hbuf : buf.length = F.pieceLength) :
    (readPiece F disk io i buf).1 = F.layout.pieceSize i ∧
      (readPiece F disk io i buf).2.length = F.pieceLength ∧
      ((readPiece F disk io i buf).2.take (F.layout.pieceSize i)).length = F.layout.pieceSize i ∧
      F.HasBytes disk (i * F.pieceLength)
        ((readPiece F disk io i buf).2.take (F.layout.pieceSize i)) := by
  have hle := F.pieceSize_le i
  have hsum : bufsSize [buf.take (F.layout.pieceSize i)] = F.layout.pieceSize i := by
    rw [bufsSize_eq, List.flatten_cons, List.flatten_nil, List.append_nil, List.length_take]
    omega
  obtain ⟨-, hspec, hwhole⟩ := readv_spec disk hpads hi (io i)
    (show 0 + bufsSize [buf.take (F.layout.pieceSize i)] ≤ F.layout.pieceSize i by omega)
  rw [hsum] at hspec hwhole
  have hret := hwhole hio fun j hj => hall _ (by
    have := Files.piece_le_totalSize hi
    omega)
  obtain ⟨hread, hbytes⟩ := hspec hret
  rw [readPiece]
  generalize readv F disk (io i) [buf.take (F.layout.pieceSize i)] i 0 = res
    at hret hread hbytes ⊢
  obtain ⟨ret, read⟩ := res
  simp only at hret hread hbytes ⊢
  rw [flatten_fillBufs (by rw [hread, ← bufsSize_eq, hsum]), List.length_append, List.length_drop,
    hread, List.take_left' hread, hread]
  exact ⟨hret, by omega, rfl, hbytes⟩

/-- **The loop**: each hash is that of its piece on the disk. -/
theorem hashPieces_eq (hpads : F.PadsEndPieces) (hlength : F.pieceLength < 2 ^ 31)
    (hall : ∀ pos < F.totalSize, ∃ b, F.byte disk pos = some b) (hio : ∀ i, (io i).Whole) :
    ∀ {num i : ℕ} {buf : Bytes}, i + num ≤ F.layout.numPieces → buf.length = F.pieceLength →
      ∃ hashes, hashPieces S F disk io i num buf = some hashes ∧ ∀ j < num,
        ∃ bytes, bytes.length = F.layout.pieceSize (i + j) ∧
          F.HasBytes disk ((i + j) * F.pieceLength) bytes ∧ hashes[j]? = some (sha1 bytes) := by
  intro num
  induction num with
  | zero =>
    intro i buf _ _
    exact ⟨[], rfl, fun j hj => absurd hj (Nat.not_lt_zero j)⟩
  | succ num ih =>
    intro i buf hnum hbuf
    obtain ⟨hret, hkeep, htake, hbytes⟩ := readPiece_eq hpads hall (hio i) (by omega) hbuf
    have hle := F.pieceSize_le i
    rw [hashPieces]
    generalize readPiece F disk io i buf = res at hret hkeep htake hbytes ⊢
    obtain ⟨ret, buf'⟩ := res
    simp only at hret hkeep htake hbytes ⊢
    obtain ⟨hashes, hrest, hhashes⟩ := @ih (i + 1) buf' (by omega) hkeep
    have hhash : sha1Final S.order (internalUpdate S.order (sha1Init S.junk)
        (buf'.take (F.layout.pieceSize i))) = sha1 (buf'.take (F.layout.pieceSize i)) :=
      (S.holds_newHash.update S.order (by omega)).final S.order
    rw [if_neg (by omega), hrest, Option.map_some, hhash]
    refine ⟨_, rfl, fun j hj => ?_⟩
    rcases j with _ | j
    · exact ⟨_, htake, hbytes, rfl⟩
    · obtain ⟨bytes, hlength', hbytes', hget⟩ := hhashes j (by omega)
      rw [show i + 1 + j = i + (j + 1) by omega] at hlength' hbytes'
      exact ⟨bytes, hlength', hbytes', hget⟩

/-- **The hashes of a torrent are those of its pieces**, if its files are there and are read without
error. -/
theorem setPieceHashes_eq (hpads : F.PadsEndPieces) (hlength : F.pieceLength < 2 ^ 31)
    (hall : ∀ pos < F.totalSize, ∃ b, F.byte disk pos = some b) (hio : ∀ i, (io i).Whole)
    (hbuf : buf.length = F.pieceLength) :
    ∃ hashes, setPieceHashes S F disk io buf = some hashes ∧ ∀ i < F.layout.numPieces,
      ∃ bytes, bytes.length = F.layout.pieceSize i ∧
        F.HasBytes disk (i * F.pieceLength) bytes ∧ hashes[i]? = some (sha1 bytes) := by
  obtain ⟨hashes, hsome, hhashes⟩ := hashPieces_eq S hpads hlength hall hio
    (Nat.zero_add F.layout.numPieces).le hbuf
  refine ⟨hashes, hsome, fun i hi => ?_⟩
  obtain ⟨bytes, hbytes⟩ := hhashes i hi
  rw [Nat.zero_add] at hbytes
  exact ⟨bytes, hbytes⟩

end Making

section Mirror

variable {S : HashSettings} {F : Files} {source disk : SavedFiles} {k : ℕ} {onDisk : ℕ → Bool}
  {d : Download}

/-- **What is downloaded is what was put into the torrent.** The files of the source are hashed, and
the torrent is downloaded in any order of steps: when the waiting loop ends, the file it waits for
has, on this disk and on that of the source, the same bytes – unless some piece here has the hash of
the piece there, and other bytes. -/
theorem mirror_of_exitTest (hapart : F.Apart) (hpads : F.PadsEndPieces)
    (hlength : F.pieceLength < 2 ^ 31)
    (hall : ∀ pos < F.totalSize, ∃ b, F.byte source pos = some b)
    {io : ℕ → Transfers} (hio : ∀ i, (io i).Whole) {buf : Bytes} (hbuf : buf.length = F.pieceLength)
    {hashes : List Bytes} (hmade : setPieceHashes S F source io buf = some hashes)
    (hdisk : ∀ i < F.layout.numPieces, onDisk i = true →
      PieceOnDisk F (fun i => hashes.getD i []) disk i)
    (hsteps : Relation.ReflTransGen (DownloadStep S F (fun i => hashes.getD i []) k onDisk)
      (.start F.layout disk) d)
    (hcollision : ∀ i < F.layout.numPieces, ∀ bytes bytes' : Bytes,
      bytes.length = F.layout.pieceSize i → bytes'.length = F.layout.pieceSize i →
      F.HasBytes d.manager.disk (i * F.pieceLength) bytes →
      F.HasBytes source (i * F.pieceLength) bytes' → sha1 bytes = sha1 bytes' → bytes = bytes')
    (hexit : exitTest d.torrent = true) {f : StorageFile} (hf : F.entries[k]? = some f) :
    ∀ o < f.size, f.byte d.manager.disk o = f.byte source o := by
  intro o ho
  obtain ⟨hashes', hsome, hpieces⟩ := setPieceHashes_eq S hpads hlength hall hio hbuf
  obtain rfl := Option.some.inj (hmade.symm.trans hsome)
  choose! pieces hsizes hbytes hget using hpieces
  have hok := downloadOk_of_steps hapart hpads hlength hdisk hsteps
  have hhashes : ∀ i < F.layout.numPieces, hashes.getD i [] = sha1 (pieces i) := fun i hi => by
    rw [List.getD_eq_getElem?_getD, hget i hi, Option.getD_some]
  obtain ⟨hi, hmod, hbyte⟩ := hok.byte_of_exitTest hhashes
    (fun i hi bytes hsize hthere hhash => hcollision i hi bytes (pieces i) hsize (hsizes i hi)
      hthere (hbytes i hi) hhash) hexit hf rfl ho
  have hsource := Files.hasBytes_iff.mp (hbytes _ hi) _ (hsizes _ hi ▸ hmod)
  rw [Nat.div_add_mod', F.fileOffset_eq, Files.byte_eq hf ho, ← F.fileOffset_eq] at hsource
  rw [hbyte, hsource]

/-- Both files of the source. -/
def bothSaved : SavedFiles := fun path =>
  if path = [97] then some [1, 2, 3, 4] else some [5, 6, 7, 8]

theorem eq_of_hasBytes_bothSaved {bytes : Bytes} (hlength : bytes.length = 4)
    (h : twoPieces.HasBytes bothSaved 0 bytes) : bytes = [1, 2, 3, 4] := by
  rw [Files.HasBytes, hlength] at h
  exact List.map_injective_iff.mpr (Option.some_injective _) h

theorem mirror_of_exitTest_twoPieces :
    ∃ d : Download, exitTest d.torrent = true ∧ ∀ o < 4,
      StorageFile.byte ⟨[97], 4, 0, false⟩ d.manager.disk o =
        StorageFile.byte ⟨[97], 4, 0, false⟩ bothSaved o := by
  have hall : ∀ pos < twoPieces.totalSize, ∃ b, twoPieces.byte bothSaved pos = some b := by
    intro pos hpos
    rw [← Option.isSome_iff_exists]
    revert pos
    decide
  have hio : ∀ i : ℕ, Transfers.Whole ((fun _ f _ => .done f.size : ℕ → Transfers) i) :=
    fun _ f _ => ⟨f.size, rfl, Nat.le_refl _⟩
  obtain ⟨hashes, hmade, hhashes⟩ := setPieceHashes_eq twoByteBlocks padsEndPieces_twoPieces
    (by decide) hall hio (show (List.replicate 4 0).length = twoPieces.pieceLength from rfl)
  have hfirst : hashes.getD 0 [] = sha1 [1, 2, 3, 4] := by
    obtain ⟨bytes, hlength, hbytes, hget⟩ := hhashes 0 (by decide)
    rw [List.getD_eq_getElem?_getD, hget, Option.getD_some,
      eq_of_hasBytes_bothSaved hlength (Nat.zero_mul 4 ▸ hbytes)]
  obtain ⟨d, hsteps, hexit, -, hdisk⟩ :=
    exists_download_twoPieces (fun i => hashes.getD i []) hfirst
  refine ⟨d, hexit, mirror_of_exitTest (by decide) padsEndPieces_twoPieces (by decide) hall hio rfl
    hmade (fun i _ hfound => by cases hfound) hsteps
    (fun i hi bytes bytes' hlength hlength' hhere hthere _ => ?_) hexit rfl⟩
  rw [hdisk] at hhere
  have hi' : i < 2 := hi
  interval_cases i
  · rw [eq_of_hasBytes_firstSaved hlength hhere, eq_of_hasBytes_bothSaved hlength' hthere]
  · exact absurd hhere (not_hasBytes_firstSaved hlength)

end Mirror

end InstantMirror.Libtorrent
