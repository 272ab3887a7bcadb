import InstantMirror.DownloadWait
import InstantMirror.Libtorrent.PieceManager

/-!
# What has been downloaded

A torrent that is downloaded is two machines side by side. The torrent keeps account of the pieces
that are there (`InstantMirror.Libtorrent.next`); the manager writes blocks and hashes pieces
(`InstantMirror.Libtorrent.writeImpl`, `InstantMirror.Libtorrent.hashForPieceImpl`), in the disk
thread. They meet where a hash has been compared with the one in the torrent: the disk thread
reports it, and later the torrent counts the piece (`InstantMirror.Libtorrent.DownloadStep`).

In whatever order these things happen, a piece that counts as downloaded is on the disk, with the
hash that is in the torrent (`InstantMirror.Libtorrent.piece_of_havePiece`). And when the loop in
which `getTorrent` waits comes to its end, the file it has been waiting for has the bytes of the
pieces that were hashed (`InstantMirror.Libtorrent.DownloadOk.byte_of_exitTest`), as far as no
piece on the disk is another text with the same hash.
-/

namespace InstantMirror.Libtorrent

/-! ### Which pieces an event adds -/

namespace Torrent

variable {L : Layout} {t : Torrent} {p : PiecePicker} {i : ℕ}

/-- Only the picker knows which pieces are there. -/
theorem havePiece_congr {t' : Torrent} (h : t'.picker = t.picker) :
    t'.havePiece i = t.havePiece i := by
  rw [havePiece, havePiece, h]

/-- **`finished` adds no piece**: the picker is dropped when all are there. -/
theorem havePiece_of_finished (hok : PickerOk L t.filePriority p) (hp : t.picker = some p)
    (hi : i < L.numPieces) (h : t.finished.havePiece i = true) : t.havePiece i = true := by
  rw [finished_of_picker hp] at h
  split_ifs at h with hcomplete
  · rw [havePiece, hp]
    exact (hok.complete_iff_havePiece.mp hcomplete).2 i hi
  · exact h

theorem havePiece_setPiecePriorities (p : PiecePicker) (pieces : List ℕ) (i : ℕ) :
    (p.setPiecePriorities 0 pieces).2.havePiece i = p.havePiece i := by
  rw [PiecePicker.havePiece, PiecePicker.havePiece, PiecePicker.getElem?_setPiecePriorities,
    Option.map_map]
  congr 2
  funext pos
  rw [Function.comp_apply]
  split_ifs <;> rfl

/-- **Priorities add no piece.** -/
theorem havePiece_of_prioritizeFiles (h : t.Inv L) {files : List ℕ} (hi : i < L.numPieces)
    (hhave : (t.prioritizeFiles L files).havePiece i = true) : t.havePiece i = true := by
  rw [prioritizeFiles] at hhave
  split_ifs at hhave with hseed hpieces
  · exact hhave
  · exact hhave
  · rcases hp : t.picker with _ | p
    · rw [havePiece, hp]
    · obtain ⟨hok, hseeding⟩ := h.pickerOk p hp
      rw [isSeed_of_picker hp hseeding, Bool.not_eq_true] at hseed
      rw [updatePiecePriorities, if_neg hpieces,
        prioritizePieces_of_picker (t := ⟨t.state, t.picker, files, t.phase⟩) hp hseeding hseed]
        at hhave
      have hok' := hok.setPiecePriorities files
      generalize hprio : priorityLoop L.pieceLength 0 L.sizes files
        (List.replicate L.numPieces 0) = pieces at hhave hok'
      have hsame : Torrent.havePiece ⟨t.state, some (p.setPiecePriorities 0 pieces).2, files,
          t.phase⟩ i = t.havePiece i := by
        rw [havePiece, havePiece, hp]
        exact havePiece_setPiecePriorities p pieces i
      rw [← hsame]
      split_ifs at hhave
      · rw [updatePeerInterest] at hhave
        split_ifs at hhave
        · exact havePiece_of_finished hok' rfl hi hhave
        · exact hhave
        · exact hhave
      · exact hhave

/-- **A piece that is found is added**, and no other. -/
theorem havePiece_of_weHave {index : ℕ} (h : (t.weHave index).havePiece i = true) :
    i = index ∨ t.havePiece i = true := by
  rcases hp : t.picker with _ | p
  · right
    rw [havePiece, hp]
  · rw [weHave_of_picker hp, havePiece] at h
    simp only [PiecePicker.havePiece, PiecePicker.getElem?_weHave] at h
    by_cases heq : index = i
    · exact Or.inl heq.symm
    · right
      rw [havePiece, hp]
      simpa only [PiecePicker.havePiece, if_neg heq, Option.map_id'] using h

theorem havePiece_of_found {found : Option ℕ} (h : (t.found found).havePiece i = true) :
    found = some i ∨ t.havePiece i = true := by
  cases found with
  | none => exact Or.inr h
  | some index =>
    rw [Torrent.found] at h
    split_ifs at h
    · exact Or.inr h
    · rcases havePiece_of_weHave h with rfl | hhave
      · exact Or.inl rfl
      · exact Or.inr hhave

/-- **The end of the check adds no piece.** -/
theorem havePiece_of_filesChecked (hok : PickerOk L t.filePriority p) (hp : t.picker = some p)
    (hi : i < L.numPieces) (h : (t.filesChecked L).havePiece i = true) :
    t.havePiece i = true := by
  have hstart : t.startDownload.picker = t.picker ∧
      t.startDownload.filePriority = t.filePriority := by
    rw [startDownload]
    split_ifs <;> exact ⟨rfl, rfl⟩
  rw [← havePiece_congr hstart.1]
  have hfinish : (t.startDownload.finishCheck L).havePiece i = true := h
  have hfinished := havePiece_of_finished (t := t.startDownload) (hstart.2 ▸ hok)
    (hstart.1.trans hp) hi
  rw [finishCheck] at hfinish
  split_ifs at hfinish
  · exact hfinish
  · exact hfinished hfinish
  · exact hfinished hfinish
  · exact hfinish

/-- **`piece_passed` adds its piece**, and no other. -/
theorem havePiece_of_piecePassed (hok : PickerOk L t.filePriority p) (hp : t.picker = some p)
    {index : ℕ} (hindex : index < L.numPieces) (hi : i < L.numPieces)
    (h : (t.piecePassed L index).havePiece i = true) : i = index ∨ t.havePiece i = true := by
  refine havePiece_of_weHave ?_
  have hfinished := havePiece_of_finished (t := t.weHave index) (p := p.weHave index)
    (hok.weHave hindex) (by rw [weHave_of_picker hp]) hi
  rw [piecePassed] at h
  split_ifs at h
  · exact hfinished h
  · exact h

end Torrent

section Events

variable {L : Layout} {k : ℕ} {onDisk : ℕ → Bool} {t t' : Torrent}

/-- **Where a piece comes from**: it was there, it is found on the disk, or it has just passed. -/
theorem havePiece_of_next {e : Event} (hinv : t.Inv L) (he : next L k onDisk t e = some t') {i : ℕ}
    (hi : i < L.numPieces) (h : t'.havePiece i = true) :
    t.havePiece i = true ∨ t.phase ≠ .done ∧ onDisk i = true ∨ e = .piecePassed i := by
  -- a piece that is found was on the disk
  have hfound : ∀ {found}, t.phase ≠ .done → validFind L onDisk found = true →
      (t.found found).havePiece i = true →
      t.havePiece i = true ∨ t.phase ≠ .done ∧ onDisk i = true ∨ e = .piecePassed i := by
    intro found hphase hvalid hhave
    rcases Torrent.havePiece_of_found hhave with rfl | hhave
    · rw [validFind, Bool.and_eq_true] at hvalid
      exact Or.inr (Or.inl ⟨hphase, hvalid.2⟩)
    · exact Or.inl hhave
  have hchecked : ∀ {u : Torrent}, u.Inv L → u.phase ≠ .done →
      (u.filesChecked L).havePiece i = true → u.havePiece i = true := by
    intro u hu hphase hhave
    obtain ⟨p, hp⟩ := hu.exists_picker hphase
    exact Torrent.havePiece_of_filesChecked (hu.pickerOk p hp).1 hp hi hhave
  cases e with
  | prioritize =>
    obtain rfl := Option.some.inj he
    exact Or.inl (Torrent.havePiece_of_prioritizeFiles hinv hi h)
  | resumeChecked anyFile =>
    rw [next] at he
    split_ifs at he with hphase
    · obtain rfl := Option.some.inj he
      exact Or.inl h
    · obtain rfl := Option.some.inj he
      exact Or.inl (hchecked hinv (by rw [hphase]; decide) h)
  | startChecking =>
    rw [next] at he
    split_ifs at he
    obtain rfl := Option.some.inj he
    exact Or.inl h
  | pieceChecked found last =>
    rw [next] at he
    split_ifs at he with hcheck
    · obtain rfl := Option.some.inj he
      exact hfound (by rw [hcheck.1]; decide) hcheck.2 h
    · obtain rfl := Option.some.inj he
      have hphase : t.phase ≠ .done := by rw [hcheck.1]; decide
      refine hfound hphase hcheck.2 (hchecked (hinv.found hphase hcheck.2) ?_ h)
      rwa [(Torrent.sameFrame_found t found).2]
  | piecePassed index =>
    rw [next] at he
    split_ifs at he with hpassed
    obtain rfl := Option.some.inj he
    rcases hp : t.picker with _ | p
    · left
      rw [Torrent.havePiece, hp]
    · rcases Torrent.havePiece_of_piecePassed (hinv.pickerOk p hp).1 hp hpassed.2.1 hi h with
        rfl | hhave
      · exact Or.inr (Or.inr rfl)
      · exact Or.inl hhave

theorem sameFrame_prioritizeFiles (L : Layout) (t : Torrent) (files : List ℕ) :
    t.SameFrame (t.prioritizeFiles L files) ∨
      Torrent.SameFrame { t with filePriority := files } (t.prioritizeFiles L files) := by
  rw [Torrent.prioritizeFiles]
  split_ifs with hseed hpieces
  · exact Or.inl ⟨rfl, rfl⟩
  · exact Or.inl ⟨rfl, rfl⟩
  · rw [Torrent.updatePiecePriorities, if_neg hpieces]
    exact Or.inr (Torrent.sameFrame_prioritizePieces L _ _)

/-- **The check is made once.** -/
theorem phase_of_next {e : Event} (he : next L k onDisk t e = some t') (h : t'.phase ≠ .done) :
    t.phase ≠ .done := by
  cases change_of_next he with
  | prioritized =>
    rcases sameFrame_prioritizeFiles L t (requestOnly L.numFiles k) with hframe | hframe
    · rwa [hframe.2] at h
    · rwa [hframe.2] at h
  | queued hphase => rw [hphase]; decide
  | checking hphase => rw [hphase]; decide
  | found piece hphase hvalid => rw [hphase]; decide
  | checked piece hphase hvalid hall => exact hphase
  | passed index hphase hi hmissing =>
    refine absurd ?_ h
    have hfinished : (t.weHave index).finished.phase = t.phase :=
      (Torrent.sameFrame_finished _).2
    rw [Torrent.piecePassed]
    split_ifs
    · rw [hfinished, hphase]
    · exact hphase

/-- **The file that is wanted has a priority**, before it is asked for and after. -/
theorem filePriority_ne_zero (h : Reachable L k onDisk t) (hk : k < L.numFiles) :
    t.filePriority.getD k 0 ≠ 0 := by
  induction h with
  | refl =>
    rw [Torrent.init, List.getD_eq_getElem?_getD, List.getElem?_replicate, if_pos hk]
    decide
  | @tail t t' _ hstep ih =>
    obtain ⟨e, he⟩ := hstep
    cases change_of_next he with
    | prioritized =>
      rcases sameFrame_prioritizeFiles L t (requestOnly L.numFiles k) with hframe | hframe
      · rwa [hframe.1]
      · rw [hframe.1, requestOnly, List.getD_eq_getElem?_getD, List.getElem?_set_self (by simpa)]
        decide
    | queued hphase => exact ih
    | checking hphase => exact ih
    | found piece hphase hvalid => rwa [(Torrent.sameFrame_found t piece).1]
    | checked piece hphase hvalid hall =>
      rwa [Torrent.filePriority_filesChecked, (Torrent.sameFrame_found t piece).1]
    | passed index hphase hi hmissing => rwa [Torrent.filePriority_piecePassed]

/-- A file is in the torrent. -/
theorem Layout.fileOffset_add_le {j : ℕ} (hj : j < L.numFiles) :
    L.fileOffset j + L.fileSize j ≤ L.totalSize := by
  have hget := List.getElem?_eq_getElem (show j < L.sizes.length from hj)
  rw [Layout.fileOffset, Layout.fileSize, Layout.totalSize, sumSizes_eq_extent,
    sumSizes_eq_extent, List.getD_eq_getElem?_getD, hget, Option.getD_some,
    ← extent_take_succ hget]
  conv_rhs => rw [← List.take_append_drop (j + 1) L.sizes, extent_append]
  exact Nat.le_add_right _ _

/-- A piece in which a file has a part. -/
theorem Layout.Overlaps.lt {j i : ℕ} (h : L.Overlaps j i) : j < L.numFiles ∧ i < L.numPieces := by
  obtain ⟨b, hle, hlt, rfl⟩ := h
  have hj : j < L.numFiles := by
    by_contra hge
    rw [Layout.fileSize, List.getD_eq_getElem?_getD,
      List.getElem?_eq_none (Nat.not_lt.mp hge)] at hlt
    simp only [Option.getD_none] at hlt
    omega
  refine ⟨hj, ?_⟩
  have htotal := Layout.fileOffset_add_le hj
  have hmul := le_roundUp_mul L.totalSize L.pieceLength_pos
  have hlt' : b < L.numPieces * L.pieceLength := by
    rw [Layout.numPieces]
    omega
  exact (Nat.div_lt_iff_lt_mul L.pieceLength_pos).mpr hlt'

/-- Where a byte is in its piece. -/
theorem Layout.mod_lt_pieceSize {pos : ℕ} (h : pos < L.totalSize) :
    pos % L.pieceLength < L.pieceSize (pos / L.pieceLength) := by
  have hdiv := Nat.div_add_mod' pos L.pieceLength
  rw [Layout.pieceSize]
  split_ifs with hlast
  · rw [← hlast]
    omega
  · exact Nat.mod_lt _ L.pieceLength_pos

/-- **In the state `finished`, the file that is wanted is there.** -/
theorem hasFile_of_exitTest (h : Reachable L k onDisk t) (hexit : exitTest t = true) :
    HasFile L k t := by
  intro i hoverlaps
  obtain ⟨hk, hi⟩ := hoverlaps.lt
  have hinv := inv_of_reachable h
  have hstate : t.state = .finished := of_decide_eq_true hexit
  rcases hp : t.picker with _ | p
  · rw [Torrent.havePiece, hp]
  · have hok := (hinv.pickerOk p hp).1
    have hplace : i < p.pieceMap.length := by
      rw [hok.length]
      exact Nat.lt_of_lt_of_le hi Layout.numPieces_le_pickerPieces
    have hget := List.getElem?_eq_getElem hplace
    have hsettled := hok.done_iff.mp (hinv.finished_ok p hp hstate) i _ hi hget
    rw [PiecePos.settled, Bool.or_eq_true] at hsettled
    rcases hsettled with hhave | hfiltered
    · rw [Torrent.havePiece, hp]
      simpa [PiecePicker.havePiece, hget] using hhave
    · -- it is not filtered, since the file has a priority
      exact absurd ((hok.wanted i _ hi hget).mp hfiltered k hoverlaps) (filePriority_ne_zero h hk)

end Events

/-! ### The torrent and its manager -/

/-- **A download.** -/
structure Download where
  /-- The torrent. -/
  torrent : Torrent
  /-- The manager. -/
  manager : PieceManager
  /-- The pieces whose hash was right, according to the disk thread. -/
  verified : List ℕ

section Download

variable (S : HashSettings) (F : Files) (hashes : ℕ → Bytes) (k : ℕ) (onDisk : ℕ → Bool)

/-- **A step of a download.** The torrent counts a piece when the disk thread has reported it.
Blocks are downloaded of pieces that are missing and not reported. When a hash is right, all bytes
had been read for it. -/
inductive DownloadStep : Download → Download → Prop
  | torrent {d : Download} {t : Torrent} (e : Event)
      (he : next F.layout k onDisk d.torrent e = some t)
      (hpassed : ∀ i, e = .piecePassed i → i ∈ d.verified) :
      DownloadStep d { d with torrent := t }
  | write {d : Download} (block : Block F) (io : Transfers) (hphase : d.torrent.phase = .done)
      (hmissing : d.torrent.havePiece block.slot = false) (hnot : block.slot ∉ d.verified)
      (hfresh : block.Fresh d.manager) (hzero : block.PadsZero) :
      DownloadStep d { d with
        manager := (writeImpl S F io block.bufs block.slot block.offset d.manager).2 }
  | hash {d : Download} (piece : ℕ) (io : ℕ → Transfers) (hpiece : piece < F.layout.numPieces)
      (hread : (hashForPieceImpl S F io piece d.manager).1 = hashes piece →
        (hashForPieceImpl S F io piece d.manager).2.1 = F.layout.pieceSize piece -
          ((d.manager.hashers piece).getD S.newHash).offset) :
      DownloadStep d { d with
        manager := (hashForPieceImpl S F io piece d.manager).2.2
        verified := if (hashForPieceImpl S F io piece d.manager).1 = hashes piece then
          piece :: d.verified else d.verified }

/-- **A piece is on the disk**, with the hash that is in the torrent. -/
def PieceOnDisk (disk : SavedFiles) (i : ℕ) : Prop :=
  ∃ bytes, bytes.length = F.layout.pieceSize i ∧ F.HasBytes disk (i * F.pieceLength) bytes ∧
    sha1 bytes = hashes i

/-- **What holds of a download.** -/
structure DownloadOk (d : Download) : Prop where
  /-- The torrent is in a state it can be in. -/
  reachable : Reachable F.layout k onDisk d.torrent
  /-- The partial hashes are right. -/
  hashers : HashersOk F d.manager
  /-- Until the check is over, what was on the disk is there. -/
  untouched : d.torrent.phase ≠ .done → ∀ i < F.layout.numPieces, onDisk i = true →
    PieceOnDisk F hashes d.manager.disk i
  /-- What is reported is on the disk. -/
  verified : ∀ i ∈ d.verified, i < F.layout.numPieces ∧ PieceOnDisk F hashes d.manager.disk i
  /-- What counts as downloaded is on the disk. -/
  have_ : ∀ i < F.layout.numPieces, d.torrent.havePiece i = true →
    PieceOnDisk F hashes d.manager.disk i

variable {S F hashes k onDisk} {d d' : Download}

/-- A block of another piece leaves a piece as it is. -/
theorem PieceOnDisk.write (hapart : F.Apart) {disk : SavedFiles} {i : ℕ}
    (h : PieceOnDisk F hashes disk i) {block : Block F} {io : Transfers} (hne : i ≠ block.slot) :
    PieceOnDisk F hashes (block.write io disk).2 i := by
  obtain ⟨bytes, hlength, hbytes, hhash⟩ := h
  exact ⟨bytes, hlength,
    hbytes.write hapart (Nat.le_of_eq hlength) fun heq => absurd heq hne, hhash⟩

/-- **One step.** -/
theorem DownloadOk.step (hapart : F.Apart) (hpads : F.PadsEndPieces)
    (hlength : F.pieceLength < 2 ^ 31) (h : DownloadOk F hashes k onDisk d)
    (hstep : DownloadStep S F hashes k onDisk d d') : DownloadOk F hashes k onDisk d' := by
  cases hstep with
  | torrent e he hpassed =>
    have hinv := inv_of_reachable h.reachable
    refine ⟨h.reachable.tail ⟨e, he⟩, h.hashers, fun hphase => ?_, h.verified,
      fun i hi hhave => ?_⟩
    · exact h.untouched (phase_of_next he hphase)
    · rcases havePiece_of_next hinv he hi hhave with hhave | ⟨hphase, hdisk⟩ | rfl
      · exact h.have_ i hi hhave
      · exact h.untouched hphase i hi hdisk
      · exact (h.verified i (hpassed i rfl)).2
  | write block io hphase hmissing hnot hfresh hzero =>
    have hdisk := (writeImpl_cases (S := S) block io d.manager).1
    refine ⟨h.reachable, h.hashers.step hapart hlength (.write block io hfresh hzero),
      fun hphase' => absurd hphase hphase', fun i hi => ⟨(h.verified i hi).1, ?_⟩,
      fun i hi hhave => ?_⟩
    · simp only [hdisk]
      refine (h.verified i hi).2.write hapart ?_
      rintro rfl
      exact hnot hi
    · simp only [hdisk]
      refine (h.have_ i hi hhave).write hapart ?_
      rintro rfl
      rw [hmissing] at hhave
      cases hhave
  | hash piece io hpiece hread =>
    refine ⟨h.reachable, h.hashers.step hapart hlength (.hash (S := S) piece io), h.untouched,
      fun i hi => ?_, h.have_⟩
    simp only at hi
    split_ifs at hi with hhash
    · rcases List.mem_cons.mp hi with rfl | hi
      · obtain ⟨bytes, hbytes⟩ := h.hashers.hash hpads hpiece (hread hhash)
        exact ⟨hpiece, bytes, hbytes.1, hbytes.2.1, hbytes.2.2.symm.trans hhash⟩
      · exact h.verified i hi
    · exact h.verified i hi

/-- A download before anything has happened. -/
def Download.start (L : Layout) (disk : SavedFiles) : Download :=
  ⟨.init L, ⟨disk, fun _ => none⟩, []⟩

/-- **Any number of steps.** -/
theorem downloadOk_of_steps (hapart : F.Apart) (hpads : F.PadsEndPieces)
    (hlength : F.pieceLength < 2 ^ 31) {disk : SavedFiles}
    (hdisk : ∀ i < F.layout.numPieces, onDisk i = true → PieceOnDisk F hashes disk i)
    (hsteps : Relation.ReflTransGen (DownloadStep S F hashes k onDisk)
      (.start F.layout disk) d) : DownloadOk F hashes k onDisk d := by
  induction hsteps with
  | refl =>
    refine ⟨Relation.ReflTransGen.refl,
      fun piece ph hph => absurd hph (Option.some_ne_none ph).symm, fun _ => hdisk,
      fun i hi => absurd hi List.not_mem_nil, fun i hi hhave => ?_⟩
    have hplace : i < F.layout.pickerPieces :=
      Nat.lt_of_lt_of_le hi Layout.numPieces_le_pickerPieces
    simp [Download.start, Torrent.havePiece, Torrent.init, PiecePicker.havePiece, PiecePicker.init,
      hplace] at hhave
  | tail _ hstep ih => exact ih.step hapart hpads hlength hstep

/-- **A piece that counts as downloaded is on the disk**, with the hash that is in the torrent, in
whatever order blocks were written, pieces were hashed and the torrent heard of it. -/
theorem piece_of_havePiece (hapart : F.Apart) (hpads : F.PadsEndPieces)
    (hlength : F.pieceLength < 2 ^ 31) {disk : SavedFiles}
    (hdisk : ∀ i < F.layout.numPieces, onDisk i = true → PieceOnDisk F hashes disk i)
    (hsteps : Relation.ReflTransGen (DownloadStep S F hashes k onDisk)
      (.start F.layout disk) d) {i : ℕ} (hi : i < F.layout.numPieces)
    (hhave : d.torrent.havePiece i = true) : PieceOnDisk F hashes d.manager.disk i :=
  (downloadOk_of_steps hapart hpads hlength hdisk hsteps).have_ i hi hhave

/-- **The bytes of the wanted file when the waiting loop ends**: those of the pieces that were
hashed for the torrent, as far as no piece on the disk is another text with the same hash. -/
theorem DownloadOk.byte_of_exitTest (hok : DownloadOk F hashes k onDisk d) {pieces : ℕ → Bytes}
    (hhashes : ∀ i < F.layout.numPieces, hashes i = sha1 (pieces i))
    (hcollision : ∀ i < F.layout.numPieces, ∀ bytes, bytes.length = F.layout.pieceSize i →
      F.HasBytes d.manager.disk (i * F.pieceLength) bytes → sha1 bytes = sha1 (pieces i) →
      bytes = pieces i)
    (hexit : exitTest d.torrent = true) {f : StorageFile} (hf : F.entries[k]? = some f) {pos o : ℕ}
    (hpos : pos = F.fileOffset k + o) (ho : o < f.size) :
    pos / F.pieceLength < F.layout.numPieces ∧
      pos % F.pieceLength < F.layout.pieceSize (pos / F.pieceLength) ∧
      f.byte d.manager.disk o = (pieces (pos / F.pieceLength))[pos % F.pieceLength]? := by
  have hsize : F.layout.fileSize k = f.size := by
    rw [Layout.fileSize, show F.layout.sizes = F.sizes from rfl, List.getD_eq_getElem?_getD,
      F.getElem?_sizes, hf]
    rfl
  have hlt : pos < F.fileOffset k + f.size := by omega
  have hoverlaps : F.layout.Overlaps k (pos / F.pieceLength) :=
    ⟨pos, hpos ▸ Nat.le_add_right _ _, by rw [hsize]; exact hlt, rfl⟩
  obtain ⟨hk, hi⟩ := hoverlaps.lt
  have htotal := Layout.fileOffset_add_le hk
  rw [hsize] at htotal
  have hmod : pos % F.pieceLength < F.layout.pieceSize (pos / F.pieceLength) :=
    Layout.mod_lt_pieceSize (Nat.lt_of_lt_of_le hlt htotal)
  refine ⟨hi, hmod, ?_⟩
  obtain ⟨bytes, hbytes, hthere, hhash⟩ := hok.have_ _ hi
    (hasFile_of_exitTest hok.reachable hexit _ hoverlaps)
  have hbyte := Files.hasBytes_iff.mp hthere _ (hbytes ▸ hmod)
  rw [Nat.div_add_mod'] at hbyte
  rw [← hcollision _ hi bytes hbytes hthere (hhash.trans (hhashes _ hi)), ← hbyte, hpos,
    F.fileOffset_eq, Files.byte_eq hf ho]

/-- Two files of four bytes, each a piece. -/
def twoPieces : Files := { twoFiles with entries := [⟨[97], 4, 0, false⟩, ⟨[98], 4, 0, false⟩] }

/-- The first piece. -/
def firstPiece : Block twoPieces :=
  ⟨[[1, 2], [3, 4]], 0, 0, Nat.le_of_ble_eq_true rfl, Nat.le_of_ble_eq_true rfl, rfl⟩

theorem isPad_twoPieces (pos : ℕ) : twoPieces.isPad pos = false := by
  rw [Files.isPad]
  generalize locateFrom 0 twoPieces.sizes pos = place
  rcases place with _ | ⟨i, o⟩
  · rfl
  · rcases i with _ | _ | i <;> rfl

theorem padsEndPieces_twoPieces : twoPieces.PadsEndPieces := by
  intro i hi hpad
  have hi' : i < 2 := hi
  interval_cases i <;> cases hpad

/-- What is on the disk when the first file has been downloaded. -/
def firstSaved : SavedFiles := fun path => if path = [97] then some [1, 2, 3, 4] else none

theorem eq_of_hasBytes_firstSaved {bytes : Bytes} (hlength : bytes.length = 4)
    (h : twoPieces.HasBytes firstSaved 0 bytes) : bytes = [1, 2, 3, 4] := by
  rw [Files.HasBytes, hlength] at h
  exact List.map_injective_iff.mpr (Option.some_injective _) h

theorem not_hasBytes_firstSaved {bytes : Bytes} (hlength : bytes.length = 4) :
    ¬ twoPieces.HasBytes firstSaved 4 bytes := by
  intro h
  have hnone := Files.hasBytes_iff.mp h 0 (hlength ▸ Nat.succ_pos 3)
  rw [List.getElem?_eq_getElem (hlength ▸ Nat.succ_pos 3)] at hnone
  cases hnone

/-- The manager has written the first piece. -/
def firstWritten : PieceManager :=
  (writeImpl twoByteBlocks twoPieces (fun f _ => .done f.size) firstPiece.bufs 0 0
    ⟨fun _ => none, fun _ => none⟩).2

theorem hashersOk_firstWritten : HashersOk twoPieces firstWritten := by
  have hstep : ManagerStep twoByteBlocks twoPieces ⟨fun _ => none, fun _ => none⟩ firstWritten := by
    refine .write firstPiece _ (fun ph hph => by cases hph) fun i _ hpad => ?_
    rw [isPad_twoPieces] at hpad
    cases hpad
  exact hashersOk_of_steps (by decide) (by decide) (Relation.ReflTransGen.single hstep)

theorem disk_firstWritten : firstWritten.disk = firstSaved := by
  funext path
  by_cases hpath : path = [97]
  · rw [hpath]
    rfl
  · rw [firstSaved, if_neg hpath]
    exact Function.update_of_ne hpath _ _

theorem hashForPieceImpl_firstWritten :
    (hashForPieceImpl twoByteBlocks twoPieces (fun _ f _ => .done f.size) 0 firstWritten).1 =
      sha1 [1, 2, 3, 4] := by
  have hread : (hashForPieceImpl twoByteBlocks twoPieces (fun _ f _ => .done f.size) 0
      firstWritten).2.1 = twoPieces.layout.pieceSize 0 -
        ((firstWritten.hashers 0).getD twoByteBlocks.newHash).offset := by decide
  obtain ⟨bytes, hlength, hbytes, hhash⟩ := hashersOk_firstWritten.hash padsEndPieces_twoPieces
    (show 0 < twoPieces.layout.numPieces by decide) hread
  rw [disk_firstWritten] at hbytes
  rw [hhash, eq_of_hasBytes_firstSaved hlength (Nat.zero_mul 4 ▸ hbytes)]

/-- A download of the first file: it is asked for, nothing is found, the piece is written, it is
hashed, and the torrent hears of it. -/
theorem exists_download_twoPieces (hashes : ℕ → Bytes) (hhash : hashes 0 = sha1 [1, 2, 3, 4]) :
    ∃ d, Relation.ReflTransGen (DownloadStep twoByteBlocks twoPieces hashes 0 fun _ => false)
        (.start twoPieces.layout fun _ => none) d ∧ exitTest d.torrent = true ∧
      d.torrent.havePiece 0 = true ∧ d.manager.disk = firstSaved := by
  let asked := (Torrent.init twoPieces.layout).prioritizeFiles twoPieces.layout (requestOnly 2 0)
  let checked := asked.filesChecked twoPieces.layout
  let hashed := (hashForPieceImpl twoByteBlocks twoPieces (fun _ f _ => .done f.size) 0
    firstWritten).2.2
  have hasked : DownloadStep twoByteBlocks twoPieces hashes 0 (fun _ => false)
      (.start twoPieces.layout fun _ => none) ⟨asked, ⟨fun _ => none, fun _ => none⟩, []⟩ :=
    .torrent .prioritize rfl fun i hi => by cases hi
  have hchecked : DownloadStep twoByteBlocks twoPieces hashes 0 (fun _ => false)
      ⟨asked, ⟨fun _ => none, fun _ => none⟩, []⟩ ⟨checked, ⟨fun _ => none, fun _ => none⟩, []⟩ :=
    .torrent (.resumeChecked false) rfl fun i hi => by cases hi
  have hwritten : DownloadStep twoByteBlocks twoPieces hashes 0 (fun _ => false)
      ⟨checked, ⟨fun _ => none, fun _ => none⟩, []⟩ ⟨checked, firstWritten, []⟩ := by
    refine .write firstPiece _ rfl rfl List.not_mem_nil (fun ph hph => by cases hph)
      fun i _ hpad => ?_
    rw [isPad_twoPieces] at hpad
    cases hpad
  have hhashed : DownloadStep twoByteBlocks twoPieces hashes 0 (fun _ => false)
      ⟨checked, firstWritten, []⟩ ⟨checked, hashed, [0]⟩ := by
    have hstep := @DownloadStep.hash twoByteBlocks twoPieces hashes 0 (fun _ => false)
      ⟨checked, firstWritten, []⟩ 0 (fun _ f _ => .done f.size) (by decide) fun _ => by decide
    rwa [if_pos (hashForPieceImpl_firstWritten.trans hhash.symm)] at hstep
  have hpassed : DownloadStep twoByteBlocks twoPieces hashes 0 (fun _ => false)
      ⟨checked, hashed, [0]⟩ ⟨checked.piecePassed twoPieces.layout 0, hashed, [0]⟩ :=
    .torrent (.piecePassed 0) rfl fun i hi => by cases hi; exact List.mem_singleton_self 0
  exact ⟨_, ((((Relation.ReflTransGen.single hasked).tail hchecked).tail hwritten).tail
    hhashed).tail hpassed, by decide, by decide, disk_firstWritten⟩

theorem piece_of_havePiece_twoPieces :
    ∃ d : Download, d.torrent.havePiece 0 = true ∧
      PieceOnDisk twoPieces (fun _ => sha1 [1, 2, 3, 4]) d.manager.disk 0 := by
  obtain ⟨d, hsteps, -, hhave, -⟩ := exists_download_twoPieces (fun _ => sha1 [1, 2, 3, 4]) rfl
  exact ⟨d, hhave, piece_of_havePiece (by decide) padsEndPieces_twoPieces (by decide)
    (fun i _ hfound => by cases hfound) hsteps (by decide) hhave⟩

end Download

end InstantMirror.Libtorrent
