import InstantMirror.Libtorrent.TorrentInvariant
import Mathlib.Data.Set.Basic

/-!
# Waiting for a download

`getTorrent` gives the file it wants priority `1` and all others priority `0`, and then asks for
the state of the torrent every five seconds, until the answer is `finished`
(`InstantMirror.Libtorrent.exitTest`). Once all the pieces of that file are there, the torrent is
in one of two states (`InstantMirror.Libtorrent.finished_or_seeding`), and which one it is has
nothing to do with the file: if all pieces of the torrent are there, the state is `seeding`, and
the loop does not end.

So the loop recognises that a file is there (`InstantMirror.Libtorrent.RecognisesCompletion`)
exactly if another part of the torrent is missing
(`InstantMirror.Libtorrent.recognisesCompletion_iff`). There are two exceptions, in which the
torrent never is a seed, or never has the priorities that were asked for: a picker that counts
more pieces than there are, and a torrent of several files that are all empty.
-/

namespace InstantMirror.Libtorrent

variable {L : Layout} {k : ℕ} {onDisk : ℕ → Bool} {t t' : Torrent} {p : PiecePicker}

/-! ### The loop -/

/-- **The test of the loop**: `status.state == finished`. -/
def exitTest (t : Torrent) : Bool := t.state = .finished

/-- All pieces in which the file has a part are there. -/
def HasFile (L : Layout) (k : ℕ) (t : Torrent) : Prop :=
  ∀ i, L.Overlaps k i → t.havePiece i = true

/-- All other files have priority `0`. -/
def OthersOff (k : ℕ) (t : Torrent) : Prop := ∀ j, j ≠ k → t.filePriority.getD j 0 = 0

/-- **The loop recognises that the file is there**, in every state after the check in which these
are the pieces that are there. -/
def RecognisesCompletion (L : Layout) (k : ℕ) (pieces : Set ℕ) : Prop :=
  ∀ onDisk t, Reachable L k onDisk t → t.phase = .done → HasFile L k t → OthersOff k t →
    (∀ i < L.numPieces, t.havePiece i = true ↔ i ∈ pieces) → exitTest t = true

/-- **The states in which the file is there.** -/
theorem finished_or_seeding (hinv : t.Inv L) (hphase : t.phase = .done) (hfile : HasFile L k t)
    (hothers : OthersOff k t) : t.state = .finished ∨
      t.picker = none ∧ t.state = .seeding ∧ L.pickerPieces = L.numPieces := by
  rcases hp : t.picker with _ | p
  · exact Or.inr ⟨rfl, (hinv.seeding hp).1, (hinv.seeding hp).2.2⟩
  · have hok := (hinv.pickerOk p hp).1
    refine Or.inl (hinv.settled p hp hphase (hok.done_iff.mpr fun i pos hlt hpos => ?_))
    rw [PiecePos.settled, Bool.or_eq_true, hok.wanted i pos hlt hpos]
    by_cases hoverlaps : L.Overlaps k i
    · have hhave := hfile i hoverlaps
      rw [Torrent.havePiece, hp] at hhave
      left
      simpa [PiecePicker.havePiece, hpos] using hhave
    · right
      intro j hj
      refine hothers j ?_
      rintro rfl
      exact hoverlaps hj

/-! ### Torrents without pieces -/

/-- **A torrent without pieces keeps its priorities.** -/
theorem filePriority_of_reachable (hpieces : L.numPieces = 0) (h : Reachable L k onDisk t) :
    t.filePriority = List.replicate L.numFiles 1 := by
  induction h with
  | refl => rfl
  | tail _ hstep ih =>
    obtain ⟨e, he⟩ := hstep
    rw [← ih]
    cases change_of_next he with
    | prioritized => rw [Torrent.prioritizeFiles, if_pos hpieces, ite_self]
    | queued _ => rfl
    | checking _ => rfl
    | found piece _ _ => exact (Torrent.sameFrame_found _ piece).1
    | checked piece _ _ _ =>
      rw [Torrent.filePriority_filesChecked, (Torrent.sameFrame_found _ piece).1]
    | passed index _ _ _ => exact Torrent.filePriority_piecePassed L index _

/-! ### Torrents of which everything is there -/

/-- A piece that is found is there. -/
theorem havePiece_found {index i : ℕ} (hinv : t.Inv L) (hphase : t.phase ≠ .done)
    (hi : i < L.numPieces) (h : i = index ∨ t.havePiece i = true) :
    (t.found (some index)).havePiece i = true := by
  obtain ⟨p, hp⟩ := hinv.exists_picker hphase
  have hplace : i < p.pieceMap.length := by
    rw [(hinv.pickerOk p hp).1.length]
    exact Nat.lt_of_lt_of_le hi Layout.numPieces_le_pickerPieces
  rw [Torrent.found]
  split
  · rename_i hhave
    rcases h with rfl | h
    · exact hhave
    · exact h
  · rw [Torrent.weHave_of_picker hp, Torrent.havePiece]
    simp only
    rw [PiecePicker.havePiece, PiecePicker.getElem?_weHave, List.getElem?_eq_getElem hplace]
    rcases h with rfl | h
    · simp
    · rw [Torrent.havePiece, hp] at h
      simp only [PiecePicker.havePiece, List.getElem?_eq_getElem hplace, Option.map_some,
        Option.getD_some] at h
      simp only [Option.map_some, Option.getD_some]
      split
      · rfl
      · exact h

/-- **During the check of a torrent that is complete on disk**: any number of pieces has been
found. -/
theorem exists_checking (hpieces : L.numPieces ≠ 0) : ∀ n, n ≤ L.numPieces →
    ∃ t, Reachable L k (fun _ => true) t ∧ t.phase = .checking ∧ t.state = .checkingFiles ∧
      t.filePriority = requestOnly L.numFiles k ∧ ∀ i < n, t.havePiece i = true := by
  intro n
  induction n with
  | zero =>
    intro _
    have hseed : (Torrent.init L).isSeed = false := by
      have hle := L.numPieces_le_pickerPieces
      have hne : L.pickerPieces ≠ 0 := by omega
      simp [Torrent.isSeed, Torrent.init, PiecePicker.init, PiecePicker.numPieces, hne.symm]
    obtain ⟨hpriority, hphase⟩ :=
      Torrent.prioritizeFiles_eq hseed hpieces (requestOnly L.numFiles k)
    have hreach : Reachable L k (fun _ => true) _ := Relation.ReflTransGen.single
      ⟨.prioritize, rfl⟩
    refine ⟨_, (hreach.tail ⟨.resumeChecked true, if_pos hphase⟩).tail ⟨.startChecking, rfl⟩,
      rfl, rfl, hpriority, fun i hi => absurd hi (Nat.not_lt_zero i)⟩
  | succ n ih =>
    intro hle
    obtain ⟨t, hreach, hphase, hstate, hpriority, hhave⟩ := ih (by omega)
    have hinv := inv_of_reachable hreach
    have hphase' : t.phase ≠ .done := by rw [hphase]; decide
    refine ⟨t.found (some n), hreach.tail ⟨.pieceChecked (some n) false, ?_⟩, ?_, ?_, ?_, ?_⟩
    · rw [next, if_pos ⟨hphase, by simp [validFind]; omega⟩]
      rfl
    · rw [(Torrent.sameFrame_found _ _).2, hphase]
    · rw [Torrent.found]
      split <;> exact hstate
    · rw [(Torrent.sameFrame_found _ _).1, hpriority]
    · intro i hi
      refine havePiece_found hinv hphase' (by omega) ?_
      rcases Nat.lt_succ_iff_lt_or_eq.mp hi with hlt | heq
      · exact Or.inr (hhave i hlt)
      · exact Or.inl heq

/-- **When the check has found all pieces**, the torrent is a seed. -/
theorem filesChecked_of_complete (hp : t.picker = some p) (hstate : t.state ≠ .finished)
    (hcomplete : p.complete = true) :
    (t.filesChecked L).picker = none ∧ (t.filesChecked L).state = .seeding := by
  have hp' : { t with state := .downloading }.picker = some p := hp
  have hseeding : State.downloading ≠ .seeding := by decide
  have hfinished : State.downloading ≠ .finished := by decide
  rw [Torrent.filesChecked, Torrent.startDownload, if_neg hstate, Torrent.finishCheck,
    Torrent.isSeed_of_picker hp' hseeding, if_pos hcomplete, if_neg hfinished,
    Torrent.finished_of_picker hp', if_pos hcomplete]
  exact ⟨rfl, rfl⟩

theorem getD_requestOnly {n j : ℕ} (hj : j ≠ k) : (requestOnly n k).getD j 0 = 0 := by
  rw [requestOnly, List.getD_eq_getElem?_getD, List.getElem?_set_ne hj.symm,
    List.getElem?_replicate]
  split <;> rfl

/-- **A torrent without pieces is a seed from the start**, and has no other file whose priority
would have to be changed. -/
theorem exists_seeding_of_empty (hpicker : L.pickerPieces = L.numPieces) (hpieces : L.numPieces = 0)
    (hempty : ∀ j < L.numFiles, j = k) :
    ∃ onDisk t, Reachable L k onDisk t ∧ t.phase = .done ∧ t.picker = none ∧
      t.state = .seeding ∧ OthersOff k t := by
  have hcomplete : (PiecePicker.init L.pickerPieces).complete = true := by
    simp [PiecePicker.complete, PiecePicker.numPieces, PiecePicker.init, hpicker, hpieces]
  have hnext : next L k (fun _ => false) (.init L) (.resumeChecked false) =
      some ((Torrent.init L).filesChecked L) := by
    have hresume : (Torrent.init L).phase = .resume := rfl
    rw [next, if_pos hresume]
    simp
  have hstate : State.checkingResumeData ≠ .finished := by decide
  obtain ⟨hnone, hseeding⟩ :=
    filesChecked_of_complete (L := L) (t := .init L) rfl hstate hcomplete
  refine ⟨_, _, Relation.ReflTransGen.single ⟨_, hnext⟩, rfl, hnone, hseeding, fun j hj => ?_⟩
  have hge : ¬ j < L.numFiles := fun hlt => hj (hempty j hlt)
  rw [Torrent.filePriority_filesChecked, Torrent.init, List.getD_eq_getElem?_getD,
    List.getElem?_replicate, if_neg hge]
  rfl

/-- **A torrent that is complete on disk becomes a seed**, with the priorities that were asked
for. -/
theorem exists_seeding_of_pieces (hpicker : L.pickerPieces = L.numPieces)
    (hpieces : L.numPieces ≠ 0) :
    ∃ onDisk t, Reachable L k onDisk t ∧ t.phase = .done ∧ t.picker = none ∧
      t.state = .seeding ∧ OthersOff k t := by
  obtain ⟨t, hreach, hphase, hstate, hpriority, hhave⟩ :=
    exists_checking (k := k) hpieces L.numPieces (Nat.le_refl _)
  have hinv := inv_of_reachable hreach
  obtain ⟨p, hp⟩ := hinv.exists_picker (by rw [hphase]; decide)
  have hall : ∀ i, i < L.numPieces → p.havePiece i = true := by
    intro i hi
    have h := hhave i hi
    rwa [Torrent.havePiece, hp] at h
  have hcomplete := (hinv.pickerOk p hp).1.complete_iff_havePiece.mpr ⟨hpicker, hall⟩
  have hnext : next L k (fun _ => true) t (.pieceChecked none true) =
      some (t.filesChecked L) := by
    rw [next, if_pos ⟨hphase, rfl⟩]
    simp only [Bool.not_true, Bool.false_eq_true, if_false, Torrent.found]
    rw [if_pos]
    simpa using hhave
  obtain ⟨hnone, hseeding⟩ := filesChecked_of_complete (L := L) hp (by rw [hstate]; decide)
    hcomplete
  refine ⟨_, _, hreach.tail ⟨_, hnext⟩, rfl, hnone, hseeding, fun j hj => ?_⟩
  rw [Torrent.filePriority_filesChecked, hpriority]
  exact getD_requestOnly hj

/-- **A torrent can become a seed**, with all other files off. -/
theorem exists_seeding (hpicker : L.pickerPieces = L.numPieces)
    (hcase : L.numPieces ≠ 0 ∨ ∀ j < L.numFiles, j = k) :
    ∃ onDisk t, Reachable L k onDisk t ∧ t.phase = .done ∧ t.picker = none ∧
      t.state = .seeding ∧ OthersOff k t := by
  by_cases hpieces : L.numPieces = 0
  · exact exists_seeding_of_empty hpicker hpieces (hcase.resolve_left (not_not_intro hpieces))
  · exact exists_seeding_of_pieces hpicker hpieces

/-! ### When the loop ends -/

/-- **When the loop recognises that the file is there**: some other piece is missing; or the
picker counts more pieces than there are, so that the torrent never is a seed; or there are no
pieces at all, and other files, which then keep their priority. -/
theorem recognisesCompletion_iff (L : Layout) (k : ℕ) (pieces : Set ℕ) :
    RecognisesCompletion L k pieces ↔ (∃ i < L.numPieces, i ∉ pieces) ∨
      L.pickerPieces ≠ L.numPieces ∨ L.numPieces = 0 ∧ ∃ j < L.numFiles, j ≠ k := by
  constructor
  · intro h
    by_contra hnot
    push Not at hnot
    obtain ⟨hall, hpicker, hfiles⟩ := hnot
    obtain ⟨onDisk, t, hreach, hphase, hnone, hseeding, hothers⟩ :=
      exists_seeding (k := k) hpicker (by tauto)
    have hhave : ∀ i, t.havePiece i = true := fun i => by rw [Torrent.havePiece, hnone]
    have hexit := h onDisk t hreach hphase (fun i _ => hhave i) hothers
      fun i hi => iff_of_true (hhave i) (hall i hi)
    rw [exitTest, hseeding] at hexit
    exact absurd hexit (by decide)
  · intro hcond onDisk t hreach hphase hfile hothers hhave
    rcases finished_or_seeding (inv_of_reachable hreach) hphase hfile hothers with
      hfinished | ⟨hnone, -, hpicker⟩
    · rw [exitTest, hfinished]
      rfl
    · exfalso
      rcases hcond with ⟨i, hi, hmissing⟩ | hpicker' | ⟨hpieces, j, hj, hne⟩
      · exact hmissing ((hhave i hi).mp (by rw [Torrent.havePiece, hnone]))
      · exact hpicker' hpicker
      · have hzero := hothers j hne
        rw [filePriority_of_reachable hpieces hreach, List.getD_eq_getElem?_getD,
          List.getElem?_replicate, if_pos hj] at hzero
        exact absurd hzero (by decide)

/-- A torrent of one file, of one byte. -/
def oneByte : Layout := ⟨[1], 1, by decide⟩

/-- It has been downloaded. -/
def oneByteDone : Torrent :=
  (((Torrent.init oneByte).prioritizeFiles oneByte (requestOnly 1 0)).filesChecked
    oneByte).piecePassed oneByte 0

/-- **The loop never ends for a torrent of one file**: when its last piece has been downloaded,
the torrent is a seed. -/
theorem single_file_seeding :
    Reachable oneByte 0 (fun _ => false) oneByteDone ∧ oneByteDone.phase = .done ∧
      HasFile oneByte 0 oneByteDone ∧ OthersOff 0 oneByteDone ∧
      oneByteDone.state = .seeding ∧ exitTest oneByteDone = false := by
  have hreach : Reachable oneByte 0 (fun _ => false) oneByteDone :=
    ((Relation.ReflTransGen.single ⟨.prioritize, rfl⟩).tail ⟨.resumeChecked false, rfl⟩).tail
      ⟨.piecePassed 0, rfl⟩
  refine ⟨hreach, rfl, fun _ _ => rfl, fun j hj => ?_, rfl, rfl⟩
  cases j with
  | zero => exact absurd rfl hj
  | succ j => rfl

end InstantMirror.Libtorrent
