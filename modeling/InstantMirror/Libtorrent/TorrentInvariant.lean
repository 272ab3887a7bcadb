import InstantMirror.Libtorrent.TorrentState

/-!
# What holds of a torrent in every state

Whatever order the events come in, the picker of a torrent knows which pieces are wanted
(`InstantMirror.Libtorrent.PickerOk`): a piece is filtered exactly if all the files that have a
part in it have priority `0`. And the state is right
(`InstantMirror.Libtorrent.Torrent.Inv`): it says `finished` only if all wanted pieces are there,
and `seeding` only if all pieces are; after the check, if all wanted pieces are there, it says
one of the two. That is shown of the functions one by one, then of each event, and by induction
of every reachable state (`InstantMirror.Libtorrent.inv_of_reachable`).
-/

namespace InstantMirror.Libtorrent

variable {L : Layout} {i j n : ℕ}

/-! ### Files and pieces -/

/-- The pieces a file covers, as `update_piece_priorities` computes them. -/
theorem inPiece_iff {pieceLength start size : ℕ} (hlength : 0 < pieceLength) (hsize : 0 < size) :
    InPiece pieceLength start size i ↔
      start / pieceLength ≤ i ∧ i ≤ (start + size - 1) / pieceLength := by
  constructor
  · rintro ⟨b, hle, hlt, rfl⟩
    exact ⟨Nat.div_le_div_right hle, Nat.div_le_div_right (by omega)⟩
  · rintro ⟨hfirst, hlast⟩
    have hstart : start < (i + 1) * pieceLength := (Nat.div_lt_iff_lt_mul hlength).mp (by omega)
    have hend : i * pieceLength ≤ start + size - 1 := (Nat.le_div_iff_mul_le hlength).mp hlast
    have hmul : (i + 1) * pieceLength = i * pieceLength + pieceLength := Nat.succ_mul _ _
    refine ⟨max start (i * pieceLength), Nat.le_max_left _ _, by omega, ?_⟩
    refine Nat.div_eq_of_lt_le (Nat.le_max_right _ _) ?_
    omega

theorem not_inPiece_zero {pieceLength start : ℕ} : ¬ InPiece pieceLength start 0 i := by
  rintro ⟨b, hle, hlt, -⟩
  omega

/-- Every byte is in a file. -/
theorem exists_file (b : ℕ) : ∀ sizes : List ℕ, b < sumSizes sizes →
    ∃ j, j < sizes.length ∧ sumSizes (sizes.take j) ≤ b ∧
      b < sumSizes (sizes.take j) + sizes.getD j 0 := by
  intro sizes
  induction sizes generalizing b with
  | nil => exact fun h => absurd h (Nat.not_lt_zero b)
  | cons size sizes ih =>
    intro h
    rw [sumSizes] at h
    rcases Nat.lt_or_ge b size with hlt | hge
    · exact ⟨0, by simp, Nat.zero_le b, by simpa [sumSizes] using hlt⟩
    · obtain ⟨j, hj, hle, hlt⟩ := ih (b - size) (by omega)
      refine ⟨j + 1, by simpa using hj, ?_, ?_⟩
      · rw [List.take_succ_cons, sumSizes]
        omega
      · rw [List.take_succ_cons, sumSizes, List.getD_cons_succ]
        omega

/-- As many parts as are counted, rounding up, are enough. -/
theorem le_roundUp_mul (m : ℕ) {d : ℕ} (hd : 0 < d) : m ≤ (m + d - 1) / d * d := by
  have hlt := Nat.lt_div_mul_add hd (a := m + d - 1)
  omega

/-- And if `n` parts are enough, no more are counted. -/
theorem roundUp_le {m d : ℕ} (hd : 0 < d) (h : m ≤ n * d) : (m + d - 1) / d ≤ n := by
  have hlt : (m + d - 1) / d < n + 1 := by
    rw [Nat.div_lt_iff_lt_mul hd, Nat.succ_mul]
    omega
  omega

namespace Layout

/-- Every piece has a part of a file. -/
theorem exists_overlaps (h : i < L.numPieces) : ∃ j < L.numFiles, L.Overlaps j i := by
  have hpos := L.pieceLength_pos
  have hbyte : i * L.pieceLength < L.totalSize := by
    have hle := (Nat.le_div_iff_mul_le hpos).mp (Nat.succ_le_of_lt h)
    rw [Nat.succ_mul] at hle
    omega
  obtain ⟨j, hj, hle, hlt⟩ := exists_file _ _ hbyte
  exact ⟨j, hj, i * L.pieceLength, hle, hlt, Nat.mul_div_cancel _ hpos⟩

theorem blockSize_pos : 0 < L.blockSize := by
  have hpos := L.pieceLength_pos
  rw [blockSize]
  omega

/-- The blocks of a piece do not exceed it. -/
theorem blocksPerPiece_mul_le : L.blocksPerPiece * L.blockSize ≤ L.pieceLength := by
  rw [blocksPerPiece]
  rcases Nat.le_total (L.pieceLength / L.blockSize) 1 with h | h
  · rw [Nat.max_eq_right h, Nat.one_mul]
    exact Nat.min_le_right _ _
  · rw [Nat.max_eq_left h]
    exact Nat.div_mul_le_self _ _

/-- **The picker has a place for every piece.** -/
theorem numPieces_le_pickerPieces : L.numPieces ≤ L.pickerPieces := by
  have hblocks : 0 < L.blocksPerPiece := Nat.lt_of_lt_of_le Nat.one_pos (Nat.le_max_right _ _)
  refine roundUp_le L.pieceLength_pos ?_
  calc L.totalSize ≤ (L.totalSize + L.blockSize - 1) / L.blockSize * L.blockSize :=
        le_roundUp_mul _ blockSize_pos
    _ ≤ L.pickerPieces * L.blocksPerPiece * L.blockSize :=
        Nat.mul_le_mul_right _ (le_roundUp_mul _ hblocks)
    _ = L.pickerPieces * (L.blocksPerPiece * L.blockSize) := Nat.mul_assoc _ _ _
    _ ≤ L.pickerPieces * L.pieceLength := Nat.mul_le_mul_left _ blocksPerPiece_mul_le

end Layout

/-! ### The priorities of the pieces -/

theorem length_priorityLoop {pieceLength : ℕ} : ∀ (sizes : List ℕ) (position : ℕ)
    (priorities pieces : List ℕ),
    (priorityLoop pieceLength position sizes priorities pieces).length = pieces.length := by
  intro sizes
  induction sizes with
  | nil => exact fun _ _ _ => rfl
  | cons size sizes ih =>
    intro position priorities pieces
    cases priorities with
    | nil => rfl
    | cons priority priorities =>
      rw [priorityLoop]
      split
      · exact ih _ _ _
      · split
        · exact ih _ _ _
        · rw [ih, markPieces, List.length_mapIdx]

/-- What marking the pieces of a file does to a piece. -/
theorem getD_markPieces {priority first last : ℕ} (hpriority : priority ≠ 0) {pieces : List ℕ}
    (hi : i < pieces.length) : (markPieces priority first last pieces).getD i 0 = 0 ↔
      ¬ (first ≤ i ∧ i ≤ last) ∧ pieces.getD i 0 = 0 := by
  rw [markPieces, List.getD_eq_getElem?_getD, List.getElem?_mapIdx, List.getElem?_eq_getElem hi,
    List.getD_eq_getElem?_getD, List.getElem?_eq_getElem hi]
  simp only [Option.map_some, Option.getD_some]
  split <;> omega

/-- **Which pieces are not wanted**: those in which only files of priority `0` have a part. -/
theorem getD_priorityLoop {pieceLength : ℕ} (hlength : 0 < pieceLength) : ∀ (sizes : List ℕ)
    (position : ℕ) (priorities pieces : List ℕ), i < pieces.length →
    ((priorityLoop pieceLength position sizes priorities pieces).getD i 0 = 0 ↔
      pieces.getD i 0 = 0 ∧ ∀ j, InPiece pieceLength (position + sumSizes (sizes.take j))
        (sizes.getD j 0) i → priorities.getD j 0 = 0) := by
  intro sizes
  induction sizes with
  | nil =>
    intro position priorities pieces _
    refine (and_iff_left_of_imp fun _ j h => ?_).symm
    exact absurd h (by simpa using not_inPiece_zero)
  | cons size sizes ih =>
    intro position priorities pieces hi
    cases priorities with
    | nil => exact (and_iff_left_of_imp fun _ j _ => by simp).symm
    | cons priority priorities =>
      -- the file at hand, and the others
      rw [← Nat.and_forall_add_one]
      simp only [List.take_zero, sumSizes, Nat.add_zero, List.getD_cons_zero, List.take_succ_cons,
        List.getD_cons_succ]
      rw [priorityLoop]
      split
      · rename_i hsize
        rw [ih _ _ _ hi, hsize]
        simp [not_inPiece_zero]
      · rename_i hsize
        split
        · rename_i hpriority
          rw [ih _ _ _ hi]
          simp [hpriority, Nat.add_assoc]
        · rename_i hpriority
          rw [ih _ _ _ (by rwa [markPieces, List.length_mapIdx]), getD_markPieces hpriority hi,
            ← inPiece_iff hlength (Nat.pos_of_ne_zero hsize)]
          simp only [Nat.add_assoc, hpriority, imp_false]
          tauto

/-! ### The picker -/

/-- **The picker knows which pieces are wanted.** -/
structure PickerOk (L : Layout) (filePriority : List ℕ) (p : PiecePicker) : Prop where
  /-- It has its places. -/
  length : p.pieceMap.length = L.pickerPieces
  /-- Those that belong to no piece are left as they were. -/
  beyond : ∀ i pos, L.numPieces ≤ i → p.pieceMap[i]? = some pos → pos = ⟨false, 1⟩
  /-- A piece is filtered if all the files that have a part in it have priority `0`. -/
  wanted : ∀ i pos, i < L.numPieces → p.pieceMap[i]? = some pos →
    (pos.filtered = true ↔ ∀ j, L.Overlaps j i → filePriority.getD j 0 = 0)

/-- `num_have() == num_pieces()`. -/
def PiecePicker.complete (p : PiecePicker) : Bool := p.numHave = p.numPieces

/-- `is_finished`, of the picker. -/
def PiecePicker.done (L : Layout) (p : PiecePicker) : Bool :=
  p.complete || p.numHave + p.numFiltered = L.numPieces

section Picker

variable {filePriority : List ℕ} {p : PiecePicker}

theorem pickerOk_init (L : Layout) :
    PickerOk L (List.replicate L.numFiles 1) (.init L.pickerPieces) where
  length := List.length_replicate
  beyond _ _ _ h := PiecePicker.getElem?_init h
  wanted i pos hi h := by
    obtain rfl := PiecePicker.getElem?_init h
    refine iff_of_false (by decide) fun hall => ?_
    obtain ⟨j, hj, hoverlaps⟩ := Layout.exists_overlaps hi
    have hzero := hall j hoverlaps
    rw [List.getD_eq_getElem?_getD, List.getElem?_replicate, if_pos hj] at hzero
    exact absurd hzero (by decide)

theorem PickerOk.weHave (hok : PickerOk L filePriority p) {index : ℕ} (hi : index < L.numPieces) :
    PickerOk L filePriority (p.weHave index) where
  length := by rw [PiecePicker.length_weHave, hok.length]
  beyond i pos hge h := by
    rw [PiecePicker.getElem?_weHave, Option.map_eq_some_iff] at h
    obtain ⟨old, hold, rfl⟩ := h
    rw [if_neg (by omega)]
    exact hok.beyond i old hge hold
  wanted i pos hlt h := by
    rw [PiecePicker.getElem?_weHave, Option.map_eq_some_iff] at h
    obtain ⟨old, hold, rfl⟩ := h
    rw [← hok.wanted i old hlt hold]
    split <;> rfl

/-- **The priorities of the pieces follow those of the files.** -/
theorem PickerOk.setPiecePriorities (hok : PickerOk L filePriority p) (files : List ℕ) :
    PickerOk L files (p.setPiecePriorities 0
      (priorityLoop L.pieceLength 0 L.sizes files (List.replicate L.numPieces 0))).2 where
  length := by rw [PiecePicker.length_setPiecePriorities, hok.length]
  beyond i pos hge h := by
    rw [PiecePicker.getElem?_setPiecePriorities, Option.map_eq_some_iff] at h
    obtain ⟨old, hold, rfl⟩ := h
    rw [if_neg (by simp [length_priorityLoop, hge])]
    exact hok.beyond i old hge hold
  wanted i pos hlt h := by
    rw [PiecePicker.getElem?_setPiecePriorities, Option.map_eq_some_iff] at h
    obtain ⟨old, hold, rfl⟩ := h
    rw [if_pos (by simp [length_priorityLoop, hlt])]
    have hloop := getD_priorityLoop (i := i) L.pieceLength_pos L.sizes 0 files
      (List.replicate L.numPieces 0) (by simpa using hlt)
    have hzero : (List.replicate L.numPieces 0).getD i 0 = 0 := by
      rw [List.getD_eq_getElem?_getD, List.getElem?_replicate, if_pos hlt]
      rfl
    rw [PiecePos.filtered_mk, Nat.sub_zero, hloop, and_iff_right hzero]
    simp only [Nat.zero_add]
    rfl

/-- **All pieces are there**, and the picker has no place for another one. -/
theorem PickerOk.complete_iff (hok : PickerOk L filePriority p) : p.complete = true ↔
    L.pickerPieces = L.numPieces ∧
      ∀ i pos, i < L.numPieces → p.pieceMap[i]? = some pos → pos.isHave = true := by
  rw [PiecePicker.complete, decide_eq_true_iff, p.numHave_eq, PiecePicker.numPieces,
    List.countP_eq_length]
  constructor
  · intro hall
    refine ⟨Nat.le_antisymm ?_ Layout.numPieces_le_pickerPieces, fun i pos _ h =>
      hall pos (List.mem_iff_getElem?.mpr ⟨i, h⟩)⟩
    by_contra hlt
    have hplace : L.numPieces < p.pieceMap.length := by rw [hok.length]; omega
    have hat := List.getElem?_eq_getElem hplace
    have hhave := hall _ (List.getElem_mem hplace)
    rw [hok.beyond _ _ (Nat.le_refl _) hat] at hhave
    exact absurd hhave (by decide)
  · rintro ⟨hlength, hall⟩ pos hpos
    obtain ⟨i, hi⟩ := List.mem_iff_getElem?.mp hpos
    have hlt := (List.getElem?_eq_some_iff.mp hi).1
    rw [hok.length, hlength] at hlt
    exact hall i pos hlt hi

/-- The pieces of the torrent have a place. -/
theorem PickerOk.forall_iff (hok : PickerOk L filePriority p) :
    (∀ i pos, i < L.numPieces → p.pieceMap[i]? = some pos → pos.isHave = true) ↔
      ∀ i, i < L.numPieces → p.havePiece i = true := by
  refine forall_congr' fun i => ?_
  constructor
  · intro hall hlt
    have hplace : i < p.pieceMap.length := by
      rw [hok.length]
      exact Nat.lt_of_lt_of_le hlt Layout.numPieces_le_pickerPieces
    have hat := List.getElem?_eq_getElem hplace
    rw [PiecePicker.havePiece, hat, Option.map_some, Option.getD_some]
    exact hall _ hlt hat
  · intro hall pos hlt hat
    have hhave := hall hlt
    rwa [PiecePicker.havePiece, hat] at hhave

theorem PickerOk.complete_iff_havePiece (hok : PickerOk L filePriority p) : p.complete = true ↔
    L.pickerPieces = L.numPieces ∧ ∀ i, i < L.numPieces → p.havePiece i = true := by
  rw [hok.complete_iff, hok.forall_iff]

/-- **All wanted pieces are there.** -/
theorem PickerOk.done_iff (hok : PickerOk L filePriority p) : p.done L = true ↔
    ∀ i pos, i < L.numPieces → p.pieceMap[i]? = some pos → pos.settled = true := by
  have hle : L.numPieces ≤ p.pieceMap.length := by
    rw [hok.length]
    exact Layout.numPieces_le_pickerPieces
  have hcount := countP_eq_iff (f := PiecePos.settled) hle fun i pos hge h => by
    rw [hok.beyond i pos hge h]
    rfl
  rw [PiecePicker.done, Bool.or_eq_true, decide_eq_true_iff, p.numHave_add_numFiltered, hcount]
  refine or_iff_right_of_imp fun hcomplete i pos hlt h => ?_
  rw [PiecePos.settled, (hok.complete_iff.mp hcomplete).2 i pos hlt h, Bool.true_or]

/-- Another piece makes no difference to what was done. -/
theorem PickerOk.done_weHave (hok : PickerOk L filePriority p) {index : ℕ}
    (hi : index < L.numPieces) (h : p.done L = true) : (p.weHave index).done L = true := by
  rw [(hok.weHave hi).done_iff]
  intro i pos hlt hpos
  rw [PiecePicker.getElem?_weHave, Option.map_eq_some_iff] at hpos
  obtain ⟨old, hold, rfl⟩ := hpos
  have hsettled := hok.done_iff.mp h i old hlt hold
  split
  · rfl
  · exact hsettled

end Picker

/-! ### What does not change -/

/-- Only state and picker differ. -/
def Torrent.SameFrame (t t' : Torrent) : Prop :=
  t'.filePriority = t.filePriority ∧ t'.phase = t.phase

namespace Torrent

variable {t : Torrent} {p : PiecePicker}

theorem sameFrame_finished (t : Torrent) : t.SameFrame t.finished := by
  rw [finished]
  split <;> exact ⟨rfl, rfl⟩

theorem sameFrame_updatePeerInterest (L : Layout) (was : Bool) (t : Torrent) :
    t.SameFrame (t.updatePeerInterest L was) := by
  rw [updatePeerInterest]
  split
  · exact sameFrame_finished t
  · split <;> exact ⟨rfl, rfl⟩

theorem sameFrame_prioritizePieces (L : Layout) (pieces : List ℕ) (t : Torrent) :
    t.SameFrame (t.prioritizePieces L pieces) := by
  rw [prioritizePieces]
  split
  · exact ⟨rfl, rfl⟩
  · simp only
    split
    · exact ⟨rfl, rfl⟩
    · split
      · exact sameFrame_updatePeerInterest L _ { t with picker := _ }
      · exact ⟨rfl, rfl⟩

/-- **The priorities are set**, unless the torrent is a seed or has no pieces. -/
theorem prioritizeFiles_eq (hseed : t.isSeed = false) (hpieces : L.numPieces ≠ 0)
    (files : List ℕ) : { t with filePriority := files }.SameFrame (t.prioritizeFiles L files) := by
  rw [prioritizeFiles, hseed, if_neg hpieces, updatePiecePriorities, if_neg hpieces]
  exact sameFrame_prioritizePieces L _ _

theorem sameFrame_found (t : Torrent) (found : Option ℕ) : t.SameFrame (t.found found) := by
  cases found with
  | none => exact ⟨rfl, rfl⟩
  | some index =>
    rw [Torrent.found]
    split <;> exact ⟨rfl, rfl⟩

theorem filePriority_filesChecked (L : Layout) (t : Torrent) :
    (t.filesChecked L).filePriority = t.filePriority := by
  have hstart : t.startDownload.filePriority = t.filePriority := by
    rw [startDownload]
    split <;> rfl
  have hfinish : ∀ u : Torrent, (u.finishCheck L).filePriority = u.filePriority := by
    intro u
    rw [finishCheck]
    split
    · split
      · rfl
      · exact (sameFrame_finished u).1
    · split
      · exact (sameFrame_finished u).1
      · rfl
  exact (hfinish _).trans hstart

theorem filePriority_piecePassed (L : Layout) (index : ℕ) (t : Torrent) :
    (t.piecePassed L index).filePriority = t.filePriority := by
  have hfinished : (t.weHave index).finished.filePriority = t.filePriority :=
    (sameFrame_finished _).1
  rw [piecePassed]
  split <;> split
  · exact hfinished
  · rfl
  · exact hfinished
  · rfl

/-! ### The functions of a torrent -/

theorem isSeed_of_picker (hp : t.picker = some p) (hstate : t.state ≠ .seeding) :
    t.isSeed = p.complete := by
  rw [isSeed, hp]
  simp [hstate, PiecePicker.complete]

theorem isFinished_of_picker (hp : t.picker = some p) (hstate : t.state ≠ .seeding) :
    t.isFinished L = p.done L := by
  rw [isFinished, isSeed_of_picker hp hstate, hp]
  rfl

/-- **What `finished` does**: all pieces may be there. -/
theorem finished_of_picker (hp : t.picker = some p) : t.finished =
    if p.complete then { t with picker := none, state := .seeding }
    else { t with state := .finished } := by
  have hseed : { t with state := .finished }.isSeed = p.complete :=
    isSeed_of_picker (t := { t with state := .finished }) hp nofun
  rw [finished, hseed]
  rfl

theorem finished_done (hp : t.picker = some p) :
    { t.finished with phase := .done } = { t with phase := .done }.finished := by
  rw [finished_of_picker hp, finished_of_picker (t := { t with phase := .done }) hp]
  split <;> rfl

/-- **What holds of a torrent.** -/
structure Inv (L : Layout) (t : Torrent) : Prop where
  /-- As long as there is a picker, it is right, and the torrent is not seeding. -/
  pickerOk : ∀ p, t.picker = some p → PickerOk L t.filePriority p ∧ t.state ≠ .seeding
  /-- Without a picker, the check is over and all pieces are there. -/
  seeding : t.picker = none →
    t.state = .seeding ∧ t.phase = .done ∧ L.pickerPieces = L.numPieces
  /-- In the state `finished`, all wanted pieces are there. -/
  finished_ok : ∀ p, t.picker = some p → t.state = .finished → p.done L = true
  /-- After the check, if all wanted pieces are there, the state says so. -/
  settled : ∀ p, t.picker = some p → t.phase = .done → p.done L = true → t.state = .finished

theorem inv_init (L : Layout) : (init L).Inv L where
  pickerOk p hp := by
    obtain rfl := Option.some.inj hp
    exact ⟨pickerOk_init L, nofun⟩
  seeding := nofun
  finished_ok _ _ := nofun
  settled _ _ := nofun

/-- A torrent with a picker, in any state that goes with it. -/
theorem inv_of_picker (hp : t.picker = some p) (hok : PickerOk L t.filePriority p)
    (hseeding : t.state ≠ .seeding) (hfinished : t.state = .finished → p.done L = true)
    (hsettled : t.phase = .done → p.done L = true → t.state = .finished) : t.Inv L where
  pickerOk q hq := by
    obtain rfl := Option.some.inj (hp.symm.trans hq)
    exact ⟨hok, hseeding⟩
  seeding h := by rw [hp] at h; cases h
  finished_ok q hq := by
    obtain rfl := Option.some.inj (hp.symm.trans hq)
    exact hfinished
  settled q hq := by
    obtain rfl := Option.some.inj (hp.symm.trans hq)
    exact hsettled

/-- **`finished`, after the check**, when all wanted pieces are there. -/
theorem inv_finished (hp : t.picker = some p) (hok : PickerOk L t.filePriority p)
    (hphase : t.phase = .done) (hdone : p.done L = true) : t.finished.Inv L := by
  rw [finished_of_picker hp]
  split
  · rename_i hcomplete
    exact {
      pickerOk := nofun
      seeding := fun _ => ⟨rfl, hphase, (hok.complete_iff.mp hcomplete).1⟩
      finished_ok := nofun
      settled := nofun }
  · exact inv_of_picker (p := p) hp hok nofun (fun _ => hdone) fun _ _ => rfl

/-- **`files_checked`.** -/
theorem inv_filesChecked (hp : t.picker = some p) (hok : PickerOk L t.filePriority p)
    (hfinished : t.state = .finished → p.done L = true) : (t.filesChecked L).Inv L := by
  rw [filesChecked, startDownload, finishCheck]
  by_cases hstate : t.state = .finished
  · simp only [hstate, if_true, ne_eq, not_true_eq_false, and_false, if_false, ite_self]
    exact inv_of_picker (p := p) hp hok nofun (fun _ => hfinished hstate) fun _ _ => rfl
  · have hp' : { t with state := .downloading }.picker = some p := hp
    have hseed := isSeed_of_picker hp' nofun
    have hdone := isFinished_of_picker (L := L) hp' nofun
    simp only [if_neg hstate, hseed, hdone]
    split
    · rename_i hcomplete
      rw [if_neg nofun, finished_done hp']
      refine inv_finished (p := p) hp hok rfl ?_
      rw [PiecePicker.done, hcomplete, Bool.true_or]
    · split
      · rename_i hall
        rw [finished_done hp']
        exact inv_finished (p := p) hp hok rfl hall.1
      · rename_i hnot
        have hnot : ¬ p.done L = true := fun h => hnot ⟨h, nofun⟩
        exact inv_of_picker (p := p) hp hok nofun nofun fun _ h => absurd h hnot

/-- **`update_peer_interest`**, for a picker that has not all pieces. -/
theorem inv_updatePeerInterest {was : Bool} (hp : t.picker = some p)
    (hok : PickerOk L t.filePriority p) (hcomplete : p.complete = false)
    (hseeding : t.state ≠ .seeding) (hfinished : t.state = .finished → was = true)
    (hsettled : t.phase = .done → was = true → t.state = .finished) :
    (t.updatePeerInterest L was).Inv L := by
  rw [updatePeerInterest, isFinished_of_picker hp hseeding]
  split
  · rename_i h
    rw [Bool.and_eq_true] at h
    rw [finished_of_picker hp, hcomplete]
    exact inv_of_picker (p := p) hp hok nofun (fun _ => h.1) fun _ _ => rfl
  · split
    · rename_i h
      rw [Bool.and_eq_true, Bool.not_eq_true'] at h
      exact inv_of_picker (p := p) hp hok nofun nofun fun _ hdone => by
        rw [h.1] at hdone
        cases hdone
    · -- the torrent was finished if it is finished now
      have hwas : was = p.done L := by
        cases hdone : p.done L <;> cases was <;> simp_all
      exact inv_of_picker hp hok hseeding (fun h => hwas ▸ hfinished h)
        fun hphase hdone => hsettled hphase (hwas ▸ hdone)

/-- What `prioritize_pieces` does while not all pieces are there. -/
theorem prioritizePieces_of_picker (hp : t.picker = some p) (hseeding : t.state ≠ .seeding)
    (hcomplete : p.complete = false) (pieces : List ℕ) : t.prioritizePieces L pieces =
      if (p.setPiecePriorities 0 pieces).1 then
        { t with picker := some (p.setPiecePriorities 0 pieces).2 }.updatePeerInterest L (p.done L)
      else { t with picker := some (p.setPiecePriorities 0 pieces).2 } := by
  rw [prioritizePieces, isSeed_of_picker hp hseeding, isFinished_of_picker hp hseeding, hp,
    hcomplete]
  rfl

/-- **`prioritize_files`**, with whatever priorities. -/
theorem inv_prioritizeFiles (h : t.Inv L) (files : List ℕ) :
    (t.prioritizeFiles L files).Inv L := by
  rw [prioritizeFiles]
  split
  · exact h
  · rename_i hseed
    split
    · exact h
    · rename_i hpieces
      rcases hp : t.picker with _ | p
      · exact absurd (by rw [isSeed, hp]) hseed
      · obtain ⟨hok, hseeding⟩ := h.pickerOk p hp
        rw [isSeed_of_picker hp hseeding, Bool.not_eq_true] at hseed
        rw [updatePiecePriorities, if_neg hpieces,
          prioritizePieces_of_picker (t := ⟨t.state, some p, files, t.phase⟩) rfl hseeding hseed]
        have hok' := hok.setPiecePriorities files
        have hcomplete : (p.setPiecePriorities 0 (priorityLoop L.pieceLength 0 L.sizes files
            (List.replicate L.numPieces 0))).2.complete = false := by
          rw [← hseed, PiecePicker.complete, PiecePicker.complete, PiecePicker.numPieces,
            PiecePicker.numPieces, PiecePicker.numHave_setPiecePriorities,
            PiecePicker.length_setPiecePriorities]
        split
        · exact inv_updatePeerInterest (p := _) rfl hok' hcomplete hseeding
            (h.finished_ok p hp) (h.settled p hp)
        · rename_i hupdated
          have hdone : (p.setPiecePriorities 0 (priorityLoop L.pieceLength 0 L.sizes files
              (List.replicate L.numPieces 0))).2.done L = p.done L := by
            rw [PiecePicker.done, PiecePicker.done, hcomplete, hseed,
              PiecePicker.numHave_setPiecePriorities,
              PiecePicker.numFiltered_setPiecePriorities _ _ _ (by simpa using hupdated)]
          exact inv_of_picker rfl hok' hseeding (fun hstate => hdone ▸ h.finished_ok p hp hstate)
            fun hphase hall => h.settled p hp hphase (hdone ▸ hall)

/-- **A piece more**, wherever it comes from. -/
theorem weHave_of_picker (hp : t.picker = some p) (index : ℕ) :
    t.weHave index = { t with picker := some (p.weHave index) } := by
  rw [weHave, hp]
  rfl

/-- **`piece_passed`.** -/
theorem inv_piecePassed (h : t.Inv L) (hp : t.picker = some p) (hphase : t.phase = .done)
    {index : ℕ} (hi : index < L.numPieces) (hmissing : p.complete = false) :
    (t.piecePassed L index).Inv L := by
  obtain ⟨hok, hseeding⟩ := h.pickerOk p hp
  have hok' := hok.weHave hi
  have hwas : decide (p.numFiltered + p.numHave = L.numPieces) = p.done L := by
    rw [PiecePicker.done, hmissing, Bool.false_or, Nat.add_comm]
  rw [piecePassed, hp, weHave_of_picker hp,
    isFinished_of_picker (t := ⟨t.state, some (p.weHave index), t.filePriority, t.phase⟩) rfl
      hseeding]
  simp only [hwas]
  split
  · rename_i hpassed
    rw [Bool.and_eq_true] at hpassed
    exact inv_finished rfl hok' hphase hpassed.2
  · rename_i hpassed
    -- if all wanted pieces are there now, they were there before
    have hbefore : (p.weHave index).done L = true → p.done L = true := by
      cases hdone : p.done L
      · simp_all
      · exact fun _ => rfl
    exact inv_of_picker rfl hok' hseeding
      (fun hstate => hok.done_weHave hi (h.finished_ok p hp hstate))
      fun hphase hdone => h.settled p hp hphase (hbefore hdone)

/-- Until the check is over, there is a picker. -/
theorem Inv.exists_picker (h : t.Inv L) (hphase : t.phase ≠ .done) :
    ∃ p, t.picker = some p := by
  rcases hp : t.picker with _ | p
  · exact absurd (h.seeding hp).2.1 hphase
  · exact ⟨p, rfl⟩

/-- The end of the check. -/
theorem Inv.filesChecked (h : t.Inv L) (hphase : t.phase ≠ .done) : (t.filesChecked L).Inv L := by
  obtain ⟨p, hp⟩ := h.exists_picker hphase
  exact inv_filesChecked hp (h.pickerOk p hp).1 (h.finished_ok p hp)

/-- Another phase of the check. -/
theorem Inv.check (h : t.Inv L) (hphase : t.phase ≠ .done) {state : State} {phase : Phase}
    (hseeding : state ≠ .seeding) (hfinished : state ≠ .finished) (hphase' : phase ≠ .done) :
    { t with state := state, phase := phase }.Inv L := by
  obtain ⟨p, hp⟩ := h.exists_picker hphase
  exact inv_of_picker (p := p) hp (h.pickerOk p hp).1 hseeding (fun h => absurd h hfinished)
    fun h => absurd h hphase'

/-- **A piece that is found.** -/
theorem Inv.found (h : t.Inv L) (hphase : t.phase ≠ .done) {onDisk : ℕ → Bool} {found : Option ℕ}
    (hvalid : validFind L onDisk found = true) : (t.found found).Inv L := by
  cases found with
  | none => exact h
  | some index =>
    rw [Torrent.found]
    split
    · exact h
    · obtain ⟨p, hp⟩ := h.exists_picker hphase
      obtain ⟨hok, hseeding⟩ := h.pickerOk p hp
      rw [validFind, Bool.and_eq_true, decide_eq_true_iff] at hvalid
      rw [weHave_of_picker hp]
      exact inv_of_picker rfl (hok.weHave hvalid.1) hseeding
        (fun hstate => hok.done_weHave hvalid.1 (h.finished_ok p hp hstate))
        fun hphase' => absurd hphase' hphase

end Torrent

/-! ### The events -/

section Events

variable {k : ℕ} {onDisk : ℕ → Bool} {t t' : Torrent}

/-- **What an event can make of a torrent**, and when. The check ends when everything on the disk
has been found, which without any files is at once. -/
inductive Change (L : Layout) (k : ℕ) (onDisk : ℕ → Bool) (t : Torrent) : Torrent → Prop
  | prioritized : Change L k onDisk t (t.prioritizeFiles L (requestOnly L.numFiles k))
  | queued (hphase : t.phase = .resume) :
    Change L k onDisk t { t with state := .queuedForChecking, phase := .queued }
  | checking (hphase : t.phase = .queued) :
    Change L k onDisk t { t with state := .checkingFiles, phase := .checking }
  | found (piece : Option ℕ) (hphase : t.phase = .checking) (hvalid : validFind L onDisk piece) :
    Change L k onDisk t (t.found piece)
  | checked (piece : Option ℕ) (hphase : t.phase ≠ .done) (hvalid : validFind L onDisk piece)
    (hall : ∀ i < L.numPieces, onDisk i = true → (t.found piece).havePiece i = true) :
    Change L k onDisk t ((t.found piece).filesChecked L)
  | passed (index : ℕ) (hphase : t.phase = .done) (hi : index < L.numPieces)
    (hmissing : t.havePiece index = false) : Change L k onDisk t (t.piecePassed L index)

theorem change_of_next {e : Event} (hnext : next L k onDisk t e = some t') :
    Change L k onDisk t t' := by
  cases e with
  | prioritize =>
    obtain rfl := Option.some.inj hnext
    exact .prioritized
  | resumeChecked anyFile =>
    rw [next] at hnext
    split_ifs at hnext with hphase hany hnone
    · obtain rfl := Option.some.inj hnext
      exact .queued hphase
    · obtain rfl := Option.some.inj hnext
      refine .checked none (by rw [hphase]; decide) rfl fun i hi hdisk => ?_
      have hnot := List.all_eq_true.mp hnone i (List.mem_range.mpr hi)
      rw [hdisk] at hnot
      exact absurd hnot (by decide)
  | startChecking =>
    rw [next] at hnext
    split_ifs at hnext with hphase
    obtain rfl := Option.some.inj hnext
    exact .checking hphase
  | pieceChecked found last =>
    rw [next] at hnext
    split_ifs at hnext with hcheck hlast hall
    · obtain rfl := Option.some.inj hnext
      exact .found found hcheck.1 hcheck.2
    · obtain rfl := Option.some.inj hnext
      refine .checked found (by rw [hcheck.1]; decide) hcheck.2 fun i hi hdisk => ?_
      have hhave := List.all_eq_true.mp hall i (List.mem_range.mpr hi)
      rwa [hdisk] at hhave
  | piecePassed index =>
    rw [next] at hnext
    split_ifs at hnext with hpassed
    obtain rfl := Option.some.inj hnext
    exact .passed index hpassed.1 hpassed.2.1 hpassed.2.2

/-- A piece that is downloaded was missing. -/
theorem Torrent.Inv.passed (h : t.Inv L) {index : ℕ} (hphase : t.phase = .done)
    (hi : index < L.numPieces) (hmissing : t.havePiece index = false) :
    (t.piecePassed L index).Inv L := by
  rw [Torrent.havePiece] at hmissing
  split at hmissing
  · cases hmissing
  · rename_i p hp
    refine Torrent.inv_piecePassed h hp hphase hi (Bool.eq_false_iff.mpr fun hcomplete => ?_)
    have hhave := ((h.pickerOk p hp).1.complete_iff_havePiece.mp hcomplete).2 index hi
    rw [hmissing] at hhave
    cases hhave

/-- **Every event keeps the invariant.** -/
theorem inv_change (h : t.Inv L) (hchange : Change L k onDisk t t') : t'.Inv L := by
  cases hchange with
  | prioritized => exact Torrent.inv_prioritizeFiles h _
  | queued hphase => exact h.check (by rw [hphase]; decide) nofun nofun nofun
  | checking hphase => exact h.check (by rw [hphase]; decide) nofun nofun nofun
  | found piece hphase hvalid => exact h.found (by rw [hphase]; decide) hvalid
  | checked piece hphase hvalid _ =>
    exact (h.found hphase hvalid).filesChecked (by rwa [(Torrent.sameFrame_found t piece).2])
  | passed index hphase hi hmissing => exact h.passed hphase hi hmissing

/-- **What holds of a torrent in every state.** -/
theorem inv_of_reachable (h : Reachable L k onDisk t) : t.Inv L := by
  induction h with
  | refl => exact Torrent.inv_init L
  | tail _ hstep ih =>
    obtain ⟨e, he⟩ := hstep
    exact inv_change ih (change_of_next he)

end Events

end InstantMirror.Libtorrent
