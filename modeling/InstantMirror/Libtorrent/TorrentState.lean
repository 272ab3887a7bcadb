import InstantMirror.Libtorrent.PiecePicker
import Mathlib.Logic.Relation

/-!
# The states of a torrent

A `torrent` of libtorrent is checked – first its resume data, then, if any of its files exist,
piece by piece – and then downloads what it has not found. Each time all the pieces that it
wants are there, `finished` sets its state to `finished`; and if all its pieces are there,
`completed` at once sets it to `seeding`, in the same call and under the same lock
(`InstantMirror.Libtorrent.Torrent.finished`).

Which pieces it wants follows from the priorities of the files: `update_piece_priorities` goes
through the files with the position of each and marks the pieces it covers
(`InstantMirror.Libtorrent.priorityLoop`). The priorities can be set at any moment, also during
the check.

This module has the functions and the events (`InstantMirror.Libtorrent.Event`) in any order in
which they can come. That a picker may count more pieces than the torrent has – it counts blocks,
and a piece length need not be a multiple of their size – is part of it
(`InstantMirror.Libtorrent.Layout.pickerPieces`).
-/

namespace InstantMirror.Libtorrent

/-! ### Layouts -/

/-- How many bytes files of these sizes have together. -/
def sumSizes : List ℕ → ℕ
  | [] => 0
  | size :: sizes => size + sumSizes sizes

/-- **The layout of a torrent**: the sizes of its files, in order, and the length of a piece. -/
structure Layout where
  /-- The sizes. -/
  sizes : List ℕ
  /-- `piece_length()`. -/
  pieceLength : ℕ
  /-- `parse_info_section` refuses any other. -/
  pieceLength_pos : 0 < pieceLength

namespace Layout

variable (L : Layout)

/-- `num_files()`. -/
def numFiles : ℕ := L.sizes.length

/-- `total_size()`. -/
def totalSize : ℕ := sumSizes L.sizes

/-- `num_pieces()`. -/
def numPieces : ℕ := (L.totalSize + L.pieceLength - 1) / L.pieceLength

/-- `m_block_size`. -/
def blockSize : ℕ := min (16 * 1024) L.pieceLength

/-- How many blocks the picker takes a piece to have. -/
def blocksPerPiece : ℕ := max (L.pieceLength / L.blockSize) 1

/-- How many pieces the picker has: as many as its blocks fill. -/
def pickerPieces : ℕ :=
  ((L.totalSize + L.blockSize - 1) / L.blockSize + L.blocksPerPiece - 1) / L.blocksPerPiece

/-- Where a file starts. -/
def fileOffset (j : ℕ) : ℕ := sumSizes (L.sizes.take j)

/-- How large a file is. -/
def fileSize (j : ℕ) : ℕ := L.sizes.getD j 0

end Layout

/-- **A stretch of bytes has a part in a piece.** -/
def InPiece (pieceLength start size i : ℕ) : Prop :=
  ∃ b, start ≤ b ∧ b < start + size ∧ b / pieceLength = i

/-- **A file has a part in a piece.** -/
def Layout.Overlaps (L : Layout) (j i : ℕ) : Prop :=
  InPiece L.pieceLength (L.fileOffset j) (L.fileSize j) i

/-! ### Torrents -/

/-- **`torrent_status::state_t`.** -/
inductive State where
  | queuedForChecking : State
  | checkingFiles : State
  | downloadingMetadata : State
  | downloading : State
  | finished : State
  | seeding : State
  | allocating : State
  | checkingResumeData : State
deriving DecidableEq

/-- How far the check has come. -/
inductive Phase where
  /-- The resume data is looked at. -/
  | resume : Phase
  /-- The torrent waits until its files are checked. -/
  | queued : Phase
  /-- Its files are checked. -/
  | checking : Phase
  /-- `m_files_checked`. -/
  | done : Phase
deriving DecidableEq

/-- **A `torrent`**, with valid metadata. -/
structure Torrent where
  /-- `m_state`. -/
  state : State
  /-- `m_picker`. -/
  picker : Option PiecePicker
  /-- `m_file_priority`. -/
  filePriority : List ℕ
  /-- How far the check has come. -/
  phase : Phase

namespace Torrent

/-- **`init`**: each file has priority `1`, and the resume data is looked at. -/
def init (L : Layout) : Torrent :=
  ⟨.checkingResumeData, some (.init L.pickerPieces), List.replicate L.numFiles 1, .resume⟩

/-- `have_piece`. -/
def havePiece (t : Torrent) (index : ℕ) : Bool :=
  match t.picker with
  | none => true
  | some p => p.havePiece index

/-- **`is_seed`.** -/
def isSeed (t : Torrent) : Bool :=
  match t.picker with
  | none => true
  | some p => t.state = .seeding || p.numHave = p.numPieces

/-- **`is_finished`.** -/
def isFinished (L : Layout) (t : Torrent) : Bool :=
  t.isSeed ||
    match t.picker with
    | none => true
    | some p => p.numHave + p.numFiltered = L.numPieces

/-- **`completed`**: the picker is not needed any more. -/
def completed (t : Torrent) : Torrent := { t with picker := none, state := .seeding }

/-- **`finished`.** -/
def finished (t : Torrent) : Torrent :=
  let t := { t with state := .finished }
  if t.isSeed then t.completed else t

/-- `resume_download`. -/
def resumeDownload (t : Torrent) : Torrent := { t with state := .downloading }

/-- **`update_peer_interest`**, without the peers. -/
def updatePeerInterest (L : Layout) (wasFinished : Bool) (t : Torrent) : Torrent :=
  if t.isFinished L && !wasFinished then t.finished
  else if !t.isFinished L && wasFinished then t.resumeDownload
  else t

/-- **`prioritize_pieces`.** -/
def prioritizePieces (L : Layout) (pieces : List ℕ) (t : Torrent) : Torrent :=
  match t.picker with
  | none => t
  | some p =>
    if t.isSeed then t
    else
      let updated := p.setPiecePriorities 0 pieces
      let t' := { t with picker := some updated.2 }
      if updated.1 then t'.updatePeerInterest L (t.isFinished L) else t'

end Torrent

/-- `set_if_greater`, for the pieces from the first to the last one of a file. -/
def markPieces (priority first last : ℕ) (pieces : List ℕ) : List ℕ :=
  pieces.mapIdx fun i p => if first ≤ i ∧ i ≤ last ∧ p < priority then priority else p

/-- **The loop of `update_piece_priorities`**, from this position on. -/
def priorityLoop (pieceLength : ℕ) : ℕ → List ℕ → List ℕ → List ℕ → List ℕ
  | position, size :: sizes, priority :: priorities, pieces =>
    if size = 0 then priorityLoop pieceLength position sizes priorities pieces
    else if priority = 0 then priorityLoop pieceLength (position + size) sizes priorities pieces
    else priorityLoop pieceLength (position + size) sizes priorities
      (markPieces priority (position / pieceLength) ((position + size - 1) / pieceLength) pieces)
  | _, _, _, pieces => pieces

namespace Torrent

/-- **`update_piece_priorities`.** -/
def updatePiecePriorities (L : Layout) (t : Torrent) : Torrent :=
  if L.numPieces = 0 then t
  else t.prioritizePieces L
    (priorityLoop L.pieceLength 0 L.sizes t.filePriority (List.replicate L.numPieces 0))

/-- **`prioritize_files`.** -/
def prioritizeFiles (L : Layout) (files : List ℕ) (t : Torrent) : Torrent :=
  if t.isSeed then t
  else if L.numPieces = 0 then t
  else { t with filePriority := files }.updatePiecePriorities L

/-- `files_checked` starts to download, unless the torrent is finished already. -/
def startDownload (t : Torrent) : Torrent :=
  if t.state = .finished then t else { t with state := .downloading }

/-- `files_checked` then looks whether there is anything to be downloaded. -/
def finishCheck (L : Layout) (t : Torrent) : Torrent :=
  if t.isSeed then if t.state = .finished then t else t.finished
  else if t.isFinished L ∧ t.state ≠ .finished then t.finished
  else t

/-- **`files_checked`.** -/
def filesChecked (L : Layout) (t : Torrent) : Torrent :=
  { t.startDownload.finishCheck L with phase := .done }

/-- `we_have`, without the progress of the files. -/
def weHave (t : Torrent) (index : ℕ) : Torrent := { t with picker := t.picker.map (·.weHave index) }

/-- **`piece_passed`**, without the peers. -/
def piecePassed (L : Layout) (index : ℕ) (t : Torrent) : Torrent :=
  let wasFinished :=
    match t.picker with
    | none => true
    | some p => decide (p.numFiltered + p.numHave = L.numPieces)
  let t' := t.weHave index
  if !wasFinished && t'.isFinished L then t'.finished else t'

end Torrent

/-! ### Events -/

/-- The priorities that `getTorrent` sets: `1` for the file it wants. -/
def requestOnly (n k : ℕ) : List ℕ := (List.replicate n 0).set k 1

/-- **What can happen to the torrent** of a session. -/
inductive Event where
  /-- `getTorrent` calls `prioritize_files`. -/
  | prioritize : Event
  /-- `on_resume_data_checked`: there is no resume data; if any of the files exist, they are
  checked. -/
  | resumeChecked (anyFile : Bool) : Event
  /-- `start_checking`. -/
  | startChecking : Event
  /-- `on_piece_checked`: a piece has been found, perhaps, and perhaps that was the last one. -/
  | pieceChecked (found : Option ℕ) (last : Bool) : Event
  /-- `piece_passed`: a piece has been downloaded. -/
  | piecePassed (index : ℕ) : Event

/-- `on_piece_checked`, up to the question whether it was the last one. -/
def Torrent.found (t : Torrent) : Option ℕ → Torrent
  | none => t
  | some index => if t.havePiece index then t else t.weHave index

section Events

variable (L : Layout) (k : ℕ) (onDisk : ℕ → Bool)

/-- Whether a piece has been found that was on the disk. -/
def validFind : Option ℕ → Bool
  | none => true
  | some index => index < L.numPieces && onDisk index

/-- **One event**; `none` where it cannot happen. The check is over when everything on the disk
has been found, and pieces are downloaded only after it. -/
def next (t : Torrent) : Event → Option Torrent
  | .prioritize => some (t.prioritizeFiles L (requestOnly L.numFiles k))
  | .resumeChecked anyFile =>
    if t.phase = .resume then
      if anyFile then some { t with state := .queuedForChecking, phase := .queued }
      else if (List.range L.numPieces).all (!onDisk ·) then some (t.filesChecked L)
      else none
    else none
  | .startChecking =>
    if t.phase = .queued then some { t with state := .checkingFiles, phase := .checking } else none
  | .pieceChecked found last =>
    if t.phase = .checking ∧ validFind L onDisk found then
      if !last then some (t.found found)
      else if (List.range L.numPieces).all fun i => !onDisk i || (t.found found).havePiece i then
        some ((t.found found).filesChecked L)
      else none
    else none
  | .piecePassed index =>
    if t.phase = .done ∧ index < L.numPieces ∧ t.havePiece index = false then
      some (t.piecePassed L index)
    else none

/-- **The states a torrent can be in.** -/
def Reachable : Torrent → Prop :=
  Relation.ReflTransGen (fun t t' => ∃ e, next L k onDisk t e = some t') (.init L)

end Events

end InstantMirror.Libtorrent
