import Mathlib.Data.List.Basic

/-!
# The piece picker

`piece_picker` knows of each piece whether it is there and which priority it has; a piece of
priority `0` is filtered. It does not go through the pieces to know how many are there, and how
many others are filtered, but keeps two counters up to date. That they are right is part of
`InstantMirror.Libtorrent.PiecePicker` here: an operation has to say why it leaves them so.

What the rest of the development needs is what an operation does to each piece
(`InstantMirror.Libtorrent.PiecePicker.getElem?_weHave`,
`InstantMirror.Libtorrent.PiecePicker.getElem?_setPiecePriorities`), and that all of the first
`n` pieces are counted if the counter says `n` (`InstantMirror.Libtorrent.countP_eq_iff`).
-/

namespace InstantMirror.Libtorrent

/-! ### Counting in a list -/

section Counting

variable {α : Type*} {f : α → Bool} {l : List α} {i : ℕ} {a : α}

theorem countP_set_of_eq (h : i < l.length) (heq : f a = f l[i]) :
    (l.set i a).countP f = l.countP f := by
  rw [List.countP_set h, heq]
  split
  · rename_i hi
    have hpos : 0 < l.countP f := List.countP_pos_iff.mpr ⟨l[i], List.getElem_mem h, hi⟩
    omega
  · rfl

theorem countP_set_of_gain (h : i < l.length) (hold : f l[i] = false) (hnew : f a = true) :
    (l.set i a).countP f = l.countP f + 1 := by
  rw [List.countP_set h, hold, hnew]
  rfl

theorem countP_set_of_loss (h : i < l.length) (hold : f l[i] = true) (hnew : f a = false) :
    (l.set i a).countP f = l.countP f - 1 := by
  rw [List.countP_set h, hold, hnew]
  rfl

/-- **All of the first `n` are counted, and no other.** -/
theorem countP_eq_iff {n : ℕ} (hn : n ≤ l.length)
    (hbeyond : ∀ i a, n ≤ i → l[i]? = some a → f a = false) :
    l.countP f = n ↔ ∀ i a, i < n → l[i]? = some a → f a = true := by
  have hdrop : (l.drop n).countP f = 0 := by
    rw [List.countP_eq_zero]
    intro a ha
    obtain ⟨i, hi⟩ := List.mem_iff_getElem?.mp ha
    rw [List.getElem?_drop] at hi
    rw [hbeyond _ a (Nat.le_add_right n i) hi]
    decide
  have hcount : l.countP f = (l.take n).countP f := by
    conv_lhs => rw [← List.take_append_drop n l, List.countP_append, hdrop, Nat.add_zero]
  have hlength : (l.take n).length = n := List.length_take_of_le hn
  rw [hcount]
  nth_rewrite 2 [← hlength]
  rw [List.countP_eq_length]
  constructor
  · intro hall i a hi ha
    exact hall a (List.mem_iff_getElem?.mpr ⟨i, by rw [List.getElem?_take_of_lt hi, ha]⟩)
  · intro hall a ha
    obtain ⟨i, hi⟩ := List.mem_iff_getElem?.mp ha
    have hlt : i < n := by
      have hlt := (List.getElem?_eq_some_iff.mp hi).1
      rwa [hlength] at hlt
    exact hall i a hlt (by rwa [List.getElem?_take_of_lt hlt] at hi)

/-- Those that pass one test, and those that pass another one instead. -/
theorem countP_add_countP (f g : α → Bool) (l : List α) :
    l.countP f + l.countP (fun a => !f a && g a) = l.countP fun a => f a || g a := by
  induction l with
  | nil => rfl
  | cons a l ih =>
    simp only [List.countP_cons]
    cases f a <;> cases g a <;> simp <;> omega

end Counting

/-! ### Pieces -/

/-- **What is known of a piece**, `piece_pos`. -/
structure PiecePos where
  /-- `have()`. -/
  isHave : Bool
  /-- `piece_priority`. -/
  piecePriority : ℕ
deriving DecidableEq

/-- `filtered()`. -/
def PiecePos.filtered (pos : PiecePos) : Bool := pos.piecePriority = 0

/-- There is nothing to be done about this piece: it is there, or filtered. -/
def PiecePos.settled (pos : PiecePos) : Bool := pos.isHave || pos.filtered

/-- **A `piece_picker`.** -/
structure PiecePicker where
  /-- `m_piece_map`. -/
  pieceMap : List PiecePos
  /-- `m_num_have`. -/
  numHave : ℕ
  /-- `m_num_filtered`. -/
  numFiltered : ℕ
  /-- The first counter counts the pieces that are there. -/
  numHave_eq : numHave = pieceMap.countP PiecePos.isHave
  /-- The second one counts the filtered pieces among the others. -/
  numFiltered_eq : numFiltered = pieceMap.countP fun pos => !pos.isHave && pos.filtered

theorem PiecePos.filtered_mk {isHave : Bool} {priority : ℕ} :
    (PiecePos.mk isHave priority).filtered = true ↔ priority = 0 := decide_eq_true_iff

namespace PiecePicker

variable {p : PiecePicker} {index n : ℕ}

/-! ### The operations -/

/-- `num_pieces()`. -/
def numPieces (p : PiecePicker) : ℕ := p.pieceMap.length

/-- **`init`**, on a new picker: no piece is there, and each has priority `1`. -/
def init (n : ℕ) : PiecePicker where
  pieceMap := List.replicate n ⟨false, 1⟩
  numHave := 0
  numFiltered := 0
  numHave_eq := by simp [List.countP_replicate]
  numFiltered_eq := by simp [List.countP_replicate, PiecePos.filtered]

/-- `have_piece`. -/
def havePiece (p : PiecePicker) (index : ℕ) : Bool :=
  ((p.pieceMap[index]?).map PiecePos.isHave).getD false

/-- The second half of `we_have`, for a piece that has not been there. -/
def setHave (p : PiecePicker) (index : ℕ) (h : index < p.pieceMap.length)
    (hhave : p.pieceMap[index].isHave = false) : PiecePicker where
  pieceMap := p.pieceMap.set index { p.pieceMap[index] with isHave := true }
  numHave := p.numHave + 1
  numFiltered := if p.pieceMap[index].filtered then p.numFiltered - 1 else p.numFiltered
  numHave_eq := by rw [countP_set_of_gain h hhave rfl, p.numHave_eq]
  numFiltered_eq := by
    split
    · rename_i hfiltered
      rw [countP_set_of_loss h (by simp [hhave, hfiltered]) (by simp), p.numFiltered_eq]
    · rename_i hfiltered
      rw [countP_set_of_eq h (by simp [hfiltered]), p.numFiltered_eq]

/-- **`we_have`.** -/
def weHave (p : PiecePicker) (index : ℕ) : PiecePicker :=
  if h : index < p.pieceMap.length then
    if hhave : p.pieceMap[index].isHave = false then p.setHave index h hhave else p
  else p

/-- The second half of `set_piece_priority`, for a piece whose priority changes. -/
def changePriority (p : PiecePicker) (index newPriority : ℕ) (h : index < p.pieceMap.length) :
    PiecePicker where
  pieceMap := p.pieceMap.set index { p.pieceMap[index] with piecePriority := newPriority }
  numHave := p.numHave
  numFiltered :=
    if p.pieceMap[index].isHave then p.numFiltered
    else if newPriority = 0 ∧ !p.pieceMap[index].filtered then p.numFiltered + 1
    else if newPriority ≠ 0 ∧ p.pieceMap[index].filtered then p.numFiltered - 1
    else p.numFiltered
  numHave_eq := by rw [countP_set_of_eq h (by rfl), p.numHave_eq]
  numFiltered_eq := by
    split
    · rename_i hhave
      rw [countP_set_of_eq h (by simp [hhave]), p.numFiltered_eq]
    · rename_i hhave
      split
      · rename_i hgain
        rw [countP_set_of_gain h (by simpa [hhave] using hgain.2)
          (by simp [hhave, hgain.1, PiecePos.filtered]), p.numFiltered_eq]
      · rename_i hgain
        split
        · rename_i hloss
          rw [countP_set_of_loss h (by simp [hhave, hloss.2])
            (by simp [hloss.1, PiecePos.filtered]), p.numFiltered_eq]
        · rename_i hloss
          rw [countP_set_of_eq h (by grind [PiecePos.filtered]), p.numFiltered_eq]

/-- **`set_piece_priority`**: whether the piece has just been filtered, or just stopped being
filtered, and the picker after it. -/
def setPiecePriority (p : PiecePicker) (index newPriority : ℕ) : Bool × PiecePicker :=
  if h : index < p.pieceMap.length then
    if newPriority = p.pieceMap[index].piecePriority then (false, p)
    else ((newPriority = 0) != p.pieceMap[index].filtered, p.changePriority index newPriority h)
  else (false, p)

/-- The loop of `prioritize_pieces`, from this index on. -/
def setPiecePriorities (p : PiecePicker) : ℕ → List ℕ → Bool × PiecePicker
  | _, [] => (false, p)
  | index, priority :: pieces =>
    let first := p.setPiecePriority index priority
    let rest := first.2.setPiecePriorities (index + 1) pieces
    (first.1 || rest.1, rest.2)

/-! ### What they do to the pieces -/

theorem getElem?_init {i : ℕ} {pos : PiecePos} (h : (init n).pieceMap[i]? = some pos) :
    pos = ⟨false, 1⟩ := by
  rw [init, List.getElem?_replicate] at h
  split at h
  · exact (Option.some.inj h).symm
  · cases h

theorem pieceMap_weHave (p : PiecePicker) (index : ℕ) : (p.weHave index).pieceMap =
    p.pieceMap.modify index fun pos => { pos with isHave := true } := by
  rw [weHave]
  split
  · rename_i h
    rw [List.modify_eq_set_get _ h]
    split
    · rfl
    · rename_i hhave
      rw [Bool.not_eq_false] at hhave
      have hsame : { p.pieceMap[index] with isHave := true } = p.pieceMap[index] := by rw [← hhave]
      simp only [List.get_eq_getElem]
      rw [hsame, List.set_getElem_self]
  · rename_i h
    exact (List.modify_eq_self (Nat.le_of_not_lt h)).symm

theorem pieceMap_setPiecePriority (p : PiecePicker) (index priority : ℕ) :
    (p.setPiecePriority index priority).2.pieceMap =
      p.pieceMap.modify index fun pos => { pos with piecePriority := priority } := by
  rw [setPiecePriority]
  split
  · rename_i h
    rw [List.modify_eq_set_get _ h]
    split
    · rename_i hsame
      subst hsame
      exact (List.set_getElem_self h).symm
    · rfl
  · rename_i h
    exact (List.modify_eq_self (Nat.le_of_not_lt h)).symm

theorem getElem?_weHave (p : PiecePicker) (index i : ℕ) : (p.weHave index).pieceMap[i]? =
    (p.pieceMap[i]?).map fun pos => if index = i then { pos with isHave := true } else pos := by
  rw [pieceMap_weHave, List.getElem?_modify]
  rfl

theorem length_weHave (p : PiecePicker) (index : ℕ) :
    (p.weHave index).pieceMap.length = p.pieceMap.length := by
  rw [pieceMap_weHave, List.length_modify]

theorem length_setPiecePriorities (pieces : List ℕ) : ∀ (p : PiecePicker) (index : ℕ),
    (p.setPiecePriorities index pieces).2.pieceMap.length = p.pieceMap.length := by
  induction pieces with
  | nil => exact fun _ _ => rfl
  | cons priority pieces ih =>
    intro p index
    rw [setPiecePriorities, ih, pieceMap_setPiecePriority, List.length_modify]

/-- **What the loop does to a piece**: those it comes to get the priority from the list. -/
theorem getElem?_setPiecePriorities (pieces : List ℕ) : ∀ (p : PiecePicker) (index i : ℕ),
    (p.setPiecePriorities index pieces).2.pieceMap[i]? = (p.pieceMap[i]?).map fun pos =>
      if index ≤ i ∧ i < index + pieces.length then
        { pos with piecePriority := pieces.getD (i - index) 0 } else pos := by
  induction pieces with
  | nil =>
    intro p index i
    have hfalse : ¬ (index ≤ i ∧ i < index + ([] : List ℕ).length) := by simp
    simp only [if_neg hfalse, Option.map_id']
    rfl
  | cons priority pieces ih =>
    intro p index i
    rw [setPiecePriorities]
    simp only
    rw [ih, pieceMap_setPiecePriority, List.getElem?_modify, Option.map_eq_map, Option.map_map]
    congr 1
    funext pos
    rw [Function.comp_apply]
    rcases Nat.lt_trichotomy index i with hlt | rfl | hlt
    · have hne : index ≠ i := by omega
      have hsub : i - index = i - (index + 1) + 1 := by omega
      rw [if_neg hne, hsub, List.getD_cons_succ, List.length_cons]
      refine if_congr ?_ rfl rfl
      omega
    · have hleft : ¬ (index + 1 ≤ index ∧ index < index + 1 + pieces.length) := by omega
      have hright : index ≤ index ∧ index < index + (priority :: pieces).length := by simp
      rw [if_pos rfl, if_neg hleft, if_pos hright, Nat.sub_self, List.getD_cons_zero]
    · have hne : index ≠ i := by omega
      have hleft : ¬ (index + 1 ≤ i ∧ i < index + 1 + pieces.length) := by omega
      have hright : ¬ (index ≤ i ∧ i < index + (priority :: pieces).length) := by omega
      rw [if_neg hne, if_neg hleft, if_neg hright]

/-! ### What the counters say -/

/-- The loop does not change how many pieces are there. -/
theorem numHave_setPiecePriorities (pieces : List ℕ) : ∀ (p : PiecePicker) (index : ℕ),
    (p.setPiecePriorities index pieces).2.numHave = p.numHave := by
  induction pieces with
  | nil => exact fun _ _ => rfl
  | cons priority pieces ih =>
    intro p index
    rw [setPiecePriorities, ih, setPiecePriority]
    split
    · split <;> rfl
    · rfl

/-- **If no piece was filtered and none stopped being filtered**, the counter is what it was. -/
theorem numFiltered_setPiecePriorities (pieces : List ℕ) : ∀ (p : PiecePicker) (index : ℕ),
    (p.setPiecePriorities index pieces).1 = false →
      (p.setPiecePriorities index pieces).2.numFiltered = p.numFiltered := by
  induction pieces with
  | nil => exact fun _ _ _ => rfl
  | cons priority pieces ih =>
    intro p index h
    rw [setPiecePriorities, Bool.or_eq_false_iff] at h
    rw [setPiecePriorities, ih _ _ h.2]
    have hfirst := h.1
    rw [setPiecePriority] at hfirst ⊢
    split
    · rename_i hlt
      rw [dif_pos hlt] at hfirst
      split
      · rfl
      · rename_i hne
        rw [if_neg hne] at hfirst
        simp only [bne_eq_false_iff_eq] at hfirst
        rw [changePriority]
        grind
    · rfl

/-- How many pieces there is nothing to be done about. -/
theorem numHave_add_numFiltered (p : PiecePicker) :
    p.numHave + p.numFiltered = p.pieceMap.countP PiecePos.settled := by
  rw [p.numHave_eq, p.numFiltered_eq]
  exact countP_add_countP _ _ _

end PiecePicker

end InstantMirror.Libtorrent
