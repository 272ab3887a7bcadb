import InstantMirror.Lib.Calendar
import InstantMirror.TorrentIndex

/-!
# The buffers of a row

`addToList` prints the size of a file into a buffer of 10 bytes and its date into one of
18, neither of which it checks. The size is printed by `"%i"`, that is as an `int`; the
date by `"%d-%b-%Y %H:%M"`, which is 13 characters and a year.

A row is rendered (`InstantMirror.Row.Renders`) if both texts fit with their NUL. That is
a matter of two ranges: sizes of at most nine characters as an `int`, and dates before
the year 10000 (`InstantMirror.renders_iff`).

What fits need not be true. The row says what the torrent says
(`InstantMirror.Row.Exact`) if moreover the size is one that an `int` can hold; a file of
five bytes more than 4 GiB is listed as one of five bytes. Dates are never wrong: they are
those of the calendar, or there are none (`InstantMirror.timeText_eq_some_iff`). Together,
the rows are exact for sizes of at most nine digits and dates before the year 10000
(`InstantMirror.rowExact_iff`).
-/

namespace InstantMirror

/-- What `sprintf(size_buf, "%i", size)` prints. -/
def sizeText (size : ℤ) : Bytes := intText (size.bmod 0x100000000)

/-- What `addToList` has in `time_buf`, if `gmtime` and `strftime` succeed. -/
def timeText (mtime : ℤ) : Option Bytes := (gmtime mtime).bind (strftime 18)

/-- **The row is rendered inside its buffers**: `size_buf[10]`, and `time_buf[18]`. -/
def Row.Renders (r : Row) : Prop :=
  (sizeText r.size).length + 1 ≤ 10 ∧
    ∃ year, InYear r.mtime year ∧ 13 + (intText year).length + 1 ≤ 18

/-- **The sizes and dates that are rendered**: what the size is as an `int` has at most nine
characters, and the year has at most four. -/
structure Row.Small (r : Row) : Prop where
  /-- The least size of nine characters. -/
  neg : -99999999 ≤ r.size.bmod 0x100000000
  /-- The greatest size of nine characters. -/
  size : r.size.bmod 0x100000000 ≤ 999999999
  /-- The beginning of the year -999. -/
  early : -93692592000 ≤ r.mtime
  /-- The beginning of the year 10000. -/
  late : r.mtime < 253402300800

/-- **The row is exact**: the size in decimal and the date of the file, inside their buffers. -/
structure Row.Exact (r : Row) : Prop where
  /-- The size. -/
  size : sizeText r.size = decimal r.size.toNat
  /-- It fits into `size_buf[10]`. -/
  size_fits : (sizeText r.size).length + 1 ≤ 10
  /-- The date, which fits into `time_buf[18]`. -/
  date : ∃ tm, IsTm r.mtime tm ∧ timeText r.mtime = some tm.text ∧ tm.text.length + 1 ≤ 18

/-! ### What fits -/

/-- The sizes that fit into `size_buf`. -/
theorem length_sizeText_iff (size : ℤ) : (sizeText size).length + 1 ≤ 10 ↔
    -99999999 ≤ size.bmod 0x100000000 ∧ size.bmod 0x100000000 ≤ 999999999 := by
  have hnine := length_intText_le_iff (n := size.bmod 0x100000000) (k := 8) (by omega)
  rw [sizeText]
  omega

/-- The years that fit into `time_buf`. -/
theorem length_year_iff (year : ℤ) :
    13 + (intText year).length + 1 ≤ 18 ↔ -999 ≤ year ∧ year ≤ 9999 := by
  have hfour := length_intText_le_iff (n := year) (k := 3) (by omega)
  omega

/-- **The rows that are rendered.** -/
theorem renders_iff (r : Row) : r.Renders ↔ r.Small := by
  constructor
  · rintro ⟨hs, year, hin, hfits⟩
    obtain ⟨hneg, hle⟩ := (length_sizeText_iff r.size).mp hs
    obtain ⟨hearly, hlate⟩ := hin.bounds.mp ((length_year_iff year).mp hfits)
    exact ⟨hneg, hle, hearly, hlate⟩
  · rintro ⟨hneg, hle, hearly, hlate⟩
    obtain ⟨year, hin⟩ := exists_inYear r.mtime
    exact ⟨(length_sizeText_iff r.size).mpr ⟨hneg, hle⟩, year, hin,
      (length_year_iff year).mpr (hin.bounds.mpr ⟨hearly, hlate⟩)⟩

/-! ### What is true -/

/-- **A date that is written is the date of the file**, and it is written if it fits: a year that
`gmtime` cannot return would not. -/
theorem timeText_eq_some_iff {mtime : ℤ} {text : Bytes} :
    timeText mtime = some text ↔ ∃ tm, IsTm mtime tm ∧ tm.text = text ∧ text.length + 1 ≤ 18 := by
  simp only [timeText, Option.bind_eq_some_iff, gmtime_eq_some_iff, strftime]
  constructor
  · rintro ⟨tm, ⟨htm, -⟩, htext⟩
    split at htext
    · rename_i hfits
      obtain rfl := Option.some.inj htext
      exact ⟨tm, htm, rfl, hfits⟩
    · cases htext
  · rintro ⟨tm, htm, rfl, hfits⟩
    have hyear := (length_year_iff tm.year).mp (tm.length_text ▸ hfits)
    exact ⟨tm, ⟨htm, by omega, by omega⟩, if_pos hfits⟩

/-- The rows that are rendered are those whose texts are in the buffers. -/
theorem renders_iff_isSome (r : Row) :
    r.Renders ↔ (sizeText r.size).length + 1 ≤ 10 ∧ (timeText r.mtime).isSome := by
  rw [Row.Renders, Option.isSome_iff_exists]
  refine and_congr_right fun _ => ?_
  simp only [timeText_eq_some_iff]
  constructor
  · rintro ⟨year, hin, hfits⟩
    have htm := isTm_calendar r.mtime
    refine ⟨_, _, htm, rfl, ?_⟩
    rwa [Tm.length_text, htm.inYear.eq hin]
  · rintro ⟨_, tm, htm, rfl, hfits⟩
    exact ⟨tm.year, htm.inYear, tm.length_text ▸ hfits⟩

/-- Numbers are told apart by their texts. -/
theorem sizeText_eq_iff {size : ℤ} (h : 0 ≤ size) :
    sizeText size = decimal size.toNat ↔ size.bmod 0x100000000 = size := by
  rw [sizeText, intText]
  split
  · rename_i hneg
    refine ⟨fun htext => ?_, fun heq => by omega⟩
    -- a minus sign is no digit
    have hdigit := isDigit_of_mem_decimal (htext ▸ List.mem_cons_self)
    exact absurd hdigit (by decide)
  · rename_i hnonneg
    constructor
    · intro htext
      have hread := congrArg (readDigits 0) htext
      rw [readDigits_decimal, readDigits_decimal] at hread
      omega
    · intro heq
      have habs : size.natAbs = size.toNat := by omega
      rw [heq, habs]

/-- **The rows that are exact**: sizes of at most nine digits, and dates before the year 10000. -/
theorem rowExact_iff {r : Row} (hsize : 0 ≤ r.size) (hmtime : 0 ≤ r.mtime) :
    r.Exact ↔ r.size ≤ 999999999 ∧ r.mtime < 253402300800 := by
  constructor
  · rintro ⟨hexact, hfits, tm, htm, -, hdate⟩
    have hsmall := (length_sizeText_iff r.size).mp hfits
    have hyear := htm.inYear.bounds.mp ((length_year_iff tm.year).mp (tm.length_text ▸ hdate))
    rw [(sizeText_eq_iff hsize).mp hexact] at hsmall
    exact ⟨hsmall.2, hyear.2⟩
  · rintro ⟨hle, hlt⟩
    have hint : r.size.bmod 0x100000000 = r.size := Int.bmod_eq_of_le (by omega) (by omega)
    have htm := isTm_calendar r.mtime
    have hdate : (calendar r.mtime).text.length + 1 ≤ 18 := by
      rw [Tm.length_text, length_year_iff, htm.inYear.bounds]
      exact ⟨by omega, hlt⟩
    refine ⟨(sizeText_eq_iff hsize).mpr hint, ?_, _, htm, ?_, hdate⟩
    · rw [length_sizeText_iff, hint]
      exact ⟨by omega, hle⟩
    · exact timeText_eq_some_iff.mpr ⟨_, htm, rfl, hdate⟩

/-- A file of 700 MB, of July 2009. -/
theorem exact_iso :
    (⟨.file, ascii "n/", ascii "a.iso", 1248000000, 732766208⟩ : Row).Exact :=
  (rowExact_iff (by decide) (by decide)).mpr ⟨by decide, by decide⟩

/-- **Sizes and dates that are not**: a file of 1 GB needs eleven bytes; one of 4 GiB and five
bytes is listed as one of five bytes; the year 10000 does not fit; and there are moments that
`gmtime` has no date of. -/
theorem not_exact :
    (sizeText 1000000000).length + 1 = 11 ∧ sizeText 4294967301 = ascii "5" ∧
      (gmtime 253402300800).map Tm.text = some (ascii "01-Jan-10000 00:00") ∧
      timeText 253402300800 = none ∧ gmtime 0x7fffffffffffffff = none ∧
      ¬ (⟨.file, ascii "n/", ascii "a.iso", 1248000000, 1000000000⟩ : Row).Exact ∧
      ¬ (⟨.file, ascii "n/", ascii "a.iso", 1248000000, 4294967301⟩ : Row).Exact ∧
      ¬ (⟨.file, ascii "n/", ascii "a.iso", 253402300800, 1⟩ : Row).Exact := by
  refine ⟨by decide, by decide, by decide, by decide, by decide, fun h => ?_, fun h => ?_,
    fun h => ?_⟩
  · exact absurd h.size_fits (by decide)
  · exact absurd h.size (by decide)
  · obtain ⟨tm, -, htext, -⟩ := h.date
    have hnone : timeText 253402300800 = none := by decide
    exact absurd (hnone.symm.trans htext) (by simp)

end InstantMirror
