import InstantMirror.Im0.MiniHttpd

/-!
# The prototype: a file that has just been fetched

A file of a torrent that is there already is sent with what `stat` says about it
(`InstantMirror.Im0.handleRequest_of_regular`). One that has to be fetched first is sent with
what was in `sb` before, because nothing asks about the file again
(`InstantMirror.Im0.handleRequest_of_fetches`): after two calls of `stat` that failed, zeros.

So the two answers to one request (`InstantMirror.Im0.ServedAlike`) agree if it is answered
before `sb` is read; otherwise the file has to have the time `0`, and either be empty as well or
not be asked for since it has not been modified (`InstantMirror.Im0.servedAlike_iff`).
-/

namespace InstantMirror.Im0

variable {cfg : Config} {getTorrent : Bytes → World → World} {w w' : World} {req : Request}
  {file : Bytes} {s sb : Stat}

/-! ### The two ways to `do_file` -/

/-- **The request fetches the file**: it is not there, it is the name of no torrent, and it is a
file of one. -/
structure Fetches (w : World) (file : Bytes) : Prop where
  /-- There is nothing at this path, or a directory. -/
  missing : ∀ s, w.stat file = some s → s.isDir = true
  /-- There is no `.torrent` file of this name. -/
  noTorrent : w.stat (file ++ ascii ".torrent") = none
  /-- It is a file of a torrent. -/
  checked : checkFile w file = some true

/-- **A file that is fetched is sent with what is in `sb`.** -/
theorem handleRequest_of_fetches (h : Fetches w req.file) :
    handleRequest cfg getTorrent w req =
      doFile cfg (getTorrent req.file w) req req.file none (statInto w req.file .zero) := by
  have hmissing : (w.stat req.file).isNone ∨ (statInto w req.file .zero).isDir := by
    rcases hs : w.stat req.file with _ | s
    · exact Or.inl rfl
    · rw [statInto, hs]
      exact Or.inr (h.missing s hs)
  rw [handleRequest, if_pos hmissing, h.noTorrent, h.checked, statInto, h.noTorrent]
  rfl

/-- The name of a file does not end in a slash. -/
theorem stripSlashes_of_regular (hs : w.stat file = some s) (hreg : s.isDir = false) :
    stripSlashes file = file := by
  rcases List.eq_nil_or_concat file with rfl | ⟨path, c, rfl⟩
  · rfl
  · rw [List.concat_eq_append] at hs ⊢
    obtain ⟨n, hn, rfl⟩ := Option.map_eq_some_iff.mp hs
    have hc : c ≠ slash := by
      rintro rfl
      rw [w.isDir_of_slash hn] at hreg
      cases hreg
    simp [stripSlashes, hc]

/-- **A file that is there is sent with what `stat` says about it.** -/
theorem handleRequest_of_regular (hs : w.stat req.file = some s) (hreg : s.isDir = false) :
    handleRequest cfg getTorrent w req = doFile cfg w req req.file none s := by
  have hthere : ¬ ((w.stat req.file).isNone ∨ (statInto w req.file .zero).isDir) := by
    simp [statInto, hs, hreg]
  rw [handleRequest, if_neg hthere, handleFile, hs]
  simp only [handleFound, hreg, stripSlashes_of_regular hs hreg]
  rfl

/-! ### What `sb` decides -/

theorem lastModified_injective : Function.Injective lastModified := by
  intro mod mod' h
  rw [lastModified, lastModified] at h
  split at h <;> split at h <;> simp_all

/-- **When two contents of `sb` make no difference** for what is sent of a file. -/
theorem serve_eq_iff : serve w req file sb = serve w req file s ↔
    sb.mtime = s.mtime ∧ (NotModified req s.mtime ∨ sb.size = s.size) := by
  constructor
  · intro h
    rw [serve, serve] at h
    by_cases hsb : NotModified req sb.mtime
    · rw [if_pos hsb] at h
      by_cases hs : NotModified req s.mtime
      · rw [if_pos hs] at h
        obtain ⟨-, -, hmod, -⟩ := Reply.file.inj h
        exact ⟨lastModified_injective hmod, Or.inl hs⟩
      · rw [if_neg hs] at h
        exact absurd (Reply.file.inj h).1 (by decide)
    · rw [if_neg hsb] at h
      by_cases hs : NotModified req s.mtime
      · rw [if_pos hs] at h
        exact absurd (Reply.file.inj h).1 (by decide)
      · rw [if_neg hs] at h
        obtain ⟨-, hlength, hmod, -⟩ := Reply.file.inj h
        rw [if_pos (Int.natCast_nonneg _), if_pos (Int.natCast_nonneg _)] at hlength
        exact ⟨lastModified_injective hmod, Or.inr (Int.ofNat.inj (Option.some.inj hlength))⟩
  · rintro ⟨hmtime, hmod | hsize⟩
    · rw [serve, serve, hmtime, if_pos hmod, if_pos hmod]
    · rw [serve, serve, hmtime, hsize]

/-- The same of `do_file`, if it comes that far. -/
theorem doFile_eq_iff {pathinfo : Option Bytes} :
    doFile cfg w req file pathinfo sb = doFile cfg w req file pathinfo s ↔
      (answered cfg w req file pathinfo).isSome ∨
        sb.mtime = s.mtime ∧ (NotModified req s.mtime ∨ sb.size = s.size) := by
  rw [doFile, doFile]
  rcases answered cfg w req file pathinfo with _ | reply
  · simpa using serve_eq_iff
  · simp

/-! ### Fresh files -/

/-- **The request is answered alike**: when the file is fetched for it, and when it is asked for
again. -/
def ServedAlike (cfg : Config) (getTorrent : Bytes → World → World) (w : World) (req : Request) :
    Prop :=
  handleRequest cfg getTorrent w req =
    handleRequest cfg getTorrent (getTorrent req.file w) req

/-- **When a fresh file is served like one that was there**: the request is answered before `sb`
is read; or the file has the time that was in `sb`, and its size or no need for it. -/
theorem servedAlike_iff (hfetches : Fetches w req.file)
    (hfetched : (getTorrent req.file w).stat req.file = some s) (hreg : s.isDir = false) :
    ServedAlike cfg getTorrent w req ↔
      (answered cfg (getTorrent req.file w) req req.file none).isSome ∨
        (statInto w req.file .zero).mtime = s.mtime ∧
          (NotModified req s.mtime ∨ (statInto w req.file .zero).size = s.size) := by
  rw [ServedAlike, handleRequest_of_fetches hfetches, handleRequest_of_regular hfetched hreg,
    doFile_eq_iff]

/-! ### Examples -/

/-- A web directory with these files. -/
def World.ofList (files : List (Bytes × TorrentFile)) : World where
  node path := if path.getLast? = some slash then none else (files.lookup path).map .file
  lines _ := []
  isDir_of_slash {path n} h := by simp at h

/-- A server without any settings. -/
def plainServer : Config := ⟨false, none, none, none, none, false, fun _ _ => []⟩

/-- A torrent `n`, with one file `f`. -/
def oneFile : Bytes × TorrentFile :=
  (ascii "n.torrent", ⟨300, true, fun _ => .torrent (.ofFiles [.plain (ascii "n/f") 5]), 7, 7⟩)

/-- A file of this size and of this time, at the place of `f`. -/
def downloaded (size : ℕ) (mtime : ℤ) : World :=
  .ofList [oneFile, (ascii "n/f", ⟨size, true, fun _ => .invalidBencoding, mtime, mtime⟩)]

/-- `GET /n/f`, perhaps with `If-Modified-Since`. -/
def getF (ifModifiedSince : ℤ) : Request :=
  ⟨.get, ascii "/n/f", ascii "n/f", none, ifModifiedSince, [], none⟩

theorem fetches_oneFile : Fetches (.ofList [oneFile]) (ascii "n/f") where
  missing s hs := by
    have hnone : (World.ofList [oneFile]).stat (ascii "n/f") = none := by rfl
    rw [hnone] at hs
    cases hs
  noTorrent := by rfl
  checked := by decide

/-- An empty file without a time is served as if it had been there. -/
theorem servedAlike_empty :
    ServedAlike plainServer (fun _ _ => downloaded 0 0) (.ofList [oneFile]) (getF (-1)) :=
  (servedAlike_iff (w := .ofList [oneFile]) (s := ⟨false, 0, 0⟩) fetches_oneFile rfl rfl).mpr
    (Or.inr ⟨rfl, Or.inr rfl⟩)

/-- **A fresh file is sent as an empty one**, of 1970; and not at all to a client that has had
it at any time since. -/
theorem fresh_file_empty :
    handleRequest plainServer (fun _ _ => downloaded 3 5) (.ofList [oneFile]) (getF (-1)) =
        .file 200 (some 0) (some 0) 0 ∧
      handleRequest plainServer (fun _ _ => downloaded 3 5) (downloaded 3 5) (getF (-1)) =
        .file 200 (some 3) (some 5) 3 ∧
      handleRequest plainServer (fun _ _ => downloaded 3 5) (.ofList [oneFile]) (getF 1) =
        .file 304 none (some 0) 0 ∧
      handleRequest plainServer (fun _ _ => downloaded 3 5) (downloaded 3 5) (getF 1) =
        .file 200 (some 3) (some 5) 3 ∧
      ¬ ServedAlike plainServer (fun _ _ => downloaded 3 5) (.ofList [oneFile]) (getF (-1)) := by
  refine ⟨by decide, by decide, by decide, by decide, ?_⟩
  rw [ServedAlike]
  decide

end InstantMirror.Im0
