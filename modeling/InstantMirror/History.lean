import InstantMirror.GetTorrent

/-!
# What a history says

The events of a run record two things that the status object does not: which
`.torrent` file the array of flags was last made for, and which files have been
downloaded. Both are read off the history here, as functions of the list of
events, so that a property of a run can be evaluated.
-/

namespace InstantMirror

/-- The `.torrent` file the array of flags was made for, if this event says so. -/
def Event.snapshot : Event → Option Snapshot
  | .sized snap => some snap
  | _ => none

/-- What was downloaded, if this event says so: a path and a modification time. -/
def Event.fetched : Event → Option (Bytes × ℤ)
  | .downloaded e => some e.key
  | _ => none

/-- **The `.torrent` file the array of flags was last made for.** -/
def current (h : List Event) : Option Snapshot := (h.filterMap Event.snapshot).getLast?

/-- **What has been downloaded so far.** -/
def fetchedKeys (h : List Event) : List (Bytes × ℤ) := h.filterMap Event.fetched

theorem current_append (h h' : List Event) : current (h ++ h') = (current h').or (current h) := by
  simp [current, List.filterMap_append, List.getLast?_append]

theorem current_concat_sized (h : List Event) (snap : Snapshot) :
    current (h ++ [.sized snap]) = some snap := by
  rw [current_append]
  rfl

/-- Events other than `InstantMirror.Event.sized` leave the array as it is. -/
theorem current_append_of_forall {h h' : List Event} (hev : ∀ e ∈ h', e.snapshot = none) :
    current (h ++ h') = current h := by
  have : h'.filterMap Event.snapshot = [] := by simpa [List.filterMap_eq_nil_iff] using hev
  rw [current_append]
  simp [current, this]

theorem mem_fetchedKeys_append {h : List Event} {key : Bytes × ℤ} (hmem : key ∈ fetchedKeys h)
    (h' : List Event) : key ∈ fetchedKeys (h ++ h') := by
  rw [fetchedKeys, List.filterMap_append]
  exact List.mem_append_left _ hmem

end InstantMirror
