import InstantMirror.Lib.Bytes

/-!
# Resolving a symbolic link of a torrent

The loop of `getTorrent` that removes `../` from the path of a link followed by
its target, one occurrence at a time, together with the directory in front of it.
It works on the string and on positions held in an `int`; nothing bounds the
number of its rounds, so the loop is run on fuel.

Whatever the loop does, it keeps the first component of the path – the name of the
torrent: what it keeps always ends at a slash
(`InstantMirror.resolveLink_keeps`).
-/

namespace InstantMirror

/-- One round of the loop: the next value of `sym_path`, or `none` where the loop
is left – nothing to remove is found, or the link is given up as wrong. -/
def linkStep (symPath : Bytes) : Option Bytes :=
  let indexSym := findStr (ascii "../") symPath
  if indexSym = -1 then none
  else
    let indx := rfind symPath slash (rfind symPath slash (indexSym - 2) - 1)
    if indx = -1 then none
    else some (substrTo symPath (indx + 1) ++ substrFrom symPath (indexSym + 3))

/-- **The loop**; `none` where the fuel does not suffice. -/
def resolveLink : ℕ → Bytes → Option Bytes
  | 0, _ => none
  | fuel + 1, symPath =>
    match linkStep symPath with
    | none => some symPath
    | some next => resolveLink fuel next

/-- **A round keeps the first component**: it cuts right after a slash. -/
theorem linkStep_keeps {name rest next : Bytes}
    (h : linkStep (name ++ slash :: rest) = some next) (hname : slash ∉ name) :
    ∃ rest', next = name ++ slash :: rest' := by
  rw [linkStep] at h
  simp only at h
  split at h
  · cases h
  split at h
  · cases h
  rename_i hindx
  obtain ⟨hpos, hat⟩ := rfind_spec hindx
  generalize rfind (name ++ slash :: rest) slash _ = indx at hpos hat h
  -- the slash that was found is not inside the name
  have hge : name.length ≤ indx.toNat := by
    by_contra hlt
    rw [List.getElem?_append_left (by omega)] at hat
    exact hname (List.mem_of_getElem? hat)
  obtain ⟨m, hm⟩ : ∃ m, (indx + 1).toNat = name.length + (m + 1) :=
    ⟨indx.toNat - name.length, by omega⟩
  generalize substrFrom (name ++ slash :: rest) _ = tail at h
  refine ⟨rest.take m ++ tail, ?_⟩
  rw [← Option.some.inj h, substrTo, if_neg (by omega), hm, List.take_append,
    List.take_of_length_le (by omega)]
  simp

/-- **The loop keeps the first component.** -/
theorem resolveLink_keeps {name : Bytes} (hname : slash ∉ name) :
    ∀ {fuel : ℕ} {rest next : Bytes},
      resolveLink fuel (name ++ slash :: rest) = some next → ∃ rest', next = name ++ slash :: rest'
  | 0, _, _, h => by cases h
  | fuel + 1, rest, next, h => by
    rw [resolveLink] at h
    split at h
    · exact ⟨rest, (Option.some.inj h).symm⟩
    · rename_i hstep
      obtain ⟨rest', rfl⟩ := linkStep_keeps hstep hname
      exact resolveLink_keeps hname h

/-- The loop adds no bytes. -/
theorem linkStep_subset {s next : Bytes} (h : linkStep s = some next) : next ⊆ s := by
  rw [linkStep] at h
  simp only at h
  split at h
  · cases h
  split at h
  · cases h
  rw [← Option.some.inj h]
  refine List.append_subset.mpr ⟨?_, List.drop_subset _ _⟩
  rw [substrTo]
  split
  · exact List.Subset.refl s
  · exact List.take_subset _ _

theorem resolveLink_subset : ∀ {fuel : ℕ} {s target : Bytes}, resolveLink fuel s = some target →
    target ⊆ s
  | 0, _, _, h => by cases h
  | fuel + 1, s, target, h => by
    rw [resolveLink] at h
    split at h
    · rw [Option.some.inj h]
      exact List.Subset.refl _
    · rename_i hstep
      exact List.Subset.trans (resolveLink_subset h) (linkStep_subset hstep)

/-- **More fuel changes nothing.** -/
theorem resolveLink_mono : ∀ {fuel fuel' : ℕ} {s target : Bytes}, fuel ≤ fuel' →
    resolveLink fuel s = some target → resolveLink fuel' s = some target
  | 0, _, _, _, _, h => by cases h
  | fuel + 1, 0, _, _, hle, _ => by omega
  | fuel + 1, fuel' + 1, s, target, hle, h => by
    rw [resolveLink] at h ⊢
    split at h
    · exact h
    · exact resolveLink_mono (by omega) h

theorem resolveLink_unique {fuel fuel' : ℕ} {s target target' : Bytes}
    (h : resolveLink fuel s = some target) (h' : resolveLink fuel' s = some target') :
    target = target' :=
  Option.some.inj ((resolveLink_mono (Nat.le_max_left fuel fuel') h).symm.trans
    (resolveLink_mono (Nat.le_max_right fuel fuel') h'))

end InstantMirror
