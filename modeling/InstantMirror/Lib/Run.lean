import Mathlib.Data.List.Basic

/-!
# Machines that read inputs, emit events and may stop

The vocabulary of every run in this development. A machine reads one input at a
time; an input takes its state to the next one, or stops it for good, and in
either case emits a finite list of events. What a run *did* is its history, the
concatenation of the events of its steps, and nearly everything worth saying
about a run is of one shape: each event is justified by the events before it.

`InstantMirror.Along` is that shape, for an arbitrary relation between a past and
an event. It is used on both sides of a theorem: as the property to be shown, and
as the condition a run is assumed to meet at each of its steps – so a statement
“in every run whose steps all meet the condition, …” reads
`Along Cond h → Along Prop h`.

Two rules do the work:

* `InstantMirror.Machine.run_along`: an invariant relating the past to the state,
  preserved by every step whose events meet the condition, carries the property
  along every run;
* `InstantMirror.Machine.run_congr`: two states related by a bisimulation emit the
  same events on the same inputs.
-/

namespace InstantMirror

variable {ι σ ε : Type*}

/-! ### Properties of an event and its past -/

/-- **Every event of the history stands in the relation to its past.** -/
def Along (P : List ε → ε → Prop) (h : List ε) : Prop :=
  ∀ before e after, h = before ++ e :: after → P before e

theorem along_nil (P : List ε → ε → Prop) : Along P [] := by
  intro before e after h
  simp at h

/-- A history splits into a past and a future, which is judged with the past in
front of it. -/
theorem along_append {P : List ε → ε → Prop} {h h' : List ε} :
    Along P (h ++ h') ↔ Along P h ∧ Along (fun before => P (h ++ before)) h' := by
  constructor
  · intro hall
    refine ⟨fun before e after he => ?_, fun before e after he => ?_⟩
    · exact hall before e (after ++ h') (by simp [he])
    · exact hall (h ++ before) e after (by simp [he])
  · rintro ⟨hl, hr⟩ before e after he
    rcases List.append_eq_append_iff.mp he with ⟨c, rfl, hc⟩ | ⟨c, rfl, hc⟩
    · exact hr c e after hc
    · -- the event lies in the past unless the past ends right before it
      cases c with
      | nil => simpa using hr [] e after (by simpa using hc.symm)
      | cons d c =>
        obtain ⟨rfl, rfl⟩ := List.cons.inj hc
        exact hl before e c rfl

theorem along_singleton {P : List ε → ε → Prop} {e : ε} : Along P [e] ↔ P [] e := by
  refine ⟨fun h => h [] e [] rfl, fun h before e' after he => ?_⟩
  cases before with
  | nil =>
    obtain ⟨rfl, -⟩ := List.cons.inj he
    exact h
  | cons d before => simp at he

/-- Events that stand in the relation to every past. -/
theorem along_of_forall {P : List ε → ε → Prop} {h : List ε}
    (hall : ∀ e ∈ h, ∀ before, P before e) : Along P h := by
  rintro before e after rfl
  exact hall e (by simp) before

/-- A property that does not look at the past. -/
theorem along_const {P : ε → Prop} {h : List ε} : Along (fun _ => P) h ↔ ∀ e ∈ h, P e := by
  refine ⟨fun hall e he => ?_, fun hall => along_of_forall fun e he _ => hall e he⟩
  obtain ⟨before, after, rfl⟩ := List.append_of_mem he
  exact hall before e after rfl

/-- One more event. -/
theorem along_concat {P : List ε → ε → Prop} {h : List ε} {e : ε} :
    Along P (h ++ [e]) ↔ Along P h ∧ P h e := by
  rw [along_append, along_singleton, List.append_nil]

/-- The first event, and the rest judged with it in front. -/
theorem along_cons {P : List ε → ε → Prop} {e : ε} {h : List ε} :
    Along P (e :: h) ↔ P [] e ∧ Along (fun before => P (e :: before)) h := by
  have : e :: h = [e] ++ h := rfl
  rw [this, along_append, along_singleton]
  rfl

/-! ### Machines and their runs -/

/-- **A machine**: an input takes the state to the next one, or stops the machine
(`none`), and emits events. -/
structure Machine (ι σ ε : Type*) where
  /-- What one input does. -/
  step : ι → σ → Option σ × List ε

namespace Machine

variable (M : Machine ι σ ε)

/-- **The run on a list of inputs**: the state reached, unless the machine has
stopped, and the history. -/
def run : List ι → σ → Option σ × List ε
  | [], s => (some s, [])
  | i :: is, s =>
    match (M.step i s).1 with
    | none => (none, (M.step i s).2)
    | some s' => ((run is s').1, (M.step i s).2 ++ (run is s').2)

@[simp] theorem run_nil (s : σ) : M.run [] s = (some s, []) := rfl

theorem run_cons_stopped {i : ι} {s : σ} (h : (M.step i s).1 = none) (is : List ι) :
    M.run (i :: is) s = (none, (M.step i s).2) := by
  simp [run, h]

theorem run_cons_next {i : ι} {s s' : σ} (h : (M.step i s).1 = some s') (is : List ι) :
    M.run (i :: is) s = ((M.run is s').1, (M.step i s).2 ++ (M.run is s').2) := by
  simp [run, h]

variable {M}

/-- **The rule for runs.** An invariant `Inv` relates the past to the state. If
every step from an invariant state whose events meet the condition has the
property along its events and restores the invariant, then so does every run
whose events meet the condition. -/
theorem run_along {Cond Prp : List ε → ε → Prop} {Inv : List ε → σ → Prop}
    (hstep : ∀ (i : ι) (h : List ε) (s : σ), Inv h s →
      Along (fun before => Cond (h ++ before)) (M.step i s).2 →
      Along (fun before => Prp (h ++ before)) (M.step i s).2 ∧
        ∀ s', (M.step i s).1 = some s' → Inv (h ++ (M.step i s).2) s')
    (is : List ι) : ∀ (h : List ε) (s : σ), Inv h s →
      Along (fun before => Cond (h ++ before)) (M.run is s).2 →
      Along (fun before => Prp (h ++ before)) (M.run is s).2 ∧
        ∀ s', (M.run is s).1 = some s' → Inv (h ++ (M.run is s).2) s' := by
  induction is with
  | nil =>
    intro h s hinv _
    refine ⟨along_nil _, fun s' hs' => ?_⟩
    obtain rfl : s = s' := by simpa using hs'
    simpa using hinv
  | cons i is ih =>
    intro h s hinv hcond
    rcases hnext : (M.step i s).1 with _ | s₁
    · rw [run_cons_stopped M hnext] at hcond ⊢
      exact ⟨(hstep i h s hinv hcond).1, by simp⟩
    · rw [run_cons_next M hnext] at hcond ⊢
      obtain ⟨hcond₁, hcond₂⟩ := along_append.mp hcond
      obtain ⟨hprp₁, hinv₁⟩ := hstep i h s hinv hcond₁
      obtain ⟨hprp₂, hinv₂⟩ := ih (h ++ (M.step i s).2) s₁ (hinv₁ s₁ hnext)
        (by simpa only [List.append_assoc] using hcond₂)
      refine ⟨along_append.mpr ⟨hprp₁, ?_⟩, fun s' hs' => ?_⟩
      · simpa only [List.append_assoc] using hprp₂
      · simpa only [List.append_assoc] using hinv₂ s' hs'

/-- **The rule for invariants**: the past and the state of a run. -/
theorem run_invariant (Inv : List ε → σ → Prop)
    (hstep : ∀ (i : ι) (h : List ε) (s s' : σ), Inv h s → (M.step i s).1 = some s' →
      Inv (h ++ (M.step i s).2) s')
    (is : List ι) {h : List ε} {s s' : σ} (hinv : Inv h s) (hrun : (M.run is s).1 = some s') :
    Inv (h ++ (M.run is s).2) s' := by
  have htrue : ∀ h : List ε, Along (fun _ _ => True) h :=
    fun h => along_of_forall fun _ _ _ => trivial
  have hrule := @run_along ι σ ε M (fun _ _ => True) (fun _ _ => True) Inv
    (fun i h s hs _ => ⟨htrue _, fun s' hs' => hstep i h s s' hs hs'⟩) is h s hinv (htrue _)
  exact hrule.2 s' hrun

/-- **Bisimilar states emit the same events.** -/
theorem run_congr {R : σ → σ → Prop}
    (hstep : ∀ (i : ι) (s t : σ), R s t → (M.step i s).2 = (M.step i t).2 ∧
      Option.Rel R (M.step i s).1 (M.step i t).1)
    (is : List ι) : ∀ s t : σ, R s t → (M.run is s).2 = (M.run is t).2 ∧
      Option.Rel R (M.run is s).1 (M.run is t).1 := by
  induction is with
  | nil =>
    intro s t hst
    exact ⟨rfl, Option.Rel.some hst⟩
  | cons i is ih =>
    intro s t hst
    obtain ⟨hev, hrel⟩ := hstep i s t hst
    rcases hs : (M.step i s).1 with _ | s₁ <;> rcases ht : (M.step i t).1 with _ | t₁ <;>
      rw [hs, ht] at hrel
    · rw [run_cons_stopped M hs, run_cons_stopped M ht]
      exact ⟨hev, hrel⟩
    · cases hrel
    · cases hrel
    · obtain ⟨hev', hrel'⟩ := ih s₁ t₁ (by cases hrel; assumption)
      rw [run_cons_next M hs, run_cons_next M ht]
      exact ⟨by rw [hev, hev'], hrel'⟩

end Machine

end InstantMirror
