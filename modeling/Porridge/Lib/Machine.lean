import Porridge.Lib.Fold

/-! Labelled step machines: runs, reachable states, and the invariant rules. -/

/-- A machine with partial deterministic steps; a label resolves what the scheduler chooses. -/
structure Machine (σ ι : Type) where
  init : σ → Prop
  step : σ → ι → Option σ

namespace Machine

variable {σ ι : Type} (M : Machine σ ι)

/-- Take the listed steps in order. -/
def run (s : σ) (labels : List ι) : Option σ := labels.foldlM M.step s

/-- The states reached from an initial state by steps that `allow` permits. -/
inductive ReachableUnder (allow : σ → ι → Prop) : σ → Prop where
  | init {s : σ} (h : M.init s) : ReachableUnder allow s
  | step {s s' : σ} {i : ι} (h : ReachableUnder allow s) (ha : allow s i)
      (hs : M.step s i = some s') : ReachableUnder allow s'

/-- The states reached from an initial state. -/
abbrev Reachable : σ → Prop := M.ReachableUnder fun _ _ => True

variable {M}

/-- An invariant of the initial states that every allowed step keeps holds when reached. -/
theorem ReachableUnder.invariant {allow : σ → ι → Prop} {s : σ} (h : M.ReachableUnder allow s)
    (inv : σ → Prop) (init : ∀ s, M.init s → inv s)
    (step : ∀ s i s', inv s → allow s i → M.step s i = some s' → inv s') : inv s := by
  induction h with
  | init h => exact init _ h
  | step _ ha hs ih => exact step _ _ _ ih ha hs

theorem ReachableUnder.reachable {allow : σ → ι → Prop} {s : σ}
    (h : M.ReachableUnder allow s) : M.Reachable s := by
  induction h with
  | init h => exact .init h
  | step _ _ hs ih => exact .step ih trivial hs

/-- A finite run from a reachable state ends in a reachable state. -/
theorem Reachable.run {s s' : σ} (h : M.Reachable s) {labels : List ι}
    (hr : M.run s labels = some s') : M.Reachable s' :=
  List.foldlM_some_induction M.Reachable labels hr h fun _ _ _ _ hs hstep => .step hs trivial hstep

/-- Every step of the run is allowed where it is taken. -/
def Allows (M : Machine σ ι) (allow : σ → ι → Prop) : σ → List ι → Prop
  | _, [] => True
  | s, i :: labels => allow s i ∧ ∀ s' ∈ M.step s i, M.Allows allow s' labels

instance Allows.decidable (M : Machine σ ι) (allow : σ → ι → Prop)
    [∀ s i, Decidable (allow s i)] : ∀ s labels, Decidable (M.Allows allow s labels)
  | _, [] => inferInstanceAs (Decidable True)
  | s, i :: labels =>
    have : ∀ s', Decidable (M.Allows allow s' labels) := fun s' => decidable M allow s' labels
    inferInstanceAs (Decidable (allow s i ∧ ∀ s' ∈ M.step s i, M.Allows allow s' labels))

theorem run_append (M : Machine σ ι) (s : σ) (labels more : List ι) :
    M.run s (labels ++ more) = (M.run s labels).bind fun s' => M.run s' more := List.foldlM_append

/-- A run that is allowed throughout is allowed up to any point, and from there on. -/
theorem Allows.split {allow : σ → ι → Prop} : ∀ {labels more : List ι} {s : σ},
    M.Allows allow s (labels ++ more) →
      M.Allows allow s labels ∧ ∀ s', M.run s labels = some s' → M.Allows allow s' more
  | [], _, _, h => ⟨trivial, fun _ hr => Option.some.inj hr ▸ h⟩
  | _ :: labels, more, _, h => by
    refine ⟨⟨h.1, fun m hm => (Allows.split (h.2 m hm)).1⟩, fun s' hr => ?_⟩
    obtain ⟨m, hm, hrest⟩ := Option.bind_eq_some_iff.mp hr
    exact (Allows.split (h.2 m hm)).2 s' hrest

/-- A run that one condition allows is allowed by any condition it implies. -/
theorem Allows.imp {allow allow' : σ → ι → Prop} (h : ∀ s i, allow s i → allow' s i) :
    ∀ {labels : List ι} {s : σ}, M.Allows allow s labels → M.Allows allow' s labels
  | [], _, _ => trivial
  | _ :: _, _, ha => ⟨h _ _ ha.1, fun s' hs' => Allows.imp h (ha.2 s' hs')⟩

theorem ReachableUnder.run {allow : σ → ι → Prop} :
    ∀ {labels : List ι} {s s' : σ}, M.ReachableUnder allow s → M.Allows allow s labels →
      M.run s labels = some s' → M.ReachableUnder allow s'
  | [], s, s', h, _, hr => by
    have heq : s = s' := Option.some.inj hr
    exact heq ▸ h
  | i :: labels, s, s', h, ha, hr => by
    obtain ⟨m, hm, hrest⟩ := Option.bind_eq_some_iff.mp hr
    exact ReachableUnder.run (h.step ha.1 hm) (ha.2 m hm) hrest

section Recording

variable {τ : Type}

def recording (M : Machine σ ι) (yielded : σ → ι → List τ) : Machine (σ × List τ) ι where
  init s := M.init s.1 ∧ s.2 = []
  step s i := (M.step s.1 i).map fun s' => (s', s.2 ++ yielded s.1 i)

/-- A property of states that covers what a step yields, and that steps keep of covered records,
holds of everything recorded. -/
theorem ReachableUnder.recorded {yielded : σ → ι → List τ} {allow : σ × List τ → ι → Prop}
    {s : σ × List τ} (h : (M.recording yielded).ReachableUnder allow s) (inv : σ → Prop)
    (covers : σ → τ → Prop) (init : ∀ s, M.init s → inv s)
    (step : ∀ s i s', inv s → M.step s i = some s' →
      inv s' ∧ (∀ t, covers s t → covers s' t) ∧ ∀ t ∈ yielded s i, covers s' t) :
    inv s.1 ∧ ∀ t ∈ s.2, covers s.1 t := by
  refine h.invariant (fun s => inv s.1 ∧ ∀ t ∈ s.2, covers s.1 t) ?_ ?_
  · rintro s ⟨hinit, hnone⟩
    refine ⟨init s.1 hinit, fun t ht => ?_⟩
    rw [hnone] at ht
    cases ht
  · rintro s i s' ⟨hinv, hcovered⟩ - hs
    obtain ⟨next, hnext, rfl⟩ := Option.map_eq_some_iff.mp hs
    obtain ⟨hinv', hkept, hnew⟩ := step s.1 i next hinv hnext
    refine ⟨hinv', fun t ht => ?_⟩
    rcases List.mem_append.mp ht with ht | ht
    · exact hkept t (hcovered t ht)
    · exact hnew t ht

end Recording

end Machine
