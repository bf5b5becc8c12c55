import Porridge.Query.Scanning
import Porridge.State

/-! Rows changed since a settled revision: what the revisions of their reads tell and what not. -/
namespace Porridge

variable {α : Type}

/-- Raw revision for comparing with a cursor; an observed absence precedes every revision. -/
def Dep.revisionRaw (d : Dep) : Revision := d.revision.getD 0

/-- The rows that read a tracked component past the cursor. -/
def changedSince (C : Components α) (cmp : Comparisons α) (w : World α) (args : ScopedArgs α)
    (q : QueryParam) (f : ExternalFilter) (cursor : Revision) : Option (List Entity) :=
  (externalRows C cmp w args none q f).map fun rows =>
    rows.filter fun e => (q.deps C w e).any fun d => decide (cursor < d.revisionRaw)

namespace QueryParam

/-- The shapes of external reads, a bare handle included. -/
def Readable (q : QueryParam) : Prop := q.External ∨ ∃ facet, q = .entity facet

/-- The components that a row of the shape reads. -/
def reads (q : QueryParam) : List TypeId := q.accessAll.map Access.component

variable {C : Components α} {w : World α} {q : QueryParam} {e : Entity}

/-- A row of an external read observes the tracked components it reads. -/
theorem Readable.mem_deps (hq : q.Readable) (d : Dep) :
    d ∈ q.deps C w e ↔
      ∃ t ∈ q.reads, C.tracked t = true ∧ d = ⟨t, e, w.revisionByType t e, false⟩ := by
  have hdep : ∀ t, d ∈ componentDep C w t e ↔
      C.tracked t = true ∧ d = ⟨t, e, w.revisionByType t e, false⟩ := by
    intro t
    unfold componentDep
    split_ifs with htracked
    · simp [htracked]
    · simp [htracked]
  rcases hq with hq | ⟨facet, rfl⟩
  · cases q with
    | read t =>
      change d ∈ componentDep C w t e ↔ ∃ t' ∈ [t], _
      simp [hdep]
    | entityParts facet parts =>
      have hparts : ∀ part ∈ parts, (d ∈ part.deps C w e ↔
          C.tracked part.accessAll.component = true ∧ d = ⟨part.accessAll.component, e,
            w.revisionByType part.accessAll.component e, false⟩) := by
        intro part hpart
        rcases hq.2 part hpart with ⟨t, rfl⟩ | ⟨t, rfl⟩
        · exact hdep t
        · exact hdep t
      simp only [deps, reads, accessAll, List.mem_flatMap, List.mem_map]
      constructor
      · intro h
        obtain ⟨part, hpart, hd⟩ := h
        exact ⟨_, ⟨_, ⟨part, hpart, rfl⟩, rfl⟩, (hparts part hpart).mp hd⟩
      · intro h
        obtain ⟨_, ⟨_, ⟨part, hpart, rfl⟩, rfl⟩, hd⟩ := h
        exact ⟨part, hpart, (hparts part hpart).mpr hd⟩
    | entity facet => exact absurd hq id
    | mutRef t => exact absurd hq id
  · simp [deps, reads, accessAll]

end QueryParam

section Delta

variable {C : Components α} {cmp : Comparisons α} {w : World α} {args : ScopedArgs α}
  {q : QueryParam} {f : ExternalFilter} {cursor : Revision}

/-- The delta keeps the rows with a tracked read that is stored past the cursor. -/
theorem mem_changedSince (hq : q.Readable) {rows : List Entity}
    (hrows : externalRows C cmp w args none q f = some rows) :
    ∃ delta, changedSince C cmp w args q f cursor = some delta ∧
      ∀ e, e ∈ delta ↔ e ∈ rows ∧ ∃ t ∈ q.reads, C.tracked t = true ∧
        ∃ x, w.cell? t e = some x ∧ cursor < x.revision := by
  have hpast : ∀ t e, cursor < (w.revisionByType t e).getD 0 ↔
      ∃ x, w.cell? t e = some x ∧ cursor < x.revision := by
    intro t e
    unfold World.revisionByType
    cases w.cell? t e with
    | none => simp
    | some x => simp
  refine ⟨_, by rw [changedSince, hrows, Option.map_some], fun e => ?_⟩
  rw [List.mem_filter, List.any_eq_true]
  refine and_congr_right fun _ => ⟨fun h => ?_, fun h => ?_⟩
  · obtain ⟨d, hd, hlt⟩ := h
    obtain ⟨t, ht, htracked, rfl⟩ := (hq.mem_deps d).mp hd
    exact ⟨t, ht, htracked, (hpast t e).mp (of_decide_eq_true hlt)⟩
  · obtain ⟨t, ht, htracked, hx⟩ := h
    exact ⟨_, (hq.mem_deps _).mpr ⟨t, ht, htracked, rfl⟩, decide_eq_true ((hpast t e).mpr hx)⟩

/-- The rows changed since a published revision are those with a tracked read stored past it; a
row with a new version is among them. -/
theorem changedSince_published {settled : State α} {s' : Writing α} {ops : List (WorldOp α)}
    (hs : (Writing.machine C).Reachable ⟨settled.world, []⟩)
    (hrun : (Writing.machine C).run ⟨settled.world, []⟩ ops = some s') (hq : q.Readable)
    {rows : List Entity} (hrows : externalRows C cmp s'.world args none q f = some rows) :
    let published := settled.publishSettledRevision.settledRevision
    ∃ delta, changedSince C cmp s'.world args q f published = some delta ∧
      (∀ e, e ∈ delta ↔ e ∈ rows ∧ ∃ t ∈ q.reads, C.tracked t = true ∧
        ∃ x, s'.world.cell? t e = some x ∧ published < x.revision) ∧
      ∀ e ∈ rows, ∀ t ∈ q.reads, C.tracked t = true → (t, e) ∉ s'.pending →
        ∀ x, s'.world.cell? t e = some x →
          (¬ ∃ y, settled.world.cell? t e = some y ∧ World.SameVersion C t y x) → e ∈ delta := by
  intro published
  have hpublished : published = settled.world.revision := by
    show settled.publishSettledRevision.settledRevision = _
    unfold State.publishSettledRevision
    split_ifs with hsame
    · exact hsame
    · rfl
  have hdelta : ∃ delta, changedSince C cmp s'.world args q f published = some delta ∧ _ :=
    mem_changedSince hq hrows
  obtain ⟨delta, hdelta, hmem⟩ := hdelta
  refine ⟨delta, hdelta, hmem, ?_⟩
  intro e he t ht htracked hpending x hx hchanged
  have hbefore := Writing.identified_of_reachable hs
  have hafter := Writing.identified_of_run hbefore hrun
  refine (hmem e).mpr ⟨he, t, ht, htracked, x, hx, ?_⟩
  by_contra hle
  rw [hpublished, not_lt] at hle
  obtain ⟨y, hy, -, hretains⟩ := hafter.old t e x hx hle
  obtain ⟨hfingerprint, hentry⟩ := hretains htracked
  have hx' := hafter.stamped t e x hx hpending
  have hy' := hbefore.stamped t e y hy List.not_mem_nil
  refine hchanged ⟨y, hy, ?_, fun hnone => ?_⟩
  · rw [← hy', ← hx', hfingerprint]
  · refine (hentry ?_ hpending).symm
    rw [hfingerprint, hy', hnone]

end Delta

section Examples

open World

/-- Whatever a component holds, it stamps one fingerprint. -/
def colliding : Components Nat where
  tracked _ := true
  role _ := .plain
  fingerprint _ _ := some 0
  target _ _ := 0
  inverse_role := Role.plain_edgeless

/-- Entity 1 carries component 5, and entity 2 components 5 and 6. -/
def readOps : List (WorldOp Nat) :=
  [.base (.insert 5 1 (.data 1)), .base (.insert 5 2 (.data 2)), .base (.insert 6 2 (.data 3))]

/-- What a run of the operations leaves, with nothing pending. -/
def afterOps (C : Components Nat) (ops : List (WorldOp Nat)) : Writing Nat :=
  ⟨((machine C).run .new ops).getD .new, []⟩

theorem reachable_readOps :
    (Writing.machine fingerprinted).Reachable (afterOps fingerprinted readOps) := by
  have hrun : (Writing.machine fingerprinted).run ⟨.new, []⟩ readOps =
      some (afterOps fingerprinted readOps) := rfl
  exact Machine.Reachable.run (.init ⟨machine_init_new, rfl⟩) hrun

theorem readable_readTuple : QueryParam.Readable (.entityParts [] [.read 5, .optional 6]) := by
  refine Or.inl ⟨by simp, fun part hpart => ?_⟩
  rcases List.mem_cons.mp hpart with rfl | hpart
  · exact Or.inl ⟨5, rfl⟩
  · exact Or.inr ⟨6, List.mem_singleton.mp hpart⟩

/-- A rewritten read is in the delta of the filtered tuple. -/
theorem rewritten_changedSince :
    let settled : State Nat :=
      { State.new Nat with world := (afterOps fingerprinted readOps).world }
    let s' := afterOps fingerprinted (readOps ++ [.base (.insert 5 2 (.data 9))])
    ∃ delta, changedSince fingerprinted samePayload s'.world ⟨∅, ∅⟩
        (.entityParts [] [.read 5, .optional 6]) (.withComponent 6)
        settled.publishSettledRevision.settledRevision = some delta ∧ 2 ∈ delta := by
  intro settled s'
  have hrun : (Writing.machine fingerprinted).run ⟨settled.world, []⟩
      [.base (.insert 5 2 (.data 9))] = some s' := rfl
  have hrows : externalRows fingerprinted samePayload s'.world ⟨∅, ∅⟩ none
      (.entityParts [] [.read 5, .optional 6]) (.withComponent 6) = some [2] := by decide
  obtain ⟨delta, hdelta, -, hchanged⟩ :=
    changedSince_published reachable_readOps hrun readable_readTuple hrows
  have hafter : (s'.world.cell? 5 2).map Entry.value = some (.data 9) := by decide
  have hbefore : (settled.world.cell? 5 2).map Entry.value = some (.data 2) := by decide
  obtain ⟨x, hx, hvalue⟩ := Option.map_eq_some_iff.mp hafter
  refine ⟨delta, hdelta, hchanged 2 (by simp) 5 (by decide) rfl List.not_mem_nil x hx ?_⟩
  intro hsame
  obtain ⟨y, hy, hversion⟩ := hsame
  rw [hy, Option.map_some, Option.some.injEq] at hbefore
  have hfingerprint := hversion.fingerprint
  rw [hvalue, hbefore] at hfingerprint
  cases hfingerprint

/-- A row that enters through its filter, one whose optional part went, and one rewritten with an
equal fingerprint are not in the delta. -/
theorem changedSince_misses :
    (¬ ∀ (s s' : Writing Nat) (ops : List (WorldOp Nat)) (q : QueryParam) (f : ExternalFilter)
        (before rows delta : List Entity), (Writing.machine fingerprinted).Reachable s →
      s.pending = [] → (Writing.machine fingerprinted).run s ops = some s' → q.Readable →
      externalRows fingerprinted samePayload s.world ⟨∅, ∅⟩ none q f = some before →
      externalRows fingerprinted samePayload s'.world ⟨∅, ∅⟩ none q f = some rows →
      changedSince fingerprinted samePayload s'.world ⟨∅, ∅⟩ q f s.world.revision = some delta →
        ∀ e ∈ rows, e ∉ before → e ∈ delta) ∧
      (¬ ∀ (s s' : Writing Nat) (ops : List (WorldOp Nat)) (q : QueryParam) (f : ExternalFilter)
        (rows delta : List Entity), (Writing.machine fingerprinted).Reachable s →
      s.pending = [] → (Writing.machine fingerprinted).run s ops = some s' → q.Readable →
      externalRows fingerprinted samePayload s'.world ⟨∅, ∅⟩ none q f = some rows →
      changedSince fingerprinted samePayload s'.world ⟨∅, ∅⟩ q f s.world.revision = some delta →
        ∀ e ∈ rows, ∀ t ∈ q.reads, s.world.has t e = true → s'.world.has t e = false →
          e ∈ delta) ∧
      ¬ ∀ (s s' : Writing Nat) (ops : List (WorldOp Nat)) (q : QueryParam) (f : ExternalFilter)
        (rows delta : List Entity), (Writing.machine colliding).Reachable s →
      s.pending = [] → (Writing.machine colliding).run s ops = some s' → q.Readable →
      externalRows colliding samePayload s'.world ⟨∅, ∅⟩ none q f = some rows →
      changedSince colliding samePayload s'.world ⟨∅, ∅⟩ q f s.world.revision = some delta →
        ∀ e ∈ rows, ∀ t ∈ q.reads, (s.world.cell? t e).map Entry.value ≠
          (s'.world.cell? t e).map Entry.value → e ∈ delta := by
  refine ⟨?_, ?_, ?_⟩
  · intro h
    have hentered := h (afterOps fingerprinted readOps)
      (afterOps fingerprinted (readOps ++ [.base (.insert 7 1 (.data 0))]))
      [.base (.insert 7 1 (.data 0))] (.read 5) (.withComponent 7) [] [1] [] reachable_readOps rfl
      rfl (Or.inl trivial) (by decide) (by decide) (by decide) 1 (by decide) (by decide)
    cases hentered
  · intro h
    have hvanished := h (afterOps fingerprinted readOps)
      (afterOps fingerprinted (readOps ++ [.base (.removeComponent 6 2)]))
      [.base (.removeComponent 6 2)] (.entityParts [] [.read 5, .optional 6]) .unit [1, 2] []
      reachable_readOps rfl rfl readable_readTuple (by decide) (by decide) 2 (by decide) 6
      (by decide) (by decide) (by decide)
    cases hvanished
  · intro h
    have hrun : (Writing.machine colliding).run ⟨.new, []⟩ [.base (.insert 5 1 (.data 1))] =
        some (afterOps colliding [.base (.insert 5 1 (.data 1))]) := rfl
    have hreachable : (Writing.machine colliding).Reachable
        (afterOps colliding [.base (.insert 5 1 (.data 1))]) :=
      Machine.Reachable.run (.init ⟨machine_init_new, rfl⟩) hrun
    have hcollided := h (afterOps colliding [.base (.insert 5 1 (.data 1))])
      (afterOps colliding [.base (.insert 5 1 (.data 1)), .base (.insert 5 1 (.data 2))])
      [.base (.insert 5 1 (.data 2))] (.read 5) .unit [1] [] hreachable rfl rfl (Or.inl trivial)
      (by decide) (by decide) 1 (by decide) 5 (by decide) (by decide)
    cases hcollided

end Examples
end Porridge
