import Porridge.World.Identity

/-! The runs of the engine, one store effect at a time. -/
namespace Porridge

/-- One effect on the live world; `books` is whatever a use changes beside the stores. -/
inductive Effect (α : Type) where
  | write (component : TypeId) (entity : Entity) (value : Value α)
      (owner : Option SystemInvocation)
  | drop (component : TypeId) (entity : Entity) (remover : Option SystemInvocation)
  | sweep (component : TypeId) (entity : Entity) (owner : SystemInvocation)
  | purge (entity : Entity)
  | restamp (component : TypeId) (entity : Entity) (value : Value α)
  | reconcile (component : TypeId) (entity : Entity)
  | writeInPlace (component : TypeId) (entity : Entity) (value : Value α)
  | books (world : World α)

namespace Effect

variable {α : Type}

def take (C : Components α) (w : World α) : Effect α → World α
  | write t e v owner => w.writeEntry C t e v owner
  | drop t e remover => w.dropEntry C t e remover
  | sweep t e o => w.sweepEntry t e o
  | purge e => w.purgeEntity e
  | restamp t e v => w.restampEntry C t e v
  | reconcile t e => w.reconcileEntry C t e
  | writeInPlace t e v => w.writeInPlace t e v
  | books u => { u with stores := w.stores, revision := w.revision }

/-- A write in place waits for its reconciliation. -/
def waiting (pending : List (TypeId × Entity)) : Effect α → List (TypeId × Entity)
  | writeInPlace t e _ => (t, e) :: pending
  | reconcile t e => pending.filter (· ≠ (t, e))
  | _ => pending

end Effect

namespace World

variable {α : Type}

/-- Effects that leave the rows waiting for reconciliation alone lead from one world to the other. -/
def Traced (C : Components α) (w w' : World α) : Prop :=
  ∃ effects : List (Effect α), (∀ i ∈ effects, ∀ pending, i.waiting pending = pending) ∧
    effects.foldl (Effect.take C) w = w'

variable {C : Components α} {w w' u : World α}

theorem Traced.refl (w : World α) : Traced C w w := ⟨[], nofun, rfl⟩

theorem Traced.trans (h : Traced C w u) (h' : Traced C u w') : Traced C w w' := by
  obtain ⟨effects, hquiet, rfl⟩ := h
  obtain ⟨effects', hquiet', rfl⟩ := h'
  refine ⟨effects ++ effects', fun i hi => ?_, List.foldl_append⟩
  rcases List.mem_append.mp hi with hi | hi
  · exact hquiet i hi
  · exact hquiet' i hi

theorem Traced.take (i : Effect α) (hi : ∀ pending, i.waiting pending = pending) :
    Traced C w (i.take C w) :=
  ⟨[i], fun _ hmem => List.mem_singleton.mp hmem ▸ hi, rfl⟩

/-- What changes beside the stores is one effect. -/
theorem Traced.of_eq (hs : w'.stores = w.stores) (hr : w'.revision = w.revision) :
    Traced C w w' := by
  have heq : (Effect.books w').take C w = w' := by rw [Effect.take, ← hs, ← hr]
  have hstep := Traced.take (C := C) (w := w) (.books w') fun _ => rfl
  rwa [heq] at hstep

theorem closed_traced (C : Components α) : Closed C (Traced C) Permits.all where
  refl := .refl
  trans hab hbc := hab.trans hbc
  bookkeeping hb _ := .of_eq hb.stores hb.revision
  write _ t e v o _ := .take (.write t e v o) fun _ => rfl
  drop _ t e remover _ := .take (.drop t e remover) fun _ => rfl
  sweep _ t e o _ := .take (.sweep t e o) fun _ => rfl
  purge _ e _ := .take (.purge e) fun _ => rfl
  inverse _ _ _ _ := trivial

theorem traced_apply {op : WorldOp α} (hop : op.amending = false) (h : w.apply C op = some w') :
    Traced C w w' := by
  refine apply_of_effects C ((closed_traced C).after w)
    (fun _ _ hsame hu => hu.trans (.of_eq hsame.stores hsame.revision)) (fun hroll => ?_) hop h
    (.refl w)
  subst hroll
  cases h
  unfold maybeRollPlanEpoch
  split_ifs
  · exact .refl w
  · exact .of_eq rfl rfl

end World

namespace Writing

variable {α : Type} {C : Components α} {s s' u : Writing α} {w₀ : World α}

/-- The live world as a machine over single effects. -/
def effects (C : Components α) : Machine (Writing α) (Effect α) where
  init s := (World.machine C).init s.world ∧ s.pending = []
  step s i := some ⟨i.take C s.world, i.waiting s.pending⟩

theorem world_of_effects {labels : List (Effect α)} (h : (effects C).run s labels = some s') :
    labels.foldl (Effect.take C) s.world = s'.world := by
  induction labels generalizing s with
  | nil => exact congrArg Writing.world (Option.some.inj h)
  | cons i labels ih => exact ih h

/-- The second state comes after the first in a run of effects. -/
def Traced (C : Components α) (s s' : Writing α) : Prop :=
  ∃ labels, (effects C).run s labels = some s'

theorem Traced.refl (s : Writing α) : Traced C s s := ⟨[], rfl⟩

theorem Traced.trans (h : Traced C s u) (h' : Traced C u s') : Traced C s s' := by
  obtain ⟨labels, hrun⟩ := h
  obtain ⟨labels', hrun'⟩ := h'
  exact ⟨labels ++ labels', by rw [Machine.run_append, hrun, Option.bind_some, hrun']⟩

theorem Traced.take (i : Effect α) : Traced C s ⟨i.take C s.world, i.waiting s.pending⟩ :=
  ⟨[i], rfl⟩

/-- Effects on the world alone are a run beside any rows that wait. -/
theorem traced_of_world {w' : World α} (h : World.Traced C s.world w') :
    Traced C s ⟨w', s.pending⟩ := by
  obtain ⟨labels, hquiet, hrun⟩ := h
  induction labels generalizing s with
  | nil =>
    have heq : s.world = w' := hrun
    exact heq ▸ .refl s
  | cons i labels ih =>
    have hstep : Traced C s ⟨i.take C s.world, i.waiting s.pending⟩ := .take i
    rw [hquiet i List.mem_cons_self] at hstep
    exact hstep.trans (ih (fun j hj => hquiet j (List.mem_cons_of_mem _ hj)) hrun)

/-- One reconciliation, with the log entry the engine appends for a present store. -/
theorem traced_reconciled (s : Writing α) (t : TypeId) (e : Entity) :
    Traced C s ⟨if t ∈ s.world.stores then
      { s.world.reconcileEntry C t e with
        writeLog := (s.world.reconcileEntry C t e).writeLog ++ [(t, e)] } else s.world,
      s.pending.filter (· ≠ (t, e))⟩ := by
  have hstep : Traced C s ⟨s.world.reconcileEntry C t e, s.pending.filter (· ≠ (t, e))⟩ :=
    .take (.reconcile t e)
  split_ifs with hstore
  · exact hstep.trans (traced_of_world (.of_eq rfl rfl))
  · have hnone : s.world.cell? t e = none := by
      rw [World.cell?, World.store, Dict.getD, AList.lookup_eq_none.mpr hstore]
      rfl
    have heq : s.world.reconcileEntry C t e = s.world := by rw [World.reconcileEntry, hnone]
    rwa [heq] at hstep

theorem traced_reconcileWritten : ∀ (writes : List (TypeId × Entity)) (s : Writing α),
    Traced C s ⟨s.world.reconcileWritten C writes, s.pending.filter (· ∉ writes)⟩
  | [], s => by
    have hpending : s.pending.filter (· ∉ ([] : List (TypeId × Entity))) = s.pending := by simp
    rw [hpending]
    exact .refl s
  | (t, e) :: writes, s => by
    have hrest := (traced_reconciled (C := C) s t e).trans (traced_reconcileWritten writes _)
    have hpending : (s.pending.filter (· ≠ (t, e))).filter (· ∉ writes) =
        s.pending.filter (· ∉ (t, e) :: writes) := by
      rw [List.filter_filter]
      refine List.filter_congr fun p _ => ?_
      simp only [List.mem_cons, not_or, Bool.decide_and]
      exact Bool.and_comm _ _
    rwa [hpending] at hrest

/-- Every use the engine makes of its world is a run of effects. -/
theorem traced_step {op : WorldOp α} (h : (machine C).step s op = some s') : Traced C s s' := by
  obtain ⟨w', hw', rfl⟩ := Option.map_eq_some_iff.mp h
  cases hop : op.amending with
  | false =>
    have hkept : pendingAfter s.pending op = s.pending := by
      cases op <;> first | rfl | cases hop
    rw [hkept]
    exact traced_of_world (World.traced_apply hop hw')
  | true =>
    cases op with
    | update t e v =>
      cases hw'
      have hstamped : Traced C s ⟨s.world.restampEntry C t e v, s.pending⟩ := .take (.restamp t e v)
      refine hstamped.trans (traced_of_world ?_)
      unfold World.updateComponent
      split_ifs
      · exact .of_eq rfl rfl
      · exact .refl _
    | writeInPlace t e v =>
      cases hw'
      exact .take (.writeInPlace t e v)
    | reconcileWritten writes =>
      cases hw'
      exact traced_reconcileWritten writes s
    | _ => cases hop

/-- A run of the engine is a run of effects. -/
theorem traced_of_run {ops : List (WorldOp α)} (h : (machine C).run s ops = some s') :
    Traced C s s' :=
  List.foldlM_some_induction (Traced C s) ops h (.refl s)
    fun _ _ _ _ hu hstep => hu.trans (traced_step hstep)

theorem identified_effect (h : World.Identified C s.pending w₀ s.world) {i : Effect α}
    (hstep : (effects C).step s i = some s') : World.Identified C s'.pending w₀ s'.world := by
  have hclosed := World.closed_identified C s.pending w₀
  cases hstep
  cases i with
  | write t e v o => exact hclosed.write _ t e v o trivial h
  | drop t e remover => exact hclosed.drop _ t e remover (fun _ _ => trivial) h
  | sweep t e o => exact hclosed.sweep _ t e o trivial h
  | purge e => exact hclosed.purge _ e trivial h
  | restamp t e v => exact h.restampEntry t e v fun _ => Or.inl
  | reconcile t e =>
    refine h.reconcileEntry t e fun p hp => ?_
    by_cases heq : p = (t, e)
    · exact Or.inr heq
    · exact Or.inl (List.mem_filter.mpr ⟨hp, by simpa using heq⟩)
  | writeInPlace t e v => exact h.writeInPlace t e v
  | books u => exact h.congr rfl rfl

theorem identified_of_effects {labels : List (Effect α)}
    (h : World.Identified C s.pending w₀ s.world) (hrun : (effects C).run s labels = some s') :
    World.Identified C s'.pending w₀ s'.world :=
  List.foldlM_some_induction (fun s => World.Identified C s.pending w₀ s.world) labels hrun h
    fun _ _ _ _ hs hstep => identified_effect hs hstep

/-- A state that effects reach identifies its own entries. -/
theorem identified_of_traced (h : (effects C).Reachable s) :
    World.Identified C s.pending s.world s.world := by
  have hsome : ∃ w₀, World.Identified C s.pending w₀ s.world := by
    refine h.invariant (fun s => ∃ w₀, World.Identified C s.pending w₀ s.world) ?_
      fun s i s' hs _ hstep => hs.imp fun w₀ hw₀ => identified_effect hw₀ hstep
    intro s hinit
    obtain ⟨⟨schema, hw⟩, -⟩ := hinit
    refine ⟨s.world, ?_⟩
    rw [hw]
    exact ⟨World.coherent_ofSchema schema, le_rfl, nofun, nofun, nofun⟩
  exact hsome.choose_spec.restart

end Writing
end Porridge
