import Porridge.Commit.Losers

/-! When the bookkeeping after a commit treats every removal the commit caused. -/
namespace Porridge

variable {α : Type} (C : Components α)

structure RemovalsTreated (s : State α) (run : SystemRun α) (memo' : MemoTable) (s' : State α) :
    Prop where
  memo : ∀ e, run.Removes e → ∀ i m, memo'.lookup i = some m → e ∉ i.keys
  outputs : ∀ e, run.Removes e → ∀ t x o, s'.world.owner? t x = some o →
    o.system ∈ s.pairBoundSystems → e ∉ o.keys
  owners : ∀ e o, RunEvicts C s.world run.outputs e o → o.system ∈ s.pairBoundSystems →
    memo'.lookup o = none ∧ Forced s'.systems o

namespace SystemRun

/-- The invocation has a memo entry, or the run brings one. -/
def Memoizes (run : SystemRun α) (memo : MemoTable) (o : SystemInvocation) : Prop :=
  o ∈ memo ∨ ∃ update ∈ run.memoUpdates, update.1 = o

/-- The invocation lost a component of an entity that stays, to the run or earlier. -/
def Loses (run : SystemRun α) (w : World α) (o : SystemInvocation) : Prop :=
  o ∈ w.removedComponentOwners ∨ RunStrips C w run.outputs o

/-- The invocation owns an inverse, which is the engine's to maintain, or handles one by hand. -/
def OwnsInverse (run : SystemRun α) (w : World α) (o : SystemInvocation) : Prop :=
  ∃ t, C.IsInverse t ∧ ((∃ e, w.owner? t e = some o) ∨
    ∃ output ∈ run.outputs, output.owner = o ∧ ∃ c ∈ output.commands, ¬ c.Spares t)

/-- A memoized pair-bound invocation lost a component with its entity, to the run or earlier. -/
def Evicted (run : SystemRun α) (memo : MemoTable) (s : State α) (o : SystemInvocation) : Prop :=
  (o ∈ s.world.removedOwners ∨ ∃ e, RunEvicts C s.world run.outputs e o) ∧
    o.system ∈ s.pairBoundSystems ∧ run.Memoizes memo o

/-- If the run removes an entity, no loser has a memo entry, and the pair-bound owners on removed
entities have one, or are forced already or with the others. -/
structure Treatable (run : SystemRun α) (memo : MemoTable) (s : State α) : Prop where
  losers : ∀ e, run.Removes e → ∀ o, run.Loses C s.world o → ¬ run.Memoizes memo o
  evicted : ∀ e o, RunEvicts C s.world run.outputs e o → o.system ∈ s.pairBoundSystems →
    ForcedWith (run.Evicted C memo s) s.systems o

/-- The run removes an entity that keys a memo entry of an invocation that loses nothing else. -/
def AtStake (run : SystemRun α) (memo : MemoTable) (s : State α) : Prop :=
  ∃ e i, run.Removes e ∧ e ∈ i.keys ∧ run.Memoizes memo i ∧ ¬ run.Loses C s.world i ∧
    ¬ run.OwnsInverse C s.world i

end SystemRun

section Reconcile

variable {C}

theorem selects_some {systems : List SystemId} {id : SystemId} :
    World.selects (some systems) id = true ↔ id ∈ systems := by
  simp [World.selects]

theorem mem_publishMemo_iff (w : World α) (settleEpoch : Nat) (run : SystemRun α)
    {memo : MemoTable} {o : SystemInvocation} :
    o ∈ publishMemo w settleEpoch run memo ↔ run.Memoizes memo o := by
  unfold publishMemo SystemRun.Memoizes
  induction run.memoUpdates generalizing memo with
  | nil => simp
  | cons update updates ih =>
    rw [List.foldl_cons, ih, AList.mem_insert, List.exists_mem_cons_iff, or_comm (a := o = update.1),
      or_assoc, eq_comm (a := o)]

/-- A memoized loser keeps the removed entities from being treated. -/
theorem lookup_reconcileCommit_of_loser {memo : MemoTable} {s : State α} {o : SystemInvocation}
    (ho : o ∈ s.world.removedComponentOwners) (hm : o ∈ memo) (i : SystemInvocation) :
    (reconcileCommit C memo s).1.lookup i =
      if i ∈ s.world.removedComponentOwners then none else memo.lookup i := by
  have hretired : (reconcileRemovedOutputOwners none memo s.systems
      s.world.removedComponentOwners).2.2 = true :=
    (retired_reconcileRemovedOutputOwners none _ _ _).mpr ⟨o, ho, rfl, hm⟩
  have hne : ¬ (s.world.removedEntities = [] ∧ s.world.removedOwners = [] ∧
      s.world.removedComponentOwners = []) := fun h => List.ne_nil_of_mem ho h.2.2
  unfold reconcileCommit
  dsimp only
  rw [if_neg hne, if_pos hretired]
  simp [lookup_reconcileRemovedOutputOwners, World.selects]

/-- Without a memoized loser, the removed entities are treated. -/
theorem reconcileCommit_of_unmemoized {memo : MemoTable} {s : State α}
    (h : ∀ o ∈ s.world.removedComponentOwners, o ∉ memo) (hne : s.world.removedEntities ≠ []) :
    let r := reconcileRemovedInvocations C s.world.drainRemovals memo s.world.removedEntities
      s.world.removedOwners s.systems (some s.pairBoundSystems)
    reconcileCommit C memo s = (r.1.memo, { s with
      world := r.1.world
      systems := r.2
      normalClean := if r.1.retiredOutputs then false else s.normalClean }) := by
  unfold reconcileCommit
  simp [hne, reconcileRemovedOutputOwners_unmemoized none h]

/-- The reconcilers clear what the removed entities key, and force the evicted pair owners that are
memoized. -/
theorem reconcileCommit_treats {memo : MemoTable} {s : State α}
    (h : ∀ o ∈ s.world.removedComponentOwners, o ∉ memo) (hne : s.world.removedEntities ≠ [])
    (hi : s.world.Indexed fun _ _ => False) :
    (∀ e ∈ s.world.removedEntities, ∀ i m, (reconcileCommit C memo s).1.lookup i = some m →
        e ∉ i.keys) ∧
      (∀ e ∈ s.world.removedEntities, ∀ t x o,
        (reconcileCommit C memo s).2.world.owner? t x = some o →
          o.system ∈ s.pairBoundSystems → e ∉ o.keys) ∧
      ∀ o ∈ s.world.removedOwners, o.system ∈ s.pairBoundSystems →
        (reconcileCommit C memo s).1.lookup o = none ∧
          (Forced (reconcileCommit C memo s).2.systems o ↔
            ForcedWith (fun o' => o' ∈ s.world.removedOwners ∧ o'.system ∈ s.pairBoundSystems ∧
              o' ∈ memo) s.systems o) := by
  rw [reconcileCommit_of_unmemoized h hne]
  dsimp only [reconcileRemovedInvocations]
  set owners := reconcileRemovedOutputOwners (some s.pairBoundSystems) memo s.systems
    s.world.removedOwners with howners
  have hdrained : s.world.drainRemovals.Indexed fun _ _ => False :=
    World.SameOwnership.indexed ⟨fun _ _ => rfl, rfl⟩ hi
  have hclear := clear_retireCascade C (some s.pairBoundSystems)
    (r := ⟨s.world.drainRemovals, owners.1, owners.2.2⟩) hdrained s.world.removedEntities.dedup
    s.world.removedEntities.dedup
  have hkey : ∀ {e : Entity} {i : SystemInvocation}, e ∈ s.world.removedEntities →
      i.touches s.world.removedEntities.dedup = false → e ∉ i.keys := by
    intro e i he ht hk
    have htouches := SystemInvocation.touches_iff.mpr ⟨e, hk, List.mem_dedup.mpr he⟩
    rw [ht] at htouches
    cases htouches
  refine ⟨fun e he i m hm => hkey he (hclear.memo i m hm),
    fun e he t x o ho hp => hkey he (hclear.owner t x o ho (selects_some.mpr hp)),
    fun o ho hp => ⟨?_, ?_⟩⟩
  · by_contra hsome
    obtain ⟨m, hm⟩ := Option.ne_none_iff_exists'.mp hsome
    have hpre := (shrinks_rounds C (some s.pairBoundSystems) _ _ _ _).memo o m hm
    rw [lookup_reconcileRemovedOutputOwners, if_pos ⟨ho, selects_some.mpr hp⟩] at hpre
    cases hpre
  · rw [howners, forced_reconcileRemovedOutputOwners]
    exact forcedWith_congr (fun o => by rw [selects_some]) s.systems o

end Reconcile

/-- What the bookkeeping of an accepted run starts from. -/
structure Published (s : State α) (run : SystemRun α) (memo : MemoTable) (memo₁ : MemoTable)
    (s₁ : State α) : Prop where
  memoized : ∀ o, o ∈ memo₁ ↔ run.Memoizes memo o
  systems : s₁.systems = s.systems
  indexed : s₁.world.Indexed fun _ _ => False
  removed : ∀ e, run.Removes e → e ∈ s₁.world.removedEntities
  losers : ∀ o ∈ s₁.world.removedComponentOwners, run.Loses C s.world o ∨ run.OwnsInverse C s.world o
  lost : ∀ o, run.Loses C s.world o → o ∈ s₁.world.removedComponentOwners
  evicted : ∀ o, o ∈ s₁.world.removedOwners ↔
    o ∈ s.world.removedOwners ∨ ∃ e, RunEvicts C s.world run.outputs e o

theorem published_of_publishRun {s s₁ : State α} (hs : World.Reachable C s.world)
    {memo memo₁ : MemoTable} {run : SystemRun α}
    (h : publishRun C memo s run false = some (memo₁, s₁)) : Published C s run memo memo₁ s₁ := by
  simp only [publishRun, Option.bind_eq_bind, Option.bind_eq_some_iff, Option.pure_def,
    Option.some.injEq, Prod.mk.injEq] at h
  obtain ⟨s₀, hout, rfl, rfl⟩ := h
  obtain ⟨hsystems, hgrows⟩ := publishOutputs_frame hout
  have hreconciled := (World.audible_reconcileWritten (C := C) s₀.world run.writes).2
  have hentities := (World.grows_reconcileWritten C s₀.world run.writes).entities
  have hattributed : s.world.Attributed C (run.OwnsInverse C s.world) :=
    ⟨fun t e o ht ho => ⟨t, ht, Or.inl ⟨e, ho⟩⟩, (World.attributed_of_reachable hs).held⟩
  obtain ⟨hlosers, hevicted⟩ := losers_publishOutputs hattributed
    (fun output hmem c hc t ht hspares => ⟨t, ht, Or.inr ⟨output, hmem, rfl, c, hc, hspares⟩⟩) hout
  constructor
  · exact fun o => mem_publishMemo_iff _ _ run
  · exact hsystems
  · exact (World.sameOwnership_reconcileWritten C s₀.world run.writes).indexed
      (publishOutputs_indexed hout hs.indexed)
  · rintro e ⟨output, hmem, he⟩
    exact hentities.subset (publishOutputs_recorded hout hmem he)
  · intro o ho
    rw [hreconciled.2] at ho
    rcases hlosers o ho with ho | hinverse | hstrips
    · exact Or.inl (Or.inl ho)
    · exact Or.inr hinverse
    · exact Or.inl (Or.inr hstrips)
  · intro o ho
    rw [hreconciled.2]
    rcases ho with ho | hstrips
    · exact hgrows.componentOwners.subset ho
    · exact hstrips.recorded rfl hout
  · intro o
    rw [hreconciled.1]
    refine ⟨hevicted o, ?_⟩
    rintro (ho | ⟨e, hevicts⟩)
    · exact hgrows.owners.subset ho
    · exact (hevicts.recorded rfl hout).1

theorem Evicts.removes {C : Components α} {w : World α} {owner : SystemInvocation}
    {commands : List (Command α)} {e : Entity} {o : SystemInvocation}
    (h : Evicts C w owner commands e o) : Command.removeEntity e ∈ commands := by
  induction h with
  | here _ => exact List.mem_cons_self
  | later _ _ ih => exact List.mem_cons_of_mem _ ih

theorem RunEvicts.removes {C : Components α} {w : World α} {outputs : List (SystemOutput α)}
    {e : Entity} {o : SystemInvocation} (h : RunEvicts C w outputs e o) :
    ∃ output ∈ outputs, Command.removeEntity e ∈ output.commands := by
  induction h with
  | here h => exact ⟨_, List.mem_cons_self, h.removes⟩
  | later _ _ ih =>
    obtain ⟨output, hmem, he⟩ := ih
    exact ⟨output, List.mem_cons_of_mem _ hmem, he⟩

/-- Two derived components: one of a pair keyed by the entities 1 and 2, one of a plain row. -/
def pairAndRowWorld : World Unit :=
  ((World.machine (Components.plain Unit)).run World.new
    [.output ⟨⟨0, [1, 2]⟩, [.insert 5 2 (.data ())]⟩ false,
      .output ⟨⟨1, [3]⟩, [.insert 6 4 (.data ())]⟩ false]).get (by decide)

theorem reachable_pairAndRowWorld : World.Reachable (Components.plain Unit) pairAndRowWorld :=
  Machine.Reachable.run (.init World.machine_init_new) (Option.some_get _).symm

/-- System 0 is pair-bound; the pair and the plain row are both memoized. -/
def pairAndRowState : State Unit :=
  { [BoxedSystem.new .evaluate none false true [], BoxedSystem.new .evaluate none false false []].foldl
      State.registerSystem (State.new Unit) with world := pairAndRowWorld }

def pairAndRowMemo : MemoTable :=
  (AList.insert ⟨0, [1, 2]⟩ ⟨[], 0, 0⟩ ∅ : MemoTable).insert ⟨1, [3]⟩ ⟨[], 0, 0⟩

def removalRun (commands : List (Command Unit)) : SystemRun Unit :=
  ⟨true, [⟨⟨1, [7]⟩, commands⟩], [], []⟩

/-- Removing only the entity that carries the pair's output strips nobody and evicts the pair. -/
theorem treatable_evicted_pair : (removalRun [.removeEntity 2]).Treatable (Components.plain Unit)
    pairAndRowMemo pairAndRowState := by
  have hstrips : ∀ o, ¬ RunStrips (Components.plain Unit) pairAndRowState.world
      (removalRun [.removeEntity 2]).outputs o := by
    intro o h
    cases h with
    | here h =>
      cases h with
      | here h =>
        obtain ⟨p, hp, -⟩ := h
        have hnone : ∀ p ∈ (pairAndRowState.world.takeDerivedOutputs ⟨1, [7]⟩).2.retractionsOn
            (Components.plain Unit) 2, False := by decide
        exact hnone p hp
      | later _ h => cases h
    | later _ h => cases h
  have hevicts : ∀ e o, RunEvicts (Components.plain Unit) pairAndRowState.world
      (removalRun [.removeEntity 2]).outputs e o → o = ⟨0, [1, 2]⟩ := by
    intro e o h
    cases h with
    | here h =>
      cases h with
      | @here _ _ _ _ t _ h =>
        have hall : ∀ t ∈ pairAndRowState.world.componentsOn 2,
            pairAndRowState.world.owner? t 2 = some ⟨0, [1, 2]⟩ := by decide
        obtain ⟨x, hx, -⟩ := Option.bind_eq_some_iff.mp h
        have hmem := (World.mem_componentsOn pairAndRowState.world t 2).mpr
          ((World.has_iff _ t 2).mpr ⟨x, hx⟩)
        exact Option.some.inj (h.symm.trans (hall t hmem))
      | later _ h => cases h
    | later _ h => cases h
  constructor
  · rintro e - o (ho | h) -
    · have hnone : pairAndRowState.world.removedComponentOwners = [] := by decide
      rw [hnone] at ho
      cases ho
    · exact hstrips o h
  · intro e o h hp
    have ho := hevicts e o h
    have hm : (removalRun [.removeEntity 2]).Memoizes pairAndRowMemo o := by
      rw [ho]
      exact Or.inl (by decide)
    refine ⟨BoxedSystem.new .evaluate none false true [], by rw [ho]; rfl, Or.inr (Or.inl ?_)⟩
    exact ⟨o, ⟨Or.inr ⟨e, h⟩, hp, hm⟩, rfl, fun hdelta => absurd hdelta.1 (by decide)⟩

end Porridge
