import Porridge.Engine.World
import Porridge.World.Reach

/-! What the cascade of an external despawn takes away, and when it strands a live row. -/
namespace Porridge

variable {α : Type} (C : Components α)

open World

/-- The cascade only takes what reached invocations own, and only their memo entries. -/
theorem retireCascade_sound (selected : Option (List SystemId)) (w : World α) (memo : MemoTable)
    (retired : Bool) (seen roots : List Entity) :
    let r := retireCascade C selected ⟨w, memo, retired⟩ seen roots
    SweptFrom C w r.world roots ∧ ∀ i m, memo.lookup i = some m →
      r.memo.lookup i = some m ∨ w.Reaches (fun _ => True) roots i := by
  refine Worklist.rounds_invariant (w.OwnershipReach (fun _ => True) roots)
    (fun r : Retirement α => SweptFrom C w r.world roots ∧ ∀ i m, memo.lookup i = some m →
      r.memo.lookup i = some m ∨ w.Reaches (fun _ => True) roots i) ?_ _ _ _ _
    ⟨.refl w roots, fun _ _ h => Or.inl h⟩ fun x hx => .root hx
  rintro r frontier ⟨hswept, hmemo⟩ hregion
  have htouched : ∀ o : SystemInvocation, o.touches frontier = true →
      w.Reaches (fun _ => True) roots o := fun o ho => by
    obtain ⟨k, hk, hmem⟩ := SystemInvocation.touches_iff.mp ho
    exact ⟨k, hk, hregion k hmem⟩
  have howners : ∀ o ∈ r.world.ownersTouchedBy frontier selected,
      w.Reaches (fun _ => True) roots o := fun o ho => by
    have hsel := (List.mem_filter.mp ho).2
    rw [Bool.and_eq_true] at hsel
    exact htouched o hsel.2
  obtain ⟨hnext, hfound⟩ := SweptFrom.retireOwners _ hswept howners
  refine ⟨⟨hnext, fun i m hm => ?_⟩, hfound⟩
  change (removeMemoTouchedBy r.memo frontier).lookup i = some m ∨ _
  rw [lookup_removeMemoTouchedBy]
  rcases hmemo i m hm with hkept | hreach
  · split_ifs with ht
    · exact Or.inr (htouched i ht)
    · exact Or.inl hkept
  · exact Or.inr hreach

/-- What one round of the cascade keeps: visited entities stay clear, and a pair of a plain
type is owned as before or its entity has been seen. -/
private def CascadeRound (w : World α) (roots : List Entity) (r : Retirement α)
    (seen frontier : List Entity) : Prop :=
  (r.world.Indexed fun _ _ => False) ∧ (∀ x ∈ roots, x ∈ seen) ∧
    (∀ x ∈ seen, x ∈ frontier ∨ r.Clear none [x]) ∧
      ∀ t e o, ¬ C.IsInverse t → w.owner? t e = some o →
        r.world.owner? t e = some o ∨ e ∈ seen

private theorem CascadeRound.next {w : World α} {roots : List Entity} {r : Retirement α}
    {seen frontier fresh : List Entity} (h : CascadeRound C w roots r seen frontier)
    (hfresh : ∀ x ∈ (retireTouched C none r frontier).2, x ∈ seen ∨ x ∈ fresh) :
    CascadeRound C w roots (retireTouched C none r frontier).1 (seen ++ fresh) fresh := by
  obtain ⟨hindexed, hroots, hclear, howned⟩ := h
  have hshrinks := shrinks_retireTouched C none r frontier
  have hfrontier := clear_retireTouched C none hindexed frontier
  refine ⟨hindexed.retireOwners C _, fun x hx => List.mem_append_left _ (hroots x hx),
    fun x hx => ?_, fun t e o ht ho => ?_⟩
  · rcases List.mem_append.mp hx with hx | hx
    · refine Or.inr ?_
      rcases hclear x hx with hx | hx
      · have hsub : ∀ i : SystemInvocation, i.touches frontier = false →
            i.touches [x] = false := fun i hi => by
          by_contra ht
          obtain ⟨k, hk, hkx⟩ := SystemInvocation.touches_iff.mp (Bool.eq_true_of_not_eq_false ht)
          have hki : i.touches frontier = true :=
            SystemInvocation.touches_iff.mpr ⟨k, hk, List.mem_singleton.mp hkx ▸ hx⟩
          rw [hi] at hki
          cases hki
        exact ⟨fun i m hm => hsub i (hfrontier.memo i m hm),
          fun t e o ho hs => hsub o (hfrontier.owner t e o ho hs)⟩
      · exact hx.of_shrinks hshrinks
    · exact Or.inl hx
  · rcases howned t e o ht ho with hkept | hseen
    · rcases owned_or_found_retireOwners C ht (r.world.ownersTouchedBy frontier none) hkept with
        hkept | hfound
      · exact Or.inl hkept
      · exact Or.inr (List.mem_append.mpr (hfresh e hfound))
    · exact Or.inr (List.mem_append_left _ hseen)

/-- The cascade takes every plain output of an invocation keyed by a reached entity. -/
theorem retireCascade_complete {w : World α} (hi : w.Indexed fun _ _ => False)
    (memo : MemoTable) (retired : Bool) {seen roots : List Entity} (hseen : ∀ x ∈ seen, x ∈ roots)
    {t : TypeId} {e : Entity} (ht : ¬ C.IsInverse t)
    (h : w.Swept (fun t => ¬ C.IsInverse t) roots t e) :
    (retireCascade C none ⟨w, memo, retired⟩ seen roots).world.has t e = false := by
  -- a root may be found once more where it is not among the seen entities
  obtain ⟨-, visited, -, -, hroots, hclear, howned⟩ := Worklist.rounds_exhausts
    (fun r : Retirement α => r.world.derivedOwners.keys.length) (retireTouched_drops C none)
    (fun r seen frontier => ∃ visited, (∀ x ∈ seen, x ∈ visited) ∧
      CascadeRound C w roots r visited frontier)
    (fun r seen frontier hr => by
      obtain ⟨visited, hsub, hround⟩ := hr
      have hfresh : ∀ x ∈ (retireTouched C none r frontier).2, x ∈ visited ∨
          x ∈ (retireTouched C none r frontier).2.dedup.filter (· ∉ seen) := by
        intro x hx
        by_cases hs : x ∈ seen
        · exact Or.inl (hsub x hs)
        · exact Or.inr (List.mem_filter.mpr ⟨List.mem_dedup.mpr hx, by simpa using hs⟩)
      refine ⟨_, ?_, hround.next C hfresh⟩
      intro x hx
      rcases List.mem_append.mp hx with hx | hx
      · exact List.mem_append_left _ (hsub x hx)
      · exact List.mem_append_right _ hx)
    (w.derivedOwners.keys.length + 1) ⟨w, memo, retired⟩ seen roots (Nat.lt_succ_self _)
    ⟨roots, hseen, hi, fun _ hx => hx, fun _ hx => Or.inl hx, fun _ _ _ _ ho => Or.inl ho⟩
  obtain ⟨hswept, -⟩ := retireCascade_sound C none w memo retired seen roots
  set r := retireCascade C none ⟨w, memo, retired⟩ seen roots with hr
  have hclear' : ∀ x ∈ visited, r.Clear none [x] := fun x hx =>
    (hclear x hx).resolve_left (List.not_mem_nil)
  have howner : ∀ {t e o k}, k ∈ visited → k ∈ o.keys → r.world.owner? t e ≠ some o := by
    intro t e o k hk hkey ho
    have htouch := (hclear' k hk).owner t e o ho rfl
    rw [SystemInvocation.touches_iff.mpr ⟨k, hkey, List.mem_singleton_self k⟩] at htouch
    cases htouch
  have hvisited : ∀ x, w.OwnershipReach (fun t => ¬ C.IsInverse t) roots x → x ∈ visited := by
    intro x hx
    induction hx with
    | root hx => exact hroots _ hx
    | output _ hkey ho ht ih => exact (howned _ _ _ ht ho).resolve_left (howner ih hkey)
  obtain ⟨o, ho, k, hkey, hk⟩ := h
  have hgone := howner (t := t) (e := e) (hvisited k hk) hkey
  rcases hswept.plain t e ht with hc | ⟨hnone, -⟩
  · exact absurd (by rw [owner?, hc]; exact ho) hgone
  · simp [has, hnone]

/-- The row is live: its key entities carry the components its query requires of them. -/
def LiveRow (requires : SystemInvocation → List (TypeId × Entity)) (w : World α)
    (i : SystemInvocation) : Prop :=
  ∀ p ∈ requires i, w.has p.1 p.2 = true

instance (requires : SystemInvocation → List (TypeId × Entity)) (w : World α)
    (i : SystemInvocation) : Decidable (LiveRow requires w i) :=
  inferInstanceAs (Decidable (∀ p ∈ requires i, w.has p.1 p.2 = true))

/-- The row stays live when the outputs reached from `roots` go. -/
def SurvivingRow (requires : SystemInvocation → List (TypeId × Entity)) (w : World α)
    (roots : List Entity) (i : SystemInvocation) : Prop :=
  ∀ p ∈ requires i, w.has p.1 p.2 = true ∧
    (¬ C.IsInverse p.1 → ¬ w.Swept (fun t => ¬ C.IsInverse t) roots p.1 p.2)

/-- A row that the cascade can take something from: it is keyed by an entity reached from a
despawned one and has a memo entry or outputs, or it owns an inverse of an edge that goes. -/
def Exposed (applied : State α) (i : SystemInvocation) : Prop :=
  let w := applied.world
  w.Reaches (fun _ => True) w.removedEntities i ∧
      (i ∈ (reconcileInputLosers applied).memo ∨ ∃ t e, w.owner? t e = some i) ∨
    ∃ t e t' e', w.owner? t e = some i ∧ w.Swept (fun _ => True) w.removedEntities t' e' ∧
      w.edgeOn C t' e' = some (t, e)

/-- The cascade only gets at rows that the despawn ends. -/
def ExposedRowsEnd (requires : SystemInvocation → List (TypeId × Entity))
    (applied : State α) : Prop :=
  ∀ i, Exposed C applied i →
    ¬ SurvivingRow C requires applied.world applied.world.removedEntities i

/-- The row comes back: it is forced and its system planned next, and in the states that count as
settled its memo entry is current and its outputs are present. -/
structure ComesBack (applied : State α) (started : Started α) (settled : State α → Prop)
    (i : SystemInvocation) : Prop where
  forced : Forced started.state.systems i
  planned : ∀ system ∈ started.state.systems[i.system]?,
    system.peekNeedsPlanning started.state.world = true
  memo : ∀ s, settled s → ∃ m, s.memo.lookup i = some m ∧ m.isCurrent s.world = true
  outputs : ∀ s, settled s → ∀ t e, applied.world.owner? t e = some i →
    s.world.owner? t e = some i

/-- Every live row that lost its memo entry or an output to the cascade comes back. -/
def StrandsNone (requires : SystemInvocation → List (TypeId × Entity)) (applied : State α)
    (started : Started α) (settled : State α → Prop) : Prop :=
  ∀ i, LiveRow requires started.state.world i →
    ((i ∈ (reconcileInputLosers applied).memo ∧ i ∉ started.memo) ∨
      ∃ t e, applied.world.owner? t e = some i ∧ started.state.world.has t e = false) →
    ComesBack applied started settled i

/-- Entity 1 carries component 3 and entity 2 component 7; the row of system 0 on entity 1
wrote component 5 on `target`. -/
def inputRowsWorld (target : Entity) : World Unit :=
  ((World.machine (Components.plain Unit)).run World.new
    [.base (.insert 3 1 (.data ())), .base (.insert 7 2 (.data ())),
      .output ⟨⟨0, [1]⟩, [.insert 5 target (.data ())]⟩ false]).getD World.new

/-- Both rows are memoized and planned, and the despawn of entity 1 is pending. -/
def inputRowsState (target : Entity) : State Unit :=
  { State.new Unit with
    world := inputRowsWorld target
    systems := [(BoxedSystem.new .evaluate (some [3]) true false []).afterPlan (inputRowsWorld target),
      (BoxedSystem.new .evaluate (some [7]) true false []).afterPlan (inputRowsWorld target)]
    memo := (AList.insert ⟨0, [1]⟩ ⟨[], 0, 0⟩ ∅ : MemoTable).insert ⟨1, [2]⟩ ⟨[], 0, 0⟩
    pendingGeneration := some 1
    pendingInputs := [.despawn 1] }

def inputRowsRequires (i : SystemInvocation) : List (TypeId × Entity) :=
  i.keys.map fun e => (if i.system = 0 then 3 else 7, e)

def inputRowsApplied (target : Entity) : State Unit :=
  (applyInputs (Components.plain Unit)
    { inputRowsState target with pendingGeneration := none }).getD (State.new Unit)

def inputRowsStarted (target : Entity) : Started Unit :=
  launch (reconcileInputs (Components.plain Unit) (inputRowsApplied target)) 1

theorem reachable_inputRowsWorld {target : Entity}
    (h : ((World.machine (Components.plain Unit)).run World.new
      [.base (.insert 3 1 (.data ())), .base (.insert 7 2 (.data ())),
        .output ⟨⟨0, [1]⟩, [.insert 5 target (.data ())]⟩ false]).isSome) :
    World.Reachable (Components.plain Unit) (inputRowsWorld target) := by
  obtain ⟨w, hw⟩ := Option.isSome_iff_exists.mp h
  have hrun := Machine.Reachable.run (.init World.machine_init_new) hw
  rwa [inputRowsWorld, hw]

end Porridge
