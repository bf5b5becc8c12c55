import Porridge.Retirement
import Porridge.World.Grows

/-! How a commit treats the entity removals and component losses it caused. -/
namespace Porridge

variable {α : Type} (C : Components α)

/-- `o` holds a derived component of `e` when the commands of `owner` remove the entity `e`. -/
inductive Evicts : World α → SystemInvocation → List (Command α) → Entity → SystemInvocation → Prop
  | here {w : World α} {owner : SystemInvocation} {e : Entity} {commands : List (Command α)}
      {t : TypeId} {o : SystemInvocation} (h : w.owner? t e = some o) :
      Evicts w owner (.removeEntity e :: commands) e o
  | later {w w' : World α} {owner : SystemInvocation} {c : Command α} {commands : List (Command α)}
      {e : Entity} {o : SystemInvocation} (hc : c.apply C w owner = some w')
      (h : Evicts w' owner commands e o) : Evicts w owner (c :: commands) e o

/-- `o` holds a derived component of `e` when an output of the run removes the entity `e`. -/
inductive RunEvicts : World α → List (SystemOutput α) → Entity → SystemInvocation → Prop
  | here {w : World α} {output : SystemOutput α} {outputs : List (SystemOutput α)} {e : Entity}
      {o : SystemInvocation}
      (h : Evicts C (w.takeDerivedOutputs output.owner).2 output.owner output.commands e o) :
      RunEvicts w (output :: outputs) e o
  | later {w w' : World α} {output : SystemOutput α} {outputs : List (SystemOutput α)} {e : Entity}
      {o : SystemInvocation} (ha : w.applyOutput C output false = some w')
      (h : RunEvicts w' outputs e o) : RunEvicts w (output :: outputs) e o

def SystemRun.Removes (run : SystemRun α) (e : Entity) : Prop :=
  ∃ output ∈ run.outputs, Command.removeEntity e ∈ output.commands

theorem Evicts.recorded {w : World α} {owner : SystemInvocation} {commands : List (Command α)}
    {e : Entity} {o : SystemInvocation} (h : Evicts C w owner commands e o) :
    ∀ {w' : World α}, w.applyCommands C owner commands = some w' →
      o ∈ w'.removedOwners ∧ Command.removeEntity e ∈ commands := by
  induction h with
  | here h =>
    intro w' ha
    obtain ⟨u, hu, hrest⟩ := (World.applyCommands_cons C).mp ha
    cases hu
    refine ⟨?_, by simp⟩
    exact ((World.closed_grows C).applyCommands hrest (Permits.grants_all _)).owners.subset
      ((World.recorded_removeEntity C _ _).2 _ _ h)
  | later hc _ ih =>
    intro w' ha
    obtain ⟨u, hu, hrest⟩ := (World.applyCommands_cons C).mp ha
    have heq := Option.some.inj (hc.symm.trans hu)
    obtain ⟨howner, hmem⟩ := ih (heq ▸ hrest)
    exact ⟨howner, by simp [hmem]⟩

theorem World.recorded_applyCommands {owner : SystemInvocation} {e : Entity} :
    ∀ (commands : List (Command α)) {w w' : World α}, Command.removeEntity e ∈ commands →
      w.applyCommands C owner commands = some w' → e ∈ w'.removedEntities
  | c :: commands, w, w', hmem, ha => by
    obtain ⟨u, hu, hrest⟩ := (applyCommands_cons C).mp ha
    rcases List.mem_cons.mp hmem with rfl | hmem
    · cases hu
      exact ((World.closed_grows C).applyCommands hrest (Permits.grants_all _)).entities.subset
        (World.recorded_removeEntity C w e).1
    · exact World.recorded_applyCommands commands hmem hrest

/-- The world right after the commands of an output, before the rest of its replacement. -/
theorem World.applyOutput_commands {w w' : World α} {output : SystemOutput α}
    (h : w.applyOutput C output false = some w') :
    ∃ applied, (w.takeDerivedOutputs output.owner).2.applyCommands C output.owner output.commands =
      some applied ∧ applied.Grows w' := by
  simp only [applyOutput, Option.bind_eq_bind, Option.bind_eq_some_iff, Option.pure_def,
    Option.some.injEq, Bool.false_eq_true, if_false] at h
  obtain ⟨applied, happly, flushed, hflush, rfl⟩ := h
  have hflushed := (closed_grows C).flushDerivedFrom hflush (fun _ _ => trivial) trivial
  have hstale := (closed_grows C).removeDerivedStale (o := output.owner)
    (flushed.finishDerivedSpawns output.owner) (w.outputs output.owner) fun _ _ => trivial
  exact ⟨applied, happly, hflushed.trans (hstale.start rfl rfl rfl)⟩

section Publish

variable {C} {s s' : State α}

variable {deferInserts : Bool}

theorem publishOutputs_frame : ∀ {outputs : List (SystemOutput α)} {s s' : State α},
    publishOutputs C s outputs deferInserts = some s' →
      s'.systems = s.systems ∧ s.world.Grows s'.world
  | [], s, s', h => by
    cases h
    exact ⟨rfl, World.Grows.of_eq rfl rfl rfl⟩
  | output :: outputs, s, s', h => by
    obtain ⟨w, hw, hrest⟩ := publishOutputs_cons h
    obtain ⟨hsys, hgrows⟩ := publishOutputs_frame hrest
    exact ⟨hsys, (World.grows_applyOutput C hw).trans hgrows⟩

theorem worlds_publishOutputs : ∀ {outputs : List (SystemOutput α)}
    {s s' : State α}, publishOutputs C s outputs deferInserts = some s' →
      outputs.foldlM (fun w output => w.applyOutput C output deferInserts) s.world = some s'.world
  | [], _, _, h => by
    cases h
    rfl
  | output :: outputs, s, s', h => by
    obtain ⟨u, hu, hrest⟩ := publishOutputs_cons h
    rw [List.foldlM_cons, hu]
    exact worlds_publishOutputs hrest

theorem publishOutputs_indexed : ∀ {outputs : List (SystemOutput α)} {s s' : State α},
    publishOutputs C s outputs deferInserts = some s' → (s.world.Indexed fun _ _ => False) →
      s'.world.Indexed fun _ _ => False
  | [], _, _, h, hi => by cases h; exact hi
  | _ :: _, _, _, h, hi => by
    obtain ⟨w, hw, hrest⟩ := publishOutputs_cons h
    exact publishOutputs_indexed hrest (hi.applyOutput C hw)

theorem publishOutputs_recorded {e : Entity} {outputs : List (SystemOutput α)}
    (h : publishOutputs C s outputs false = some s') {output : SystemOutput α}
    (ho : output ∈ outputs) (he : Command.removeEntity e ∈ output.commands) :
    e ∈ s'.world.removedEntities := by
  induction outputs generalizing s with
  | nil => cases ho
  | cons head outputs ih =>
    obtain ⟨w, hw, hrest⟩ := publishOutputs_cons h
    rcases List.mem_cons.mp ho with rfl | ho
    · obtain ⟨applied, happly, hgrows⟩ := World.applyOutput_commands C hw
      exact (publishOutputs_frame hrest).2.entities.subset
        (hgrows.entities.subset (World.recorded_applyCommands C _ he happly))
    · exact ih hrest ho

theorem RunEvicts.recorded {w : World α} {outputs : List (SystemOutput α)} {e : Entity}
    {o : SystemInvocation} (h : RunEvicts C w outputs e o) :
    ∀ {s s' : State α}, s.world = w → publishOutputs C s outputs false = some s' →
      o ∈ s'.world.removedOwners ∧ e ∈ s'.world.removedEntities := by
  induction h with
  | here h =>
    rintro s s' rfl hp
    obtain ⟨w, hw, hrest⟩ := publishOutputs_cons hp
    obtain ⟨applied, happly, hgrows⟩ := World.applyOutput_commands C hw
    obtain ⟨howner, hmem⟩ := h.recorded C happly
    have hframe := hgrows.trans (publishOutputs_frame hrest).2
    exact ⟨hframe.owners.subset howner,
      hframe.entities.subset (World.recorded_applyCommands C _ hmem happly)⟩
  | later ha _ ih =>
    rintro s s' rfl hp
    obtain ⟨w, hw, hrest⟩ := publishOutputs_cons hp
    exact ih (Option.some.inj (hw.symm.trans ha)) hrest

end Publish
end Porridge
