import Porridge.World.Outputs

/-! Buffered commands: derived writes of an invocation and base writes of callers. -/
namespace Porridge

/-- An operation produced by a system command buffer. -/
inductive Command (α : Type) where
  | insert (component : TypeId) (entity : Entity) (value : Value α)
  /-- A bundle on an entity reserved at buffer time. -/
  | spawn (bundle : List (TypeId × Value α)) (reserved : Entity)
  | removeEntity (entity : Entity)
  | removeComponent (component : TypeId) (entity : Entity)
deriving DecidableEq

/-- An operation queued by an external caller. -/
inductive BaseCommand (α : Type) where
  | insert (component : TypeId) (entity : Entity) (value : Value α)
  | removeComponent (component : TypeId) (entity : Entity)
  | despawn (entity : Entity)
deriving DecidableEq

/-- The commands one invocation buffered. -/
structure SystemOutput (α : Type) where
  owner : SystemInvocation
  commands : List (Command α)
deriving DecidableEq

variable {α : Type} (C : Components α)

namespace World

def insertBundle (w : World α) (e : Entity) (bundle : List (TypeId × Value α))
    (o : SystemInvocation) : Option (World α) :=
  bundle.foldlM (fun w p => w.insert C p.1 e p.2 (some o)) w

/-- The singleton key of a bundle; two singleton markers are refused with a panic. -/
def bundleSingletonKey (bundle : List (TypeId × Value α)) : Option (Option TypeId) :=
  match bundle.filterMap fun p => C.singletonKey p.1 with
  | [] => some none
  | [key] => some (some key)
  | _ => none

def spawnTarget (w : World α) (reserved : Entity) : Option TypeId → Entity × World α
  | none => (reserved, w)
  | some key => w.singletonEntityOrRegister key reserved

end World

namespace Command

/-- Whether a `Settle` commit holds the operation back for the next run. -/
def defersAtSettle : Command α → Bool
  | insert .. | spawn .. => true
  | removeEntity .. | removeComponent .. => false

/-- Apply the operation as a derived write owned by `o`. -/
def apply (w : World α) (o : SystemInvocation) : Command α → Option (World α)
  | insert t e v => w.insert C t e v (some o)
  | spawn bundle reserved => do
    let key ← World.bundleSingletonKey C bundle
    let (e, w) := w.spawnTarget reserved key
    (w.recordDerivedSpawn o e).insertBundle C e bundle o
  | removeEntity e => some (w.removeEntity C e)
  | removeComponent t e => some (w.removeComponent C t e (some o))

end Command

namespace BaseCommand

def apply (w : World α) : BaseCommand α → Option (World α)
  | insert t e v => w.insert C t e v none
  | removeComponent t e => some (w.removeComponent C t e none)
  | despawn e => some (w.removeEntity C e)

end BaseCommand

namespace World

def applyCommands (w : World α) (o : SystemInvocation) (commands : List (Command α)) :
    Option (World α) :=
  commands.foldlM (fun w c => c.apply C w o) w

theorem applyCommands_cons {w w' : World α} {o : SystemInvocation} {c : Command α}
    {commands : List (Command α)} :
    w.applyCommands C o (c :: commands) = some w' ↔
      ∃ u, c.apply C w o = some u ∧ u.applyCommands C o commands = some w' := by
  simp [applyCommands, List.foldlM_cons, Option.bind_eq_some_iff]

def applyBase (w : World α) (commands : List (BaseCommand α)) : Option (World α) :=
  commands.foldlM (fun w c => c.apply C w) w

/-- Apply one output of a commit, replacing what its owner emitted before. With `deferInserts`
the inserts and spawns are left out; the caller keeps them for the next run. -/
def applyOutput (w : World α) (output : SystemOutput α) (deferInserts : Bool) :
    Option (World α) := do
  let (previous, taken) := w.takeDerivedOutputs output.owner
  let immediate :=
    if deferInserts then output.commands.filter (!·.defersAtSettle) else output.commands
  let applied ← taken.applyCommands C output.owner immediate
  let flushed ← applied.flushDerivedFrom C
  return (flushed.finishDerivedSpawns output.owner).removeDerivedStale C output.owner previous

/-- What a `Settle` commit keeps of an output for the next run. -/
def deferredOutput (output : SystemOutput α) : Option (SystemOutput α) :=
  match output.commands.filter Command.defersAtSettle with
  | [] => none
  | commands => some { output with commands }

end World

def SystemOutput.immediate (output : SystemOutput α) (deferInserts : Bool) : List (Command α) :=
  if deferInserts then output.commands.filter (!·.defersAtSettle) else output.commands

theorem mem_immediate {output : SystemOutput α} {deferInserts : Bool} {c : Command α}
    (hc : c ∈ output.immediate deferInserts) : c ∈ output.commands := by
  unfold SystemOutput.immediate at hc
  split_ifs at hc
  · exact (List.mem_filter.mp hc).1
  · exact hc

variable {C} in
/-- The worlds on the way of an output: its buffer has been applied, and then it has been flushed. -/
theorem exists_of_applyOutput {w w' : World α} {output : SystemOutput α} {deferInserts : Bool}
    (h : w.applyOutput C output deferInserts = some w') : ∃ applied flushed,
      (w.takeDerivedOutputs output.owner).2.applyCommands C output.owner
        (output.immediate deferInserts) = some applied ∧
      applied.flushDerivedFrom C = some flushed ∧
      w' = (flushed.finishDerivedSpawns output.owner).removeDerivedStale C output.owner
        (w.outputs output.owner) := by
  unfold World.applyOutput at h
  simp only [Option.bind_eq_bind, Option.bind_eq_some_iff] at h
  obtain ⟨applied, happlied, flushed, hflushed, hw'⟩ := h
  cases hw'
  exact ⟨applied, flushed, happlied, hflushed, rfl⟩

end Porridge
