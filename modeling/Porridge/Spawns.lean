import Porridge.World.Trims

/-! Entity ids of spawned outputs: buffers reserve them from the slot table of their owner, and
commits record them there. -/
namespace Porridge

/-- The command buffer of an invocation in flight, with its copy of the owner's slots. -/
structure Flight (α : Type) where
  owner : SystemInvocation
  slots : List Entity
  /-- Which of the slots singleton spawns filled; nothing reads it. -/
  kinds : List Bool
  cursor : Nat
  commands : List (Command α)
deriving DecidableEq

/-- The world with the buffers in flight and the deferred outputs of settle systems. What singleton
spawns filled and what the last accepted runs spawned is a record that no step reads. -/
structure Spawns (α : Type) where
  world : World α
  flights : List (Flight α)
  waiting : List (SystemOutput α)
  kinds : SystemInvocation → List Bool
  last : SystemInvocation → List Seat

inductive SpawnsOp (α : Type) where
  /-- An invocation starts with a copy of its slots. -/
  | new (owner : SystemInvocation)
  | spawn (flight : Nat) (bundle : List (TypeId × Value α))
  | push (flight : Nat) (command : Command α)
  | commit (flight : Nat)
  | discard (flight : Nat)
  /-- The deferred outputs land; no run of an earlier evaluation is in flight any more. -/
  | start
  | world (op : WorldOp α)
deriving DecidableEq

variable {α : Type}

/-- The slots of an owner, each with the kind of spawn that filled it. -/
def seatTable (w : World α) (kinds : SystemInvocation → List Bool) (o : SystemInvocation) :
    List Seat := List.zipWith Seat.mk (w.slots o) (kinds o)

namespace Flight

variable (f : Flight α)

def table : List Seat := List.zipWith Seat.mk f.slots f.kinds

def output : SystemOutput α := ⟨f.owner, f.commands⟩

def push (c : Command α) : Flight α := { f with commands := f.commands ++ [c] }

def spawn (bundle : List (TypeId × Value α)) (reserved : Entity) : Flight α :=
  { f with cursor := f.cursor + 1, commands := f.commands ++ [.spawn bundle reserved] }

/-- The entity of the next spawn: the next slot, or a fresh id. -/
def reserve (w : World α) : Entity × World α :=
  match f.slots[f.cursor]? with
  | some e => (e, w)
  | none => w.spawnEmpty

end Flight

namespace Spawns

variable (C : Components α) (settle : SystemId → Bool)

section Steps

/-- The kinds of the slots once the spawns of an output filled the first of them. -/
def record (kinds : SystemInvocation → List Bool) (output : SystemOutput α) :
    SystemInvocation → List Bool :=
  let filled := (seats C output.commands).map Seat.singleton
  Function.update kinds output.owner (filled ++ (kinds output.owner).drop filled.length)

def trim (kinds : SystemInvocation → List Bool) (w : World α) : SystemInvocation → List Bool :=
  fun o => (kinds o).take (w.slots o).length

def commit (s : Spawns α) (i : Nat) (f : Flight α) : Option (Spawns α) :=
  (s.world.applyOutput C f.output (settle f.owner.system)).map fun world =>
    { world
      flights := s.flights.eraseIdx i
      waiting := s.waiting ++
        if settle f.owner.system = true then (World.deferredOutput f.output).toList else []
      kinds := trim (if settle f.owner.system = true then s.kinds else record C s.kinds f.output) world
      last := Function.update s.last f.owner (seats C f.commands) }

/-- A deferred output lands as ordinary owned writes. -/
def land (w : World α) (output : SystemOutput α) : Option (World α) :=
  w.applyCommands C output.owner output.commands

def start (s : Spawns α) : Option (Spawns α) :=
  (s.waiting.foldlM (land C) s.world).map fun world => { s with
    world, flights := [], waiting := [], kinds := s.waiting.foldl (record C) s.kinds }

/-- A use of the world outside a commit; a retired owner starts over. -/
def use (s : Spawns α) (op : WorldOp α) : Option (Spawns α) :=
  if op.uncommitted = true then (s.world.apply C op).map fun world => { s with
    world, kinds := trim s.kinds world
    last := fun o => if o ∈ op.forgets s.world then [] else s.last o }
  else none

def step (s : Spawns α) : SpawnsOp α → Option (Spawns α)
  | .new o => some { s with flights := s.flights ++ [⟨o, s.world.slots o, s.kinds o, 0, []⟩] }
  | .spawn i bundle => s.flights[i]?.map fun f => { s with
      world := (f.reserve s.world).2
      flights := s.flights.set i (f.spawn bundle (f.reserve s.world).1) }
  | .push i c =>
    if c.isSpawn = true then none
    else s.flights[i]?.map fun f => { s with flights := s.flights.set i (f.push c) }
  | .commit i => s.flights[i]?.bind (s.commit C settle i)
  | .discard i => s.flights[i]?.map fun _ => { s with flights := s.flights.eraseIdx i }
  | .start => s.start C
  | .world op => s.use C op

def machine : Machine (Spawns α) (SpawnsOp α) where
  init s := (∃ schema, s.world = .ofSchema schema) ∧ s.flights = [] ∧ s.waiting = [] ∧
    s.kinds = (fun _ => []) ∧ s.last = fun _ => []
  step := step C settle

abbrev Reachable : Spawns α → Prop := (machine C settle).Reachable

end Steps

section Identity

/-- The `k`th seat of an owner: in its slots, in a copy of them, or of a buffered spawn. -/
inductive Sits (s : Spawns α) (o : SystemInvocation) (k : Nat) (seat : Seat) : Prop where
  | slot (h : (seatTable s.world s.kinds o)[k]? = some seat)
  | copy {f : Flight α} (hf : f ∈ s.flights) (ho : f.owner = o) (h : f.table[k]? = some seat)
  | reserved {f : Flight α} (hf : f ∈ s.flights) (ho : f.owner = o)
      (h : (seats C f.commands)[k]? = some seat)
  | waiting {output : SystemOutput α} (hw : output ∈ s.waiting) (ho : output.owner = o)
      (h : (seats C output.commands)[k]? = some seat)

/-- The entities that ordinary spawns hold or may be handed. -/
def inPlay (s : Spawns α) : List Entity :=
  (s.world.derivedSpawns.keys.flatMap (seatTable s.world s.kinds) ++
    s.flights.flatMap (fun f => f.table ++ seats C f.commands) ++
    s.waiting.flatMap fun output => seats C output.commands).filterMap fun seat =>
      if seat.singleton = true then none else some seat.entity

/-- No ordinary spawn of the buffer lands on a registered entity. -/
def Vacant (o : SystemInvocation) (w : World α) (commands : List (Command α)) : Prop :=
  ∀ before bundle reserved after u key,
    commands = before ++ Command.spawn bundle reserved :: after →
    Command.ordinary C bundle = true → w.applyCommands C o before = some u →
      u.registry key ≠ some reserved

structure Identified (s : Spawns α) : Prop where
  /-- A run is handed what the last accepted run of its invocation was. -/
  repeated : ∀ f ∈ s.flights, ∀ (k : Nat) (e e' : Entity),
    (s.last f.owner)[k]? = some ⟨e, false⟩ → (seats C f.commands)[k]? = some ⟨e', false⟩ → e' = e
  remembered : ∀ o (k : Nat) (e : Entity), (s.last o)[k]? = some ⟨e, false⟩ → s.Sits C o k ⟨e, false⟩
  /-- Two ordinary spawns, of one invocation or of two, have two entities. -/
  distinct : ∀ o o' k k' e, s.Sits C o k ⟨e, false⟩ → s.Sits C o' k' ⟨e, false⟩ →
    o = o' ∧ k = k'
  unregistered : ∀ o k e, s.Sits C o k ⟨e, false⟩ → ∀ key, s.world.registry key ≠ some e
  committed : ∀ f ∈ s.flights, Vacant C f.owner (s.world.takeDerivedOutputs f.owner).2
    (f.output.immediate (settle f.owner.system))
  started : ∀ before output after w, s.waiting = before ++ output :: after →
    before.foldlM (land C) s.world = some w → Vacant C output.owner w output.commands

/-- No ordinary spawn takes a slot that a singleton spawn filled; an invocation is in flight once,
and spawns nothing while its deferred spawns wait; only known entities that no ordinary spawn
holds are marked as singletons. -/
def Orderly (s : Spawns α) : SpawnsOp α → Prop
  | .new o => ∀ f ∈ s.flights, f.owner ≠ o
  | .spawn i bundle => ∀ f ∈ s.flights[i]?,
      (Command.ordinary C bundle = true → f.kinds[f.cursor]? ≠ some true) ∧
      ∀ output ∈ s.waiting, output.owner = f.owner → seats C output.commands = []
  | .push _ (.insert t e _) | .world (.base (.insert t e _)) =>
    C.singletonKey t ≠ none → e < s.world.nextEntity ∧ e ∉ s.inPlay C
  | _ => True

instance (s : Spawns α) (op : SpawnsOp α) : Decidable (s.Orderly C op) := by
  unfold Orderly
  split <;> infer_instance

end Identity
end Spawns
end Porridge
