import Porridge.Lib.Arena
import Porridge.Query.Part

/-! Execution records of one phase and the counters that keep their accesses apart. -/
namespace Porridge

/-- The pairwise rule: one component, a write on either side, and a row in common. -/
def Access.conflicts (own other : Access) : Bool :=
  own.component == other.component && (own.kind == .write || other.kind == .write) &&
    match own.entity, other.entity with
    | some e, some e' => e == e'
    | _, _ => true

/-- Valid within the phase that admitted it. -/
abbrev RunId := SlotId

inductive Rejected where
  | duplicate
  | conflict (owner : SystemInvocation)
deriving DecidableEq, Repr

structure Counts where
  readers : Nat
  writers : Nat
deriving DecidableEq, Repr

namespace Counts

def any (c : Counts) : Bool := c.readers != 0 || c.writers != 0

def conflicts (c : Counts) : AccessKind → Bool
  | .read => c.writers != 0
  | .write => c.any

def add (c : Counts) : AccessKind → Counts
  | .read => { c with readers := c.readers + 1 }
  | .write => { c with writers := c.writers + 1 }

/-- A decrement below zero is an overflow and panics. -/
def remove (c : Counts) : AccessKind → Option Counts
  | .read => if c.readers = 0 then none else some { c with readers := c.readers - 1 }
  | .write => if c.writers = 0 then none else some { c with writers := c.writers - 1 }

end Counts

structure ResolvedAccess where
  component : Nat
  entity : Option Entity
  kind : AccessKind
deriving DecidableEq, Repr

structure ComponentAccess where
  total : Counts
  wholeStore : Counts
  rows : Dict Entity Counts
deriving DecidableEq

namespace ComponentAccess

def new : ComponentAccess := ⟨⟨0, 0⟩, ⟨0, 0⟩, ∅⟩

def conflicts (x : ComponentAccess) (a : ResolvedAccess) : Bool :=
  match a.entity with
  | none => x.total.conflicts a.kind
  | some e => x.wholeStore.conflicts a.kind || (x.rows.lookup e).any (·.conflicts a.kind)

def add (x : ComponentAccess) (a : ResolvedAccess) : ComponentAccess :=
  let x := { x with total := x.total.add a.kind }
  match a.entity with
  | some e => { x with rows := x.rows.insert e ((Dict.getD x.rows e ⟨0, 0⟩).add a.kind) }
  | none => { x with wholeStore := x.wholeStore.add a.kind }

/-- Release an access; a missing row panics. -/
def remove (x : ComponentAccess) (a : ResolvedAccess) : Option ComponentAccess := do
  let total ← x.total.remove a.kind
  match a.entity with
  | none => do
    let wholeStore ← x.wholeStore.remove a.kind
    some { x with total, wholeStore }
  | some e => do
    let row ← (← x.rows.lookup e).remove a.kind
    some { x with total, rows := if row.any then x.rows.insert e row else x.rows.erase e }

end ComponentAccess

/-- The component slots: the schema's first, then those met beside it. -/
structure Reservations.Components where
  schema : Dict TypeId Nat
  extra : Dict TypeId Nat
  slots : List ComponentAccess

namespace Reservations.Components

def new (schema : Dict TypeId Nat) : Reservations.Components :=
  ⟨schema, ∅, List.replicate schema.entries.length .new⟩

def slotOf (c : Reservations.Components) (t : TypeId) : Option Nat :=
  (c.schema.lookup t).or (c.extra.lookup t)

/-- Index an access; a component met for the first time gets a slot of its own. -/
def resolve (c : Reservations.Components) (a : Access) : ResolvedAccess × Reservations.Components :=
  match c.slotOf a.component with
  | some slot => (⟨slot, a.entity, a.kind⟩, c)
  | none =>
    (⟨c.slots.length, a.entity, a.kind⟩,
      { c with
        extra := c.extra.insert a.component c.slots.length
        slots := c.slots ++ [.new] })

def resolveAll (c : Reservations.Components) : List Access →
    List ResolvedAccess × Reservations.Components
  | [] => ([], c)
  | a :: rest =>
    let (resolved, c) := c.resolve a
    let (others, c) := c.resolveAll rest
    (resolved :: others, c)

/-- Whether one of the accesses conflicts; an index out of range panics. -/
def anyConflict (c : Reservations.Components) : List ResolvedAccess → Option Bool
  | [] => some false
  | a :: rest => do
    let x ← c.slots[a.component]?
    if x.conflicts a then some true else c.anyConflict rest

def add (c : Reservations.Components) (a : ResolvedAccess) : Option Reservations.Components := do
  let x ← c.slots[a.component]?
  some { c with slots := c.slots.set a.component (x.add a) }

def remove (c : Reservations.Components) (a : ResolvedAccess) :
    Option Reservations.Components := do
  let x ← c.slots[a.component]?
  let x ← x.remove a
  some { c with slots := c.slots.set a.component x }

end Reservations.Components

/-- An admitted invocation and what it reserves. -/
structure Record where
  owner : SystemInvocation
  accesses : List ResolvedAccess
  writer : Bool

structure Reservations where
  owners : Dict SystemInvocation RunId
  records : Arena Record
  components : Reservations.Components

namespace Reservations

/-- Slots and their generations are numbered by 32-bit words. -/
def slotLimit : Nat := 2 ^ 32

def new (schema : Dict TypeId Nat) : Reservations := ⟨∅, .empty, .new schema⟩

/-- Admit an invocation unless its owner is active or one of its accesses conflicts with an
active record; its own accesses are not held against each other. -/
def admitRun (r : Reservations) (owner : SystemInvocation) (accesses : List Access) :
    Option (Except Rejected RunId × Reservations) :=
  if owner ∈ r.owners then some (.error .duplicate, r)
  else do
    let (resolved, components) := r.components.resolveAll accesses
    if ← components.anyConflict resolved then
      some (.error (.conflict owner), { r with components })
    else do
      let components ← resolved.foldlM Components.add components
      let writer := resolved.any (·.kind == .write)
      let (id, records) ← r.records.insert slotLimit ⟨owner, resolved, writer⟩
      some (.ok id, ⟨r.owners.insert owner id, records, components⟩)

def contains (r : Reservations) (id : RunId) : Bool := (r.records.get id).isSome

def isWriter (r : Reservations) (id : RunId) : Option Bool := (r.records.get id).map Record.writer

/-- Release a record; an id that names none releases nothing. -/
def remove (r : Reservations) (id : RunId) : Option (Option SystemInvocation × Reservations) :=
  match r.records.remove slotLimit id with
  | none => some (none, r)
  | some (record, records) => do
    let components ← record.accesses.foldlM Components.remove r.components
    some (some record.owner, ⟨r.owners.erase record.owner, records, components⟩)

def cancelReaders (r : Reservations) : Option Reservations :=
  (r.records.idsWhere fun record => !record.writer).foldlM
    (fun r id => (r.remove id).map Prod.snd) r

end Reservations
end Porridge
