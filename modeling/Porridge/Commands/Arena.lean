import Porridge.Component

/-! Command queues: payloads in a bump arena, owned through a cursor over raw entries. -/
namespace Porridge

/-- An operation as a queue holds it: derived from a system, or a base input. -/
inductive Operation (δ β : Type) where
  | derived (command : δ)
  | base (command : β)
deriving DecidableEq

/-- What commands do to a world; a call that unwinds leaves the world as it was then, with
`false`. -/
structure CommandOps (δ β σ : Type) where
  apply : δ → σ → SystemInvocation → σ × Bool
  defersAtSettle : δ → Bool
  applyBase : β → σ → σ × Bool

namespace Operation

variable {δ β σ : Type} (K : CommandOps δ β σ)

/-- A derived command needs an invocation, and panics without one. -/
def apply (world : σ) (owner : Option SystemInvocation) : Operation δ β → σ × Bool
  | derived command =>
    match owner with
    | some o => K.apply command world o
    | none => (world, false)
  | base command => K.applyBase command world

def deferred : Operation δ β → Bool
  | derived command => K.defersAtSettle command
  | base _ => false

end Operation

/-- What a queue keeps of an operation beside its payload; the consumer is that of the payload's
type. -/
structure CommandEntry where
  pointer : Nat
  deferred : Bool
deriving DecidableEq

/-- The allocations of an arena in order, `none` once a payload has been read out; the entries
before the cursor are consumed. -/
structure CommandStorage (ω : Type) where
  arena : List (Option ω)
  entries : List CommandEntry
  cursor : Nat
deriving DecidableEq

/-- A queue handle; `returns` is the pool that its storage goes back to. -/
structure CommandQueue (ω : Type) where
  storage : Option (CommandStorage ω)
  returns : Option Nat
deriving DecidableEq

/-- The storages sent back, in order, and those collected from there. -/
structure CommandPool (ω : Type) where
  returned : List (CommandStorage ω)
  free : List (CommandStorage ω)
deriving DecidableEq

namespace CommandStorage

variable {ω : Type}

def new : CommandStorage ω := ⟨[], [], 0⟩

/-- The number of entries that are left. -/
def remaining (s : CommandStorage ω) : Nat := s.entries.length - s.cursor

/-- Step over the entry at the cursor and read its payload out. `none` stands for an index out of
range or for a payload that is no longer there, which the code would read all the same. -/
def consume (s : CommandStorage ω) : Option (ω × CommandStorage ω) := do
  let entry ← s.entries[s.cursor]?
  let payload ← (s.arena[entry.pointer]?).join
  some (payload, { s with arena := s.arena.set entry.pointer none, cursor := s.cursor + 1 })

/-- Discard as many entries as the loop finds left. -/
def discard : Nat → CommandStorage ω → Option (List ω × CommandStorage ω)
  | 0, s => some ([], s)
  | n + 1, s => do
    let (payload, s) ← s.consume
    let (payloads, s) ← discard n s
    some (payload :: payloads, s)

/-- Discard what is left; then the arena is reset with whatever it still holds. -/
def clear (s : CommandStorage ω) : Option (List ω × CommandStorage ω) := do
  let (payloads, _) ← s.discard s.remaining
  some (payloads, new)

/-- The payloads that are left. -/
def held (s : CommandStorage ω) : List ω :=
  (s.entries.drop s.cursor).filterMap fun entry => (s.arena[entry.pointer]?).join

def push (deferred : ω → Bool) (s : CommandStorage ω) (value : ω) : CommandStorage ω :=
  { s with
    arena := s.arena ++ [some value]
    entries := s.entries ++ [⟨s.arena.length, deferred value⟩] }

/-- The entries that are left own the listed payloads, each its own allocation. -/
structure Holds (deferred : ω → Bool) (s : CommandStorage ω) (payloads : List ω) : Prop where
  cursor : s.cursor ≤ s.entries.length
  owns : List.Forall₂ (fun entry payload => s.arena[entry.pointer]? = some (some payload) ∧
    entry.deferred = deferred payload) (s.entries.drop s.cursor) payloads
  distinct : ((s.entries.drop s.cursor).map CommandEntry.pointer).Nodup

variable {deferred : ω → Bool} {s : CommandStorage ω} {payload : ω} {payloads : List ω}

theorem clear_new : (new : CommandStorage ω).clear = some ([], new) := rfl

theorem holds_new : (new : CommandStorage ω).Holds deferred [] where
  cursor := le_rfl
  owns := .nil
  distinct := List.nodup_nil

namespace Holds

theorem remaining_eq (h : s.Holds deferred payloads) : s.remaining = payloads.length := by
  have hlength := h.owns.length_eq
  rw [List.length_drop] at hlength
  exact hlength

theorem held_eq (h : s.Holds deferred payloads) : s.held = payloads := by
  obtain ⟨-, howns, -⟩ := h
  unfold held
  generalize s.entries.drop s.cursor = entries at howns
  induction howns with
  | nil => rfl
  | @cons entry payload entries payloads hpayload _ ih =>
    have hread : (s.arena[entry.pointer]?).join = some payload := by
      rw [hpayload.1]
      rfl
    rw [List.filterMap_cons, hread, ih]

/-- Reading a payload out leaves every other allocation that an entry points to. -/
theorem consume (h : s.Holds deferred (payload :: payloads)) : ∃ entry s',
    s.entries[s.cursor]? = some entry ∧ entry.deferred = deferred payload ∧
      s.consume = some (payload, s') ∧ s'.Holds deferred payloads := by
  obtain ⟨hcursor, howns, hdistinct⟩ := h
  generalize hleft : s.entries.drop s.cursor = left at howns hdistinct
  cases howns with
  | @cons entry _ rest _ hentry hrest =>
    have hhead : s.entries[s.cursor]? = some entry := by
      have hat : (s.entries.drop s.cursor)[0]? = some entry := by rw [hleft]; rfl
      rwa [List.getElem?_drop, Nat.add_zero] at hat
    have hbound : s.cursor < s.entries.length := (List.getElem?_eq_some_iff.mp hhead).1
    have htail : s.entries.drop (s.cursor + 1) = rest := by
      rw [← List.tail_drop, hleft]
      rfl
    obtain ⟨hfresh, hdistinct⟩ := List.nodup_cons.mp hdistinct
    refine ⟨entry, { s with arena := s.arena.set entry.pointer none, cursor := s.cursor + 1 },
      hhead, hentry.2, ?_, hbound, ?_, ?_⟩
    · unfold CommandStorage.consume
      simp [hhead, hentry.1]
    · show List.Forall₂ _ (s.entries.drop (s.cursor + 1)) payloads
      rw [htail]
      have hkept : ∀ other ∈ rest, other.pointer ≠ entry.pointer := fun other hother heq =>
        hfresh (heq ▸ List.mem_map_of_mem hother)
      refine List.forall₂_iff_zip.mpr ⟨hrest.length_eq, fun {a b} hmem => ?_⟩
      have hab := (List.forall₂_iff_zip.mp hrest).2 hmem
      refine ⟨?_, hab.2⟩
      rw [List.getElem?_set_ne (hkept a (List.of_mem_zip hmem).1).symm]
      exact hab.1
    · show ((s.entries.drop (s.cursor + 1)).map _).Nodup
      rw [htail]
      exact hdistinct

theorem push (h : s.Holds deferred payloads) (value : ω) :
    (s.push deferred value).Holds deferred (payloads ++ [value]) := by
  have hleft : (s.push deferred value).entries.drop s.cursor =
      s.entries.drop s.cursor ++ [⟨s.arena.length, deferred value⟩] :=
    List.drop_append_of_le_length h.cursor
  have hlive : ∀ entry ∈ s.entries.drop s.cursor, entry.pointer < s.arena.length := by
    intro entry hentry
    obtain ⟨i, hi, hget⟩ := List.getElem_of_mem hentry
    have howns := (List.forall₂_iff_get.mp h.owns).2 i hi (h.owns.length_eq ▸ hi)
    rw [List.get_eq_getElem, hget] at howns
    exact (List.getElem?_eq_some_iff.mp howns.1).1
  refine ⟨?_, ?_, ?_⟩
  · show s.cursor ≤ (s.entries ++ [_]).length
    rw [List.length_append]
    exact Nat.le_add_right_of_le h.cursor
  · show List.Forall₂ _ ((s.push deferred value).entries.drop s.cursor) _
    rw [hleft]
    refine List.rel_append ?_ (.cons ⟨?_, rfl⟩ .nil)
    · refine List.forall₂_iff_zip.mpr ⟨h.owns.length_eq, fun {a b} hmem => ?_⟩
      have hab := (List.forall₂_iff_zip.mp h.owns).2 hmem
      refine ⟨?_, hab.2⟩
      show (s.arena ++ [some value])[a.pointer]? = some (some b)
      rw [List.getElem?_append_left (hlive a (List.of_mem_zip hmem).1)]
      exact hab.1
    · exact List.getElem?_concat_length
  · show (((s.push deferred value).entries.drop s.cursor).map _).Nodup
    rw [hleft, List.map_append]
    refine List.Nodup.append h.distinct (List.nodup_singleton _) ?_
    intro pointer hpointer hnew
    obtain ⟨entry, hentry, rfl⟩ := List.mem_map.mp hpointer
    have heq : entry.pointer = s.arena.length := List.mem_singleton.mp hnew
    exact absurd (hlive entry hentry) (by omega)

theorem discard : ∀ {payloads : List ω} {s : CommandStorage ω}, s.Holds deferred payloads →
    ∃ s', s.discard payloads.length = some (payloads, s')
  | [], s, _ => ⟨s, rfl⟩
  | payload :: payloads, s, h => by
    obtain ⟨_, s₁, -, -, hconsume, h₁⟩ := h.consume
    obtain ⟨s', hrest⟩ := discard h₁
    refine ⟨s', ?_⟩
    show (s.consume.bind fun x => _) = _
    rw [hconsume]
    show ((s₁.discard payloads.length).bind fun x => _) = _
    rw [hrest]
    rfl

theorem clear (h : s.Holds deferred payloads) : s.clear = some (payloads, new) := by
  obtain ⟨s', hdiscard⟩ := h.discard
  unfold CommandStorage.clear
  rw [h.remaining_eq, hdiscard]
  rfl

end Holds
end CommandStorage

namespace CommandQueue

variable {ω : Type}

def push (deferred : ω → Bool) (q : CommandQueue ω) (value : ω) : CommandQueue ω :=
  { q with storage := some ((q.storage.getD .new).push deferred value) }

def len (q : CommandQueue ω) : Nat := (q.storage.map CommandStorage.remaining).getD 0

def held (q : CommandQueue ω) : List ω := (q.storage.map CommandStorage.held).getD []

/-- The loop of `append`: every entry moves. -/
def appendAll (deferred : ω → Bool) : Nat → CommandQueue ω → CommandStorage ω →
    Option (List ω × CommandQueue ω × CommandStorage ω)
  | 0, target, s => some ([], target, s)
  | n + 1, target, s => do
    let (payload, s) ← s.consume
    let (payloads, target, s) ← appendAll deferred n (target.push deferred payload) s
    some (payload :: payloads, target, s)

/-- What a call that drains a queue did: the operations that left it, each with whether it moved,
and those that the guard discarded. -/
structure Drained (σ ω : Type) where
  world : σ
  source : CommandQueue ω
  target : Option (CommandQueue ω)
  consumed : List (ω × Bool)
  discarded : List ω
  completed : Bool
deriving DecidableEq

/-- The payloads moved, the target, and the source once the guard has cleared it. -/
def append (deferred : ω → Bool) (target other : CommandQueue ω) :
    Option (List ω × List ω × CommandQueue ω × CommandQueue ω) :=
  match other.storage with
  | none => some ([], [], target, other)
  | some s => do
    let (moved, target, s) ← appendAll deferred s.remaining target s
    let (discarded, s) ← s.clear
    some (moved, discarded, target, { other with storage := some s })

section Apply

variable {δ β σ : Type} (K : CommandOps δ β σ)

/-- The loop of `apply_or_defer`; an operation that unwinds leaves it. -/
def drain (owner : Option SystemInvocation) : Nat → σ → CommandStorage (Operation δ β) →
    Option (CommandQueue (Operation δ β)) → Option (σ × CommandStorage (Operation δ β) ×
      Option (CommandQueue (Operation δ β)) × List (Operation δ β × Bool) × Bool)
  | 0, world, s, target => some (world, s, target, [], true)
  | n + 1, world, s, target => do
    let entry ← s.entries[s.cursor]?
    let (op, s) ← s.consume
    match entry.deferred, target with
    | true, some queue => do
      let (world, s, target, consumed, completed) ←
        drain owner n world s (some (queue.push (Operation.deferred K) op))
      some (world, s, target, (op, true) :: consumed, completed)
    | _, target =>
      match op.apply K world owner with
      | (world, true) => do
        let (world, s, target, consumed, completed) ← drain owner n world s target
        some (world, s, target, (op, false) :: consumed, completed)
      | (world, false) => some (world, s, target, [(op, false)], false)

/-- The guard clears the storage on every way out. -/
def applyOrDefer (q : CommandQueue (Operation δ β)) (world : σ) (owner : Option SystemInvocation)
    (target : Option (CommandQueue (Operation δ β))) : Option (Drained σ (Operation δ β)) :=
  match q.storage with
  | none => some ⟨world, q, target, [], [], true⟩
  | some s => do
    let (world, s, target, consumed, completed) ← drain K owner s.remaining world s target
    let (discarded, s) ← s.clear
    some ⟨world, { q with storage := some s }, target, consumed, discarded, completed⟩

def apply (q : CommandQueue (Operation δ β)) (world : σ) (owner : Option SystemInvocation) :
    Option (Drained σ (Operation δ β)) :=
  q.applyOrDefer K world owner none

end Apply

/-- Drop the handle: what it discards, what its storage discards when it is dropped in turn, and
the pool, when it is still there, with the storage it gets back. -/
def drop (q : CommandQueue ω) (pool : Option (CommandPool ω)) :
    Option (List ω × List ω × Option (CommandPool ω)) :=
  match q.storage with
  | none => some ([], [], pool)
  | some s => do
    let (discarded, s) ← s.clear
    match q.returns, pool with
    | some _, some p => some (discarded, [], some { p with returned := p.returned ++ [s] })
    | _, pool => do
      let (again, _) ← s.clear
      some (discarded, again, pool)

end CommandQueue

namespace CommandPool

variable {ω : Type}

def new : CommandPool ω := ⟨[], []⟩

/-- Collect what was sent back and lease the last free storage, or none. -/
def take (p : CommandPool ω) (name : Nat) : CommandQueue ω × CommandPool ω :=
  let free := p.free ++ p.returned
  (⟨free.getLast?, some name⟩, ⟨[], free.dropLast⟩)

/-- The storages of a pool are dropped with it; each discards what it holds. -/
def drop (p : CommandPool ω) : Option (List ω) :=
  (p.free ++ p.returned).foldlM
    (fun discarded s => s.clear.map fun x => discarded ++ x.1) []

end CommandPool

/-- What a drain does to the operations that a queue holds: those consumed, each with whether it
moved, those left, and whether the drain came to its end. -/
def drainAll {δ β σ : Type} (K : CommandOps δ β σ) (owner : Option SystemInvocation)
    (defers : Bool) : σ → List (Operation δ β) →
      σ × List (Operation δ β × Bool) × List (Operation δ β) × Bool
  | world, [] => (world, [], [], true)
  | world, op :: ops =>
    if op.deferred K && defers then
      let (world, consumed, left, completed) := drainAll K owner defers world ops
      (world, (op, true) :: consumed, left, completed)
    else
      match op.apply K world owner with
      | (world, true) =>
        let (world, consumed, left, completed) := drainAll K owner defers world ops
        (world, (op, false) :: consumed, left, completed)
      | (world, false) => (world, [(op, false)], ops, false)

/-- The operations among those consumed that moved, or that were applied. -/
def sortedOut {ω : Type} (moved : Bool) (consumed : List (ω × Bool)) : List ω :=
  (consumed.filter fun x => x.2 == moved).map Prod.fst

namespace CommandQueue

variable {ω : Type} {deferred : ω → Bool}

def Holds (deferred : ω → Bool) (q : CommandQueue ω) (payloads : List ω) : Prop :=
  match q.storage with
  | none => payloads = []
  | some s => s.Holds deferred payloads

namespace Holds

variable {q target : CommandQueue ω} {payloads held : List ω}

theorem held_eq (h : q.Holds deferred payloads) : q.held = payloads := by
  obtain ⟨storage, returns⟩ := q
  cases storage with
  | none => exact Eq.symm h
  | some s => exact CommandStorage.Holds.held_eq h

theorem len_eq (h : q.Holds deferred payloads) : q.len = payloads.length := by
  obtain ⟨storage, returns⟩ := q
  cases storage with
  | none =>
    have hnone : payloads = [] := h
    rw [hnone]
    rfl
  | some s => exact CommandStorage.Holds.remaining_eq h

theorem push (h : q.Holds deferred payloads) (value : ω) :
    (q.push deferred value).Holds deferred (payloads ++ [value]) := by
  obtain ⟨storage, returns⟩ := q
  cases storage with
  | none =>
    have hnone : payloads = [] := h
    rw [hnone]
    exact CommandStorage.holds_new.push value
  | some s => exact CommandStorage.Holds.push h value

theorem appendAll : ∀ {payloads held : List ω} {s : CommandStorage ω} {target : CommandQueue ω},
    s.Holds deferred payloads → target.Holds deferred held → ∃ target' s',
      appendAll deferred payloads.length target s = some (payloads, target', s') ∧
        target'.Holds deferred (held ++ payloads) ∧ target'.returns = target.returns ∧
          s'.Holds deferred []
  | [], held, s, target, h, ht => ⟨target, s, rfl, by rwa [List.append_nil], rfl, h⟩
  | payload :: payloads, held, s, target, h, ht => by
    obtain ⟨_, s₁, -, -, hconsume, h₁⟩ := h.consume
    obtain ⟨target', s', hrest, ht', hreturns, hs'⟩ := appendAll h₁ (ht.push payload)
    rw [List.append_assoc] at ht'
    refine ⟨target', s', ?_, ht', hreturns, hs'⟩
    show (s.consume.bind fun x => _) = _
    rw [hconsume]
    show ((CommandQueue.appendAll deferred payloads.length (target.push deferred payload) s₁).bind
      fun x => _) = _
    rw [hrest]
    rfl

/-- Everything the other queue held moves behind what the target held. -/
theorem append (h : q.Holds deferred payloads) (ht : target.Holds deferred held) :
    ∃ target' q', target.append deferred q = some (payloads, [], target', q') ∧
      target'.Holds deferred (held ++ payloads) ∧ q'.Holds deferred [] ∧
        target'.returns = target.returns ∧ q'.returns = q.returns := by
  obtain ⟨storage, returns⟩ := q
  cases storage with
  | none =>
    have hnone : payloads = [] := h
    rw [hnone, List.append_nil]
    exact ⟨target, _, rfl, ht, rfl, rfl, rfl⟩
  | some s =>
    have hs : s.Holds deferred payloads := h
    obtain ⟨target', s', hrun, ht', hreturns, hs'⟩ := appendAll hs ht
    refine ⟨target', ⟨some .new, returns⟩, ?_, ht', CommandStorage.holds_new, hreturns, rfl⟩
    show ((CommandQueue.appendAll deferred s.remaining target s).bind fun x => _) = _
    rw [hs.remaining_eq, hrun]
    show (s'.clear.bind fun x => _) = _
    rw [hs'.clear]
    rfl

/-- A handle that goes gives its storage back cleared, and discards what it owned once. -/
theorem drop (h : q.Holds deferred payloads) (pool : Option (CommandPool ω)) :
    ∃ pool', q.drop pool = some (payloads, [], pool') ∧
      (pool' = pool ∨ ∃ p, pool = some p ∧ pool' = some { p with returned := p.returned ++ [.new] }) := by
  obtain ⟨storage, returns⟩ := q
  cases storage with
  | none =>
    have hnone : payloads = [] := h
    rw [hnone]
    exact ⟨pool, rfl, .inl rfl⟩
  | some s =>
    have hclear : s.clear = some (payloads, .new) := CommandStorage.Holds.clear h
    have hagain : (CommandStorage.new : CommandStorage ω).clear = some ([], .new) :=
      CommandStorage.clear_new
    unfold CommandQueue.drop
    cases returns with
    | none =>
      refine ⟨pool, ?_, .inl rfl⟩
      simp [hclear, hagain]
    | some name =>
      cases pool with
      | none =>
        refine ⟨none, ?_, .inl rfl⟩
        simp [hclear, hagain]
      | some p =>
        refine ⟨some { p with returned := p.returned ++ [.new] }, ?_, .inr ⟨p, rfl, rfl⟩⟩
        simp [hclear]

end Holds

end CommandQueue

namespace CommandPool

variable {ω : Type} {p : CommandPool ω}

/-- Every storage of the pool is as good as new. -/
def Cleared (p : CommandPool ω) : Prop := ∀ s ∈ p.free ++ p.returned, s = .new

theorem Cleared.take (h : p.Cleared) (deferred : ω → Bool) (name : Nat) :
    (p.take name).1.Holds deferred [] ∧ (p.take name).2.Cleared := by
  constructor
  · show CommandQueue.Holds deferred ⟨(p.free ++ p.returned).getLast?, some name⟩ []
    cases hlast : (p.free ++ p.returned).getLast? with
    | none => exact rfl
    | some storage =>
      rw [h storage (List.mem_of_getLast? hlast)]
      exact CommandStorage.holds_new
  · intro s hs
    have hmem : s ∈ (p.free ++ p.returned).dropLast := by rwa [← List.append_nil (List.dropLast _)]
    exact h s (List.dropLast_subset _ hmem)

theorem Cleared.drop (h : p.Cleared) : p.drop = some [] := by
  unfold CommandPool.drop
  unfold Cleared at h
  generalize p.free ++ p.returned = storages at h
  induction storages with
  | nil => rfl
  | cons s storages ih =>
    rw [List.foldlM_cons, h s List.mem_cons_self, CommandStorage.clear_new]
    exact ih fun other hother => h other (List.mem_cons_of_mem _ hother)

end CommandPool

namespace CommandQueue

section Apply

variable {δ β σ : Type} {K : CommandOps δ β σ} {owner : Option SystemInvocation}
  {q queue : CommandQueue (Operation δ β)} {ops held : List (Operation δ β)}

/-- The target of a drain afterwards: the same handle, with the moved operations behind the rest. -/
def Extended (K : CommandOps δ β σ) (held : List (Operation δ β))
    (q q' : CommandQueue (Operation δ β)) : Prop :=
  q'.Holds (Operation.deferred K) held ∧ q'.returns = q.returns

theorem drain_applied {n : Nat} {world : σ} {s s₁ : CommandStorage (Operation δ β)}
    {target : Option (CommandQueue (Operation δ β))} {entry : CommandEntry} {op : Operation δ β}
    (hentry : s.entries[s.cursor]? = some entry) (hconsume : s.consume = some (op, s₁))
    (hstays : (entry.deferred && target.isSome) = false) :
    drain K owner (n + 1) world s target =
      match op.apply K world owner with
      | (world, true) => (drain K owner n world s₁ target).bind fun x =>
        some (x.1, x.2.1, x.2.2.1, (op, false) :: x.2.2.2.1, x.2.2.2.2)
      | (world, false) => some (world, s₁, target, [(op, false)], false) := by
  simp only [drain, hentry, hconsume, Option.bind_eq_bind, Option.bind_some]
  cases hflag : entry.deferred with
  | false => rfl
  | true =>
    cases target with
    | none => rfl
    | some queue =>
      rw [hflag] at hstays
      cases hstays

/-- The loop over a storage does what a drain does to the operations that the storage owns. -/
theorem drain_eq : ∀ {ops held : List (Operation δ β)} {s : CommandStorage (Operation δ β)}
    {target : Option (CommandQueue (Operation δ β))} {world : σ},
    s.Holds (Operation.deferred K) ops →
    (∀ queue ∈ target, queue.Holds (Operation.deferred K) held) → ∃ s' target',
      drain K owner ops.length world s target = some
        ((drainAll K owner target.isSome world ops).1, s', target',
          (drainAll K owner target.isSome world ops).2.1,
          (drainAll K owner target.isSome world ops).2.2.2) ∧
        s'.Holds (Operation.deferred K) (drainAll K owner target.isSome world ops).2.2.1 ∧
        Option.Rel (Extended K
          (held ++ sortedOut true (drainAll K owner target.isSome world ops).2.1)) target target'
  | [], held, s, target, world, h, ht => by
    refine ⟨s, target, rfl, h, ?_⟩
    cases target with
    | none => exact .none
    | some queue =>
      have hqueue := ht queue rfl
      exact .some ⟨by simpa [drainAll, sortedOut] using hqueue, rfl⟩
  | op :: ops, held, s, target, world, h, ht => by
    obtain ⟨entry, s₁, hentry, hdeferred, hconsume, h₁⟩ := h.consume
    cases hmoves : op.deferred K && target.isSome with
    | true =>
      obtain ⟨hflag, hsome⟩ := (Bool.and_eq_true _ _).mp hmoves
      obtain ⟨queue, rfl⟩ := Option.isSome_iff_exists.mp hsome
      have hpushed : ∀ q ∈ some (queue.push (Operation.deferred K) op),
          q.Holds (Operation.deferred K) (held ++ [op]) := by
        intro q hq
        cases hq
        exact (ht queue rfl).push op
      obtain ⟨s', target', hrest, hs', htarget'⟩ := drain_eq h₁ hpushed
      unfold drainAll
      rw [hmoves]
      refine ⟨s', target', ?_, hs', ?_⟩
      · unfold drain
        simp [hentry, hconsume, hdeferred, hflag, hrest]
      · cases htarget' with
        | some hqueue =>
          rw [List.append_assoc] at hqueue
          exact .some hqueue
    | false =>
      unfold drainAll
      rw [hmoves]
      have hloop : drain K owner (op :: ops).length world s target = _ :=
        drain_applied hentry hconsume (hdeferred.symm ▸ hmoves)
      rcases happly : op.apply K world owner with ⟨world₁, completed⟩
      cases completed with
      | true =>
        obtain ⟨s', target', hrest, hs', htarget'⟩ := drain_eq h₁ ht
        refine ⟨s', target', ?_, hs', htarget'⟩
        rw [hloop, happly]
        show ((drain K owner ops.length world₁ s₁ target).bind fun x => _) = _
        rw [hrest]
        rfl
      | false =>
        refine ⟨s₁, target, ?_, h₁, ?_⟩
        · rw [hloop, happly]
          rfl
        · cases target with
          | none => exact .none
          | some queue =>
            have hqueue := ht queue rfl
            exact .some ⟨by simpa [sortedOut] using hqueue, rfl⟩

/-- The queue is empty afterwards, on every way out, and the guard discarded what was left. -/
theorem Holds.applyOrDefer {target : Option (CommandQueue (Operation δ β))}
    (h : q.Holds (Operation.deferred K) ops) (owner : Option SystemInvocation)
    (ht : ∀ queue ∈ target, queue.Holds (Operation.deferred K) held) (world : σ) :
    ∃ d, q.applyOrDefer K world owner target = some d ∧
      (d.world, d.consumed, d.discarded, d.completed) =
        drainAll K owner target.isSome world ops ∧
      d.source.Holds (Operation.deferred K) [] ∧ d.source.returns = q.returns ∧
      Option.Rel (Extended K (held ++ sortedOut true d.consumed)) target d.target := by
  obtain ⟨storage, returns⟩ := q
  cases storage with
  | none =>
    have hnone : ops = [] := h
    rw [hnone]
    refine ⟨_, rfl, rfl, rfl, rfl, ?_⟩
    cases target with
    | none => exact .none
    | some queue =>
      have hqueue := ht queue rfl
      exact .some ⟨by simpa [sortedOut] using hqueue, rfl⟩
  | some s =>
    have hs : s.Holds (Operation.deferred K) ops := h
    obtain ⟨s', target', hdrain, hleft, htarget'⟩ := drain_eq hs ht
    refine ⟨⟨_, ⟨some .new, returns⟩, target', _, _, _⟩, ?_, rfl, CommandStorage.holds_new, rfl,
      htarget'⟩
    unfold CommandQueue.applyOrDefer
    simp [hs.remaining_eq, hdrain, hleft.clear]

end Apply
end CommandQueue
end Porridge
