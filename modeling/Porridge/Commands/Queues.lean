import Porridge.Commands.Arena
import Porridge.Commands
import Porridge.Lib.Machine

/-! Command queues over whole runs: handles, pools, and what becomes of every operation. -/
namespace Porridge

/-- What happens to an operation, with the handles of the queues it happens in. -/
inductive QueueEvent (ω : Type) where
  | pushed (queue : Nat) (op : ω)
  | moved (queue target : Nat) (op : ω)
  | applied (queue : Nat) (op : ω)
  | discarded (queue : Nat) (op : ω)
  /-- Found in a storage that had been cleared. -/
  | stale (op : ω)
deriving DecidableEq

namespace QueueEvent

variable {ω : Type}

def arrival (i : Nat) : QueueEvent ω → Option ω
  | pushed queue op => if queue = i then some op else none
  | moved _ target op => if target = i then some op else none
  | _ => none

def departure (i : Nat) : QueueEvent ω → Option ω
  | moved queue _ op => if queue = i then some op else none
  | applied queue op => if queue = i then some op else none
  | discarded queue op => if queue = i then some op else none
  | _ => none

def ofConsumed (i : Nat) (target : Option Nat) (x : ω × Bool) : QueueEvent ω :=
  match target, x.2 with
  | some j, true => moved i j x.1
  | _, _ => applied i x.1

end QueueEvent

/-- The queues by handle and the pools by name, `none` once dropped; a world to apply to, and what
has happened so far. -/
structure CommandQueues (σ ω : Type) where
  world : σ
  queues : List (Option (CommandQueue ω))
  pools : List (Option (CommandPool ω))
  log : List (QueueEvent ω)
deriving DecidableEq

inductive QueueCall (σ ω : Type) where
  | create
  | createPool
  | lease (pool : Nat)
  | push (queue : Nat) (op : ω)
  | append (target source : Nat)
  | apply (queue : Nat) (owner : Option SystemInvocation)
  | applyOrDefer (queue : Nat) (owner : Option SystemInvocation) (target : Nat)
  | drop (queue : Nat)
  | dropPool (pool : Nat)
  /-- Other code changes the world. -/
  | elsewhere (world : σ)
deriving DecidableEq

namespace QueueEvent

variable {ω : Type} {i j k : Nat} {ops : List ω} {consumed : List (ω × Bool)}

theorem filterMap_ite (f : ω → QueueEvent ω) (p : QueueEvent ω → Option ω) (P : Prop) [Decidable P]
    (hp : ∀ op, p (f op) = if P then some op else none) :
    (ops.map f).filterMap p = if P then ops else [] := by
  rw [List.filterMap_map]
  have hfun : p ∘ f = fun op => if P then some op else none := funext hp
  rw [hfun]
  split_ifs
  · exact List.filterMap_some
  · exact List.filterMap_none _

theorem arrivals_moved : (ops.map (moved j i)).filterMap (arrival k) = if i = k then ops else [] :=
  filterMap_ite _ _ _ fun _ => rfl

theorem departures_moved :
    (ops.map (moved j i)).filterMap (departure k) = if j = k then ops else [] :=
  filterMap_ite _ _ _ fun _ => rfl

theorem arrivals_discarded : (ops.map (discarded i)).filterMap (arrival k) = [] :=
  (filterMap_ite _ _ False fun _ => rfl).trans (if_neg id)

theorem departures_discarded :
    (ops.map (discarded i)).filterMap (departure k) = if i = k then ops else [] :=
  filterMap_ite _ _ _ fun _ => rfl

theorem departures_consumed (target : Option Nat) :
    (consumed.map (ofConsumed i target)).filterMap (departure k) =
      if i = k then consumed.map Prod.fst else [] := by
  have hone : ∀ x : ω × Bool, departure k (ofConsumed i target x) =
      if i = k then some x.1 else none := by
    rintro ⟨op, moved⟩
    cases target <;> cases moved <;> rfl
  induction consumed with
  | nil => simp
  | cons x consumed ih =>
    rw [List.map_cons, List.filterMap_cons, hone, ih]
    split_ifs <;> rfl

theorem arrivals_consumed (target : Option Nat) :
    (consumed.map (ofConsumed i target)).filterMap (arrival k) =
      if target = some k then sortedOut true consumed else [] := by
  induction consumed with
  | nil => simp [sortedOut]
  | cons x consumed ih =>
    obtain ⟨op, moved⟩ := x
    rw [List.map_cons, List.filterMap_cons, ih]
    cases target with
    | none => simp [ofConsumed, arrival]
    | some j => cases moved <;> by_cases h : j = k <;> simp [ofConsumed, arrival, sortedOut, h]

end QueueEvent

namespace CommandQueues

section Calls

variable {σ ω : Type}

def queue (s : CommandQueues σ ω) (i : Nat) : Option (CommandQueue ω) := (s.queues[i]?).join

def pool (s : CommandQueues σ ω) (p : Nat) : Option (CommandPool ω) := (s.pools[p]?).join

/-- The operations in a queue, none once its handle is dropped. -/
def held (s : CommandQueues σ ω) (i : Nat) : List ω := ((s.queue i).map CommandQueue.held).getD []

def arrivals (s : CommandQueues σ ω) (i : Nat) : List ω := s.log.filterMap (QueueEvent.arrival i)

def departures (s : CommandQueues σ ω) (i : Nat) : List ω :=
  s.log.filterMap (QueueEvent.departure i)

end Calls

variable {δ β σ : Type} (K : CommandOps δ β σ)

def drained (s : CommandQueues σ (Operation δ β)) (i : Nat) (owner : Option SystemInvocation)
    (target : Option Nat) (other : Option (CommandQueue (Operation δ β))) :
    Option (CommandQueues σ (Operation δ β)) := do
  let q ← s.queue i
  let d ← q.applyOrDefer K s.world owner other
  let queues := s.queues.set i (some d.source)
  some { s with
    world := d.world
    queues := (target.map fun j => queues.set j d.target).getD queues
    log := s.log ++ (d.consumed.map (QueueEvent.ofConsumed i target) ++
      d.discarded.map (.discarded i)) }

def step (s : CommandQueues σ (Operation δ β)) :
    QueueCall σ (Operation δ β) → Option (CommandQueues σ (Operation δ β))
  | .create => some { s with queues := s.queues ++ [some ⟨none, none⟩] }
  | .createPool => some { s with pools := s.pools ++ [some .new] }
  | .lease p => do
    let pool ← s.pool p
    let (q, pool) := pool.take p
    some { s with queues := s.queues ++ [some q], pools := s.pools.set p (some pool) }
  | .push i op => do
    let q ← s.queue i
    some { s with
      queues := s.queues.set i (some (q.push (Operation.deferred K) op))
      log := s.log ++ [.pushed i op] }
  | .append i j =>
    if i = j then none else do
      let target ← s.queue i
      let source ← s.queue j
      let (moved, discarded, target, source) ← target.append (Operation.deferred K) source
      some { s with
        queues := (s.queues.set j (some source)).set i (some target)
        log := s.log ++ (moved.map (.moved j i) ++ discarded.map (.discarded j)) }
  | .apply i owner => s.drained K i owner none none
  | .applyOrDefer i owner j =>
    if i = j then none else do
      let target ← s.queue j
      s.drained K i owner (some j) (some target)
  | .drop i => do
    let q ← s.queue i
    let (discarded, again, pool) ← q.drop (q.returns.bind s.pool)
    some { s with
      queues := s.queues.set i none
      pools := (q.returns.map fun p => s.pools.set p pool).getD s.pools
      log := s.log ++ (discarded.map (.discarded i) ++ again.map .stale) }
  | .dropPool p => do
    let pool ← s.pool p
    let again ← pool.drop
    some { s with pools := s.pools.set p none, log := s.log ++ again.map .stale }
  | .elsewhere world => some { s with world }

def machine : Machine (CommandQueues σ (Operation δ β)) (QueueCall σ (Operation δ β)) where
  init s := s.queues = [] ∧ s.pools = [] ∧ s.log = []
  step := step K

/-- The handles of the call are live, and a queue is not its own target. -/
def Admits (s : CommandQueues σ (Operation δ β)) : QueueCall σ (Operation δ β) → Prop
  | .lease p | .dropPool p => (s.pool p).isSome
  | .push i _ | .apply i _ | .drop i => (s.queue i).isSome
  | .append i j | .applyOrDefer i _ j => i ≠ j ∧ (s.queue i).isSome ∧ (s.queue j).isSome
  | .create | .createPool | .elsewhere _ => True

def applyAll (owner : Option SystemInvocation) : σ → List (Operation δ β) → σ × Bool
  | world, [] => (world, true)
  | world, op :: ops =>
    match op.apply K world owner with
    | (world, true) => applyAll owner world ops
    | (world, false) => (world, false)

def moves (target : Option Nat) (op : Operation δ β) : Bool := op.deferred K && target.isSome

/-- What a call does that drains queue `i`: it takes the operations up to the one that unwinds, in
order, and discards the rest. -/
structure Drains (s : CommandQueues σ (Operation δ β)) (i : Nat) (owner : Option SystemInvocation)
    (target : Option Nat) (s' : CommandQueues σ (Operation δ β))
    (taken left : List (Operation δ β)) (completed : Bool) : Prop where
  split : s.held i = taken ++ left
  world : applyAll K owner s.world (taken.filter fun op => !moves K target op) =
    (s'.world, completed)
  log : s'.log = s.log ++ (taken.map (fun op => .ofConsumed i target (op, moves K target op)) ++
    left.map (.discarded i))
  whole : completed = true → left = []
  unwound : completed = false → ∃ init op, taken = init ++ [op] ∧ moves K target op = false ∧
    (applyAll K owner s.world (init.filter fun op => !moves K target op)).2 = true
  emptied : (s'.queue i).isSome ∧ s'.held i = []
  extended : ∀ j ∈ target, s'.held j = s.held j ++ taken.filter (Operation.deferred K)
  others : ∀ j, j ≠ i → j ∉ target → s'.held j = s.held j

def Fulfils (s : CommandQueues σ (Operation δ β)) :
    QueueCall σ (Operation δ β) → CommandQueues σ (Operation δ β) → Prop
  | .push i op, s' => s'.log = s.log ++ [.pushed i op] ∧ s'.held i = s.held i ++ [op] ∧
      ∀ j, j ≠ i → s'.held j = s.held j
  | .append i j, s' => s'.log = s.log ++ (s.held j).map (.moved j i) ∧
      s'.held i = s.held i ++ s.held j ∧ (s'.queue j).isSome ∧ s'.held j = [] ∧
      ∀ k, k ≠ i → k ≠ j → s'.held k = s.held k
  | .apply i owner, s' => ∃ taken left completed, s.Drains K i owner none s' taken left completed
  | .applyOrDefer i owner j, s' =>
    ∃ taken left completed, s.Drains K i owner (some j) s' taken left completed
  | .drop i, s' => s'.log = s.log ++ (s.held i).map (.discarded i) ∧ s'.queue i = none ∧
      ∀ j, j ≠ i → s'.held j = s.held j
  | _, s' => s'.log = s.log ∧ ∀ i, s'.held i = s.held i

/-- Every operation that has come to a queue has left it once, in order of arrival, or is still
there; nothing turns up in a storage that was cleared. -/
structure Conserved (s : CommandQueues σ (Operation δ β)) : Prop where
  each : ∀ i, s.arrivals i = s.departures i ++ s.held i
  len : ∀ i q, s.queue i = some q → q.len = (s.held i).length
  stale : ∀ op, .stale op ∉ s.log
  pooled : ∀ p pool, s.pool p = some pool → pool.Cleared

/-- The invariant: beside what is conserved, every queue owns what it holds. -/
structure Sound (s : CommandQueues σ (Operation δ β)) : Prop where
  each : ∀ i, s.arrivals i = s.departures i ++ s.held i
  stale : ∀ op, .stale op ∉ s.log
  holds : ∀ i q, s.queue i = some q → q.Holds (Operation.deferred K) (s.held i)
  pooled : ∀ p pool, s.pool p = some pool → pool.Cleared

section Lookup

variable {τ : Type} {l : List (Option τ)} {i : Nat} {x : Option τ}

theorem join_getElem?_set (h : (l[i]?).join.isSome) (j : Nat) :
    ((l.set i x)[j]?).join = if j = i then x else (l[j]?).join := by
  have hlt : i < l.length := by
    by_contra hge
    rw [List.getElem?_eq_none (Nat.le_of_not_lt hge)] at h
    cases h
  by_cases heq : j = i
  · rw [if_pos heq, heq, List.getElem?_set_self hlt]
    rfl
  · rw [if_neg heq, List.getElem?_set_ne (Ne.symm heq)]

theorem of_join_getElem?_set {j : Nat} {y : τ} (h : ((l.set i x)[j]?).join = some y) :
    x = some y ∨ (l[j]?).join = some y := by
  by_cases heq : i = j
  · subst heq
    rw [List.getElem?_set, if_pos rfl] at h
    split_ifs at h
    · exact .inl h
    · cases h
  · rw [List.getElem?_set_ne heq] at h
    exact .inr h

theorem join_getElem?_concat (j : Nat) :
    ((l ++ [x])[j]?).join = if j = l.length then x else (l[j]?).join := by
  rcases Nat.lt_trichotomy j l.length with hlt | heq | hgt
  · rw [if_neg hlt.ne, List.getElem?_append_left hlt]
  · rw [if_pos heq, heq, List.getElem?_concat_length]
    rfl
  · rw [if_neg hgt.ne', List.getElem?_eq_none (by simp; omega),
      List.getElem?_eq_none (Nat.le_of_lt hgt)]

end Lookup

variable {K}
variable {s s' : CommandQueues σ (Operation δ β)} {i j : Nat}
  {q source queue : CommandQueue (Operation δ β)} {events : List (QueueEvent (Operation δ β))}

theorem held_of_queue (h : s.queue i = some q) : s.held i = q.held := by
  unfold held
  rw [h]
  rfl

theorem held_of_none (h : s.queue i = none) : s.held i = [] := by
  unfold held
  rw [h]
  rfl

theorem Sound.conserved (h : s.Sound K) : s.Conserved where
  each := h.each
  len i q hq := (h.holds i q hq).len_eq
  stale := h.stale
  pooled := h.pooled

/-- A step is sound when the new queues own what they should, and what was there with what has come
is what has left with what is there now. -/
theorem Sound.advance (h : s.Sound K) (s' : CommandQueues σ (Operation δ β))
    (events : List (QueueEvent (Operation δ β))) (now : Nat → List (Operation δ β))
    (hsome : ∀ i q, s'.queue i = some q → q.Holds (Operation.deferred K) (now i))
    (hnone : ∀ i, s'.queue i = none → now i = []) (hlog : s'.log = s.log ++ events)
    (heach : ∀ i, s.held i ++ events.filterMap (QueueEvent.arrival i) =
      events.filterMap (QueueEvent.departure i) ++ now i)
    (hstale : ∀ op, .stale op ∉ events)
    (hpooled : ∀ p pool, s'.pool p = some pool → pool.Cleared) :
    s'.Sound K ∧ ∀ i, s'.held i = now i := by
  have hheld : ∀ i, s'.held i = now i := by
    intro i
    cases hq : s'.queue i with
    | none => rw [held_of_none hq, hnone i hq]
    | some q => rw [held_of_queue hq, (hsome i q hq).held_eq]
  refine ⟨⟨fun i => ?_, fun op hop => ?_, fun i q hq => hheld i ▸ hsome i q hq, hpooled⟩, hheld⟩
  · calc s'.arrivals i = s.arrivals i ++ events.filterMap (QueueEvent.arrival i) := by
          unfold arrivals
          rw [hlog, List.filterMap_append]
      _ = s.departures i ++ (s.held i ++ events.filterMap (QueueEvent.arrival i)) := by
          rw [h.each, List.append_assoc]
      _ = s.departures i ++ events.filterMap (QueueEvent.departure i) ++ s'.held i := by
          rw [heach, List.append_assoc, hheld]
      _ = s'.departures i ++ s'.held i := by
          unfold departures
          rw [hlog, List.filterMap_append]
  · rw [hlog] at hop
    rcases List.mem_append.mp hop with hold | hnew
    · exact h.stale op hold
    · exact hstale op hnew

/-- A step that leaves the operations where they are. -/
theorem Sound.idle (h : s.Sound K) (hlog : s'.log = s.log)
    (hsome : ∀ i q, s'.queue i = some q → q.Holds (Operation.deferred K) (s.held i))
    (hnone : ∀ i, s'.queue i = none → s.held i = [])
    (hpooled : ∀ p pool, s'.pool p = some pool → pool.Cleared) :
    s'.Sound K ∧ s'.log = s.log ∧ ∀ i, s'.held i = s.held i := by
  obtain ⟨hsound, hheld⟩ := h.advance s' [] s.held hsome hnone
    (by rw [hlog, List.append_nil]) (fun i => List.append_nil _) (fun op hop => nomatch hop) hpooled
  exact ⟨hsound, hlog, hheld⟩

section Steps

/-- What a call leaves: a sound state that it has brought about as it should. -/
def Served (K : CommandOps δ β σ) (s : CommandQueues σ (Operation δ β))
    (call : QueueCall σ (Operation δ β)) : Prop :=
  ∃ s', s.step K call = some s' ∧ s'.Sound K ∧ s.Fulfils K call s'

/-- A new handle, with nothing in its queue. -/
theorem Sound.grow (h : s.Sound K) (hq : q.Holds (Operation.deferred K) [])
    (hqueues : s'.queues = s.queues ++ [some q]) (hlog : s'.log = s.log)
    (hpooled : ∀ p pool, s'.pool p = some pool → pool.Cleared) :
    s'.Sound K ∧ s'.log = s.log ∧ ∀ i, s'.held i = s.held i := by
  have hqueue : ∀ i, s'.queue i = if i = s.queues.length then some q else s.queue i := by
    intro i
    unfold queue
    rw [hqueues]
    exact join_getElem?_concat i
  have hnew : s.held s.queues.length = [] := held_of_none (by
    unfold queue
    rw [List.getElem?_eq_none le_rfl]
    rfl)
  refine h.idle hlog (fun i q' hq' => ?_) (fun i hi => ?_) hpooled
  · rw [hqueue] at hq'
    split_ifs at hq' with heq
    · cases hq'
      rw [heq, hnew]
      exact hq
    · exact h.holds i q' hq'
  · rw [hqueue] at hi
    split_ifs at hi
    exact held_of_none hi

theorem Sound.create (h : s.Sound K) : s.Served K .create :=
  ⟨_, rfl, h.grow (q := ⟨none, none⟩) rfl rfl rfl h.pooled⟩

theorem Sound.createPool (h : s.Sound K) : s.Served K .createPool := by
  refine ⟨_, rfl, h.idle rfl h.holds (fun i hi => held_of_none hi) fun p pool hp => ?_⟩
  have hpool := (join_getElem?_concat p).symm.trans hp
  split_ifs at hpool
  · cases hpool
    exact fun storage hstorage => nomatch hstorage
  · exact h.pooled p pool hpool

theorem Sound.lease (h : s.Sound K) {p : Nat} (ha : (s.pool p).isSome) :
    s.Served K (.lease p) := by
  obtain ⟨pool, hpool⟩ := Option.isSome_iff_exists.mp ha
  obtain ⟨hq, hcleared⟩ := (h.pooled p pool hpool).take (Operation.deferred K) p
  have hstep : s.step K (.lease p) = some { s with
      queues := s.queues ++ [some (pool.take p).1]
      pools := s.pools.set p (some (pool.take p).2) } := by
    show (s.pool p).bind _ = _
    rw [hpool]
    rfl
  refine ⟨_, hstep, h.grow hq rfl rfl fun p' pool' hp' => ?_⟩
  have hp'' := (join_getElem?_set ha p').symm.trans hp'
  split_ifs at hp''
  · cases hp''
    exact hcleared
  · exact h.pooled p' pool' hp''

theorem Sound.dropPool (h : s.Sound K) {p : Nat} (ha : (s.pool p).isSome) :
    s.Served K (.dropPool p) := by
  obtain ⟨pool, hpool⟩ := Option.isSome_iff_exists.mp ha
  have hstep : s.step K (.dropPool p) = some { s with
      pools := s.pools.set p none, log := s.log ++ [] } := by
    show (s.pool p).bind _ = _
    rw [hpool]
    show pool.drop.bind _ = _
    rw [(h.pooled p pool hpool).drop]
    rfl
  refine ⟨_, hstep, h.idle (List.append_nil _) h.holds (fun i hi => held_of_none hi)
    fun p' pool' hp' => ?_⟩
  have hp'' := (join_getElem?_set ha p').symm.trans hp'
  split_ifs at hp''
  exact h.pooled p' pool' hp''

theorem queue_set (s s' : CommandQueues σ (Operation δ β)) (ha : (s.queue i).isSome) {x : Option (CommandQueue (Operation δ β))}
    (hs' : s'.queues = s.queues.set i x) (k : Nat) :
    s'.queue k = if k = i then x else s.queue k := by
  unfold queue
  rw [hs']
  exact join_getElem?_set ha k

theorem Sound.push (h : s.Sound K) (ha : (s.queue i).isSome) (op : Operation δ β) :
    s.Served K (.push i op) := by
  obtain ⟨q, hq⟩ := Option.isSome_iff_exists.mp ha
  set s' : CommandQueues σ (Operation δ β) := { s with
    queues := s.queues.set i (some (q.push (Operation.deferred K) op))
    log := s.log ++ [.pushed i op] }
  have hstep : s.step K (.push i op) = some s' := by
    show (s.queue i).bind _ = _
    rw [hq]
    rfl
  have hqueue := queue_set s s' ha rfl
  obtain ⟨hsound, hheld⟩ := h.advance s' [.pushed i op]
    (fun k => if k = i then s.held i ++ [op] else s.held k)
    (fun k q' hq' => by
      rw [hqueue] at hq'
      split_ifs at hq' with heq
      · cases hq'
        rw [if_pos heq]
        exact (h.holds i q hq).push op
      · rw [if_neg heq]
        exact h.holds k q' hq')
    (fun k hk => by
      rw [hqueue] at hk
      split_ifs at hk with heq
      rw [if_neg heq]
      exact held_of_none hk)
    rfl
    (fun k => by
      by_cases heq : k = i
      · rw [if_pos heq, heq]
        simp [QueueEvent.arrival, QueueEvent.departure]
      · have hne : ¬ i = k := fun h => heq h.symm
        rw [if_neg heq]
        simp [QueueEvent.arrival, QueueEvent.departure, hne])
    (fun op hop => by simp at hop)
    h.pooled
  exact ⟨_, hstep, hsound, rfl, (hheld i).trans (if_pos rfl), fun j hj => (hheld j).trans (if_neg hj)⟩

theorem Sound.append (h : s.Sound K) (hne : i ≠ j) (hi : (s.queue i).isSome)
    (hj : (s.queue j).isSome) : s.Served K (.append i j) := by
  obtain ⟨target, htarget⟩ := Option.isSome_iff_exists.mp hi
  obtain ⟨source, hsource⟩ := Option.isSome_iff_exists.mp hj
  obtain ⟨target', source', happend, ht', hs', -, -⟩ :=
    (h.holds j source hsource).append (h.holds i target htarget)
  set s' : CommandQueues σ (Operation δ β) := { s with
    queues := (s.queues.set j (some source')).set i (some target')
    log := s.log ++ ((s.held j).map (.moved j i) ++ ([] : List (Operation δ β)).map (.discarded j)) }
    with hnext
  have hstep : s.step K (.append i j) = some s' := by
    show (if i = j then none else (s.queue i).bind _) = _
    rw [if_neg hne, htarget]
    show (s.queue j).bind _ = _
    rw [hsource]
    show (target.append (Operation.deferred K) source).bind _ = _
    rw [happend]
    rfl
  have hqueue : ∀ k, s'.queue k =
      if k = i then some target' else if k = j then some source' else s.queue k := by
    intro k
    have hafter := queue_set s { s with queues := s.queues.set j (some source') } hj rfl
    rw [queue_set { s with queues := s.queues.set j (some source') } s'
      (by rw [hafter, if_neg hne]; exact hi) rfl, hafter]
  obtain ⟨hsound, hheld⟩ := h.advance s' ((s.held j).map (.moved j i))
    (fun k => if k = i then s.held i ++ s.held j else if k = j then [] else s.held k)
    (fun k q' hq' => by
      rw [hqueue] at hq'
      split_ifs at hq' ⊢
      · cases hq'
        exact ht'
      · cases hq'
        exact hs'
      · exact h.holds k q' hq')
    (fun k hk => by
      rw [hqueue] at hk
      split_ifs at hk ⊢
      exact held_of_none hk)
    (by rw [hnext, List.map_nil, List.append_nil])
    (fun k => by
      rw [QueueEvent.arrivals_moved, QueueEvent.departures_moved]
      by_cases hki : k = i
      · have hjk : ¬ j = k := fun h => hne (hki.symm.trans h.symm)
        rw [if_pos hki, if_pos hki.symm, if_neg hjk, hki]
        rfl
      · rw [if_neg hki, if_neg (Ne.symm hki), List.append_nil]
        by_cases hkj : k = j
        · rw [if_pos hkj, if_pos hkj.symm, hkj, List.append_nil]
        · rw [if_neg hkj, if_neg (Ne.symm hkj)]
          rfl)
    (fun op hop => by simp at hop)
    h.pooled
  refine ⟨s', hstep, hsound, by rw [hnext, List.map_nil, List.append_nil], (hheld i).trans (if_pos rfl),
    ?_, ?_, fun k hki hkj => ?_⟩
  · rw [hqueue, if_neg (Ne.symm hne), if_pos rfl]
    rfl
  · rw [hheld, if_neg (Ne.symm hne), if_pos rfl]
  · rw [hheld, if_neg hki, if_neg hkj]

theorem Sound.drop (h : s.Sound K) (ha : (s.queue i).isSome) : s.Served K (.drop i) := by
  obtain ⟨q, hq⟩ := Option.isSome_iff_exists.mp ha
  obtain ⟨pool', hdrop, hpool'⟩ := (h.holds i q hq).drop (q.returns.bind s.pool)
  set s' : CommandQueues σ (Operation δ β) := { s with
    queues := s.queues.set i none
    pools := (q.returns.map fun p => s.pools.set p pool').getD s.pools
    log := s.log ++ ((s.held i).map (.discarded i) ++ ([] : List (Operation δ β)).map .stale) }
    with hnext
  have hlog : s'.log = s.log ++ (s.held i).map (.discarded i) := by
    rw [hnext, List.map_nil, List.append_nil]
  have hstep : s.step K (.drop i) = some s' := by
    show (s.queue i).bind _ = _
    rw [hq]
    show (q.drop (q.returns.bind s.pool)).bind _ = _
    rw [hdrop]
    rfl
  have hqueue := queue_set s s' ha rfl
  obtain ⟨hsound, hheld⟩ := h.advance s' _ (fun k => if k = i then [] else s.held k)
    (fun k q' hq' => by
      rw [hqueue] at hq'
      split_ifs at hq' with heq
      rw [if_neg heq]
      exact h.holds k q' hq')
    (fun k hk => by
      rw [hqueue] at hk
      split_ifs at hk ⊢
      · rfl
      · exact held_of_none hk)
    hlog
    (fun k => by
      rw [QueueEvent.arrivals_discarded, QueueEvent.departures_discarded, List.append_nil]
      by_cases heq : k = i
      · rw [if_pos heq, if_pos heq.symm, heq, List.append_nil]
      · rw [if_neg heq, if_neg (Ne.symm heq)]
        rfl)
    (fun op hop => by simp at hop)
    (fun p pool hp => by
      have hback : ∀ pool, pool' = some pool → pool.Cleared := by
        intro pool hpool
        have hbefore : ∀ old, q.returns.bind s.pool = some old → old.Cleared := by
          intro old hold
          obtain ⟨name, -, hname⟩ := Option.bind_eq_some_iff.mp hold
          exact h.pooled name old hname
        rcases hpool' with hsame | ⟨old, hold, hnew⟩
        · exact hbefore pool (hsame.symm.trans hpool)
        · cases hnew.symm.trans hpool
          intro storage hstorage
          rw [← List.append_assoc] at hstorage
          rcases List.mem_append.mp hstorage with hthere | hadded
          · exact hbefore old hold storage hthere
          · exact List.mem_singleton.mp hadded
      cases hreturns : q.returns with
      | none =>
        rw [hnext, hreturns] at hp
        exact h.pooled p pool hp
      | some name =>
        rw [hnext, hreturns] at hp
        rcases of_join_getElem?_set hp with hset | hold
        · exact hback pool hset
        · exact h.pooled p pool hold)
  refine ⟨s', hstep, hsound, hlog, ?_, fun j hj => (hheld j).trans (if_neg hj)⟩
  rw [hqueue, if_pos rfl]

/-- Up to the operation that unwinds, a drain takes everything in order. -/
theorem drainAll_spec (owner : Option SystemInvocation) (target : Option Nat)
    (ops : List (Operation δ β)) (world : σ) : ∃ taken world' left completed,
      drainAll K owner target.isSome world ops =
        (world', taken.map (fun op => (op, moves K target op)), left, completed) ∧
      ops = taken ++ left ∧
      applyAll K owner world (taken.filter fun op => !moves K target op) = (world', completed) ∧
      (completed = true → left = []) ∧
      (completed = false → ∃ init op, taken = init ++ [op] ∧ moves K target op = false ∧
        (applyAll K owner world (init.filter fun op => !moves K target op)).2 = true) := by
  induction ops generalizing world with
  | nil => exact ⟨[], world, [], true, rfl, rfl, rfl, fun _ => rfl, fun h => by cases h⟩
  | cons op ops ih =>
    unfold drainAll
    cases hmoves : op.deferred K && target.isSome with
    | true =>
      have hop : moves K target op = true := hmoves
      obtain ⟨taken, world', left, completed, hdrain, hsplit, happly, hwhole, hunwound⟩ := ih world
      refine ⟨op :: taken, world', left, completed, ?_, congrArg _ hsplit, ?_, hwhole, fun hc => ?_⟩
      · simp [hdrain, hop]
      · simpa [hop] using happly
      · obtain ⟨init, last, htaken, hlast, hinit⟩ := hunwound hc
        refine ⟨op :: init, last, congrArg _ htaken, hlast, ?_⟩
        simpa [hop] using hinit
    | false =>
      have hop : moves K target op = false := hmoves
      rcases happly : op.apply K world owner with ⟨world₁, ended⟩
      cases ended with
      | true =>
        obtain ⟨taken, world', left, completed, hdrain, hsplit, hrest, hwhole, hunwound⟩ := ih world₁
        refine ⟨op :: taken, world', left, completed, ?_, congrArg _ hsplit, ?_, hwhole,
          fun hc => ?_⟩
        · simp [hdrain, hop]
        · simpa [hop, applyAll, happly] using hrest
        · obtain ⟨init, last, htaken, hlast, hinit⟩ := hunwound hc
          refine ⟨op :: init, last, congrArg _ htaken, hlast, ?_⟩
          simpa [hop, applyAll, happly] using hinit
      | false =>
        refine ⟨[op], world₁, ops, false, ?_, rfl, ?_, by simp, fun _ => ⟨[], op, rfl, hop, rfl⟩⟩
        · simp [hop]
        · simp [hop, applyAll, happly]

theorem sortedOut_moves (target : Option Nat) (taken : List (Operation δ β)) :
    sortedOut true (taken.map fun op => (op, moves K target op)) =
      taken.filter (moves K target) := by
  unfold sortedOut
  induction taken with
  | nil => rfl
  | cons op taken ih =>
    cases hop : moves K target op with
    | true => simpa [hop] using ih
    | false => simpa [hop] using ih

/-- The queues after a drain. -/
theorem queue_drained (s s' : CommandQueues σ (Operation δ β)) {target : Option Nat} {source : CommandQueue (Operation δ β)}
    {other : Option (CommandQueue (Operation δ β))} (hi : (s.queue i).isSome)
    (htarget : ∀ j ∈ target, i ≠ j ∧ (s.queue j).isSome)
    (hs' : s'.queues = (target.map fun j => (s.queues.set i (some source)).set j other).getD
      (s.queues.set i (some source))) (k : Nat) :
    s'.queue k = if target = some k then other else if k = i then some source else s.queue k := by
  have hfirst := queue_set s { s with queues := s.queues.set i (some source) } hi rfl
  cases target with
  | none => exact (queue_set s s' hi hs' k).trans (if_neg (fun h => nomatch h)).symm
  | some j =>
    obtain ⟨hne, hj⟩ := htarget j rfl
    have hj' : (({ s with queues := s.queues.set i (some source) } :
        CommandQueues σ (Operation δ β)).queue j).isSome := by
      rw [hfirst, if_neg (Ne.symm hne)]
      exact hj
    rw [queue_set _ s' hj' hs', hfirst]
    by_cases hk : k = j
    · rw [if_pos hk, if_pos (congrArg some hk.symm)]
    · rw [if_neg hk, if_neg fun h => hk (Option.some.inj h).symm]

theorem Sound.drained (h : s.Sound K) (hi : (s.queue i).isSome) (owner : Option SystemInvocation)
    (target : Option Nat) (htarget : ∀ j ∈ target, i ≠ j ∧ (s.queue j).isSome) :
    ∃ s', s.drained K i owner target (target.bind s.queue) = some s' ∧ s'.Sound K ∧
      ∃ taken left completed, s.Drains K i owner target s' taken left completed := by
  obtain ⟨q, hq⟩ := Option.isSome_iff_exists.mp hi
  have hothers : ∀ queue ∈ target.bind s.queue,
      queue.Holds (Operation.deferred K) ((target.map s.held).getD []) := by
    intro queue hqueue
    obtain ⟨j, hj, hqueue⟩ := Option.bind_eq_some_iff.mp hqueue
    rw [hj]
    exact h.holds j queue hqueue
  have hsome : (target.bind s.queue).isSome = target.isSome := by
    cases target with
    | none => rfl
    | some j => exact (htarget j rfl).2
  obtain ⟨d, hd, hdrain, hsource, -, hrel⟩ := (h.holds i q hq).applyOrDefer owner hothers s.world
  obtain ⟨taken, world', left, completed, hall, hsplit, happly, hwhole, hunwound⟩ :=
    drainAll_spec (K := K) owner target (s.held i) s.world
  rw [hsome, hall] at hdrain
  obtain ⟨dworld, dsource, dtarget, dconsumed, ddiscarded, dcompleted⟩ := d
  simp only [Prod.mk.injEq] at hdrain
  obtain ⟨rfl, rfl, rfl, rfl⟩ := hdrain
  rw [sortedOut_moves] at hrel
  set s' : CommandQueues σ (Operation δ β) := { s with
    world := dworld
    queues := (target.map fun j => (s.queues.set i (some dsource)).set j dtarget).getD
      (s.queues.set i (some dsource))
    log := s.log ++ ((taken.map fun op => (op, moves K target op)).map (.ofConsumed i target) ++
      ddiscarded.map (.discarded i)) } with hnext
  have hstep : s.drained K i owner target (target.bind s.queue) = some s' := by
    show (s.queue i).bind _ = _
    rw [hq]
    show (q.applyOrDefer K s.world owner (target.bind s.queue)).bind _ = _
    rw [hd]
    rfl
  have hqueue := queue_drained s s' hi htarget rfl
  have hself : target ≠ some i := fun heq => (htarget i heq).1 rfl
  obtain ⟨hsound, hheld⟩ := h.advance s' _
    (fun k => if target = some k then s.held k ++ taken.filter (moves K target) else
      if k = i then [] else s.held k)
    (fun k q' hq' => by
      rw [hqueue] at hq'
      split_ifs at hq' ⊢ with hk hki
      · subst hk
        obtain ⟨queue, hqueue⟩ := Option.isSome_iff_exists.mp (htarget k rfl).2
        rw [Option.bind_some, hqueue, hq'] at hrel
        cases hrel with
        | some hextended => exact hextended.1
      · cases hq'
        exact hsource
      · exact h.holds k q' hq')
    (fun k hk => by
      rw [hqueue] at hk
      split_ifs at hk ⊢ with hk' hki
      · subst hk'
        obtain ⟨queue, hqueue⟩ := Option.isSome_iff_exists.mp (htarget k rfl).2
        rw [Option.bind_some, hqueue, hk] at hrel
        cases hrel
      · exact held_of_none hk)
    rfl
    (fun k => by
      rw [List.filterMap_append, List.filterMap_append, QueueEvent.arrivals_consumed,
        QueueEvent.departures_consumed, QueueEvent.arrivals_discarded,
        QueueEvent.departures_discarded, List.append_nil, sortedOut_moves, List.map_map]
      have htaken : taken.map (Prod.fst ∘ fun op => (op, moves K target op)) = taken :=
        List.map_id _
      rw [htaken]
      by_cases hki : k = i
      · subst hki
        rw [if_neg hself, if_neg hself, if_pos rfl, if_pos rfl, if_pos rfl, List.append_nil,
          List.append_nil]
        exact hsplit
      · rw [if_neg (Ne.symm hki), if_neg (Ne.symm hki), if_neg hki]
        split_ifs
        · rfl
        · exact List.append_nil _)
    (fun op hop => by
      rcases List.mem_append.mp hop with hop | hop
      · obtain ⟨⟨op', moved⟩, -, heq⟩ := List.mem_map.mp hop
        cases target <;> cases moved <;> cases heq
      · obtain ⟨op', -, heq⟩ := List.mem_map.mp hop
        cases heq)
    h.pooled
  refine ⟨s', hstep, hsound, taken, ddiscarded, dcompleted, hsplit, happly, ?_, hwhole, hunwound,
    ⟨?_, ?_⟩, fun j hj => ?_, fun j hji hj => ?_⟩
  · rw [hnext, List.map_map]
    rfl
  · rw [hqueue, if_neg hself, if_pos rfl]
    rfl
  · rw [hheld, if_neg hself, if_pos rfl]
  · have hj' : target = some j := hj
    rw [hheld, if_pos hj']
    have hmoves : moves K target = Operation.deferred K := by
      funext op
      unfold moves
      rw [hj']
      exact Bool.and_true _
    rw [hmoves]
  · have hj' : ¬ target = some j := hj
    rw [hheld, if_neg hj', if_neg hji]

theorem Sound.step (h : s.Sound K) {call : QueueCall σ (Operation δ β)} (ha : s.Admits call) :
    s.Served K call := by
  cases call with
  | create => exact h.create
  | createPool => exact h.createPool
  | lease p => exact h.lease ha
  | push i op => exact h.push ha op
  | append i j => exact h.append ha.1 ha.2.1 ha.2.2
  | apply i owner => exact h.drained ha owner none fun j hj => nomatch hj
  | applyOrDefer i owner j =>
    obtain ⟨hne, hi, hj⟩ := ha
    obtain ⟨s', hs', hserved⟩ := h.drained hi owner (some j) fun k hk => by
      cases hk
      exact ⟨hne, hj⟩
    refine ⟨s', ?_, hserved⟩
    obtain ⟨queue, hqueue⟩ := Option.isSome_iff_exists.mp hj
    show (if i = j then none else (s.queue j).bind _) = _
    rw [Option.bind_some, hqueue] at hs'
    rw [if_neg hne, hqueue]
    exact hs'
  | drop i => exact h.drop ha
  | dropPool p => exact h.dropPool ha
  | elsewhere world =>
    exact ⟨_, rfl, h.idle rfl h.holds (fun i hi => held_of_none hi) h.pooled⟩

theorem admits_of_step {call : QueueCall σ (Operation δ β)} (hs : s.step K call = some s') :
    s.Admits call := by
  have hsome : ∀ {τ υ : Type} {x : Option τ} {f : τ → Option υ} {y : υ},
      x.bind f = some y → x.isSome = true := fun h => by
    obtain ⟨a, ha, -⟩ := Option.bind_eq_some_iff.mp h
    exact Option.isSome_of_mem ha
  cases call with
  | create => trivial
  | createPool => trivial
  | lease p => exact hsome hs
  | push i op => exact hsome hs
  | append i j =>
    have hs' : (if i = j then none else (s.queue i).bind _) = some s' := hs
    split_ifs at hs' with hne
    obtain ⟨target, htarget, hrest⟩ := Option.bind_eq_some_iff.mp hs'
    exact ⟨hne, Option.isSome_of_mem htarget, hsome hrest⟩
  | apply i owner => exact hsome hs
  | applyOrDefer i owner j =>
    have hs' : (if i = j then none else (s.queue j).bind _) = some s' := hs
    split_ifs at hs' with hne
    obtain ⟨target, htarget, hrest⟩ := Option.bind_eq_some_iff.mp hs'
    exact ⟨hne, hsome hrest, Option.isSome_of_mem htarget⟩
  | drop i => exact hsome hs
  | dropPool p => exact hsome hs
  | elsewhere world => trivial

theorem sound_of_reachable (h : (machine K).Reachable s) : s.Sound K := by
  apply h.invariant
  · rintro ⟨world, queues, pools, log⟩ ⟨hqueues, hpools, hlog⟩
    simp only at hqueues hpools hlog
    subst hqueues hpools hlog
    exact ⟨fun _ => rfl, fun op hop => (nomatch hop), fun i q hq => (nomatch hq),
      fun p pool hp => (nomatch hp)⟩
  · rintro s call s' hsound - hs
    obtain ⟨s₁, hs₁, hsound', -⟩ := hsound.step (admits_of_step hs)
    cases hs.symm.trans hs₁
    exact hsound'

end Steps

/-- What has come to a queue has left it once, in order, or is still there; and every call on live
handles ends, also when one unwinds. -/
theorem conserved_of_reachable (h : (machine K).Reachable s) : s.Conserved ∧
    ∀ call, s.Admits call → ∃ s', s.step K call = some s' ∧ s.Fulfils K call s' := by
  have hsound := sound_of_reachable h
  refine ⟨hsound.conserved, fun call ha => ?_⟩
  obtain ⟨s', hs', -, hfulfils⟩ := hsound.step ha
  exact ⟨s', hs', hfulfils⟩

section Unwinding

/-- A command that notes its number, or unwinds; it defers or not. -/
structure Noting where
  number : Nat
  deferred : Bool
  panics : Bool
deriving DecidableEq

def noting : CommandOps Noting Empty (List Nat) where
  apply c world _ := if c.panics then (world, false) else (world ++ [c.number], true)
  defersAtSettle := Noting.deferred
  applyBase c := nomatch c

/-- A queue with a command, one that unwinds and one that defers, and a target that holds one. -/
def interrupted : List (QueueCall (List Nat) (Operation Noting Empty)) :=
  [.createPool, .lease 0, .create, .push 1 (.derived ⟨9, true, false⟩),
    .push 0 (.derived ⟨1, false, false⟩), .push 0 (.derived ⟨2, false, true⟩),
    .push 0 (.derived ⟨3, true, false⟩)]

def beforeUnwinding : CommandQueues (List Nat) (Operation Noting Empty) :=
  ((machine noting).run ⟨[], [], [], []⟩ interrupted).getD ⟨[], [], [], []⟩

theorem reachable_beforeUnwinding : (machine noting).Reachable beforeUnwinding := by
  have hrun : (machine noting).run ⟨[], [], [], []⟩ interrupted = some beforeUnwinding := by decide
  exact Machine.Reachable.run (.init ⟨rfl, rfl, rfl⟩) hrun

/-- The call that unwinds takes everything out of the source. -/
theorem beforeUnwinding_conserved : beforeUnwinding.Conserved ∧
    ∃ s', beforeUnwinding.step noting (.applyOrDefer 0 (some ⟨0, []⟩) 1) = some s' ∧
      beforeUnwinding.Fulfils noting (.applyOrDefer 0 (some ⟨0, []⟩) 1) s' := by
  obtain ⟨hconserved, hcalls⟩ := conserved_of_reachable reachable_beforeUnwinding
  have hadmits : beforeUnwinding.Admits (.applyOrDefer 0 (some ⟨0, []⟩) 1) := by
    refine ⟨by decide, ?_, ?_⟩
    · decide
    · decide
  exact ⟨hconserved, hcalls _ hadmits⟩

/-- An operation that defers does not move when one before it unwinds. -/
theorem unwinding_discards : ¬ ∀ s : CommandQueues (List Nat) (Operation Noting Empty),
    (machine noting).Reachable s → ∀ i owner j s', s.step noting (.applyOrDefer i owner j) = some s' →
      s'.held j = s.held j ++ (s.held i).filter (Operation.deferred noting) := by
  intro hall
  have hstep : (beforeUnwinding.step noting (.applyOrDefer 0 (some ⟨0, []⟩) 1)).any
      fun s' => s'.held 1 == [.derived ⟨9, true, false⟩] := by decide
  have hheld : beforeUnwinding.held 1 ++ (beforeUnwinding.held 0).filter (Operation.deferred noting) =
      [.derived ⟨9, true, false⟩, .derived ⟨3, true, false⟩] := by decide
  obtain ⟨s', hs', hafter⟩ := (Option.any_eq_true _ _).mp hstep
  have hmoved := hall _ reachable_beforeUnwinding 0 (some ⟨0, []⟩) 1 s' hs'
  rw [hheld, beq_iff_eq.mp hafter] at hmoved
  cases hmoved

end Unwinding

section Commits

variable {α : Type} {C : Components α}

/-- The commands of the bowl as operations. What a panicking command has done to the world is not
described. -/
def commandOps (C : Components α) : CommandOps (Command α) (BaseCommand α) (World α) where
  apply c w o := ((c.apply C w o).getD w, (c.apply C w o).isSome)
  defersAtSettle := Command.defersAtSettle
  applyBase c w := ((c.apply C w).getD w, (c.apply C w).isSome)

theorem applyAll_derived (o : SystemInvocation) : ∀ (commands : List (Command α)) (w w' : World α),
    applyAll (commandOps C) (some o) w (commands.map .derived) = (w', true) ↔
      w.applyCommands C o commands = some w'
  | [], w, w' => by simp [applyAll, World.applyCommands]
  | c :: commands, w, w' => by
    rw [World.applyCommands_cons]
    cases happly : c.apply C w o with
    | none => simp [applyAll, Operation.apply, commandOps, happly]
    | some u =>
      have ih := applyAll_derived o commands u w'
      simpa [applyAll, Operation.apply, commandOps, happly] using ih

theorem applyAll_base : ∀ (commands : List (BaseCommand α)) (w w' : World α),
    applyAll (commandOps C) none w (commands.map .base) = (w', true) ↔
      w.applyBase C commands = some w'
  | [], w, w' => by simp [applyAll, World.applyBase]
  | c :: commands, w, w' => by
    cases happly : c.apply C w with
    | none => simp [applyAll, Operation.apply, commandOps, happly, World.applyBase]
    | some u =>
      have ih := applyAll_base commands u w'
      simpa [applyAll, Operation.apply, commandOps, happly, World.applyBase] using ih

/-- Draining an output's buffer applies its immediate commands; a settle commit keeps the others
in the target. -/
theorem Drains.commits {s s' : CommandQueues (World α) (Operation (Command α) (BaseCommand α))}
    {i : Nat} {o : SystemInvocation} {target : Option Nat}
    {taken left : List (Operation (Command α) (BaseCommand α))} {output : SystemOutput α}
    (h : s.Drains (commandOps C) i (some o) target s' taken left true)
    (hheld : s.held i = output.commands.map .derived) :
    s.world.applyCommands C o (output.immediate target.isSome) = some s'.world ∧
      ∀ j ∈ target, s'.held j =
        s.held j ++ (output.commands.filter Command.defersAtSettle).map .derived := by
  have htaken : taken = output.commands.map .derived := by
    rw [← hheld, h.split, h.whole rfl, List.append_nil]
  have hkept : ∀ p : Operation (Command α) (BaseCommand α) → Bool,
      (output.commands.map .derived).filter p =
        (output.commands.filter fun c => p (.derived c)).map .derived :=
    fun p => List.filter_map
  constructor
  · have hworld := h.world
    rw [htaken, hkept, applyAll_derived] at hworld
    rw [← hworld]
    congr 1
    unfold SystemOutput.immediate
    cases target with
    | none =>
      simp [moves]
    | some j =>
      simp [moves, Operation.deferred, commandOps]
  · intro j hj
    rw [h.extended j hj, htaken, hkept]
    rfl

end Commits
end CommandQueues
end Porridge
