import Porridge.Dispatch.Refinement

/-! A queue delivers everything it holds, whatever its workers and its receiver do first. -/
namespace Porridge
namespace Dispatch

section Streams

variable {κ ρ : Type} {fits : κ → ρ → Bool}

namespace TaskStep

def panics : TaskStep ρ → Bool
  | panic => true
  | _ => false

end TaskStep

namespace SpawnedBatch

variable {b b' : SpawnedBatch κ ρ}

/-- The task has come to an end that no receiver takes for the end of its rows. -/
def failed (b : SpawnedBatch κ ρ) : Bool := b.handle != .running && b.handle != .finished

/-- What is left to do: a row is cleared, begun, returns and is received. -/
def weight (b : SpawnedBatch κ ρ) : Nat :=
  4 * b.pending.length + 2 * b.current.toList.length + b.receiver.buffer.length +
    (if b.checked then 0 else 1) + (if b.handle = .running then 1 else 0) + 1

theorem Sound.lowers (h : b.Sound fits) (hopen : b.receiver.closed = false) {a : TaskStep ρ}
    (ha : a.panics = false) (hs : b.step fits a = some b') :
    b'.weight < b.weight ∧ b'.failed = false := by
  have hcovered : b.receiver.buffer.length + b.current.toList.length + b.pending.length ≤
      b.receiver.capacity := by
    have hrows := h.covered
    simp only [SpawnedBatch.rows, List.length_append, List.length_map] at hrows
    omega
  cases a with
  | ready index result =>
    obtain ⟨row, hrow, hs⟩ := Option.bind_eq_some_iff.mp hs
    split_ifs at hs with hready
    cases hs
    have hindex := (List.getElem?_eq_some_iff.mp hrow).1
    have hlength := List.length_eraseIdx_of_lt hindex
    rw [send_of_open (u := { b with pending := b.pending.eraseIdx index }) hopen (by simp; omega)]
    constructor
    · simp only [weight, hlength, List.length_append, List.length_singleton]
      omega
    · simp [failed, hready.1]
  | check =>
    simp only [SpawnedBatch.step] at hs
    split_ifs at hs with hnext hclosed
    · rw [hopen] at hclosed
      cases hclosed
    · cases hs
      constructor
      · simp [weight, hnext.2.2.2.1]
      · simp [failed, hnext.1]
  | call =>
    simp only [SpawnedBatch.step] at hs
    split at hs
    · rename_i row pending hpending
      split_ifs at hs with hready
      cases hs
      constructor
      · simp only [weight, (h.checked hready.2).2.1, hpending, hready.2, Option.toList_none,
          Option.toList_some, List.length_cons, List.length_nil, if_true, Bool.false_eq_true, if_false]
        omega
      · simp [failed, hready.1]
    · cases hs
  | ret result =>
    obtain ⟨row, hrow, hs⟩ := Option.bind_eq_some_iff.mp hs
    split_ifs at hs with hready
    cases hs
    rw [hrow] at hcovered
    simp only [Option.toList_some, List.length_singleton] at hcovered
    rw [send_of_open (u := { b with current := none }) hopen (by simp; omega)]
    constructor
    · simp only [weight, hrow, Option.toList_none, Option.toList_some, List.length_append,
        List.length_singleton, List.length_nil]
      omega
    · simp [failed, hready.1]
  | leave =>
    simp only [SpawnedBatch.step] at hs
    split_ifs at hs with hdone
    cases hs
    constructor
    · cases hchecked : b.checked <;> simp [weight, SpawnedBatch.exit, hdone.1, hchecked]
    · rfl
  | panic => cases ha
  | abort =>
    simp only [SpawnedBatch.step] at hs
    split_ifs at hs with haborts
    rw [hopen] at haborts
    cases haborts.2.1

/-- A batch that somebody listens to has a row to go on with, a result to give, or has ended. -/
theorem Sound.progresses (h : b.Sound fits) (hopen : b.receiver.closed = false)
    (hhealthy : b.failed = false) (hfits : ∀ row ∈ b.rows, ∃ result, fits row result = true) :
    (∃ a, a.panics = false ∧ (b.step fits a).isSome = true) ∨
      (∃ x u, b.pollNext = some (.ready (some x), u)) ∨ b.pollNext = some (.ready none, b) := by
  cases hbuffer : b.receiver.buffer with
  | cons x buffer =>
    refine Or.inr (Or.inl ⟨x, { b with receiver := { b.receiver with buffer } }, ?_⟩)
    unfold SpawnedBatch.pollNext
    rw [hbuffer]
  | nil =>
    cases hhandle : b.handle with
    | finished =>
      refine Or.inr (Or.inr ?_)
      have hhung : b.receiver.hungUp = true := h.hungUp.mpr (by rw [hhandle]; decide)
      unfold SpawnedBatch.pollNext
      rw [hbuffer]
      dsimp only
      rw [if_pos hhung, hhandle]
    | running =>
      refine Or.inl ?_
      cases hcurrent : b.current with
      | some row =>
        obtain ⟨result, hresult⟩ := hfits row (by simp [SpawnedBatch.rows, hcurrent])
        exact ⟨.ret result, rfl, by simp [SpawnedBatch.step, hcurrent, hhandle, hresult]⟩
      | none =>
        cases hpending : b.pending with
        | nil => exact ⟨.leave, rfl, by simp [SpawnedBatch.step, hcurrent, hpending, hhandle]⟩
        | cons row pending =>
          cases hcalls : b.calls with
          | true =>
            cases hchecked : b.checked with
            | true => exact ⟨.call, rfl, by simp [SpawnedBatch.step, hpending, hhandle, hchecked]⟩
            | false =>
              exact ⟨.check, rfl, by
                simp [SpawnedBatch.step, hcurrent, hpending, hhandle, hcalls, hchecked, hopen]⟩
          | false =>
            obtain ⟨result, hresult⟩ := hfits row (by simp [SpawnedBatch.rows, hpending])
            exact ⟨.ready 0 result, rfl,
              by simp [SpawnedBatch.step, hpending, hhandle, hcalls, hresult]⟩
    | panicked =>
      simp [failed, hhandle] at hhealthy
    | overflowed =>
      simp [failed, hhandle] at hhealthy
    | aborted =>
      simp [failed, hhandle] at hhealthy

end SpawnedBatch

namespace Runs

variable {s s' : Runs κ ρ} {calls : Bool}

def failed : Runs κ ρ → Bool
  | .once (.panicked _) => true
  | .once _ => false
  | .batch b => b.failed

def weight : Runs κ ρ → Nat
  | .once (.running _) => 3
  | .once (.returned _ _) => 2
  | .once _ => 1
  | .batch b => b.weight

theorem weight_pos (s : Runs κ ρ) : 0 < s.weight := by
  cases s with
  | batch b => exact Nat.succ_pos _
  | once run => cases run <;> simp [weight]

theorem Sound.lowers (h : s.Sound fits calls) (hopen : s.closed = false) {a : TaskStep ρ}
    (ha : a.panics = false) (hs : s.step fits a = some s') :
    s'.weight < s.weight ∧ s'.failed = false := by
  cases h with
  | batch hb hcalls =>
    obtain ⟨b', hstep, rfl⟩ := Option.map_eq_some_iff.mp hs
    exact hb.lowers hopen ha hstep
  | @once run hresult =>
    obtain ⟨run', hstep, rfl⟩ := Option.map_eq_some_iff.mp hs
    unfold SpawnedRun.step at hstep
    split at hstep
    · split_ifs at hstep
      cases hstep
      exact ⟨(by decide : 2 < 3), rfl⟩
    · cases ha
    · cases hstep

theorem Sound.progresses (h : s.Sound fits calls) (hopen : s.closed = false)
    (hhealthy : s.failed = false) (hfits : ∀ row ∈ s.rows, ∃ result, fits row result = true) :
    (∃ a, a.panics = false ∧ (s.step fits a).isSome = true) ∨
      (∃ x u, s.pollNext = some (.ready (some x), u)) ∨ s.pollNext = some (.ready none, s) := by
  cases h with
  | batch hb hcalls =>
    rcases hb.progresses hopen hhealthy hfits with ⟨a, ha, hstep⟩ | ⟨x, u, hpoll⟩ | hpoll
    · exact Or.inl ⟨a, ha, by rw [Runs.step, Option.isSome_map]; exact hstep⟩
    · exact Or.inr (Or.inl ⟨x, .batch u, by rw [Runs.pollNext, hpoll]; rfl⟩)
    · exact Or.inr (Or.inr (by rw [Runs.pollNext, hpoll]; rfl))
  | @once run hresult =>
    cases run with
    | running row =>
      obtain ⟨result, hfit⟩ := hfits row List.mem_cons_self
      exact Or.inl ⟨.ready 0 result, rfl, by simp [Runs.step, SpawnedRun.step, hfit]⟩
    | returned row result => exact Or.inr (Or.inl ⟨(row, result), .once .taken, rfl⟩)
    | panicked row => cases hhealthy
    | taken => exact Or.inr (Or.inr rfl)

/-- Receiving a result lowers the weight. -/
theorem weight_pollNext {x : κ × ρ} (hp : s.pollNext = some (.ready (some x), s')) :
    s'.weight < s.weight ∧ s'.failed = s.failed := by
  cases s with
  | once run =>
    cases run with
    | running row => cases hp
    | panicked row => cases hp
    | taken => cases hp
    | returned row result =>
      cases hp
      exact ⟨(by decide : 1 < 2), rfl⟩
  | batch b =>
    obtain ⟨⟨polled, b'⟩, hpoll, heq⟩ := Option.map_eq_some_iff.mp hp
    cases heq
    unfold SpawnedBatch.pollNext at hpoll
    split at hpoll
    · rename_i y buffer hbuffer
      cases hpoll
      refine ⟨?_, rfl⟩
      simp only [weight, SpawnedBatch.weight, hbuffer, List.length_cons]
      omega
    · split_ifs at hpoll
      · split at hpoll <;> cases hpoll
      · cases hpoll

end Runs
end Streams

section Queues

variable {κ ρ : Type} (fits : κ → ρ → Bool)

/-- What happens to a queue that nothing more is submitted to. -/
inductive QueueStep (ρ : Type) where
  | work (index : Nat) (a : TaskStep ρ)
  | next (turn : Turn ρ)
  | retire (index : Nat)

/-- No row panics. -/
def QueueStep.sound : QueueStep ρ → Bool
  | .work _ a => !a.panics
  | _ => true

namespace Queue

def step (q : Queue κ ρ × List (κ × ρ)) : QueueStep ρ → Option (Queue κ ρ × List (κ × ρ))
  | .work index a => (q.1.work fits index a).map (·, q.2)
  | .next turn => (q.1.next fits turn).map fun x => (x.2, q.2 ++ [x.1])
  | .retire index => (q.1.retire index).map (·, q.2)

def Healthy : Queue κ ρ → Prop
  | cooperative _ => True
  | workers streams => ∀ s ∈ streams, s.failed = false

instance : (q : Queue κ ρ) → Decidable q.Healthy
  | cooperative _ => instDecidableTrue
  | workers streams => List.decidableBAll (fun s : Runs κ ρ => s.failed = false) streams

def weight : Queue κ ρ → Nat
  | cooperative pending => pending.length
  | workers streams => (streams.map Runs.weight).sum

variable {fits} {q q' : Queue κ ρ × List (κ × ρ)}

theorem weight_set {streams : List (Runs κ ρ)} {index : Nat} {s : Runs κ ρ}
    (hs : streams[index]? = some s) (s' : Runs κ ρ) :
    ((streams.set index s').map Runs.weight).sum =
        s'.weight + ((streams.eraseIdx index).map Runs.weight).sum ∧
      (streams.map Runs.weight).sum =
        s.weight + ((streams.eraseIdx index).map Runs.weight).sum := by
  obtain ⟨hindex, rfl⟩ := List.getElem?_eq_some_iff.mp hs
  have hset := ((List.set_perm_cons_eraseIdx hindex s').map Runs.weight).sum_nat
  have hget := ((List.getElem_cons_eraseIdx_perm hindex).symm.map Runs.weight).sum_nat
  exact ⟨hset, hget⟩

/-- Every step lowers what is left to do, and loses nothing. -/
theorem lowers {a : QueueStep ρ} (h : q.1.Sound fits) (hhealthy : q.1.Healthy)
    (ha : a.sound = true) (hs : step fits q a = some q') :
    q'.1.weight < q.1.weight ∧ q'.1.Sound fits ∧ q'.1.Healthy ∧
      (q'.2.map Prod.fst ++ q'.1.rows).Perm (q.2.map Prod.fst ++ q.1.rows) := by
  obtain ⟨queue, received⟩ := q
  cases a with
  | work index a =>
    obtain ⟨queue', hwork, rfl⟩ := Option.map_eq_some_iff.mp hs
    obtain ⟨hsound, hrows⟩ := h.work hwork
    cases queue with
    | cooperative pending => cases hwork
    | workers streams =>
      obtain ⟨s, hget, hwork⟩ := Option.bind_eq_some_iff.mp hwork
      obtain ⟨s', hstep, hwork⟩ := Option.bind_eq_some_iff.mp hwork
      cases hwork
      obtain ⟨hopen, calls, hs⟩ := h s (List.mem_of_getElem? hget)
      obtain ⟨hless, hfine⟩ := hs.lowers hopen (by simpa [QueueStep.sound] using ha) hstep
      obtain ⟨hset, hold⟩ := weight_set hget s'
      refine ⟨?_, hsound, fun x hx => ?_, hrows.append_left _⟩
      · show ((streams.set index s').map Runs.weight).sum < (streams.map Runs.weight).sum
        omega
      · rcases List.mem_or_eq_of_mem_set hx with hx | rfl
        · exact hhealthy x hx
        · exact hfine
  | next turn =>
    obtain ⟨⟨x, queue'⟩, hnext, rfl⟩ := Option.map_eq_some_iff.mp hs
    obtain ⟨hsound, hrows, -⟩ := h.next hnext
    have hdelivered : ((received ++ [x]).map Prod.fst ++ queue'.rows).Perm
        (received.map Prod.fst ++ queue.rows) := by
      rw [List.map_append, List.append_assoc]
      exact (hrows.symm).append_left _
    cases queue with
    | cooperative pending =>
      cases turn with
      | stream index => cases hnext
      | future index result =>
        obtain ⟨row, hget, hnext⟩ := Option.bind_eq_some_iff.mp hnext
        split_ifs at hnext
        cases hnext
        have hindex := (List.getElem?_eq_some_iff.mp hget).1
        refine ⟨?_, trivial, trivial, hdelivered⟩
        show (pending.eraseIdx index).length < pending.length
        rw [List.length_eraseIdx_of_lt hindex]
        omega
    | workers streams =>
      cases turn with
      | future index result => cases hnext
      | stream index =>
        obtain ⟨s, hget, hnext⟩ := Option.bind_eq_some_iff.mp hnext
        obtain ⟨⟨polled, s'⟩, hpoll, hnext⟩ := Option.bind_eq_some_iff.mp hnext
        cases polled with
        | pending => cases hnext
        | ready item =>
          cases item with
          | none => cases hnext
          | some y =>
            cases hnext
            obtain ⟨hless, hsame⟩ := Runs.weight_pollNext hpoll
            obtain ⟨hset, hold⟩ := weight_set hget s'
            refine ⟨?_, hsound, fun z hz => ?_, hdelivered⟩
            · show ((streams.set index s').map Runs.weight).sum < (streams.map Runs.weight).sum
              omega
            · rcases List.mem_or_eq_of_mem_set hz with hz | rfl
              · exact hhealthy z hz
              · exact hsame.trans (hhealthy s (List.mem_of_getElem? hget))
  | retire index =>
    obtain ⟨queue', hretire, rfl⟩ := Option.map_eq_some_iff.mp hs
    obtain ⟨hsound, hrows⟩ := h.retire hretire
    cases queue with
    | cooperative pending => cases hretire
    | workers streams =>
      obtain ⟨s, hget, hretire⟩ := Option.bind_eq_some_iff.mp hretire
      obtain ⟨⟨polled, s'⟩, hpoll, hretire⟩ := Option.bind_eq_some_iff.mp hretire
      cases polled with
      | pending => cases hretire
      | ready item =>
        cases item with
        | some y => cases hretire
        | none =>
          cases hretire
          have hold := (weight_set hget s).2
          have hpos := s.weight_pos
          refine ⟨?_, hsound, fun z hz => hhealthy z (List.mem_of_mem_eraseIdx hz),
            hrows.append_left _⟩
          show ((streams.eraseIdx index).map Runs.weight).sum < (streams.map Runs.weight).sum
          omega

/-- A queue that holds something can be gone on with. -/
theorem progresses (h : q.1.Sound fits) (hhealthy : q.1.Healthy)
    (hfits : ∀ row ∈ q.1.rows, ∃ result, fits row result = true)
    (hstuck : ∀ a, QueueStep.sound a = true → step fits q a = none) : q.1.exhausted = true := by
  obtain ⟨queue, received⟩ := q
  cases queue with
  | cooperative pending =>
    cases pending with
    | nil => rfl
    | cons row pending =>
      obtain ⟨result, hresult⟩ := hfits row List.mem_cons_self
      have hnone := hstuck (.next (.future 0 result)) rfl
      simp [step, Queue.next, hresult] at hnone
  | workers streams =>
    cases streams with
    | nil => rfl
    | cons s streams =>
      obtain ⟨hopen, calls, hsound⟩ := h s List.mem_cons_self
      have hrows : ∀ row ∈ s.rows, ∃ result, fits row result = true := fun row hrow =>
        hfits row (List.mem_append_left _ hrow)
      rcases hsound.progresses hopen (hhealthy s List.mem_cons_self) hrows with
        ⟨a, ha, hstep⟩ | ⟨x, u, hpoll⟩ | hpoll
      · obtain ⟨s', hs'⟩ := Option.isSome_iff_exists.mp hstep
        have hnone := hstuck (.work 0 a) (by simp [QueueStep.sound, ha])
        simp [step, work, hs'] at hnone
      · have hnone := hstuck (.next (.stream 0)) rfl
        simp [step, Queue.next, hpoll] at hnone
      · have hnone := hstuck (.retire 0) rfl
        simp [step, retire, hpoll] at hnone

end Queue
end Queues

section Waiting

variable {α : Type}

/-- A step of a worker or of the receiver, in which no row panics. -/
def DispatchStep.delivers : DispatchStep α → Bool
  | .work _ _ a => !a.panics
  | .next .. | .retire .. => true
  | _ => false

namespace Dispatched

variable {P : Program α} {setting : Setting} {d d' : Dispatched α} {steps : List (DispatchStep α)}

/-- No task of the loop has failed. -/
def Healthy (d : Dispatched α) : Prop := d.readers.Healthy ∧ d.writers.Healthy

/-- What the workers and the receiver have left to do. -/
def weight (d : Dispatched α) : Nat := d.readers.weight + d.writers.weight

/-- Both queues are sound and healthy. -/
structure Working (d : Dispatched α) : Prop where
  readers : d.readers.Sound fits
  writers : d.writers.Sound fits
  healthy : d.Healthy

theorem exists_fits (row : Row) : ∃ outcome : RunOutcome α, fits row outcome = true := by
  refine ⟨⟨.replicate row.2.startHooks [], .replicate row.2.rows.length [],
    .replicate row.2.completeHooks []⟩, ?_⟩
  simp [fits, PlannedSystemRun.fits]

theorem onQueue_eq_some {writer : Bool}
    {f : Queue Row (RunOutcome α) → Option (Queue Row (RunOutcome α))}
    (h : d.onQueue writer f = some d') :
    d'.runner = d.runner ∧ d'.batch = d.batch ∧
      (d'.readers = d.readers ∧ f d.writers = some d'.writers ∨
        d'.writers = d.writers ∧ f d.readers = some d'.readers) := by
  cases writer with
  | true =>
    obtain ⟨queue, hqueue, rfl⟩ := Option.map_eq_some_iff.mp h
    exact ⟨rfl, rfl, Or.inl ⟨rfl, hqueue⟩⟩
  | false =>
    obtain ⟨queue, hqueue, rfl⟩ := Option.map_eq_some_iff.mp h
    exact ⟨rfl, rfl, Or.inr ⟨rfl, hqueue⟩⟩

/-- A delivering step is a step of one of the queues, and the loop stays where it is. -/
theorem exists_queueStep {a : DispatchStep α} (ha : a.delivers = true)
    (hs : d.step P setting a = some d') :
    d'.runner = d.runner ∧ ∃ b : QueueStep (RunOutcome α), b.sound = true ∧
      (d'.readers = d.readers ∧
          Queue.step fits (d.writers, d.batch) b = some (d'.writers, d'.batch) ∨
        d'.writers = d.writers ∧
          Queue.step fits (d.readers, d.batch) b = some (d'.readers, d'.batch)) := by
  cases a with
  | loop a => cases ha
  | dispatch calls => cases ha
  | commit => cases ha
  | preempt => cases ha
  | work writer index a =>
    obtain ⟨hrunner, hbatch, hqueue⟩ := onQueue_eq_some hs
    rw [hbatch]
    exact ⟨hrunner, .work index a, ha, hqueue.imp
      (And.imp_right fun hwork => Option.map_eq_some_iff.mpr ⟨_, hwork, rfl⟩)
      (And.imp_right fun hwork => Option.map_eq_some_iff.mpr ⟨_, hwork, rfl⟩)⟩
  | retire writer index =>
    obtain ⟨hrunner, hbatch, hqueue⟩ := onQueue_eq_some hs
    rw [hbatch]
    exact ⟨hrunner, .retire index, rfl, hqueue.imp
      (And.imp_right fun hretire => Option.map_eq_some_iff.mpr ⟨_, hretire, rfl⟩)
      (And.imp_right fun hretire => Option.map_eq_some_iff.mpr ⟨_, hretire, rfl⟩)⟩
  | next writer turn =>
    by_cases htakes : d.takes writer = true
    swap
    · cases (if_neg htakes).symm.trans hs
    replace hs := (if_pos htakes).symm.trans hs
    obtain ⟨⟨x, queue⟩, hnext, hs⟩ := Option.bind_eq_some_iff.mp hs
    cases writer with
    | true =>
      cases hs
      exact ⟨rfl, .next turn, rfl,
        Or.inl ⟨rfl, Option.map_eq_some_iff.mpr ⟨(x, queue), hnext, rfl⟩⟩⟩
    | false =>
      cases hs
      exact ⟨rfl, .next turn, rfl,
        Or.inr ⟨rfl, Option.map_eq_some_iff.mpr ⟨(x, queue), hnext, rfl⟩⟩⟩

theorem Working.step (h : d.Working) {a : DispatchStep α} (ha : a.delivers = true)
    (hs : d.step P setting a = some d') :
    d'.Working ∧ d'.weight < d.weight ∧ d'.inFlight.Perm d.inFlight ∧ d'.runner = d.runner := by
  obtain ⟨hrunner, b, hb, hqueue⟩ := exists_queueStep ha hs
  rcases hqueue with ⟨hsame, hstep⟩ | ⟨hsame, hstep⟩
  · obtain ⟨hless, hsound, hhealthy, hrows⟩ := Queue.lowers h.writers h.healthy.2 hb hstep
    refine ⟨⟨hsame ▸ h.readers, hsound, hsame ▸ h.healthy.1, hhealthy⟩, ?_, ?_, hrunner⟩
    · simp only [weight, hsame]
      exact Nat.add_lt_add_left hless _
    · simp only [inFlight, hsame, List.append_assoc]
      exact ((List.perm_append_comm.trans hrows).trans List.perm_append_comm).append_left _
  · obtain ⟨hless, hsound, hhealthy, hrows⟩ := Queue.lowers h.readers h.healthy.1 hb hstep
    refine ⟨⟨hsound, hsame ▸ h.writers, hhealthy, hsame ▸ h.healthy.2⟩, ?_, ?_, hrunner⟩
    · simp only [weight, hsame]
      exact Nat.add_lt_add_right hless _
    · have hswap : ∀ rows batch : List Row, (rows ++ d.writers.rows ++ batch).Perm
          (batch ++ rows ++ d.writers.rows) := fun rows batch =>
        List.perm_append_comm.trans (.of_eq (List.append_assoc _ _ _).symm)
      simp only [inFlight, hsame]
      exact (hswap _ _).trans ((hrows.append_right _).trans (hswap _ _).symm)

theorem Working.run : ∀ {steps : List (DispatchStep α)} {d : Dispatched α}, d.Working →
    (∀ a ∈ steps, a.delivers = true) → (machine P setting).run d steps = some d' →
      d'.Working ∧ steps.length + d'.weight ≤ d.weight ∧ d'.inFlight.Perm d.inFlight ∧
        d'.runner = d.runner
  | [], d, h, _, hs => by
    cases hs
    exact ⟨h, by simp, .refl _, rfl⟩
  | a :: steps, d, h, hsteps, hs => by
    obtain ⟨middle, hstep, hrest⟩ := Option.bind_eq_some_iff.mp hs
    obtain ⟨hmiddle, hless, hflight, hrunner⟩ := h.step (hsteps a List.mem_cons_self) hstep
    obtain ⟨hworking, hlength, hflight', hrunner'⟩ := hmiddle.run
      (fun b hb => hsteps b (List.mem_cons_of_mem a hb)) hrest
    refine ⟨hworking, ?_, hflight'.trans hflight, hrunner'.trans hrunner⟩
    rw [List.length_cons]
    omega

/-- Where no delivering step goes on, neither does the queue that the loop takes from. -/
theorem queueStep_eq_none {writer : Bool} (htakes : d.takes writer = true)
    (hstuck : ∀ a : DispatchStep α, a.delivers = true → d.step P setting a = none)
    {b : QueueStep (RunOutcome α)} (hb : b.sound = true) :
    Queue.step fits (if writer then d.writers else d.readers, d.batch) b = none := by
  cases b with
  | work index a =>
    have hnone := hstuck (.work writer index a) hb
    cases writer <;> exact Option.map_eq_none_iff.mpr (Option.map_eq_none_iff.mp hnone)
  | retire index =>
    have hnone := hstuck (.retire writer index) rfl
    cases writer <;> exact Option.map_eq_none_iff.mpr (Option.map_eq_none_iff.mp hnone)
  | next turn =>
    have hnone := (if_pos htakes).symm.trans (hstuck (.next writer turn) rfl)
    have hqueue : (if writer then d.writers else d.readers).next fits turn = none := by
      cases hnext : (if writer then d.writers else d.readers).next fits turn with
      | none => rfl
      | some x =>
        rw [hnext] at hnone
        cases hnone
    exact Option.map_eq_none_iff.mpr hqueue

/-- A queue that the loop takes from and that cannot be gone on with has ended. -/
theorem Working.exhausted (h : d.Working)
    (hstuck : ∀ a : DispatchStep α, a.delivers = true → d.step P setting a = none) :
    (d.takes true = true → d.writers.exhausted = true) ∧
      (d.takes false = true → d.readers.exhausted = true) := by
  constructor
  · exact fun htakes => Queue.progresses (q := (d.writers, d.batch)) h.writers h.healthy.2
      (fun row _ => exists_fits row) fun _ hb => queueStep_eq_none htakes hstuck hb
  · exact fun htakes => Queue.progresses (q := (d.readers, d.batch)) h.readers h.healthy.1
      (fun row _ => exists_fits row) fun _ hb => queueStep_eq_none htakes hstuck hb

/-- As long as no row panics, the workers and queues of a waiting loop run out of steps, lose
nothing, and stop with every run handed over. -/
theorem run_delivers (h : (machine P setting).Reachable d) (hhealthy : d.Healthy)
    (hsteps : ∀ a ∈ steps, a.delivers = true) (hrun : (machine P setting).run d steps = some d') :
    steps.length + d'.weight ≤ d.weight ∧ d'.inFlight.Perm d.inFlight ∧ d'.runner = d.runner ∧
      ((∀ a : DispatchStep α, a.delivers = true → d'.step P setting a = none) →
        (d'.takes true = true → d'.writers.exhausted = true) ∧
        (d'.takes false = true → d'.readers.exhausted = true) ∧
        ∀ quiet, d.runner.loop.stage = .waiting quiet →
          (d'.batch.map Prod.fst).Perm d.inFlight) := by
  obtain ⟨running, -, hrefines⟩ := exists_refines h
  have hworking : d.Working := ⟨hrefines.readers, hrefines.writers, hhealthy⟩
  obtain ⟨hworking', hlength, hflight, hrunner⟩ := hworking.run hsteps hrun
  refine ⟨hlength, hflight, hrunner, fun hstuck => ?_⟩
  obtain ⟨hwriters, hreaders⟩ := hworking'.exhausted hstuck
  refine ⟨hwriters, hreaders, fun quiet hstage => ?_⟩
  have htakes : ∀ writer, d'.takes writer = true := by
    intro writer
    unfold takes
    rw [hrunner, hstage]
  rw [inFlight, Queue.rows_of_exhausted (hreaders (htakes false)),
    Queue.rows_of_exhausted (hwriters (htakes true))] at hflight
  exact hflight

/-- Five readers in batches of two and one writer are out. -/
def awaited : Dispatched Nat :=
  ((machine mixedBowl lone).run (enter mixedBowl lone mixedState ∅ .evaluate)
    [.loop .turn, .loop .planNext, .dispatch false, .loop .planNext, .dispatch true,
      .loop .endWave]).getD (enter mixedBowl lone mixedState ∅ .evaluate)

/-- The writer is back first; the batches of readers end one after the other. -/
def deliveries : List (DispatchStep Nat) :=
  [.work true 0 (.ready 0 unheard), .next true (.stream 0), .retire true 0,
    .work false 1 (.ready 1 unheard), .work false 0 (.ready 0 unheard), .next false (.stream 1),
    .work false 2 (.ready 0 unheard), .next false (.stream 2), .retire false 2,
    .work false 1 (.ready 0 unheard), .work false 1 .leave, .next false (.stream 1), .retire false 1,
    .next false (.stream 0), .work false 0 (.ready 0 unheard), .next false (.stream 0),
    .work false 0 .leave, .retire false 0]

def handed : Dispatched Nat := ((machine mixedBowl lone).run awaited deliveries).getD awaited

theorem awaited_delivers : deliveries.length = 18 ∧ awaited.inFlight.length = 6 ∧
    (handed.batch.map Prod.fst).Perm awaited.inFlight := by
  have hentered : (machine mixedBowl lone).run (enter mixedBowl lone mixedState ∅ .evaluate)
      [.loop .turn, .loop .planNext, .dispatch false, .loop .planNext, .dispatch true,
        .loop .endWave] = some awaited := rfl
  have hreached : (machine mixedBowl lone).Reachable awaited :=
    Machine.Reachable.run (.init ⟨mixedState, ∅, .evaluate, rfl⟩) hentered
  have hhealthy : awaited.Healthy := ⟨by decide, by decide⟩
  have hrun : (machine mixedBowl lone).run awaited deliveries = some handed := rfl
  obtain ⟨-, -, -, hstuck⟩ := run_delivers hreached hhealthy (by decide) hrun
  refine ⟨rfl, rfl, (hstuck fun a ha => ?_).2.2 false rfl⟩
  cases a with
  | loop a => cases ha
  | dispatch calls => cases ha
  | commit => cases ha
  | preempt => cases ha
  | work writer index a => cases writer <;> rfl
  | next writer turn => cases writer <;> cases turn <;> rfl
  | retire writer index => cases writer <;> rfl

end Dispatched
end Waiting

end Dispatch
end Porridge
