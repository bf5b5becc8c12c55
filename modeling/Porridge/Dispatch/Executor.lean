import Mathlib.Data.List.Perm.Basic
import Porridge.Lib.Machine

/-! Batches of rows run by one task each, and the channel that streams what they finish. -/
namespace Porridge
namespace Dispatch

/-- A bounded channel with one sender and one receiver, as tokio documents it. -/
structure Mpsc (β : Type) where
  capacity : Nat
  buffer : List β
  /-- The receiver is dropped. -/
  closed : Bool
  /-- The sender is dropped. -/
  hungUp : Bool

inductive TrySendError where
  | full
  | closed
deriving DecidableEq

namespace Mpsc

variable {β : Type}

def channel (capacity : Nat) : Mpsc β := ⟨capacity, [], false, false⟩

def trySend (c : Mpsc β) (x : β) : Except TrySendError (Mpsc β) :=
  if c.closed then .error .closed
  else if c.buffer.length < c.capacity then .ok { c with buffer := c.buffer ++ [x] }
  else .error .full

end Mpsc

/-- How a spawned task stands, as tokio's handle reports it. -/
inductive Handle where
  | running
  | finished
  /-- A row panicked. -/
  | panicked
  /-- The completion capacity did not cover a row, which panics. -/
  | overflowed
  | aborted
deriving DecidableEq

/-- Rows `κ` with results `ρ`, run by one task. -/
structure SpawnedBatch (κ ρ : Type) where
  /-- Plain calls run one after the other, futures as they become ready. -/
  calls : Bool
  pending : List κ
  /-- The call that is running. -/
  current : Option κ
  /-- The next call may begin: the channel was open when it was looked at. -/
  checked : Bool
  receiver : Mpsc (κ × ρ)
  handle : Handle

/-- A row with a task of its own. -/
inductive SpawnedRun (κ ρ : Type) where
  | running (row : κ)
  | returned (row : κ) (result : ρ)
  | panicked (row : κ)
  /-- Its result has been taken. -/
  | taken

/-- The stream of a submission. -/
inductive Runs (κ ρ : Type) where
  | once (run : SpawnedRun κ ρ)
  | batch (b : SpawnedBatch κ ρ)

/-- What a worker does next. -/
inductive TaskStep (ρ : Type) where
  /-- A future becomes ready, and its result is sent. -/
  | ready (index : Nat) (result : ρ)
  /-- Go on to the next call, unless nobody listens any more. -/
  | check
  /-- Begin the call. -/
  | call
  /-- The running call returns, and its result is sent. -/
  | ret (result : ρ)
  | leave
  | panic
  /-- The task of a dropped stream stops at a point where it yields. -/
  | abort

/-- What a receiver learns; a task that failed panics instead. -/
inductive Polled (β : Type) where
  | pending
  | ready (item : Option β)

namespace SpawnedBatch

variable {κ ρ : Type} (fits : κ → ρ → Bool) (b : SpawnedBatch κ ρ)

def exit (handle : Handle) : SpawnedBatch κ ρ :=
  { b with handle, receiver := { b.receiver with hungUp := true } }

def send (x : κ × ρ) : SpawnedBatch κ ρ :=
  match b.receiver.trySend x with
  | .ok receiver => { b with receiver }
  | .error .closed => b.exit .finished
  | .error .full => b.exit .overflowed

def step : TaskStep ρ → Option (SpawnedBatch κ ρ)
  | .ready index result => do
    let row ← b.pending[index]?
    if b.handle = .running ∧ b.calls = false ∧ fits row result = true then
      some ({ b with pending := b.pending.eraseIdx index }.send (row, result))
    else none
  | .check =>
    if b.handle = .running ∧ b.calls = true ∧ b.current.isNone ∧ b.checked = false ∧ b.pending ≠ []
    then
      if b.receiver.closed then some (b.exit .finished) else some { b with checked := true }
    else none
  | .call =>
    match b.pending with
    | row :: pending =>
      if b.handle = .running ∧ b.checked = true then
        some { b with pending, current := some row, checked := false }
      else none
    | [] => none
  | .ret result => do
    let row ← b.current
    if b.handle = .running ∧ fits row result = true then
      some ({ b with current := none }.send (row, result))
    else none
  | .leave =>
    if b.handle = .running ∧ b.pending = [] ∧ b.current.isNone then some (b.exit .finished)
    else none
  | .panic =>
    if b.handle = .running ∧ (b.current.isSome ∨ b.calls = false ∧ b.pending ≠ []) then
      some (b.exit .panicked)
    else none
  | .abort =>
    if b.handle = .running ∧ b.receiver.closed = true ∧ b.current.isNone ∧ b.checked = false then
      some (b.exit .aborted)
    else none

def pollNext : Option (Polled (κ × ρ) × SpawnedBatch κ ρ) :=
  match b.receiver.buffer with
  | x :: buffer => some (.ready (some x), { b with receiver := { b.receiver with buffer } })
  | [] =>
    if b.receiver.hungUp then
      match b.handle with
      | .running => some (.pending, b)
      | .finished => some (.ready none, b)
      | _ => none
    else some (.pending, b)

def rows : List κ := b.receiver.buffer.map Prod.fst ++ (b.current.toList ++ b.pending)

end SpawnedBatch

namespace SpawnedRun

variable {κ ρ : Type} (fits : κ → ρ → Bool)

def step : SpawnedRun κ ρ → TaskStep ρ → Option (SpawnedRun κ ρ)
  | .running row, .ready 0 result => if fits row result then some (.returned row result) else none
  | .running row, .panic => some (.panicked row)
  | _, _ => none

def pollNext : SpawnedRun κ ρ → Option (Polled (κ × ρ) × SpawnedRun κ ρ)
  | .running row => some (.pending, .running row)
  | .returned row result => some (.ready (some (row, result)), .taken)
  | .panicked _ => none
  | .taken => some (.ready none, .taken)

def rows : SpawnedRun κ ρ → List κ
  | .running row | .returned row _ | .panicked row => [row]
  | .taken => []

end SpawnedRun

namespace Runs

variable {κ ρ : Type} (fits : κ → ρ → Bool)

/-- One task for the rows of a submission. -/
def spawn (calls : Bool) : List κ → Runs κ ρ
  | [] => .once .taken
  | [row] => .once (.running row)
  | rows => .batch ⟨calls, rows, none, false, .channel rows.length, .running⟩

def step : Runs κ ρ → TaskStep ρ → Option (Runs κ ρ)
  | .once run, a => (run.step fits a).map .once
  | .batch b, a => (b.step fits a).map .batch

def pollNext : Runs κ ρ → Option (Polled (κ × ρ) × Runs κ ρ)
  | .once run => run.pollNext.map fun x => (x.1, .once x.2)
  | .batch b => b.pollNext.map fun x => (x.1, .batch x.2)

def rows : Runs κ ρ → List κ
  | .once run => run.rows
  | .batch b => b.rows

/-- Nobody listens to a dropped stream. -/
def close : Runs κ ρ → Runs κ ρ
  | .once run => .once run
  | .batch b => .batch { b with receiver := { b.receiver with closed := true } }

def overflowed : Runs κ ρ → Bool
  | .once _ => false
  | .batch b => b.handle == .overflowed

end Runs

/-- A submission with what the receiver has got of it. -/
structure Delivery (κ ρ : Type) where
  rows : List κ
  calls : Bool
  stream : Runs κ ρ
  received : List (κ × ρ)
  /-- The receiver was told that nothing more comes. -/
  ended : Bool
  /-- The calls that a batch has begun. -/
  begun : List κ
  /-- The calls that had begun when the stream was dropped, and the one that was about to. -/
  dropped : Option (List κ × List κ)

inductive DeliveryStep (ρ : Type) where
  | work (step : TaskStep ρ)
  | poll
  | drop

namespace Delivery

variable {κ ρ : Type} (fits : κ → ρ → Bool)

def submit (calls : Bool) (rows : List κ) : Delivery κ ρ :=
  ⟨rows, calls, .spawn calls rows, [], false, [], none⟩

def begins : Runs κ ρ → TaskStep ρ → List κ
  | .batch b, .call => b.pending.take 1
  | _, _ => []

/-- The call that may begin without another look at the channel. -/
def cleared : Runs κ ρ → List κ
  | .batch b => if b.checked then b.pending.take 1 else []
  | .once _ => []

def step (d : Delivery κ ρ) : DeliveryStep ρ → Option (Delivery κ ρ)
  | .work a => (d.stream.step fits a).map fun stream =>
    { d with stream, begun := d.begun ++ begins d.stream a }
  | .poll =>
    if d.dropped.isSome then none
    else do
      let (polled, stream) ← d.stream.pollNext
      match polled with
      | .pending => some { d with stream }
      | .ready (some x) => some { d with stream, received := d.received ++ [x] }
      | .ready none => some { d with stream, ended := true }
  | .drop =>
    if d.dropped.isSome then none
    else some { d with stream := d.stream.close, dropped := some (d.begun, cleared d.stream) }

def machine : Machine (Delivery κ ρ) (DeliveryStep ρ) where
  init d := ∃ calls rows, d = submit calls rows
  step := step fits

end Delivery

section Batches

variable {κ ρ : Type} {fits : κ → ρ → Bool}

namespace SpawnedBatch

variable {b b' : SpawnedBatch κ ρ}

/-- The completion capacity covers every row, the sender lives as long as the task, and a task that
somebody listens to finishes when its rows have. -/
structure Sound (fits : κ → ρ → Bool) (b : SpawnedBatch κ ρ) : Prop where
  covered : b.rows.length ≤ b.receiver.capacity
  hungUp : b.receiver.hungUp = true ↔ b.handle ≠ .running
  finished : b.handle = .finished → b.receiver.closed = false → b.pending = [] ∧ b.current = none
  room : b.handle ≠ .overflowed
  futures : b.calls = false → b.current = none
  checked : b.checked = true → b.calls = true ∧ b.current = none ∧ b.pending ≠ []
  results : ∀ x ∈ b.receiver.buffer, fits x.1 x.2 = true

/-- What a step of the worker leaves as it is. -/
structure Conserves (b b' : SpawnedBatch κ ρ) : Prop where
  calls : b'.calls = b.calls
  closed : b'.receiver.closed = b.receiver.closed
  rows : b.receiver.closed = false → b'.rows.Perm b.rows
  order : b.receiver.closed = false → b.calls = true → b'.rows = b.rows

theorem Sound.exit (h : b.Sound fits) {handle : Handle} (hrunning : handle ≠ .running)
    (hroom : handle ≠ .overflowed)
    (hfinished : handle = .finished → b.receiver.closed = false → b.pending = [] ∧ b.current = none) :
    (b.exit handle).Sound fits where
  covered := h.covered
  hungUp := ⟨fun _ => hrunning, fun _ => rfl⟩
  finished := hfinished
  room := hroom
  futures := h.futures
  checked := h.checked
  results := h.results

theorem conserves_exit (b : SpawnedBatch κ ρ) (handle : Handle) : Conserves b (b.exit handle) :=
  ⟨rfl, rfl, fun _ => .refl _, fun _ _ => rfl⟩

/-- A result that the capacity covers goes into the channel. -/
theorem send_of_open {u : SpawnedBatch κ ρ} {x : κ × ρ} (hopen : u.receiver.closed = false)
    (hroom : u.receiver.buffer.length < u.receiver.capacity) :
    u.send x = { u with receiver := { u.receiver with buffer := u.receiver.buffer ++ [x] } } := by
  unfold send Mpsc.trySend
  rw [if_neg (by rw [hopen]; decide), if_pos hroom]

theorem send_next (u : SpawnedBatch κ ρ) (x : κ × ρ) :
    (u.send x).checked = u.checked ∧ (u.send x).pending = u.pending := by
  unfold send
  split <;> exact ⟨rfl, rfl⟩

/-- A row that the batch `u` is one short of is sent, or the task ends because nobody listens. -/
theorem Sound.send {u : SpawnedBatch κ ρ} (h : b.Sound fits) {x : κ × ρ}
    (hfits : fits x.1 x.2 = true) (hreceiver : u.receiver = b.receiver) (hcalls : u.calls = b.calls)
    (hhandle : u.handle = b.handle) (hrunning : b.handle = .running) (hcurrent : u.current = none)
    (hchecked : u.checked = false)
    (hrows : (x.1 :: u.rows).Perm b.rows)
    (horder : b.calls = true → b.receiver.buffer.map Prod.fst ++ x.1 :: u.pending = b.rows) :
    (u.send x).Sound fits ∧ Conserves b (u.send x) := by
  have hlength : u.rows.length + 1 = b.rows.length := hrows.length_eq
  have hcovered := h.covered
  have hbuffer : u.receiver.buffer.length ≤ u.rows.length := by
    unfold SpawnedBatch.rows
    simp
  cases hclosed : b.receiver.closed with
  | true =>
    have hsent : u.send x = u.exit .finished := by
      unfold SpawnedBatch.send Mpsc.trySend
      rw [hreceiver, hclosed]
      rfl
    rw [hsent]
    refine ⟨⟨?_, ⟨fun _ heq => (by cases heq), fun _ => rfl⟩, fun _ hopen => ?_,
      fun heq => (by cases heq), fun _ => hcurrent, fun hyes => ?_, ?_⟩,
      ⟨hcalls, ?_, fun hopen => ?_, fun hopen => ?_⟩⟩
    · show u.rows.length ≤ u.receiver.capacity
      rw [hreceiver]
      omega
    · have hstill : u.receiver.closed = false := hopen
      rw [hreceiver, hclosed] at hstill
      cases hstill
    · cases hchecked.symm.trans hyes
    · show ∀ y ∈ u.receiver.buffer, fits y.1 y.2 = true
      rw [hreceiver]
      exact h.results
    · show u.receiver.closed = b.receiver.closed
      rw [hreceiver]
    · exact absurd (hclosed.symm.trans hopen) (by decide)
    · exact absurd (hclosed.symm.trans hopen) (by decide)
  | false =>
    have hfree : u.receiver.buffer.length < u.receiver.capacity := by
      have hcapacity : u.receiver.capacity = b.receiver.capacity := by rw [hreceiver]
      omega
    have hsent := send_of_open (u := u) (x := x) (by rw [hreceiver, hclosed]) hfree
    have hsame : (u.send x).rows = u.receiver.buffer.map Prod.fst ++ x.1 :: u.pending := by
      rw [hsent]
      simp [SpawnedBatch.rows, hcurrent]
    have hperm : (u.send x).rows.Perm b.rows := by
      refine List.Perm.trans ?_ hrows
      rw [hsame, SpawnedBatch.rows, hcurrent]
      exact List.perm_middle
    refine ⟨⟨?_, ?_, ?_, ?_, ?_, ?_, ?_⟩, ⟨?_, ?_, fun _ => hperm, fun _ hordered => ?_⟩⟩
    · rw [hperm.length_eq, hsent]
      show b.rows.length ≤ u.receiver.capacity
      rw [hreceiver]
      exact hcovered
    · rw [hsent]
      show u.receiver.hungUp = true ↔ u.handle ≠ .running
      rw [hreceiver, hhandle]
      exact h.hungUp
    · rw [hsent]
      intro hfinished
      have hidle : u.handle = .finished := hfinished
      rw [hhandle, hrunning] at hidle
      cases hidle
    · rw [hsent]
      show u.handle ≠ .overflowed
      rw [hhandle]
      exact h.room
    · rw [hsent]
      exact fun _ => hcurrent
    · rw [hsent]
      exact fun hyes => absurd (hchecked.symm.trans hyes) (by decide)
    · rw [hsent]
      intro y hy
      rcases List.mem_append.mp hy with hold | hnew
      · exact h.results y (hreceiver ▸ hold)
      · rw [List.mem_singleton.mp hnew]
        exact hfits
    · rw [hsent]
      exact hcalls
    · rw [hsent]
      show u.receiver.closed = b.receiver.closed
      rw [hreceiver]
    · rw [hsame, hreceiver]
      exact horder hordered

/-- A step of the worker keeps the batch sound, and all its rows in their order if they are calls. -/
theorem Sound.step (h : b.Sound fits) {a : TaskStep ρ} (hs : b.step fits a = some b') :
    b'.Sound fits ∧ Conserves b b' := by
  cases a with
  | ready index result =>
    obtain ⟨row, hrow, hs⟩ := Option.bind_eq_some_iff.mp hs
    split_ifs at hs with hready
    obtain ⟨hrunning, hfutures, hfits⟩ := hready
    cases hs
    obtain ⟨hindex, rfl⟩ := List.getElem?_eq_some_iff.mp hrow
    have hcurrent := h.futures hfutures
    have hunchecked : b.checked = false := Bool.eq_false_iff.mpr fun hyes =>
      absurd (hfutures.symm.trans (h.checked hyes).1) (by decide)
    refine h.send (u := { b with pending := b.pending.eraseIdx index }) hfits rfl rfl rfl hrunning
      hcurrent hunchecked ?_ fun hcalls => ?_
    · have hpending := List.getElem_cons_eraseIdx_perm hindex
      simp only [SpawnedBatch.rows, hcurrent, Option.toList_none, List.nil_append]
      exact List.perm_middle.symm.trans (hpending.append_left _)
    · rw [hfutures] at hcalls
      cases hcalls
  | check =>
    simp only [SpawnedBatch.step] at hs
    split_ifs at hs with hnext hclosed
    · cases hs
      refine ⟨h.exit (by decide) (by decide) fun _ hopen => ?_, conserves_exit b _⟩
      rw [hclosed] at hopen
      cases hopen
    · cases hs
      obtain ⟨hrunning, hcalls, hcurrent, -, hpending⟩ := hnext
      exact ⟨⟨h.covered, h.hungUp, h.finished, h.room, h.futures,
        fun _ => ⟨hcalls, Option.isNone_iff_eq_none.mp hcurrent, hpending⟩, h.results⟩,
        ⟨rfl, rfl, fun _ => .refl _, fun _ _ => rfl⟩⟩
  | call =>
    simp only [SpawnedBatch.step] at hs
    split at hs
    · rename_i row pending hpending
      split_ifs at hs with hready
      cases hs
      obtain ⟨hcalls, hcurrent, -⟩ := h.checked hready.2
      have hrows : ({ b with pending, current := some row, checked := false } :
          SpawnedBatch κ ρ).rows = b.rows := by
        simp [SpawnedBatch.rows, hcurrent, hpending]
      refine ⟨⟨?_, h.hungUp, fun hfinished => ?_, h.room, fun hfutures => ?_,
        fun hyes => (by cases hyes), h.results⟩, ⟨rfl, rfl, fun _ => hrows ▸ .refl _, fun _ _ => hrows⟩⟩
      · rw [hrows]
        exact h.covered
      · have hidle : b.handle = .finished := hfinished
        rw [hready.1] at hidle
        cases hidle
      · have hnot : b.calls = false := hfutures
        rw [hcalls] at hnot
        cases hnot
    · cases hs
  | ret result =>
    obtain ⟨row, hrow, hs⟩ := Option.bind_eq_some_iff.mp hs
    split_ifs at hs with hready
    cases hs
    have hunchecked : b.checked = false := Bool.eq_false_iff.mpr fun hyes =>
      absurd ((h.checked hyes).2.1.symm.trans hrow) (by simp)
    refine h.send (u := { b with current := none }) hready.2 rfl rfl rfl hready.1 rfl hunchecked ?_
      fun _ => ?_
    · simp only [SpawnedBatch.rows, hrow, Option.toList_none, Option.toList_some, List.nil_append,
        List.cons_append]
      exact List.perm_middle.symm
    · simp [SpawnedBatch.rows, hrow]
  | leave =>
    simp only [SpawnedBatch.step] at hs
    split_ifs at hs with hdone
    cases hs
    refine ⟨h.exit (by decide) (by decide) fun _ _ => ?_, conserves_exit b _⟩
    exact ⟨hdone.2.1, Option.isNone_iff_eq_none.mp hdone.2.2⟩
  | panic =>
    simp only [SpawnedBatch.step] at hs
    split_ifs at hs
    cases hs
    exact ⟨h.exit (by decide) (by decide) fun heq => (by cases heq), conserves_exit b _⟩
  | abort =>
    simp only [SpawnedBatch.step] at hs
    split_ifs at hs
    cases hs
    exact ⟨h.exit (by decide) (by decide) fun heq => (by cases heq), conserves_exit b _⟩

def Answers (fits : κ → ρ → Bool) (b b' : SpawnedBatch κ ρ) : Polled (κ × ρ) → Prop
  | .pending => b' = b
  | .ready (some x) => b.rows = x.1 :: b'.rows ∧ fits x.1 x.2 = true
  | .ready none => b' = b ∧ (b.receiver.closed = false → b.rows = [])

/-- Taking a result leaves the others, and the end is reported when nothing is left. -/
theorem Sound.pollNext (h : b.Sound fits) {polled : Polled (κ × ρ)}
    (hp : b.pollNext = some (polled, b')) :
    b'.Sound fits ∧ b'.calls = b.calls ∧ b'.receiver.closed = b.receiver.closed ∧
      Answers fits b b' polled := by
  unfold SpawnedBatch.pollNext at hp
  cases hbuffer : b.receiver.buffer with
  | cons x buffer =>
    rw [hbuffer] at hp
    cases hp
    have hrows : b.rows = x.1 :: SpawnedBatch.rows
        { b with receiver := { b.receiver with buffer } } := by
      simp [SpawnedBatch.rows, hbuffer]
    have hcovered := h.covered
    rw [hrows, List.length_cons] at hcovered
    refine ⟨⟨Nat.le_of_succ_le hcovered, h.hungUp, h.finished, h.room, h.futures, h.checked,
      fun y hy => ?_⟩, rfl, rfl, hrows, ?_⟩
    · exact h.results y (hbuffer ▸ List.mem_cons_of_mem x hy)
    · exact h.results x (hbuffer ▸ List.mem_cons_self)
  | nil =>
    rw [hbuffer] at hp
    dsimp only at hp
    split_ifs at hp with hhung
    · cases hhandle : b.handle with
      | finished =>
        rw [hhandle] at hp
        cases hp
        refine ⟨h, rfl, rfl, rfl, fun hopen => ?_⟩
        obtain ⟨hpending, hcurrent⟩ := h.finished hhandle hopen
        simp [SpawnedBatch.rows, hbuffer, hpending, hcurrent]
      | running =>
        rw [hhandle] at hp
        cases hp
        exact ⟨h, rfl, rfl, rfl⟩
      | panicked =>
        rw [hhandle] at hp
        cases hp
      | overflowed =>
        rw [hhandle] at hp
        cases hp
      | aborted =>
        rw [hhandle] at hp
        cases hp
    · cases hp
      exact ⟨h, rfl, rfl, rfl⟩

end SpawnedBatch

namespace Runs

variable {s s' : Runs κ ρ}

/-- Whether nobody listens to the stream. -/
def closed : Runs κ ρ → Bool
  | .once _ => false
  | .batch b => b.receiver.closed

inductive Sound (fits : κ → ρ → Bool) (calls : Bool) : Runs κ ρ → Prop where
  | once {run : SpawnedRun κ ρ}
      (h : ∀ row result, run = .returned row result → fits row result = true) :
      Sound fits calls (.once run)
  | batch {b : SpawnedBatch κ ρ} (h : b.Sound fits) (hcalls : b.calls = calls) :
      Sound fits calls (.batch b)

theorem sound_spawn (calls : Bool) (rows : List κ) :
    (spawn calls rows : Runs κ ρ).Sound fits calls ∧ (spawn calls rows : Runs κ ρ).closed = false ∧
      (spawn calls rows : Runs κ ρ).rows = rows := by
  cases rows with
  | nil => exact ⟨.once fun _ _ heq => (by cases heq), rfl, rfl⟩
  | cons row rows =>
    cases rows with
    | nil => exact ⟨.once fun _ _ heq => (by cases heq), rfl, rfl⟩
    | cons next rows =>
      have hrows : SpawnedBatch.rows (⟨calls, row :: next :: rows, none, false,
          .channel (row :: next :: rows).length, .running⟩ : SpawnedBatch κ ρ) =
            row :: next :: rows := rfl
      refine ⟨.batch ⟨?_, ?_, fun heq => (by cases heq), fun heq => (by cases heq), fun _ => rfl,
        fun heq => (by cases heq), fun _ hx => (by cases hx)⟩ rfl, rfl, hrows⟩
      · rw [hrows]
        exact Nat.le_refl _
      · exact ⟨fun hhung => (by cases hhung), fun hidle => absurd rfl hidle⟩

/-- A step of a worker loses no row and keeps the order of calls. -/
theorem Sound.step {calls : Bool} (h : s.Sound fits calls) {a : TaskStep ρ}
    (hs : s.step fits a = some s') :
    s'.Sound fits calls ∧ s'.closed = s.closed ∧ (s.closed = false → s'.rows.Perm s.rows) ∧
      (s.closed = false → calls = true → s'.rows = s.rows) := by
  cases h with
  | batch hb hcalls =>
    obtain ⟨b', hstep, rfl⟩ := Option.map_eq_some_iff.mp hs
    obtain ⟨hb', hkept⟩ := hb.step hstep
    exact ⟨.batch hb' (hkept.calls.trans hcalls), hkept.closed, hkept.rows,
      fun hopen hordered => hkept.order hopen (hcalls.trans hordered)⟩
  | @once run hresult =>
    obtain ⟨run', hstep, rfl⟩ := Option.map_eq_some_iff.mp hs
    have hkept : (∀ row result, run' = .returned row result → fits row result = true) ∧
        run'.rows = run.rows := by
      unfold SpawnedRun.step at hstep
      split at hstep
      · split_ifs at hstep with hfits
        cases hstep
        refine ⟨fun row result heq => ?_, rfl⟩
        cases heq
        exact hfits
      · cases hstep
        exact ⟨fun _ _ heq => (by cases heq), rfl⟩
      · cases hstep
    exact ⟨.once hkept.1, rfl, fun _ => .of_eq hkept.2, fun _ _ => hkept.2⟩

def Answers (fits : κ → ρ → Bool) (s s' : Runs κ ρ) : Polled (κ × ρ) → Prop
  | .pending => s' = s
  | .ready (some x) => s.rows = x.1 :: s'.rows ∧ fits x.1 x.2 = true
  | .ready none => s' = s ∧ (s.closed = false → s.rows = [])

theorem Sound.pollNext {calls : Bool} (h : s.Sound fits calls) {polled : Polled (κ × ρ)}
    (hp : s.pollNext = some (polled, s')) :
    s'.Sound fits calls ∧ s'.closed = s.closed ∧ Answers fits s s' polled := by
  cases h with
  | batch hb hcalls =>
    obtain ⟨⟨polled', b'⟩, hpoll, heq⟩ := Option.map_eq_some_iff.mp hp
    cases heq
    obtain ⟨hb', hcalls', hclosed, hanswers⟩ := hb.pollNext hpoll
    refine ⟨.batch hb' (hcalls'.trans hcalls), hclosed, ?_⟩
    cases polled' with
    | pending => exact congrArg Runs.batch hanswers
    | ready item =>
      cases item with
      | some x => exact hanswers
      | none => exact ⟨congrArg Runs.batch hanswers.1, hanswers.2⟩
  | @once run hresult =>
    obtain ⟨⟨polled', run'⟩, hpoll, heq⟩ := Option.map_eq_some_iff.mp hp
    cases heq
    cases run with
    | running row =>
      cases hpoll
      exact ⟨.once hresult, rfl, rfl⟩
    | returned row result =>
      cases hpoll
      exact ⟨.once fun _ _ heq => (by cases heq), rfl, rfl, hresult row result rfl⟩
    | panicked row => cases hpoll
    | taken =>
      cases hpoll
      exact ⟨.once hresult, rfl, rfl, fun _ => rfl⟩

theorem Sound.close {calls : Bool} (h : s.Sound fits calls) : s.close.Sound fits calls := by
  cases h with
  | once hresult => exact .once hresult
  | batch hb hcalls =>
    refine .batch ⟨hb.covered, hb.hungUp, fun _ hopen => ?_, hb.room, hb.futures, hb.checked,
      hb.results⟩ hcalls
    cases hopen

theorem Sound.overflowed {calls : Bool} (h : s.Sound fits calls) : s.overflowed = false := by
  cases h with
  | once hresult => rfl
  | batch hb hcalls => exact beq_eq_false_iff_ne.mpr hb.room

end Runs
namespace Delivery

variable {d d' : Delivery κ ρ}

/-- Nothing is lost, doubled or made up while somebody listens. -/
structure Sound (fits : κ → ρ → Bool) (d : Delivery κ ρ) : Prop where
  stream : d.stream.Sound fits d.calls
  listened : d.dropped = none → d.stream.closed = false
  conserved : d.dropped = none → (d.received.map Prod.fst ++ d.stream.rows).Perm d.rows
  order : d.dropped = none → d.calls = true → d.received.map Prod.fst ++ d.stream.rows = d.rows
  complete : d.ended = true → (d.received.map Prod.fst).Perm d.rows
  results : ∀ x ∈ d.received, fits x.1 x.2 = true
  stopped : ∀ begun next, d.dropped = some (begun, next) → next.length ≤ 1 ∧
    (d.begun = begun ∧ cleared d.stream = next ∨ d.begun = begun ++ next ∧ cleared d.stream = [])
  unheard : ∀ x b, d.dropped = some x → d.stream = .batch b → b.receiver.closed = true

theorem sound_submit (calls : Bool) (rows : List κ) :
    (submit calls rows : Delivery κ ρ).Sound fits := by
  obtain ⟨hsound, hopen, hrows⟩ := @Runs.sound_spawn κ ρ fits calls rows
  exact ⟨hsound, fun _ => hopen, fun _ => .of_eq hrows, fun _ _ => hrows, fun hended => (by cases hended),
    fun _ hx => (by cases hx), fun _ _ hdropped => (by cases hdropped),
    fun _ _ hdropped => (by cases hdropped)⟩

theorem length_cleared (s : Runs κ ρ) : (cleared s).length ≤ 1 := by
  unfold cleared
  split
  · split_ifs
    · exact List.length_take_le 1 _
    · exact Nat.zero_le 1
  · exact Nat.zero_le 1

/-- A worker that nobody listens to begins the call it was cleared for, or none. -/
theorem cleared_step {s s' : Runs κ ρ} {calls : Bool} (h : s.Sound fits calls)
    (hclosed : ∀ b, s = .batch b → b.receiver.closed = true) {a : TaskStep ρ}
    (hs : s.step fits a = some s') :
    begins s a = [] ∧ cleared s' = cleared s ∨ begins s a = cleared s ∧ cleared s' = [] := by
  cases h with
  | once hresult =>
    obtain ⟨run', -, rfl⟩ := Option.map_eq_some_iff.mp hs
    exact Or.inl ⟨rfl, rfl⟩
  | @batch b hb hcalls =>
    have hclosed := hclosed b rfl
    obtain ⟨b', hstep, rfl⟩ := Option.map_eq_some_iff.mp hs
    cases a with
    | ready index result =>
      obtain ⟨row, -, hstep⟩ := Option.bind_eq_some_iff.mp hstep
      split_ifs at hstep with hready
      cases hstep
      have hunchecked : b.checked = false := Bool.eq_false_iff.mpr fun hyes =>
        absurd (hready.2.1.symm.trans (hb.checked hyes).1) (by decide)
      refine Or.inl ⟨rfl, ?_⟩
      simp [cleared, (SpawnedBatch.send_next _ _).1, hunchecked]
    | check =>
      simp only [SpawnedBatch.step] at hstep
      split_ifs at hstep
      cases hstep
      exact Or.inl ⟨rfl, rfl⟩
    | call =>
      simp only [SpawnedBatch.step] at hstep
      split at hstep
      · split_ifs at hstep with hready
        cases hstep
        exact Or.inr ⟨by simp [begins, cleared, hready.2], by simp [cleared]⟩
      · cases hstep
    | ret result =>
      obtain ⟨row, -, hstep⟩ := Option.bind_eq_some_iff.mp hstep
      split_ifs at hstep
      cases hstep
      refine Or.inl ⟨rfl, ?_⟩
      simp [cleared, (SpawnedBatch.send_next _ _).1, (SpawnedBatch.send_next _ _).2]
    | _ =>
      simp only [SpawnedBatch.step] at hstep
      split_ifs at hstep
      cases hstep
      exact Or.inl ⟨rfl, rfl⟩

theorem Sound.work (h : d.Sound fits) {a : TaskStep ρ} {stream : Runs κ ρ}
    (hs : d.stream.step fits a = some stream) :
    Sound fits { d with stream, begun := d.begun ++ begins d.stream a } := by
  obtain ⟨hstream, hclosed, hrows, horder⟩ := h.stream.step hs
  refine ⟨hstream, fun hlistened => hclosed.trans (h.listened hlistened), fun hlistened => ?_,
    fun hlistened hcalls => ?_, h.complete, h.results, fun begun next hdropped => ?_,
    fun x b hdropped hbatch => ?_⟩
  · have hperm := hrows (h.listened hlistened)
    exact (hperm.append_left _).trans (h.conserved hlistened)
  · have hsame := horder (h.listened hlistened) hcalls
    show d.received.map Prod.fst ++ stream.rows = d.rows
    rw [hsame]
    exact h.order hlistened hcalls
  · obtain ⟨hone, hstopped⟩ := h.stopped begun next hdropped
    refine ⟨hone, ?_⟩
    show d.begun ++ begins d.stream a = begun ∧ cleared stream = next ∨
      d.begun ++ begins d.stream a = begun ++ next ∧ cleared stream = []
    have hnext := cleared_step h.stream (fun b => h.unheard _ b hdropped) hs
    rcases hstopped with ⟨hbegun, hcleared⟩ | ⟨hbegun, hcleared⟩
    · rcases hnext with ⟨hnone, hsame⟩ | ⟨hbegins, hdone⟩
      · rw [hnone, List.append_nil]
        exact Or.inl ⟨hbegun, hsame.trans hcleared⟩
      · rw [hbegins, hbegun, hcleared]
        exact Or.inr ⟨rfl, hdone⟩
    · have hover : begins d.stream a = [] ∧ cleared stream = [] := by
        rcases hnext with ⟨hnone, hsame⟩ | ⟨hbegins, hdone⟩
        · exact ⟨hnone, hsame.trans hcleared⟩
        · exact ⟨hbegins.trans hcleared, hdone⟩
      rw [hover.1, List.append_nil]
      exact Or.inr ⟨hbegun, hover.2⟩
  · have hstill : stream = .batch b := hbatch
    rw [hstill] at hclosed hs
    cases hold : d.stream with
    | once run =>
      rw [hold] at hs
      obtain ⟨run', -, heq⟩ := Option.map_eq_some_iff.mp hs
      cases heq
    | batch b' =>
      rw [hold] at hclosed
      exact hclosed.trans (h.unheard x b' hdropped hold)

theorem Sound.poll (h : d.Sound fits) (hlistened : d.dropped = none)
    {polled : Polled (κ × ρ)} {stream : Runs κ ρ}
    (hp : d.stream.pollNext = some (polled, stream)) :
    (polled = .pending → Sound fits { d with stream }) ∧
      (∀ x, polled = .ready (some x) →
        Sound fits { d with stream, received := d.received ++ [x] }) ∧
      (polled = .ready none → Sound fits { d with stream, ended := true }) := by
  obtain ⟨hstream, hclosed, hanswers⟩ := h.stream.pollNext hp
  have hopen := h.listened hlistened
  have hnever : ∀ x, d.dropped ≠ some x := fun x hdropped => by
    rw [hlistened] at hdropped
    cases hdropped
  refine ⟨?_, ?_, ?_⟩
  · rintro rfl
    have hsame : stream = d.stream := hanswers
    rw [hsame]
    exact h
  · rintro x rfl
    obtain ⟨hrows, hfits⟩ := hanswers
    have hsplit : (d.received ++ [x]).map Prod.fst ++ stream.rows =
        d.received.map Prod.fst ++ d.stream.rows := by
      rw [hrows]
      simp
    refine ⟨hstream, fun _ => hclosed.trans hopen, fun _ => ?_, fun _ hcalls => ?_, fun hended => ?_,
      fun y hy => ?_, fun begun next hdropped => absurd hdropped (hnever _),
      fun x b hdropped => absurd hdropped (hnever x)⟩
    · show ((d.received ++ [x]).map Prod.fst ++ stream.rows).Perm d.rows
      rw [hsplit]
      exact h.conserved hlistened
    · show (d.received ++ [x]).map Prod.fst ++ stream.rows = d.rows
      rw [hsplit]
      exact h.order hlistened hcalls
    · have hall := (h.complete hended).length_eq
      have hconserved := (h.conserved hlistened).length_eq
      rw [hrows, List.length_append, List.length_cons] at hconserved
      omega
    · rcases List.mem_append.mp hy with hold | hnew
      · exact h.results y hold
      · rw [List.mem_singleton.mp hnew]
        exact hfits
  · rintro rfl
    obtain ⟨hsame, hempty⟩ := hanswers
    subst hsame
    refine ⟨hstream, h.listened, h.conserved, h.order, fun _ => ?_, h.results, h.stopped, h.unheard⟩
    have hconserved := h.conserved hlistened
    rw [hempty hopen, List.append_nil] at hconserved
    exact hconserved

theorem Sound.step (h : d.Sound fits) {a : DeliveryStep ρ} (hs : d.step fits a = some d') :
    d'.Sound fits := by
  cases a with
  | work a =>
    obtain ⟨stream, hstep, rfl⟩ := Option.map_eq_some_iff.mp hs
    exact h.work hstep
  | poll =>
    simp only [Delivery.step] at hs
    split_ifs at hs with hdropped
    have hlistened : d.dropped = none := by simpa using hdropped
    obtain ⟨⟨polled, stream⟩, hpoll, hs⟩ := Option.bind_eq_some_iff.mp hs
    obtain ⟨hpending, hready, hend⟩ := h.poll hlistened hpoll
    cases polled with
    | pending =>
      cases hs
      exact hpending rfl
    | ready item =>
      cases item with
      | some x =>
        cases hs
        exact hready x rfl
      | none =>
        cases hs
        exact hend rfl
  | drop =>
    simp only [Delivery.step] at hs
    split_ifs at hs with hdropped
    cases hs
    refine ⟨h.stream.close, fun hlistened => (by cases hlistened), fun hlistened => (by cases hlistened),
      fun hlistened => (by cases hlistened), h.complete, h.results, fun begun next hsome => ?_,
      fun x b hsome hbatch => ?_⟩
    · cases hsome
      refine ⟨length_cleared _, Or.inl ⟨rfl, ?_⟩⟩
      show cleared d.stream.close = cleared d.stream
      cases d.stream <;> rfl
    · have hclosed : d.stream.close = .batch b := hbatch
      cases hold : d.stream with
      | once run =>
        rw [hold] at hclosed
        cases hclosed
      | batch b' =>
        rw [hold] at hclosed
        cases hclosed
        rfl

/-- In whatever order workers, polls and a drop come, no row is lost or doubled, and a dropped stream
begins at most the call it was about to. -/
theorem reachable_delivers (h : (machine fits).Reachable d) :
    d.stream.overflowed = false ∧
      (d.dropped = none → (d.received.map Prod.fst ++ d.stream.rows).Perm d.rows ∧
        (d.calls = true → d.received.map Prod.fst ++ d.stream.rows = d.rows)) ∧
      (d.ended = true → (d.received.map Prod.fst).Perm d.rows) ∧
      (∀ x ∈ d.received, fits x.1 x.2 = true) ∧
      ∀ begun next, d.dropped = some (begun, next) →
        next.length ≤ 1 ∧ (d.begun = begun ∨ d.begun = begun ++ next) := by
  have hsound : d.Sound fits := by
    refine h.invariant (fun d => d.Sound fits) ?_ ?_
    · rintro d ⟨calls, rows, rfl⟩
      exact sound_submit calls rows
    · exact fun d a d' hd _ hs => hd.step hs
  refine ⟨hsound.stream.overflowed, fun hlistened =>
    ⟨hsound.conserved hlistened, hsound.order hlistened⟩, hsound.complete, hsound.results,
    fun begun next hdropped => ?_⟩
  obtain ⟨hone, hstopped⟩ := hsound.stopped begun next hdropped
  exact ⟨hone, hstopped.imp And.left And.left⟩

/-- Of four calls one has been received and the next is about to begin when the stream is dropped. -/
def dropping : Delivery Nat Nat :=
  ((machine fun row result => row ≤ result).run (submit true [1, 2, 3, 4])
    [.work .check, .work .call, .work (.ret 10), .poll, .work .check, .drop, .work .call,
      .work (.ret 20)]).getD (submit true [])

theorem dropping_delivers : dropping.stream.overflowed = false ∧ dropping.received = [(1, 10)] ∧
    dropping.dropped = some ([1], [2]) ∧ dropping.begun = [1, 2] ∧
    dropping.stream.rows = [3, 4] := by
  have hrun : (machine fun row result => row ≤ result).run (submit true [1, 2, 3, 4])
      [.work .check, .work .call, .work (.ret 10), .poll, .work .check, .drop, .work .call,
        .work (.ret 20)] = some dropping := rfl
  obtain ⟨hroom, -, -, -, hstopped⟩ :=
    reachable_delivers (Machine.Reachable.run (.init ⟨true, [1, 2, 3, 4], rfl⟩) hrun)
  refine ⟨hroom, rfl, rfl, ?_, rfl⟩
  exact (hstopped [1] [2] rfl).2.resolve_left (by decide)

end Delivery
end Batches

end Dispatch
end Porridge
