import Mathlib.Data.List.TakeWhile
import Porridge.Protocol.Memo

/-! External inputs under concurrent settles: each settle owes the inputs accepted before it. -/
namespace Porridge

variable {α : Type}

namespace Pc

/-- The epoch of a settle between its cleanliness check and its final section. -/
def pastCheck : Pc α → Option Epoch
  | healing epoch | startingHooks epoch | inHooks epoch _ _ | startingSettlePhase epoch
  | inSettlePhase epoch _ _ | healingAgain epoch | followingUp epoch | publishing epoch =>
    some epoch
  | _ => none

/-- How many inputs a settle that is over has answered for. -/
def finished : Pc α → Option Nat
  | leaving accepted _ | returned accepted _ => some accepted
  | _ => none

end Pc

namespace Protocol

/-- The numbered inputs are the queued ones, and every accepted input is queued or applied. -/
structure QueueOk (s : State α) (h : History α) : Prop where
  pendingInputs : s.pendingInputs = h.pending.flatMap Prod.snd
  deferredInputs : s.deferredInputs = h.deferred.map fun d => (d.1, d.2.2)
  requested : h.pending ≠ [] → s.pendingGeneration.isSome = true
  numbered : ∀ n < h.accepted, n ∈ h.pending.map Prod.fst ∨ n ∈ h.deferred.map (fun d => d.2.1) ∨
    n ∈ h.applied
  sorted : h.deferred.Pairwise fun a b => a.1 < b.1
  bounded : ∀ d ∈ h.deferred, d.1 ≤ s.inputSeq

/-- What a caller's place tells about the inputs it owes. -/
structure PartyOk (h : History α) (x : Pc α) : Prop where
  entered : ∀ epoch ∈ x.epoch, epoch.accepted ≤ h.accepted ∧
    ∀ d ∈ h.deferred, d.2.1 < epoch.accepted → d.1 ≤ epoch.watermark
  /-- What the settle owes is not pending after its check. -/
  checked : ∀ epoch ∈ x.pastCheck, ∀ y ∈ h.pending, epoch.accepted ≤ y.1
  done : ∀ accepted ∈ x.finished, accepted ≤ h.accepted ∧ (∀ y ∈ h.pending, accepted ≤ y.1) ∧
    ∀ d ∈ h.deferred, accepted ≤ d.2.1

/-- The queues of both states are the same, and no request for a generation is lost. -/
structure SameQueues (s s' : State α) : Prop where
  pendingInputs : s'.pendingInputs = s.pendingInputs
  deferredInputs : s'.deferredInputs = s.deferredInputs
  inputSeq : s'.inputSeq = s.inputSeq
  requested : s.pendingGeneration.isSome = true → s'.pendingGeneration.isSome = true

theorem SameQueues.rfl {s : State α} : SameQueues s s := ⟨Eq.refl _, Eq.refl _, Eq.refl _, id⟩

theorem QueueOk.same {s s' : State α} {h : History α} (hq : QueueOk s h) (hs : SameQueues s s') :
    QueueOk s' h where
  pendingInputs := hs.pendingInputs.trans hq.pendingInputs
  deferredInputs := hs.deferredInputs.trans hq.deferredInputs
  requested hne := hs.requested (hq.requested hne)
  numbered := hq.numbered
  sorted := hq.sorted
  bounded d hd := hs.inputSeq ▸ hq.bounded d hd

theorem PartyOk.idle (h : History α) : PartyOk h .idle :=
  ⟨fun _ he => (nomatch he), fun _ he => (nomatch he), fun _ he => (nomatch he)⟩

section Accept

variable {s : State α} {h : History α} (commands : List (BaseCommand α))

theorem QueueOk.acceptPending (hq : QueueOk s h) {s' : State α}
    (hp : s'.pendingInputs = s.pendingInputs ++ commands)
    (hd : s'.deferredInputs = s.deferredInputs) (hi : s'.inputSeq = s.inputSeq)
    (hr : s'.pendingGeneration.isSome = true) : QueueOk s' (h.accept 0 0 commands) where
  pendingInputs := by
    have hflat : (h.pending ++ [(h.accepted, commands)]).flatMap Prod.snd =
        h.pending.flatMap Prod.snd ++ commands := by simp
    rw [hp, hq.pendingInputs]
    exact hflat.symm
  deferredInputs := hd.trans hq.deferredInputs
  requested _ := hr
  numbered n hn := by
    have hlt : n < h.accepted + 1 := hn
    change n ∈ (h.pending ++ [(h.accepted, commands)]).map Prod.fst ∨ _
    rcases Nat.lt_succ_iff_lt_or_eq.mp hlt with hlt | rfl
    · rcases hq.numbered n hlt with hmem | hmem
      · exact Or.inl (by rw [List.map_append]; exact List.mem_append_left _ hmem)
      · exact Or.inr hmem
    · exact Or.inl (by simp)
  sorted := hq.sorted
  bounded d hmem := hi ▸ hq.bounded d hmem

theorem PartyOk.acceptPending {x : Pc α} (hx : PartyOk h x) :
    PartyOk (h.accept 0 0 commands) x where
  entered epoch he := by
    obtain ⟨hle, hcovered⟩ := hx.entered epoch he
    exact ⟨Nat.le_succ_of_le hle, hcovered⟩
  checked epoch he y hy := by
    have hentered : epoch.accepted ≤ h.accepted := by
      refine (hx.entered epoch ?_).1
      cases x <;> first | exact he | cases he
    rcases List.mem_append.mp hy with hy | hy
    · exact hx.checked epoch he y hy
    · rw [List.mem_singleton.mp hy]
      exact hentered
  done n hn := by
    obtain ⟨hle, hpending, hdeferred⟩ := hx.done n hn
    refine ⟨Nat.le_succ_of_le hle, fun y hy => ?_, hdeferred⟩
    rcases List.mem_append.mp hy with hy | hy
    · exact hpending y hy
    · rw [List.mem_singleton.mp hy]
      exact hle

theorem QueueOk.acceptDeferred (hq : QueueOk s h) (hs : s.settling ≠ 0) :
    QueueOk { s with
      inputSeq := s.inputSeq + 1
      deferredInputs := s.deferredInputs ++ [(s.inputSeq + 1, commands)] }
      (h.accept s.settling (s.inputSeq + 1) commands) := by
  have hhistory : h.accept s.settling (s.inputSeq + 1) commands = { h with
      accepted := h.accepted + 1
      deferred := h.deferred ++ [(s.inputSeq + 1, h.accepted, commands)] } := if_neg hs
  rw [hhistory]
  constructor
  · exact hq.pendingInputs
  · simp [hq.deferredInputs]
  · exact hq.requested
  · intro n hn
    have hlt : n < h.accepted + 1 := hn
    rcases Nat.lt_succ_iff_lt_or_eq.mp hlt with hlt | rfl
    · rcases hq.numbered n hlt with hmem | hmem | hmem
      · exact Or.inl hmem
      · exact Or.inr (Or.inl (by rw [List.map_append]; exact List.mem_append_left _ hmem))
      · exact Or.inr (Or.inr hmem)
    · exact Or.inr (Or.inl (by simp))
  · refine List.pairwise_append.mpr ⟨hq.sorted, List.pairwise_singleton _ _, fun a ha b hb => ?_⟩
    rw [List.mem_singleton.mp hb]
    exact Nat.lt_succ_of_le (hq.bounded a ha)
  · intro d hd
    rcases List.mem_append.mp hd with hd | hd
    · exact Nat.le_succ_of_le (hq.bounded d hd)
    · rw [List.mem_singleton.mp hd]

theorem PartyOk.acceptDeferred {x : Pc α} (hx : PartyOk h x) {settling tag : Nat}
    (hs : settling ≠ 0) : PartyOk (h.accept settling tag commands) x := by
  have hhistory : h.accept settling tag commands = { h with
      accepted := h.accepted + 1
      deferred := h.deferred ++ [(tag, h.accepted, commands)] } := if_neg hs
  rw [hhistory]
  constructor
  · intro epoch he
    obtain ⟨hle, hcovered⟩ := hx.entered epoch he
    refine ⟨Nat.le_succ_of_le hle, fun d hd hlt => ?_⟩
    rcases List.mem_append.mp hd with hd | hd
    · exact hcovered d hd hlt
    · rw [List.mem_singleton.mp hd] at hlt
      exact absurd hle (Nat.not_le_of_lt hlt)
  · exact hx.checked
  · intro n hn
    obtain ⟨hle, hpending, hdeferred⟩ := hx.done n hn
    refine ⟨Nat.le_succ_of_le hle, hpending, fun d hd => ?_⟩
    rcases List.mem_append.mp hd with hd | hd
    · exact hdeferred d hd
    · rw [List.mem_singleton.mp hd]
      exact hle

end Accept
section Promote

variable {s : State α} {h : History α} (watermark : Nat)

theorem promoteDeferredInputs_queues :
    (s.promoteDeferredInputs watermark).2.pendingInputs = s.pendingInputs ++
        (s.deferredInputs.takeWhile fun input => input.1 ≤ watermark).flatMap Prod.snd ∧
      (s.promoteDeferredInputs watermark).2.deferredInputs =
        s.deferredInputs.dropWhile fun input => input.1 ≤ watermark := by
  unfold State.promoteDeferredInputs
  dsimp only
  split_ifs with hnone
  · have hsplit := List.takeWhile_append_dropWhile (p := fun input => decide (input.1 ≤ watermark))
      (l := s.deferredInputs)
    rw [hnone, List.nil_append] at hsplit
    exact ⟨by simp [hnone], hsplit.symm⟩
  · exact ⟨rfl, rfl⟩

theorem QueueOk.promote (hq : QueueOk s h) :
    QueueOk (s.promoteDeferredInputs watermark).2 (h.promote watermark) := by
  obtain ⟨hpending, hdeferred⟩ := promoteDeferredInputs_queues (s := s) watermark
  have hsplit := List.takeWhile_append_dropWhile (p := fun d => decide (d.1 ≤ watermark))
    (l := h.deferred)
  have hsub : ∀ d ∈ h.deferred.dropWhile fun d => decide (d.1 ≤ watermark), d ∈ h.deferred :=
    fun d hd => (List.dropWhile_sublist _).subset hd
  constructor
  · rw [hpending, hq.pendingInputs, hq.deferredInputs, List.takeWhile_map]
    simp [History.promote, List.flatMap_map, Function.comp_def]
  · rw [hdeferred, hq.deferredInputs, List.dropWhile_map]
    rfl
  · intro hne
    unfold State.promoteDeferredInputs
    dsimp only
    split_ifs with hnone
    · refine hq.requested fun hnil => hne ?_
      rw [hq.deferredInputs, List.takeWhile_map, List.map_eq_nil_iff] at hnone
      change h.pending ++ List.map Prod.snd _ = []
      rw [hnil, List.nil_append, List.map_eq_nil_iff]
      exact hnone
    · rfl
  · intro n hn
    rcases hq.numbered n hn with hmem | hmem | hmem
    · exact Or.inl (by simp only [History.promote, List.map_append]; exact List.mem_append_left _ hmem)
    · rw [← hsplit, List.map_append] at hmem
      rcases List.mem_append.mp hmem with hmem | hmem
      · refine Or.inl ?_
        simp only [History.promote, List.map_append, List.map_map]
        exact List.mem_append_right _ hmem
      · exact Or.inr (Or.inl hmem)
    · exact Or.inr (Or.inr hmem)
  · exact hq.sorted.sublist (List.dropWhile_sublist _)
  · intro d hd
    have hseq : (s.promoteDeferredInputs watermark).2.inputSeq = s.inputSeq := by
      unfold State.promoteDeferredInputs
      dsimp only
      split_ifs <;> rfl
    rw [hseq]
    exact hq.bounded d (hsub d hd)

/-- Nothing promoted: no deferred input is covered. -/
theorem QueueOk.not_covered (hq : QueueOk s h)
    (hnone : (s.promoteDeferredInputs watermark).1 = false) :
    ∀ d ∈ h.deferred, watermark < d.1 := by
  have htake : (s.deferredInputs.takeWhile fun input => input.1 ≤ watermark) = [] := by
    unfold State.promoteDeferredInputs at hnone
    dsimp only at hnone
    split_ifs at hnone with htake
    exact htake
  rw [hq.deferredInputs, List.takeWhile_map, List.map_eq_nil_iff] at htake
  have hsorted := hq.sorted
  cases hd : h.deferred with
  | nil => exact fun d hmem => nomatch hmem
  | cons first rest =>
    rw [hd] at htake hsorted
    have hfirst : watermark < first.1 := by
      by_contra hle
      rw [List.takeWhile_cons_of_pos (by simpa using Nat.le_of_not_lt hle)] at htake
      cases htake
    intro d hmem
    rcases List.mem_cons.mp hmem with rfl | hmem
    · exact hfirst
    · exact Nat.lt_trans hfirst ((List.pairwise_cons.mp hsorted).1 d hmem)

/-- A promotion that spares what a checked settle owes keeps its caller in place. -/
theorem PartyOk.promote {x : Pc α} (hx : PartyOk h x)
    (hspared : ∀ epoch ∈ x.pastCheck, ∀ d ∈ h.deferred, d.1 ≤ watermark → epoch.watermark < d.1) :
    PartyOk (h.promote watermark) x := by
  have hsub : ∀ d ∈ h.deferred.dropWhile fun d => decide (d.1 ≤ watermark), d ∈ h.deferred :=
    fun d hd => (List.dropWhile_sublist _).subset hd
  have hmoved : ∀ y ∈ (h.promote watermark).pending, y ∈ h.pending ∨
      ∃ d ∈ h.deferred, d.1 ≤ watermark ∧ d.2 = y := by
    intro y hy
    rcases List.mem_append.mp hy with hy | hy
    · exact Or.inl hy
    · obtain ⟨d, hd, rfl⟩ := List.mem_map.mp hy
      have hle := List.mem_takeWhile_imp hd
      exact Or.inr ⟨d, (List.takeWhile_sublist _).subset hd, of_decide_eq_true hle, rfl⟩
  constructor
  · intro epoch he
    obtain ⟨hle, hcovered⟩ := hx.entered epoch he
    exact ⟨hle, fun d hd => hcovered d (hsub d hd)⟩
  · intro epoch he y hy
    rcases hmoved y hy with hy | ⟨d, hd, hle, rfl⟩
    · exact hx.checked epoch he y hy
    · have hepoch : epoch ∈ x.epoch := by
        cases x <;> first | exact he | cases he
      by_contra hlt
      have hcovered := (hx.entered epoch hepoch).2 d hd (Nat.lt_of_not_le hlt)
      exact absurd (hspared epoch he d hd hle) (Nat.not_lt_of_le hcovered)
  · intro n hn
    obtain ⟨hle, hpending, hdeferred⟩ := hx.done n hn
    refine ⟨hle, fun y hy => ?_, fun d hd => hdeferred d (hsub d hd)⟩
    rcases hmoved y hy with hy | ⟨d, hd, -, rfl⟩
    · exact hpending y hy
    · exact hdeferred d hd

end Promote
section Sections

variable (C : Components α)

theorem SameQueues.trans {a b c : State α} (hab : SameQueues a b) (hbc : SameQueues b c) :
    SameQueues a c :=
  ⟨hbc.1.trans hab.1, hbc.2.trans hab.2, hbc.3.trans hab.3, fun h => hbc.4 (hab.4 h)⟩

theorem SameQueues.of_control {a b : State α} (h : SameControl a b) : SameQueues a b :=
  ⟨h.pendingInputs, h.deferredInputs, h.inputSeq, fun hr => h.pendingGeneration ▸ hr⟩

theorem sameQueues_requestGeneration (s : State α) : SameQueues s s.requestGeneration :=
  ⟨rfl, rfl, rfl, fun _ => rfl⟩

theorem sameQueues_mutate (s : State α) (t : TypeId) (e : Entity) (v : Value α) :
    SameQueues s (s.mutate C t e v) := by
  unfold State.mutate
  dsimp only
  split_ifs
  · exact ⟨rfl, rfl, rfl, fun _ => rfl⟩
  · exact ⟨rfl, rfl, rfl, id⟩

/-- Starting a generation applies every pending input. -/
theorem startEvaluation_queues {s : State α} {started : Started α}
    (h : startEvaluation C s = some (some started)) :
    started.state.pendingInputs = [] ∧ started.state.deferredInputs = s.deferredInputs ∧
      started.state.inputSeq = s.inputSeq := by
  unfold startEvaluation at h
  split at h
  · cases h
  · obtain ⟨applied, ha, hlaunch⟩ := Option.bind_eq_some_iff.mp h
    cases hlaunch
    simp only [applyInputs, Option.bind_eq_bind, Option.bind_eq_some_iff, Option.pure_def,
      Option.some.injEq] at ha
    obtain ⟨settled, -, based, -, flushed, -, rfl⟩ := ha
    refine ⟨rfl, ?_, ?_⟩
    · change (compactPlanLog _).deferredInputs = s.deferredInputs
      unfold compactPlanLog
      split <;> rfl
    · change (compactPlanLog _).inputSeq = s.inputSeq
      unfold compactPlanLog
      split <;> rfl

end Sections

structure SameInputs (h h' : History α) : Prop where
  accepted : h'.accepted = h.accepted
  pending : h'.pending = h.pending
  deferred : h'.deferred = h.deferred
  applied : h'.applied = h.applied

theorem QueueOk.sameInputs {s : State α} {h h' : History α} (hq : QueueOk s h)
    (hs : SameInputs h h') : QueueOk s h' := by
  obtain ⟨haccepted, hpending, hdeferred, happlied⟩ := hs
  constructor
  · rw [hpending]
    exact hq.pendingInputs
  · rw [hdeferred]
    exact hq.deferredInputs
  · rw [hpending]
    exact hq.requested
  · rw [haccepted, hpending, hdeferred, happlied]
    exact hq.numbered
  · rw [hdeferred]
    exact hq.sorted
  · rw [hdeferred]
    exact hq.bounded

theorem PartyOk.sameInputs {h h' : History α} {x : Pc α} (hx : PartyOk h x)
    (hs : SameInputs h h') : PartyOk h' x := by
  obtain ⟨haccepted, hpending, hdeferred, happlied⟩ := hs
  constructor
  · rw [haccepted, hdeferred]
    exact hx.entered
  · rw [hpending]
    exact hx.checked
  · rw [haccepted, hpending, hdeferred]
    exact hx.done

/-- A caller that stays in its epoch and passes no check is where it was. -/
theorem PartyOk.onwards {h : History α} {x y : Pc α} (hx : PartyOk h x)
    (hepoch : ∀ epoch ∈ y.epoch, ∃ epoch' ∈ x.epoch,
      epoch.accepted = epoch'.accepted ∧ epoch.watermark = epoch'.watermark)
    (hcheck : ∀ epoch ∈ y.pastCheck, ∃ epoch' ∈ x.pastCheck, epoch.accepted = epoch'.accepted)
    (hdone : ∀ n ∈ y.finished, n ∈ x.finished) : PartyOk h y := by
  constructor
  · intro epoch he
    obtain ⟨epoch', he', haccepted, hwatermark⟩ := hepoch epoch he
    rw [haccepted, hwatermark]
    exact hx.entered epoch' he'
  · intro epoch he
    obtain ⟨epoch', he', haccepted⟩ := hcheck epoch he
    rw [haccepted]
    exact hx.checked epoch' he'
  · exact fun n hn => hx.done n (hdone n hn)

/-- The queues are numbered, and every caller's place is right about them. -/
structure Owed (q : Protocol α) : Prop where
  queue : QueueOk q.state q.history
  party : ∀ p, PartyOk q.history (q.pc p)

variable {C : Components α} {q q' q₁ : Protocol α} {p : PartyId} {x : Pc α}

theorem Owed.same (h : Owed q) (hs : SameQueues q.state q'.state)
    (hi : SameInputs q.history q'.history) (hpc : ∀ p, q'.pc p = q.pc p) : Owed q' where
  queue := (h.queue.same hs).sameInputs hi
  party p := by
    rw [hpc p]
    exact (h.party p).sameInputs hi

theorem Owed.showWrite (h : Owed q) (t : TypeId) (e : Entity) (v : Value α) :
    Owed (q.showWrite t e v) := by
  obtain ⟨hstate, -, hhistory⟩ := showWrite_frame q t e v
  constructor
  · rw [hstate, hhistory]
    exact h.queue
  · intro p
    have hepoch := observe_showWrite q p Pc.epoch (fun _ _ => rfl) t e v
    have hcheck := observe_showWrite q p Pc.pastCheck (fun _ _ => rfl) t e v
    have hdone := observe_showWrite q p Pc.finished (fun _ _ => rfl) t e v
    rw [hhistory]
    exact (h.party p).onwards (fun epoch he => ⟨epoch, hepoch ▸ he, rfl, rfl⟩)
      (fun epoch he => ⟨epoch, hcheck ▸ he, rfl⟩) fun n hn => hdone ▸ hn

theorem Owed.goto (h : Owed q) (hx : PartyOk q.history x) : Owed (q.goto p x) := by
  refine ⟨h.queue, fun p' => ?_⟩
  rw [pc_goto]
  split_ifs
  · exact hx
  · exact h.party p'

theorem Owed.move (h : Owed q) (hs : SameQueues q.state q₁.state)
    (hi : SameInputs q.history q₁.history) (hpc : ∀ p, q₁.pc p = q.pc p)
    (hx : PartyOk q.history x) : Owed (q₁.goto p x) :=
  (h.same hs hi hpc).goto (hx.sameInputs hi)

/-- A promotion by `p` that spares what the other callers past their check owe. -/
theorem Owed.promote (h : Owed q) {watermark : Nat}
    (hspared : ∀ p' ≠ p, ∀ epoch ∈ (q.pc p').pastCheck, ∀ d ∈ q.history.deferred,
      d.1 ≤ watermark → epoch.watermark < d.1)
    (hx : PartyOk q.history x) (hunchecked : x.pastCheck = none) :
    Owed ((q.promote watermark).2.goto p x) := by
  refine ⟨h.queue.promote watermark, fun p' => ?_⟩
  rw [pc_goto, pc_promote]
  split_ifs with hp
  · exact hx.promote watermark fun epoch he => by rw [hunchecked] at he; cases he
  · exact (h.party p').promote watermark (hspared p' hp)

/-- The deferred inputs an action promotes: by whom, and up to which tag. -/
def promotes (q : Protocol α) : Action α → Option (PartyId × Nat)
  | .advance p =>
    match q.pc p with
    | .loopTop epoch | .checking epoch =>
      if q.state.isSettled = true then some (p, epoch.watermark) else none
    | .publishing epoch => some (p, epoch.watermark)
    | .leaving .. | .unwinding =>
      if q.state.settling - 1 = 0 then some (p, State.maxTag) else none
    | _ => none
  | _ => none

/-- No action promotes an input that another settle owes which is past its check. -/
def EpochsApart (q : Protocol α) (a : Action α) : Prop :=
  ∀ r ∈ promotes q a, ∀ b ∈ q.parties.entries, b.1 ≠ r.1 → ∀ epoch ∈ b.2.pastCheck,
    ∀ input ∈ q.state.deferredInputs, input.1 ≤ r.2 → epoch.watermark < input.1

instance (q : Protocol α) (a : Action α) : Decidable (EpochsApart q a) :=
  inferInstanceAs (Decidable (∀ r ∈ promotes q a, ∀ b ∈ q.parties.entries, _))

theorem EpochsApart.spared {a : Action α} (h : EpochsApart q a) (hq : Owed q) {watermark : Nat}
    (hp : promotes q a = some (p, watermark)) :
    ∀ p' ≠ p, ∀ epoch ∈ (q.pc p').pastCheck, ∀ d ∈ q.history.deferred,
      d.1 ≤ watermark → epoch.watermark < d.1 := by
  intro p' hne epoch he d hd hle
  have hentry : ⟨p', q.pc p'⟩ ∈ q.parties.entries := by
    refine mem_parties_of_pc q p' fun hidle => ?_
    rw [hidle] at he
    cases he
  refine h (p, watermark) hp ⟨p', q.pc p'⟩ hentry hne epoch he (d.1, d.2.2) ?_ hle
  rw [hq.queue.deferredInputs]
  exact List.mem_map.mpr ⟨d, hd, rfl⟩

/-- Leaving a settle answers for every input it owes. -/
theorem Owed.exit (h : Owed q) {epoch : Epoch} {done : State α → State α}
    (hdone : SameQueues q.state (done q.state)) (he : epoch ∈ (q.pc p).epoch)
    (hspared : ∀ p' ≠ p, ∀ epoch' ∈ (q.pc p').pastCheck, ∀ d ∈ q.history.deferred,
      d.1 ≤ epoch.watermark → epoch'.watermark < d.1)
    (hpending : ∀ y ∈ q.history.pending, epoch.accepted ≤ y.1) :
    Owed (q.exit p epoch done) := by
  have hentered := (h.party p).entered epoch he
  unfold Protocol.exit
  dsimp only
  split_ifs with hpromoted
  · refine h.promote hspared ⟨fun epoch' he' => ?_, fun _ he' => (nomatch he'),
      fun _ he' => (nomatch he')⟩ rfl
    have heq : epoch = epoch' := Option.some.inj he'
    exact heq ▸ hentered
  · have hnone : (q.state.promoteDeferredInputs epoch.watermark).1 = false :=
      Bool.eq_false_of_not_eq_true hpromoted
    refine h.move hdone ⟨rfl, rfl, rfl, rfl⟩ (fun _ => rfl)
      ⟨fun _ he' => (nomatch he'), fun _ he' => (nomatch he'), fun n hn => ?_⟩
    have heq : epoch.accepted = n := Option.some.inj hn
    subst heq
    refine ⟨hentered.1, hpending, fun d hd => Nat.le_of_not_lt fun hlt => ?_⟩
    have hcovered := hentered.2 d hd hlt
    exact absurd (h.queue.not_covered epoch.watermark hnone d hd) (Nat.not_lt_of_le hcovered)

theorem Owed.leave (h : Owed q) (hx : PartyOk q.history x) (hunchecked : x.pastCheck = none)
    (hspared : q.state.settling - 1 = 0 → ∀ p' ≠ p, ∀ epoch ∈ (q.pc p').pastCheck,
      ∀ d ∈ q.history.deferred, d.1 ≤ State.maxTag → epoch.watermark < d.1) :
    Owed (q.leave.goto p x) := by
  have hleft : Owed { q with state := { q.state with settling := q.state.settling - 1 } } :=
    h.same ⟨rfl, rfl, rfl, id⟩ ⟨rfl, rfl, rfl, rfl⟩ fun _ => rfl
  unfold Protocol.leave
  dsimp only
  split_ifs with hlast
  · exact hleft.promote (hspared hlast) hx hunchecked
  · exact hleft.goto hx

theorem Owed.heal (h : Owed q) {epoch : Epoch} {onwards : Epoch → Pc α}
    (hpast : epoch ∈ (q.pc p).pastCheck) (hepoch : epoch ∈ (q.pc p).epoch)
    (honwards : ∀ epoch, (onwards epoch).epoch = some epoch ∧
      (onwards epoch).pastCheck = some epoch ∧ (onwards epoch).finished = none)
    (hs : q.heal p epoch onwards = some q') : Owed q' := by
  obtain ⟨⟨healed, attempts, s⟩, hhealed, hs⟩ := Option.bind_eq_some_iff.mp hs
  cases hs
  refine h.move (.of_control (sameControl_healStaleAmbient hhealed).1) ⟨rfl, rfl, rfl, rfl⟩
    (fun _ => rfl) ((h.party p).onwards ?_ ?_ ?_)
  · intro e he
    have heq : { epoch with attempts } = e := by
      cases healed
      · exact Option.some.inj ((honwards _).1.symm.trans he)
      · exact Option.some.inj he
    exact ⟨epoch, hepoch, by rw [← heq], by rw [← heq]⟩
  · intro e he
    cases healed
    · have heq : { epoch with attempts } = e := Option.some.inj ((honwards _).2.1.symm.trans he)
      exact ⟨epoch, hpast, by rw [← heq]⟩
    · cases he
  · intro n hn
    cases healed
    · have hnone := (honwards { epoch with attempts }).2.2
      rw [if_neg Bool.false_ne_true, hnone] at hn
      cases hn
    · cases hn

theorem Owed.startGeneration (h : Owed q) {target : Nat} {waiter : Waiter}
    (hp : q.pc p = .starting target waiter)
    (hs : q.startGeneration C p target waiter = some q') : Owed q' := by
  have hparty := h.party p
  rw [hp] at hparty
  obtain ⟨started, hstarted, hs⟩ := Option.bind_eq_some_iff.mp hs
  cases started with
  | none =>
    cases hs
    refine h.move .rfl ⟨rfl, rfl, rfl, rfl⟩ (fun _ => rfl) (hparty.onwards ?_ ?_ ?_)
    · cases waiter <;> exact fun e he => ⟨e, he, rfl, rfl⟩
    · exact fun _ he => (nomatch he)
    · exact fun _ he => (nomatch he)
  | some started =>
    cases hs
    obtain ⟨hpending, hdeferred, hseq⟩ := startEvaluation_queues C hstarted
    have happlied : ∀ {y : Pc α}, PartyOk q.history y →
        PartyOk (q.history.apply.carry q.state.memo started.memo) y := fun hy =>
      ⟨hy.entered, fun _ _ _ hz => (nomatch hz), fun n hn => ⟨(hy.done n hn).1,
        fun _ hz => (nomatch hz), (hy.done n hn).2.2⟩⟩
    constructor
    · refine ⟨hpending, hdeferred.trans h.queue.deferredInputs, fun hne => absurd rfl hne,
        fun n hn => ?_, h.queue.sorted, fun d hd => ?_⟩
      · rcases h.queue.numbered n hn with hmem | hmem | hmem
        · exact Or.inr (Or.inr (List.mem_append_right _ hmem))
        · exact Or.inr (Or.inl hmem)
        · exact Or.inr (Or.inr (List.mem_append_left _ hmem))
      · change d.1 ≤ started.state.inputSeq
        rw [hseq]
        exact h.queue.bounded d hd
    · intro p'
      rw [pc_goto]
      split_ifs
      · refine happlied (hparty.onwards ?_ ?_ ?_)
        · cases waiter <;> exact fun e he => ⟨e, he, rfl, rfl⟩
        · exact fun _ he => (nomatch he)
        · exact fun _ he => (nomatch he)
      · exact happlied (h.party p')

theorem Owed.settled (h : Owed q) (hs : q.state.isSettled = true) : q.history.pending = [] := by
  by_contra hne
  have hrequested := h.queue.requested hne
  unfold State.isSettled at hs
  simp only [Bool.and_eq_true] at hs
  rw [Option.isNone_iff_eq_none.mp hs.1.1] at hrequested
  cases hrequested

/-- Each section of a caller keeps track of what the settles owe. -/
theorem Owed.advance (h : Owed q) (ha : EpochsApart q (.advance p))
    (hs : q.advance C p = some q') : Owed q' := by
  have hparty := h.party p
  have hspared : ∀ watermark, promotes q (.advance p) = some (p, watermark) → _ :=
    fun watermark hp => ha.spared h hp
  have hkeep : ∀ {y : Pc α}, (∀ epoch ∈ y.epoch, epoch ∈ (q.pc p).epoch) →
      (∀ epoch ∈ y.pastCheck, epoch ∈ (q.pc p).pastCheck) →
        (∀ n ∈ y.finished, n ∈ (q.pc p).finished) → PartyOk q.history y :=
    fun he hc hd => hparty.onwards (fun e hmem => ⟨e, he e hmem, rfl, rfl⟩)
      (fun e hmem => ⟨e, hc e hmem, rfl⟩) hd
  unfold promotes at hspared
  unfold Protocol.advance at hs
  split at hs <;> rename_i hpc <;> rw [hpc] at hparty hkeep <;> simp only [hpc] at hspared
  · cases hs
  · cases hs
    refine h.move ⟨rfl, rfl, rfl, id⟩ ⟨rfl, rfl, rfl, rfl⟩ (fun _ => rfl)
      ⟨fun epoch he => ?_, fun _ he => (nomatch he), fun _ he => (nomatch he)⟩
    have heq : _ = epoch := Option.some.inj he
    subst heq
    exact ⟨le_refl _, fun d hd _ => h.queue.bounded d hd⟩
  · split_ifs at hs with hsettled <;> cases hs
    · refine h.exit ⟨rfl, rfl, rfl, id⟩ (by rw [hpc]; rfl) (hspared _ (if_pos hsettled)) ?_
      rw [h.settled hsettled]
      exact fun _ hy => (nomatch hy)
    · exact h.goto (hkeep (fun _ => id) (fun _ => id) (fun _ he => (nomatch he)))
  · rename_i target waiter
    split_ifs at hs <;> cases hs
    · cases waiter
      · exact h.goto (.idle _)
      · exact h.goto (hkeep (fun _ => id) (fun _ => id) (fun _ he => (nomatch he)))
    · refine h.move .rfl ⟨rfl, rfl, rfl, rfl⟩ (fun _ => rfl) ?_
      cases waiter <;> exact hkeep (fun _ => id) (fun _ => id) (fun _ he => (nomatch he))
    · exact h
  · exact h.startGeneration hpc hs
  · rename_i waiter
    cases hs
    cases waiter <;> exact h.goto (hkeep (fun _ => id) (fun _ => id) (fun _ he => (nomatch he)))
  · rename_i waiter
    cases hs
    refine h.move ⟨rfl, rfl, rfl, id⟩ ⟨rfl, rfl, rfl, rfl⟩ (fun _ => rfl) ?_
    cases waiter <;> exact hkeep (fun _ => id) (fun _ => id) (fun _ he => (nomatch he))
  · split_ifs at hs with hsettled hclean <;> cases hs
    · refine h.exit ⟨rfl, rfl, rfl, id⟩ (by rw [hpc]; rfl) (hspared _ (if_pos hsettled)) ?_
      rw [h.settled hsettled]
      exact fun _ hy => (nomatch hy)
    · have hpending : q.history.pending = [] := by
        by_contra hne
        have hrequested := h.queue.requested hne
        unfold State.isClean at hclean
        simp only [Bool.and_eq_true] at hclean
        rw [Option.isNone_iff_eq_none.mp hclean.1.1] at hrequested
        cases hrequested
      refine h.goto ⟨hparty.entered, fun _ _ y hy => ?_, fun _ he => (nomatch he)⟩
      rw [hpending] at hy
      cases hy
    · exact h.goto (hkeep (fun _ => id) (fun _ => id) (fun _ he => (nomatch he)))
  · exact h.heal (by rw [hpc]; rfl) (by rw [hpc]; rfl) (fun _ => ⟨rfl, rfl, rfl⟩) hs
  · split_ifs at hs <;> cases hs
    · exact h.goto (hkeep (fun _ => id) (fun _ => id) (fun _ he => (nomatch he)))
    · exact h.move ⟨rfl, rfl, rfl, id⟩ ⟨rfl, rfl, rfl, rfl⟩ (fun _ => rfl)
        (hkeep (fun _ => id) (fun _ => id) (fun _ he => (nomatch he)))
  · rename_i followup
    cases hs
    refine h.move ⟨rfl, rfl, rfl, id⟩ ⟨rfl, rfl, rfl, rfl⟩ (fun _ => rfl) ?_
    cases followup
    · exact hkeep (fun _ => id) (fun _ => id) (fun _ he => (nomatch he))
    · exact hkeep (fun _ => id) (fun _ he => (nomatch he)) (fun _ he => (nomatch he))
  · split_ifs at hs <;> cases hs
    · exact h.goto (hkeep (fun _ => id) (fun _ => id) (fun _ he => (nomatch he)))
    · exact h.move ⟨rfl, rfl, rfl, id⟩ ⟨rfl, rfl, rfl, rfl⟩ (fun _ => rfl)
        (hkeep (fun _ => id) (fun _ => id) (fun _ he => (nomatch he)))
  · cases hs
    refine h.move ⟨rfl, rfl, rfl, id⟩ ⟨rfl, rfl, rfl, rfl⟩ (fun _ => rfl) ?_
    split_ifs <;> exact hkeep (fun _ => id) (fun _ => id) (fun _ he => (nomatch he))
  · exact h.heal (by rw [hpc]; rfl) (by rw [hpc]; rfl) (fun _ => ⟨rfl, rfl, rfl⟩) hs
  · cases hs
    refine h.goto ?_
    split_ifs
    · exact hkeep (fun _ => id) (fun _ => id) (fun _ he => (nomatch he))
    · exact hkeep (fun _ => id) (fun _ he => (nomatch he)) (fun _ he => (nomatch he))
  · rename_i epoch
    cases hs
    exact h.exit (.of_control (sameControl_publishSettledRevision q.state)) (by rw [hpc]; rfl) (hspared _ rfl)
      (hparty.checked epoch rfl)
  · cases hs
    exact h.move (sameQueues_requestGeneration q.state) ⟨rfl, rfl, rfl, rfl⟩ (fun _ => rfl)
      (hkeep (fun _ => id) (fun _ => id) (fun _ he => (nomatch he)))
  · cases hs
    exact h.leave (hkeep (fun _ he => (nomatch he)) (fun _ he => (nomatch he)) (fun _ => id)) rfl
      fun hlast => hspared _ (if_pos hlast)
  · rename_i scoop
    cases hs
    cases scoop <;> exact h.goto (hkeep (fun _ he => (nomatch he)) (fun _ he => (nomatch he))
      (fun _ he => (nomatch he)))
  · cases hs
    refine h.move .rfl ⟨rfl, rfl, rfl, rfl⟩ (fun _ => rfl) ?_
    split_ifs <;> exact hkeep (fun _ he => (nomatch he)) (fun _ he => (nomatch he))
      (fun _ he => (nomatch he))
  · cases hs
    exact h.move (.of_control (sameControl_closeBound C _ q.state _)) ⟨rfl, rfl, rfl, rfl⟩ (fun _ => rfl)
      (hkeep (fun _ he => (nomatch he)) (fun _ he => (nomatch he)) (fun _ he => (nomatch he)))
  · cases hs
    exact h.goto (hkeep (fun _ he => (nomatch he)) (fun _ he => (nomatch he))
      (fun _ he => (nomatch he)))
  · cases hs
    exact h.goto (.idle _)
  · cases hs
    exact h.leave (.idle _) rfl fun hlast => hspared _ (if_pos hlast)

theorem Owed.cancel (h : Owed q) (hs : q.cancel p = some q') : Owed q' := by
  have hunwind : ∀ b : Bool, PartyOk q.history (if b = true then Pc.unwinding else Pc.idle) := by
    intro b
    cases b <;> exact ⟨fun _ he => (nomatch he), fun _ he => (nomatch he), fun _ he => (nomatch he)⟩
  unfold Protocol.cancel at hs
  split at hs
  · cases hs
  · cases hs
  · cases hs
  · cases hs
    refine h.move ?_ ⟨rfl, rfl, rfl, rfl⟩ (fun _ => rfl) (hunwind _)
    dsimp only
    split
    · exact ⟨rfl, rfl, rfl, fun _ => rfl⟩
    · exact .rfl

theorem Owed.accept (h : Owed q) {commands : List (BaseCommand α)} {s : State α}
    (hs : q.state.acceptInput commands = some s) :
    Owed { q with
      state := s
      history := q.history.accept q.state.settling (q.state.inputSeq + 1) commands } := by
  rcases State.acceptInput_eq hs with ⟨hsettling, rfl⟩ | ⟨hsettling, -, rfl⟩
  · have hhistory : q.history.accept q.state.settling (q.state.inputSeq + 1) commands =
        q.history.accept 0 0 commands := by
      unfold History.accept
      rw [if_pos hsettling, if_pos rfl]
    rw [hhistory]
    exact ⟨h.queue.acceptPending commands rfl rfl rfl rfl, fun p => (h.party p).acceptPending commands⟩
  · exact ⟨h.queue.acceptDeferred commands hsettling,
      fun p => (h.party p).acceptDeferred commands hsettling⟩

theorem Owed.commit (h : Owed q) {memo : MemoTable} {run : SystemRun α} {phase : Option Phase}
    (pc : MemoTable → Bool → Pc α)
    (hpc : ∀ memo changed, PartyOk q.history (pc memo changed))
    (hs : q.commit C p memo run phase pc = some q') : Owed q' := by
  obtain ⟨⟨after, s, progress⟩, hcommit, hs⟩ := Option.bind_eq_some_iff.mp hs
  cases hs
  refine h.move (.of_control (sameControl_commitSystemRun C hcommit)) ?_ (fun _ => rfl) (hpc _ _)
  dsimp only
  split_ifs
  · exact ⟨rfl, rfl, rfl, rfl⟩
  · unfold History.commit
    split <;> exact ⟨rfl, rfl, rfl, rfl⟩

/-- Each allowed action keeps track of what the settles owe. -/
theorem Owed.act (h : Owed q) {a : Action α} (ha : EpochsApart q a)
    (hs : q.act C a = some q') : Owed q' := by
  cases a with
  | insert commands =>
    obtain ⟨s, hstate, hs⟩ := Option.bind_eq_some_iff.mp hs
    cases hs
    exact h.accept hstate
  | insertPreempting commands =>
    obtain ⟨s, hstate, hs⟩ := Option.bind_eq_some_iff.mp hs
    cases hs
    obtain ⟨restart, rfl⟩ := State.acceptPreempting_eq hstate
    exact ⟨h.queue.acceptPending commands rfl rfl rfl rfl,
      fun p => (h.party p).acceptPending commands⟩
  | reserve => cases hs; exact h.same ⟨rfl, rfl, rfl, id⟩ ⟨rfl, rfl, rfl, rfl⟩ fun _ => rfl
  | reserveSingleton key =>
    cases hs
    exact h.same ⟨rfl, rfl, rfl, id⟩ ⟨rfl, rfl, rfl, rfl⟩ fun _ => rfl
  | mutate t e v =>
    obtain ⟨s, hstate, hs⟩ := Option.bind_eq_some_iff.mp hs
    cases hs
    obtain ⟨restart, rfl⟩ := State.reachBoundary_eq hstate
    have hbounded : SameQueues (q.showWrite t e v).state
        { q.state with preemptRestart := restart } := by
      rw [(showWrite_frame q t e v).1]
      exact ⟨rfl, rfl, rfl, id⟩
    exact (h.showWrite t e v).same (hbounded.trans (sameQueues_mutate C _ t e v))
      ⟨rfl, rfl, rfl, rfl⟩ fun _ => rfl
  | takeBound e parts =>
    cases hs
    exact h.same (.of_control (sameControl_takeBound C q.state e parts)) ⟨rfl, rfl, rfl, rfl⟩
      fun _ => rfl
  | drainBound entities =>
    cases hs
    exact h.same (.of_control (sameControl_closeBound C _ _ _)) ⟨rfl, rfl, rfl, rfl⟩ fun _ => rfl
  | dropBound e => cases hs; exact h.same .rfl ⟨rfl, rfl, rfl, rfl⟩ fun _ => rfl
  | callSettle p scoop =>
    simp only [Protocol.act] at hs
    split at hs
    · split_ifs at hs with hfast <;> cases hs
      · refine h.goto ⟨fun _ he => (by cases he), fun _ he => (by cases he), fun n hn => ?_⟩
        have heq : q.history.accepted = n := Option.some.inj hn
        subst heq
        have hdeferred : q.history.deferred = [] := by
          have hnone := h.queue.deferredInputs.symm.trans hfast.2
          exact List.map_eq_nil_iff.mp hnone
        rw [h.settled hfast.1, hdeferred]
        exact ⟨le_refl _, fun _ hy => (by cases hy), fun _ hd => (by cases hd)⟩
      · exact h.goto ⟨fun _ he => (by cases he), fun _ he => (by cases he), fun _ he => (by cases he)⟩
    · cases hs
  | awaitInsert p generation =>
    simp only [Protocol.act] at hs
    split at hs
    · cases hs
      exact h.goto ⟨fun _ he => (by cases he), fun _ he => (by cases he), fun _ he => (by cases he)⟩
    · cases hs
  | advance p => exact h.advance ha hs
  | writeInPlace p t e v =>
    simp only [Protocol.act] at hs
    split_ifs at hs
    cases hs
    have hwritten : SameQueues (q.showWrite t e v).state
        { q.state with world := q.state.world.writeInPlace t e v } := by
      rw [(showWrite_frame q t e v).1]
      exact ⟨rfl, rfl, rfl, id⟩
    exact (h.showWrite t e v).same hwritten ⟨rfl, rfl, rfl, rfl⟩ fun _ => rfl
  | commit p run phase =>
    have hparty := h.party p
    have hkeep : ∀ {y : Pc α}, y.epoch = (q.pc p).epoch → y.pastCheck = (q.pc p).pastCheck →
        y.finished = (q.pc p).finished → PartyOk q.history y := fun he hc hd =>
      hparty.onwards (fun e hmem => ⟨e, he ▸ hmem, rfl, rfl⟩) (fun e hmem => ⟨e, hc ▸ hmem, rfl⟩)
        fun n hn => hd ▸ hn
    simp only [Protocol.act] at hs
    split at hs
    · rename_i waiter hpc
      split_ifs at hs
      rw [hpc] at hkeep
      exact h.commit _ (fun _ _ => by cases waiter <;> exact hkeep rfl rfl rfl) hs
    · rename_i epoch _ followup hpc
      rw [hpc] at hkeep
      exact h.commit (fun memo followup' => .inHooks epoch memo (followup || followup'))
        (fun _ _ => hkeep rfl rfl rfl) hs
    · rename_i epoch _ revisionBefore hpc
      rw [hpc] at hkeep
      exact h.commit (fun memo _ => .inSettlePhase epoch memo revisionBefore)
        (fun _ _ => hkeep rfl rfl rfl) hs
    · cases hs
  | openWindow p =>
    simp only [Protocol.act] at hs
    split at hs
    · cases hs
      exact h.same ⟨rfl, rfl, rfl, id⟩ ⟨rfl, rfl, rfl, rfl⟩ fun _ => rfl
    · cases hs
  | closeWindow p =>
    simp only [Protocol.act] at hs
    split at hs
    · cases hs
      exact h.same ⟨rfl, rfl, rfl, id⟩ ⟨rfl, rfl, rfl, rfl⟩ fun _ => rfl
    · cases hs
  | cancel p => exact h.cancel hs

/-- The history numbers exactly the inputs in the bowl's two queues. -/
def Numbered (q : Protocol α) : Prop :=
  q.state.pendingInputs = q.history.pending.flatMap Prod.snd ∧
    q.state.deferredInputs = q.history.deferred.map fun d => (d.1, d.2.2)

/-- When a settle is over, every input accepted before it entered has been applied and is in
neither queue. -/
def InputsApplied (q : Protocol α) : Prop :=
  ∀ b ∈ q.parties.entries, ∀ accepted ∈ b.2.finished, ∀ n < accepted,
    n ∈ q.history.applied ∧ n ∉ q.history.pending.map Prod.fst ∧
      n ∉ q.history.deferred.map fun d => d.2.1

instance (q : Protocol α) : Decidable q.InputsApplied :=
  inferInstanceAs (Decidable (∀ b ∈ q.parties.entries, ∀ accepted ∈ b.2.finished, _))

theorem Owed.inputsApplied (h : Owed q) : q.InputsApplied := by
  rintro ⟨p, x⟩ hb accepted hn n hlt
  have hpc : q.pc p = x := pc_of_mem_parties q hb
  obtain ⟨hle, hpending, hdeferred⟩ := (h.party p).done accepted (by rw [hpc]; exact hn)
  have hpending' : n ∉ q.history.pending.map Prod.fst := fun hmem => by
    obtain ⟨y, hy, rfl⟩ := List.mem_map.mp hmem
    exact absurd (hpending y hy) (Nat.not_le_of_lt hlt)
  have hdeferred' : n ∉ q.history.deferred.map fun d => d.2.1 := fun hmem => by
    obtain ⟨d, hd, rfl⟩ := List.mem_map.mp hmem
    exact absurd (hdeferred d hd) (Nat.not_le_of_lt hlt)
  have happlied := h.queue.numbered n (Nat.lt_of_lt_of_le hlt hle)
  exact ⟨(happlied.resolve_left hpending').resolve_left hdeferred', hpending', hdeferred'⟩

theorem owed_new (systems : List BoxedSystem) (hooked : SystemId → Bool) :
    Owed (new systems hooked : Protocol α) := by
  have hpending : (systems.foldl State.registerSystem (State.new α)).pendingInputs = [] :=
    State.registered State.pendingInputs (fun _ _ => rfl) systems
  have hdeferred : (systems.foldl State.registerSystem (State.new α)).deferredInputs = [] :=
    State.registered State.deferredInputs (fun _ _ => rfl) systems
  refine ⟨⟨hpending, hdeferred, fun hne => absurd rfl hne, fun n hn => (nomatch hn), .nil,
    fun _ hd => (nomatch hd)⟩, fun p => .idle _⟩

/-- When no settle promotes what another one owes, a settle returns with its inputs applied. -/
theorem reachable_inputsApplied (hq : (machine C).ReachableUnder EpochsApart q) :
    q.Numbered ∧ q.InputsApplied := by
  have howed : Owed q := by
    have hrest : ∀ q : Protocol α, Owed q → Owed q.rest := fun q h => by
      unfold rest
      split_ifs
      · exact h.same .rfl ⟨rfl, rfl, rfl, rfl⟩ fun _ => rfl
      · exact h
    refine Machine.ReachableUnder.invariant hq Owed ?_ fun q a q' h ha hs => ?_
    · rintro q ⟨systems, hooked, rfl⟩
      exact hrest _ (owed_new systems hooked)
    · obtain ⟨q₁, hact, rfl⟩ := Option.map_eq_some_iff.mp hs
      exact hrest _ (h.act ha hact)
  exact ⟨⟨howed.queue.pendingInputs, howed.queue.deferredInputs⟩, howed.inputsApplied⟩

section Stranded

/-- One evaluate-phase system, without hooks. -/
def plainBowl : Protocol Nat := (new [.new .evaluate none false false []] fun _ => false).rest

/-- Caller 1 settles up to its clean check; its first generation changed the world. -/
def intoCheck : List (Action Nat) :=
  .callSettle 1 false :: advances 4 1 ++
    .commit 1 ⟨true, [⟨⟨0, [1]⟩, [.insert 5 1 (.data 7)]⟩], [(⟨0, [1]⟩, ⟨[], 0, 0⟩)], []⟩ .evaluate ::
      advances 12 1

/-- Caller 2 inserts meanwhile and settles up to its last section. -/
def insertAndSettle : List (Action Nat) :=
  intoCheck ++ .insert [.insert 6 2 (.data 8)] :: .callSettle 2 false :: advances 7 2

def answered : Protocol Nat :=
  ((machine (Components.plain Nat)).run plainBowl (insertAndSettle ++ advances 13 2)).getD plainBowl

/-- Nobody else promotes the input: caller 2 goes round again and returns with it applied. -/
theorem answered_inputsApplied :
    answered.InputsApplied ∧ answered.pc 2 = .returned 1 false ∧ answered.history.applied = [0] := by
  have hrun : (machine (Components.plain Nat)).run plainBowl (insertAndSettle ++ advances 13 2) =
      some answered := rfl
  have hallowed : (machine (Components.plain Nat)).Allows EpochsApart plainBowl
      (insertAndSettle ++ advances 13 2) := by decide
  exact ⟨(reachable_inputsApplied (Machine.ReachableUnder.run (.init ⟨_, _, rfl⟩) hallowed hrun)).2,
    by decide, by decide⟩

/-- Caller 3 settles as far and promotes the input; the last section of caller 2 then finds
nothing to promote, and it returns. -/
def promoteBetween : List (Action Nat) :=
  insertAndSettle ++ .callSettle 3 false :: advances 8 3 ++ advances 2 2

theorem concurrent_settles_strand_input :
    ∃ q ∈ (machine (Components.plain Nat)).run plainBowl promoteBetween,
      ¬ (q.Numbered ∧ q.InputsApplied) := by
  have hrun : ∃ q ∈ (machine (Components.plain Nat)).run plainBowl promoteBetween,
      ¬ q.InputsApplied := by decide
  obtain ⟨q, hq, hnot⟩ := hrun
  exact ⟨q, hq, fun h => hnot h.2⟩

end Stranded
end Protocol
end Porridge
