import Porridge.Healing.Fresh
import Porridge.Protocol.Memo
import Porridge.Runnable

/-! What memo entries have recorded was handed out before: no table knows a revision that the world
has not reached. -/
namespace Porridge

variable {α : Type} {C : Components α}

open World MemoTable

def Dep.Bounded (r : Revision) (d : Dep) : Prop := ∀ k ∈ d.revision, k ≤ r

def MemoEntry.Bounded (r : Revision) (m : MemoEntry) : Prop := ∀ d ∈ m.deps, d.Bounded r

section Bounded

variable {w w' : World α} {d : Dep} {m : MemoEntry} {r r' : Revision}

theorem Dep.Bounded.mono (h : d.Bounded r) (hr : r ≤ r') : d.Bounded r' :=
  fun k hk => (h k hk).trans hr

theorem MemoEntry.Bounded.mono (h : m.Bounded r) (hr : r ≤ r') : m.Bounded r' :=
  fun d hd => (h d hd).mono hr

theorem World.Coherent.revisionByType_le (h : w.Coherent) (t : TypeId) (e : Entity) :
    ∀ k ∈ w.revisionByType t e, k ≤ w.revision := by
  intro k hk
  obtain ⟨x, hx, rfl⟩ := Option.map_eq_some_iff.mp hk
  exact (h.entries t e x hx).trans (h.watermarks t)

theorem Dep.bounded_of_isCurrent (h : w.Coherent) (hd : d.isCurrent w = true) :
    d.Bounded w.revision := by
  intro k hk
  unfold Dep.isCurrent at hd
  split_ifs at hd
  · have hmark : w.storeWatermark d.component = k := by
      rw [Option.mem_def.mp hk] at hd
      exact eq_of_beq hd
    exact hmark ▸ h.watermarks d.component
  · refine h.revisionByType_le d.component d.entity k ?_
    rw [eq_of_beq hd]
    exact hk

theorem Dep.Bounded.refreshWritten (h : d.Bounded w.revision) (hw : w.Coherent)
    (writes : List (TypeId × Entity)) : (d.refreshWritten w writes).Bounded w.revision := by
  unfold Dep.refreshWritten
  split_ifs
  · exact hw.revisionByType_le d.component d.entity
  · exact h

/-- What a parameter records has been handed out. -/
theorem SystemParam.bounded_of_mem_deps (hw : w.Coherent) {p : SystemParam} {s : ParamState}
    (hd : d ∈ p.deps C w s) : d.Bounded w.revision := by
  rcases observed_of_mem_deps hd with hrow | ⟨t, rfl⟩
  · unfold Dep.Bounded
    rw [hrow.revision]
    exact hw.revisionByType_le d.component d.entity
  · intro k hk
    cases hk
    exact hw.watermarks t

theorem Params.bounded_of_mem_deps (hw : w.Coherent) {ps : Params} {state : List ParamState}
    (hd : d ∈ Params.deps C w ps state) : d.Bounded w.revision := by
  obtain ⟨x, -, hx⟩ := List.mem_flatMap.mp hd
  exact SystemParam.bounded_of_mem_deps hw hx

/-- A world that comes later has handed out more. -/
theorem World.Later.revision_le (h : Later C w w') (hw : w.Coherent) : w.revision ≤ w'.revision :=
  ((Follows.refl (C := C) w).later hw h).2.revision

theorem World.Later.coherent (h : Later C w w') (hw : w.Coherent) : w'.Coherent :=
  ((Follows.refl (C := C) w).later hw h).1

/-- The entries that a commit adds have recorded what was handed out. -/
theorem bounded_commitSystemRun {s s' : State α} {memo after : MemoTable} {run : SystemRun α}
    {phase : Option Phase} {progress : CommitProgress} (hw : s.world.Coherent)
    (h : commitSystemRun C memo s run phase = some (after, s', progress))
    (hmemo : ∀ o m, memo.lookup o = some m → m.Bounded s.world.revision) :
    ∀ o m, after.lookup o = some m → m.Bounded s'.world.revision := by
  have hlater : Later C s.world s'.world := (steers_commitSystemRun h).world.later
  have hle := hlater.revision_le hw
  obtain ⟨-, -, -, htable⟩ := commitSystemRun_table h
  intro o m hm
  rcases htable o m hm with hbefore | ⟨update, -, -, hcurrent, w, hbefore, hafter, hdeps⟩
  · exact (hmemo o m hbefore).mono hle
  · have hreached : w.Coherent := hbefore.later.coherent hw
    intro d' hd'
    rw [hdeps] at hd'
    obtain ⟨d, hd, rfl⟩ := List.mem_map.mp hd'
    have hseen : d.Bounded s.world.revision :=
      Dep.bounded_of_isCurrent hw (List.all_eq_true.mp hcurrent d hd)
    have habsorbed := (hseen.mono (hbefore.later.revision_le hw)).refreshWritten hreached run.writes
    exact habsorbed.mono (hafter.later.revision_le hreached)

end Bounded

namespace Protocol

variable {q q' q₁ : Protocol α} {p : PartyId} {x : Pc α} {o : SystemInvocation} {m : MemoEntry}

/-- A memo table has the entry: the one at home, or one that a caller holds. -/
def Remembers (q : Protocol α) (o : SystemInvocation) (m : MemoEntry) : Prop :=
  q.state.memo.lookup o = some m ∨
    ∃ p memo, (q.pc p).held = some memo ∧ memo.lookup o = some m

/-- The tables have no entry that they did not have before. -/
def Inherits (q q' : Protocol α) : Prop := ∀ o m, q'.Remembers o m → q.Remembers o m

theorem Inherits.same (hmemo : Within q'.state.memo q.state.memo)
    (hheld : ∀ p, (q'.pc p).held = (q.pc p).held) : Inherits q q' := by
  rintro o m (hm | ⟨p, memo, hp, hm⟩)
  · exact Or.inl (hmemo o m hm)
  · exact Or.inr ⟨p, memo, hheld p ▸ hp, hm⟩

/-- A caller goes on with a table that it had, or with the one that was at home. -/
theorem Inherits.goto (hhome : ∀ o m, q₁.state.memo.lookup o = some m → q.Remembers o m)
    (hpc : ∀ p', q₁.pc p' = q.pc p')
    (hx : ∀ memo, x.held = some memo → ∀ o m, memo.lookup o = some m → q.Remembers o m) :
    Inherits q (q₁.goto p x) := by
  rintro o m (hm | ⟨p', memo, hp, hm⟩)
  · exact hhome o m hm
  · rw [pc_goto] at hp
    split_ifs at hp
    · exact hx memo hp o m hm
    · rw [hpc] at hp
      exact Or.inr ⟨p', memo, hp, hm⟩

/-- A caller that holds no table goes on. -/
theorem Inherits.free (hmemo : Within q₁.state.memo q.state.memo)
    (hpc : ∀ p', q₁.pc p' = q.pc p') (hx : x.held = none) : Inherits q (q₁.goto p x) := by
  refine .goto (fun o m hm => Or.inl (hmemo o m hm)) hpc fun memo hp => ?_
  rw [hx] at hp
  cases hp

/-- A caller gives its table back. -/
theorem Inherits.put {memo : MemoTable} (hp : (q.pc p).held = some memo)
    (hmemo : q₁.state.memo = memo) (hpc : ∀ p', q₁.pc p' = q.pc p') (hx : x.held = none) :
    Inherits q (q₁.goto p x) := by
  refine .goto (fun o m hm => Or.inr ⟨p, memo, hp, hmemo ▸ hm⟩) hpc fun memo' hp' => ?_
  rw [hx] at hp'
  cases hp'

/-- A caller takes what is left of the table at home. -/
theorem Inherits.take {memo : MemoTable} (hmemo : Within memo q.state.memo)
    (hgone : q₁.state.memo = ∅) (hpc : ∀ p', q₁.pc p' = q.pc p') (hx : x.held = some memo) :
    Inherits q (q₁.goto p x) := by
  refine .goto (fun o m hm => ?_) hpc fun memo' hp' o m hm => ?_
  · rw [hgone] at hm
    cases hm
  · cases hx.symm.trans hp'
    exact Or.inl (hmemo o m hm)

theorem Inherits.exit {epoch : Epoch} {done : State α → State α}
    (hdone : (done q.state).memo = q.state.memo) : Inherits q (q.exit p epoch done) := by
  have hpromoted : (q.promote epoch.watermark).2.state.memo = q.state.memo :=
    (promoteDeferredInputs_frame q.state epoch.watermark).1
  have hdone' : ({ q with state := done q.state } : Protocol α).state.memo = q.state.memo := hdone
  unfold Protocol.exit
  dsimp only
  split_ifs
  · exact .free (hpromoted ▸ Within.rfl) (fun _ => rfl) rfl
  · exact .free (hdone' ▸ Within.rfl) (fun _ => rfl) rfl

theorem Inherits.heal {epoch : Epoch} {onwards : Epoch → Pc α}
    (honwards : ∀ epoch, (onwards epoch).held = none)
    (hs : q.heal p epoch onwards = some q') : Inherits q q' := by
  obtain ⟨⟨healed, attempts, s⟩, hhealed, hs⟩ := Option.bind_eq_some_iff.mp hs
  cases hs
  refine .free (within_healStaleAmbient hhealed) (fun _ => rfl) ?_
  cases healed
  · exact honwards _
  · rfl

theorem Inherits.startGeneration {target : Nat} {waiter : Waiter}
    (hs : q.startGeneration C p target waiter = some q') : Inherits q q' := by
  obtain ⟨started, hstarted, hs⟩ := Option.bind_eq_some_iff.mp hs
  cases started with
  | none =>
    cases hs
    exact .free Within.rfl (fun _ => rfl) rfl
  | some started =>
    cases hs
    have hgone : started.state.memo = ∅ := by
      unfold startEvaluation at hstarted
      split at hstarted
      · cases hstarted
      · obtain ⟨applied, -, hlaunch⟩ := Option.bind_eq_some_iff.mp hstarted
        cases hlaunch
        rfl
    exact .take (within_startEvaluation C hstarted) hgone (fun _ => rfl) rfl

theorem Inherits.leave (hx : x.held = none) : Inherits q (q.leave.goto p x) := by
  obtain ⟨hpc, hmemo, -⟩ := leave_frame q
  exact .free (hmemo ▸ Within.rfl) hpc hx

/-- A caller keeps its table, or it moves the one at home in or out. -/
theorem Inherits.advance (hs : q.advance C p = some q') : Inherits q q' := by
  have hmove : ∀ {x : Pc α}, x.held = none → Inherits q (q.goto p x) := fun hx =>
    .free Within.rfl (fun _ => rfl) hx
  unfold Protocol.advance at hs
  split at hs <;> rename_i hpc
  case h_1 => cases hs
  case h_2 => cases hs; exact .free Within.rfl (fun _ => rfl) rfl
  case h_3 =>
    split_ifs at hs <;> cases hs
    · exact .exit rfl
    · exact hmove rfl
  case h_4 target waiter =>
    split_ifs at hs <;> cases hs
    · exact hmove (by cases waiter <;> rfl)
    · exact .free Within.rfl (fun _ => rfl) rfl
    · exact fun _ _ hm => hm
  case h_5 => exact .startGeneration hs
  case h_6 generation memo changed target waiter =>
    cases hs
    refine .goto (fun o m => Or.inl) (fun _ => rfl) fun memo' hp o m hm => ?_
    exact Or.inr ⟨p, memo', by rw [hpc]; exact hp, hm⟩
  case h_7 => cases hs; exact .put (by rw [hpc]; rfl) rfl (fun _ => rfl) rfl
  case h_8 =>
    split_ifs at hs <;> cases hs
    · exact .exit rfl
    · exact hmove rfl
    · exact hmove rfl
  case h_9 => exact .heal (fun _ => rfl) hs
  case h_10 =>
    split_ifs at hs <;> cases hs
    · exact hmove rfl
    · exact .take Within.rfl rfl (fun _ => rfl) rfl
  case h_11 =>
    cases hs
    exact .put (by rw [hpc]; rfl) rfl (fun _ => rfl) (by split <;> rfl)
  case h_12 =>
    split_ifs at hs <;> cases hs
    · exact hmove rfl
    · exact .take Within.rfl rfl (fun _ => rfl) rfl
  case h_13 =>
    cases hs
    exact .put (by rw [hpc]; rfl) rfl (fun _ => rfl) (by split <;> rfl)
  case h_14 => exact .heal (fun _ => rfl) hs
  case h_15 => cases hs; exact hmove (by split <;> rfl)
  case h_16 =>
    cases hs
    refine .exit ?_
    unfold State.publishSettledRevision
    split_ifs <;> rfl
  case h_17 => cases hs; exact .free Within.rfl (fun _ => rfl) rfl
  case h_18 => cases hs; exact .leave rfl
  case h_19 => cases hs; exact hmove (by split <;> rfl)
  case h_20 => cases hs; exact .free Within.rfl (fun _ => rfl) (by split <;> rfl)
  case h_21 => cases hs; exact .free (within_closeBound C _ _ _) (fun _ => rfl) rfl
  case h_22 => cases hs; exact hmove rfl
  case h_23 => cases hs; exact hmove rfl
  case h_24 => cases hs; exact .leave rfl

theorem Inherits.cancel (hs : q.cancel p = some q') : Inherits q q' := by
  have hnone : ∀ b : Bool, (if b = true then Pc.unwinding else Pc.idle : Pc α).held = none := by
    intro b
    cases b <;> rfl
  unfold Protocol.cancel at hs
  cases hpc : q.pc p with
  | idle | leaving accepted scoop | unwinding =>
    rw [hpc] at hs
    cases hs
  | driving generation memo changed target waiter =>
    rw [hpc] at hs
    cases hs
    exact .put (by rw [hpc]; rfl) rfl (fun _ => rfl) (hnone _)
  | _ =>
    rw [hpc] at hs
    cases hs
    exact .free Within.rfl (fun _ => rfl) (hnone _)

/-- Only commits add entries to a table. -/
theorem Inherits.act {a : Action α} (hs : q.act C a = some q')
    (ha : ∀ p run phase, a ≠ .commit p run phase) : Inherits q q' := by
  cases a with
  | insert commands =>
    obtain ⟨s, hstate, hs⟩ := Option.bind_eq_some_iff.mp hs
    cases hs
    refine .same ?_ fun _ => rfl
    rcases State.acceptInput_eq hstate with ⟨-, rfl⟩ | ⟨-, -, rfl⟩ <;> exact Within.rfl
  | insertPreempting commands =>
    obtain ⟨s, hstate, hs⟩ := Option.bind_eq_some_iff.mp hs
    cases hs
    obtain ⟨restart, rfl⟩ := State.acceptPreempting_eq hstate
    exact .same Within.rfl fun _ => rfl
  | reserve => cases hs; exact .same Within.rfl fun _ => rfl
  | reserveSingleton key => cases hs; exact .same Within.rfl fun _ => rfl
  | mutate t e v =>
    obtain ⟨s, hstate, hs⟩ := Option.bind_eq_some_iff.mp hs
    cases hs
    obtain ⟨restart, rfl⟩ := State.reachBoundary_eq hstate
    refine .same ?_ fun p => observe_showWrite q p Pc.held (fun _ _ => rfl) t e v
    unfold State.mutate
    dsimp only
    split_ifs <;> exact Within.rfl
  | takeBound e parts =>
    cases hs
    exact .same (within_closeBound C _ { q.state with world := _ } _) fun _ => rfl
  | drainBound entities => cases hs; exact .same (within_closeBound C _ _ _) fun _ => rfl
  | dropBound e => cases hs; exact .same Within.rfl fun _ => rfl
  | callSettle p scoop =>
    simp only [Protocol.act] at hs
    split at hs
    · split_ifs at hs <;> cases hs <;> exact .free Within.rfl (fun _ => rfl) rfl
    · cases hs
  | awaitInsert p generation =>
    simp only [Protocol.act] at hs
    split at hs
    · cases hs
      exact .free Within.rfl (fun _ => rfl) rfl
    · cases hs
  | advance p => exact .advance hs
  | writeInPlace p t e v =>
    simp only [Protocol.act] at hs
    split_ifs at hs
    cases hs
    exact .same Within.rfl fun p => observe_showWrite q p Pc.held (fun _ _ => rfl) t e v
  | commit p run phase => exact absurd rfl (ha p run phase)
  | openWindow p =>
    simp only [Protocol.act] at hs
    split at hs
    · cases hs
      exact .same Within.rfl fun _ => rfl
    · cases hs
  | closeWindow p =>
    simp only [Protocol.act] at hs
    split at hs
    · cases hs
      exact .same Within.rfl fun _ => rfl
    · cases hs
  | cancel p => exact .cancel hs

/-- No table has recorded a revision that the world has not reached. -/
def Recorded (q : Protocol α) : Prop :=
  ∀ o m, q.Remembers o m → m.Bounded q.state.world.revision

theorem Recorded.inherits (h : Recorded q) (hi : Inherits q q')
    (hr : q.state.world.revision ≤ q'.state.world.revision) : Recorded q' :=
  fun o m hm => (h o m (hi o m hm)).mono hr

/-- A caller commits a run against the table that it holds. -/
theorem Recorded.commit (h : Recorded q) (hw : q.state.world.Coherent) {memo after : MemoTable}
    {run : SystemRun α} {phase : Option Phase} {s : State α} {progress : CommitProgress}
    (hp : (q.pc p).held = some memo)
    (hc : commitSystemRun C memo q.state run phase = some (after, s, progress))
    (hstate : q₁.state.world = s.world ∧ q₁.state.memo = s.memo)
    (hpc : ∀ p', q₁.pc p' = q.pc p') (hx : x.held = some after) : Recorded (q₁.goto p x) := by
  have hle := (steers_commitSystemRun hc).world.later.revision_le hw
  have hadded := bounded_commitSystemRun hw hc fun o m hm => h o m (Or.inr ⟨p, memo, hp, hm⟩)
  obtain ⟨hworld, hmemo⟩ := hstate
  rintro o m (hm | ⟨p', memo', hp', hm⟩)
  · show m.Bounded q₁.state.world.revision
    have hm : q.state.memo.lookup o = some m := by
      rw [← (commitSystemRun_table hc).1, ← hmemo]
      exact hm
    rw [hworld]
    exact (h o m (Or.inl hm)).mono hle
  · show m.Bounded q₁.state.world.revision
    rw [hworld]
    rw [pc_goto] at hp'
    split_ifs at hp'
    · cases hx.symm.trans hp'
      exact hadded o m hm
    · rw [hpc] at hp'
      exact (h o m (Or.inr ⟨p', memo', hp', hm⟩)).mono hle

/-- Every action of a caller records what was handed out. -/
theorem Recorded.act (h : Recorded q) (hw : q.state.world.Coherent) {a : Action α}
    (hs : q.act C a = some q') : Recorded q' := by
  have hle := (onward_act hs).world.revision_le hw
  by_cases hcommits : ∃ p run phase, a = .commit p run phase
  · obtain ⟨p, run, phase, rfl⟩ := hcommits
    have hcommitted : ∀ {memo : MemoTable} {phase : Option Phase} {pc : MemoTable → Bool → Pc α},
        (q.pc p).held = some memo → (∀ after followup, (pc after followup).held = some after) →
          q.commit C p memo run phase pc = some q' → Recorded q' := by
      intro memo phase pc hp hheld hs
      obtain ⟨⟨after, s, progress⟩, hcommit, hs⟩ := Option.bind_eq_some_iff.mp hs
      cases hs
      exact h.commit hw hp hcommit ⟨rfl, rfl⟩ (fun _ => rfl) (hheld _ _)
    simp only [Protocol.act] at hs
    split at hs <;> rename_i hpc
    · split_ifs at hs
      exact hcommitted (by rw [hpc]; rfl) (fun _ _ => rfl) hs
    · exact hcommitted (by rw [hpc]; rfl) (fun _ _ => rfl) hs
    · exact hcommitted (by rw [hpc]; rfl) (fun _ _ => rfl) hs
    · cases hs
  · refine h.inherits (.act hs ?_) hle
    exact fun p run phase heq => hcommits ⟨p, run, phase, heq⟩

theorem Recorded.rest (h : Recorded q) : Recorded q.rest := by
  obtain ⟨hstate, hpc, -, -⟩ := rest_frame q
  rintro o m (hm | ⟨p, memo, hp, hm⟩)
  · rw [hstate] at hm ⊢
    exact h o m (Or.inl hm)
  · rw [hstate]
    rw [hpc] at hp
    exact h o m (Or.inr ⟨p, memo, hp, hm⟩)

end Protocol
end Porridge
