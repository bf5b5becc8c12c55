import Porridge.World.Emitted
import Porridge.World.Watermarks

/-! What the outputs of a run do to a component: whether its revision outlives them. -/
namespace Porridge

/-- What is done to a component: it is left, restated under the recorded fingerprint, or changed. -/
inductive Fate where
  | left
  | restated
  | changed
deriving DecidableEq, Repr

def Fate.andThen : Fate → Fate → Fate
  | .left, fate => fate
  | .restated, .changed => .changed
  | .restated, _ => .restated
  | .changed, _ => .changed

namespace Fate

@[simp] theorem andThen_left (fate : Fate) : fate.andThen .left = fate := by
  cases fate <;> rfl

@[simp] theorem andThen_eq_left {fate fate' : Fate} :
    fate.andThen fate' = .left ↔ fate = .left ∧ fate' = .left := by
  cases fate <;> cases fate' <;> decide

end Fate

variable {α : Type} (C : Components α)

namespace World

/-- What inserting a value on `e'` does to the component of `t` on `e`. -/
def insertFate (w : World α) (t : TypeId) (e : Entity) (t' : TypeId) (e' : Entity) (v : Value α) :
    Fate :=
  if t' = t ∧ e' = e then
    if (w.keptRevision C t e (w.capture C v)).isSome then .restated else .changed
  else .left

def bundleFate (w : World α) (o : SystemInvocation) (t : TypeId) (e target : Entity)
    (bundle : List (TypeId × Value α)) : Fate :=
  List.history (fun w p => w.insert C p.1 target p.2 (some o))
    (fun w p fate => fate.andThen (w.insertFate C t e p.1 target p.2)) bundle w .left

end World

/-- What a command does to the component of `t` on `e` when its turn comes. -/
def Command.fate (w : World α) (o : SystemInvocation) (t : TypeId) (e : Entity) : Command α → Fate
  | .insert t' e' v => w.insertFate C t e t' e' v
  | .spawn bundle reserved =>
    match World.bundleSingletonKey C bundle with
    | none => .left
    | some key =>
      let (target, w) := w.spawnTarget reserved key
      (w.recordDerivedSpawn o target).bundleFate C o t e target bundle
  | .removeEntity x => if x = e ∨ (t, e) ∈ w.retractionsOn C x then .changed else .left
  | .removeComponent t' e' => if t' = t ∧ e' = e then .changed else .left

namespace World

def commandsFate (w : World α) (o : SystemInvocation) (commands : List (Command α)) (t : TypeId)
    (e : Entity) : Fate :=
  List.history (fun w c => c.apply C w o) (fun w c fate => fate.andThen (c.fate C w o t e)) commands
    w .left

/-- What an output does to a component. The sweep takes what its owner leaves out. -/
def outputFate (w : World α) (output : SystemOutput α) (deferInserts : Bool) (t : TypeId)
    (e : Entity) : Fate :=
  let fate := (w.takeDerivedOutputs output.owner).2.commandsFate C output.owner
    (output.immediate deferInserts) t e
  if fate = .left ∧ w.owner? t e = some output.owner then .changed else fate

def outputsFate (w : World α) (outputs : List (SystemOutput α)) (deferInserts : Bool) (t : TypeId)
    (e : Entity) : Fate :=
  List.history (fun w output => w.applyOutput C output deferInserts)
    (fun w output fate => fate.andThen (w.outputFate C output deferInserts t e)) outputs w .left

/-- A run that applies the outputs, and has written the component in place, leaves its revision. -/
def Outlives (w : World α) (outputs : List (SystemOutput α)) (deferInserts : Bool) (t : TypeId)
    (e : Entity) : Prop :=
  match w.outputsFate C outputs deferInserts t e with
  | .left => ((w.cell? t e).any fun x => w.amends C t e x.value) = false
  | .restated => True
  | .changed => False

end World

/-- What a fate says of the component before and after. -/
def Fate.Holds (w₀ : World α) (t : TypeId) (e : Entity) (w : World α) : Fate → Prop
  | .left => w.cell? t e = w₀.cell? t e
  | .restated => ∃ x y, w₀.cell? t e = some x ∧ w.cell? t e = some y ∧ y.revision = x.revision ∧
      y.fingerprint = C.fingerprint t y.value ∧ y.fingerprint.isSome = true
  | .changed => ∀ x, w.cell? t e = some x → w₀.revision < x.revision

/-- The component of `t` on `e` has met the fate from the first world to the second. -/
structure Fate.Meets (w₀ : World α) (t : TypeId) (e : Entity) (w : World α) (fate : Fate) : Prop where
  coherent : w.Coherent
  revision : w₀.revision ≤ w.revision
  pending : ∀ p ∈ w.pendingDerivedFrom, C.role p.component = .derivedFrom
  holds : fate.Holds C w₀ t e w

variable {C} {w₀ w w' : World α} {t t' : TypeId} {e e' : Entity} {o : SystemInvocation}

theorem Fate.Holds.congr {fate : Fate} (h : fate.Holds C w₀ t e w) (hc : w'.cell? t e = w.cell? t e) :
    fate.Holds C w₀ t e w' := by
  cases fate <;> simpa only [Fate.Holds, hc] using h

theorem Fate.Meets.refl (hw : w.Coherent)
    (hp : ∀ p ∈ w.pendingDerivedFrom, C.role p.component = .derivedFrom) :
    Fate.left.Meets C w t e w := ⟨hw, le_rfl, hp, rfl⟩

theorem Fate.Meets.trans {fate fate' : Fate} (h : fate.Meets C w₀ t e w)
    (h' : fate'.Meets C w t e w') : (fate.andThen fate').Meets C w₀ t e w' := by
  refine ⟨h'.coherent, h.revision.trans h'.revision, h'.pending, ?_⟩
  have hold := h.holds
  have hnew := h'.holds
  cases fate with
  | left =>
    have hsame : w.cell? t e = w₀.cell? t e := hold
    cases fate' with
    | left => exact Eq.trans hnew hsame
    | restated =>
      obtain ⟨x, y, hx, hrest⟩ := hnew
      exact ⟨x, y, hsame ▸ hx, hrest⟩
    | changed => exact fun x hx => h.revision.trans_lt (hnew x hx)
  | restated =>
    obtain ⟨x, y, hx, hy, hrevision, hfingerprint, hsome⟩ := hold
    cases fate' with
    | left => exact ⟨x, y, hx, Eq.trans hnew hy, hrevision, hfingerprint, hsome⟩
    | restated =>
      obtain ⟨y', z, hy', hz, hkept, hrest⟩ := hnew
      cases hy.symm.trans hy'
      exact ⟨x, z, hx, hz, hkept.trans hrevision, hrest⟩
    | changed => exact fun x hx => h.revision.trans_lt (hnew x hx)
  | changed =>
    cases fate' with
    | left => exact fun x hx => hold x ((show w'.cell? t e = w.cell? t e from hnew) ▸ hx)
    | restated =>
      obtain ⟨x, y, hx, hy, hrevision, -⟩ := hnew
      intro z hz
      cases hy.symm.trans hz
      exact hrevision ▸ hold x hx
    | changed => exact fun x hx => h.revision.trans_lt (hnew x hx)

namespace World

theorem keptRevision_congr (hs : w'.stores = w.stores) (t : TypeId) (e : Entity) (v : Value α) :
    w'.keptRevision C t e v = w.keptRevision C t e v := by
  have hcell := cell?_congr hs t e
  unfold keptRevision fingerprintMatches revisionByType
  rw [hcell]

/-- A kept revision has found its fingerprint. -/
theorem isSome_of_keptRevision {v : Value α} {kept : Revision}
    (h : w.keptRevision C t e v = some kept) : (C.fingerprint t v).isSome = true := by
  unfold keptRevision at h
  split_ifs at h with hboth
  obtain ⟨x, -, hx⟩ := (Option.any_eq_true _ _).mp ((Bool.and_eq_true _ _).mp hboth).2
  obtain ⟨hsome, heq⟩ := (Bool.and_eq_true _ _).mp hx
  rwa [eq_of_beq heq] at hsome

/-- Writing a value restates the component if the revision is kept, and changes it else. -/
theorem holds_writeEntry (w : World α) (v : Value α) (owner : Option SystemInvocation) :
    Fate.Holds C w t e (w.writeEntry C t e v owner)
      (if (w.keptRevision C t e v).isSome then .restated else .changed) := by
  have hcell := cell?_writeEntry C w t t e e v owner
  rw [if_pos ⟨rfl, rfl⟩] at hcell
  cases hkept : w.keptRevision C t e v with
  | none =>
    rw [hkept] at hcell
    intro x hx
    cases hcell.symm.trans hx
    exact Nat.lt_succ_self _
  | some kept =>
    rw [hkept] at hcell
    obtain ⟨x, hx, hrevision⟩ := Option.map_eq_some_iff.mp (of_keptRevision hkept).1
    exact ⟨x, _, hx, hcell, hrevision.symm, rfl, isSome_of_keptRevision hkept⟩

section Steps

variable (ht : ¬ C.IsInverse t) (hrole : C.role t ≠ .derivedFrom)
include ht

theorem meets_insertEntry (hw : w.Coherent)
    (hp : ∀ p ∈ w.pendingDerivedFrom, C.role p.component = .derivedFrom) (v : Value α)
    (owner : Option SystemInvocation) :
    (if (w.keptRevision C t e v).isSome then Fate.restated else .changed).Meets C w t e
      (w.insertEntry C t e v owner) := by
  obtain ⟨hcoherent, hfollows⟩ := (closed_follows w).insertEntry w t e v owner trivial ⟨hw, .refl w⟩
  refine ⟨hcoherent, hfollows.revision, fun p hmem => ?_, ?_⟩
  · exact hp p ((sameBuffers_insertEntry w t e v owner).pending ▸ hmem)
  · refine (holds_writeEntry w v owner).congr ?_
    exact cell?_insertEntry_eq v owner ht

include hrole

theorem meets_insert (hw : w.Coherent)
    (hp : ∀ p ∈ w.pendingDerivedFrom, C.role p.component = .derivedFrom) {v : Value α}
    {owner : Option SystemInvocation} (h : w.insert C t' e' v owner = some w') :
    (w.insertFate C t e t' e' v).Meets C w t e w' := by
  unfold insertFate
  by_cases hpair : t' = t ∧ e' = e
  · rw [if_pos hpair]
    obtain ⟨rfl, rfl⟩ := hpair
    rcases insert_cases h with ⟨anchors, hheld, -, -⟩ | ⟨hnow, -⟩
    · exact absurd hheld hrole
    · obtain ⟨u, hu, rfl⟩ := Option.map_eq_some_iff.mp hnow
      have hstores := (registerSingleton_eq hu).1
      obtain ⟨hcoherent, hfollows⟩ := (closed_follows w).registerSingleton hu ⟨hw, .refl w⟩
      have hregistered : Fate.left.Meets C w t' e' u := by
        refine ⟨hcoherent, hfollows.revision, fun p hmem => ?_, cell?_congr hstores t' e'⟩
        exact hp p ((sameBuffers_registerSingleton hu).pending ▸ hmem)
      have hwritten := meets_insertEntry (e := e') ht hcoherent hregistered.pending (w.capture C v) owner
      rw [keptRevision_congr hstores] at hwritten
      exact hregistered.trans hwritten
  · rw [if_neg hpair]
    obtain ⟨hcoherent, hfollows⟩ := (closed_follows w).insert h trivial trivial ⟨hw, .refl w⟩
    refine ⟨hcoherent, hfollows.revision, fun p hmem => ?_, cell?_insert h ht fun heq => ?_⟩
    · rcases insert_cases h with ⟨anchors, hheld, -, rfl⟩ | ⟨-, hsame⟩
      · rcases List.mem_append.mp hmem with hmem | hmem
        · exact hp p hmem
        · cases List.mem_singleton.mp hmem
          exact hheld
      · exact hp p (hsame.pending ▸ hmem)
    · exact hpair ⟨(Prod.ext_iff.mp heq).1.symm, (Prod.ext_iff.mp heq).2.symm⟩

theorem meets_insertBundle {target : Entity} {bundle : List (TypeId × Value α)} (hw : w.Coherent)
    (hp : ∀ p ∈ w.pendingDerivedFrom, C.role p.component = .derivedFrom)
    (h : w.insertBundle C target bundle o = some w') :
    (w.bundleFate C o t e target bundle).Meets C w t e w' :=
  List.history_induction (fun u (fate : Fate) => fate.Meets C w t e u) bundle h (.refl hw hp)
    fun _ _ _ _ _ hu hstep => hu.trans (meets_insert ht hrole hu.coherent hu.pending hstep)

theorem meets_command {c : Command α} (hw : w.Coherent)
    (hp : ∀ p ∈ w.pendingDerivedFrom, C.role p.component = .derivedFrom)
    (h : c.apply C w o = some w') : (c.fate C w o t e).Meets C w t e w' := by
  cases c with
  | insert t' e' v => exact meets_insert ht hrole hw hp h
  | spawn bundle reserved =>
    simp only [Command.apply, Option.bind_eq_bind, Option.bind_eq_some_iff] at h
    obtain ⟨key, hkey, h⟩ := h
    obtain ⟨hstores, -, hpending, -⟩ := spawnTarget_spec w reserved key
    obtain ⟨hcoherent, hfollows⟩ := (closed_follows (C := C) w).spawnSlot w o reserved key ⟨hw, .refl w⟩
    have hslot : Fate.left.Meets C w t e
        ((w.spawnTarget reserved key).2.recordDerivedSpawn o (w.spawnTarget reserved key).1) := by
      refine ⟨hcoherent, hfollows.revision, fun p hmem => hp p ?_, cell?_congr hstores t e⟩
      exact hpending ▸ hmem
    have hbundle := hslot.trans (meets_insertBundle ht hrole hslot.coherent hslot.pending h)
    simp only [Command.fate, hkey]
    exact hbundle
  | removeEntity x =>
    cases h
    obtain ⟨hcoherent, hfollows⟩ := (closed_follows w).removeEntity w x trivial ⟨hw, .refl w⟩
    refine ⟨hcoherent, hfollows.revision, fun p hmem => ?_, ?_⟩
    · exact hp p ((sameBuffers_removeEntity w x).pending ▸ hmem)
    · have hcell := cell?_removeEntity (e := e) w x ht
      dsimp only [Command.fate]
      split_ifs with htaken
      · rw [if_pos htaken] at hcell
        intro y hy
        cases hcell.symm.trans hy
      · rwa [if_neg htaken] at hcell
  | removeComponent t' e' =>
    cases h
    obtain ⟨hcoherent, hfollows⟩ := (closed_follows w).removeComponent w t' e' (some o)
      (fun _ _ => trivial) ⟨hw, .refl w⟩
    refine ⟨hcoherent, hfollows.revision, fun p hmem => ?_, ?_⟩
    · exact hp p ((sameBuffers_removeComponent w t' e' (some o)).pending ▸ hmem)
    · have hcell : (w.removeComponent C t' e' (some o)).cell? t e = _ :=
        cell?_removeComponent w t' e' (some o) ht
      dsimp only [Command.fate]
      split_ifs with htaken
      · rw [if_pos ⟨htaken.1.symm, htaken.2.symm⟩] at hcell
        intro y hy
        cases hcell.symm.trans hy
      · rwa [if_neg fun hp => htaken ⟨hp.1.symm, hp.2.symm⟩] at hcell

theorem meets_commands {commands : List (Command α)} (hw : w.Coherent)
    (hp : ∀ p ∈ w.pendingDerivedFrom, C.role p.component = .derivedFrom)
    (h : w.applyCommands C o commands = some w') :
    (w.commandsFate C o commands t e).Meets C w t e w' :=
  List.history_induction (fun u (fate : Fate) => fate.Meets C w t e u) commands h (.refl hw hp)
    fun _ _ _ _ _ hu hstep => hu.trans (meets_command ht hrole hu.coherent hu.pending hstep)

end Steps

section Landing

@[simp] theorem insertFate_eq_left {v : Value α} :
    w.insertFate C t e t' e' v = .left ↔ ¬ (t' = t ∧ e' = e) := by
  unfold insertFate
  by_cases hpair : t' = t ∧ e' = e
  · rw [if_pos hpair]
    cases (w.keptRevision C t e (w.capture C v)).isSome <;> simp [hpair]
  · rw [if_neg hpair]
    simp [hpair]

theorem bundleFate_of_missed {target : Entity} : ∀ {bundle : List (TypeId × Value α)} {w : World α}
    {fate : Fate}, (∀ p ∈ bundle, ¬ (p.1 = t ∧ target = e)) →
      List.history (fun w p => w.insert C p.1 target p.2 (some o))
        (fun w p fate => fate.andThen (w.insertFate C t e p.1 target p.2)) bundle w fate = fate
  | [], _, _, _ => rfl
  | p :: bundle, w, fate, h => by
    have hleft := insertFate_eq_left (C := C) (w := w) (v := p.2) |>.mpr (h p List.mem_cons_self)
    unfold List.history
    split
    · rfl
    · rw [hleft, Fate.andThen_left]
      exact bundleFate_of_missed fun q hq => h q (List.mem_cons_of_mem _ hq)

theorem bundleFate_ne_left {target : Entity} : ∀ {bundle : List (TypeId × Value α)} {w w' : World α}
    {fate : Fate}, bundle.foldlM (fun w p => w.insert C p.1 target p.2 (some o)) w = some w' →
      (∃ p ∈ bundle, p.1 = t ∧ target = e) ∨ fate ≠ .left →
        List.history (fun w p => w.insert C p.1 target p.2 (some o))
          (fun w p fate => fate.andThen (w.insertFate C t e p.1 target p.2)) bundle w fate ≠ .left
  | [], _, _, _, _, h => h.resolve_left fun hnone => nomatch hnone.choose_spec.1
  | p :: bundle, w, w', fate, hrun, h => by
    obtain ⟨u, hu, hrest⟩ := Option.bind_eq_some_iff.mp hrun
    simp only [List.history, hu]
    refine bundleFate_ne_left hrest ?_
    rcases h with ⟨q, hq, hhit⟩ | hfate
    · rcases List.mem_cons.mp hq with rfl | hq
      · refine Or.inr fun hleft => ?_
        exact insertFate_eq_left.mp (Fate.andThen_eq_left.mp hleft).2 hhit
      · exact Or.inl ⟨q, hq, hhit⟩
    · exact Or.inr fun hleft => hfate (Fate.andThen_eq_left.mp hleft).1

/-- A command that leaves a component has not landed on it. -/
theorem not_landing_of_left {c : Command α} (h : c.apply C w o = some w')
    (hfate : c.fate C w o t e = .left) : (t, e) ∉ c.landing C w.registry := by
  cases c with
  | insert t' e' v =>
    intro hmem
    obtain ⟨rfl, rfl⟩ := Prod.ext_iff.mp (List.mem_singleton.mp hmem)
    exact insertFate_eq_left.mp hfate ⟨rfl, rfl⟩
  | spawn bundle reserved =>
    simp only [Command.apply, Option.bind_eq_bind, Option.bind_eq_some_iff] at h
    obtain ⟨key, hkey, h⟩ := h
    simp only [Command.fate, hkey] at hfate
    intro hmem
    obtain ⟨p, hp, heq⟩ := List.mem_map.mp hmem
    obtain ⟨rfl, rfl⟩ := Prod.ext_iff.mp heq
    refine bundleFate_ne_left h (Or.inl ⟨p, hp, rfl, ?_⟩) hfate
    exact spawnTarget_entity hkey w reserved
  | removeEntity _ => exact List.not_mem_nil
  | removeComponent _ _ => exact List.not_mem_nil

theorem landing_of_restated {c : Command α} (hfate : c.fate C w o t e = .restated) :
    (t, e) ∈ c.landing C w.registry := by
  cases c with
  | insert t' e' v =>
    by_contra hmiss
    have hleft : w.insertFate C t e t' e' v = .left := insertFate_eq_left.mpr fun hpair =>
      hmiss (by rw [← hpair.1, ← hpair.2]; exact List.mem_singleton_self _)
    cases hleft.symm.trans hfate
  | spawn bundle reserved =>
    cases hkey : bundleSingletonKey C bundle with
    | none =>
      simp only [Command.fate, hkey] at hfate
      cases hfate
    | some key =>
      simp only [Command.fate, hkey] at hfate
      by_contra hmiss
      let spawned := (w.spawnTarget reserved key).2.recordDerivedSpawn o (w.spawnTarget reserved key).1
      have hleft : spawned.bundleFate C o t e (w.spawnTarget reserved key).1 bundle = .left := by
        refine bundleFate_of_missed fun p hp hhit => hmiss ?_
        rw [spawnTarget_entity hkey w reserved] at hhit
        exact List.mem_map.mpr ⟨p, hp, Prod.ext hhit.1 hhit.2⟩
      cases hleft.symm.trans hfate
  | removeEntity x =>
    dsimp only [Command.fate] at hfate
    split_ifs at hfate
  | removeComponent t' e' =>
    dsimp only [Command.fate] at hfate
    split_ifs at hfate

/-- A buffer lists for its owner what it restates, and nothing that it leaves. -/
theorem placed_commands {commands : List (Command α)} (hnone : (t, e) ∉ w.outputs o)
    (h : w.applyCommands C o commands = some w') :
    (w.commandsFate C o commands t e = .left → (t, e) ∉ w'.outputs o) ∧
      (w.commandsFate C o commands t e = .restated → w'.Placed o (t, e)) := by
  refine List.history_induction (fun u (fate : Fate) => (fate = .left → (t, e) ∉ u.outputs o) ∧
    (fate = .restated → u.Placed o (t, e))) commands h
    ⟨fun _ => hnone, fun hrestated : Fate.left = .restated => by cases hrestated⟩ ?_
  intro u c u' fate _ hu hstep
  refine ⟨fun hleft hmem => ?_, fun hrestated => ?_⟩
  · obtain ⟨hbefore, hfate⟩ := Fate.andThen_eq_left.mp hleft
    rcases listsOnly_command hstep _ hmem with hold | hnew
    · exact hu.1 hbefore hold
    · exact not_landing_of_left hstep hfate hnew
  · cases fate with
    | left => exact placed_landing (landing_of_restated hrestated) hstep
    | restated => exact (hu.2 rfl).command hstep
    | changed => cases hrestated

end Landing

section Runs

variable (ht : ¬ C.IsInverse t) (hrole : C.role t ≠ .derivedFrom)
include ht hrole

theorem meets_applyOutput {output : SystemOutput α} {deferInserts : Bool} (hw : w.Coherent)
    (hp : ∀ p ∈ w.pendingDerivedFrom, C.role p.component = .derivedFrom)
    (hlisted : w.Lists output.owner (t, e)) (h : w.applyOutput C output deferInserts = some w') :
    (w.outputFate C output deferInserts t e).Meets C w t e w' := by
  obtain ⟨applied, flushed, happlied, hflushed, rfl⟩ := exists_of_applyOutput h
  have htaken : Fate.left.Meets C w t e (w.takeDerivedOutputs output.owner).2 :=
    ⟨hw.congr rfl rfl, le_rfl, hp, rfl⟩
  have hcommands := htaken.trans (meets_commands ht hrole htaken.coherent htaken.pending happlied)
  obtain ⟨hleft, hrestated⟩ := placed_commands (t := t) (e := e) (by
    simp [takeDerivedOutputs, outputs, Dict.getD]) happlied
  -- the flush lands captured facts only
  obtain ⟨hcoherent, hfollows⟩ := (closed_follows applied).flushDerivedFrom hflushed
    (fun _ _ => trivial) trivial ⟨hcommands.coherent, .refl applied⟩
  have hflush : Fate.left.Meets C applied t e (flushed.finishDerivedSpawns output.owner) := by
    refine ⟨hcoherent.congr rfl rfl, hfollows.revision, fun p hmem => ?_, ?_⟩
    · have hempty : p ∈ flushed.pendingDerivedFrom := hmem
      rw [(buffers_flushDerivedFrom hflushed).1] at hempty
      cases hempty
    · have hsame : flushed.cell? t e = applied.cell? t e :=
        cell?_flush_ne hflushed ht fun p hmem heq => hrole <| by
          obtain ⟨rfl, rfl⟩ := Prod.ext_iff.mp heq
          exact hcommands.pending p hmem
      exact hsame
  have hfinished := hcommands.trans hflush
  rw [Fate.andThen_left] at hfinished
  obtain ⟨hswept, hfollowed⟩ := (closed_follows _).removeDerivedStale
    (flushed.finishDerivedSpawns output.owner) (w.outputs output.owner) (o := output.owner)
    (fun _ _ => trivial) ⟨hfinished.coherent, .refl _⟩
  refine ⟨hswept, hfinished.revision.trans hfollowed.revision, fun p hmem => ?_, ?_⟩
  · rw [(sameBuffers_removeDerivedStale _ _ _).pending] at hmem
    exact hfinished.pending p hmem
  · have hholds := hfinished.holds
    unfold outputFate
    dsimp only
    change Fate.Holds C w t e _ (commandsFate C (w.takeDerivedOutputs output.owner).2 output.owner
      (output.immediate deferInserts) t e) at hholds
    generalize commandsFate C (w.takeDerivedOutputs output.owner).2 output.owner
      (output.immediate deferInserts) t e = fate at hleft hrestated hholds ⊢
    have hkept : (flushed.finishDerivedSpawns output.owner).Lists output.owner (t, e) →
        fate.Holds C w t e ((flushed.finishDerivedSpawns output.owner).removeDerivedStale C
          output.owner (w.outputs output.owner)) := fun hlists =>
      hholds.congr (cell?_removeDerivedStale_of_lists ht _ hlists)
    cases fate with
    | left =>
      have hsame : flushed.owner? t e = w.owner? t e := owner?_of_cell? hholds
      split_ifs with hstale
      · have hlists := (closed_listsOnly C output.owner fun t' _ => C.role t' = .derivedFrom)
          |>.flushDerivedFrom hflushed (fun p hmem _ => hcommands.pending p hmem) trivial
        have hnot : (t, e) ∉ flushed.outputs output.owner := fun hmem =>
          (hlists _ hmem).elim (hleft rfl) hrole
        have hgone := cell?_removeDerivedStale_of_stale (w := flushed.finishDerivedSpawns output.owner)
          ht (w.outputs output.owner) hnot (Or.inr ⟨hlisted hstale.2, hsame.trans hstale.2⟩)
        intro x hx
        cases hgone.symm.trans hx
      · exact hkept fun howner => absurd ⟨rfl, hsame.symm.trans howner⟩ hstale
    | restated =>
      rw [if_neg (by simp)]
      have hlists : flushed.Lists output.owner (t, e) := (hrestated rfl).flush hflushed
      exact hkept hlists
    | changed =>
      rw [if_neg (by simp)]
      exact fun x hx => hholds x (cell?_of_removeDerivedStale ht _ hx)

theorem meets_outputs {deferInserts : Bool} {outputs : List (SystemOutput α)} (hw : Reachable C w)
    (hp : ∀ p ∈ w.pendingDerivedFrom, C.role p.component = .derivedFrom)
    (h : outputs.foldlM (fun w output => w.applyOutput C output deferInserts) w = some w') :
    (w.outputsFate C outputs deferInserts t e).Meets C w t e w' := by
  have hboth : Reachable C w' ∧ (w.outputsFate C outputs deferInserts t e).Meets C w t e w' := by
    refine List.history_induction (fun u (fate : Fate) => Reachable C u ∧ fate.Meets C w t e u)
      outputs h ⟨hw, .refl (coherent_of_reachable hw) hp⟩ ?_
    intro u output u' fate _ hu hstep
    have hlisted : u.Lists output.owner (t, e) := fun howner =>
      (hu.1.indexed t e output.owner howner).resolve_right id
    exact ⟨.step hu.1 trivial (show (machine C).step u (.output output deferInserts) = some u' from hstep),
      hu.2.trans (meets_applyOutput ht hrole hu.2.coherent hu.2.pending hlisted hstep)⟩
  exact hboth.2

end Runs

section Reconciling

/-- What reconciling a write leaves: its own component restamped, if the value has changed. -/
theorem cell?_reconcileEntry (w : World α) (p : TypeId × Entity) :
    (w.reconcileEntry C p.1 p.2).cell? t e = if p = (t, e) then
      (w.cell? t e).map fun x => ⟨x.cell, x.value,
        if w.amends C t e x.value then w.revision + 1 else x.revision, C.fingerprint t x.value, x.owner⟩
    else w.cell? t e := by
  unfold reconcileEntry
  by_cases hthis : p = (t, e)
  · rw [if_pos hthis, hthis]
    cases hx : w.cell? t e with
    | none => exact hx
    | some x =>
      dsimp only [Option.map_some]
      unfold restampEntry
      rw [hx]
      dsimp only
      split_ifs
      · exact (cell?_amendEntry w ..).trans (if_pos ⟨rfl, rfl⟩)
      · exact (cell?_amendEntry w ..).trans (if_pos ⟨rfl, rfl⟩)
  · rw [if_neg hthis]
    split
    · rfl
    · exact cell?_restampEntry_ne C w _ fun hpair => hthis (Prod.ext hpair.1.symm hpair.2.symm)

theorem revision_le_reconcileEntry (w : World α) (t : TypeId) (e : Entity) :
    w.revision ≤ (w.reconcileEntry C t e).revision := by
  unfold reconcileEntry
  split
  · exact le_rfl
  · unfold restampEntry
    split
    · exact le_rfl
    · split_ifs
      · exact Nat.le_succ _
      · exact le_rfl

/-- What is newer than a revision stays so when writes are reconciled. -/
theorem newer_reconcileWritten {r : Revision} (writes : List (TypeId × Entity)) (hr : r ≤ w.revision)
    (h : ∀ x, w.cell? t e = some x → r < x.revision) :
    ∀ x, (w.reconcileWritten C writes).cell? t e = some x → r < x.revision := by
  refine (List.foldlRecOn writes _ (motive := fun u : World α => r ≤ u.revision ∧
    ∀ x, u.cell? t e = some x → r < x.revision) ⟨hr, h⟩ fun u hu p _ => ?_).2
  dsimp only
  split_ifs
  · refine ⟨hu.1.trans (revision_le_reconcileEntry u p.1 p.2), fun x hx => ?_⟩
    have hcell : (u.reconcileEntry C p.1 p.2).cell? t e = some x := hx
    rw [cell?_reconcileEntry] at hcell
    split_ifs at hcell
    · obtain ⟨y, hy, rfl⟩ := Option.map_eq_some_iff.mp hcell
      dsimp only
      split_ifs
      · exact Nat.lt_succ_of_le hu.1
      · exact hu.2 y hy
    · exact hu.2 x hcell
  · exact hu

theorem revisionByType_reconcileWritten_of_recorded {x : Entry α} (writes : List (TypeId × Entity))
    (hx : w.cell? t e = some x) (h : w.amends C t e x.value = false) :
    (w.reconcileWritten C writes).revisionByType t e = some x.revision := by
  have hkept : ∃ y, (w.reconcileWritten C writes).cell? t e = some y ∧ y.revision = x.revision ∧
      (w.reconcileWritten C writes).amends C t e y.value = false := by
    refine List.foldlRecOn writes _ (motive := fun u : World α => ∃ y, u.cell? t e = some y ∧
      y.revision = x.revision ∧ u.amends C t e y.value = false) ⟨x, hx, rfl, h⟩ fun u hu p _ => ?_
    obtain ⟨y, hy, hrevision, hamends⟩ := hu
    dsimp only
    split_ifs
    · have hcell := cell?_reconcileEntry (C := C) (t := t) (e := e) u p
      rw [hy] at hcell
      by_cases hthis : p = (t, e)
      · rw [if_pos hthis, Option.map_some, hamends] at hcell
        refine ⟨_, hcell, hrevision, ?_⟩
        -- the stamp stays as it was, so there is still nothing to amend
        unfold amends at hamends ⊢
        rw [hy, Option.any_some] at hamends
        change Option.any _ ((u.reconcileEntry C p.1 p.2).cell? t e) = false
        rw [hcell, Option.any_some]
        cases htracked : C.tracked t with
        | false => rfl
        | true =>
          rw [htracked, Bool.true_and, Bool.or_eq_false_iff] at hamends
          have hsame : y.fingerprint = C.fingerprint t y.value := by simpa using hamends.2
          simpa [← hsame] using hamends.1
      · rw [if_neg hthis] at hcell
        refine ⟨y, hcell, hrevision, ?_⟩
        unfold amends at hamends ⊢
        change Option.any _ ((u.reconcileEntry C p.1 p.2).cell? t e) = false
        rwa [hcell, ← hy]
    · exact ⟨y, hy, hrevision, hamends⟩
  obtain ⟨y, hy, hrevision, -⟩ := hkept
  rw [revisionByType, hy]
  exact congrArg some hrevision

theorem newer_reconcileWritten_of_amends {r : Revision} : ∀ {writes : List (TypeId × Entity)}
    {w : World α} {x : Entry α}, r ≤ w.revision → w.cell? t e = some x →
      w.amends C t e x.value = true → (t, e) ∈ writes →
        ∀ y, (w.reconcileWritten C writes).cell? t e = some y → r < y.revision
  | p :: writes, w, x, hr, hx, h, hmem => by
    have hcell := cell?_reconcileEntry (C := C) (t := t) (e := e) w p
    rw [hx] at hcell
    unfold reconcileWritten
    rw [List.foldl_cons]
    by_cases hthis : p = (t, e)
    · have hstored : p.1 ∈ w.stores := by
        rw [hthis]
        exact AList.mem_keys.mpr (mem_keys_stores_of_has ((has_iff w t e).mpr ⟨x, hx⟩))
      rw [if_pos hthis, Option.map_some, h] at hcell
      rw [if_pos hstored]
      refine newer_reconcileWritten writes (hr.trans (revision_le_reconcileEntry w p.1 p.2)) ?_
      intro y hy
      cases hcell.symm.trans hy
      exact Nat.lt_succ_of_le hr
    · rw [if_neg hthis] at hcell
      have hrest := (List.mem_cons.mp hmem).resolve_left fun heq => hthis heq.symm
      split_ifs
      · refine newer_reconcileWritten_of_amends (hr.trans (revision_le_reconcileEntry w p.1 p.2))
          hcell ?_ hrest
        unfold amends at h ⊢
        change Option.any _ ((w.reconcileEntry C p.1 p.2).cell? t e) = true
        rwa [hcell, ← hx]
      · exact newer_reconcileWritten_of_amends hr hx h hrest

end Reconciling

/-- Publishing outputs and reconciling writes keeps the revision of a written component exactly if
it outlives the outputs. -/
theorem revisionByType_published (ht : ¬ C.IsInverse t) (hrole : C.role t ≠ .derivedFrom)
    {deferInserts : Bool} {outputs : List (SystemOutput α)} (hw : Reachable C w)
    (hp : ∀ p ∈ w.pendingDerivedFrom, C.role p.component = .derivedFrom)
    (h : outputs.foldlM (fun w output => w.applyOutput C output deferInserts) w = some w')
    {writes : List (TypeId × Entity)} (hmem : (t, e) ∈ writes) (hhas : w.has t e = true) :
    (w'.reconcileWritten C writes).revisionByType t e = w.revisionByType t e ↔
      w.Outlives C outputs deferInserts t e := by
  obtain ⟨x, hx⟩ := (has_iff w t e).mp hhas
  have hbefore : w.revisionByType t e = some x.revision := by rw [revisionByType, hx]; rfl
  have hmeets := meets_outputs (e := e) ht hrole hw hp h
  have hrevision := hmeets.revision
  have hcoherent := coherent_of_reachable hw
  have hold : x.revision ≤ w.revision := (hcoherent.entries t e x hx).trans (hcoherent.watermarks t)
  have hnewer : (∀ y, (w'.reconcileWritten C writes).cell? t e = some y → w.revision < y.revision) →
      (w'.reconcileWritten C writes).revisionByType t e ≠ some x.revision := by
    intro hall heq
    obtain ⟨y, hy, hsame⟩ := Option.map_eq_some_iff.mp heq
    exact absurd (hsame ▸ hall y hy) (not_lt.mpr hold)
  have hholds := hmeets.holds
  rw [hbefore, Outlives]
  cases hfate : w.outputsFate C outputs deferInserts t e with
  | left =>
    rw [hfate] at hholds
    have hcell : w'.cell? t e = some x := Eq.trans hholds hx
    have hsame : w'.amends C t e x.value = w.amends C t e x.value := by
      unfold amends
      rw [hcell, hx]
    simp only [hx, Option.any_some]
    cases hamends : w.amends C t e x.value with
    | false =>
      exact iff_of_true (revisionByType_reconcileWritten_of_recorded writes hcell (hsame.trans hamends)) rfl
    | true =>
      refine iff_of_false (hnewer ?_) (by decide)
      exact newer_reconcileWritten_of_amends hrevision hcell (hsame.trans hamends) hmem
  | restated =>
    rw [hfate] at hholds
    obtain ⟨x', y, hx', hy, hkept, hfingerprint, hsome⟩ := hholds
    cases hx.symm.trans hx'
    refine iff_of_true ?_ trivial
    rw [← hkept]
    refine revisionByType_reconcileWritten_of_recorded writes hy ?_
    unfold amends
    rw [hy, Option.any_some, ← hfingerprint]
    simp [Option.isNone_eq_false_iff.mpr hsome]
  | changed =>
    rw [hfate] at hholds
    exact iff_of_false (hnewer (newer_reconcileWritten writes hrevision hholds)) id

end World
end Porridge
