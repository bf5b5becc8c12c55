import Porridge.Emission
import Porridge.World.Keeps

/-! Undisturbed emissions stay held through every use of the world. -/
namespace Porridge

variable {α : Type} (C : Components α)

namespace World

/-- The undisturbed emissions of the promised owners are held, or their owner is recorded as
having lost a component. -/
def Live (promised : SystemInvocation → Prop) (w : World α) (emissions : List Emission) : Prop :=
  ∀ m ∈ emissions, promised m.owner → m.disturbed = false → ¬ C.IsInverse m.component →
    w.Holds m.owner m.component m.entity ∨ m.owner ∈ w.removedComponentOwners

variable {C} {promised : SystemInvocation → Prop} {w w' : World α} {emissions : List Emission}

/-- An effect keeps emissions live when each one still noted is one it cannot take, or is held
afterwards. -/
theorem Live.keeps {P : Permits} (h : Live C promised w emissions) (hk : Keeps C P w w')
    {emissions' : List Emission}
    (hnoted : ∀ m ∈ emissions', m.disturbed = false → ¬ C.IsInverse m.component →
      (m ∈ emissions ∧ ¬ TakenBy P m.owner m.component m.entity) ∨
        w'.Holds m.owner m.component m.entity ∨ m.owner ∈ w'.removedComponentOwners) :
    Live C promised w' emissions' := by
  intro m hm hp hd ht
  rcases hnoted m hm hd ht with ⟨hmem, hspared⟩ | hheld
  · rcases h m hmem hp hd ht with hheld | hrecorded
    · rcases hk.holds _ _ _ ht hheld with hheld' | hrecorded | htaken
      · exact Or.inl hheld'
      · exact Or.inr hrecorded
      · exact absurd htaken hspared
    · exact Or.inr (hk.grows.componentOwners.subset hrecorded)
  · exact hheld

theorem Live.maintained (h : Live C promised w emissions) (hk : Keeps C (maintains C) w w') :
    Live C promised w' emissions :=
  h.keeps hk fun _ hm _ ht => Or.inl ⟨hm, not_takenBy_maintains C ht⟩

theorem Live.insertNow (h : Live C promised w emissions) {t : TypeId} {e : Entity}
    {v : Value α} {o : Option SystemInvocation} (hi : w.insertNow C t e v o = some w') :
    Live C promised w' (Emission.noteWrite t e o emissions) := by
  let P : Permits := { maintains C with
    writes := fun t' e' o' => (t' = t ∧ e' = e ∧ o' = o) ∨ (C.IsInverse t' ∧ o' = none) }
  have hclosed := closed_keeps C P fun _ _ edge hr => Or.inr ⟨⟨edge, hr⟩, rfl⟩
  refine h.keeps (hclosed.insertNow hi (Or.inl ⟨rfl, rfl, rfl⟩)) fun m hm hd ht => ?_
  rcases Emission.mem_noteWrite hm hd with ⟨hmem, hother⟩ | ⟨rfl, hcomponent, hentity⟩
  · refine Or.inl ⟨hmem, ?_⟩
    rintro (hp | hp | hp | ⟨o', ⟨hpair, hentity, -⟩ | ⟨hinverse, -⟩, -⟩)
    · exact hp
    · exact hp
    · exact hp
    · exact hother ⟨hpair, hentity⟩
    · exact ht hinverse
  · obtain ⟨u, -, rfl⟩ := Option.map_eq_some_iff.mp hi
    rw [hcomponent] at ht ⊢
    rw [hentity]
    exact Or.inr (holds_insertEntry u e v ht)

theorem Live.insert (h : Live C promised w emissions) {t : TypeId} {e : Entity} {v : Value α}
    {o : Option SystemInvocation} (hi : w.insert C t e v o = some w') :
    Live C promised w' (w.noteInsert C t e v o emissions) := by
  unfold World.insert at hi
  unfold noteInsert
  cases hdeferred : w.deferredAnchors C t v with
  | none =>
    rw [hdeferred] at hi
    exact h.insertNow hi
  | some anchors =>
    rw [hdeferred] at hi
    cases hi
    exact h.maintained (.of_stores (Grows.of_eq rfl rfl rfl) rfl rfl)

theorem Live.removeEntity (h : Live C promised w emissions) (e : Entity)
    (o : Option SystemInvocation) :
    Live C promised (w.removeEntity C e) (Emission.noteDespawn e o emissions) := by
  let P : Permits := { maintains C with purges := fun e' => e' = e }
  have hclosed := closed_keeps C P fun _ _ edge hr => ⟨⟨edge, hr⟩, rfl⟩
  refine h.keeps (hclosed.removeEntity w e rfl) fun m hm hd ht => ?_
  obtain ⟨hmem, hne⟩ := Emission.mem_noteDespawn hm hd
  refine Or.inl ⟨hmem, ?_⟩
  rintro (hp | hp | hp | ⟨o', ⟨hinverse, -⟩, -⟩)
  · exact hne hp
  · exact hp
  · exact hp
  · exact ht hinverse

theorem Live.removeComponent (h : Live C promised w emissions) (t : TypeId) (e : Entity)
    (o : SystemInvocation) :
    Live C promised (w.removeComponent C t e (some o)) (Emission.noteDrop t e o emissions) := by
  let P : Permits := { maintains C with drops := fun t' e' o' => t' = t ∧ e' = e ∧ o' = o }
  have hclosed := closed_keeps C P fun _ _ edge hr => ⟨⟨edge, hr⟩, rfl⟩
  have hkeeps := hclosed.removeComponent w t e (some o) fun o' ho => ⟨rfl, rfl, (Option.some.inj ho).symm⟩
  refine h.keeps hkeeps fun m hm _ ht => ?_
  obtain ⟨hmem, hother⟩ := Emission.mem_noteDrop hm
  refine Or.inl ⟨hmem, ?_⟩
  rintro (hp | hp | ⟨hcomponent, hentity, howner⟩ | ⟨o', ⟨hinverse, -⟩, -⟩)
  · exact hp
  · exact hp
  · exact hother ⟨howner, hcomponent, hentity⟩
  · exact ht hinverse

theorem Live.bundle (h : Live C promised w emissions) {e : Entity}
    {bundle : List (TypeId × Value α)} {o : SystemInvocation}
    (hb : w.insertBundle C e bundle o = some w') :
    Live C promised w' (w.noteBundle C e bundle o emissions) :=
  List.history_induction (Live C promised) bundle hb h fun _ _ _ _ _ hl hs => hl.insert hs

/-- What a command takes from another invocation is noted or recorded. -/
theorem Live.command (h : Live C promised w emissions) {o : SystemInvocation} {c : Command α}
    (hc : c.apply C w o = some w') : Live C promised w' (w.noteCommand C o c emissions) := by
  cases c with
  | insert t e v => exact h.insert hc
  | removeEntity e => cases hc; exact h.removeEntity e (some o)
  | removeComponent t e => cases hc; exact h.removeComponent t e o
  | spawn bundle reserved =>
    simp only [Command.apply, Option.bind_eq_bind, Option.bind_eq_some_iff] at hc
    obtain ⟨key, hkey, hc⟩ := hc
    have hclosed := closed_maintains C
    have htarget : Keeps C (maintains C) w (w.spawnTarget reserved key).2 := by
      cases key with
      | none => exact hclosed.refl w
      | some key =>
        simp only [spawnTarget, singletonEntityOrRegister]
        split
        · exact hclosed.refl w
        · exact .of_stores (Grows.of_eq rfl rfl rfl) rfl rfl
    have hslot : Keeps C (maintains C) (w.spawnTarget reserved key).2
        ((w.spawnTarget reserved key).2.recordDerivedSpawn o (w.spawnTarget reserved key).1) :=
      .of_stores (Grows.of_eq rfl rfl rfl) rfl rfl
    simp only [noteCommand, hkey]
    exact (h.maintained (htarget.trans hslot)).bundle hc

theorem Live.commands (h : Live C promised w emissions) {o : SystemInvocation}
    {commands : List (Command α)} (hc : w.applyCommands C o commands = some w') :
    Live C promised w' (w.noteCommands C o commands emissions) :=
  List.history_induction (Live C promised) commands hc h fun _ _ _ _ _ hl hs => hl.command hs

theorem Live.baseCommand (h : Live C promised w emissions) {c : BaseCommand α}
    (hc : c.apply C w = some w') : Live C promised w' (w.noteBaseCommand C c emissions) := by
  cases c with
  | insert t e v => exact h.insert hc
  | removeComponent t e =>
    cases hc
    exact h.maintained ((closed_maintains C).removeComponent w t e none fun _ ho => nomatch ho)
  | despawn e => cases hc; exact h.removeEntity e none

theorem Live.flush (h : Live C promised w emissions) (hf : w.flushDerivedFrom C = some w') :
    Live C promised w' (w.noteFlush C emissions) := by
  obtain ⟨u, hu, rfl⟩ := Option.map_eq_some_iff.mp hf
  have hstart : Live C promised { w with pendingDerivedFrom := [], flushingAnchors := true }
      emissions := h.maintained (.of_stores (Grows.of_eq rfl rfl rfl) rfl rfl)
  have hflushed : Live C promised u (w.noteFlush C emissions) :=
    List.history_induction (Live C promised) _ hu hstart fun _ _ _ _ _ hl hs => hl.insert hs
  exact hflushed.maintained (.of_stores (Grows.of_eq rfl rfl rfl) rfl rfl)

/-- Accepting an output makes its owner's emissions live whatever they were before. -/
theorem Live.output (h : Live C promised w emissions) {output : SystemOutput α}
    {deferInserts : Bool} (ho : w.applyOutput C output deferInserts = some w') :
    Live C (fun o => promised o ∨ o = output.owner) w'
      (w.noteOutput C output deferInserts emissions) := by
  obtain ⟨applied, flushed, happly, hflush, rfl⟩ := exists_of_applyOutput ho
  unfold SystemOutput.immediate at happly
  have htaken : Live C (fun o => promised o ∨ o = output.owner)
      (w.takeDerivedOutputs output.owner).2
      (emissions.filter fun m => m.owner ≠ output.owner) := by
    intro m hm hp hd ht
    obtain ⟨hmem, hne⟩ := List.mem_filter.mp hm
    have hother : m.owner ≠ output.owner := of_decide_eq_true hne
    have hkeeps : Keeps C (sweepsOf C [output.owner]) w (w.takeDerivedOutputs output.owner).2 :=
      keeps_eraseOwner output.owner (Grows.of_eq rfl rfl rfl) rfl rfl
    rcases h m hmem (hp.resolve_right hother) hd ht with hheld | hrecorded
    · rcases hkeeps.holds _ _ _ ht hheld with hheld | hrecorded | htaken
      · exact Or.inl hheld
      · exact Or.inr hrecorded
      · exact absurd (List.mem_singleton.mp ((takenBy_sweepsOf ht).mp htaken)) hother
    · exact Or.inr hrecorded
  have hflushed := (htaken.commands happly).flush hflush
  have hfinished : Live C (fun o => promised o ∨ o = output.owner)
      (flushed.finishDerivedSpawns output.owner) (w.noteOutput C output deferInserts emissions) := by
    unfold noteOutput
    simp only [happly]
    exact hflushed.maintained (.of_stores (Grows.of_eq rfl rfl rfl) rfl rfl)
  exact hfinished.maintained (keeps_removeDerivedStale _ _ _)

theorem Live.mono {promised' : SystemInvocation → Prop} (h : Live C promised w emissions)
    (hp : ∀ o, promised' o → promised o) : Live C promised' w emissions :=
  fun m hm ho hd ht => h m hm (hp _ ho) hd ht

theorem Live.same (h : Live C promised w emissions) (hg : w.Grows w')
    (hs : SameOwnership w w') : Live C promised w' emissions :=
  h.maintained (.of_same hg hs)

end World
end Porridge
