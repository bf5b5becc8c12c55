import Porridge.World.Coherence

/-! Worlds along a run: everything the engine does between two moments is a list of its uses. -/
namespace Porridge.World

variable {α : Type} (C : Components α)

/-- The second world comes after the first in a run of the engine's uses. -/
def Later (w w' : World α) : Prop := ∃ ops, (machine C).run w ops = some w'

variable {C} {w w' u : World α}

theorem Later.refl (w : World α) : Later C w w := ⟨[], rfl⟩

theorem Later.trans (h : Later C w u) (h' : Later C u w') : Later C w w' := by
  obtain ⟨ops, hops⟩ := h
  obtain ⟨ops', hops'⟩ := h'
  exact ⟨ops ++ ops', List.foldlM_append_some.mpr ⟨u, hops, hops'⟩⟩

theorem Later.of_apply (op : WorldOp α) (h : w.apply C op = some w') : Later C w w' :=
  ⟨[op], by simpa [Machine.run, machine] using h⟩

theorem Later.reachable (h : Later C w w') (hw : Reachable C w) : Reachable C w' := by
  obtain ⟨ops, hops⟩ := h
  exact Machine.Reachable.run hw hops

/-- What every use keeps holds of every later world. -/
theorem Later.invariant {I : World α → Prop} (h : Later C w w') (hw : I w)
    (step : ∀ w op w', World.apply C w op = some w' → I w → I w') : I w' := by
  obtain ⟨ops, hops⟩ := h
  exact List.foldlM_some_induction I ops hops hw fun u op u' _ hu hstep => step u op u' hstep hu

end Porridge.World

namespace Porridge

/-- The use may insert a component. -/
def WorldOp.inserts {α : Type} : WorldOp α → Bool
  | .base (.insert ..) | .flush | .output .. | .commands .. => true
  | _ => false

/-- The use writes a cell without any bookkeeping. -/
def WorldOp.inPlace {α : Type} : WorldOp α → Bool
  | .writeInPlace .. => true
  | _ => false

namespace World

variable {α : Type} (C : Components α)

/-- The second world comes after the first by uses that are allowed. -/
def Through (allowed : WorldOp α → Prop) (w w' : World α) : Prop :=
  ∃ ops : List (WorldOp α), (∀ op ∈ ops, allowed op) ∧ (machine C).run w ops = some w'

/-- The second world comes after the first by uses that insert nothing. -/
def Wanes (w w' : World α) : Prop :=
  ∃ ops : List (WorldOp α), (∀ op ∈ ops, op.inserts = false) ∧ (machine C).run w ops = some w'

/-- The second world comes after the first without a write in place. -/
abbrev Managed (w w' : World α) : Prop := Through C (fun op => op.inPlace = false) w w'

/-- The second world comes after the first by uses that neither insert nor write in place. -/
abbrev Tidies (w w' : World α) : Prop :=
  Through C (fun op => op.inserts = false ∧ op.inPlace = false) w w'

variable {C} {allowed allowed' : WorldOp α → Prop} {w w' u : World α}

theorem Through.later (h : Through C allowed w w') : Later C w w' := by
  obtain ⟨ops, -, hops⟩ := h
  exact ⟨ops, hops⟩

theorem Through.mono (h : Through C allowed w w') (hsub : ∀ op, allowed op → allowed' op) :
    Through C allowed' w w' := by
  obtain ⟨ops, hallowed, hops⟩ := h
  exact ⟨ops, fun op hop => hsub op (hallowed op hop), hops⟩

theorem Through.refl (w : World α) : Through C allowed w w := ⟨[], nofun, rfl⟩

theorem Through.trans (h : Through C allowed w u) (h' : Through C allowed u w') :
    Through C allowed w w' := by
  obtain ⟨ops, hallowed, hops⟩ := h
  obtain ⟨ops', hallowed', hops'⟩ := h'
  refine ⟨ops ++ ops', fun op hop => ?_, List.foldlM_append_some.mpr ⟨u, hops, hops'⟩⟩
  rcases List.mem_append.mp hop with hop | hop
  · exact hallowed op hop
  · exact hallowed' op hop

theorem Through.of_apply (op : WorldOp α) (hallowed : allowed op)
    (h : w.apply C op = some w') : Through C allowed w w' := by
  refine ⟨[op], fun op' hop => ?_, by simpa [Machine.run, machine] using h⟩
  rw [List.mem_singleton.mp hop]
  exact hallowed

/-- What every allowed use keeps holds afterwards. -/
theorem Through.invariant {I : World α → Prop} (h : Through C allowed w w') (hw : I w)
    (step : ∀ w op w', allowed op → World.apply C w op = some w' → I w → I w') : I w' := by
  obtain ⟨ops, hallowed, hops⟩ := h
  exact List.foldlM_some_induction I ops hops hw fun u op u' hop hu hstep =>
    step u op u' (hallowed op hop) hstep hu

theorem Through.foldlM {ι : Type} {f : World α → ι → Option (World α)} {xs : List ι}
    (h : xs.foldlM f w = some w') (step : ∀ u x u', f u x = some u' → Through C allowed u u') :
    Through C allowed w w' :=
  List.foldlM_some_induction (Through C allowed w) xs h (.refl w) fun u x u' _ hu hx =>
    hu.trans (step u x u' hx)

theorem Wanes.later (h : Wanes C w w') : Later C w w' := Through.later h

theorem Wanes.refl (w : World α) : Wanes C w w := Through.refl w

theorem Wanes.trans (h : Wanes C w u) (h' : Wanes C u w') : Wanes C w w' := Through.trans h h'

theorem Wanes.of_apply (op : WorldOp α) (hquiet : op.inserts = false)
    (h : w.apply C op = some w') : Wanes C w w' := Through.of_apply op hquiet h

/-- What every use without an insert keeps holds afterwards. -/
theorem Wanes.invariant {I : World α → Prop} (h : Wanes C w w') (hw : I w)
    (step : ∀ w op w', op.inserts = false → World.apply C w op = some w' → I w → I w') : I w' :=
  Through.invariant h hw step

theorem Through.wanes (h : Tidies C w w') : Wanes C w w' := h.mono fun _ => And.left

theorem Through.managed (h : Tidies C w w') : Managed C w w' := h.mono fun _ => And.right

end World
end Porridge
