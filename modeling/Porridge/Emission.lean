import Porridge.Lib.Fold
import Porridge.Commands

/-! A history variable: the pairs each invocation's last output wrote, and which of them other
writers or removals have disturbed since. -/
namespace Porridge

/-- A pair that the last accepted output of `owner` wrote and did not itself remove. -/
structure Emission where
  owner : SystemInvocation
  component : TypeId
  entity : Entity
  /-- Another owner or a caller has written the pair, or its entity has been removed. -/
  disturbed : Bool
deriving DecidableEq, Repr

namespace Emission

def disturb (hit : Emission → Bool) (emissions : List Emission) : List Emission :=
  emissions.map fun m => if hit m then { m with disturbed := true } else m

def noteWrite (t : TypeId) (e : Entity) (o : Option SystemInvocation)
    (emissions : List Emission) : List Emission :=
  let marked := disturb (fun m => m.component = t ∧ m.entity = e) emissions
  match o with
  | none => marked
  | some o =>
    marked.filter (fun m => ¬ (m.owner = o ∧ m.component = t ∧ m.entity = e)) ++ [⟨o, t, e, false⟩]

/-- Note the removal of an entity; its remover gives its own emissions there up. -/
def noteDespawn (e : Entity) (o : Option SystemInvocation) (emissions : List Emission) :
    List Emission :=
  disturb (fun m => m.entity = e) (emissions.filter fun m => ¬ (some m.owner = o ∧ m.entity = e))

/-- Note that `o` removed a component; an emission of its own is given up. -/
def noteDrop (t : TypeId) (e : Entity) (o : SystemInvocation) (emissions : List Emission) :
    List Emission :=
  emissions.filter fun m => ¬ (m.owner = o ∧ m.component = t ∧ m.entity = e)

theorem mem_disturb {hit : Emission → Bool} {emissions : List Emission} {m : Emission}
    (hm : m ∈ disturb hit emissions) (hd : m.disturbed = false) :
    m ∈ emissions ∧ hit m = false := by
  obtain ⟨m', hmem, rfl⟩ := List.mem_map.mp hm
  split_ifs at hd ⊢ with hhit
  exact ⟨hmem, Bool.eq_false_of_not_eq_true hhit⟩

theorem mem_noteWrite {t : TypeId} {e : Entity} {o : Option SystemInvocation}
    {emissions : List Emission} {m : Emission} (hm : m ∈ noteWrite t e o emissions)
    (hd : m.disturbed = false) :
    (m ∈ emissions ∧ ¬ (m.component = t ∧ m.entity = e)) ∨
      (o = some m.owner ∧ m.component = t ∧ m.entity = e) := by
  have hmarked : ∀ m, m ∈ disturb (fun m => m.component = t ∧ m.entity = e) emissions →
      m.disturbed = false → m ∈ emissions ∧ ¬ (m.component = t ∧ m.entity = e) := by
    intro m hm hd
    obtain ⟨hmem, hhit⟩ := mem_disturb hm hd
    exact ⟨hmem, of_decide_eq_false hhit⟩
  cases o with
  | none => exact Or.inl (hmarked m hm hd)
  | some o =>
    rcases List.mem_append.mp hm with hold | hnew
    · exact Or.inl (hmarked m (List.mem_filter.mp hold).1 hd)
    · have heq : m = ⟨o, t, e, false⟩ := List.mem_singleton.mp hnew
      subst heq
      exact Or.inr ⟨rfl, rfl, rfl⟩

theorem mem_noteDespawn {e : Entity} {o : Option SystemInvocation} {emissions : List Emission}
    {m : Emission} (hm : m ∈ noteDespawn e o emissions) (hd : m.disturbed = false) :
    m ∈ emissions ∧ m.entity ≠ e := by
  obtain ⟨hmem, hhit⟩ := mem_disturb hm hd
  exact ⟨(List.mem_filter.mp hmem).1, of_decide_eq_false hhit⟩

theorem mem_noteDrop {t : TypeId} {e : Entity} {o : SystemInvocation} {emissions : List Emission}
    {m : Emission} (hm : m ∈ noteDrop t e o emissions) :
    m ∈ emissions ∧ ¬ (m.owner = o ∧ m.component = t ∧ m.entity = e) := by
  have hfilter := List.mem_filter.mp hm
  exact ⟨hfilter.1, of_decide_eq_true hfilter.2⟩

end Emission

variable {α : Type} (C : Components α)

namespace World

/-- Note an insert when it writes at once; a deferred one is noted by the flush. -/
def noteInsert (w : World α) (t : TypeId) (e : Entity) (v : Value α)
    (o : Option SystemInvocation) (emissions : List Emission) : List Emission :=
  if (w.deferredAnchors C t v).isSome then emissions else Emission.noteWrite t e o emissions

def noteBundle (w : World α) (e : Entity) (bundle : List (TypeId × Value α))
    (o : SystemInvocation) (emissions : List Emission) : List Emission :=
  List.history (fun w p => w.insert C p.1 e p.2 (some o))
    (fun w p => w.noteInsert C p.1 e p.2 (some o)) bundle w emissions

def noteCommand (w : World α) (o : SystemInvocation) (c : Command α)
    (emissions : List Emission) : List Emission :=
  match c with
  | .insert t e v => w.noteInsert C t e v (some o) emissions
  | .spawn bundle reserved =>
    match bundleSingletonKey C bundle with
    | none => emissions
    | some key =>
      let target := w.spawnTarget reserved key
      (target.2.recordDerivedSpawn o target.1).noteBundle C target.1 bundle o emissions
  | .removeEntity e => Emission.noteDespawn e (some o) emissions
  | .removeComponent t e => Emission.noteDrop t e o emissions

def noteCommands (w : World α) (o : SystemInvocation) (commands : List (Command α))
    (emissions : List Emission) : List Emission :=
  List.history (fun w c => c.apply C w o) (fun w c => w.noteCommand C o c) commands w emissions

def noteBaseCommand (w : World α) (c : BaseCommand α) (emissions : List Emission) :
    List Emission :=
  match c with
  | .insert t e v => w.noteInsert C t e v none emissions
  | .removeComponent .. => emissions
  | .despawn e => Emission.noteDespawn e none emissions

def noteFlush (w : World α) (emissions : List Emission) : List Emission :=
  List.history (fun w p => w.insert C p.component p.entity (.derivedFrom p.anchors) p.owner)
    (fun w p => w.noteInsert C p.component p.entity (.derivedFrom p.anchors) p.owner)
    w.pendingDerivedFrom { w with pendingDerivedFrom := [], flushingAnchors := true } emissions

/-- Note an output: what its owner emitted before no longer counts. -/
def noteOutput (w : World α) (output : SystemOutput α) (deferInserts : Bool)
    (emissions : List Emission) : List Emission :=
  let taken := (w.takeDerivedOutputs output.owner).2
  let immediate :=
    if deferInserts then output.commands.filter (!·.defersAtSettle) else output.commands
  let others := emissions.filter fun m => m.owner ≠ output.owner
  match taken.applyCommands C output.owner immediate with
  | none => others
  | some applied => applied.noteFlush C (taken.noteCommands C output.owner immediate others)

def noteOutputs (w : World α) (outputs : List (SystemOutput α)) (deferInserts : Bool)
    (emissions : List Emission) : List Emission :=
  List.history (fun w output => w.applyOutput C output deferInserts)
    (fun w output => w.noteOutput C output deferInserts) outputs w emissions

end World
end Porridge
