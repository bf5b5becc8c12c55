import Porridge.World.Slots

/-! Ordinary and singleton spawns: the entities they record, and the ones they register. -/
namespace Porridge

variable {α : Type} (C : Components α)

/-- A spawn slot: the entity it names, and whether a singleton spawn took it. -/
structure Seat where
  entity : Entity
  singleton : Bool
deriving DecidableEq, Repr

/-- What a spawn on the seat records: its entity, or one that a key may name. -/
def Seat.Fits (named : Entity → Prop) (seat : Seat) (e : Entity) : Prop :=
  if seat.singleton = true then named e else e = seat.entity

namespace Command

/-- An ordinary bundle names no singleton: it lands on the entity reserved for it. -/
def ordinary (bundle : List (TypeId × Value α)) : Bool :=
  decide (World.bundleSingletonKey C bundle = some none)

def seat? : Command α → Option Seat
  | spawn bundle reserved => some ⟨reserved, !ordinary C bundle⟩
  | insert .. | removeEntity .. | removeComponent .. => none

/-- The entities a command may register that were not registered before it. -/
def claims : Command α → List Entity
  | insert t e _ => if C.singletonKey t = none then [] else [e]
  | spawn bundle reserved => if ordinary C bundle = true then [] else [reserved]
  | removeEntity .. | removeComponent .. => []

end Command

/-- The seats the spawns of a buffer take, in order. -/
def seats (commands : List (Command α)) : List Seat := commands.filterMap (Command.seat? C)

theorem seats_deferred (commands : List (Command α)) :
    seats C (commands.filter Command.defersAtSettle) = seats C commands := by
  induction commands with
  | nil => rfl
  | cons c commands ih =>
    unfold seats at ih ⊢
    cases c <;>
      simp [List.filter_cons, Command.defersAtSettle, Command.seat?, List.filterMap_cons, ih]

namespace World

variable {C} {w w' : World α} {o : SystemInvocation} {named : Entity → Prop}

section Commands

theorem spawnEntity_of_ordinary {bundle : List (TypeId × Value α)}
    (h : Command.ordinary C bundle = true) (registry : TypeId → Option Entity)
    (reserved : Entity) : Command.spawnEntity C registry bundle reserved = reserved := by
  unfold Command.spawnEntity
  rw [of_decide_eq_true h]
  rfl

/-- A singleton spawn lands on a registered entity, or on the one it claims. -/
theorem spawnEntity_of_singleton {bundle : List (TypeId × Value α)} {reserved : Entity}
    (h : Command.ordinary C bundle = false) (hregistry : ∀ key e, w.registry key = some e → named e)
    (hclaims : ∀ e ∈ (Command.spawn bundle reserved).claims C, named e) :
    named (Command.spawnEntity C w.registry bundle reserved) := by
  unfold Command.spawnEntity
  cases hlookup : (bundleSingletonKey C bundle).join.bind w.registry with
  | none => exact hclaims reserved (by simp [Command.claims, h])
  | some e =>
    obtain ⟨key, -, hkey⟩ := Option.bind_eq_some_iff.mp hlookup
    exact hregistry key e hkey

/-- What is registered after a command was registered before it, or the command claims it. -/
theorem registry_command {c : Command α} (h : c.apply C w o = some w') {key : TypeId} {e : Entity}
    (hkey : w'.registry key = some e) : w.registry key = some e ∨ e ∈ c.claims C := by
  have hcleared : Clears w w' → w.registry key = some e := fun hclears => by
    rcases hclears key with hnone | hsame
    · exact absurd (hkey.symm.trans hnone) nofun
    · exact hsame.symm.trans hkey
  cases c with
  | insert t e' v =>
    rw [registry_insert h] at hkey
    dsimp only at hkey
    split_ifs at hkey with hmarker
    · cases hkey
      exact Or.inr (by simp [Command.claims, hmarker])
    · exact Or.inl hkey
  | removeEntity e' =>
    cases h
    exact Or.inl (hcleared (clears_removeEntity w e'))
  | removeComponent t e' =>
    cases h
    exact Or.inl (hcleared (clears_removeComponent w t e' (some o)))
  | spawn bundle reserved =>
    have hdefers : (Command.spawn bundle reserved).defersAtSettle = true := rfl
    rw [(landed_command hdefers h).2] at hkey
    change (if (bundleSingletonKey C bundle).join = some key then
      some (Command.spawnEntity C w.registry bundle reserved) else w.registry key) = some e at hkey
    split_ifs at hkey with hjoin
    · cases hlookup : w.registry key with
      | some existing =>
        have heq : Command.spawnEntity C w.registry bundle reserved = existing := by
          simp [Command.spawnEntity, hjoin, hlookup]
        rw [heq] at hkey
        exact Or.inl hkey
      | none =>
        have heq : Command.spawnEntity C w.registry bundle reserved = reserved := by
          simp [Command.spawnEntity, hjoin, hlookup]
        have hspecial : Command.ordinary C bundle = false := by
          refine decide_eq_false fun hnone => ?_
          rw [hnone] at hjoin
          cases hjoin
        rw [heq] at hkey
        cases hkey
        exact Or.inr (by simp [Command.claims, hspecial])
    · exact Or.inl hkey

/-- The ids and the role of what is held back are as they were. -/
structure Steady (C : Components α) (w w' : World α) : Prop where
  next : w'.nextEntity = w.nextEntity
  anchored : w.Anchored C → w'.Anchored C

theorem Steady.refl (w : World α) : Steady C w w := ⟨rfl, id⟩

theorem Steady.trans {a b c : World α} (hab : Steady C a b) (hbc : Steady C b c) :
    Steady C a c := ⟨hbc.next.trans hab.next, fun h => hbc.anchored (hab.anchored h)⟩

theorem SameBuffers.steady (h : SameBuffers w w') : Steady C w w' :=
  ⟨h.next, fun ha p hp => ha p (h.pending ▸ hp)⟩

theorem steady_insert {t : TypeId} {e : Entity} {v : Value α} {owner : Option SystemInvocation}
    (h : w.insert C t e v owner = some w') : Steady C w w' := by
  rcases insert_cases h with ⟨anchors, hrole, -, rfl⟩ | ⟨-, hsame⟩
  · refine ⟨rfl, fun ha p hp => ?_⟩
    rcases List.mem_append.mp hp with hp | hp
    · exact ha p hp
    · rw [List.mem_singleton.mp hp]
      exact hrole
  · exact hsame.steady

theorem steady_command {c : Command α} (h : c.apply C w o = some w') : Steady C w w' := by
  cases c with
  | insert t e v => exact steady_insert h
  | removeEntity e =>
    cases h
    exact (sameBuffers_removeEntity w e).steady
  | removeComponent t e =>
    cases h
    exact (sameBuffers_removeComponent w t e (some o)).steady
  | spawn bundle reserved =>
    simp only [Command.apply, Option.bind_eq_bind, Option.bind_eq_some_iff] at h
    obtain ⟨key, -, h⟩ := h
    have htarget : Steady C w ((w.spawnTarget reserved key).2.recordDerivedSpawn o
        (w.spawnTarget reserved key).1) := by
      cases key with
      | none => exact ⟨rfl, id⟩
      | some key =>
        unfold spawnTarget singletonEntityOrRegister
        dsimp only
        split
        · exact ⟨rfl, id⟩
        · exact ⟨rfl, id⟩
    exact List.foldlM_some_induction (Steady C w) bundle h htarget
      fun _ _ _ _ hu hstep => hu.trans (steady_insert hstep)

theorem steady_applyCommands {commands : List (Command α)}
    (h : w.applyCommands C o commands = some w') : Steady C w w' :=
  List.foldlM_some_induction (Steady C w) commands h (.refl w)
    fun _ _ _ _ hu hstep => hu.trans (steady_command hstep)

theorem steady_flushDerivedFrom (h : w.flushDerivedFrom C = some w') : Steady C w w' := by
  obtain ⟨hpending, -, -, -, hnext⟩ := buffers_flushDerivedFrom h
  exact ⟨hnext, fun _ p hp => absurd (hpending ▸ hp) List.not_mem_nil⟩

/-- A buffer records what its seats allow, and registers nothing beside the named entities. -/
theorem seated_applyCommands : ∀ {commands : List (Command α)} {w : World α},
    (∀ key e, w.registry key = some e → named e) →
    (∀ c ∈ commands, ∀ e ∈ c.claims C, named e) → w.applyCommands C o commands = some w' →
      (∃ es, Fills o es w w' ∧ List.Forall₂ (Seat.Fits named) (seats C commands) es) ∧
        ∀ key e, w'.registry key = some e → named e
  | [], w, hregistry, _, h => by
    cases h
    exact ⟨⟨[], .of_eq rfl rfl, .nil⟩, hregistry⟩
  | c :: commands, w, hregistry, hclaims, h => by
    obtain ⟨u, hu, hrest⟩ := (applyCommands_cons C).mp h
    have hown : ∀ e ∈ c.claims C, named e := hclaims c List.mem_cons_self
    have hregistry' : ∀ key e, u.registry key = some e → named e := fun key e hkey =>
      (registry_command hu hkey).elim (hregistry key e) (hown e)
    obtain ⟨⟨es, hfills, hfits⟩, hnamed⟩ := seated_applyCommands hregistry'
      (fun c hc => hclaims c (List.mem_cons_of_mem _ hc)) hrest
    refine ⟨⟨c.spawned C w.registry ++ es, (fills_command hu).trans hfills, ?_⟩, hnamed⟩
    cases c with
    | spawn bundle reserved =>
      refine List.Forall₂.cons ?_ hfits
      unfold Seat.Fits
      cases hkind : Command.ordinary C bundle with
      | true => exact spawnEntity_of_ordinary hkind w.registry reserved
      | false => exact spawnEntity_of_singleton hkind hregistry hown
    | insert t e v => exact hfits
    | removeEntity e => exact hfits
    | removeComponent t e => exact hfits

end Commands

end World
end Porridge
