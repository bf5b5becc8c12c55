import Porridge.World.Claims
import Porridge.World.Dormant

/-! Where the deferred inserts and spawns of a command buffer land. -/
namespace Porridge

variable {α : Type} (C : Components α)

def World.registry (w : World α) (key : TypeId) : Option Entity := w.singletonEntities.lookup key

namespace Command

/-- The entity a spawn lands on: the one registered for its key, or its reservation. -/
def spawnEntity (registry : TypeId → Option Entity) (bundle : List (TypeId × Value α))
    (reserved : Entity) : Entity :=
  ((World.bundleSingletonKey C bundle).join.bind registry).getD reserved

/-- The pairs an insert or a spawn writes. -/
def landing (registry : TypeId → Option Entity) : Command α → List (TypeId × Entity)
  | insert t e _ => [(t, e)]
  | spawn bundle reserved => bundle.map fun p => (p.1, spawnEntity C registry bundle reserved)
  | removeEntity .. | removeComponent .. => []

/-- The registry after an insert or a spawn. -/
def registers (registry : TypeId → Option Entity) : Command α → TypeId → Option Entity
  | insert t e _ => fun key => if C.singletonKey t = some key then some e else registry key
  | spawn bundle reserved => fun key =>
    if (World.bundleSingletonKey C bundle).join = some key then
      some (spawnEntity C registry bundle reserved)
    else registry key
  | removeEntity .. | removeComponent .. => registry

end Command

/-- The pairs a buffer of inserts and spawns writes. -/
def landings (registry : TypeId → Option Entity) : List (Command α) → List (TypeId × Entity)
  | [] => []
  | c :: commands => c.landing C registry ++ landings (c.registers C registry) commands

/-- The registry after a buffer of inserts and spawns. -/
def registersAll (registry : TypeId → Option Entity) (commands : List (Command α)) :
    TypeId → Option Entity := commands.foldl (Command.registers C) registry

namespace World

variable {C} {w w' : World α} {o : SystemInvocation} {t t' : TypeId} {e e' : Entity}

/-- The invocation owns the component, or a held back insert of it. -/
def Carries (o : SystemInvocation) (t : TypeId) (e : Entity) (w : World α) : Prop :=
  w.owner? t e = some o ∨
    ∃ p ∈ w.pendingDerivedFrom, p.owner = some o ∧ p.component = t ∧ p.entity = e

theorem Carries.congr (h : w.Carries o t e) (ho : w'.owner? t e = w.owner? t e)
    (hp : w'.pendingDerivedFrom = w.pendingDerivedFrom) : w'.Carries o t e := by
  unfold Carries
  rw [ho, hp]
  exact h

/-- What `o` carries in the second world it carried in the first, or is among the pairs; what it
carried it still does, and it carries the pairs. Inverses are base facts. -/
structure Lands (C : Components α) (o : SystemInvocation) (pairs : List (TypeId × Entity))
    (w w' : World α) : Prop where
  gains : ∀ t e, w'.Carries o t e → w.Carries o t e ∨ (t, e) ∈ pairs
  keeps : ∀ t e, ¬ C.IsInverse t → w.Carries o t e → w'.Carries o t e
  lands : ∀ t e, ¬ C.IsInverse t → (t, e) ∈ pairs → w'.Carries o t e

theorem Lands.of_eq (hs : w'.stores = w.stores)
    (hp : w'.pendingDerivedFrom = w.pendingDerivedFrom) : Lands C o [] w w' where
  gains t e h := Or.inl (h.congr (owner?_congr hs t e).symm hp.symm)
  keeps t e _ h := h.congr (owner?_congr hs t e) hp
  lands _ _ _ h := nomatch h

theorem Lands.trans {a b c : World α} {pairs pairs' : List (TypeId × Entity)}
    (hab : Lands C o pairs a b) (hbc : Lands C o pairs' b c) : Lands C o (pairs ++ pairs') a c where
  gains t e h := by
    rcases hbc.gains t e h with h | h
    · exact (hab.gains t e h).imp_right fun h => List.mem_append_left _ h
    · exact Or.inr (List.mem_append_right _ h)
  keeps t e ht h := hbc.keeps t e ht (hab.keeps t e ht h)
  lands t e ht h := by
    rcases List.mem_append.mp h with h | h
    · exact hbc.keeps t e ht (hab.lands t e ht h)
    · exact hbc.lands t e ht h

section Inserts

/-- An insert at once touches its own cell only, inverses aside. -/
theorem cell?_insertEntry_eq (v : Value α) (owner : Option SystemInvocation)
    (ht : ¬ C.IsInverse t') :
    (w.insertEntry C t e v owner).cell? t' e' = (w.writeEntry C t e v owner).cell? t' e' := by
  have hretract : ∀ u : World α, (u.retractEdge C e (w.edgeOn C t e)).cell? t' e' = u.cell? t' e' :=
    fun u => cell?_retractEdge C u e _ t' e' fun heq => ht (isInverse_edgeOn C heq)
  have hestablish : ∀ u : World α,
      (u.establishEdge C e (C.relationshipEdge t v)).cell? t' e' = u.cell? t' e' := fun _ =>
    cell?_establishEdge e _ t' e' fun heq => ht ⟨t, C.inverse_of_relationshipEdge heq⟩
  unfold insertEntry
  dsimp only
  split_ifs
  · rfl
  · rw [hestablish, hretract]

/-- An insert moves the ownership of its own pair only, inverses aside. -/
theorem owner?_insertEntry (v : Value α) (owner : Option SystemInvocation)
    (ht : ¬ C.IsInverse t') : (w.insertEntry C t e v owner).owner? t' e' =
      if t' = t ∧ e' = e then owner else w.owner? t' e' := by
  rw [← owner?_writeEntry C w t t' e e' v owner, owner?, cell?_insertEntry_eq v owner ht]
  rfl

theorem owner?_insertNow {v : Value α} {owner : Option SystemInvocation}
    (h : w.insertNow C t e v owner = some w') (ht : ¬ C.IsInverse t') :
    w'.owner? t' e' = if t' = t ∧ e' = e then owner else w.owner? t' e' := by
  obtain ⟨u, hu, rfl⟩ := Option.map_eq_some_iff.mp h
  rw [owner?_insertEntry v owner ht, owner?_congr (registerSingleton_eq hu).1]

theorem carries_of_insert {v : Value α} {owner : Option SystemInvocation}
    (h : w.insert C t e v owner = some w') (hc : w'.Carries o t' e') :
    w.Carries o t' e' ∨ (owner = some o ∧ (t', e') = (t, e)) := by
  rcases insert_cases h with ⟨anchors, -, -, rfl⟩ | ⟨hnow, hsame⟩
  · rcases hc with howner | ⟨p, hp, hfields⟩
    · exact Or.inl (Or.inl howner)
    · rcases List.mem_append.mp hp with hp | hp
      · exact Or.inl (Or.inr ⟨p, hp, hfields⟩)
      · rw [List.mem_singleton.mp hp] at hfields
        obtain ⟨howner, rfl, rfl⟩ := hfields
        exact Or.inr ⟨howner, rfl⟩
  · rcases hc with howner | hpending
    · have hgains := (closed_gains C o fun t' e' => owner = some o ∧ (t', e') = (t, e)).insertNow
        hnow fun heq => ⟨heq, rfl⟩
      exact (hgains t' e' howner).imp_left Or.inl
    · rw [hsame.pending] at hpending
      exact Or.inl (Or.inr hpending)

theorem lands_insert_own {v : Value α} (h : w.insert C t e v (some o) = some w') :
    Lands C o [(t, e)] w w' where
  gains t' e' hc := (carries_of_insert h hc).imp_right fun hp => List.mem_singleton.mpr hp.2
  keeps t' e' ht hc := by
    rcases insert_cases h with ⟨anchors, -, -, rfl⟩ | ⟨hnow, hsame⟩
    · exact hc.imp_right fun ⟨p, hp, hfields⟩ => ⟨p, List.mem_append_left _ hp, hfields⟩
    · rcases hc with howner | hpending
      · left
        rw [owner?_insertNow hnow ht, howner, ite_self]
      · exact Or.inr (hsame.pending ▸ hpending)
  lands t' e' ht hmem := by
    obtain ⟨rfl, rfl⟩ := Prod.ext_iff.mp (List.mem_singleton.mp hmem)
    rcases insert_cases h with ⟨anchors, -, -, rfl⟩ | ⟨hnow, -⟩
    · exact Or.inr ⟨_, List.mem_append_right _ (List.mem_singleton_self _), rfl, rfl, rfl⟩
    · left
      rw [owner?_insertNow hnow ht, if_pos ⟨rfl, rfl⟩]

theorem registry_insert {v : Value α} {owner : Option SystemInvocation}
    (h : w.insert C t e v owner = some w') : w'.registry =
      fun key => if C.singletonKey t = some key then some e else w.registry key := by
  funext key
  rcases insert_cases h with ⟨anchors, hrole, -, rfl⟩ | ⟨hnow, -⟩
  · rw [Components.singletonKey_of_derivedFrom hrole, if_neg nofun]
    rfl
  · have hfree : ∀ key, C.singletonKey t = some key →
        w.singletonEntities.lookup key = none ∨ w.singletonEntities.lookup key = some e := by
      intro key hkey
      obtain ⟨u, hu, -⟩ := Option.map_eq_some_iff.mp hnow
      unfold registerSingleton at hu
      rw [hkey] at hu
      dsimp only at hu
      cases hlookup : w.singletonEntities.lookup key with
      | none => exact Or.inl rfl
      | some existing =>
        rw [hlookup] at hu
        dsimp only at hu
        split_ifs at hu with hsame
        exact Or.inr (congrArg some hsame)
    obtain ⟨u, hu, -, hlookups⟩ := insertNow_spec w (w.capture C v) owner hfree
    cases hu.symm.trans hnow
    exact hlookups key

end Inserts

section Commands

theorem landed_insertBundle : ∀ {bundle : List (TypeId × Value α)} {w : World α},
    w.insertBundle C e bundle o = some w' →
      Lands C o (bundle.map fun p => (p.1, e)) w w' ∧
        w'.registry = fun key =>
          if ∃ p ∈ bundle, C.singletonKey p.1 = some key then some e else w.registry key
  | [], w, h => by
    cases h
    exact ⟨.of_eq rfl rfl, by simp⟩
  | p :: bundle, w, h => by
    obtain ⟨u, hu, hrest⟩ := Option.bind_eq_some_iff.mp h
    obtain ⟨hlands, hregistry⟩ := landed_insertBundle hrest
    refine ⟨(lands_insert_own hu).trans hlands, ?_⟩
    rw [hregistry, registry_insert hu]
    funext key
    dsimp only
    by_cases hkey : ∃ q ∈ bundle, C.singletonKey q.1 = some key
    · rw [if_pos hkey, if_pos (by simp [hkey])]
    · by_cases hhead : C.singletonKey p.1 = some key
      · rw [if_neg hkey, if_pos hhead, if_pos ⟨p, List.mem_cons_self, hhead⟩]
      · rw [if_neg hkey, if_neg hhead, if_neg]
        rintro ⟨q, hq, hmarker⟩
        rcases List.mem_cons.mp hq with rfl | hq
        · exact hhead hmarker
        · exact hkey ⟨q, hq, hmarker⟩

theorem spawnTarget_entity {bundle : List (TypeId × Value α)} {key : Option TypeId}
    (hkey : bundleSingletonKey C bundle = some key) (w : World α) (reserved : Entity) :
    (w.spawnTarget reserved key).1 = Command.spawnEntity C w.registry bundle reserved := by
  unfold Command.spawnEntity
  rw [hkey]
  cases key with
  | none => rfl
  | some key =>
    show (w.singletonEntityOrRegister key reserved).1 = (w.registry key).getD reserved
    unfold singletonEntityOrRegister registry
    cases w.singletonEntities.lookup key with
    | none => rfl
    | some existing => rfl

/-- A deferred command lands where the registry of its world says. -/
theorem landed_command {c : Command α} (hd : c.defersAtSettle = true)
    (h : c.apply C w o = some w') :
    Lands C o (c.landing C w.registry) w w' ∧ w'.registry = c.registers C w.registry := by
  cases c with
  | removeEntity => cases hd
  | removeComponent => cases hd
  | insert t e v => exact ⟨lands_insert_own h, registry_insert h⟩
  | spawn bundle reserved =>
    simp only [Command.apply, Option.bind_eq_bind, Option.bind_eq_some_iff] at h
    obtain ⟨key, hkey, h⟩ := h
    obtain ⟨hstores, -, hpending, hlookups, -⟩ := spawnTarget_spec w reserved key
    have htarget := spawnTarget_entity hkey w reserved
    obtain ⟨hlands, hregistry⟩ := landed_insertBundle h
    have hslot : Lands C o [] w ((w.spawnTarget reserved key).2.recordDerivedSpawn o
        (w.spawnTarget reserved key).1) := .of_eq hstores hpending
    have hspawned : Lands C o ((Command.spawn bundle reserved).landing C w.registry) w w' := by
      show Lands C o (bundle.map fun p => (p.1, Command.spawnEntity C w.registry bundle reserved)) w w'
      rw [← htarget]
      exact hslot.trans hlands
    refine ⟨hspawned, ?_⟩
    rw [hregistry]
    funext own
    show (if ∃ p ∈ bundle, C.singletonKey p.1 = some own then
      some (w.spawnTarget reserved key).1 else
        (w.spawnTarget reserved key).2.singletonEntities.lookup own) = _
    rw [hlookups, htarget]
    have hregisters : (Command.spawn bundle reserved).registers C w.registry own =
        if key = some own then some (Command.spawnEntity C w.registry bundle reserved)
        else w.registry own := by
      show (if (bundleSingletonKey C bundle).join = some own then _ else _) = _
      rw [hkey]
      rfl
    rw [hregisters]
    cases key with
    | none =>
      have hplain := not_marker_of_bundleSingletonKey hkey
      rw [if_neg, if_neg (by simp), if_neg (by simp)]
      · rfl
      · rintro ⟨p, hp, hmarker⟩
        rw [hplain p hp] at hmarker
        cases hmarker
    | some key =>
      obtain ⟨⟨p, hp, hmarker⟩, hmarkers⟩ := markers_of_bundleSingletonKey hkey
      by_cases hown : key = own
      · rw [← hown, if_pos ⟨p, hp, hmarker⟩, if_pos rfl]
      · rw [if_neg, if_neg fun heq => hown (Option.some.inj heq),
          if_neg fun heq => hown (Option.some.inj heq)]
        · rfl
        · rintro ⟨q, hq, hq'⟩
          exact hown (hmarkers q hq own hq').symm

/-- A deferred buffer lands where the registry it starts from says. -/
theorem landed_applyCommands : ∀ {commands : List (Command α)} {w : World α},
    (∀ c ∈ commands, c.defersAtSettle = true) → w.applyCommands C o commands = some w' →
      Lands C o (landings C w.registry commands) w w' ∧
        w'.registry = registersAll C w.registry commands
  | [], w, _, h => by
    cases h
    exact ⟨.of_eq rfl rfl, rfl⟩
  | c :: commands, w, hd, h => by
    obtain ⟨u, hu, hrest⟩ := (applyCommands_cons C).mp h
    obtain ⟨hlands, hregistry⟩ := landed_command (hd c List.mem_cons_self) hu
    obtain ⟨hlands', hregistry'⟩ := landed_applyCommands
      (fun c hc => hd c (List.mem_cons_of_mem _ hc)) hrest
    rw [hregistry] at hlands' hregistry'
    exact ⟨hlands.trans hlands', hregistry'⟩

/-- The commands of another invocation give `o` nothing to carry. -/
theorem carries_of_applyCommands {o' : SystemInvocation} {commands : List (Command α)}
    (hne : o' ≠ o) (h : w.applyCommands C o' commands = some w') (hc : w'.Carries o t e) :
    w.Carries o t e := by
  rcases hc with howner | ⟨p, hp, hfields⟩
  · have hgains := (closed_gains C o fun _ _ => False).applyCommands h (grants_gainsOnly _ hne)
    exact Or.inl ((hgains t e howner).resolve_right id)
  · rcases defers_applyCommands h p hp with hold | hother
    · exact Or.inr ⟨p, hold, hfields⟩
    · exact absurd (Option.some.inj (hother.symm.trans hfields.1)) hne

end Commands

end World
end Porridge
