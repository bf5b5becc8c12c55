import Porridge.Commit.Removals
import Porridge.World.Audible

/-! Who is recorded as having lost a component to a run: those whose component is taken off an
entity that stays, and owners of inverses that the engine drops. -/
namespace Porridge

variable {α : Type} (C : Components α)

/-- The command of `owner` takes a component of `o` off an entity that stays. -/
def Command.Strips (w : World α) (owner : SystemInvocation) : Command α → SystemInvocation → Prop
  | .removeComponent t e, o => w.owner? t e = some o ∧ o ≠ owner
  -- the edges that the inverses of the entity list
  | .removeEntity e, o => ∃ p ∈ w.retractionsOn C e, p.2 ≠ e ∧ ¬ C.IsInverse p.1 ∧
      w.owner? p.1 p.2 = some o
  | _, _ => False

/-- One of the commands of `owner` takes a component of `o` off an entity that stays. -/
inductive Strips : World α → SystemInvocation → List (Command α) → SystemInvocation → Prop
  | here {w : World α} {owner : SystemInvocation} {c : Command α} {commands : List (Command α)}
      {o : SystemInvocation} (h : c.Strips C w owner o) : Strips w owner (c :: commands) o
  | later {w w' : World α} {owner : SystemInvocation} {c : Command α} {commands : List (Command α)}
      {o : SystemInvocation} (hc : c.apply C w owner = some w') (h : Strips w' owner commands o) :
      Strips w owner (c :: commands) o

/-- One of the outputs of the run takes a component of `o` off an entity that stays. -/
inductive RunStrips : World α → List (SystemOutput α) → SystemInvocation → Prop
  | here {w : World α} {output : SystemOutput α} {outputs : List (SystemOutput α)}
      {o : SystemInvocation}
      (h : Strips C (w.takeDerivedOutputs output.owner).2 output.owner output.commands o) :
      RunStrips w (output :: outputs) o
  | later {w w' : World α} {output : SystemOutput α} {outputs : List (SystemOutput α)}
      {o : SystemInvocation} (ha : w.applyOutput C output false = some w')
      (h : RunStrips w' outputs o) : RunStrips w (output :: outputs) o

namespace World

variable {C} {A : SystemInvocation → Prop} {w w' : World α} {t : TypeId} {e : Entity}
  {o : SystemInvocation}

/-- The owners of inverses are among `A`, and only `DerivedFrom` facts are held back. -/
structure Attributed (C : Components α) (A : SystemInvocation → Prop) (w : World α) : Prop where
  inverses : ∀ t e o, C.IsInverse t → w.owner? t e = some o → A o
  held : ∀ p ∈ w.pendingDerivedFrom, C.role p.component = .derivedFrom

/-- The second world is attributed too, and records only losers among `A` beyond the first. -/
structure LosesOnly (C : Components α) (A : SystemInvocation → Prop) (w w' : World α) : Prop where
  attributed : w'.Attributed C A
  losers : ∀ o ∈ w'.removedComponentOwners, o ∈ w.removedComponentOwners ∨ A o
  evicted : w'.removedOwners = w.removedOwners

section Chain

theorem LosesOnly.refl (h : w.Attributed C A) : LosesOnly C A w w := ⟨h, fun _ => Or.inl, rfl⟩

theorem LosesOnly.trans {a b c : World α} (hab : LosesOnly C A a b) (hbc : LosesOnly C A b c) :
    LosesOnly C A a c where
  attributed := hbc.attributed
  losers o ho := (hbc.losers o ho).elim (hab.losers o) Or.inr
  evicted := hbc.evicted.trans hab.evicted

theorem Attributed.of_owners (h : w.Attributed C A)
    (ho : ∀ t e o, w'.owner? t e = some o → w.owner? t e = some o)
    (hp : w'.pendingDerivedFrom = w.pendingDerivedFrom) : w'.Attributed C A :=
  ⟨fun t e o ht howner => h.inverses t e o ht (ho t e o howner), fun p hmem => h.held p (hp ▸ hmem)⟩

theorem LosesOnly.of_same (h : w.Attributed C A)
    (ho : ∀ t e o, w'.owner? t e = some o → w.owner? t e = some o)
    (hp : w'.pendingDerivedFrom = w.pendingDerivedFrom) (hs : SameLosers w w') :
    LosesOnly C A w w' := by
  refine ⟨h.of_owners ho hp, fun o hmem => Or.inl ?_, hs.1⟩
  rwa [hs.2] at hmem

theorem LosesOnly.foldl {ι : Type} {f : World α → ι → World α} {xs : List ι}
    (h : w.Attributed C A) (step : ∀ u, u.Attributed C A → ∀ x ∈ xs, LosesOnly C A u (f u x)) :
    LosesOnly C A w (xs.foldl f w) :=
  List.foldlRecOn xs f (motive := LosesOnly C A w) (.refl h) fun u hu x hx =>
    hu.trans (step u hu.attributed x hx)

theorem LosesOnly.foldlM {ι : Type} {f : World α → ι → Option (World α)} {xs : List ι}
    (hf : xs.foldlM f w = some w') (h : w.Attributed C A)
    (step : ∀ u, u.Attributed C A → ∀ x ∈ xs, ∀ u', f u x = some u' → LosesOnly C A u u') :
    LosesOnly C A w w' :=
  List.foldlM_some_induction (LosesOnly C A w) xs hf (.refl h) fun u x u' hx hu hstep =>
    hu.trans (step u hu.attributed x hx u' hstep)

end Chain

section Effects

/-- Dropping an entry records its owner, unless the owner drops it. -/
theorem mem_losers_dropEntry (w : World α) (t : TypeId) (e : Entity)
    (remover : Option SystemInvocation) :
    o ∈ (w.dropEntry C t e remover).removedComponentOwners ↔ o ∈ w.removedComponentOwners ∨
      (w.owner? t e = some o ∧ remover ≠ some o) := by
  have hunregister : ∀ u : World α,
      (u.unregisterSingleton C t e).removedComponentOwners = u.removedComponentOwners := by
    intro u
    obtain ⟨singletons, hsingletons⟩ := unregisterSingleton_eq C u t e
    rw [hsingletons]
  by_cases hhas : w.has t e = true
  · unfold dropEntry
    rw [if_pos hhas, hunregister]
    unfold disownEntry
    cases howner : w.owner? t e with
    | none => simp [eraseEntry, presenceSet]
    | some o' =>
      obtain ⟨owners, howners⟩ := unindexDerived_eq ((w.eraseEntry t e).presenceSet t e false) t e o'
      dsimp only
      rw [howners]
      have hbefore : ((w.eraseEntry t e).presenceSet t e false).removedComponentOwners =
          w.removedComponentOwners := rfl
      split_ifs with hremover
      · rw [hbefore]
        refine ⟨Or.inl, fun h => h.resolve_right ?_⟩
        rintro ⟨heq, hne⟩
        exact hne (hremover.trans heq)
      · show o ∈ w.removedComponentOwners ++ [o'] ↔ _
        rw [List.mem_append, List.mem_singleton]
        refine or_congr_right ⟨fun heq => ?_, fun h => (Option.some.inj h.1).symm⟩
        subst heq
        exact ⟨rfl, hremover⟩
  · have hnone : w.owner? t e = none := by
      cases howner : w.owner? t e with
      | none => rfl
      | some o' =>
        obtain ⟨x, hx, -⟩ := Option.bind_eq_some_iff.mp howner
        exact absurd ((has_iff w t e).mpr ⟨x, hx⟩) hhas
    rw [dropEntry, if_neg hhas, hnone]
    simp

theorem evicted_dropEntry (w : World α) (t : TypeId) (e : Entity)
    (remover : Option SystemInvocation) :
    (w.dropEntry C t e remover).removedOwners = w.removedOwners := by
  unfold dropEntry
  split_ifs
  · obtain ⟨owners, losers, h⟩ :=
      disownEntry_eq ((w.eraseEntry t e).presenceSet t e false) t e (w.owner? t e) remover
    obtain ⟨singletons, h'⟩ := unregisterSingleton_eq C
      (((w.eraseEntry t e).presenceSet t e false).disownEntry t e (w.owner? t e) remover) t e
    rw [h', h]
    rfl
  · rfl

theorem Attributed.dropEntry (h : w.Attributed C A) (t : TypeId) (e : Entity)
    (remover : Option SystemInvocation) : (w.dropEntry C t e remover).Attributed C A := by
  refine h.of_owners (fun t' e' o ho => ?_) (sameBuffers_dropEntry w t e remover).pending
  rw [owner?_dropEntry] at ho
  split_ifs at ho
  exact ho

theorem losesOnly_dropInverse (h : w.Attributed C A) (ht : C.IsInverse t) (e : Entity) :
    LosesOnly C A w (w.dropEntry C t e none) := by
  refine ⟨h.dropEntry t e none, fun o ho => ?_, evicted_dropEntry w t e none⟩
  exact ((mem_losers_dropEntry w t e none).mp ho).imp_right fun hlost => h.inverses t e o ht hlost.1

theorem losesOnly_writeEntry (h : w.Attributed C A) (v : Value α) {owner : Option SystemInvocation}
    (ht : C.IsInverse t → ∀ o, owner = some o → A o) (e : Entity) :
    LosesOnly C A w (w.writeEntry C t e v owner) := by
  have hlosers : SameLosers w (w.writeEntry C t e v owner) := by
    unfold writeEntry
    dsimp only
    rw [(reindexDerived_eq _ t e (w.owner? t e) owner).choose_spec]
    exact ⟨rfl, rfl⟩
  have hpending := (sameBuffers_writeEntry (C := C) w t e v owner).pending
  refine ⟨⟨fun t' e' o hinverse ho => ?_, fun p hp => h.held p (hpending ▸ hp)⟩, fun o ho => ?_,
    hlosers.1⟩
  · rw [owner?_writeEntry] at ho
    split_ifs at ho with hte
    · obtain ⟨rfl, rfl⟩ := hte
      exact ht hinverse o ho
    · exact h.inverses t' e' o hinverse ho
  · rw [hlosers.2] at ho
    exact Or.inl ho

theorem losesOnly_sweepEntry (h : w.Attributed C A) (t : TypeId) (e : Entity) (o : SystemInvocation) :
    LosesOnly C A w (w.sweepEntry t e o) := by
  refine .of_same h (fun t' e' o' ho => ?_) (sameBuffers_sweepEntry w t e o).pending ?_
  · rw [owner?_sweepEntry] at ho
    split_ifs at ho
    exact ho
  · unfold sweepEntry
    split_ifs <;> exact ⟨rfl, rfl⟩

end Effects

section Operations

theorem losesOnly_retractEdge (h : w.Attributed C A) (source : Entity)
    (edge : Option (TypeId × Entity)) (hedge : ∀ p ∈ edge, C.IsInverse p.1) :
    LosesOnly C A w (w.retractEdge C source edge) := by
  cases edge with
  | none => exact .refl h
  | some p =>
    have hinverse : C.IsInverse p.1 := hedge p rfl
    unfold retractEdge relationshipRemoveMember
    dsimp only
    split
    · exact .refl h
    · split_ifs
      · exact losesOnly_dropInverse h hinverse p.2
      · exact losesOnly_writeEntry h _ (fun _ _ hnone => by cases hnone) p.2
      · exact .refl h

theorem losesOnly_establishEdge (h : w.Attributed C A) (source : Entity)
    (edge : Option (TypeId × Entity)) : LosesOnly C A w (w.establishEdge C source edge) := by
  cases edge with
  | none => exact .refl h
  | some p =>
    unfold establishEdge relationshipAddMember
    dsimp only
    split_ifs
    · exact .refl h
    · exact losesOnly_writeEntry h _ (fun _ _ hnone => by cases hnone) p.2

theorem losesOnly_insert (h : w.Attributed C A) {v : Value α} {owner : Option SystemInvocation}
    (ht : C.IsInverse t → ∀ o, owner = some o → A o) (hi : w.insert C t e v owner = some w') :
    LosesOnly C A w w' := by
  rcases insert_cases hi with ⟨anchors, hrole, -, rfl⟩ | ⟨hnow, -⟩
  · refine ⟨⟨h.inverses, fun p hp => ?_⟩, fun _ => Or.inl, rfl⟩
    rcases List.mem_append.mp hp with hp | hp
    · exact h.held p hp
    · cases List.mem_singleton.mp hp
      exact hrole
  · obtain ⟨u, hu, rfl⟩ := Option.map_eq_some_iff.mp hnow
    have hregister : LosesOnly C A w u := by
      unfold registerSingleton at hu
      split at hu
      · cases hu
        exact .refl h
      · split at hu
        · split_ifs at hu
          cases hu
          exact .refl h
        · cases hu
          exact ⟨⟨h.inverses, h.held⟩, fun _ => Or.inl, rfl⟩
    have hwritten := losesOnly_writeEntry hregister.attributed (w.capture C v) ht e
    refine hregister.trans (hwritten.trans ?_)
    unfold insertEntry
    dsimp only
    split_ifs
    · exact .refl hwritten.attributed
    · have hretracted := losesOnly_retractEdge hwritten.attributed e (u.edgeOn C t e)
        fun p hp => ⟨t, Closed.role_edgeOn p hp⟩
      exact hretracted.trans (losesOnly_establishEdge hretracted.attributed e _)

theorem losesOnly_flushDerivedFrom (h : w.Attributed C A) (hf : w.flushDerivedFrom C = some w') :
    LosesOnly C A w w' := by
  obtain ⟨u, hu, rfl⟩ := Option.map_eq_some_iff.mp hf
  have hstart : Attributed C A { w with pendingDerivedFrom := [], flushingAnchors := true } :=
    ⟨h.inverses, nofun⟩
  have hfold := LosesOnly.foldlM hu hstart fun u hu p hp u' hstep =>
    losesOnly_insert hu (fun ht => absurd ht (not_inverse_of_derivedFrom (h.held p hp))) hstep
  exact ⟨⟨hfold.attributed.inverses, hfold.attributed.held⟩, hfold.losers, hfold.evicted⟩

theorem losesOnly_removeDerivedEntry (h : w.Attributed C A) (t : TypeId) (e : Entity)
    (o : SystemInvocation) : LosesOnly C A w (w.removeDerivedEntry C t e o) := by
  unfold removeDerivedEntry
  split_ifs
  · have hswept := losesOnly_sweepEntry h t e o
    exact hswept.trans (losesOnly_retractEdge hswept.attributed e _ fun p hp =>
      ⟨t, Closed.role_edgeOn p hp⟩)
  · exact .refl h

theorem losesOnly_removeDerivedStale (h : w.Attributed C A) (o : SystemInvocation)
    (previous : List (TypeId × Entity)) : LosesOnly C A w (w.removeDerivedStale C o previous) := by
  refine .foldl h fun u hu p _ => ?_
  split_ifs
  · exact .refl hu
  · exact losesOnly_removeDerivedEntry hu p.1 p.2 o

end Operations

section Removals

/-- Removing a component records its owner, unless that one removes it, and owners of inverses. -/
theorem losers_removeComponent (h : w.Attributed C A) (t : TypeId) (e : Entity)
    (remover : Option SystemInvocation) :
    (w.removeComponent C t e remover).Attributed C A ∧
      (∀ o ∈ (w.removeComponent C t e remover).removedComponentOwners,
        o ∈ w.removedComponentOwners ∨ A o ∨ (w.owner? t e = some o ∧ remover ≠ some o)) ∧
      (w.removeComponent C t e remover).removedOwners = w.removedOwners := by
  have hretracted := losesOnly_retractEdge (h.dropEntry t e remover) e (w.edgeOn C t e)
    fun p hp => ⟨t, Closed.role_edgeOn p hp⟩
  refine ⟨hretracted.attributed, fun o ho => ?_,
    hretracted.evicted.trans (evicted_dropEntry w t e remover)⟩
  rcases hretracted.losers o ho with ho | hA
  · rcases (mem_losers_dropEntry w t e remover).mp ho with ho | hlost
    · exact Or.inl ho
    · exact Or.inr (Or.inr hlost)
  · exact Or.inr (Or.inl hA)

/-- What an invocation owns after a removal, it owned before. -/
theorem owner?_of_removeComponent {t' : TypeId} {e' : Entity} (remover : Option SystemInvocation)
    (ho : (w.removeComponent C t e remover).owner? t' e' = some o) : w.owner? t' e' = some o :=
  (closed_disowning C).removeComponent w t e remover (fun _ _ => trivial) t' e' o ho

/-- The edges taken off the sources of a removed entity record their owners. -/
theorem losers_freed : ∀ (edges : List (TypeId × Entity)) {w : World α}, w.Attributed C A →
    let freed := edges.foldl (fun w p => w.removeComponent C p.1 p.2 none) w
    freed.Attributed C A ∧ freed.removedOwners = w.removedOwners ∧
      ∀ o ∈ freed.removedComponentOwners, o ∈ w.removedComponentOwners ∨ A o ∨
        ∃ p ∈ edges, w.owner? p.1 p.2 = some o
  | [], _, h => ⟨h, rfl, fun _ => Or.inl⟩
  | p :: edges, w, h => by
    obtain ⟨hattributed, hlosers, hevicted⟩ := losers_removeComponent h p.1 p.2 none
    obtain ⟨hrest, hevicted', hlosers'⟩ := losers_freed edges hattributed
    refine ⟨hrest, hevicted'.trans hevicted, fun o ho => ?_⟩
    rcases hlosers' o ho with ho | hA | ⟨q, hq, ho⟩
    · rcases hlosers o ho with ho | hA | ⟨ho, -⟩
      · exact Or.inl ho
      · exact Or.inr (Or.inl hA)
      · exact Or.inr (Or.inr ⟨p, List.mem_cons_self, ho⟩)
    · exact Or.inr (Or.inl hA)
    · exact Or.inr (Or.inr ⟨q, List.mem_cons_of_mem _ hq, owner?_of_removeComponent none ho⟩)

theorem losers_removeEntity (h : w.Attributed C A) (e : Entity) :
    (w.removeEntity C e).Attributed C A ∧
      (∀ o ∈ (w.removeEntity C e).removedComponentOwners, o ∈ w.removedComponentOwners ∨ A o ∨
        ∃ p ∈ w.retractionsOn C e, p.2 ≠ e ∧ ¬ C.IsInverse p.1 ∧ w.owner? p.1 p.2 = some o) ∧
      ∀ o ∈ (w.removeEntity C e).removedOwners, o ∈ w.removedOwners ∨ ∃ t, w.owner? t e = some o := by
  have hpurged : LosesOnly C A w (w.purgeEntity e) := by
    refine .of_same h (fun t' e' o ho => ?_) (sameBuffers_purgeEntity w e).pending
      (sameLosers_purgeEntity w e)
    rw [owner?_purgeEntity] at ho
    split_ifs at ho
    exact ho
  have hunlinked : LosesOnly C A (w.purgeEntity e)
      ((w.edgesOn C e).foldl (fun w edge => w.retractEdge C e (some edge)) (w.purgeEntity e)) := by
    refine .foldl hpurged.attributed fun u hu edge hedge => losesOnly_retractEdge hu e _ fun p hp => ?_
    obtain ⟨t, -, ht⟩ := List.mem_filterMap.mp hedge
    cases hp
    exact ⟨t, Closed.role_edgeOn _ ht⟩
  have howners : ∀ t' e' o, ((w.edgesOn C e).foldl (fun w edge => w.retractEdge C e (some edge))
      (w.purgeEntity e)).owner? t' e' = some o → e' ≠ e ∧ w.owner? t' e' = some o := by
    intro t' e' o ho
    have hretracted : (w.purgeEntity e).owner? t' e' = some o := by
      refine (closed_disowning C).foldl (f := fun w edge => w.retractEdge C e (some edge))
        (w.edgesOn C e) (w.purgeEntity e) (fun u edge hedge => ?_) t' e' o ho
      obtain ⟨t, -, ht⟩ := List.mem_filterMap.mp hedge
      exact (closed_disowning C).retractEdge (t := t) u e fun p hp =>
        Closed.role_edgeOn p ((Option.some.inj hp) ▸ ht)
    rw [owner?_purgeEntity] at hretracted
    split_ifs at hretracted with he
    exact ⟨he, hretracted⟩
  have hbefore := hpurged.trans hunlinked
  obtain ⟨hfreed, hevicted, hlosers⟩ := losers_freed (w.retractionsOn C e) hbefore.attributed
  refine ⟨⟨hfreed.inverses, hfreed.held⟩, fun o ho => ?_, fun o ho => ?_⟩
  · rcases hlosers o ho with ho | hA | ⟨p, hp, ho⟩
    · exact (hbefore.losers o ho).imp_right Or.inl
    · exact Or.inr (Or.inl hA)
    · obtain ⟨hne, howner⟩ := howners p.1 p.2 o ho
      by_cases hinverse : C.IsInverse p.1
      · exact Or.inr (Or.inl (h.inverses p.1 p.2 o hinverse howner))
      · exact Or.inr (Or.inr ⟨p, hp, hne, hinverse, howner⟩)
  · rcases List.mem_append.mp ho with ho | ho
    · rw [hevicted, hbefore.evicted] at ho
      exact Or.inl ho
    · exact Or.inr ((mem_ownersOn w e o).mp ho)

end Removals

section Commands

variable {owner : SystemInvocation}

/-- A command records the owners it strips, owners of inverses, and those it evicts. -/
theorem losers_command (h : w.Attributed C A) {c : Command α}
    (hown : ∀ t, C.IsInverse t → ¬ c.Spares t → A owner) (hc : c.apply C w owner = some w') :
    w'.Attributed C A ∧
      (∀ o ∈ w'.removedComponentOwners, o ∈ w.removedComponentOwners ∨ A o ∨ c.Strips C w owner o) ∧
      ∀ o ∈ w'.removedOwners, o ∈ w.removedOwners ∨
        ∃ e t, c = .removeEntity e ∧ w.owner? t e = some o := by
  have hquiet : LosesOnly C A w w' → w'.Attributed C A ∧
      (∀ o ∈ w'.removedComponentOwners,
        o ∈ w.removedComponentOwners ∨ A o ∨ c.Strips C w owner o) ∧
      ∀ o ∈ w'.removedOwners, o ∈ w.removedOwners ∨
        ∃ e t, c = .removeEntity e ∧ w.owner? t e = some o := by
    intro hlosers
    exact ⟨hlosers.attributed, fun o ho => (hlosers.losers o ho).imp_right Or.inl,
      fun o ho => Or.inl (hlosers.evicted ▸ ho)⟩
  cases c with
  | insert t e v =>
    exact hquiet (losesOnly_insert h (fun ht o ho => Option.some.inj ho ▸ hown t ht (fun hne => hne rfl)) hc)
  | removeComponent t e =>
    cases hc
    obtain ⟨hattributed, hlosers, hevicted⟩ := losers_removeComponent h t e (some owner)
    refine ⟨hattributed, fun o ho => ?_, fun o ho => Or.inl (hevicted ▸ ho)⟩
    rcases hlosers o ho with ho | hA | ⟨ho, hne⟩
    · exact Or.inl ho
    · exact Or.inr (Or.inl hA)
    · exact Or.inr (Or.inr ⟨ho, fun heq => hne (congrArg some heq.symm)⟩)
  | removeEntity e =>
    cases hc
    obtain ⟨hattributed, hlosers, hevicted⟩ := losers_removeEntity h e
    exact ⟨hattributed, hlosers, fun o ho => (hevicted o ho).imp_right fun ⟨t, ht⟩ => ⟨e, t, rfl, ht⟩⟩
  | spawn bundle reserved =>
    simp only [Command.apply, Option.bind_eq_bind, Option.bind_eq_some_iff] at hc
    obtain ⟨key, -, hc⟩ := hc
    obtain ⟨hstores, -, hpending, -⟩ := spawnTarget_spec w reserved key
    have hlists : SameLosers w (w.spawnTarget reserved key).2 := by
      cases key with
      | none => exact ⟨rfl, rfl⟩
      | some key =>
        unfold spawnTarget singletonEntityOrRegister
        dsimp only
        split <;> exact ⟨rfl, rfl⟩
    have hstart : LosesOnly C A w ((w.spawnTarget reserved key).2.recordDerivedSpawn owner
        (w.spawnTarget reserved key).1) :=
      .of_same h (fun t e o ho => owner?_congr hstores t e ▸ ho) hpending hlists
    refine hquiet (hstart.trans (.foldlM hc hstart.attributed fun u hu p hp u' hstep => ?_))
    exact losesOnly_insert hu (fun ht o ho => Option.some.inj ho ▸ hown p.1 ht
      fun hspares => hspares p hp rfl) hstep

theorem losers_applyCommands : ∀ {commands : List (Command α)} {w : World α}, w.Attributed C A →
    (∀ c ∈ commands, ∀ t, C.IsInverse t → ¬ c.Spares t → A owner) →
    w.applyCommands C owner commands = some w' →
      w'.Attributed C A ∧
        (∀ o ∈ w'.removedComponentOwners,
          o ∈ w.removedComponentOwners ∨ A o ∨ Strips C w owner commands o) ∧
        ∀ o ∈ w'.removedOwners, o ∈ w.removedOwners ∨ ∃ e, Evicts C w owner commands e o
  | [], w, h, _, ha => by
    cases ha
    exact ⟨h, fun _ => Or.inl, fun _ => Or.inl⟩
  | c :: commands, w, h, hown, ha => by
    obtain ⟨u, hu, hrest⟩ := (applyCommands_cons C).mp ha
    obtain ⟨hattributed, hlosers, hevicted⟩ := losers_command h (hown c List.mem_cons_self) hu
    obtain ⟨hattributed', hlosers', hevicted'⟩ := losers_applyCommands hattributed
      (fun c hc => hown c (List.mem_cons_of_mem _ hc)) hrest
    refine ⟨hattributed', fun o ho => ?_, fun o ho => ?_⟩
    · rcases hlosers' o ho with ho | hA | hstrips
      · exact (hlosers o ho).imp_right (Or.imp_right .here)
      · exact Or.inr (Or.inl hA)
      · exact Or.inr (Or.inr (.later hu hstrips))
    · rcases hevicted' o ho with ho | ⟨e, hevicts⟩
      · refine (hevicted o ho).imp_right ?_
        rintro ⟨e, t, rfl, howner⟩
        exact ⟨e, .here howner⟩
      · exact Or.inr ⟨e, .later hu hevicts⟩

/-- What an output leaves records the owners that its commands strip or evict. -/
theorem losers_applyOutput (h : w.Attributed C A) {output : SystemOutput α}
    (hown : ∀ c ∈ output.commands, ∀ t, C.IsInverse t → ¬ c.Spares t → A output.owner)
    (ha : w.applyOutput C output false = some w') :
    w'.Attributed C A ∧
      (∀ o ∈ w'.removedComponentOwners, o ∈ w.removedComponentOwners ∨ A o ∨
        Strips C (w.takeDerivedOutputs output.owner).2 output.owner output.commands o) ∧
      ∀ o ∈ w'.removedOwners, o ∈ w.removedOwners ∨
        ∃ e, Evicts C (w.takeDerivedOutputs output.owner).2 output.owner output.commands e o := by
  obtain ⟨applied, flushed, happly, hflush, rfl⟩ := exists_of_applyOutput ha
  have htaken : (w.takeDerivedOutputs output.owner).2.Attributed C A := ⟨h.inverses, h.held⟩
  obtain ⟨hattributed, hlosers, hevicted⟩ := losers_applyCommands htaken hown happly
  have hflushed := losesOnly_flushDerivedFrom hattributed hflush
  have hfinished : (flushed.finishDerivedSpawns output.owner).Attributed C A :=
    ⟨hflushed.attributed.inverses, hflushed.attributed.held⟩
  have hswept := losesOnly_removeDerivedStale hfinished output.owner (w.outputs output.owner)
  refine ⟨hswept.attributed, fun o ho => ?_, fun o ho => ?_⟩
  · rcases hswept.losers o ho with ho | hA
    · rcases hflushed.losers o ho with ho | hA
      · exact hlosers o ho
      · exact Or.inr (Or.inl hA)
    · exact Or.inr (Or.inl hA)
  · have hsame : flushed.removedOwners = applied.removedOwners := hflushed.evicted
    have hsame' : _ = flushed.removedOwners := hswept.evicted
    rw [hsame', hsame] at ho
    exact hevicted o ho

/-- In a reachable world only `DerivedFrom` facts are held back. -/
theorem attributed_of_reachable (h : Reachable C w) : w.Attributed C fun _ => True := by
  refine h.invariant (fun w => w.Attributed C fun _ => True) ?_ ?_
  · rintro _ ⟨schema, rfl⟩
    exact ⟨fun _ _ _ _ _ => trivial, nofun⟩
  · intro w op w' hw _ hop
    have hsame : w'.pendingDerivedFrom = w.pendingDerivedFrom → w'.Attributed C fun _ => True :=
      fun hp => ⟨fun _ _ _ _ _ => trivial, fun p hmem => hw.held p (hp ▸ hmem)⟩
    cases op with
    | base c =>
      cases c with
      | insert t e v => exact (losesOnly_insert hw (fun _ _ _ => trivial) hop).attributed
      | removeComponent t e =>
        cases hop
        exact (losers_removeComponent hw t e none).1
      | despawn e =>
        cases hop
        exact (losers_removeEntity hw e).1
    | flush => exact (losesOnly_flushDerivedFrom hw hop).attributed
    | output output deferInserts =>
      obtain ⟨applied, flushed, happly, hflush, rfl⟩ := exists_of_applyOutput hop
      have htaken : (w.takeDerivedOutputs output.owner).2.Attributed C fun _ => True :=
        ⟨hw.inverses, hw.held⟩
      have happlied := (losers_applyCommands htaken (fun _ _ _ _ _ => trivial) happly).1
      have hflushed := (losesOnly_flushDerivedFrom happlied hflush).attributed
      have hfinished : (flushed.finishDerivedSpawns output.owner).Attributed C fun _ => True :=
        ⟨hflushed.inverses, hflushed.held⟩
      exact (losesOnly_removeDerivedStale hfinished output.owner _).attributed
    | commands owner commands => exact (losers_applyCommands hw (fun _ _ _ _ _ => trivial) hop).1
    | update t e v =>
      cases hop
      refine hsame ?_
      unfold updateComponent
      split_ifs <;> exact (sameBuffers_restampEntry w t e v).pending
    | writeInPlace t e v =>
      cases hop
      refine hsame ?_
      unfold writeInPlace
      split <;> rfl
    | reconcileWritten writes =>
      cases hop
      exact hsame (sameBuffers_reconcileWritten w writes).pending
    | retireTouched keys systems =>
      cases hop
      exact hsame (retireOwners_pendingDerivedFrom _ w)
    | retireOwner o =>
      cases hop
      exact hsame (removeDerivedOwned_pendingDerivedFrom w o)
    | rollPlanEpoch =>
      cases hop
      refine hsame ?_
      unfold maybeRollPlanEpoch
      split_ifs <;> rfl
    | reserveSingleton key =>
      cases hop
      refine hsame ?_
      unfold singletonEntityOrSpawn
      split <;> rfl
    | drainRemovals | spawnEmpty =>
      cases hop
      exact hsame rfl

end Commands
end World

section Runs

variable {C} {A : SystemInvocation → Prop} {s s' : State α}

/-- The losers that a run records beyond those that the world held were stripped by one of its
outputs, or own an inverse. -/
theorem losers_publishOutputs : ∀ {outputs : List (SystemOutput α)} {s : State α},
    s.world.Attributed C A →
    (∀ output ∈ outputs, ∀ c ∈ output.commands, ∀ t, C.IsInverse t → ¬ c.Spares t →
      A output.owner) →
    publishOutputs C s outputs false = some s' →
      (∀ o ∈ s'.world.removedComponentOwners,
        o ∈ s.world.removedComponentOwners ∨ A o ∨ RunStrips C s.world outputs o) ∧
      ∀ o ∈ s'.world.removedOwners,
        o ∈ s.world.removedOwners ∨ ∃ e, RunEvicts C s.world outputs e o
  | [], _, _, _, hp => by
    cases hp
    exact ⟨fun _ => Or.inl, fun _ => Or.inl⟩
  | output :: outputs, s, h, hown, hp => by
    obtain ⟨w, hw, hrest⟩ := publishOutputs_cons hp
    obtain ⟨hattributed, hlosers, hevicted⟩ :=
      World.losers_applyOutput h (hown output List.mem_cons_self) hw
    obtain ⟨hlosers', hevicted'⟩ := losers_publishOutputs hattributed
      (fun output hmem => hown output (List.mem_cons_of_mem _ hmem)) hrest
    refine ⟨fun o ho => ?_, fun o ho => ?_⟩
    · rcases hlosers' o ho with ho | hA | hstrips
      · exact (hlosers o ho).imp_right (Or.imp_right .here)
      · exact Or.inr (Or.inl hA)
      · exact Or.inr (Or.inr (.later hw hstrips))
    · rcases hevicted' o ho with ho | ⟨e, hevicts⟩
      · exact (hevicted o ho).imp_right fun ⟨e, he⟩ => ⟨e, .here he⟩
      · exact Or.inr ⟨e, .later hw hevicts⟩

/-- Taking edges off their sources records the owner of each. -/
theorem World.recorded_freed {p : TypeId × Entity} {o : SystemInvocation}
    (hplain : ¬ C.IsInverse p.1) : ∀ (edges : List (TypeId × Entity)) {w : World α}, p ∈ edges →
      w.owner? p.1 p.2 = some o →
        o ∈ (edges.foldl (fun w q => w.removeComponent C q.1 q.2 none) w).removedComponentOwners
  | q :: edges, w, hmem, ho => by
    have hrest : (w.removeComponent C q.1 q.2 none).Grows
        (edges.foldl (fun w q => w.removeComponent C q.1 q.2 none)
          (w.removeComponent C q.1 q.2 none)) :=
      (closed_grows C).foldl edges _ fun u q _ =>
        (closed_grows C).removeComponent u q.1 q.2 none fun _ hnone => nomatch hnone
    by_cases hpq : p.1 = q.1 ∧ p.2 = q.2
    · rw [hpq.1, hpq.2] at ho
      have hdropped := (mem_losers_dropEntry (C := C) w q.1 q.2 none).mpr (Or.inr ⟨ho, nofun⟩)
      have hretracted : (w.dropEntry C q.1 q.2 none).Grows (w.removeComponent C q.1 q.2 none) :=
        (closed_grows C).retractEdge _ q.2 Closed.role_edgeOn
      exact hrest.componentOwners.subset (hretracted.componentOwners.subset hdropped)
    · refine World.recorded_freed hplain edges ?_ ?_
      · exact (List.mem_cons.mp hmem).resolve_left fun heq => hpq ⟨by rw [heq], by rw [heq]⟩
      · have hedge : w.edgeOn C q.1 q.2 ≠ some (p.1, p.2) := fun hp =>
          hplain (isInverse_edgeOn C hp)
        show ((w.dropEntry C q.1 q.2 none).retractEdge C q.2 (w.edgeOn C q.1 q.2)).owner? p.1 p.2 =
          some o
        rw [owner?, cell?_retractEdge C _ _ _ _ _ hedge, cell?_dropEntry, if_neg hpq]
        exact ho

/-- A removal command records the owners that it strips. -/
theorem Command.Strips.recorded {w w' : World α} {owner o : SystemInvocation} {c : Command α}
    (h : c.Strips C w owner o) (hc : c.apply C w owner = some w') :
    o ∈ w'.removedComponentOwners := by
  cases c with
  | removeComponent t e =>
    cases hc
    obtain ⟨howner, hne⟩ := h
    have hdropped := (World.mem_losers_dropEntry (C := C) w t e (some owner)).mpr
      (Or.inr ⟨howner, fun heq => hne (Option.some.inj heq).symm⟩)
    have hgrows : (w.dropEntry C t e (some owner)).Grows (w.removeComponent C t e (some owner)) :=
      (World.closed_grows C).retractEdge _ e Closed.role_edgeOn
    exact hgrows.componentOwners.subset hdropped
  | removeEntity e =>
    cases hc
    obtain ⟨p, hmem, hne, hplain, howner⟩ := h
    refine World.recorded_freed hplain (w.retractionsOn C e) hmem ?_
    have hpurged : (w.purgeEntity e).owner? p.1 p.2 = some o := by
      rw [World.owner?_purgeEntity, if_neg hne]
      exact howner
    refine List.foldlRecOn (w.edgesOn C e) _
      (motive := fun u : World α => u.owner? p.1 p.2 = some o) hpurged fun u hu edge hedge => ?_
    obtain ⟨t, -, ht⟩ := List.mem_filterMap.mp hedge
    have hother : some edge ≠ some (p.1, p.2) := fun heq =>
      hplain (World.isInverse_edgeOn C (ht.trans heq))
    rw [World.owner?, World.cell?_retractEdge C _ _ _ _ _ hother]
    exact hu
  | insert _ _ _ | spawn _ _ => cases h

theorem Strips.recorded {w : World α} {owner o : SystemInvocation} {commands : List (Command α)}
    (h : Strips C w owner commands o) : ∀ {w' : World α},
      w.applyCommands C owner commands = some w' → o ∈ w'.removedComponentOwners := by
  induction h with
  | here h =>
    intro w' ha
    obtain ⟨u, hu, hrest⟩ := (World.applyCommands_cons C).mp ha
    exact ((World.closed_grows C).applyCommands hrest (Permits.grants_all _)).componentOwners.subset
      (h.recorded hu)
  | later hc _ ih =>
    intro w' ha
    obtain ⟨u, hu, hrest⟩ := (World.applyCommands_cons C).mp ha
    exact ih (Option.some.inj (hc.symm.trans hu) ▸ hrest)

/-- A run records every owner that one of its outputs strips. -/
theorem RunStrips.recorded {w : World α} {outputs : List (SystemOutput α)} {o : SystemInvocation}
    (h : RunStrips C w outputs o) : ∀ {s s' : State α}, s.world = w →
      publishOutputs C s outputs false = some s' → o ∈ s'.world.removedComponentOwners := by
  induction h with
  | here h =>
    rintro s s' rfl hp
    obtain ⟨w, hw, hrest⟩ := publishOutputs_cons hp
    obtain ⟨applied, happly, hgrows⟩ := World.applyOutput_commands C hw
    exact (hgrows.trans (publishOutputs_frame hrest).2).componentOwners.subset (h.recorded happly)
  | later ha _ ih =>
    rintro s s' rfl hp
    obtain ⟨w, hw, hrest⟩ := publishOutputs_cons hp
    exact ih (Option.some.inj (hw.symm.trans ha)) hrest

end Runs
end Porridge
