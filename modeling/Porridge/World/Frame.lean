import Porridge.Lib.Fold
import Porridge.Commands

/-! Relations between worlds that are closed under the store effects. -/
namespace Porridge

variable {α : Type} (C : Components α)

/-- The stores and what is stamped with them are unchanged, and no entity is removed and no
component lost; the owners of removed components may be recorded. -/
structure Bookkeeping (w w' : World α) : Prop where
  stores : w'.stores = w.stores
  derivedOwners : w'.derivedOwners = w.derivedOwners
  revision : w'.revision = w.revision
  mutations : w'.mutations = w.mutations
  writeLog : w'.writeLog = w.writeLog
  planEpoch : w'.planEpoch = w.planEpoch
  presence : w'.presence = w.presence
  removedEntities : w'.removedEntities = w.removedEntities
  removedOwners : w.removedOwners <+: w'.removedOwners
  removedComponentOwners : w'.removedComponentOwners = w.removedComponentOwners

theorem Bookkeeping.rfl {w : World α} : Bookkeeping w w :=
  ⟨Eq.refl _, Eq.refl _, Eq.refl _, Eq.refl _, Eq.refl _, Eq.refl _, Eq.refl _, Eq.refl _,
    List.prefix_rfl, Eq.refl _⟩

/-- Which effects a sequence of world operations may have. -/
structure Permits where
  writes : TypeId → Entity → Option SystemInvocation → Prop
  /-- Removals of a component by the invocation that owns it. -/
  drops : TypeId → Entity → SystemInvocation → Prop
  sweeps : TypeId → Entity → SystemInvocation → Prop
  purges : Entity → Prop
  /-- Changes of the deferred `DerivedFrom` inserts. -/
  defers : Prop

namespace Permits

def all : Permits :=
  ⟨fun _ _ _ => True, fun _ _ _ => True, fun _ _ _ => True, fun _ => True, True⟩

/-- Removals and writes of base facts. -/
def base : Permits :=
  ⟨fun _ _ o => o = none, fun _ _ _ => True, fun _ _ _ => True, fun _ => True, True⟩

structure Grants (P : Permits) (o : SystemInvocation) : Prop where
  writes : ∀ t e, P.writes t e (some o)
  drops : ∀ t e, P.drops t e o
  purges : ∀ e, P.purges e
  defers : P.defers

theorem grants_all (o : SystemInvocation) : Permits.all.Grants o :=
  ⟨fun _ _ => trivial, fun _ _ => trivial, fun _ => trivial, trivial⟩

end Permits

/-- A preorder that holds across every store effect that `P` permits. -/
structure Closed (R : World α → World α → Prop) (P : Permits) : Prop where
  refl : ∀ w, R w w
  trans : ∀ {a b c}, R a b → R b c → R a c
  bookkeeping : ∀ {w w'}, Bookkeeping w w' →
    (P.defers ∨ w'.pendingDerivedFrom = w.pendingDerivedFrom) → R w w'
  write : ∀ w t e v o, P.writes t e o → R w (w.writeEntry C t e v o)
  drop : ∀ w t e remover, (∀ o, remover = some o → P.drops t e o) →
    R w (w.dropEntry C t e remover)
  sweep : ∀ w t e o, P.sweeps t e o → R w (w.sweepEntry t e o)
  purge : ∀ w e, P.purges e → R w (w.purgeEntity e)
  /-- The engine maintains every inverse as a base fact. -/
  inverse : ∀ t e edge, C.role t = .inverse edge → P.writes t e none

namespace Closed

variable {C} {R : World α → World α → Prop} {P : Permits} (h : Closed C R P)

include h

/-- What a world has come to relate to stays related under further effects. -/
theorem after (w₀ : World α) : Closed C (fun w w' => R w₀ w → R w₀ w') P where
  refl _ := id
  trans hab hbc := hbc ∘ hab
  bookkeeping hb hd hw := h.trans hw (h.bookkeeping hb hd)
  write w t e v o ho hw := h.trans hw (h.write w t e v o ho)
  drop w t e remover hd hw := h.trans hw (h.drop w t e remover hd)
  sweep w t e o ho hw := h.trans hw (h.sweep w t e o ho)
  purge w e he hw := h.trans hw (h.purge w e he)
  inverse := h.inverse

theorem foldl {ι : Type} {f : World α → ι → World α} (xs : List ι) (w : World α)
    (step : ∀ w, ∀ x ∈ xs, R w (f w x)) : R w (xs.foldl f w) :=
  List.foldlRecOn xs f (h.refl w) fun _ hb x hx => h.trans hb (step _ x hx)

theorem foldlM {ι : Type} {f : World α → ι → Option (World α)} (xs : List ι) {w w' : World α}
    (hf : xs.foldlM f w = some w') (step : ∀ w w', ∀ x ∈ xs, f w x = some w' → R w w') :
    R w w' :=
  List.foldlM_some_induction (R w) xs hf (h.refl w)
    fun _ _ _ hx hs hstep => h.trans hs (step _ _ _ hx hstep)

theorem relationshipRemoveMember (w : World α) {inverse edge : TypeId} (source target : Entity)
    (hr : C.role inverse = .inverse edge) :
    R w (w.relationshipRemoveMember C inverse source target) := by
  unfold World.relationshipRemoveMember
  split
  · exact h.refl w
  · dsimp only
    split_ifs
    · exact h.drop _ _ _ _ fun _ ho => nomatch ho
    · exact h.write _ _ _ _ _ (h.inverse _ _ _ hr)
    · exact h.refl w

theorem relationshipAddMember (w : World α) {inverse edge : TypeId} (source target : Entity)
    (hr : C.role inverse = .inverse edge) :
    R w (w.relationshipAddMember C inverse source target) := by
  unfold World.relationshipAddMember
  dsimp only
  split_ifs
  · exact h.refl w
  · exact h.write _ _ _ _ _ (h.inverse _ _ _ hr)

theorem retractEdge (w : World α) (source : Entity) {t : TypeId}
    {edge : Option (TypeId × Entity)} (hr : ∀ p ∈ edge, C.role p.1 = .inverse t) :
    R w (w.retractEdge C source edge) := by
  cases edge with
  | none => exact h.refl w
  | some p => exact h.relationshipRemoveMember w source p.2 (hr p rfl)

theorem establishEdge (w : World α) (source : Entity) {t : TypeId}
    {edge : Option (TypeId × Entity)} (hr : ∀ p ∈ edge, C.role p.1 = .inverse t) :
    R w (w.establishEdge C source edge) := by
  cases edge with
  | none => exact h.refl w
  | some p => exact h.relationshipAddMember w source p.2 (hr p rfl)

omit h in
theorem role_edgeOn {w : World α} {t : TypeId} {e : Entity} :
    ∀ p ∈ w.edgeOn C t e, C.role p.1 = .inverse t := by
  intro p hp
  obtain ⟨x, -, hx⟩ := Option.bind_eq_some_iff.mp hp
  exact C.inverse_of_relationshipEdge hx

theorem insertEntry (w : World α) (t : TypeId) (e : Entity) (v : Value α)
    (o : Option SystemInvocation) (hw : P.writes t e o) : R w (w.insertEntry C t e v o) := by
  have hwrite := h.write w t e v o hw
  unfold World.insertEntry
  dsimp only
  split_ifs
  · exact hwrite
  · have hretract := h.retractEdge (w.writeEntry C t e v o) e (role_edgeOn (w := w) (t := t) (e := e))
    refine h.trans hwrite (h.trans hretract (h.establishEdge (t := t) _ e ?_))
    exact fun p hp => C.inverse_of_relationshipEdge hp

theorem registerSingleton {w w' : World α} {t : TypeId} {e : Entity}
    (hw : w.registerSingleton C t e = some w') : R w w' := by
  unfold World.registerSingleton at hw
  split at hw
  · cases hw; exact h.refl w
  · split at hw
    · split_ifs at hw
      cases hw; exact h.refl w
    · cases hw
      exact h.bookkeeping { Bookkeeping.rfl with } (Or.inr rfl)

theorem insertNow {w w' : World α} {t : TypeId} {e : Entity} {v : Value α}
    {o : Option SystemInvocation} (hins : w.insertNow C t e v o = some w')
    (hw : P.writes t e o) : R w w' := by
  obtain ⟨u, hu, rfl⟩ := Option.map_eq_some_iff.mp hins
  exact h.trans (h.registerSingleton hu) (h.insertEntry u t e v o hw)

theorem insert {w w' : World α} {t : TypeId} {e : Entity} {v : Value α}
    {o : Option SystemInvocation} (hins : w.insert C t e v o = some w') (hw : P.writes t e o)
    (hd : P.defers) : R w w' := by
  unfold World.insert at hins
  split at hins
  · cases hins
    exact h.bookkeeping { Bookkeeping.rfl with } (Or.inl hd)
  · exact h.insertNow hins hw

theorem removeComponent (w : World α) (t : TypeId) (e : Entity)
    (remover : Option SystemInvocation) (hd : ∀ o, remover = some o → P.drops t e o) :
    R w (w.removeComponent C t e remover) :=
  h.trans (h.drop w t e remover hd) (h.retractEdge _ e role_edgeOn)

theorem removeDerivedEntry (w : World α) (t : TypeId) (e : Entity) {o : SystemInvocation}
    (hs : P.sweeps t e o) : R w (w.removeDerivedEntry C t e o) := by
  unfold World.removeDerivedEntry
  split_ifs
  · exact h.trans (h.sweep w t e o hs) (h.retractEdge _ e role_edgeOn)
  · exact h.refl w

theorem removeDerivedEntries (w : World α) {o : SystemInvocation}
    (pairs : List (TypeId × Entity)) (hs : ∀ p ∈ pairs, P.sweeps p.1 p.2 o) :
    R w (w.removeDerivedEntries C o pairs) :=
  h.foldl pairs w fun w p hp => h.removeDerivedEntry w p.1 p.2 (hs p hp)

theorem removeDerivedStale (w : World α) {o : SystemInvocation}
    (previous : List (TypeId × Entity)) (hs : ∀ p ∈ previous, P.sweeps p.1 p.2 o) :
    R w (w.removeDerivedStale C o previous) := by
  refine h.foldl previous w fun w p hp => ?_
  split_ifs
  · exact h.refl w
  · exact h.removeDerivedEntry w p.1 p.2 (hs p hp)

/-- What the removal of an entity does once its components are gone. -/
theorem unlinkEntity (w : World α) (e : Entity) : R (w.purgeEntity e) (w.removeEntity C e) := by
  have hedges := h.foldl (f := fun w edge => w.retractEdge C e (some edge)) (w.edgesOn C e)
    (w.purgeEntity e) fun w edge hmem => by
      obtain ⟨t, -, ht⟩ := List.mem_filterMap.mp hmem
      exact h.retractEdge (t := t) w e fun p hp =>
        role_edgeOn p (by simp only [Option.mem_def, Option.some.injEq] at hp; exact hp ▸ ht)
  have hretractions := fun u => h.foldl
    (f := fun w edge => w.removeComponent C edge.1 edge.2 none) (w.retractionsOn C e) u
    fun w edge _ => h.removeComponent w edge.1 edge.2 none fun _ ho => nomatch ho
  refine h.trans hedges (h.trans (hretractions _) (h.bookkeeping ?_ (Or.inr rfl)))
  exact { Bookkeeping.rfl with removedOwners := List.prefix_append _ _ }

theorem removeEntity (w : World α) (e : Entity) (hp : P.purges e) :
    R w (w.removeEntity C e) := h.trans (h.purge w e hp) (h.unlinkEntity w e)

/-- What a spawn does before its bundle lands. -/
theorem spawnSlot (w : World α) (o : SystemInvocation) (reserved : Entity) (key : Option TypeId) :
    R w ((w.spawnTarget reserved key).2.recordDerivedSpawn o (w.spawnTarget reserved key).1) := by
  have htarget : R w (w.spawnTarget reserved key).2 := by
    cases key with
    | none => exact h.refl w
    | some key =>
      simp only [World.spawnTarget, World.singletonEntityOrRegister]
      split
      · exact h.refl w
      · exact h.bookkeeping { Bookkeeping.rfl with } (Or.inr rfl)
  exact h.trans htarget (h.bookkeeping { Bookkeeping.rfl with } (Or.inr rfl))

/-- Applying a command issued by `o`, when the effects of such a command are permitted. -/
theorem commandOf {w w' : World α} {o : SystemInvocation} {c : Command α}
    (hc : c.apply C w o = some w') (hw : ∀ t e, P.writes t e (some o))
    (hdrops : ∀ t e, P.drops t e o) (hpurges : ∀ e, c = .removeEntity e → P.purges e)
    (hd : P.defers) : R w w' := by
  cases c with
  | insert t e v => exact h.insert hc (hw t e) hd
  | removeEntity e => cases hc; exact h.removeEntity w e (hpurges e rfl)
  | removeComponent t e =>
    cases hc
    exact h.removeComponent w t e (some o) fun _ ho => Option.some.inj ho ▸ hdrops t e
  | spawn bundle reserved =>
    simp only [Command.apply, Option.bind_eq_bind, Option.bind_eq_some_iff] at hc
    obtain ⟨key, -, hc⟩ := hc
    refine h.trans (h.spawnSlot w o reserved key) (h.foldlM bundle hc ?_)
    exact fun _ _ p _ hp => h.insert hp (hw _ _) hd

/-- Applying a command issued by `o`, when whatever it does is permitted. -/
theorem command {w w' : World α} {o : SystemInvocation} {c : Command α}
    (hc : c.apply C w o = some w') (hg : P.Grants o) : R w w' :=
  h.commandOf hc hg.writes hg.drops (fun e _ => hg.purges e) hg.defers

theorem applyCommands {w w' : World α} {o : SystemInvocation} {commands : List (Command α)}
    (hc : w.applyCommands C o commands = some w') (hg : P.Grants o) : R w w' :=
  h.foldlM commands hc fun _ _ _ _ hstep => h.command hstep hg

theorem baseCommand {w w' : World α} {c : BaseCommand α} (hc : c.apply C w = some w')
    (hw : ∀ t e, P.writes t e none) (hp : ∀ e, P.purges e) (hd : P.defers) : R w w' := by
  cases c with
  | insert t e v => exact h.insert hc (hw t e) hd
  | removeComponent t e =>
    cases hc
    exact h.removeComponent w t e none fun _ ho => nomatch ho
  | despawn e => cases hc; exact h.removeEntity w e (hp e)

theorem applyBase {w w' : World α} {commands : List (BaseCommand α)}
    (hc : w.applyBase C commands = some w') (hw : ∀ t e, P.writes t e none)
    (hp : ∀ e, P.purges e) (hd : P.defers) : R w w' :=
  h.foldlM commands hc fun _ _ _ _ hstep => h.baseCommand hstep hw hp hd

/-- Flushing writes each pending fact as its own owner. -/
theorem flushDerivedFrom {w w' : World α} (hf : w.flushDerivedFrom C = some w')
    (hw : ∀ p ∈ w.pendingDerivedFrom, P.writes p.component p.entity p.owner) (hd : P.defers) :
    R w w' := by
  obtain ⟨u, hu, rfl⟩ := Option.map_eq_some_iff.mp hf
  have hstart : R w { w with pendingDerivedFrom := [], flushingAnchors := true } :=
    h.bookkeeping { Bookkeeping.rfl with } (Or.inl hd)
  have hfold := h.foldlM _ hu fun _ _ p hmem hp => h.insert hp (hw p hmem) hd
  exact h.trans hstart (h.trans hfold (h.bookkeeping { Bookkeeping.rfl with } (Or.inr rfl)))

end Closed
end Porridge
