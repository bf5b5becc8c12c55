import Porridge.World.Coherence

/-! Two worlds that run side by side: the same components and bookkeeping, stamped by two clocks. -/
namespace Porridge

/-- How the revisions of two worlds correspond while both run. -/
structure Clocks where
  /-- The revisions that the two copies of an entry may carry. -/
  stamps : Revision → Revision → Prop
  /-- The watermarks that the two copies of a store may carry. -/
  marks : Revision → Revision → Prop
  /-- The two revision counters. -/
  sync : Revision → Revision → Prop
  tick : ∀ {a b}, sync a b → stamps (a + 1) (b + 1) ∧ sync (a + 1) (b + 1)
  raise : ∀ {x y m n}, marks x y → stamps m n → marks (max x m) (max y n)
  renew : ∀ {a b x y m n}, sync a b → marks x y → a < m → b < n → marks (max x m) (max y n)

theorem Clocks.ticks (K : Clocks) {a b : Revision} (h : K.sync a b) : ∀ n, K.sync (a + n) (b + n)
  | 0 => h
  | n + 1 => (K.tick (K.ticks h n)).2

/-- Two copies of one entry: only their cells and revisions may differ. -/
structure Entry.Twin {α : Type} (K : Clocks) (x y : Entry α) : Prop where
  value : y.value = x.value
  fingerprint : y.fingerprint = x.fingerprint
  owner : y.owner = x.owner
  stamp : K.stamps x.revision y.revision

namespace World

variable {α : Type}

/-- What is kept beside the stores is the same: allocator, singletons, ownership, spawn slots and
deferred anchors. -/
structure SameBooks (w w' : World α) : Prop where
  entities : w'.nextEntity = w.nextEntity
  singletons : ∀ key, w'.singletonEntities.lookup key = w.singletonEntities.lookup key
  outputs : ∀ o, w'.outputs o = w.outputs o
  spawns : ∀ o, w'.derivedSpawns.lookup o = w.derivedSpawns.lookup o
  cursors : ∀ o, w'.spawnCursors.lookup o = w.spawnCursors.lookup o
  pending : w'.pendingDerivedFrom = w.pendingDerivedFrom
  flushing : w'.flushingAnchors = w.flushingAnchors

/-- The same components on the same entities, and the same bookkeeping. -/
structure Twins (K : Clocks) (w w' : World α) : Prop where
  cells : ∀ t e, Option.Rel (Entry.Twin K) (w.cell? t e) (w'.cell? t e)
  marks : ∀ t, K.marks (w.storeWatermark t) (w'.storeWatermark t)
  clock : K.sync w.revision w'.revision
  books : SameBooks w w'

variable {K : Clocks} {w w' u u' : World α}

section Reads

theorem Twins.cases (h : Twins K w w') (t : TypeId) (e : Entity) :
    (w.cell? t e = none ∧ w'.cell? t e = none) ∨
      ∃ x y, w.cell? t e = some x ∧ w'.cell? t e = some y ∧ x.Twin K y := by
  have hcell := h.cells t e
  generalize w.cell? t e = x at hcell ⊢
  generalize w'.cell? t e = y at hcell ⊢
  cases hcell with
  | none => exact Or.inl ⟨rfl, rfl⟩
  | some hxy => exact Or.inr ⟨_, _, rfl, rfl, hxy⟩

/-- A reading of the stored entries that twin entries share. -/
theorem Twins.map_eq {β : Type} (h : Twins K w w') {f : Entry α → β}
    (hf : ∀ x y : Entry α, x.Twin K y → f y = f x) (t : TypeId) (e : Entity) :
    (w'.cell? t e).map f = (w.cell? t e).map f := by
  rcases h.cases t e with ⟨hx, hy⟩ | ⟨x, y, hx, hy, hxy⟩
  · rw [hx, hy]
  · rw [hx, hy, Option.map_some, Option.map_some, hf x y hxy]

theorem Twins.bind_eq {β : Type} (h : Twins K w w') {f : Entry α → Option β}
    (hf : ∀ x y : Entry α, x.Twin K y → f y = f x) (t : TypeId) (e : Entity) :
    (w'.cell? t e).bind f = (w.cell? t e).bind f := by
  rcases h.cases t e with ⟨hx, hy⟩ | ⟨x, y, hx, hy, hxy⟩
  · rw [hx, hy]
  · rw [hx, hy, Option.bind_some, Option.bind_some, hf x y hxy]

theorem Twins.value (h : Twins K w w') (t : TypeId) (e : Entity) :
    (w'.cell? t e).map Entry.value = (w.cell? t e).map Entry.value :=
  h.map_eq (fun _ _ hxy => hxy.value) t e

theorem Twins.has (h : Twins K w w') (t : TypeId) (e : Entity) : w'.has t e = w.has t e := by
  have hvalue := congrArg Option.isSome (h.value t e)
  rwa [Option.isSome_map, Option.isSome_map] at hvalue

theorem Twins.owner? (h : Twins K w w') (t : TypeId) (e : Entity) :
    w'.owner? t e = w.owner? t e := h.bind_eq (fun _ _ hxy => hxy.owner) t e

theorem Twins.fingerprintOn (h : Twins K w w') (t : TypeId) (e : Entity) :
    w'.fingerprintOn t e = w.fingerprintOn t e := h.bind_eq (fun _ _ hxy => hxy.fingerprint) t e

theorem Twins.edgeOn (C : Components α) (h : Twins K w w') (t : TypeId) (e : Entity) :
    w'.edgeOn C t e = w.edgeOn C t e :=
  h.bind_eq (fun x y hxy => by rw [hxy.value]) t e

theorem Twins.fingerprintMatches (C : Components α) (h : Twins K w w') (t : TypeId) (e : Entity)
    (v : Value α) : w'.fingerprintMatches C t e v = w.fingerprintMatches C t e v := by
  unfold World.fingerprintMatches
  rcases h.cases t e with ⟨hx, hy⟩ | ⟨x, y, hx, hy, hxy⟩
  · rw [hx, hy]
  · rw [hx, hy, Option.any_some, Option.any_some, hxy.fingerprint]

theorem Twins.amends (C : Components α) (h : Twins K w w') (t : TypeId) (e : Entity)
    (v : Value α) : w'.amends C t e v = w.amends C t e v := by
  unfold World.amends
  rcases h.cases t e with ⟨hx, hy⟩ | ⟨x, y, hx, hy, hxy⟩
  · rw [hx, hy]
  · rw [hx, hy, Option.any_some, Option.any_some, hxy.fingerprint]

/-- A write keeps the old revisions of both copies, or of neither. -/
theorem Twins.keptRevision (C : Components α) (h : Twins K w w') (t : TypeId) (e : Entity)
    (v : Value α) :
    Option.Rel K.stamps (w.keptRevision C t e v) (w'.keptRevision C t e v) := by
  unfold World.keptRevision
  rw [h.fingerprintMatches]
  split_ifs
  · unfold revisionByType
    rcases h.cases t e with ⟨hx, hy⟩ | ⟨x, y, hx, hy, hxy⟩
    · rw [hx, hy]
      exact .none
    · rw [hx, hy]
      exact .some hxy.stamp
  · exact .none

end Reads

section Books

theorem SameBooks.refl (w : World α) : SameBooks w w :=
  ⟨rfl, fun _ => rfl, fun _ => rfl, fun _ => rfl, fun _ => rfl, rfl, rfl⟩

theorem SameBooks.symm (h : SameBooks w w') : SameBooks w' w :=
  ⟨h.entities.symm, fun key => (h.singletons key).symm, fun o => (h.outputs o).symm,
    fun o => (h.spawns o).symm, fun o => (h.cursors o).symm, h.pending.symm, h.flushing.symm⟩

theorem SameBooks.trans (h : SameBooks w u) (h' : SameBooks u w') : SameBooks w w' :=
  ⟨h'.entities.trans h.entities, fun key => (h'.singletons key).trans (h.singletons key),
    fun o => (h'.outputs o).trans (h.outputs o), fun o => (h'.spawns o).trans (h.spawns o),
    fun o => (h'.cursors o).trans (h.cursors o), h'.pending.trans h.pending,
    h'.flushing.trans h.flushing⟩

/-- The books do not depend on the stores, the counters or the log. -/
theorem SameBooks.off (h : SameBooks w w') (c c' : Nat) (r r' : Revision) (m m' : Nat)
    (s s' : Dict TypeId (Store α)) (p p' : Option PresenceIndex) (l l' : List (TypeId × Entity)) :
    SameBooks
      { w with
        nextCell := c, revision := r, mutations := m, stores := s, presence := p, writeLog := l }
      { w' with
        nextCell := c', revision := r', mutations := m', stores := s', presence := p'
        writeLog := l' } :=
  ⟨h.entities, h.singletons, h.outputs, h.spawns, h.cursors, h.pending, h.flushing⟩

/-- Only the ownership index moves, and alike. -/
theorem SameBooks.outputs_of (h : SameBooks w w') {owners owners' : Dict SystemInvocation
    (List (TypeId × Entity))} (howners : ∀ o, Dict.getD owners' o [] = Dict.getD owners o []) :
    SameBooks { w with derivedOwners := owners } { w' with derivedOwners := owners' } :=
  ⟨h.entities, h.singletons, howners, h.spawns, h.cursors, h.pending, h.flushing⟩

theorem outputs_unindexDerived (w : World α) (o o' : SystemInvocation) (t : TypeId) (e : Entity) :
    (w.unindexDerived o t e).outputs o' =
      if o' = o then (w.outputs o).filter (· ≠ (t, e)) else w.outputs o' := by
  unfold unindexDerived
  cases hpairs : w.derivedOwners.lookup o with
  | none =>
    have hempty : w.outputs o = [] := by rw [World.outputs, Dict.getD, hpairs]; rfl
    split_ifs with ho
    · rw [ho, hempty]
      rfl
    · rfl
  | some pairs =>
    have hlisted : w.outputs o = pairs := by rw [World.outputs, Dict.getD, hpairs]; rfl
    rw [hlisted]
    dsimp only
    split_ifs with hnone ho ho
    · rw [World.outputs, Dict.getD_erase, if_pos ho, hnone]
    · rw [World.outputs, Dict.getD_erase, if_neg ho]
      rfl
    · rw [World.outputs, Dict.getD_insert, if_pos ho]
    · rw [World.outputs, Dict.getD_insert, if_neg ho]
      rfl

theorem SameBooks.unindexDerived (h : SameBooks w w') (o : SystemInvocation) (t : TypeId)
    (e : Entity) : SameBooks (w.unindexDerived o t e) (w'.unindexDerived o t e) := by
  have houtputs : ∀ o', (w'.unindexDerived o t e).outputs o' =
      (w.unindexDerived o t e).outputs o' := by
    intro o'
    rw [outputs_unindexDerived, outputs_unindexDerived, h.outputs, h.outputs]
  obtain ⟨owners, howners⟩ := unindexDerived_eq w t e o
  obtain ⟨owners', howners'⟩ := unindexDerived_eq w' t e o
  rw [howners, howners'] at houtputs ⊢
  exact h.outputs_of houtputs

theorem SameBooks.indexDerived (h : SameBooks w w') (o : SystemInvocation) (t : TypeId)
    (e : Entity) : SameBooks (w.indexDerived o t e) (w'.indexDerived o t e) := by
  refine h.outputs_of fun o' => ?_
  rw [Dict.getD_insert, Dict.getD_insert, h.outputs]
  split_ifs
  · rfl
  · exact h.outputs o'

theorem SameBooks.reindexDerived (h : SameBooks w w') (t : TypeId) (e : Entity)
    (previous o : Option SystemInvocation) :
    SameBooks (w.reindexDerived t e previous o) (w'.reindexDerived t e previous o) := by
  unfold World.reindexDerived
  cases previous with
  | none =>
    cases o with
    | none => exact h
    | some o => exact h.indexDerived o t e
  | some p =>
    have hunindexed : SameBooks (if o = some p then w else w.unindexDerived p t e)
        (if o = some p then w' else w'.unindexDerived p t e) := by
      split_ifs
      · exact h
      · exact h.unindexDerived p t e
    cases o with
    | none => exact hunindexed
    | some o => exact hunindexed.indexDerived o t e

theorem SameBooks.disownEntry (h : SameBooks w w') (t : TypeId) (e : Entity)
    (owner remover : Option SystemInvocation) :
    SameBooks (w.disownEntry t e owner remover) (w'.disownEntry t e owner remover) := by
  unfold World.disownEntry
  cases owner with
  | none => exact h
  | some o =>
    have hunindexed := h.unindexDerived o t e
    dsimp only
    split_ifs
    · exact hunindexed
    · exact ⟨hunindexed.entities, hunindexed.singletons, hunindexed.outputs, hunindexed.spawns,
        hunindexed.cursors, hunindexed.pending, hunindexed.flushing⟩

theorem SameBooks.unregisterSingleton (C : Components α) (h : SameBooks w w') (t : TypeId)
    (e : Entity) : SameBooks (w.unregisterSingleton C t e) (w'.unregisterSingleton C t e) := by
  unfold World.unregisterSingleton
  cases C.singletonKey t with
  | none => exact h
  | some key =>
    dsimp only
    rw [h.singletons]
    split_ifs
    · refine ⟨h.entities, fun key' => ?_, h.outputs, h.spawns, h.cursors, h.pending, h.flushing⟩
      rw [Dict.lookup_erase, Dict.lookup_erase, h.singletons]
    · exact h

end Books

section Effects

variable (C : Components α)

/-- Nothing but the bookkeeping moves. -/
theorem Twins.keep (h : Twins K w w') (hs : u.stores = w.stores) (hs' : u'.stores = w'.stores)
    (hr : u.revision = w.revision) (hr' : u'.revision = w'.revision) (hbooks : SameBooks u u') :
    Twins K u u' where
  cells t e := by
    rw [cell?_congr hs, cell?_congr hs']
    exact h.cells t e
  marks t := by
    rw [storeWatermark, storeWatermark, store_congr hs, store_congr hs']
    exact h.marks t
  clock := by
    rw [hr, hr']
    exact h.clock
  books := hbooks

/-- The copies of one entry are rebound alike. -/
theorem Twins.rebind (h : Twins K w w') {t : TypeId} {e : Entity} {x y : Option (Entry α)}
    {m n : Revision}
    (hcell : ∀ t' e', u.cell? t' e' = if t' = t ∧ e' = e then x else w.cell? t' e')
    (hcell' : ∀ t' e', u'.cell? t' e' = if t' = t ∧ e' = e then y else w'.cell? t' e')
    (hmark : ∀ t', u.storeWatermark t' =
      if t' = t then max (w.storeWatermark t) m else w.storeWatermark t')
    (hmark' : ∀ t', u'.storeWatermark t' =
      if t' = t then max (w'.storeWatermark t) n else w'.storeWatermark t')
    (hxy : Option.Rel (Entry.Twin K) x y)
    (hmn : K.marks (max (w.storeWatermark t) m) (max (w'.storeWatermark t) n))
    (hclock : K.sync u.revision u'.revision) (hbooks : SameBooks u u') : Twins K u u' where
  cells t' e' := by
    rw [hcell, hcell']
    split_ifs
    · exact hxy
    · exact h.cells t' e'
  marks t' := by
    rw [hmark, hmark']
    split_ifs
    · exact hmn
    · exact h.marks t'
  clock := hclock
  books := hbooks

theorem storeWatermark_writeEntry (w : World α) (t t' : TypeId) (e : Entity) (v : Value α)
    (o : Option SystemInvocation) : (w.writeEntry C t e v o).storeWatermark t' =
      if t' = t then
        max (w.storeWatermark t) ((w.keptRevision C t e v).getD (w.revision + 1))
      else w.storeWatermark t' := by
  have hput := storeWatermark_putEntry w t t' e
    ⟨w.nextCell, v, (w.keptRevision C t e v).getD (w.revision + 1), C.fingerprint t v, o⟩
    ((w.keptRevision C t e v).getD (w.revision + 1))
  rw [← hput, World.storeWatermark, World.storeWatermark, store_congr (writeEntry_stores ..)]
  rfl

/-- The stamp of a write, and both counters after it. -/
theorem Twins.stamp (h : Twins K w w') (t : TypeId) (e : Entity) (v : Value α) :
    K.stamps ((w.keptRevision C t e v).getD (w.revision + 1))
        ((w'.keptRevision C t e v).getD (w'.revision + 1)) ∧
      K.sync (if (w.keptRevision C t e v).isSome then w.revision else w.revision + 1)
        (if (w'.keptRevision C t e v).isSome then w'.revision else w'.revision + 1) := by
  have hkept := h.keptRevision C t e v
  generalize w.keptRevision C t e v = kept at hkept ⊢
  generalize w'.keptRevision C t e v = kept' at hkept ⊢
  cases hkept with
  | none => exact K.tick h.clock
  | some hstamp => exact ⟨hstamp, h.clock⟩

theorem Twins.writeEntry (h : Twins K w w') (t : TypeId) (e : Entity) (v : Value α)
    (o : Option SystemInvocation) : Twins K (w.writeEntry C t e v o) (w'.writeEntry C t e v o) := by
  obtain ⟨hstamp, hclock⟩ := h.stamp C t e v
  refine h.rebind (fun t' e' => cell?_writeEntry C w t t' e e' v o)
    (fun t' e' => cell?_writeEntry C w' t t' e e' v o)
    (fun t' => storeWatermark_writeEntry C w t t' e v o)
    (fun t' => storeWatermark_writeEntry C w' t t' e v o)
    (.some ⟨rfl, rfl, rfl, hstamp⟩) (K.raise (h.marks t) hstamp) ?_ ?_
  · rw [writeEntry_revision, writeEntry_revision]
    exact hclock
  · unfold World.writeEntry
    dsimp only
    rw [h.owner? t e]
    refine SameBooks.reindexDerived ?_ t e (w.owner? t e) o
    exact h.books.off ..

theorem Twins.eraseEntry (h : Twins K w w') (t : TypeId) (e : Entity) :
    Twins K (w.eraseEntry t e) (w'.eraseEntry t e) := by
  have hmark := K.renew h.clock (h.marks t) (Nat.lt_succ_self _) (Nat.lt_succ_self _)
  exact h.rebind (fun t' e' => cell?_eraseEntry w t t' e e')
    (fun t' e' => cell?_eraseEntry w' t t' e e') (storeWatermark_eraseEntry w t · e)
    (storeWatermark_eraseEntry w' t · e) .none hmark (K.tick h.clock).2
    (h.books.off ..)

theorem Twins.presenceSet (h : Twins K w w') (t : TypeId) (e : Entity) (present : Bool) :
    Twins K (w.presenceSet t e present) (w'.presenceSet t e present) :=
  h.keep rfl rfl rfl rfl (h.books.off ..)

theorem Twins.dropEntry (h : Twins K w w') (t : TypeId) (e : Entity)
    (remover : Option SystemInvocation) :
    Twins K (w.dropEntry C t e remover) (w'.dropEntry C t e remover) := by
  have herased := (h.eraseEntry t e).presenceSet t e false
  unfold World.dropEntry
  rw [h.has, h.owner?]
  split_ifs
  · have hdisowned := herased.books.disownEntry t e (w.owner? t e) remover
    have hbooks := hdisowned.unregisterSingleton C t e
    obtain ⟨owners, losers, heq⟩ :=
      disownEntry_eq ((w.eraseEntry t e).presenceSet t e false) t e (w.owner? t e) remover
    obtain ⟨owners', losers', heq'⟩ :=
      disownEntry_eq ((w'.eraseEntry t e).presenceSet t e false) t e (w.owner? t e) remover
    obtain ⟨singletons, hsingletons⟩ := unregisterSingleton_eq C
      (((w.eraseEntry t e).presenceSet t e false).disownEntry t e (w.owner? t e) remover) t e
    obtain ⟨singletons', hsingletons'⟩ := unregisterSingleton_eq C
      (((w'.eraseEntry t e).presenceSet t e false).disownEntry t e (w.owner? t e) remover) t e
    rw [hsingletons, hsingletons', heq, heq'] at hbooks ⊢
    exact herased.keep rfl rfl rfl rfl hbooks
  · exact h

theorem Twins.sweepEntry (h : Twins K w w') (t : TypeId) (e : Entity) (o : SystemInvocation) :
    Twins K (w.sweepEntry t e o) (w'.sweepEntry t e o) := by
  unfold World.sweepEntry
  rw [h.owner?]
  split_ifs
  · exact (h.eraseEntry t e).presenceSet t e false
  · exact h

/-- Both copies of an entry are replaced where they stand. -/
theorem Twins.amendEntry (h : Twins K w w') (t : TypeId) (e : Entity) {x y : Entry α}
    (hxy : x.Twin K y) {m n : Revision}
    (hmn : K.marks (max (w.storeWatermark t) m) (max (w'.storeWatermark t) n)) :
    Twins K (w.amendEntry t e x m) (w'.amendEntry t e y n) :=
  h.rebind (fun t' e' => cell?_amendEntry w t t' e e' x m)
    (fun t' e' => cell?_amendEntry w' t t' e e' y n)
    (fun t' => storeWatermark_putEntry w t t' e x m)
    (fun t' => storeWatermark_putEntry w' t t' e y n) (.some hxy) hmn h.clock
    (h.books.off ..)

/-- A store whose watermark does not rise. -/
theorem Twins.marks_zero (h : Twins K w w') (t : TypeId) :
    K.marks (max (w.storeWatermark t) 0) (max (w'.storeWatermark t) 0) := by
  rw [Nat.max_zero, Nat.max_zero]
  exact h.marks t

theorem Twins.restampEntry (h : Twins K w w') (t : TypeId) (e : Entity) (v : Value α) :
    Twins K (w.restampEntry C t e v) (w'.restampEntry C t e v) := by
  unfold World.restampEntry
  rcases h.cases t e with ⟨hx, hy⟩ | ⟨x, y, hx, hy, hxy⟩
  · rw [hx, hy]
    exact h
  · rw [hx, hy, h.amends C t e v]
    dsimp only
    obtain ⟨hstamp, hclock⟩ := K.tick h.clock
    split_ifs
    · have hamended := h.amendEntry t e
        (x := ⟨x.cell, v, w.revision + 1, C.fingerprint t v, x.owner⟩)
        (y := ⟨y.cell, v, w'.revision + 1, C.fingerprint t v, y.owner⟩)
        ⟨rfl, rfl, hxy.owner, hstamp⟩ (K.raise (h.marks t) hstamp)
      exact ⟨hamended.cells, hamended.marks, hclock, h.books.off ..⟩
    · have hsame : Entry.Twin K ⟨x.cell, v, x.revision, C.fingerprint t v, x.owner⟩
          ⟨y.cell, v, y.revision, C.fingerprint t v, y.owner⟩ := ⟨rfl, rfl, hxy.owner, hxy.stamp⟩
      exact h.amendEntry t e hsame (h.marks_zero t)

theorem Twins.writeInPlace (h : Twins K w w') (t : TypeId) (e : Entity) (v : Value α) :
    Twins K (w.writeInPlace t e v) (w'.writeInPlace t e v) := by
  unfold World.writeInPlace
  rcases h.cases t e with ⟨hx, hy⟩ | ⟨x, y, hx, hy, hxy⟩
  · rw [hx, hy]
    exact h
  · rw [hx, hy]
    have hsame : Entry.Twin K { x with value := v } { y with value := v } :=
      ⟨rfl, hxy.fingerprint, hxy.owner, hxy.stamp⟩
    exact h.amendEntry t e hsame (h.marks_zero t)

end Effects
end World
end Porridge
