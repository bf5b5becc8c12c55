import Porridge.World.Reachable

/-! The fingerprint index, the presence bits and the watermarks agree with the entries. -/
namespace Porridge

def PresenceIndex.bit? (p : PresenceIndex) (t : TypeId) (e : Entity) : Option Bool :=
  (p.bitFor.lookup t).map fun bit => p.bits.get e bit

namespace World

variable {α : Type} (C : Components α)

/-- Buckets by fingerprint are exact, and revisions are ordered. -/
structure Coherent (w : World α) : Prop where
  fingerprints : ∀ t, (w.store t).byFingerprint.Inverts (w.fingerprintOn t)
  entries : ∀ t e x, w.cell? t e = some x → x.revision ≤ w.storeWatermark t
  watermarks : ∀ t, w.storeWatermark t ≤ w.revision

/-- The presence bits are numbered by the schema and are those of the stores. -/
structure Present (schema : Option (List TypeId)) (w : World α) : Prop where
  numbered : w.presence.map PresenceIndex.bitFor =
    schema.map fun types => (PresenceIndex.new (PresenceIndex.universeOf types)).bitFor
  shows : ∀ p, w.presence = some p → p.Shows w.has ∧ p.Ok

section Stores

variable {C} {w w' : World α}

theorem store_congr (hs : w'.stores = w.stores) (t : TypeId) : w'.store t = w.store t := by
  unfold store
  rw [hs]

theorem fingerprintOn_congr (hs : w'.stores = w.stores) (t : TypeId) :
    w'.fingerprintOn t = w.fingerprintOn t := by
  funext e
  rw [fingerprintOn, fingerprintOn, cell?_congr hs]

theorem Coherent.congr (h : w.Coherent) (hs : w'.stores = w.stores)
    (hr : w'.revision = w.revision) : w'.Coherent where
  fingerprints t := by
    rw [store_congr hs, fingerprintOn_congr hs]
    exact h.fingerprints t
  entries t e x hx := by
    rw [cell?_congr hs] at hx
    have hle := h.entries t e x hx
    rwa [storeWatermark, store_congr hs]
  watermarks t := by
    have hle := h.watermarks t
    rw [storeWatermark, store_congr hs, hr]
    exact hle

/-- One pair is rebound, its store's index follows it, and its watermark rises to `mark`. -/
theorem Coherent.rebind (h : w.Coherent) {t : TypeId} {e : Entity} {x : Option (Entry α)}
    {mark : Revision} {store : Store α} (hs : w'.stores = w.stores.insert t store)
    (hcell : ∀ e', store.entries.lookup e' = if e' = e then x else w.cell? t e')
    (hindex : store.byFingerprint =
      (w.store t).byFingerprint.move (w.fingerprintOn t e) (x.bind Entry.fingerprint) e)
    (hwatermark : store.watermark = max (w.storeWatermark t) mark)
    (hx : ∀ y, x = some y → y.revision ≤ max (w.storeWatermark t) mark)
    (hmark : mark ≤ w'.revision) (hr : w.revision ≤ w'.revision) : w'.Coherent := by
  have hstore : ∀ t', w'.store t' = if t' = t then store else w.store t' := fun t' => by
    rw [World.store, hs, Dict.getD_insert]
    rfl
  have hother : ∀ t' e', t' ≠ t → w'.cell? t' e' = w.cell? t' e' := fun t' e' ht => by
    rw [cell?, hstore, if_neg ht, cell?]
  have hthis : ∀ e', w'.cell? t e' = if e' = e then x else w.cell? t e' := fun e' => by
    rw [cell?, hstore, if_pos rfl, hcell]
  constructor
  · intro t'
    by_cases ht : t' = t
    · subst ht
      rw [hstore, if_pos rfl, hindex]
      refine (h.fingerprints t').move fun e' => ?_
      rw [fingerprintOn, hthis]
      split_ifs
      · rfl
      · rfl
    · rw [hstore, if_neg ht]
      refine (h.fingerprints t').congr fun e' => ?_
      rw [fingerprintOn, hother t' e' ht, fingerprintOn]
  · intro t' e' y hy
    rw [storeWatermark, hstore]
    by_cases ht : t' = t
    · subst ht
      rw [if_pos rfl, hwatermark]
      rw [hthis] at hy
      split_ifs at hy
      · exact hx y hy
      · exact (h.entries t' e' y hy).trans (le_max_left _ _)
    · rw [if_neg ht]
      rw [hother t' e' ht] at hy
      exact h.entries t' e' y hy
  · intro t'
    rw [storeWatermark, hstore]
    split_ifs with ht
    · rw [hwatermark]
      exact max_le ((h.watermarks t).trans hr) hmark
    · exact (h.watermarks t').trans hr

/-- A write or an amendment puts an entry into the store. -/
theorem Coherent.put (h : w.Coherent) {t : TypeId} {e : Entity} {x : Entry α} {mark : Revision}
    (hs : w'.stores = (w.amendEntry t e x mark).stores)
    (hx : x.revision ≤ max (w.storeWatermark t) mark) (hmark : mark ≤ w'.revision)
    (hr : w.revision ≤ w'.revision) : w'.Coherent := by
  refine h.rebind (x := some x) hs (fun e' => ?_) rfl rfl ?_ hmark hr
  · exact Dict.lookup_insert _ e e' x
  · intro y hy
    cases hy
    exact hx

theorem Coherent.eraseEntry (h : w.Coherent) (t : TypeId) (e : Entity) :
    (w.eraseEntry t e).Coherent := by
  refine h.rebind (e := e) (x := none) rfl (fun e' => ?_) ?_ rfl ?_ le_rfl ?_
  · exact Dict.lookup_erase _ e e'
  · exact (Index.move_none _ _ e).symm
  · exact nofun
  · exact Nat.le_succ _

theorem keptRevision_le (h : w.Coherent) {t : TypeId} {e : Entity} {v : Value α}
    {kept : Revision} (hk : w.keptRevision C t e v = some kept) : kept ≤ w.revision := by
  unfold keptRevision at hk
  split_ifs at hk
  obtain ⟨x, hx, rfl⟩ := Option.map_eq_some_iff.mp hk
  exact (h.entries t e x hx).trans (h.watermarks t)

section Writes

variable (C) (w : World α) (t : TypeId) (e : Entity) (v : Value α) (o : Option SystemInvocation)

/-- A write puts its entry into the store like an amendment at the same revision. -/
theorem writeEntry_stores :
    (w.writeEntry C t e v o).stores = (w.amendEntry t e
      ⟨w.nextCell, v, (w.keptRevision C t e v).getD (w.revision + 1), C.fingerprint t v, o⟩
      ((w.keptRevision C t e v).getD (w.revision + 1))).stores := by
  unfold writeEntry
  exact reindexDerived_stores ..

theorem writeEntry_revision : (w.writeEntry C t e v o).revision =
    if (w.keptRevision C t e v).isSome then w.revision else w.revision + 1 := by
  unfold writeEntry
  dsimp only
  rw [(reindexDerived_eq _ t e (w.owner? t e) o).choose_spec]
  rfl

theorem writeEntry_presence : (w.writeEntry C t e v o).presence =
    w.presence.map (PresenceIndex.set · t e true) := by
  unfold writeEntry
  dsimp only
  rw [(reindexDerived_eq _ t e (w.owner? t e) o).choose_spec]
  rfl

theorem dropEntry_presence (remover : Option SystemInvocation) :
    (w.dropEntry C t e remover).presence =
      if w.has t e then w.presence.map (PresenceIndex.set · t e false) else w.presence := by
  unfold dropEntry
  split_ifs
  · rw [(unregisterSingleton_eq C _ t e).choose_spec,
      (disownEntry_eq _ t e (w.owner? t e) remover).choose_spec.choose_spec]
    rfl
  · rfl

theorem purgeEntity_presence :
    (w.purgeEntity e).presence = w.presence.map (PresenceIndex.clearEntity · e) := by
  unfold purgeEntity
  dsimp only
  rw [(unindexEntries_eq e (w.ownedOn e) _).choose_spec]
  obtain ⟨stores, revision, mutations, log, h⟩ := eraseEntries_eq e (w.componentsOn e) w
  rw [h]

end Writes

/-- Every store effect keeps the indices coherent. -/
theorem closed_coherent : Closed C (fun w w' : World α => w.Coherent → w'.Coherent)
    Permits.all where
  refl _ := id
  trans hab hbc := hbc ∘ hab
  bookkeeping hb _ h := h.congr hb.stores hb.revision
  write w t e v o _ h := by
    refine h.put (writeEntry_stores C w t e v o) (le_max_right _ _) ?_ ?_
    · rw [writeEntry_revision]
      cases hk : w.keptRevision C t e v with
      | none => exact le_rfl
      | some kept => exact keptRevision_le h hk
    · rw [writeEntry_revision]
      split_ifs
      · exact le_rfl
      · exact Nat.le_succ _
  drop w t e remover _ h := by
    unfold dropEntry
    split_ifs
    · obtain ⟨owners, losers, hdisowned⟩ :=
        disownEntry_eq ((w.eraseEntry t e).presenceSet t e false) t e (w.owner? t e) remover
      obtain ⟨singletons, hunregistered⟩ := unregisterSingleton_eq C
        (((w.eraseEntry t e).presenceSet t e false).disownEntry t e (w.owner? t e) remover) t e
      rw [hunregistered, hdisowned]
      exact (h.eraseEntry t e).congr rfl rfl
    · exact h
  sweep w t e o _ h := by
    unfold sweepEntry
    split_ifs
    · exact (h.eraseEntry t e).congr rfl rfl
    · exact h
  purge w e _ h := by
    have herased : (w.eraseEntries (w.componentsOn e) e).Coherent :=
      List.foldlRecOn (w.componentsOn e) _ (motive := Coherent) h
        fun u hu t _ => hu.eraseEntry t e
    obtain ⟨owners, hunindexed⟩ :=
      unindexEntries_eq e (w.ownedOn e) (w.eraseEntries (w.componentsOn e) e)
    unfold purgeEntity
    rw [hunindexed]
    exact herased.congr rfl rfl
  inverse _ _ _ _ := trivial

theorem Coherent.restampEntry (h : w.Coherent) (t : TypeId) (e : Entity) (v : Value α) :
    (w.restampEntry C t e v).Coherent := by
  unfold World.restampEntry
  cases hx : w.cell? t e with
  | none => exact h
  | some x =>
    dsimp only
    split_ifs
    · exact h.put rfl (le_max_right _ _) le_rfl (Nat.le_succ _)
    · have hle := (h.entries t e x hx).trans (le_max_left _ 0)
      exact h.put rfl hle (Nat.zero_le _) le_rfl

end Stores

section Presence

variable {schema : Option (List TypeId)} {w w' : World α}

theorem Present.congr (h : w.Present schema) (hhas : ∀ t e, w'.has t e = w.has t e)
    (hp : w'.presence = w.presence) : w'.Present schema := by
  have heq : w'.has = w.has := funext fun t => funext fun e => hhas t e
  constructor
  · rw [hp]
    exact h.numbered
  · rw [hp, heq]
    exact h.shows

theorem has_congr (hs : w'.stores = w.stores) (t : TypeId) (e : Entity) :
    w'.has t e = w.has t e := by
  rw [has, has, cell?_congr hs]

/-- One bit follows one pair. -/
theorem Present.set (h : w.Present schema) {t : TypeId} {e : Entity} {present : Bool}
    (hp : w'.presence = w.presence.map (PresenceIndex.set · t e present))
    (hhas : ∀ t' e', w'.has t' e' = if t' = t ∧ e' = e then present else w.has t' e') :
    w'.Present schema := by
  constructor
  · rw [hp, ← h.numbered]
    cases hpresence : w.presence with
    | none => rfl
    | some p => exact congrArg some (PresenceIndex.set_bitFor p t e present)
  · intro p' hp'
    rw [hp] at hp'
    obtain ⟨p, hpresence, rfl⟩ := Option.map_eq_some_iff.mp hp'
    obtain ⟨hshows, hok⟩ := h.shows p hpresence
    exact hshows.set hok hhas

/-- Every store effect keeps the presence bits. -/
theorem closed_present : Closed C (fun w w' : World α => w.Present schema → w'.Present schema)
    Permits.all where
  refl _ := id
  trans hab hbc := hbc ∘ hab
  bookkeeping hb _ h := h.congr (has_congr hb.stores) hb.presence
  write w t e v o _ h := by
    refine h.set (writeEntry_presence C w t e v o) fun t' e' => ?_
    rw [has, cell?_writeEntry]
    split_ifs
    · rfl
    · rfl
  drop w t e remover _ h := by
    have hpresence := dropEntry_presence C w t e remover
    by_cases hhas : w.has t e = true
    · rw [if_pos hhas] at hpresence
      refine h.set hpresence fun t' e' => ?_
      rw [has, cell?_dropEntry]
      split_ifs
      · rfl
      · rfl
    · unfold dropEntry
      rw [if_neg hhas]
      exact h
  sweep w t e o _ h := by
    by_cases ho : w.owner? t e = some o
    · have hswept : w.sweepEntry t e o = (w.eraseEntry t e).presenceSet t e false := if_pos ho
      have hpresence : (w.sweepEntry t e o).presence =
          w.presence.map (PresenceIndex.set · t e false) := by
        rw [hswept]
        rfl
      refine h.set hpresence fun t' e' => ?_
      rw [has, cell?_sweepEntry]
      simp only [ho, and_true]
      split_ifs
      · rfl
      · rfl
    · unfold sweepEntry
      rw [if_neg ho]
      exact h
  purge w e _ h := by
    have hpresence := purgeEntity_presence w e
    constructor
    · rw [hpresence, ← h.numbered]
      cases w.presence <;> rfl
    · intro p' hp'
      rw [hpresence] at hp'
      obtain ⟨p, hp, rfl⟩ := Option.map_eq_some_iff.mp hp'
      obtain ⟨hshows, hok⟩ := h.shows p hp
      refine hshows.clearEntity hok fun t e' => ?_
      rw [has, cell?_purgeEntity]
      split_ifs
      · rfl
      · rfl
  inverse _ _ _ _ := trivial

theorem has_amendEntry {t : TypeId} {e : Entity} (hhas : w.has t e = true) (x : Entry α)
    (mark : Revision) (t' : TypeId) (e' : Entity) :
    (w.amendEntry t e x mark).has t' e' = w.has t' e' := by
  rw [has, cell?_amendEntry]
  split_ifs with hte
  · rw [hte.1, hte.2, hhas]
    rfl
  · rfl

theorem Present.restampEntry (h : w.Present schema) (t : TypeId) (e : Entity) (v : Value α) :
    (w.restampEntry C t e v).Present schema := by
  unfold World.restampEntry
  cases hx : w.cell? t e with
  | none => exact h
  | some x =>
    have hhas : w.has t e = true := (has_iff w t e).mpr ⟨x, hx⟩
    dsimp only
    split_ifs
    · exact h.congr (has_amendEntry hhas _ _) rfl
    · exact h.congr (has_amendEntry hhas _ _) rfl

theorem present_ofSchema (schema : Option (List TypeId)) :
    (World.ofSchema schema : World α).Present schema := by
  have hempty : (World.ofSchema schema : World α).has = fun _ _ => false := rfl
  constructor
  · cases schema <;> rfl
  · intro p hp
    obtain ⟨types, -, rfl⟩ := Option.map_eq_some_iff.mp hp
    rw [hempty]
    exact ⟨PresenceIndex.shows_new _,
      PresenceIndex.ok_new (PresenceIndex.nodup_universeOf types)⟩

/-- A component of the schema has a bit, and it says whether the store has the entity. -/
theorem Present.bit? (h : w.Present schema) {types : List TypeId} (hs : schema = some types)
    {t : TypeId} (ht : t ∈ types) (e : Entity) :
    (w.presence.bind fun p => p.bit? t e) = some (w.has t e) := by
  have hnumbered := h.numbered
  rw [hs] at hnumbered
  obtain ⟨p, hp, hbits⟩ := Option.map_eq_some_iff.mp hnumbered
  obtain ⟨-, hmem⟩ := PresenceIndex.dense_new (PresenceIndex.nodup_universeOf types)
  have ht : t ∈ p.bitFor := by
    rw [hbits, hmem]
    exact PresenceIndex.mem_universeOf.mpr ht
  obtain ⟨bit, hbit⟩ := Option.isSome_iff_exists.mp (AList.lookup_isSome.mpr ht)
  rw [hp, Option.bind_some, PresenceIndex.bit?, hbit, Option.map_some, (h.shows p hp).1 t bit hbit e]

end Presence

/-- The stores, the counters, the presence bits and the write log are the same. -/
structure Unmoved (w w' : World α) : Prop where
  stores : w'.stores = w.stores
  revision : w'.revision = w.revision
  mutations : w'.mutations = w.mutations
  presence : w'.presence = w.presence
  writeLog : w'.writeLog = w.writeLog
  planEpoch : w'.planEpoch = w.planEpoch

/-- An invariant that the store effects keep, and that bookkeeping leaves alone, survives every
engine use of the world that amends no value where it stands. -/
theorem apply_of_effects {I : World α → Prop} (hclosed : Closed C (fun w w' => I w → I w') .all)
    (hcongr : ∀ w w' : World α, Unmoved w w' → I w → I w') {w w' : World α} {op : WorldOp α}
    (hroll : op = .rollPlanEpoch → I w') (hop : op.amending = false) (ha : w.apply C op = some w')
    (h : I w) : I w' := by
  have howned : ∀ (u : World α) o, I u → I (u.removeDerivedOwned C o) := fun u o hu =>
    hclosed.removeDerivedEntries (u.forgetOwner o) (u.outputs o) (fun _ _ => trivial)
      (hcongr u _ ⟨rfl, rfl, rfl, rfl, rfl, rfl⟩ hu)
  cases op with
  | base c => exact hclosed.baseCommand ha (fun _ _ => trivial) (fun _ => trivial) trivial h
  | flush => exact hclosed.flushDerivedFrom ha (fun _ _ => trivial) trivial h
  | output o deferInserts =>
    obtain ⟨applied, flushed, happly, hflush, rfl⟩ := exists_of_applyOutput ha
    have htaken : I (w.takeDerivedOutputs o.owner).2 := hcongr w _ ⟨rfl, rfl, rfl, rfl, rfl, rfl⟩ h
    have happlied := hclosed.applyCommands happly (Permits.grants_all _) htaken
    have hflushed := hclosed.flushDerivedFrom hflush (fun _ _ => trivial) trivial happlied
    have hfinished : I (flushed.finishDerivedSpawns o.owner) :=
      hcongr flushed _ ⟨rfl, rfl, rfl, rfl, rfl, rfl⟩ hflushed
    exact hclosed.removeDerivedStale _ _ (fun _ _ => trivial) hfinished
  | commands o commands => exact hclosed.applyCommands ha (Permits.grants_all o) h
  | update t e v => cases hop
  | writeInPlace t e v => cases hop
  | reconcileWritten writes => cases hop
  | retireTouched keys systems =>
    cases ha
    have hretired : ∀ (owners : List SystemInvocation) (u : World α), I u →
        I (u.retireOwners C owners).1 := by
      intro owners
      induction owners with
      | nil => exact fun _ hu => hu
      | cons o owners ih => exact fun u hu => ih _ (howned u o hu)
    exact hretired _ w h
  | retireOwner o =>
    cases ha
    exact howned w o h
  | drainRemovals =>
    cases ha
    exact hcongr w _ ⟨rfl, rfl, rfl, rfl, rfl, rfl⟩ h
  | rollPlanEpoch => exact hroll rfl
  | spawnEmpty =>
    cases ha
    exact hcongr w _ ⟨rfl, rfl, rfl, rfl, rfl, rfl⟩ h
  | reserveSingleton key =>
    cases ha
    unfold singletonEntityOrSpawn
    split
    · exact h
    · exact hcongr w _ ⟨rfl, rfl, rfl, rfl, rfl, rfl⟩ h

/-- An invariant of store effects and amendments that reads the stores, the revision and the
presence bits survives every use. -/
theorem apply_of_closed {I : World α → Prop} (hclosed : Closed C (fun w w' => I w → I w') .all)
    (hcongr : ∀ w w' : World α, w'.stores = w.stores → w'.revision = w.revision →
      w'.presence = w.presence → I w → I w')
    (hrestamp : ∀ (w : World α) t e v, I w → I (w.restampEntry C t e v))
    (hinPlace : ∀ (w : World α) t e v, I w → I (w.writeInPlace t e v))
    {w w' : World α} {op : WorldOp α} (ha : w.apply C op = some w') (h : I w) : I w' := by
  have hrolled : op = .rollPlanEpoch → I w' := by
    rintro rfl
    cases ha
    unfold maybeRollPlanEpoch
    split_ifs
    · exact h
    · exact hcongr w _ rfl rfl rfl h
  have heffects : op.amending = false → I w' := fun hop =>
    apply_of_effects C hclosed (fun u u' hu => hcongr u u' hu.stores hu.revision hu.presence) hrolled
      hop ha h
  cases op with
  | update t e v =>
    cases ha
    have hstamped := hrestamp w t e v h
    unfold updateComponent
    split_ifs
    · exact hcongr (w.restampEntry C t e v) _ rfl rfl rfl hstamped
    · exact hstamped
  | writeInPlace t e v =>
    cases ha
    exact hinPlace w t e v h
  | reconcileWritten writes =>
    cases ha
    refine List.foldlRecOn writes _ (motive := I) h fun u hu p _ => ?_
    have hreconciled : I (u.reconcileEntry C p.1 p.2) := by
      unfold reconcileEntry
      split
      · exact hu
      · exact hrestamp u p.1 p.2 _ hu
    split_ifs
    · exact hcongr (u.reconcileEntry C p.1 p.2) _ rfl rfl rfl hreconciled
    · exact hu
  | _ => exact heffects rfl

theorem Coherent.writeInPlace {w : World α} (h : w.Coherent) (t : TypeId) (e : Entity)
    (v : Value α) : (w.writeInPlace t e v).Coherent := by
  unfold World.writeInPlace
  cases hx : w.cell? t e with
  | none => exact h
  | some x =>
    have hle := (h.entries t e x hx).trans (le_max_left _ 0)
    exact h.put rfl hle (Nat.zero_le _) le_rfl

theorem Present.writeInPlace {schema : Option (List TypeId)} {w : World α}
    (h : w.Present schema) (t : TypeId) (e : Entity) (v : Value α) :
    (w.writeInPlace t e v).Present schema := by
  unfold World.writeInPlace
  cases hx : w.cell? t e with
  | none => exact h
  | some x => exact h.congr (has_amendEntry ((has_iff w t e).mpr ⟨x, hx⟩) _ _) rfl

theorem coherent_ofSchema (schema : Option (List TypeId)) :
    (World.ofSchema schema : World α).Coherent where
  fingerprints _ := Index.inverts_empty fun _ => rfl
  entries _ _ _ hx := nomatch hx
  watermarks _ := le_rfl

variable {C}

theorem Coherent.apply {w w' : World α} {op : WorldOp α} (h : w.Coherent)
    (hstep : w.apply C op = some w') : w'.Coherent :=
  apply_of_closed C (closed_coherent (C := C)) (fun _ _ hs hr _ h => h.congr hs hr)
    (fun _ t e v h => h.restampEntry t e v) (fun _ t e v h => h.writeInPlace t e v) hstep h

theorem Present.apply {schema : Option (List TypeId)} {w w' : World α} {op : WorldOp α}
    (h : w.Present schema) (hstep : w.apply C op = some w') : w'.Present schema :=
  apply_of_closed C (closed_present C) (fun _ _ hs _ hp h => h.congr (has_congr hs) hp)
    (fun _ t e v h => h.restampEntry C t e v) (fun _ t e v h => h.writeInPlace t e v) hstep h

/-- After any run from an empty world over any universe, the fingerprint buckets, the presence
bits and the watermarks agree with the entries. -/
theorem run_coherent {schema : Option (List TypeId)} {ops : List (WorldOp α)} {w : World α}
    (h : (machine C).run (World.ofSchema schema) ops = some w) :
    w.Coherent ∧ ∀ types, schema = some types → ∀ t ∈ types, ∀ e,
      (w.presence.bind fun p => p.bit? t e) = some (w.has t e) := by
  have hcoherent : w.Coherent :=
    List.foldlM_some_induction Coherent ops h (coherent_ofSchema schema) fun _ _ _ _ hu hstep =>
      hu.apply hstep
  have hpresent : w.Present schema :=
    List.foldlM_some_induction (Present schema) ops h (present_ofSchema schema) fun _ _ _ _ hu hstep =>
      hu.apply hstep
  exact ⟨hcoherent, fun types hs t ht e => hpresent.bit? hs ht e⟩

theorem coherent_of_reachable {w : World α} (h : Reachable C w) : w.Coherent := by
  refine h.invariant Coherent ?_ fun _ _ _ hu _ hstep => hu.apply hstep
  rintro _ ⟨schema, rfl⟩
  exact coherent_ofSchema schema

theorem present_of_reachable {w : World α} (h : Reachable C w) : ∃ schema, w.Present schema := by
  refine h.invariant (fun w => ∃ schema, w.Present schema) ?_ ?_
  · rintro _ ⟨schema, rfl⟩
    exact ⟨schema, present_ofSchema schema⟩
  · rintro _ _ _ ⟨schema, hu⟩ - hstep
    exact ⟨schema, hu.apply hstep⟩

def fingerprinted : Components Nat where
  tracked _ := true
  role _ := .plain
  fingerprint _ v := match v with
    | .data payload => some payload
    | _ => none
  target _ _ := 0
  inverse_role := Role.plain_edgeless

/-- Two components, one rewritten in place and reconciled, and one removed with its entity. -/
def reconciled : World Nat :=
  ((machine fingerprinted).run (World.ofSchema (some [5, 6, 5])) [.base (.insert 5 0 (.data 7)),
    .output ⟨⟨0, [0]⟩, [.insert 6 1 (.data 7)]⟩ false, .writeInPlace 5 0 (.data 9),
    .reconcileWritten [(5, 0)], .base (.despawn 1)]).getD World.new

theorem reconciled_coherent : reconciled.Coherent ∧
    (reconciled.store 5).byFingerprint.bucket 9 = [0] ∧
      (reconciled.presence.bind fun p => p.bit? 6 1) = some false := by
  have hrun : (machine fingerprinted).run (World.ofSchema (some [5, 6, 5]))
      [.base (.insert 5 0 (.data 7)), .output ⟨⟨0, [0]⟩, [.insert 6 1 (.data 7)]⟩ false,
        .writeInPlace 5 0 (.data 9), .reconcileWritten [(5, 0)], .base (.despawn 1)] =
      some reconciled := rfl
  obtain ⟨hcoherent, hbits⟩ := run_coherent hrun
  exact ⟨hcoherent, by decide, hbits [5, 6, 5] rfl 6 (by decide) 1⟩

end World
end Porridge
