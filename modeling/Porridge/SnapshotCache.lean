import Porridge.Query.External
import Porridge.World.Stillness

/-! The cached snapshot of the live world, and when a read of it is a read of the world. -/
namespace Porridge

variable {α : Type}

/-- The counters that a snapshot is cached under. -/
abbrev SnapshotKey := Entity × Revision × Nat

namespace World

def snapshotKey (w : World α) : SnapshotKey := (w.nextEntity, w.revision, w.mutations)

/-- The structural clone that a snapshot is: bookkeeping of the runner stays behind. -/
def clone (w : World α) : World α :=
  { w with
    derivedOwners := ∅
    spawnCursors := ∅
    removedEntities := []
    removedOwners := []
    removedComponentOwners := []
    pendingDerivedFrom := []
    flushingAnchors := false
    writeLog := [] }

/-- A snapshot after a write to a cell that it may share. -/
def showCell (snapshot : World α) (t : TypeId) (e : Entity) (cell : Nat) (v : Value α) : World α :=
  { snapshot with stores := showWrite t e cell v snapshot.stores }

/-- A snapshot after a use that took `w` to `w'`: it shares the id allocator, the spawn slots and the
cells that are written in place. -/
def follow (snapshot w w' : World α) (op : WorldOp α) : World α :=
  let shared := { snapshot with nextEntity := w'.nextEntity, derivedSpawns := w'.derivedSpawns }
  match op with
  | .update t e v | .writeInPlace t e v =>
    match w.cell? t e with
    | none => shared
    | some x => shared.showCell t e x.cell v
  | _ => shared

/-- A write through a snapshot of some earlier world reaches the live entry if it has the cell. -/
def writeCell (w : World α) (t : TypeId) (e : Entity) (cell : Nat) (v : Value α) : World α :=
  if (w.cell? t e).any fun x => x.cell = cell then w.writeInPlace t e v else w

end World

/-- The live world beside the last snapshot taken of it, under its key. -/
structure SnapshotCache (α : Type) where
  live : World α
  cached : Option (SnapshotKey × World α)

inductive CacheOp (α : Type) where
  | use (op : WorldOp α)
  | writeCell (component : TypeId) (entity : Entity) (cell : Nat) (value : Value α)
  | snapshot

namespace SnapshotCache

/-- The current snapshot: the cached one while the counters stand. -/
def snapshotLocked (s : SnapshotCache α) : World α × SnapshotCache α :=
  match s.cached with
  | some (key, snapshot) =>
    if key = s.live.snapshotKey then (snapshot, s)
    else (s.live.clone, { s with cached := some (s.live.snapshotKey, s.live.clone) })
  | none => (s.live.clone, { s with cached := some (s.live.snapshotKey, s.live.clone) })

def step (C : Components α) (s : SnapshotCache α) : CacheOp α → Option (SnapshotCache α)
  | .use op => (s.live.apply C op).map fun w' =>
    ⟨w', s.cached.map fun entry => (entry.1, entry.2.follow s.live w' op)⟩
  | .writeCell t e cell v => some ⟨s.live.writeCell t e cell v,
      s.cached.map fun entry => (entry.1, entry.2.showCell t e cell v)⟩
  | .snapshot => some s.snapshotLocked.2

def machine (C : Components α) : Machine (SnapshotCache α) (CacheOp α) where
  init s := (World.machine C).init s.live ∧ s.cached = none
  step := step C

def Fresh (s : SnapshotCache α) : Prop :=
  ∃ snapshot, s.cached = some (s.live.snapshotKey, snapshot)

/-- The live entry and that of the cached snapshot both have the cell, or neither has. -/
def Shares (s : SnapshotCache α) (t : TypeId) (e : Entity) (cell : Nat) : Prop :=
  ∀ key snapshot, s.cached = some (key, snapshot) → ∀ x y, s.live.cell? t e = some x →
    snapshot.cell? t e = some y → (x.cell = cell ↔ y.cell = cell)

/-- While the cached snapshot is handed out: a write in place goes to a cell that both have or finds
its value there, an untracked fingerprint is not restamped, and an insert that keeps its revision
keeps the value. -/
def Covered (C : Components α) (s : SnapshotCache α) : CacheOp α → Prop
  | .snapshot => True
  | .writeCell t e cell v => s.Fresh →
    s.Shares t e cell ∨ ∀ x, s.live.cell? t e = some x → v = x.value
  | .use op => s.Fresh → match op with
    | .update t e v => ∀ x, s.live.cell? t e = some x →
      (C.tracked t = false → C.fingerprint t v = x.fingerprint) ∧
        (s.live.amends C t e v = true ∨ s.Shares t e x.cell ∨ v = x.value)
    | .writeInPlace t e v => ∀ x, s.live.cell? t e = some x → s.Shares t e x.cell ∨ v = x.value
    | .reconcileWritten writes => s.live.Stamped C (fun _ => True) writes
    | op => ∀ w', s.live.apply C op = some w' → w'.revision = s.live.revision →
      ∀ t e, (w'.cell? t e).map Entry.value = (s.live.cell? t e).map Entry.value

end SnapshotCache

structure SameReads (C : Components α) (w w' : World α) : Prop where
  rows : ∀ q : QueryParam, q.rows w' = q.rows w
  filteredRows : ∀ q f, filteredRows w' q f = filteredRows w q f
  planned : ∀ ps, Params.states w' ps = Params.states w ps
  plannedHinted : ∀ ps hint, Params.statesHinted C w' ps hint = Params.statesHinted C w ps hint
  deps : ∀ (p : SystemParam) s, p.deps C w' s = p.deps C w s
  externalFilteredRows : ∀ cmp args q f,
    externalFilteredRows C cmp w' args q f = externalFilteredRows C cmp w args q f
  values : ∀ t e, (w'.cell? t e).map Entry.value = (w.cell? t e).map Entry.value
  fingerprints : ∀ t e, w'.fingerprintOn t e = w.fingerprintOn t e
  buckets : ∀ t v, w'.fingerprintCandidates t v = w.fingerprintCandidates t v

namespace World

variable {C : Components α} {w w' u : World α}

/-- Values, fingerprints and revisions are the same, whatever cells they stand in. -/
structure SameEntries (w w' : World α) : Prop where
  values : ∀ t e, (w'.cell? t e).map Entry.value = (w.cell? t e).map Entry.value
  fingerprints : ∀ t e, w'.fingerprintOn t e = w.fingerprintOn t e
  revisions : ∀ t e, w'.revisionByType t e = w.revisionByType t e
  watermarks : ∀ t, w'.storeWatermark t = w.storeWatermark t

theorem SameEntries.of_stores (hs : w'.stores = w.stores) : SameEntries w w' where
  values t e := by rw [cell?_congr hs]
  fingerprints t e := by rw [fingerprintOn_congr hs]
  revisions t e := by rw [revisionByType, revisionByType, cell?_congr hs]
  watermarks t := by rw [storeWatermark, storeWatermark, store_congr hs]

theorem SameEntries.trans (h : SameEntries w u) (h' : SameEntries u w') : SameEntries w w' where
  values t e := (h'.values t e).trans (h.values t e)
  fingerprints t e := (h'.fingerprints t e).trans (h.fingerprints t e)
  revisions t e := (h'.revisions t e).trans (h.revisions t e)
  watermarks t := (h'.watermarks t).trans (h.watermarks t)

theorem IndicesExact.congr (h : w.IndicesExact) (hs : w'.stores = w.stores)
    (hr : w'.revision = w.revision) (hp : w'.presence = w.presence) : w'.IndicesExact where
  coherent := h.coherent.congr hs hr
  bucketed := h.bucketed.congr hs
  present := h.present.imp fun _ hpresent => hpresent.congr (has_congr hs) hp

/-- Worlds with the same entries and exact indices answer every read alike. -/
theorem SameEntries.reads (h : SameEntries w w') (hw : w.IndicesExact) (hw' : w'.IndicesExact)
    (hnext : w'.nextEntity = w.nextEntity) : SameReads C w w' := by
  have hview : SameView .all w w' := .of_values hw hw' hnext h.values h.fingerprints
  have hedges : ∀ t e, w'.edgeOn C t e = w.edgeOn C t e := by
    intro t e
    have hbind : ∀ u : World α, u.edgeOn C t e =
        ((u.cell? t e).map Entry.value).bind (C.relationshipEdge t) := by
      intro u
      unfold edgeOn
      cases u.cell? t e <;> rfl
    rw [hbind, hbind, h.values]
  obtain ⟨schema, hp⟩ := hw.present
  obtain ⟨schema', hp'⟩ := hw'.present
  exact
    { rows := fun q => hview.rows hp hp' (fun _ _ => trivial) fun _ => trivial
      filteredRows := fun q f => hview.filteredRows hp hp' (fun _ _ => trivial)
        (fun _ _ => trivial) fun _ => trivial
      planned := fun ps => hview.planned hp hp' fun p _ => p.within_all
      plannedHinted := hview.plannedHinted C hedges hp hp'
      deps := fun p => hview.deps C (fun t _ => h.revisions t) p.within_all fun t _ =>
        h.watermarks t
      externalFilteredRows := fun cmp args q f => hview.externalFilteredRows h.values hp hp' q f
      values := h.values
      fingerprints := h.fingerprints
      buckets := fun t => hview.buckets t trivial }

section Sharing

variable (w : World α) (t : TypeId) (e : Entity) (cell : Nat) (v : Value α)

/-- One value changes, where the entry has the cell; the store's index and watermark stay. -/
theorem store_showCell (t' : TypeId) :
    (∀ e', ((w.showCell t e cell v).store t').entries.lookup e' =
      ((w.store t').entries.lookup e').map fun x =>
        if t' = t ∧ e' = e ∧ x.cell = cell then { x with value := v } else x) ∧
      ((w.showCell t e cell v).store t').byFingerprint = (w.store t').byFingerprint ∧
      ((w.showCell t e cell v).store t').watermark = (w.store t').watermark := by
  have hkept : ∀ (m : Option (Entry α)) (e' : Entity), (∀ x, m = some x → t' = t → e' = e →
      x.cell ≠ cell) → m = m.map fun x =>
        if t' = t ∧ e' = e ∧ x.cell = cell then { x with value := v } else x := by
    intro m e' hm
    cases m with
    | none => rfl
    | some x =>
      have hne : ¬ (t' = t ∧ e' = e ∧ x.cell = cell) := fun h => hm x rfl h.1 h.2.1 h.2.2
      rw [Option.map_some, if_neg hne]
  unfold showCell showWrite
  cases hstore : w.stores.lookup t with
  | none =>
    refine ⟨fun e' => hkept _ e' fun x hx ht _ => ?_, rfl, rfl⟩
    rw [ht, store, Dict.getD, hstore] at hx
    cases hx
  | some s =>
    have hthis : w.store t = s := by rw [store, Dict.getD, hstore]; rfl
    dsimp only
    cases hentry : s.entries.lookup e with
    | none =>
      refine ⟨fun e' => hkept _ e' fun x hx ht he => ?_, rfl, rfl⟩
      rw [ht, he, hthis, hentry] at hx
      cases hx
    | some x =>
      dsimp only
      split_ifs with hcell
      · by_cases ht : t' = t
        · subst ht
          rw [hthis, show ∀ s' : Store α, World.store { w with stores := w.stores.insert t' s' } t' = s'
            from fun s' => by rw [store, Dict.getD_insert, if_pos rfl]]
          refine ⟨fun e' => ?_, rfl, rfl⟩
          rw [Dict.lookup_insert]
          by_cases he : e' = e
          · rw [if_pos he, he, hentry, Option.map_some, if_pos ⟨rfl, rfl, hcell⟩]
          · rw [if_neg he]
            exact hkept _ e' fun _ _ _ he' => absurd he' he
        · rw [show ∀ s' : Store α, World.store { w with stores := w.stores.insert t s' } t' = w.store t'
            from fun s' => by rw [store, Dict.getD_insert, if_neg ht]; rfl]
          exact ⟨fun e' => hkept _ e' fun _ _ ht' => absurd ht' ht, rfl, rfl⟩
      · refine ⟨fun e' => hkept _ e' fun y hy ht he => ?_, rfl, rfl⟩
        rw [ht, he, hthis, hentry] at hy
        cases hy
        exact hcell

theorem cell?_showCell (t' : TypeId) (e' : Entity) : (w.showCell t e cell v).cell? t' e' =
    (w.cell? t' e').map fun x =>
      if t' = t ∧ e' = e ∧ x.cell = cell then { x with value := v } else x :=
  (store_showCell w t e cell v t').1 e'

/-- What a write to a cell leaves as it was in an entry. -/
theorem map_showCell {β : Type} (f : Entry α → β) (hf : ∀ x v, f { x with value := v } = f x)
    (t' : TypeId) (e' : Entity) :
    ((w.showCell t e cell v).cell? t' e').map f = (w.cell? t' e').map f := by
  rw [cell?_showCell, Option.map_map]
  congr 1
  funext x
  rw [Function.comp_apply]
  split_ifs
  · exact hf x v
  · rfl

theorem fingerprintOn_showCell (t' : TypeId) (e' : Entity) :
    (w.showCell t e cell v).fingerprintOn t' e' = w.fingerprintOn t' e' := by
  have hbind : ∀ u : World α, u.fingerprintOn t' e' =
      ((u.cell? t' e').map Entry.fingerprint).join := fun u => by
    unfold fingerprintOn
    cases u.cell? t' e' <;> rfl
  rw [hbind, hbind, map_showCell w t e cell v Entry.fingerprint fun _ _ => rfl]

variable {w}

theorem IndicesExact.showCell (h : w.IndicesExact) :
    (w.showCell t e cell v).IndicesExact where
  coherent :=
    { fingerprints := fun t' => by
        rw [(store_showCell w t e cell v t').2.1]
        exact (h.coherent.fingerprints t').congr (fingerprintOn_showCell w t e cell v t')
      entries := fun t' e' x hx => by
        have hrevision := map_showCell w t e cell v Entry.revision (fun _ _ => rfl) t' e'
        rw [hx] at hrevision
        obtain ⟨y, hy, heq⟩ := Option.map_eq_some_iff.mp hrevision.symm
        rw [storeWatermark, (store_showCell w t e cell v t').2.2, ← heq]
        exact h.coherent.entries t' e' y hy
      watermarks := fun t' => by
        rw [storeWatermark, (store_showCell w t e cell v t').2.2]
        exact h.coherent.watermarks t' }
  bucketed t' := by
    rw [(store_showCell w t e cell v t').2.1]
    exact h.bucketed t'
  present := h.present.imp fun _ hpresent => hpresent.congr (fun t' e' => by
    rw [has, has, cell?_showCell, Option.isSome_map]) rfl

end Sharing

end World

namespace SnapshotCache

open World

variable {C : Components α} {s s' : SnapshotCache α}

/-- The cached snapshot is of an earlier world, and shows the live one if the counters agree. -/
structure Mirrors (live : World α) (key : SnapshotKey) (snapshot : World α) : Prop where
  indices : snapshot.IndicesExact
  allocated : snapshot.nextEntity = live.nextEntity
  ids : key.1 ≤ live.nextEntity
  stamps : key.2.1 ≤ live.revision
  entries : key = live.snapshotKey → SameEntries live snapshot

theorem mirrors_clone (h : World.Reachable C s.live) :
    Mirrors s.live s.live.snapshotKey s.live.clone where
  indices := (indicesExact_of_reachable h).congr rfl rfl rfl
  allocated := rfl
  ids := le_rfl
  stamps := le_rfl
  entries _ := .of_stores rfl

/-- Values that were the same stay so when the same cells are written, or nothing new is. -/
theorem values_showCell {live w' snapshot : World α} (h : SameEntries live snapshot) {t : TypeId}
    {e : Entity} {cell : Nat} {v : Value α}
    (hlive : ∀ t' e', (w'.cell? t' e').map Entry.value = (live.cell? t' e').map fun x =>
      if t' = t ∧ e' = e ∧ x.cell = cell then v else x.value)
    (hshares : (∀ x y, live.cell? t e = some x → snapshot.cell? t e = some y →
      (x.cell = cell ↔ y.cell = cell)) ∨ ∀ x, live.cell? t e = some x → v = x.value)
    (t' : TypeId) (e' : Entity) : ((snapshot.showCell t e cell v).cell? t' e').map Entry.value =
      (w'.cell? t' e').map Entry.value := by
  have hvalues := h.values t' e'
  rw [hlive, cell?_showCell]
  cases hx : live.cell? t' e' with
  | none =>
    rw [hx, Option.map_none, Option.map_eq_none_iff] at hvalues
    rw [hvalues]
    rfl
  | some x =>
    rw [hx, Option.map_some] at hvalues
    obtain ⟨y, hy, hvalue⟩ := Option.map_eq_some_iff.mp hvalues
    rw [hy, Option.map_some, Option.map_some, Option.map_some]
    congr 1
    by_cases hpair : t' = t ∧ e' = e
    · obtain ⟨rfl, rfl⟩ := hpair
      rcases hshares with hboth | hsame
      · have hiff := hboth x y hx hy
        split_ifs with hcell hcell' hcell'
        · rfl
        · exact absurd ⟨rfl, rfl, hiff.mpr hcell.2.2⟩ hcell'
        · exact absurd ⟨rfl, rfl, hiff.mp hcell'.2.2⟩ hcell
        · exact hvalue
      · have hv := hsame x hx
        split_ifs
        · rfl
        · exact hv
        · exact hvalue.trans hv.symm
        · exact hvalue
    · rw [if_neg fun h => hpair ⟨h.1, h.2.1⟩, if_neg fun h => hpair ⟨h.1, h.2.1⟩]
      exact hvalue

section Following

variable {live w' snapshot : World α} {op : WorldOp α}

/-- Following a use, a snapshot shares a write to a cell or nothing. -/
theorem follow_cases (snapshot live w' : World α) (op : WorldOp α) :
    ∃ shared : World α, shared.stores = snapshot.stores ∧ shared.revision = snapshot.revision ∧
      shared.presence = snapshot.presence ∧ shared.nextEntity = w'.nextEntity ∧
      (snapshot.follow live w' op = shared ∨
        ∃ t e cell v, snapshot.follow live w' op = shared.showCell t e cell v) := by
  refine ⟨{ snapshot with nextEntity := w'.nextEntity, derivedSpawns := w'.derivedSpawns },
    rfl, rfl, rfl, rfl, ?_⟩
  cases op with
  | update t e v | writeInPlace t e v =>
    unfold follow
    dsimp only
    cases live.cell? t e with
    | none => exact Or.inl rfl
    | some x => exact Or.inr ⟨t, e, x.cell, v, rfl⟩
  | _ => exact Or.inl rfl

theorem indices_follow (h : snapshot.IndicesExact) (live w' : World α) (op : WorldOp α) :
    (snapshot.follow live w' op).IndicesExact := by
  obtain ⟨shared, hs, hr, hp, -, hcases⟩ := follow_cases snapshot live w' op
  have hshared : shared.IndicesExact := h.congr hs hr hp
  rcases hcases with heq | ⟨t, e, cell, v, heq⟩
  · exact heq ▸ hshared
  · exact heq ▸ hshared.showCell t e cell v

theorem nextEntity_follow (snapshot live w' : World α) (op : WorldOp α) :
    (snapshot.follow live w' op).nextEntity = w'.nextEntity := by
  obtain ⟨shared, -, -, -, hnext, hcases⟩ := follow_cases snapshot live w' op
  rcases hcases with heq | ⟨t, e, cell, v, heq⟩
  · rw [heq, hnext]
  · rw [heq]
    exact hnext

/-- A followed use changes values only. -/
theorem stamps_follow (snapshot live w' : World α) (op : WorldOp α) (t : TypeId) :
    (∀ e, (snapshot.follow live w' op).fingerprintOn t e = snapshot.fingerprintOn t e) ∧
      (∀ e, (snapshot.follow live w' op).revisionByType t e = snapshot.revisionByType t e) ∧
      (snapshot.follow live w' op).storeWatermark t = snapshot.storeWatermark t := by
  obtain ⟨shared, hs, -, -, -, hcases⟩ := follow_cases snapshot live w' op
  have hshared : SameEntries snapshot shared := .of_stores hs
  rcases hcases with heq | ⟨t', e', cell, v, heq⟩
  · rw [heq]
    exact ⟨hshared.fingerprints t, hshared.revisions t, hshared.watermarks t⟩
  · rw [heq]
    refine ⟨fun e => ?_, fun e => ?_, ?_⟩
    · exact (fingerprintOn_showCell shared t' e' cell v t e).trans (hshared.fingerprints t e)
    · exact (map_showCell shared t' e' cell v Entry.revision (fun _ _ => rfl) t e).trans
        (hshared.revisions t e)
    · exact (store_showCell shared t' e' cell v t).2.2.trans (hshared.watermarks t)

/-- A write in place is shown alike by the live world and by a snapshot that has its cell. -/
theorem values_written {shared : World α} (h : SameEntries live shared) {t₁ : TypeId} {e₁ : Entity}
    {v : Value α} (hvalues : ∀ t e, (w'.cell? t e).map Entry.value =
      if t = t₁ ∧ e = e₁ then (live.cell? t₁ e₁).map fun _ => v
      else (live.cell? t e).map Entry.value)
    (hshares : ∀ x, live.cell? t₁ e₁ = some x → (∀ y, shared.cell? t₁ e₁ = some y →
      y.cell = x.cell) ∨ v = x.value) (t : TypeId) (e : Entity) :
    ((match live.cell? t₁ e₁ with
      | none => shared
      | some x => shared.showCell t₁ e₁ x.cell v).cell? t e).map Entry.value =
        (w'.cell? t e).map Entry.value := by
  cases hx : live.cell? t₁ e₁ with
  | none =>
    rw [hvalues, hx]
    refine (h.values t e).trans ?_
    split_ifs with hpair
    · rw [hpair.1, hpair.2, hx]
      rfl
    · rfl
  | some x =>
    refine values_showCell h (fun t' e' => ?_) ?_ t e
    · rw [hvalues]
      split_ifs with hpair
      · rw [hpair.1, hpair.2, hx, Option.map_some, Option.map_some, if_pos ⟨rfl, rfl, rfl⟩]
      · congr 1
        funext y
        rw [if_neg fun h => hpair ⟨h.1, h.2.1⟩]
    · refine (hshares x hx).imp (fun hcell a b ha hb => ?_) fun hv a ha => ?_
      · cases hx.symm.trans ha
        exact ⟨fun _ => hcell b hb, fun _ => rfl⟩
      · cases hx.symm.trans ha
        exact hv

/-- The values of the live world and of the snapshot stay the same over a covered use. -/
theorem values_follow (h : SameEntries live snapshot) (hstep : live.apply C op = some w')
    (hr : w'.revision = live.revision)
    (hcovered : Covered C ⟨live, some (live.snapshotKey, snapshot)⟩ (.use op)) (t : TypeId)
    (e : Entity) : ((snapshot.follow live w' op).cell? t e).map Entry.value =
      (w'.cell? t e).map Entry.value := by
  have hcovered := hcovered ⟨snapshot, rfl⟩
  have hshared : SameEntries live
      { snapshot with nextEntity := w'.nextEntity, derivedSpawns := w'.derivedSpawns } :=
    h.trans (.of_stores rfl)
  have hshares : ∀ {x : Entry α} {t : TypeId} {e : Entity}, live.cell? t e = some x →
      Shares ⟨live, some (live.snapshotKey, snapshot)⟩ t e x.cell →
      ∀ y, snapshot.cell? t e = some y → y.cell = x.cell :=
    fun hx hshares y hy => (hshares _ _ rfl _ y hx hy).mp rfl
  cases op with
  | update t₁ e₁ v =>
    cases hstep
    refine values_written hshared (fun t e => value_updateComponent live t₁ t e₁ e v)
      (fun x hx => ?_) t e
    rcases (hcovered x hx).2 with hamends | hcell | hv
    · -- a tracked change moves the revision
      have hmoved : (live.updateComponent C t₁ e₁ v).revision = live.revision + 1 := by
        unfold updateComponent restampEntry
        rw [if_pos hamends, hx]
        dsimp only
        rw [if_pos hamends]
      exact absurd (hr.symm.trans hmoved) (Nat.lt_succ_self _).ne
    · exact Or.inl (hshares hx hcell)
    · exact Or.inr hv
  | writeInPlace t₁ e₁ v =>
    cases hstep
    exact values_written hshared (fun t e => value_writeInPlace live t₁ t e₁ e v)
      (fun x hx => (hcovered x hx).imp_left (hshares hx)) t e
  | reconcileWritten writes =>
    cases hstep
    have hvalues := (stands_reconcileWritten hcovered).2 t e
    exact (h.values t e).trans hvalues.symm
  | _ => exact (h.values t e).trans (hcovered w' hstep hr t e).symm

theorem fingerprints_covered (hw' : w'.Coherent) (hstep : live.apply C op = some w')
    (hr : w'.revision = live.revision)
    (hcovered : Covered C ⟨live, some (live.snapshotKey, snapshot)⟩ (.use op)) (t : TypeId)
    (e : Entity) : w'.fingerprintOn t e = live.fingerprintOn t e := by
  have hcovered := hcovered ⟨snapshot, rfl⟩
  have hstands : Stands (fun _ => True) live w' := by
    cases op with
    | update t₁ e₁ v =>
      cases hstep
      exact stands_updateComponent live fun x hx _ => (hcovered x hx).1
    | writeInPlace t₁ e₁ v =>
      cases hstep
      exact stands_writeInPlace live t₁ e₁ v
    | reconcileWritten writes =>
      cases hstep
      exact (stands_reconcileWritten hcovered).1
    | _ => exact stands_apply rfl hstep
  exact hstands.fingerprints_eq hw' hr trivial e

/-- A covered use keeps the cached snapshot in step. -/
theorem Mirrors.use {key : SnapshotKey} (h : Mirrors live key snapshot)
    (hlive : World.Reachable C live) (hstep : live.apply C op = some w')
    (hcovered : Covered C ⟨live, some (key, snapshot)⟩ (.use op)) :
    Mirrors w' key (snapshot.follow live w' op) where
  indices := indices_follow h.indices live w' op
  allocated := nextEntity_follow snapshot live w' op
  ids := h.ids.trans (nextEntity_le hstep)
  stamps := h.stamps.trans (revision_le (coherent_of_reachable hlive) hstep)
  entries hkey := by
    have hcoherent := coherent_of_reachable hlive
    have hafter : w'.Coherent := hcoherent.apply hstep
    have hids : key.1 = w'.nextEntity := congrArg Prod.fst hkey
    have hstamps : key.2.1 = w'.revision := congrArg (fun k => k.2.1) hkey
    -- no counter has moved, so the snapshot was handed out before as well
    have hr : w'.revision = live.revision :=
      le_antisymm (hstamps ▸ h.stamps) (revision_le hcoherent hstep)
    have hnext : w'.nextEntity = live.nextEntity :=
      le_antisymm (hids ▸ h.ids) (nextEntity_le hstep)
    have hbefore : key = live.snapshotKey := by
      rw [hkey, snapshotKey, snapshotKey, hr, hnext, mutations_eq hstep hr]
    subst hbefore
    have hsame := h.entries rfl
    have hstore := sameStore_apply hcoherent hstep hr
    have hstamped := stamps_follow snapshot live w' op
    exact
      { values := values_follow hsame hstep hr hcovered
        fingerprints := fun t e => ((hstamped t).1 e).trans
          ((hsame.fingerprints t e).trans (fingerprints_covered hafter hstep hr hcovered t e).symm)
        revisions := fun t e => ((hstamped t).2.1 e).trans
          ((hsame.revisions t e).trans ((hstore t).2.revisions e).symm)
        watermarks := fun t => (hstamped t).2.2.trans
          ((hsame.watermarks t).trans (hstore t).1.symm) }

theorem writeCell_cases (live : World α) (t : TypeId) (e : Entity) (cell : Nat) (v : Value α) :
    (live.writeCell t e cell v = live ∧ ∀ x, live.cell? t e = some x → x.cell ≠ cell) ∨
      (live.writeCell t e cell v = live.writeInPlace t e v ∧
        ∀ x, live.cell? t e = some x → x.cell = cell) := by
  unfold World.writeCell
  cases hx : live.cell? t e with
  | none => exact Or.inl ⟨rfl, nofun⟩
  | some x =>
    rw [Option.any_some]
    split_ifs with hcell
    · refine Or.inr ⟨rfl, fun y hy => ?_⟩
      cases hy
      exact of_decide_eq_true hcell
    · refine Or.inl ⟨rfl, fun y hy => ?_⟩
      cases hy
      simpa using hcell

theorem value_writeCell (live : World α) (t t' : TypeId) (e e' : Entity) (cell : Nat)
    (v : Value α) : ((live.writeCell t e cell v).cell? t' e').map Entry.value =
      (live.cell? t' e').map fun x =>
        if t' = t ∧ e' = e ∧ x.cell = cell then v else x.value := by
  have helsewhere : ¬ (t' = t ∧ e' = e) → (live.cell? t' e').map Entry.value =
      (live.cell? t' e').map fun x =>
        if t' = t ∧ e' = e ∧ x.cell = cell then v else x.value := by
    intro hpair
    congr 1
    funext x
    rw [if_neg fun h => hpair ⟨h.1, h.2.1⟩]
  rcases writeCell_cases live t e cell v with ⟨heq, hcell⟩ | ⟨heq, hcell⟩
  · rw [heq]
    by_cases hpair : t' = t ∧ e' = e
    · rw [hpair.1, hpair.2]
      cases hx : live.cell? t e with
      | none => rfl
      | some x => rw [Option.map_some, Option.map_some, if_neg fun h => hcell x hx h.2.2]
    · exact helsewhere hpair
  · rw [heq, value_writeInPlace]
    split_ifs with hpair
    · rw [hpair.1, hpair.2]
      cases hx : live.cell? t e with
      | none => rfl
      | some x => rw [Option.map_some, Option.map_some, if_pos ⟨rfl, rfl, hcell x hx⟩]
    · exact helsewhere hpair

/-- A write through a snapshot is a use of the live world, or does not reach it. -/
theorem writeCell_apply (C : Components α) (live : World α) (t : TypeId) (e : Entity) (cell : Nat)
    (v : Value α) : live.writeCell t e cell v = live ∨
      live.apply C (.writeInPlace t e v) = some (live.writeCell t e cell v) := by
  rcases writeCell_cases live t e cell v with ⟨heq, -⟩ | ⟨heq, -⟩
  · exact Or.inl heq
  · exact Or.inr (congrArg some heq.symm)

theorem snapshotKey_writeCell (live : World α) (t : TypeId) (e : Entity) (cell : Nat)
    (v : Value α) : (live.writeCell t e cell v).snapshotKey = live.snapshotKey := by
  unfold World.writeCell writeInPlace
  split_ifs
  · cases live.cell? t e with
    | none => rfl
    | some x => rfl
  · rfl

/-- A covered write to a cell keeps the cached snapshot in step. -/
theorem Mirrors.writeCell {key : SnapshotKey} (h : Mirrors live key snapshot)
    (hlive : World.Reachable C live) {t : TypeId} {e : Entity} {cell : Nat} {v : Value α}
    (hcovered : Covered C ⟨live, some (key, snapshot)⟩ (.writeCell t e cell v)) :
    Mirrors (live.writeCell t e cell v) key (snapshot.showCell t e cell v) := by
  have hcounters := snapshotKey_writeCell live t e cell v
  have hnext : (live.writeCell t e cell v).nextEntity = live.nextEntity :=
    congrArg Prod.fst hcounters
  have hrevision : (live.writeCell t e cell v).revision = live.revision :=
    congrArg (fun k => k.2.1) hcounters
  refine ⟨h.indices.showCell t e cell v, h.allocated.trans hnext.symm, hnext ▸ h.ids,
    hrevision ▸ h.stamps, fun hkey => ?_⟩
  rw [hcounters] at hkey
  subst hkey
  have hsame := h.entries rfl
  have hstands : Stands (fun _ => True) live (live.writeCell t e cell v) ∧ ∀ t',
      (live.writeCell t e cell v).storeWatermark t' = live.storeWatermark t' ∧
        SameStore C t' live (live.writeCell t e cell v) := by
    rcases writeCell_cases live t e cell v with ⟨heq, -⟩ | ⟨heq, -⟩
    · rw [heq]
      exact ⟨.refl live, fun t' => ⟨rfl, fun _ => rfl, fun _ _ => rfl⟩⟩
    · refine ⟨heq ▸ stands_writeInPlace live t e v, ?_⟩
      have happly : live.apply C (.writeInPlace t e v) = some (live.writeCell t e cell v) :=
        congrArg some heq.symm
      exact sameStore_apply (coherent_of_reachable hlive) happly hrevision
  obtain ⟨hstands, hstore⟩ := hstands
  refine ⟨values_showCell hsame (fun t' e' => value_writeCell live t t' e e' cell v) ?_,
    fun t' e' => ?_, fun t' e' => ?_, fun t' => ?_⟩
  · exact (hcovered ⟨snapshot, rfl⟩).imp_left fun hshares => hshares _ _ rfl
  · have hcoherent := coherent_of_reachable hlive
    have hafter : (live.writeCell t e cell v).Coherent := by
      rcases writeCell_apply C live t e cell v with heq | happly
      · exact heq.symm ▸ hcoherent
      · exact hcoherent.apply happly
    rw [fingerprintOn_showCell, hsame.fingerprints, hstands.fingerprints_eq hafter hrevision trivial]
  · rw [revisionByType, map_showCell snapshot t e cell v Entry.revision fun _ _ => rfl,
      (hstore t').2.revisions]
    exact hsame.revisions t' e'
  · rw [storeWatermark, (store_showCell snapshot t e cell v t').2.2, (hstore t').1]
    exact hsame.watermarks t'

end Following

/-- The live world is reachable, and the cached snapshot mirrors it. -/
def Kept (C : Components α) (s : SnapshotCache α) : Prop :=
  World.Reachable C s.live ∧
    ∀ key snapshot, s.cached = some (key, snapshot) → Mirrors s.live key snapshot

theorem Kept.step (h : Kept C s) {op : CacheOp α} (hcovered : Covered C s op)
    (hstep : SnapshotCache.step C s op = some s') : Kept C s' := by
  obtain ⟨live, cached⟩ := s
  obtain ⟨hlive, hmirrors⟩ := h
  cases op with
  | use op =>
    obtain ⟨w', hw', rfl⟩ := Option.map_eq_some_iff.mp hstep
    refine ⟨.step hlive trivial hw', fun key snapshot hcached => ?_⟩
    obtain ⟨⟨key', snapshot'⟩, hentry, heq⟩ := Option.map_eq_some_iff.mp hcached
    cases heq
    cases hentry
    exact (hmirrors _ _ rfl).use hlive hw' hcovered
  | writeCell t e cell v =>
    cases hstep
    have hwritten : World.Reachable C (live.writeCell t e cell v) := by
      rcases writeCell_apply C live t e cell v with heq | happly
      · rw [heq]
        exact hlive
      · exact (Later.of_apply _ happly).reachable hlive
    refine ⟨hwritten, fun key snapshot hcached => ?_⟩
    obtain ⟨⟨key', snapshot'⟩, hentry, heq⟩ := Option.map_eq_some_iff.mp hcached
    cases heq
    cases hentry
    exact (hmirrors _ _ rfl).writeCell hlive hcovered
  | snapshot =>
    cases hstep
    have hclone : Kept C ⟨live, some (live.snapshotKey, live.clone)⟩ := by
      refine ⟨hlive, fun key snapshot hcached => ?_⟩
      cases hcached
      exact mirrors_clone (s := ⟨live, cached⟩) hlive
    unfold snapshotLocked
    cases cached with
    | none => exact hclone
    | some entry =>
      dsimp only
      split_ifs
      · exact ⟨hlive, hmirrors⟩
      · exact hclone

/-- Whatever was used in between, the snapshot that is handed out reads like a fresh clone. -/
theorem snapshotLocked_reads
    (h : (SnapshotCache.machine C).ReachableUnder (Covered C) s) :
    SameReads C s.live.clone s.snapshotLocked.1 := by
  obtain ⟨hlive, hmirrors⟩ : Kept C s := by
    refine h.invariant (Kept C) ?_ fun _ _ _ hs hcovered hstep => hs.step hcovered hstep
    rintro s ⟨hinit, hnone⟩
    refine ⟨.init hinit, fun key snapshot hcached => ?_⟩
    rw [hnone] at hcached
    cases hcached
  have hclone : s.live.clone.IndicesExact := (indicesExact_of_reachable hlive).congr rfl rfl rfl
  have hfresh : SameReads C s.live.clone s.live.clone :=
    (SameEntries.of_stores rfl).reads hclone hclone rfl
  unfold snapshotLocked
  cases hcached : s.cached with
  | none => exact hfresh
  | some entry =>
    dsimp only
    split_ifs with hkey
    · have hmirror := hmirrors _ _ hcached
      have hentries : SameEntries s.live.clone s.live := .of_stores rfl
      exact (hentries.trans (hmirror.entries hkey)).reads hclone hmirror.indices hmirror.allocated
    · exact hfresh

section Runs

/-- Before the first snapshot every use is covered. -/
theorem covered_of_uncached (w : World α) (op : WorldOp α) : Covered C ⟨w, none⟩ (.use op) :=
  fun hfresh => nomatch hfresh

/-- Components with their payload as the fingerprint, none of them tracked. -/
def untracked : Components Nat := { fingerprinted with tracked := fun _ => false }

def byPayload : Comparisons Nat := ⟨fun _ v v' => decide (v = v'), fun _ _ _ => false⟩

/-- A component is inserted on a spawned entity, and a snapshot is taken. -/
def stored : SnapshotCache Nat :=
  ((machine untracked).run ⟨World.new, none⟩ [.use .spawnEmpty,
    .use (.base (.insert 5 0 (.data 7))), .snapshot]).getD ⟨World.new, none⟩

theorem reachable_stored : (machine untracked).ReachableUnder (Covered untracked) stored := by
  have hnew : (machine untracked).ReachableUnder (Covered untracked) ⟨World.new, none⟩ :=
    .init ⟨⟨none, rfl⟩, rfl⟩
  have hspawned := hnew.step (covered_of_uncached _ .spawnEmpty) rfl
  have hinserted := hspawned.step (covered_of_uncached _ (.base (.insert 5 0 (.data 7)))) rfl
  exact hinserted.step (i := .snapshot) trivial rfl

/-- The component is then written in place, in the cell that the snapshot shares. -/
def shared : SnapshotCache Nat :=
  (step untracked stored (.use (.writeInPlace 5 0 (.data 9)))).getD stored

theorem shared_reads :
    shared.Fresh ∧ SameReads untracked shared.live.clone shared.snapshotLocked.1 := by
  refine ⟨⟨_, rfl⟩, snapshotLocked_reads (reachable_stored.step
    (i := .use (.writeInPlace 5 0 (.data 9))) (fun _ x hx => Or.inl ?_) rfl)⟩
  intro key snapshot hcached a b ha hb
  cases hcached
  have hcells : some a.cell = some b.cell :=
    (congrArg (Option.map Entry.cell) ha).symm.trans (congrArg (Option.map Entry.cell) hb)
  rw [Option.some.inj hcells]

/-- The component is updated instead, which restamps its fingerprint and moves no counter. -/
def restamped : SnapshotCache Nat :=
  (step untracked stored (.use (.update 5 0 (.data 9)))).getD stored

/-- The cached snapshot is still handed out, with the old fingerprint and without the row. -/
theorem restamped_stale :
    ((machine untracked).Reachable restamped ∧ restamped.Fresh) ∧
      (restamped.live.clone.fingerprintOn 5 0 = some 9 ∧
        restamped.snapshotLocked.1.fingerprintOn 5 0 = some 7) ∧
      (externalFilteredRows untracked byPayload restamped.live.clone (fun _ => .data 9) (.read 5)
          (.whereExpr (.eq 5)) = [0] ∧
        externalFilteredRows untracked byPayload restamped.snapshotLocked.1 (fun _ => .data 9)
          (.read 5) (.whereExpr (.eq 5)) = []) ∧
      ¬ SameReads untracked restamped.live.clone restamped.snapshotLocked.1 := by
  have hfingerprints : restamped.live.clone.fingerprintOn 5 0 = some 9 ∧
      restamped.snapshotLocked.1.fingerprintOn 5 0 = some 7 := by decide
  refine ⟨⟨?_, _, rfl⟩, hfingerprints, by decide, fun h => ?_⟩
  · exact reachable_stored.reachable.step (i := .use (.update 5 0 (.data 9))) trivial rfl
  · have hsame := h.fingerprints 5 0
    rw [hfingerprints.1, hfingerprints.2] at hsame
    cases hsame

end Runs

end SnapshotCache
end Porridge
