import Porridge.World.Buckets
import Porridge.World.Storage
import Porridge.World.Watermarks

/-! Runs of a world over a storage: its indices stay exact, and watermarks follow the changes. -/
namespace Porridge.World

variable {α : Type} (C : Components α) {w w' w₀ : World α}

/-- An invariant that the store effects and amendments keep, and that only reads the stores, the
revision and the presence bits, survives every operation. -/
theorem call_of_closed {I : World α → Prop} (hclosed : Closed C (fun w w' => I w → I w') .all)
    (hcongr : ∀ w w' : World α, w'.stores = w.stores → w'.revision = w.revision →
      w'.presence = w.presence → I w → I w')
    (hrestamp : ∀ (w : World α) t e v, I w → I (w.restampEntry C t e v))
    (hinPlace : ∀ (w : World α) t e v, I w → I (w.writeInPlace t e v))
    {c : WorldCall α} (hc : w.call C c = some w') (h : I w) : I w' := by
  have hop : ∀ op : WorldOp α, w.apply C op = some w' → I w' := fun _ ha =>
    apply_of_closed C hclosed hcongr hrestamp hinPlace ha h
  cases c with
  | insert t e v o => exact hclosed.insert hc trivial trivial h
  | flushDerivedFrom => exact hop .flush hc
  | removeComponent t e remover =>
    cases hc
    exact hclosed.removeComponent w t e remover (fun _ _ => trivial) h
  | removeEntity e =>
    cases hc
    exact hclosed.removeEntity w e trivial h
  | updateComponent t e v => exact hop (.update t e v) hc
  | writeInPlace t e v => exact hop (.writeInPlace t e v) hc
  | reconcileWritten writes => exact hop (.reconcileWritten writes) hc
  | takeDerivedOutputs o =>
    cases hc
    exact hcongr w _ rfl rfl rfl h
  | removeDerivedStale o previous =>
    cases hc
    exact hclosed.removeDerivedStale w previous (fun _ _ => trivial) h
  | retireOwners owners =>
    cases hc
    clear hop
    induction owners generalizing w with
    | nil => exact h
    | cons o owners ih =>
      have hforgot : I (w.forgetOwner o) := hcongr w _ rfl rfl rfl h
      exact ih (hclosed.removeDerivedEntries _ (w.outputs o) (fun _ _ => trivial) hforgot)
  | recordDerivedSpawn o e =>
    cases hc
    exact hcongr w _ rfl rfl rfl h
  | finishDerivedSpawns o =>
    cases hc
    exact hcongr w _ rfl rfl rfl h
  | singletonEntityOrRegister key candidate =>
    cases hc
    unfold singletonEntityOrRegister
    split
    · exact h
    · exact hcongr w _ rfl rfl rfl h
  | singletonEntityOrSpawn key => exact hop (.reserveSingleton key) hc
  | spawnEmpty => exact hop .spawnEmpty hc
  | drainRemovals => exact hop .drainRemovals hc
  | maybeRollPlanEpoch => exact hop .rollPlanEpoch hc

section Listed

variable (listing : Listing α)

theorem fingerprintOn_listed (w : World α) (t : TypeId) :
    (w.listed listing).fingerprintOn t = w.fingerprintOn t := by
  funext e
  rw [fingerprintOn, fingerprintOn, cell?_listed]

theorem IndicesExact.listed (h : w.IndicesExact) : (w.listed listing).IndicesExact where
  coherent := by
    refine ⟨fun t => ?_, fun t e x hx => ?_, fun t => ?_⟩
    · rw [store_listed, fingerprintOn_listed]
      exact h.coherent.fingerprints t
    · rw [storeWatermark_listed]
      exact h.coherent.entries t e x (by rwa [cell?_listed] at hx)
    · rw [storeWatermark_listed]
      exact h.coherent.watermarks t
  bucketed t := by
    rw [store_listed]
    exact h.bucketed t
  present := by
    refine h.present.imp fun schema hpresent => hpresent.congr (fun t e => ?_) rfl
    rw [has, has, cell?_listed]

theorem Follows.listed (h : Follows C w₀ w) : Follows C w₀ (w.listed listing) where
  revision := h.revision
  stores t := by
    rw [storeWatermark_listed]
    refine (h.stores t).imp_right fun ⟨hmark, hsame⟩ => ⟨hmark, fun e => ?_, fun ht e => ?_⟩
    · rw [revisionByType, cell?_listed]
      exact hsame.revisions e
    · rw [fingerprintOn_listed]
      exact hsame.fingerprints ht e

end Listed

variable {C}

theorem IndicesExact.call (h : w.IndicesExact) {c : WorldCall α} (hc : w.call C c = some w') :
    w'.IndicesExact where
  coherent := call_of_closed C (closed_coherent (C := C)) (fun _ _ hs hr _ h => h.congr hs hr)
    (fun _ t e v h => h.restampEntry t e v) (fun _ t e v h => h.writeInPlace t e v) hc h.coherent
  bucketed := call_of_closed C (closed_bucketed C) (fun _ _ hs _ _ h => h.congr hs)
    (fun _ t e v h => h.restampEntry t e v) (fun _ t e v h => h.writeInPlace t e v) hc h.bucketed
  present := h.present.imp fun _ hpresent =>
    call_of_closed C (closed_present C) (fun _ _ hs _ hp h => h.congr (has_congr hs) hp)
      (fun _ t e v h => h.restampEntry C t e v) (fun _ t e v h => h.writeInPlace t e v) hc hpresent

/-- Along a run over any storage, the indices stay exact and the watermarks follow. -/
theorem storage_run (schema : Option (List TypeId)) (hash : Listing α)
    {calls : List (WorldCall α)} (hrun : (storage C schema hash).run w calls = some w')
    (h : w.IndicesExact) : w'.IndicesExact ∧ Follows C w w' := by
  have hinvariant : w'.IndicesExact ∧ w'.Coherent ∧ Follows C w w' := by
    refine List.foldlM_some_induction
      (fun u => u.IndicesExact ∧ u.Coherent ∧ Follows C w u) calls hrun
      ⟨h, h.coherent, .refl w⟩ fun u c u' _ hu hstep => ?_
    obtain ⟨hexact, hcoherent, hfollows⟩ := hu
    have hlisted := hexact.listed (.ofSchema schema hash)
    have hstepped := call_of_closed C (closed_follows w)
      (fun _ _ hs hr _ h => ⟨h.1.congr hs hr, h.2.congr hs hr⟩)
      (fun _ t e v h => ⟨h.1.restampEntry t e v, h.2.restampEntry t e v⟩)
      (fun _ t e v h => ⟨h.1.writeInPlace t e v, h.2.writeInPlace t e v⟩) hstep
      ⟨hlisted.coherent, hfollows.listed C _⟩
    exact ⟨hlisted.call hstep, hstepped⟩
  exact ⟨hinvariant.1, hinvariant.2.2⟩

theorem indicesExact_ofSchema (schema : Option (List TypeId)) :
    (World.ofSchema schema : World α).IndicesExact :=
  ⟨coherent_ofSchema schema, fun _ => Index.ordered_empty, schema, present_ofSchema schema⟩

section Runs

variable {r : Revision} {u u' : World α}

/-- A run on two storages gives twins, or is refused by both. -/
theorem Twins.run {schema schema' : Option (List TypeId)} {hash hash' : Listing α} :
    ∀ {calls : List (WorldCall α)} {w u : World α}, Twins (.since r) w u →
      (storage C schema hash).Allows (fun w c => c.Untangled C w) w calls →
        TwinResults (.since r) ((storage C schema hash).run w calls)
          ((storage C schema' hash').run u calls)
  | [], _, _, h, _ => .some h
  | c :: calls, w, u, h, ha => by
    obtain ⟨hc, hrest⟩ := ha
    have hstep : TwinResults (.since r) ((storage C schema hash).step w c)
        ((storage C schema' hash').step u c) := h.step C hash hash' hc
    show TwinResults (.since r)
      (((storage C schema hash).step w c).bind fun w => (storage C schema hash).run w calls)
      (((storage C schema' hash').step u c).bind fun u => (storage C schema' hash').run u calls)
    generalize (storage C schema hash).step w c = next at hstep hrest ⊢
    generalize (storage C schema' hash').step u c = next' at hstep ⊢
    cases hstep with
    | none => exact .none
    | some hnext => exact Twins.run hnext (hrest _ rfl)

/-- Twins at some moment, seen from that moment on. -/
theorem Twins.from_now (h : Twins (.since r) w u) (hw : w.Coherent) (hu : u.Coherent) :
    Twins (.since w.revision) w u where
  cells t e := by
    rcases h.cases t e with ⟨hx, hy⟩ | ⟨x, y, hx, hy, hxy⟩
    · rw [hx, hy]
      exact .none
    · rw [hx, hy]
      exact .some ⟨hxy.value, hxy.fingerprint, hxy.owner, hxy.stamp⟩
  marks t := by
    have hrevision : w.revision = u.revision := h.clock.1
    exact iff_of_false (not_lt.mpr (hw.watermarks t)) (not_lt.mpr (hrevision ▸ hu.watermarks t))
  clock := ⟨h.clock.1, le_rfl⟩
  books := h.books

end Runs
end Porridge.World
