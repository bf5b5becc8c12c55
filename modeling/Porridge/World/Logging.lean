import Porridge.World.Watermarks

/-! Every entry that a use of the world adds, removes or gives a new revision is in the write log. -/
namespace Porridge.World

variable {α : Type} {C : Components α} {w w' u : World α}

/-- The log has only grown, by every pair whose revision is not what it was. -/
structure Logs (w w' : World α) : Prop where
  planEpoch : w'.planEpoch = w.planEpoch
  log : ∃ tail, w'.writeLog = w.writeLog ++ tail ∧
    ∀ t e, w'.revisionByType t e ≠ w.revisionByType t e → (t, e) ∈ tail

theorem Logs.refl (w : World α) : Logs w w where
  planEpoch := rfl
  log := ⟨[], (List.append_nil _).symm, fun _ _ hne => absurd rfl hne⟩

theorem Logs.trans (h : Logs w u) (h' : Logs u w') : Logs w w' where
  planEpoch := h'.planEpoch.trans h.planEpoch
  log := by
    obtain ⟨tail, htail, hlogged⟩ := h.log
    obtain ⟨tail', htail', hlogged'⟩ := h'.log
    refine ⟨tail ++ tail', ?_, fun t e hne => List.mem_append.mpr ?_⟩
    · rw [htail', htail, List.append_assoc]
    · by_cases hmiddle : u.revisionByType t e = w.revisionByType t e
      · exact Or.inr (hlogged' t e (hmiddle ▸ hne))
      · exact Or.inl (hlogged t e hmiddle)

theorem Logs.of_stores (hs : w'.stores = w.stores) (hl : w'.writeLog = w.writeLog)
    (hp : w'.planEpoch = w.planEpoch) : Logs w w' where
  planEpoch := hp
  log := ⟨[], by rw [hl, List.append_nil], fun t e hne =>
    absurd (by rw [revisionByType, revisionByType, cell?_congr hs]) hne⟩

/-- One pair is rebound and logged. -/
theorem Logs.of_rebind {t : TypeId} {e : Entity} {x : Option (Entry α)}
    (hcell : ∀ t' e', w'.cell? t' e' = if t' = t ∧ e' = e then x else w.cell? t' e')
    (hl : w'.writeLog = w.writeLog ++ [(t, e)]) (hp : w'.planEpoch = w.planEpoch) : Logs w w' where
  planEpoch := hp
  log := by
    refine ⟨[(t, e)], hl, fun t' e' hne => ?_⟩
    by_cases hsame : t' = t ∧ e' = e
    · rw [hsame.1, hsame.2]
      exact List.mem_singleton_self _
    · rw [revisionByType, hcell, if_neg hsame] at hne
      exact absurd rfl hne

theorem logs_eraseEntry (w : World α) (t : TypeId) (e : Entity) : Logs w (w.eraseEntry t e) :=
  .of_rebind (fun t' e' => cell?_eraseEntry w t t' e e') rfl rfl

theorem logs_eraseEntries (e : Entity) : ∀ (types : List TypeId) (w : World α),
    Logs w (w.eraseEntries types e)
  | [], w => .refl w
  | t :: types, w => (logs_eraseEntry w t e).trans (logs_eraseEntries e types _)

/-- Every store effect logs the pairs it changes. -/
theorem closed_logs (C : Components α) : Closed C (Logs (α := α)) Permits.all where
  refl := Logs.refl
  trans := Logs.trans
  bookkeeping hb _ := .of_stores hb.stores hb.writeLog hb.planEpoch
  write w t e v o _ := by
    have hlog : (w.writeEntry C t e v o).writeLog = w.writeLog ++ [(t, e)] ∧
        (w.writeEntry C t e v o).planEpoch = w.planEpoch := by
      unfold writeEntry
      dsimp only
      rw [(reindexDerived_eq _ t e (w.owner? t e) o).choose_spec]
      exact ⟨rfl, rfl⟩
    exact .of_rebind (fun t' e' => cell?_writeEntry C w t t' e e' v o) hlog.1 hlog.2
  drop w t e remover _ := by
    unfold dropEntry
    split_ifs
    · rw [(unregisterSingleton_eq C _ t e).choose_spec,
        (disownEntry_eq _ t e (w.owner? t e) remover).choose_spec.choose_spec]
      exact (logs_eraseEntry w t e).trans (.of_stores rfl rfl rfl)
    · exact Logs.refl w
  sweep w t e o _ := by
    unfold sweepEntry
    split_ifs
    · exact (logs_eraseEntry w t e).trans (.of_stores rfl rfl rfl)
    · exact Logs.refl w
  purge w e _ := by
    unfold purgeEntity
    dsimp only
    rw [(unindexEntries_eq e (w.ownedOn e) _).choose_spec]
    exact (logs_eraseEntries e (w.componentsOn e) w).trans (.of_stores rfl rfl rfl)
  inverse _ _ _ _ := trivial

theorem revisionByType_restampEntry {t : TypeId} {e : Entity} {v : Value α}
    (h : w.amends C t e v = false) (t' : TypeId) (e' : Entity) :
    (w.restampEntry C t e v).revisionByType t' e' = w.revisionByType t' e' := by
  unfold restampEntry
  cases hx : w.cell? t e with
  | none => rfl
  | some x =>
    dsimp only
    rw [if_neg (by rw [h]; exact Bool.false_ne_true), revisionByType, cell?_amendEntry]
    split_ifs with hsame
    · rw [hsame.1, hsame.2, revisionByType, hx]
      rfl
    · rfl

/-- An amendment writes its own pair only. -/
theorem revisionByType_restampEntry_ne {t : TypeId} {e : Entity} (v : Value α) {t' : TypeId}
    {e' : Entity} (hne : ¬ (t' = t ∧ e' = e)) :
    (w.restampEntry C t e v).revisionByType t' e' = w.revisionByType t' e' := by
  unfold restampEntry
  cases w.cell? t e with
  | none => rfl
  | some x =>
    dsimp only
    split_ifs
    · exact congrArg (Option.map Entry.revision) ((cell?_amendEntry w ..).trans (if_neg hne))
    · exact congrArg (Option.map Entry.revision) ((cell?_amendEntry w ..).trans (if_neg hne))

theorem restampEntry_log (w : World α) (t : TypeId) (e : Entity) (v : Value α) :
    (w.restampEntry C t e v).writeLog = w.writeLog ∧
      (w.restampEntry C t e v).planEpoch = w.planEpoch := by
  unfold restampEntry
  split
  · exact ⟨rfl, rfl⟩
  · split_ifs <;> exact ⟨rfl, rfl⟩

/-- A restamped pair that is logged is all that may have changed. -/
theorem Logs.of_restamp (w : World α) (t : TypeId) (e : Entity) (v : Value α) :
    Logs w { w.restampEntry C t e v with
      writeLog := (w.restampEntry C t e v).writeLog ++ [(t, e)] } where
  planEpoch := (restampEntry_log w t e v).2
  log := by
    refine ⟨[(t, e)], by rw [(restampEntry_log w t e v).1], fun t' e' hne => ?_⟩
    by_cases hsame : t' = t ∧ e' = e
    · rw [hsame.1, hsame.2]
      exact List.mem_singleton_self _
    · exact absurd (revisionByType_restampEntry_ne v hsame) hne

theorem logs_updateComponent (w : World α) (t : TypeId) (e : Entity) (v : Value α) :
    Logs w (w.updateComponent C t e v) := by
  unfold updateComponent
  split_ifs with hamends
  · exact .of_restamp w t e v
  · obtain ⟨hlog, hepoch⟩ := restampEntry_log (C := C) w t e v
    refine ⟨hepoch, [], by rw [hlog, List.append_nil], fun t' e' hne => ?_⟩
    exact absurd (revisionByType_restampEntry (by simpa using hamends) t' e') hne

theorem logs_writeInPlace (w : World α) (t : TypeId) (e : Entity) (v : Value α) :
    Logs w (w.writeInPlace t e v) := by
  unfold writeInPlace
  cases hx : w.cell? t e with
  | none => exact .refl w
  | some x =>
    refine ⟨rfl, [], (List.append_nil _).symm, fun t' e' hne => absurd ?_ hne⟩
    rw [revisionByType, cell?_amendEntry]
    split_ifs with hsame
    · rw [hsame.1, hsame.2, revisionByType, hx]
      rfl
    · rfl

theorem logs_reconcileWritten (w : World α) (writes : List (TypeId × Entity)) :
    Logs w (w.reconcileWritten C writes) := by
  refine List.foldlRecOn writes _ (motive := Logs w) (.refl w) fun u hu p _ => hu.trans ?_
  split_ifs
  · unfold reconcileEntry
    cases u.cell? p.1 p.2 with
    | none => exact ⟨rfl, [p], rfl, fun _ _ hne => absurd rfl hne⟩
    | some x => exact .of_restamp u p.1 p.2 x.value
  · exact .refl u

/-- Writes to entries that are gone are logged and change nothing else. -/
theorem reconcileWritten_of_absent {writes : List (TypeId × Entity)}
    (hstores : ∀ p ∈ writes, p.1 ∈ w.stores) (habsent : ∀ p ∈ writes, w.cell? p.1 p.2 = none) :
    w.reconcileWritten C writes = { w with writeLog := w.writeLog ++ writes } := by
  induction writes generalizing w with
  | nil => rw [List.append_nil]; rfl
  | cons p writes ih =>
    have hgone : w.reconcileEntry C p.1 p.2 = w := by
      unfold reconcileEntry
      rw [habsent p List.mem_cons_self]
    have hfirst : w.reconcileWritten C (p :: writes) =
        ({ w with writeLog := w.writeLog ++ [p] } : World α).reconcileWritten C writes := by
      unfold reconcileWritten
      rw [List.foldl_cons, if_pos (hstores p List.mem_cons_self), hgone]
    refine (hfirst.trans (ih (fun q hq => hstores q (List.mem_cons_of_mem _ hq))
      fun q hq => habsent q (List.mem_cons_of_mem _ hq))).trans ?_
    rw [List.append_assoc]
    rfl

/-- Every use but the roll of the log logs the pairs it changes. -/
theorem logs_apply {op : WorldOp α} (hop : op ≠ .rollPlanEpoch) (h : w.apply C op = some w') :
    Logs w w' := by
  have heffects : op.amending = false → Logs w w' := fun hamending =>
    apply_of_effects C ((closed_logs C).after w) (fun _ _ hsame hu =>
      hu.trans (.of_stores hsame.stores hsame.writeLog hsame.planEpoch))
      (fun hroll => absurd hroll hop) hamending h (.refl w)
  cases op with
  | update t e v =>
    cases h
    exact logs_updateComponent w t e v
  | writeInPlace t e v =>
    cases h
    exact logs_writeInPlace w t e v
  | reconcileWritten writes =>
    cases h
    exact logs_reconcileWritten w writes
  | _ => exact heffects rfl

/-- A pair that shows another revision belongs to a store with a newer watermark. -/
theorem lt_storeWatermark {op : WorldOp α} (hw : w.Coherent) (h : w.apply C op = some w')
    {t : TypeId} {e : Entity} (hne : w'.revisionByType t e ≠ w.revisionByType t e) :
    w.revision < w'.storeWatermark t := by
  obtain ⟨-, hfollows⟩ := (Follows.refl w).later hw (.of_apply op h)
  exact (hfollows.stores t).resolve_right fun hsame => hne (hsame.2.revisions e)

end Porridge.World
