import Porridge.World.Coherence
import Porridge.World.Reach
import Porridge.World.Relationships

/-! What hangs on entities that a destructive read closes, and what closing them leaves alone. -/
namespace Porridge
namespace World

variable {α : Type} (C : Components α)

/-- The invocation is keyed by an entity reached from the roots, or owns a component of a root. -/
def Retires (w : World α) (roots : List Entity) (o : SystemInvocation) : Prop :=
  w.Reaches (fun _ => True) roots o ∨ ∃ t, ∃ e ∈ roots, w.owner? t e = some o

/-- The entry is there, on a root, as an output of a retired invocation, or as an edge that a
root's inverse lists. -/
def Lost (w : World α) (roots : List Entity) (t : TypeId) (e : Entity) : Prop :=
  w.has t e = true ∧ (e ∈ roots ∨ (∃ o, w.owner? t e = some o ∧ w.Retires roots o) ∨
    ∃ root ∈ roots, (t, e) ∈ w.retractionsOn C root)

/-- The entry is lost, or the inverse of a lost edge. -/
def Affected (w : World α) (roots : List Entity) (t : TypeId) (e : Entity) : Prop :=
  w.Lost C roots t e ∨ ∃ t' e', w.Lost C roots t' e' ∧ w.edgeOn C t' e' = some (t, e)

/-- `w` is `w₀` less some affected entries, with those in `gone` certainly absent. -/
structure TornFrom (w₀ w : World α) (roots : List Entity) (gone : TypeId → Entity → Prop) :
    Prop where
  cell : ∀ t e, w.cell? t e = w₀.cell? t e ∨ w₀.Affected C roots t e
  plain : ∀ t e, ¬ C.IsInverse t → w.cell? t e = w₀.cell? t e ∨ w.cell? t e = none
  has : ∀ t e, w.has t e = true → w₀.has t e = true
  owner : ∀ t e o, w.owner? t e = some o → w₀.owner? t e = some o
  members : ∀ t e, ∀ m ∈ w.membersOn t e, m ∈ w₀.membersOn t e
  watermark : ∀ t, (∀ e, ¬ w₀.Affected C roots t e) → w.storeWatermark t = w₀.storeWatermark t
  allocated : w.nextEntity = w₀.nextEntity
  gone : ∀ t e, gone t e → w.cell? t e = none

/-- `u'` is `u` but for one entry, which goes or stays as a shorter inverse. -/
structure Curtails (t : TypeId) (e : Entity) (u u' : World α) : Prop where
  cell : ∀ t' e', ¬ (t' = t ∧ e' = e) → u'.cell? t' e' = u.cell? t' e'
  watermark : ∀ t', t' ≠ t → u'.storeWatermark t' = u.storeWatermark t'
  allocated : u'.nextEntity = u.nextEntity
  entry : u'.cell? t e = none ∨ u'.cell? t e = u.cell? t e ∨
    (C.IsInverse t ∧ u.has t e = true ∧ u'.owner? t e = none ∧
      ∀ m ∈ u'.membersOn t e, m ∈ u.membersOn t e)

variable {C}

section Effects

variable {w : World α} {t : TypeId} {e : Entity}

theorem Curtails.rfl : Curtails C t e w w :=
  ⟨fun _ _ _ => Eq.refl _, fun _ _ => Eq.refl _, Eq.refl _, Or.inr (Or.inl (Eq.refl _))⟩

theorem curtails_dropEntry (remover : Option SystemInvocation) :
    Curtails C t e w (w.dropEntry C t e remover) := by
  have hmark : ∀ t', t' ≠ t → (w.dropEntry C t e remover).storeWatermark t' = w.storeWatermark t' ∧
      (w.dropEntry C t e remover).nextEntity = w.nextEntity := by
    intro t' ht
    unfold dropEntry
    split_ifs
    · obtain ⟨singletons, hsingletons⟩ := unregisterSingleton_eq C
        (((w.eraseEntry t e).presenceSet t e false).disownEntry t e (w.owner? t e) remover) t e
      obtain ⟨owners, losers, howners⟩ := disownEntry_eq ((w.eraseEntry t e).presenceSet t e false)
        t e (w.owner? t e) remover
      rw [hsingletons, howners]
      have herased : (w.eraseEntry t e).storeWatermark t' = w.storeWatermark t' := by
        rw [storeWatermark_eraseEntry, if_neg ht]
      exact ⟨herased, Eq.refl _⟩
    · exact ⟨Eq.refl _, Eq.refl _⟩
  constructor
  · intro t' e' hne
    rw [cell?_dropEntry, if_neg hne]
  · exact fun t' ht => (hmark t' ht).1
  · exact (hmark (t + 1) (Nat.succ_ne_self t)).2
  · exact Or.inl (by rw [cell?_dropEntry, if_pos ⟨Eq.refl _, Eq.refl _⟩])

theorem curtails_sweepEntry {o : SystemInvocation} (ho : w.owner? t e = some o) :
    Curtails C t e w (w.sweepEntry t e o) := by
  have hswept : w.sweepEntry t e o = (w.eraseEntry t e).presenceSet t e false := if_pos ho
  constructor
  · intro t' e' hne
    rw [cell?_sweepEntry, if_neg fun hp => hne ⟨hp.1, hp.2.1⟩]
  · intro t' ht
    have herased : (w.eraseEntry t e).storeWatermark t' = w.storeWatermark t' := by
      rw [storeWatermark_eraseEntry, if_neg ht]
    rw [hswept]
    exact herased
  · rw [hswept]
    rfl
  · exact Or.inl (by rw [cell?_sweepEntry, if_pos ⟨Eq.refl _, Eq.refl _, ho⟩])

theorem storeWatermark_writeEntry_ne (v : Value α) (o : Option SystemInvocation) {t' : TypeId}
    (ht : t' ≠ t) : (w.writeEntry C t e v o).storeWatermark t' = w.storeWatermark t' := by
  rw [storeWatermark, storeWatermark, store, store, writeEntry_stores]
  simp [amendEntry, Dict.getD_insert, ht]

theorem nextEntity_writeEntry (v : Value α) (o : Option SystemInvocation) :
    (w.writeEntry C t e v o).nextEntity = w.nextEntity := by
  unfold writeEntry
  dsimp only
  rw [(reindexDerived_eq _ t e (w.owner? t e) o).choose_spec]
  rfl

theorem curtails_retractEdge (source : Entity) (hinverse : C.IsInverse t) :
    Curtails C t e w (w.retractEdge C source (some (t, e))) := by
  unfold retractEdge relationshipRemoveMember
  dsimp only
  split
  · exact .rfl
  · rename_i x hx
    split_ifs with hmem hnone
    · exact curtails_dropEntry none
    · have hlist : w.membersOn t e = x.value.memberList := by rw [membersOn, hx]; rfl
      constructor
      · intro t' e' hne
        rw [cell?_writeEntry, if_neg hne]
      · exact fun t' ht => storeWatermark_writeEntry_ne _ none ht
      · exact nextEntity_writeEntry _ none
      · refine Or.inr (Or.inr ⟨hinverse, (has_iff w t e).mpr ⟨x, hx⟩, ?_, fun m hm => ?_⟩)
        · rw [owner?_writeEntry, if_pos ⟨Eq.refl _, Eq.refl _⟩]
        · rw [membersOn, cell?_writeEntry, if_pos ⟨Eq.refl _, Eq.refl _⟩] at hm
          rw [hlist]
          exact List.mem_of_mem_erase hm
    · exact .rfl

end Effects

section Steps

variable {w₀ w : World α} {roots : List Entity} {gone : TypeId → Entity → Prop} {t : TypeId}
  {e : Entity}

theorem mem_retractionsOn_iff {w : World α} {edge : TypeId} {e source : Entity} :
    (edge, source) ∈ w.retractionsOn C e ↔
      ∃ t, C.role t = .inverse edge ∧ source ∈ w.membersOn t e := by
  unfold retractionsOn
  simp only [List.mem_flatMap, mem_componentsOn]
  constructor
  · rintro ⟨t, -, hmem⟩
    cases hx : w.cell? t e with
    | none => simp [hx] at hmem
    | some x =>
      rw [hx] at hmem
      simp only [Option.map_some, Option.getD_some, Components.relationshipRetractions] at hmem
      split at hmem
      · rename_i edge' sources hrole hvalue
        obtain ⟨s, hs, heq⟩ := List.mem_map.mp hmem
        cases heq
        refine ⟨t, hrole, ?_⟩
        rw [membersOn, hx]
        simpa [hvalue, Value.memberList] using hs
      · cases hmem
  · rintro ⟨t, hrole, hmem⟩
    cases hx : w.cell? t e with
    | none => simp [membersOn, hx] at hmem
    | some x =>
      refine ⟨t, (has_iff w t e).mpr ⟨x, hx⟩, ?_⟩
      rw [membersOn, hx] at hmem
      simp only [Option.map_some, Option.getD_some] at hmem
      rw [hx]
      simp only [Option.map_some, Option.getD_some, Components.relationshipRetractions, hrole]
      cases hvalue : x.value with
      | members sources =>
        rw [hvalue] at hmem
        exact List.mem_map.mpr ⟨source, hmem, Eq.refl _⟩
      | _ =>
        rw [hvalue] at hmem
        cases hmem

theorem TornFrom.refl (w : World α) (roots : List Entity) :
    TornFrom C w w roots fun _ _ => False where
  cell _ _ := Or.inl (Eq.refl _)
  plain _ _ _ := Or.inl (Eq.refl _)
  has _ _ h := h
  owner _ _ _ h := h
  members _ _ _ h := h
  watermark _ _ := Eq.refl _
  allocated := Eq.refl _
  gone _ _ h := h.elim

theorem TornFrom.mono {gone' : TypeId → Entity → Prop} (h : TornFrom C w₀ w roots gone)
    (hgone : ∀ t e, gone' t e → w.cell? t e = none) : TornFrom C w₀ w roots gone' :=
  { h with gone := hgone }

/-- Equal stores tear equally. -/
theorem TornFrom.congr {w' : World α} (h : TornFrom C w₀ w roots gone)
    (hs : w'.stores = w.stores) (hn : w'.nextEntity = w.nextEntity) :
    TornFrom C w₀ w' roots gone := by
  have hcell := cell?_congr hs
  constructor
  · exact fun t e => hcell t e ▸ h.cell t e
  · exact fun t e ht => hcell t e ▸ h.plain t e ht
  · intro t e hhas
    rw [World.has, hcell] at hhas
    exact h.has t e hhas
  · intro t e o ho
    rw [owner?, hcell] at ho
    exact h.owner t e o ho
  · intro t e m hm
    rw [membersOn_congr (hcell t e)] at hm
    exact h.members t e m hm
  · intro t ht
    rw [storeWatermark, store, hs]
    exact h.watermark t ht
  · exact hn.trans h.allocated
  · exact fun t e hg => (hcell t e).trans (h.gone t e hg)

/-- Curtailing an affected entry tears no further. -/
theorem TornFrom.curtail {w' : World α} (h : TornFrom C w₀ w roots gone)
    (haffected : w₀.Affected C roots t e) (hw : Curtails C t e w w') :
    TornFrom C w₀ w' roots gone := by
  have hcases : ∀ t' e', w'.cell? t' e' = w.cell? t' e' ∨ w'.cell? t' e' = none ∨
      (t' = t ∧ e' = e ∧ C.IsInverse t ∧ w.has t e = true ∧ w'.owner? t e = none ∧
        ∀ m ∈ w'.membersOn t e, m ∈ w.membersOn t e) := by
    intro t' e'
    by_cases hp : t' = t ∧ e' = e
    · obtain ⟨rfl, rfl⟩ := hp
      rcases hw.entry with hnone | hsame | ⟨hi, hhas, ho, hm⟩
      · exact Or.inr (Or.inl hnone)
      · exact Or.inl hsame
      · exact Or.inr (Or.inr ⟨Eq.refl _, Eq.refl _, hi, hhas, ho, hm⟩)
    · exact Or.inl (hw.cell t' e' hp)
  constructor
  · intro t' e'
    by_cases hp : t' = t ∧ e' = e
    · obtain ⟨rfl, rfl⟩ := hp
      exact Or.inr haffected
    · rw [hw.cell t' e' hp]
      exact h.cell t' e'
  · intro t' e' hplain
    rcases hcases t' e' with hsame | hnone | ⟨rfl, -, hi, -⟩
    · rw [hsame]
      exact h.plain t' e' hplain
    · exact Or.inr hnone
    · exact absurd hi hplain
  · intro t' e' hhas
    rcases hcases t' e' with hsame | hnone | ⟨rfl, rfl, -, hbefore, -⟩
    · rw [World.has, hsame] at hhas
      exact h.has t' e' hhas
    · rw [World.has, hnone] at hhas
      cases hhas
    · exact h.has _ _ hbefore
  · intro t' e' o ho
    rcases hcases t' e' with hsame | hnone | ⟨rfl, rfl, -, -, hbase, -⟩
    · rw [owner?, hsame] at ho
      exact h.owner t' e' o ho
    · rw [owner?, hnone] at ho
      cases ho
    · cases hbase.symm.trans ho
  · intro t' e' m hm
    rcases hcases t' e' with hsame | hnone | ⟨rfl, rfl, -, -, -, hmembers⟩
    · rw [membersOn_congr hsame] at hm
      exact h.members t' e' m hm
    · rw [membersOn, hnone] at hm
      cases hm
    · exact h.members _ _ m (hmembers m hm)
  · intro t' ht
    by_cases htt : t' = t
    · exact absurd (htt ▸ haffected) (ht e)
    · rw [hw.watermark t' htt]
      exact h.watermark t' ht
  · exact hw.allocated.trans h.allocated
  · intro t' e' hg
    rcases hcases t' e' with hsame | hnone | ⟨rfl, rfl, -, hhas, -⟩
    · exact hsame.trans (h.gone t' e' hg)
    · exact hnone
    · rw [World.has, h.gone _ _ hg] at hhas
      cases hhas

/-- Edges that are left are edges from before. -/
theorem TornFrom.edgeOn (h : TornFrom C w₀ w roots gone) {p : TypeId × Entity}
    (hp : w.edgeOn C t e = some p) : w₀.edgeOn C t e = some p := by
  rcases h.plain t e (not_isInverse_of_edgeOn hp) with hsame | hnone
  · rw [World.edgeOn, ← hsame]
    exact hp
  · rw [World.edgeOn, hnone] at hp
    cases hp

theorem TornFrom.retractEdge (h : TornFrom C w₀ w roots gone) (source : Entity)
    {edge : Option (TypeId × Entity)}
    (hedge : ∀ p ∈ edge, C.IsInverse p.1 ∧ w₀.Affected C roots p.1 p.2) :
    TornFrom C w₀ (w.retractEdge C source edge) roots gone := by
  cases edge with
  | none => exact h
  | some p =>
    obtain ⟨hinverse, haffected⟩ := hedge p (Eq.refl _)
    exact h.curtail haffected (curtails_retractEdge source hinverse)

theorem has_of_edgeOn {w : World α} {p : TypeId × Entity} (hp : w.edgeOn C t e = some p) :
    w.has t e = true := by
  obtain ⟨x, hx, -⟩ := Option.bind_eq_some_iff.mp hp
  exact (has_iff w t e).mpr ⟨x, hx⟩

/-- The edge of a lost entry leads to an affected inverse. -/
theorem TornFrom.edge_affected (h : TornFrom C w₀ w roots gone)
    (hlost : w.has t e = true → w₀.Lost C roots t e) :
    ∀ p ∈ w.edgeOn C t e, C.IsInverse p.1 ∧ w₀.Affected C roots p.1 p.2 := by
  intro p hp
  exact ⟨isInverse_edgeOn C hp, Or.inr ⟨t, e, hlost (has_of_edgeOn hp), h.edgeOn hp⟩⟩

theorem TornFrom.removeComponent (h : TornFrom C w₀ w roots gone)
    (hlost : w.has t e = true → w₀.Lost C roots t e) (remover : Option SystemInvocation) :
    TornFrom C w₀ (w.removeComponent C t e remover) roots gone := by
  have hdropped : TornFrom C w₀ (w.dropEntry C t e remover) roots gone := by
    by_cases hhas : w.has t e = true
    · exact h.curtail (Or.inl (hlost hhas)) (curtails_dropEntry remover)
    · rw [dropEntry, if_neg hhas]
      exact h
  exact hdropped.retractEdge e (h.edge_affected hlost)

theorem has_of_owner? {w : World α} {o : SystemInvocation} (ho : w.owner? t e = some o) :
    w.has t e = true := by
  obtain ⟨x, hx, -⟩ := Option.bind_eq_some_iff.mp ho
  exact (has_iff w t e).mpr ⟨x, hx⟩

theorem TornFrom.removeDerivedEntry (h : TornFrom C w₀ w roots gone) {o : SystemInvocation}
    (ho : w₀.Retires roots o) (t : TypeId) (e : Entity) :
    TornFrom C w₀ (w.removeDerivedEntry C t e o) roots gone := by
  unfold World.removeDerivedEntry
  split_ifs with howned
  · have hlost : w₀.Lost C roots t e :=
      ⟨has_of_owner? (h.owner t e o howned), Or.inr (Or.inl ⟨o, h.owner t e o howned, ho⟩)⟩
    have hswept := h.curtail (Or.inl hlost) (curtails_sweepEntry howned)
    exact hswept.retractEdge e (h.edge_affected fun _ => hlost)
  · exact h

theorem TornFrom.removeDerivedOwned (h : TornFrom C w₀ w roots gone) {o : SystemInvocation}
    (ho : w₀.Retires roots o) : TornFrom C w₀ (w.removeDerivedOwned C o) roots gone := by
  have hforgot : TornFrom C w₀ (w.forgetOwner o) roots gone := h.congr rfl rfl
  have hentries : ∀ (pairs : List (TypeId × Entity)) {u : World α}, TornFrom C w₀ u roots gone →
      TornFrom C w₀ (u.removeDerivedEntries C o pairs) roots gone := by
    intro pairs
    induction pairs with
    | nil => exact fun hu => hu
    | cons p pairs ih => exact fun hu => ih (hu.removeDerivedEntry ho p.1 p.2)
  exact hentries _ hforgot

theorem storeWatermark_eraseEntries : ∀ (types : List TypeId) (w : World α), t ∉ types →
    (w.eraseEntries types e).storeWatermark t = w.storeWatermark t
  | [], _, _ => Eq.refl _
  | t' :: types, w, ht => by
    have hne : t ≠ t' := fun heq => ht (heq ▸ List.mem_cons_self)
    have hrest := storeWatermark_eraseEntries types (w.eraseEntry t' e)
      fun hmem => ht (List.mem_cons_of_mem _ hmem)
    have herased : (w.eraseEntry t' e).storeWatermark t = w.storeWatermark t := by
      rw [storeWatermark_eraseEntry, if_neg hne]
    exact hrest.trans herased

theorem storeWatermark_purgeEntity (w : World α) (hhas : w.has t e = false) :
    (w.purgeEntity e).storeWatermark t = w.storeWatermark t := by
  have hnot : t ∉ w.componentsOn e := by
    rw [mem_componentsOn, hhas]
    exact Bool.false_ne_true
  have hstores : (w.purgeEntity e).stores = (w.eraseEntries (w.componentsOn e) e).stores :=
    unindexEntries_stores ..
  rw [storeWatermark, store, hstores]
  exact storeWatermark_eraseEntries (w.componentsOn e) w hnot

theorem nextEntity_purgeEntity (w : World α) (e : Entity) :
    (w.purgeEntity e).nextEntity = w.nextEntity := by
  unfold World.purgeEntity
  obtain ⟨stores, revision, mutations, log, herased⟩ := eraseEntries_eq e (w.componentsOn e) w
  obtain ⟨owners, hunindexed⟩ := unindexEntries_eq e (w.ownedOn e)
    (w.eraseEntries (w.componentsOn e) e)
  dsimp only
  rw [hunindexed, herased]

theorem TornFrom.purgeEntity (h : TornFrom C w₀ w roots gone) (he : e ∈ roots) :
    TornFrom C w₀ (w.purgeEntity e) roots fun t e' => gone t e' ∨ e' = e := by
  have hcell := cell?_purgeEntity w e
  constructor
  · intro t e'
    rw [hcell]
    split_ifs with heq
    · subst heq
      rcases h.cell t e' with hsame | haffected
      · by_cases hhas : w₀.has t e' = true
        · exact Or.inr (Or.inl ⟨hhas, Or.inl he⟩)
        · have hnone : w₀.cell? t e' = none := by simpa [World.has] using hhas
          exact Or.inl hnone.symm
      · exact Or.inr haffected
    · exact h.cell t e'
  · intro t e' hplain
    rw [hcell]
    split_ifs
    · exact Or.inr (Eq.refl _)
    · exact h.plain t e' hplain
  · intro t e' hhas
    rw [World.has, hcell] at hhas
    split_ifs at hhas
    · cases hhas
    · exact h.has t e' hhas
  · intro t e' o ho
    rw [owner?_purgeEntity] at ho
    split_ifs at ho
    exact h.owner t e' o ho
  · intro t e' m hm
    rw [membersOn, hcell] at hm
    split_ifs at hm
    · cases hm
    · exact h.members t e' m hm
  · intro t ht
    have hhas : w.has t e = false := by
      by_contra hhas
      have hbefore := h.has t e (Bool.eq_true_of_not_eq_false hhas)
      exact ht e (Or.inl ⟨hbefore, Or.inl he⟩)
    rw [storeWatermark_purgeEntity w hhas]
    exact h.watermark t ht
  · exact (nextEntity_purgeEntity w e).trans h.allocated
  · intro t e' hg
    rw [hcell]
    split_ifs with heq
    · rfl
    · exact h.gone t e' (hg.resolve_right heq)

theorem TornFrom.removeEntity (h : TornFrom C w₀ w roots gone) (he : e ∈ roots) :
    TornFrom C w₀ (w.removeEntity C e) roots fun t e' => gone t e' ∨ e' = e := by
  have hedges : ∀ (edges : List (TypeId × Entity)) {u : World α} {gone : TypeId → Entity → Prop},
      (∀ p ∈ edges, ∃ t, w.edgeOn C t e = some p) → TornFrom C w₀ u roots gone →
        TornFrom C w₀ (edges.foldl (fun w edge => w.retractEdge C e (some edge)) u) roots gone := by
    intro edges
    induction edges with
    | nil => exact fun _ hu => hu
    | cons p edges ih =>
      intro u gone hall hu
      obtain ⟨t, ht⟩ := hall p List.mem_cons_self
      have hlost : w₀.Lost C roots t e := ⟨h.has t e (has_of_edgeOn ht), Or.inl he⟩
      refine ih (fun q hq => hall q (List.mem_cons_of_mem _ hq)) (hu.retractEdge e fun q hq => ?_)
      cases hq
      exact ⟨isInverse_edgeOn C ht, Or.inr ⟨t, e, hlost, h.edgeOn ht⟩⟩
  have hfreed : ∀ (edges : List (TypeId × Entity)) {u : World α} {gone : TypeId → Entity → Prop},
      (∀ p ∈ edges, p ∈ w₀.retractionsOn C e) → TornFrom C w₀ u roots gone →
        TornFrom C w₀ (edges.foldl (fun w edge => w.removeComponent C edge.1 edge.2 none) u) roots
          gone := by
    intro edges
    induction edges with
    | nil => exact fun _ hu => hu
    | cons p edges ih =>
      intro u gone hall hu
      have hmem := hall p List.mem_cons_self
      refine ih (fun q hq => hall q (List.mem_cons_of_mem _ hq)) (hu.removeComponent ?_ none)
      exact fun hhas => ⟨hu.has _ _ hhas, Or.inr (Or.inr ⟨e, he, hmem⟩)⟩
  have hlisted : ∀ p ∈ w.retractionsOn C e, p ∈ w₀.retractionsOn C e := by
    rintro ⟨edge, source⟩ hp
    obtain ⟨t, hrole, hmem⟩ := mem_retractionsOn_iff.mp hp
    exact mem_retractionsOn_iff.mpr ⟨t, hrole, h.members t e source hmem⟩
  have hretracted := hedges (w.edgesOn C e) (fun p hp => by
    obtain ⟨t, -, ht⟩ := List.mem_filterMap.mp hp
    exact ⟨t, ht⟩) (h.purgeEntity he)
  exact (hfreed _ hlisted hretracted).congr rfl rfl

end Steps
end World
end Porridge
