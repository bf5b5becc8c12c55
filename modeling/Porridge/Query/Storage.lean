import Porridge.SnapshotCache
import Porridge.World.StorageRuns

/-! A world over schema slots against the same world over a hash map: rows, fingerprints and memo
decisions. -/
namespace Porridge

variable {α : Type} (C : Components α)

/-- Whether a dependency is current, looked up through the slot it may carry. -/
def Dep.isCurrentAt (d : Dep) (stores : Stores α) (handle : Option Nat) (w : World α) : Bool :=
  if d.storeScoped then w.storeWatermark d.component == d.revision.getD 0
  else stores.revisionAt handle d.component d.entity == d.revision

def World.shelves (w : World α) (schema : Option (List TypeId)) : Stores α :=
  (Stores.ofSchema schema).holding w.stores

/-- What planning enumerates is the same, and so is what every entity shows. -/
structure SameAnswers (w u : World α) : Prop where
  rows : ∀ q : QueryParam, q.rows u = q.rows w
  filteredRows : ∀ q f, filteredRows u q f = filteredRows w q f
  fromCandidates : ∀ q f candidates,
    filteredRowsFromCandidates u q f candidates = filteredRowsFromCandidates w q f candidates
  planned : ∀ ps, Params.states u ps = Params.states w ps
  plannedHinted : ∀ ps hint, Params.statesHinted C u ps hint = Params.statesHinted C w ps hint
  has : ∀ t e, u.has t e = w.has t e
  fingerprints : ∀ t e, u.fingerprintOn t e = w.fingerprintOn t e

structure SameJudgement (schema : Option (List TypeId)) (w₀ w u₀ u : World α) : Prop where
  deps : ∀ ps state, Params.deps C w ps state = Params.deps C w₀ ps state ↔
    Params.deps C u ps state = Params.deps C u₀ ps state
  current : ∀ ps state (handle : Dep → Option Nat),
    ((Params.deps C w₀ ps state).all fun d => d.isCurrentAt (w.shelves schema) (handle d) w) =
      (Params.deps C u₀ ps state).all fun d => d.isCurrent u

variable {C}

theorem World.revisionAt_shelves (w : World α) (schema : Option (List TypeId))
    (handle : Option Nat) (t : TypeId) (e : Entity) :
    (w.shelves schema).revisionAt handle t e = w.revisionByType t e := by
  have hget := Stores.get_holding w.stores (Stores.get_ofSchema schema) t
  rw [Stores.revisionAt_eq, World.shelves, hget, revisionByType, cell?, store, Dict.getD]
  cases w.stores.lookup t <;> rfl

/-- A slot only makes the lookup faster. -/
theorem Dep.isCurrentAt_shelves (d : Dep) (w : World α) (schema : Option (List TypeId))
    (handle : Option Nat) : d.isCurrentAt (w.shelves schema) handle w = d.isCurrent w := by
  rw [Dep.isCurrentAt, Dep.isCurrent, w.revisionAt_shelves]

namespace World

variable {r : Revision} {w w' u u' : World α}

theorem Twins.sameAnswers (h : Twins (.since r) w u) (hw : w.IndicesExact) (hu : u.IndicesExact) :
    SameAnswers C w u := by
  have hfingerprints : ∀ t e, u.fingerprintOn t e = w.fingerprintOn t e := h.fingerprintOn
  have hview : SameView .all w u := .of_values hw hu h.books.entities h.value hfingerprints
  obtain ⟨schema, hp⟩ := hw.present
  obtain ⟨schema', hp'⟩ := hu.present
  exact
    { rows := fun q => hview.rows hp hp' (fun _ _ => trivial) fun _ => trivial
      filteredRows := fun q f => hview.filteredRows hp hp' (fun _ _ => trivial)
        (fun _ _ => trivial) fun _ => trivial
      fromCandidates := fun q f => hview.filteredRowsFromCandidates hp hp' (fun _ _ => trivial)
        fun _ _ => trivial
      planned := fun ps => hview.planned hp hp' fun p _ => p.within_all
      plannedHinted := hview.plannedHinted C (h.edgeOn C) hp hp'
      has := h.has
      fingerprints := hfingerprints }

/-- Two records of one observation: of a row, or of the watermark each world has for a store. -/
inductive DepTwin (w u : World α) : Dep → Dep → Prop where
  | row (t : TypeId) (e : Entity) (seen : Option Revision) :
    DepTwin w u ⟨t, e, seen, false⟩ ⟨t, e, seen, false⟩
  | mark (t : TypeId) (e : Entity) :
    DepTwin w u ⟨t, e, some (w.storeWatermark t), true⟩ ⟨t, e, some (u.storeWatermark t), true⟩

theorem depTwin_of_row : ∀ {d : Dep}, d.storeScoped = false → DepTwin w u d d
  | ⟨t, e, seen, false⟩, _ => .row t e seen

theorem Twins.deps (h : Twins (.since r) w u) (hw : w.IndicesExact) (hu : u.IndicesExact)
    (p : SystemParam) (s : ParamState) :
    List.Forall₂ (DepTwin w u) (p.deps C w s) (p.deps C u s) := by
  have hview : SameView .all w u := .of_values hw hu h.books.entities h.value h.fingerprintOn
  have hrevisions : ∀ t, Scope.all.stores t → ∀ e, u.revisionByType t e = w.revisionByType t e :=
    fun t _ e => h.revisionByType t e
  have hrow : ∀ (q : QueryParam) (f : QueryFilter) e, List.Forall₂ (DepTwin w u)
      (q.deps C w e ++ f.deps C w e) (q.deps C u e ++ f.deps C u e) := by
    intro q f e
    rw [hview.queryDeps C hrevisions (fun _ _ => trivial) fun _ _ => trivial,
      SameView.filterDeps (σ := .all) C hrevisions fun _ _ => trivial]
    refine List.forall₂_same.mpr fun d hd => depTwin_of_row ?_
    rcases List.mem_append.mp hd with hd | hd
    · exact (QueryParam.ofRow_of_mem_deps hd).single
    · exact (QueryFilter.ofRow_of_mem_deps hd).single
  have hmarks : ∀ types : List TypeId, List.Forall₂ (DepTwin w u)
      (types.map (storeWatermarkDep w)) (types.map (storeWatermarkDep u)) := by
    intro types
    rw [List.forall₂_map_left_iff, List.forall₂_map_right_iff]
    exact List.forall₂_same.mpr fun t _ => .mark t 0
  cases p with
  | query q f =>
    cases s with
    | row e => exact hrow q f e
    | _ => exact .nil
  | outer q f =>
    cases s with
    | row e => exact hrow q f e
    | absent =>
      have haccesses := hmarks (q.accessAll.map Access.component)
      rw [List.map_map, List.map_map] at haccesses
      exact List.rel_append haccesses (hmarks f.boundKeyTypes)
    | unit => exact .nil
  | trackedView q f => exact hmarks (trackedViewTypes q f)
  | _ => exact .nil

theorem Twins.paramsDeps (h : Twins (.since r) w u) (hw : w.IndicesExact) (hu : u.IndicesExact)
    (ps : Params) (state : List ParamState) :
    List.Forall₂ (DepTwin w u) (Params.deps C w ps state) (Params.deps C u ps state) := by
  unfold Params.deps
  induction ps.zip state with
  | nil => exact .nil
  | cons p rest ih => exact List.rel_append (h.deps hw hu p.1 p.2) ih

/-! ## Two moments of two runs -/

section Moments

variable {w₀ u₀ : World α}

/-- The watermark of a store has moved in one world exactly when it has moved in the other. -/
theorem Twins.moved_iff (h : Twins (.since r) w u) (h₀ : Twins (.since r) w₀ u₀)
    (hrevision : r = w₀.revision) (hw : Follows C w₀ w) (hu : Follows C u₀ u)
    (hw₀ : w₀.Coherent) (hu₀ : u₀.Coherent) (t : TypeId) :
    w.storeWatermark t = w₀.storeWatermark t ↔ u.storeWatermark t = u₀.storeWatermark t := by
  have hsame : w₀.revision = u₀.revision := h₀.clock.1
  have hpassed : w₀.revision < w.storeWatermark t ↔ w₀.revision < u.storeWatermark t :=
    hrevision ▸ h.marks t
  have hmoved : ∀ {a b : World α}, a.Coherent → Follows C a b →
      (b.storeWatermark t = a.storeWatermark t ↔ ¬a.revision < b.storeWatermark t) := by
    intro a b ha hab
    have hbound : a.storeWatermark t ≤ a.revision := ha.watermarks t
    constructor
    · intro heq
      rw [heq]
      exact not_lt.mpr hbound
    · intro hnot
      exact (hab.stores t).elim (fun hlt => absurd hlt hnot) And.left
  rw [hmoved hw₀ hw, hmoved hu₀ hu, hpassed, hsame]

variable {d d' d₀ d₀' : Dep}

theorem DepTwin.eq_iff (h : DepTwin w u d d') (h₀ : DepTwin w₀ u₀ d₀ d₀')
    (hmoved : ∀ t, w.storeWatermark t = w₀.storeWatermark t ↔
      u.storeWatermark t = u₀.storeWatermark t) : d = d₀ ↔ d' = d₀' := by
  cases h with
  | row t e seen =>
    cases h₀ with
    | row t₀ e₀ seen₀ => exact Iff.rfl
    | mark t₀ e₀ => exact iff_of_false (by simp) (by simp)
  | mark t e =>
    cases h₀ with
    | row t₀ e₀ seen₀ => exact iff_of_false (by simp) (by simp)
    | mark t₀ e₀ =>
      simp only [Dep.mk.injEq, Option.some.injEq]
      refine and_congr_right fun ht => and_congr_right fun _ => and_congr_left fun _ => ?_
      exact ht ▸ hmoved t

theorem DepTwin.isCurrent (h : DepTwin w₀ u₀ d d') (htwins : Twins (.since r) w u)
    (hmoved : ∀ t, w.storeWatermark t = w₀.storeWatermark t ↔
      u.storeWatermark t = u₀.storeWatermark t) : d'.isCurrent u = d.isCurrent w := by
  cases h with
  | row t e seen =>
    show (u.revisionByType t e == seen) = (w.revisionByType t e == seen)
    rw [htwins.revisionByType]
  | mark t e =>
    have hsame : (w.storeWatermark t == w₀.storeWatermark t) =
        (u.storeWatermark t == u₀.storeWatermark t) := by
      rw [Bool.eq_iff_iff, beq_iff_eq, beq_iff_eq]
      exact hmoved t
    exact hsame.symm

theorem forall₂_eq_iff {R S : Dep → Dep → Prop} {l l' m m' : List Dep} (hl : List.Forall₂ R l l')
    (hm : List.Forall₂ S m m')
    (hiff : ∀ {d d' d₀ d₀'}, R d d' → S d₀ d₀' → (d = d₀ ↔ d' = d₀')) : l = m ↔ l' = m' := by
  induction hl generalizing m m' with
  | nil =>
    cases hm with
    | nil => exact Iff.rfl
    | cons _ _ => exact iff_of_false nofun nofun
  | cons hd _ ih =>
    cases hm with
    | nil => exact iff_of_false nofun nofun
    | cons hd₀ hrest => rw [List.cons.injEq, List.cons.injEq, hiff hd hd₀, ih hrest]

theorem forall₂_all_eq {R : Dep → Dep → Prop} {l l' : List Dep} {f g : Dep → Bool}
    (h : List.Forall₂ R l l') (hfg : ∀ {d d'}, R d d' → g d' = f d) : l'.all g = l.all f := by
  induction h with
  | nil => rfl
  | cons hd _ ih => rw [List.all_cons, List.all_cons, hfg hd, ih]

theorem Twins.sameJudgement (h : Twins (.since r) w u) (h₀ : Twins (.since r) w₀ u₀)
    (hrevision : r = w₀.revision) (hw : w.IndicesExact) (hu : u.IndicesExact)
    (hw₀ : w₀.IndicesExact) (hu₀ : u₀.IndicesExact) (hwf : Follows C w₀ w) (huf : Follows C u₀ u)
    (schema : Option (List TypeId)) : SameJudgement C schema w₀ w u₀ u := by
  have hmoved := h.moved_iff h₀ hrevision hwf huf hw₀.coherent hu₀.coherent
  refine ⟨fun ps state => ?_, fun ps state handle => ?_⟩
  · exact forall₂_eq_iff (h.paramsDeps hw hu ps state) (h₀.paramsDeps hw₀ hu₀ ps state)
      fun hd hd₀ => hd.eq_iff hd₀ hmoved
  · have hcurrent := forall₂_all_eq (h₀.paramsDeps (C := C) hw₀ hu₀ ps state)
      fun hd => hd.isCurrent h hmoved
    rw [hcurrent]
    exact List.all_congr rfl fun d => d.isCurrentAt_shelves w schema (handle d)

end Moments

theorem twins_ofSchema (schema schema' : Option (List TypeId)) :
    Twins (.since 0) (World.ofSchema schema : World α) (World.ofSchema schema') where
  cells _ _ := .none
  marks _ := Iff.rfl
  clock := ⟨rfl, le_rfl⟩
  books := ⟨rfl, fun _ => rfl, fun _ => rfl, fun _ => rfl, fun _ => rfl, rfl, rfl⟩

/-- Where no entity removal depends on the order of stores, a world over a schema and one over a
hash map answer and judge alike. -/
theorem storage_refines (types : List TypeId) (hash hash' : Listing α)
    (before after : List (WorldCall α))
    (h : (storage C (some types) hash).Allows (fun w c => c.Untangled C w)
      (World.ofSchema (some types)) (before ++ after)) :
    (((storage C (some types) hash).run (World.ofSchema (some types)) (before ++ after)).isSome =
      ((storage C none hash').run (World.ofSchema none) (before ++ after)).isSome) ∧
    ∀ w₀ w u₀ u, (storage C (some types) hash).run (World.ofSchema (some types)) before = some w₀ →
      (storage C (some types) hash).run w₀ after = some w →
      (storage C none hash').run (World.ofSchema none) before = some u₀ →
      (storage C none hash').run u₀ after = some u →
      SameAnswers C w u ∧ SameJudgement C (some types) w₀ w u₀ u := by
  constructor
  · have hrun : TwinResults (.since 0) ((storage C (some types) hash).run _ _)
        ((storage C none hash').run _ _) := Twins.run (twins_ofSchema (some types) none) h
    generalize (storage C (some types) hash).run _ _ = x at hrun ⊢
    generalize (storage C none hash').run _ _ = y at hrun ⊢
    cases hrun <;> rfl
  intro w₀ w u₀ u hw₀ hw hu₀ hu
  obtain ⟨hbefore, hafter⟩ := h.split
  have htwins₀ : Twins (.since 0) w₀ u₀ := by
    have hrun : TwinResults (.since 0) ((storage C (some types) hash).run _ _)
        ((storage C none hash').run _ _) := Twins.run (twins_ofSchema (some types) none) hbefore
    rw [hw₀, hu₀] at hrun
    cases hrun with
    | some htwins => exact htwins
  obtain ⟨hexact₀, -⟩ := storage_run (some types) hash hw₀ (indicesExact_ofSchema _)
  obtain ⟨hexact₀', -⟩ := storage_run none hash' hu₀ (indicesExact_ofSchema _)
  obtain ⟨hexact, hfollows⟩ := storage_run (some types) hash hw hexact₀
  obtain ⟨hexact', hfollows'⟩ := storage_run none hash' hu hexact₀'
  -- from the first moment on, only what changes later counts for the watermarks
  have hnow : Twins (.since w₀.revision) w₀ u₀ :=
    htwins₀.from_now hexact₀.coherent hexact₀'.coherent
  have htwins : Twins (.since w₀.revision) w u := by
    have hrun : TwinResults (.since w₀.revision) ((storage C (some types) hash).run w₀ after)
        ((storage C none hash').run u₀ after) := Twins.run hnow (hafter w₀ hw₀)
    rw [hw, hu] at hrun
    cases hrun with
    | some htwins => exact htwins
  exact ⟨htwins.sameAnswers hexact hexact', htwins.sameJudgement hnow rfl hexact hexact' hexact₀
    hexact₀' hfollows hfollows' _⟩

section Orders

/-- Two kinds of edges with their inverses, and facts whose fingerprints read the captured
revisions. -/
def crossed : Components Nat where
  tracked t := t != 5
  role t := if t = 1 then .edge 3 else if t = 2 then .edge 4 else if t = 3 then .inverse 1
    else if t = 4 then .inverse 2 else if t = 5 then .derivedFrom else .plain
  fingerprint _ v := match v with
    | .data payload => some payload
    | .members entities => some entities.length
    | .derivedFrom anchors => some ((anchors.map fun a => a.revision.getD 0).sum)
  target _ payload := payload
  inverse_role t inverse h := by
    split_ifs at h <;> cases h <;> simp_all

/-- A hash map that lists the last store created first. -/
def latestFirst : Listing Nat := ⟨fun d => d.keys, fun _ => .refl _⟩

def pointing (edges : List TypeId) : List (WorldCall Nat) :=
  List.replicate 4 .spawnEmpty ++ edges.flatMap fun edge =>
    [.insert edge 0 (.data edge) none, .insert edge 3 (.data edge) none]

/-- Entity 0 is removed, and a fact on 3 is then derived from 1. -/
def deriving1 : List (WorldCall Nat) :=
  [.removeEntity 0, .insert 5 3 (.derivedFrom [⟨1, none⟩]) none, .flushDerivedFrom]

/-- The world over a schema of all five types, and the one over a hash map. -/
def schemaWorld (calls : List (WorldCall Nat)) : World Nat :=
  ((storage crossed (some [1, 2, 3, 4, 5]) latestFirst).run (World.ofSchema (some [1, 2, 3, 4, 5]))
    calls).getD World.new

def hashWorld (calls : List (WorldCall Nat)) : World Nat :=
  ((storage crossed none latestFirst).run (World.ofSchema none) calls).getD World.new

theorem schemaWorld_reached (calls : List (WorldCall Nat))
    (h : ((storage crossed (some [1, 2, 3, 4, 5]) latestFirst).run
      (World.ofSchema (some [1, 2, 3, 4, 5])) calls).isSome = true) :
    (storage crossed (some [1, 2, 3, 4, 5]) latestFirst).run (World.ofSchema (some [1, 2, 3, 4, 5]))
      calls = some (schemaWorld calls) := by
  obtain ⟨w, hw⟩ := Option.isSome_iff_exists.mp h
  rw [schemaWorld, hw, Option.getD_some]

theorem hashWorld_reached (calls : List (WorldCall Nat))
    (h : ((storage crossed none latestFirst).run (World.ofSchema none) calls).isSome = true) :
    (storage crossed none latestFirst).run (World.ofSchema none) calls = some (hashWorld calls) := by
  obtain ⟨w, hw⟩ := Option.isSome_iff_exists.mp h
  rw [hashWorld, hw, Option.getD_some]

/-- With edges of one kind the order of the stores is immaterial. -/
theorem storage_refines_single :
    SameAnswers crossed (schemaWorld (pointing [1] ++ deriving1))
        (hashWorld (pointing [1] ++ deriving1)) ∧
      SameJudgement crossed (some [1, 2, 3, 4, 5]) (schemaWorld (pointing [1]))
        (schemaWorld (pointing [1] ++ deriving1)) (hashWorld (pointing [1]))
        (hashWorld (pointing [1] ++ deriving1)) := by
  have hw₀ := schemaWorld_reached (pointing [1]) (by decide +kernel)
  have hw := schemaWorld_reached (pointing [1] ++ deriving1) (by decide +kernel)
  have hu₀ := hashWorld_reached (pointing [1]) (by decide +kernel)
  have hu := hashWorld_reached (pointing [1] ++ deriving1) (by decide +kernel)
  rw [Machine.run_append, hw₀, Option.bind_some] at hw
  rw [Machine.run_append, hu₀, Option.bind_some] at hu
  exact (storage_refines [1, 2, 3, 4, 5] latestFirst latestFirst (pointing [1]) deriving1
    (by decide +kernel)).2 _ _ _ _ hw₀ hw hu₀ hu

/-- With edges of both kinds the removal retracts them in the order of the stores, and the fact
derived afterwards has captured another revision. -/
theorem storage_orders_differ :
    ((schemaWorld (pointing [1, 2] ++ deriving1)).fingerprintOn 5 3 = some 11 ∧
      (hashWorld (pointing [1, 2] ++ deriving1)).fingerprintOn 5 3 = some 12) ∧
    ¬ SameAnswers crossed (schemaWorld (pointing [1, 2] ++ deriving1))
      (hashWorld (pointing [1, 2] ++ deriving1)) := by
  have hfingerprints : (schemaWorld (pointing [1, 2] ++ deriving1)).fingerprintOn 5 3 = some 11 ∧
      (hashWorld (pointing [1, 2] ++ deriving1)).fingerprintOn 5 3 = some 12 := by decide +kernel
  refine ⟨hfingerprints, fun h => ?_⟩
  have hsame := h.fingerprints 5 3
  rw [hfingerprints.1, hfingerprints.2] at hsame
  cases hsame

end Orders

end World
end Porridge
