import Porridge.Planning
import Porridge.Query.View
import Porridge.Runnable
import Porridge.World.Stillness

/-! Planning that is passed over: while no watermark of a system's interest has moved, its states
are those of the last plan, unless a use of the world went unnoticed. -/
namespace Porridge

variable {α : Type}

section Interest

namespace QueryParam

/-- The markers of the parts that track a whole facet; they name no component. -/
def markers : QueryParam → List TypeId
  | .entityParts _ parts => parts.filterMap fun part => match part with
    | .tracked marker _ => some marker
    | _ => none
  | _ => []

theorem read_of_access {q : QueryParam} {t : TypeId} (ht : t ∈ q.accessAll.map Access.component) :
    t ∈ q.readTypes ∨ t ∈ q.markers := by
  cases q with
  | entity h => cases ht
  | read _ => exact Or.inl ht
  | mutRef _ => exact Or.inl ht
  | entityParts h parts =>
    obtain ⟨access, haccess, rfl⟩ := List.mem_map.mp ht
    obtain ⟨part, hpart, rfl⟩ := List.mem_map.mp haccess
    have hread : part.accessAll.component ∈ part.interestTypes →
        part.accessAll.component ∈ (QueryParam.entityParts h parts).readTypes := fun hmem =>
      List.mem_append_right _ (List.mem_flatMap.mpr ⟨part, hpart, hmem⟩)
    cases part with
    | tracked marker facet =>
      exact Or.inr (List.mem_filterMap.mpr ⟨.tracked marker facet, hpart, rfl⟩)
    | _ => exact Or.inl (hread List.mem_cons_self)

end QueryParam

theorem JoinKey.interest_of_in {t : TypeId} : ∀ {k : JoinKey}, t ∈ k.inKeyTypes →
    t ∈ k.interestTypes
  | .eq _, h => nomatch h
  | .inMembers _, h => h
  | .and _ _, h => List.mem_append.mpr ((List.mem_append.mp h).imp interest_of_in interest_of_in)

theorem QueryFilter.interest_of_in {t : TypeId} : ∀ {f : QueryFilter}, t ∈ f.inKeyTypes →
    t ∈ f.interestTypes
  | .unit, h => nomatch h
  | .withComponent _, h => nomatch h
  | .withoutComponent _, h => nomatch h
  | .whereKey _, h => JoinKey.interest_of_in h
  | .and _ _, h => List.mem_append.mpr ((List.mem_append.mp h).imp interest_of_in interest_of_in)

namespace SystemParam

def markers : SystemParam → List TypeId
  | .outer q _ => q.markers
  | _ => []

theorem related_listed {q : QueryParam} {f : QueryFilter} {types : List TypeId}
    (h : queryInterestTypes q f = some types) : ∀ t ∈ q.relatedTypes, t ∈ types := by
  rcases queryInterestTypes_cases h with rfl | ⟨-, t, rfl⟩
  · exact fun t ht => List.mem_append_left _ (QueryParam.read_of_related ht)
  · exact nofun

/-- A bounded interest has the keys and the inverses of the parameter, and the stores that it
observes as a whole without reading them, but for markers. -/
structure Bounded (p : SystemParam) (types : List TypeId) : Prop where
  keys : ∀ t ∈ p.boundKeyTypes, t ∈ types
  inverses : ∀ t ∈ p.listTypes, t ∈ types
  watched : ∀ t ∈ p.watchedTypes, t ∈ types ∨ t ∈ p.readTypes ∨ t ∈ p.markers

theorem bounded_of_interest {p : SystemParam} {types : List TypeId}
    (h : p.interestTypes = some types) : p.Bounded types := by
  cases p with
  | query q f =>
    have hfilter := subset_queryInterestTypes h
    refine ⟨fun t ht => hfilter t (QueryFilter.boundKeyTypes_subset ht), fun t ht => ?_, nofun⟩
    rcases List.mem_append.mp ht with ht | ht
    · exact related_listed h t ht
    · exact hfilter t (QueryFilter.interest_of_in ht)
  | outer q f =>
    have hfilter := subset_queryInterestTypes h
    refine ⟨fun t ht => hfilter t (QueryFilter.boundKeyTypes_subset ht), related_listed h,
      fun t ht => ?_⟩
    rcases List.mem_append.mp ht with ht | ht
    · exact Or.inr ((QueryParam.read_of_access ht).imp_left (List.mem_append_left _))
    · exact Or.inl (hfilter t (QueryFilter.boundKeyTypes_subset ht))
  | trackedView q f =>
    cases h
    exact ⟨nofun, nofun, fun t => Or.inl⟩
  | view q f => exact ⟨nofun, nofun, nofun⟩
  | commands => exact ⟨nofun, nofun, nofun⟩
  | worldMeta => cases h

/-- What a bounded interest leaves out is the component of a sole `MutRef`. -/
theorem mutRef_of_unlisted {p : SystemParam} {types : List TypeId}
    (h : p.interestTypes = some types) {t : TypeId} (ht : t ∈ p.readTypes) (hnot : t ∉ types) :
    ∃ f, p = .query (.mutRef t) f ∨ p = .outer (.mutRef t) f := by
  have hcomponent : ∀ {q : QueryParam} {f : QueryFilter}, queryInterestTypes q f = some types →
      t ∈ q.readTypes ++ f.interestTypes → q = .mutRef t := by
    intro q f hquery hread
    rcases queryInterestTypes_cases hquery with rfl | ⟨rfl, t', rfl⟩
    · exact absurd hread hnot
    · rcases List.mem_append.mp hread with hown | hfilter
      · rw [List.mem_singleton.mp hown]
      · exact absurd hfilter hnot
  cases p with
  | query q f => exact ⟨f, Or.inl (by rw [hcomponent h ht])⟩
  | outer q f => exact ⟨f, Or.inr (by rw [hcomponent h ht])⟩
  | _ => cases ht

end SystemParam

namespace Params

def scope (ps : Params) : Scope where
  stores t := ∃ p ∈ ps, t ∈ p.readTypes
  keys t := ∃ p ∈ ps, t ∈ p.boundKeyTypes
  inverses t := ∃ p ∈ ps, t ∈ p.listTypes
  ids := ∃ p ∈ ps, p.drawsIds = true

/-- A store that the tuple reads without listing it in its interest. -/
def Unlisted (ps : Params) (t : TypeId) : Prop :=
  (∃ p ∈ ps, t ∈ p.readTypes) ∧ ∀ types ∈ ps.interestTypes, t ∉ types

theorem within_scope {ps : Params} {p : SystemParam} (hp : p ∈ ps) : p.Within ps.scope :=
  ⟨fun _ ht => ⟨p, hp, ht⟩, fun _ ht => ⟨p, hp, ht⟩, fun _ ht => ⟨p, hp, ht⟩, fun h => ⟨p, hp, h⟩⟩

variable {ps : Params} {types : List TypeId}

theorem bounded_of_mem (h : ps.interestTypes = some types) {p : SystemParam} (hp : p ∈ ps) :
    p.Bounded types := by
  obtain ⟨own, hown, hsub⟩ := interest_of_mem h hp
  have hbounded := SystemParam.bounded_of_interest hown
  exact ⟨fun t ht => hsub t (hbounded.keys t ht), fun t ht => hsub t (hbounded.inverses t ht),
    fun t ht => (hbounded.watched t ht).imp_left (hsub t)⟩

/-- Only the components of sole `MutRef`s under a filter that bounds them are unlisted. -/
theorem mutRef_of_unlisted (h : ps.interestTypes = some types) {t : TypeId} (ht : ps.Unlisted t) :
    ∃ f, .query (.mutRef t) f ∈ ps ∨ .outer (.mutRef t) f ∈ ps := by
  obtain ⟨⟨p, hp, hread⟩, hnot⟩ := ht
  obtain ⟨own, hown, hsub⟩ := interest_of_mem h hp
  obtain ⟨f, rfl | rfl⟩ :=
    SystemParam.mutRef_of_unlisted hown hread fun hmem => hnot types h (hsub t hmem)
  · exact ⟨f, Or.inl hp⟩
  · exact ⟨f, Or.inr hp⟩

end Params

end Interest

/-- Alike in what a scope reads beside presence and revisions, and in the stores outside the
interest. -/
structure Alike (unlisted : TypeId → Prop) (σ : Scope) (w w' : World α) : Prop where
  watermarks : ∀ t, unlisted t → w'.storeWatermark t = w.storeWatermark t
  allocated : σ.ids → w'.nextEntity = w.nextEntity
  fingerprints : ∀ t, σ.keys t → ∀ e, w'.fingerprintOn t e = w.fingerprintOn t e
  members : ∀ t, σ.inverses t → ∀ e, ((w'.cell? t e).bind fun x => x.value.relationshipMembers) =
    (w.cell? t e).bind fun x => x.value.relationshipMembers

variable {unlisted : TypeId → Prop} {σ : Scope} {w u w' : World α}

theorem Alike.refl (unlisted : TypeId → Prop) (σ : Scope) (w : World α) : Alike unlisted σ w w :=
  ⟨fun _ _ => rfl, fun _ => rfl, fun _ _ _ => rfl, fun _ _ _ => rfl⟩

theorem Alike.trans (h : Alike unlisted σ w u) (h' : Alike unlisted σ u w') :
    Alike unlisted σ w w' :=
  ⟨fun t ht => (h'.watermarks t ht).trans (h.watermarks t ht),
    fun hids => (h'.allocated hids).trans (h.allocated hids),
    fun t ht e => (h'.fingerprints t ht e).trans (h.fingerprints t ht e),
    fun t ht e => (h'.members t ht e).trans (h.members t ht e)⟩

namespace Planning

/-- No store of the system's interest has moved since the snapshot or since the last plan, so that a
plan over either of them would still count. -/
def Relied (p : Planning α) : Prop :=
  ∃ S, (p.captured = some S ∨ p.planned = some S) ∧
    BoxedSystem.interestMark (p.system.interest.getD []) p.world =
      BoxedSystem.interestMark (p.system.interest.getD []) S

/-- A use that the watermarks would not tell takes no id where rows are drawn from all of them,
restamps no untracked join key, changes no member list in place or under its fingerprint, and moves
no store that is read outside the interest. -/
def Noticed (C : Components α) (ps : Params) (p : Planning α) : PlanningStep α → Prop
  | .use op => p.Relied → (ps.scope.ids → op.allocates p.world = false) ∧
    (∀ t, ps.Unlisted t → ∀ w', p.world.apply C op = some w' →
      w'.storeWatermark t = p.world.storeWatermark t) ∧ match op with
    | .update t e v => ∀ x, p.world.cell? t e = some x →
      (ps.scope.keys t → C.tracked t = false → C.fingerprint t v = x.fingerprint) ∧
        (ps.scope.inverses t → p.world.amends C t e v = true ∨
          v.relationshipMembers = x.value.relationshipMembers)
    | .writeInPlace t e v => ∀ x, p.world.cell? t e = some x → ps.scope.inverses t →
      v.relationshipMembers = x.value.relationshipMembers
    | .reconcileWritten writes => p.world.Stamped C ps.scope.keys writes
    | op => ∀ w', p.world.apply C op = some w' → ∀ t, ps.scope.inverses t →
      w'.storeWatermark t = p.world.storeWatermark t → ∀ e,
        ((w'.cell? t e).bind fun x => x.value.relationshipMembers) =
          (p.world.cell? t e).bind fun x => x.value.relationshipMembers
  | _ => True

section Gating

variable {C : Components α} {ps : Params} {types : List TypeId} {p p' : Planning α} {w w' S : World α}

theorem marks_le (hw : w.Coherent) (h : World.Follows C w w') :
    BoxedSystem.interestMark types w ≤ BoxedSystem.interestMark types w' := by
  refine List.foldlRecOn (types.map w.storeWatermark) _
    (motive := (· ≤ BoxedSystem.interestMark types w')) (Nat.zero_le _) fun mark hle mark' hmark' => ?_
  obtain ⟨t, ht, rfl⟩ := List.mem_map.mp hmark'
  exact max_le hle ((h.storeWatermark_le hw t).trans (storeWatermark_le_interestMark ht))

/-- A noticed use leaves the scope alike, unless it moves a store of the interest. -/
theorem alike_use (hbounded : ∀ p ∈ ps, p.Bounded types) (hw : p.world.Coherent)
    (hrelied : p.Relied) {op : WorldOp α} (hnoticed : Noticed C ps p (.use op))
    (hstep : p.world.apply C op = some w')
    (hmark : BoxedSystem.interestMark types w' = BoxedSystem.interestMark types p.world) :
    Alike ps.Unlisted ps.scope p.world w' := by
  obtain ⟨hids, hunlisted, hnoticed⟩ := hnoticed hrelied
  obtain ⟨hcoherent, hfollows⟩ := (World.Follows.refl p.world).later hw (.of_apply op hstep)
  have hstill : ∀ t ∈ types, w'.storeWatermark t = p.world.storeWatermark t := by
    intro t ht
    by_contra hmoved
    exact absurd hmark (interestMark_lt hw hfollows ht hmoved).ne'
  have hkeys : ∀ t, ps.scope.keys t → t ∈ types := fun t ⟨q, hq, ht⟩ => (hbounded q hq).keys t ht
  have hlists : ∀ t, ps.scope.inverses t → t ∈ types := fun t ⟨q, hq, ht⟩ =>
    (hbounded q hq).inverses t ht
  have hunmoved : ∀ t ∈ types, ¬ p.world.revision < w'.storeWatermark t := by
    intro t ht hlt
    rw [hstill t ht] at hlt
    exact absurd hlt (not_lt.mpr (hw.watermarks t))
  refine ⟨fun t ht => hunlisted t ht w' hstep, fun h => World.nextEntity_eq (hids h) hstep,
    fun t ht => ?_, fun t ht e => ?_⟩
  · have hstands : World.Stands ps.scope.keys p.world w' := by
      cases hop : op.amending with
      | false => exact World.stands_apply hop hstep
      | true =>
        cases op with
        | update t e v =>
          cases hstep
          exact World.stands_updateComponent p.world fun x hx => (hnoticed x hx).1
        | writeInPlace t e v =>
          cases hstep
          exact World.stands_writeInPlace p.world t e v
        | reconcileWritten writes =>
          cases hstep
          exact (World.stands_reconcileWritten hnoticed).1
        | _ => cases hop
    exact (hstands.fingerprints t ht).resolve_left (hunmoved t (hkeys t ht))
  · have hlist : ∀ m : Option (Entry α), (m.bind fun x => x.value.relationshipMembers) =
        (m.map Entry.value).bind Value.relationshipMembers := fun m => by cases m <;> rfl
    have hplaced : ∀ {u : World α} {t' : TypeId} {e' : Entity} {v : Value α},
        (u.cell? t e).map Entry.value = (if t = t' ∧ e = e' then
          (p.world.cell? t' e').map fun _ => v else (p.world.cell? t e).map Entry.value) →
        (∀ x, p.world.cell? t' e' = some x → t = t' →
          v.relationshipMembers = x.value.relationshipMembers) →
        ((u.cell? t e).bind fun x => x.value.relationshipMembers) =
          (p.world.cell? t e).bind fun x => x.value.relationshipMembers := by
      intro u t' e' v hvalue hsame
      rw [hlist, hlist, hvalue]
      split_ifs with hpair
      · obtain ⟨rfl, rfl⟩ := hpair
        cases hx : p.world.cell? t e with
        | none => rfl
        | some x => exact hsame x hx rfl
      · rfl
    cases op with
    | update t' e' v =>
      cases hstep
      refine hplaced (World.value_updateComponent p.world t' t e' e v) fun x hx hthis => ?_
      subst hthis
      refine ((hnoticed x hx).2 ht).resolve_left fun hamends => ?_
      exact hunmoved t (hlists t ht) (World.lt_storeWatermark_updateComponent p.world hamends)
    | writeInPlace t' e' v =>
      cases hstep
      refine hplaced (World.value_writeInPlace p.world t' t e' e v) fun x hx hthis => ?_
      subst hthis
      exact hnoticed x hx ht
    | reconcileWritten writes =>
      cases hstep
      rw [hlist, hlist, (World.stands_reconcileWritten hnoticed).2]
    | _ => exact hnoticed w' hstep t ht (hstill t (hlists t ht)) e

/-- A plan over `S` counts while the marks are those of `S`, and then the scope is alike. -/
structure Standing (C : Components α) (ps : Params) (types : List TypeId) (S w : World α) :
    Prop where
  reachable : World.Reachable C S
  later : World.Later C S w
  alike : BoxedSystem.interestMark types w = BoxedSystem.interestMark types S →
    Alike ps.Unlisted ps.scope S w

theorem Standing.refl (hw : World.Reachable C w) : Standing C ps types w w :=
  ⟨hw, .refl w, fun _ => .refl _ _ w⟩

/-- The mark of a later world is at least that of an earlier one, so equal marks at both ends stand
for equal marks between. -/
theorem Standing.extend (h : Standing C ps types S w) (hlater : World.Later C w w')
    (halike : BoxedSystem.interestMark types w = BoxedSystem.interestMark types S →
      BoxedSystem.interestMark types w' = BoxedSystem.interestMark types w →
        Alike ps.Unlisted ps.scope w w') :
    Standing C ps types S w' := by
  have hS := World.coherent_of_reachable h.reachable
  obtain ⟨hw, hbefore⟩ := (World.Follows.refl S).later hS h.later
  obtain ⟨-, hafter⟩ := (World.Follows.refl w).later hw hlater
  refine ⟨h.reachable, h.later.trans hlater, fun hmark => ?_⟩
  have hleft : BoxedSystem.interestMark types S ≤ BoxedSystem.interestMark types w :=
    marks_le hS hbefore
  have hright : BoxedSystem.interestMark types w ≤ BoxedSystem.interestMark types w' :=
    marks_le hw hafter
  have hmiddle : BoxedSystem.interestMark types w = BoxedSystem.interestMark types S :=
    le_antisymm (hmark ▸ hright) hleft
  exact (h.alike hmiddle).trans (halike hmiddle (hmark.trans hmiddle.symm))

/-- The plans that still count, and the mark of the last one. -/
structure Gated (C : Components α) (ps : Params) (types : List TypeId) (p : Planning α) : Prop where
  reachable : World.Reachable C p.world
  captured : ∀ S, p.captured = some S → Standing C ps types S p.world
  planned : ∀ S, p.planned = some S → Standing C ps types S p.world ∧
    ∀ mark, p.system.plannedMark = some mark → mark = BoxedSystem.interestMark types S

theorem plannedMark_afterPlan {s : BoxedSystem} (h : s.interest = some types) (w : World α) :
    (s.afterPlan w).plannedMark = some (BoxedSystem.interestMark types w) := by
  have hadvanced : (s.afterPlan w).plannedMark = (s.advanceMark w).plannedMark := by
    unfold BoxedSystem.afterPlan
    dsimp only
    split_ifs <;> rfl
  rw [hadvanced]
  simp [BoxedSystem.advanceMark, h]

theorem Gated.step (h : Gated C ps types p) (hbounded : ∀ p ∈ ps, p.Bounded types)
    (htypes : p.system.interest = some types) {i : PlanningStep α} (hnoticed : Noticed C ps p i)
    (hstep : Planning.step C p i = some p') : Gated C ps types p' := by
  cases i with
  | use op =>
    obtain ⟨-, w', hw', rfl⟩ := useWorld_cases hstep
    have hcoherent := World.coherent_of_reachable h.reachable
    have hkept : ∀ S, p.captured = some S ∨ p.planned = some S → Standing C ps types S p.world →
        Standing C ps types S w' := by
      intro S hS hstanding
      refine hstanding.extend (.of_apply op hw') fun hsame hmark => ?_
      have hrelied : p.Relied := ⟨S, hS, by rw [htypes]; exact hsame⟩
      exact alike_use hbounded hcoherent hrelied hnoticed hw' hmark
    refine ⟨.step h.reachable trivial hw', fun S hS => hkept S (Or.inl hS) (h.captured S hS),
      fun S hS => ?_⟩
    obtain ⟨hstanding, hmark⟩ := h.planned S hS
    exact ⟨hkept S (Or.inr hS) hstanding, hmark⟩
  | capture =>
    cases hstep
    refine ⟨h.reachable, fun S hS => ?_, h.planned⟩
    cases hS
    exact .refl h.reachable
  | plan =>
    rcases plan_cases hstep with rfl | ⟨S, hS, -, rfl⟩
    · exact h
    · refine ⟨h.reachable, h.captured, fun S' hS' => ?_⟩
      cases hS'
      refine ⟨h.captured S hS, fun mark hmark => ?_⟩
      exact Option.some.inj (hmark.symm.trans (plannedMark_afterPlan htypes S))
  | forceReplan keys =>
    cases hstep
    refine ⟨h.reachable, h.captured, fun S hS => ?_⟩
    obtain ⟨hstanding, hmark⟩ := h.planned S hS
    refine ⟨hstanding, fun mark hforced => hmark mark ?_⟩
    change (p.system.forceReplan keys).plannedMark = some mark at hforced
    unfold BoxedSystem.forceReplan at hforced
    split_ifs at hforced
    · exact hforced
    · cases hforced
  | resetFull =>
    cases hstep
    exact ⟨h.reachable, h.captured, fun S hS => ⟨(h.planned S hS).1, fun _ hmark => by cases hmark⟩⟩
  | compact =>
    cases hstep
    rcases compact_cases p with heq | ⟨w', hroll, hs, -, -, heq⟩
    · rw [heq]
      exact ⟨h.reachable, (by simp), h.planned⟩
    · rw [heq]
      have happly : p.world.apply C .rollPlanEpoch = some w' := congrArg some hroll
      have halike : Alike ps.Unlisted ps.scope p.world w' := by
        refine ⟨fun t _ => by rw [World.storeWatermark, World.store_congr hs]; rfl, fun _ => World.nextEntity_eq rfl happly, fun t _ e => ?_, fun t _ e => ?_⟩
        · rw [World.fingerprintOn_congr hs]
        · rw [World.cell?_congr hs]
      have hreachable := (World.Later.of_apply _ happly).reachable h.reachable
      refine ⟨hreachable, (by simp), fun S hS => ?_⟩
      obtain ⟨hstanding, hmark⟩ := h.planned S hS
      refine ⟨hstanding.extend (.of_apply _ happly) fun _ _ => halike, fun mark hkept => ?_⟩
      refine hmark mark ?_
      change (p.system.compactPlanLog _ _ w').plannedMark = some mark at hkept
      unfold BoxedSystem.compactPlanLog at hkept
      dsimp only at hkept
      split_ifs at hkept <;> exact hkept

theorem gated_of_reachable (h : (machine C).ReachableUnder (Noticed C ps) p)
    (hinterest : ps.interestTypes = some types) (htypes : p.system.interest = some types) :
    Gated C ps types p := by
  have hbounded : ∀ q ∈ ps, q.Bounded types := fun q hq => Params.bounded_of_mem hinterest hq
  refine h.invariant (fun p : Planning α => p.system.interest = some types → Gated C ps types p)
    ?_ ?_ htypes
  · intro p hinit _
    obtain ⟨hw, hcaptured, hplanned, -⟩ := hinit
    refine ⟨.init hw, fun S hS => ?_, fun S hS => ?_⟩
    · rw [hcaptured] at hS
      cases hS
    · rw [hplanned] at hS
      cases hS
  · intro p i p' hgated hnoticed hstep htypes
    rw [(sameKind_step hstep).2.2] at htypes
    exact (hgated htypes).step hbounded htypes hnoticed hstep

/-- A system that is passed over has the states, observations and plan that it had over the world
of its last plan. -/
theorem passedOver_same (h : (machine C).ReachableUnder (Noticed C ps) p)
    (hinterest : p.system.interest = ps.interestTypes) (hS : p.planned = some S)
    (hmarkers : ∀ q ∈ ps, ∀ t ∈ q.markers, p.world.storeWatermark t = 0)
    (hpassed : p.system.peekNeedsPlanning p.world = false) :
    Params.states p.world ps = Params.states S ps ∧
      (∀ state, ps.deps C p.world state = ps.deps C S state) ∧
      ∀ system memo, planInvocations C system p.world memo none ps =
        planInvocations C system S memo none ps := by
  cases htypes : ps.interestTypes with
  | none =>
    rw [BoxedSystem.peekNeedsPlanning, hinterest, htypes] at hpassed
    split_ifs at hpassed
  | some types =>
    have hsystem := hinterest.trans htypes
    have hgated := gated_of_reachable h htypes hsystem
    have hbounded : ∀ q ∈ ps, q.Bounded types := fun q hq => Params.bounded_of_mem htypes hq
    obtain ⟨hstanding, hmark⟩ := hgated.planned S hS
    have hcoherent := World.coherent_of_reachable hstanding.reachable
    obtain ⟨-, hfollows⟩ := (World.Follows.refl S).later hcoherent hstanding.later
    -- the mark has not moved
    have hsame : BoxedSystem.interestMark types p.world = BoxedSystem.interestMark types S := by
      rw [BoxedSystem.peekNeedsPlanning, hsystem] at hpassed
      cases hplanned : p.system.plannedMark with
      | none =>
        rw [hplanned] at hpassed
        split_ifs at hpassed
      | some mark =>
        rw [hplanned] at hpassed
        split_ifs at hpassed
        have hle := not_lt.mp (of_decide_eq_false hpassed)
        rw [hmark mark hplanned] at hle
        exact le_antisymm hle (marks_le hcoherent hfollows)
    have halike := hstanding.alike hsame
    have hstill : ∀ t ∈ types, p.world.storeWatermark t = S.storeWatermark t := by
      intro t ht
      by_contra hmoved
      exact absurd hsame (interestMark_lt hcoherent hfollows ht hmoved).ne'
    have hread : ∀ q ∈ ps, ∀ t ∈ q.readTypes, p.world.storeWatermark t = S.storeWatermark t := by
      intro q hq t ht
      by_cases hlisted : t ∈ types
      · exact hstill t hlisted
      · refine halike.watermarks t ⟨⟨q, hq, ht⟩, fun own hown => ?_⟩
        cases htypes.symm.trans hown
        exact hlisted
    have hstore : ∀ t, ps.scope.stores t → World.SameStore C t S p.world := fun t ⟨q, hq, ht⟩ =>
      hfollows.sameStore hcoherent (hread q hq t ht)
    have hindices := World.indicesExact_of_reachable hstanding.reachable
    have hindices' := World.indicesExact_of_reachable hgated.reachable
    have hview : SameView ps.scope S p.world :=
      { allocated := halike.allocated
        has := fun t ht => (hstore t ht).has
        fingerprints := halike.fingerprints
        buckets := fun t ht => hindices.buckets hindices' (halike.fingerprints t ht)
        members := halike.members }
    obtain ⟨schema, hp⟩ := hindices.present
    obtain ⟨schema', hp'⟩ := hindices'.present
    have hwithin : ∀ q ∈ ps, q.Within ps.scope := fun q hq => Params.within_scope hq
    have hdeps : ∀ state, ps.deps C p.world state = ps.deps C S state := by
      intro state
      refine List.flatMap_congr fun pick hpick => ?_
      have hq : pick.1 ∈ ps := (List.of_mem_zip hpick).1
      refine hview.deps C (fun t ht => (hstore t ht).revisions) (hwithin pick.1 hq) (fun t ht => ?_) _
      rcases (hbounded pick.1 hq).watched t ht with hin | hown | hmarker
      · exact hstill t hin
      · exact hread pick.1 hq t hown
      · have hzero := hmarkers pick.1 hq t hmarker
        have hle := hfollows.storeWatermark_le hcoherent t
        rw [hzero] at hle
        rw [hzero, Nat.le_zero.mp hle]
    have hstates := hview.planned hp hp' hwithin
    refine ⟨hstates, hdeps, fun system memo => ?_⟩
    have haccess : ∀ state, ps.access p.world state = ps.access S state := by
      intro state
      refine List.flatMap_congr fun pick hpick => ?_
      exact hview.access (hwithin pick.1 (List.of_mem_zip hpick).1).inverses pick.2
    have hrow : planRow C system p.world memo ps = planRow C system S memo ps := by
      funext state
      unfold planRow
      rw [hdeps, haccess]
    unfold planInvocations
    dsimp only
    rw [hstates, hrow]

end Gating

section Runs

/-- The rows of component 5. -/
def readTuple : Params := [.query (.read 5) .unit]

/-- Every id, with component 5 where it is. -/
def optionalTuple : Params := [.query (.entityParts [] [.optional 5]) .unit]

/-- A system with interest in component 5 has planned over a world with a row. -/
def settledPlan : Planning Nat :=
  ((machine World.fingerprinted).run registered [.use .spawnEmpty,
    .use (.base (.insert 5 0 (.data 7))), .capture, .plan]).getD registered

/-- Another component is inserted on a spawned entity. -/
def passed : Planning Nat :=
  ((machine World.fingerprinted).run settledPlan [.use .spawnEmpty,
    .use (.base (.insert 6 1 (.data 7)))]).getD settledPlan

/-- A tuple of plain reads misses no use. -/
theorem noticed_readTuple (p : Planning Nat) (i : PlanningStep Nat) :
    Noticed World.fingerprinted readTuple p i := by
  have hnone : ∀ t, ¬ readTuple.scope.keys t ∧ ¬ readTuple.scope.inverses t := by
    intro t
    simp [readTuple, Params.scope, SystemParam.boundKeyTypes, SystemParam.listTypes,
      QueryFilter.boundKeyTypes, QueryFilter.inKeyTypes, QueryParam.relatedTypes]
  have hids : ¬ readTuple.scope.ids := by
    rintro ⟨q, hq, hdraws⟩
    cases List.mem_singleton.mp hq
    exact absurd hdraws (by decide)
  have hlisted : ∀ t, ¬ readTuple.Unlisted t := by
    rintro t ⟨⟨q, hq, ht⟩, hnot⟩
    cases List.mem_singleton.mp hq
    exact hnot [5] rfl ht
  cases i with
  | use op =>
    refine fun _ => ⟨fun h => absurd h hids, fun t ht => absurd ht (hlisted t), ?_⟩
    cases op with
    | update t e v =>
      exact fun x _ => ⟨fun h => absurd h (hnone t).1, fun h => absurd h (hnone t).2⟩
    | writeInPlace t e v => exact fun x _ h => absurd h (hnone t).2
    | reconcileWritten writes => exact fun q _ h => absurd h (hnone q.1).1
    | _ => exact fun w' _ t h => absurd h (hnone t).2
  | _ => trivial

theorem passed_same : ∃ S, passed.planned = some S ∧
    passed.system.peekNeedsPlanning passed.world = false ∧
    Params.states passed.world readTuple = Params.states S readTuple := by
  have hrun : (machine World.fingerprinted).run registered [.use .spawnEmpty,
      .use (.base (.insert 5 0 (.data 7))), .capture, .plan, .use .spawnEmpty,
      .use (.base (.insert 6 1 (.data 7)))] = some passed := rfl
  have hallows : ∀ labels (s : Planning Nat), (machine World.fingerprinted).Allows
      (Noticed World.fingerprinted readTuple) s labels := by
    intro labels
    induction labels with
    | nil => exact fun _ => trivial
    | cons i labels ih => exact fun s => ⟨noticed_readTuple s i, fun s' _ => ih s'⟩
  have hreachable : (machine World.fingerprinted).ReachableUnder
      (Noticed World.fingerprinted readTuple) passed :=
    Machine.ReachableUnder.run (.init ⟨⟨none, rfl⟩, rfl, rfl, rfl, rfl, rfl, _, _, _, _, _, rfl⟩)
      (hallows _ _) hrun
  refine ⟨_, rfl, by decide, (passedOver_same hreachable rfl rfl ?_ (by decide)).1⟩
  intro q hq
  cases List.mem_singleton.mp hq
  exact nofun

/-- The spawned entity is a row of a tuple of optional parts, whose system is passed over. -/
theorem spawned_passedOver : Params.validateBindings optionalTuple = .ok () ∧
    (machine World.fingerprinted).Reachable passed ∧
    passed.system.interest = optionalTuple.interestTypes ∧
    passed.system.peekNeedsPlanning passed.world = false ∧
    ∃ S, passed.planned = some S ∧
      Params.states S optionalTuple = some [[.row 0]] ∧
      Params.states passed.world optionalTuple = some [[.row 0], [.row 1]] := by
  have hrun : (machine World.fingerprinted).run registered [.use .spawnEmpty,
      .use (.base (.insert 5 0 (.data 7))), .capture, .plan, .use .spawnEmpty,
      .use (.base (.insert 6 1 (.data 7)))] = some passed := rfl
  have hreachable : (machine World.fingerprinted).Reachable passed :=
    Machine.Reachable.run (.init ⟨⟨none, rfl⟩, rfl, rfl, rfl, rfl, rfl, _, _, _, _, _, rfl⟩) hrun
  exact ⟨rfl, hreachable, rfl, by decide, _, rfl, by decide, by decide⟩

/-- A sole `MutRef` under a filter that drives its rows leaves its own component out. -/
example : Params.interestTypes [.query (.mutRef 5) (.withComponent 6)] = some [6] := rfl

end Runs

end Planning
end Porridge
