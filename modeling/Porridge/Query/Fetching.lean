import Porridge.Lib.Blocks
import Porridge.Query.Pairs
import Porridge.Query.View
import Porridge.World.Identity

/-! What a row fetches, and when rows with the same observations fetch the same. -/
namespace Porridge

variable {α : Type}

section Fetch

variable (w : World α)

def MemberPart.matchesRow (part : MemberPart) (e : Entity) : Bool :=
  match part with
  | .read t => w.has t e
  | .optional _ => true

abbrev Fetched (α : Type) := Entity × List (TypeId × Option (Entry α))

def QueryPart.fetch (part : QueryPart) (e : Entity) : List (Fetched α) :=
  match part with
  | .read t => [(e, [(t, w.cell? t e)])]
  | .optional t => [(e, [(t, w.cell? t e)])]
  | .tracked _ _ => []
  | .mutRef t => [(e, [(t, w.cell? t e)])]
  | .related inverse parts =>
    ((w.membersOn inverse e).filter fun m => parts.all (·.matchesRow w m)).map fun m =>
      (m, parts.map fun p => (p.component, w.cell? p.component m))

def QueryParam.fetch (q : QueryParam) (e : Entity) : List (List (Fetched α)) :=
  match q with
  | .entity _ => []
  | .read t => [[(e, [(t, w.cell? t e)])]]
  | .mutRef t => [[(e, [(t, w.cell? t e)])]]
  | .entityParts _ parts => parts.map (·.fetch w e)

end Fetch

namespace QueryParam

def fetchedTypes : QueryParam → List TypeId
  | .entity _ => []
  | .read t => [t]
  | .mutRef t => [t]
  | .entityParts _ parts => parts.flatMap QueryPart.interestTypes

/-- The shape fetches tracked components only, and its projections have parts. -/
structure Projects (C : Components α) (q : QueryParam) : Prop where
  tracked : ∀ t ∈ q.fetchedTypes, C.tracked t = true
  members : ∀ h parts, q = .entityParts h parts → ∀ inverse members,
    .related inverse members ∈ parts → members ≠ []

end QueryParam

/-- The fingerprints of an inverse tell how many members are listed. -/
def CountsMembers (C : Components α) (t : TypeId) : Prop :=
  ∀ v v', C.fingerprint t v = C.fingerprint t v' → C.fingerprint t v ≠ none →
    v.memberList.length = v'.memberList.length

def SameFetched (C : Components α) (a b : Fetched α) : Prop :=
  a.1 = b.1 ∧ List.Forall₂ (fun x y => x.1 = y.1 ∧
    Option.Rel (World.SameVersion C x.1) x.2 y.2) a.2 b.2

section Lengths

variable {C : Components α} {w w' : World α} {e : Entity}

theorem length_componentDep (t : TypeId) (e' : Entity) :
    (componentDep C w t e).length = (componentDep C w' t e').length := by
  unfold componentDep
  split_ifs <;> rfl

theorem QueryFilter.length_deps (f : QueryFilter) :
    (f.deps C w e).length = (f.deps C w' e).length := by
  have hkey : ∀ k : JoinKey, (k.deps C w e).length = (k.deps C w' e).length := by
    intro k
    induction k with
    | eq t => exact length_componentDep t e
    | inMembers _ => rfl
    | and l r hl hr =>
      rw [JoinKey.deps, JoinKey.deps, List.length_append, List.length_append, hl, hr]
  induction f with
  | withComponent t => exact length_componentDep t e
  | whereKey k => exact hkey k
  | and l r hl hr =>
    rw [QueryFilter.deps, QueryFilter.deps, List.length_append, List.length_append, hl, hr]
  | _ => rfl

def QueryPart.projects : QueryPart → Bool
  | .related _ _ => true
  | _ => false

theorem QueryPart.length_deps {part : QueryPart} (h : part.projects = false) :
    (part.deps C w e).length = (part.deps C w' e).length := by
  cases part with
  | read t => exact length_componentDep t e
  | optional t => exact length_componentDep t e
  | tracked marker facet =>
    simp only [QueryPart.deps, List.length_flatMap]
    exact congrArg List.sum (List.map_congr_left fun p _ => length_componentDep p.component e)
  | mutRef t => exact length_componentDep t e
  | related _ _ => cases h

end Lengths

section Soundness

variable {C : Components α} {w₀ w w' : World α} {e : Entity}

theorem componentDep_tracked {t : TypeId} (h : C.tracked t = true) (e : Entity) :
    componentDep C w t e = [⟨t, e, w.revisionByType t e, false⟩] := if_pos h

theorem componentDep_eq {t : TypeId} (ht : C.tracked t = true)
    (h : componentDep C w t e = componentDep C w' t e) :
    w.revisionByType t e = w'.revisionByType t e := by
  rw [componentDep_tracked ht, componentDep_tracked ht] at h
  injection h with hdep
  injection hdep

/-- The observations of the members, one block for each. -/
theorem memberDeps_eq {parts : List MemberPart} (htracked : ∀ p ∈ parts, C.tracked p.component = true)
    (w : World α) (m : Entity) : (parts.flatMap fun p => p.observedMemberDeps C w m) =
      parts.map fun p => ⟨p.component, m, w.revisionByType p.component m, false⟩ := by
  induction parts with
  | nil => rfl
  | cons p parts ih =>
    rw [List.flatMap_cons, List.map_cons, ih fun q hq => htracked q (List.mem_cons_of_mem _ hq),
      MemberPart.observedMemberDeps, componentDep_tracked (htracked p List.mem_cons_self)]
    rfl

variable (hw : World.Identified C [] w₀ w) (h : World.Identified C [] w w')

include hw h

theorem sameFetched_one {t : TypeId} (ht : C.tracked t = true)
    (hdeps : componentDep C w t e = componentDep C w' t e) :
    List.Forall₂ (SameFetched C) [(e, [(t, w.cell? t e)])] [(e, [(t, w'.cell? t e)])] := by
  have hversion := h.sameVersion hw ht (componentDep_eq ht hdeps)
  exact .cons ⟨rfl, .cons ⟨rfl, hversion⟩ .nil⟩ .nil

/-- Where an inverse has the revision it had, its members are counted alike. -/
theorem length_membersOn {t : TypeId} (ht : C.tracked t = true) (hcounts : CountsMembers C t)
    (hrevision : w.revisionByType t e = w'.revisionByType t e) :
    (w.membersOn t e).length = (w'.membersOn t e).length := by
  have hversion := h.sameVersion hw ht hrevision
  unfold World.membersOn
  revert hversion
  generalize w.cell? t e = m, w'.cell? t e = m'
  intro hversion
  cases hversion with
  | none => rfl
  | @some x y hsame =>
    rw [Option.map_some, Option.map_some, Option.getD_some, Option.getD_some]
    by_cases hnone : C.fingerprint t x.value = none
    · rw [hsame.entry hnone]
    · exact hcounts _ _ hsame.fingerprint hnone

/-- A projection with the same observations lists the same members and fetches the same on each. -/
theorem sameFetched_related {inverse : TypeId} {parts : List MemberPart}
    (htracked : ∀ p ∈ parts, C.tracked p.component = true) (hparts : parts ≠ [])
    (hdeps : ((w.membersOn inverse e).flatMap fun m =>
        parts.flatMap fun p => p.observedMemberDeps C w m) =
      (w'.membersOn inverse e).flatMap fun m =>
        parts.flatMap fun p => p.observedMemberDeps C w' m) :
    List.Forall₂ (SameFetched C) ((QueryPart.related inverse parts).fetch w e)
      ((QueryPart.related inverse parts).fetch w' e) := by
  have hblock := memberDeps_eq (C := C) htracked
  simp only [hblock] at hdeps
  have hpos : 0 < parts.length := List.length_pos_of_ne_nil hparts
  obtain ⟨hmembers, hblocks⟩ := List.eq_of_blocks_eq hpos (fun m => List.length_map ..)
    (fun m => List.length_map ..) (fun m m' heq => by
      obtain ⟨p, rest, rfl⟩ := List.exists_cons_of_ne_nil hparts
      rw [List.map_cons, List.map_cons] at heq
      injection heq with hfirst
      injection hfirst) hdeps
  have hrevisions : ∀ m ∈ w.membersOn inverse e, ∀ p ∈ parts,
      w.revisionByType p.component m = w'.revisionByType p.component m := by
    intro m hm p hp
    have hsame := List.map_inj_left.mp (hblocks m hm) p hp
    injection hsame
  have hmatches : ∀ m ∈ w.membersOn inverse e,
      parts.all (·.matchesRow w m) = parts.all (·.matchesRow w' m) := by
    intro m hm
    refine List.all_congr_mem fun p hp => ?_
    cases p with
    | read t =>
      have hpresent := congrArg Option.isSome (hrevisions m hm _ hp)
      rwa [World.revisionByType, World.revisionByType, Option.isSome_map, Option.isSome_map]
        at hpresent
    | optional _ => rfl
  unfold QueryPart.fetch
  dsimp only
  rw [← hmembers, List.filter_congr hmatches, List.forall₂_map_left_iff,
    List.forall₂_map_right_iff, List.forall₂_same]
  intro m hm
  refine ⟨rfl, ?_⟩
  rw [List.forall₂_map_left_iff, List.forall₂_map_right_iff, List.forall₂_same]
  intro p hp
  exact ⟨rfl, h.sameVersion hw (htracked p hp) (hrevisions m (List.mem_filter.mp hm).1 p hp)⟩

theorem sameFetched_part {part : QueryPart}
    (htracked : ∀ t ∈ part.interestTypes, C.tracked t = true)
    (hparts : ∀ inverse members, part = .related inverse members → members ≠ [])
    (hdeps : part.deps C w e = part.deps C w' e) :
    List.Forall₂ (SameFetched C) (part.fetch w e) (part.fetch w' e) := by
  cases part with
  | read t => exact sameFetched_one hw h (htracked t (List.mem_singleton_self t)) hdeps
  | optional t => exact sameFetched_one hw h (htracked t (List.mem_singleton_self t)) hdeps
  | tracked marker facet => exact .nil
  | mutRef t => exact sameFetched_one hw h (htracked t (List.mem_singleton_self t)) hdeps
  | related inverse members =>
    have hmembers : ∀ p ∈ members, C.tracked p.component = true := fun p hp =>
      htracked _ (List.mem_cons_of_mem _ (List.mem_map_of_mem hp))
    refine sameFetched_related hw h hmembers (hparts inverse members rfl) ?_
    exact (List.append_inj hdeps (length_componentDep inverse e)).2

/-- Rows with the same observations fetch the same, if the shape projects one relationship at most or
fingerprints count the members listed. -/
theorem sameFetched_of_deps {q : QueryParam} {f : QueryFilter} (hq : q.Projects C)
    (hcounts : q.relatedTypes.length ≤ 1 ∨ ∀ t ∈ q.relatedTypes, CountsMembers C t)
    (hdeps : (SystemParam.query q f).deps C w (.row e) =
      (SystemParam.query q f).deps C w' (.row e)) :
    List.Forall₂ (List.Forall₂ (SameFetched C)) (q.fetch w e) (q.fetch w' e) := by
  have hdeps : q.deps C w e ++ f.deps C w e = q.deps C w' e ++ f.deps C w' e := hdeps
  have hfilter : (f.deps C w e).length = (f.deps C w' e).length := f.length_deps
  cases q with
  | entity _ => exact .nil
  | read t =>
    have hread := (List.append_inj' hdeps hfilter).1
    exact .cons (sameFetched_one hw h (hq.tracked t (List.mem_singleton_self t)) hread) .nil
  | mutRef t =>
    have hread := (List.append_inj' hdeps hfilter).1
    exact .cons (sameFetched_one hw h (hq.tracked t (List.mem_singleton_self t)) hread) .nil
  | entityParts facet parts =>
    have htracked : ∀ part ∈ parts, ∀ t ∈ part.interestTypes, C.tracked t = true :=
      fun part hpart t ht => hq.tracked t (List.mem_flatMap.mpr ⟨part, hpart, ht⟩)
    have hlengths : ∀ part ∈ parts, ∀ r r', part.deps C w e ++ r = part.deps C w' e ++ r' →
        (part.deps C w e).length = (part.deps C w' e).length := by
      rcases hcounts with hone | hcounts
      · have htotal : (parts.flatMap (·.deps C w e)).length =
            (parts.flatMap (·.deps C w' e)).length := by
          have hall := congrArg List.length hdeps
          rw [List.length_append, List.length_append, hfilter] at hall
          exact Nat.add_right_cancel hall
        have hcount : parts.countP QueryPart.projects ≤ 1 := by
          refine le_of_eq_of_le ?_ hone
          unfold QueryParam.relatedTypes
          rw [List.length_filterMap_eq_countP]
          refine List.countP_congr fun part _ => ?_
          cases part <;> simp [QueryPart.projects]
        intro part hpart _ _ _
        exact List.length_blocks_eq (fun part _ => QueryPart.length_deps) hcount htotal part hpart
      · intro part hpart r r' heq
        cases hprojects : part.projects with
        | false => exact QueryPart.length_deps hprojects
        | true =>
          cases part with
          | related inverse members =>
            have hinverse := htracked _ hpart inverse List.mem_cons_self
            have hmembers : ∀ p ∈ members, C.tracked p.component = true := fun p hp =>
              htracked _ hpart _ (List.mem_cons_of_mem _ (List.mem_map_of_mem hp))
            -- the observation of the inverse comes first
            have hhead : componentDep C w inverse e = componentDep C w' inverse e := by
              simp only [QueryPart.deps, List.append_assoc] at heq
              exact (List.append_inj heq (length_componentDep inverse e)).1
            have hlength := length_membersOn hw h hinverse
              (hcounts inverse (List.mem_filterMap.mpr ⟨_, hpart, rfl⟩))
              (componentDep_eq hinverse hhead)
            have hblock : ∀ (u : World α) (m : Entity), (members.flatMap fun p =>
                p.observedMemberDeps C u m).length = members.length := fun u m => by
              rw [memberDeps_eq hmembers, List.length_map]
            simp only [QueryPart.deps, List.length_append, hhead, List.length_blocks (hblock _),
              hlength]
          | _ => cases hprojects
    have hblocks := List.blocks_eq hlengths hdeps
    unfold QueryParam.fetch
    dsimp only
    rw [List.forall₂_map_left_iff, List.forall₂_map_right_iff, List.forall₂_same]
    intro part hpart
    refine sameFetched_part hw h (htracked part hpart) (fun inverse members heq => ?_)
      (hblocks part hpart)
    exact hq.members facet parts rfl inverse members (heq ▸ hpart)

end Soundness

namespace Writing

variable {C : Components α} {s s' : Writing α}

/-- Revisions identify versions: between two commit boundaries a row with the same observations
fetches the same. -/
theorem revisions_identify (h : (machine C).Reachable s) {ops : List (WorldOp α)}
    (hrun : (machine C).run s ops = some s') : World.FreshRevisions s.world s'.world ∧
      (s.pending = [] → s'.pending = [] → ∀ (q : QueryParam) (f : QueryFilter) (e : Entity),
        q.Projects C → (q.relatedTypes.length ≤ 1 ∨ ∀ t ∈ q.relatedTypes, CountsMembers C t) →
          (SystemParam.query q f).deps C s.world (.row e) =
            (SystemParam.query q f).deps C s'.world (.row e) →
          List.Forall₂ (List.Forall₂ (SameFetched C)) (q.fetch s.world e) (q.fetch s'.world e)) := by
  have hstart := identified_of_reachable h
  have hend := identified_of_run hstart hrun
  refine ⟨hend.freshRevisions hstart.coherent, fun hs hs' q f e hq hcounts hdeps => ?_⟩
  rw [hs] at hstart
  rw [hs'] at hend
  exact sameFetched_of_deps hstart hend hq hcounts hdeps

section Runs

/-- The members of component 6 that the row lists, with their component 4 where it is. -/
def memberQuery : QueryParam := .entityParts [] [.read 4, .related 6 [.optional 4]]

/-- Entity 3 has an edge to entity 0, which has component 4. -/
def listing : Writing Nat :=
  ((machine Params.linking).run ⟨World.new, []⟩ [.base (.insert 4 0 (.data 0)),
    .base (.insert 5 3 (.data 0))]).getD ⟨World.new, []⟩

/-- Component 4 is written in place and reconciled with the fingerprint it had. -/
def rewriting : List (WorldOp Nat) :=
  [.writeInPlace 4 0 (.data 9), .writeInPlace 4 0 (.data 0), .reconcileWritten [(4, 0)],
    .base (.insert 1 3 (.data 7))]

def rewritten : Writing Nat := ((machine Params.linking).run listing rewriting).getD listing

theorem rewritten_identifies : World.FreshRevisions listing.world rewritten.world ∧
    List.Forall₂ (List.Forall₂ (SameFetched Params.linking)) (memberQuery.fetch listing.world 0)
      (memberQuery.fetch rewritten.world 0) := by
  have hrun : (machine Params.linking).run ⟨World.new, []⟩ [.base (.insert 4 0 (.data 0)),
      .base (.insert 5 3 (.data 0))] = some listing := rfl
  have hreachable : (machine Params.linking).Reachable listing :=
    Machine.Reachable.run (.init ⟨⟨none, rfl⟩, rfl⟩) hrun
  have hlater : (machine Params.linking).run listing rewriting = some rewritten := rfl
  obtain ⟨hfresh, hsame⟩ := revisions_identify hreachable hlater
  refine ⟨hfresh, hsame rfl rfl memberQuery .unit 0 ⟨fun _ _ => rfl, ?_⟩ (Or.inl (by decide))
    (by decide)⟩
  intro facet parts heq inverse members hmem
  cases heq
  simp only [List.mem_cons, List.not_mem_nil, or_false, reduceCtorEq, false_or] at hmem
  cases hmem
  exact List.cons_ne_nil _ _

/-- Two relationships whose inverses have one fingerprint for every list. -/
def coarse : Components Nat where
  tracked _ := true
  role t := if t = 5 then .edge 6 else if t = 6 then .inverse 5 else
    if t = 7 then .edge 8 else if t = 8 then .inverse 7 else .plain
  fingerprint _ v := match v with
    | .data payload => some payload
    | _ => some 0
  target _ payload := payload
  inverse_role t inverse h := by
    split_ifs at h with h5 h6 h7 h8
    · cases h
      simp [h5]
    · cases h
      simp [h7]

/-- Both relationships project component 8 of their members. -/
def coarseQuery : QueryParam :=
  .entityParts [] [.related 6 [.optional 8], .related 8 [.optional 8]]

/-- Entity 1 is listed under component 6 of its own, beside entity 0. -/
def selfListed : Writing Nat :=
  ((machine coarse).run ⟨World.new, []⟩ [.base (.insert 5 0 (.data 1)),
    .base (.insert 5 1 (.data 1)), .base (.insert 7 2 (.data 1))]).getD ⟨World.new, []⟩

/-- It moves to component 8. -/
def relisted : Writing Nat :=
  ((machine coarse).run selfListed [.base (.removeComponent 5 1),
    .base (.insert 7 1 (.data 1))]).getD selfListed

/-- The observations are the same, and each projection fetches other members. -/
theorem coarse_unidentified : (machine coarse).Reachable selfListed ∧
    (machine coarse).run selfListed [.base (.removeComponent 5 1),
      .base (.insert 7 1 (.data 1))] = some relisted ∧
    (selfListed.pending = [] ∧ relisted.pending = []) ∧ coarseQuery.Projects coarse ∧
    (SystemParam.query coarseQuery .unit).deps coarse selfListed.world (.row 1) =
      (SystemParam.query coarseQuery .unit).deps coarse relisted.world (.row 1) ∧
    ¬ List.Forall₂ (List.Forall₂ (SameFetched coarse)) (coarseQuery.fetch selfListed.world 1)
      (coarseQuery.fetch relisted.world 1) := by
  have hrun : (machine coarse).run ⟨World.new, []⟩ [.base (.insert 5 0 (.data 1)),
      .base (.insert 5 1 (.data 1)), .base (.insert 7 2 (.data 1))] = some selfListed := rfl
  refine ⟨Machine.Reachable.run (.init ⟨⟨none, rfl⟩, rfl⟩) hrun, rfl, ⟨rfl, rfl⟩,
    ⟨fun _ _ => rfl, ?_⟩, by decide, fun hsame => ?_⟩
  · intro facet parts heq inverse members hmem
    cases heq
    simp only [List.mem_cons, List.not_mem_nil, or_false, QueryPart.related.injEq] at hmem
    rcases hmem with hmem | hmem
    · rw [hmem.2]
      exact List.cons_ne_nil _ _
    · rw [hmem.2]
      exact List.cons_ne_nil _ _
  · have hlength := (List.forall₂_cons.mp hsame).1.length_eq
    exact absurd hlength (by decide)

end Runs

end Writing
end Porridge
