import Mathlib.Data.List.Find
import Porridge.Cleanup.Settled
import Porridge.World.Inverses

/-! Taking components by value from a live world whose entry maps and cells may be shared. -/
namespace Porridge

variable {α : Type} (C : Components α)

/-- Strong references besides the live world's own: to the entry map of a type, and to the cell
of an entry. -/
structure Handles where
  maps : TypeId → Nat
  cells : TypeId → Entity → Nat

namespace Handles

variable (h : Handles)

/-- Make an entry map the live world's own: a shared map is copied, and its cells are then held
by the map left behind too. -/
def makeMut (t : TypeId) : Handles :=
  if h.maps t = 0 then h
  else
    { maps := fun t' => if t' = t then 0 else h.maps t'
      cells := fun t' e => if t' = t then h.cells t' e + 1 else h.cells t' e }

/-- A write replaces the cell of its entry. -/
def write (t : TypeId) (e : Entity) : Handles :=
  { h.makeMut t with
    cells := fun t' e' => if t' = t ∧ e' = e then 0 else (h.makeMut t).cells t' e' }

/-- What relationship maintenance copies and replaces when `source` leaves an inverse. -/
def removeMember (w : World α) (source : Entity) : Option (TypeId × Entity) → Handles
  | none => h
  | some (inverse, target) =>
    match w.cell? inverse target with
    | none => h
    | some x =>
      if source ∈ x.value.memberList then
        if x.value.memberList.erase source = [] then h.makeMut inverse
        else h.write inverse target
      else h

/-- Nothing else holds the map of a type nor the cell of one entry in it. -/
def Alone (t : TypeId) (e : Entity) : Prop := h.maps t = 0 ∧ h.cells t e = 0

end Handles

/-- A required component was absent when its turn came. -/
structure TakeError where
  entity : Entity
  component : TypeId
deriving DecidableEq, Repr

namespace World

/-- A live snapshot or query result still shares the component's cell. -/
def componentPinned (w : World α) (h : Handles) (t : TypeId) (e : Entity) : Bool :=
  w.has t e && (decide (0 < h.maps t) || decide (0 < h.cells t e))

/-- Remove a component and unwrap its value; a cell that is still shared loses it. -/
def removeComponentValue (w : World α) (h : Handles) (t : TypeId) (e : Entity) :
    Option (Value α) × World α × Handles :=
  match w.cell? t e with
  | none => (none, w, h.makeMut t)
  | some x =>
    let maintained := (h.makeMut t).removeMember (w.dropEntry C t e none) e (w.edgeOn C t e)
    (if maintained.cells t e = 0 then some x.value else none, w.removeComponent C t e none,
      maintained)

/-- Take the parts of a tuple from left to right; the first required one that is missing ends
the take. -/
def take (w : World α) (h : Handles) (e : Entity) :
    List (TypeId × Bool) → Except TakeError (List (Option (Value α))) × World α × Handles
  | [] => (.ok [], w, h)
  | (t, required) :: parts =>
    let taken := w.removeComponentValue C h t e
    if required = true ∧ taken.1.isNone = true then (.error ⟨e, t⟩, taken.2)
    else
      let rest := take taken.2.1 taken.2.2 e parts
      (rest.1.map fun values => taken.1 :: values, rest.2)

/-- Some part of the tuple is pinned. -/
def blocked (w : World α) (h : Handles) (e : Entity) (parts : List (TypeId × Bool)) : Bool :=
  parts.any fun p => w.componentPinned h p.1 e

end World

/-- Take the components of a bound entity, then clean it up whether that succeeded or not. -/
def takeFrom (s : State α) (h : Handles) (e : Entity) (parts : List (TypeId × Bool)) :
    Except TakeError (List (Option (Value α))) × State α :=
  let taken := s.world.take C h e parts
  (taken.1, cleanupBoundEntities C { s with world := taken.2.1 } [e])

section Sharing

variable {h : Handles} {w : World α} {t t' : TypeId} {e : Entity}

theorem Handles.Alone.makeMut (hfree : h.Alone t e) (t' : TypeId) : (h.makeMut t').Alone t e := by
  unfold Handles.makeMut
  split_ifs with hmap
  · exact hfree
  · have hne : t ≠ t' := fun heq => hmap (heq ▸ hfree.1)
    constructor
    · simp [hne, hfree.1]
    · simp [hne, hfree.2]

theorem Handles.Alone.write (hfree : h.Alone t e) (t' : TypeId) (e' : Entity) :
    (h.write t' e').Alone t e := by
  have hmade := hfree.makeMut t'
  refine ⟨hmade.1, ?_⟩
  simp only [Handles.write]
  split_ifs
  · rfl
  · exact hmade.2

theorem Handles.Alone.removeMember (hfree : h.Alone t e) (w : World α) (source : Entity)
    (edge : Option (TypeId × Entity)) : (h.removeMember w source edge).Alone t e := by
  cases edge with
  | none => exact hfree
  | some p =>
    unfold Handles.removeMember
    dsimp only
    split
    · exact hfree
    · split_ifs
      · exact hfree.makeMut p.1
      · exact hfree.write p.1 p.2
      · exact hfree

theorem World.componentPinned_eq_false :
    w.componentPinned h t e = false ↔ (w.has t e = true → h.Alone t e) := by
  unfold World.componentPinned Handles.Alone
  cases w.has t e with
  | false => simp
  | true => simp [Nat.pos_iff_ne_zero]

end Sharing

namespace World

variable {C}

section Unshared

variable {w : World α} {h : Handles} {e : Entity}

theorem removeComponent_absent {t : TypeId} {remover : Option SystemInvocation}
    (hx : w.cell? t e = none) : w.removeComponent C t e remover = w := by
  have habsent : ¬ w.has t e = true := by simp [has, hx]
  have hedge : w.edgeOn C t e = none := by simp [edgeOn, hx]
  rw [removeComponent, hedge, dropEntry, if_neg habsent]
  rfl

theorem removeComponentValue_world (t : TypeId) :
    (w.removeComponentValue C h t e).2.1 = w.removeComponent C t e none := by
  unfold removeComponentValue
  split
  · rename_i hx
    exact (removeComponent_absent hx).symm
  · rfl

/-- An unshared component is returned as it is stored. -/
theorem removeComponentValue_eq {t : TypeId} (hfree : w.has t e = true → h.Alone t e) :
    (w.removeComponentValue C h t e).1 = (w.cell? t e).map Entry.value := by
  unfold removeComponentValue
  split
  · rename_i hx
    rw [hx]
    rfl
  · rename_i x hx
    have hkept := ((hfree ((has_iff w t e).mpr ⟨x, hx⟩)).makeMut t).removeMember
      (w.dropEntry C t e none) e (w.edgeOn C t e)
    rw [hx]
    exact if_pos hkept.2

/-- Removing a component shares no other one. -/
theorem removeComponentValue_alone {t q : TypeId} (hfree : h.Alone q e) :
    (w.removeComponentValue C h t e).2.2.Alone q e := by
  unfold removeComponentValue
  split
  · exact hfree.makeMut t
  · exact (hfree.makeMut t).removeMember (w.dropEntry C t e none) e (w.edgeOn C t e)

/-- What is left of an unshared bundle is unshared. -/
theorem frees_removeComponentValue {t q : TypeId} (hfree : w.has q e = true → h.Alone q e)
    (hhas : (w.removeComponent C t e none).has q e = true) :
    (w.removeComponentValue C h t e).2.2.Alone q e := by
  have htorn : TornFrom C w (w.removeComponent C t e none) [e] fun _ _ => False :=
    (TornFrom.refl w [e]).removeComponent
      (fun hhas => ⟨hhas, Or.inl (List.mem_singleton_self e)⟩) none
  exact removeComponentValue_alone (hfree (htorn.has q e hhas))

/-- Where the bundle is not blocked, sharing does not show in the world a take leaves. -/
theorem take_world : ∀ (parts : List (TypeId × Bool)) {w : World α} {h : Handles},
    (∀ p ∈ parts, w.has p.1 e = true → h.Alone p.1 e) →
      (w.take C h e parts).2.1 = w.takeBundle C e parts
  | [], _, _, _ => rfl
  | (t, required) :: parts, w, h, hfree => by
    have hvalue := removeComponentValue_eq (C := C) (hfree (t, required) List.mem_cons_self)
    have hmissing : (w.removeComponentValue C h t e).1.isNone = true ↔ w.has t e = false := by
      rw [hvalue, has]
      cases w.cell? t e <;> simp
    unfold take takeBundle
    simp only [hmissing]
    split_ifs
    · exact removeComponentValue_world t
    · have hrest := take_world parts (w := (w.removeComponentValue C h t e).2.1)
        (h := (w.removeComponentValue C h t e).2.2) fun p hp hhas =>
          frees_removeComponentValue (hfree p (List.mem_cons_of_mem _ hp))
            (by rwa [removeComponentValue_world] at hhas)
      rw [removeComponentValue_world] at hrest
      rw [removeComponentValue_world]
      exact hrest

variable (C) in
/-- No part is the inverse, on the entity itself, of an edge taken before it. -/
def Unfollowed (w : World α) (e : Entity) (parts : List (TypeId × Bool)) : Prop :=
  parts.Pairwise fun p q => w.edgeOn C p.1 e = some (q.1, e) → e ∉ w.membersOn q.1 e

/-- Removing a component leaves the other ones of its entity alone, but for the inverse of an
edge at itself. -/
theorem cell?_removeComponent_other {t q : TypeId} (hne : q ≠ t)
    (hfollow : w.edgeOn C t e = some (q, e) → e ∉ w.membersOn q e) :
    (w.removeComponent C t e none).cell? q e = w.cell? q e := by
  have hdropped : (w.dropEntry C t e none).cell? q e = w.cell? q e := by
    rw [cell?_dropEntry, if_neg fun hp => hne hp.1]
  by_cases hedge : w.edgeOn C t e = some (q, e)
  · have hmember := hfollow hedge
    rw [removeComponent, hedge, retractEdge, relationshipRemoveMember]
    split
    · exact hdropped
    · rename_i x hx
      rw [hdropped] at hx
      have hlist : w.membersOn q e = x.value.memberList := by
        rw [membersOn, hx]
        rfl
      rw [if_neg (hlist ▸ hmember)]
      exact hdropped
  · rw [removeComponent, cell?_retractEdge C _ e _ q e hedge]
    exact hdropped

/-- An unblocked take returns what the entity held when it began, or fails for the first required
part that was absent then. -/
theorem take_fst : ∀ (parts : List (TypeId × Bool)) {w : World α} {h : Handles},
    (parts.map Prod.fst).Nodup → w.Unfollowed C e parts →
      (∀ p ∈ parts, w.has p.1 e = true → h.Alone p.1 e) →
        (w.take C h e parts).1 =
          match parts.find? fun p => p.2 && !w.has p.1 e with
          | some p => .error ⟨e, p.1⟩
          | none => .ok (parts.map fun p => (w.cell? p.1 e).map Entry.value)
  | [], _, _, _, _, _ => rfl
  | (t, required) :: parts, w, h, hnodup, hfollow, hfree => by
    have hvalue := removeComponentValue_eq (C := C) (hfree (t, required) List.mem_cons_self)
    have hmissing : (w.removeComponentValue C h t e).1.isNone = true ↔ w.has t e = false := by
      rw [hvalue, has]
      cases w.cell? t e <;> simp
    rw [List.map_cons, List.nodup_cons] at hnodup
    have hpairs := List.pairwise_cons.mp hfollow
    have hcell : ∀ p ∈ parts,
        (w.removeComponent C t e none).cell? p.1 e = w.cell? p.1 e := by
      intro p hp
      have hne : p.1 ≠ t := fun heq => hnodup.1 (List.mem_map.mpr ⟨p, hp, heq⟩)
      exact cell?_removeComponent_other hne (hpairs.1 p hp)
    unfold take
    simp only [hmissing]
    split_ifs with hstop
    · simp [hstop]
    · have hrest := take_fst parts (w := (w.removeComponentValue C h t e).2.1)
        (h := (w.removeComponentValue C h t e).2.2) hnodup.2 ?_ ?_
      · rw [removeComponentValue_world] at hrest
        have hfind : (parts.find? fun p => p.2 && !(w.removeComponent C t e none).has p.1 e) =
            parts.find? fun p => p.2 && !w.has p.1 e :=
          List.find?_congr fun p hp => by rw [has, has, hcell p hp]
        have hvalues : (parts.map fun p =>
            ((w.removeComponent C t e none).cell? p.1 e).map Entry.value) =
              parts.map fun p => (w.cell? p.1 e).map Entry.value :=
          List.map_congr_left fun p hp => by rw [hcell p hp]
        have hpresent : ((t, required).2 && !w.has (t, required).1 e) = false := by
          simpa using hstop
        rw [removeComponentValue_world, hrest, hfind, hvalues, hvalue,
          List.find?_cons_of_neg (by simp [hpresent])]
        cases parts.find? fun p => p.2 && !w.has p.1 e with
        | none => rfl
        | some p => rfl
      · rw [removeComponentValue_world]
        refine hpairs.2.imp_of_mem fun {p q} hp hq hpq => ?_
        rw [edgeOn, hcell p hp, membersOn, hcell q hq]
        exact hpq
      · exact fun p hp hhas =>
          frees_removeComponentValue (hfree p (List.mem_cons_of_mem _ hp))
            (by rwa [removeComponentValue_world] at hhas)

theorem alone_of_not_blocked {parts : List (TypeId × Bool)} (hfree : w.blocked h e parts = false) :
    ∀ p ∈ parts, w.has p.1 e = true → h.Alone p.1 e := by
  intro p hp
  unfold blocked at hfree
  rw [List.any_eq_false] at hfree
  exact componentPinned_eq_false.mp (Bool.eq_false_iff.mpr (hfree p hp))

end Unshared
end World

variable {C}

/-- An unblocked take succeeds exactly when its required parts are there, and returns what was
stored, an inverse of an edge at its own entity apart. -/
theorem takeFrom_exact {s : State α} (hs : World.Reachable C s.world) {h : Handles} {e : Entity}
    {parts : List (TypeId × Bool)} (hnodup : (parts.map Prod.fst).Nodup)
    (hfree : s.world.blocked h e parts = false) :
    let r := takeFrom C s h e parts
    (s.world.Unfollowed C e parts →
      (r.1.isOk = true ↔ ∀ p ∈ parts, p.2 = true → s.world.has p.1 e = true) ∧
        ∀ values, r.1 = .ok values →
          values = parts.map fun p => (s.world.cell? p.1 e).map Entry.value) ∧
      (∀ t, r.2.world.has t e = false) ∧
      ∀ t e', e' ≠ e →
        r.2.world.cell? t e' = s.world.cell? t e' ∨ s.world.Affected C [e] t e' := by
  intro r
  have halone := World.alone_of_not_blocked hfree
  have hworld : r.2.world =
      (cleanupRetirement C ⟨s.world.takeBundle C e parts, s.memo, false⟩ [e]).world := by
    have htaken := World.take_world (C := C) parts halone
    show (cleanupBoundEntities C { s with world := (s.world.take C h e parts).2.1 } [e]).world = _
    rw [htaken]
    rfl
  obtain ⟨htorn, -⟩ := loses_take hs s.memo e parts
  rw [← hworld] at htorn
  refine ⟨?_, ?_, ?_⟩
  · intro hfollow
    have hresult : r.1 = _ := World.take_fst parts hnodup hfollow halone
    rw [hresult]
    cases hfind : parts.find? fun p => p.2 && !s.world.has p.1 e with
    | none =>
      refine ⟨⟨fun _ p hp hrequired => ?_, fun _ => rfl⟩, fun values hvalues => ?_⟩
      · simpa [hrequired] using List.find?_eq_none.mp hfind p hp
      · exact (Except.ok.inj hvalues).symm
    | some p =>
      refine ⟨⟨fun hok => ?_, fun hall => ?_⟩, fun values hvalues => ?_⟩
      · cases hok
      · have hmissing := List.find?_some hfind
        rw [Bool.and_eq_true] at hmissing
        have hpresent := hall p (List.mem_of_find?_eq_some hfind) hmissing.1
        simp [hpresent] at hmissing
      · cases hvalues
  · intro t
    have hgone := htorn.gone t e (Or.inl (List.mem_singleton_self e))
    simp [World.has, hgone]
  · exact fun t e' _ => htorn.cell t e'

/-- Entity 1 follows itself and 2, and carries component 7. -/
def selfFollowing : State Nat :=
  { State.new Nat with
    world := ((World.machine World.following).run World.new
      [.base (.insert 5 1 (.data 1)), .base (.insert 5 2 (.data 1)),
        .base (.insert 7 1 (.data 3)),
        .output ⟨⟨0, [1]⟩, [.insert 5 4 (.data 9)]⟩ false]).getD World.new }

theorem reachable_selfFollowing : World.Reachable World.following selfFollowing.world := by
  have hrun : (World.machine World.following).run World.new
      [.base (.insert 5 1 (.data 1)), .base (.insert 5 2 (.data 1)),
        .base (.insert 7 1 (.data 3)),
        .output ⟨⟨0, [1]⟩, [.insert 5 4 (.data 9)]⟩ false] = some selfFollowing.world := rfl
  exact Machine.Reachable.run (.init World.machine_init_new) hrun

/-- Nothing else holds a map or a cell. -/
def unshared : Handles := ⟨fun _ => 0, fun _ _ => 0⟩

/-- The inverse is taken whole when it comes first. -/
theorem selfFollowing_takes :
    let r := takeFrom World.following selfFollowing unshared 1 [(6, true), (7, false), (8, false)]
    r.1.isOk = true ∧ (∀ values, r.1 = .ok values →
      values = [some (.members [1, 2]), some (.data 3), none]) ∧
        ∀ t, r.2.world.has t 1 = false := by
  intro r
  have hedges : selfFollowing.world.edgeOn World.following 6 1 = none ∧
      selfFollowing.world.edgeOn World.following 7 1 = none := ⟨by decide, by decide⟩
  have hfollow : selfFollowing.world.Unfollowed World.following 1
      [(6, true), (7, false), (8, false)] := by
    refine .cons ?_ (.cons ?_ (.cons ?_ .nil))
    · intro q _ hedge
      rw [hedges.1] at hedge
      cases hedge
    · intro q _ hedge
      rw [hedges.2] at hedge
      cases hedge
    · intro q hq
      cases hq
  obtain ⟨htaken, hempty, -⟩ :=
    takeFrom_exact (h := unshared) (e := 1) reachable_selfFollowing
      (show ([(6, true), (7, false), (8, false)].map Prod.fst).Nodup by decide) (by decide)
  obtain ⟨hok, hvalues⟩ := htaken hfollow
  exact ⟨hok.mpr (by decide), hvalues, hempty⟩

/-- An edge at its own entity takes its inverse before the inverse's turn, and a retired edge
between others the inverse on its target. -/
theorem selfFollowing_loses :
    (¬ ∀ (s : State Nat) (h : Handles) (e : Entity) (parts : List (TypeId × Bool)),
      World.Reachable World.following s.world → (parts.map Prod.fst).Nodup →
        s.world.blocked h e parts = false → ∀ values,
          (takeFrom World.following s h e parts).1 = .ok values →
            values = parts.map fun p => (s.world.cell? p.1 e).map Entry.value) ∧
      ¬ ∀ (s : State Nat) (h : Handles) (e : Entity) (parts : List (TypeId × Bool)),
        World.Reachable World.following s.world → (parts.map Prod.fst).Nodup →
          s.world.blocked h e parts = false → ∀ t e', e' ≠ e → s.world.has t e' = true →
            (takeFrom World.following s h e parts).2.world.has t e' = false →
              (∃ o, s.world.owner? t e' = some o ∧ s.world.Retires [e] o) ∨
                (t, e') ∈ s.world.retractionsOn World.following e ∨
                  ∃ edge, s.world.edgeOn World.following edge e = some (t, e') := by
  constructor
  · intro hall
    have hvalues := hall selfFollowing unshared 1 [(5, true), (6, true)] reachable_selfFollowing
      (by decide) (by decide) [some (.data 1), some (.members [2])] (by decide)
    exact absurd hvalues (by decide)
  · intro hall
    have hlost := hall selfFollowing unshared 1 [(7, true)] reachable_selfFollowing
      (by decide) (by decide) 6 9 (by decide) (by decide) (by decide)
    rcases hlost with ⟨o, ho, -⟩ | hedge | ⟨edge, hedge⟩
    · have hbase : selfFollowing.world.owner? 6 9 = none := by decide
      cases hbase.symm.trans ho
    · exact absurd hedge (by decide)
    · -- the only edge type is 5, and the edge of entity 1 leads to itself
      have hrole : Role.inverse 5 = .inverse edge := Closed.role_edgeOn _ hedge
      have hfive : 5 = edge := Role.inverse.inj hrole
      subst hfive
      exact absurd hedge (by decide)

end Porridge
