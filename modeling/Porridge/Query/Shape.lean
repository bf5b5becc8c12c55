import Mathlib.Order.Lattice.Nat
import Porridge.Query.Filter

/-! Query shapes: how rows are enumerated, matched, and narrowed to candidates. -/
namespace Porridge

inductive QueryParam where
  | entity (facet : Facet)
  | read (component : TypeId)
  | mutRef (component : TypeId)
  /-- An entity handle with the parts read beside it. -/
  | entityParts (facet : Facet) (parts : List QueryPart)
deriving DecidableEq, Repr

namespace QueryParam

variable {α : Type} (C : Components α) (w : World α)

def retainMatchingParts (parts : List QueryPart) (candidates : List Entity) : List Entity :=
  match w.presenceMask (parts.filterMap QueryPart.presenceRequirement) with
  | some (p, mask) => candidates.filter (p.matchesMask · mask)
  | none => candidates.filter fun e => parts.all (·.matchesRow w e)

/-- The part that drives the enumeration: the first with the smallest store. -/
def driver (parts : List QueryPart) : Option QueryPart :=
  (parts.foldl (fun best part =>
    if part.storeLen w < best.1 then (part.storeLen w, some part) else best)
    (⊤, parts.head?)).2

def rows : QueryParam → List Entity
  | .entity h => facetRows w h
  | .read t => w.entitiesWith t
  | .mutRef t => w.entitiesWith t
  | .entityParts h parts =>
    if h.any (fun part => !part.optional) then
      if 0 < parts.length then retainMatchingParts w parts (facetRows w h) else facetRows w h
    else
      let candidates := match driver w parts with
        | none => []
        | some part => part.candidates w
      -- a single part's candidates are its matches
      if 1 < parts.length then retainMatchingParts w parts candidates else candidates

/-- Rows among the candidates of a filter, if it has any. -/
def rowsHinted (q : QueryParam) (hint : Option (List Entity)) : List Entity :=
  match q, hint with
  | .entity _, some candidates => candidates
  | .read t, some candidates => candidates.filter (w.has t)
  | .mutRef t, some candidates => candidates.filter (w.has t)
  | .entityParts h parts, some candidates =>
    let anchored := if h.required = [] then candidates
      else candidates.filter fun e => h.required.all (w.has · e)
    retainMatchingParts w parts anchored
  | q, none => q.rows w

def interestTypes : QueryParam → Option (List TypeId)
  | .entity h => if h = [] then none else some (h.map FacetPart.component)
  | .read t => some [t]
  -- a sole `MutRef` leaves the default in place
  | .mutRef _ => none
  | .entityParts h parts =>
    if parts = [] ∧ h = [] then none
    else some (h.map FacetPart.component ++ parts.flatMap QueryPart.interestTypes)

def hintProviders (q : QueryParam) (hint : List Entity) : List Entity :=
  match q with
  | .entityParts _ parts => parts.flatMap (·.hintProviders C w hint)
  | _ => []

def supportsWholeStoreView : QueryParam → Bool
  | .entityParts _ parts => parts.all QueryPart.supportsWholeStoreView
  | _ => true

def rowBound : QueryParam → WithTop Nat
  | .entityParts h parts =>
    h.required.foldl (fun bound t => min bound (w.storeLen t))
      (parts.foldl (fun bound part => min bound (part.storeLen w)) ⊤)
  | _ => ⊤

def deps (q : QueryParam) (e : Entity) : List Dep :=
  match q with
  | .entity _ => []
  | .read t => componentDep C w t e
  | .mutRef t => componentDep C w t e
  | .entityParts _ parts => parts.flatMap (·.deps C w e)

def accessAll : QueryParam → List Access
  | .entity _ => []
  | .read t => [⟨.read, t, none⟩]
  | .mutRef t => [⟨.write, t, none⟩]
  | .entityParts _ parts => parts.map QueryPart.accessAll

def providesKey (q : QueryParam) (key : TypeId) : Bool :=
  match q with
  | .read t => key == t
  | .entityParts _ parts => parts.any (·.providesKey key)
  | _ => false

def providedKey (q : QueryParam) (e : Entity) (key : TypeId) : Option (Option Fingerprint) :=
  match q with
  | .read t => if key = t then some (w.fingerprintOn t e) else none
  | .entityParts _ parts => parts.findSome? fun part => part.providedKey w e key
  | _ => none

def providedMembers (q : QueryParam) (e : Entity) (key : TypeId) : Option (List Entity) :=
  match q with
  | .read t => if key = t then (w.cell? t e).bind fun x => x.value.relationshipMembers else none
  | .entityParts _ parts => parts.findSome? fun part => part.providedMembers w e key
  | _ => none

/-- What `rowsHinted` asks of a candidate. -/
def accepts (q : QueryParam) (e : Entity) : Bool :=
  match q with
  | .entity _ => true
  | .read t => w.has t e
  | .mutRef t => w.has t e
  | .entityParts h parts => h.required.all (w.has · e) && parts.all (·.matchesRow w e)

end QueryParam

def filteredRows {α : Type} (w : World α) (q : QueryParam) (f : QueryFilter) : List Entity :=
  (q.rowsHinted w (f.entityCandidates w)).filter (f.matchesRow w)

def filteredRowsFromCandidates {α : Type} (w : World α) (q : QueryParam) (f : QueryFilter)
    (candidates : List Entity) : List Entity :=
  (q.rowsHinted w (some candidates)).filter (f.matchesRow w)

namespace QueryParam

variable {α : Type} {w : World α} {schema : Option (List TypeId)}

/-- Which components the parts require is all that their matching asks. -/
theorem all_presenceRequirement (parts : List QueryPart) (e : Entity) :
    (parts.filterMap QueryPart.presenceRequirement).all (w.has · e) =
      parts.all (·.matchesRow w e) := by
  induction parts with
  | nil => rfl
  | cons part parts ih =>
    rw [List.all_cons, ← ih]
    cases part <;> rfl

/-- The mask and the probes of the stores agree. -/
theorem retainMatchingParts_eq (hp : w.Present schema) (parts : List QueryPart)
    (candidates : List Entity) : retainMatchingParts w parts candidates =
      candidates.filter fun e => parts.all (·.matchesRow w e) := by
  unfold retainMatchingParts
  cases hm : w.presenceMask (parts.filterMap QueryPart.presenceRequirement) with
  | none => rfl
  | some found =>
    obtain ⟨p, mask⟩ := found
    obtain ⟨hshows, -, hmask⟩ := hp.of_mask hm
    refine List.filter_congr fun e _ => ?_
    rw [hshows.matchesMask e hmask, all_presenceRequirement]

theorem rowsHinted_some (hp : w.Present schema) (q : QueryParam) (candidates : List Entity) :
    q.rowsHinted w (some candidates) = candidates.filter (q.accepts w) := by
  cases q with
  | entity h => exact (List.filter_eq_self.mpr fun _ _ => rfl).symm
  | read t => rfl
  | mutRef t => rfl
  | entityParts h parts =>
    have hanchored : (if h.required = [] then candidates
        else candidates.filter fun e => h.required.all (w.has · e)) =
          candidates.filter fun e => h.required.all (w.has · e) := by
      split_ifs with hnone
      · rw [hnone]
        exact (List.filter_eq_self.mpr fun _ _ => rfl).symm
      · rfl
    show retainMatchingParts w parts (if h.required = [] then candidates
        else candidates.filter fun e => h.required.all (w.has · e)) = _
    rw [hanchored, retainMatchingParts_eq hp, List.filter_filter]
    refine List.filter_congr fun e _ => ?_
    exact Bool.and_comm _ _

end QueryParam

theorem mem_filteredRowsFromCandidates {α : Type} {w : World α} {schema : Option (List TypeId)}
    (hp : w.Present schema) (q : QueryParam) (f : QueryFilter) (candidates : List Entity)
    (e : Entity) : e ∈ filteredRowsFromCandidates w q f candidates ↔
      e ∈ candidates ∧ q.accepts w e = true ∧ f.matchesRow w e = true := by
  rw [filteredRowsFromCandidates, q.rowsHinted_some hp, List.mem_filter, List.mem_filter, and_assoc]

/-- A filter that enumerates candidates drives the rows. -/
theorem mem_filteredRows_of_candidates {α : Type} {w : World α} {schema : Option (List TypeId)}
    (hp : w.Present schema) (q : QueryParam) {f : QueryFilter}
    (hf : (f.entityCandidates w).isSome = true) (e : Entity) :
    e ∈ filteredRows w q f ↔ q.accepts w e = true ∧ f.matchesRow w e = true := by
  obtain ⟨candidates, hc⟩ := Option.isSome_iff_exists.mp hf
  rw [filteredRows, hc, q.rowsHinted_some hp, List.mem_filter, List.mem_filter]
  constructor
  · rintro ⟨⟨-, ha⟩, hm⟩
    exact ⟨ha, hm⟩
  · rintro ⟨ha, hm⟩
    exact ⟨⟨QueryFilter.admits_of_matches hm candidates hc, ha⟩, hm⟩

end Porridge
