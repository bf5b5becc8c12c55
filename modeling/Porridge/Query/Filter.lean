import Porridge.Query.Part

/-! Filters of system queries: presence, absence, and the keys of bound joins. -/
namespace Porridge

inductive JoinKey where
  /-- Equal fingerprints of a component on both rows. -/
  | eq (component : TypeId)
  /-- Membership in the maintained inverse on the other row. -/
  | inMembers (inverse : TypeId)
  | and (left right : JoinKey)
deriving DecidableEq, Repr

inductive QueryFilter where
  | unit
  | withComponent (component : TypeId)
  | withoutComponent (component : TypeId)
  | whereKey (key : JoinKey)
  | and (left right : QueryFilter)
deriving DecidableEq, Repr

/-- The candidates of a conjunction: both sides constrain where both enumerate. -/
def conjunctCandidates : Option (List Entity) → Option (List Entity) → Option (List Entity)
  | some left, some right => some (left.filter (· ∈ right))
  | some left, none => some left
  | none, right => right

namespace JoinKey

variable {α : Type} (C : Components α) (w : World α)

def matchesRow (k : JoinKey) (e : Entity) : Bool :=
  match k with
  | .eq t => w.has t e
  -- membership is pruned against the other row's member list
  | .inMembers _ => true
  | .and l r => l.matchesRow e && r.matchesRow e

def interestTypes : JoinKey → List TypeId
  | .eq t => [t]
  | .inMembers t => [t]
  | .and l r => l.interestTypes ++ r.interestTypes

/-- A membership is observed through the provider's read of the inverse. -/
def deps (k : JoinKey) (e : Entity) : List Dep :=
  match k with
  | .eq t => componentDep C w t e
  | .inMembers _ => []
  | .and l r => l.deps e ++ r.deps e

def accessAll : JoinKey → List Access
  | .eq t => [⟨.read, t, none⟩]
  | .inMembers _ => []
  | .and l r => l.accessAll ++ r.accessAll

def entityCandidates : JoinKey → Option (List Entity)
  | .eq t => some (w.entitiesWith t)
  | .inMembers _ => none
  | .and l r => conjunctCandidates l.entityCandidates r.entityCandidates

def boundKeys (k : JoinKey) (e : Entity) : List (TypeId × Option Fingerprint) :=
  match k with
  | .eq t => [(t, w.fingerprintOn t e)]
  | .inMembers _ => []
  | .and l r => l.boundKeys e ++ r.boundKeys e

def boundKeyTypes : JoinKey → List TypeId
  | .eq t => [t]
  | .inMembers _ => []
  | .and l r => l.boundKeyTypes ++ r.boundKeyTypes

def inKeyTypes : JoinKey → List TypeId
  | .eq _ => []
  | .inMembers t => [t]
  | .and l r => l.inKeyTypes ++ r.inKeyTypes

/-- The rows whose pairs include a hinted member; a compound key translates nothing. -/
def hintProviders (k : JoinKey) (hint : List Entity) : List Entity :=
  match k with
  | .eq t => hint.flatMap fun member =>
    match w.fingerprintOn t member with
    | some fingerprint => w.fingerprintCandidates t fingerprint
    | none => []
  | .inMembers inverse => edgeTargets C w inverse hint
  | .and _ _ => []

end JoinKey

namespace QueryFilter

variable {α : Type} (C : Components α) (w : World α)

def matchesRow (f : QueryFilter) (e : Entity) : Bool :=
  match f with
  | .unit => true
  | .withComponent t => w.has t e
  | .withoutComponent t => !w.has t e
  | .whereKey k => k.matchesRow w e
  | .and l r => l.matchesRow e && r.matchesRow e

def interestTypes : QueryFilter → List TypeId
  | .unit => []
  | .withComponent t => [t]
  | .withoutComponent t => [t]
  | .whereKey k => k.interestTypes
  | .and l r => l.interestTypes ++ r.interestTypes

/-- A bound on the matches; a conjunction and a join keep the trait's default. -/
def candidateBound : QueryFilter → WithTop Nat
  | .withComponent t => w.storeLen t
  | _ => ⊤

def drivesCandidates : QueryFilter → Bool
  | .withComponent _ => true
  | .and l r => l.drivesCandidates || r.drivesCandidates
  | _ => false

def deps (f : QueryFilter) (e : Entity) : List Dep :=
  match f with
  | .unit => []
  | .withComponent t => componentDep C w t e
  | .withoutComponent _ => []
  | .whereKey k => k.deps C w e
  | .and l r => l.deps e ++ r.deps e

def accessAll : QueryFilter → List Access
  | .unit => []
  | .withComponent t => [⟨.read, t, none⟩]
  | .withoutComponent t => [⟨.read, t, none⟩]
  | .whereKey k => k.accessAll
  | .and l r => l.accessAll ++ r.accessAll

def entityCandidates : QueryFilter → Option (List Entity)
  | .withComponent t => some (w.entitiesWith t)
  | .whereKey k => k.entityCandidates w
  | .and l r => conjunctCandidates l.entityCandidates r.entityCandidates
  | _ => none

def boundKeys (f : QueryFilter) (e : Entity) : List (TypeId × Option Fingerprint) :=
  match f with
  | .whereKey k => k.boundKeys w e
  | .and l r => l.boundKeys e ++ r.boundKeys e
  | _ => []

def boundKeyTypes : QueryFilter → List TypeId
  | .whereKey k => k.boundKeyTypes
  | .and l r => l.boundKeyTypes ++ r.boundKeyTypes
  | _ => []

def inKeyTypes : QueryFilter → List TypeId
  | .whereKey k => k.inKeyTypes
  | .and l r => l.inKeyTypes ++ r.inKeyTypes
  | _ => []

def inKeys (f : QueryFilter) (e : Entity) : List (TypeId × Entity) :=
  f.inKeyTypes.map fun t => (t, e)

def hintProviders (f : QueryFilter) (hint : List Entity) : List Entity :=
  match f with
  | .whereKey k => k.hintProviders C w hint
  | .and l r => l.hintProviders hint ++ r.hintProviders hint
  | _ => []

end QueryFilter

section Lemmas

variable {α : Type} {C : Components α} {w : World α}

def Admits (candidates : Option (List Entity)) (e : Entity) : Prop := ∀ l, candidates = some l → e ∈ l

theorem admits_conjunct {l r : Option (List Entity)} {e : Entity} :
    Admits (conjunctCandidates l r) e ↔ Admits l e ∧ Admits r e := by
  cases l with
  | none => simp [conjunctCandidates, Admits]
  | some l =>
    cases r with
    | none => simp [conjunctCandidates, Admits]
    | some r => simp [conjunctCandidates, Admits]

/-- A matching row is among the candidates. -/
theorem JoinKey.admits_of_matches {e : Entity} : ∀ {k : JoinKey}, k.matchesRow w e = true →
    Admits (k.entityCandidates w) e
  | .eq t, h, l, hl => by
    cases hl
    exact (w.mem_entitiesWith t e).mpr h
  | .inMembers _, _, _, hl => nomatch hl
  | .and l r, h, c, hc => by
    obtain ⟨hl, hr⟩ := (Bool.and_eq_true _ _).mp h
    exact admits_conjunct.mpr ⟨admits_of_matches hl, admits_of_matches hr⟩ c hc

theorem QueryFilter.admits_of_matches {e : Entity} : ∀ {f : QueryFilter},
    f.matchesRow w e = true → Admits (f.entityCandidates w) e
  | .unit, _, _, hl => nomatch hl
  | .withComponent t, h, l, hl => by
    cases hl
    exact (w.mem_entitiesWith t e).mpr h
  | .withoutComponent _, _, _, hl => nomatch hl
  | .whereKey _, h, l, hl => JoinKey.admits_of_matches h l hl
  | .and l r, h, c, hc => by
    obtain ⟨hl, hr⟩ := (Bool.and_eq_true _ _).mp h
    exact admits_conjunct.mpr ⟨admits_of_matches hl, admits_of_matches hr⟩ c hc

/-- Every bound key carries the fingerprint stamped on the row. -/
theorem JoinKey.mem_boundKeys {e : Entity} {key : TypeId} {fingerprint : Option Fingerprint} :
    ∀ {k : JoinKey}, (key, fingerprint) ∈ k.boundKeys w e ↔
      key ∈ k.boundKeyTypes ∧ fingerprint = w.fingerprintOn key e
  | .eq t => by
    simp only [boundKeys, boundKeyTypes, List.mem_singleton, Prod.mk.injEq]
    constructor
    · rintro ⟨rfl, rfl⟩
      exact ⟨rfl, rfl⟩
    · rintro ⟨rfl, rfl⟩
      exact ⟨rfl, rfl⟩
  | .inMembers _ => by simp [boundKeys, boundKeyTypes]
  | .and l r => by
    rw [boundKeys, boundKeyTypes, List.mem_append, List.mem_append, JoinKey.mem_boundKeys,
      JoinKey.mem_boundKeys, or_and_right]

theorem QueryFilter.mem_boundKeys {e : Entity} {key : TypeId} {fingerprint : Option Fingerprint} :
    ∀ {f : QueryFilter}, (key, fingerprint) ∈ f.boundKeys w e ↔
      key ∈ f.boundKeyTypes ∧ fingerprint = w.fingerprintOn key e
  | .unit => by simp [boundKeys, boundKeyTypes]
  | .withComponent _ => by simp [boundKeys, boundKeyTypes]
  | .withoutComponent _ => by simp [boundKeys, boundKeyTypes]
  | .whereKey _ => JoinKey.mem_boundKeys
  | .and l r => by
    rw [boundKeys, boundKeyTypes, List.mem_append, List.mem_append, QueryFilter.mem_boundKeys,
      QueryFilter.mem_boundKeys, or_and_right]

end Lemmas
end Porridge
