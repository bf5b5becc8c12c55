import Porridge.Lib.Branching
import Porridge.Query.Candidates
import Porridge.Query.External
import Porridge.World.Buckets
import Porridge.World.Identity

/-! External filters with their runtime arguments: what the index finds is what a scan finds. -/
namespace Porridge

/-- The arguments of a scoop: shared ones, and those bound to one named query of it. -/
structure ScopedArgs (α : Type) where
  shared : Dict TypeId (Value α)
  scopes : Dict (TypeId × TypeId) (Value α)

/-- The argument in a scope; a missing one panics. -/
def ScopedArgs.get {α : Type} (args : ScopedArgs α) (scope : Option TypeId) (t : TypeId) :
    Option (Value α) :=
  (scope.bind fun s => args.scopes.lookup (s, t)).or (args.shared.lookup t)

section Filters

variable {α : Type} (C : Components α) (cmp : Comparisons α) (w : World α) (args : ScopedArgs α)
  (scope : Option TypeId)

namespace FilterExpr

/-- The argument of a comparison is asked for where the entity carries the component. -/
def matchesWith (x : FilterExpr) (e : Entity) : Option Bool :=
  match x with
  | .eq t =>
    match w.cell? t e with
    | none => some false
    | some entry => (args.get scope t).map (cmp.eq t entry.value)
  | .gte t =>
    match w.cell? t e with
    | none => some false
    | some entry => (args.get scope t).map (cmp.ge t entry.value)
  | .withComponent t => some (w.has t e)
  | .withoutComponent t => some (!w.has t e)
  | .and l r => do if ← l.matchesWith e then r.matchesWith e else some false
  | .or l r => do if ← l.matchesWith e then some true else r.matchesWith e
  | .not x => (x.matchesWith e).map (!·)

/-- Either side of a conjunction narrows it; a disjunction and a negation enumerate nothing. -/
def candidatesWith : FilterExpr → Option (Option (List Entity))
  | .eq t => (args.get scope t).map fun v => (C.fingerprint t v).map (w.fingerprintCandidates t)
  | .withComponent t => some (some (w.entitiesWith t))
  | .and l r => do
    match ← l.candidatesWith with
    | some candidates => some (some candidates)
    | none => r.candidatesWith
  | _ => some none

/-- The components whose arguments the expression compares with. -/
def argumentTypes : FilterExpr → List TypeId
  | .eq t => [t]
  | .gte t => [t]
  | .and l r => l.argumentTypes ++ r.argumentTypes
  | .or l r => l.argumentTypes ++ r.argumentTypes
  | .not x => x.argumentTypes
  | _ => []

end FilterExpr

namespace ExternalFilter

def matchesWith (f : ExternalFilter) (e : Entity) : Option Bool :=
  match f with
  | .unit => some true
  | .withComponent t => some (w.has t e)
  | .withoutComponent t => some (!w.has t e)
  | .whereExpr x => x.matchesWith cmp w args scope e

def candidatesWith : ExternalFilter → Option (Option (List Entity))
  | .withComponent t => some (some (w.entitiesWith t))
  | .whereExpr x => x.candidatesWith C w args scope
  | _ => some none

def argumentTypes : ExternalFilter → List TypeId
  | .whereExpr x => x.argumentTypes
  | _ => []

end ExternalFilter

def externalRows (q : QueryParam) (f : ExternalFilter) : Option (List Entity) := do
  let candidates ← f.candidatesWith C w args scope
  (q.rowsHinted w candidates).filter? (f.matchesWith cmp w args scope)

def cowRowsHinted (t : TypeId) : Option (List Entity) → List Entity
  | some candidates => candidates.filter (w.has t)
  | none => w.entitiesWith t

/-- The rows of a clone-on-write query. -/
def externalCowRows (t : TypeId) (f : ExternalFilter) : Option (List Entity) := do
  let candidates ← f.candidatesWith C w args scope
  (cowRowsHinted w t candidates).filter? (f.matchesWith cmp w args scope)

def externalMutRows (t : TypeId) (f : ExternalFilter) : Option (List (Entity × Option Revision)) := do
  let candidates := match ← f.candidatesWith C w args scope with
    | some candidates => candidates.filter (w.has t)
    | none => w.entitiesWith t
  let rows ← candidates.filter? (f.matchesWith cmp w args scope)
  some (rows.map fun e => (e, w.revisionByType t e))

end Filters

namespace QueryParam

/-- The shapes of external reads: one component, or a tuple of reads beside a handle. -/
def External : QueryParam → Prop
  | .read _ => True
  | .entityParts _ parts => parts ≠ [] ∧
    ∀ part ∈ parts, (∃ t, part = .read t) ∨ ∃ t, part = .optional t
  | _ => False

theorem External.declared : ∀ {q : QueryParam}, q.External → q.Declared
  | .read _, _ => trivial
  | .entityParts _ _, h => h.1

/-- What an external read asks of its rows, it asks of candidates too. -/
theorem External.unchecked : ∀ {q : QueryParam}, q.External → q.unchecked = []
  | .read _, _ => rfl
  | .entityParts facet parts, h => by
    unfold QueryParam.unchecked
    dsimp only
    split_ifs
    · cases parts with
      | nil => rfl
      | cons part rest =>
        rcases h.2 part List.mem_cons_self with ⟨t, rfl⟩ | ⟨t, rfl⟩
        · rfl
        · rfl
    · rfl

end QueryParam

/-- The stored fingerprints, by which entries are indexed, are those of the stored values. -/
def World.Fingerprinted {α : Type} (C : Components α) (w : World α) : Prop :=
  ∀ t e x, w.cell? t e = some x → x.fingerprint = C.fingerprint t x.value

/-- Where no write in place waits, the index is coherent. -/
theorem Writing.fingerprinted_of_reachable {α : Type} {C : Components α} {w : World α}
    (h : (Writing.machine C).Reachable ⟨w, []⟩) : w.Fingerprinted C :=
  fun t e x hx => (Writing.identified_of_reachable h).stamped t e x hx (List.not_mem_nil)

section Scans

variable {α : Type} {C : Components α} {cmp : Comparisons α} {w : World α} {args : ScopedArgs α}
  {scope : Option TypeId}

/-- The candidates are ascending, carry something, and include every match. -/
structure Narrows (w : World α) (matchesRow : Entity → Option Bool) (candidates : List Entity) :
    Prop where
  ascending : Ascending candidates
  carrying : ∀ e ∈ candidates, ∃ t, w.has t e = true
  covering : ∀ e, matchesRow e = some true → e ∈ candidates

theorem narrows_entitiesWith {matchesRow : Entity → Option Bool} {t : TypeId}
    (h : ∀ e, matchesRow e = some true → w.has t e = true) :
    Narrows w matchesRow (w.entitiesWith t) where
  ascending := ascending_entitiesWith w t
  carrying e he := ⟨t, (w.mem_entitiesWith t e).mp he⟩
  covering e he := (w.mem_entitiesWith t e).mpr (h e he)

theorem Narrows.mono {matchesRow matchesRow' : Entity → Option Bool} {candidates : List Entity}
    (h : Narrows w matchesRow candidates)
    (hsub : ∀ e, matchesRow' e = some true → matchesRow e = some true) :
    Narrows w matchesRow' candidates where
  ascending := h.ascending
  carrying := h.carrying
  covering e he := h.covering e (hsub e he)

/-- A conjunction holds where both sides do. -/
theorem FilterExpr.matchesWith_and {l r : FilterExpr} {e : Entity} :
    (FilterExpr.and l r).matchesWith cmp w args scope e = some true ↔
      l.matchesWith cmp w args scope e = some true ∧
        r.matchesWith cmp w args scope e = some true := by
  rw [matchesWith]
  cases l.matchesWith cmp w args scope e with
  | none => simp
  | some left => cases left <;> simp

/-- The index lists every entity that holds a value equal to the argument. -/
theorem narrows_fingerprint (hw : w.IndicesExact) (hstored : w.Fingerprinted C)
    (hcmp : ∀ t v v', cmp.eq t v v' = true → C.fingerprint t v = C.fingerprint t v')
    {t : TypeId} {v : Value α} (hv : args.get scope t = some v) {fingerprint : Fingerprint}
    (hfingerprint : C.fingerprint t v = some fingerprint) :
    Narrows w ((FilterExpr.eq t).matchesWith cmp w args scope)
      (w.fingerprintCandidates t fingerprint) where
  ascending := hw.bucketed t fingerprint
  carrying e he := ⟨t, World.has_of_fingerprintOn
    ((hw.coherent.mem_fingerprintCandidates t fingerprint e).mp he)⟩
  covering e he := by
    rw [FilterExpr.matchesWith] at he
    cases hx : w.cell? t e with
    | none =>
      rw [hx] at he
      cases he
    | some x =>
      rw [hx] at he
      dsimp only at he
      rw [hv] at he
      have hequal : cmp.eq t x.value v = true := Option.some.inj he
      have hentry : x.fingerprint = some fingerprint := by
        rw [hstored t e x hx, hcmp t _ _ hequal, hfingerprint]
      refine (hw.coherent.mem_fingerprintCandidates t fingerprint e).mpr ?_
      unfold World.fingerprintOn
      rw [hx]
      exact hentry

theorem FilterExpr.narrows (hw : w.IndicesExact) (hstored : w.Fingerprinted C)
    (hcmp : ∀ t v v', cmp.eq t v v' = true → C.fingerprint t v = C.fingerprint t v') :
    ∀ {x : FilterExpr} {candidates : List Entity},
      x.candidatesWith C w args scope = some (some candidates) →
        Narrows w (x.matchesWith cmp w args scope) candidates
  | .eq t, candidates, h => by
    obtain ⟨v, hv, hfound⟩ := Option.map_eq_some_iff.mp h
    obtain ⟨fingerprint, hfingerprint, rfl⟩ := Option.map_eq_some_iff.mp hfound
    exact narrows_fingerprint hw hstored hcmp hv hfingerprint
  | .withComponent t, candidates, h => by
    cases h
    exact narrows_entitiesWith fun e he => Option.some.inj he
  | .and l r, candidates, h => by
    obtain ⟨found, hl, h⟩ := Option.bind_eq_some_iff.mp h
    cases found with
    | some left =>
      cases h
      exact (narrows hw hstored hcmp hl).mono fun e he => (matchesWith_and.mp he).1
    | none => exact (narrows hw hstored hcmp h).mono fun e he => (matchesWith_and.mp he).2
  | .gte _, _, h | .withoutComponent _, _, h | .or _ _, _, h | .not _, _, h => nomatch h

theorem ExternalFilter.narrows (hw : w.IndicesExact) (hstored : w.Fingerprinted C)
    (hcmp : ∀ t v v', cmp.eq t v v' = true → C.fingerprint t v = C.fingerprint t v')
    {f : ExternalFilter} {candidates : List Entity}
    (h : f.candidatesWith C w args scope = some (some candidates)) :
    Narrows w (f.matchesWith cmp w args scope) candidates := by
  cases f with
  | unit => cases h
  | withComponent t =>
    cases h
    exact narrows_entitiesWith fun e he => Option.some.inj he
  | withoutComponent t => cases h
  | whereExpr x => exact FilterExpr.narrows hw hstored hcmp h

end Scans

section Arguments

variable {α : Type} {C : Components α} {cmp : Comparisons α} {w : World α} {args : ScopedArgs α}
  {scope : Option TypeId}

/-- With its arguments an expression decides every row. -/
theorem FilterExpr.exists_matchesWith (e : Entity) : ∀ {x : FilterExpr},
    (∀ t ∈ x.argumentTypes, (args.get scope t).isSome = true) →
      ∃ decided, x.matchesWith cmp w args scope e = some decided
  | .eq t, h => by
    obtain ⟨v, hv⟩ := Option.isSome_iff_exists.mp (h t (List.mem_singleton_self t))
    rw [matchesWith]
    cases w.cell? t e with
    | none => exact ⟨_, rfl⟩
    | some x => exact ⟨_, congrArg (Option.map (cmp.eq t x.value)) hv⟩
  | .gte t, h => by
    obtain ⟨v, hv⟩ := Option.isSome_iff_exists.mp (h t (List.mem_singleton_self t))
    rw [matchesWith]
    cases w.cell? t e with
    | none => exact ⟨_, rfl⟩
    | some x => exact ⟨_, congrArg (Option.map (cmp.ge t x.value)) hv⟩
  | .withComponent _, _ => ⟨_, rfl⟩
  | .withoutComponent _, _ => ⟨_, rfl⟩
  | .and l r, h => by
    obtain ⟨left, hl⟩ := exists_matchesWith e fun t ht => h t (List.mem_append_left _ ht)
    obtain ⟨right, hr⟩ := exists_matchesWith e fun t ht => h t (List.mem_append_right _ ht)
    rw [matchesWith, hl, hr]
    cases left <;> exact ⟨_, rfl⟩
  | .or l r, h => by
    obtain ⟨left, hl⟩ := exists_matchesWith e fun t ht => h t (List.mem_append_left _ ht)
    obtain ⟨right, hr⟩ := exists_matchesWith e fun t ht => h t (List.mem_append_right _ ht)
    rw [matchesWith, hl, hr]
    cases left <;> exact ⟨_, rfl⟩
  | .not x, h => by
    obtain ⟨decided, hx⟩ := exists_matchesWith e (x := x) h
    rw [matchesWith, hx]
    exact ⟨_, rfl⟩

theorem FilterExpr.exists_candidatesWith : ∀ {x : FilterExpr},
    (∀ t ∈ x.argumentTypes, (args.get scope t).isSome = true) →
      ∃ candidates, x.candidatesWith C w args scope = some candidates
  | .eq t, h => by
    obtain ⟨v, hv⟩ := Option.isSome_iff_exists.mp (h t (List.mem_singleton_self t))
    rw [candidatesWith, hv]
    exact ⟨_, rfl⟩
  | .and l r, h => by
    obtain ⟨left, hl⟩ := exists_candidatesWith fun t ht => h t (List.mem_append_left _ ht)
    obtain ⟨right, hr⟩ := exists_candidatesWith fun t ht => h t (List.mem_append_right _ ht)
    rw [candidatesWith, hl]
    cases left with
    | none => exact ⟨right, hr⟩
    | some candidates => exact ⟨_, rfl⟩
  | .gte _, _ | .withComponent _, _ | .withoutComponent _, _ | .or _ _, _ | .not _, _ => ⟨_, rfl⟩

theorem ExternalFilter.decides {f : ExternalFilter}
    (h : ∀ t ∈ f.argumentTypes, (args.get scope t).isSome = true) :
    (∃ candidates, f.candidatesWith C w args scope = some candidates) ∧
      ∀ e, ∃ decided, f.matchesWith cmp w args scope e = some decided := by
  cases f with
  | whereExpr x => exact ⟨x.exists_candidatesWith h, fun e => x.exists_matchesWith e h⟩
  | _ => exact ⟨⟨_, rfl⟩, fun _ => ⟨_, rfl⟩⟩

end Arguments

section Exact

variable {α : Type} {C : Components α} {cmp : Comparisons α} {w : World α} {args : ScopedArgs α}
  {scope : Option TypeId}

/-- What is found is the scan of `rows`, in ascending order; it is found if the arguments are there. -/
structure Scanned (cmp : Comparisons α) (w : World α) (args : ScopedArgs α) (scope : Option TypeId)
    (f : ExternalFilter) (rows : List Entity) (found : Option (List Entity)) : Prop where
  exact : ∀ out, found = some out →
    out = rows.filter fun e => f.matchesWith cmp w args scope e == some true
  ascending : ∀ out, found = some out → Ascending out
  total : (∀ t ∈ f.argumentTypes, (args.get scope t).isSome = true) → found.isSome = true

/-- Rows that are narrowed to candidates are scanned. -/
theorem scanned_of_narrowed (hw : w.IndicesExact) (hstored : w.Fingerprinted C)
    (hcmp : ∀ t v v', cmp.eq t v v' = true → C.fingerprint t v = C.fingerprint t v')
    {rows : List Entity} {hinted : Option (List Entity) → List Entity} (hrows : Ascending rows)
    (hnone : hinted none = rows)
    (hsome : ∀ candidates, Ascending candidates → (∀ e ∈ candidates, ∃ t, w.has t e = true) →
      hinted (some candidates) = candidates.filter (· ∈ rows)) (f : ExternalFilter) :
    Scanned cmp w args scope f rows ((f.candidatesWith C w args scope).bind fun candidates =>
      (hinted candidates).filter? (f.matchesWith cmp w args scope)) := by
  have hexact : ∀ out, ((f.candidatesWith C w args scope).bind fun candidates =>
      (hinted candidates).filter? (f.matchesWith cmp w args scope)) = some out →
        out = rows.filter fun e => f.matchesWith cmp w args scope e == some true := by
    intro out hout
    obtain ⟨candidates, hcandidates, hfound⟩ := Option.bind_eq_some_iff.mp hout
    rw [List.filter?_eq_filter hfound]
    cases candidates with
    | none => rw [hnone]
    | some candidates =>
      have hnarrows : Narrows w (f.matchesWith cmp w args scope) candidates :=
        ExternalFilter.narrows hw hstored hcmp hcandidates
      rw [hsome candidates hnarrows.ascending hnarrows.carrying]
      refine ((hnarrows.ascending.filter _).filter _).eq_of_mem_iff (hrows.filter _) fun e => ?_
      simp only [List.mem_filter, decide_eq_true_eq, beq_iff_eq]
      constructor
      · rintro ⟨⟨-, hrow⟩, hmatch⟩
        exact ⟨hrow, hmatch⟩
      · rintro ⟨hrow, hmatch⟩
        exact ⟨⟨hnarrows.covering e hmatch, hrow⟩, hmatch⟩
  refine ⟨hexact, fun out hout => ?_, fun hargs => ?_⟩
  · rw [hexact out hout]
    exact hrows.filter _
  · have hdecided : (∃ candidates, f.candidatesWith C w args scope = some candidates) ∧
        ∀ e, ∃ decided, f.matchesWith cmp w args scope e = some decided :=
      ExternalFilter.decides hargs
    obtain ⟨⟨candidates, hcandidates⟩, hdecides⟩ := hdecided
    have hfound : ∃ out,
        (hinted candidates).filter? (f.matchesWith cmp w args scope) = some out :=
      List.filter?_eq_some fun e _ => hdecides e
    obtain ⟨out, hout⟩ := hfound
    rw [hcandidates, Option.bind_some, hout]
    rfl

/-- Whatever narrows the candidates, each kind of external query finds the rows of its shape that
match, each once and in ascending order. -/
theorem external_scanned (hw : World.Handled C w) (hstored : w.Fingerprinted C)
    (hcmp : ∀ t v v', cmp.eq t v v' = true → C.fingerprint t v = C.fingerprint t v')
    (args : ScopedArgs α) (scope : Option TypeId) (f : ExternalFilter) :
    (∀ q : QueryParam, q.External →
      Scanned cmp w args scope f (q.rows w) (externalRows C cmp w args scope q f)) ∧
    ∀ t, Scanned cmp w args scope f (w.entitiesWith t) (externalCowRows C cmp w args scope t f) ∧
      ∃ found, externalMutRows C cmp w args scope t f =
          found.map (List.map fun e => (e, w.revisionByType t e)) ∧
        Scanned cmp w args scope f (w.entitiesWith t) found := by
  have hexact := World.indicesExact_of_reachable hw.reachable
  obtain ⟨schema, hp⟩ := hexact.present
  have hcarriers : ∀ t (candidates : List Entity),
      candidates.filter (w.has t) = candidates.filter (· ∈ w.entitiesWith t) := by
    intro t candidates
    refine List.filter_congr fun e _ => ?_
    rw [Bool.eq_iff_iff, decide_eq_true_iff, w.mem_entitiesWith]
  constructor
  · intro q hq
    refine scanned_of_narrowed hexact hstored hcmp q.ascending_rows (by cases q <;> rfl) ?_ f
    intro candidates _ hcarrying
    have hallocated : ∀ e ∈ candidates, e < w.nextEntity := by
      intro e he
      obtain ⟨t, ht⟩ := hcarrying e he
      exact hw.below.entries t e ht
    refine (q.rowsHinted_eq_iff hp hq.declared hallocated).mpr fun e _ t ht => ?_
    rw [hq.unchecked] at ht
    cases ht
  · intro t
    have hrows := ascending_entitiesWith w t
    constructor
    · exact scanned_of_narrowed hexact hstored hcmp hrows rfl (fun c _ _ => hcarriers t c) f
    · refine ⟨(f.candidatesWith C w args scope).bind fun candidates =>
        (cowRowsHinted w t candidates).filter? (f.matchesWith cmp w args scope), ?_, ?_⟩
      · unfold externalMutRows
        cases f.candidatesWith C w args scope with
        | none => rfl
        | some candidates =>
          rw [Option.bind_some, Option.map_eq_bind]
          cases candidates <;> rfl
      · exact scanned_of_narrowed hexact hstored hcmp hrows rfl (fun c _ _ => hcarriers t c) f

section Examples

open World

/-- Component 5 holds 7 on entities 0 and 2 and 8 on entity 1; entity 2 also carries component 6. -/
def payloadWorld : World Nat :=
  ((machine fingerprinted).run .new [.spawnEmpty, .spawnEmpty, .spawnEmpty,
    .base (.insert 5 2 (.data 7)), .base (.insert 5 1 (.data 8)), .base (.insert 5 0 (.data 7)),
    .base (.insert 6 2 (.data 9))]).getD .new

def samePayload : Comparisons Nat := ⟨fun _ v v' => decide (v = v'), fun _ _ _ => false⟩

/-- Equal to 7, and without component 6. -/
def lackingSix : ExternalFilter := .whereExpr (.and (.not (.withComponent 6)) (.eq 5))

/-- The index narrows a tuple with an optional part to the entities with an equal payload. -/
theorem lackingSix_scanned :
    externalRows fingerprinted samePayload payloadWorld ⟨AList.insert 5 (.data 7) ∅, ∅⟩ none
      (.entityParts [] [.read 5, .optional 6]) lackingSix = some [0] ∧
    Scanned samePayload payloadWorld ⟨AList.insert 5 (.data 7) ∅, ∅⟩ none lackingSix
      ((QueryParam.entityParts [] [.read 5, .optional 6]).rows payloadWorld)
      (externalRows fingerprinted samePayload payloadWorld ⟨AList.insert 5 (.data 7) ∅, ∅⟩ none
        (.entityParts [] [.read 5, .optional 6]) lackingSix) := by
  have hrun : (machine fingerprinted).run .new [.spawnEmpty, .spawnEmpty, .spawnEmpty,
      .base (.insert 5 2 (.data 7)), .base (.insert 5 1 (.data 8)), .base (.insert 5 0 (.data 7)),
      .base (.insert 6 2 (.data 9))] = some payloadWorld := rfl
  have hhandled : Handled fingerprinted payloadWorld :=
    Machine.ReachableUnder.run (.init machine_init_new) (by decide) hrun
  have hnew : Identified fingerprinted [] .new .new :=
    Writing.identified_of_reachable (s := ⟨.new, []⟩) (.init ⟨machine_init_new, rfl⟩)
  have hmanaged : Managed fingerprinted .new payloadWorld := ⟨_, by decide, hrun⟩
  have hstored : payloadWorld.Fingerprinted fingerprinted :=
    fun t e x hx => (hnew.managed hmanaged).stamped t e x hx List.not_mem_nil
  have hcmp : ∀ t v v', samePayload.eq t v v' = true →
      fingerprinted.fingerprint t v = fingerprinted.fingerprint t v' := fun t v v' hequal =>
    congrArg (fingerprinted.fingerprint t) (of_decide_eq_true hequal)
  have hexternal : (QueryParam.entityParts [] [.read 5, .optional 6]).External := by
    refine ⟨List.cons_ne_nil _ _, fun part hpart => ?_⟩
    rcases List.mem_cons.mp hpart with rfl | hpart
    · exact Or.inl ⟨5, rfl⟩
    · exact Or.inr ⟨6, List.mem_singleton.mp hpart⟩
  exact ⟨by decide, (external_scanned hhandled hstored hcmp _ none lackingSix).1 _ hexternal⟩

end Examples

end Exact
end Porridge
