import Porridge.Execution.Exclusive
import Porridge.Query.Fetching
import Porridge.Query.Observation
import Porridge.Query.WholeStore

/-! Rows that take a component by `MutRef` through one parameter and name it through another. -/
namespace Porridge

variable {α : Type}

/-- Where the state of a parameter binds it. -/
inductive Footing where
  | row (entity : Entity)
  /-- Every row of the stores that the parameter names. -/
  | stores
  | nothing
deriving DecidableEq, Repr

/-- The components that a row of the part names on its own entity. -/
def QueryPart.names : QueryPart → List TypeId
  | .read t => [t]
  | .optional t => [t]
  | .tracked _ h => h.map FacetPart.component
  | .mutRef t => [t]
  | .related inverse _ => [inverse]

def QueryPart.mutates : QueryPart → List TypeId
  | .mutRef t => [t]
  | _ => []

/-- The inverse whose members the part projects, with the components it names on them. -/
def QueryPart.projection : QueryPart → Option (TypeId × List TypeId)
  | .related inverse parts => some (inverse, parts.map MemberPart.component)
  | _ => none

def QueryParam.names : QueryParam → List TypeId
  | .entity _ => []
  | .read t => [t]
  | .mutRef t => [t]
  | .entityParts _ parts => parts.flatMap QueryPart.names

/-- The components that the query takes by `MutRef`. -/
def QueryParam.mutates : QueryParam → List TypeId
  | .mutRef t => [t]
  | .entityParts _ parts => parts.flatMap QueryPart.mutates
  | _ => []

def QueryParam.projections : QueryParam → List (TypeId × List TypeId)
  | .entityParts _ parts => parts.filterMap QueryPart.projection
  | _ => []

def JoinKey.names : JoinKey → List TypeId
  | .eq t => [t]
  | .inMembers _ => []
  | .and l r => l.names ++ r.names

def QueryFilter.names : QueryFilter → List TypeId
  | .unit => []
  | .withComponent t => [t]
  | .withoutComponent t => [t]
  | .whereKey k => k.names
  | .and l r => l.names ++ r.names

namespace SystemParam

def footing : SystemParam → ParamState → Footing
  | .query _ _, .row e => .row e
  | .outer _ _, .row e => .row e
  | .outer _ _, .absent => .stores
  | .view _ _, _ => .stores
  | .trackedView _ _, _ => .stores
  | _, _ => .nothing

def query? : SystemParam → Option (QueryParam × QueryFilter)
  | .query q f => some (q, f)
  | .outer q f => some (q, f)
  | .view q f => some (q, f)
  | .trackedView q f => some (q, f)
  | _ => none

def mutates (p : SystemParam) : List TypeId := p.query?.elim [] fun q => q.1.mutates

/-- The components that the parameter names on its row, in its items or in its filter. -/
def names (p : SystemParam) : List TypeId := p.query?.elim [] fun q => q.1.names ++ q.2.names

def projections (p : SystemParam) : List (TypeId × List TypeId) :=
  p.query?.elim [] fun q => q.1.projections

/-- The stores that the parameter names where it is bound to whole stores. -/
def namesAll (p : SystemParam) : List TypeId :=
  p.query?.elim [] fun q => (q.1.accessAll ++ q.2.accessAll).map Access.component

end SystemParam

/-- What the first parameter takes by `MutRef` the second one names where it is bound. -/
def Meets (w : World α) (p r : SystemParam × ParamState) : Prop :=
  match p.1.footing p.2, r.1.footing r.2 with
  | .row e, .row e' => ∃ t ∈ p.1.mutates, (e = e' ∧ t ∈ r.1.names) ∨
      ∃ projection ∈ r.1.projections, e ∈ w.membersOn projection.1 e' ∧ t ∈ projection.2
  | .row _, .stores => ∃ t ∈ p.1.mutates, t ∈ r.1.namesAll
  | .stores, .row e => ∃ t ∈ p.1.mutates, t ∈ r.1.names ∨
      ∃ projection ∈ r.1.projections, w.membersOn projection.1 e ≠ [] ∧ t ∈ projection.2
  | .stores, .stores => ∃ t ∈ p.1.mutates, t ∈ r.1.namesAll
  | _, _ => False

def Compatible (w : World α) (p r : SystemParam × ParamState) : Prop :=
  ∀ a ∈ p.1.access w p.2, ∀ b ∈ r.1.access w r.2, a.conflicts b = false

section Accesses

variable {w : World α} {e : Entity} {t : TypeId} {x : Option Entity}

def NamesRow (w : World α) (names : List TypeId) (projections : List (TypeId × List TypeId))
    (e : Entity) (t : TypeId) (x : Option Entity) : Prop :=
  ∃ m, x = some m ∧ ((e = m ∧ t ∈ names) ∨
    ∃ projection ∈ projections, m ∈ w.membersOn projection.1 e ∧ t ∈ projection.2)

theorem QueryPart.write_mem_access {part : QueryPart} :
    ⟨.write, t, x⟩ ∈ part.access w e ↔ x = some e ∧ t ∈ part.mutates := by
  cases part with
  | mutRef t' => simp [access, mutates, and_comm]
  | _ => simp [access, mutates]

theorem QueryPart.mem_access {part : QueryPart} : (∃ k, ⟨k, t, x⟩ ∈ part.access w e) ↔
    NamesRow w part.names part.projection.toList e t x := by
  unfold NamesRow
  cases part with
  | read t' | optional t' | mutRef t' => simp [access, names, projection, and_comm]
  | tracked marker h =>
    simp only [access, names, projection, List.mem_map, Option.toList_none, List.not_mem_nil,
      false_and, exists_false, or_false]
    constructor
    · rintro ⟨k, part, hpart, heq⟩
      cases heq
      exact ⟨e, rfl, rfl, part, hpart, rfl⟩
    · rintro ⟨m, rfl, rfl, part, hpart, rfl⟩
      exact ⟨.read, part, hpart, rfl⟩
  | related inverse parts =>
    simp only [access, names, projection, List.mem_cons, List.mem_flatMap, List.mem_map,
      Option.toList_some, List.not_mem_nil, or_false]
    constructor
    · rintro ⟨k, heq | ⟨m, hm, part, hpart, heq⟩⟩
      · cases heq
        exact ⟨e, rfl, Or.inl ⟨rfl, rfl⟩⟩
      · cases heq
        exact ⟨m, rfl, Or.inr ⟨_, rfl, hm, List.mem_map_of_mem hpart⟩⟩
    · rintro ⟨m, rfl, ⟨rfl, rfl⟩ | ⟨projection, rfl, hm, ht⟩⟩
      · exact ⟨.read, Or.inl rfl⟩
      · obtain ⟨part, hpart, rfl⟩ := List.mem_map.mp ht
        exact ⟨.read, Or.inr ⟨m, hm, part, hpart, rfl⟩⟩

theorem QueryParam.write_mem_access {q : QueryParam} :
    ⟨.write, t, x⟩ ∈ q.access w e ↔ x = some e ∧ t ∈ q.mutates := by
  cases q with
  | mutRef t' => simp [access, mutates, and_comm]
  | entityParts h parts =>
    simp only [access, mutates, List.mem_flatMap, QueryPart.write_mem_access]
    constructor
    · rintro ⟨part, hpart, rfl, ht⟩
      exact ⟨rfl, part, hpart, ht⟩
    · rintro ⟨rfl, part, hpart, ht⟩
      exact ⟨part, hpart, rfl, ht⟩
  | _ => simp [access, mutates]

theorem QueryParam.mem_access {q : QueryParam} : (∃ k, ⟨k, t, x⟩ ∈ q.access w e) ↔
    NamesRow w q.names q.projections e t x := by
  cases q with
  | entity h => simp [access, names, projections, NamesRow]
  | read t' | mutRef t' => simp [access, names, projections, NamesRow, and_comm]
  | entityParts h parts =>
    simp only [access, names, projections, List.mem_flatMap]
    constructor
    · rintro ⟨k, part, hpart, hmem⟩
      obtain ⟨m, rfl, hnames⟩ := QueryPart.mem_access.mp ⟨k, hmem⟩
      refine ⟨m, rfl, hnames.imp (fun hrow => ⟨hrow.1, List.mem_flatMap.mpr ⟨part, hpart, hrow.2⟩⟩) ?_⟩
      rintro ⟨projection, hprojection, hm, ht⟩
      exact ⟨projection, List.mem_filterMap.mpr ⟨part, hpart, Option.mem_toList.mp hprojection⟩, hm, ht⟩
    · rintro ⟨m, rfl, ⟨rfl, ht⟩ | ⟨projection, hprojection, hm, ht⟩⟩
      · obtain ⟨part, hpart, ht⟩ := List.mem_flatMap.mp ht
        obtain ⟨k, hmem⟩ := QueryPart.mem_access.mpr ⟨e, rfl, Or.inl ⟨rfl, ht⟩⟩
        exact ⟨k, part, hpart, hmem⟩
      · obtain ⟨part, hpart, heq⟩ := List.mem_filterMap.mp hprojection
        obtain ⟨k, hmem⟩ := QueryPart.mem_access.mpr
          ⟨m, rfl, Or.inr ⟨projection, Option.mem_toList.mpr heq, hm, ht⟩⟩
        exact ⟨k, part, hpart, hmem⟩

theorem JoinKey.mem_access {k : JoinKey} {a : Access} :
    a ∈ k.access e ↔ a.kind = .read ∧ a.entity = some e ∧ a.component ∈ k.names := by
  induction k with
  | eq t' =>
    obtain ⟨kind, component, entity⟩ := a
    simp [access, names]
    tauto
  | inMembers inverse => simp [access, names]
  | and l r hl hr =>
    simp only [access, names, List.mem_append, hl, hr]
    tauto

theorem QueryFilter.mem_access {f : QueryFilter} {a : Access} :
    a ∈ f.access e ↔ a.kind = .read ∧ a.entity = some e ∧ a.component ∈ f.names := by
  induction f with
  | unit => simp [access, names]
  | withComponent t' | withoutComponent t' =>
    obtain ⟨kind, component, entity⟩ := a
    simp [access, names]
    tauto
  | whereKey k => exact JoinKey.mem_access
  | and l r hl hr =>
    simp only [access, names, List.mem_append, hl, hr]
    tauto

theorem QueryParam.write_mem_accessAll {q : QueryParam} :
    ⟨.write, t, x⟩ ∈ q.accessAll ↔ x = none ∧ t ∈ q.mutates := by
  have hpart : ∀ part : QueryPart,
      ⟨.write, t, x⟩ = part.accessAll ↔ x = none ∧ t ∈ part.mutates := by
    intro part
    cases part with
    | mutRef t' => simp [QueryPart.accessAll, QueryPart.mutates, and_comm]
    | _ => simp [QueryPart.accessAll, QueryPart.mutates]
  cases q with
  | mutRef t' => simp [accessAll, mutates, and_comm]
  | entityParts h parts =>
    simp only [accessAll, mutates, List.mem_map, List.mem_flatMap]
    constructor
    · rintro ⟨part, hmem, heq⟩
      obtain ⟨rfl, ht⟩ := (hpart part).mp heq.symm
      exact ⟨rfl, part, hmem, ht⟩
    · rintro ⟨rfl, part, hmem, ht⟩
      exact ⟨part, hmem, ((hpart part).mpr ⟨rfl, ht⟩).symm⟩
  | _ => simp [accessAll, mutates]

theorem QueryFilter.mem_accessAll {f : QueryFilter} {a : Access} (ha : a ∈ f.accessAll) :
    a.kind = .read ∧ a.entity = none := by
  have hkey : ∀ k : JoinKey, a ∈ k.accessAll → a.kind = .read ∧ a.entity = none := by
    intro k
    induction k with
    | eq t' => simp [JoinKey.accessAll]; rintro rfl; exact ⟨rfl, rfl⟩
    | inMembers inverse => simp [JoinKey.accessAll]
    | and l r hl hr => exact fun h => (List.mem_append.mp h).elim hl hr
  induction f with
  | unit => cases ha
  | withComponent t' | withoutComponent t' => rw [List.mem_singleton.mp ha]; exact ⟨rfl, rfl⟩
  | whereKey k => exact hkey k ha
  | and l r hl hr => exact (List.mem_append.mp ha).elim hl hr

theorem QueryParam.entity_of_mem_accessAll {q : QueryParam} {a : Access} (ha : a ∈ q.accessAll) :
    a.entity = none := by
  cases q with
  | entity h => cases ha
  | read t' | mutRef t' => rw [List.mem_singleton.mp ha]
  | entityParts h parts =>
    obtain ⟨part, -, rfl⟩ := List.mem_map.mp ha
    cases part <;> rfl

end Accesses

namespace SystemParam

variable {w : World α} {p r : SystemParam} {s s' : ParamState} {t : TypeId} {x y : Option Entity}

/-- Where a parameter writes: on its row, or in the whole stores it names. -/
theorem write_mem_access : ⟨.write, t, x⟩ ∈ p.access w s ↔
    match p.footing s with
    | .row e => x = some e ∧ t ∈ p.mutates
    | .stores => x = none ∧ t ∈ p.mutates
    | .nothing => False := by
  have hrow : ∀ (q : QueryParam) (f : QueryFilter) (e : Entity),
      ⟨.write, t, x⟩ ∈ q.access w e ++ f.access e ↔ x = some e ∧ t ∈ q.mutates := by
    intro q f e
    rw [List.mem_append, QueryParam.write_mem_access, QueryFilter.mem_access]
    simp
  have hall : ∀ (q : QueryParam) (f : QueryFilter),
      ⟨.write, t, x⟩ ∈ q.accessAll ++ f.accessAll ↔ x = none ∧ t ∈ q.mutates := by
    intro q f
    rw [List.mem_append, QueryParam.write_mem_accessAll]
    refine or_iff_left fun hf => ?_
    cases (QueryFilter.mem_accessAll hf).1
  cases p with
  | query q f =>
    cases s with
    | row e => exact hrow q f e
    | _ => exact List.mem_nil_iff _
  | outer q f =>
    cases s with
    | row e => exact hrow q f e
    | absent => exact hall q f
    | unit => exact List.mem_nil_iff _
  | view q f | trackedView q f => cases s <;> exact hall q f
  | commands | worldMeta => cases s <;> exact List.mem_nil_iff _

/-- What a parameter names: on its row and on the members it projects, or in whole stores. -/
theorem mem_access : (∃ k, ⟨k, t, x⟩ ∈ p.access w s) ↔
    match p.footing s with
    | .row e => NamesRow w p.names p.projections e t x
    | .stores => x = none ∧ t ∈ p.namesAll
    | .nothing => False := by
  have hrow : ∀ (q : QueryParam) (f : QueryFilter) (e : Entity),
      (∃ k, ⟨k, t, x⟩ ∈ q.access w e ++ f.access e) ↔
        NamesRow w (q.names ++ f.names) q.projections e t x := by
    intro q f e
    constructor
    · rintro ⟨k, hmem⟩
      rcases List.mem_append.mp hmem with hmem | hmem
      · obtain ⟨m, rfl, hnames⟩ := QueryParam.mem_access.mp ⟨k, hmem⟩
        exact ⟨m, rfl, hnames.imp_left fun hrow => ⟨hrow.1, List.mem_append_left _ hrow.2⟩⟩
      · obtain ⟨-, hx, ht⟩ := QueryFilter.mem_access.mp hmem
        exact ⟨e, hx, Or.inl ⟨rfl, List.mem_append_right _ ht⟩⟩
    · rintro ⟨m, rfl, ⟨rfl, ht⟩ | hprojected⟩
      · rcases List.mem_append.mp ht with ht | ht
        · obtain ⟨k, hmem⟩ := QueryParam.mem_access.mpr ⟨e, rfl, Or.inl ⟨rfl, ht⟩⟩
          exact ⟨k, List.mem_append_left _ hmem⟩
        · exact ⟨.read, List.mem_append_right _ (QueryFilter.mem_access.mpr ⟨rfl, rfl, ht⟩)⟩
      · obtain ⟨k, hmem⟩ := QueryParam.mem_access.mpr ⟨m, rfl, Or.inr hprojected⟩
        exact ⟨k, List.mem_append_left _ hmem⟩
  have hall : ∀ (q : QueryParam) (f : QueryFilter),
      (∃ k, ⟨k, t, x⟩ ∈ q.accessAll ++ f.accessAll) ↔
        x = none ∧ t ∈ (q.accessAll ++ f.accessAll).map Access.component := by
    intro q f
    constructor
    · rintro ⟨k, hmem⟩
      refine ⟨?_, List.mem_map.mpr ⟨_, hmem, rfl⟩⟩
      rcases List.mem_append.mp hmem with hmem | hmem
      · exact QueryParam.entity_of_mem_accessAll hmem
      · exact (QueryFilter.mem_accessAll hmem).2
    · rintro ⟨rfl, ht⟩
      obtain ⟨⟨k, component, entity⟩, hmem, rfl⟩ := List.mem_map.mp ht
      have hentity : entity = none := by
        rcases List.mem_append.mp hmem with hmem | hmem
        · exact QueryParam.entity_of_mem_accessAll hmem
        · exact (QueryFilter.mem_accessAll hmem).2
      exact ⟨k, hentity ▸ hmem⟩
  have hnone : ¬ ∃ k, (⟨k, t, x⟩ : Access) ∈ [] := by simp
  cases p with
  | query q f =>
    cases s with
    | row e => exact hrow q f e
    | _ => exact iff_of_false hnone not_false
  | outer q f =>
    cases s with
    | row e => exact hrow q f e
    | absent => exact hall q f
    | unit => exact iff_of_false hnone not_false
  | view q f | trackedView q f => cases s <;> exact hall q f
  | commands | worldMeta => cases s <;> exact iff_of_false hnone not_false

/-- The first parameter takes a component by `MutRef` where the second one names it. -/
theorem meets_iff : Meets w (p, s) (r, s') ↔ ∃ t x y, (∀ e ∈ x, ∀ e' ∈ y, e = e') ∧
    ⟨.write, t, x⟩ ∈ p.access w s ∧ ∃ k, ⟨k, t, y⟩ ∈ r.access w s' := by
  simp only [write_mem_access, mem_access]
  unfold Meets NamesRow
  dsimp only
  cases p.footing s with
  | nothing => simp
  | row e =>
    cases r.footing s' with
    | nothing => simp
    | row e' =>
      constructor
      · rintro ⟨t, ht, ⟨rfl, hnames⟩ | ⟨projection, hprojection, hm, hnames⟩⟩
        · exact ⟨t, some e, some e, by simp, ⟨rfl, ht⟩, e, rfl, Or.inl ⟨rfl, hnames⟩⟩
        · exact ⟨t, some e, some e, by simp, ⟨rfl, ht⟩, e, rfl,
            Or.inr ⟨projection, hprojection, hm, hnames⟩⟩
      · rintro ⟨t, x, y, hoverlap, ⟨rfl, ht⟩, m, rfl, hnames⟩
        obtain rfl : e = m := hoverlap e rfl m rfl
        refine ⟨t, ht, hnames.imp_left fun ⟨heq, hnames⟩ => ⟨heq.symm, hnames⟩⟩
    | stores =>
      constructor
      · rintro ⟨t, ht, hnames⟩
        exact ⟨t, some e, none, nofun, ⟨rfl, ht⟩, rfl, hnames⟩
      · rintro ⟨t, x, y, -, ⟨rfl, ht⟩, rfl, hnames⟩
        exact ⟨t, ht, hnames⟩
  | stores =>
    cases r.footing s' with
    | nothing => simp
    | row e =>
      constructor
      · rintro ⟨t, ht, hnames | ⟨projection, hprojection, hmembers, hnames⟩⟩
        · exact ⟨t, none, some e, nofun, ⟨rfl, ht⟩, e, rfl, Or.inl ⟨rfl, hnames⟩⟩
        · obtain ⟨m, hm⟩ := List.exists_mem_of_ne_nil _ hmembers
          exact ⟨t, none, some m, nofun, ⟨rfl, ht⟩, m, rfl,
            Or.inr ⟨projection, hprojection, hm, hnames⟩⟩
      · rintro ⟨t, x, y, -, ⟨rfl, ht⟩, m, rfl, ⟨rfl, hnames⟩ | ⟨projection, hprojection, hm, hnames⟩⟩
        · exact ⟨t, ht, Or.inl hnames⟩
        · exact ⟨t, ht, Or.inr ⟨projection, hprojection, List.ne_nil_of_mem hm, hnames⟩⟩
    | stores =>
      constructor
      · rintro ⟨t, ht, hnames⟩
        exact ⟨t, none, none, nofun, ⟨rfl, ht⟩, rfl, hnames⟩
      · rintro ⟨t, x, y, -, ⟨rfl, ht⟩, rfl, hnames⟩
        exact ⟨t, ht, hnames⟩

end SystemParam

theorem Access.conflicts_iff {a b : Access} : a.conflicts b = true ↔ a.component = b.component ∧
    (a.kind = .write ∨ b.kind = .write) ∧ ∀ e ∈ a.entity, ∀ e' ∈ b.entity, e = e' := by
  obtain ⟨kind, component, entity⟩ := a
  obtain ⟨kind', component', entity'⟩ := b
  cases entity <;> cases entity' <;> simp [conflicts, and_assoc]

/-- Two parameters declare compatible accesses exactly where neither takes by `MutRef` what the
other one names. -/
theorem compatible_iff {w : World α} {p r : SystemParam × ParamState} :
    Compatible w p r ↔ ¬ Meets w p r ∧ ¬ Meets w r p := by
  obtain ⟨p, s⟩ := p
  obtain ⟨r, s'⟩ := r
  rw [SystemParam.meets_iff, SystemParam.meets_iff]
  constructor
  · intro h
    constructor
    · rintro ⟨t, x, y, hoverlap, hp, k, hr⟩
      have hconflict : Access.conflicts ⟨.write, t, x⟩ ⟨k, t, y⟩ = true :=
        Access.conflicts_iff.mpr ⟨rfl, Or.inl rfl, hoverlap⟩
      rw [h _ hp _ hr] at hconflict
      cases hconflict
    · rintro ⟨t, x, y, hoverlap, hr, k, hp⟩
      have hconflict : Access.conflicts ⟨k, t, y⟩ ⟨.write, t, x⟩ = true :=
        Access.conflicts_iff.mpr ⟨rfl, Or.inr rfl, fun e he e' he' => (hoverlap e' he' e he).symm⟩
      rw [h _ hp _ hr] at hconflict
      cases hconflict
  · rintro ⟨hmeets, hmeets'⟩ ⟨kind, t, x⟩ ha ⟨kind', t', y⟩ hb
    by_contra hconflict
    have hconflict := Bool.eq_true_of_not_eq_false hconflict
    obtain ⟨heq, hwrite | hwrite, hoverlap⟩ := Access.conflicts_iff.mp hconflict
    · cases heq
      cases hwrite
      exact hmeets ⟨t, x, y, hoverlap, ha, kind', hb⟩
    · cases heq
      cases hwrite
      exact hmeets' ⟨t, y, x, fun e he e' he' => (hoverlap e' he' e he).symm, hb, kind, ha⟩

section Guards

variable (w : World α)

/-- The cells that the part locks as it is fetched, until the invocation ends. -/
def QueryPart.guards (part : QueryPart) (e : Entity) : List Access :=
  match part with
  | .read t => [⟨.read, t, some e⟩]
  | .optional t => if w.has t e = true then [⟨.read, t, some e⟩] else []
  | .tracked _ _ => []
  | .mutRef t => [⟨.write, t, some e⟩]
  | .related inverse parts =>
    (if w.has inverse e = true then [⟨.read, inverse, some e⟩] else []) ++
      ((w.membersOn inverse e).filter fun m => parts.all (·.matchesRow w m)).flatMap fun m =>
        (parts.filter fun p => w.has p.component m).map fun p => ⟨.read, p.component, some m⟩

def QueryParam.guards (q : QueryParam) (e : Entity) : List Access :=
  match q with
  | .entity _ => []
  | .read t => [⟨.read, t, some e⟩]
  | .mutRef t => [⟨.write, t, some e⟩]
  | .entityParts _ parts => parts.flatMap (·.guards w e)

/-- The cells that a parameter locks: a view those of its rows, each time it is iterated. -/
def SystemParam.guards (passes : Nat) (p : SystemParam) (s : ParamState) : List Access :=
  match p, s with
  | .query q _, .row e => q.guards w e
  | .outer q _, .row e => q.guards w e
  | .view q f, _ => (List.replicate passes ((filteredRows w q f).flatMap (q.guards w))).flatten
  | .trackedView q f, _ =>
    (List.replicate passes ((filteredRows w q f).flatMap (q.guards w))).flatten
  | _, _ => []

/-- The components that the part locks on the row itself. -/
def QueryPart.holds (part : QueryPart) (e : Entity) : List TypeId :=
  match part with
  | .read t => [t]
  | .optional t => if w.has t e = true then [t] else []
  | .tracked _ _ => []
  | .mutRef t => [t]
  | .related inverse parts =>
    (if w.has inverse e = true then [inverse] else []) ++
      -- the row may be a member of its own
      if e ∈ w.membersOn inverse e ∧ parts.all (·.matchesRow w e) = true then
        (parts.filter fun p => w.has p.component e).map MemberPart.component
      else []

/-- No part takes by `MutRef` what another part of the query locks on the same row. -/
def QueryParam.Apart (q : QueryParam) (e : Entity) : Prop :=
  match q with
  | .entityParts _ parts => parts.Pairwise fun a b =>
    (∀ t ∈ a.mutates, t ∉ b.holds w e) ∧ ∀ t ∈ b.mutates, t ∉ a.holds w e
  | _ => True

/-- The locks of the parameter leave each other alone; a view that is iterated again takes no
component by `MutRef`, or has no row. -/
def SystemParam.Apart (passes : Nat) (p : SystemParam) (s : ParamState) : Prop :=
  match p, s with
  | .query q _, .row e => q.Apart w e
  | .outer q _, .row e => q.Apart w e
  | .view q f, _ => (0 < passes → ∀ e ∈ filteredRows w q f, q.Apart w e) ∧
    (1 < passes → q.mutates = [] ∨ filteredRows w q f = [])
  | .trackedView q f, _ => (0 < passes → ∀ e ∈ filteredRows w q f, q.Apart w e) ∧
    (1 < passes → q.mutates = [] ∨ filteredRows w q f = [])
  | _, _ => True

end Guards

structure Covers (a g : Access) : Prop where
  kind : a.kind = g.kind
  component : a.component = g.component
  entity : ∃ e, g.entity = some e ∧ ∀ e' ∈ a.entity, e' = e

theorem Covers.conflicts {a a' g g' : Access} (h : Covers a g) (h' : Covers a' g')
    (hapart : a.conflicts a' = false) : g.conflicts g' = false := by
  by_contra hconflict
  obtain ⟨hcomponent, hkind, hentity⟩ :=
    Access.conflicts_iff.mp (Bool.eq_true_of_not_eq_false hconflict)
  obtain ⟨e, hg, he⟩ := h.entity
  obtain ⟨e', hg', he'⟩ := h'.entity
  have hdeclared : a.conflicts a' = true := by
    refine Access.conflicts_iff.mpr ⟨?_, ?_, fun x hx y hy => ?_⟩
    · rw [h.component, h'.component, hcomponent]
    · rw [h.kind, h'.kind]
      exact hkind
    · rw [he x hx, he' y hy]
      exact hentity e hg e' hg'
  rw [hapart] at hdeclared
  cases hdeclared

section Locks

variable {w : World α} {e : Entity} {g : Access}

theorem covers_self {k : AccessKind} {t : TypeId} : Covers ⟨k, t, some e⟩ ⟨k, t, some e⟩ :=
  ⟨rfl, rfl, e, rfl, fun _ he => (Option.some.inj he).symm⟩

theorem covers_store {k : AccessKind} {t : TypeId} : Covers ⟨k, t, none⟩ ⟨k, t, some e⟩ :=
  ⟨rfl, rfl, e, rfl, nofun⟩

theorem QueryPart.covered {part : QueryPart} (hg : g ∈ part.guards w e) :
    ∃ a ∈ part.access w e, Covers a g := by
  cases part with
  | read t | mutRef t =>
    rw [List.mem_singleton.mp hg]
    exact ⟨_, List.mem_singleton_self _, covers_self⟩
  | optional t =>
    unfold guards at hg
    dsimp only at hg
    split_ifs at hg
    · rw [List.mem_singleton.mp hg]
      exact ⟨_, List.mem_singleton_self _, covers_self⟩
    · cases hg
  | tracked marker h => cases hg
  | related inverse parts =>
    rcases List.mem_append.mp hg with hg | hg
    · split_ifs at hg
      · rw [List.mem_singleton.mp hg]
        exact ⟨_, List.mem_cons_self, covers_self⟩
      · cases hg
    · obtain ⟨m, hm, hg⟩ := List.mem_flatMap.mp hg
      obtain ⟨part, hpart, rfl⟩ := List.mem_map.mp hg
      refine ⟨_, List.mem_cons_of_mem _ (List.mem_flatMap.mpr ⟨m, ?_, ?_⟩), covers_self⟩
      · exact (List.mem_filter.mp hm).1
      · exact List.mem_map_of_mem (List.mem_filter.mp hpart).1

theorem QueryPart.covered_all {part : QueryPart} (hwhole : part.supportsWholeStoreView = true)
    (hg : g ∈ part.guards w e) : Covers part.accessAll g := by
  cases part with
  | read t | mutRef t =>
    rw [List.mem_singleton.mp hg]
    exact covers_store
  | optional t =>
    unfold guards at hg
    dsimp only at hg
    split_ifs at hg
    · rw [List.mem_singleton.mp hg]
      exact covers_store
    · cases hg
  | tracked marker h => cases hg
  | related inverse parts => cases hwhole

theorem QueryParam.covered {q : QueryParam} (hg : g ∈ q.guards w e) :
    ∃ a ∈ q.access w e, Covers a g := by
  cases q with
  | entity h => cases hg
  | read t | mutRef t =>
    rw [List.mem_singleton.mp hg]
    exact ⟨_, List.mem_singleton_self _, covers_self⟩
  | entityParts h parts =>
    obtain ⟨part, hpart, hg⟩ := List.mem_flatMap.mp hg
    obtain ⟨a, ha, hcovers⟩ := QueryPart.covered hg
    exact ⟨a, List.mem_flatMap.mpr ⟨part, hpart, ha⟩, hcovers⟩

theorem QueryParam.covered_all {q : QueryParam} (hwhole : q.supportsWholeStoreView = true)
    (hg : g ∈ q.guards w e) : ∃ a ∈ q.accessAll, Covers a g := by
  cases q with
  | entity h => cases hg
  | read t | mutRef t =>
    rw [List.mem_singleton.mp hg]
    exact ⟨_, List.mem_singleton_self _, covers_store⟩
  | entityParts h parts =>
    obtain ⟨part, hpart, hg⟩ := List.mem_flatMap.mp hg
    have hpartWhole := List.all_eq_true.mp hwhole part hpart
    exact ⟨_, List.mem_map_of_mem hpart, QueryPart.covered_all hpartWhole hg⟩

/-- Every cell that an accepted parameter locks is one it has declared. -/
theorem SystemParam.covered {passes : Nat} {p : SystemParam} {s : ParamState}
    (hvalid : p.validateLocal = .ok ()) (hg : g ∈ p.guards w passes s) : ∃ a ∈ p.access w s, Covers a g := by
  have hrow : ∀ {q : QueryParam} {f : QueryFilter} {e : Entity}, g ∈ q.guards w e →
      ∃ a ∈ q.access w e ++ f.access e, Covers a g := by
    intro q f e hg
    obtain ⟨a, ha, hcovers⟩ := QueryParam.covered hg
    exact ⟨a, List.mem_append_left _ ha, hcovers⟩
  have hall : ∀ {q : QueryParam} {f : QueryFilter}, q.supportsWholeStoreView = true →
      g ∈ (List.replicate passes ((filteredRows w q f).flatMap (q.guards w))).flatten →
        ∃ a ∈ q.accessAll ++ f.accessAll, Covers a g := by
    intro q f hwhole hg
    obtain ⟨pass, hpass, hg⟩ := List.mem_flatten.mp hg
    rw [(List.mem_replicate.mp hpass).2] at hg
    obtain ⟨e, -, hg⟩ := List.mem_flatMap.mp hg
    obtain ⟨a, ha, hcovers⟩ := QueryParam.covered_all hwhole hg
    exact ⟨a, List.mem_append_left _ ha, hcovers⟩
  cases p with
  | query q f | outer q f =>
    cases s with
    | row e => exact hrow hg
    | _ => cases hg
  | view q f =>
    have hwhole := (accepted_of_valid (q := q) (f := f) (Or.inl hvalid)).1
    cases s <;> exact hall hwhole hg
  | trackedView q f =>
    have hwhole := (accepted_of_valid (q := q) (f := f) (Or.inr hvalid)).1
    cases s <;> exact hall hwhole hg
  | commands | worldMeta => cases s <;> cases hg

/-- What the part writes, and what it locks on the row itself. -/
theorem QueryPart.mem_guards {part : QueryPart} {t : TypeId} :
    (∀ x, ⟨.write, t, x⟩ ∈ part.guards w e ↔ x = some e ∧ t ∈ part.mutates) ∧
      ((∃ k, ⟨k, t, some e⟩ ∈ part.guards w e) ↔ t ∈ part.holds w e) := by
  cases part with
  | read t' => simp [guards, mutates, holds]
  | mutRef t' => simp [guards, mutates, holds, and_comm]
  | tracked marker h => simp [guards, mutates, holds]
  | optional t' =>
    by_cases hhas : w.has t' e = true
    · simp [guards, mutates, holds, hhas]
    · simp [guards, mutates, holds, hhas]
  | related inverse parts =>
    constructor
    · intro x
      simp only [guards, mutates, List.not_mem_nil, and_false, iff_false, List.mem_append,
        List.mem_flatMap, List.mem_map, not_or]
      constructor
      · split_ifs <;> simp
      · rintro ⟨m, -, part, -, heq⟩
        cases heq
    · simp only [guards, holds, List.mem_append, List.mem_flatMap, List.mem_map]
      rw [exists_or]
      refine or_congr ?_ ?_
      · split_ifs <;> simp
      · constructor
        · rintro ⟨k, m, hm, part, hpart, heq⟩
          cases heq
          obtain ⟨hmember, hmatches⟩ := List.mem_filter.mp hm
          rw [if_pos ⟨hmember, hmatches⟩]
          exact List.mem_map_of_mem hpart
        · intro ht
          split_ifs at ht with hown
          · obtain ⟨part, hpart, rfl⟩ := List.mem_map.mp ht
            exact ⟨.read, e, List.mem_filter.mpr hown, part, hpart, rfl⟩
          · cases ht

theorem QueryPart.pairwise_guards (part : QueryPart) :
    (part.guards w e).Pairwise fun g g' => g.conflicts g' = false := by
  cases part with
  | read t | mutRef t => exact List.pairwise_singleton _ _
  | tracked marker h => exact .nil
  | optional t =>
    unfold guards
    dsimp only
    split_ifs
    · exact List.pairwise_singleton _ _
    · exact .nil
  | related inverse parts =>
    refine List.pairwise_of_forall_mem_list fun g hg g' hg' => ?_
    have hread : ∀ {g}, g ∈ (QueryPart.related inverse parts).guards w e → g.kind = .read := by
      rintro ⟨kind, t, x⟩ hg
      cases kind with
      | read => rfl
      | write => cases (QueryPart.mem_guards.1 x).mp hg |>.2
    by_contra hconflict
    obtain ⟨-, hwrite, -⟩ := Access.conflicts_iff.mp (Bool.eq_true_of_not_eq_false hconflict)
    rw [hread hg, hread hg'] at hwrite
    rcases hwrite with hwrite | hwrite <;> cases hwrite

/-- Two parts get in each other's way where one takes by `MutRef` what the other one locks. -/
theorem QueryPart.guards_apart {a b : QueryPart} :
    (∀ g ∈ a.guards w e, ∀ g' ∈ b.guards w e, g.conflicts g' = false) ↔
      (∀ t ∈ a.mutates, t ∉ b.holds w e) ∧ ∀ t ∈ b.mutates, t ∉ a.holds w e := by
  constructor
  · intro h
    refine ⟨fun t ht hheld => ?_, fun t ht hheld => ?_⟩
    · obtain ⟨k, hk⟩ := QueryPart.mem_guards.2.mpr hheld
      have hconflict : Access.conflicts ⟨.write, t, some e⟩ ⟨k, t, some e⟩ = true :=
        Access.conflicts_iff.mpr ⟨rfl, Or.inl rfl, by simp⟩
      rw [h _ ((QueryPart.mem_guards.1 _).mpr ⟨rfl, ht⟩) _ hk] at hconflict
      cases hconflict
    · obtain ⟨k, hk⟩ := QueryPart.mem_guards.2.mpr hheld
      have hconflict : Access.conflicts ⟨k, t, some e⟩ ⟨.write, t, some e⟩ = true :=
        Access.conflicts_iff.mpr ⟨rfl, Or.inr rfl, by simp⟩
      rw [h _ hk _ ((QueryPart.mem_guards.1 _).mpr ⟨rfl, ht⟩)] at hconflict
      cases hconflict
  · rintro ⟨ha, hb⟩ ⟨k, t, x⟩ hg ⟨k', t', x'⟩ hg'
    have hentity : ∀ {part : QueryPart} {g}, g ∈ part.guards w e → ∃ m, g.entity = some m := by
      intro part g hg
      obtain ⟨_, -, hcovers⟩ := QueryPart.covered hg
      exact ⟨_, hcovers.entity.choose_spec.1⟩
    obtain ⟨m, hm⟩ := hentity hg
    obtain ⟨m', hm'⟩ := hentity hg'
    cases hm
    cases hm'
    by_contra hconflict
    obtain ⟨heq, hwrite, hsame⟩ := Access.conflicts_iff.mp (Bool.eq_true_of_not_eq_false hconflict)
    cases heq
    cases hsame m rfl m' rfl
    rcases hwrite with hwrite | hwrite
    · cases hwrite
      obtain ⟨hrow, ht⟩ := (QueryPart.mem_guards.1 _).mp hg
      cases hrow
      exact ha t ht (QueryPart.mem_guards.2.mp ⟨k', hg'⟩)
    · cases hwrite
      obtain ⟨hrow, ht⟩ := (QueryPart.mem_guards.1 _).mp hg'
      cases hrow
      exact hb t ht (QueryPart.mem_guards.2.mp ⟨k, hg⟩)

theorem QueryParam.apart_iff {q : QueryParam} :
    (q.guards w e).Pairwise (fun g g' => g.conflicts g' = false) ↔ q.Apart w e := by
  cases q with
  | entity h => exact iff_of_true .nil trivial
  | read t | mutRef t => exact iff_of_true (List.pairwise_singleton _ _) trivial
  | entityParts h parts =>
    unfold guards Apart
    rw [List.pairwise_flatMap, and_iff_right fun part _ => part.pairwise_guards]
    exact List.Pairwise.iff fun _ _ => QueryPart.guards_apart

/-- The rows of a view lock cells of their own entity only. -/
theorem QueryParam.entity_of_mem_guards {q : QueryParam} (hwhole : q.supportsWholeStoreView = true)
    (hg : g ∈ q.guards w e) : g.entity = some e := by
  cases q with
  | entity h => cases hg
  | read t | mutRef t => rw [List.mem_singleton.mp hg]
  | entityParts h parts =>
    obtain ⟨part, hpart, hg⟩ := List.mem_flatMap.mp hg
    have hpartWhole := List.all_eq_true.mp hwhole part hpart
    cases part with
    | read t | mutRef t => rw [List.mem_singleton.mp hg]
    | optional t =>
      unfold QueryPart.guards at hg
      dsimp only at hg
      split_ifs at hg
      · rw [List.mem_singleton.mp hg]
      · cases hg
    | tracked marker h => cases hg
    | related inverse parts => cases hpartWhole

theorem QueryParam.write_mem_guards {q : QueryParam} {t : TypeId} {x : Option Entity} :
    ⟨.write, t, x⟩ ∈ q.guards w e ↔ x = some e ∧ t ∈ q.mutates := by
  cases q with
  | entity h => simp [guards, mutates]
  | read t' => simp [guards, mutates]
  | mutRef t' => simp [guards, mutates, and_comm]
  | entityParts h parts =>
    simp only [guards, mutates, List.mem_flatMap, (QueryPart.mem_guards (w := w) (e := e)).1]
    constructor
    · rintro ⟨part, hpart, rfl, ht⟩
      exact ⟨rfl, part, hpart, ht⟩
    · rintro ⟨rfl, part, hpart, ht⟩
      exact ⟨part, hpart, rfl, ht⟩

/-- A view can be iterated once where its rows can be fetched, and again if it only reads. -/
theorem pairwise_view {schema : Option (List TypeId)} (hp : w.Present schema) {q : QueryParam}
    (f : QueryFilter) (hwhole : q.supportsWholeStoreView = true) (passes : Nat) :
    (List.replicate passes ((filteredRows w q f).flatMap (q.guards w))).flatten.Pairwise
        (fun g g' => g.conflicts g' = false) ↔
      (0 < passes → ∀ e ∈ filteredRows w q f, q.Apart w e) ∧
        (1 < passes → q.mutates = [] ∨ filteredRows w q f = []) := by
  have honce : ((filteredRows w q f).flatMap (q.guards w)).Pairwise
      (fun g g' => g.conflicts g' = false) ↔ ∀ e ∈ filteredRows w q f, q.Apart w e := by
    rw [List.pairwise_flatMap]
    refine (and_iff_left ?_).trans (forall₂_congr fun e _ => QueryParam.apart_iff)
    refine (ascending_filteredRows hp q f).imp fun {e e'} hlt g hg g' hg' => ?_
    by_contra hconflict
    obtain ⟨-, -, hsame⟩ := Access.conflicts_iff.mp (Bool.eq_true_of_not_eq_false hconflict)
    exact hlt.ne (hsame e (QueryParam.entity_of_mem_guards hwhole hg) e'
      (QueryParam.entity_of_mem_guards hwhole hg'))
  have hagain : (∀ g ∈ (filteredRows w q f).flatMap (q.guards w),
      ∀ g' ∈ (filteredRows w q f).flatMap (q.guards w), g.conflicts g' = false) ↔
        q.mutates = [] ∨ filteredRows w q f = [] := by
    constructor
    · intro h
      by_contra hnot
      obtain ⟨hmutates, hrows⟩ := not_or.mp hnot
      obtain ⟨t, ht⟩ := List.exists_mem_of_ne_nil _ hmutates
      obtain ⟨e, he⟩ := List.exists_mem_of_ne_nil _ hrows
      have hwrite : ⟨.write, t, some e⟩ ∈ (filteredRows w q f).flatMap (q.guards w) :=
        List.mem_flatMap.mpr ⟨e, he, QueryParam.write_mem_guards.mpr ⟨rfl, ht⟩⟩
      have hconflict : Access.conflicts ⟨.write, t, some e⟩ ⟨.write, t, some e⟩ = true :=
        Access.conflicts_iff.mpr ⟨rfl, Or.inl rfl, by simp⟩
      rw [h _ hwrite _ hwrite] at hconflict
      cases hconflict
    · rintro hnone g hg g' hg'
      by_contra hconflict
      obtain ⟨-, hwrite, -⟩ := Access.conflicts_iff.mp (Bool.eq_true_of_not_eq_false hconflict)
      have hreads : ∀ {g}, g ∈ (filteredRows w q f).flatMap (q.guards w) → g.kind ≠ .write := by
        rintro ⟨kind, t, x⟩ hg hkind
        cases hkind
        obtain ⟨e, he, hg⟩ := List.mem_flatMap.mp hg
        obtain ⟨-, ht⟩ := QueryParam.write_mem_guards.mp hg
        rcases hnone with hnone | hnone
        · rw [hnone] at ht
          cases ht
        · rw [hnone] at he
          cases he
      exact hwrite.elim (hreads hg) (hreads hg')
  rw [List.pairwise_flatten, List.pairwise_replicate]
  constructor
  · rintro ⟨heach, hcross⟩
    refine ⟨fun hpass => honce.mp (heach _ (List.mem_replicate.mpr ⟨hpass.ne', rfl⟩)),
      fun hpasses => hagain.mp (hcross.resolve_left (by omega))⟩
  · rintro ⟨hpass, hpasses⟩
    refine ⟨fun l hl => ?_, or_iff_not_imp_left.mpr fun hmany => hagain.mpr (hpasses (by omega))⟩
    obtain ⟨hpositive, rfl⟩ := List.mem_replicate.mp hl
    exact honce.mpr (hpass (Nat.pos_of_ne_zero hpositive))

theorem SystemParam.apart_iff {schema : Option (List TypeId)} (hp : w.Present schema)
    {p : SystemParam} (hvalid : p.validateLocal = .ok ()) (passes : Nat) (s : ParamState) :
    (p.guards w passes s).Pairwise (fun g g' => g.conflicts g' = false) ↔ p.Apart w passes s := by
  cases p with
  | query q f | outer q f =>
    cases s with
    | row e => exact QueryParam.apart_iff
    | _ => exact iff_of_true .nil trivial
  | view q f =>
    have hwhole := (accepted_of_valid (q := q) (f := f) (Or.inl hvalid)).1
    cases s <;> exact pairwise_view hp f hwhole passes
  | trackedView q f =>
    have hwhole := (accepted_of_valid (q := q) (f := f) (Or.inr hvalid)).1
    cases s <;> exact pairwise_view hp f hwhole passes
  | commands | worldMeta => cases s <;> exact iff_of_true .nil trivial

end Locks

namespace Params

variable {C : Components α} {w : World α} {ps : Params} {state : List ParamState}

/-- The accesses that different parameters of an invocation declare are compatible. -/
def SelfCompatible (w : World α) (ps : Params) (state : List ParamState) : Prop :=
  (ps.zip state).Pairwise (Compatible w)

/-- No parameter takes a component by `MutRef` where another one names it. -/
def Separate (w : World α) (ps : Params) (state : List ParamState) : Prop :=
  (ps.zip state).Pairwise fun p r => ¬ Meets w p r ∧ ¬ Meets w r p

/-- The locks of each parameter by itself leave each other alone. -/
def Apart (w : World α) (passes : Nat) (ps : Params) (state : List ParamState) : Prop :=
  ∀ p ∈ ps.zip state, p.1.Apart w passes p.2

/-- No cell that the invocation locks, iterating each view `passes` times, is one that it holds in a
way that makes it wait. -/
def NeverWaits (w : World α) (passes : Nat) (ps : Params) (state : List ParamState) : Prop :=
  ((ps.zip state).flatMap fun p => p.1.guards w passes p.2).Pairwise fun g g' =>
    g.conflicts g' = false

theorem selfCompatible_iff_separate : SelfCompatible w ps state ↔ Separate w ps state := by
  unfold SelfCompatible Separate
  exact List.Pairwise.iff fun _ _ => compatible_iff

theorem local_of_valid (h : validateBindings ps = .ok ()) :
    ∀ p ∈ ps, p.validateLocal = .ok () := by
  unfold validateBindings at h
  cases hlocal : List.forM ps SystemParam.validateLocal with
  | ok _ => exact List.forM_eq_ok.mp hlocal
  | error error =>
    rw [hlocal] at h
    cases h

theorem SelfCompatible.neverWaits_iff {schema : Option (List TypeId)} (hp : w.Present schema)
    (hvalid : validateBindings ps = .ok ()) (passes : Nat) (h : SelfCompatible w ps state) :
    NeverWaits w passes ps state ↔ Apart w passes ps state := by
  have hlocal : ∀ p ∈ ps.zip state, p.1.validateLocal = .ok () := fun p hp =>
    local_of_valid hvalid p.1 (List.of_mem_zip hp).1
  unfold NeverWaits
  rw [List.pairwise_flatMap]
  refine (and_iff_left (h.imp_of_mem ?_)).trans
    (forall₂_congr fun p hmem => SystemParam.apart_iff hp (hlocal p hmem) passes p.2)
  rintro ⟨p, s⟩ ⟨r, s'⟩ hp hr hcompatible g hg g' hg'
  obtain ⟨a, ha, hcovers⟩ := SystemParam.covered (hlocal _ hp) hg
  obtain ⟨a', ha', hcovers'⟩ := SystemParam.covered (hlocal _ hr) hg'
  exact hcovers.conflicts hcovers' (hcompatible a ha a' ha')

end Params

/-- Parameters of a planned row are compatible and wait for no cell the row holds exactly where
none takes by `MutRef` what another locks. -/
theorem Runnable.selfCompatible_iff {C : Components α} {w : World α} {system : SystemId}
    {memo : MemoTable} {hint : Option (List Entity)} {s : Runnable} {runs : List PlannedSystemRun}
    {run : PlannedSystemRun} {row : PlannedInvocation} (hw : World.Reachable C w)
    (hvalid : s.params.validateBindings = .ok ())
    (hruns : s.streamRuns C system w memo hint = some runs) (hrun : run ∈ runs)
    (hrow : row ∈ run.rows) (passes : Nat) :
    row.access = s.params.access w row.state ∧
      (s.params.SelfCompatible w row.state ∧ s.params.NeverWaits w passes row.state ↔
        s.params.Separate w row.state ∧ s.params.Apart w passes row.state) := by
  have hof := Runnable.ofState_of_mem_streamRuns hruns run hrun row hrow
  obtain ⟨schema, hp⟩ := World.present_of_reachable hw
  refine ⟨hof.access, ?_⟩
  rw [← Params.selfCompatible_iff_separate]
  exact and_congr_right fun hcompatible => hcompatible.neverWaits_iff hp hvalid passes

section Mirrored

/-- A system over pairs of a row that it writes and a row of the same component that it reads. -/
def mirroring : Runnable :=
  .function [.query (.entityParts [] [.mutRef 1]) .unit, .query (.entityParts [] [.read 1]) .unit]

/-- Two entities with the component. -/
def mirrored : World Nat :=
  ((World.machine (Components.plain Nat)).run World.new [.spawnEmpty, .spawnEmpty,
    .base (.insert 1 0 (.data 7)), .base (.insert 1 1 (.data 8))]).getD World.new

/-- The rows of all pairs of entities. -/
def mirroredRuns : List PlannedSystemRun :=
  (mirroring.streamRuns (Components.plain Nat) 0 mirrored ∅ none).getD []

instance (w : World α) (p r : SystemParam × ParamState) : Decidable (Compatible w p r) :=
  inferInstanceAs (Decidable (∀ a ∈ p.1.access w p.2, ∀ b ∈ r.1.access w r.2, _))

instance (w : World α) (ps : Params) (state : List ParamState) :
    Decidable (ps.SelfCompatible w state) := inferInstanceAs (Decidable (List.Pairwise _ _))

instance (w : World α) (passes : Nat) (ps : Params) (state : List ParamState) :
    Decidable (ps.NeverWaits w passes state) := inferInstanceAs (Decidable (List.Pairwise _ _))

theorem mirrored_apart : ∃ run ∈ mirroredRuns, ∃ row ∈ run.rows, row.owner.keys = [0, 1] ∧
    mirroring.params.Separate mirrored row.state ∧
      mirroring.params.Apart mirrored 1 row.state := by
  have hbuilt : (World.machine (Components.plain Nat)).run World.new [.spawnEmpty, .spawnEmpty,
      .base (.insert 1 0 (.data 7)), .base (.insert 1 1 (.data 8))] = some mirrored := rfl
  have hreachable : World.Reachable (Components.plain Nat) mirrored :=
    .run (.init World.machine_init_new) hbuilt
  have hruns : mirroring.streamRuns (Components.plain Nat) 0 mirrored ∅ none = some mirroredRuns :=
    rfl
  have hplanned : ∃ run ∈ mirroredRuns, ∃ row ∈ run.rows, row.owner.keys = [0, 1] ∧
      mirroring.params.SelfCompatible mirrored row.state ∧
        mirroring.params.NeverWaits mirrored 1 row.state := by decide
  obtain ⟨run, hrun, row, hrow, hkeys, hheld⟩ := hplanned
  obtain ⟨-, hiff⟩ := Runnable.selfCompatible_iff hreachable (by decide) hruns hrun hrow 1
  exact ⟨run, hrun, row, hrow, hkeys, hiff.mp hheld⟩

/-- The system is accepted, and its row of entity 0 with itself waits for the cell it holds. -/
theorem mirrored_waits : mirroring.params.validateBindings = .ok () ∧
    ∃ run ∈ mirroredRuns, ∃ row ∈ run.rows, row.owner.keys = [0, 0] ∧
      ¬ mirroring.params.SelfCompatible mirrored row.state ∧
        ¬ mirroring.params.NeverWaits mirrored 1 row.state := by
  decide

/-- One parameter is enough: its second part waits for what its first one holds. -/
example : Params.validateBindings [.query (.entityParts [] [.mutRef 1, .read 1]) .unit] = .ok () ∧
    ¬ Params.NeverWaits mirrored 0 [.query (.entityParts [] [.mutRef 1, .read 1]) .unit] [.row 0] := by
  decide

end Mirrored

end Porridge
