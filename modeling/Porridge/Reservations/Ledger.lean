import Mathlib.Data.Option.Basic
import Porridge.Reservations.Tallies

/-! The reservation table answers as the pairwise rule does over the list of its active records. -/
namespace Porridge

structure Reservation where
  owner : SystemInvocation
  accesses : List Access
deriving DecidableEq

/-- The active records, by id. -/
abbrev Ledger := RunId → Option Reservation

namespace Ledger

def Active (l : Ledger) (o : SystemInvocation) : Prop := ∃ id x, l id = some x ∧ x.owner = o

def Conflicts (l : Ledger) (accesses : List Access) : Prop :=
  ∃ a ∈ accesses, ∃ id x, l id = some x ∧ ∃ b ∈ x.accesses, a.conflicts b = true

def put (l : Ledger) (id : RunId) (x : Option Reservation) : Ledger :=
  fun id' => if id' = id then x else l id'

def empty : Ledger := fun _ => none

/-- The records with a write among their accesses. -/
def writers (l : Ledger) : Ledger :=
  fun id => (l id).filter fun x => x.accesses.any (·.kind == .write)

end Ledger

theorem Access.conflicts_eq_true {a b : Access} :
    a.conflicts b = true ↔ a.component = b.component ∧ (a.kind = .write ∨ b.kind = .write) ∧
      (a.entity = none ∨ b.entity = none ∨ a.entity = b.entity) := by
  obtain ⟨kind, component, entity⟩ := a
  obtain ⟨kind', component', entity'⟩ := b
  cases entity <;> cases entity' <;> simp [Access.conflicts, and_assoc]

theorem Access.conflicts_comm (a b : Access) : a.conflicts b = b.conflicts a := by
  apply Bool.eq_iff_iff.mpr
  rw [Access.conflicts_eq_true, Access.conflicts_eq_true]
  constructor
  · rintro ⟨hcomponent, hkind, hentity⟩
    exact ⟨hcomponent.symm, hkind.symm, by tauto⟩
  · rintro ⟨hcomponent, hkind, hentity⟩
    exact ⟨hcomponent.symm, hkind.symm, by tauto⟩

namespace Reservations.Components

variable {c c' : Reservations.Components} {l l' : List ResolvedAccess}

structure Resolves (c : Reservations.Components) (a : Access) (b : ResolvedAccess) : Prop where
  component : c.slotOf a.component = some b.component
  entity : b.entity = a.entity
  kind : b.kind = a.kind

/-- Every slot met stays where it is. -/
def Extends (c c' : Reservations.Components) : Prop :=
  ∀ t slot, c.slotOf t = some slot → c'.slotOf t = some slot

structure Counted (c : Reservations.Components) (l : List ResolvedAccess) : Prop where
  inj : ∀ t t' slot, c.slotOf t = some slot → c.slotOf t' = some slot → t = t'
  lt : ∀ t slot, c.slotOf t = some slot → slot < c.slots.length
  bounded : ∀ a ∈ l, a.component < c.slots.length
  tallies : ∀ (slot : Nat) x, c.slots[slot]? = some x → x.Tallies (l.filter (·.component == slot))

theorem Resolves.mono {a : Access} {b : ResolvedAccess} (h : c.Resolves a b) (he : c.Extends c') :
    c'.Resolves a b := ⟨he _ _ h.component, h.entity, h.kind⟩

theorem Counted.perm (h : c.Counted l) (hp : l.Perm l') : c.Counted l' where
  inj := h.inj
  lt := h.lt
  bounded a ha := h.bounded a (hp.mem_iff.mpr ha)
  tallies slot x hx := (h.tallies slot x hx).perm (hp.filter _)

/-- Two indexed accesses clash on a slot exactly where the accesses conflict. -/
theorem Counted.conflicts_iff (h : c.Counted l) {a a' : Access} {b b' : ResolvedAccess}
    (hb : c.Resolves a b) (hb' : c.Resolves a' b') :
    a.conflicts a' = true ↔ b.component = b'.component ∧ b.Clashes b' := by
  rw [Access.conflicts_eq_true, ResolvedAccess.Clashes, hb.kind, hb'.kind, hb.entity, hb'.entity]
  refine and_congr_left fun _ => ?_
  constructor
  · intro heq
    have hslot := hb.component
    rw [heq, hb'.component] at hslot
    exact (Option.some.inj hslot).symm
  · intro heq
    exact h.inj _ _ _ hb.component (heq ▸ hb'.component)

theorem slotOf_extra (c : Reservations.Components) {t : TypeId} (h : c.slotOf t = none)
    (slot : Nat) (slots : List ComponentAccess) (t' : TypeId) :
    ({ c with extra := c.extra.insert t slot, slots } : Reservations.Components).slotOf t' =
      if t' = t then some slot else c.slotOf t' := by
  unfold slotOf at h ⊢
  dsimp only
  rw [Dict.lookup_insert]
  by_cases heq : t' = t
  · subst heq
    rw [Option.or_eq_none_iff] at h
    rw [if_pos rfl, if_pos rfl, h.1]
    rfl
  · rw [if_neg heq, if_neg heq]

/-- Indexing an access keeps the counters and every slot met before. -/
theorem Counted.resolve (h : c.Counted l) (a : Access) :
    (c.resolve a).2.Counted l ∧ c.Extends (c.resolve a).2 ∧
      (c.resolve a).2.Resolves a (c.resolve a).1 := by
  unfold Components.resolve
  cases hslot : c.slotOf a.component with
  | some slot => exact ⟨h, fun _ _ h => h, ⟨hslot, rfl, rfl⟩⟩
  | none =>
    have hof := slotOf_extra c hslot c.slots.length (c.slots ++ [.new])
    refine ⟨⟨?_, ?_, ?_, ?_⟩, ?_, ⟨?_, rfl, rfl⟩⟩
    · intro t t' slot ht ht'
      rw [hof] at ht ht'
      split_ifs at ht ht' with heq heq' heq'
      · rw [heq, heq']
      · cases ht
        exact absurd (h.lt _ _ ht') (Nat.lt_irrefl _)
      · cases ht'
        exact absurd (h.lt _ _ ht) (Nat.lt_irrefl _)
      · exact h.inj _ _ _ ht ht'
    · intro t slot ht
      rw [hof] at ht
      rw [List.length_append, List.length_singleton]
      split_ifs at ht
      · cases ht
        exact Nat.lt_succ_self _
      · exact Nat.lt_succ_of_lt (h.lt _ _ ht)
    · intro b hb
      rw [List.length_append, List.length_singleton]
      exact Nat.lt_succ_of_lt (h.bounded b hb)
    · intro slot x hx
      rw [List.getElem?_append] at hx
      split_ifs at hx with hlt
      · exact h.tallies slot x hx
      · have hnone : l.filter (·.component == slot) = [] := by
          refine List.filter_eq_nil_iff.mpr fun b hb heq => ?_
          have hbound := h.bounded b hb
          have heq : b.component = slot := beq_iff_eq.mp heq
          omega
        obtain ⟨_, hmem⟩ := List.getElem?_eq_some_iff.mp hx
        rw [List.getElem_singleton] at hmem
        rw [hnone, ← hmem]
        exact ComponentAccess.tallies_new
    · intro t slot ht
      rw [hof, if_neg]
      · exact ht
      · intro heq
        rw [heq, hslot] at ht
        cases ht
    · rw [hof, if_pos rfl]

theorem Counted.resolveAll : ∀ (accesses : List Access) {c : Reservations.Components},
    c.Counted l → (c.resolveAll accesses).2.Counted l ∧ c.Extends (c.resolveAll accesses).2 ∧
      List.Forall₂ (c.resolveAll accesses).2.Resolves accesses (c.resolveAll accesses).1
  | [], _, h => ⟨h, fun _ _ h => h, .nil⟩
  | a :: rest, c, h => by
    obtain ⟨hcounted, hextends, hresolves⟩ := h.resolve a
    obtain ⟨hcounted', hextends', hrest⟩ := Counted.resolveAll rest hcounted
    exact ⟨hcounted', fun t slot ht => hextends' t slot (hextends t slot ht),
      .cons (hresolves.mono hextends') hrest⟩

theorem Counted.lt_of_resolves (h : c.Counted l) {accesses : List Access}
    {bs : List ResolvedAccess} (hbs : List.Forall₂ c.Resolves accesses bs) :
    ∀ b ∈ bs, b.component < c.slots.length := by
  induction hbs with
  | nil => exact fun _ hb => nomatch hb
  | cons hab _ ih =>
    intro b hb
    rcases List.mem_cons.mp hb with rfl | hb
    · exact h.lt _ _ hab.component
    · exact ih b hb

/-- The table is asked about every access until one conflicts. -/
theorem Counted.anyConflict (h : c.Counted l) : ∀ {bs : List ResolvedAccess},
    (∀ b ∈ bs, b.component < c.slots.length) → ∃ found, c.anyConflict bs = some found ∧
      (found = true ↔ ∃ b ∈ bs, ∃ b' ∈ l, b.component = b'.component ∧ b.Clashes b')
  | [], _ => ⟨false, rfl, by simp⟩
  | b :: bs, hlt => by
    obtain ⟨x, hx⟩ : ∃ x, c.slots[b.component]? = some x :=
      ⟨_, List.getElem?_eq_getElem (hlt b List.mem_cons_self)⟩
    have hhead : x.conflicts b = true ↔ ∃ b' ∈ l, b.component = b'.component ∧ b.Clashes b' := by
      rw [(h.tallies _ _ hx).conflicts]
      constructor
      · rintro ⟨b', hb', hclash⟩
        obtain ⟨hb', hcomponent⟩ := List.mem_filter.mp hb'
        exact ⟨b', hb', (beq_iff_eq.mp hcomponent).symm, hclash⟩
      · rintro ⟨b', hb', hcomponent, hclash⟩
        exact ⟨b', List.mem_filter.mpr ⟨hb', beq_iff_eq.mpr hcomponent.symm⟩, hclash⟩
    obtain ⟨found, hfound, hiff⟩ := Counted.anyConflict h fun b hb =>
      hlt b (List.mem_cons_of_mem _ hb)
    unfold Components.anyConflict
    rw [hx]
    dsimp only [Option.bind_eq_bind, Option.bind_some]
    by_cases hclash : x.conflicts b = true
    · refine ⟨true, if_pos hclash, iff_of_true rfl ?_⟩
      exact ⟨b, List.mem_cons_self, hhead.mp hclash⟩
    · refine ⟨found, by rw [if_neg hclash, hfound], ?_⟩
      rw [hiff, List.exists_mem_cons_iff, ← hhead]
      tauto

/-- The slots after one of them has changed its count. -/
theorem Counted.set (h : c.Counted l) {slot : Nat} {x : ComponentAccess} (hslot : slot < c.slots.length)
    (hbounded : ∀ a ∈ l', a.component < c.slots.length)
    (hx : x.Tallies (l'.filter (·.component == slot)))
    (hothers : ∀ slot', slot' ≠ slot →
      l'.filter (·.component == slot') = l.filter (·.component == slot')) :
    ({ c with slots := c.slots.set slot x } : Reservations.Components).Counted l' where
  inj := h.inj
  lt t slot' ht := by
    rw [List.length_set]
    exact h.lt t slot' ht
  bounded a ha := by
    rw [List.length_set]
    exact hbounded a ha
  tallies slot' x' hx' := by
    by_cases heq : slot = slot'
    · subst heq
      rw [List.getElem?_set_self hslot] at hx'
      cases hx'
      exact hx
    · rw [List.getElem?_set_ne heq] at hx'
      rw [hothers slot' (Ne.symm heq)]
      exact h.tallies slot' x' hx'

theorem Counted.add (h : c.Counted l) {a : ResolvedAccess} (ha : a.component < c.slots.length) :
    ∃ c', c.add a = some c' ∧ c'.Counted (a :: l) ∧ c'.slotOf = c.slotOf ∧
      c'.slots.length = c.slots.length := by
  have hx := List.getElem?_eq_getElem ha
  refine ⟨_, by unfold Components.add; rw [hx]; rfl, h.set ha ?_ ?_ ?_, rfl, List.length_set⟩
  · intro b hb
    rcases List.mem_cons.mp hb with rfl | hb
    · exact ha
    · exact h.bounded b hb
  · rw [List.filter_cons_of_pos (by simp)]
    exact (h.tallies _ _ hx).add
  · intro slot hne
    rw [List.filter_cons_of_neg]
    simpa using Ne.symm hne

theorem Counted.addAll : ∀ {bs : List ResolvedAccess} {c : Reservations.Components}
    {l : List ResolvedAccess}, c.Counted l → (∀ b ∈ bs, b.component < c.slots.length) →
      ∃ c', bs.foldlM Components.add c = some c' ∧ c'.Counted (bs ++ l) ∧ c'.slotOf = c.slotOf
  | [], c, _, h, _ => ⟨c, rfl, h, rfl⟩
  | b :: bs, c, l, h, hlt => by
    obtain ⟨c₁, hadd, hcounted, hslot, hlength⟩ := h.add (hlt b List.mem_cons_self)
    obtain ⟨c', hrest, hcounted', hslot'⟩ := Counted.addAll hcounted fun b hb => by
      rw [hlength]
      exact hlt b (List.mem_cons_of_mem _ hb)
    refine ⟨c', ?_, hcounted'.perm List.perm_middle, hslot'.trans hslot⟩
    rw [List.foldlM_cons, hadd]
    exact hrest

theorem Counted.remove {a : ResolvedAccess} (h : c.Counted (a :: l)) :
    ∃ c', c.remove a = some c' ∧ c'.Counted l ∧ c'.slotOf = c.slotOf := by
  have ha := h.bounded a List.mem_cons_self
  have hx := List.getElem?_eq_getElem ha
  have htally := h.tallies _ _ hx
  rw [List.filter_cons_of_pos (by simp)] at htally
  obtain ⟨x, hremoved, hcounts⟩ := htally.remove
  refine ⟨{ c with slots := c.slots.set a.component x }, ?_, h.set ha ?_ hcounts ?_, rfl⟩
  · unfold Components.remove
    rw [hx]
    show (ComponentAccess.remove _ a).bind _ = _
    rw [hremoved]
    rfl
  · exact fun b hb => h.bounded b (List.mem_cons_of_mem _ hb)
  · intro slot hne
    rw [List.filter_cons_of_neg]
    simpa using Ne.symm hne

theorem Counted.removeAll : ∀ {bs : List ResolvedAccess} {c : Reservations.Components},
    c.Counted (bs ++ l) →
      ∃ c', bs.foldlM Components.remove c = some c' ∧ c'.Counted l ∧ c'.slotOf = c.slotOf
  | [], c, h => ⟨c, rfl, h, rfl⟩
  | b :: bs, c, h => by
    obtain ⟨c₁, hremove, hcounted, hslot⟩ := h.remove
    obtain ⟨c', hrest, hcounted', hslot'⟩ := Counted.removeAll hcounted
    refine ⟨c', ?_, hcounted', hslot'.trans hslot⟩
    rw [List.foldlM_cons, hremove]
    exact hrest

/-- The slots of a schema whose components are numbered densely. -/
theorem counted_new {schema : Dict TypeId Nat}
    (hlt : ∀ t slot, schema.lookup t = some slot → slot < schema.entries.length)
    (hinj : ∀ t t' slot, schema.lookup t = some slot → schema.lookup t' = some slot → t = t') :
    (Components.new schema).Counted [] := by
  have hof : ∀ t, (Components.new schema).slotOf t = schema.lookup t := by
    intro t
    show (schema.lookup t).or none = _
    rw [Option.or_none]
  constructor
  · intro t t' slot ht ht'
    rw [hof] at ht ht'
    exact hinj t t' slot ht ht'
  · intro t slot ht
    rw [hof] at ht
    show slot < (List.replicate _ _).length
    rw [List.length_replicate]
    exact hlt t slot ht
  · exact fun _ h => nomatch h
  · intro slot x hx
    have hmem := List.mem_of_getElem? hx
    rw [(List.mem_replicate.mp hmem).2]
    exact ComponentAccess.tallies_new

end Reservations.Components

theorem exists_of_forall₂ {σ τ : Type} {R : σ → τ → Prop} {l : List σ} {l' : List τ}
    (h : List.Forall₂ R l l') :
    (∀ a ∈ l, ∃ b ∈ l', R a b) ∧ ∀ b ∈ l', ∃ a ∈ l, R a b := by
  induction h with
  | nil => exact ⟨fun _ h => (nomatch h), fun _ h => nomatch h⟩
  | cons hab _ ih =>
    constructor
    · intro a ha
      rcases List.mem_cons.mp ha with rfl | ha
      · exact ⟨_, List.mem_cons_self, hab⟩
      · obtain ⟨b, hb, hrel⟩ := ih.1 a ha
        exact ⟨b, List.mem_cons_of_mem _ hb, hrel⟩
    · intro b hb
      rcases List.mem_cons.mp hb with rfl | hb
      · exact ⟨_, List.mem_cons_self, hab⟩
      · obtain ⟨a, ha, hrel⟩ := ih.2 b hb
        exact ⟨a, List.mem_cons_of_mem _ ha, hrel⟩

namespace Reservations

structure Components.Stands (c : Reservations.Components) (record : Record) (x : Reservation) :
    Prop where
  owner : record.owner = x.owner
  accesses : List.Forall₂ c.Resolves x.accesses record.accesses
  writer : record.writer = x.accesses.any (·.kind == .write)

/-- The table is the indexed form of the ledger. -/
structure Represents (r : Reservations) (l : Ledger) : Prop where
  arena : r.records.Ok
  counted : r.components.Counted (r.records.values.flatMap Record.accesses)
  record : ∀ id x, l id = some x →
    ∃ record, r.records.get id = some record ∧ r.components.Stands record x
  fresh : ∀ id, l id = none → r.records.get id = none
  owners : ∀ o id, r.owners.lookup o = some id ↔ ∃ x, l id = some x ∧ x.owner = o

variable {r r' : Reservations} {l : Ledger} {o : SystemInvocation} {accesses : List Access}
  {id : RunId}

theorem Components.Stands.mono {c c' : Reservations.Components} {record : Record}
    {x : Reservation} (h : c.Stands record x) (he : c.Extends c') : c'.Stands record x :=
  ⟨h.owner, h.accesses.imp fun _ _ hab => hab.mono he, h.writer⟩

theorem Represents.reservation (h : r.Represents l) {record : Record}
    (hget : r.records.get id = some record) : ∃ x, l id = some x ∧ r.components.Stands record x := by
  cases hx : l id with
  | none => cases (h.fresh id hx).symm.trans hget
  | some x =>
    obtain ⟨record', hget', hstands⟩ := h.record id x hx
    cases hget'.symm.trans hget
    exact ⟨x, rfl, hstands⟩

/-- An active invocation has a single record. -/
theorem Represents.id_unique (h : r.Represents l) {id' : RunId} {x x' : Reservation}
    (hx : l id = some x) (hx' : l id' = some x') (ho : x.owner = x'.owner) : id = id' := by
  have hid := (h.owners x.owner id).mpr ⟨x, hx, rfl⟩
  have hid' := (h.owners x.owner id').mpr ⟨x', hx', ho.symm⟩
  exact Option.some.inj (hid.symm.trans hid')

/-- The counters of a table whose components have only grown still stand for the ledger. -/
theorem Represents.extend (h : r.Represents l) {c : Reservations.Components}
    (hc : c.Counted (r.records.values.flatMap Record.accesses)) (he : r.components.Extends c) :
    ({ r with components := c } : Reservations).Represents l where
  arena := h.arena
  counted := hc
  record id x hx := by
    obtain ⟨record, hget, hstands⟩ := h.record id x hx
    exact ⟨record, hget, hstands.mono he⟩
  fresh := h.fresh
  owners := h.owners

theorem Represents.mem_owners (h : r.Represents l) : o ∈ r.owners ↔ l.Active o := by
  rw [← AList.lookup_isSome, Option.isSome_iff_exists]
  exact exists_congr fun id => h.owners o id

/-- An indexed access clashes with an active record exactly where the ledger has a conflict. -/
theorem Represents.conflicts_iff (h : r.Represents l) {bs : List ResolvedAccess}
    (hbs : List.Forall₂ r.components.Resolves accesses bs) :
    (∃ b ∈ bs, ∃ b' ∈ r.records.values.flatMap Record.accesses,
      b.component = b'.component ∧ b.Clashes b') ↔ l.Conflicts accesses := by
  constructor
  · rintro ⟨b, hb, b', hb', hclash⟩
    obtain ⟨record, hrecord, hb'⟩ := List.mem_flatMap.mp hb'
    obtain ⟨id, hget⟩ := Arena.mem_values.mp hrecord
    obtain ⟨x, hx, hstands⟩ := h.reservation hget
    obtain ⟨a, ha, hab⟩ := (exists_of_forall₂ hbs).2 b hb
    obtain ⟨a', ha', hab'⟩ := (exists_of_forall₂ hstands.accesses).2 b' hb'
    exact ⟨a, ha, id, x, hx, a', ha', (h.counted.conflicts_iff hab hab').mpr hclash⟩
  · rintro ⟨a, ha, id, x, hx, a', ha', hconflict⟩
    obtain ⟨record, hget, hstands⟩ := h.record id x hx
    obtain ⟨b, hb, hab⟩ := (exists_of_forall₂ hbs).1 a ha
    obtain ⟨b', hb', hab'⟩ := (exists_of_forall₂ hstands.accesses).1 a' ha'
    refine ⟨b, hb, b', ?_, (h.counted.conflicts_iff hab hab').mp hconflict⟩
    exact List.mem_flatMap.mpr ⟨record, Arena.mem_values.mpr ⟨id, hget⟩, hb'⟩

theorem any_kind_resolved {c : Reservations.Components} {bs : List ResolvedAccess}
    (h : List.Forall₂ c.Resolves accesses bs) :
    bs.any (·.kind == .write) = accesses.any (·.kind == .write) := by
  induction h with
  | nil => rfl
  | cons hab _ ih => rw [List.any_cons, List.any_cons, hab.kind, ih]

/-- A table that admits nothing twice and nothing that conflicts, by the pairwise rule. -/
inductive Admission (l : Ledger) (o : SystemInvocation) (accesses : List Access) :
    Except Rejected RunId → Ledger → Prop where
  | duplicate (h : l.Active o) : Admission l o accesses (.error .duplicate) l
  | conflict (h : ¬ l.Active o) (hconflict : l.Conflicts accesses) :
    Admission l o accesses (.error (.conflict o)) l
  | admitted {id : RunId} (h : ¬ l.Active o) (hfree : ¬ l.Conflicts accesses) (hid : l id = none) :
    Admission l o accesses (.ok id) (l.put id (some ⟨o, accesses⟩))

/-- Everything that an admission to the table can come to. -/
inductive Admits (r : Reservations) (l : Ledger) (o : SystemInvocation) (accesses : List Access) :
    Option (Except Rejected RunId × Reservations) → Prop where
  | duplicate (h : l.Active o) : Admits r l o accesses (some (.error .duplicate, r))
  | conflict {components : Reservations.Components} (h : ¬ l.Active o)
      (hconflict : l.Conflicts accesses)
      (hgrown : ({ r with components } : Reservations).Represents l) :
    Admits r l o accesses (some (.error (.conflict o), { r with components }))
  | full (h : ¬ l.Active o) (hfree : ¬ l.Conflicts accesses)
      (hfull : r.records.Full slotLimit) : Admits r l o accesses none
  | admitted {id : RunId} {r' : Reservations} {record : Record} (h : ¬ l.Active o)
      (hfree : ¬ l.Conflicts accesses) (hid : l id = none)
      (hinsert : r.records.insert slotLimit record = some (id, r'.records))
      (hr' : r'.Represents (l.put id (some ⟨o, accesses⟩))) :
    Admits r l o accesses (some (.ok id, r'))

theorem Represents.admits (h : r.Represents l) (o : SystemInvocation) (accesses : List Access) :
    r.Admits l o accesses (r.admitRun o accesses) := by
  unfold Reservations.admitRun
  by_cases hactive : o ∈ r.owners
  · rw [if_pos hactive]
    exact .duplicate (h.mem_owners.mp hactive)
  rw [if_neg hactive]
  have hinactive : ¬ l.Active o := fun hmem => hactive (h.mem_owners.mpr hmem)
  obtain ⟨hcounted, hextends, hresolves⟩ := h.counted.resolveAll accesses
  generalize r.components.resolveAll accesses = met at hcounted hextends hresolves
  obtain ⟨resolved, components⟩ := met
  dsimp only at hcounted hextends hresolves ⊢
  have hgrown := h.extend hcounted hextends
  have hlt := hcounted.lt_of_resolves hresolves
  obtain ⟨found, hfound, hiff⟩ := hcounted.anyConflict hlt
  have hconflicts := hiff.trans (hgrown.conflicts_iff hresolves)
  rw [hfound]
  dsimp only [Option.bind_eq_bind, Option.bind_some]
  by_cases hclash : found = true
  · rw [if_pos hclash]
    exact .conflict hinactive (hconflicts.mp hclash) hgrown
  rw [if_neg hclash]
  have hfree : ¬ l.Conflicts accesses := fun hc => hclash (hconflicts.mpr hc)
  obtain ⟨counted, hadded, hsum, hslots⟩ := hcounted.addAll hlt
  rw [hadded, Option.bind_some]
  cases hinsert : r.records.insert slotLimit
      ⟨o, resolved, resolved.any (·.kind == .write)⟩ with
  | none => exact .full hinactive hfree ((Arena.insert_eq_none_iff h.arena).mp hinsert)
  | some inserted =>
    obtain ⟨id, records⟩ := inserted
    obtain ⟨harena, hget, hvacant, hvalues⟩ := Arena.insert_spec h.arena hinsert
    have hsame : ∀ {record : Record} {x : Reservation}, r.components.Stands record x →
        counted.Stands record x := fun hs => hs.mono fun t slot ht => by
      rw [hslots]
      exact hextends t slot ht
    have hid : l id = none := by
      cases hx : l id with
      | none => rfl
      | some x =>
        obtain ⟨record, hrecord, -⟩ := h.record id x hx
        cases hvacant.symm.trans hrecord
    refine .admitted hinactive hfree hid hinsert ⟨harena, ?_, ?_, ?_, ?_⟩
    · exact hsum.perm (hvalues.flatMap_right Record.accesses).symm
    · intro id' x hx
      unfold Ledger.put at hx
      rw [hget]
      split_ifs at hx ⊢ with heq
      · cases hx
        refine ⟨_, rfl, rfl, ?_, any_kind_resolved hresolves⟩
        refine hresolves.imp fun a b hab => hab.mono fun t slot ht => ?_
        rw [hslots]
        exact ht
      · obtain ⟨record, hrecord, hstands⟩ := h.record id' x hx
        exact ⟨record, hrecord, hsame hstands⟩
    · intro id' hx
      unfold Ledger.put at hx
      rw [hget]
      split_ifs at hx ⊢ with heq
      exact h.fresh id' hx
    · intro o' id'
      unfold Ledger.put
      rw [Dict.lookup_insert]
      by_cases heq : o' = o
      · subst heq
        rw [if_pos rfl]
        constructor
        · intro hsome
          cases hsome
          exact ⟨_, if_pos rfl, rfl⟩
        · rintro ⟨x, hx, hxo⟩
          split_ifs at hx with hid'
          · rw [hid']
          · exact absurd ⟨id', x, hx, hxo⟩ hinactive
      · rw [if_neg heq, h.owners]
        constructor
        · rintro ⟨x, hx, hxo⟩
          have hne : id' ≠ id := fun hid' => by
            rw [hid', hid] at hx
            cases hx
          exact ⟨x, by rw [if_neg hne, hx], hxo⟩
        · rintro ⟨x, hx, hxo⟩
          split_ifs at hx with hid'
          · cases hx
            exact absurd hxo.symm heq
          · exact ⟨x, hx, hxo⟩

/-- The counters decide an admission as the pairwise rule does. -/
theorem Represents.admitRun (h : r.Represents l) {answer : Except Rejected RunId}
    (ha : r.admitRun o accesses = some (answer, r')) :
    ∃ l', Admission l o accesses answer l' ∧ r'.Represents l' := by
  have hadmits := h.admits o accesses
  rw [ha] at hadmits
  cases hadmits with
  | duplicate hactive => exact ⟨l, .duplicate hactive, h⟩
  | conflict hinactive hconflict hgrown => exact ⟨l, .conflict hinactive hconflict, hgrown⟩
  | admitted hinactive hfree hid _ hr' => exact ⟨_, .admitted hinactive hfree hid, hr'⟩

/-- Releasing an id forgets its record, and one that names none changes nothing. -/
theorem Represents.remove (h : r.Represents l) (id : RunId) :
    ∃ r', r.remove id = some ((l id).map Reservation.owner, r') ∧ r'.Represents (l.put id none) := by
  unfold Reservations.remove
  cases hx : l id with
  | none =>
    have hnone : r.records.remove slotLimit id = none := by
      cases hremove : r.records.remove slotLimit id with
      | none => rfl
      | some taken =>
        obtain ⟨-, -, hget, -⟩ := Arena.remove_spec h.arena hremove
        cases (h.fresh id hx).symm.trans hget
    rw [hnone]
    have hsame : l.put id none = l := by
      funext id'
      unfold Ledger.put
      split_ifs with heq
      · rw [heq, hx]
      · rfl
    exact ⟨r, rfl, hsame.symm ▸ h⟩
  | some x =>
    obtain ⟨record, hget, hstands⟩ := h.record id x hx
    obtain ⟨records, hremove⟩ := Arena.exists_remove slotLimit hget
    obtain ⟨harena, hleft, -, hvalues⟩ := Arena.remove_spec h.arena hremove
    have hsplit := h.counted.perm (hvalues.flatMap_right Record.accesses)
    rw [List.flatMap_cons] at hsplit
    obtain ⟨components, hreleased, hcounted, hslots⟩ := hsplit.removeAll
    rw [hremove]
    dsimp only
    rw [hreleased]
    rw [hstands.owner]
    refine ⟨_, rfl, harena, hcounted, ?_, ?_, ?_⟩
    · intro id' x' hx'
      unfold Ledger.put at hx'
      split_ifs at hx' with heq
      obtain ⟨record', hget', hstands'⟩ := h.record id' x' hx'
      refine ⟨record', by rw [hleft, if_neg heq, hget'], hstands'.mono fun t slot ht => ?_⟩
      rw [hslots]
      exact ht
    · intro id' hx'
      unfold Ledger.put at hx'
      rw [hleft]
      split_ifs at hx' ⊢ with heq
      · rfl
      · exact h.fresh id' hx'
    · intro o' id'
      unfold Ledger.put
      rw [Dict.lookup_erase]
      by_cases heq : o' = x.owner
      · rw [if_pos heq]
        constructor
        · exact fun hsome => nomatch hsome
        · rintro ⟨x', hx', hxo⟩
          split_ifs at hx' with hid'
          exact absurd (h.id_unique hx' hx (hxo.trans heq)) hid'
      · rw [if_neg heq, h.owners]
        constructor
        · rintro ⟨x', hx', hxo⟩
          have hne : id' ≠ id := fun hid' => by
            rw [hid', hx] at hx'
            cases hx'
            exact heq hxo.symm
          exact ⟨x', by rw [if_neg hne, hx'], hxo⟩
        · rintro ⟨x', hx', hxo⟩
          split_ifs at hx'
          exact ⟨x', hx', hxo⟩

theorem Represents.removeAll : ∀ (ids : List RunId) {r : Reservations} {l : Ledger},
    r.Represents l → ∃ r', ids.foldlM (fun r id => (r.remove id).map Prod.snd) r = some r' ∧
      r'.Represents fun id => if id ∈ ids then none else l id
  | [], r, l, h => ⟨r, rfl, by simpa using h⟩
  | id :: ids, r, l, h => by
    obtain ⟨r₁, hremove, hr₁⟩ := h.remove id
    obtain ⟨r', hrest, hr'⟩ := Represents.removeAll ids hr₁
    have hsame : (fun id' => if id' ∈ id :: ids then none else l id') =
        fun id' => if id' ∈ ids then none else l.put id none id' := by
      funext id'
      unfold Ledger.put
      by_cases heq : id' = id
      · simp [heq]
      · simp [heq]
    refine ⟨r', ?_, hsame ▸ hr'⟩
    rw [List.foldlM_cons, hremove]
    exact hrest

/-- Cancelling the readers leaves the records of the writers. -/
theorem Represents.cancelReaders (h : r.Represents l) :
    ∃ r', r.cancelReaders = some r' ∧ r'.Represents l.writers := by
  obtain ⟨r', hremoved, hr'⟩ :=
    Represents.removeAll (r.records.idsWhere fun record => !record.writer) h
  have hsame : l.writers = fun id =>
      if id ∈ r.records.idsWhere (fun record => !record.writer) then none else l id := by
    funext id
    unfold Ledger.writers
    cases hx : l id with
    | none => simp
    | some x =>
      obtain ⟨record, hget, hstands⟩ := h.record id x hx
      have hmem : id ∈ r.records.idsWhere (fun record => !record.writer) ↔
          record.writer = false := by
        rw [Arena.mem_idsWhere, hget]
        simp
      by_cases hwriter : record.writer = false
      · rw [if_pos (hmem.mpr hwriter), Option.filter_some, if_neg]
        rw [← hstands.writer, hwriter]
        exact Bool.false_ne_true
      · rw [if_neg fun hin => hwriter (hmem.mp hin), Option.filter_some, if_pos]
        rw [← hstands.writer]
        exact Bool.eq_true_of_not_eq_false hwriter
  exact ⟨r', hremoved, hsame ▸ hr'⟩

theorem represents_new {schema : Dict TypeId Nat}
    (hlt : ∀ t slot, schema.lookup t = some slot → slot < schema.entries.length)
    (hinj : ∀ t t' slot, schema.lookup t = some slot → schema.lookup t' = some slot → t = t') :
    (new schema).Represents .empty where
  arena := Arena.ok_empty
  counted := Components.counted_new hlt hinj
  record _ _ h := nomatch h
  fresh _ _ := rfl
  owners o id := by
    constructor
    · intro h
      rw [new, AList.lookup_empty] at h
      cases h
    · rintro ⟨x, hx, -⟩
      cases hx

end Reservations
end Porridge
