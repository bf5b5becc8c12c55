import Porridge.Lib.Machine
import Porridge.Reservations.Ledger
import Porridge.World.Presence

/-! The reservation table against the pairwise oracle, over whole sequences of calls. -/
namespace Porridge

/-- The reservations of the active records, by id. -/
abbrev Actives := Dict RunId Reservation

inductive ReservationCall where
  | admitRun (owner : SystemInvocation) (accesses : List Access)
  | remove (id : RunId)
  | cancelReaders

inductive ReservationAnswer where
  | admitted (answer : Except Rejected RunId)
  | removed (owner : Option SystemInvocation)
  | cancelled

namespace Reservations

/-- The table of a phase, with a slot for every component of the world's schema. -/
def ofSchema (schema : Option (List TypeId)) : Reservations :=
  .new ((schema.map fun types => (PresenceIndex.new (PresenceIndex.universeOf types)).bitFor).getD ∅)

def call (r : Reservations) : ReservationCall → Option (ReservationAnswer × Reservations)
  | .admitRun o accesses => (r.admitRun o accesses).map fun p => (.admitted p.1, p.2)
  | .remove id => (r.remove id).map fun p => (.removed p.1, p.2)
  | .cancelReaders => r.cancelReaders.map fun r => (.cancelled, r)

def answers (r : Reservations) : List ReservationCall → Option (List ReservationAnswer)
  | [] => some []
  | c :: calls => do
    let (answer, r) ← r.call c
    let rest ← r.answers calls
    some (answer :: rest)

end Reservations

namespace Actives

variable (active : Actives)

def after : ReservationCall → ReservationAnswer → Actives
  | .admitRun o accesses, .admitted (.ok id) => active.insert id ⟨o, accesses⟩
  | .remove id, _ => active.erase id
  | .cancelReaders, _ => Dict.retain (fun _ x => x.accesses.any (·.kind == .write)) active
  | .admitRun _ _, _ => active

def accesses : List Access := active.entries.flatMap fun p => p.snd.accesses

/-- The rejection that the pairwise rule asks for. -/
def rejects (o : SystemInvocation) (accesses : List Access) : Option Rejected :=
  if active.entries.any fun p => p.snd.owner == o then some .duplicate
  else if accesses.any fun a => active.accesses.any a.conflicts then some (.conflict o)
  else none

/-- The accesses of active records on a component, in the rows that `rows` selects. -/
def counts (t : TypeId) (rows : Option Entity → Bool) : Counts :=
  ⟨active.accesses.countP fun a => a.component == t && rows a.entity && a.kind == .read,
    active.accesses.countP fun a => a.component == t && rows a.entity && a.kind == .write⟩

end Actives

namespace Reservations

/-- A phase: the table, and beside it the records that its answers have made active. -/
def phase (schema : Option (List TypeId)) : Machine (Reservations × Actives) ReservationCall where
  init s := s = (ofSchema schema, ∅)
  step s c := (s.1.call c).map fun p => (p.2, s.2.after c p.1)

/-- The table answers as the pairwise rule does over the active records, counts their accesses,
and forgets what it has rejected. -/
structure Oracle (r : Reservations) (active : Actives) : Prop where
  rejects : ∀ o accesses rejected,
    (∃ r', r.admitRun o accesses = some (.error rejected, r')) ↔
      active.rejects o accesses = some rejected
  admits : ∀ o accesses, active.rejects o accesses = none → ¬ r.records.Full slotLimit →
    ∃ id r', r.admitRun o accesses = some (.ok id, r')
  exhausted : ∀ o accesses, active.rejects o accesses = none → r.records.Full slotLimit →
    r.admitRun o accesses = none
  releases : ∀ id, ∃ r', r.remove id = some ((active.lookup id).map Reservation.owner, r')
  cancels : ∃ r', r.cancelReaders = some r'
  counts : ∀ t slot, r.components.slotOf t = some slot → ∃ x, r.components.slots[slot]? = some x ∧
    x.total = active.counts t (fun _ => true) ∧ x.wholeStore = active.counts t (· == none) ∧
    ∀ e, x.rows.lookup e = (active.counts t (· == some e)).held
  unmet : ∀ t, r.components.slotOf t = none → ∀ rows, active.counts t rows = ⟨0, 0⟩
  forgets : ∀ o accesses rejected r', r.admitRun o accesses = some (.error rejected, r') →
    ∀ calls, r'.answers calls = r.answers calls

/-! ## The records behind the active reservations -/

end Reservations

namespace Actives

variable {active : Actives} {o : SystemInvocation} {accesses : List Access} {id : RunId}

def ledger (active : Actives) : Ledger := fun id => active.lookup id

theorem ledger_insert (x : Reservation) :
    Actives.ledger (active.insert id x) = active.ledger.put id (some x) := by
  funext id'
  exact Dict.lookup_insert active id id' x

theorem ledger_erase : Actives.ledger (active.erase id) = active.ledger.put id none := by
  funext id'
  exact Dict.lookup_erase active id id'

theorem mem_entries {p : Sigma fun _ : RunId => Reservation} :
    p ∈ active.entries ↔ active.ledger p.1 = some p.2 := AList.mem_lookup_iff.symm

theorem active_iff : (active.entries.any fun p => p.snd.owner == o) = true ↔
    active.ledger.Active o := by
  rw [List.any_eq_true]
  constructor
  · rintro ⟨p, hp, howner⟩
    exact ⟨p.1, p.2, mem_entries.mp hp, beq_iff_eq.mp howner⟩
  · rintro ⟨id, x, hx, rfl⟩
    exact ⟨⟨id, x⟩, mem_entries.mpr hx, beq_self_eq_true x.owner⟩

theorem conflicts_iff : (accesses.any fun a => active.accesses.any a.conflicts) = true ↔
    active.ledger.Conflicts accesses := by
  rw [List.any_eq_true]
  refine exists_congr fun a => and_congr_right fun _ => ?_
  rw [List.any_eq_true]
  constructor
  · rintro ⟨b, hb, hconflict⟩
    obtain ⟨p, hp, hb⟩ := List.mem_flatMap.mp hb
    exact ⟨p.1, p.2, mem_entries.mp hp, b, hb, hconflict⟩
  · rintro ⟨id, x, hx, b, hb, hconflict⟩
    exact ⟨b, List.mem_flatMap.mpr ⟨⟨id, x⟩, mem_entries.mpr hx, hb⟩, hconflict⟩

theorem rejects_duplicate (h : active.ledger.Active o) :
    active.rejects o accesses = some .duplicate := if_pos (active_iff.mpr h)

theorem rejects_conflict (h : ¬ active.ledger.Active o) (hconflict : active.ledger.Conflicts accesses) :
    active.rejects o accesses = some (.conflict o) := by
  rw [rejects, if_neg fun hactive => h (active_iff.mp hactive), if_pos (conflicts_iff.mpr hconflict)]

theorem rejects_none (h : ¬ active.ledger.Active o) (hfree : ¬ active.ledger.Conflicts accesses) :
    active.rejects o accesses = none := by
  rw [rejects, if_neg fun hactive => h (active_iff.mp hactive),
    if_neg fun hconflict => hfree (conflicts_iff.mp hconflict)]

end Actives

namespace Reservations

variable {r r' u u' : Reservations} {l : Ledger} {active : Actives} {schema : Option (List TypeId)}

theorem represents_ofSchema (schema : Option (List TypeId)) :
    (ofSchema schema).Represents (Actives.ledger ∅) := by
  have hempty : Actives.ledger ∅ = .empty := by
    funext id
    exact AList.lookup_empty id
  rw [hempty]
  cases schema with
  | none =>
    refine represents_new (fun t slot ht => ?_) fun t t' slot ht => ?_
    · exact nomatch ht
    · exact nomatch ht
  | some types =>
    obtain ⟨hdense, -⟩ := PresenceIndex.dense_new (PresenceIndex.nodup_universeOf types)
    exact represents_new (fun t slot ht => hdense.size ▸ hdense.lt t slot ht) hdense.inj

/-- One call keeps the table on the records that its answer makes active. -/
theorem Represents.call (h : r.Represents active.ledger) {c : ReservationCall}
    {answer : ReservationAnswer} (hc : r.call c = some (answer, r')) :
    r'.Represents (active.after c answer).ledger := by
  cases c with
  | admitRun o accesses =>
    obtain ⟨⟨given, next⟩, hgiven, heq⟩ := Option.map_eq_some_iff.mp hc
    cases heq
    have hadmits := h.admits o accesses
    rw [hgiven] at hadmits
    cases hadmits with
    | duplicate _ => exact h
    | conflict _ _ hgrown => exact hgrown
    | admitted _ _ _ _ hr' =>
      rw [Actives.after, Actives.ledger_insert]
      exact hr'
  | remove id =>
    obtain ⟨next, hremove, hr'⟩ := h.remove id
    rw [Reservations.call, hremove] at hc
    cases hc
    rw [Actives.after, Actives.ledger_erase]
    exact hr'
  | cancelReaders =>
    obtain ⟨next, hcancel, hr'⟩ := h.cancelReaders
    rw [Reservations.call, hcancel] at hc
    cases hc
    have hwriters : (active.after .cancelReaders .cancelled).ledger = active.ledger.writers := by
      funext id
      exact Dict.lookup_retain _ active id
    rw [hwriters]
    exact hr'

theorem represents_of_reachable {s : Reservations × Actives}
    (h : (phase schema).Reachable s) : s.1.Represents s.2.ledger := by
  refine h.invariant (fun s => s.1.Represents s.2.ledger) ?_ ?_
  · rintro s rfl
    exact represents_ofSchema schema
  · rintro s c s' hs - hstep
    obtain ⟨⟨answer, next⟩, hc, rfl⟩ := Option.map_eq_some_iff.mp hstep
    exact hs.call hc

/-! ## The counters -/

section Counters

/-- The records in use are those of the ledger, up to their order. -/
theorem Represents.values_perm (h : r.Represents active.ledger) :
    r.records.values.Perm (active.keys.filterMap r.records.get) := by
  refine Arena.values_perm active.nodupKeys fun id => ?_
  rw [Option.isSome_iff_exists]
  constructor
  · intro hid
    obtain ⟨x, hx⟩ := Option.isSome_iff_exists.mp (AList.lookup_isSome.mpr (AList.mem_keys.mp hid))
    obtain ⟨record, hget, -⟩ := h.record id x hx
    exact ⟨record, hget⟩
  · rintro ⟨record, hget⟩
    obtain ⟨x, hx, -⟩ := h.reservation hget
    exact AList.mem_keys.mpr (AList.lookup_isSome.mp (Option.isSome_iff_exists.mpr ⟨x, hx⟩))

/-- The indexed accesses of the table, in the order of the active records. -/
theorem Represents.accesses (h : r.Represents active.ledger) :
    List.Forall₂ r.components.Resolves active.accesses
      ((active.keys.filterMap r.records.get).flatMap Record.accesses) := by
  have hentries : ∀ entries : List (Sigma fun _ : RunId => Reservation),
      (∀ p ∈ entries, active.ledger p.1 = some p.2) →
        List.Forall₂ r.components.Resolves (entries.flatMap fun p => p.snd.accesses)
          (((entries.map Sigma.fst).filterMap r.records.get).flatMap Record.accesses) := by
    intro entries
    induction entries with
    | nil => exact fun _ => .nil
    | cons p entries ih =>
      intro hp
      obtain ⟨record, hget, hstands⟩ := h.record p.1 p.2 (hp p List.mem_cons_self)
      rw [List.map_cons, List.filterMap_cons_some hget, List.flatMap_cons, List.flatMap_cons]
      exact List.rel_append hstands.accesses (ih fun p' hp' => hp p' (List.mem_cons_of_mem _ hp'))
  exact hentries active.entries fun p hp => Actives.mem_entries.mp hp

theorem countP_resolved {c : Reservations.Components} {as : List Access} {bs : List ResolvedAccess}
    (h : List.Forall₂ c.Resolves as bs) {p : Access → Bool} {q : ResolvedAccess → Bool}
    (hpq : ∀ {a b}, c.Resolves a b → q b = p a) : bs.countP q = as.countP p := by
  induction h with
  | nil => rfl
  | cons hab _ ih => rw [List.countP_cons, List.countP_cons, ih, hpq hab]

variable {c : Reservations.Components}

/-- Counting by slot is counting by component. -/
theorem Represents.counts (h : r.Represents active.ledger) {t : TypeId} {slot : Nat}
    (ht : r.components.slotOf t = some slot) (rows : Option Entity → Bool) :
    Counts.of (((r.records.values.flatMap Record.accesses).filter (·.component == slot)).filter
      fun b => rows b.entity) = active.counts t rows := by
  have hslot : ∀ {a b}, r.components.Resolves a b → (b.component == slot) = (a.component == t) := by
    intro a b hab
    rw [Bool.eq_iff_iff, beq_iff_eq, beq_iff_eq]
    constructor
    · rintro rfl
      exact h.counted.inj _ _ _ hab.component ht
    · rintro rfl
      exact Option.some.inj (hab.component.symm.trans ht)
  have hcount : ∀ kind : AccessKind,
      (((r.records.values.flatMap Record.accesses).filter (·.component == slot)).filter
        fun b => rows b.entity).countP (·.kind == kind) =
      active.accesses.countP fun a => a.component == t && rows a.entity && a.kind == kind := by
    intro kind
    rw [List.countP_filter, List.countP_filter,
      (h.values_perm.flatMap_right Record.accesses).countP_eq]
    refine countP_resolved h.accesses fun {a b} hab => ?_
    rw [hslot hab, hab.entity, hab.kind]
    cases a.component == t <;> cases rows a.entity <;> cases a.kind == kind <;> rfl
  rw [Counts.of, Actives.counts, hcount, hcount]

theorem Represents.counters (h : r.Represents active.ledger) {t : TypeId} {slot : Nat}
    (ht : r.components.slotOf t = some slot) : ∃ x, r.components.slots[slot]? = some x ∧
      x.total = active.counts t (fun _ => true) ∧ x.wholeStore = active.counts t (· == none) ∧
      ∀ e, x.rows.lookup e = (active.counts t (· == some e)).held := by
  have hlt := h.counted.lt t slot ht
  have hx := List.getElem?_eq_getElem hlt
  have htallies := h.counted.tallies slot _ hx
  refine ⟨_, hx, ?_, ?_, fun e => ?_⟩
  · rw [htallies.total, ← h.counts ht fun _ => true, List.filter_true]
  · rw [htallies.wholeStore, ← h.counts ht (· == none)]
  · rw [htallies.rows e, ← h.counts ht (· == some e)]

/-- A component without a slot has no active access. -/
theorem Represents.unmet (h : r.Represents active.ledger) {t : TypeId}
    (ht : r.components.slotOf t = none) (rows : Option Entity → Bool) :
    active.counts t rows = ⟨0, 0⟩ := by
  have habsent : ∀ a ∈ active.accesses, a.component ≠ t := by
    rintro a ha rfl
    obtain ⟨b, -, hab⟩ := (exists_of_forall₂ h.accesses).1 a ha
    rw [hab.component] at ht
    cases ht
  have hcount : ∀ kind : AccessKind, (active.accesses.countP fun a =>
      a.component == t && rows a.entity && a.kind == kind) = 0 := by
    intro kind
    refine List.countP_eq_zero.mpr fun a ha hmatch => habsent a ha ?_
    simp only [Bool.and_eq_true, beq_iff_eq] at hmatch
    exact hmatch.1.1
  rw [Actives.counts, hcount, hcount]

end Counters

/-! ## Later answers -/

section Later

/-- Two tables for the same records, whose slots are in step. -/
structure Alike (r u : Reservations) : Prop where
  slots : r.records.InStep u.records
  records : ∃ l, r.Represents l ∧ u.Represents l

/-- Two results of one call: the same answer, or a panic on both sides. -/
abbrev SameOutcome : Option (ReservationAnswer × Reservations) →
    Option (ReservationAnswer × Reservations) → Prop :=
  Option.Rel fun x y => x.1 = y.1 ∧ Alike x.2 y.2

theorem SameOutcome.admitRun (hslots : r.records.InStep u.records) (hr : r.Represents l)
    (hu : u.Represents l) (o : SystemInvocation) (accesses : List Access) :
    SameOutcome (r.call (.admitRun o accesses)) (u.call (.admitRun o accesses)) := by
  have hleft := hr.admits o accesses
  have hright := hu.admits o accesses
  show SameOutcome ((r.admitRun o accesses).map _) ((u.admitRun o accesses).map _)
  generalize r.admitRun o accesses = x at hleft
  generalize u.admitRun o accesses = y at hright
  have hfull : u.records.Full slotLimit ↔ r.records.Full slotLimit := by
    rw [Arena.Full, Arena.Full, hslots.free, hslots.length]
  cases hleft with
  | duplicate hactive =>
    cases hright with
    | duplicate _ => exact .some ⟨rfl, hslots, l, hr, hu⟩
    | conflict h => exact absurd hactive h
    | full h => exact absurd hactive h
    | admitted h => exact absurd hactive h
  | conflict h hconflict hgrown =>
    cases hright with
    | duplicate hactive => exact absurd hactive h
    | conflict _ _ hgrown' => exact .some ⟨rfl, hslots, l, hgrown, hgrown'⟩
    | full _ hfree => exact absurd hconflict hfree
    | admitted _ hfree => exact absurd hconflict hfree
  | full h hfree hout =>
    cases hright with
    | duplicate hactive => exact absurd hactive h
    | conflict _ hconflict => exact absurd hconflict hfree
    | full _ _ _ => exact .none
    | admitted _ _ _ hinsert _ =>
      rw [(Arena.insert_eq_none_iff hu.arena).mpr (hfull.mpr hout)] at hinsert
      cases hinsert
  | admitted h hfree _ hinsert hr' =>
    cases hright with
    | duplicate hactive => exact absurd hactive h
    | conflict _ hconflict => exact absurd hconflict hfree
    | full _ _ hout =>
      rw [(Arena.insert_eq_none_iff hr.arena).mpr (hfull.mp hout)] at hinsert
      cases hinsert
    | admitted _ _ _ hinsert' hu' =>
      obtain ⟨records, hsame, hstep⟩ := hslots.insert hinsert
      rw [hsame] at hinsert'
      cases hinsert'
      exact .some ⟨rfl, hstep, _, hr', hu'⟩

theorem remove_records {id : RunId} {owner : Option SystemInvocation}
    (h : r.remove id = some (owner, r')) :
    (r.records.remove slotLimit id = none ∧ r' = r) ∨
      ∃ record, r.records.remove slotLimit id = some (record, r'.records) := by
  unfold Reservations.remove at h
  cases hremove : r.records.remove slotLimit id with
  | none =>
    rw [hremove] at h
    cases h
    exact Or.inl ⟨rfl, rfl⟩
  | some taken =>
    rw [hremove] at h
    obtain ⟨components, -, heq⟩ := Option.bind_eq_some_iff.mp h
    cases heq
    exact Or.inr ⟨taken.1, rfl⟩

theorem Represents.remove_eq_none (h : r.Represents l) {id : RunId} :
    r.records.remove slotLimit id = none ↔ l id = none := by
  constructor
  · intro hnone
    cases hx : l id with
    | none => rfl
    | some x =>
      obtain ⟨record, hget, -⟩ := h.record id x hx
      obtain ⟨records, hremove⟩ := Arena.exists_remove slotLimit hget
      cases hnone.symm.trans hremove
  · intro hx
    cases hremove : r.records.remove slotLimit id with
    | none => rfl
    | some taken =>
      obtain ⟨-, -, hget, -⟩ := Arena.remove_spec h.arena hremove
      cases (h.fresh id hx).symm.trans hget

theorem Alike.remove (h : Alike r u) (id : RunId) : ∃ owner r' u',
    r.remove id = some (owner, r') ∧ u.remove id = some (owner, u') ∧ Alike r' u' := by
  obtain ⟨l, hr, hu⟩ := h.records
  obtain ⟨r', hremove, hr'⟩ := hr.remove id
  obtain ⟨u', hremove', hu'⟩ := hu.remove id
  refine ⟨_, r', u', hremove, hremove', ?_, _, hr', hu'⟩
  rcases remove_records hremove with ⟨hnone, rfl⟩ | ⟨record, hsome⟩
  · rcases remove_records hremove' with ⟨-, rfl⟩ | ⟨record', hsome'⟩
    · exact h.slots
    · rw [hu.remove_eq_none.mpr (hr.remove_eq_none.mp hnone)] at hsome'
      cases hsome'
  · rcases remove_records hremove' with ⟨hnone', -⟩ | ⟨record', hsome'⟩
    · rw [hr.remove_eq_none.mpr (hu.remove_eq_none.mp hnone')] at hsome
      cases hsome
    · exact h.slots.remove hsome hsome'

theorem Alike.removeAll (ids : List RunId) (h : Alike r u) : ∃ r' u',
    ids.foldlM (fun r id => (r.remove id).map Prod.snd) r = some r' ∧
      ids.foldlM (fun r id => (r.remove id).map Prod.snd) u = some u' ∧ Alike r' u' := by
  induction ids generalizing r u with
  | nil => exact ⟨r, u, rfl, rfl, h⟩
  | cons id ids ih =>
    obtain ⟨owner, r₁, u₁, hremove, hremove', hnext⟩ := h.remove id
    obtain ⟨r', u', hrest, hrest', halike⟩ := ih hnext
    refine ⟨r', u', ?_, ?_, halike⟩
    · rw [List.foldlM_cons, hremove]
      exact hrest
    · rw [List.foldlM_cons, hremove']
      exact hrest'

theorem Represents.any_reader (h : r.Represents l) (id : RunId) :
    (r.records.get id).any (fun record => !record.writer) =
      (l id).any fun x => !x.accesses.any (·.kind == .write) := by
  cases hx : l id with
  | none =>
    rw [h.fresh id hx]
    rfl
  | some x =>
    obtain ⟨record, hget, hstands⟩ := h.record id x hx
    rw [hget, Option.any_some, Option.any_some, hstands.writer]

theorem Alike.cancelReaders (h : Alike r u) : ∃ r' u', r.cancelReaders = some r' ∧
    u.cancelReaders = some u' ∧ Alike r' u' := by
  obtain ⟨l, hr, hu⟩ := h.records
  have hids : u.records.idsWhere (fun record => !record.writer) =
      r.records.idsWhere fun record => !record.writer :=
    h.slots.idsWhere fun id => by rw [hr.any_reader, hu.any_reader]
  unfold Reservations.cancelReaders
  rw [hids]
  exact h.removeAll _

theorem Alike.call (h : Alike r u) (c : ReservationCall) :
    SameOutcome (r.call c) (u.call c) := by
  cases c with
  | admitRun o accesses =>
    obtain ⟨l, hr, hu⟩ := h.records
    exact SameOutcome.admitRun h.slots hr hu o accesses
  | remove id =>
    obtain ⟨owner, r', u', hremove, hremove', hnext⟩ := h.remove id
    rw [Reservations.call, Reservations.call, hremove, hremove']
    exact .some ⟨rfl, hnext⟩
  | cancelReaders =>
    obtain ⟨r', u', hcancel, hcancel', hnext⟩ := h.cancelReaders
    rw [Reservations.call, Reservations.call, hcancel, hcancel']
    exact .some ⟨rfl, hnext⟩

theorem Alike.answers (h : Alike r u) (calls : List ReservationCall) :
    r.answers calls = u.answers calls := by
  induction calls generalizing r u with
  | nil => rfl
  | cons c calls ih =>
    have hcall := h.call c
    unfold Reservations.answers
    generalize r.call c = x at hcall
    generalize u.call c = y at hcall
    cases hcall with
    | none => rfl
    | @some x y hxy =>
      obtain ⟨hanswer, hnext⟩ := hxy
      show (x.2.answers calls).bind _ = (y.2.answers calls).bind _
      rw [ih hnext, hanswer]

end Later

/-! ## The oracle -/

theorem Represents.oracle (h : r.Represents active.ledger) : Oracle r active where
  rejects o accesses rejected := by
    have hadmits := h.admits o accesses
    generalize r.admitRun o accesses = x at hadmits ⊢
    cases hadmits with
    | duplicate hactive =>
      rw [Actives.rejects_duplicate hactive]
      constructor
      · rintro ⟨r', heq⟩
        cases heq
        rfl
      · intro heq
        cases heq
        exact ⟨r, rfl⟩
    | conflict hinactive hconflict hgrown =>
      rw [Actives.rejects_conflict hinactive hconflict]
      constructor
      · rintro ⟨r', heq⟩
        cases heq
        rfl
      · intro heq
        cases heq
        exact ⟨_, rfl⟩
    | full hinactive hfree _ =>
      rw [Actives.rejects_none hinactive hfree]
      exact iff_of_false (fun ⟨_, heq⟩ => nomatch heq) nofun
    | admitted hinactive hfree _ _ _ =>
      rw [Actives.rejects_none hinactive hfree]
      refine iff_of_false ?_ nofun
      rintro ⟨r', heq⟩
      cases heq
  admits o accesses hnone hroom := by
    have hadmits := h.admits o accesses
    generalize r.admitRun o accesses = x at hadmits ⊢
    cases hadmits with
    | duplicate hactive => cases (Actives.rejects_duplicate hactive).symm.trans hnone
    | conflict hinactive hconflict _ =>
      cases (Actives.rejects_conflict hinactive hconflict).symm.trans hnone
    | full _ _ hfull => exact absurd hfull hroom
    | @admitted id r' => exact ⟨id, r', rfl⟩
  exhausted o accesses hnone hfull := by
    have hadmits := h.admits o accesses
    generalize r.admitRun o accesses = x at hadmits ⊢
    cases hadmits with
    | duplicate hactive => cases (Actives.rejects_duplicate hactive).symm.trans hnone
    | conflict hinactive hconflict _ =>
      cases (Actives.rejects_conflict hinactive hconflict).symm.trans hnone
    | full _ _ _ => rfl
    | admitted _ _ _ hinsert _ =>
      rw [(Arena.insert_eq_none_iff h.arena).mpr hfull] at hinsert
      cases hinsert
  releases id := by
    obtain ⟨r', hremove, -⟩ := h.remove id
    exact ⟨r', hremove⟩
  cancels := by
    obtain ⟨r', hcancel, -⟩ := h.cancelReaders
    exact ⟨r', hcancel⟩
  counts _ _ ht := h.counters ht
  unmet _ ht rows := h.unmet ht rows
  forgets o accesses rejected r' hrejected := by
    have hadmits := h.admits o accesses
    rw [hrejected] at hadmits
    intro calls
    cases hadmits with
    | duplicate _ => rfl
    | @conflict components _ _ hgrown =>
      have halike : Alike { r with components } r := ⟨⟨rfl, rfl⟩, _, hgrown, h⟩
      exact halike.answers calls

/-- After any calls on a table over any schema, it answers as the pairwise rule does. -/
theorem oracle_of_reachable {s : Reservations × Actives} (h : (phase schema).Reachable s) :
    Oracle s.1 s.2 := (represents_of_reachable h).oracle

section Phases

def reading : Reservations × Actives :=
  ((phase (some [5])).run (ofSchema (some [5]), ∅) [.admitRun ⟨0, [1]⟩ [⟨.read, 5, some 1⟩]]).getD
    (ofSchema (some [5]), ∅)

theorem reading_oracle : reading.2.rejects ⟨1, [1]⟩ [⟨.write, 5, none⟩] = some (.conflict ⟨1, [1]⟩) ∧
    Oracle reading.1 reading.2 := by
  have hreading : (phase (some [5])).Reachable reading := Machine.Reachable.run (.init rfl)
    (show (phase (some [5])).run _ [.admitRun ⟨0, [1]⟩ [⟨.read, 5, some 1⟩]] = some reading from rfl)
  exact ⟨by decide, oracle_of_reachable hreading⟩

theorem admitRun_nil {o : SystemInvocation} (ho : o ∉ r.owners) : r.admitRun o [] =
    (r.records.insert slotLimit ⟨o, [], false⟩).map fun p =>
      (.ok p.1, ⟨r.owners.insert o p.1, p.2, r.components⟩) := by
  unfold Reservations.admitRun
  rw [if_neg ho]
  show (r.records.insert slotLimit ⟨o, [], false⟩).bind _ = _
  cases r.records.insert slotLimit ⟨o, [], false⟩ <;> rfl

/-- Invocations without accesses, one after another. -/
def crowd (n : Nat) : List ReservationCall := (List.range n).map fun i => .admitRun ⟨i, []⟩ []

theorem crowd_admitted : ∀ n ≤ slotLimit, ∃ s, (phase none).run (ofSchema none, ∅) (crowd n) = some s ∧
    s.1.records.free = [] ∧ s.1.records.slots.length = n ∧ ∀ o ∈ s.1.owners, o.system < n
  | 0, _ => ⟨(ofSchema none, ∅), rfl, rfl, rfl, fun _ ho => absurd ho (AList.notMem_empty _)⟩
  | n + 1, hn => by
    obtain ⟨s, hrun, hfree, hlength, howners⟩ := crowd_admitted n (Nat.le_of_succ_le hn)
    have hnew : (⟨n, []⟩ : SystemInvocation) ∉ s.1.owners :=
      fun hmem => absurd (howners _ hmem) (Nat.lt_irrefl n)
    have hinsert : s.1.records.insert slotLimit ⟨⟨n, []⟩, [], false⟩ =
        some (⟨n, 0⟩, ⟨s.1.records.slots ++ [⟨0, some ⟨⟨n, []⟩, [], false⟩⟩], []⟩) := by
      unfold Arena.insert
      rw [hfree]
      dsimp only
      rw [hlength, if_pos (Nat.lt_of_succ_le hn)]
    have hcrowd : crowd (n + 1) = crowd n ++ [.admitRun ⟨n, []⟩ []] := by
      rw [crowd, crowd, List.range_succ, List.map_append]
      rfl
    let next : Reservations × Actives := (⟨s.1.owners.insert ⟨n, []⟩ ⟨n, 0⟩,
      ⟨s.1.records.slots ++ [⟨0, some ⟨⟨n, []⟩, [], false⟩⟩], []⟩, s.1.components⟩,
      s.2.insert ⟨n, 0⟩ ⟨⟨n, []⟩, []⟩)
    have hstep : (phase none).step s (.admitRun ⟨n, []⟩ []) = some next := by
      show ((s.1.admitRun ⟨n, []⟩ []).map _).map _ = _
      rw [admitRun_nil hnew, hinsert]
      rfl
    refine ⟨next, ?_, rfl, ?_, fun o ho => ?_⟩
    · rw [hcrowd, Machine.run_append, hrun, Option.bind_some]
      show ((phase none).step s (.admitRun ⟨n, []⟩ [])).bind _ = _
      rw [hstep]
      rfl
    · show (s.1.records.slots ++ [_]).length = n + 1
      rw [List.length_append, hlength]
      rfl
    · rcases (AList.mem_insert _).mp ho with rfl | hmem
      · exact Nat.lt_succ_self n
      · exact Nat.lt_succ_of_lt (howners o hmem)

/-- Once every execution slot is taken, an invocation that nothing rejects is not admitted. -/
theorem crowd_exhausts : ∃ s, (phase none).Reachable s ∧
    s.2.rejects ⟨slotLimit, []⟩ [] = none ∧ s.1.admitRun ⟨slotLimit, []⟩ [] = none := by
  obtain ⟨s, hrun, hfree, hlength, howners⟩ := crowd_admitted slotLimit le_rfl
  have hreachable : (phase none).Reachable s := Machine.Reachable.run (.init rfl) hrun
  have hs := represents_of_reachable hreachable
  have hinactive : ¬ s.2.ledger.Active ⟨slotLimit, []⟩ := fun hactive =>
    absurd (howners _ (hs.mem_owners.mpr hactive)) (Nat.lt_irrefl slotLimit)
  have hnone : s.2.rejects ⟨slotLimit, []⟩ [] = none :=
    Actives.rejects_none hinactive fun ⟨_, ha, _⟩ => nomatch ha
  exact ⟨s, hreachable, hnone, hs.oracle.exhausted _ _ hnone ⟨hfree, hlength.ge⟩⟩

end Phases

end Reservations
end Porridge
