import Porridge.Reservations.Oracle

/-! The ids of execution records over whole phases: none is handed out twice. -/
namespace Porridge

def ReservationAnswer.issued : ReservationAnswer → List RunId
  | .admitted (.ok id) => [id]
  | _ => []

def ReservationCall.ends (id : RunId) (record : Record) : ReservationCall → Bool
  | .admitRun _ _ => false
  | .remove id' => id' = id
  | .cancelReaders => !record.writer

namespace Reservations

/-- A phase: the table, and beside it the ids that its admissions have returned. -/
def numbering (schema : Option (List TypeId)) :
    Machine (Reservations × List RunId) ReservationCall where
  init s := s = (ofSchema schema, [])
  step s c := (s.1.call c).map fun p => (p.2, s.2 ++ p.1.issued)

/-- The table stands for some ledger, and its arena has handed out the listed ids. -/
structure Numbers (r : Reservations) (issued : List RunId) : Prop where
  ledger : ∃ l, r.Represents l
  records : r.records.Numbered slotLimit issued

variable {schema : Option (List TypeId)} {r r' : Reservations} {issued : List RunId} {id : RunId}
  {record : Record} {s s' : Reservations × List RunId}

section Steps

theorem slotLimit_pos : 0 < slotLimit := Nat.two_pow_pos 32

theorem Numbers.admitRun (h : r.Numbers issued) {o : SystemInvocation} {accesses : List Access}
    {answer : Except Rejected RunId} (ha : r.admitRun o accesses = some (answer, r')) :
    r'.Numbers (issued ++ (ReservationAnswer.admitted answer).issued) ∧
      (∀ id record, r.records.get id = some record → r'.records.get id = some record) ∧
        ∀ id ∈ issued, r.records.get id = none → r'.records.get id = none := by
  obtain ⟨l, hl⟩ := h.ledger
  have hadmits := hl.admits o accesses
  rw [ha] at hadmits
  have hkept : issued ++ (ReservationAnswer.admitted (.error .duplicate)).issued = issued :=
    List.append_nil issued
  cases hadmits with
  | duplicate => exact ⟨hkept.symm ▸ h, fun _ _ => id, fun _ _ => id⟩
  | conflict _ _ hgrown =>
    exact ⟨hkept.symm ▸ ⟨⟨l, hgrown⟩, h.records⟩, fun _ _ => id, fun _ _ => id⟩
  | @admitted new _ _ _ _ _ hinsert hr' =>
    obtain ⟨hnew, hnumbered⟩ := h.records.insert slotLimit_pos hinsert
    obtain ⟨-, hget, hvacant, -⟩ := Arena.insert_spec h.records.ok hinsert
    refine ⟨⟨⟨_, hr'⟩, hnumbered⟩, fun id record hrecord => ?_, fun id hid hnone => ?_⟩
    · have hne : id ≠ new := fun heq => by
        rw [heq, hvacant] at hrecord
        cases hrecord
      rw [hget, if_neg hne, hrecord]
    · have hne : id ≠ new := fun heq => hnew (heq ▸ hid)
      rw [hget, if_neg hne, hnone]

theorem Numbers.remove (h : r.Numbers issued) {owner : Option SystemInvocation}
    (hr : r.remove id = some (owner, r')) : r'.Numbers issued ∧
      ∀ id', r'.records.get id' = if id' = id then none else r.records.get id' := by
  obtain ⟨l, hl⟩ := h.ledger
  obtain ⟨r₁, hremove, hr₁⟩ := hl.remove id
  cases hr.symm.trans hremove
  rcases remove_records hr with ⟨hnone, rfl⟩ | ⟨record, hsome⟩
  · refine ⟨h, fun id' => ?_⟩
    split_ifs with heq
    · rw [heq]
      exact hl.fresh id (hl.remove_eq_none.mp hnone)
    · rfl
  · obtain ⟨-, hget, -⟩ := Arena.remove_spec h.records.ok hsome
    exact ⟨⟨⟨_, hr₁⟩, h.records.remove hsome⟩, hget⟩

theorem Numbers.removeAll : ∀ (ids : List RunId) {r : Reservations}, r.Numbers issued →
    ids.foldlM (fun r id => (r.remove id).map Prod.snd) r = some r' → r'.Numbers issued ∧
      ∀ id', r'.records.get id' = if id' ∈ ids then none else r.records.get id'
  | [], r, h, hr => by
    cases hr
    exact ⟨h, fun id' => by simp⟩
  | id :: ids, r, h, hr => by
    obtain ⟨r₁, hfirst, hrest⟩ := Option.bind_eq_some_iff.mp hr
    obtain ⟨⟨owner, u⟩, hremove, rfl⟩ := Option.map_eq_some_iff.mp hfirst
    obtain ⟨hu, hget⟩ := h.remove hremove
    obtain ⟨hr', hgets⟩ := Numbers.removeAll ids hu hrest
    refine ⟨hr', fun id' => ?_⟩
    rw [hgets, hget]
    by_cases heq : id' = id
    · simp [heq]
    · simp [heq]

theorem Numbers.cancelReaders (h : r.Numbers issued) (hr : r.cancelReaders = some r') :
    r'.Numbers issued ∧ ∀ id', r'.records.get id' = (r.records.get id').filter Record.writer := by
  obtain ⟨hr', hget⟩ := h.removeAll _ hr
  refine ⟨hr', fun id' => ?_⟩
  rw [hget]
  cases hrecord : r.records.get id' with
  | none => simp
  | some record =>
    have hmem : id' ∈ r.records.idsWhere (fun record => !record.writer) ↔ record.writer = false := by
      rw [Arena.mem_idsWhere, hrecord]
      simp
    rw [Option.filter_some]
    cases hwriter : record.writer with
    | false => rw [if_pos (hmem.mpr hwriter), if_neg Bool.false_ne_true]
    | true =>
      have hnot : id' ∉ r.records.idsWhere fun record => !record.writer := fun hin => by
        rw [hmem.mp hin] at hwriter
        cases hwriter
      rw [if_neg hnot, if_pos rfl]

/-- A call leaves a record under its id, or ends it; an id that names nothing stays so. -/
theorem Numbers.step (h : s.1.Numbers s.2) {c : ReservationCall}
    (hstep : (numbering schema).step s c = some s') : s'.1.Numbers s'.2 ∧
      (∀ id record, s.1.records.get id = some record →
        s'.1.records.get id = if c.ends id record then none else some record) ∧
        ∀ id ∈ s.2, s.1.records.get id = none → s'.1.records.get id = none := by
  obtain ⟨⟨answer, next⟩, hcall, rfl⟩ := Option.map_eq_some_iff.mp hstep
  cases c with
  | admitRun o accesses =>
    obtain ⟨⟨admitted, u⟩, hadmit, heq⟩ := Option.map_eq_some_iff.mp hcall
    cases heq
    obtain ⟨hnumbers, hkept, hdead⟩ := h.admitRun hadmit
    refine ⟨hnumbers, fun id record hget => ?_, hdead⟩
    rw [hkept id record hget]
    exact (if_neg Bool.false_ne_true).symm
  | remove id' =>
    obtain ⟨⟨owner, u⟩, hremove, heq⟩ := Option.map_eq_some_iff.mp hcall
    cases heq
    obtain ⟨hnumbers, hget⟩ := h.remove hremove
    refine ⟨(List.append_nil s.2).symm ▸ hnumbers, fun id record hrecord => ?_, fun id _ hnone => ?_⟩
    · rw [hget, hrecord]
      unfold ReservationCall.ends
      by_cases heq : id = id'
      · simp [heq]
      · simp [heq, Ne.symm heq]
    · rw [hget, hnone, ite_self]
  | cancelReaders =>
    obtain ⟨u, hcancel, heq⟩ := Option.map_eq_some_iff.mp hcall
    cases heq
    obtain ⟨hnumbers, hget⟩ := h.cancelReaders hcancel
    refine ⟨(List.append_nil s.2).symm ▸ hnumbers, fun id record hrecord => ?_, fun id _ hnone => ?_⟩
    · rw [hget, hrecord, Option.filter_some]
      unfold ReservationCall.ends
      cases record.writer <;> rfl
    · rw [hget, hnone, Option.filter_none]

end Steps

section Runs

theorem numbers_of_reachable (h : (numbering schema).Reachable s) : s.1.Numbers s.2 := by
  refine h.invariant (fun s => s.1.Numbers s.2) ?_ fun s c s' hs _ hstep => (hs.step hstep).1
  rintro s rfl
  exact ⟨⟨_, represents_ofSchema schema⟩, Arena.numbered_empty slotLimit⟩

/-- An id that names nothing any more never names anything again. -/
theorem Numbers.dead : ∀ {calls : List ReservationCall} {s : Reservations × List RunId},
    s.1.Numbers s.2 → (numbering schema).run s calls = some s' → id ∈ s.2 →
      s.1.records.get id = none → s'.1.records.get id = none
  | [], s, _, hrun, _, hnone => by
    cases hrun
    exact hnone
  | c :: calls, s, h, hrun, hid, hnone => by
    obtain ⟨u, hstep, hrest⟩ := Option.bind_eq_some_iff.mp hrun
    obtain ⟨hu, -, hdead⟩ := h.step hstep
    have hissued : id ∈ u.2 := by
      obtain ⟨p, -, rfl⟩ := Option.map_eq_some_iff.mp hstep
      exact List.mem_append_left _ hid
    exact hu.dead hrest hissued (hdead id hid hnone)

/-- A record is under its id until a call ends it. -/
theorem Numbers.resolves : ∀ {calls : List ReservationCall} {s : Reservations × List RunId},
    s.1.Numbers s.2 → (numbering schema).run s calls = some s' →
      s.1.records.get id = some record →
        s'.1.records.get id = if calls.any (·.ends id record) then none else some record
  | [], s, _, hrun, hget => by
    cases hrun
    exact hget
  | c :: calls, s, h, hrun, hget => by
    obtain ⟨u, hstep, hrest⟩ := Option.bind_eq_some_iff.mp hrun
    obtain ⟨hu, hlive, -⟩ := h.step hstep
    have hnext := hlive id record hget
    have hissued : id ∈ u.2 := by
      obtain ⟨p, -, rfl⟩ := Option.map_eq_some_iff.mp hstep
      exact List.mem_append_left _ (h.records.issued_of_get hget)
    rw [List.any_cons]
    cases hends : c.ends id record with
    | true =>
      rw [hends, if_pos rfl] at hnext
      rw [Bool.true_or, if_pos rfl]
      exact hu.dead hrest hissued hnext
    | false =>
      rw [hends, if_neg Bool.false_ne_true] at hnext
      rw [Bool.false_or]
      exact hu.resolves hrest hnext

end Runs

/-- What the ids of a phase promise. -/
structure Unaliased (schema : Option (List TypeId)) (r : Reservations) (issued : List RunId) :
    Prop where
  distinct : issued.Nodup
  live : ∀ id record, r.records.get id = some record → id ∈ issued
  free : r.records.free.Nodup
  /-- A slot is free when it is empty and its current id has not been handed out. -/
  mem_free : ∀ i, i ∈ r.records.free ↔ ∃ slot : Slot Record, r.records.slots[i]? = some slot ∧
    slot.value = none ∧ ⟨i, slot.generation⟩ ∉ issued
  /-- Only an empty slot whose generation has reached its maximum is not free. -/
  retired : ∀ (i : Nat) (slot : Slot Record), r.records.slots[i]? = some slot →
    slot.value = none → i ∉ r.records.free → slot.generation + 1 = slotLimit
  owners : ∀ o id, r.owners.lookup o = some id ↔
    ∃ record, r.records.get id = some record ∧ record.owner = o
  /-- An admission hands out a new id, which resolves to its record until a call ends that. -/
  admitted : ∀ o accesses id r', r.admitRun o accesses = some (.ok id, r') → id ∉ issued ∧
    ∃ record, record.owner = o ∧ record.accesses = (r.components.resolveAll accesses).1 ∧
      record.writer = accesses.any (·.kind == .write) ∧
      ∀ calls s', (numbering schema).run (r', issued ++ [id]) calls = some s' →
        s'.1.records.get id = if calls.any (·.ends id record) then none else some record

theorem admitRun_record {l : Ledger} (hl : r.Represents l) {o : SystemInvocation}
    {accesses : List Access} (ha : r.admitRun o accesses = some (.ok id, r')) :
    ∃ record, r'.records.get id = some record ∧ record.owner = o ∧
      record.accesses = (r.components.resolveAll accesses).1 ∧
        record.writer = accesses.any (·.kind == .write) := by
  obtain ⟨-, -, hresolves⟩ := hl.counted.resolveAll accesses
  unfold Reservations.admitRun at ha
  split_ifs at ha
  · cases ha
  · obtain ⟨found, -, ha⟩ := Option.bind_eq_some_iff.mp ha
    split_ifs at ha
    · cases ha
    · obtain ⟨components, -, ha⟩ := Option.bind_eq_some_iff.mp ha
      obtain ⟨⟨handed, records⟩, hinsert, ha⟩ := Option.bind_eq_some_iff.mp ha
      cases ha
      obtain ⟨-, hget, -⟩ := Arena.insert_spec hl.arena hinsert
      exact ⟨_, (hget id).trans (if_pos rfl), rfl, rfl, any_kind_resolved hresolves⟩

/-- After any calls on a table over any schema, its ids never alias. -/
theorem unaliased_of_reachable (h : (numbering schema).Reachable (r, issued)) :
    r.Unaliased schema issued := by
  have hnumbers : r.Numbers issued := numbers_of_reachable h
  obtain ⟨l, hl⟩ := hnumbers.ledger
  refine ⟨hnumbers.records.distinct, fun id record => hnumbers.records.issued_of_get,
    hnumbers.records.ok.nodup, hnumbers.records.mem_free, hnumbers.records.retired,
    fun o id => ?_, fun o accesses id r' ha => ?_⟩
  · rw [hl.owners]
    constructor
    · rintro ⟨x, hx, rfl⟩
      obtain ⟨record, hget, hstands⟩ := hl.record id x hx
      exact ⟨record, hget, hstands.owner⟩
    · rintro ⟨record, hget, rfl⟩
      obtain ⟨x, hx, hstands⟩ := hl.reservation hget
      exact ⟨x, hx, hstands.owner.symm⟩
  · obtain ⟨hr', -, -⟩ := hnumbers.admitRun ha
    obtain ⟨record, hget, howner, haccesses, hwriter⟩ := admitRun_record hl ha
    refine ⟨?_, record, howner, haccesses, hwriter, fun calls s' hrun => hr'.resolves hrun hget⟩
    exact fun hid => (List.nodup_append.mp hr'.records.distinct).2.2 id hid id
      (List.mem_singleton_self id) rfl

/-- A writer that replaces a cancelled reader gets the slot in its next generation. -/
def recycled : List ReservationCall :=
  [.admitRun ⟨0, [1]⟩ [⟨.read, 5, some 1⟩], .cancelReaders, .admitRun ⟨0, [1]⟩ [⟨.write, 5, some 1⟩]]

theorem recycled_unaliased : ∃ r issued, (numbering none).run (ofSchema none, []) recycled =
    some (r, issued) ∧ issued = [⟨0, 0⟩, ⟨0, 1⟩] ∧ r.Unaliased none issued := by
  have hrun : (numbering none).run (ofSchema none, []) recycled =
      some (((numbering none).run (ofSchema none, []) recycled).getD (ofSchema none, [])) := rfl
  exact ⟨_, _, hrun, by decide, unaliased_of_reachable (Machine.Reachable.run (.init rfl) hrun)⟩

end Reservations
end Porridge
