import Porridge.Spawns.Tables

/-! What the slot table, the buffers and the deferred outputs agree on along an orderly run. -/
namespace Porridge

variable {α : Type} {C : Components α} {settle : SystemId → Bool}

/-- The spawns of a buffer took its slots in order. -/
structure Flight.Booked (C : Components α) (f : Flight α) : Prop where
  kinds : f.kinds.length = f.slots.length
  cursor : f.cursor = (seats C f.commands).length
  taken : ∀ (k : Nat) (seat : Seat) (e : Entity), (seats C f.commands)[k]? = some seat →
    f.slots[k]? = some e → seat.entity = e

section Flights

variable {f : Flight α}

theorem seats_append (commands : List (Command α)) (c : Command α) :
    seats C (commands ++ [c]) = seats C commands ++ (c.seat? C).toList := by
  unfold seats
  rw [List.filterMap_append]
  cases hseat : c.seat? C with
  | none => simp [hseat]
  | some seat => simp [hseat]

theorem seats_push {c : Command α} (hc : c.isSpawn = false) (commands : List (Command α)) :
    seats C (commands ++ [c]) = seats C commands := by
  rw [seats_append]
  cases c with
  | spawn => cases hc
  | _ => simp [Command.seat?]

theorem seats_spawn (commands : List (Command α)) (bundle : List (TypeId × Value α))
    (reserved : Entity) : seats C (commands ++ [.spawn bundle reserved]) =
      seats C commands ++ [⟨reserved, !Command.ordinary C bundle⟩] := by
  rw [seats_append]
  rfl

theorem reserve_cases (f : Flight α) (w : World α) :
    (∃ e, f.slots[f.cursor]? = some e ∧ f.reserve w = (e, w)) ∨
      (f.slots[f.cursor]? = none ∧ f.reserve w = w.spawnEmpty) := by
  unfold Flight.reserve
  cases hslot : f.slots[f.cursor]? with
  | none => exact Or.inr ⟨rfl, rfl⟩
  | some e => exact Or.inl ⟨e, rfl, rfl⟩

/-- A reservation changes nothing of the world but its next id. -/
theorem reserve_world (f : Flight α) (w : World α) :
    ∃ next, (f.reserve w).2 = { w with nextEntity := next } ∧ w.nextEntity ≤ next := by
  rcases reserve_cases f w with ⟨e, -, heq⟩ | ⟨-, heq⟩
  · exact ⟨w.nextEntity, by rw [heq], Nat.le_refl _⟩
  · exact ⟨w.nextEntity + 1, by rw [heq]; rfl, Nat.le_succ _⟩

theorem Flight.Booked.push (h : f.Booked C) {c : Command α} (hc : c.isSpawn = false) :
    (f.push c).Booked C where
  kinds := h.kinds
  cursor := h.cursor.trans (congrArg List.length (seats_push hc f.commands).symm)
  taken k seat e hk := h.taken k seat e (seats_push (C := C) hc f.commands ▸ hk)

theorem Flight.Booked.spawn (h : f.Booked C) (w : World α) (bundle : List (TypeId × Value α)) :
    (f.spawn bundle (f.reserve w).1).Booked C where
  kinds := h.kinds
  cursor := by
    show f.cursor + 1 = (seats C (f.commands ++ [_])).length
    rw [seats_spawn, List.length_append, ← h.cursor]
    rfl
  taken k seat e hk he := by
    change (seats C (f.commands ++ [_]))[k]? = some seat at hk
    rw [seats_spawn] at hk
    rcases Nat.lt_trichotomy k (seats C f.commands).length with hlt | heq | hgt
    · rw [List.getElem?_append_left hlt] at hk
      exact h.taken k seat e hk he
    · rw [heq, List.getElem?_concat_length] at hk
      cases hk
      rcases reserve_cases f w with ⟨e', hslot, hreserve⟩ | ⟨hslot, -⟩
      · change f.slots[k]? = some e at he
        rw [heq, ← h.cursor, hslot] at he
        rw [hreserve]
        exact Option.some.inj he
      · change f.slots[k]? = some e at he
        rw [heq, ← h.cursor, hslot] at he
        cases he
    · rw [List.getElem?_eq_none (by simpa using Nat.succ_le_of_lt hgt)] at hk
      cases hk

end Flights

namespace Spawns

variable {s s' : Spawns α} {i : Nat} {f : Flight α} {o : SystemInvocation}

structure Booked (C : Components α) (settle : SystemId → Bool) (s : Spawns α) : Prop where
  kinds : Kinded s.world s.kinds
  alone : (s.flights.map Flight.owner).Nodup
  copies : ∀ f ∈ s.flights, f.Booked C
  once : s.waiting.Pairwise (Once C)
  busy : ∀ f ∈ s.flights, ∀ output ∈ s.waiting, output.owner = f.owner →
    seats C f.commands = [] ∨ seats C output.commands = []
  settling : ∀ output ∈ s.waiting, settle output.owner.system = true
  cursors : ∀ o, settle o.system = false ∨ (∃ output ∈ s.waiting, output.owner = o) →
    s.world.cursor o = 0
  anchored : s.world.Anchored C

/-- The other buffers in flight are of other invocations. -/
theorem owner_ne_of_eraseIdx (h : (s.flights.map Flight.owner).Nodup) (hi : s.flights[i]? = some f)
    {g : Flight α} (hg : g ∈ s.flights.eraseIdx i) : g.owner ≠ f.owner := by
  obtain ⟨j, hne, hj⟩ := List.mem_eraseIdx_iff_getElem?.mp hg
  intro heq
  have howner : (s.flights.map Flight.owner)[j]? = (s.flights.map Flight.owner)[i]? := by
    rw [List.getElem?_map, List.getElem?_map, hi, hj]
    exact congrArg some heq
  have hbound : j < (s.flights.map Flight.owner).length := by
    rw [List.length_map]
    exact (List.getElem?_eq_some_iff.mp hj).1
  exact hne ((List.getElem?_inj hbound h).mp howner)

theorem map_owner_set (hi : s.flights[i]? = some f) {f' : Flight α} (ho : f'.owner = f.owner) :
    (s.flights.set i f').map Flight.owner = s.flights.map Flight.owner := by
  refine List.ext_getElem? fun j => ?_
  rw [List.getElem?_map, List.getElem?_map, List.getElem?_set]
  split_ifs with hij hbound
  · rw [← hij, hi]
    exact congrArg some ho
  · exact absurd (List.getElem?_eq_some_iff.mp hi).1 hbound
  · rfl

section Steps

variable {settle : SystemId → Bool}

theorem Booked.new (h : s.Booked C settle) (hnew : ∀ f ∈ s.flights, f.owner ≠ o) :
    Booked C settle { s with flights := s.flights ++ [⟨o, s.world.slots o, s.kinds o, 0, []⟩] } where
  kinds := h.kinds
  alone := by
    rw [List.map_append]
    refine List.Nodup.append h.alone (List.nodup_singleton o) fun owner hmem hown => ?_
    obtain ⟨f, hf, rfl⟩ := List.mem_map.mp hmem
    exact hnew f hf (List.mem_singleton.mp hown)
  copies f hf := by
    rcases List.mem_append.mp hf with hf | hf
    · exact h.copies f hf
    · rw [List.mem_singleton.mp hf]
      exact ⟨h.kinds o, rfl, fun k seat e hk => by cases hk⟩
  once := h.once
  busy f hf output hw hown := by
    rcases List.mem_append.mp hf with hf | hf
    · exact h.busy f hf output hw hown
    · rw [List.mem_singleton.mp hf]
      exact Or.inl rfl
  settling := h.settling
  cursors := h.cursors
  anchored := h.anchored

/-- A buffer in flight is replaced by one of the same invocation. -/
theorem Booked.set (h : s.Booked C settle) (hi : s.flights[i]? = some f) {f' : Flight α}
    (ho : f'.owner = f.owner) (hf' : f'.Booked C)
    (hbusy : ∀ output ∈ s.waiting, output.owner = f.owner →
      seats C f'.commands = [] ∨ seats C output.commands = []) (next : Entity) :
    Booked C settle { s with
      world := { s.world with nextEntity := next }
      flights := s.flights.set i f' } where
  kinds := h.kinds
  alone := by
    show ((s.flights.set i f').map Flight.owner).Nodup
    rw [map_owner_set hi ho]
    exact h.alone
  copies g hg := by
    rcases List.mem_or_eq_of_mem_set hg with hg | rfl
    · exact h.copies g hg
    · exact hf'
  once := h.once
  busy g hg output hw hown := by
    rcases List.mem_or_eq_of_mem_set hg with hg | rfl
    · exact h.busy g hg output hw hown
    · exact hbusy output hw (hown.trans ho)
  settling := h.settling
  cursors := h.cursors
  anchored := h.anchored

theorem Booked.discard (h : s.Booked C settle) (i : Nat) :
    Booked C settle { s with flights := s.flights.eraseIdx i } where
  kinds := h.kinds
  alone := by
    show ((s.flights.eraseIdx i).map Flight.owner).Nodup
    exact h.alone.sublist ((List.eraseIdx_sublist _ i).map _)
  copies g hg := h.copies g (List.mem_of_mem_eraseIdx hg)
  once := h.once
  busy g hg := h.busy g (List.mem_of_mem_eraseIdx hg)
  settling := h.settling
  cursors := h.cursors
  anchored := h.anchored

/-- A deferred output takes the seats of the buffer it is from. -/
theorem seats_deferredOutput {output : SystemOutput α} (f : Flight α)
    (h : World.deferredOutput f.output = some output) :
    output.owner = f.owner ∧ seats C output.commands = seats C f.commands := by
  obtain ⟨howner, hcommands⟩ := owner_deferredOutput h
  exact ⟨howner, hcommands ▸ seats_deferred C f.commands⟩

theorem Booked.committed (h : s.Booked C settle) (hi : s.flights[i]? = some f) {w : World α}
    {kinds : SystemInvocation → List Bool} {added : List (SystemOutput α)}
    (hkinds : Kinded w kinds)
    (hcursor : ∀ o, w.cursor o = if o = f.owner then 0 else s.world.cursor o)
    (hanchored : w.Anchored C) (hone : added.Pairwise (Once C))
    (hadded : ∀ output ∈ added, settle f.owner.system = true ∧ output.owner = f.owner ∧
      seats C output.commands = seats C f.commands) (last : SystemInvocation → List Seat) :
    Booked C settle ⟨w, s.flights.eraseIdx i, s.waiting ++ added, kinds, last⟩ where
  kinds := hkinds
  alone := (h.discard i).alone
  copies := (h.discard i).copies
  once := by
    refine List.pairwise_append.mpr ⟨h.once, hone, fun a ha b hb hown => ?_⟩
    obtain ⟨-, howner, hseats⟩ := hadded b hb
    rw [hseats]
    exact (h.busy f (List.mem_of_getElem? hi) a ha (hown.trans howner)).symm
  busy g hg output hw hown := by
    rcases List.mem_append.mp hw with hw | hw
    · exact (h.discard i).busy g hg output hw hown
    · exact absurd (hown.symm.trans (hadded output hw).2.1) (owner_ne_of_eraseIdx h.alone hi hg)
  settling output hw := by
    rcases List.mem_append.mp hw with hw | hw
    · exact h.settling output hw
    · rw [(hadded output hw).2.1]
      exact (hadded output hw).1
  cursors o ho := by
    show w.cursor o = 0
    rw [hcursor]
    split_ifs with hown
    · rfl
    · refine h.cursors o (ho.imp_right fun hw => ?_)
      obtain ⟨output, hmem, rfl⟩ := hw
      rcases List.mem_append.mp hmem with hmem | hmem
      · exact ⟨output, hmem, rfl⟩
      · exact absurd (hadded output hmem).2.1 hown
  anchored := hanchored

/-- What the deferred outputs leave, for the entities that may be registered. -/
theorem Booked.started (h : s.Booked C settle) (named : Entity → Prop)
    (hregistry : ∀ key e, s.world.registry key = some e → named e)
    (hclaims : ∀ output ∈ s.waiting, ∀ c ∈ output.commands, ∀ e ∈ c.claims C, named e)
    {w : World α} (hw : s.waiting.foldlM (land C) s.world = some w) :
    Started C named s.waiting s.kinds s.world w :=
  started_start h.kinds
    (fun output hmem => (h.cursors output.owner (Or.inr ⟨output, hmem, rfl⟩)).symm ▸ Nat.zero_le _)
    (fun output hmem _ => h.cursors output.owner (Or.inr ⟨output, hmem, rfl⟩)) h.once hregistry
    hclaims hw

theorem Booked.commit (h : s.Booked C settle) (hi : s.flights[i]? = some f)
    (hs : s.commit C settle i f = some s') : s'.Booked C settle := by
  obtain ⟨w, hw, rfl⟩ := Option.map_eq_some_iff.mp hs
  have hcursor : ∀ o, w.cursor o = if o = f.owner then 0 else s.world.cursor o :=
    fun o => World.cursor_applyOutput hw
  cases hsettle : settle f.owner.system with
  | false =>
    rw [hsettle] at hw
    obtain ⟨⟨es, hfits, hslots⟩, hothers, hsteady, -⟩ :=
      World.seated_applyOutput (fun _ => True) (fun _ _ _ => trivial)
        (fun _ _ _ _ => trivial) h.anchored (h.cursors f.owner (Or.inl hsettle)) hw
    refine h.committed hi (kinded_trim fun o => ?_) hcursor (hsteady.anchored h.anchored)
      (List.Pairwise.nil) (fun output hmem => ?_) _
    · show (w.slots o).length ≤ (record C s.kinds f.output o).length
      by_cases hown : o = f.output.owner
      · rw [hown, hslots, record_self, List.length_append, List.length_map, hfits.length_eq]
        exact Nat.le_add_right _ _
      · rw [hothers o hown, record_ne hown]
        exact (h.kinds o).ge
    · cases hmem
  | true =>
    rw [hsettle] at hw
    obtain ⟨hslots, hsteady, -⟩ := World.slots_deferring h.anchored hw
    refine h.committed hi (kinded_trim fun o => ?_) hcursor (hsteady.anchored h.anchored) ?_
      (fun output hmem => ?_) _
    · show (w.slots o).length ≤ (s.kinds o).length
      rw [hslots, h.kinds]
      split_ifs
      · exact List.length_take_le' ..
      · exact Nat.le_refl _
    · show (World.deferredOutput f.output).toList.Pairwise (Once C)
      cases World.deferredOutput f.output with
      | none => exact .nil
      | some output => exact List.pairwise_singleton ..
    · obtain ⟨howner, hseats⟩ := seats_deferredOutput (C := C) f (Option.mem_toList.mp hmem)
      exact ⟨hsettle, howner, hseats⟩

theorem Booked.start (h : s.Booked C settle) (hs : s.start C = some s') : s'.Booked C settle := by
  obtain ⟨w, hw, rfl⟩ := Option.map_eq_some_iff.mp hs
  have hstarted := h.started (fun _ => True) (fun _ _ _ => trivial)
    (fun _ _ _ _ _ _ => trivial) hw
  have hcursors : ∀ o, settle o.system = false → w.cursor o = 0 := by
    intro o hplain
    rw [hstarted.others o fun output hmem hown => ?_]
    · exact h.cursors o (Or.inl hplain)
    · rw [← hown, h.settling output hmem] at hplain
      cases hplain
  exact
    { kinds := hstarted.kinded
      alone := List.nodup_nil
      copies := fun f hf => by cases hf
      once := List.Pairwise.nil
      busy := fun f hf => by cases hf
      settling := fun output hmem => by cases hmem
      cursors := fun o ho => by
        rcases ho with hplain | ⟨output, hmem, -⟩
        · exact hcursors o hplain
        · cases hmem
      anchored := hstarted.steady.anchored h.anchored }

theorem Booked.use (h : s.Booked C settle) {op : WorldOp α} (hs : s.use C op = some s') :
    s'.Booked C settle := by
  unfold Spawns.use at hs
  split_ifs at hs with hd
  obtain ⟨w, hw, rfl⟩ := Option.map_eq_some_iff.mp hs
  have htrims := World.trims_apply hd hw
  refine ⟨kinded_trim fun o => ?_, h.alone, h.copies, h.once, h.busy, h.settling, fun o ho => ?_,
    htrims.anchored h.anchored⟩
  · rw [htrims.slots, h.kinds]
    split_ifs
    · exact Nat.zero_le _
    · exact Nat.le_refl _
  · show w.cursor o = 0
    rw [htrims.cursor]
    exact h.cursors o ho

end Steps

end Spawns
end Porridge
