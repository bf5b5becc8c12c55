import Porridge.Spawns.Books

/-! Every step keeps the seats at their homes and bars what it registers from ordinary spawns. -/
namespace Porridge

variable {α : Type} {C : Components α} {settle : SystemId → Bool}

theorem mem_keys_of_slots {w : World α} {o : SystemInvocation} {k : Nat} {e : Entity}
    (h : (w.slots o)[k]? = some e) : o ∈ w.derivedSpawns.keys := by
  by_contra hnone
  have hlookup : w.derivedSpawns.lookup o = none :=
    AList.lookup_eq_none.mpr fun hmem => hnone (AList.mem_keys.mp hmem)
  rw [World.slots, Dict.getD, hlookup] at h
  cases h

namespace Spawns

variable {s s' : Spawns α} {home : Home} {i : Nat} {f : Flight α} {o : SystemInvocation} {k : Nat}
  {e : Entity}

theorem mem_buffers {commands : List (Command α)} : commands ∈ s.buffers ↔
    (∃ f ∈ s.flights, f.commands = commands) ∨ ∃ output ∈ s.waiting, output.commands = commands := by
  simp [buffers]

theorem mem_inPlay (h : s.Sits C o k ⟨e, false⟩) : e ∈ s.inPlay C := by
  refine List.mem_filterMap.mpr ⟨⟨e, false⟩, ?_, rfl⟩
  rw [List.mem_append, List.mem_append, List.mem_flatMap, List.mem_flatMap, List.mem_flatMap]
  cases h with
  | slot hk =>
    obtain ⟨e', kind, he, -, -⟩ := List.getElem?_zipWith_eq_some.mp hk
    exact Or.inl (Or.inl ⟨o, mem_keys_of_slots he, List.mem_of_getElem? hk⟩)
  | copy hf _ hk =>
    exact Or.inl (Or.inr ⟨_, hf, List.mem_append_left _ (List.mem_of_getElem? hk)⟩)
  | reserved hf _ hk =>
    exact Or.inl (Or.inr ⟨_, hf, List.mem_append_right _ (List.mem_of_getElem? hk)⟩)
  | waiting hw _ hk => exact Or.inr ⟨_, hw, List.mem_of_getElem? hk⟩

section Buffers

theorem Housed.new (h : s.Housed C home) (o : SystemInvocation) :
    Housed C home { s with
      flights := s.flights ++ [⟨o, s.world.slots o, s.kinds o, 0, []⟩] } := by
  refine h.grow (Nat.le_refl _) (fun _ _ => rfl) (fun o' k seat hs => Or.inl ?_)
    (fun _ _ => Or.inl) fun commands hmem t e v hc _ => ?_
  · cases hs with
    | slot hk => exact .slot hk
    | copy hf ho hk =>
      rcases List.mem_append.mp hf with hf | hf
      · exact .copy hf ho hk
      · rw [List.mem_singleton.mp hf] at ho hk
        cases ho
        exact .slot hk
    | reserved hf ho hk =>
      rcases List.mem_append.mp hf with hf | hf
      · exact .reserved hf ho hk
      · rw [List.mem_singleton.mp hf] at hk
        cases hk
    | waiting hw ho hk => exact .waiting hw ho hk
  · refine ⟨commands, mem_buffers.mpr ?_, hc⟩
    refine (mem_buffers.mp hmem).imp_left fun hflight => ?_
    obtain ⟨g, hg, rfl⟩ := hflight
    rcases List.mem_append.mp hg with hg | hg
    · exact ⟨g, hg, rfl⟩
    · rw [List.mem_singleton.mp hg] at hc
      cases hc

theorem Housed.discard (h : s.Housed C home) (i : Nat) :
    Housed C home { s with flights := s.flights.eraseIdx i } := by
  refine h.grow (Nat.le_refl _) (fun _ _ => rfl) (fun o' k seat hs => Or.inl ?_)
    (fun _ _ => Or.inl) fun commands hmem t e v hc _ => ?_
  · cases hs with
    | slot hk => exact .slot hk
    | copy hf ho hk => exact .copy (List.mem_of_mem_eraseIdx hf) ho hk
    | reserved hf ho hk => exact .reserved (List.mem_of_mem_eraseIdx hf) ho hk
    | waiting hw ho hk => exact .waiting hw ho hk
  · refine ⟨commands, mem_buffers.mpr ?_, hc⟩
    refine (mem_buffers.mp hmem).imp_left fun hflight => ?_
    obtain ⟨g, hg, heq⟩ := hflight
    exact ⟨g, List.mem_of_mem_eraseIdx hg, heq⟩

/-- A spawn is reserved a seated entity. -/
theorem Housed.reserve {home' : Home} {next : Entity} (h : s.Housed C home)
    (hi : s.flights[i]? = some f) (hf : f.Booked C) (hn : s.world.nextEntity ≤ next)
    (hkept : ∀ e, e < s.world.nextEntity → home' e = home e) (bundle : List (TypeId × Value α))
    (hnew : Seat.Seated ⟨e, !Command.ordinary C bundle⟩ home' next f.owner f.cursor) :
    Housed C home' { s with
      world := { s.world with nextEntity := next }
      flights := s.flights.set i (f.spawn bundle e) } := by
  have hmem := List.mem_of_getElem? hi
  refine h.grow hn hkept (fun o' k seat hs => ?_) (fun _ _ => Or.inl) fun commands hcommands t e' v hc _ => ?_
  · cases hs with
    | slot hk => exact Or.inl (.slot hk)
    | copy hg ho hk =>
      rcases List.mem_or_eq_of_mem_set hg with hg | rfl
      · exact Or.inl (.copy hg ho hk)
      · exact Or.inl (.copy hmem ho hk)
    | reserved hg ho hk =>
      rcases List.mem_or_eq_of_mem_set hg with hg | rfl
      · exact Or.inl (.reserved hg ho hk)
      · change (seats C (f.commands ++ [.spawn bundle e]))[k]? = some seat at hk
        rw [seats_spawn, List.getElem?_append] at hk
        split_ifs at hk with hlt
        · exact Or.inl (.reserved hmem ho hk)
        · have hlast := List.getElem?_eq_some_iff.mp hk
          obtain ⟨hbound, hseat⟩ := hlast
          have hk0 : k = (seats C f.commands).length := by
            rw [List.length_singleton] at hbound
            omega
          right
          rw [← hseat, List.getElem_singleton, hk0, ← hf.cursor, ← ho]
          exact hnew
    | waiting hw ho hk => exact Or.inl (.waiting hw ho hk)
  · rcases mem_buffers.mp hcommands with ⟨g, hg, rfl⟩ | hwaiting
    · rcases List.mem_or_eq_of_mem_set hg with hg | rfl
      · exact ⟨g.commands, mem_buffers.mpr (Or.inl ⟨g, hg, rfl⟩), hc⟩
      · refine ⟨f.commands, mem_buffers.mpr (Or.inl ⟨f, hmem, rfl⟩), ?_⟩
        have hc' : Command.insert t e' v ∈ f.commands ++ [.spawn bundle e] := hc
        simpa using hc'
    · exact ⟨commands, mem_buffers.mpr (Or.inr hwaiting), hc⟩

theorem Housed.spawn (h : s.Housed C home) (hi : s.flights[i]? = some f) (hf : f.Booked C)
    {bundle : List (TypeId × Value α)}
    (hkind : Command.ordinary C bundle = true → f.kinds[f.cursor]? ≠ some true) :
    ∃ home', Housed C home' { s with
      world := (f.reserve s.world).2
      flights := s.flights.set i (f.spawn bundle (f.reserve s.world).1) } := by
  rcases reserve_cases f s.world with ⟨e, hslot, hreserve⟩ | ⟨-, hreserve⟩
  · rw [hreserve]
    -- the slot it takes was copied with the kind of the spawn that filled it
    have hbound : f.cursor < f.kinds.length := by
      rw [hf.kinds]
      exact (List.getElem?_eq_some_iff.mp hslot).1
    have hcopy : s.Sits C f.owner f.cursor ⟨e, f.kinds[f.cursor]⟩ :=
      .copy (List.mem_of_getElem? hi) rfl (List.getElem?_zipWith_eq_some.mpr
        ⟨e, _, hslot, List.getElem?_eq_getElem hbound, rfl⟩)
    have hseated := h.seated _ _ _ hcopy
    refine ⟨home, h.reserve hi hf (Nat.le_refl _) (fun _ _ => rfl) bundle ⟨hseated.known, ?_⟩⟩
    cases hordinary : Command.ordinary C bundle with
    | true =>
      have hplain : f.kinds[f.cursor] = false := by
        have hne := hkind hordinary
        rw [List.getElem?_eq_getElem hbound] at hne
        exact Bool.eq_false_iff.mpr fun heq => hne (congrArg some heq)
      exact Or.inl (hseated.ordinary hplain)
    | false => exact hseated.home.imp_right fun hnone => ⟨rfl, hnone.2⟩
  · rw [hreserve]
    refine ⟨Function.update home s.world.nextEntity (some (f.owner, f.cursor)),
      h.reserve hi hf (Nat.le_succ _) (fun e he => ?_) bundle ⟨Nat.lt_succ_self _, Or.inl ?_⟩⟩
    · exact Function.update_of_ne (Nat.ne_of_lt he) _ _
    · exact Function.update_self _ _ _

/-- Only a known entity that no ordinary spawn holds is marked by hand. -/
theorem Housed.push (h : s.Housed C home) (hi : s.flights[i]? = some f) {c : Command α}
    (hc : c.isSpawn = false)
    (hmark : ∀ t e v, c = .insert t e v → C.singletonKey t ≠ none →
      e < s.world.nextEntity ∧ e ∉ s.inPlay C) :
    ∃ home', Housed C home' { s with flights := s.flights.set i (f.push c) } := by
  have hmem := List.mem_of_getElem? hi
  let named : Entity → Prop := fun e =>
    (∃ key, s.world.registry key = some e) ∨ ∃ t v, c = .insert t e v ∧ C.singletonKey t ≠ none
  have hsits : ∀ {o k seat}, Sits C { s with flights := s.flights.set i (f.push c) } o k seat →
      s.Sits C o k seat := by
    intro o k seat hs
    cases hs with
    | slot hk => exact .slot hk
    | copy hg ho hk =>
      rcases List.mem_or_eq_of_mem_set hg with hg | rfl
      · exact .copy hg ho hk
      · exact .copy hmem ho hk
    | reserved hg ho hk =>
      rcases List.mem_or_eq_of_mem_set hg with hg | rfl
      · exact .reserved hg ho hk
      · exact .reserved hmem ho (seats_push (C := C) hc f.commands ▸ hk)
    | waiting hw ho hk => exact .waiting hw ho hk
  refine ⟨home.bar named, h.turn rfl (fun e he => ?_) (fun o k seat hs => Or.inl ⟨hsits hs, ?_⟩)
    (fun key e hkey => Or.inl ⟨key, hkey⟩) fun commands hcommands t e v hin ht => ?_⟩
  · rcases he with ⟨key, hkey⟩ | ⟨t, v, hinsert, ht⟩
    · exact (h.barred key e hkey).known
    · exact (hmark t e v hinsert ht).1
  · intro hplain hnamed
    obtain ⟨e, singleton⟩ := seat
    cases hplain
    rcases hnamed with ⟨key, hkey⟩ | ⟨t, v, hinsert, ht⟩
    · exact h.unregistered (hsits hs) key hkey
    · exact (hmark t e v hinsert ht).2 (mem_inPlay (hsits hs))
  · rcases mem_buffers.mp hcommands with ⟨g, hg, rfl⟩ | hwaiting
    · rcases List.mem_or_eq_of_mem_set hg with hg | rfl
      · exact Or.inr ⟨g.commands, mem_buffers.mpr (Or.inl ⟨g, hg, rfl⟩), hin⟩
      · have hin' : Command.insert t e v ∈ f.commands ++ [c] := hin
        rcases List.mem_append.mp hin' with hin' | hin'
        · exact Or.inr ⟨f.commands, mem_buffers.mpr (Or.inl ⟨f, hmem, rfl⟩), hin'⟩
        · exact Or.inl (Or.inr ⟨t, v, (List.mem_singleton.mp hin').symm, ht⟩)
    · exact Or.inr ⟨commands, mem_buffers.mpr (Or.inr hwaiting), hin⟩

end Buffers

section Commits

def Named (C : Components α) (s : Spawns α) (commands : List (Command α)) (e : Entity) : Prop :=
  (∃ key, s.world.registry key = some e) ∨ ∃ c ∈ commands, e ∈ c.claims C

variable {commands : List (Command α)}

theorem Housed.named_known (h : s.Housed C home) (hmem : commands ∈ s.buffers)
    (hsits : ∀ k seat, (seats C commands)[k]? = some seat → s.Sits C o k seat)
    (he : Named C s commands e) : e < s.world.nextEntity := by
  rcases he with ⟨key, hkey⟩ | ⟨c, hc, he⟩
  · exact (h.barred key e hkey).known
  · rcases h.known_claims hmem hsits hc he with hbars | ⟨_, _, hseated⟩
    · exact hbars.known
    · exact hseated.known

/-- An ordinary spawn holds a named entity only at a singleton's seat of the buffer. -/
theorem Housed.of_named (h : s.Housed C home) {owner : SystemInvocation}
    (hs : s.Sits C o k ⟨e, false⟩) (hmem : commands ∈ s.buffers)
    (hsits : ∀ k seat, (seats C commands)[k]? = some seat → s.Sits C owner k seat)
    (he : Named C s commands e) : o = owner ∧ (seats C commands)[k]? = some ⟨e, true⟩ := by
  rcases he with ⟨key, hkey⟩ | ⟨c, hc, he⟩
  · exact absurd hkey (h.unregistered hs key)
  · exact h.claimed hs hmem hsits hc he

theorem Housed.commitPlain (h : s.Housed C home) (hb : s.Booked C settle)
    (hi : s.flights[i]? = some f) (hplain : settle f.owner.system = false) {w : World α}
    (hw : s.world.applyOutput C f.output false = some w) (last : SystemInvocation → List Seat) :
    Housed C (home.bar (Named C s f.commands)) ⟨w, s.flights.eraseIdx i, s.waiting,
      trim (record C s.kinds f.output) w, last⟩ := by
  have hmem := List.mem_of_getElem? hi
  have hbuffer : f.commands ∈ s.buffers := mem_buffers.mpr (Or.inl ⟨f, hmem, rfl⟩)
  have hsits : ∀ k seat, (seats C f.commands)[k]? = some seat → s.Sits C f.owner k seat :=
    fun k seat hk => .reserved hmem rfl hk
  obtain ⟨⟨es, hfits, hslots⟩, hothers, hsteady, hnamed⟩ :=
    World.seated_applyOutput (Named C s f.commands) (fun key e hkey => Or.inl ⟨key, hkey⟩)
      (fun c hc e he => Or.inr ⟨c, hc, he⟩) hb.anchored (hb.cursors f.owner (Or.inl hplain)) hw
  -- a seat of another invocation is as it was, and not named
  have hother : ∀ {o k seat}, o ≠ f.owner → s.Sits C o k seat →
      s.Sits C o k seat ∧ (seat.singleton = false → ¬ Named C s f.commands seat.entity) := by
    intro o k seat hne hs
    refine ⟨hs, fun hkind he => hne ?_⟩
    obtain ⟨e, singleton⟩ := seat
    cases hkind
    exact (h.of_named hs hbuffer hsits he).1
  refine h.turn hsteady.next (fun e he => h.named_known hbuffer hsits he) (fun o k seat hs => ?_)
    hnamed fun commands hcommands t e v hc _ => Or.inr ⟨commands, ?_, hc⟩
  · cases hs with
    | slot hk =>
      by_cases hown : o = f.owner
      · change (seatTable w (trim (record C s.kinds f.output) w) o)[k]? = some seat at hk
        have htable := seatTable_recorded (C := C) s.kinds hfits.length_eq hslots
        rw [hown] at hk
        change (seatTable w _ f.output.owner)[k]? = some seat at hk
        rw [htable] at hk
        obtain ⟨taken, htaken, hfilled⟩ := Seat.Filled.getElem? (filled_of_fits hfits) hk
        cases hkind : seat.singleton with
        | true => exact Or.inr ⟨rfl, hfilled.singleton hkind⟩
        | false =>
          have heq : seat = taken := hfilled.ordinary (hfilled.kind.symm.trans hkind)
          rw [← heq] at htaken
          have hsit : s.Sits C o k seat := hown ▸ hsits k seat htaken
          refine Or.inl ⟨hsit, fun _ he => ?_⟩
          obtain ⟨e, singleton⟩ := seat
          cases hkind
          have hclash : some (⟨e, false⟩ : Seat) = some ⟨e, true⟩ :=
            htaken.symm.trans (h.of_named hsit hbuffer hsits he).2
          cases hclash
      · refine Or.inl (hother hown (.slot ?_))
        have hkept := seatTable_trim (w := s.world) (fun k e he => hothers o hown ▸ he) hk
        unfold seatTable at hkept ⊢
        rw [record_ne hown] at hkept
        exact hkept
    | copy hg ho hk =>
      exact Or.inl (hother (ho ▸ owner_ne_of_eraseIdx hb.alone hi hg)
        (.copy (List.mem_of_mem_eraseIdx hg) ho hk))
    | reserved hg ho hk =>
      exact Or.inl (hother (ho ▸ owner_ne_of_eraseIdx hb.alone hi hg)
        (.reserved (List.mem_of_mem_eraseIdx hg) ho hk))
    | waiting hout ho hk =>
      refine Or.inl (hother (fun hown => ?_) (.waiting hout ho hk))
      have hsettles := hb.settling _ hout
      rw [ho, hown, hplain] at hsettles
      cases hsettles
  · refine mem_buffers.mpr ((mem_buffers.mp hcommands).imp_left fun hflight => ?_)
    obtain ⟨g, hg, heq⟩ := hflight
    exact ⟨g, List.mem_of_mem_eraseIdx hg, heq⟩

theorem Housed.commitSettle (h : s.Housed C home) (hb : s.Booked C settle)
    (hi : s.flights[i]? = some f) {w : World α}
    (hw : s.world.applyOutput C f.output true = some w) (last : SystemInvocation → List Seat) :
    Housed C home ⟨w, s.flights.eraseIdx i,
      s.waiting ++ (World.deferredOutput f.output).toList, trim s.kinds w, last⟩ := by
  have hmem := List.mem_of_getElem? hi
  obtain ⟨hslots, hsteady, hregistry⟩ := World.slots_deferring hb.anchored hw
  refine h.grow hsteady.next.ge (fun _ _ => rfl) (fun o k seat hs => Or.inl ?_)
    (fun key e hkey => Or.inl (hregistry key e hkey)) fun commands hcommands t e v hc _ => ?_
  · cases hs with
    | slot hk =>
      refine .slot (seatTable_trim (fun k e he => ?_) hk)
      rw [hslots] at he
      split_ifs at he
      · rw [List.getElem?_take] at he
        split_ifs at he
        exact he
      · exact he
    | copy hg ho hk => exact .copy (List.mem_of_mem_eraseIdx hg) ho hk
    | reserved hg ho hk => exact .reserved (List.mem_of_mem_eraseIdx hg) ho hk
    | waiting hout ho hk =>
      rcases List.mem_append.mp hout with hout | hout
      · exact .waiting hout ho hk
      · obtain ⟨howner, hseats⟩ := seats_deferredOutput (C := C) f (Option.mem_toList.mp hout)
        exact .reserved hmem (howner.symm.trans ho) (hseats ▸ hk)
  · rcases mem_buffers.mp hcommands with ⟨g, hg, rfl⟩ | ⟨output, hout, rfl⟩
    · exact ⟨g.commands, mem_buffers.mpr (Or.inl ⟨g, List.mem_of_mem_eraseIdx hg, rfl⟩), hc⟩
    · rcases List.mem_append.mp hout with hout | hout
      · exact ⟨output.commands, mem_buffers.mpr (Or.inr ⟨output, hout, rfl⟩), hc⟩
      · refine ⟨f.commands, mem_buffers.mpr (Or.inl ⟨f, hmem, rfl⟩), ?_⟩
        rw [(owner_deferredOutput (Option.mem_toList.mp hout)).2] at hc
        exact (List.mem_filter.mp hc).1

theorem Housed.commit (h : s.Housed C home) (hb : s.Booked C settle) (hi : s.flights[i]? = some f)
    (hs : s.commit C settle i f = some s') : ∃ home', s'.Housed C home' := by
  obtain ⟨w, hw, rfl⟩ := Option.map_eq_some_iff.mp hs
  cases hsettle : settle f.owner.system with
  | false =>
    rw [hsettle] at hw
    refine ⟨home.bar (Named C s f.commands), ?_⟩
    have hhoused := h.commitPlain hb hi hsettle hw (Function.update s.last f.owner (seats C f.commands))
    simpa using hhoused
  | true =>
    rw [hsettle] at hw
    exact ⟨home, h.commitSettle hb hi hw _⟩

/-- Two deferred outputs of one invocation with spawns are one. -/
theorem Booked.once_eq (hb : s.Booked C settle) {a b : SystemOutput α} (ha : a ∈ s.waiting)
    (hmem : b ∈ s.waiting) (hown : a.owner = b.owner) (hsome : seats C a.commands ≠ [])
    (hsome' : seats C b.commands ≠ []) : a = b := by
  by_contra hne
  have hsymm : Std.Symm (Once (α := α) C) := ⟨fun x y hxy heq => (hxy heq.symm).symm⟩
  rcases hb.once.forall ha hmem hne hown with hnone | hnone
  · exact hsome hnone
  · exact hsome' hnone

/-- The entities that the deferred outputs may register beside the registered ones. -/
def NamedAtStart (C : Components α) (s : Spawns α) (e : Entity) : Prop :=
  (∃ key, s.world.registry key = some e) ∨
    ∃ output ∈ s.waiting, ∃ c ∈ output.commands, e ∈ c.claims C

theorem Housed.of_namedAtStart (h : s.Housed C home) (hs : s.Sits C o k ⟨e, false⟩)
    (he : NamedAtStart C s e) : ∃ output ∈ s.waiting, output.owner = o ∧
      (seats C output.commands)[k]? = some ⟨e, true⟩ := by
  rcases he with ⟨key, hkey⟩ | ⟨output, hout, c, hc, he⟩
  · exact absurd hkey (h.unregistered hs key)
  · obtain ⟨hown, hk⟩ := h.claimed hs (mem_buffers.mpr (Or.inr ⟨output, hout, rfl⟩))
      (fun k seat hk => .waiting hout rfl hk) hc he
    exact ⟨output, hout, hown.symm, hk⟩

theorem Housed.start (h : s.Housed C home) (hb : s.Booked C settle) (hs : s.start C = some s') :
    ∃ home', s'.Housed C home' := by
  obtain ⟨w, hw, rfl⟩ := Option.map_eq_some_iff.mp hs
  have hstarted := hb.started (NamedAtStart C s) (fun key e hkey => Or.inl ⟨key, hkey⟩)
    (fun output hout c hc e he => Or.inr ⟨output, hout, c, hc, he⟩) hw
  refine ⟨home.bar (NamedAtStart C s), h.turn hstarted.steady.next (fun e he => ?_)
    (fun o k seat hs => ?_) hstarted.registry fun commands hcommands t e v hc _ => ?_⟩
  · rcases he with ⟨key, hkey⟩ | ⟨output, hout, c, hc, he⟩
    · exact (h.barred key e hkey).known
    · exact h.named_known (mem_buffers.mpr (Or.inr ⟨output, hout, rfl⟩))
        (fun k seat hk => .waiting hout rfl hk) (Or.inr ⟨c, hc, he⟩)
  · cases hs with
    | copy hf => cases hf
    | reserved hf => cases hf
    | waiting hout => cases hout
    | slot hk =>
      rcases hstarted.table o with ⟨htable, hnone⟩ | ⟨output, hout, hown, hsome, filled, hfilled, htable⟩
      · -- no deferred spawn of the owner
        have hsit : s.Sits C o k seat := .slot (htable ▸ hk)
        refine Or.inl ⟨hsit, fun hkind he => ?_⟩
        obtain ⟨e, singleton⟩ := seat
        cases hkind
        obtain ⟨output, hout, hown, hseat⟩ := h.of_namedAtStart hsit he
        rw [hnone output hout hown] at hseat
        cases hseat
      · -- a named entity at this index is a singleton's seat of the same output
        have hclash : ∀ {e}, s.Sits C o k ⟨e, false⟩ → NamedAtStart C s e →
            (seats C output.commands)[k]? = some ⟨e, true⟩ := by
          intro e hsit he
          obtain ⟨other, hother, hother_own, hseat⟩ := h.of_namedAtStart hsit he
          have hsame : output = other := hb.once_eq hout hother (hown.trans hother_own.symm) hsome
            fun hnil => by rw [hnil] at hseat; cases hseat
          rw [hsame]
          exact hseat
        change (seatTable w (s.waiting.foldl (record C) s.kinds) o)[k]? = some seat at hk
        rw [htable, List.getElem?_append] at hk
        split_ifs at hk with hlt
        · obtain ⟨taken, htaken, hfill⟩ := Seat.Filled.getElem? hfilled hk
          cases hkind : seat.singleton with
          | true => exact Or.inr ⟨rfl, hfill.singleton hkind⟩
          | false =>
            rw [← hfill.ordinary (hfill.kind.symm.trans hkind)] at htaken
            have hsit : s.Sits C o k seat := .waiting hout hown htaken
            refine Or.inl ⟨hsit, fun _ he => ?_⟩
            obtain ⟨e, singleton⟩ := seat
            cases hkind
            cases htaken.symm.trans (hclash hsit he)
        · rw [List.getElem?_drop, Nat.add_sub_cancel' (Nat.le_of_not_lt hlt)] at hk
          refine Or.inl ⟨.slot hk, fun hkind he => ?_⟩
          obtain ⟨e, singleton⟩ := seat
          cases hkind
          have hbound := (List.getElem?_eq_some_iff.mp (hclash (.slot hk) he)).1
          rw [hfilled.length_eq] at hbound
          exact hlt hbound
  · rcases mem_buffers.mp hcommands with ⟨g, hg, -⟩ | ⟨output, hout, -⟩
    · cases hg
    · cases hout

end Commits

section Uses

/-- What a use may register is known afterwards, and no ordinary spawn holds it. -/
theorem Housed.claims_free (h : s.Housed C home) {op : WorldOp α} (ho : s.Orderly C (.world op))
    {w : World α} (hw : s.world.apply C op = some w) (hn : s.world.nextEntity ≤ w.nextEntity)
    (he : e ∈ op.claims C s.world) :
    e < w.nextEntity ∧ ∀ o k, ¬ s.Sits C o k ⟨e, false⟩ := by
  cases op with
  | base c =>
    cases c with
    | insert t e' v =>
      by_cases ht : C.singletonKey t = none
      · simp [WorldOp.claims, ht] at he
      · simp only [WorldOp.claims, ht, if_false, List.mem_singleton] at he
        obtain ⟨hknown, hfree⟩ := ho ht
        subst he
        exact ⟨Nat.lt_of_lt_of_le hknown hn, fun o k hs => hfree (mem_inPlay hs)⟩
    | _ => cases he
  | reserveSingleton key =>
    by_cases hkey : s.world.registry key = none
    · simp only [WorldOp.claims, hkey, if_true, List.mem_singleton] at he
      subst he
      refine ⟨?_, fun o k hs => Nat.lt_irrefl _ (h.seated o k _ hs).known⟩
      cases hw
      show _ < (s.world.singletonEntityOrSpawn key).2.nextEntity
      unfold World.singletonEntityOrSpawn
      rw [show s.world.singletonEntities.lookup key = none from hkey]
      exact Nat.lt_succ_self _
    · simp [WorldOp.claims, hkey] at he
  | _ => cases he

theorem Housed.use (h : s.Housed C home) {op : WorldOp α} (ho : s.Orderly C (.world op))
    (hb : s.Booked C settle) (hs : s.use C op = some s') : ∃ home', s'.Housed C home' := by
  unfold Spawns.use at hs
  split_ifs at hs with hd
  obtain ⟨w, hw, rfl⟩ := Option.map_eq_some_iff.mp hs
  have htrims := World.trims_apply hd hw
  have hn := htrims.next
  refine ⟨home.bar (· ∈ op.claims C s.world), ?_, ?_, ?_⟩
  · intro o k seat hs
    have hsit : s.Sits C o k seat := by
      cases hs with
      | slot hk =>
        refine .slot (seatTable_trim (fun k e he => ?_) hk)
        rw [htrims.slots] at he
        split_ifs at he
        · cases he
        · exact he
      | copy hf hown hk => exact .copy hf hown hk
      | reserved hf hown hk => exact .reserved hf hown hk
      | waiting hout hown hk => exact .waiting hout hown hk
    refine ((h.seated o k seat hsit).grow hn fun _ _ => rfl).bar fun hkind hmem => ?_
    obtain ⟨e, singleton⟩ := seat
    cases hkind
    exact (h.claims_free ho hw hn hmem).2 o k hsit
  · intro key e hkey
    rcases htrims.registry hb.anchored key e hkey with hkey | hmem
    · exact ((h.barred key e hkey).grow hn fun _ _ => rfl).bar
    · exact ⟨(h.claims_free ho hw hn hmem).1, Home.bar_of_named hmem⟩
  · intro commands hcommands t e v hc ht
    exact ((h.marks commands hcommands t e v hc ht).grow hn fun _ _ => rfl).bar

end Uses

end Spawns
end Porridge
