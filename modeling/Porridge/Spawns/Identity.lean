import Porridge.Intake.Registry
import Porridge.Spawns.Housing

/-! Along an orderly run every ordinary spawn keeps its entity, and has it alone. -/
namespace Porridge

variable {α : Type} {C : Components α} {settle : SystemId → Bool}

namespace Spawns

variable {s s' : Spawns α} {i : Nat} {f : Flight α} {o : SystemInvocation} {k : Nat} {e : Entity}

/-- The ordinary spawns of the last accepted run are what the next one is handed. -/
structure Remembered (C : Components α) (s : Spawns α) : Prop where
  handed : ∀ o (k : Nat) (e : Entity), (s.last o)[k]? = some ⟨e, false⟩ →
    (∃ output ∈ s.waiting, output.owner = o ∧
      (seats C output.commands)[k]? = some ⟨e, false⟩) ∨
    (seatTable s.world s.kinds o)[k]? = some ⟨e, false⟩ ∧
      ∀ f ∈ s.flights, f.owner = o → f.table[k]? = some ⟨e, false⟩
  /-- A deferred output with spawns is of the last run, unless that run spawned nothing. -/
  waiting : ∀ output ∈ s.waiting, seats C output.commands ≠ [] →
    s.last output.owner = seats C output.commands ∨ s.last output.owner = []

section Steps

theorem Remembered.new (h : s.Remembered C) (o : SystemInvocation) :
    Remembered C { s with
      flights := s.flights ++ [⟨o, s.world.slots o, s.kinds o, 0, []⟩] } where
  handed o' k e hk := by
    refine (h.handed o' k e hk).imp_right fun htable => ⟨htable.1, fun f hf hown => ?_⟩
    rcases List.mem_append.mp hf with hf | hf
    · exact htable.2 f hf hown
    · rw [List.mem_singleton.mp hf] at hown ⊢
      cases hown
      exact htable.1
  waiting := h.waiting

/-- A buffer in flight is replaced by one that holds the same copy of its slots. -/
theorem Remembered.set (h : s.Remembered C) (hi : s.flights[i]? = some f) {f' : Flight α}
    (ho : f'.owner = f.owner) (htable : f'.table = f.table) (next : Entity) :
    Remembered C { s with
      world := { s.world with nextEntity := next }
      flights := s.flights.set i f' } where
  handed o' k e hk := by
    refine (h.handed o' k e hk).imp_right fun hseat => ⟨hseat.1, fun g hg hown => ?_⟩
    rcases List.mem_or_eq_of_mem_set hg with hg | rfl
    · exact hseat.2 g hg hown
    · rw [htable]
      exact hseat.2 f (List.mem_of_getElem? hi) (ho.symm.trans hown)
  waiting := h.waiting

theorem Remembered.discard (h : s.Remembered C) (i : Nat) :
    Remembered C { s with flights := s.flights.eraseIdx i } where
  handed o' k e hk := (h.handed o' k e hk).imp_right fun htable =>
    ⟨htable.1, fun g hg => htable.2 g (List.mem_of_mem_eraseIdx hg)⟩
  waiting := h.waiting

theorem Remembered.commitPlain (h : s.Remembered C) (hb : s.Booked C settle)
    (hi : s.flights[i]? = some f) (hplain : settle f.owner.system = false) {w : World α}
    (hw : s.world.applyOutput C f.output false = some w) :
    Remembered C ⟨w, s.flights.eraseIdx i, s.waiting, trim (record C s.kinds f.output) w,
      Function.update s.last f.owner (seats C f.commands)⟩ := by
  obtain ⟨⟨es, hfits, hslots⟩, hothers, -, -⟩ :=
    World.seated_applyOutput (fun _ => True) (fun _ _ _ => trivial)
      (fun _ _ _ _ => trivial) hb.anchored (hb.cursors f.owner (Or.inl hplain)) hw
  have hne : ∀ output ∈ s.waiting, output.owner ≠ f.owner := by
    intro output hout hown
    have hsettles := hb.settling output hout
    rw [hown, hplain] at hsettles
    cases hsettles
  constructor
  · intro o k e hk
    by_cases hown : o = f.owner
    · subst hown
      change (Function.update s.last f.owner (seats C f.commands) f.owner)[k]? = _ at hk
      rw [Function.update_self] at hk
      refine Or.inr ⟨?_, fun g hg hown => absurd hown (owner_ne_of_eraseIdx hb.alone hi hg)⟩
      change (seatTable w _ f.output.owner)[k]? = _
      rw [seatTable_recorded (C := C) s.kinds hfits.length_eq hslots]
      exact Seat.Filled.of_ordinary (filled_of_fits hfits) hk
    · change (Function.update s.last f.owner (seats C f.commands) o)[k]? = _ at hk
      rw [Function.update_of_ne hown] at hk
      refine (h.handed o k e hk).imp_right fun hseat =>
        ⟨?_, fun g hg => hseat.2 g (List.mem_of_mem_eraseIdx hg)⟩
      have hkept : seatTable w (trim (record C s.kinds f.output) w) o =
          seatTable s.world s.kinds o := by
        rw [seatTable, seatTable, trim, hothers o hown, record_ne hown,
          List.take_of_length_le (hb.kinds o).le]
      show (seatTable w (trim (record C s.kinds f.output) w) o)[k]? = _
      rw [hkept]
      exact hseat.1
  · intro output hout hsome
    show Function.update s.last f.owner _ output.owner = _ ∨
      Function.update s.last f.owner _ output.owner = _
    rw [Function.update_of_ne (hne output hout)]
    exact h.waiting output hout hsome

/-- A buffer with spawns leaves a deferred output. -/
theorem exists_deferred (hsome : seats C f.commands ≠ []) : ∃ output,
    World.deferredOutput f.output = some output ∧ output.owner = f.owner ∧
      seats C output.commands = seats C f.commands := by
  cases hdeferred : World.deferredOutput f.output with
  | some output => exact ⟨output, rfl, seats_deferredOutput f hdeferred⟩
  | none =>
    unfold World.deferredOutput at hdeferred
    have hnone : f.commands.filter Command.defersAtSettle = [] := by
      cases hfilter : f.output.commands.filter Command.defersAtSettle with
      | nil => exact hfilter
      | cons c commands =>
        rw [hfilter] at hdeferred
        cases hdeferred
    rw [← seats_deferred, hnone] at hsome
    exact absurd rfl hsome

theorem Remembered.commitSettle (h : s.Remembered C) (hb : s.Booked C settle)
    (hi : s.flights[i]? = some f) {w : World α}
    (hw : s.world.applyOutput C f.output true = some w) :
    Remembered C ⟨w, s.flights.eraseIdx i,
      s.waiting ++ (World.deferredOutput f.output).toList, trim s.kinds w,
      Function.update s.last f.owner (seats C f.commands)⟩ := by
  obtain ⟨hslots, -, -⟩ := World.slots_deferring hb.anchored hw
  constructor
  · intro o k e hk
    by_cases hown : o = f.owner
    · subst hown
      change (Function.update s.last f.owner (seats C f.commands) f.owner)[k]? = _ at hk
      rw [Function.update_self] at hk
      have hsome : seats C f.commands ≠ [] := fun hnil => by
        rw [hnil] at hk
        cases hk
      obtain ⟨output, hout, howner, hseats⟩ := exists_deferred hsome
      refine Or.inl ⟨output, List.mem_append_right _ (Option.mem_toList.mpr hout), howner, ?_⟩
      rw [hseats]
      exact hk
    · change (Function.update s.last f.owner (seats C f.commands) o)[k]? = _ at hk
      rw [Function.update_of_ne hown] at hk
      refine (h.handed o k e hk).imp (fun hwaiting => ?_) fun hseat =>
        ⟨?_, fun g hg => hseat.2 g (List.mem_of_mem_eraseIdx hg)⟩
      · obtain ⟨output, hout, hrest⟩ := hwaiting
        exact ⟨output, List.mem_append_left _ hout, hrest⟩
      · have hsame : w.slots o = s.world.slots o := by
          rw [hslots]
          exact if_neg hown
        show (seatTable w (trim s.kinds w) o)[k]? = _
        rw [seatTable_same hb.kinds hsame]
        exact hseat.1
  · intro output hout hsome
    by_cases hown : output.owner = f.owner
    · show Function.update s.last f.owner _ output.owner = _ ∨
        Function.update s.last f.owner _ output.owner = _
      rw [hown, Function.update_self]
      rcases List.mem_append.mp hout with hout | hout
      · exact Or.inr ((hb.busy f (List.mem_of_getElem? hi) output hout hown).resolve_right hsome)
      · exact Or.inl (seats_deferredOutput f (Option.mem_toList.mp hout)).2.symm
    · show Function.update s.last f.owner _ output.owner = _ ∨
        Function.update s.last f.owner _ output.owner = _
      rw [Function.update_of_ne hown]
      rcases List.mem_append.mp hout with hout | hout
      · exact h.waiting output hout hsome
      · exact absurd (seats_deferredOutput (C := C) f (Option.mem_toList.mp hout)).1 hown

theorem Remembered.commit (h : s.Remembered C) (hb : s.Booked C settle)
    (hi : s.flights[i]? = some f) (hs : s.commit C settle i f = some s') : s'.Remembered C := by
  obtain ⟨w, hw, rfl⟩ := Option.map_eq_some_iff.mp hs
  cases hsettle : settle f.owner.system with
  | false =>
    rw [hsettle] at hw
    have hremembered := h.commitPlain hb hi hsettle hw
    simpa using hremembered
  | true =>
    rw [hsettle] at hw
    exact h.commitSettle hb hi hw

theorem Remembered.start (h : s.Remembered C) (hb : s.Booked C settle)
    (hs : s.start C = some s') : s'.Remembered C := by
  obtain ⟨w, hw, rfl⟩ := Option.map_eq_some_iff.mp hs
  have hstarted := hb.started (fun _ => True) (fun _ _ _ => trivial)
    (fun _ _ _ _ _ _ => trivial) hw
  refine ⟨fun o k e hk => Or.inr ⟨?_, fun f hf => by cases hf⟩, fun output hout => by cases hout⟩
  change (s.last o)[k]? = some ⟨e, false⟩ at hk
  show (seatTable w (s.waiting.foldl (record C) s.kinds) o)[k]? = _
  have hlast : s.last o ≠ [] := fun hnil => by
    rw [hnil] at hk
    cases hk
  rcases hstarted.table o with ⟨htable, hnone⟩ | ⟨output, hout, hown, hsome, filled, hfilled, htable⟩
  · rw [htable]
    rcases h.handed o k e hk with ⟨output, hout, hown, hseat⟩ | hseat
    · rw [hnone output hout hown] at hseat
      cases hseat
    · exact hseat.1
  · have hseats : s.last o = seats C output.commands := by
      have hcases := h.waiting output hout hsome
      rw [hown] at hcases
      exact hcases.resolve_right hlast
    rw [hseats] at hk
    have hfill := Seat.Filled.of_ordinary hfilled hk
    rw [htable, List.getElem?_append_left (List.getElem?_eq_some_iff.mp hfill).1]
    exact hfill

theorem Remembered.use (h : s.Remembered C) (hb : s.Booked C settle) {op : WorldOp α}
    (hs : s.use C op = some s') : s'.Remembered C := by
  unfold Spawns.use at hs
  split_ifs at hs with hd
  obtain ⟨w, hw, rfl⟩ := Option.map_eq_some_iff.mp hs
  have htrims := World.trims_apply hd hw
  constructor
  · intro o k e hk
    change (if o ∈ op.forgets s.world then [] else s.last o)[k]? = _ at hk
    split_ifs at hk with hgone
    · cases hk
    · refine (h.handed o k e hk).imp_right fun hseat => ⟨?_, hseat.2⟩
      have hsame : w.slots o = s.world.slots o := by
        rw [htrims.slots]
        exact if_neg hgone
      show (seatTable w (trim s.kinds w) o)[k]? = _
      rw [seatTable_same hb.kinds hsame]
      exact hseat.1
  · intro output hout hsome
    show (if _ then [] else _) = _ ∨ (if _ then [] else _) = _
    split_ifs with hgone
    · exact Or.inr rfl
    · exact h.waiting output hout hsome

end Steps

/-- What an orderly run keeps. -/
structure Sound (C : Components α) (settle : SystemId → Bool) (s : Spawns α) : Prop where
  booked : s.Booked C settle
  housed : ∃ home, s.Housed C home
  remembered : s.Remembered C

theorem sound_init (h : (machine C settle).init s) : s.Sound C settle := by
  obtain ⟨world, flights, waiting, kinds, last⟩ := s
  obtain ⟨⟨schema, rfl⟩, rfl, rfl, rfl, rfl⟩ := h
  have hslots : ∀ o, (World.ofSchema schema : World α).slots o = [] := fun _ => rfl
  refine ⟨?_, ⟨fun _ => none, ?_, ?_, ?_⟩, ?_, ?_⟩
  · exact
      { kinds := fun _ => rfl
        alone := List.nodup_nil
        copies := fun f hf => by cases hf
        once := List.Pairwise.nil
        busy := fun f hf => by cases hf
        settling := fun output hout => by cases hout
        cursors := fun _ _ => rfl
        anchored := fun p hp => by cases hp }
  · intro o k seat hs
    cases hs with
    | slot hk => cases hk
    | copy hf => cases hf
    | reserved hf => cases hf
    | waiting hout => cases hout
  · intro key e hkey
    cases hkey
  · intro commands hmem
    cases hmem
  · intro o k e hk
    cases hk
  · intro output hout
    cases hout

theorem Sound.step (h : s.Sound C settle) {op : SpawnsOp α} (ho : s.Orderly C op)
    (hs : step C settle s op = some s') : s'.Sound C settle := by
  obtain ⟨hb, ⟨home, hh⟩, hr⟩ := h
  cases op with
  | new o =>
    cases hs
    exact ⟨hb.new ho, ⟨home, hh.new o⟩, hr.new o⟩
  | spawn i bundle =>
    obtain ⟨f, hi, rfl⟩ := Option.map_eq_some_iff.mp hs
    obtain ⟨hkind, hwaiting⟩ := ho f hi
    have hf := hb.copies f (List.mem_of_getElem? hi)
    have hbusy : ∀ output ∈ s.waiting, output.owner = f.owner →
        seats C (f.spawn bundle (f.reserve s.world).1).commands = [] ∨
          seats C output.commands = [] := fun output hout hown => Or.inr (hwaiting output hout hown)
    have hown : (f.spawn bundle (f.reserve s.world).1).owner = f.owner := rfl
    have htable : (f.spawn bundle (f.reserve s.world).1).table = f.table := rfl
    obtain ⟨next, heq, -⟩ := reserve_world f s.world
    refine ⟨?_, hh.spawn hi hf hkind, ?_⟩
    · rw [heq]
      exact hb.set hi hown (hf.spawn s.world bundle) hbusy next
    · rw [heq]
      exact hr.set hi hown htable next
  | push i c =>
    change (if c.isSpawn = true then none else _) = some s' at hs
    split_ifs at hs with hspawn
    obtain ⟨f, hi, rfl⟩ := Option.map_eq_some_iff.mp hs
    have hc : c.isSpawn = false := Bool.eq_false_iff.mpr hspawn
    have hown : (f.push c).owner = f.owner := rfl
    have htable : (f.push c).table = f.table := rfl
    have hmem := List.mem_of_getElem? hi
    have hbusy : ∀ output ∈ s.waiting, output.owner = f.owner →
        seats C (f.push c).commands = [] ∨ seats C output.commands = [] := by
      intro output hout hown
      rw [show (f.push c).commands = f.commands ++ [c] from rfl, seats_push hc]
      exact hb.busy f hmem output hout hown
    refine ⟨hb.set hi hown ((hb.copies f hmem).push hc) hbusy _, hh.push hi hc ?_,
      hr.set hi hown htable _⟩
    intro t e v heq ht
    rw [heq] at ho
    exact ho ht
  | commit i =>
    obtain ⟨f, hi, hs⟩ := Option.bind_eq_some_iff.mp hs
    exact ⟨hb.commit hi hs, hh.commit hb hi hs, hr.commit hb hi hs⟩
  | discard i =>
    obtain ⟨f, hi, rfl⟩ := Option.map_eq_some_iff.mp hs
    exact ⟨hb.discard i, ⟨home, hh.discard i⟩, hr.discard i⟩
  | start => exact ⟨hb.start hs, hh.start hb hs, hr.start hb hs⟩
  | world op => exact ⟨hb.use hs, hh.use ho hb hs, hr.use hb hs⟩

theorem Sound.repeated (h : s.Sound C settle) (hf : f ∈ s.flights) {e' : Entity}
    (hlast : (s.last f.owner)[k]? = some ⟨e, false⟩)
    (hk : (seats C f.commands)[k]? = some ⟨e', false⟩) : e' = e := by
  rcases h.remembered.handed f.owner k e hlast with ⟨output, hout, hown, hseat⟩ | htable
  · rcases h.booked.busy f hf output hout hown with hnil | hnil
    · rw [hnil] at hk
      cases hk
    · rw [hnil] at hseat
      cases hseat
  · obtain ⟨e₀, kind, hslot, -, heq⟩ := List.getElem?_zipWith_eq_some.mp (htable.2 f hf rfl)
    cases heq
    exact (h.booked.copies f hf).taken k _ _ hk hslot

theorem Sound.remembered_sits (h : s.Sound C settle) (hlast : (s.last o)[k]? = some ⟨e, false⟩) :
    s.Sits C o k ⟨e, false⟩ := by
  rcases h.remembered.handed o k e hlast with ⟨output, hout, hown, hseat⟩ | htable
  · exact .waiting hout hown hseat
  · exact .slot htable.1

/-- An ordinary spawn among the commands has the seat that the spawns before it leave. -/
theorem seat_of_split {before after : List (Command α)} {bundle : List (TypeId × Value α)}
    {reserved : Entity} (hordinary : Command.ordinary C bundle = true) :
    (seats C (before ++ Command.spawn bundle reserved :: after))[(seats C before).length]? =
      some ⟨reserved, false⟩ := by
  unfold seats
  rw [List.filterMap_append, List.filterMap_cons_some
    (show (Command.spawn bundle reserved).seat? C = some ⟨reserved, false⟩ by
      simp [Command.seat?, hordinary]), List.getElem?_append_right (Nat.le_refl _), Nat.sub_self]
  rfl

/-- What a buffer registers on the way it may register, or it was registered before. -/
theorem Sound.committed (h : s.Sound C settle) (hf : f ∈ s.flights) :
    Vacant C f.owner (s.world.takeDerivedOutputs f.owner).2
      (f.output.immediate (settle f.owner.system)) := by
  obtain ⟨home, hh⟩ := h.housed
  intro before bundle reserved after u key hsplit hordinary hu hkey
  have hbuffer : f.commands ∈ s.buffers := mem_buffers.mpr (Or.inl ⟨f, hf, rfl⟩)
  have hsits : ∀ k seat, (seats C f.commands)[k]? = some seat → s.Sits C f.owner k seat :=
    fun k seat hk => .reserved hf rfl hk
  cases hsettle : settle f.owner.system with
  | true =>
    -- only removals land at once
    rw [hsettle] at hsplit
    have hmem : Command.spawn bundle reserved ∈ f.output.immediate true := by
      rw [hsplit]
      exact List.mem_append_right _ List.mem_cons_self
    have hstays := (List.mem_filter.mp hmem).2
    cases hstays
  | false =>
    rw [hsettle] at hsplit
    have hcommands : f.commands = before ++ Command.spawn bundle reserved :: after := hsplit
    have hregistry : ∀ key e, (s.world.takeDerivedOutputs f.owner).2.registry key = some e →
        Named C s f.commands e := fun key e hkey => Or.inl ⟨key, hkey⟩
    have hnamed := (World.seated_applyCommands hregistry
      (fun c hc e he => Or.inr ⟨c, ?_, he⟩) hu).2 key reserved hkey
    · have hseat : (seats C f.commands)[(seats C before).length]? = some ⟨reserved, false⟩ := by
        rw [hcommands]
        exact seat_of_split hordinary
      have hclash : some (⟨reserved, false⟩ : Seat) = some ⟨reserved, true⟩ :=
        hseat.symm.trans (hh.of_named (hsits _ _ hseat) hbuffer hsits hnamed).2
      cases hclash
    · rw [hcommands]
      exact List.mem_append_left _ hc

theorem Sound.started (h : s.Sound C settle) {before after : List (SystemOutput α)}
    {output : SystemOutput α} {w : World α} (hwaiting : s.waiting = before ++ output :: after)
    (hw : before.foldlM (land C) s.world = some w) :
    Vacant C output.owner w output.commands := by
  obtain ⟨home, hh⟩ := h.housed
  have hout : output ∈ s.waiting := by
    rw [hwaiting]
    exact List.mem_append_right _ List.mem_cons_self
  have hregistry : ∀ key e, w.registry key = some e → NamedAtStart C s e := by
    refine List.foldlM_some_induction
      (fun u : World α => ∀ key e, u.registry key = some e → NamedAtStart C s e) before hw
      (fun key e hkey => Or.inl ⟨key, hkey⟩) fun u other u' hother hu hstep => ?_
    refine (World.seated_applyCommands hu (fun c hc e he => Or.inr ⟨other, ?_, c, hc, he⟩) hstep).2
    rw [hwaiting]
    exact List.mem_append_left _ hother
  intro first bundle reserved rest u key hsplit hordinary hu hkey
  have hnamed := (World.seated_applyCommands hregistry
    (fun c hc e he => Or.inr ⟨output, hout, c, ?_, he⟩) hu).2 key reserved hkey
  · have hseat : (seats C output.commands)[(seats C first).length]? = some ⟨reserved, false⟩ := by
      rw [hsplit]
      exact seat_of_split hordinary
    obtain ⟨other, hother, hown, hclash⟩ :=
      hh.of_namedAtStart (.waiting hout rfl hseat) hnamed
    have hsame : output = other := h.booked.once_eq hout hother hown.symm
      (fun hnil => by rw [hnil] at hseat; cases hseat)
      fun hnil => by rw [hnil] at hclash; cases hclash
    rw [← hsame, hseat] at hclash
    cases hclash
  · rw [hsplit]
    exact List.mem_append_left _ hc

/-- Where no ordinary spawn takes a slot that a singleton filled, spawned entities keep their
identity in every state of every run. -/
theorem identified_of_orderly
    (h : (machine C settle).ReachableUnder (fun s op => s.Orderly C op) s) :
    s.Identified C settle := by
  have hsound : s.Sound C settle :=
    h.invariant (Sound C settle) (fun s hs => sound_init hs)
      fun s op s' hs ho hstep => hs.step ho hstep
  obtain ⟨home, hh⟩ := hsound.housed
  exact
    { repeated := fun f hf k e e' hlast hk => hsound.repeated hf hlast hk
      remembered := fun o k e hlast => hsound.remembered_sits hlast
      distinct := fun o o' k k' e hs hs' => hh.distinct hs hs'
      unregistered := fun o k e hs key => hh.unregistered hs key
      committed := fun f hf => hsound.committed hf
      started := fun before output after w hwaiting hw => hsound.started hwaiting hw }

section Runs

/-- An ordinary spawn and a singleton spawn of one invocation, and the same in its next run. -/
def rerunning : List (SpawnsOp Nat) :=
  [.new ⟨0, [1]⟩, .spawn 0 [(6, .data 7)], .spawn 0 [(5, .data 0)], .commit 0,
    .new ⟨0, [1]⟩, .spawn 0 [(6, .data 8)], .spawn 0 [(5, .data 0)]]

/-- Two invocations spawn the same singleton, and in their next runs an ordinary entity instead. -/
def reordering : List (SpawnsOp Nat) :=
  [.new ⟨0, [1]⟩, .spawn 0 [(5, .data 0)], .commit 0, .new ⟨0, [2]⟩, .spawn 0 [(5, .data 0)],
    .commit 0, .new ⟨0, [1]⟩, .spawn 0 [(6, .data 7)], .new ⟨0, [2]⟩, .spawn 1 [(6, .data 7)]]

/-- No spawns before the first run. -/
def unspawned : Spawns Nat := ⟨World.new, [], [], fun _ => [], fun _ => []⟩

def settleless : SystemId → Bool := fun _ => false

def spawnsAfter (ops : List (SpawnsOp Nat)) : Spawns Nat :=
  ((machine Intake.marking settleless).run unspawned ops).getD unspawned

theorem rerunning_identified :
    (spawnsAfter rerunning).Identified Intake.marking settleless := by
  have hrun : (machine Intake.marking settleless).run unspawned rerunning =
      some (spawnsAfter rerunning) := rfl
  have hallowed : (machine Intake.marking settleless).Allows
      (fun s op => s.Orderly Intake.marking op) unspawned rerunning := by decide +kernel
  have hinit : (machine Intake.marking settleless).init unspawned :=
    ⟨⟨none, rfl⟩, rfl, rfl, rfl, rfl⟩
  exact identified_of_orderly (Machine.ReachableUnder.run (.init hinit) hallowed hrun)

/-- Both ordinary spawns are handed the registered singleton. -/
theorem reordering_shares_singleton :
    (machine Intake.marking settleless).Reachable (spawnsAfter reordering) ∧
      (spawnsAfter reordering).flights.map (fun f => (f.owner, seats Intake.marking f.commands)) =
        [(⟨0, [1]⟩, [⟨0, false⟩]), (⟨0, [2]⟩, [⟨0, false⟩])] ∧
      (spawnsAfter reordering).world.registry 50 = some 0 ∧
      ¬ (spawnsAfter reordering).Identified Intake.marking settleless := by
  have hrun : (machine Intake.marking settleless).run unspawned reordering =
      some (spawnsAfter reordering) := rfl
  have hflights : (spawnsAfter reordering).flights.map
      (fun f => (f.owner, seats Intake.marking f.commands)) =
        [(⟨0, [1]⟩, [⟨0, false⟩]), (⟨0, [2]⟩, [⟨0, false⟩])] := by decide +kernel
  have hregistry : (spawnsAfter reordering).world.registry 50 = some 0 := by decide +kernel
  refine ⟨Machine.Reachable.run (.init ⟨⟨none, rfl⟩, rfl, rfl, rfl, rfl⟩) hrun, hflights,
    hregistry, fun h => ?_⟩
  obtain ⟨f, hf, heq⟩ : ∃ f ∈ (spawnsAfter reordering).flights,
      (f.owner, seats Intake.marking f.commands) = (⟨0, [1]⟩, [⟨0, false⟩]) := by
    refine List.mem_map.mp ?_
    rw [hflights]
    exact List.mem_cons_self
  obtain ⟨howner, hseats⟩ := Prod.mk.inj heq
  have hsits : (spawnsAfter reordering).Sits Intake.marking ⟨0, [1]⟩ 0 ⟨0, false⟩ :=
    .reserved hf howner (by rw [hseats]; rfl)
  exact h.unregistered _ 0 0 hsits 50 hregistry

end Runs

end Spawns
end Porridge
