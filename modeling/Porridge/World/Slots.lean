import Porridge.World.Landing

/-! The spawn slots of an invocation: what its spawns record, and what others leave alone. -/
namespace Porridge

variable {α : Type} (C : Components α)

namespace Command

def spawned (registry : TypeId → Option Entity) : Command α → List Entity
  | spawn bundle reserved => [spawnEntity C registry bundle reserved]
  | insert .. | removeEntity .. | removeComponent .. => []

def isSpawn : Command α → Bool
  | spawn .. => true
  | insert .. | removeEntity .. | removeComponent .. => false

end Command

/-- The entities that a buffer of inserts and spawns records, in order. -/
def spawnedAll (registry : TypeId → Option Entity) : List (Command α) → List Entity
  | [] => []
  | c :: commands => c.spawned C registry ++ spawnedAll (c.registers C registry) commands

theorem length_spawnedAll (registry : TypeId → Option Entity) (commands : List (Command α)) :
    (spawnedAll C registry commands).length = commands.countP Command.isSpawn := by
  induction commands generalizing registry with
  | nil => rfl
  | cons c commands ih =>
    rw [spawnedAll, List.length_append, ih, List.countP_cons]
    cases c <;> simp [Command.spawned, Command.isSpawn, Nat.add_comm]

theorem owner_deferredOutput {output deferred : SystemOutput α}
    (h : World.deferredOutput output = some deferred) : deferred.owner = output.owner ∧
      deferred.commands = output.commands.filter Command.defersAtSettle := by
  unfold World.deferredOutput at h
  cases hcommands : output.commands.filter Command.defersAtSettle with
  | nil =>
    rw [hcommands] at h
    cases h
  | cons c commands =>
    rw [hcommands] at h
    cases h
    exact ⟨rfl, rfl⟩

namespace World

variable {C} {w w' : World α} {o o' : SystemInvocation} {es es' : List Entity}

section Reads

variable (w : World α) (o : SystemInvocation)

/-- The entities the next run of an invocation is handed for its spawns. -/
def slots : List Entity := Dict.getD w.derivedSpawns o []

/-- How many slots the run that is applied has filled. -/
def cursor : Nat := Dict.getD w.spawnCursors o 0

end Reads

/-- `o` records the entities from its cursor on; the slots of the others stay. -/
structure Fills (o : SystemInvocation) (es : List Entity) (w w' : World α) : Prop where
  cursor : w'.cursor o = w.cursor o + es.length
  slots : w'.slots o =
    (w.slots o).take (w.cursor o) ++ es ++ (w.slots o).drop (w.cursor o + es.length)
  others : ∀ o', o' ≠ o → w'.slots o' = w.slots o' ∧ w'.cursor o' = w.cursor o'

theorem Fills.of_eq (hs : w'.derivedSpawns = w.derivedSpawns)
    (hc : w'.spawnCursors = w.spawnCursors) : Fills o [] w w' := by
  have hslots : ∀ o, w'.slots o = w.slots o := fun o => by rw [World.slots, hs]; rfl
  have hcursor : ∀ o, w'.cursor o = w.cursor o := fun o => by rw [World.cursor, hc]; rfl
  refine ⟨hcursor o, ?_, fun o' _ => ⟨hslots o', hcursor o'⟩⟩
  simp [hslots]

theorem SameBuffers.fills (h : SameBuffers w w') : Fills o [] w w' := .of_eq h.spawns h.cursors

theorem Fills.room (h : Fills o es w w') (hroom : w.cursor o ≤ (w.slots o).length) :
    w'.cursor o ≤ (w'.slots o).length := by
  rw [h.cursor, h.slots]
  simp only [List.length_append, List.length_take, List.length_drop]
  omega

theorem Fills.trans {a b c : World α} (hab : Fills o es a b) (hbc : Fills o es' b c) :
    Fills o (es ++ es') a c where
  cursor := by rw [hbc.cursor, hab.cursor, List.length_append, Nat.add_assoc]
  slots := by
    rw [hbc.slots, hab.cursor, hab.slots]
    rcases le_or_gt (a.cursor o) (a.slots o).length with hroom | hpast
    · have hkept : ((a.slots o).take (a.cursor o) ++ es).length = a.cursor o + es.length := by
        rw [List.length_append, List.length_take, Nat.min_eq_left hroom]
      rw [List.take_left' hkept, ← List.drop_drop, List.drop_left' hkept, List.drop_drop]
      simp only [List.append_assoc, List.length_append, Nat.add_assoc]
    · -- past the slots there are, every spawn is appended
      have hnone : ∀ n, (a.slots o).drop (a.cursor o + n) = [] := fun n =>
        List.drop_eq_nil_of_le (by omega)
      rw [hnone, hnone, List.append_nil, List.append_nil, List.take_of_length_le hpast.le,
        List.take_of_length_le (by rw [List.length_append]; omega),
        List.drop_eq_nil_of_le (by rw [List.length_append]; omega), List.append_nil,
        List.append_assoc]
  others o' hne := ⟨(hbc.others o' hne).1.trans (hab.others o' hne).1,
    (hbc.others o' hne).2.trans (hab.others o' hne).2⟩

theorem fills_recordDerivedSpawn (w : World α) (o : SystemInvocation) (e : Entity) :
    Fills o [e] w (w.recordDerivedSpawn o e) where
  cursor := by simp [World.cursor, recordDerivedSpawn, Dict.getD_insert]
  slots := by
    have hslots : (w.recordDerivedSpawn o e).slots o =
        if w.cursor o < (w.slots o).length then (w.slots o).set (w.cursor o) e
        else w.slots o ++ [e] := by
      rw [World.slots, recordDerivedSpawn, Dict.getD_insert, if_pos rfl]
      rfl
    rw [hslots]
    split_ifs with hlt
    · rw [List.set_eq_take_append_cons_drop, if_pos hlt]
      simp
    · rw [List.take_of_length_le (by omega), List.drop_eq_nil_of_le (by simp; omega),
        List.append_nil]
  others o' hne := by
    simp [World.slots, World.cursor, recordDerivedSpawn, Dict.getD_insert, hne]

section Commands

theorem fills_insert {t : TypeId} {e : Entity} {v : Value α} {owner : Option SystemInvocation}
    (h : w.insert C t e v owner = some w') : Fills o [] w w' := by
  rcases insert_cases h with ⟨anchors, -, -, rfl⟩ | ⟨-, hsame⟩
  · exact .of_eq rfl rfl
  · exact hsame.fills

theorem fills_insertBundle {e : Entity} {owner : SystemInvocation}
    {bundle : List (TypeId × Value α)} (h : w.insertBundle C e bundle owner = some w') :
    Fills o [] w w' :=
  List.foldlM_some_induction (Fills o [] w) bundle h (.of_eq rfl rfl)
    fun _ _ _ _ hu hstep => hu.trans (fills_insert hstep)

/-- A command records what it spawns where the registry of its world says. -/
theorem fills_command {c : Command α} (h : c.apply C w o = some w') :
    Fills o (c.spawned C w.registry) w w' := by
  cases c with
  | insert t e v => exact fills_insert h
  | removeEntity e =>
    cases h
    exact (sameBuffers_removeEntity w e).fills
  | removeComponent t e =>
    cases h
    exact (sameBuffers_removeComponent w t e (some o)).fills
  | spawn bundle reserved =>
    simp only [Command.apply, Option.bind_eq_bind, Option.bind_eq_some_iff] at h
    obtain ⟨key, hkey, h⟩ := h
    have htarget : Fills o [] w (w.spawnTarget reserved key).2 := by
      cases key with
      | none => exact .of_eq rfl rfl
      | some key =>
        unfold spawnTarget singletonEntityOrRegister
        dsimp only
        split
        · exact .of_eq rfl rfl
        · exact .of_eq rfl rfl
    have hrecord := fills_recordDerivedSpawn (w.spawnTarget reserved key).2 o
      (w.spawnTarget reserved key).1
    have hall := htarget.trans (hrecord.trans (fills_insertBundle h))
    rw [spawnTarget_entity hkey] at hall
    exact hall

theorem fills_applyCommands_ne {commands : List (Command α)} (hne : o ≠ o')
    (h : w.applyCommands C o' commands = some w') :
    w'.slots o = w.slots o ∧ w'.cursor o = w.cursor o := by
  refine List.foldlM_some_induction (fun u : World α =>
    u.slots o = w.slots o ∧ u.cursor o = w.cursor o) commands h ⟨rfl, rfl⟩
    fun u c u' _ hu hstep => ?_
  have hothers := (fills_command hstep).others o hne
  exact ⟨hothers.1.trans hu.1, hothers.2.trans hu.2⟩

/-- A deferred buffer records what it spawns where the registry it starts from says. -/
theorem fills_applyCommands : ∀ {commands : List (Command α)} {w : World α},
    (∀ c ∈ commands, c.defersAtSettle = true) → w.applyCommands C o commands = some w' →
      Fills o (spawnedAll C w.registry commands) w w'
  | [], w, _, h => by
    cases h
    exact .of_eq rfl rfl
  | c :: commands, w, hd, h => by
    obtain ⟨u, hu, hrest⟩ := (applyCommands_cons C).mp h
    have hfills := fills_applyCommands (fun c hc => hd c (List.mem_cons_of_mem _ hc)) hrest
    rw [(landed_command (hd c List.mem_cons_self) hu).2] at hfills
    exact (fills_command hu).trans hfills

/-- Applying an output ends its spawn phase and leaves the cursors of others alone. -/
theorem cursor_applyOutput {output : SystemOutput α} {deferInserts : Bool}
    (h : w.applyOutput C output deferInserts = some w') :
    w'.cursor o = if o = output.owner then 0 else w.cursor o := by
  obtain ⟨applied, flushed, happlied, hflushed, rfl⟩ := exists_of_applyOutput h
  have hstale := (sameBuffers_removeDerivedStale (C := C)
    (flushed.finishDerivedSpawns output.owner) output.owner
    (w.outputs output.owner)).cursors
  rw [World.cursor, hstale, finishDerivedSpawns, Dict.getD_erase]
  split_ifs with hown
  · rfl
  · rw [(buffers_flushDerivedFrom hflushed).2.2.2.1]
    exact (fills_applyCommands_ne hown happlied).2

end Commands

end World
end Porridge
