import Porridge.Spawns.Homes

/-! The table of seats: what a commit and the deferred outputs write there, and what trims it. -/
namespace Porridge

variable {α : Type} {C : Components α}

/-- The seat is filled by a spawn on the first one: of its kind, with an entity it may record. -/
structure Seat.Filled (named : Entity → Prop) (taken seat : Seat) : Prop where
  kind : seat.singleton = taken.singleton
  fits : taken.Fits named seat.entity

theorem Seat.Filled.singleton {named : Entity → Prop} {taken seat : Seat}
    (h : taken.Filled named seat) (hk : seat.singleton = true) : named seat.entity := by
  have hfits := h.fits
  rw [Seat.Fits, if_pos (h.kind ▸ hk)] at hfits
  exact hfits

theorem Seat.Filled.ordinary {named : Entity → Prop} {taken seat : Seat}
    (h : taken.Filled named seat) (hk : taken.singleton = false) : seat = taken := by
  have hfits := h.fits
  rw [Seat.Fits, if_neg (by simp [hk])] at hfits
  cases seat
  cases taken
  exact Seat.mk.injEq .. ▸ ⟨hfits, h.kind⟩

theorem filled_of_fits {named : Entity → Prop} {taken : List Seat} {es : List Entity}
    (h : List.Forall₂ (Seat.Fits named) taken es) :
    List.Forall₂ (Seat.Filled named) taken (List.zipWith Seat.mk es (taken.map Seat.singleton)) := by
  induction h with
  | nil => exact .nil
  | cons hfit _ ih => exact .cons ⟨rfl, hfit⟩ ih

theorem Seat.Filled.getElem? {named : Entity → Prop} {taken filled : List Seat}
    (h : List.Forall₂ (Seat.Filled named) taken filled) {k : Nat} {seat : Seat}
    (hk : filled[k]? = some seat) : ∃ seat₀, taken[k]? = some seat₀ ∧ seat₀.Filled named seat := by
  induction h generalizing k with
  | nil => cases hk
  | cons hfilled _ ih =>
    cases k with
    | zero =>
      cases hk
      exact ⟨_, rfl, hfilled⟩
    | succ k => exact ih hk

theorem Seat.Filled.of_ordinary {named : Entity → Prop} {taken filled : List Seat}
    (h : List.Forall₂ (Seat.Filled named) taken filled) {k : Nat} {e : Entity}
    (hk : taken[k]? = some ⟨e, false⟩) : filled[k]? = some ⟨e, false⟩ := by
  induction h generalizing k with
  | nil => cases hk
  | cons hfilled _ ih =>
    cases k with
    | zero =>
      cases hk
      exact congrArg some (hfilled.ordinary rfl)
    | succ k => exact ih hk

namespace Spawns

variable {w w' : World α} {kinds : SystemInvocation → List Bool} {o : SystemInvocation}
  {named : Entity → Prop}

def Kinded (w : World α) (kinds : SystemInvocation → List Bool) : Prop :=
  ∀ o, (kinds o).length = (w.slots o).length

section Trims

/-- Slots that are left keep their seats. -/
theorem seatTable_trim (hslots : ∀ k e : Nat, (w'.slots o)[k]? = some e → (w.slots o)[k]? = some e)
    {k : Nat} {seat : Seat} (h : (seatTable w' (trim kinds w') o)[k]? = some seat) :
    (seatTable w kinds o)[k]? = some seat := by
  obtain ⟨e, kind, he, hkind, rfl⟩ := List.getElem?_zipWith_eq_some.mp h
  have hkept : (kinds o)[k]? = some kind := by
    unfold trim at hkind
    rw [List.getElem?_take] at hkind
    split_ifs at hkind
    exact hkind
  exact List.getElem?_zipWith_eq_some.mpr ⟨e, kind, hslots k e he, hkept, rfl⟩

theorem seatTable_same (hkinds : Kinded w kinds) (hslots : w'.slots o = w.slots o) :
    seatTable w' (trim kinds w') o = seatTable w kinds o := by
  unfold seatTable trim
  rw [hslots, List.take_of_length_le (hkinds o).le]

theorem kinded_trim (h : ∀ o, (w'.slots o).length ≤ (kinds o).length) : Kinded w' (trim kinds w') :=
  fun o => by rw [trim, List.length_take, Nat.min_eq_left (h o)]

end Trims

section Lands

variable {output : SystemOutput α}

theorem record_ne (hne : o ≠ output.owner) : record C kinds output o = kinds o :=
  Function.update_of_ne hne _ _

theorem record_self : record C kinds output output.owner =
    (seats C output.commands).map Seat.singleton ++
      (kinds output.owner).drop (seats C output.commands).length := by
  unfold record
  simp

/-- Recording nothing changes no kind. -/
theorem record_of_nil (h : seats C output.commands = []) : record C kinds output = kinds := by
  funext o
  by_cases hown : o = output.owner
  · rw [hown, record_self, h]
    rfl
  · exact record_ne hown

/-- The table of an owner whose slots became what its spawns recorded. -/
theorem seatTable_recorded {es : List Entity} (kinds : SystemInvocation → List Bool)
    (hlength : (seats C output.commands).length = es.length) (hslots : w.slots output.owner = es) :
    seatTable w (trim (record C kinds output) w) output.owner =
      List.zipWith Seat.mk es ((seats C output.commands).map Seat.singleton) := by
  have hkinds : trim (record C kinds output) w output.owner =
      (seats C output.commands).map Seat.singleton := by
    rw [trim, record_self, hslots, ← hlength]
    exact List.take_left' (List.length_map _)
  rw [seatTable, hkinds, hslots]

/-- What a landed output leaves: its seats are filled from the cursor of its owner on. -/
structure Landed (C : Components α) (named : Entity → Prop) (output : SystemOutput α)
    (kinds : SystemInvocation → List Bool) (w w' : World α) : Prop where
  steady : World.Steady C w w'
  registry : ∀ key e, w'.registry key = some e → named e
  others : ∀ o, o ≠ output.owner → w'.slots o = w.slots o ∧ w'.cursor o = w.cursor o
  cursor : w'.cursor output.owner = w.cursor output.owner + (seats C output.commands).length
  room : w'.cursor output.owner ≤ (w'.slots output.owner).length
  none : seats C output.commands = [] → w'.slots output.owner = w.slots output.owner
  filled : w.cursor output.owner = 0 → ∃ filled,
    List.Forall₂ (Seat.Filled named) (seats C output.commands) filled ∧
    seatTable w' (record C kinds output) output.owner =
      filled ++ (seatTable w kinds output.owner).drop filled.length
  kinded : w.cursor output.owner = 0 ∨ seats C output.commands = [] → Kinded w kinds →
    Kinded w' (record C kinds output)

theorem landed_land (hregistry : ∀ key e, w.registry key = some e → named e)
    (hclaims : ∀ c ∈ output.commands, ∀ e ∈ c.claims C, named e)
    (hroom : w.cursor output.owner ≤ (w.slots output.owner).length)
    (h : land C w output = some w') : Landed C named output kinds w w' := by
  obtain ⟨⟨es, hfills, hfits⟩, hnamed⟩ := World.seated_applyCommands hregistry hclaims h
  have hlength : (seats C output.commands).length = es.length := hfits.length_eq
  have hslots := hfills.slots
  have hnone : seats C output.commands = [] → w'.slots output.owner = w.slots output.owner := by
    intro hempty
    rw [hempty, List.length_nil] at hlength
    rw [hslots, List.eq_nil_of_length_eq_zero hlength.symm]
    simp
  refine ⟨World.steady_applyCommands h, hnamed, hfills.others, ?_, hfills.room hroom, hnone,
    fun hzero => ?_, fun hstart hkinds o => ?_⟩
  · rw [hfills.cursor, hlength]
  · rw [hzero] at hslots
    refine ⟨_, filled_of_fits hfits, ?_⟩
    unfold seatTable
    rw [hslots, record_self, List.drop_zipWith]
    have hkinds : es.length = ((seats C output.commands).map Seat.singleton).length := by
      rw [List.length_map, hlength]
    simp [List.zipWith_append hkinds, hlength]
  · by_cases hown : o = output.owner
    · subst hown
      rcases hstart with hzero | hempty
      · rw [hzero] at hslots
        rw [record_self, hslots]
        simp [hlength, hkinds output.owner]
      · rw [record_of_nil hempty, hnone hempty]
        exact hkinds output.owner
    · rw [record_ne hown, (hfills.others o hown).1]
      exact hkinds o

end Lands

section Start

/-- Of two deferred outputs of one owner, one spawns nothing. -/
def Once (C : Components α) (a b : SystemOutput α) : Prop :=
  a.owner = b.owner → seats C a.commands = [] ∨ seats C b.commands = []

/-- What the deferred outputs leave of the table: each owner with a deferred spawn has its seats
filled, and the others keep theirs. -/
structure Started (C : Components α) (named : Entity → Prop) (waiting : List (SystemOutput α))
    (kinds : SystemInvocation → List Bool) (w w' : World α) : Prop where
  steady : World.Steady C w w'
  registry : ∀ key e, w'.registry key = some e → named e
  kinded : Kinded w' (waiting.foldl (record C) kinds)
  others : ∀ o, (∀ output ∈ waiting, output.owner ≠ o) → w'.cursor o = w.cursor o
  table : ∀ o, (seatTable w' (waiting.foldl (record C) kinds) o = seatTable w kinds o ∧
      ∀ output ∈ waiting, output.owner = o → seats C output.commands = []) ∨
    ∃ output ∈ waiting, output.owner = o ∧ seats C output.commands ≠ [] ∧ ∃ filled,
      List.Forall₂ (Seat.Filled named) (seats C output.commands) filled ∧
      seatTable w' (waiting.foldl (record C) kinds) o =
        filled ++ (seatTable w kinds o).drop filled.length

theorem started_start : ∀ {waiting : List (SystemOutput α)} {w : World α}
    {kinds : SystemInvocation → List Bool}, Kinded w kinds →
    (∀ output ∈ waiting, w.cursor output.owner ≤ (w.slots output.owner).length) →
    (∀ output ∈ waiting, seats C output.commands ≠ [] → w.cursor output.owner = 0) →
    waiting.Pairwise (Once C) → (∀ key e, w.registry key = some e → named e) →
    (∀ output ∈ waiting, ∀ c ∈ output.commands, ∀ e ∈ c.claims C, named e) →
    waiting.foldlM (land C) w = some w' → Started C named waiting kinds w w'
  | [], w, kinds, hkinds, _, _, _, hregistry, _, h => by
    cases h
    exact ⟨.refl _, hregistry, hkinds, fun _ _ => rfl,
      fun o => Or.inl ⟨rfl, fun output hmem => by cases hmem⟩⟩
  | output :: waiting, w, kinds, hkinds, hroom, hzero, honce, hregistry, hclaims, h => by
    obtain ⟨u, hu, hrest⟩ := Option.bind_eq_some_iff.mp h
    obtain ⟨hfirst, honce⟩ := List.pairwise_cons.mp honce
    have hland : Landed C named output kinds w u :=
      landed_land hregistry (hclaims output List.mem_cons_self) (hroom output List.mem_cons_self) hu
    have hstart : w.cursor output.owner = 0 ∨ seats C output.commands = [] := by
      by_cases hnone : seats C output.commands = []
      · exact Or.inr hnone
      · exact Or.inl (hzero output List.mem_cons_self hnone)
    have htail := started_start (hland.kinded hstart hkinds)
      (fun out hmem => by
        by_cases hown : out.owner = output.owner
        · rw [hown]
          exact hland.room
        · rw [(hland.others _ hown).1, (hland.others _ hown).2]
          exact hroom out (List.mem_cons_of_mem _ hmem))
      (fun out hmem hspawns => by
        by_cases hown : out.owner = output.owner
        · have hempty := (hfirst out hmem hown.symm).resolve_right hspawns
          rw [hown, hland.cursor, hempty, ← hown]
          exact hzero out (List.mem_cons_of_mem _ hmem) hspawns
        · rw [(hland.others _ hown).2]
          exact hzero out (List.mem_cons_of_mem _ hmem) hspawns)
      honce hland.registry (fun out hmem => hclaims out (List.mem_cons_of_mem _ hmem)) hrest
    refine ⟨hland.steady.trans htail.steady, htail.registry, htail.kinded, fun o hnone => ?_,
      fun o => ?_⟩
    · rw [htail.others o fun out hmem => hnone out (List.mem_cons_of_mem _ hmem)]
      exact (hland.others o fun hown => hnone output List.mem_cons_self hown.symm).2
    have hkept : o ≠ output.owner ∨ seats C output.commands = [] →
        seatTable u (record C kinds output) o = seatTable w kinds o := by
      intro hother
      by_cases hown : o = output.owner
      · have hempty := hother.resolve_left fun hne => hne hown
        rw [record_of_nil hempty]
        unfold seatTable
        rw [hown, hland.none hempty]
      · unfold seatTable
        rw [(hland.others o hown).1, record_ne hown]
    rw [List.foldl_cons]
    rcases htail.table o with ⟨htable, hnone⟩ | ⟨out, hmem, howner, hsome, filled, hfilled, htable⟩
    · by_cases hother : o ≠ output.owner ∨ seats C output.commands = []
      · refine Or.inl ⟨htable.trans (hkept hother), fun out hmem hown => ?_⟩
        rcases List.mem_cons.mp hmem with rfl | hmem
        · exact hother.resolve_left fun hne => hne hown.symm
        · exact hnone out hmem hown
      · -- The output is the one that fills the seats of its owner.
        obtain ⟨hown, hspawns⟩ := not_or.mp hother
        have hown := not_not.mp hown
        obtain ⟨filled, hfilled, hseats⟩ := hland.filled (hstart.resolve_right hspawns)
        refine Or.inr ⟨output, List.mem_cons_self, hown.symm, hspawns, filled, hfilled, ?_⟩
        rw [htable, hown]
        exact hseats
    · by_cases hother : o ≠ output.owner ∨ seats C output.commands = []
      · rw [hkept hother] at htable
        exact Or.inr ⟨out, List.mem_cons_of_mem _ hmem, howner, hsome, filled, hfilled, htable⟩
      · obtain ⟨hown, hspawns⟩ := not_or.mp hother
        have hown := not_not.mp hown
        exact absurd ((hfirst out hmem (hown.symm.trans howner.symm)).resolve_left hspawns) hsome

end Start

end Spawns
end Porridge
