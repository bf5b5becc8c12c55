import Porridge.Spawns

/-! Every entity an ordinary spawn may hold has one home: an owner and an index of its spawns. -/
namespace Porridge

variable {α : Type} {C : Components α}

/-- The owner and the index an entity was first reserved for, while ordinary spawns may hold it. -/
abbrev Home := Entity → Option (SystemInvocation × Nat)

open Classical in
noncomputable def Home.bar (home : Home) (named : Entity → Prop) : Home :=
  fun e => if named e then none else home e

/-- The entity of the seat is known, and no ordinary spawn holds it elsewhere. -/
structure Seat.Seated (seat : Seat) (home : Home) (next : Entity) (o : SystemInvocation)
    (k : Nat) : Prop where
  known : seat.entity < next
  home : home seat.entity = some (o, k) ∨ seat.singleton = true ∧ home seat.entity = none

/-- The entity is known and no ordinary spawn holds it. -/
structure Home.Bars (home : Home) (next e : Entity) : Prop where
  known : e < next
  home : home e = none

section Homes

variable {home home' : Home} {next next' e : Entity} {o : SystemInvocation} {k : Nat} {seat : Seat}
  {named : Entity → Prop}

theorem Seat.Seated.ordinary (h : seat.Seated home next o k) (hk : seat.singleton = false) :
    home seat.entity = some (o, k) :=
  h.home.resolve_right fun hs => by rw [hk] at hs; cases hs.1

theorem Seat.Seated.grow (h : seat.Seated home next o k) (hn : next ≤ next')
    (hkept : ∀ e, e < next → home' e = home e) : seat.Seated home' next' o k where
  known := Nat.lt_of_lt_of_le h.known hn
  home := by
    rw [hkept seat.entity h.known]
    exact h.home

theorem Home.Bars.grow (h : home.Bars next e) (hn : next ≤ next')
    (hkept : ∀ e, e < next → home' e = home e) : home'.Bars next' e :=
  ⟨Nat.lt_of_lt_of_le h.known hn, (hkept e h.known).trans h.home⟩

theorem Home.bar_of_named (h : named e) : home.bar named e = none := if_pos h

theorem Home.bar_of_not_named (h : ¬ named e) : home.bar named e = home e := if_neg h

theorem Seat.Seated.bar (h : seat.Seated home next o k)
    (hfree : seat.singleton = false → ¬ named seat.entity) :
    seat.Seated (home.bar named) next o k where
  known := h.known
  home := by
    by_cases hnamed : named seat.entity
    · right
      refine ⟨?_, Home.bar_of_named hnamed⟩
      by_contra hkind
      exact hfree (Bool.eq_false_iff.mpr hkind) hnamed
    · rw [Home.bar_of_not_named hnamed]
      exact h.home

theorem Home.Bars.bar (h : home.Bars next e) : (home.bar named).Bars next e where
  known := h.known
  home := by
    unfold Home.bar
    split_ifs
    · rfl
    · exact h.home

end Homes

namespace Spawns

variable {s s' : Spawns α} {home home' : Home}

def buffers (s : Spawns α) : List (List (Command α)) :=
  s.flights.map Flight.commands ++ s.waiting.map SystemOutput.commands

/-- Seats are seated, and what is or may become registered is barred from ordinary spawns. -/
structure Housed (C : Components α) (home : Home) (s : Spawns α) : Prop where
  seated : ∀ o k seat, s.Sits C o k seat → seat.Seated home s.world.nextEntity o k
  barred : ∀ key e, s.world.registry key = some e → home.Bars s.world.nextEntity e
  marks : ∀ commands ∈ s.buffers, ∀ t e v, Command.insert t e v ∈ commands →
    C.singletonKey t ≠ none → home.Bars s.world.nextEntity e

/-- A step that moves no entity from its home. -/
theorem Housed.grow (h : s.Housed C home) (hn : s.world.nextEntity ≤ s'.world.nextEntity)
    (hkept : ∀ e, e < s.world.nextEntity → home' e = home e)
    (hseats : ∀ o k seat, s'.Sits C o k seat →
      s.Sits C o k seat ∨ seat.Seated home' s'.world.nextEntity o k)
    (hregistry : ∀ key e, s'.world.registry key = some e →
      s.world.registry key = some e ∨ home'.Bars s'.world.nextEntity e)
    (hmarks : ∀ commands ∈ s'.buffers, ∀ t e v, Command.insert t e v ∈ commands →
      C.singletonKey t ≠ none → ∃ commands' ∈ s.buffers, Command.insert t e v ∈ commands') :
    s'.Housed C home' where
  seated o k seat hs := (hseats o k seat hs).elim (fun hs => (h.seated o k seat hs).grow hn hkept) id
  barred key e hkey := (hregistry key e hkey).elim (fun hkey => (h.barred key e hkey).grow hn hkept) id
  marks commands hmem t e v hc ht := by
    obtain ⟨commands', hmem', hc'⟩ := hmarks commands hmem t e v hc ht
    exact (h.marks commands' hmem' t e v hc' ht).grow hn hkept

/-- A step after which the named entities are the ones that may be registered. -/
theorem Housed.turn {named : Entity → Prop} (h : s.Housed C home)
    (hn : s'.world.nextEntity = s.world.nextEntity)
    (hknown : ∀ e, named e → e < s.world.nextEntity)
    (hseats : ∀ o k seat, s'.Sits C o k seat →
      s.Sits C o k seat ∧ (seat.singleton = false → ¬ named seat.entity) ∨
        seat.singleton = true ∧ named seat.entity)
    (hregistry : ∀ key e, s'.world.registry key = some e → named e)
    (hmarks : ∀ commands ∈ s'.buffers, ∀ t e v, Command.insert t e v ∈ commands →
      C.singletonKey t ≠ none → named e ∨ ∃ commands' ∈ s.buffers, Command.insert t e v ∈ commands') :
    s'.Housed C (home.bar named) where
  seated o k seat hs := by
    rw [hn]
    rcases hseats o k seat hs with ⟨hs, hfree⟩ | ⟨hkind, hnamed⟩
    · exact (h.seated o k seat hs).bar hfree
    · exact ⟨hknown _ hnamed, Or.inr ⟨hkind, Home.bar_of_named hnamed⟩⟩
  barred key e hkey := by
    rw [hn]
    have hnamed := hregistry key e hkey
    exact ⟨hknown e hnamed, Home.bar_of_named hnamed⟩
  marks commands hmem t e v hc ht := by
    rw [hn]
    rcases hmarks commands hmem t e v hc ht with hnamed | ⟨commands', hmem', hc'⟩
    · exact ⟨hknown e hnamed, Home.bar_of_named hnamed⟩
    · exact (h.marks commands' hmem' t e v hc' ht).bar

/-- What a buffer may register is known. -/
theorem Housed.known_claims (h : s.Housed C home) {owner : SystemInvocation}
    {commands : List (Command α)} (hmem : commands ∈ s.buffers)
    (hsits : ∀ k seat, (seats C commands)[k]? = some seat → s.Sits C owner k seat)
    {c : Command α} (hc : c ∈ commands) {e : Entity} (he : e ∈ c.claims C) :
    home.Bars s.world.nextEntity e ∨
      ∃ k, (seats C commands)[k]? = some ⟨e, true⟩ ∧
        Seat.Seated ⟨e, true⟩ home s.world.nextEntity owner k := by
  cases c with
  | removeEntity => cases he
  | removeComponent => cases he
  | insert t e' v =>
    by_cases ht : C.singletonKey t = none
    · simp [Command.claims, ht] at he
    · simp only [Command.claims, ht, if_false, List.mem_singleton] at he
      exact Or.inl (he ▸ h.marks commands hmem t e' v hc ht)
  | spawn bundle reserved =>
    by_cases hkind : Command.ordinary C bundle = true
    · simp [Command.claims, hkind] at he
    · simp only [Command.claims, hkind, if_false, List.mem_singleton, Bool.false_eq_true] at he
      have hseat : (⟨e, true⟩ : Seat) ∈ seats C commands :=
        List.mem_filterMap.mpr ⟨_, hc, by simp [Command.seat?, he, hkind]⟩
      obtain ⟨k, hk⟩ := List.getElem?_of_mem hseat
      exact Or.inr ⟨k, hk, h.seated owner k _ (hsits k _ hk)⟩

/-- An ordinary spawn holds what a buffer may register only at the seat of that buffer. -/
theorem Housed.claimed (h : s.Housed C home) {o owner : SystemInvocation} {k : Nat} {e : Entity}
    (hs : s.Sits C o k ⟨e, false⟩) {commands : List (Command α)} (hmem : commands ∈ s.buffers)
    (hsits : ∀ k seat, (seats C commands)[k]? = some seat → s.Sits C owner k seat)
    {c : Command α} (hc : c ∈ commands) (he : e ∈ c.claims C) :
    o = owner ∧ (seats C commands)[k]? = some ⟨e, true⟩ := by
  have hhome : home e = some (o, k) := (h.seated o k _ hs).ordinary rfl
  rcases h.known_claims hmem hsits hc he with hbars | ⟨j, hj, hseated⟩
  · rw [hbars.home] at hhome
    cases hhome
  · rcases hseated.home with hown | ⟨-, hnone⟩
    · rw [hown] at hhome
      cases hhome
      exact ⟨rfl, hj⟩
    · rw [hnone] at hhome
      cases hhome

/-- No ordinary spawn holds a registered entity. -/
theorem Housed.unregistered (h : s.Housed C home) {o : SystemInvocation} {k : Nat} {e : Entity}
    (hs : s.Sits C o k ⟨e, false⟩) (key : TypeId) : s.world.registry key ≠ some e := by
  intro hkey
  have hhome : home e = some (o, k) := (h.seated o k _ hs).ordinary rfl
  rw [(h.barred key e hkey).home] at hhome
  cases hhome

theorem Housed.distinct (h : s.Housed C home) {o o' : SystemInvocation} {k k' : Nat} {e : Entity}
    (hs : s.Sits C o k ⟨e, false⟩) (hs' : s.Sits C o' k' ⟨e, false⟩) : o = o' ∧ k = k' := by
  have hhome : home e = some (o, k) := (h.seated o k _ hs).ordinary rfl
  have hhome' : home e = some (o', k') := (h.seated o' k' _ hs').ordinary rfl
  exact Prod.mk.inj (Option.some.inj (hhome.symm.trans hhome'))

end Spawns
end Porridge
