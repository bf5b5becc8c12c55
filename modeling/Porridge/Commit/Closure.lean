import Porridge.World.Reach
import Porridge.World.Reachable
import Porridge.World.Inverses

/-! The retirement cascade takes away the outputs of the least closed set of invocations. -/
namespace Porridge

variable {α : Type} {C : Components α}

namespace World

/-- The least set of selected invocations with outputs that holds whatever a removed entity
keys, and whatever an entity keys that a member of the set has an output on. -/
inductive Withdraws (w : World α) (selected : Option (List SystemId)) (removed : List Entity) :
    SystemInvocation → Prop
  | keyed {o : SystemInvocation} {k : Entity} (hsel : selects selected o.system = true)
      (hout : ∃ t e, w.owner? t e = some o) (hkey : k ∈ o.keys) (h : k ∈ removed) :
      Withdraws w selected removed o
  | chained {o o' : SystemInvocation} {k : Entity} {t : TypeId}
      (hsel : selects selected o.system = true) (hout : ∃ t e, w.owner? t e = some o)
      (hkey : k ∈ o.keys) (h : Withdraws w selected removed o') (ho : w.owner? t k = some o') :
      Withdraws w selected removed o

/-- The removed entities and those on which a withdrawn invocation has an output. -/
def Vacates (w : World α) (selected : Option (List SystemId)) (removed : List Entity)
    (e : Entity) : Prop :=
  e ∈ removed ∨ ∃ t o, w.owner? t e = some o ∧ w.Withdraws selected removed o

section Closure

variable {w : World α} {selected : Option (List SystemId)} {removed : List Entity}

/-- A selected invocation with outputs is withdrawn exactly when a vacated entity keys it. -/
theorem withdraws_iff {o : SystemInvocation} :
    w.Withdraws selected removed o ↔ World.selects selected o.system = true ∧
      (∃ t e, w.owner? t e = some o) ∧ ∃ k ∈ o.keys, w.Vacates selected removed k := by
  constructor
  · intro h
    cases h with
    | keyed hsel hout hkey h => exact ⟨hsel, hout, _, hkey, Or.inl h⟩
    | chained hsel hout hkey h ho => exact ⟨hsel, hout, _, hkey, Or.inr ⟨_, _, ho, h⟩⟩
  · intro h
    obtain ⟨hsel, hout, k, hkey, hk⟩ := h
    rcases hk with hk | ⟨t, o', ho, hk⟩
    · exact .keyed hsel hout hkey hk
    · exact .chained hsel hout hkey hk ho

/-- Every set of invocations closed under the two rules holds the withdrawn ones. -/
theorem Withdraws.least {closed : SystemInvocation → Prop}
    (hclosed : ∀ o, World.selects selected o.system = true → (∃ t e, w.owner? t e = some o) →
      (∃ k ∈ o.keys, k ∈ removed ∨ ∃ t o', w.owner? t k = some o' ∧ closed o') → closed o)
    {o : SystemInvocation} (h : w.Withdraws selected removed o) : closed o := by
  induction h with
  | keyed hsel hout hkey h => exact hclosed _ hsel hout ⟨_, hkey, Or.inl h⟩
  | chained hsel hout hkey _ ho ih => exact hclosed _ hsel hout ⟨_, hkey, Or.inr ⟨_, _, ho, ih⟩⟩

end Closure

/-- Every withdrawn invocation goes back to one that a removed entity keys. -/
theorem Withdraws.exists_keyed {w : World α} {selected : Option (List SystemId)}
    {removed : List Entity} {o : SystemInvocation} (h : w.Withdraws selected removed o) :
    ∃ o', World.selects selected o'.system = true ∧ (∃ t e, w.owner? t e = some o') ∧
      ∃ k ∈ o'.keys, k ∈ removed := by
  induction h with
  | keyed hsel hout hkey h => exact ⟨_, hsel, hout, _, hkey, h⟩
  | chained _ _ _ _ _ ih => exact ih

/-- Who is withdrawn is decided by who owns what. -/
theorem Withdraws.congr {w w' : World α} {selected : Option (List SystemId)}
    {removed : List Entity} (howners : ∀ t e, w'.owner? t e = w.owner? t e)
    {o : SystemInvocation} (h : w.Withdraws selected removed o) :
    w'.Withdraws selected removed o := by
  induction h with
  | keyed hsel hout hkey h =>
    obtain ⟨t, e, ho⟩ := hout
    exact .keyed hsel ⟨t, e, (howners t e).trans ho⟩ hkey h
  | chained hsel hout hkey _ ho ih =>
    obtain ⟨t, e, hout⟩ := hout
    exact .chained hsel ⟨t, e, (howners t e).trans hout⟩ hkey ih ((howners _ _).trans ho)

section Sweeps

variable {t : TypeId} {e : Entity}

/-- Removing listed outputs of an owner takes exactly those it still owns. -/
theorem cell?_removeDerivedEntries (ht : ¬ C.IsInverse t) (o : SystemInvocation)
    (pairs : List (TypeId × Entity)) (w : World α) :
    (w.removeDerivedEntries C o pairs).cell? t e =
      if (t, e) ∈ pairs ∧ w.owner? t e = some o then none else w.cell? t e := by
  induction pairs generalizing w with
  | nil => simp [removeDerivedEntries]
  | cons p pairs ih =>
    have hstep := cell?_removeDerivedEntry C w p.1 t p.2 e o fun _ hp =>
      ht (isInverse_edgeOn C hp)
    rw [show w.removeDerivedEntries C o (p :: pairs) =
      (w.removeDerivedEntry C p.1 p.2 o).removeDerivedEntries C o pairs from rfl, ih]
    have howner : (w.removeDerivedEntry C p.1 p.2 o).owner? t e = some o ↔
        w.owner? t e = some o ∧ ¬ (t = p.1 ∧ e = p.2) := by
      rw [owner?, hstep]
      by_cases hp : t = p.1 ∧ e = p.2
      · obtain ⟨rfl, rfl⟩ := hp
        by_cases ho : w.owner? p.1 p.2 = some o
        · simp [ho]
        · rw [if_neg fun h => ho h.2.2]
          exact ⟨fun h => absurd h ho, fun h => absurd h.1 ho⟩
      · rw [if_neg fun h => hp ⟨h.1, h.2.1⟩]
        exact ⟨fun h => ⟨h, hp⟩, fun h => h.1⟩
    rw [hstep]
    by_cases hp : t = p.1 ∧ e = p.2
    · obtain ⟨rfl, rfl⟩ := hp
      by_cases ho : w.owner? p.1 p.2 = some o
      · simp [ho]
      · simp [ho, howner]
    · have hne : (t, e) ≠ p := fun h => hp ⟨by rw [← h], by rw [← h]⟩
      rw [if_neg (show ¬ (t = p.1 ∧ e = p.2 ∧ w.owner? p.1 p.2 = some o) from
        fun h => hp ⟨h.1, h.2.1⟩)]
      simp only [howner, hp, not_false_eq_true, and_true, List.mem_cons, hne, false_or]

/-- Retiring an owner takes every entry it owns and no other. -/
theorem cell?_removeDerivedOwned (ht : ¬ C.IsInverse t) {w : World α}
    (h : w.Indexed fun _ _ => False) (o : SystemInvocation) :
    (w.removeDerivedOwned C o).cell? t e =
      if w.owner? t e = some o then none else w.cell? t e := by
  have hsweep := cell?_removeDerivedEntries (e := e) ht o (w.outputs o) (w.forgetOwner o)
  have hlisted : (t, e) ∈ w.outputs o ∧ w.owner? t e = some o ↔ w.owner? t e = some o :=
    ⟨fun hp => hp.2, fun ho => ⟨(h t e o ho).resolve_right id, ho⟩⟩
  rw [removeDerivedOwned, hsweep]
  exact if_congr hlisted rfl rfl

theorem cell?_retireOwners (ht : ¬ C.IsInverse t) (owners : List SystemInvocation)
    {w : World α} (h : w.Indexed fun _ _ => False) :
    (w.retireOwners C owners).1.cell? t e =
      if ∃ o ∈ owners, w.owner? t e = some o then none else w.cell? t e := by
  induction owners generalizing w with
  | nil => simp [retireOwners]
  | cons o owners ih =>
    have hfirst := cell?_removeDerivedOwned (e := e) ht h o
    rw [show (w.retireOwners C (o :: owners)).1 =
      ((w.removeDerivedOwned C o).retireOwners C owners).1 from rfl, ih (h.removeDerivedOwned C o)]
    by_cases ho : w.owner? t e = some o
    · rw [if_pos ho] at hfirst
      have hnone : (w.removeDerivedOwned C o).owner? t e = none := by
        rw [owner?, hfirst]
        rfl
      simp [hnone, hfirst, ho]
    · rw [if_neg ho] at hfirst
      have hsame : (w.removeDerivedOwned C o).owner? t e = w.owner? t e := by
        rw [owner?, hfirst]
        rfl
      simp only [hsame, hfirst, List.exists_mem_cons_iff, ho, false_or]

/-- An entity found by retiring owners carried an output of one of them. -/
theorem owned_of_found (owners : List SystemInvocation) {w : World α} {x : Entity}
    (hx : x ∈ (w.retireOwners C owners).2) : ∃ o ∈ owners, ∃ t, w.owner? t x = some o := by
  induction owners generalizing w with
  | nil => cases hx
  | cons o owners ih =>
    rcases List.mem_append.mp hx with hx | hx
    · have hremoved : ∀ (pairs : List (TypeId × Entity)) (u : World α),
          x ∈ u.removedOutputs C o pairs → ∃ t, u.owner? t x = some o := by
        intro pairs
        induction pairs with
        | nil => intro u hu; cases hu
        | cons p pairs ih =>
          intro u hu
          have hrest : x ∈ (u.removeDerivedEntry C p.1 p.2 o).removedOutputs C o pairs →
              ∃ t, u.owner? t x = some o := by
            intro hmem
            obtain ⟨t, ht⟩ := ih _ hmem
            exact ⟨t, (closed_disowning C).removeDerivedEntry u p.1 p.2 trivial t x o ht⟩
          unfold removedOutputs at hu
          dsimp only at hu
          split_ifs at hu with ho
          · rcases List.mem_cons.mp hu with heq | hu
            · exact ⟨p.1, heq ▸ ho⟩
            · exact hrest hu
          · exact hrest hu
      exact ⟨o, List.mem_cons_self, hremoved _ (w.forgetOwner o) hx⟩
    · obtain ⟨o', ho', t, ht⟩ := ih hx
      exact ⟨o', List.mem_cons_of_mem _ ho', t, closed_disowning_removeDerivedOwned C w o ht⟩

end Sweeps
end World

/-- What a round of the cascade keeps: the entities seen are vacated ones, those behind the
frontier key nothing more, and what is gone was keyed by an entity seen. -/
structure Withdrawing (C : Components α) (w₀ : World α) (memo : MemoTable)
    (selected : Option (List SystemId)) (removed : List Entity) (r : Retirement α)
    (seen frontier : List Entity) : Prop where
  indexed : r.world.Indexed fun _ _ => False
  disowns : ∀ t e o, r.world.owner? t e = some o → w₀.owner? t e = some o
  roots : ∀ x ∈ removed, x ∈ seen
  ahead : ∀ x ∈ frontier, x ∈ seen
  vacated : ∀ x ∈ seen, w₀.Vacates selected removed x
  behind : ∀ x ∈ seen, x ∈ frontier ∨ r.Clear selected [x]
  cell : ∀ t e, ¬ C.IsInverse t → r.world.cell? t e = w₀.cell? t e ∨
    r.world.cell? t e = none ∧ e ∈ seen ∧
      ∃ o, w₀.owner? t e = some o ∧ w₀.Withdraws selected removed o
  entries : ∀ i, r.memo.lookup i = memo.lookup i ∨
    r.memo.lookup i = none ∧ ∃ k ∈ i.keys, k ∈ seen

section Cascade

variable {w : World α} {memo : MemoTable} {selected : Option (List SystemId)}
  {removed : List Entity}

theorem Retirement.Clear.of_mem {r : Retirement α} {keys : List Entity}
    (h : r.Clear selected keys) {x : Entity} (hx : x ∈ keys) : r.Clear selected [x] := by
  have hsub : ∀ i : SystemInvocation, i.touches keys = false → i.touches [x] = false := by
    intro i hi
    by_contra ht
    obtain ⟨k, hk, hkx⟩ := SystemInvocation.touches_iff.mp (Bool.eq_true_of_not_eq_false ht)
    have hki : i.touches keys = true :=
      SystemInvocation.touches_iff.mpr ⟨k, hk, List.mem_singleton.mp hkx ▸ hx⟩
    rw [hi] at hki
    cases hki
  exact ⟨fun i m hm => hsub i (h.memo i m hm), fun t e o ho hs => hsub o (h.owner t e o ho hs)⟩

/-- The owners a round retires that owned something are withdrawn ones. -/
theorem Withdrawing.withdraws {r : Retirement α} {seen frontier : List Entity}
    (h : Withdrawing C w memo selected removed r seen frontier) {o : SystemInvocation}
    (ho : o ∈ r.world.ownersTouchedBy frontier selected) {t : TypeId} {e : Entity}
    (howned : w.owner? t e = some o) : w.Withdraws selected removed o := by
  have hmem := (List.mem_filter.mp ho).2
  rw [Bool.and_eq_true] at hmem
  obtain ⟨k, hk, hkey⟩ := List.any_eq_true.mp hmem.2
  have hvacated := h.vacated k (h.ahead k (of_decide_eq_true hkey))
  exact World.withdraws_iff.mpr ⟨hmem.1, ⟨t, e, howned⟩, k, hk, hvacated⟩

theorem Withdrawing.next {r : Retirement α} {seen frontier : List Entity}
    (h : Withdrawing C w memo selected removed r seen frontier) :
    let fresh := (retireTouched C selected r frontier).2.dedup.filter (· ∉ seen)
    Withdrawing C w memo selected removed (retireTouched C selected r frontier).1
      (seen ++ fresh) fresh := by
  intro fresh
  have hshrinks := shrinks_retireTouched C selected r frontier
  have hclear := clear_retireTouched C selected h.indexed frontier
  have hfound : ∀ x ∈ (retireTouched C selected r frontier).2, x ∈ seen ++ fresh := by
    intro x hx
    by_cases hs : x ∈ seen
    · exact List.mem_append_left _ hs
    · exact List.mem_append_right _
        (List.mem_filter.mpr ⟨List.mem_dedup.mpr hx, by simpa using hs⟩)
  constructor
  · exact h.indexed.retireOwners C _
  · exact fun t e o ho => h.disowns t e o (hshrinks.owner t e o ho)
  · exact fun x hx => List.mem_append_left _ (h.roots x hx)
  · exact fun x hx => List.mem_append_right _ hx
  · intro x hx
    rcases List.mem_append.mp hx with hx | hx
    · exact h.vacated x hx
    · have hfresh := List.mem_dedup.mp (List.mem_filter.mp hx).1
      obtain ⟨o, ho, t, howned⟩ := World.owned_of_found _ hfresh
      have hbefore := h.disowns t x o howned
      exact Or.inr ⟨t, o, hbefore, h.withdraws ho hbefore⟩
  · intro x hx
    rcases List.mem_append.mp hx with hx | hx
    · rcases h.behind x hx with hx | hx
      · exact Or.inr (hclear.of_mem hx)
      · exact Or.inr (hx.of_shrinks hshrinks)
    · exact Or.inl hx
  · intro t e ht
    have hcell : (retireTouched C selected r frontier).1.world.cell? t e = _ :=
      World.cell?_retireOwners ht (r.world.ownersTouchedBy frontier selected) h.indexed
    by_cases howned : ∃ o ∈ r.world.ownersTouchedBy frontier selected,
        r.world.owner? t e = some o
    · rw [if_pos howned] at hcell
      obtain ⟨o, ho, howned⟩ := howned
      have hmem : e ∈ (retireTouched C selected r frontier).2 := by
        rcases World.owned_or_found_retireOwners C ht
          (r.world.ownersTouchedBy frontier selected) howned with hkept | hmem
        · exact absurd hkept (World.owner?_retireOwners_ne C _ h.indexed o ho t e)
        · exact hmem
      have hbefore := h.disowns t e o howned
      exact Or.inr ⟨hcell, hfound e hmem, o, hbefore, h.withdraws ho hbefore⟩
    · rw [if_neg howned] at hcell
      rw [hcell]
      rcases h.cell t e ht with hkept | ⟨hnone, hseen, hwithdrawn⟩
      · exact Or.inl hkept
      · exact Or.inr ⟨hnone, List.mem_append_left _ hseen, hwithdrawn⟩
  · intro i
    have hlookup : (retireTouched C selected r frontier).1.memo.lookup i = _ :=
      lookup_removeMemoTouchedBy r.memo frontier i
    rw [hlookup]
    split_ifs with ht
    · obtain ⟨k, hk, hkey⟩ := SystemInvocation.touches_iff.mp ht
      exact Or.inr ⟨rfl, k, hk, List.mem_append_left _ (h.ahead k hkey)⟩
    · rcases h.entries i with hkept | ⟨hnone, k, hk, hseen⟩
      · exact Or.inl hkept
      · exact Or.inr ⟨hnone, k, hk, List.mem_append_left _ hseen⟩

theorem Retirement.Clear.not_mem_keys_of_owner {r : Retirement α} {k : Entity}
    (h : r.Clear selected [k]) {t : TypeId} {e : Entity} {o : SystemInvocation}
    (ho : r.world.owner? t e = some o) (hsel : World.selects selected o.system = true) :
    k ∉ o.keys := by
  intro hkey
  have htouch := h.owner t e o ho hsel
  rw [SystemInvocation.touches_iff.mpr ⟨k, hkey, List.mem_singleton_self k⟩] at htouch
  cases htouch

theorem Retirement.Clear.not_mem_keys_of_memo {r : Retirement α} {k : Entity}
    (h : r.Clear selected [k]) {i : SystemInvocation} {m : MemoEntry}
    (hm : r.memo.lookup i = some m) : k ∉ i.keys := by
  intro hkey
  have htouch := h.memo i m hm
  rw [SystemInvocation.touches_iff.mpr ⟨k, hkey, List.mem_singleton_self k⟩] at htouch
  cases htouch

/-- No withdrawn invocation owns a maintained inverse. -/
def World.KeepsInverses (C : Components α) (w : World α) (selected : Option (List SystemId))
    (removed : List Entity) : Prop :=
  ∀ t e o, w.owner? t e = some o → w.Withdraws selected removed o → ¬ C.IsInverse t

/-- When the frontier is empty, every vacated entity has been seen. -/
theorem Withdrawing.seen_of_vacates {r : Retirement α} {seen : List Entity}
    (h : Withdrawing C w memo selected removed r seen [])
    (hplain : w.KeepsInverses C selected removed)
    {x : Entity} (hx : w.Vacates selected removed x) : x ∈ seen := by
  have hlast : ∀ {o : SystemInvocation} {k : Entity}, World.selects selected o.system = true →
      k ∈ o.keys → k ∈ seen → w.Withdraws selected removed o →
        ∀ t e, w.owner? t e = some o → e ∈ seen := by
    intro o k hsel hkey hk ho t e howned
    rcases h.cell t e (hplain t e o howned ho) with hkept | ⟨-, hseen, -⟩
    · have hclear := (h.behind k hk).resolve_left List.not_mem_nil
      have howner : r.world.owner? t e = some o := by
        rw [World.owner?, hkept]
        exact howned
      exact absurd hkey (hclear.not_mem_keys_of_owner howner hsel)
    · exact hseen
  have hwithdrawn : ∀ {o : SystemInvocation}, w.Withdraws selected removed o →
      ∀ t e, w.owner? t e = some o → e ∈ seen := by
    intro o ho
    induction ho with
    | keyed hsel hout hkey hk => exact hlast hsel hkey (h.roots _ hk) (.keyed hsel hout hkey hk)
    | chained hsel hout hkey ho howner ih =>
      exact hlast hsel hkey (ih _ _ howner) (.chained hsel hout hkey ho howner)
  rcases hx with hx | ⟨t, o, howned, ho⟩
  · exact h.roots x hx
  · exact hwithdrawn ho t x howned

theorem Withdrawing.start (hindexed : w.Indexed fun _ _ => False) (retired : Bool) :
    Withdrawing C w memo selected removed ⟨w, memo, retired⟩ removed.dedup removed.dedup :=
  ⟨hindexed, fun _ _ _ ho => ho, fun _ hx => List.mem_dedup.mpr hx, fun _ hx => hx,
    fun _ hx => Or.inl (List.mem_dedup.mp hx), fun _ hx => Or.inl hx,
    fun _ _ _ => Or.inl rfl, fun _ => Or.inl rfl⟩

variable (memo selected removed) in
/-- The cascade ends and only takes what a withdrawn invocation owns or a vacated entity keys;
where none of them owns an inverse, all of it. -/
theorem retireCascade_withdraws (hindexed : w.Indexed fun _ _ => False) (retired : Bool) :
    let r := retireCascade C selected ⟨w, memo, retired⟩ removed.dedup removed.dedup
    Worklist.Halts (retireTouched C selected) ⟨w, memo, retired⟩ removed.dedup removed.dedup r ∧
      (∀ t e, ¬ C.IsInverse t → r.world.cell? t e = w.cell? t e ∨
        r.world.cell? t e = none ∧
          ∃ o, w.owner? t e = some o ∧ w.Withdraws selected removed o) ∧
      (∀ i, (¬ ∃ k ∈ i.keys, w.Vacates selected removed k) →
        r.memo.lookup i = memo.lookup i) ∧
      (w.KeepsInverses C selected removed →
        (∀ t e o, w.owner? t e = some o → w.Withdraws selected removed o →
          r.world.cell? t e = none) ∧
        ∀ i, (∃ k ∈ i.keys, w.Vacates selected removed k) → r.memo.lookup i = none) := by
  intro r
  obtain ⟨seen, hend⟩ := Worklist.rounds_exhausts
    (fun r : Retirement α => r.world.derivedOwners.keys.length) (retireTouched_drops C selected)
    (Withdrawing C w memo selected removed) (fun _ _ _ hr => hr.next)
    (w.derivedOwners.keys.length + 1) ⟨w, memo, retired⟩ removed.dedup removed.dedup
    (Nat.lt_succ_self _) (.start hindexed retired)
  refine ⟨?_, ?_, ?_, ?_⟩
  · exact Worklist.rounds_halts (fun r : Retirement α => r.world.derivedOwners.keys.length)
      (retireTouched_drops C selected) _ _ _ _ (Nat.lt_succ_self _)
  · exact fun t e ht => (hend.cell t e ht).imp_right fun hgone => ⟨hgone.1, hgone.2.2⟩
  · intro i hi
    rcases hend.entries i with hkept | ⟨-, k, hkey, hseen⟩
    · exact hkept
    · exact absurd ⟨k, hkey, hend.vacated k hseen⟩ hi
  · intro hplain
    have hclear : ∀ {k : Entity}, w.Vacates selected removed k → r.Clear selected [k] :=
      fun hk => (hend.behind _ (hend.seen_of_vacates hplain hk)).resolve_left List.not_mem_nil
    constructor
    · intro t e o howned ho
      rcases hend.cell t e (hplain t e o howned ho) with hkept | ⟨hnone, -⟩
      · obtain ⟨hsel, -, k, hkey, hk⟩ := World.withdraws_iff.mp ho
        have howner : r.world.owner? t e = some o := by
          rw [World.owner?, show r.world.cell? t e = w.cell? t e from hkept]
          exact howned
        exact absurd hkey ((hclear hk).not_mem_keys_of_owner howner hsel)
      · exact hnone
    · intro i hi
      obtain ⟨k, hkey, hk⟩ := hi
      cases hm : r.memo.lookup i with
      | none => rfl
      | some m => exact absurd hkey ((hclear hk).not_mem_keys_of_memo hm)

variable (memo selected removed) in
/-- Reconciling removed entities ends and takes the outputs of the least closed set of
invocations, given that none of them owns an inverse. -/
theorem reconcileRemovedInvocations_withdraws (hw : World.Reachable C w)
    (removedOwners : List SystemInvocation) (systems : List BoxedSystem) :
    let owners := reconcileRemovedOutputOwners selected memo systems removedOwners
    let r := (reconcileRemovedInvocations C w memo removed removedOwners systems selected).1
    Worklist.Halts (retireTouched C selected) ⟨w, owners.1, owners.2.2⟩ removed.dedup
        removed.dedup r ∧
      (∀ t e, ¬ C.IsInverse t →
        (∀ o, w.owner? t e = some o → ¬ w.Withdraws selected removed o) →
          r.world.cell? t e = w.cell? t e) ∧
      (∀ i, ¬ ((∃ k ∈ i.keys, w.Vacates selected removed k) ∨
        i ∈ removedOwners ∧ World.selects selected i.system = true) →
          r.memo.lookup i = memo.lookup i) ∧
      (w.KeepsInverses C selected removed →
        (∀ t e o, w.owner? t e = some o → w.Withdraws selected removed o →
          r.world.cell? t e = none) ∧
        ∀ i, (∃ k ∈ i.keys, w.Vacates selected removed k) → r.memo.lookup i = none) := by
  intro owners r
  obtain ⟨hhalts, hkept, hentries, hwithdrawn⟩ :=
    retireCascade_withdraws (C := C) owners.1 selected removed hw.indexed owners.2.2
  refine ⟨hhalts, ?_, ?_, hwithdrawn⟩
  · intro t e ht hothers
    rcases hkept t e ht with hsame | ⟨-, o, howned, ho⟩
    · exact hsame
    · exact absurd ho (hothers o howned)
  intro i hi
  have hlookup := lookup_reconcileRemovedOutputOwners selected i removedOwners memo systems
  have hk : ¬ ∃ k ∈ i.keys, w.Vacates selected removed k := fun h => hi (Or.inl h)
  exact (hentries i hk).trans (hlookup.trans (if_neg fun h => hi (Or.inr h)))

end Cascade

/-- The row keyed by entity 1 emits an edge from 2 to 4, and entity 2 keys a further row. -/
def chainedRows : World Nat :=
  ((World.machine World.following).run World.new
    [.output ⟨⟨0, [1]⟩, [.insert 5 2 (.data 4)]⟩ false,
      .output ⟨⟨1, [2]⟩, [.insert 7 9 (.data 0)]⟩ false]).getD World.new

theorem chainedRows_withdraws :
    chainedRows.Withdraws none [1] ⟨1, [2]⟩ ∧ chainedRows.has 6 4 = true ∧
      (reconcileRemovedInvocations World.following chainedRows ∅ [1] [] [] none).1.world.cell? 7 9 =
        none := by
  have hrun : (World.machine World.following).run World.new
      [.output ⟨⟨0, [1]⟩, [.insert 5 2 (.data 4)]⟩ false,
        .output ⟨⟨1, [2]⟩, [.insert 7 9 (.data 0)]⟩ false] = some chainedRows := rfl
  have hreachable : World.Reachable World.following chainedRows :=
    Machine.Reachable.run (.init World.machine_init_new) hrun
  have hfirst : chainedRows.Withdraws none [1] ⟨0, [1]⟩ :=
    .keyed rfl ⟨5, 2, by decide⟩ (by decide) (List.mem_singleton_self 1)
  have hsecond : chainedRows.Withdraws none [1] ⟨1, [2]⟩ :=
    .chained (k := 2) (t := 5) rfl ⟨7, 9, by decide⟩ (by decide) hfirst (by decide)
  have hplain : chainedRows.KeepsInverses World.following none [1] := by
    intro t e o howned _ hinverse
    obtain ⟨pairs, hpairs, hmem⟩ :=
      World.exists_of_mem_outputs ((hreachable.indexed t e o howned).resolve_right id)
    have hentries : chainedRows.derivedOwners.entries =
        [⟨⟨1, [2]⟩, [(7, 9)]⟩, ⟨⟨0, [1]⟩, [(5, 2)]⟩] := by decide
    rw [hentries] at hpairs
    obtain ⟨edge, hrole⟩ := hinverse
    simp only [List.mem_cons, List.not_mem_nil, or_false, Sigma.mk.injEq, heq_eq_eq] at hpairs
    rcases hpairs with ⟨-, rfl⟩ | ⟨-, rfl⟩
    · cases List.mem_singleton.mp hmem
      cases hrole
    · cases List.mem_singleton.mp hmem
      cases hrole
  obtain ⟨-, -, -, hwithdrawn⟩ :=
    reconcileRemovedInvocations_withdraws ∅ none [1] hreachable [] []
  exact ⟨hsecond, by decide, (hwithdrawn hplain).1 7 9 _ (by decide) hsecond⟩

/-- Entity 1 keys two rows: the first emits the inverse 6 on entity 4 itself, the second the edge
from 2 that the inverse lists already. Entity 4 keys a third row. -/
def handInverse : World Nat :=
  ((World.machine World.following).run World.new
    [.output ⟨⟨2, [1]⟩, [.insert 6 4 (.members [2])]⟩ false,
      .output ⟨⟨1, [1]⟩, [.insert 5 2 (.data 4)]⟩ false,
      .output ⟨⟨3, [4]⟩, [.insert 7 9 (.data 0)]⟩ false]).getD World.new

theorem reachable_handInverse : World.Reachable World.following handInverse := by
  have hrun : (World.machine World.following).run World.new
      [.output ⟨⟨2, [1]⟩, [.insert 6 4 (.members [2])]⟩ false,
        .output ⟨⟨1, [1]⟩, [.insert 5 2 (.data 4)]⟩ false,
        .output ⟨⟨3, [4]⟩, [.insert 7 9 (.data 0)]⟩ false] = some handInverse := rfl
  exact Machine.Reachable.run (.init World.machine_init_new) hrun

/-- The edge goes first and takes the inverse with it, so entity 4 is never found: the third row
is of the least closed set and keeps its output. -/
theorem handInverse_keeps_withdrawn :
    ¬ ∀ (w : World Nat) (memo : MemoTable) (removed : List Entity)
      (removedOwners : List SystemInvocation) (systems : List BoxedSystem)
      (selected : Option (List SystemId)), World.Reachable World.following w →
      ∀ t e o, w.owner? t e = some o → w.Withdraws selected removed o →
        (reconcileRemovedInvocations World.following w memo removed removedOwners systems
          selected).1.world.has t e = false := by
  intro h
  have hfirst : handInverse.Withdraws none [1] ⟨2, [1]⟩ :=
    .keyed rfl ⟨6, 4, by decide⟩ (by decide) (List.mem_singleton_self 1)
  have hthird : handInverse.Withdraws none [1] ⟨3, [4]⟩ :=
    .chained (k := 4) (t := 6) rfl ⟨7, 9, by decide⟩ (by decide) hfirst (by decide)
  have hgone := h handInverse ∅ [1] [] [] none reachable_handInverse 7 9 _ (by decide) hthird
  exact absurd hgone (by decide)

end Porridge
