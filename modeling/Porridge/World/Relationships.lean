import Porridge.World.Reach

/-! Maintained inverses: which edges they list, after every way an edge can come or go. -/
namespace Porridge

theorem pairwise_lt_orderedInsert {a : Nat} : ∀ {l : List Nat}, l.Pairwise (· < ·) → a ∉ l →
    (l.orderedInsert (· ≤ ·) a).Pairwise (· < ·)
  | [], _, _ => List.pairwise_singleton _ _
  | b :: l, hl, ha => by
    obtain ⟨hb, hl⟩ := List.pairwise_cons.mp hl
    have hne : a ≠ b := fun h => ha (h ▸ List.mem_cons_self)
    have hrest := pairwise_lt_orderedInsert hl fun h => ha (List.mem_cons_of_mem b h)
    rw [List.orderedInsert_cons]
    split_ifs with hle
    · refine List.pairwise_cons.mpr ⟨fun c hc => ?_, List.pairwise_cons.mpr ⟨hb, hl⟩⟩
      rcases List.mem_cons.mp hc with rfl | hc
      · omega
      · have := hb c hc
        omega
    · refine List.pairwise_cons.mpr ⟨fun c hc => ?_, hrest⟩
      rcases (List.mem_orderedInsert _).mp hc with rfl | hc
      · omega
      · exact hb c hc

/-- The engine keeps `inverse` for the edges of type `edge`, and nothing else for them. -/
structure Components.Paired {α : Type} (C : Components α) (edge inverse : TypeId) : Prop where
  role : C.role edge = .edge inverse
  /-- No further relationship has `inverse` for its edge. -/
  unretracted : ∀ t, C.role t ≠ .inverse inverse

theorem Components.Paired.inverse_role {α : Type} {C : Components α} {edge inverse : TypeId}
    (hp : C.Paired edge inverse) : C.role inverse = .inverse edge :=
  C.inverse_role edge inverse hp.role

namespace World

variable {α : Type} (C : Components α)

def membersOn (w : World α) (t : TypeId) (e : Entity) : List Entity :=
  ((w.cell? t e).map fun x => x.value.memberList).getD []

/-- Every stored inverse is a base fact with a nonempty, strictly ascending member list. -/
def Tidy (inverse : TypeId) (w : World α) : Prop :=
  ∀ e x, w.cell? inverse e = some x →
    x.owner = none ∧ ∃ members, x.value = .members members ∧ members ≠ [] ∧
      members.Pairwise (· < ·)

/-- The inverses list exactly the stored edges, but for those to the targets in `gone`. -/
structure Agrees (edge inverse : TypeId) (gone : Entity → Prop) (w : World α) : Prop where
  tidy : w.Tidy inverse
  listed : ∀ e source,
    source ∈ w.membersOn inverse e ↔ ¬ gone e ∧ w.edgeOn C edge source = some (inverse, e)

section Effects

variable {C} {w : World α} {edge inverse : TypeId}

theorem membersOn_congr {w' : World α} {t : TypeId} {e : Entity} (h : w'.cell? t e = w.cell? t e) :
    w'.membersOn t e = w.membersOn t e := by
  rw [membersOn, membersOn, h]

theorem Tidy.congr {w' : World α} (hw : w.Tidy inverse)
    (h : ∀ e x, w'.cell? inverse e = some x → w.cell? inverse e = some x) : w'.Tidy inverse :=
  fun e x hx => hw e x (h e x hx)

theorem Agrees.congr {gone : Entity → Prop} {w' : World α} (hw : w.Agrees C edge inverse gone)
    (hs : w'.stores = w.stores) : w'.Agrees C edge inverse gone := by
  have hcell := cell?_congr hs
  refine ⟨hw.tidy.congr fun e x hx => hcell inverse e ▸ hx, fun e source => ?_⟩
  rw [membersOn_congr (hcell inverse e), edgeOn, hcell edge source]
  exact hw.listed e source

theorem edgeOn_writeEntry (t t' : TypeId) (e e' : Entity) (v : Value α)
    (o : Option SystemInvocation) : (w.writeEntry C t e v o).edgeOn C t' e' =
      if t' = t ∧ e' = e then C.relationshipEdge t v else w.edgeOn C t' e' := by
  rw [edgeOn, cell?_writeEntry]
  split_ifs with h
  · rw [h.1]
    rfl
  · rfl

theorem edgeOn_dropEntry (t t' : TypeId) (e e' : Entity) (remover : Option SystemInvocation) :
    (w.dropEntry C t e remover).edgeOn C t' e' =
      if t' = t ∧ e' = e then none else w.edgeOn C t' e' := by
  rw [edgeOn, cell?_dropEntry]
  split_ifs <;> rfl

theorem edgeOn_sweepEntry {t : TypeId} {e : Entity} {o : SystemInvocation}
    (ho : w.owner? t e = some o) (t' : TypeId) (e' : Entity) :
    (w.sweepEntry t e o).edgeOn C t' e' =
      if t' = t ∧ e' = e then none else w.edgeOn C t' e' := by
  rw [edgeOn, cell?_sweepEntry]
  simp only [ho, and_true]
  split_ifs <;> rfl

theorem edgeOn_purgeEntity (e e' : Entity) (t : TypeId) :
    (w.purgeEntity e).edgeOn C t e' = if e' = e then none else w.edgeOn C t e' := by
  rw [edgeOn, cell?_purgeEntity]
  split_ifs <;> rfl

theorem cell?_establishEdge (source : Entity) (p : Option (TypeId × Entity)) (t : TypeId)
    (e : Entity) (h : p ≠ some (t, e)) :
    (w.establishEdge C source p).cell? t e = w.cell? t e := by
  cases p with
  | none => rfl
  | some q =>
    have hne : ¬ (t = q.1 ∧ e = q.2) := fun hq => h (by rw [hq.1, hq.2])
    unfold establishEdge relationshipAddMember
    dsimp only
    split_ifs
    · rfl
    · rw [cell?_writeEntry, if_neg hne]

/-- Keeping inverses moves no edge. -/
theorem edgeOn_of_inverse {w' : World α} {p : Option (TypeId × Entity)}
    (hp : ∀ q ∈ p, C.IsInverse q.1) (hedge : C.role edge = .edge inverse)
    (hcells : ∀ t e, p ≠ some (t, e) → w'.cell? t e = w.cell? t e) (e : Entity) :
    w'.edgeOn C edge e = w.edgeOn C edge e := by
  have hne : p ≠ some (edge, e) := by
    intro heq
    obtain ⟨t, ht⟩ := hp (edge, e) heq
    rw [hedge] at ht
    cases ht
  rw [edgeOn, hcells edge e hne]
  rfl

end Effects
section Members

variable {C} {w : World α} {edge inverse t : TypeId}

theorem members_of_tidy (hw : w.Tidy t) {e : Entity} {x : Entry α} (hx : w.cell? t e = some x) :
    x.value = .members (w.membersOn t e) ∧ w.membersOn t e ≠ [] ∧
      (w.membersOn t e).Pairwise (· < ·) := by
  obtain ⟨-, members, hvalue, hne, hsorted⟩ := hw e x hx
  have hmembers : w.membersOn t e = members := by
    rw [membersOn, hx]
    simp [hvalue, Value.memberList]
  rw [hmembers]
  exact ⟨hvalue, hne, hsorted⟩

theorem pairwise_membersOn (hw : w.Tidy t) (e : Entity) :
    (w.membersOn t e).Pairwise (· < ·) := by
  cases hx : w.cell? t e with
  | none =>
    have hempty : w.membersOn t e = [] := by rw [membersOn, hx]; rfl
    rw [hempty]
    exact .nil
  | some x => exact (members_of_tidy hw hx).2.2

/-- Writing a nonempty ascending member list. -/
theorem Tidy.writeMembers (hw : w.Tidy t) (e : Entity) {members : List Entity}
    (hne : members ≠ []) (hsorted : members.Pairwise (· < ·)) :
    (w.writeEntry C t e (.members members) none).Tidy t := by
  intro e' x hx
  rw [cell?_writeEntry] at hx
  split_ifs at hx
  · cases hx
    exact ⟨rfl, members, rfl, hne, hsorted⟩
  · exact hw e' x hx

theorem Tidy.dropEntry (hw : w.Tidy inverse) (t : TypeId) (e : Entity)
    (remover : Option SystemInvocation) : (w.dropEntry C t e remover).Tidy inverse := by
  refine hw.congr fun e' x hx => ?_
  rw [cell?_dropEntry] at hx
  split_ifs at hx
  exact hx

theorem membersOn_writeEntry (e e' : Entity) (v : Value α) (o : Option SystemInvocation) :
    (w.writeEntry C t e v o).membersOn t e' =
      if e' = e then v.memberList else w.membersOn t e' := by
  rw [membersOn, cell?_writeEntry]
  simp only [true_and]
  split_ifs <;> rfl

theorem membersOn_dropEntry (e e' : Entity) (remover : Option SystemInvocation) :
    (w.dropEntry C t e remover).membersOn t e' = if e' = e then [] else w.membersOn t e' := by
  rw [membersOn, cell?_dropEntry]
  simp only [true_and]
  split_ifs <;> rfl

theorem relationshipAddMember_eq (source e : Entity) : w.relationshipAddMember C t source e =
    if source ∈ w.membersOn t e then w
    else w.writeEntry C t e
      (.members ((w.membersOn t e).orderedInsert (· ≤ ·) source)) none := rfl

theorem relationshipRemoveMember_eq (source e : Entity) :
    w.relationshipRemoveMember C t source e =
      if source ∈ w.membersOn t e then
        if (w.membersOn t e).erase source = [] then w.dropEntry C t e none
        else w.writeEntry C t e (.members ((w.membersOn t e).erase source)) none
      else w := by
  unfold relationshipRemoveMember membersOn
  cases w.cell? t e with
  | none => simp
  | some x => rfl

/-- Adding a member lists one more source. -/
theorem relationshipAddMember_spec (hw : w.Tidy t) (source e : Entity) :
    (w.relationshipAddMember C t source e).Tidy t ∧
      ∀ e' s, s ∈ (w.relationshipAddMember C t source e).membersOn t e' ↔
        s ∈ w.membersOn t e' ∨ (e' = e ∧ s = source) := by
  rw [relationshipAddMember_eq]
  have hsorted := pairwise_membersOn hw e
  split_ifs with hmem
  · refine ⟨hw, fun e' s => ⟨Or.inl, ?_⟩⟩
    rintro (h | ⟨rfl, rfl⟩)
    · exact h
    · exact hmem
  · have hne : (w.membersOn t e).orderedInsert (· ≤ ·) source ≠ [] :=
      List.ne_nil_of_mem ((List.mem_orderedInsert _).mpr (Or.inl rfl))
    refine ⟨hw.writeMembers e hne (pairwise_lt_orderedInsert hsorted hmem), fun e' s => ?_⟩
    rw [membersOn_writeEntry]
    split_ifs with he
    · subst he
      rw [Value.memberList, List.mem_orderedInsert]
      constructor
      · rintro (rfl | h)
        · exact Or.inr ⟨rfl, rfl⟩
        · exact Or.inl h
      · rintro (h | ⟨-, rfl⟩)
        · exact Or.inr h
        · exact Or.inl rfl
    · exact ⟨Or.inl, fun h => h.resolve_right fun hp => he hp.1⟩

/-- Removing a member lists one source less. -/
theorem relationshipRemoveMember_spec (hw : w.Tidy t) (source e : Entity) :
    (w.relationshipRemoveMember C t source e).Tidy t ∧
      ∀ e' s, s ∈ (w.relationshipRemoveMember C t source e).membersOn t e' ↔
        s ∈ w.membersOn t e' ∧ ¬ (e' = e ∧ s = source) := by
  rw [relationshipRemoveMember_eq]
  have hsorted := pairwise_membersOn hw e
  have hnodup : (w.membersOn t e).Nodup := hsorted.imp fun h => Nat.ne_of_lt h
  have herase : ∀ s, s ∈ (w.membersOn t e).erase source ↔ s ≠ source ∧ s ∈ w.membersOn t e :=
    fun s => hnodup.mem_erase_iff
  split_ifs with hmem hempty
  · refine ⟨hw.dropEntry t e none, fun e' s => ?_⟩
    rw [membersOn_dropEntry]
    split_ifs with he
    · subst he
      refine ⟨fun h => (nomatch h), fun ⟨h, hne⟩ => ?_⟩
      have hrest : s ∈ (w.membersOn t e').erase source :=
        (herase s).mpr ⟨fun heq => hne ⟨rfl, heq⟩, h⟩
      rw [hempty] at hrest
      cases hrest
    · exact ⟨fun h => ⟨h, fun hp => he hp.1⟩, fun h => h.1⟩
  · refine ⟨hw.writeMembers e hempty (hsorted.sublist List.erase_sublist), fun e' s => ?_⟩
    rw [membersOn_writeEntry]
    split_ifs with he
    · subst he
      rw [Value.memberList, herase]
      exact ⟨fun h => ⟨h.2, fun hp => h.1 hp.2⟩, fun h => ⟨fun heq => h.2 ⟨rfl, heq⟩, h.1⟩⟩
    · exact ⟨fun h => ⟨h, fun hp => he hp.1⟩, fun h => h.1⟩
  · refine ⟨hw, fun e' s => ⟨fun h => ⟨h, ?_⟩, fun h => h.1⟩⟩
    rintro ⟨rfl, rfl⟩
    exact hmem h

/-- Retracting an edge takes its source out of the inverse of its target only. -/
theorem retractEdge_spec (hw : w.Tidy t) (p : Option (TypeId × Entity)) (source : Entity) :
    (w.retractEdge C source p).Tidy t ∧
      ∀ e s, s ∈ (w.retractEdge C source p).membersOn t e ↔
        s ∈ w.membersOn t e ∧ ¬ (p = some (t, e) ∧ s = source) := by
  by_cases hp : ∃ target, p = some (t, target)
  · obtain ⟨target, rfl⟩ := hp
    obtain ⟨htidy, hmembers⟩ := relationshipRemoveMember_spec (C := C) hw source target
    refine ⟨htidy, fun e s => (hmembers e s).trans (and_congr_right fun _ => ?_)⟩
    simp [eq_comm]
  · have hother : ∀ e, p ≠ some (t, e) := fun e he => hp ⟨e, he⟩
    have hcells : ∀ e, (w.retractEdge C source p).cell? t e = w.cell? t e :=
      fun e => cell?_retractEdge C w source p t e (hother e)
    refine ⟨hw.congr fun e x hx => hcells e ▸ hx, fun e s => ?_⟩
    rw [membersOn_congr (hcells e)]
    exact ⟨fun h => ⟨h, fun hq => hother e hq.1⟩, And.left⟩

theorem establishEdge_spec (hw : w.Tidy t) (p : Option (TypeId × Entity)) (source : Entity) :
    (w.establishEdge C source p).Tidy t ∧
      ∀ e s, s ∈ (w.establishEdge C source p).membersOn t e ↔
        s ∈ w.membersOn t e ∨ (p = some (t, e) ∧ s = source) := by
  by_cases hp : ∃ target, p = some (t, target)
  · obtain ⟨target, rfl⟩ := hp
    obtain ⟨htidy, hmembers⟩ := relationshipAddMember_spec (C := C) hw source target
    refine ⟨htidy, fun e s => (hmembers e s).trans (or_congr_right ?_)⟩
    simp [eq_comm]
  · have hother : ∀ e, p ≠ some (t, e) := fun e he => hp ⟨e, he⟩
    have hcells : ∀ e, (w.establishEdge C source p).cell? t e = w.cell? t e :=
      fun e => cell?_establishEdge source p t e (hother e)
    refine ⟨hw.congr fun e x hx => hcells e ▸ hx, fun e s => ?_⟩
    rw [membersOn_congr (hcells e)]
    exact ⟨Or.inl, fun h => h.resolve_right fun hq => hother e hq.1⟩

end Members
section Reroute

variable {C} {w w₁ : World α} {edge inverse t : TypeId} {e : Entity} {gone : Entity → Prop}

/-- Only cells of other types than the inverse changed. -/
theorem Tidy.of_cells (hw : w.Tidy inverse)
    (hcells : ∀ e', w₁.cell? inverse e' = w.cell? inverse e') :
    w₁.Tidy inverse ∧ ∀ e', w₁.membersOn inverse e' = w.membersOn inverse e' :=
  ⟨hw.congr fun e' _ hx => hcells e' ▸ hx, fun e' => membersOn_congr (hcells e')⟩

theorem Agrees.same (hw : w.Agrees C edge inverse gone)
    (hcells : ∀ e', w₁.cell? inverse e' = w.cell? inverse e')
    (hedges : ∀ e, w₁.edgeOn C edge e = w.edgeOn C edge e) : w₁.Agrees C edge inverse gone := by
  obtain ⟨htidy, hmembers⟩ := hw.tidy.of_cells hcells
  refine ⟨htidy, fun e' s => ?_⟩
  rw [hmembers, hedges]
  exact hw.listed e' s

/-- The edge of `t` on `e` changes to `new`; retracting the old edge and establishing the new one
brings the inverses back in line. -/
theorem Agrees.reroute (hp : C.Paired edge inverse) (hw : w.Agrees C edge inverse gone)
    (hcells : ∀ e', w₁.cell? inverse e' = w.cell? inverse e')
    {new : Option (TypeId × Entity)}
    (hnew : ∀ q ∈ new, C.role q.1 = .inverse t ∧ ¬ gone q.2)
    (hedges : ∀ e', w₁.edgeOn C edge e' =
      if edge = t ∧ e' = e then new else w.edgeOn C edge e') :
    ((w₁.retractEdge C e (w.edgeOn C t e)).establishEdge C e new).Agrees C edge inverse gone := by
  have hold : ∀ q ∈ w.edgeOn C t e, C.role q.1 = .inverse t := Closed.role_edgeOn
  obtain ⟨htidy, hmembers⟩ := hw.tidy.of_cells hcells
  obtain ⟨htidy₂, hmembers₂⟩ := retractEdge_spec (C := C) htidy (w.edgeOn C t e) e
  obtain ⟨htidy₃, hmembers₃⟩ := establishEdge_spec (C := C) htidy₂ new e
  have hedges₂ := edgeOn_of_inverse (fun q hq => ⟨t, hold q hq⟩) hp.role
    (cell?_retractEdge C w₁ e (w.edgeOn C t e))
  have hedges₃ := edgeOn_of_inverse (fun q hq => ⟨t, (hnew q hq).1⟩) hp.role
    (cell?_establishEdge (C := C) (w := w₁.retractEdge C e (w.edgeOn C t e)) e new)
  refine ⟨htidy₃, fun e' s => ?_⟩
  rw [hmembers₃, hmembers₂, hmembers, hw.listed, hedges₃, hedges₂, hedges]
  by_cases hsource : edge = t ∧ s = e
  · obtain ⟨rfl, rfl⟩ := hsource
    rw [if_pos ⟨rfl, rfl⟩]
    constructor
    · rintro (⟨⟨-, hedge⟩, hkept⟩ | ⟨hto, -⟩)
      · exact absurd ⟨hedge, rfl⟩ hkept
      · exact ⟨(hnew _ hto).2, hto⟩
    · exact fun h => Or.inr ⟨h.2, rfl⟩
  · rw [if_neg hsource]
    -- the old and the new edge of `t` on `e` are listed by inverses of `t`, for the source `e`
    have hother : ∀ q : Option (TypeId × Entity), (∀ p ∈ q, C.role p.1 = .inverse t) →
        ¬ (q = some (inverse, e') ∧ s = e) := by
      rintro q hq ⟨rfl, rfl⟩
      have hrole := hq (inverse, e') rfl
      rw [hp.inverse_role] at hrole
      cases hrole
      exact hsource ⟨rfl, rfl⟩
    have hnotOld := hother _ hold
    have hnotNew := hother new fun q hq => (hnew q hq).1
    exact ⟨fun h => (h.resolve_right hnotNew).1, fun h => Or.inl ⟨h, hnotOld⟩⟩

theorem Agrees.unroute (hp : C.Paired edge inverse) (hw : w.Agrees C edge inverse gone)
    (hcells : ∀ e', w₁.cell? inverse e' = w.cell? inverse e')
    (hedges : ∀ e', w₁.edgeOn C edge e' =
      if edge = t ∧ e' = e then none else w.edgeOn C edge e') :
    (w₁.retractEdge C e (w.edgeOn C t e)).Agrees C edge inverse gone :=
  hw.reroute hp hcells (fun q (hq : q ∈ none) => nomatch hq) hedges

/-- Values of one edge type name the same inverse type. -/
theorem relationshipEdge_of_target {v v' : Value α}
    (h : (C.relationshipEdge t v).map Prod.snd = (C.relationshipEdge t v').map Prod.snd) :
    C.relationshipEdge t v = C.relationshipEdge t v' := by
  have hinverse : ∀ {u : Value α} {p : TypeId × Entity}, C.relationshipEdge t u = some p →
      C.role t = .edge p.1 := by
    intro u p hp
    unfold Components.relationshipEdge at hp
    split at hp
    · rename_i hrole
      cases hp
      exact hrole
    · cases hp
  cases hv : C.relationshipEdge t v with
  | none =>
    rw [hv] at h
    cases hv' : C.relationshipEdge t v' with
    | none => rfl
    | some p' => rw [hv'] at h; cases h
  | some p =>
    rw [hv] at h
    cases hv' : C.relationshipEdge t v' with
    | none => rw [hv'] at h; cases h
    | some p' =>
      rw [hv'] at h
      have htarget : p.2 = p'.2 := Option.some.inj h
      have hroles := (hinverse hv).symm.trans (hinverse hv')
      have htype : p.1 = p'.1 := Role.edge.inj hroles
      rw [Prod.ext htype htarget]

theorem edgeOn_of_target {v : Value α}
    (h : (w.edgeOn C t e).map Prod.snd = (C.relationshipEdge t v).map Prod.snd) :
    w.edgeOn C t e = C.relationshipEdge t v := by
  unfold edgeOn at h ⊢
  cases hx : w.cell? t e with
  | none =>
    rw [hx] at h
    cases hv : C.relationshipEdge t v with
    | none => rfl
    | some p => rw [hv] at h; cases h
  | some x =>
    rw [hx] at h
    exact relationshipEdge_of_target h

theorem Agrees.insertEntry (hp : C.Paired edge inverse)
    (hw : w.Agrees C edge inverse fun _ => False) (ht : t ≠ inverse) (v : Value α)
    (o : Option SystemInvocation) :
    (w.insertEntry C t e v o).Agrees C edge inverse fun _ => False := by
  have hcells : ∀ e', (w.writeEntry C t e v o).cell? inverse e' = w.cell? inverse e' := by
    intro e'
    rw [cell?_writeEntry, if_neg]
    exact fun h => ht h.1.symm
  have hnew : ∀ q ∈ C.relationshipEdge t v, C.role q.1 = .inverse t ∧ ¬ False :=
    fun q hq => ⟨C.inverse_of_relationshipEdge hq, not_false⟩
  have hedges := fun e' => edgeOn_writeEntry (C := C) (w := w) t edge e e' v o
  unfold World.insertEntry
  dsimp only
  split_ifs with hsame
  · refine hw.same hcells fun e' => ?_
    rw [hedges, ← edgeOn_of_target hsame]
    split_ifs with hte
    · rw [hte.1, hte.2]
    · rfl
  · exact hw.reroute hp hcells hnew hedges

theorem Agrees.removeComponent (hp : C.Paired edge inverse) (hw : w.Agrees C edge inverse gone)
    (ht : t ≠ inverse) (remover : Option SystemInvocation) :
    (w.removeComponent C t e remover).Agrees C edge inverse gone := by
  have hcells : ∀ e', (w.dropEntry C t e remover).cell? inverse e' = w.cell? inverse e' := by
    intro e'
    rw [cell?_dropEntry, if_neg]
    exact fun h => ht h.1.symm
  exact hw.unroute hp hcells fun e' => edgeOn_dropEntry t edge e e' remover

theorem Agrees.removeDerivedEntry (hp : C.Paired edge inverse)
    (hw : w.Agrees C edge inverse gone) (o : SystemInvocation) :
    (w.removeDerivedEntry C t e o).Agrees C edge inverse gone := by
  unfold World.removeDerivedEntry
  split_ifs with howner
  · -- a derived entry is no inverse: those are base facts
    have ht : t ≠ inverse := by
      rintro rfl
      obtain ⟨x, hx, ho⟩ := Option.bind_eq_some_iff.mp howner
      have hbase := (hw.tidy e x hx).1
      rw [hbase] at ho
      cases ho
    have hcells : ∀ e', (w.sweepEntry t e o).cell? inverse e' = w.cell? inverse e' := by
      intro e'
      rw [cell?_sweepEntry, if_neg]
      exact fun h => ht h.1.symm
    exact hw.unroute hp hcells fun e' => edgeOn_sweepEntry howner edge e'
  · exact hw

theorem Agrees.removeDerivedEntries (hp : C.Paired edge inverse) {o : SystemInvocation} :
    ∀ (pairs : List (TypeId × Entity)) {w : World α}, w.Agrees C edge inverse gone →
      (w.removeDerivedEntries C o pairs).Agrees C edge inverse gone
  | [], _, h => h
  | _ :: pairs, _, h => Agrees.removeDerivedEntries hp pairs (h.removeDerivedEntry hp o)

theorem Agrees.removeDerivedStale (hp : C.Paired edge inverse) {o : SystemInvocation} :
    ∀ (previous : List (TypeId × Entity)) {w : World α}, w.Agrees C edge inverse gone →
      (w.removeDerivedStale C o previous).Agrees C edge inverse gone
  | [], _, h => h
  | p :: previous, w, h => by
    apply Agrees.removeDerivedStale hp previous
    dsimp only
    split_ifs
    · exact h
    · exact h.removeDerivedEntry hp o

theorem Agrees.removeDerivedOwned (hp : C.Paired edge inverse)
    (hw : w.Agrees C edge inverse gone) (o : SystemInvocation) :
    (w.removeDerivedOwned C o).Agrees C edge inverse gone := by
  have hforgotten : (w.forgetOwner o).Agrees C edge inverse gone := hw.congr rfl
  exact hforgotten.removeDerivedEntries hp (w.outputs o)

theorem Agrees.retireOwners (hp : C.Paired edge inverse) :
    ∀ (owners : List SystemInvocation) {w : World α}, w.Agrees C edge inverse gone →
      (w.retireOwners C owners).1.Agrees C edge inverse gone
  | [], _, h => h
  | o :: owners, _, h => Agrees.retireOwners hp owners (h.removeDerivedOwned hp o)

end Reroute
section RemoveEntity

variable {C} {w : World α} {edge inverse : TypeId} {e : Entity} {gone : Entity → Prop}

theorem retractEdges_spec (hp : C.Paired edge inverse) (source : Entity) :
    ∀ (edges : List (TypeId × Entity)) {w : World α},
      w.Tidy inverse → (∀ q ∈ edges, C.IsInverse q.1) →
        (edges.foldl (fun w q => w.retractEdge C source (some q)) w).Tidy inverse ∧
          (∀ e, (edges.foldl (fun w q => w.retractEdge C source (some q)) w).edgeOn C edge e =
            w.edgeOn C edge e) ∧
          ∀ e s, s ∈ (edges.foldl (fun w q => w.retractEdge C source (some q)) w).membersOn
              inverse e ↔
            s ∈ w.membersOn inverse e ∧ ¬ ((inverse, e) ∈ edges ∧ s = source)
  | [], w, hw, _ => ⟨hw, fun _ => rfl, fun e s => by simp⟩
  | q :: edges, w, hw, hinverse => by
    have hq : ∀ p ∈ some q, C.IsInverse p.1 := by
      intro p hp
      cases hp
      exact hinverse q List.mem_cons_self
    have hedges := edgeOn_of_inverse hq hp.role (cell?_retractEdge C w source (some q))
    obtain ⟨htidy, hmembers⟩ := retractEdge_spec (C := C) hw (some q) source
    obtain ⟨htidy', hedges', hmembers'⟩ := retractEdges_spec hp source edges htidy
      fun p hp => hinverse p (List.mem_cons_of_mem q hp)
    refine ⟨htidy', fun e => (hedges' e).trans (hedges e), fun e s => ?_⟩
    rw [List.foldl_cons, hmembers', hmembers, List.mem_cons, Option.some.injEq, eq_comm (a := q)]
    tauto

/-- What the inverses list once an entity and its own edges are gone, and not the edges at it. -/
theorem Agrees.purge (hp : C.Paired edge inverse) (hw : w.Agrees C edge inverse fun _ => False) :
    ((w.edgesOn C e).foldl (fun w q => w.retractEdge C e (some q))
      (w.purgeEntity e)).Agrees C edge inverse (· = e) ∧
      ∀ s, ((w.edgesOn C e).foldl (fun w q => w.retractEdge C e (some q))
        (w.purgeEntity e)).edgeOn C edge s = if s = e then none else w.edgeOn C edge s := by
  have hpurged : (w.purgeEntity e).Tidy inverse := by
    refine hw.tidy.congr fun e' x hx => ?_
    rw [cell?_purgeEntity] at hx
    split_ifs at hx
    exact hx
  have hinverse : ∀ q ∈ w.edgesOn C e, C.IsInverse q.1 := by
    intro q hq
    obtain ⟨t, -, ht⟩ := List.mem_filterMap.mp hq
    exact ⟨t, Closed.role_edgeOn q ht⟩
  obtain ⟨htidy, hedges, hmembers⟩ := retractEdges_spec hp e _ hpurged hinverse
  have hkept : ∀ s, ((w.edgesOn C e).foldl (fun w q => w.retractEdge C e (some q))
      (w.purgeEntity e)).edgeOn C edge s = if s = e then none else w.edgeOn C edge s :=
    fun s => (hedges s).trans (edgeOn_purgeEntity e s edge)
  refine ⟨⟨htidy, fun e' s => ?_⟩, hkept⟩
  rw [hmembers, hkept]
  have hlisted := hw.listed e' s
  have hmembersOn : (w.purgeEntity e).membersOn inverse e' =
      if e' = e then [] else w.membersOn inverse e' := by
    rw [membersOn, cell?_purgeEntity]
    split_ifs <;> rfl
  rw [hmembersOn]
  by_cases he : e' = e
  · simp [he]
  · rw [if_neg he, hlisted]
    by_cases hs : s = e
    · subst hs
      -- the edge the inverse lists is one of those retracted with the entity
      have hmem : w.edgeOn C edge s = some (inverse, e') → (inverse, e') ∈ w.edgesOn C s := by
        intro hedge
        obtain ⟨x, hx, -⟩ := Option.bind_eq_some_iff.mp hedge
        refine List.mem_filterMap.mpr ⟨edge, ?_, hedge⟩
        exact (mem_componentsOn w edge s).mpr ((has_iff w edge s).mpr ⟨x, hx⟩)
      simp only [not_false_eq_true, true_and, and_true, if_true]
      constructor
      · rintro ⟨hedge, hnot⟩
        exact absurd (hmem hedge) hnot
      · rintro ⟨-, hnone⟩
        cases hnone
    · simp [he, hs]

/-- Whatever the inverses on an entity list as sources, they retract no inverse of the pair. -/
theorem ne_inverse_of_mem_retractionsOn (hp : C.Paired edge inverse) {q : TypeId × Entity}
    (hq : q ∈ w.retractionsOn C e) : q.1 ≠ inverse := by
  obtain ⟨t, -, hq⟩ := List.mem_flatMap.mp hq
  cases hx : w.cell? t e with
  | none => simp [hx] at hq
  | some x =>
    rw [hx] at hq
    simp only [Option.map_some, Option.getD_some, Components.relationshipRetractions] at hq
    split at hq
    · rename_i edge' sources ht hvalue
      obtain ⟨source, -, rfl⟩ := List.mem_map.mp hq
      rintro rfl
      exact hp.unretracted t ht
    · cases hq

/-- Every edge at an entity is retracted with it. -/
theorem mem_retractionsOn (hp : C.Paired edge inverse) (hw : w.Agrees C edge inverse fun _ => False)
    {s : Entity} (hedge : w.edgeOn C edge s = some (inverse, e)) :
    (edge, s) ∈ w.retractionsOn C e := by
  have hmem : s ∈ w.membersOn inverse e := (hw.listed e s).mpr ⟨not_false, hedge⟩
  cases hx : w.cell? inverse e with
  | none =>
    rw [membersOn, hx] at hmem
    cases hmem
  | some x =>
    obtain ⟨hvalue, -, -⟩ := members_of_tidy hw.tidy hx
    have hhas := (mem_componentsOn w inverse e).mpr ((has_iff w inverse e).mpr ⟨x, hx⟩)
    refine List.mem_flatMap.mpr ⟨inverse, hhas, ?_⟩
    rw [hx]
    simp only [Option.map_some, Option.getD_some, Components.relationshipRetractions,
      hp.inverse_role, hvalue]
    exact List.mem_map.mpr ⟨s, hmem, rfl⟩

theorem edgeOn_removeComponent (hp : C.Paired edge inverse) (t : TypeId) (e e' : Entity)
    (remover : Option SystemInvocation) : (w.removeComponent C t e remover).edgeOn C edge e' =
      if edge = t ∧ e' = e then none else w.edgeOn C edge e' := by
  have hinverse : ∀ q ∈ w.edgeOn C t e, C.IsInverse q.1 :=
    fun q hq => ⟨t, Closed.role_edgeOn q hq⟩
  have hedges := edgeOn_of_inverse hinverse hp.role
    (cell?_retractEdge C (w.dropEntry C t e remover) e (w.edgeOn C t e))
  exact (hedges e').trans (edgeOn_dropEntry t edge e e' remover)

theorem Agrees.removeComponents (hp : C.Paired edge inverse) :
    ∀ (edges : List (TypeId × Entity)) {w : World α}, w.Agrees C edge inverse gone →
      (∀ q ∈ edges, q.1 ≠ inverse) →
        (edges.foldl (fun w q => w.removeComponent C q.1 q.2 none) w).Agrees C edge inverse gone ∧
          ∀ s, (edges.foldl (fun w q => w.removeComponent C q.1 q.2 none) w).edgeOn C edge s =
            if (edge, s) ∈ edges then none else w.edgeOn C edge s
  | [], w, hw, _ => ⟨hw, fun s => by simp⟩
  | q :: edges, w, hw, hplain => by
    have hfirst := hw.removeComponent hp (e := q.2) (hplain q List.mem_cons_self) none
    obtain ⟨hagrees, hedges⟩ := Agrees.removeComponents hp edges hfirst
      fun r hr => hplain r (List.mem_cons_of_mem q hr)
    refine ⟨hagrees, fun s => (hedges s).trans ?_⟩
    rw [edgeOn_removeComponent hp]
    by_cases hq : (edge, s) = q
    · subst hq
      simp
    · have hpair : ¬ (edge = q.1 ∧ s = q.2) := fun h => hq (Prod.ext h.1 h.2)
      simp [hq, hpair]

/-- Removing an entity keeps the inverses exact, and leaves no edge at it. -/
theorem Agrees.removeEntity (hp : C.Paired edge inverse)
    (hw : w.Agrees C edge inverse fun _ => False) (e : Entity) :
    (w.removeEntity C e).Agrees C edge inverse (fun _ => False) ∧
      ∀ s, (w.removeEntity C e).edgeOn C edge s ≠ some (inverse, e) := by
  obtain ⟨hpurged, hedges⟩ := hw.purge hp (e := e)
  obtain ⟨hfreed, hremoved⟩ := hpurged.removeComponents hp (w.retractionsOn C e)
    fun q hq => ne_inverse_of_mem_retractionsOn hp hq
  have hnone : ∀ s, (w.removeEntity C e).edgeOn C edge s ≠ some (inverse, e) := by
    intro s hedge
    have hleft := hremoved s
    rw [hedges] at hleft
    have heq : some (inverse, e) = _ := hedge.symm.trans hleft
    split_ifs at heq with hmem hs
    exact hmem (mem_retractionsOn hp hw heq.symm)
  have hagrees : (w.removeEntity C e).Agrees C edge inverse (· = e) := hfreed.congr rfl
  refine ⟨⟨hagrees.tidy, fun e' s => (hagrees.listed e' s).trans ?_⟩, hnone⟩
  constructor
  · exact fun h => ⟨not_false, h.2⟩
  · rintro ⟨-, hedge⟩
    refine ⟨?_, hedge⟩
    rintro rfl
    exact hnone s hedge

end RemoveEntity
end World
end Porridge
