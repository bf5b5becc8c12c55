import Porridge.World.Watermarks

/-! Reachable worlds with any finite content, where every component is plain and fingerprinted. -/
namespace Porridge

variable {α : Type}

namespace Components

/-- Plain components with the given tracking, each fingerprinted by the first member it lists. -/
def numbered (α : Type) (tracked : TypeId → Bool) : Components α where
  tracked := tracked
  role _ := .plain
  fingerprint _
    | .members (n :: _) => some n
    | _ => some 0
  target _ _ := 0
  inverse_role := Role.plain_edgeless

end Components

namespace World

variable {tracked : TypeId → Bool} {w w' : World α} {t : TypeId} {e : Entity} {n : Fingerprint}
  {content : TypeId → Entity → Option Fingerprint}

def assign (content : TypeId → Entity → Option Fingerprint) (t : TypeId) (e : Entity)
    (v : Option Fingerprint) : TypeId → Entity → Option Fingerprint :=
  fun t' e' => if t' = t ∧ e' = e then v else content t' e'

structure Shows (tracked : TypeId → Bool) (content : TypeId → Entity → Option Fingerprint)
    (w : World α) : Prop where
  reachable : Reachable (.numbered α tracked) w
  has : ∀ t e, w.has t e = (content t e).isSome
  fingerprint : ∀ t e, w.fingerprintOn t e = content t e

/-- A step that leaves every other entry and every other watermark alone. -/
structure Touches (tracked : TypeId → Bool) (t : TypeId) (e : Entity) (w w' : World α) : Prop where
  later : Later (.numbered α tracked) w w'
  cell : ∀ t' e', ¬ (t' = t ∧ e' = e) → w'.cell? t' e' = w.cell? t' e'
  watermark : ∀ t', t' ≠ t → w'.storeWatermark t' = w.storeWatermark t'

theorem shows_new (tracked : TypeId → Bool) :
    Shows tracked (fun _ _ => none) (World.new : World α) where
  reachable := .init machine_init_new
  has _ _ := rfl
  fingerprint _ _ := rfl

theorem Shows.touch (h : Shows tracked content w) (ht : Touches tracked t e w w')
    {x : Option (Entry α)} (hx : w'.cell? t e = x) {v : Option Fingerprint}
    (hv : x.isSome = v.isSome ∧ x.bind Entry.fingerprint = v) :
    Shows tracked (assign content t e v) w' where
  reachable := ht.later.reachable h.reachable
  has t' e' := by
    unfold assign
    split_ifs with hsame
    · rw [hsame.1, hsame.2, World.has, hx, hv.1]
    · rw [World.has, ht.cell t' e' hsame]
      exact h.has t' e'
  fingerprint t' e' := by
    unfold assign
    split_ifs with hsame
    · rw [hsame.1, hsame.2, fingerprintOn, hx, hv.2]
    · rw [fingerprintOn, ht.cell t' e' hsame]
      exact h.fingerprint t' e'

theorem edgeOn_numbered (w : World α) (t : TypeId) (e : Entity) :
    w.edgeOn (.numbered α tracked) t e = none := by
  unfold edgeOn Components.relationshipEdge
  cases w.cell? t e with
  | none => rfl
  | some x => rfl

/-- A caller gives an entity a component. -/
theorem Shows.give (h : Shows tracked content w) (t : TypeId) (e : Entity) (n : Fingerprint) :
    ∃ w', Touches tracked t e w w' ∧ Shows tracked (assign content t e (some n)) w' := by
  have happly : w.apply (.numbered α tracked) (.base (.insert t e (.members [n]))) =
      some (w.writeEntry (.numbered α tracked) t e (.members [n]) none) := by
    show some (w.insertEntry (.numbered α tracked) t e (.members [n]) none) = _
    unfold insertEntry
    rw [edgeOn_numbered]
    rfl
  have htouches : Touches tracked t e w
      (w.writeEntry (.numbered α tracked) t e (.members [n]) none) := by
    refine ⟨.of_apply _ happly, fun t' e' hne => ?_, fun t' hne => ?_⟩
    · rw [cell?_writeEntry, if_neg hne]
    · rw [storeWatermark, storeWatermark, store_congr (writeEntry_stores ..)]
      simp [store, amendEntry, Dict.getD_insert, hne]
  refine ⟨_, htouches, h.touch htouches (cell?_writeEntry _ _ t t e e _ _) ?_⟩
  rw [if_pos ⟨rfl, rfl⟩]
  exact ⟨rfl, rfl⟩

/-- A caller takes a component from an entity. -/
theorem Shows.take (h : Shows tracked content w) (t : TypeId) (e : Entity) :
    ∃ w', Touches tracked t e w w' ∧ Shows tracked (assign content t e none) w' := by
  have happly : w.apply (.numbered α tracked) (.base (.removeComponent t e)) =
      some (w.dropEntry (.numbered α tracked) t e none) := by
    show some ((w.dropEntry (.numbered α tracked) t e none).retractEdge _ e _) = _
    rw [edgeOn_numbered]
    rfl
  have htouches : Touches tracked t e w (w.dropEntry (.numbered α tracked) t e none) := by
    refine ⟨.of_apply _ happly, fun t' e' hne => ?_, fun t' hne => ?_⟩
    · rw [cell?_dropEntry, if_neg hne]
    · unfold dropEntry
      split_ifs
      · obtain ⟨owners, losers, hdisowned⟩ :=
          disownEntry_eq ((w.eraseEntry t e).presenceSet t e false) t e (w.owner? t e) none
        obtain ⟨singletons, hunregistered⟩ := unregisterSingleton_eq (.numbered α tracked)
          (((w.eraseEntry t e).presenceSet t e false).disownEntry t e (w.owner? t e) none) t e
        rw [hunregistered, hdisowned]
        exact (storeWatermark_eraseEntry w t t' e).trans (if_neg hne)
      · rfl
  refine ⟨_, htouches, h.touch htouches (cell?_dropEntry _ _ t t e e _) ?_⟩
  rw [if_pos ⟨rfl, rfl⟩]
  exact ⟨rfl, rfl⟩

theorem Shows.put (h : Shows tracked content w) (t : TypeId) (e : Entity)
    (v : Option Fingerprint) :
    ∃ w', Touches tracked t e w w' ∧ Shows tracked (assign content t e v) w' := by
  cases v with
  | some n => exact h.give t e n
  | none => exact h.take t e

/-- A caller changes an untracked component in place: no watermark moves. -/
theorem Shows.amend (h : Shows tracked content w) (hpresent : (content t e).isSome = true)
    (huntracked : tracked t = false) (n : Fingerprint) :
    ∃ w', Touches tracked t e w w' ∧ w'.storeWatermark t = w.storeWatermark t ∧
      Shows tracked (assign content t e (some n)) w' := by
  obtain ⟨x, hx⟩ := (has_iff w t e).mp ((h.has t e).trans hpresent)
  have hamends : w.amends (.numbered α tracked) t e (.members [n]) = false := by
    unfold amends
    rw [hx, Option.any_some]
    show (tracked t && _) = false
    rw [huntracked]
    rfl
  have hupdated : w.updateComponent (.numbered α tracked) t e (.members [n]) =
      w.amendEntry t e ⟨x.cell, .members [n], x.revision, some n, x.owner⟩ 0 := by
    unfold updateComponent restampEntry
    rw [hamends, hx]
    dsimp only
    rw [if_neg Bool.false_ne_true, if_neg Bool.false_ne_true]
    rfl
  have hmarks : ∀ t', (w.amendEntry t e ⟨x.cell, .members [n], x.revision, some n, x.owner⟩
      0).storeWatermark t' = w.storeWatermark t' := by
    intro t'
    by_cases ht : t' = t
    · subst ht
      simp [storeWatermark, store, amendEntry, Dict.getD_insert]
    · simp [storeWatermark, store, amendEntry, Dict.getD_insert, ht]
  have htouches : Touches tracked t e w
      (w.amendEntry t e ⟨x.cell, .members [n], x.revision, some n, x.owner⟩ 0) := by
    refine ⟨.of_apply (.update t e (.members [n])) (by rw [World.apply, hupdated]), ?_, ?_⟩
    · intro t' e' hne
      rw [cell?_amendEntry, if_neg hne]
    · exact fun t' _ => hmarks t'
  refine ⟨_, htouches, hmarks t, h.touch htouches (cell?_amendEntry _ t t e e _ _) ?_⟩
  rw [if_pos ⟨rfl, rfl⟩]
  exact ⟨rfl, rfl⟩

/-- Any finite content is shown by some reachable world. -/
theorem exists_shows (tracked : TypeId → Bool) (content : TypeId → Entity → Option Fingerprint)
    (pairs : List (TypeId × Entity)) (hall : ∀ t e, content t e ≠ none → (t, e) ∈ pairs) :
    ∃ w : World α, Shows tracked content w := by
  have hpart : ∀ pairs : List (TypeId × Entity), ∃ w : World α,
      Shows tracked (fun t e => if (t, e) ∈ pairs then content t e else none) w := by
    intro pairs
    induction pairs with
    | nil => exact ⟨World.new, by simpa using shows_new tracked⟩
    | cons p pairs ih =>
      obtain ⟨w, hw⟩ := ih
      have hstep : (fun t e => if (t, e) ∈ p :: pairs then content t e else none) =
          assign (fun t e => if (t, e) ∈ pairs then content t e else none) p.1 p.2
            (content p.1 p.2) := by
        funext t e
        unfold assign
        by_cases hp : t = p.1 ∧ e = p.2
        · simp [hp.1, hp.2]
        · have hne : (t, e) ≠ p := fun heq => hp (by rw [← heq]; exact ⟨rfl, rfl⟩)
          simp [hp, hne]
      obtain ⟨w', -, hw'⟩ := hw.put p.1 p.2 (content p.1 p.2)
      exact ⟨w', hstep ▸ hw'⟩
  obtain ⟨w, hw⟩ := hpart pairs
  have hsame : (fun t e => if (t, e) ∈ pairs then content t e else none) = content := by
    funext t e
    split_ifs with hmem
    · rfl
    · by_contra hne
      exact hmem (hall t e fun hnone => hne hnone.symm)
  exact ⟨w, hsame ▸ hw⟩

end World
end Porridge
