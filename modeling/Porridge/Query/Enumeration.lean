import Mathlib.Data.List.Sort
import Mathlib.Data.List.MinMax
import Porridge.World.Coherence

/-! Enumeration of entities: stores, presence masks and fingerprint buckets. -/
namespace Porridge
namespace PresenceIndex

variable (p : PresenceIndex)

/-- The bits that a conjunction of components asks for, unless one is outside the universe. -/
def mask (types : List TypeId) : Option (List Nat) := types.mapM p.bitFor.lookup

def matchesMask (e : Entity) (mask : List Nat) : Bool := mask.all fun bit => p.bits.get e bit

/-- The entities with a stored row that shows the mask, ascending. -/
def entitiesMatching (mask : List Nat) : List Entity :=
  (List.range (p.bits.words.length / p.bits.stride)).filter (p.matchesMask · mask)

variable {p} {carries : TypeId → Entity → Bool}

theorem Shows.matchesMask (h : p.Shows carries) (e : Entity) :
    ∀ {types : List TypeId} {mask : List Nat}, p.mask types = some mask →
      p.matchesMask e mask = types.all (carries · e)
  | [], mask, hm => by
    cases hm
    rfl
  | t :: types, mask, hm => by
    unfold PresenceIndex.mask at hm
    rw [List.mapM_cons] at hm
    obtain ⟨bit, hbit, hm⟩ := Option.bind_eq_some_iff.mp hm
    obtain ⟨rest, hrest, hm⟩ := Option.bind_eq_some_iff.mp hm
    cases hm
    have htail := Shows.matchesMask h e hrest
    rw [PresenceIndex.matchesMask] at htail
    rw [PresenceIndex.matchesMask, List.all_cons, List.all_cons, htail, h t bit hbit e]

/-- Only a stored row shows a bit. -/
theorem lt_rows_of_get (hp : p.Ok) {e : Entity} {bit : Nat} (h : p.bits.get e bit = true) :
    e < p.bits.words.length / p.bits.stride := by
  have hstored : ¬ p.bits.words.length < e * p.bits.stride + p.bits.stride := by
    intro hmissing
    rw [hp.whole.get_missing hmissing] at h
    cases h
  rw [Nat.lt_iff_add_one_le, Nat.le_div_iff_mul_le hp.whole.stride_pos, Nat.add_mul]
  omega

theorem mem_entitiesMatching (h : p.Shows carries) (hp : p.Ok) {types : List TypeId}
    {mask : List Nat} (hm : p.mask types = some mask) (hne : types ≠ []) (e : Entity) :
    e ∈ p.entitiesMatching mask ↔ types.all (carries · e) = true := by
  rw [entitiesMatching, List.mem_filter, List.mem_range, h.matchesMask e hm]
  refine and_iff_right_of_imp fun hall => ?_
  obtain ⟨t, types, rfl⟩ := List.exists_cons_of_ne_nil hne
  unfold PresenceIndex.mask at hm
  rw [List.mapM_cons] at hm
  obtain ⟨bit, hbit, -⟩ := Option.bind_eq_some_iff.mp hm
  have hcarries : carries t e = true := (List.all_eq_true.mp hall) t List.mem_cons_self
  exact lt_rows_of_get hp ((h t bit hbit e).trans hcarries)

end PresenceIndex

namespace World

variable {α : Type} (w : World α)

def entitiesWith (t : TypeId) : List Entity := (w.store t).entries.keys.insertionSort (· ≤ ·)

def storeLen (t : TypeId) : Nat := (w.store t).entries.keys.length

/-- Every allocated id. -/
def denseIds : List Entity := List.range w.nextEntity

def fingerprintCandidates (t : TypeId) (fingerprint : Fingerprint) : List Entity :=
  (w.store t).byFingerprint.bucket fingerprint

def presenceMask (types : List TypeId) : Option (PresenceIndex × List Nat) :=
  w.presence.bind fun p => (p.mask types).map fun mask => (p, mask)

theorem mem_entitiesWith (t : TypeId) (e : Entity) : e ∈ w.entitiesWith t ↔ w.has t e = true := by
  rw [entitiesWith, List.mem_insertionSort, has, cell?]
  exact AList.mem_keys.symm.trans AList.lookup_isSome.symm

theorem nodup_entitiesWith (t : TypeId) : (w.entitiesWith t).Nodup :=
  ((List.perm_insertionSort _ _).nodup_iff).mpr (w.store t).entries.keys_nodup

variable {w} {schema : Option (List TypeId)}

theorem Present.of_mask (h : w.Present schema) {types : List TypeId} {p : PresenceIndex}
    {mask : List Nat} (hm : w.presenceMask types = some (p, mask)) :
    p.Shows w.has ∧ p.Ok ∧ p.mask types = some mask := by
  obtain ⟨p', hp, hm⟩ := Option.bind_eq_some_iff.mp hm
  obtain ⟨mask', hmask, heq⟩ := Option.map_eq_some_iff.mp hm
  cases heq
  obtain ⟨hshows, hok⟩ := h.shows p hp
  exact ⟨hshows, hok, hmask⟩

theorem Coherent.mem_fingerprintCandidates (h : w.Coherent) (t : TypeId)
    (fingerprint : Fingerprint) (e : Entity) :
    e ∈ w.fingerprintCandidates t fingerprint ↔ w.fingerprintOn t e = some fingerprint :=
  (h.fingerprints t).mem fingerprint e

theorem has_of_fingerprintOn {t : TypeId} {e : Entity} {fingerprint : Fingerprint}
    (h : w.fingerprintOn t e = some fingerprint) : w.has t e = true := by
  obtain ⟨x, hx, -⟩ := Option.bind_eq_some_iff.mp h
  exact (has_iff w t e).mpr ⟨x, hx⟩

end World
end Porridge
