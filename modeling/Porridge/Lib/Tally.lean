import Porridge.Lib.Dict

/-! How many values of a dictionary pass a test. -/
namespace Dict

variable {κ υ : Type}

/-- How many of the values pass the test. -/
def tally (f : υ → Bool) (d : Dict κ υ) : Nat := d.entries.countP fun b => f b.2

variable {f : υ → Bool} {d : Dict κ υ} {k : κ} {v : υ}

theorem tally_eq_zero : d.tally f = 0 ↔ ∀ b ∈ d.entries, f b.2 = false := by
  unfold tally
  rw [List.countP_eq_zero]
  simp

theorem tally_mapValues {g : υ → υ} (hg : ∀ v, f (g v) = f v) :
    (mapValues g d).tally f = d.tally f := by
  unfold tally mapValues
  rw [List.countP_map]
  refine List.countP_congr fun b _ => ?_
  exact Bool.eq_iff_iff.mp (hg b.2)

variable [DecidableEq κ]

/-- A binding that is dropped is counted no more. -/
theorem tally_erase : tally f (d.erase k) + ((d.lookup k).any f).toNat = d.tally f := by
  have hentries : (d.erase k).entries = d.entries.kerase k := rfl
  unfold tally
  rw [hentries]
  by_cases hk : k ∈ d.entries.keys
  · obtain ⟨v, before, after, -, hsplit, herased⟩ := List.exists_of_kerase hk
    have hmem : ⟨k, v⟩ ∈ d.entries := by
      rw [hsplit]
      exact List.mem_append_right before List.mem_cons_self
    have hlookup : d.lookup k = some v := AList.mem_lookup_iff.mpr hmem
    rw [herased, hsplit, hlookup, List.countP_append, List.countP_append, List.countP_cons]
    cases hv : f v with
    | false => simp [hv]
    | true =>
      simp only [hv, if_true, Option.any_some, Bool.toNat_true]
      omega
  · have hlookup : d.lookup k = none := AList.lookup_eq_none.mpr hk
    rw [List.kerase_of_notMem_keys hk, hlookup]
    rfl

/-- A value counts in place of the one it replaces. -/
theorem tally_insert :
    tally f (d.insert k v) + ((d.lookup k).any f).toNat = d.tally f + (f v).toNat := by
  have hinserted : tally f (d.insert k v) = tally f (d.erase k) + (f v).toNat := by
    have hentries : (d.insert k v).entries = ⟨k, v⟩ :: (d.erase k).entries := rfl
    unfold tally
    rw [hentries, List.countP_cons]
    cases f v <;> rfl
  have herased := tally_erase (f := f) (d := d) (k := k)
  omega

end Dict
