import Mathlib.Data.List.Dedup

/-! Visiting a growing set of nodes in rounds, each node at most once. -/
namespace Worklist

variable {σ ν : Type} [DecidableEq ν]

/-- Visit the frontier, then the nodes found that are not in `seen`, until none are. -/
def rounds (visit : σ → List ν → σ × List ν) : Nat → σ → List ν → List ν → σ
  | 0, s, _, _ => s
  | _ + 1, s, _, [] => s
  | fuel + 1, s, seen, frontier =>
    let r := visit s frontier
    let fresh := r.2.dedup.filter (· ∉ seen)
    rounds visit fuel r.1 (seen ++ fresh) fresh

/-- The loop, started with these nodes seen and this frontier, ends in the last state. -/
inductive Halts (visit : σ → List ν → σ × List ν) : σ → List ν → List ν → σ → Prop
  | done {s : σ} {seen : List ν} : Halts visit s seen [] s
  | round {s s' : σ} {seen frontier : List ν} (h : frontier ≠ [])
      (hrest : Halts visit (visit s frontier).1
        (seen ++ (visit s frontier).2.dedup.filter (· ∉ seen))
        ((visit s frontier).2.dedup.filter (· ∉ seen)) s') : Halts visit s seen frontier s'

variable {visit : σ → List ν → σ × List ν}

/-- What every visit of nodes in `region` keeps, and finds only nodes of `region` by, holds
after all rounds. -/
theorem rounds_invariant (region : ν → Prop) (inv : σ → Prop)
    (step : ∀ s frontier, inv s → (∀ x ∈ frontier, region x) →
      inv (visit s frontier).1 ∧ ∀ x ∈ (visit s frontier).2, region x) :
    ∀ (fuel : Nat) (s : σ) (seen frontier : List ν), inv s → (∀ x ∈ frontier, region x) →
      inv (rounds visit fuel s seen frontier)
  | 0, _, _, _, h, _ => h
  | _ + 1, _, _, [], h, _ => h
  | fuel + 1, s, seen, x :: frontier, h, hr => by
    obtain ⟨hinv, hfound⟩ := step s (x :: frontier) h hr
    exact rounds_invariant region inv step fuel _ _ _ hinv fun y hy =>
      hfound y (List.mem_dedup.mp (List.mem_filter.mp hy).1)

/-- A measure that drops whenever a visit finds a node bounds the rounds: more fuel than that
changes nothing. -/
theorem rounds_fuel (measure : σ → Nat)
    (drops : ∀ s frontier, (visit s frontier).2 ≠ [] →
      measure (visit s frontier).1 < measure s) :
    ∀ (fuel extra : Nat) (s : σ) (seen frontier : List ν), measure s < fuel →
      rounds visit (fuel + extra) s seen frontier = rounds visit fuel s seen frontier
  | fuel + 1, extra, s, seen, [], _ => by
    rw [Nat.add_right_comm, rounds, rounds]
  | fuel + 1, extra, s, seen, x :: frontier, h => by
    rw [Nat.add_right_comm]
    simp only [rounds]
    by_cases hfound : (visit s (x :: frontier)).2 = []
    · simp only [hfound, List.dedup_nil, List.filter_nil]
      cases fuel <;> cases extra <;> rfl
    · have hdrop := drops s (x :: frontier) hfound
      exact rounds_fuel measure drops fuel extra _ _ _ (by omega)

/-- With that much fuel, the rounds are the whole loop. -/
theorem rounds_halts (measure : σ → Nat)
    (drops : ∀ s frontier, (visit s frontier).2 ≠ [] →
      measure (visit s frontier).1 < measure s) :
    ∀ (fuel : Nat) (s : σ) (seen frontier : List ν), measure s < fuel →
      Halts visit s seen frontier (rounds visit fuel s seen frontier)
  | fuel + 1, s, seen, [], _ => .done
  | fuel + 1, s, seen, x :: frontier, hfuel => by
    apply Halts.round (by simp)
    simp only [rounds]
    by_cases hfound : (visit s (x :: frontier)).2 = []
    · simp only [hfound, List.dedup_nil, List.filter_nil]
      cases fuel with
      | zero => exact .done
      | succ fuel => exact .done
    · have hdrop := drops s (x :: frontier) hfound
      exact rounds_halts measure drops fuel _ _ _ (by omega)

/-- With that much fuel, an invariant of rounds holds at the end with an empty frontier. -/
theorem rounds_exhausts (measure : σ → Nat)
    (drops : ∀ s frontier, (visit s frontier).2 ≠ [] →
      measure (visit s frontier).1 < measure s)
    (inv : σ → List ν → List ν → Prop)
    (step : ∀ s seen frontier, inv s seen frontier →
      let fresh := (visit s frontier).2.dedup.filter (· ∉ seen)
      inv (visit s frontier).1 (seen ++ fresh) fresh) :
    ∀ (fuel : Nat) (s : σ) (seen frontier : List ν), measure s < fuel →
      inv s seen frontier → ∃ seen', inv (rounds visit fuel s seen frontier) seen' []
  | fuel + 1, s, seen, [], _, h => ⟨seen, h⟩
  | fuel + 1, s, seen, x :: frontier, hfuel, h => by
    have hstep := step s seen (x :: frontier) h
    by_cases hfound : (visit s (x :: frontier)).2 = []
    · simp only [hfound, List.dedup_nil, List.filter_nil, List.append_nil] at hstep
      have hrounds : rounds visit (fuel + 1) s seen (x :: frontier) =
          (visit s (x :: frontier)).1 := by
        simp only [rounds, hfound, List.dedup_nil, List.filter_nil]
        cases fuel <;> rfl
      exact ⟨seen, hrounds ▸ hstep⟩
    · have hdrop := drops s (x :: frontier) hfound
      exact rounds_exhausts measure drops inv step fuel _ _ _ (by omega) hstep

end Worklist
