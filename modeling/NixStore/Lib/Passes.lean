import Mathlib

/-!
# Passes until nothing changes

A pass over some state says whether it has changed anything, and is repeated as long as it does.  If
every pass that changes something makes a measure smaller, this ends, and the last pass has changed
nothing.
-/

namespace Nix

variable {σ : Type*}

/-- Repeat a pass until one changes nothing; the first argument bounds the number of passes, and
passes are numbered. -/
def repeatPasses (pass : ℕ → σ → σ × Bool) : ℕ → ℕ → σ → Option σ
  | 0, _, _ => none
  | fuel + 1, i, s =>
    let (s', changed) := pass i s
    if changed then repeatPasses pass fuel (i + 1) s' else some s'

variable {pass : ℕ → σ → σ × Bool} {P : σ → Prop}

/-- The end of a repetition is what a last pass leaves that has changed nothing. -/
theorem repeatPasses_spec (hP : ∀ i s, P s → P (pass i s).1) {fuel i : ℕ} {s s' : σ} (hs : P s)
    (h : repeatPasses pass fuel i s = some s') : ∃ j t, P t ∧ pass j t = (s', false) := by
  induction fuel generalizing i s with
  | zero => cases h
  | succ fuel ih =>
    rw [repeatPasses] at h
    dsimp only at h
    split_ifs at h with hchanged
    · exact ih (hP i s hs) h
    · refine ⟨i, s, hs, Prod.ext (Option.some.inj h) ?_⟩
      simpa using hchanged

/-- A repetition ends if the measure gets smaller. -/
theorem exists_repeatPasses (μ : σ → ℕ) (hμ : ∀ i s, (pass i s).2 = true → μ (pass i s).1 < μ s)
    (s : σ) : ∃ s', ∀ fuel, μ s < fuel → repeatPasses pass fuel 0 s = some s' := by
  suffices h : ∀ n i s, μ s = n → ∃ s', ∀ fuel, n < fuel → repeatPasses pass fuel i s = some s' from
    h (μ s) 0 s rfl
  intro n
  induction n using Nat.strong_induction_on with
  | _ n ih =>
    rintro i s rfl
    by_cases hchanged : (pass i s).2 = true
    · obtain ⟨s', hs'⟩ := ih _ (hμ i s hchanged) (i + 1) (pass i s).1 rfl
      refine ⟨s', fun fuel hfuel => ?_⟩
      obtain ⟨fuel, rfl⟩ : ∃ k, fuel = k + 1 := ⟨fuel - 1, by omega⟩
      rw [repeatPasses]
      dsimp only
      rw [if_pos hchanged]
      have hless := hμ i s hchanged
      exact hs' fuel (by omega)
    · refine ⟨(pass i s).1, fun fuel hfuel => ?_⟩
      obtain ⟨fuel, rfl⟩ : ∃ k, fuel = k + 1 := ⟨fuel - 1, by omega⟩
      rw [repeatPasses]
      dsimp only
      rw [if_neg hchanged]

/-- If the first pass changes nothing, it is the last one. -/
theorem repeatPasses_of_unchanged {i : ℕ} {s s' : σ} (h : pass i s = (s', false)) (fuel : ℕ) :
    repeatPasses pass (fuel + 1) i s = some s' := by
  rw [repeatPasses, h]
  rfl

end Nix
