import SqlCode.Process.Choreography
import Mathlib.Algebra.Order.BigOperators.Group.Finset

/-!
# Runs that come to an end

A program is `Decreasing` if every action lowers a weight of the rank's local
state. Then every step that does not end the job lowers the sum over the ranks
(`Step.total_lt`), so no run is infinite. Together with `OnTrack.progress`, every
run of ranks that follow a choreography can be completed (`exists_halted`).
-/

namespace Process

open Exec Finset

variable {σ τ μ : Type} [DecidableEq τ]

/-- The action leads to states of a weight below `w`. -/
def Action.Lowers (wt : σ → ℕ) (w : ℕ) : Action σ τ μ → Prop
  | .run p => Always p fun s => wt s < w
  | .send _ _ _ s => wt s < w
  | .recv _ _ k => ∀ m, wt (k m) < w
  | .exit => True
  | .halt => True

/-- Every action of a rank lowers the weight of its state. -/
def Decreasing (prog : Program σ τ μ) (wt : σ → ℕ) : Prop :=
  ∀ r s, (prog r s).Lowers wt (wt s)

/-- The sum of the weights. -/
def total (wt : σ → ℕ) (size : ℕ) (c : Config σ τ μ) : ℕ :=
  ∑ r ∈ range size, wt (c.loc r)

variable {prog : Program σ τ μ} {wt : σ → ℕ} {size : ℕ}

omit [DecidableEq τ] in
theorem total_setLoc_lt {c : Config σ τ μ} {r : ℕ} {s' : σ} (hr : r < size)
    (h : wt s' < wt (c.loc r)) : total wt size (c.setLoc r s') < total wt size c := by
  refine sum_lt_sum (fun q _ => ?_) ⟨r, mem_range.mpr hr, ?_⟩
  · by_cases hq : q = r
    · subst hq
      rw [Config.setLoc_loc_self]
      exact h.le
    · rw [Config.setLoc_loc_ne _ _ _ hq]
  · rwa [Config.setLoc_loc_self]

theorem total_setChan (c : Config σ τ μ) (a b : ℕ) (t : τ) (l : List μ) :
    total wt size (c.setChan a b t l) = total wt size c := rfl

/-- Every step that does not end the job lowers the sum. -/
theorem Step.total_lt (hd : Decreasing prog wt) {b : Bool} {c c' : Config σ τ μ}
    (h : Step prog size b c c') (hgo : c'.ended = false) :
    total wt size c' < total wt size c := by
  have hlower := fun r => hd r (c.loc r)
  cases h with
  | @run r p s' _ hr h hp =>
    have hlt := hlower r
    rw [h] at hlt
    exact total_setLoc_lt hr (hlt.of_returns hp)
  | fault => cases hgo
  | @send r dst tag m s' _ _ hr h =>
    have hlt := hlower r
    rw [h] at hlt
    rw [total_setChan]
    exact total_setLoc_lt hr hlt
  | @recv r src tag m rest k _ hr _ h =>
    have hlt := hlower r
    rw [h] at hlt
    rw [total_setChan]
    exact total_setLoc_lt hr (hlt m)
  | @meet r q tag m s' k _ hr hq hne _ hs hk =>
    have hsend := hlower r
    have hrecv := hlower q
    rw [hs] at hsend
    rw [hk] at hrecv
    refine (total_setLoc_lt hq ?_).trans (total_setLoc_lt hr hsend)
    -- the receiver's own state is still the old one after the sender's step
    rw [Config.setLoc_loc_ne _ _ _ hne]
    exact hrecv m
  | exit => cases hgo

/-- **Every run can be completed**, without a buffer for any further send. The induction
is on the sum of the weights. -/
theorem exists_halted (hd : Decreasing prog wt) {At : ℕ → List (Event τ μ) → σ → Prop}
    {G : List (Comm τ μ)} {c₀ c : Config σ τ μ} (hf : Follows prog size At G c₀)
    (h : Reachable prog size c₀ c) :
    ∃ c', Relation.ReflTransGen (Step prog size false) c c' ∧
      ∀ r, r < size → prog r (c'.loc r) = .halt := by
  induction hN : total wt size c using Nat.strong_induction_on generalizing c with
  | _ N ih =>
  by_cases hall : ∀ r, r < size → prog r (c.loc r) = .halt
  · exact ⟨c, .refl, hall⟩
  · push Not at hall
    obtain ⟨r, hr, hlive⟩ := hall
    obtain ⟨todo, ht⟩ := h.onTrack hf
    -- some step is possible, and it leads to a lower sum
    obtain ⟨c₁, hstep⟩ := ht.progress hf hr hlive
    have h₁ : Reachable prog size c₀ c₁ := h.tail (hstep.buffered true)
    obtain ⟨todo₁, ht₁⟩ := h₁.onTrack hf
    have hlt := hstep.total_lt hd ht₁.running
    obtain ⟨c', hrun, hhalt⟩ := ih _ (by omega) h₁ rfl
    exact ⟨c', .head hstep hrun, hhalt⟩

end Process
