import Mathlib.Tactic

/-!
# Loops

A round of a loop leaves it with a result or goes on in another state. A loop ends if each round lowers
a measure, and it does not end if it comes to a state that it never leaves.
-/

namespace Loop

inductive Round (σ β : Type) where
  | leave (result : β)
  | next (state : σ)
  deriving DecidableEq, Repr

variable {σ β : Type} (round : σ → Round σ β)

/-- At most so many rounds; `none` if the loop goes on after them. -/
def run : Nat → σ → Option β
  | 0, _ => none
  | rounds + 1, s =>
      match round s with
      | .leave result => some result
      | .next s' => run rounds s'

inductive Visits (s : σ) : σ → Prop
  | start : Visits s s
  | next {t u : σ} (hvisits : Visits s t) (hround : round t = .next u) : Visits s u

def Ends (s : σ) : Prop := ∃ rounds result, run round rounds s = some result

variable {round} {s t u : σ}

theorem run_succ_leave {result : β} (hround : round s = .leave result) (rounds : Nat) :
    run round (rounds + 1) s = some result := by
  rw [run, hround]

theorem run_succ_next (hround : round s = .next t) (rounds : Nat) :
    run round (rounds + 1) s = run round rounds t := by
  rw [run, hround]

theorem Visits.trans (hst : Visits round s t) (htu : Visits round t u) : Visits round s u := by
  induction htu with
  | start => exact hst
  | next _ hround ih => exact ih.next hround

theorem Visits.of_next (hround : round s = .next t) (htu : Visits round t u) : Visits round s u :=
  (Visits.start.next hround).trans htu

theorem Visits.eq_or_next (hvisits : Visits round s t) :
    t = s ∨ ∃ u, round s = .next u ∧ Visits round u t := by
  induction hvisits with
  | start => exact .inl rfl
  | next _ hround ih =>
      rcases ih with rfl | ⟨u, hfirst, hvisits⟩
      · exact .inr ⟨_, hround, .start⟩
      · exact .inr ⟨u, hfirst, hvisits.next hround⟩

theorem Visits.invariant {P : σ → Prop} (hvisits : Visits round s t)
    (hround : ∀ t u, P t → round t = .next u → P u) (hs : P s) : P t := by
  induction hvisits with
  | start => exact hs
  | next _ hnext ih => exact hround _ _ ih hnext

/-- The induction is on the number of rounds, over all states from which the measure goes down. -/
theorem exists_run_of_measure {μ : σ → Nat}
    (hlt : ∀ t u, Visits round s t → round t = .next u → μ u < μ t) {rounds : Nat}
    (hrounds : μ s < rounds) : ∃ result, run round rounds s = some result := by
  induction rounds generalizing s with
  | zero => omega
  | succ rounds ih =>
      cases hround : round s with
      | leave result => exact ⟨result, run_succ_leave hround rounds⟩
      | next s' =>
          rw [run_succ_next hround]
          apply ih
          · intro t u hvisits
            exact hlt t u (hvisits.of_next hround)
          · have hless := hlt s s' .start hround
            omega

theorem ends_of_measure {μ : σ → Nat}
    (hlt : ∀ t u, Visits round s t → round t = .next u → μ u < μ t) : Ends round s :=
  ⟨μ s + 1, exists_run_of_measure hlt (Nat.lt_succ_self _)⟩

theorem run_eq_none_of_self (hself : round s = .next s) (rounds : Nat) : run round rounds s = none := by
  induction rounds with
  | zero => rfl
  | succ rounds ih => rw [run_succ_next hself, ih]

theorem Ends.of_visits (hends : Ends round s) (hvisits : Visits round s t) : Ends round t := by
  induction hvisits with
  | start => exact hends
  | next _ hround ih =>
      obtain ⟨rounds, result, hrun⟩ := ih
      cases rounds with
      | zero => cases hrun
      | succ rounds =>
          rw [run_succ_next hround] at hrun
          exact ⟨rounds, result, hrun⟩

theorem not_ends_of_self (hvisits : Visits round s t) (hself : round t = .next t) : ¬ Ends round s := by
  intro hends
  obtain ⟨rounds, result, hrun⟩ := hends.of_visits hvisits
  rw [run_eq_none_of_self hself] at hrun
  cases hrun

theorem exists_leave_of_run {rounds : Nat} {result : β} (hrun : run round rounds s = some result) :
    ∃ t, Visits round s t ∧ round t = .leave result := by
  induction rounds generalizing s with
  | zero => cases hrun
  | succ rounds ih =>
      cases hround : round s with
      | leave result' =>
          rw [run_succ_leave hround] at hrun
          cases hrun
          exact ⟨s, .start, hround⟩
      | next s' =>
          rw [run_succ_next hround] at hrun
          obtain ⟨t, hvisits, hleave⟩ := ih hrun
          exact ⟨t, hvisits.of_next hround, hleave⟩

end Loop
