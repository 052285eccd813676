import Mathlib.Tactic

/-!
# Runs of a machine

A machine takes an action in a state or cannot take it. Its runs are lists of actions, and what holds of
them follows from what holds of one step.
-/

namespace Machine

variable {σ α : Type} (step : σ → α → Option σ)

def visited : σ → List α → List σ
  | s, [] => [s]
  | s, a :: as =>
      s :: match step s a with
        | some s' => visited s' as
        | none => []

def taken : σ → List α → List (σ × α)
  | _, [] => []
  | s, a :: as =>
      match step s a with
      | some s' => (s, a) :: taken s' as
      | none => []

variable {step}

theorem mem_visited_self (s : σ) (as : List α) : s ∈ visited step s as := by
  cases as <;> exact List.mem_cons_self

theorem forall_taken {Inv : σ → Prop} (hstep : ∀ s a s', step s a = some s' → Inv s → Inv s') {s : σ}
    (hs : Inv s) (as : List α) : ∀ x ∈ taken step s as, Inv x.1 := by
  induction as generalizing s with
  | nil => simp [taken]
  | cons a as ih =>
      rw [taken]
      cases ha : step s a with
      | none => simp
      | some next =>
          intro x hx
          rcases List.mem_cons.1 hx with rfl | hx
          · exact hs
          · exact ih (hstep s a next ha hs) x hx

/-- **A property of all states as one of all steps.** `P` goes from one state to the next exactly if the
step is a good one. -/
theorem forall_visited_iff {Inv P : σ → Prop} {Good : σ → α → Prop}
    (hinv : ∀ s a s', step s a = some s' → Inv s → Inv s')
    (hgood : ∀ s a s', step s a = some s' → Inv s → P s → (P s' ↔ Good s a)) {s : σ} (hs : Inv s)
    (hP : P s) (as : List α) :
    (∀ s' ∈ visited step s as, P s') ↔ ∀ x ∈ taken step s as, Good x.1 x.2 := by
  induction as generalizing s with
  | nil => simpa [visited, taken] using hP
  | cons a as ih =>
      cases ha : step s a with
      | none => simpa [visited, taken, ha] using hP
      | some next =>
          have hnext := hgood s a next ha hs hP
          simp only [visited, taken, ha, List.forall_mem_cons]
          constructor
          · rintro ⟨-, hall⟩
            have hPnext := hall next (mem_visited_self next as)
            exact ⟨hnext.1 hPnext, (ih (hinv s a next ha hs) hPnext).1 hall⟩
          · rintro ⟨hfirst, hrest⟩
            exact ⟨hP, (ih (hinv s a next ha hs) (hnext.2 hfirst)).2 hrest⟩

/-- **Balances.** What the steps add to a balance adds up along a run. -/
theorem balance_last {f : σ → Int} {g : σ → α → Nat}
    (hstep : ∀ s a s', step s a = some s' → f s' = f s + g s a) (s : σ) (as : List α) :
    f ((visited step s as).getLastD s) = f s + ((taken step s as).map fun x => g x.1 x.2).sum := by
  induction as generalizing s with
  | nil => simp [visited, taken]
  | cons a as ih =>
      rw [visited, taken]
      cases ha : step s a with
      | none => simp
      | some next =>
          have hlast : (visited step next as).getLastD s = (visited step next as).getLastD next := by
            cases as <;> rfl
          rw [List.getLastD_cons, hlast, ih, hstep s a next ha]
          simp [Int.add_assoc]

end Machine
