import Mathlib.Tactic

/-!
# Computations that can fail or abort

A computation returns a value, reports an error, or aborts the process, as an index out of range
does.
-/

inductive Outcome (ε α : Type) where
  | ok (value : α)
  | err (error : ε)
  | panic
  deriving DecidableEq, Repr

namespace Outcome

variable {ε ε' α β : Type}

def bind (x : Outcome ε α) (f : α → Outcome ε β) : Outcome ε β :=
  match x with
  | ok value => f value
  | err error => err error
  | panic => panic

instance : Monad (Outcome ε) where
  pure := ok
  bind := bind

instance : LawfulMonad (Outcome ε) :=
  .mk' _ (fun x => by cases x <;> rfl) (fun _ _ => rfl) fun x _ _ => by cases x <;> rfl

def ofOption (x : Option α) (error : ε) : Outcome ε α :=
  match x with
  | some value => ok value
  | none => err error

def mapErr (f : ε → ε') (x : Outcome ε α) : Outcome ε' α :=
  match x with
  | ok value => ok value
  | err error => err (f error)
  | panic => panic

def assert (p : Prop) [Decidable p] : Outcome ε Unit := if p then ok () else panic

def checkedSub (a b : Nat) : Outcome ε Nat := do
  assert (b ≤ a)
  return a - b

/-- A sum of two words of `w` bits that must not overflow. -/
def checkedAdd (w a b : Nat) : Outcome ε Nat := do
  assert (a + b < 2 ^ w)
  return a + b

@[simp] theorem pure_eq (value : α) : (pure value : Outcome ε α) = ok value := rfl

@[simp] theorem ok_bind (value : α) (f : α → Outcome ε β) : (ok value >>= f) = f value := rfl

@[simp] theorem err_bind (error : ε) (f : α → Outcome ε β) : (err error >>= f) = err error := rfl

theorem ite_bind (p : Prop) [Decidable p] (x y : Outcome ε α) (f : α → Outcome ε β) :
    ((if p then x else y) >>= f) = if p then x >>= f else y >>= f := by
  split <;> rfl

@[simp] theorem ofOption_some (value : α) (error : ε) : ofOption (some value) error = ok value := rfl

theorem mapErr_eq_ok {f : ε → ε'} {x : Outcome ε α} {value : α} :
    mapErr f x = ok value ↔ x = ok value := by
  cases x <;> simp [mapErr]

theorem ofOption_eq_ok {x : Option α} {error : ε} {value : α} :
    ofOption x error = ok value ↔ x = some value := by
  cases x <;> simp [ofOption]

theorem assert_of {p : Prop} [Decidable p] (hp : p) : (assert p : Outcome ε Unit) = ok () :=
  if_pos hp

theorem assert_eq_ok {p : Prop} [Decidable p] {u : Unit} : (assert p : Outcome ε Unit) = ok u ↔ p := by
  by_cases hp : p <;> simp [assert, hp]

theorem checkedSub_of_le {a b : Nat} (hle : b ≤ a) : (checkedSub a b : Outcome ε Nat) = ok (a - b) := by
  rw [checkedSub, assert_of hle]
  rfl

theorem checkedAdd_of_lt {w a b : Nat} (hlt : a + b < 2 ^ w) :
    (checkedAdd w a b : Outcome ε Nat) = ok (a + b) := by
  rw [checkedAdd, assert_of hlt]
  rfl

theorem findM?_eq_ok {p : α → Outcome ε Bool} {q : α → Bool} {as : List α}
    (htest : ∀ a ∈ as, p a = ok (q a)) : as.findM? p = ok (as.find? q) := by
  induction as with
  | nil => rfl
  | cons a as ih =>
      have hrest := ih fun a' ha' => htest a' (List.mem_cons_of_mem a ha')
      rw [List.findM?, htest a List.mem_cons_self, ok_bind, List.find?_cons]
      cases q a with
      | true => rfl
      | false => exact hrest

theorem bind_eq_ok {x : Outcome ε α} {f : α → Outcome ε β} {value : β} :
    (x >>= f) = ok value ↔ ∃ a, x = ok a ∧ f a = ok value := by
  cases x with
  | ok a => simp
  | err error => simp
  | panic =>
      constructor
      · intro hbind
        cases hbind
      · rintro ⟨a, ha, -⟩
        cases ha

theorem bind_eq_panic {x : Outcome ε α} {f : α → Outcome ε β} :
    (x >>= f) = panic ↔ x = panic ∨ ∃ a, x = ok a ∧ f a = panic := by
  cases x with
  | ok a => simp
  | err error => simp
  | panic => exact iff_of_true rfl (.inl rfl)

theorem bind_panic {x : Outcome ε α} (hx : x = panic) (f : α → Outcome ε β) : (x >>= f) = panic :=
  bind_eq_panic.2 (.inl hx)

theorem bind_ne_panic_iff {x : Outcome ε α} {f : α → Outcome ε β} :
    (x >>= f) ≠ panic ↔ x ≠ panic ∧ ∀ a, x = ok a → f a ≠ panic := by
  cases x with
  | ok a => simp
  | err error => simp
  | panic => simp [show (panic >>= f : Outcome ε β) = panic from rfl]

theorem assert_bind_ne_panic_iff {p : Prop} [Decidable p] {f : Unit → Outcome ε β} :
    (assert p >>= f) ≠ panic ↔ p ∧ f () ≠ panic := by
  by_cases hp : p
  · rw [assert_of hp, ok_bind]
    exact ⟨fun h => ⟨hp, h⟩, fun h => h.2⟩
  · have hpanic : (assert p >>= f) = panic := by
      rw [assert, if_neg hp]
      rfl
    rw [hpanic]
    exact ⟨fun h => absurd rfl h, fun h => absurd h.1 hp⟩

theorem ofOption_ne_panic (x : Option α) (error : ε) : ofOption x error ≠ panic := by
  cases x <;> simp [ofOption]

end Outcome
