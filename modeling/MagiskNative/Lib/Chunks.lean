import Mathlib.Tactic

/-!
# Pieces of one size

A list is cut from the front into pieces of `n` elements. `cut` gives the full pieces and what is left
behind them; `pieces` takes a rest for one more piece.
-/

namespace Chunks

variable {α : Type}

def cut (n : Nat) (xs : List α) : List (List α) × List α :=
  if 0 < n ∧ n ≤ xs.length then
    (xs.take n :: (cut n (xs.drop n)).1, (cut n (xs.drop n)).2)
  else ([], xs)
termination_by xs.length
decreasing_by
  all_goals
    rw [List.length_drop]
    omega

def pieces (n : Nat) (xs : List α) : List (List α) :=
  if n = 0 ∨ xs = [] then [] else xs.take n :: pieces n (xs.drop n)
termination_by xs.length
decreasing_by
  have hpos : 0 < xs.length := List.length_pos_of_ne_nil (by tauto)
  rw [List.length_drop]
  omega

variable {n : Nat} {xs : List α}

theorem cut_of_lt (hlt : xs.length < n) : cut n xs = ([], xs) := by
  rw [cut, if_neg (by omega)]

theorem cut_nil (hpos : 0 < n) : cut n ([] : List α) = ([], []) := cut_of_lt hpos

theorem cut_append_left {piece : List α} (hpos : 0 < n) (hpiece : piece.length = n) (ys : List α) :
    cut n (piece ++ ys) = (piece :: (cut n ys).1, (cut n ys).2) := by
  rw [cut, if_pos (by rw [List.length_append]; omega), List.take_left' hpiece, List.drop_left' hpiece]

theorem length_rest_lt (hpos : 0 < n) (xs : List α) : (cut n xs).2.length < n := by
  fun_induction cut n xs with
  | case1 xs hfull ih => exact ih
  | case2 xs hrest =>
      simp only
      omega

theorem cut_append (hpos : 0 < n) (xs ys : List α) :
    cut n (xs ++ ys)
      = ((cut n xs).1 ++ (cut n ((cut n xs).2 ++ ys)).1, (cut n ((cut n xs).2 ++ ys)).2) := by
  fun_induction cut n xs with
  | case1 xs hfull ih =>
      calc
        cut n (xs ++ ys) = cut n (xs.take n ++ (xs.drop n ++ ys)) := by
          rw [← List.append_assoc, List.take_append_drop]
        _ = (xs.take n :: (cut n (xs.drop n ++ ys)).1, (cut n (xs.drop n ++ ys)).2) := by
          apply cut_append_left hpos
          rw [List.length_take]
          omega
        _ = _ := by rw [ih, List.cons_append]
  | case2 xs hrest => rfl

theorem pieces_eq (hpos : 0 < n) (xs : List α) :
    pieces n xs = (cut n xs).1 ++ if (cut n xs).2 = [] then [] else [(cut n xs).2] := by
  fun_induction cut n xs with
  | case1 xs hfull ih =>
      have hne : ¬ (n = 0 ∨ xs = []) := by
        rintro (hzero | rfl)
        · omega
        · rw [List.length_nil] at hfull
          omega
      rw [pieces, if_neg hne, ih, List.cons_append]
  | case2 xs hrest =>
      rw [pieces]
      by_cases hnil : xs = []
      · rw [if_pos (.inr hnil), if_pos hnil, List.append_nil]
      · rw [if_neg (not_or.2 ⟨hpos.ne', hnil⟩), if_neg hnil, List.take_of_length_le (by omega),
          List.drop_of_length_le (by omega), pieces, if_pos (.inr rfl), List.nil_append]

theorem flatten_pieces (hpos : 0 < n) (xs : List α) : (pieces n xs).flatten = xs := by
  fun_induction pieces n xs with
  | case1 xs hnil =>
      rw [hnil.resolve_left (by omega), List.flatten_nil]
  | case2 xs hne ih => rw [List.flatten_cons, ih, List.take_append_drop]

theorem length_of_mem_pieces {piece : List α} (hpos : 0 < n) (hmem : piece ∈ pieces n xs) :
    0 < piece.length ∧ piece.length ≤ n := by
  fun_induction pieces n xs with
  | case1 xs hnil => cases hmem
  | case2 xs hne ih =>
      rcases List.mem_cons.1 hmem with rfl | hmem
      · have hlength : 0 < xs.length := List.length_pos_of_ne_nil fun hnil => hne (.inr hnil)
        rw [List.length_take]
        omega
      · exact ih hmem

theorem getElem?_pieces (hpos : 0 < n) (xs : List α) (i : Nat) :
    (pieces n xs)[i]? = if i * n < xs.length then some ((xs.drop (i * n)).take n) else none := by
  induction i generalizing xs with
  | zero =>
      rw [pieces, Nat.zero_mul, List.drop_zero]
      by_cases hnil : xs = []
      · rw [if_pos (.inr hnil), hnil]
        rfl
      · rw [if_neg (not_or.2 ⟨hpos.ne', hnil⟩), if_pos (List.length_pos_of_ne_nil hnil)]
        rfl
  | succ i ih =>
      rw [pieces, Nat.succ_mul]
      by_cases hnil : xs = []
      · rw [if_pos (.inr hnil), hnil, List.length_nil, if_neg (Nat.not_lt_zero _)]
        rfl
      · rw [if_neg (not_or.2 ⟨hpos.ne', hnil⟩), List.getElem?_cons_succ, ih, List.length_drop,
          List.drop_drop, Nat.add_comm n]
        exact if_congr (by omega) rfl rfl

end Chunks
