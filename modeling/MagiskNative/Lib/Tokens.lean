import Mathlib.Tactic

/-!
# Tokens

The tokens of a list are its longest runs without a separator. What is proved of a run, and of a run
with a separator and a shorter list behind it, holds of every list.
-/

namespace Tokens

variable {α : Type} (sep : α → Bool)

def tokens (l : List α) : List (List α) := (l.splitOnP sep).filter fun t => !t.isEmpty

def Free (t : List α) : Prop := ∀ c ∈ t, sep c = false

def Bounded (l : List α) : Prop := ∀ c ∈ l.head?, sep c = true

variable {sep} {l t rest : List α} {c : α}

theorem bounded_nil : Bounded sep ([] : List α) := nofun

theorem bounded_cons (hc : sep c = true) : Bounded sep (c :: l) := by
  rintro c' ⟨⟩
  exact hc

theorem Free.sublist (ht : Free sep t) (hsub : l.Sublist t) : Free sep l := fun c hc =>
  ht c (hsub.subset hc)

theorem exists_split (sep : α → Bool) (l : List α) : ∃ t rest, l = t ++ rest ∧ Free sep t ∧ Bounded sep rest := by
  refine ⟨l.takeWhile (!sep ·), l.dropWhile (!sep ·), List.takeWhile_append_dropWhile.symm, ?_, ?_⟩
  · intro c hc
    have hkeep := List.all_eq_true.1 List.all_takeWhile c hc
    rwa [Bool.not_eq_true'] at hkeep
  · intro c hc
    have hstop := List.head?_dropWhile_not (!sep ·) l
    rw [Option.mem_def] at hc
    rw [hc] at hstop
    simpa using hstop

theorem induction (sep : α → Bool) {P : List α → Prop} (hlast : ∀ t, Free sep t → P t)
    (hmore : ∀ t c rest, Free sep t → sep c = true → P rest → P (t ++ c :: rest)) (l : List α) : P l := by
  induction hn : l.length using Nat.strong_induction_on generalizing l with
  | _ n ih =>
      obtain ⟨t, rest, rfl, ht, hrest⟩ := exists_split sep l
      cases rest with
      | nil =>
          rw [List.append_nil]
          exact hlast t ht
      | cons c rest =>
          rw [List.length_append, List.length_cons] at hn
          exact hmore t c rest ht (hrest c rfl) (ih rest.length (by omega) rest rfl)

theorem tokens_of_free (ht : Free sep t) : tokens sep t = if t = [] then [] else [t] := by
  rw [tokens, List.splitOnP_eq_singleton ht]
  cases t with
  | nil => rfl
  | cons c t => rfl

theorem tokens_append_cons (l : List α) (hc : sep c = true) (rest : List α) :
    tokens sep (l ++ c :: rest) = tokens sep l ++ tokens sep rest := by
  rw [tokens, List.splitOnP_append_cons l rest hc, List.filter_append]
  rfl

theorem tokens_cons (hc : sep c = true) (rest : List α) : tokens sep (c :: rest) = tokens sep rest :=
  tokens_append_cons [] hc rest

theorem tokens_append (l : List α) (hrest : Bounded sep rest) :
    tokens sep (l ++ rest) = tokens sep l ++ tokens sep rest := by
  cases rest with
  | nil => rw [List.append_nil, show tokens sep ([] : List α) = [] from rfl, List.append_nil]
  | cons c rest => rw [tokens_append_cons l (hrest c rfl), tokens_cons (hrest c rfl)]

theorem free_of_mem_tokens (hmem : t ∈ tokens sep l) : Free sep t ∧ t ≠ [] := by
  have hfree : ∀ u, Free sep u → t ∈ tokens sep u → Free sep t ∧ t ≠ [] := by
    intro u hu ht
    rw [tokens_of_free hu] at ht
    split at ht
    · cases ht
    · rename_i hne
      rw [List.mem_singleton.1 ht]
      exact ⟨hu, hne⟩
  induction l using induction sep with
  | hlast u hu => exact hfree u hu hmem
  | hmore u c rest hu hc ih =>
      rw [tokens_append_cons u hc] at hmem
      rcases List.mem_append.1 hmem with hmem | hmem
      · exact hfree u hu hmem
      · exact ih hmem

theorem flatten_tokens (l : List α) : (tokens sep l).flatten = l.filter (!sep ·) := by
  have hfree : ∀ t, Free sep t → (tokens sep t).flatten = t.filter (!sep ·) := by
    intro t ht
    have hall : t.filter (!sep ·) = t := by
      rw [List.filter_eq_self]
      intro c hc
      rw [ht c hc, Bool.not_false]
    rw [tokens_of_free ht, hall]
    split
    · rename_i hnil
      rw [hnil, List.flatten_nil]
    · rw [List.flatten_singleton]
  induction l using induction sep with
  | hlast t ht => exact hfree t ht
  | hmore t c rest ht hc ih =>
      have hskip : (!sep c) = false := by rw [hc, Bool.not_true]
      rw [tokens_append_cons t hc, List.flatten_append, hfree t ht, ih, List.filter_append,
        List.filter_cons_of_neg (by rw [hskip]; exact Bool.false_ne_true)]

end Tokens
