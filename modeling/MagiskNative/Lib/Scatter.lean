import MagiskNative.Lib.Writes

/-!
# Content over a list of ranges

A content can be cut into pieces for the ranges of a list, given as offset and length. One write of
the whole content does the same for every content just if each range starts where the one before it
ends.
-/

namespace Layout

open Bytes

def extentOf (ranges : List (Nat × Nat)) : Nat := (ranges.map Prod.snd).sum

theorem extentOf_cons (off n : Nat) (ranges : List (Nat × Nat)) :
    extentOf ((off, n) :: ranges) = n + extentOf ranges := rfl

def scatter : List (Nat × Nat) → List UInt8 → List Write
  | [], _ => []
  | (off, n) :: ranges, content => ⟨off, content.take n⟩ :: scatter ranges (content.drop n)

def placeOf : List (Nat × Nat) → Nat → Option Nat
  | [], _ => none
  | (off, n) :: ranges, j => if j < n then some (off + j) else placeOf ranges (j - n)

/-- Each range starts where the one before it ends; where an empty one is does not matter. -/
def Adjacent : Nat → List (Nat × Nat) → Prop
  | _, [] => True
  | pos, (off, n) :: ranges => (n = 0 ∨ off = pos) ∧ Adjacent (pos + n) ranges

instance decidableAdjacent : (pos : Nat) → (ranges : List (Nat × Nat)) → Decidable (Adjacent pos ranges)
  | _, [] => isTrue trivial
  | pos, (_, n) :: ranges =>
      have := decidableAdjacent (pos + n) ranges
      inferInstanceAs (Decidable (_ ∧ _))

section Scatter

variable {ranges : List (Nat × Nat)} {content data : List UInt8} {pos : Nat}

theorem range_subset_of_mem_scatter {w : Write} (hw : w ∈ scatter ranges content) :
    ∃ r ∈ ranges, w.range ⊆ Set.Ico r.1 (r.1 + r.2) := by
  induction ranges generalizing content with
  | nil => cases hw
  | cons r ranges ih =>
      obtain ⟨off, n⟩ := r
      rw [scatter, List.mem_cons] at hw
      rcases hw with rfl | hw
      · refine ⟨(off, n), List.mem_cons_self, fun i hi => ?_⟩
        simp only [Write.mem_range, List.length_take] at hi
        exact ⟨hi.1, by simp only; omega⟩
      · obtain ⟨r, hr, hsub⟩ := ih hw
        exact ⟨r, List.mem_cons_of_mem _ hr, hsub⟩

theorem placeOf_of_mem_scatter {w : Write} (hw : w ∈ scatter ranges content) {k : Nat} {b : UInt8}
    (hbyte : w.bytes[k]? = some b) :
    ∃ j, placeOf ranges j = some (w.off + k) ∧ content[j]? = some b := by
  induction ranges generalizing content with
  | nil => cases hw
  | cons r ranges ih =>
      obtain ⟨off, n⟩ := r
      rw [scatter, List.mem_cons] at hw
      rcases hw with rfl | hw
      · rw [List.getElem?_take] at hbyte
        split at hbyte
        · rename_i hk
          exact ⟨k, if_pos hk, hbyte⟩
        · cases hbyte
      · obtain ⟨j, hplace, hcontent⟩ := ih hw
        refine ⟨n + j, ?_, ?_⟩
        · rw [placeOf, if_neg (by omega), Nat.add_sub_cancel_left, hplace]
        · rwa [List.getElem?_drop] at hcontent

theorem adjacent_iff :
    Adjacent pos ranges ↔ ∀ j < extentOf ranges, placeOf ranges j = some (pos + j) := by
  induction ranges generalizing pos with
  | nil => exact iff_of_true trivial fun j hj => absurd hj (Nat.not_lt_zero j)
  | cons r ranges ih =>
      obtain ⟨off, n⟩ := r
      rw [Adjacent, ih, extentOf_cons]
      constructor
      · rintro ⟨hoff, hrest⟩ j hj
        rw [placeOf]
        split
        · rw [hoff.resolve_left (by omega)]
        · rw [hrest (j - n) (by omega)]
          congr 1
          omega
      · intro hplaces
        constructor
        · rw [or_iff_not_imp_left]
          intro hn
          have hfirst := hplaces 0 (by omega)
          rw [placeOf, if_pos (by omega), Option.some.injEq] at hfirst
          exact hfirst
        · intro j hj
          have hlater := hplaces (n + j) (by omega)
          rw [placeOf, if_neg (by omega), Nat.add_sub_cancel_left] at hlater
          rw [hlater, Nat.add_assoc]

theorem applyAll_scatter_of_adjacent (hlength : content.length = extentOf ranges)
    (hadjacent : Adjacent pos ranges) :
    Write.applyAll data (scatter ranges content) = (⟨pos, content⟩ : Write).apply data := by
  induction ranges generalizing pos content data with
  | nil => exact (Write.apply_of_nil (List.eq_nil_of_length_eq_zero hlength)).symm
  | cons r ranges ih =>
      obtain ⟨off, n⟩ := r
      obtain ⟨hoff, hrest⟩ := hadjacent
      rw [extentOf_cons] at hlength
      have hfront : (content.take n).length = n := by
        rw [List.length_take]
        omega
      have hpiece : (⟨off, content.take n⟩ : Write).apply data
          = (⟨pos, content.take n⟩ : Write).apply data := by
        rcases hoff with rfl | rfl
        · rw [Write.apply_of_nil rfl, Write.apply_of_nil rfl]
        · rfl
      rw [scatter, Write.applyAll_cons, hpiece, ih (by rw [List.length_drop]; omega) hrest]
      calc (⟨pos + n, content.drop n⟩ : Write).apply ((⟨pos, content.take n⟩ : Write).apply data)
          = (⟨pos, content.take n ++ content.drop n⟩ : Write).apply data := by
            rw [← Write.apply_append, hfront]
        _ = (⟨pos, content⟩ : Write).apply data := by rw [List.take_append_drop]

/-- **Scattering and writing in one piece.** They agree on all contents just for adjacent ranges: a
single byte among zeros shows where it goes. -/
theorem adjacent_of_applyAll_scatter
    (heq : ∀ content, content.length = extentOf ranges →
      Write.applyAll [] (scatter ranges content) = (⟨pos, content⟩ : Write).apply []) :
    Adjacent pos ranges := by
  rw [adjacent_iff]
  intro j hj
  have hlength : ((zeros (extentOf ranges)).set j 1).length = extentOf ranges := by
    rw [List.length_set, length_zeros]
  have hmark : ((⟨pos, (zeros (extentOf ranges)).set j 1⟩ : Write).apply [])[pos + j]? = some 1 := by
    rw [Write.getElem?_apply, if_pos ⟨by simp only; omega, by simp only [hlength]; omega⟩]
    simp only [Nat.add_sub_cancel_left]
    rw [List.getElem?_set_self (by rw [length_zeros]; exact hj)]
  rw [← heq _ hlength, Write.getElem?_applyAll, Option.or_eq_some_iff] at hmark
  rcases hmark with hlast | ⟨-, hhole⟩
  · obtain ⟨w, hw, hle, hbyte⟩ := Write.mem_of_lastByte hlast
    obtain ⟨j', hplace, hcontent⟩ := placeOf_of_mem_scatter hw hbyte
    have hsame : j' = j := by
      by_contra hne
      rw [List.getElem?_set_ne (Ne.symm hne), zeros, List.getElem?_replicate] at hcontent
      split at hcontent <;> cases hcontent
    rw [← hsame, hplace]
    congr 1
    omega
  · split at hhole
    · cases hhole
    · split at hhole <;> cases hhole

end Scatter

end Layout
