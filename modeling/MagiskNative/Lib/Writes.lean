import MagiskNative.Lib.Layout
import Mathlib.Order.CompletePartialOrder
import Mathlib.Order.Interval.Set.Disjoint

/-!
# Writes into a file

A write behind the end of a file leaves a hole that reads as zeros. Writes to disjoint ranges do not
disturb each other, so a list of them can be carried out in any order.
-/

namespace Layout

open Bytes

def writeAt (data : List UInt8) (off : Nat) (new : List UInt8) : List UInt8 :=
  data.take off ++ zeros (off - data.length) ++ new ++ data.drop (off + new.length)

section WriteAt

variable {data new : List UInt8} {at' off n : Nat}

theorem length_writeAt (data : List UInt8) (off : Nat) (new : List UInt8) :
    (writeAt data off new).length = max data.length (off + new.length) := by
  simp only [writeAt, List.length_append, List.length_take, length_zeros, List.length_drop]
  omega

theorem getElem?_writeAt (data : List UInt8) (off : Nat) (new : List UInt8) (i : Nat) :
    (writeAt data off new)[i]?
      = if i < off then (if i < data.length then data[i]? else some 0)
        else if i < off + new.length then new[i - off]?
        else data[i]? := by
  have hfront : (data.take off ++ zeros (off - data.length)).length = off := by
    rw [List.length_append, List.length_take, length_zeros]
    omega
  rw [writeAt, List.append_assoc]
  by_cases hi : i < off
  · rw [if_pos hi, List.getElem?_append_left (by omega)]
    by_cases hdata : i < data.length
    · rw [if_pos hdata, List.getElem?_append_left (by rw [List.length_take]; omega),
        List.getElem?_take, if_pos hi]
    · rw [if_neg hdata, List.getElem?_append_right (by rw [List.length_take]; omega), zeros,
        List.getElem?_replicate, if_pos (by rw [List.length_take]; omega)]
  · rw [if_neg hi, List.getElem?_append_right (by omega), hfront]
    by_cases hnew : i < off + new.length
    · rw [if_pos hnew, List.getElem?_append_left (by omega)]
    · rw [if_neg hnew, List.getElem?_append_right (by omega), List.getElem?_drop]
      congr 1
      omega

theorem slice_writeAt (hat : at' ≤ data.length) (hle : off + n ≤ at') :
    slice (writeAt data at' new) off n = slice data off n := by
  have hlength : (data.take at').length = at' := by
    rw [List.length_take]
    omega
  rw [writeAt, List.append_assoc, List.append_assoc, slice_append_left (by omega), slice_take hle]

theorem drop_writeAt (hat : at' ≤ data.length) :
    (writeAt data at' new).drop at' = new ++ data.drop (at' + new.length) := by
  have hlength : (data.take at').length = at' := by
    rw [List.length_take]
    omega
  rw [writeAt, Nat.sub_eq_zero_of_le hat, zeros, List.replicate_zero, List.append_nil,
    List.append_assoc]
  exact List.drop_left' hlength

end WriteAt

structure Write where
  off : Nat
  bytes : List UInt8

namespace Write

variable (data : List UInt8) (v w : Write)

def range : Set Nat := Set.Ico w.off (w.off + w.bytes.length)

variable {i : Nat}

theorem mem_range : i ∈ w.range ↔ w.off ≤ i ∧ i < w.off + w.bytes.length := Iff.rfl

def apply : List UInt8 := if w.bytes = [] then data else writeAt data w.off w.bytes

def Held : Prop := slice data w.off w.bytes.length = w.bytes

variable {data v w}

theorem apply_of_nil (hnil : w.bytes = []) : w.apply data = data := if_pos hnil

theorem length_apply (hne : w.bytes ≠ []) :
    (w.apply data).length = max data.length (w.off + w.bytes.length) := by
  rw [apply, if_neg hne, length_writeAt]

theorem getElem?_apply (i : Nat) :
    (w.apply data)[i]?
      = if w.off ≤ i ∧ i < w.off + w.bytes.length then w.bytes[i - w.off]?
        else if i < data.length then data[i]?
        else if i < w.off ∧ w.bytes ≠ [] then some 0 else none := by
  by_cases hnil : w.bytes = []
  · have hlength : w.bytes.length = 0 := by rw [hnil]; rfl
    have hin : ¬ (w.off ≤ i ∧ i < w.off + w.bytes.length) := by omega
    have hfill : ¬ (i < w.off ∧ w.bytes ≠ []) := fun h => h.2 hnil
    rw [apply, if_pos hnil, if_neg hin, if_neg hfill]
    split
    · rfl
    · exact List.getElem?_eq_none (by omega)
  · rw [apply, if_neg hnil, getElem?_writeAt]
    by_cases hoff : i < w.off
    · have hin : ¬ (w.off ≤ i ∧ i < w.off + w.bytes.length) := by omega
      rw [if_pos hoff, if_neg hin, if_pos (⟨hoff, hnil⟩ : i < w.off ∧ w.bytes ≠ [])]
    · have hfill : ¬ (i < w.off ∧ w.bytes ≠ []) := fun h => hoff h.1
      rw [if_neg hoff, if_neg hfill]
      by_cases hin : i < w.off + w.bytes.length
      · rw [if_pos hin, if_pos (⟨by omega, hin⟩ : w.off ≤ i ∧ i < w.off + w.bytes.length)]
      · rw [if_neg hin, if_neg (fun h : w.off ≤ i ∧ i < w.off + w.bytes.length => hin h.2)]
        split
        · rfl
        · exact List.getElem?_eq_none (by omega)

theorem held_iff : w.Held data ↔ ∀ i, i ∈ w.range → data[i]? = w.bytes[i - w.off]? := by
  constructor
  · intro hheld i hi
    rw [mem_range] at hi
    rw [← hheld, getElem?_slice, if_pos (by omega), Nat.add_sub_cancel' hi.1]
  · intro hbytes
    apply List.ext_getElem?
    intro i
    rw [getElem?_slice]
    split
    · rename_i hi
      have hbyte := hbytes (w.off + i) ⟨by omega, by omega⟩
      rwa [Nat.add_sub_cancel_left] at hbyte
    · exact (List.getElem?_eq_none (by omega)).symm

theorem held_apply : w.Held (w.apply data) := by
  rw [held_iff]
  intro i hi
  rw [getElem?_apply, if_pos (w.mem_range.1 hi)]

theorem Held.length_le (hheld : w.Held data) (hne : w.bytes ≠ []) :
    w.off + w.bytes.length ≤ data.length := by
  have hpos := List.length_pos_iff.2 hne
  have hlength := congrArg List.length hheld
  rw [length_slice] at hlength
  omega

theorem Held.apply (hheld : v.Held data) (hdisjoint : Disjoint v.range w.range) :
    v.Held (w.apply data) := by
  rw [held_iff] at hheld ⊢
  intro i hi
  have hin : i < data.length := by
    by_contra hout
    have hbyte := hheld i hi
    rw [mem_range] at hi
    rw [List.getElem?_eq_none (by omega), eq_comm, List.getElem?_eq_none_iff] at hbyte
    omega
  have hother : ¬ (w.off ≤ i ∧ i < w.off + w.bytes.length) := Set.disjoint_left.1 hdisjoint hi
  rw [getElem?_apply, if_neg hother, if_pos hin]
  exact hheld i hi

theorem apply_comm (hdisjoint : Disjoint v.range w.range) :
    w.apply (v.apply data) = v.apply (w.apply data) := by
  by_cases hv : v.bytes = []
  · rw [apply_of_nil hv, apply_of_nil hv]
  by_cases hw : w.bytes = []
  · rw [apply_of_nil hw, apply_of_nil hw]
  apply List.ext_getElem?
  intro i
  have hboth : ¬ ((v.off ≤ i ∧ i < v.off + v.bytes.length) ∧ w.off ≤ i ∧ i < w.off + w.bytes.length) :=
    fun h => Set.disjoint_left.1 hdisjoint h.1 h.2
  simp only [getElem?_apply, length_apply hv, length_apply hw, hv, hw, ne_eq, not_false_eq_true,
    and_true]
  split_ifs <;> first | rfl | omega

def applyAll (data : List UInt8) (ws : List Write) : List UInt8 := ws.foldl (fun d w => w.apply d) data

theorem applyAll_cons (data : List UInt8) (w : Write) (ws : List Write) :
    applyAll data (w :: ws) = applyAll (w.apply data) ws := rfl

theorem applyAll_append (data : List UInt8) (ws ws' : List Write) :
    applyAll data (ws ++ ws') = applyAll (applyAll data ws) ws' := List.foldl_append

variable {ws : List Write}

theorem length_applyAll_lt {bound : Nat} (hdata : data.length < bound)
    (hws : ∀ w ∈ ws, w.bytes = [] ∨ w.off + w.bytes.length < bound) :
    (applyAll data ws).length < bound := by
  induction ws generalizing data with
  | nil => exact hdata
  | cons w ws ih =>
      rw [List.forall_mem_cons] at hws
      rw [applyAll_cons]
      refine ih ?_ hws.2
      by_cases hnil : w.bytes = []
      · rwa [apply_of_nil hnil]
      · rw [length_apply hnil]
        exact max_lt hdata (hws.1.resolve_left hnil)

theorem apply_append (data : List UInt8) (off : Nat) (front back : List UInt8) :
    (⟨off + front.length, back⟩ : Write).apply ((⟨off, front⟩ : Write).apply data)
      = (⟨off, front ++ back⟩ : Write).apply data := by
  by_cases hfront : front = []
  · subst hfront
    rw [@apply_of_nil data ⟨off, []⟩ rfl]
    rfl
  by_cases hback : back = []
  · subst hback
    rw [apply_of_nil rfl, List.append_nil]
  have hboth : front ++ back ≠ [] := List.append_ne_nil_of_left_ne_nil hfront back
  apply List.ext_getElem?
  intro i
  simp only [getElem?_apply, length_apply (w := ⟨off, front⟩) hfront, List.length_append, hfront, hback,
    hboth, ne_eq, not_false_eq_true, and_true]
  rw [List.getElem?_append]
  split_ifs <;> first | rfl | omega | (congr 1; omega)

def lastByte : List Write → Nat → Option UInt8
  | [], _ => none
  | w :: ws, i => (lastByte ws i).or (if w.off ≤ i then w.bytes[i - w.off]? else none)

def reach : List Write → Nat
  | [] => 0
  | w :: ws => max (if w.bytes = [] then 0 else w.off + w.bytes.length) (reach ws)

theorem mem_of_lastByte {b : UInt8} (hlast : lastByte ws i = some b) :
    ∃ w ∈ ws, w.off ≤ i ∧ w.bytes[i - w.off]? = some b := by
  induction ws with
  | nil => cases hlast
  | cons w ws ih =>
      rw [lastByte, Option.or_eq_some_iff] at hlast
      rcases hlast with hlater | ⟨-, hfirst⟩
      · obtain ⟨v, hv, hbyte⟩ := ih hlater
        exact ⟨v, List.mem_cons_of_mem w hv, hbyte⟩
      · split at hfirst
        · rename_i hle
          exact ⟨w, List.mem_cons_self, hle, hfirst⟩
        · cases hfirst

theorem lt_reach_of_lastByte {b : UInt8} (hlast : lastByte ws i = some b) :
    i < reach ws := by
  induction ws with
  | nil => cases hlast
  | cons w ws ih =>
      rw [lastByte, Option.or_eq_some_iff] at hlast
      rw [reach, lt_max_iff]
      rcases hlast with hlater | ⟨-, hfirst⟩
      · exact .inr (ih hlater)
      · split at hfirst
        · obtain ⟨hlt, -⟩ := List.getElem?_eq_some_iff.1 hfirst
          rw [if_neg (List.ne_nil_of_length_pos (by omega))]
          exact .inl (by omega)
        · cases hfirst

theorem lt_reach_iff : i < reach ws ↔ ∃ w ∈ ws, w.bytes ≠ [] ∧ i < w.off + w.bytes.length := by
  induction ws with
  | nil => simp [reach]
  | cons w ws ih =>
      simp only [reach, lt_max_iff, ih, List.mem_cons, exists_eq_or_imp]
      refine or_congr_left ?_
      by_cases hnil : w.bytes = []
      · simp [hnil]
      · rw [if_neg hnil, and_iff_right hnil]

/-- **A list of writes, byte by byte.** The last one over a byte decides; what none of them covers is
as before, or zero if it is a hole. -/
theorem getElem?_applyAll (data : List UInt8) (ws : List Write) (i : Nat) :
    (applyAll data ws)[i]?
      = (lastByte ws i).or (if i < data.length then data[i]? else if i < reach ws then some 0 else none) := by
  induction ws generalizing data with
  | nil =>
      simp only [applyAll, List.foldl_nil, lastByte, reach, Option.none_or, Nat.not_lt_zero, if_false]
      split
      · rfl
      · exact List.getElem?_eq_none (by omega)
  | cons w ws ih =>
      rw [applyAll_cons, ih, lastByte, Option.or_assoc, reach]
      congr 1
      by_cases hnil : w.bytes = []
      · rw [apply_of_nil hnil, if_pos hnil, hnil, Nat.zero_max]
        simp only [List.getElem?_nil, ite_self, Option.none_or]
      · have hpos := List.length_pos_of_ne_nil hnil
        rw [length_apply hnil, if_neg hnil, getElem?_apply]
        by_cases hin : w.off ≤ i ∧ i < w.off + w.bytes.length
        · rw [if_pos hin, if_pos hin.1, if_pos (by omega), List.getElem?_eq_getElem (by omega),
            Option.some_or]
        · have hnone : (if w.off ≤ i then w.bytes[i - w.off]? else none) = none := by
            split
            · exact List.getElem?_eq_none (by omega)
            · rfl
          rw [hnone, Option.none_or, if_neg hin]
          simp only [hnil, ne_eq, not_false_eq_true, and_true]
          split_ifs <;> first | rfl | omega

theorem Held.applyAll (hheld : v.Held data)
    (hdisjoint : ∀ w ∈ ws, Disjoint v.range w.range) : v.Held (applyAll data ws) := by
  induction ws generalizing data with
  | nil => exact hheld
  | cons w ws ih =>
      rw [List.forall_mem_cons] at hdisjoint
      exact ih (hheld.apply hdisjoint.1) hdisjoint.2

theorem held_applyAll (hws : ws.Pairwise fun v w => Disjoint v.range w.range) :
    ∀ w ∈ ws, w.Held (applyAll data ws) := by
  induction ws generalizing data with
  | nil => exact nofun
  | cons v ws ih =>
      rw [List.pairwise_cons] at hws
      rw [List.forall_mem_cons]
      exact ⟨held_apply.applyAll hws.1, ih hws.2⟩

theorem applyAll_perm {ws' : List Write} (hws : ws.Pairwise fun v w => Disjoint v.range w.range)
    (hperm : ws.Perm ws') : applyAll data ws = applyAll data ws' := by
  apply hperm.foldl_eq'
  intro v hv w hw data
  by_cases heq : v = w
  · rw [heq]
  · have hsymm : Std.Symm fun v w : Write => Disjoint v.range w.range := ⟨fun _ _ h => h.symm⟩
    exact apply_comm (hws.forall hv hw heq)

end Write

end Layout
