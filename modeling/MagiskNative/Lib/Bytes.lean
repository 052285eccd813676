import Mathlib.Tactic

/-!
# Byte strings

A fixed-width integer is written as the list of its bytes, lowest first, and read back from any list that
starts with them. A stretch of a byte string is read as a slice and overwritten by a patch, which never
changes the length.
-/

namespace Bytes

def leBytes : Nat → Nat → List UInt8
  | 0, _ => []
  | k + 1, n => UInt8.ofNat n :: leBytes k (n / 256)

def ofLe : List UInt8 → Nat
  | [] => 0
  | b :: bs => b.toNat + 256 * ofLe bs

@[simp] theorem length_leBytes (k n : Nat) : (leBytes k n).length = k := by
  induction k generalizing n with
  | zero => rfl
  | succ k ih => simp [leBytes, ih]

theorem ofLe_leBytes (k n : Nat) : ofLe (leBytes k n) = n % 256 ^ k := by
  induction k generalizing n with
  | zero => rw [leBytes, ofLe, Nat.pow_zero, Nat.mod_one]
  | succ k ih =>
      rw [leBytes, ofLe, ih, UInt8.toNat_ofNat', show 256 ^ (k + 1) = 256 * 256 ^ k from pow_succ' 256 k, Nat.mod_mul]

theorem ofLe_leBytes_of_lt {k n : Nat} (hn : n < 256 ^ k) : ofLe (leBytes k n) = n := by
  rw [ofLe_leBytes, Nat.mod_eq_of_lt hn]

section Behind

variable {α : Type} {data a b : List α} {pos : Nat}

theorem drop_add_of_drop_eq (hdata : data.drop pos = a ++ b) : data.drop (pos + a.length) = b := by
  rw [← List.drop_drop, hdata, List.drop_left]

theorem add_le_length_of_drop_eq (hdata : data.drop pos = a ++ b) (ha : a ≠ []) :
    pos + a.length ≤ data.length := by
  have hlength := congrArg List.length hdata
  have hpos := List.length_pos_of_ne_nil ha
  rw [List.length_drop, List.length_append] at hlength
  omega

end Behind

theorem ofLe_lt (bs : List UInt8) : ofLe bs < 256 ^ bs.length := by
  induction bs with
  | nil => simp [ofLe]
  | cons b bs ih =>
      have hb := b.toNat_lt
      rw [ofLe, List.length_cons, pow_succ]
      omega

theorem ofLe_eq_zero_iff {bs : List UInt8} : ofLe bs = 0 ↔ ∀ b ∈ bs, b = 0 := by
  induction bs with
  | nil => simp [ofLe]
  | cons b bs ih =>
      have hb : b.toNat = 0 ↔ b = 0 := UInt8.toNat_inj (b := 0)
      rw [List.forall_mem_cons, ← ih, ← hb, ofLe]
      omega

theorem ofLe_take_append_zeros (bs : List UInt8) (n k : Nat) :
    ofLe (bs.take n ++ List.replicate k 0) = ofLe bs % 256 ^ n := by
  have hzeros : ofLe (List.replicate k 0) = 0 := ofLe_eq_zero_iff.2 fun b => List.eq_of_mem_replicate
  induction bs generalizing n with
  | nil => rw [List.take_nil, List.nil_append, hzeros, ofLe, Nat.zero_mod]
  | cons b bs ih =>
      cases n with
      | zero => rw [List.take_zero, List.nil_append, hzeros, Nat.pow_zero, Nat.mod_one]
      | succ n =>
          have hb := b.toNat_lt
          have hdiv : (b.toNat + 256 * ofLe bs) / 256 = ofLe bs := by omega
          rw [List.take_succ_cons, List.cons_append, ofLe, ofLe, ih, Nat.pow_succ', Nat.mod_mul, hdiv]
          omega

theorem leBytes_ofLe (bs : List UInt8) : leBytes bs.length (ofLe bs) = bs := by
  induction bs with
  | nil => rfl
  | cons b bs ih =>
      have hb := b.toNat_lt
      have hdiv : (b.toNat + 256 * ofLe bs) / 256 = ofLe bs := by omega
      rw [List.length_cons, leBytes, ofLe, hdiv, ih]
      congr 1
      apply UInt8.toNat.inj
      rw [UInt8.toNat_ofNat']
      omega

def find (needle : List UInt8) : List UInt8 → Option Nat
  | [] => if needle = [] then some 0 else none
  | b :: bs =>
      if needle <+: b :: bs then some 0
      else
        match find needle bs with
        | none => none
        | some i => some (i + 1)

theorem find_eq_none_iff {needle data : List UInt8} :
    find needle data = none ↔ ∀ i, ¬ needle <+: data.drop i := by
  induction data with
  | nil =>
      by_cases hneedle : needle = []
      · simp [find, hneedle]
      · simp [find, hneedle]
  | cons b bs ih =>
      rw [find]
      by_cases hpre : needle <+: b :: bs
      · rw [if_pos hpre]
        simp only [reduceCtorEq, false_iff]
        exact fun hnone => hnone 0 hpre
      · rw [if_neg hpre]
        constructor
        · intro hnone i
          cases hfind : find needle bs with
          | some j =>
              rw [hfind] at hnone
              cases hnone
          | none =>
              cases i with
              | zero => exact hpre
              | succ i => exact ih.1 hfind i
        · intro hnone
          rw [ih.2 fun i => hnone (i + 1)]

theorem find_eq_some_iff {needle data : List UInt8} {i : Nat} :
    find needle data = some i ↔
      needle <+: data.drop i ∧ ∀ j < i, ¬ needle <+: data.drop j := by
  induction data generalizing i with
  | nil =>
      by_cases hneedle : needle = []
      · subst hneedle
        cases i with
        | zero => simp [find]
        | succ i =>
            simp only [find, if_true, Option.some.injEq, List.nil_prefix, true_and]
            constructor
            · intro h
              omega
            · intro h
              exact absurd trivial (h 0 (by omega))
      · simp [find, hneedle]
  | cons b bs ih =>
      rw [find]
      by_cases hpre : needle <+: b :: bs
      · rw [if_pos hpre]
        cases i with
        | zero => simpa using hpre
        | succ i =>
            simp only [Option.some.injEq]
            constructor
            · intro h
              omega
            · rintro ⟨-, h⟩
              exact absurd hpre (h 0 (by omega))
      · rw [if_neg hpre]
        cases i with
        | zero =>
            constructor
            · intro h
              split at h <;> cases h
            · rintro ⟨h, -⟩
              exact absurd h hpre
        | succ i =>
            have hstep : (match find needle bs with
                | none => none
                | some j => some (j + 1)) = some (i + 1) ↔ find needle bs = some i := by
              cases find needle bs <;> simp
            rw [hstep, ih]
            constructor
            · rintro ⟨hat, hbefore⟩
              refine ⟨hat, ?_⟩
              intro j hj
              cases j with
              | zero => exact hpre
              | succ j => exact hbefore j (by omega)
            · rintro ⟨hat, hbefore⟩
              exact ⟨hat, fun j hj => hbefore (j + 1) (by omega)⟩

section Slice

variable {α : Type} (data : List α)

def slice (off n : Nat) : List α := (data.drop off).take n

def patch (off : Nat) (new : List α) : List α :=
  data.mapIdx fun i b => if off ≤ i then new.getD (i - off) b else b

@[simp] theorem length_slice (off n : Nat) : (slice data off n).length = min n (data.length - off) := by
  rw [slice, List.length_take, List.length_drop]

variable {n off k : Nat}

theorem length_slice_of_le {data : List α} (hle : off + n ≤ data.length) :
    (slice data off n).length = n := by
  rw [length_slice]
  omega

theorem getElem?_slice (off n i : Nat) :
    (slice data off n)[i]? = if i < n then data[off + i]? else none := by
  rw [slice, List.getElem?_take, List.getElem?_drop]

@[simp] theorem slice_zero (off : Nat) : slice data off 0 = [] := rfl

@[simp] theorem length_patch (off : Nat) (new : List α) :
    (patch data off new).length = data.length := by
  rw [patch, List.length_mapIdx]

theorem getElem?_patch (off : Nat) (new : List α) (i : Nat) : (patch data off new)[i]?
      = if off ≤ i ∧ i < off + new.length then (if i < data.length then new[i - off]? else none)
        else data[i]? := by
  rw [patch, List.getElem?_mapIdx]
  by_cases hi : i < data.length
  · rw [List.getElem?_eq_getElem hi, Option.map_some, if_pos hi]
    by_cases hoff : off ≤ i
    · rw [if_pos hoff]
      by_cases hnew : i < off + new.length
      · have hlt : i - off < new.length := by omega
        rw [if_pos ⟨hoff, hnew⟩, List.getElem?_eq_getElem hlt, List.getD_eq_getElem?_getD,
          List.getElem?_eq_getElem hlt, Option.getD_some]
      · have hge : new.length ≤ i - off := by omega
        rw [if_neg fun h => hnew h.2, List.getD_eq_getElem?_getD,
          List.getElem?_eq_none hge, Option.getD_none]
    · rw [if_neg hoff, if_neg fun h => hoff h.1]
  · have hnone : data[i]? = none := List.getElem?_eq_none (by omega)
    rw [hnone, Option.map_none, if_neg hi]
    split <;> rfl

theorem drop_patch {data new : List α} {b : Nat} (hle : off + new.length ≤ b) :
    (patch data off new).drop b = data.drop b := by
  apply List.ext_getElem?
  intro i
  rw [List.getElem?_drop, List.getElem?_drop, getElem?_patch, if_neg (by omega)]

theorem slice_patch_of_disjoint {data new : List α} {off' : Nat}
    (hdisjoint : off' + n ≤ off ∨ off + new.length ≤ off') :
    slice (patch data off new) off' n = slice data off' n := by
  apply List.ext_getElem?
  intro i
  rw [getElem?_slice, getElem?_slice]
  split
  · rw [getElem?_patch, if_neg]
    omega
  · rfl

theorem slice_patch_self {data new : List α} (hle : off + new.length ≤ data.length) :
    slice (patch data off new) off new.length = new := by
  apply List.ext_getElem?
  intro i
  rw [getElem?_slice]
  split
  · rw [getElem?_patch, if_pos (by omega), if_pos (by omega), Nat.add_sub_cancel_left]
  · exact (List.getElem?_eq_none (by omega)).symm

theorem patch_eq_self {data new : List α} (hslice : slice data off new.length = new) :
    patch data off new = data := by
  apply List.ext_getElem?
  intro i
  rw [getElem?_patch]
  split
  · rename_i hin
    split
    · have hget := congrArg (·[i - off]?) hslice
      simp only [getElem?_slice, if_pos (show i - off < new.length by omega)] at hget
      rw [← hget, Nat.add_sub_cancel' hin.1]
    · exact (List.getElem?_eq_none (by omega)).symm
  · rfl

theorem patch_append (before behind : List α) {old new : List α} (hlen : new.length = old.length) :
    patch (before ++ (old ++ behind)) before.length new = before ++ (new ++ behind) := by
  apply List.ext_getElem?
  intro i
  rw [getElem?_patch]
  rcases Nat.lt_or_ge i before.length with hbefore | hbefore
  · rw [if_neg (by omega), List.getElem?_append_left hbefore, List.getElem?_append_left hbefore]
  · rw [List.getElem?_append_right hbefore, List.getElem?_append_right hbefore]
    rcases Nat.lt_or_ge (i - before.length) new.length with hnew | hnew
    · rw [if_pos (by omega), if_pos (by simp; omega), List.getElem?_append_left hnew]
    · rw [if_neg (by omega), List.getElem?_append_right (by omega), List.getElem?_append_right hnew, hlen]

theorem slice_patch_inside {data new : List α} {at' : Nat} (hle : at' + new.length ≤ n) :
    slice (patch data (off + at') new) off n = patch (slice data off n) at' new := by
  apply List.ext_getElem?
  intro i
  rw [getElem?_slice, getElem?_patch, getElem?_patch, getElem?_slice, length_slice]
  by_cases hi : i < n
  · rw [if_pos hi, if_pos hi]
    by_cases hin : at' ≤ i ∧ i < at' + new.length
    · rw [if_pos (by omega), if_pos hin, show off + i - (off + at') = i - at' by omega]
      by_cases hdata : off + i < data.length
      · rw [if_pos hdata, if_pos (by omega)]
      · rw [if_neg hdata, if_neg (by omega)]
    · rw [if_neg (by omega), if_neg hin]
  · rw [if_neg hi, if_neg hi, if_neg (by omega)]

theorem slice_append_of_length {pre w rest : List α} (hoff : pre.length = off)
    (hn : w.length = n) : slice (pre ++ w ++ rest) off n = w := by
  subst hoff hn
  rw [slice, List.append_assoc, List.drop_left, List.take_left]

theorem slice_append_left {a b : List α} (hle : off + n ≤ a.length) :
    slice (a ++ b) off n = slice a off n := by
  apply List.ext_getElem?
  intro i
  rw [getElem?_slice, getElem?_slice]
  split
  · rw [List.getElem?_append_left (by omega)]
  · rfl

theorem slice_of_isPrefix {a b : List α} (hpre : a <+: b)
    (hle : off + n ≤ a.length) : slice b off n = slice a off n := by
  obtain ⟨rest, rfl⟩ := hpre
  exact slice_append_left hle

theorem slice_append_right (a b : List α) (off n : Nat) :
    slice (a ++ b) (a.length + off) n = slice b off n := by
  rw [slice, slice, ← List.drop_drop, List.drop_left]

theorem slice_slice {data : List α} {off' n' : Nat} (hle : off' + n' ≤ n) :
    slice (slice data off n) off' n' = slice data (off + off') n' := by
  apply List.ext_getElem?
  intro i
  rw [getElem?_slice, getElem?_slice, getElem?_slice]
  by_cases hi : i < n'
  · rw [if_pos hi, if_pos hi, if_pos (by omega), Nat.add_assoc]
  · rw [if_neg hi, if_neg hi]

theorem slice_take {data : List α} (hle : off + k ≤ n) :
    slice (data.take n) off k = slice data off k := by
  rw [slice, slice, List.drop_take, List.take_take, Nat.min_eq_left (by omega)]

theorem slice_drop (a off n : Nat) : slice (data.drop a) off n = slice data (a + off) n := by
  rw [slice, slice, List.drop_drop]

theorem slice_add (off a b : Nat) :
    slice data off (a + b) = slice data off a ++ slice data (off + a) b := by
  rw [slice, slice, slice, List.take_add, List.drop_drop]

theorem slice_append_drop (off n : Nat) : slice data off n ++ data.drop (off + n) = data.drop off := by
  rw [slice, ← List.drop_drop, List.take_append_drop]

theorem slice_eq_self {data : List α} (hn : data.length ≤ n) : slice data 0 n = data := by
  rw [slice, List.drop_zero, List.take_of_length_le hn]

theorem prefix_drop_iff (part data : List α) (off : Nat) :
    part <+: data.drop off ↔ slice data off part.length = part := by
  rw [slice, List.prefix_iff_eq_take, eq_comm]

theorem slice_of_take_eq {data data' : List α} (hsame : data'.take n = data.take n)
    (hle : off + k ≤ n) : slice data' off k = slice data off k := by
  rw [← slice_take hle, hsame, slice_take hle]

theorem prefix_drop_of_take_eq {data data' part : List α}
    (hsame : data'.take n = data.take n) (hle : off + part.length ≤ n) :
    part <+: data'.drop off ↔ part <+: data.drop off := by
  rw [prefix_drop_iff, prefix_drop_iff, slice_of_take_eq hsame hle]

theorem slice_flatten (before : List (List α)) (part : List α) (behind : List (List α)) :
    slice (before ++ part :: behind).flatten (before.map List.length).sum part.length = part := by
  rw [List.flatten_append, List.flatten_cons, ← List.length_flatten, ← List.append_assoc]
  exact slice_append_of_length rfl rfl

theorem slice_flatten_get {parts : List (List α)} {part : List α} {i : Nat}
    (hpart : parts[i]? = some part) (hoff : ((parts.map List.length).take i).sum = off)
    (hn : part.length = n) : slice parts.flatten off n = part := by
  obtain ⟨hi, hget⟩ := List.getElem?_eq_some_iff.1 hpart
  have hsplit : parts = parts.take i ++ part :: parts.drop (i + 1) := by
    rw [← hget, List.getElem_cons_drop, List.take_append_drop]
  have hslice := slice_flatten (parts.take i) part (parts.drop (i + 1))
  rwa [← hsplit, List.map_take, hoff, hn] at hslice

end Slice

end Bytes
