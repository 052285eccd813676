import MagiskNative.Lib.Bytes

/-!
# Blocks in pages

Pieces of bytes written one after the other, with zeros up to the next multiple of a page behind most
of them. A reader who knows only sizes adds up the rounded sizes, and `places_eq_starts_iff` says when
that leads to the pieces.
-/

namespace Layout

open Bytes

variable {n p : Nat} {data : List UInt8}

def roundUp (p n : Nat) : Nat := (n + (p - 1)) / p * p

section RoundUp

variable {p : Nat}

theorem dvd_roundUp (p n : Nat) : p ∣ roundUp p n := Dvd.intro_left _ rfl

theorem le_roundUp (hp : 0 < p) (n : Nat) : n ≤ roundUp p n := by
  have hmod := Nat.mod_lt (n + (p - 1)) hp
  have hdiv := Nat.div_add_mod (n + (p - 1)) p
  rw [roundUp, Nat.mul_comm]
  omega

theorem roundUp_lt (hp : 0 < p) (n : Nat) : roundUp p n < n + p := by
  have hdiv := Nat.div_add_mod (n + (p - 1)) p
  rw [roundUp, Nat.mul_comm]
  omega

theorem roundUp_add (hp : 0 < p) {k : Nat} (hk : p ∣ k) (n : Nat) :
    roundUp p (k + n) = k + roundUp p n := by
  obtain ⟨q, rfl⟩ := hk
  rw [roundUp, roundUp, Nat.add_assoc, Nat.mul_add_div hp, Nat.add_mul, Nat.mul_comm q]

@[simp] theorem roundUp_zero (hp : 0 < p) : roundUp p 0 = 0 := by
  rw [roundUp, Nat.zero_add, Nat.div_eq_of_lt (by omega), Nat.zero_mul]

theorem roundUp_eq_zero_iff (hp : 0 < p) : roundUp p n = 0 ↔ n = 0 := by
  have hle := le_roundUp hp n
  refine ⟨fun hzero => by omega, fun hzero => ?_⟩
  rw [hzero, roundUp_zero hp]

theorem roundUp_of_dvd (hp : 0 < p) (hn : p ∣ n) : roundUp p n = n := by
  have hadd := roundUp_add hp hn 0
  rwa [roundUp_zero hp, Nat.add_zero] at hadd

theorem roundUp_mono {m : Nat} (hmn : m ≤ n) : roundUp p m ≤ roundUp p n :=
  Nat.mul_le_mul_right p (Nat.div_le_div_right (by omega))

theorem isLeast_roundUp (hp : 0 < p) (n : Nat) : IsLeast {m | p ∣ m ∧ n ≤ m} (roundUp p n) := by
  refine ⟨⟨dvd_roundUp p n, le_roundUp hp n⟩, ?_⟩
  rintro m ⟨hdvd, hle⟩
  calc
    roundUp p n ≤ roundUp p m := roundUp_mono hle
    _ = m := roundUp_of_dvd hp hdvd

end RoundUp

def starts (start : Nat) : List Nat → List Nat
  | [] => []
  | n :: ns => start :: starts (start + n) ns

def finish (start : Nat) (lengths : List Nat) : Nat := start + lengths.sum

@[simp] theorem length_starts (start : Nat) (lengths : List Nat) :
    (starts start lengths).length = lengths.length := by
  induction lengths generalizing start with
  | nil => rfl
  | cons n ns ih => rw [starts, List.length_cons, List.length_cons, ih]

theorem finish_cons (start n : Nat) (ns : List Nat) :
    finish start (n :: ns) = finish (start + n) ns := by
  rw [finish, finish, List.sum_cons, Nat.add_assoc]

theorem le_finish (start : Nat) (lengths : List Nat) : start ≤ finish start lengths :=
  Nat.le_add_right _ _

variable {lengths : List Nat} {start : Nat}

theorem le_finish_of_mem_starts {o : Nat} (ho : o ∈ starts start lengths) :
    o ≤ finish start lengths := by
  induction lengths generalizing start with
  | nil => cases ho
  | cons n ns ih =>
      rcases List.mem_cons.1 ho with rfl | ho
      · exact le_finish _ _
      · rw [finish_cons]
        exact ih ho

theorem finish_le {bound : Nat} (hbound : ∀ n ∈ lengths, n ≤ bound) :
    finish start lengths ≤ start + lengths.length * bound := by
  have hsum := List.sum_le_card_nsmul lengths bound hbound
  rw [smul_eq_mul] at hsum
  exact Nat.add_le_add_left hsum start

theorem le_of_mem_starts {o : Nat} (ho : o ∈ starts start lengths) :
    start ≤ o := by
  induction lengths generalizing start with
  | nil => cases ho
  | cons n ns ih =>
      rcases List.mem_cons.1 ho with rfl | ho
      · exact le_rfl
      · exact (Nat.le_add_right start n).trans (ih ho)

theorem pairwise_starts (start : Nat) (lengths : List Nat) :
    (starts start lengths).Pairwise (· ≤ ·) := by
  induction lengths generalizing start with
  | nil => exact .nil
  | cons n ns ih =>
      refine .cons (fun o ho => ?_) (ih _)
      exact (Nat.le_add_right start n).trans (le_of_mem_starts ho)

theorem isChain_starts (hp : 0 < p) (hstart : p ∣ start) (sizes : List Nat) :
    ((starts start (sizes.map (roundUp p))).zip sizes).IsChain fun x y =>
      IsLeast {m | p ∣ m ∧ x.1 + x.2 ≤ m} y.1 := by
  induction sizes generalizing start with
  | nil => exact .nil
  | cons n ns ih =>
      have hrest := ih (Nat.dvd_add hstart (dvd_roundUp p n))
      cases ns with
      | nil => exact .singleton _
      | cons m ms =>
          refine .cons_cons ?_ hrest
          have hleast := isLeast_roundUp hp (start + n)
          rwa [roundUp_add hp hstart] at hleast

theorem dvd_of_mem_starts (hstart : p ∣ start)
    (hlengths : ∀ n ∈ lengths, p ∣ n) : ∀ o ∈ starts start lengths, p ∣ o := by
  induction lengths generalizing start with
  | nil => simp [starts]
  | cons n ns ih =>
      intro o ho
      rcases List.mem_cons.1 ho with rfl | ho
      · exact hstart
      · exact ih (Nat.dvd_add hstart (hlengths n List.mem_cons_self))
          (fun m hm => hlengths m (List.mem_cons_of_mem n hm)) o ho

def zeros (n : Nat) : List UInt8 := List.replicate n 0

def pad (p : Nat) (block : List UInt8) : List UInt8 :=
  block ++ zeros (roundUp p block.length - block.length)

@[simp] theorem length_zeros (n : Nat) : (zeros n).length = n := List.length_replicate

theorem zeros_append_zeros (a b : Nat) : zeros a ++ zeros b = zeros (a + b) :=
  List.replicate_append_replicate

theorem length_pad (hp : 0 < p) (block : List UInt8) :
    (pad p block).length = roundUp p block.length := by
  have hle := le_roundUp hp block.length
  rw [pad, List.length_append, length_zeros]
  omega

/-- Bytes to be written, with or without padding to the next page behind them. -/
structure Piece where
  bytes : List UInt8
  aligned : Bool

def Piece.room (p : Nat) (x : Piece) : Nat :=
  if x.aligned then roundUp p x.bytes.length else x.bytes.length

def next (p pos : Nat) (x : Piece) : Nat :=
  if x.aligned then roundUp p (pos + x.bytes.length) else pos + x.bytes.length

def places (p : Nat) : Nat → List Piece → List Nat
  | _, [] => []
  | pos, x :: xs => pos :: places p (next p pos x) xs

def put (p base : Nat) (data : List UInt8) (x : Piece) : List UInt8 :=
  let data := data ++ x.bytes
  if x.aligned then data ++ zeros (roundUp p (data.length - base) - (data.length - base)) else data

section Pieces

variable {p : Nat}

variable {pos base : Nat}

theorem next_eq_add_room (hp : 0 < p) (hpos : p ∣ pos) (x : Piece) :
    next p pos x = pos + x.room p := by
  rw [next, Piece.room]
  split
  · exact roundUp_add hp hpos _
  · rfl

variable {xs : List Piece}

/-- **When rounded sizes lead to the pieces.** All pieces but the last must take as much room as the
size that is given for them. -/
theorem places_eq_starts_iff (hp : 0 < p) (hpos : p ∣ pos)
    {sizes : List Nat} (hlength : xs.length = sizes.length) :
    places p pos xs = starts pos (sizes.map (roundUp p)) ↔
      List.Forall₂ (fun x n => x.room p = roundUp p n) xs.dropLast sizes.dropLast := by
  induction xs generalizing pos sizes with
  | nil =>
      obtain rfl : sizes = [] := List.eq_nil_of_length_eq_zero hlength.symm
      simp [places, starts]
  | cons x xs ih =>
      cases sizes with
      | nil => cases hlength
      | cons n sizes =>
          rw [List.length_cons, List.length_cons] at hlength
          rw [places, List.map_cons, starts, List.cons.injEq, next_eq_add_room hp hpos]
          simp only [true_and]
          cases xs with
          | nil =>
              rw [List.length_nil] at hlength
              obtain rfl : sizes = [] := List.eq_nil_of_length_eq_zero (by omega)
              simp [places, starts]
          | cons x' xs =>
              cases sizes with
              | nil => simp at hlength
              | cons n' sizes =>
                  rw [List.dropLast_cons_cons, List.dropLast_cons_cons, List.forall₂_cons]
                  have hrest := @ih (pos + roundUp p n) (Nat.dvd_add hpos (dvd_roundUp p n))
                    (n' :: sizes) (by omega)
                  constructor
                  · intro hplaces
                    have hroom : x.room p = roundUp p n := by
                      rw [places, List.map_cons, starts, List.cons.injEq] at hplaces
                      omega
                    rw [hroom] at hplaces
                    exact ⟨hroom, hrest.1 hplaces⟩
                  · rintro ⟨hroom, hsizes⟩
                    rw [hroom]
                    exact hrest.2 hsizes

theorem take_places_eq (hp : 0 < p) {k : Nat} (hpos : p ∣ pos) {sizes : List Nat}
    (hlength : xs.length = sizes.length)
    (hrooms : List.Forall₂ (fun x n => x.room p = roundUp p n) (xs.take k) (sizes.take k)) :
    (places p pos xs).take (k + 1) = (starts pos (sizes.map (roundUp p))).take (k + 1) := by
  induction k generalizing pos xs sizes with
  | zero =>
      cases xs with
      | nil =>
          obtain rfl : sizes = [] := List.eq_nil_of_length_eq_zero hlength.symm
          rfl
      | cons x xs =>
          cases sizes with
          | nil => cases hlength
          | cons n sizes => rfl
  | succ k ih =>
      cases xs with
      | nil =>
          obtain rfl : sizes = [] := List.eq_nil_of_length_eq_zero hlength.symm
          rfl
      | cons x xs =>
          cases sizes with
          | nil => cases hlength
          | cons n sizes =>
              rw [List.take_succ_cons, List.take_succ_cons, List.forall₂_cons] at hrooms
              rw [places, List.map_cons, starts, List.take_succ_cons, List.take_succ_cons,
                next_eq_add_room hp hpos, hrooms.1,
                ih (Nat.dvd_add hpos (dvd_roundUp p n)) (Nat.succ.inj hlength) hrooms.2]

theorem append_prefix_put (base : Nat) (data : List UInt8) (x : Piece) :
    data ++ x.bytes <+: put p base data x := by
  rw [put]
  split
  · exact List.prefix_append _ _
  · exact List.prefix_refl _

theorem length_put (hp : 0 < p) (hbase : base ≤ data.length)
    (x : Piece) : (put p base data x).length = base + next p (data.length - base) x := by
  have hrel : data.length + x.bytes.length - base = data.length - base + x.bytes.length := by omega
  rw [put, next]
  split
  · have hle := le_roundUp hp (data.length - base + x.bytes.length)
    rw [List.length_append, List.length_append, length_zeros, hrel]
    omega
  · rw [List.length_append]
    omega

theorem prefix_foldl_put (base : Nat) (data : List UInt8) (xs : List Piece) :
    data <+: xs.foldl (put p base) data := by
  induction xs generalizing data with
  | nil => exact List.prefix_refl _
  | cons x xs ih =>
      exact ((List.prefix_append _ _).trans (append_prefix_put base data x)).trans (ih _)

theorem slice_foldl_put (hp : 0 < p) (hbase : base ≤ data.length) (xs : List Piece) :
    List.Forall₂ (fun o x => base + o + x.bytes.length ≤ (xs.foldl (put p base) data).length ∧
        slice (xs.foldl (put p base) data) (base + o) x.bytes.length = x.bytes)
      (places p (data.length - base) xs) xs := by
  induction xs generalizing data with
  | nil => exact .nil
  | cons x xs ih =>
      have hlength := length_put hp hbase x
      refine .cons ?_ ?_
      · obtain ⟨more, hmore⟩ :=
          (append_prefix_put base data x).trans (prefix_foldl_put base (put p base data x) xs)
        rw [List.foldl_cons, ← hmore, Nat.add_sub_cancel' hbase]
        refine ⟨?_, slice_append_of_length rfl rfl⟩
        rw [List.length_append, List.length_append]
        omega
      · have hrest := @ih (put p base data x) (by omega)
        rwa [hlength, Nat.add_sub_cancel_left] at hrest

theorem length_foldl_put_eq (hp : 0 < p) (hbase : base ≤ data.length) (xs : List Piece) :
    (xs.foldl (put p base) data).length = base + xs.foldl (next p) (data.length - base) := by
  induction xs generalizing data with
  | nil => exact (Nat.add_sub_cancel' hbase).symm
  | cons x xs ih =>
      have hlength := length_put hp hbase x
      rw [List.foldl_cons, List.foldl_cons, ih (by omega), hlength, Nat.add_sub_cancel_left]

theorem length_foldl_put (hp : 0 < p) (hbase : base ≤ data.length)
    (hpage : p ∣ data.length - base) (hrooms : ∀ x ∈ xs, p ∣ x.room p) :
    (xs.foldl (put p base) data).length
      = base + finish (data.length - base) (xs.map (Piece.room p)) := by
  induction xs generalizing data with
  | nil => exact (Nat.add_sub_cancel' hbase).symm
  | cons x xs ih =>
      have hlength := length_put hp hbase x
      have hnext := next_eq_add_room hp hpage x
      rw [List.foldl_cons, ih (by omega) _ fun y hy => hrooms y (List.mem_cons_of_mem x hy),
        List.map_cons, finish_cons, hlength, Nat.add_sub_cancel_left, hnext]
      rw [hlength, Nat.add_sub_cancel_left, hnext]
      exact Nat.dvd_add hpage (hrooms x List.mem_cons_self)

end Pieces

def Zeroed (mem data : List UInt8) : Prop := ∀ (i : Nat) (b : UInt8), data[i]? = some b → b = 0 ∨ mem[i]? = some b

namespace Zeroed

variable {mem data : List UInt8} (hzeroed : Zeroed mem data)

include hzeroed

theorem append_zeros (n : Nat) : Zeroed mem (data ++ zeros n) := by
  intro i b hb
  rcases Nat.lt_or_ge i data.length with hi | hi
  · rw [List.getElem?_append_left hi] at hb
    exact hzeroed i b hb
  · rw [List.getElem?_append_right hi] at hb
    exact .inl (List.eq_of_mem_replicate (List.mem_of_getElem? hb))

theorem append_slice {bytes : List UInt8} (hbytes : slice mem data.length bytes.length = bytes) :
    Zeroed mem (data ++ bytes) := by
  intro i b hb
  rcases Nat.lt_or_ge i data.length with hi | hi
  · rw [List.getElem?_append_left hi] at hb
    exact hzeroed i b hb
  · rw [List.getElem?_append_right hi, ← hbytes, getElem?_slice] at hb
    split at hb
    · rw [Nat.add_sub_cancel' hi] at hb
      exact .inr hb
    · cases hb

theorem foldl_put (hp : 0 < p) {base : Nat} (hbase : base ≤ data.length) {xs : List Piece}
    (hxs : List.Forall₂ (fun o x => slice mem (base + o) x.bytes.length = x.bytes)
      (places p (data.length - base) xs) xs) : Zeroed mem (xs.foldl (put p base) data) := by
  induction xs generalizing data with
  | nil => exact hzeroed
  | cons x xs ih =>
      rw [places, List.forall₂_cons, Nat.add_sub_cancel' hbase] at hxs
      obtain ⟨hx, hxs⟩ := hxs
      have hlength := length_put hp hbase x
      have hput : Zeroed mem (put p base data x) := by
        rw [put]
        split
        · exact (hzeroed.append_slice hx).append_zeros _
        · exact hzeroed.append_slice hx
      refine ih hput (by omega) ?_
      rwa [hlength, Nat.add_sub_cancel_left]

theorem foldl_put_zeros (p base : Nat) {xs : List Piece} (hxs : ∀ x ∈ xs, ∃ n, x.bytes = zeros n) :
    Zeroed mem (xs.foldl (put p base) data) := by
  induction xs generalizing data with
  | nil => exact hzeroed
  | cons x xs ih =>
      rw [List.forall_mem_cons] at hxs
      obtain ⟨⟨n, hx⟩, hxs⟩ := hxs
      have hput : Zeroed mem (put p base data x) := by
        rw [put, hx]
        split
        · exact (hzeroed.append_zeros n).append_zeros _
        · exact hzeroed.append_zeros n
      exact ih hput hxs

end Zeroed

end Layout
