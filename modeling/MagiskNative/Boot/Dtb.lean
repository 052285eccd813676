import MagiskNative.Lib.Loop
import MagiskNative.Boot.Format

/-!
# The device tree behind a kernel

What the `fdt` crate accepts as a device tree with a root node and more than `0x84` bytes is a
parameter, a test on the bytes from the magic on.
-/

namespace MagiskNative.Boot

open Bytes

variable {buf : List UInt8} {off pos : Nat}

def findDtbFrom (accepts : List UInt8 → Bool) (buf : List UInt8) (pos : Nat) : Option Nat :=
  if pos + 40 ≤ buf.length then
    match find dtbMagic (buf.drop pos) with
    | none => none
    | some relPos =>
        let curr := pos + relPos
        if accepts (buf.drop curr) then some curr else findDtbFrom accepts buf (curr + 4)
  else none
termination_by buf.length - pos

def findDtbOffset (accepts : List UInt8 → Bool) (buf : List UInt8) : Option Nat :=
  findDtbFrom accepts buf 0

/-- What C++ gets: the offset as an `int`, where only positive ones count as found. -/
def dtbOffset (accepts : List UInt8 → Bool) (buf : List UInt8) : Option Nat :=
  match findDtbOffset accepts buf with
  | some off => if 0 < off % 2 ^ 32 ∧ off % 2 ^ 32 < 2 ^ 31 then some (off % 2 ^ 32) else none
  | none => none

section Spec

variable {accepts : List UInt8 → Bool}

def IsDtb (accepts : List UInt8 → Bool) (buf : List UInt8) (off : Nat) : Prop :=
  dtbMagic <+: buf.drop off ∧ accepts (buf.drop off)

-- No byte of the magic is its first byte again.
theorem not_magic_of_magic {i j : Nat} (hi : dtbMagic <+: buf.drop i)
    (hlt : i < j) (hle : j < i + 4) : ¬ dtbMagic <+: buf.drop j := by
  intro hj
  obtain ⟨rest, hrest⟩ := hi
  obtain ⟨rest', hrest'⟩ := hj
  have hdrop : dtbMagic ++ rest' = (dtbMagic ++ rest).drop (j - i) := by
    rw [hrest', hrest, List.drop_drop]
    congr 1
    omega
  have hbyte : (dtbMagic ++ rest')[0]? = (dtbMagic ++ rest)[j - i]? := by
    rw [hdrop, List.getElem?_drop, Nat.add_zero]
  have hin : j - i = 1 ∨ j - i = 2 ∨ j - i = 3 := by omega
  rcases hin with h | h | h <;> rw [h] at hbyte <;> exact absurd hbyte (by simp [dtbMagic])

theorem findDtbFrom_of_isDtb (haccepts : ∀ s, accepts s → 40 ≤ s.length) (hdtb : IsDtb accepts buf off)
    (hleast : ∀ i < off, ¬ IsDtb accepts buf i) (hpos : pos ≤ off) :
    findDtbFrom accepts buf pos = some off := by
  have hlength := haccepts _ hdtb.2
  rw [List.length_drop] at hlength
  induction hn : off - pos using Nat.strong_induction_on generalizing pos with
  | _ n ih =>
      rw [findDtbFrom, if_pos (by omega)]
      have hat : dtbMagic <+: (buf.drop pos).drop (off - pos) := by
        rw [List.drop_drop, Nat.add_sub_cancel' hpos]
        exact hdtb.1
      cases hfind : find dtbMagic (buf.drop pos) with
      | none => exact absurd hat (find_eq_none_iff.1 hfind _)
      | some relPos =>
          obtain ⟨hmagic, hfirst⟩ := find_eq_some_iff.1 hfind
          rw [List.drop_drop] at hmagic
          have hle : relPos ≤ off - pos := by
            by_contra hlt
            exact hfirst _ (by omega) hat
          simp only
          rcases Nat.lt_or_ge (pos + relPos) off with hlt | hge
          · -- A candidate before the device tree is turned down, and the next one is not inside it.
            have hreject : accepts (buf.drop (pos + relPos)) = false := by
              rw [← Bool.not_eq_true]
              exact fun haccept => hleast _ hlt ⟨hmagic, haccept⟩
            have hnext : pos + relPos + 4 ≤ off := by
              by_contra hin
              exact not_magic_of_magic hmagic hlt (by omega) hdtb.1
            rw [hreject, if_neg Bool.false_ne_true]
            exact ih (off - (pos + relPos + 4)) (by omega) hnext rfl
          · obtain rfl : off = pos + relPos := by omega
            rw [if_pos hdtb.2]

theorem isDtb_of_findDtbFrom
    (hfind : findDtbFrom accepts buf pos = some off) : pos ≤ off ∧ IsDtb accepts buf off := by
  induction hn : buf.length - pos using Nat.strong_induction_on generalizing pos with
  | _ n ih =>
      rw [findDtbFrom] at hfind
      split at hfind
      · split at hfind
        · cases hfind
        · rename_i relPos hrel
          simp only at hfind
          split at hfind
          · rename_i haccept
            cases hfind
            refine ⟨by omega, ?_, haccept⟩
            have hmagic := (find_eq_some_iff.1 hrel).1
            rwa [List.drop_drop] at hmagic
          · obtain ⟨hle, hdtb⟩ := ih (buf.length - (pos + relPos + 4)) (by omega) hfind rfl
            exact ⟨by omega, hdtb⟩
      · cases hfind

theorem findDtbOffset_eq_some_iff (haccepts : ∀ s, accepts s → 40 ≤ s.length) :
    findDtbOffset accepts buf = some off ↔
      IsDtb accepts buf off ∧ ∀ i < off, ¬ IsDtb accepts buf i := by
  constructor
  · intro hfind
    obtain ⟨-, hdtb⟩ := isDtb_of_findDtbFrom hfind
    refine ⟨hdtb, ?_⟩
    intro i hi hdtb'
    -- The least device tree is found, so it is this one.
    classical
    have hex : ∃ j, IsDtb accepts buf j := ⟨i, hdtb'⟩
    have hleast := findDtbFrom_of_isDtb haccepts (Nat.find_spec hex)
      (fun j hj => Nat.find_min hex hj) (Nat.zero_le _)
    rw [findDtbOffset, hleast] at hfind
    have hle := Nat.find_min' hex hdtb'
    cases hfind
    omega
  · rintro ⟨hdtb, hleast⟩
    exact findDtbFrom_of_isDtb haccepts hdtb hleast (Nat.zero_le _)

theorem findDtbOffset_eq_none_iff (haccepts : ∀ s, accepts s → 40 ≤ s.length) :
    findDtbOffset accepts buf = none ↔ ∀ i, ¬ IsDtb accepts buf i := by
  constructor
  · intro hnone i hdtb
    classical
    have hex : ∃ j, IsDtb accepts buf j := ⟨i, hdtb⟩
    have hsome := (findDtbOffset_eq_some_iff haccepts).2
      ⟨Nat.find_spec hex, fun j hj => Nat.find_min hex hj⟩
    rw [hnone] at hsome
    cases hsome
  · intro hnone
    cases hfind : findDtbOffset accepts buf with
    | none => rfl
    | some off => exact absurd (isDtb_of_findDtbFrom hfind).2 (hnone off)

theorem findDtbOffset_congr (haccepts : ∀ s, accepts s → 40 ≤ s.length) {buf' : List UInt8}
    (hsame : ∀ i, IsDtb accepts buf i ↔ IsDtb accepts buf' i) :
    findDtbOffset accepts buf = findDtbOffset accepts buf' := by
  cases hfind : findDtbOffset accepts buf' with
  | none =>
      rw [findDtbOffset_eq_none_iff haccepts] at hfind ⊢
      exact fun i hdtb => hfind i ((hsame i).1 hdtb)
  | some off =>
      rw [findDtbOffset_eq_some_iff haccepts] at hfind ⊢
      exact ⟨(hsame off).2 hfind.1, fun i hi hdtb => hfind.2 i hi ((hsame i).1 hdtb)⟩

end Spec

/-! ### The loop over the crate

The test above taken apart into what `find_dtb_offset` asks of a device tree, and the loop round by
round.
-/

structure Fdt where
  totalSize : Nat
  root : Bool

def minNonEmptyDtbSize : Nat := 0x84

def nonEmptyTree (new : List UInt8 → Option Fdt) (sub : List UInt8) : Bool :=
  match new sub with
  | none => false
  | some fdt => minNonEmptyDtbSize < fdt.totalSize ∧ fdt.root

/-- One round, where `new` is `Fdt::new_unaligned_fallible`. -/
def findDtbRound (new : List UInt8 → Option Fdt) (buf : List UInt8) (pos : Nat) :
    Loop.Round Nat (Option Nat) :=
  if pos + 40 ≤ buf.length then
    match find dtbMagic (buf.drop pos) with
    | none => .leave none
    | some relPos =>
        let curr := pos + relPos
        match new (buf.drop curr) with
        | none => .next (curr + 4)
        | some fdt =>
            if fdt.totalSize ≤ minNonEmptyDtbSize ∨ fdt.root = false then .next (curr + 4)
            else .leave (some curr)
  else .leave none

def treesIn (new : List UInt8 → Option Fdt) (buf : List UInt8) : Set Nat :=
  {off | dtbMagic <+: buf.drop off ∧
    ∃ fdt, new (buf.drop off) = some fdt ∧ 0x84 < fdt.totalSize ∧ fdt.root}

section Crate

variable {new : List UInt8 → Option Fdt} {buf : List UInt8}

theorem nonEmptyTree_iff {sub : List UInt8} :
    nonEmptyTree new sub ↔ ∃ fdt, new sub = some fdt ∧ 0x84 < fdt.totalSize ∧ fdt.root := by
  unfold nonEmptyTree
  cases new sub with
  | none => simp
  | some fdt =>
      rw [decide_eq_true_iff]
      simp only [minNonEmptyDtbSize, Option.some.injEq, exists_eq_left']

theorem mem_treesIn : off ∈ treesIn new buf ↔ IsDtb (nonEmptyTree new) buf off := by
  rw [IsDtb, nonEmptyTree_iff]
  rfl

theorem findDtbRound_eq (pos : Nat) :
    (∃ next, findDtbRound new buf pos = .next next ∧ pos < next ∧ pos < buf.length ∧
        findDtbFrom (nonEmptyTree new) buf pos = findDtbFrom (nonEmptyTree new) buf next) ∨
      findDtbRound new buf pos = .leave (findDtbFrom (nonEmptyTree new) buf pos) := by
  rw [findDtbFrom, findDtbRound]
  by_cases hroom : pos + 40 ≤ buf.length
  · rw [if_pos hroom, if_pos hroom]
    cases find dtbMagic (buf.drop pos) with
    | none => exact .inr rfl
    | some relPos =>
        simp only
        by_cases htree : nonEmptyTree new (buf.drop (pos + relPos))
        · obtain ⟨fdt, hfdt, hsize, hroot⟩ := nonEmptyTree_iff.1 htree
          have hkeep : ¬ (fdt.totalSize ≤ minNonEmptyDtbSize ∨ fdt.root = false) := by
            rw [not_or, Nat.not_le, Bool.not_eq_false]
            exact ⟨hsize, hroot⟩
          right
          simp only [hfdt, if_neg hkeep, if_pos htree]
        · refine .inl ⟨pos + relPos + 4, ?_, by omega, by omega, if_neg htree⟩
          cases hfdt : new (buf.drop (pos + relPos)) with
          | none => rfl
          | some fdt =>
              apply if_pos
              by_contra hkeep
              rw [not_or, Nat.not_le, Bool.not_eq_false] at hkeep
              exact htree (nonEmptyTree_iff.2 ⟨fdt, hfdt, hkeep⟩)
  · rw [if_neg hroom, if_neg hroom]
    exact .inr rfl

theorem run_findDtbRound {rounds : Nat} (hrounds : buf.length - pos < rounds) :
    Loop.run (findDtbRound new buf) rounds pos = some (findDtbFrom (nonEmptyTree new) buf pos) := by
  induction rounds generalizing pos with
  | zero => omega
  | succ rounds ih =>
      rcases @findDtbRound_eq new buf pos with ⟨next, hnext, hlt, hin, heq⟩ | hleave
      · rw [Loop.run_succ_next hnext, heq]
        exact ih (by omega)
      · exact Loop.run_succ_leave hleave rounds

/-- **The first device tree.** The loop ends with the least place of a device tree, and without one
only if there is none. -/
theorem findDtbOffset_isLeast (hnew : ∀ s, (new s).isSome → 40 ≤ s.length) (buf : List UInt8) :
    Loop.run (findDtbRound new buf) (buf.length + 1) 0
        = some (findDtbOffset (nonEmptyTree new) buf) ∧
      (∀ off, findDtbOffset (nonEmptyTree new) buf = some off ↔ IsLeast (treesIn new buf) off) ∧
      (findDtbOffset (nonEmptyTree new) buf = none ↔ treesIn new buf = ∅) := by
  have haccepts : ∀ s, nonEmptyTree new s → 40 ≤ s.length := by
    intro s hs
    obtain ⟨fdt, hfdt, -⟩ := nonEmptyTree_iff.1 hs
    apply hnew
    rw [hfdt, Option.isSome_some]
  refine ⟨run_findDtbRound (by omega), fun off => ?_, ?_⟩
  · rw [findDtbOffset_eq_some_iff haccepts, ← mem_treesIn]
    apply and_congr_right
    intro _
    constructor
    · intro hleast i hi
      by_contra hlt
      exact hleast i (by omega) (mem_treesIn.1 hi)
    · intro hleast i hi hdtb
      have hle := hleast (mem_treesIn.2 hdtb)
      omega
  · rw [findDtbOffset_eq_none_iff haccepts, Set.eq_empty_iff_forall_notMem]
    simp only [mem_treesIn]

/-- The header is whole, the tree does not reach behind the end, and the structure block begins with a
node. -/
def readTree (s : List UInt8) : Option Fdt :=
  let word off := ofLe (slice s off 4).reverse
  if 40 ≤ s.length ∧ dtbMagic <+: s ∧ word 4 ≤ s.length then some ⟨word 4, word (word 8) = 1⟩ else none

/-- A root node with the one property `model`. -/
def modelTree : List UInt8 :=
  let words := List.flatMap fun n => (leBytes 4 n).reverse
  -- the sizes and places of the blocks, the versions, no reserved memory
  dtbMagic ++ words [138, 56, 132, 40, 17, 16, 0, 6, 76] ++ List.replicate 16 0 ++
    -- the node without a name, and the property of 48 bytes
    words [1, 0, 3, 48, 0] ++ List.replicate 47 0x6d ++ [0] ++ words [2, 9] ++
    [0x6d, 0x6f, 0x64, 0x65, 0x6c, 0]

set_option maxRecDepth 4096 in
theorem findDtbOffset_second :
    findDtbOffset (nonEmptyTree readTree) (dtbMagic ++ modelTree) = some 4 := by
  refine ((findDtbOffset_isLeast (fun s hs => ?_) _).2.1 4).2 ⟨?_, ?_⟩
  · by_contra hlt
    rw [readTree, if_neg fun h => hlt h.1] at hs
    cases hs
  · exact ⟨by decide, ⟨138, true⟩, by rfl, by decide, rfl⟩
  · rintro i ⟨hmagic, fdt, hfdt, -⟩
    by_contra hlt
    have hfirst : i = 0 ∨ i = 1 ∨ i = 2 ∨ i = 3 := by omega
    rcases hfirst with rfl | rfl | rfl | rfl
    · -- the second magic is the size of the first tree
      cases hfdt
    · exact absurd hmagic (by decide)
    · exact absurd hmagic (by decide)
    · exact absurd hmagic (by decide)

end Crate

end MagiskNative.Boot
