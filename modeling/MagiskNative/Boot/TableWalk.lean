import MagiskNative.Lib.Loop
import MagiskNative.Lib.Outcome
import MagiskNative.Boot.ZImage

/-!
# The walk over the magic table

Each entry of the magic table starts with its size in words, and the walk goes on by that size. The
size in bytes is computed with wrapping multiplication in `usize`: with 32 bits a size of `2 ^ 30` words
is no step at all.
-/

namespace MagiskNative.Boot.ZImage

open Bytes Layout Loop

inductive PointerWidth where
  | bits32
  | bits64
  deriving DecidableEq, Repr

def PointerWidth.bits : PointerWidth → Nat
  | .bits32 => 32
  | .bits64 => 64

inductive Unfinished where
  | unfinished
  deriving DecidableEq, Repr

/-- One round of the walk. A sum that overflows aborts in a build with overflow checks, and wraps in
one without. -/
def tableRound (checks : Bool) (width : PointerWidth) (zimg head : List UInt8)
    (start gotStart tblOff : Nat) : Round Nat (Outcome Unfinished (Option (Nat × Nat))) :=
  if checks ∧ 2 ^ width.bits ≤ tblOff + 8 then .leave .panic
  else if (tblOff + 8) % 2 ^ width.bits ≤ head.length then
    let numWords := readU32 head tblOff
    if numWords = 0 then .leave (.ok none)
    else
      let size := numWords * 4 % 2 ^ width.bits
      let tag := readU32 head ((tblOff + 4) % 2 ^ width.bits)
      let piggySizeAddr := readU32 head ((tblOff + 8) % 2 ^ width.bits)
      let candidateEnd := wrappingAdd (wrappingSub piggySizeAddr start) 4
      if tag = 0x5a534c4b ∧ 3 ≤ numWords ∧ tblOff + size < 2 ^ width.bits ∧
          tblOff + size ≤ head.length ∧ isValidPiggyEnd zimg head.length candidateEnd gotStart then
        .leave (.ok (some (candidateEnd, u32 ((tblOff + 8) % 2 ^ width.bits))))
      else if tblOff + size < 2 ^ width.bits then .next (tblOff + size)
      else .leave (.ok none)
  else .leave (.ok none)

section

variable {checks : Bool} {width : PointerWidth} {zimg head : List UInt8} {start gotStart : Nat}

theorem tableRound_eq_next {off next : Nat}
    (hround : tableRound checks width zimg head start gotStart off = .next next) :
    readU32 head off ≠ 0 ∧ next = off + readU32 head off * 4 % 2 ^ width.bits ∧
      next < 2 ^ width.bits := by
  simp only [tableRound] at hround
  split at hround
  · cases hround
  · split at hround
    · split at hround
      · cases hround
      · rename_i hwords
        split at hround
        · cases hround
        · split at hround
          · rename_i hlt
            cases hround
            exact ⟨hwords, rfl, hlt⟩
          · cases hround
    · cases hround

theorem size_eq_zero_iff {numWords : Nat} (hwords : numWords ≠ 0) (hlt : numWords < 2 ^ 32) :
    numWords * 4 % 2 ^ width.bits = 0 ↔ width = .bits32 ∧ 2 ^ 30 ∣ numWords := by
  cases width with
  | bits32 =>
      simp only [PointerWidth.bits, true_and]
      omega
  | bits64 =>
      simp only [PointerWidth.bits, reduceCtorEq, false_and, iff_false]
      omega

end

/-- The walk comes to an end, and every round but the last goes forward. -/
structure TableProgress (checks : Bool) (width : PointerWidth) (zimg head : List UInt8)
    (start gotStart tblOff : Nat) : Prop where
  ends : Ends (tableRound checks width zimg head start gotStart) tblOff
  increases : ∀ off next, Visits (tableRound checks width zimg head start gotStart) tblOff off →
    tableRound checks width zimg head start gotStart off = .next next → off < next

/-- **Progress of the walk.** Only an entry of a multiple of `2 ^ 30` words stops it, and only in 32
bits. -/
theorem tableProgress_iff (checks : Bool) (width : PointerWidth) (zimg head : List UInt8)
    (start gotStart tblOff : Nat) :
    TableProgress checks width zimg head start gotStart tblOff ↔
      (width = .bits32 → ∀ off next,
        Visits (tableRound checks width zimg head start gotStart) tblOff off →
          tableRound checks width zimg head start gotStart off = .next next →
            ¬ 2 ^ 30 ∣ readU32 head off) := by
  constructor
  · intro hprogress hwidth off next hvisits hround hdvd
    obtain ⟨hwords, hnext, -⟩ := tableRound_eq_next hround
    have hsize := (size_eq_zero_iff hwords (readU32_lt head off)).2 ⟨hwidth, hdvd⟩
    have hlt := hprogress.increases off next hvisits hround
    omega
  · intro hcond
    have hincreases : ∀ off next,
        Visits (tableRound checks width zimg head start gotStart) tblOff off →
          tableRound checks width zimg head start gotStart off = .next next → off < next := by
      intro off next hvisits hround
      obtain ⟨hwords, hnext, -⟩ := tableRound_eq_next hround
      have hsize : readU32 head off * 4 % 2 ^ width.bits ≠ 0 := by
        rw [Ne, size_eq_zero_iff hwords (readU32_lt head off)]
        rintro ⟨hwidth, hdvd⟩
        exact hcond hwidth off next hvisits hround hdvd
      omega
    refine ⟨ends_of_measure (μ := fun off => 2 ^ width.bits - off) fun off next hvisits hround => ?_,
      hincreases⟩
    have hlt := hincreases off next hvisits hround
    have hbound := (tableRound_eq_next hround).2.2
    omega

def stuckFile : List UInt8 :=
  zeros 36 ++ leBytes 4 0x016f2818 ++ zeros 12 ++ leBytes 4 0x45454545 ++ leBytes 4 0x3c
    ++ leBytes 4 (2 ^ 30) ++ zeros 4 ++ xzMagic

theorem not_tableProgress_stuckFile :
    findPiggy stuckFile = some 0x44 ∧ readU32 stuckFile 0x34 = 0x45454545 ∧
      readU32 stuckFile 0x38 = 0x3c ∧
      ∀ checks, ¬ TableProgress checks .bits32 stuckFile (stuckFile.take 0x44) 0 0 0x3c := by
  refine ⟨by decide, by decide, by decide, fun checks hprogress => ?_⟩
  have hself : tableRound checks .bits32 stuckFile (stuckFile.take 0x44) 0 0 0x3c = .next 0x3c := by
    cases checks <;> decide
  exact not_ends_of_self .start hself hprogress.ends

section

variable {checks : Bool} {zimg head : List UInt8} {start gotStart : Nat}

theorem tableRound_bits64 (hhead : head.length < 2 ^ 63) {tblOff : Nat} (hoff : tblOff + 8 < 2 ^ 64) :
    tableRound checks .bits64 zimg head start gotStart tblOff
      = if tblOff + 8 ≤ head.length then
          if readU32 head tblOff = 0 then .leave (.ok none)
          else
            let candidateEnd := wrappingAdd (wrappingSub (readU32 head (tblOff + 8)) start) 4
            if readU32 head (tblOff + 4) = 0x5a534c4b ∧ 3 ≤ readU32 head tblOff ∧
                tblOff + readU32 head tblOff * 4 ≤ head.length ∧
                isValidPiggyEnd zimg head.length candidateEnd gotStart then
              .leave (.ok (some (candidateEnd, u32 (tblOff + 8))))
            else .next (tblOff + readU32 head tblOff * 4)
        else .leave (.ok none) := by
  have hwords := readU32_lt head tblOff
  have hsize : readU32 head tblOff * 4 % 2 ^ 64 = readU32 head tblOff * 4 := Nat.mod_eq_of_lt (by omega)
  have hfour : (tblOff + 4) % 2 ^ 64 = tblOff + 4 := Nat.mod_eq_of_lt (by omega)
  simp only [tableRound, PointerWidth.bits, hsize, hfour, Nat.mod_eq_of_lt hoff]
  rw [if_neg (by omega)]
  split
  · rename_i hin
    have hfits : tblOff + readU32 head tblOff * 4 < 2 ^ 64 := by omega
    simp only [hfits, true_and, if_true]
  · rfl

theorem run_tableRound (hhead : head.length < 2 ^ 63) {tblOff : Nat} (hoff : tblOff + 8 < 2 ^ 64)
    {rounds : Nat} (hrounds : head.length - tblOff < rounds) :
    run (tableRound checks .bits64 zimg head start gotStart) rounds tblOff
      = some (.ok (walkTable zimg head start gotStart tblOff)) := by
  induction rounds generalizing tblOff with
  | zero => omega
  | succ rounds ih =>
      have hwords := readU32_lt head tblOff
      rw [run, tableRound_bits64 hhead hoff, walkTable]
      by_cases hin : tblOff + 8 ≤ head.length
      · rw [if_pos hin, if_pos hin]
        by_cases hzero : readU32 head tblOff = 0
        · rw [if_pos hzero, dif_pos hzero]
        · rw [if_neg hzero, dif_neg hzero]
          simp only
          split
          · rename_i hround
            split at hround
            · rename_i hentry
              cases hround
              rw [if_pos hentry]
            · cases hround
          · rename_i next hround
            split at hround
            · cases hround
            · rename_i hentry
              cases hround
              rw [if_neg hentry]
              exact ih (by omega) (by omega)
      · rw [if_neg hin, if_neg hin]

end

end MagiskNative.Boot.ZImage
