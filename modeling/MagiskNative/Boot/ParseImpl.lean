import MagiskNative.Boot.Relocate
import MagiskNative.Boot.TableWalk

/-!
# The parser stays in bounds

`ZImage.parse` says what is found. Here the same search is written with everything that can go wrong in it:
a slice that is out of range, a difference below zero, a sum that does not fit `usize` (64 bits), and a walk
that does not end.
-/

namespace MagiskNative.Boot

open Bytes Layout Outcome

section

variable {ε : Type} (buf : List UInt8)

def sliceFrom (off : Nat) : Outcome ε (List UInt8) := do
  assert (off ≤ buf.length)
  return buf.drop off

def sliceRange (lo hi : Nat) : Outcome ε (List UInt8) := do
  assert (lo ≤ hi ∧ hi ≤ buf.length)
  return slice buf lo (hi - lo)

def guessLzmaImpl : Outcome ε Bool :=
  if buf.length ≤ 13 ∨ buf.head? ≠ some 0x5d then return false
  else do
    let dictSz := ofLe (← sliceRange buf 1 5)
    if dictSz = 0 then return false
    else if dictSz &&& (← checkedSub dictSz 1) ≠ 0 then return false
    else return (← sliceRange buf 5 13) = List.replicate 8 0xff

def isZimageImpl : Outcome ε Bool :=
  if 0x28 ≤ buf.length then do return (← sliceRange buf 0x24 0x28) = zimageMagic
  else return false

def checkFmtImpl : Outcome ε FileFormat := do
  if chromeosMagic <+: buf then return .chromeos
  else if bootMagic <+: buf then return .aosp
  else if vendorBootMagic <+: buf then return .aospVendor
  else if gzip1Magic <+: buf ∨ gzip2Magic <+: buf then return .gzip
  else if lzopMagic <+: buf then return .lzop
  else if xzMagic <+: buf then return .xz
  else if ← guessLzmaImpl buf then return .lzma
  else if bzipMagic <+: buf then return .bzip2
  else if lz41Magic <+: buf ∨ lz42Magic <+: buf then return .lz4
  else if lz4LegMagic <+: buf then return .lz4Legacy
  else if mtkMagic <+: buf then return .mtk
  else if dtbMagic <+: buf then return .dtb
  else if dhtbMagic <+: buf then return .dhtb
  else if tegrablobMagic <+: buf then return .blob
  else if ← isZimageImpl buf then return .zimage
  else return .unknown

theorem sliceFrom_of_le {buf : List UInt8} {off : Nat} (hle : off ≤ buf.length) :
    (sliceFrom buf off : Outcome ε _) = ok (buf.drop off) := by
  rw [sliceFrom, assert_of hle]
  rfl

theorem sliceRange_of_le {buf : List UInt8} {lo hi : Nat} (hle : lo ≤ hi ∧ hi ≤ buf.length) :
    (sliceRange buf lo hi : Outcome ε _) = ok (slice buf lo (hi - lo)) := by
  rw [sliceRange, assert_of hle]
  rfl

theorem guessLzmaImpl_eq : (guessLzmaImpl buf : Outcome ε _) = ok (guessLzma buf) := by
  simp only [guessLzmaImpl, guessLzma]
  split
  · rfl
  · rename_i hhead
    rw [sliceRange_of_le (by omega), sliceRange_of_le (by omega), ok_bind]
    by_cases hzero : ofLe (slice buf 1 (5 - 1)) = 0
    · rw [if_pos hzero, if_pos (.inl hzero)]
      rfl
    · rw [if_neg hzero, checkedSub_of_le (by omega), ok_bind]
      by_cases hpow : ofLe (slice buf 1 (5 - 1)) &&& (ofLe (slice buf 1 (5 - 1)) - 1) = 0
      · rw [if_neg (not_not.2 hpow), if_neg (not_or.2 ⟨hzero, not_not.2 hpow⟩)]
        rfl
      · rw [if_pos hpow, if_pos (.inr hpow)]
        rfl

theorem isZimageImpl_eq : (isZimageImpl buf : Outcome ε _)
      = ok (decide (0x28 ≤ buf.length ∧ slice buf 0x24 4 = zimageMagic)) := by
  rw [isZimageImpl]
  split
  · rename_i hlength
    rw [sliceRange_of_le ⟨by decide, hlength⟩]
    simp [hlength]
  · rename_i hlength
    simp [hlength]

theorem checkFmtImpl_eq : (checkFmtImpl buf : Outcome ε _) = ok (checkFmt buf) := by
  simp only [checkFmtImpl, checkFmt, guessLzmaImpl_eq, isZimageImpl_eq, ok_bind, pure_eq,
    decide_eq_true_eq, apply_ite ok]

end

namespace ZImage

-- Step 2
def findPiggyImpl (zimg : List UInt8) : Outcome Unfinished (Option Nat) :=
  (List.range' 0x28 (zimg.length - 0x28)).findM? fun curr => do
    return (← checkFmtImpl (← sliceFrom zimg curr)) ≠ .unknown

-- Step 3
def findLc0Impl (head : List UInt8) (start : Nat) : Outcome Unfinished (Option Nat) :=
  if 32 ≤ head.length then do
    let last ← checkedSub head.length 32
    (words 0x20 last).findM? fun off => do
      if readU32 head off = wrappingAdd off start then
        let p1 := readU32 head (← checkedAdd 64 off 4)
        let p2 := readU32 head (← checkedAdd 64 off 8)
        return u32 head.length ≤ p1 ∧ p1 ≤ p2
      else return false
  else return none

def gotOffsets (head : List UInt8) (start : Nat) (lc0 : Option Nat) :
    Outcome Unfinished (Nat × Nat) :=
  match lc0 with
  | some off => do
      -- the largest of the sums that `gotBounds` reads at
      let _ ← checkedAdd 64 off 24
      match gotBounds head start off with
      | some (lo, hi) => return (← checkedSub lo start, ← checkedSub hi start)
      | none => return (0, 0)
  | none => return (0, 0)

def totalSize (zimg : List UInt8) (start stop : Nat) : Outcome Unfinished Nat := do
  if start < stop then
    let size ← checkedSub stop start
    return if size ≤ zimg.length then size else zimg.length
  else return zimg.length

-- Strategy 4.1
def findTableImpl (rounds : Nat) (zimg head : List UInt8) (start gotStart : Nat) :
    Outcome Unfinished (Option (Nat × Nat)) :=
  let tableMagic := readU32 zimg 0x34
  let tableOffset := readU32 zimg 0x38
  if (tableMagic = 0x45454545 ∨ tableMagic = 0x45455358 ∨ tableMagic = 0x20425444) ∧
      0 < tableOffset ∧ tableOffset < head.length then
    (Loop.run (tableRound true .bits64 zimg head start gotStart) rounds tableOffset).getD
      (.err .unfinished)
  else return none

def lowerEnd (head : List UInt8) (total back : Nat) : Outcome Unfinished Nat :=
  if back < total then checkedSub total back else pure head.length

-- Strategies 4.2 and 4.3
def scanEndImpl (zimg head : List UInt8) (start gotStart gotEnd total : Nat) :
    Outcome Unfinished (Option Nat) := do
  let minPiggyEnd ← lowerEnd head total 0x200
  let inGot :=
    if head.length ≤ gotStart ∧ gotEnd ≤ total ∧ gotStart ≤ gotEnd then
      findEnd zimg start minPiggyEnd total (words gotStart (min gotEnd (total - 4)))
    else none
  match inGot with
  | some piggyEnd => return some piggyEnd
  | none =>
      if 64 < total then
        let minTailEnd ← lowerEnd head total 0xff
        return findEnd zimg start minTailEnd total ((List.range' 1 16).map fun i => total - i * 4)
      else return none

/-- A table that gives the end of the file counts as none. -/
def piggyEndImpl (zimg head : List UInt8) (start gotStart gotEnd total tableEnd : Nat) :
    Outcome Unfinished Nat :=
  if tableEnd = zimg.length then do
    return (← scanEndImpl zimg head start gotStart gotEnd total).getD zimg.length
  else return tableEnd

-- Step 5
def findInflatedSizeImpl (zimg head : List UInt8) (piggyEnd : Nat) : Outcome Unfinished Nat :=
  if piggyEnd ≠ zimg.length ∧ 4 ≤ head.length then do
    let last ← checkedSub head.length 4
    return ((words 0x20 last).find? fun off =>
      wrappingAdd (wrappingAdd off (readU32 head off)) 4 = u32 piggyEnd).getD 0
  else return 0

-- Step 6
def findLc1Impl (head : List UInt8) (start stop : Nat) : Outcome Unfinished Nat :=
  if 8 ≤ head.length then do
    let last ← checkedSub head.length 8
    let found ← (words 0x20 last).findM? fun off => do
      let p1 := readU32 head (← checkedAdd 64 off 4)
      return wrappingAdd (wrappingAdd p1 off) start = stop
    return found.getD 0
  else return 0

def parseImpl (rounds : Nat) (zimg : List UInt8) : Outcome Unfinished (Option ZImage) := do
  if zimg.length < 0x28 ∨ readU32 zimg 0x24 ≠ 0x016f2818 then return none
  else
    let start := readU32 zimg 0x28
    let stop := readU32 zimg 0x2c
    match ← findPiggyImpl zimg with
    | none => return none
    | some piggyOff =>
        let head ← sliceRange zimg 0 piggyOff
        let fmt ← checkFmtImpl (← sliceFrom zimg piggyOff)
        let lc0 ← findLc0Impl head start
        let (gotStart, gotEnd) ← gotOffsets head start lc0
        let total ← totalSize zimg start stop
        let table ← findTableImpl rounds zimg head start gotStart
        let tableEnd := (table.map Prod.fst).getD zimg.length
        let piggyEnd ← piggyEndImpl zimg head start gotStart gotEnd total tableEnd
        let offInflatedSize ← findInflatedSizeImpl zimg head piggyEnd
        if piggyEnd = zimg.length ∨ piggyEnd ≤ head.length then return none
        else
          let piggy ← sliceRange zimg head.length piggyEnd
          let offLc1 ← findLc1Impl head start stop
          let tail ← sliceFrom zimg piggyEnd
          if piggy = [] ∨ fmt ≠ .gzip ∧ piggy.length < 4 then return none
          else
            return some
              { head
                piggy
                tail
                fmt
                offInflatedSize := u32 offInflatedSize
                offLc0 := u32 (lc0.getD 0)
                offLc1 := u32 offLc1
                offTable := (table.map Prod.snd).getD 0 }

section

variable {zimg head : List UInt8} {start : Nat}

theorem findPiggyImpl_eq (zimg : List UInt8) : findPiggyImpl zimg = ok (findPiggy zimg) := by
  apply findM?_eq_ok
  intro curr hcurr
  rw [List.mem_range'_1] at hcurr
  rw [sliceFrom_of_le (by omega), ok_bind, checkFmtImpl_eq, ok_bind]
  rfl

theorem findLc0Impl_eq (hhead : head.length < 2 ^ 63) : findLc0Impl head start = ok (findLc0 head start) := by
  rw [findLc0Impl, findLc0]
  split
  · rename_i hlength
    rw [checkedSub_of_le hlength, ok_bind]
    apply findM?_eq_ok
    intro off hoff
    have hle := (mem_words hoff).2
    rw [checkedAdd_of_lt (by omega), checkedAdd_of_lt (by omega)]
    by_cases hword : readU32 head off = wrappingAdd off start
    · simp [hword]
    · simp [hword]
  · rfl

theorem gotBounds_eq_some {off lo hi : Nat} (hbounds : gotBounds head start off = some (lo, hi)) :
    start ≤ lo ∧ start ≤ hi := by
  simp only [gotBounds] at hbounds
  split at hbounds
  · cases hbounds
    omega
  · split at hbounds
    · cases hbounds
      omega
    · cases hbounds

theorem gotOffsets_eq (hhead : head.length < 2 ^ 63) :
    gotOffsets head start (findLc0 head start)
      = ok ((((findLc0 head start).bind (gotBounds head start)).map fun g => g.1 - start).getD 0,
          (((findLc0 head start).bind (gotBounds head start)).map fun g => g.2 - start).getD 0) := by
  cases hlc0 : findLc0 head start with
  | none => rfl
  | some off =>
      have hle := findLc0_eq_some hlc0
      rw [gotOffsets, checkedAdd_of_lt (by omega), ok_bind, Option.bind_some]
      cases hbounds : gotBounds head start off with
      | none => rfl
      | some bounds =>
          obtain ⟨hlo, hhi⟩ := gotBounds_eq_some hbounds
          simp only
          rw [checkedSub_of_le hlo, checkedSub_of_le hhi]
          rfl

theorem totalSize_eq (stop : Nat) :
    totalSize zimg start stop
      = ok (if start < stop ∧ stop - start ≤ zimg.length then stop - start else zimg.length) := by
  rw [totalSize]
  by_cases hlt : start < stop
  · rw [if_pos hlt, checkedSub_of_le hlt.le, ok_bind]
    simp only [hlt, true_and]
    rfl
  · rw [if_neg hlt, if_neg fun h => hlt h.1]
    rfl

theorem findTableImpl_eq (hhead : head.length < 2 ^ 63) {rounds : Nat} (hrounds : head.length < rounds)
    (gotStart : Nat) :
    findTableImpl rounds zimg head start gotStart = ok (findTable zimg head start gotStart) := by
  simp only [findTableImpl, findTable]
  split
  · have hword := readU32_lt zimg 0x38
    rw [run_tableRound hhead (by omega) (by omega)]
    rfl
  · rfl

theorem lowerEnd_eq (total back : Nat) :
    lowerEnd head total back = ok (if back < total then total - back else head.length) := by
  rw [lowerEnd]
  split
  · rename_i hlt
    exact checkedSub_of_le hlt.le
  · rfl

theorem scanEndImpl_eq (gotStart gotEnd total : Nat) :
    scanEndImpl zimg head start gotStart gotEnd total
      = ok (scanEnd zimg head start gotStart gotEnd total) := by
  simp only [scanEndImpl, scanEnd, lowerEnd_eq, ok_bind]
  generalize (ite (head.length ≤ gotStart ∧ gotEnd ≤ total ∧ gotStart ≤ gotEnd) _ none) = inGot
  cases inGot with
  | some piggyEnd => rfl
  | none =>
      simp only
      split <;> rfl

theorem piggyEndImpl_eq (gotStart gotEnd total tableEnd : Nat) :
    piggyEndImpl zimg head start gotStart gotEnd total tableEnd
      = ok (if tableEnd = zimg.length then
          (scanEnd zimg head start gotStart gotEnd total).getD zimg.length
        else tableEnd) := by
  rw [piggyEndImpl, scanEndImpl_eq]
  split <;> rfl

theorem findInflatedSizeImpl_eq (piggyEnd : Nat) :
    findInflatedSizeImpl zimg head piggyEnd
      = ok (if piggyEnd ≠ zimg.length then findInflatedSize head piggyEnd else 0) := by
  rw [findInflatedSizeImpl, findInflatedSize]
  by_cases hend : piggyEnd = zimg.length
  · rw [if_neg fun h => h.1 hend, if_neg (not_not.2 hend)]
    rfl
  · rw [if_pos hend]
    simp only [hend, ne_eq, not_false_eq_true, true_and]
    split
    · rename_i hlength
      rw [checkedSub_of_le hlength]
      rfl
    · rfl

theorem findLc1Impl_eq (hhead : head.length < 2 ^ 63) (stop : Nat) :
    findLc1Impl head start stop = ok (findLc1 head start stop) := by
  rw [findLc1Impl, findLc1]
  split
  · rename_i hlength
    rw [checkedSub_of_le hlength, ok_bind, findM?_eq_ok]
    · rfl
    · intro off hoff
      have hle := (mem_words hoff).2
      rw [checkedAdd_of_lt (by omega)]
      rfl
  · rfl

end

theorem parseImpl_eq {zimg : List UInt8} (hzimg : zimg.length < 2 ^ 63) {rounds : Nat}
    (hrounds : zimg.length < rounds) : parseImpl rounds zimg = ok (parse zimg) := by
  rw [parseImpl, parse]
  split
  · rfl
  · simp only [findPiggyImpl_eq, ok_bind]
    cases hpiggy : findPiggy zimg with
    | none => rfl
    | some piggyOff =>
        have hmem := List.mem_of_find?_eq_some hpiggy
        rw [List.mem_range'_1] at hmem
        have htake : slice zimg 0 (piggyOff - 0) = zimg.take piggyOff := rfl
        have hlength : (zimg.take piggyOff).length = piggyOff := List.length_take_of_le (by omega)
        have hhead : (zimg.take piggyOff).length < 2 ^ 63 := by omega
        have htotal : (if readU32 zimg 0x28 < readU32 zimg 0x2c ∧
            readU32 zimg 0x2c - readU32 zimg 0x28 ≤ zimg.length then
            readU32 zimg 0x2c - readU32 zimg 0x28 else zimg.length) ≤ zimg.length := by
          split <;> omega
        simp only
        rw [sliceRange_of_le (by omega), ok_bind, htake, sliceFrom_of_le (by omega), ok_bind,
          checkFmtImpl_eq, ok_bind, findLc0Impl_eq hhead, ok_bind, gotOffsets_eq hhead, ok_bind,
          totalSize_eq, ok_bind, findTableImpl_eq hhead (by omega), ok_bind, piggyEndImpl_eq, ok_bind,
          findInflatedSizeImpl_eq, ok_bind]
        generalize hend : (if _ = zimg.length then _ else _ : Nat) = piggyEnd
        have hinside : piggyEnd ≤ zimg.length := by
          rw [← hend]
          exact piggyEnd_le rfl htotal
        split
        · rfl
        · rename_i hfound
          rw [sliceRange_of_le (by omega), ok_bind, findLc1Impl_eq hhead, ok_bind,
            sliceFrom_of_le hinside, ok_bind, if_pos fun hlast => hfound (.inl hlast)]
          split <;> rfl

/-- What an accepted image allows its user to rely on. -/
structure Usable (zimg : List UInt8) (z : ZImage) : Prop where
  parts : z.head ++ z.piggy ++ z.tail = zimg
  piggy : z.piggy ≠ []
  piggySize : z.fmt ≠ .gzip → 4 ≤ z.piggy.length
  head : 0x28 ≤ z.head.length
  lc0 : z.offLc0 + 32 ≤ z.head.length
  lc1 : z.offLc1 + 8 ≤ z.head.length
  inflatedSize : z.offInflatedSize + 4 ≤ z.head.length
  table : z.offTable + 4 ≤ z.head.length

theorem u32_add_le {off k n : Nat} (hle : off + k ≤ n) : u32 off + k ≤ n :=
  (Nat.add_le_add_right (Nat.mod_le _ _) k).trans hle

section

variable {head : List UInt8}

theorem findLc0_add_le (hhead : 32 ≤ head.length) (start : Nat) :
    (findLc0 head start).getD 0 + 32 ≤ head.length := by
  cases hfind : findLc0 head start with
  | none => rwa [Option.getD_none, Nat.zero_add]
  | some off => exact findLc0_eq_some hfind

theorem findLc1_add_le (hhead : 8 ≤ head.length) (start stop : Nat) :
    findLc1 head start stop + 8 ≤ head.length := by
  rw [findLc1, if_pos hhead]
  cases hfind : (words 0x20 (head.length - 8)).find? fun off =>
      wrappingAdd (wrappingAdd (readU32 head (off + 4)) off) start = stop with
  | none => rwa [Option.getD_none, Nat.zero_add]
  | some off =>
      have hle := (mem_words (List.mem_of_find?_eq_some hfind)).2
      rw [Option.getD_some]
      omega

theorem findInflatedSize_add_le (hhead : 4 ≤ head.length) (piggyEnd : Nat) :
    findInflatedSize head piggyEnd + 4 ≤ head.length := by
  by_cases hzero : findInflatedSize head piggyEnd = 0
  · rwa [hzero, Nat.zero_add]
  · exact (findInflatedSize_spec hzero).1

theorem findTable_add_le (hhead : 4 ≤ head.length) (zimg : List UInt8) (start gotStart : Nat) :
    ((findTable zimg head start gotStart).map Prod.snd).getD 0 + 4 ≤ head.length := by
  cases hfind : findTable zimg head start gotStart with
  | none => rwa [Option.map_none, Option.getD_none, Nat.zero_add]
  | some found =>
      obtain ⟨entry, hoff, hle⟩ := (findTable_eq_some hfind).1
      rw [Option.map_some, Option.getD_some, hoff]
      exact u32_add_le hle

end

theorem usable_of_parse {zimg : List UInt8} {z : ZImage} (hparse : parse zimg = some z) :
    Usable zimg z := by
  obtain ⟨hparts, -, hpiggy, hsize⟩ := parse_parts hparse
  obtain ⟨piggyOff, piggyEnd, lc0, table, ⟨hoff, hlt, hend⟩, rfl, ⟨gotStart, rfl⟩, rfl, -⟩ :=
    parse_eq_some hparse
  have hhead : 0x28 ≤ (zimg.take piggyOff).length := by
    rw [List.length_take]
    omega
  refine ⟨hparts, hpiggy, hsize, hhead, ?_, ?_, ?_, ?_⟩
  · exact u32_add_le (findLc0_add_le (by omega) _)
  · exact u32_add_le (findLc1_add_le (by omega) _ _)
  · exact u32_add_le (findInflatedSize_add_le (by omega) _)
  · exact findTable_add_le (by omega) _ _ _

/-- **The parser.** It ends without a fault on every input, and what it accepts can be used. -/
theorem parseImpl_usable {zimg : List UInt8} (hzimg : zimg.length < 2 ^ 63) :
    (∀ rounds, zimg.length < rounds → parseImpl rounds zimg = ok (parse zimg)) ∧
      ∀ z, parse zimg = some z → Usable zimg z :=
  ⟨fun _ hrounds => parseImpl_eq hzimg hrounds, fun _ hparse => usable_of_parse hparse⟩

theorem parseImpl_sampleZImage :
    parseImpl 101 (sampleZImage.head ++ sampleZImage.piggy ++ sampleZImage.tail)
        = ok (some sampleZImage) ∧
      Usable (sampleZImage.head ++ sampleZImage.piggy ++ sampleZImage.tail) sampleZImage := by
  have hlength : (sampleZImage.head ++ sampleZImage.piggy ++ sampleZImage.tail).length < 2 ^ 63 := by
    decide
  obtain ⟨hends, husable⟩ := parseImpl_usable hlength
  rw [parse_sampleZImage] at hends husable
  exact ⟨hends 101 (by decide), husable sampleZImage rfl⟩

end ZImage

end MagiskNative.Boot
