import MagiskNative.Lib.Layout
import MagiskNative.Boot.Format

/-!
# Splitting a zImage

A 32-bit ARM `zImage` is a decompressor (`head`), the compressed kernel (`piggy`) and what follows
it (`tail`). `ZImage.parse` looks for the borders by a number of heuristics; `newHead` and `newTail`
adjust addresses to another length of the piggy. Words are `u32` with wrapping arithmetic.
-/

namespace MagiskNative.Boot

open Bytes Layout

structure ZImage where
  head : List UInt8
  piggy : List UInt8
  tail : List UInt8
  fmt : FileFormat
  offInflatedSize : Nat
  offLc0 : Nat
  offLc1 : Nat
  offTable : Nat
  deriving DecidableEq, Repr

namespace ZImage

def u32 (n : Nat) : Nat := n % 2 ^ 32

def wrappingAdd (a b : Nat) : Nat := u32 (a + b)

def wrappingSub (a b : Nat) : Nat := u32 (a + (2 ^ 32 - u32 b))

variable (buf : List UInt8)

def readU32 (off : Nat) : Nat :=
  if off + 4 ≤ buf.length then ofLe (slice buf off 4) else 0

def writeU32 (off val : Nat) : List UInt8 :=
  if off + 4 ≤ buf.length then patch buf off (leBytes 4 val) else buf

def words (lo hi : Nat) : List Nat := (List.range ((hi + 4 - lo) / 4)).map fun i => lo + 4 * i

def isValidPiggyEnd (kernel : List UInt8) (hdrSz candidateEnd gotStart : Nat) : Bool :=
  if candidateEnd ≤ hdrSz + 4 ∨ kernel.length < candidateEnd then false
  else if gotStart ≠ 0 ∧ (candidateEnd + 3) / 4 * 4 ≠ gotStart then false
  else true

-- Step 2
def findPiggy (zimg : List UInt8) : Option Nat :=
  (List.range' 0x28 (zimg.length - 0x28)).find? fun curr => checkFmt (zimg.drop curr) ≠ .unknown

-- Step 3: the offset of the LC0 table
def findLc0 (head : List UInt8) (start : Nat) : Option Nat :=
  if 32 ≤ head.length then
    (words 0x20 (head.length - 32)).find? fun off =>
      readU32 head off = wrappingAdd off start ∧
        u32 head.length ≤ readU32 head (off + 4) ∧ readU32 head (off + 4) ≤ readU32 head (off + 8)
  else none

def gotBounds (head : List UInt8) (start off : Nat) : Option (Nat × Nat) :=
  let lc01 := readU32 head (off + 4)
  let lc04 := readU32 head (off + 16)
  let lc05 := readU32 head (off + 20)
  let lc06 := readU32 head (off + 24)
  if lc05 ≤ lc06 ∧ lc06 ≤ lc01 ∧ start < lc05 then some (lc05, lc06)
  else if lc04 ≤ lc05 ∧ lc05 ≤ lc01 ∧ start < lc04 then some (lc04, lc05)
  else none

/-- Strategy 4.1: walk the magic table for a kernel size tag; the end of the piggy and the offset of
its entry. -/
def walkTable (zimg head : List UInt8) (start gotStart tblOff : Nat) : Option (Nat × Nat) :=
  if tblOff + 8 ≤ head.length then
    let numWords := readU32 head tblOff
    if _hwords : numWords = 0 then none
    else
      let candidateEnd := wrappingAdd (wrappingSub (readU32 head (tblOff + 8)) start) 4
      if readU32 head (tblOff + 4) = 0x5a534c4b ∧ 3 ≤ numWords ∧
          tblOff + numWords * 4 ≤ head.length ∧
          isValidPiggyEnd zimg head.length candidateEnd gotStart then
        some (candidateEnd, u32 (tblOff + 8))
      else walkTable zimg head start gotStart (tblOff + numWords * 4)
  else none
termination_by head.length - tblOff

def findTable (zimg head : List UInt8) (start gotStart : Nat) : Option (Nat × Nat) :=
  let tableMagic := readU32 zimg 0x34
  let tableOffset := readU32 zimg 0x38
  if (tableMagic = 0x45454545 ∨ tableMagic = 0x45455358 ∨ tableMagic = 0x20425444) ∧
      0 < tableOffset ∧ tableOffset < head.length then
    walkTable zimg head start gotStart tableOffset
  else none

def findEnd (zimg : List UInt8) (start lower upper : Nat) (offs : List Nat) : Option Nat :=
  (offs.map fun off => wrappingSub (readU32 zimg off) start).find? fun val =>
    lower < val ∧ val < upper

-- Strategies 4.2 and 4.3
def scanEnd (zimg head : List UInt8) (start gotStart gotEnd total : Nat) : Option Nat :=
  let minPiggyEnd := if 0x200 < total then total - 0x200 else head.length
  let inGot :=
    if head.length ≤ gotStart ∧ gotEnd ≤ total ∧ gotStart ≤ gotEnd then
      findEnd zimg start minPiggyEnd total (words gotStart (min gotEnd (total - 4)))
    else none
  match inGot with
  | some piggyEnd => some piggyEnd
  | none =>
      if 64 < total then
        let minTailEnd := if 0xff < total then total - 0xff else head.length
        findEnd zimg start minTailEnd total ((List.range' 1 16).map fun i => total - i * 4)
      else none

-- Step 5
def findInflatedSize (head : List UInt8) (piggyEnd : Nat) : Nat :=
  if 4 ≤ head.length then
    ((words 0x20 (head.length - 4)).find? fun off =>
      wrappingAdd (wrappingAdd off (readU32 head off)) 4 = u32 piggyEnd).getD 0
  else 0

-- Step 6
def findLc1 (head : List UInt8) (start stop : Nat) : Nat :=
  if 8 ≤ head.length then
    ((words 0x20 (head.length - 8)).find? fun off =>
      wrappingAdd (wrappingAdd (readU32 head (off + 4)) off) start = stop).getD 0
  else 0

def parse (zimg : List UInt8) : Option ZImage :=
  if zimg.length < 0x28 ∨ readU32 zimg 0x24 ≠ 0x016f2818 then none
  else
    let start := readU32 zimg 0x28
    let stop := readU32 zimg 0x2c
    match findPiggy zimg with
    | none => none
    | some piggyOff =>
        let head := zimg.take piggyOff
        let fmt := checkFmt (zimg.drop piggyOff)
        let lc0 := findLc0 head start
        let got := lc0.bind (gotBounds head start)
        let gotStart := (got.map fun g => g.1 - start).getD 0
        let gotEnd := (got.map fun g => g.2 - start).getD 0
        let total := if start < stop ∧ stop - start ≤ zimg.length then stop - start else zimg.length
        let table := findTable zimg head start gotStart
        let tableEnd := (table.map Prod.fst).getD zimg.length
        -- A table that gives the end of the file counts as none, except for its own offset.
        let piggyEnd :=
          if tableEnd = zimg.length then
            (scanEnd zimg head start gotStart gotEnd total).getD zimg.length
          else tableEnd
        if piggyEnd = zimg.length ∨ piggyEnd ≤ head.length then none
        else
          let piggy := slice zimg head.length (piggyEnd - head.length)
          if piggy = [] ∨ fmt ≠ .gzip ∧ piggy.length < 4 then none
          else
            some
              { head
                piggy
                tail := zimg.drop piggyEnd
                fmt
                offInflatedSize := u32 (findInflatedSize head piggyEnd)
                offLc0 := u32 (lc0.getD 0)
                offLc1 := u32 (findLc1 head start stop)
                offTable := (table.map Prod.snd).getD 0 }

section Relocate

variable (z : ZImage) (payloadSz : Nat)

def start : Nat := readU32 z.head 0x28

def origPiggyEnd : Nat := wrappingAdd (wrappingAdd z.head.length z.piggy.length) z.start

def newPiggyEnd : Nat := wrappingAdd (wrappingAdd z.head.length payloadSz) z.start

def gotStartOf (piggyEnd : Nat) : Nat := wrappingAdd piggyEnd 3 / 4 * 4

def deltaGot : Nat := wrappingSub (gotStartOf (z.newPiggyEnd payloadSz)) (gotStartOf z.origPiggyEnd)

def shift (stub : List UInt8) (off : Nat) : List UInt8 :=
  writeU32 stub off (wrappingAdd (readU32 stub off) (z.deltaGot payloadSz))

-- Step 4 for one entry
def patchLc0Entry (stub : List UInt8) (entryOff : Nat) : List UInt8 :=
  let val := readU32 stub entryOff
  if val = wrappingSub z.origPiggyEnd 4 then
    writeU32 stub entryOff (wrappingSub (z.newPiggyEnd payloadSz) 4)
  else if wrappingAdd z.head.length z.start ≤ val then z.shift payloadSz stub entryOff
  else stub

/-- Step 7 for one `ldr rt, [pc, #imm]` at `prevOff` and one `add rd, pc, rm` at `off`. -/
def patchLiteral (gotStart gotEnd off rm : Nat) (stub : List UInt8) (prevOff : Nat) :
    List UInt8 :=
  let prevInsn := readU32 stub prevOff
  if prevInsn &&& 0x0f7f0000 = 0x051f0000 ∧ prevInsn / 2 ^ 12 % 16 = rm then
    let imm := prevInsn % 2 ^ 12
    let litAddr :=
      if prevInsn / 2 ^ 23 % 2 = 1 then some (prevOff + 8 + imm)
      else if imm ≤ prevOff + 8 then some (prevOff + 8 - imm)
      else none
    match litAddr with
    | some litAddr =>
        if litAddr + 4 ≤ stub.length then
          let val := readU32 stub litAddr
          let target := wrappingAdd (wrappingAdd (u32 off + 8) val) z.start
          if gotStart - 0x20 ≤ target ∧ target ≤ wrappingAdd gotEnd 0x20 then
            z.shift payloadSz stub litAddr
          else stub
        else stub
    | none => stub
  else stub

def patchInsn (gotStart gotEnd : Nat) (stub : List UInt8) (off : Nat) : List UInt8 :=
  let insn := readU32 stub off
  if insn &&& 0x0fe00000 = 0x00800000 ∧ insn / 2 ^ 16 % 16 = 0xf then
    let prevs := (words (off - 128) off).filter (· < off)
    prevs.foldl (z.patchLiteral payloadSz gotStart gotEnd off (insn % 16)) stub
  else stub

def newHead : List UInt8 :=
  if z.head = [] ∨ payloadSz = 0 ∨ payloadSz = z.piggy.length then z.head
  else
    let stub := z.shift payloadSz z.head 0x2c
    let stub := if z.offInflatedSize ≠ 0 then z.shift payloadSz stub z.offInflatedSize else stub
    let stub :=
      if z.offLc0 ≠ 0 then
        ((List.range' 1 7).map fun i => z.offLc0 + i * 4).foldl (z.patchLc0Entry payloadSz) stub
      else stub
    let stub :=
      if z.offLc1 ≠ 0 then
        -- Both words are read before either is written.
        let val0 := readU32 stub z.offLc1
        let val1 := readU32 stub (z.offLc1 + 4)
        let stub := writeU32 stub z.offLc1 (wrappingAdd val0 (z.deltaGot payloadSz))
        writeU32 stub (z.offLc1 + 4) (wrappingAdd val1 (z.deltaGot payloadSz))
      else stub
    let stub := if z.offTable ≠ 0 then z.shift payloadSz stub z.offTable else stub
    let got := if z.offLc0 ≠ 0 then gotBounds z.head z.start z.offLc0 else none
    match got with
    | some (gotStart, gotEnd) =>
        if gotStart ≠ 0 ∧ gotEnd ≠ 0 then
          (words 0 (stub.length - 4)).foldl (z.patchInsn payloadSz gotStart gotEnd) stub
        else stub
    | none => stub

def patchGotEntry (result : List UInt8) (i : Nat) : List UInt8 :=
  let val := readU32 result i
  if val = z.origPiggyEnd then writeU32 result i (z.newPiggyEnd payloadSz)
  else if wrappingSub (gotStartOf z.origPiggyEnd) 4 ≤ val then z.shift payloadSz result i
  else result

def origPadSz : Nat := wrappingSub (gotStartOf z.origPiggyEnd) z.origPiggyEnd

def newPadSz : Nat := wrappingSub (gotStartOf (z.newPiggyEnd payloadSz)) (z.newPiggyEnd payloadSz)

def newTail : List UInt8 :=
  if z.tail = [] ∨ payloadSz = 0 ∨ payloadSz = z.piggy.length then z.tail
  else
    let result := zeros (z.newPadSz payloadSz)
      ++ if z.origPadSz < z.tail.length then z.tail.drop z.origPadSz else []
    if z.offLc0 ≠ 0 then
      (words (z.newPadSz payloadSz) (result.length - 4)).foldl (z.patchGotEntry payloadSz) result
    else result

end Relocate

theorem readU32_lt (off : Nat) : readU32 buf off < 2 ^ 32 := by
  rw [readU32]
  split
  · rename_i hle
    have hlt := ofLe_lt (slice buf off 4)
    rwa [length_slice_of_le hle] at hlt
  · decide

variable {gotStart off piggyEnd start : Nat} {head zimg : List UInt8}

theorem walkTable_eq_some {tblOff : Nat}
    (hwalk : walkTable zimg head start gotStart tblOff = some (piggyEnd, off)) :
    (∃ entry, off = u32 entry ∧ entry + 4 ≤ head.length) ∧ piggyEnd ≤ zimg.length := by
  fun_induction walkTable zimg head start gotStart tblOff with
  | case1 tblOff hin numWords hzero => cases hwalk
  | case2 tblOff hin numWords hwords candidateEnd hentry =>
      obtain ⟨-, hthree, hfits, hvalid⟩ := hentry
      rw [Option.some.injEq, Prod.mk.injEq] at hwalk
      have hbounds : ¬ (candidateEnd ≤ head.length + 4 ∨ zimg.length < candidateEnd) := by
        intro hout
        rw [isValidPiggyEnd, if_pos hout] at hvalid
        cases hvalid
      exact ⟨⟨tblOff + 8, hwalk.2.symm, by omega⟩, by omega⟩
  | case3 tblOff hin numWords hwords candidateEnd hentry ih => exact ih hwalk
  | case4 tblOff hout => cases hwalk

theorem mem_words {lo hi : Nat} (hmem : off ∈ words lo hi) : lo ≤ off ∧ off ≤ hi := by
  rw [words, List.mem_map] at hmem
  obtain ⟨i, hi, rfl⟩ := hmem
  rw [List.mem_range] at hi
  omega

theorem findInflatedSize_spec (hfound : findInflatedSize head piggyEnd ≠ 0) :
    findInflatedSize head piggyEnd + 4 ≤ head.length ∧
      wrappingAdd (wrappingAdd (findInflatedSize head piggyEnd)
        (readU32 head (findInflatedSize head piggyEnd))) 4 = u32 piggyEnd := by
  generalize hoff : findInflatedSize head piggyEnd = off at hfound
  rw [findInflatedSize] at hoff
  split at hoff
  · rename_i hlength
    cases hfind : (words 0x20 (head.length - 4)).find? fun off =>
        wrappingAdd (wrappingAdd off (readU32 head off)) 4 = u32 piggyEnd with
    | none =>
        rw [hfind] at hoff
        exact absurd hoff.symm hfound
    | some off' =>
        rw [hfind, Option.getD_some] at hoff
        subst hoff
        have hmem := mem_words (List.mem_of_find?_eq_some hfind)
        have hword := List.find?_some hfind
        exact ⟨by omega, of_decide_eq_true hword⟩
  · exact absurd hoff.symm hfound

theorem findEnd_lt {lower upper val : Nat} {offs : List Nat}
    (hfind : findEnd zimg start lower upper offs = some val) : val < upper := by
  have hval := List.find?_some hfind
  exact (of_decide_eq_true hval).2

theorem scanEnd_lt {gotEnd total val : Nat}
    (hscan : scanEnd zimg head start gotStart gotEnd total = some val) : val < total := by
  simp only [scanEnd] at hscan
  split at hscan
  · rename_i hfind
    cases hscan
    split at hfind
    · exact findEnd_lt hfind
    · cases hfind
  · split at hscan
    · exact findEnd_lt hscan
    · cases hscan

theorem findLc0_eq_some (hfind : findLc0 head start = some off) :
    off + 32 ≤ head.length := by
  rw [findLc0] at hfind
  split at hfind
  · have hmem := mem_words (List.mem_of_find?_eq_some hfind)
    omega
  · cases hfind

theorem findTable_eq_some (hfind : findTable zimg head start gotStart = some (piggyEnd, off)) :
    (∃ entry, off = u32 entry ∧ entry + 4 ≤ head.length) ∧ piggyEnd ≤ zimg.length := by
  simp only [findTable] at hfind
  split at hfind
  · exact walkTable_eq_some hfind
  · cases hfind

theorem piggyEnd_le {gotEnd total tableEnd : Nat}
    (htable : tableEnd = ((findTable zimg head start gotStart).map Prod.fst).getD zimg.length)
    (htotal : total ≤ zimg.length) :
    (if tableEnd = zimg.length then
        (scanEnd zimg head start gotStart gotEnd total).getD zimg.length
      else tableEnd) ≤ zimg.length := by
  split
  · cases hscan : scanEnd zimg head start gotStart gotEnd total with
    | none => exact le_rfl
    | some val => exact (scanEnd_lt hscan).le.trans htotal
  · rw [htable]
    cases hfind : findTable zimg head start gotStart with
    | none => exact le_rfl
    | some found => exact (findTable_eq_some hfind).2

theorem parse_eq_some {z : ZImage} (hparse : parse zimg = some z) :
    ∃ piggyOff piggyEnd lc0 table,
      (0x28 ≤ piggyOff ∧ piggyOff < piggyEnd ∧ piggyEnd < zimg.length) ∧
      findLc0 (zimg.take piggyOff) (readU32 zimg 0x28) = lc0 ∧
      (∃ gotStart, findTable zimg (zimg.take piggyOff) (readU32 zimg 0x28) gotStart = table) ∧
      z = { head := zimg.take piggyOff
            piggy := slice zimg piggyOff (piggyEnd - piggyOff)
            tail := zimg.drop piggyEnd
            fmt := checkFmt (zimg.drop piggyOff)
            offInflatedSize := u32 (findInflatedSize (zimg.take piggyOff) piggyEnd)
            offLc0 := u32 (lc0.getD 0)
            offLc1 := u32 (findLc1 (zimg.take piggyOff) (readU32 zimg 0x28) (readU32 zimg 0x2c))
            offTable := (table.map Prod.snd).getD 0 } ∧
      (z.fmt ≠ .gzip → 4 ≤ piggyEnd - piggyOff) := by
  simp only [parse] at hparse
  split at hparse
  · cases hparse
  · split at hparse
    · cases hparse
    · rename_i piggyOff hpiggy
      have htotal : (if readU32 zimg 0x28 < readU32 zimg 0x2c ∧
          readU32 zimg 0x2c - readU32 zimg 0x28 ≤ zimg.length then
          readU32 zimg 0x2c - readU32 zimg 0x28 else zimg.length) ≤ zimg.length := by
        split <;> omega
      generalize hlc0 : findLc0 (zimg.take piggyOff) (readU32 zimg 0x28) = lc0 at hparse
      generalize htable : findTable zimg (zimg.take piggyOff) (readU32 zimg 0x28) _ = table at hparse
      generalize hend : (if _ = zimg.length then _ else _ : Nat) = piggyEnd at hparse
      split at hparse
      · cases hparse
      · rename_i hbounds
        split at hparse
        · cases hparse
        · rename_i hsize
          have hmem := List.mem_of_find?_eq_some hpiggy
          rw [List.mem_range'_1] at hmem
          have hlength : (zimg.take piggyOff).length = piggyOff := by
            rw [List.length_take]
            omega
          have hinside : piggyEnd ≤ zimg.length := by
            rw [← hend]
            exact piggyEnd_le (by rw [htable]) htotal
          rw [hlength] at hbounds hsize hparse
          cases hparse
          refine ⟨piggyOff, piggyEnd, lc0, table, by omega, hlc0, ⟨_, htable⟩, rfl, fun hfmt => ?_⟩
          by_contra hshort
          refine hsize (.inr ⟨hfmt, ?_⟩)
          rw [length_slice]
          omega

theorem parse_parts {z : ZImage} (hparse : parse zimg = some z) :
    z.head ++ z.piggy ++ z.tail = zimg ∧ z.head ≠ [] ∧ z.piggy ≠ [] ∧
      (z.fmt ≠ .gzip → 4 ≤ z.piggy.length) := by
  obtain ⟨piggyOff, piggyEnd, lc0, table, hbounds, -, -, rfl, hsize⟩ := parse_eq_some hparse
  obtain ⟨hoff, hlt, hend⟩ := hbounds
  have hpiggy : (slice zimg piggyOff (piggyEnd - piggyOff)).length = piggyEnd - piggyOff := by
    rw [length_slice]
    omega
  refine ⟨?_, ?_, ?_, fun hfmt => by rw [hpiggy]; exact hsize hfmt⟩
  · have hdrop : zimg.drop piggyEnd = (zimg.drop piggyOff).drop (piggyEnd - piggyOff) := by
      rw [List.drop_drop]
      congr 1
      omega
    simp only [slice]
    rw [List.append_assoc, hdrop, List.take_append_drop, List.take_append_drop]
  · apply List.ne_nil_of_length_pos
    simp only [List.length_take]
    omega
  · apply List.ne_nil_of_length_pos
    simp only [hpiggy]
    omega

theorem newHead_length (z : ZImage) : z.newHead z.piggy.length = z.head :=
  if_pos (.inr (.inr rfl))

theorem newTail_length (z : ZImage) : z.newTail z.piggy.length = z.tail :=
  if_pos (.inr (.inr rfl))

theorem length_writeU32 (off val : Nat) : (writeU32 buf off val).length = buf.length := by
  rw [writeU32]
  split
  · exact length_patch _ _ _
  · rfl

theorem length_shift (z : ZImage) (payloadSz : Nat) (buf : List UInt8) (off : Nat) :
    (z.shift payloadSz buf off).length = buf.length := length_writeU32 _ _ _

theorem length_foldl {f : List UInt8 → Nat → List UInt8}
    (hf : ∀ buf off, (f buf off).length = buf.length) (offs : List Nat) (buf : List UInt8) :
    (offs.foldl f buf).length = buf.length := by
  induction offs generalizing buf with
  | nil => rfl
  | cons off offs ih => rw [List.foldl_cons, ih, hf]

theorem length_patchGotEntry (z : ZImage) (payloadSz : Nat) (buf : List UInt8) (off : Nat) :
    (z.patchGotEntry payloadSz buf off).length = buf.length := by
  rw [patchGotEntry]
  split
  · exact length_writeU32 _ _ _
  · split
    · exact length_shift _ _ _ _
    · rfl

theorem length_patchLc0Entry (z : ZImage) (payloadSz : Nat) (buf : List UInt8) (off : Nat) :
    (z.patchLc0Entry payloadSz buf off).length = buf.length := by
  rw [patchLc0Entry]
  split
  · exact length_writeU32 _ _ _
  · split
    · exact length_shift _ _ _ _
    · rfl

theorem length_patchLiteral (z : ZImage) (payloadSz gotStart gotEnd off rm : Nat) (buf : List UInt8)
    (prevOff : Nat) :
    (z.patchLiteral payloadSz gotStart gotEnd off rm buf prevOff).length = buf.length := by
  simp only [patchLiteral]
  split
  · split
    · split
      · split
        · exact length_shift _ _ _ _
        · rfl
      · rfl
    · rfl
  · rfl

theorem length_patchInsn (z : ZImage) (payloadSz gotStart gotEnd : Nat) (buf : List UInt8)
    (off : Nat) : (z.patchInsn payloadSz gotStart gotEnd buf off).length = buf.length := by
  simp only [patchInsn]
  split
  · exact length_foldl (length_patchLiteral z payloadSz gotStart gotEnd off _) _ _
  · rfl

theorem length_newHead (z : ZImage) (payloadSz : Nat) :
    (z.newHead payloadSz).length = z.head.length := by
  have hentries := length_foldl (length_patchLc0Entry z payloadSz)
  have hinsns : ∀ gotStart gotEnd offs buf,
      (List.foldl (z.patchInsn payloadSz gotStart gotEnd) buf offs).length = buf.length :=
    fun gotStart gotEnd => length_foldl (length_patchInsn z payloadSz gotStart gotEnd)
  rw [newHead]
  split
  · rfl
  · simp only
    split <;>
      simp only [apply_ite List.length, hinsns, hentries, length_shift, length_writeU32, ite_self]

theorem wrappingSub_gotStartOf (e : Nat) :
    wrappingSub (gotStartOf e) e = (4 - e % 4) % 4 := by
  simp only [wrappingSub, gotStartOf, wrappingAdd, u32]
  omega

theorem newPadSz_sub_four (z : ZImage) (hpiggy : 4 ≤ z.piggy.length) :
    z.newPadSz (z.piggy.length - 4) = z.origPadSz := by
  rw [newPadSz, origPadSz, wrappingSub_gotStartOf, wrappingSub_gotStartOf]
  simp only [newPiggyEnd, origPiggyEnd, wrappingAdd, u32]
  omega

theorem origPadSz_le (z : ZImage) : z.origPadSz ≤ 3 := by
  rw [origPadSz, wrappingSub_gotStartOf]
  omega

theorem length_newTail_sub_four (z : ZImage) (hpiggy : 4 ≤ z.piggy.length) :
    z.tail.length ≤ (z.newTail (z.piggy.length - 4)).length ∧
      (z.newTail (z.piggy.length - 4)).length < z.tail.length + 4 := by
  have hpad := z.origPadSz_le
  rw [newTail]
  split
  · omega
  · simp only
    have hresult : (zeros (z.newPadSz (z.piggy.length - 4))
        ++ if z.origPadSz < z.tail.length then z.tail.drop z.origPadSz else []).length
          = z.origPadSz + (z.tail.length - z.origPadSz) := by
      rw [List.length_append, length_zeros, newPadSz_sub_four z hpiggy]
      split
      · rw [List.length_drop]
      · rw [List.length_nil]
        omega
    split
    · rw [length_foldl (length_patchGotEntry z _), hresult]
      omega
    · rw [hresult]
      omega

end ZImage

end MagiskNative.Boot
