import MagiskNative.Boot.ZImage

/-!
# Words of the head

How `newHead` patches single words: the header, the recorded literal and the tables as one list of patches,
and the literals of step 7 behind them.
-/

namespace MagiskNative.Boot.ZImage

open Bytes Layout

def WordsApart (a b : Nat) : Prop := a + 4 ≤ b ∨ b + 4 ≤ a

instance (a b : Nat) : Decidable (WordsApart a b) := inferInstanceAs (Decidable (_ ∨ _))

def updateU32 (f : Nat → Nat) (buf : List UInt8) (off : Nat) : List UInt8 :=
  writeU32 buf off (f (readU32 buf off))

variable {buf : List UInt8} {off : Nat}

theorem readU32_writeU32_self {val : Nat} (hle : off + 4 ≤ buf.length)
    (hval : val < 2 ^ 32) : readU32 (writeU32 buf off val) off = val := by
  have hslice : slice (patch buf off (leBytes 4 val)) off (leBytes 4 val).length = leBytes 4 val :=
    slice_patch_self (by rwa [length_leBytes])
  rw [length_leBytes] at hslice
  rw [writeU32, if_pos hle, readU32, if_pos (by rwa [length_patch]), hslice, ofLe_leBytes_of_lt hval]

theorem readU32_writeU32_of_apart {a b : Nat} (hapart : WordsApart a b) (val : Nat) :
    readU32 (writeU32 buf a val) b = readU32 buf b := by
  rw [writeU32]
  split
  · have hslice : slice (patch buf a (leBytes 4 val)) b 4 = slice buf b 4 := by
      apply slice_patch_of_disjoint
      rw [length_leBytes]
      exact hapart.symm
    rw [readU32, readU32, length_patch, hslice]
  · rfl

theorem writeU32_readU32 (buf : List UInt8) (off : Nat) : writeU32 buf off (readU32 buf off) = buf := by
  rw [writeU32]
  split
  · rename_i hle
    have hword := leBytes_ofLe (slice buf off 4)
    rw [length_slice_of_le hle] at hword
    rw [readU32, if_pos hle, hword]
    apply patch_eq_self
    rw [length_slice_of_le hle]
  · rfl

def applyPatches (buf : List UInt8) (patches : List (Nat × (Nat → Nat))) : List UInt8 :=
  patches.foldl (fun buf p => updateU32 p.2 buf p.1) buf

theorem readU32_applyPatches_of_apart {patches : List (Nat × (Nat → Nat))}
    (hapart : ∀ p ∈ patches, WordsApart p.1 off) (buf : List UInt8) :
    readU32 (applyPatches buf patches) off = readU32 buf off := by
  induction patches generalizing buf with
  | nil => rfl
  | cons p patches ih =>
      rw [applyPatches, List.foldl_cons, ← applyPatches, ih fun q hq => hapart q (List.mem_cons_of_mem _ hq)]
      exact readU32_writeU32_of_apart (hapart p List.mem_cons_self) _

theorem readU32_applyPatches {patches : List (Nat × (Nat → Nat))} {f : Nat → Nat}
    (hapart : patches.Pairwise fun p q => WordsApart p.1 q.1) (hmem : (off, f) ∈ patches)
    (hle : off + 4 ≤ buf.length) (hf : f (readU32 buf off) < 2 ^ 32) :
    readU32 (applyPatches buf patches) off = f (readU32 buf off) := by
  induction patches generalizing buf with
  | nil => cases hmem
  | cons p patches ih =>
      rw [List.pairwise_cons] at hapart
      rw [applyPatches, List.foldl_cons, ← applyPatches]
      rcases List.mem_cons.1 hmem with rfl | hmem
      · rw [readU32_applyPatches_of_apart fun q hq => (hapart.1 q hq).symm]
        exact readU32_writeU32_self hle hf
      · have hfirst : readU32 (updateU32 p.2 buf p.1) off = readU32 buf off :=
          readU32_writeU32_of_apart (hapart.1 _ hmem) _
        rw [ih hapart.2 hmem (by rwa [updateU32, length_writeU32]) (by rwa [hfirst]), hfirst]

section

variable (z : ZImage) (payloadSz : Nat)

def shiftWord (val : Nat) : Nat := wrappingAdd val (z.deltaGot payloadSz)

def lc0Word (val : Nat) : Nat :=
  if val = wrappingSub z.origPiggyEnd 4 then wrappingSub (z.newPiggyEnd payloadSz) 4
  else if wrappingAdd z.head.length z.start ≤ val then z.shiftWord payloadSz val
  else val

def tablePatches : List (Nat × (Nat → Nat)) :=
  [(0x2c, z.shiftWord payloadSz)]
    ++ (if z.offInflatedSize ≠ 0 then [(z.offInflatedSize, z.shiftWord payloadSz)] else [])
    ++ (if z.offLc0 ≠ 0 then
        (List.range' 1 7).map fun i => (z.offLc0 + i * 4, z.lc0Word payloadSz) else [])
    ++ (if z.offLc1 ≠ 0 then
        [(z.offLc1, z.shiftWord payloadSz), (z.offLc1 + 4, z.shiftWord payloadSz)] else [])
    ++ (if z.offTable ≠ 0 then [(z.offTable, z.shiftWord payloadSz)] else [])

def patchedTables : List UInt8 := applyPatches z.head (z.tablePatches payloadSz)

variable (stub : List UInt8)

-- Step 7
def patchLiterals : List UInt8 :=
  match if z.offLc0 ≠ 0 then gotBounds z.head z.start z.offLc0 else none with
  | some (gotStart, gotEnd) =>
      if gotStart ≠ 0 ∧ gotEnd ≠ 0 then
        (words 0 (stub.length - 4)).foldl (z.patchInsn payloadSz gotStart gotEnd) stub
      else stub
  | none => stub

theorem patchLc0Entry_eq (off : Nat) :
    z.patchLc0Entry payloadSz stub off = updateU32 (z.lc0Word payloadSz) stub off := by
  simp only [patchLc0Entry, updateU32, lc0Word, shiftWord]
  split
  · rfl
  · split
    · rfl
    · exact (writeU32_readU32 stub off).symm

theorem applyPatches_append (buf : List UInt8) (patches patches' : List (Nat × (Nat → Nat))) :
    applyPatches buf (patches ++ patches') = applyPatches (applyPatches buf patches) patches' :=
  List.foldl_append

theorem foldl_patchLc0Entry :
    ((List.range' 1 7).map fun i => z.offLc0 + i * 4).foldl (z.patchLc0Entry payloadSz) stub
      = applyPatches stub ((List.range' 1 7).map fun i => (z.offLc0 + i * 4, z.lc0Word payloadSz)) := by
  rw [applyPatches, List.foldl_map, List.foldl_map]
  simp only [patchLc0Entry_eq]

theorem writeU32_lc1 :
    writeU32 (writeU32 stub z.offLc1 (wrappingAdd (readU32 stub z.offLc1) (z.deltaGot payloadSz)))
        (z.offLc1 + 4) (wrappingAdd (readU32 stub (z.offLc1 + 4)) (z.deltaGot payloadSz))
      = applyPatches stub [(z.offLc1, z.shiftWord payloadSz), (z.offLc1 + 4, z.shiftWord payloadSz)] := by
  have hsecond : readU32 (writeU32 stub z.offLc1
      (wrappingAdd (readU32 stub z.offLc1) (z.deltaGot payloadSz))) (z.offLc1 + 4)
        = readU32 stub (z.offLc1 + 4) := readU32_writeU32_of_apart (.inl le_rfl) _
  simp only [applyPatches, List.foldl_cons, List.foldl_nil, updateU32, shiftWord, hsecond]

theorem applyPatches_ite (p : Prop) [Decidable p] (stub : List UInt8)
    (patches : List (Nat × (Nat → Nat))) :
    applyPatches stub (if p then patches else []) = if p then applyPatches stub patches else stub := by
  split <;> rfl

theorem newHead_eq (hpos : payloadSz ≠ 0) (hne : payloadSz ≠ z.piggy.length) (hhead : z.head ≠ []) :
    z.newHead payloadSz = z.patchLiterals payloadSz (z.patchedTables payloadSz) := by
  rw [newHead, if_neg (by simp [hpos, hne, hhead])]
  simp only [patchedTables, tablePatches, applyPatches_append, applyPatches_ite,
    ← foldl_patchLc0Entry, ← writeU32_lc1, patchLiterals]
  rfl

end

theorem u32_of_lt {n : Nat} (hn : n < 2 ^ 32) : u32 n = n := Nat.mod_eq_of_lt hn

section

variable {z : ZImage} {payloadSz : Nat}

theorem u32_lt (n : Nat) : u32 n < 2 ^ 32 := Nat.mod_lt _ (by decide)

theorem shiftWord_lt (val : Nat) : z.shiftWord payloadSz val < 2 ^ 32 := u32_lt _

variable {val : Nat}

theorem lc0Word_lt (hval : val < 2 ^ 32) : z.lc0Word payloadSz val < 2 ^ 32 := by
  rw [lc0Word]
  split
  · exact u32_lt _
  · split
    · exact shiftWord_lt val
    · exact hval

theorem deltaGot_length (z : ZImage) : z.deltaGot z.piggy.length = 0 := by
  simp only [deltaGot, newPiggyEnd, origPiggyEnd, wrappingSub, u32]
  omega

theorem shiftWord_length (hval : val < 2 ^ 32) : z.shiftWord z.piggy.length val = val := by
  rw [shiftWord, deltaGot_length, wrappingAdd, Nat.add_zero, u32_of_lt hval]

theorem gotStartOf_eq (e : Nat) : gotStartOf e = u32 (e + (4 - e % 4) % 4) := by
  simp only [gotStartOf, wrappingAdd, u32]
  omega

theorem u32_wrappingSub_add (a b : Nat) : u32 (wrappingSub (u32 a) (u32 b) + b) = u32 a := by
  simp only [wrappingSub, u32]
  omega

theorem deltaGot_add (z : ZImage) (payloadSz : Nat) :
    u32 (z.deltaGot payloadSz + (z.origPiggyEnd + z.origPadSz))
      = u32 (z.newPiggyEnd payloadSz + z.newPadSz payloadSz) := by
  rw [newPadSz, origPadSz, wrappingSub_gotStartOf, wrappingSub_gotStartOf, deltaGot, gotStartOf_eq,
    gotStartOf_eq, u32_wrappingSub_add]

theorem newPadSz_lt (z : ZImage) (payloadSz : Nat) : z.newPadSz payloadSz < 4 := by
  rw [newPadSz, wrappingSub_gotStartOf]
  omega

structure NoWrap (z : ZImage) (payloadSz : Nat) : Prop where
  orig : z.head.length + z.piggy.length + z.start < 2 ^ 32
  new : z.head.length + payloadSz + z.start < 2 ^ 32

theorem piggyEnds_eq (hwrap : NoWrap z payloadSz) :
    z.origPiggyEnd = z.head.length + z.piggy.length + z.start ∧
      z.newPiggyEnd payloadSz = z.head.length + payloadSz + z.start := by
  obtain ⟨horig, hnew⟩ := hwrap
  simp only [origPiggyEnd, newPiggyEnd, wrappingAdd, u32]
  omega

end

def sampleZImage : ZImage where
  head := zeros 36 ++ leBytes 4 0x016f2818 ++ zeros 8 ++ leBytes 4 28 ++ zeros 12
  piggy := xzMagic ++ zeros 11
  tail := zeros 16 ++ leBytes 4 80
  fmt := .xz
  offInflatedSize := 0x30
  offLc0 := 0
  offLc1 := 0
  offTable := 0

theorem parse_sampleZImage :
    parse (sampleZImage.head ++ sampleZImage.piggy ++ sampleZImage.tail) = some sampleZImage := by
  rfl

end MagiskNative.Boot.ZImage
