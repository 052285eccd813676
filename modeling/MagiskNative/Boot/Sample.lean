import MagiskNative.Boot.Reload

/-!
# Small images

v1 images with pages of 4096 bytes. Their headers are built from parts, so that what a reader finds in
them follows from the lengths of the parts.
-/

namespace MagiskNative.Boot

open Bytes Layout

theorem slice_zeros {k off n : Nat} (hle : off + n ≤ k) : slice (zeros k) off n = zeros n := by
  rw [slice, zeros, List.drop_replicate, List.take_replicate, Nat.min_eq_left (by omega), zeros]

theorem plain_of_zeros {mem : List UInt8} {k : Kind} (hmagic : bootMagic <+: mem)
    (hpage : word mem 36 < 0x02000000)
    (hslice : ∀ {off n : Nat}, 44 ≤ off → off + n ≤ 1632 → slice mem off n = zeros n)
    (hkind : k = aospKind mem 0) : Plain mem 0 .aosp k := by
  have hzeros : ∀ magic off, magic ≠ zeros magic.length → 44 ≤ off → off + magic.length ≤ 1632 →
      ¬ magic <+: mem.drop off := by
    intro magic off hne hoff hle hpre
    rw [prefix_drop_iff, hslice hoff hle] at hpre
    exact hne hpre.symm
  refine .inr (.inr ⟨by decide, ?_, ?_, ?_, ?_, hmagic, hkind⟩)
  · rw [isPxa, Nat.zero_add, decide_eq_true_eq]
    omega
  · rw [isAmonet, Bool.and_eq_true, decide_eq_true_eq, Nat.zero_add]
    rintro ⟨-, hpre⟩
    exact hzeros bootMagic amonetMicroloaderSz (by decide) (by decide) (by decide) hpre
  · rw [isNookhd, List.any_eq_true]
    rintro ⟨magic, hmem, hpre⟩
    rw [decide_eq_true_eq, Nat.zero_add] at hpre
    have hall : ∀ magic ∈ nookhdMagics, magic ≠ zeros magic.length ∧ 64 + magic.length ≤ 1632 := by
      decide
    exact hzeros magic 64 (hall magic hmem).1 (by decide) (hall magic hmem).2 hpre
  · rw [isAcclaim, decide_eq_true_eq, Nat.zero_add]
    exact hzeros acclaimMagic 48 (by decide) (by decide) (by decide)

def v1Parts (kernel ramdisk second recoveryDtbo : Nat) : List (List UInt8) :=
  [bootMagic, leBytes 4 kernel, zeros 4, leBytes 4 ramdisk, zeros 4, leBytes 4 second, zeros 8,
    leBytes 4 4096, leBytes 4 1, zeros 1588, leBytes 4 recoveryDtbo, zeros 12]

theorem length_bootMagic : bootMagic.length = 8 := by decide

theorem map_length_v1Parts (kernel ramdisk second recoveryDtbo : Nat) :
    (v1Parts kernel ramdisk second recoveryDtbo).map List.length
      = [8, 4, 4, 4, 4, 4, 8, 4, 4, 1588, 4, 12] := by
  simp only [v1Parts, List.map_cons, List.map_nil, length_leBytes, length_zeros, length_bootMagic]

def v1Header (kernel ramdisk second recoveryDtbo : Nat) : Header where
  kind := .v1
  raw := (v1Parts kernel ramdisk second recoveryDtbo).flatten
  length_raw := by
    rw [List.length_flatten, map_length_v1Parts]
    rfl

section V1Header

variable (kernel ramdisk second recoveryDtbo : Nat)

theorem slice_v1Header (i : Nat) {off n : Nat} {part : List UInt8}
    (hpart : (v1Parts kernel ramdisk second recoveryDtbo)[i]? = some part)
    (hoff : ([8, 4, 4, 4, 4, 4, 8, 4, 4, 1588, 4, 12].take i).sum = off) (hn : part.length = n) :
    slice (v1Header kernel ramdisk second recoveryDtbo).raw off n = part := by
  apply slice_flatten_get hpart _ hn
  rw [map_length_v1Parts, hoff]

theorem slice_v1Header_zeros {off n : Nat} (hoff : 44 ≤ off) (hle : off + n ≤ 1632) :
    slice (v1Header kernel ramdisk second recoveryDtbo).raw off n = zeros n := by
  have hpart : slice (v1Header kernel ramdisk second recoveryDtbo).raw 44 1588 = zeros 1588 :=
    slice_v1Header kernel ramdisk second recoveryDtbo 9 rfl rfl (length_zeros _)
  have hslice : slice (v1Header kernel ramdisk second recoveryDtbo).raw (44 + (off - 44)) n
      = slice (zeros 1588) (off - 44) n := by
    rw [← hpart, slice_slice (by omega)]
  rwa [Nat.add_sub_cancel' hoff, slice_zeros (by omega)] at hslice

@[simp] theorem kind_v1Header : (v1Header kernel ramdisk second recoveryDtbo).kind = .v1 := rfl

theorem magic_v1Header : bootMagic <+: (v1Header kernel ramdisk second recoveryDtbo).raw := by
  rw [← List.drop_zero (l := Header.raw _), prefix_drop_iff, length_bootMagic]
  exact slice_v1Header kernel ramdisk second recoveryDtbo 0 rfl rfl length_bootMagic

theorem word_v1Header_page : word (v1Header kernel ramdisk second recoveryDtbo).raw 36 = 4096 := by
  have hpart : slice (v1Header kernel ramdisk second recoveryDtbo).raw 36 4 = leBytes 4 4096 :=
    slice_v1Header kernel ramdisk second recoveryDtbo 7 rfl rfl (length_leBytes _ _)
  rw [word, hpart]
  rfl

theorem word_v1Header_version : word (v1Header kernel ramdisk second recoveryDtbo).raw 40 = 1 := by
  have hpart : slice (v1Header kernel ramdisk second recoveryDtbo).raw 40 4 = leBytes 4 1 :=
    slice_v1Header kernel ramdisk second recoveryDtbo 8 rfl rfl (length_leBytes _ _)
  rw [word, hpart]
  rfl

theorem pageSize_v1Header : (v1Header kernel ramdisk second recoveryDtbo).pageSize = 4096 :=
  word_v1Header_page kernel ramdisk second recoveryDtbo

theorem space_v1Header : (v1Header kernel ramdisk second recoveryDtbo).space = 4096 := by
  rw [Header.space, pageSize_v1Header]
  rfl

def v1Size : Block → Nat
  | .kernel => kernel
  | .ramdisk => ramdisk
  | .second => second
  | .recoveryDtbo => recoveryDtbo
  | _ => 0

theorem get_v1Header (blk : Block) :
    (v1Header kernel ramdisk second recoveryDtbo).get blk.sizeField
      = v1Size kernel ramdisk second recoveryDtbo blk % 2 ^ 32 := by
  have hword : ∀ i off n : Nat, (v1Parts kernel ramdisk second recoveryDtbo)[i]?
      = some (leBytes 4 n) → ([8, 4, 4, 4, 4, 4, 8, 4, 4, 1588, 4, 12].take i).sum = off →
      ofLe (slice (v1Header kernel ramdisk second recoveryDtbo).raw off 4) = n % 2 ^ 32 := by
    intro i off n hpart hoff
    rw [slice_v1Header kernel ramdisk second recoveryDtbo i hpart hoff (length_leBytes _ _), ofLe_leBytes]
    rfl
  cases blk with
  | kernel => exact hword 1 8 kernel rfl rfl
  | ramdisk => exact hword 3 16 ramdisk rfl rfl
  | second => exact hword 5 24 second rfl rfl
  | recoveryDtbo => exact hword 10 1632 recoveryDtbo rfl rfl
  | _ => rfl

theorem plain_v1Header : Plain (v1Header kernel ramdisk second recoveryDtbo).raw 0 .aosp .v1 := by
  apply plain_of_zeros (magic_v1Header _ _ _ _)
  · rw [word_v1Header_page]
    decide
  · exact slice_v1Header_zeros _ _ _ _
  · simp only [aospKind, Nat.zero_add, word_v1Header_version]

theorem hasSha256Id_v1Header : hasSha256Id (v1Header kernel ramdisk second recoveryDtbo) = false := by
  have hslice : slice (v1Header kernel ramdisk second recoveryDtbo).raw 600 8 = zeros 8 :=
    slice_v1Header_zeros _ _ _ _ (by decide) (by decide)
  change (slice (v1Header kernel ramdisk second recoveryDtbo).raw 600 8).any (· ≠ 0) = false
  rw [hslice]
  decide

theorem sha256Flags_v1Header (addr : Nat) (flags : Flags) :
    sha256Flags ⟨v1Header kernel ramdisk second recoveryDtbo, addr, flags⟩ = flags := by
  rw [sha256Flags, hasSha256Id_v1Header, Bool.or_false]

end V1Header

def single (blk : Block) (bytes : List UInt8) (b : Block) : List UInt8 := if b = blk then bytes else []

def v1Of (blocks : Block → List UInt8) : Header :=
  v1Header (blocks .kernel).length (blocks .ramdisk).length (blocks .second).length
    (blocks .recoveryDtbo).length

structure V1Blocks (blocks : Block → List UInt8) : Prop where
  nil : ∀ blk ∈ [Block.extra, .dtb, .signature, .vendorRamdiskTable, .bootconfig], blocks blk = []
  lt : ∀ blk, (blocks blk).length < 2 ^ 32

section V1Blocks

variable {blocks : Block → List UInt8} (hblocks : V1Blocks blocks)

include hblocks

theorem get_v1Of (blk : Block) : (v1Of blocks).get blk.sizeField = (blocks blk).length := by
  have hlt := hblocks.lt blk
  rw [v1Of, get_v1Header]
  cases blk with
  | kernel | ramdisk | second | recoveryDtbo => exact Nat.mod_eq_of_lt hlt
  | extra | dtb | signature | vendorRamdiskTable | bootconfig =>
      exact (congrArg List.length (hblocks.nil _ (by decide))).symm

theorem length_assemble_v1 : (assemble (v1Of blocks) blocks).length = (v1Of blocks).stop := by
  apply length_assemble
  · rw [v1Of, space_v1Header, Header.hdrSize, kind_v1Header]
    decide
  · rw [v1Of, pageSize_v1Header]
    decide
  · exact fun blk => (get_v1Of hblocks blk).symm

variable {env : Env} (hhost : env.hostPage ∣ 4096) {kernel : KernelPart} {ramdisk : Payload}
  (hparts : PartsOf env blocks kernel ramdisk .unknown)

include hhost hparts

theorem load_v1_append {rest : List UInt8} {tail : TailInfo} (hrest : env.hostPage ∣ rest.length)
    (htail : parseTail env (assemble (v1Of blocks) blocks ++ rest) 0 (v1Of blocks).stop {}
      = some tail) :
    load env (assemble (v1Of blocks) blocks ++ rest)
      = some ((assembled (v1Of blocks) blocks kernel ramdisk .unknown).followedBy rest tail) := by
  have hpage : (v1Of blocks).pageSize = 4096 := pageSize_v1Header _ _ _ _
  have hspace : (v1Of blocks).space = 4096 := space_v1Header _ _ _ _
  have hflags : sha256Flags ⟨v1Of blocks, 0, {}⟩ = {} := sha256Flags_v1Header _ _ _ _ _ _
  apply load_assemble_append
  · exact magic_v1Header _ _ _ _
  · exact plain_v1Header _ _ _ _
  · rw [hspace, Header.hdrSize, v1Of, kind_v1Header]
    decide
  · rw [hpage]
    decide
  · rw [hpage]
    decide
  · rw [hpage]
    exact hhost
  · exact fun blk => (get_v1Of hblocks blk).symm
  · exact Header.get_eq_zero rfl
  · exact hparts
  · exact hrest
  · rw [hflags]
    exact htail

theorem load_v1 :
    load env (assemble (v1Of blocks) blocks)
      = some (assembled (v1Of blocks) blocks kernel ramdisk .unknown) := by
  have htail : parseTail env (assemble (v1Of blocks) blocks ++ []) 0 (v1Of blocks).stop {}
      = some { flags := {} } := by
    apply parseTail_nil
    rw [List.append_nil, Nat.zero_add, length_assemble_v1 hblocks]
  have hload := load_v1_append hblocks hhost hparts (dvd_zero _) htail
  have hflags : sha256Flags ⟨v1Of blocks, 0, {}⟩ = {} := sha256Flags_v1Header _ _ _ _ _ _
  rw [List.append_nil] at hload
  rw [hload, BootImg.followedBy, assembled, hflags, List.append_nil]

end V1Blocks

theorem dtbOffset_sampleEnv (buf : List UInt8) : dtbOffset sampleEnv.fdtAccepts buf = none := by
  have hnone : findDtbOffset sampleEnv.fdtAccepts buf = none := by
    rw [findDtbOffset_eq_none_iff sampleEnv.length_of_fdtAccepts]
    exact fun _ hdtb => Bool.false_ne_true hdtb.2
  rw [dtbOffset, hnone]

theorem mtkFits_nil (n : Nat) (hn : n ≤ 0) : MtkFits [] n := by
  obtain rfl : n = 0 := by omega
  exact fun h => absurd h (by decide)

section Single

theorem v1Blocks_of_not_mem {blk : Block} {bytes : List UInt8}
    (hblk : blk ∉ [Block.extra, .dtb, .signature, .vendorRamdiskTable, .bootconfig])
    (hlt : bytes.length < 2 ^ 32) : V1Blocks (single blk bytes) where
  nil b hb := if_neg (by rintro rfl; exact hblk hb)
  lt b := by
    rw [single]
    split
    · exact hlt
    · decide

variable {blk : Block} {bytes : List UInt8} (hblk : blk = .second ∨ blk = .recoveryDtbo)
  (hlt : bytes.length < 2 ^ 32)

include hblk hlt

theorem v1Blocks_single : V1Blocks (single blk bytes) := by
  apply v1Blocks_of_not_mem _ hlt
  rcases hblk with rfl | rfl <;> decide

omit hlt in
theorem partsOf_single : PartsOf sampleEnv (single blk bytes) {} {} .unknown := by
  rcases hblk with rfl | rfl <;>
    exact ⟨rfl, mtkFits_nil _ (kernelEnd_le _ _), rfl, mtkFits_nil _ le_rfl, rfl⟩

theorem load_single_append {rest : List UInt8} {tail : TailInfo} (hrest : 4096 ∣ rest.length)
    (htail : parseTail sampleEnv (assemble (v1Of (single blk bytes)) (single blk bytes) ++ rest) 0
      (v1Of (single blk bytes)).stop {} = some tail) :
    load sampleEnv (assemble (v1Of (single blk bytes)) (single blk bytes) ++ rest)
      = some ((assembled (v1Of (single blk bytes)) (single blk bytes) {} {} .unknown).followedBy rest
          tail) :=
  load_v1_append (v1Blocks_single hblk hlt) dvd_rfl (partsOf_single hblk) hrest htail

theorem load_single :
    load sampleEnv (assemble (v1Of (single blk bytes)) (single blk bytes))
      = some (assembled (v1Of (single blk bytes)) (single blk bytes) {} {} .unknown) :=
  load_v1 (v1Blocks_single hblk hlt) dvd_rfl (partsOf_single hblk)

end Single

end MagiskNative.Boot
