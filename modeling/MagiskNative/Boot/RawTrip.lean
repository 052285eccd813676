import MagiskNative.Boot.RawKernel

/-!
# Plain images without the codecs

`unpack` with `skip_decomp` and `repack` with `skip_comp` on an image at the start of its file: every
block is written again where it was, so that the output is accepted with the same blocks.
-/

namespace MagiskNative.Boot

open Bytes Layout Header

/-- An image at the start of its file, without AVB, a ramdisk table or a split kernel, and with MTK headers
that are complete. -/
structure PlainSource (env : Env) (file : List UInt8) (img : BootImg) : Prop where
  loaded : load env file = some img
  addr : img.addr = 0
  amonet : img.flags.amonet = false
  footer : img.avbFooter = none
  table : img.raw.get .vendorRamdiskTableSize = 0
  page : img.raw.pageSize < 2 ^ 31
  header : img.raw.hdrSize ≤ img.raw.space
  zImage : img.kernel.zInfo = none
  kernelMtk : img.kernel.mtk = true → mtkHdrSize < img.kernel.dtb.getD (img.raw.get .kernelSize)
  ramdiskMtk : img.ramdisk.mtk = true → mtkHdrSize < img.raw.get .ramdiskSize

/-- The parts that are copied by one `sendfile` are not longer than it transfers. -/
structure Short (img : BootImg) : Prop where
  block : ∀ blk ∈ [Block.second, .recoveryDtbo, .dtb, .bootconfig],
    img.raw.get blk.sizeField ≤ sendfileMax
  kernelDtb : img.kernelDtb.length ≤ sendfileMax

section Mtk

variable {env : Env} {block word : List UInt8} (hword : word.length = 4)

include hword

theorem drop_patch_word {n : Nat} (hn : mtkHdrSize ≤ n) :
    (patch block 4 word).drop n = block.drop n := by
  have hhdr : mtkHdrSize = 512 := rfl
  exact drop_patch (by omega)

theorem slice_patch_word {off n : Nat} (hoff : mtkHdrSize ≤ off) :
    slice (patch block 4 word) off n = slice block off n := by
  have hhdr : mtkHdrSize = 512 := rfl
  exact slice_patch_of_disjoint (.inr (by omega))

omit hword in
theorem mtk_prefix_patch (n : Nat) : mtkMagic <+: (patch block 4 word).take n ↔ mtkMagic <+: block.take n := by
  have hstart : mtkMagic <+: patch block 4 word ↔ mtkMagic <+: block := by
    have hpatched := prefix_drop_iff mtkMagic (patch block 4 word) 0
    rw [slice_patch_of_disjoint (.inl (by decide)), ← prefix_drop_iff] at hpatched
    exact hpatched
  rw [List.prefix_take_iff, List.prefix_take_iff, hstart]

theorem unwrapMtk_patch {n : Nat} (hn : n ≤ block.length) (hmtk : checkFmtLg block n = some .mtk) :
    unwrapMtk (patch block 4 word) n = unwrapMtk block n := by
  have hpatched : checkFmtLg (patch block 4 word) n = some .mtk := by
    rw [checkFmtLg_eq_mtk_iff (by rwa [length_patch]), mtk_prefix_patch, ← checkFmtLg_eq_mtk_iff hn]
    exact hmtk
  rw [unwrapMtk, unwrapMtk, hpatched, hmtk, drop_patch_word hword le_rfl]

theorem parseRamdisk_patch (hmtk : checkFmtLg block block.length = some .mtk) :
    parseRamdisk (patch block 4 word) block.length = parseRamdisk block block.length := by
  rw [parseRamdisk, parseRamdisk, unwrapMtk_patch hword le_rfl hmtk]

theorem splitZImage_patch {part : Payload} (hstart : part.start = mtkHdrSize) :
    splitZImage (patch block 4 word) part = splitZImage block part := by
  rw [splitZImage, splitZImage, length_patch, slice_patch_word hword hstart.ge]

omit hword in
theorem not_isDtb_of_mtk {buf : List UInt8} (hmtk : mtkMagic <+: buf) {off : Nat} (hoff : off < 4) :
    ¬ IsDtb env.fdtAccepts buf off := by
  rintro ⟨hdtb, -⟩
  obtain ⟨rest, rfl⟩ := hmtk
  have hbyte : dtbMagic.head? = ((mtkMagic ++ rest).drop off).head? :=
    (head?_of_startsWith rfl hdtb).symm
  have hin : off = 0 ∨ off = 1 ∨ off = 2 ∨ off = 3 := by omega
  rcases hin with rfl | rfl | rfl | rfl <;> exact absurd hbyte (by simp [dtbMagic, mtkMagic])

omit hword in
theorem kernelEnd_le_of_isDtb (hmtk : mtkMagic <+: block) {off : Nat}
    (hdtb : IsDtb env.fdtAccepts block off) (hoff : off < 2 ^ 31) : kernelEnd env block ≤ off := by
  rw [kernelEnd, dtbOffset]
  cases hfind : findDtbOffset env.fdtAccepts block with
  | none => exact absurd hdtb ((findDtbOffset_eq_none_iff env.length_of_fdtAccepts).1 hfind off)
  | some first =>
      obtain ⟨hfirst, hleast⟩ := (findDtbOffset_eq_some_iff env.length_of_fdtAccepts).1 hfind
      have hle : first ≤ off := Nat.not_lt.1 fun hlt => hleast off hlt hdtb
      have hpos : 0 < first := by
        by_contra hzero
        exact not_isDtb_of_mtk hmtk (show first < 4 by omega) hfirst
      have hmod : first % 2 ^ 32 = first := Nat.mod_eq_of_lt (by omega)
      simp only [hmod]
      rw [if_pos (by omega)]
      exact hle

theorem dtbOffset_patch (hmtk : mtkMagic <+: block)
    (hold : ∀ off, 4 ≤ off → off < 8 → ¬ IsDtb env.fdtAccepts block off)
    (hnew : ∀ off, 4 ≤ off → off < 8 → ¬ IsDtb env.fdtAccepts (patch block 4 word) off) :
    dtbOffset env.fdtAccepts (patch block 4 word) = dtbOffset env.fdtAccepts block := by
  have hmtk' : mtkMagic <+: patch block 4 word := by
    have hiff : mtkMagic <+: (patch block 4 word).take block.length ↔
        mtkMagic <+: block.take block.length := mtk_prefix_patch block.length
    rw [List.take_length, List.take_of_length_le (by rw [length_patch])] at hiff
    exact hiff.2 hmtk
  rw [dtbOffset, dtbOffset, findDtbOffset_congr env.length_of_fdtAccepts]
  intro off
  rcases Nat.lt_or_ge off 4 with hlt | hge
  · exact iff_of_false (not_isDtb_of_mtk hmtk' hlt) (not_isDtb_of_mtk hmtk hlt)
  · rcases Nat.lt_or_ge off 8 with hlt | hge'
    · exact iff_of_false (hnew off hge hlt) (hold off hge hlt)
    · rw [IsDtb, IsDtb, drop_patch (by omega)]

/-- A new size word in its MTK header changes nothing of what is found in a kernel block, unless it makes a
device tree appear. -/
theorem parseKernel_patch (hmtk : checkFmtLg block (kernelEnd env block) = some .mtk)
    (hfits : mtkHdrSize ≤ kernelEnd env block)
    (hnew : ∀ off, 4 ≤ off → off < 8 → ¬ IsDtb env.fdtAccepts (patch block 4 word) off) :
    parseKernel env (patch block 4 word) block.length = parseKernel env block block.length ∧
      kernelEnd env (patch block 4 word) = kernelEnd env block := by
  have hle := kernelEnd_le env block
  have hhdr : mtkHdrSize = 512 := rfl
  have hmagic : mtkMagic <+: block :=
    ((checkFmtLg_eq_mtk_iff hle).1 hmtk).trans (List.take_prefix _ _)
  have hold : ∀ off, 4 ≤ off → off < 8 → ¬ IsDtb env.fdtAccepts block off := by
    intro off _ hlt hdtb
    have hoff := kernelEnd_le_of_isDtb hmagic hdtb (by omega)
    omega
  have hdtb := dtbOffset_patch hword hmagic hold hnew
  have hend : (dtbOffset env.fdtAccepts block).getD block.length = kernelEnd env block := rfl
  constructor
  · rw [parseKernel, parseKernel, length_patch, List.take_of_length_le (by rw [length_patch]),
      List.take_length, hdtb]
    simp only [hend]
    rw [unwrapMtk_patch hword hle hmtk]
    cases hunwrap : unwrapMtk block (kernelEnd env block) with
    | none => rfl
    | some part =>
        have hstart : part.start = mtkHdrSize := by
          rcases unwrapMtk_cases hunwrap with ⟨-, -, -, hfmt, hne⟩ | ⟨-, hstart, -⟩
          · rw [hmtk, Option.some.injEq] at hfmt
            exact absurd hfmt.symm hne
          · exact hstart
        simp only [Option.bind_eq_bind, Option.bind_some, splitZImage_patch hword hstart]
  · rw [kernelEnd, kernelEnd, hdtb, length_patch]

end Mtk

section

variable {env : Env} {file : List UInt8} {img : BootImg} {w : Written}

theorem packed_skip (fmt : FileFormat) (m : List UInt8) : packed env true fmt m = m := by
  simp [packed, compresses]

theorem dump_eq_none {size : Nat} {bytes : List UInt8} : dump size bytes none = none ↔ size = 0 := by
  rw [dump]
  split <;> simp_all

theorem dump_eq_some {size : Nat} {bytes m : List UInt8} :
    dump size bytes none = some m ↔ size ≠ 0 ∧ bytes = m := by
  rw [dump]
  split <;> simp_all

namespace PlainSource

variable (hsource : PlainSource env file img)

include hsource

theorem atZero : AtZero env file img := atZero_of_load hsource.loaded hsource.addr hsource.amonet

theorem pageSize_pos : 0 < img.raw.pageSize := hsource.atZero.parsed.pageSize_pos

theorem ptr_add_le (blk : Block) : img.ptr blk + img.raw.get blk.sizeField ≤ img.mem.length := by
  rw [hsource.atZero.mem_eq]
  exact hsource.atZero.parsed.ptr_add_le hsource.page blk

theorem ptr_eq (blk : Block) : img.ptr blk = img.raw.blockOff blk := by
  rw [hsource.atZero.parsed.ptr_eq hsource.page, hsource.addr, Nat.zero_add]

theorem length_block (blk : Block) : (img.block blk).length = img.raw.get blk.sizeField :=
  length_slice_of_le (hsource.ptr_add_le blk)

theorem space_le : img.addr + img.raw.space ≤ img.mem.length :=
  hsource.atZero.parsed.space_le hsource.page

theorem kernel_cases :
    img.raw.get .kernelSize = 0 ∧ img.kernel = {} ∨
      ∃ n part, KernelBlock env img n part ∧ (img.kernel.mtk = true → mtkHdrSize < n) := by
  have hkernel := hsource.atZero.parsed.kernel
  rw [← hsource.atZero.mem_eq] at hkernel
  rcases kernelBlock_of_parseKernel hkernel with hnone | ⟨n, part, hblock⟩
  · exact .inl hnone
  · refine .inr ⟨n, part, hblock, ?_⟩
    rw [hblock.n_eq]
    exact hsource.kernelMtk

theorem dtb_le : img.kernel.dtb.getD (img.raw.get .kernelSize) ≤ img.raw.get .kernelSize := by
  cases hoff : img.kernel.dtb with
  | none => exact le_rfl
  | some off => exact hsource.atZero.parsed.kernelDtb_inside off hoff

theorem gzip : ∀ z ∈ img.kernel.zInfo, z.fmt = .gzip := by
  rw [hsource.zImage]
  exact nofun

theorem parseRamdisk_eq :
    parseRamdisk (img.mem.drop (img.ptr .ramdisk)) (img.raw.get .ramdiskSize) = some img.ramdisk := by
  have hramdisk := hsource.atZero.parsed.ramdisk
  rw [← hsource.atZero.mem_eq, parseRamdisks, if_neg (fun h => h.2 hsource.table)] at hramdisk
  exact hramdisk

theorem ramdisk_eq :
    img.block .ramdisk = mtkHdrOf img img.ramdisk.mtk .ramdisk ++ img.ramdiskBytes ∧
      img.ramdiskBytes.length = img.ramdisk.size ∧
      (img.ramdisk.mtk = true → img.ramdisk.size = img.raw.get .ramdiskSize - mtkHdrSize) := by
  have hparse := hsource.parseRamdisk_eq
  have hptr := hsource.ptr_add_le .ramdisk
  have hlt := img.raw.size_lt .ramdisk
  simp only [Block.sizeField] at hptr hlt
  rw [parseRamdisk] at hparse
  split at hparse
  · rename_i hzero
    have hnone : img.ramdisk = {} := (Option.some.inj hparse).symm
    rw [block_eq_nil hzero, BootImg.ramdiskBytes, hnone]
    exact ⟨rfl, rfl, fun h => absurd h Bool.false_ne_true⟩
  · have hbytes : img.ramdiskBytes
        = slice img.mem (img.ptr .ramdisk + img.ramdisk.start) img.ramdisk.size := rfl
    rcases unwrapMtk_cases hparse with ⟨hmtk, hstart, hsize, -⟩ | ⟨hmtk, hstart, hsize, -⟩
    · rw [hbytes, hmtk, hstart, hsize, length_slice_of_le (by omega)]
      exact ⟨rfl, rfl, fun h => absurd h Bool.false_ne_true⟩
    · have hle := (hsource.ramdiskMtk hmtk).le
      rw [mtk_size hle hlt] at hsize
      rw [hbytes, hmtk, hstart, hsize, length_slice_of_le (by omega), mtkHdrOf, if_pos rfl, ← slice_add,
        Nat.add_sub_cancel' hle]
      exact ⟨rfl, rfl, fun _ => rfl⟩

/-- The files of `unpack` give every segment the bytes of the block it came from. -/
theorem bytes_segmentOf (hshort : Short img) (blk : Block) :
    (segmentOf env img (unpackedFiles env img true) true blk).bytes = img.block blk := by
  have hplain : ∀ blk ∈ [Block.second, .recoveryDtbo, .dtb, .bootconfig],
      (restoreSegment (dump (img.raw.get blk.sizeField) (img.block blk) none)).bytes
        = img.block blk := by
    intro blk hblk
    rw [dump]
    split
    · rename_i hzero
      rw [block_eq_nil hzero]
      rfl
    · rw [restoreSegment, restored, List.take_of_length_le]
      rw [hsource.length_block]
      exact hshort.block blk hblk
  cases blk with
  | kernel =>
      rcases hsource.kernel_cases with ⟨hzero, hnone⟩ | ⟨n, part, hblock, hmtk⟩
      · rw [block_eq_nil hzero]
        simp [segmentOf, kernelSegment, mtkHdrOf, kernelBody, unpackedFiles, dumpPart, dump, hnone,
          BootImg.kernelDtb, restored]
      · have hcopy := hblock.kernelCopy_raw (fun h => (hmtk h).le) hsource.gzip
        exact hblock.bytes_copy hcopy (fun h => (hmtk h).le) hshort.kernelDtb
  | ramdisk =>
      obtain ⟨hblock, hlength, -⟩ := hsource.ramdisk_eq
      have hfile : (unpackedFiles env img true).ramdisk
          = dump img.ramdisk.size img.ramdiskBytes none := rfl
      rw [hblock, segmentOf, ramdiskSegment, hfile, dump]
      split
      · rename_i heq
        split at heq
        · cases heq
        · cases heq
          rw [packed_skip]
      · rename_i heq
        split at heq
        · rename_i hzero
          rw [hzero] at hlength
          rw [List.eq_nil_of_length_eq_zero hlength, List.append_nil]
        · cases heq
  | second => exact hplain .second (by decide)
  | extra =>
      have hfile : (unpackedFiles env img true).extra
          = dump (img.raw.get .extraSize) (img.block .extra) none := rfl
      rw [segmentOf, extraSegment, hfile, dump]
      split
      · rename_i heq
        split at heq
        · cases heq
        · cases heq
          rw [packed_skip]
      · rename_i heq
        split at heq
        · rename_i hzero
          exact (block_eq_nil hzero).symm
        · cases heq
  | recoveryDtbo => exact hplain .recoveryDtbo (by decide)
  | dtb => exact hplain .dtb (by decide)
  | signature =>
      rw [segmentOf, signatureSegment]
      split
      · rfl
      · rename_i hzero
        exact (block_eq_nil (not_not.1 hzero)).symm
  | vendorRamdiskTable => exact (block_eq_nil hsource.table).symm
  | bootconfig => exact hplain .bootconfig (by decide)

theorem supplied (hshort : Short img) : Supplied env img (unpackedFiles env img true) true where
  extra := dump_eq_none.1
  recoveryDtbo := dump_eq_none.1
  ramdisk hnone := by
    obtain ⟨-, -, hsize⟩ := hsource.ramdisk_eq
    have hzero : img.ramdisk.size = 0 := dump_eq_none.1 hnone
    rw [← Bool.not_eq_true]
    intro hmtk
    have hlt := hsource.ramdiskMtk hmtk
    have heq := hsize hmtk
    omega
  field blk hne := by
    rw [hsource.bytes_segmentOf hshort] at hne
    rw [← Option.ne_none_iff_isSome]
    intro hnone
    exact hne (block_eq_nil (get_eq_zero hnone))
  short m hm := by
    have hplain : ∀ blk ∈ [Block.second, .recoveryDtbo, .dtb, .bootconfig],
        dump (img.raw.get blk.sizeField) (img.block blk) none = some m → m.length ≤ sendfileMax := by
      intro blk hblk hfile
      obtain ⟨-, rfl⟩ := dump_eq_some.1 hfile
      rw [hsource.length_block]
      exact hshort.block blk hblk
    rcases hm with hm | hm | hm | hm | hm
    · exact hplain .second (by decide) hm
    · exact hplain .recoveryDtbo (by decide) hm
    · exact hplain .dtb (by decide) hm
    · exact hplain .bootconfig (by decide) hm
    · obtain ⟨-, rfl⟩ := dump_eq_some.1 hm
      exact hshort.kernelDtb
  counted := by
    rcases hsource.kernel_cases with ⟨-, hnone⟩ | ⟨n, part, hblock, hmtk⟩
    · simp [kernelBody, unpackedFiles, dumpPart, dump, hnone]
    · have hend := hblock.part_end_of_mtk fun h => (hmtk h).le
      have hle := hblock.n_le
      have hlength := hblock.length
      rw [hblock.kernelBody_raw (fun h => (hmtk h).le) hsource.gzip]
      simp only
      rw [length_slice_of_le (by rw [List.length_drop]; omega)]

theorem exact (hshort : Short img) (blk : Block) :
    Exact env img (unpackedFiles env img true) true blk := by
  apply (hsource.supplied hshort).exact hsource.atZero.parsed hsource.page hsource.table
  intro blk
  rw [hsource.bytes_segmentOf hshort, hsource.length_block]
  exact img.raw.size_lt blk

variable (hshort : Short img) (hwrote : Wrote env img (unpackedFiles env img true) true w)

include hshort hwrote

theorem get_final (blk : Block) :
    (finalHdr env img (unpackedFiles env img true) true w).get blk.sizeField
      = img.raw.get blk.sizeField := by
  rw [finalHdr_get hwrote, (hsource.exact hshort blk).1, hsource.bytes_segmentOf hshort,
    hsource.length_block]

theorem sizes_final_eq :
    (finalHdr env img (unpackedFiles env img true) true w).sizes = img.raw.sizes := by
  rw [Header.sizes, Header.sizes]
  apply List.map_congr_left
  intro blk _
  exact hsource.get_final hshort hwrote blk

theorem blockOff_final (blk : Block) :
    (finalHdr env img (unpackedFiles env img true) true w).blockOff blk = img.raw.blockOff blk := by
  rw [Header.blockOff, Header.blockOff, hsource.sizes_final_eq hshort hwrote, finalHdr_space hwrote,
    finalHdr_pageSize hwrote]

theorem stop_final :
    (finalHdr env img (unpackedFiles env img true) true w).stop = img.raw.stop := by
  rw [Header.stop, Header.stop, hsource.sizes_final_eq hshort hwrote, finalHdr_space hwrote,
    finalHdr_pageSize hwrote]

omit hshort in
theorem header_eq : w.header = 0 := hsource.atZero.header_eq hwrote

theorem length_fd_eq : w.out.fd.length = img.raw.stop := by
  rw [length_fd hwrote hsource.pageSize_pos (hsource.exact hshort) hsource.space_le,
    hsource.header_eq hwrote, hsource.stop_final hshort hwrote, Nat.zero_add]

theorem slice_data (blk : Block) :
    slice w.data (img.raw.blockOff blk) (img.raw.get blk.sizeField) = img.block blk := by
  have hslice := slice_data_block hwrote hsource.pageSize_pos (hsource.exact hshort) hsource.space_le blk
  rwa [hsource.header_eq hwrote, Nat.zero_add, hsource.blockOff_final hshort hwrote,
    hsource.get_final hshort hwrote, hsource.bytes_segmentOf hshort] at hslice

theorem not_aliases : ¬ aliases (finalHdr env img (unpackedFiles env img true) true w) := by
  rintro ⟨hkind, hsize⟩
  rw [finalHdr_kind hwrote] at hkind
  have hget : (finalHdr env img (unpackedFiles env img true) true w).get .extraSize
      = img.raw.get .extraSize := hsource.get_final hshort hwrote .extra
  rw [hget] at hsize
  exact extraSize_of_detect (detect_of_load hsource.loaded hsource.amonet) hkind hsize

theorem place_eq (blk : Block) : w.place blk = img.raw.blockOff blk % 2 ^ 32 := by
  have hplace : w.place blk = (w.header
      + (finalHdr env img (unpackedFiles env img true) true w).blockOff blk) % 2 ^ 32 :=
    place_segmented hwrote.segmented hsource.pageSize_pos (fun blk => (hsource.exact hshort blk).2)
      hsource.space_le (fun blk _ => (hsource.exact hshort blk).1) blk
  rwa [hsource.header_eq hwrote, Nat.zero_add, hsource.blockOff_final hshort hwrote] at hplace

omit hshort hwrote in
theorem fst_patched_eq :
    (patched env img (unpackedFiles env img true) true w).1 = patchMtks img w := by
  rw [fst_patched, patchStub, hsource.zImage]

omit hshort in
theorem get_out_ramdisk (hmtk : img.ramdisk.mtk = true) :
    w.out.hdr.get .ramdiskSize = img.raw.get .ramdiskSize - mtkHdrSize := by
  obtain ⟨-, hlength, hsize⟩ := hsource.ramdisk_eq
  have heq := hsize hmtk
  have hlt := hsource.ramdiskMtk hmtk
  have hraw := img.raw.size_lt .ramdisk
  simp only [Block.sizeField] at hraw
  have hfile : (unpackedFiles env img true).ramdisk = some img.ramdiskBytes := by
    apply dump_eq_some.2
    exact ⟨by omega, rfl⟩
  have hfield : (img.raw.kind.offset .ramdiskSize).isSome := by
    rw [← Option.ne_none_iff_isSome]
    intro hnone
    rw [get_eq_zero hnone] at hlt
    exact absurd hlt (Nat.not_lt_zero _)
  have hkind : (newHdr env img (unpackedFiles env img true)).kind = img.raw.kind := sameOutside_newHdr.1
  have hmem : (.ramdisk, ramdiskSegment env img (unpackedFiles env img true) true)
      ∈ plainSegments env img (unpackedFiles env img true) true := by simp [plainSegments]
  have hget := hwrote.run.size_of_mem _ hmem
  simp only [newSize, ramdiskSegment, hfile, packed_skip, Block.sizeField, hkind, hfield, if_true]
    at hget
  rw [hget, hlength, heq]
  exact Nat.mod_eq_of_lt (by omega)

omit hshort in
theorem place_kernel_le (hmtk : img.kernel.mtk = true) :
    w.place .kernel + 8 ≤ img.raw.blockOff .ramdisk := by
  have hle := kernel_le_blockOff hsource.pageSize_pos
  have hlt := hsource.kernelMtk hmtk
  have hhdr : mtkHdrSize = 512 := rfl
  have hend := hsource.dtb_le
  rw [hwrote.place_kernel_eq hsource.space_le hsource.pageSize_pos hsource.page,
    hsource.header_eq hwrote]
  omega

variable (hplace : img.ramdisk.mtk = true → img.raw.blockOff .ramdisk < 2 ^ 32)

include hplace

theorem place_ramdisk_eq (hmtk : img.ramdisk.mtk = true) :
    w.place .ramdisk = img.raw.blockOff .ramdisk := by
  rw [hsource.place_eq hshort hwrote, Nat.mod_eq_of_lt (hplace hmtk)]

theorem slice_ramdisk :
    slice (patchMtks img w) (img.raw.blockOff .ramdisk) (img.raw.get .ramdiskSize)
      = resized img .ramdisk := by
  have hslice := hsource.slice_data hshort hwrote .ramdisk
  simp only [Block.sizeField] at hslice
  rw [patchMtks, patchMtk, resized, mtkOf]
  split
  · rename_i hmtk
    have hlt := hsource.ramdiskMtk hmtk
    have hhdr : mtkHdrSize = 512 := rfl
    have hword : (patchMtk w img.kernel.mtk .kernel (w.data, w.out.hdr)).2.get .ramdiskSize
        = img.raw.get .ramdiskSize - mtkHdrSize := by
      rw [snd_patchMtk, ← hsource.get_out_ramdisk hwrote hmtk]
      exact get_setSize_ne w.out.hdr (show Block.ramdisk ≠ .kernel by decide) _
    simp only [Block.sizeField, hword, hsource.place_ramdisk_eq hshort hwrote hplace hmtk]
    rw [slice_patch_inside (by rw [length_leBytes]; omega),
      slice_patchMtk _ (fun hk => .inr (hsource.place_kernel_le hwrote hk)), hslice]
  · rw [slice_patchMtk _ (fun hk => .inr (hsource.place_kernel_le hwrote hk)), hslice]

/-- In the output every block is that of the source, with the right size word in an MTK header. -/
theorem finalBlock_eq (blk : Block) :
    finalBlock env img (unpackedFiles env img true) true w blk = resized img blk := by
  have hhdr : mtkHdrSize = 512 := rfl
  rw [finalBlock, hsource.blockOff_final hshort hwrote, hsource.get_final hshort hwrote]
  by_cases hkernel : blk = .kernel
  · subst hkernel
    rcases hsource.kernel_cases with ⟨hzero, hnone⟩ | ⟨n, part, hblock, hmtk⟩
    · rw [resized, mtkOf, hnone, if_neg Bool.false_ne_true, block_eq_nil hzero, Block.sizeField, hzero,
        slice_zero]
    · have hcopy := hblock.kernelCopy_raw (fun h => (hmtk h).le) hsource.gzip
      have hslice := hblock.slice_patched_kernel hcopy hwrote (fun h => (hmtk h).le)
        hshort.kernelDtb hsource.space_le hsource.pageSize_pos hsource.page (fun hr => by
          have hle := kernel_le_blockOff hsource.pageSize_pos
          rw [hsource.place_ramdisk_eq hshort hwrote hplace hr, hsource.header_eq hwrote]
          omega)
      rw [hsource.header_eq hwrote, Nat.zero_add] at hslice
      exact hslice
  · rw [hsource.fst_patched_eq]
    by_cases hramdisk : blk = .ramdisk
    · subst hramdisk
      exact hsource.slice_ramdisk hshort hwrote hplace
    · have hle := ramdisk_le_blockOff hsource.pageSize_pos hkernel hramdisk
      have hfirst := kernel_le_blockOff hsource.pageSize_pos
      have hmtk : mtkOf img blk = false := by
        cases blk with
        | kernel => exact absurd rfl hkernel
        | ramdisk => exact absurd rfl hramdisk
        | _ => rfl
      rw [resized, hmtk, if_neg Bool.false_ne_true, slice_patchMtks, hsource.slice_data hshort hwrote]
      · intro hk
        have hplaceKernel := hsource.place_kernel_le hwrote hk
        omega
      · intro hr
        have hlt := hsource.ramdiskMtk hr
        rw [hsource.place_ramdisk_eq hshort hwrote hplace hr]
        omega

omit hshort hwrote hplace

theorem length_resized (blk : Block) : (resized img blk).length = img.raw.get blk.sizeField := by
  rw [resized]
  split
  · rw [length_patch, hsource.length_block]
  · exact hsource.length_block blk

theorem parseKernel_resized (hnew : img.kernel.mtk = true → ∀ off, 4 ≤ off → off < 8 →
      ¬ IsDtb env.fdtAccepts (resized img .kernel) off) :
    parseKernel env (resized img .kernel) (resized img .kernel).length = some img.kernel ∧
      MtkFits (resized img .kernel) (kernelEnd env (resized img .kernel)) := by
  rcases hsource.kernel_cases with ⟨hzero, hnone⟩ | ⟨n, part, hblock, hmtk⟩
  · have hnil : resized img .kernel = [] := by
      rw [resized, mtkOf, hnone, if_neg Bool.false_ne_true, block_eq_nil hzero]
    rw [hnil, hnone]
    exact ⟨rfl, mtkFits_nil _ (kernelEnd_le _ _)⟩
  · have hend := hblock.kernelEnd_eq
    have hlength := hblock.length_block
    have hin : img.raw.get .kernelSize ≤ (img.mem.drop (img.ptr .kernel)).length := by
      have hle := hblock.length
      rw [List.length_drop]
      omega
    have htake : img.block .kernel
        = (img.mem.drop (img.ptr .kernel)).take (img.raw.get .kernelSize) := rfl
    have hfmt : checkFmtLg (img.block .kernel) n = some .mtk ↔ img.kernel.mtk = true := by
      rw [htake, checkFmtLg_take_of_le hblock.n_le hin, hblock.checkFmtLg_eq_mtk_iff]
    have hfits : MtkFits (img.block .kernel) (kernelEnd env (img.block .kernel)) := by
      rw [hend]
      exact fun h => (hmtk (hfmt.1 h)).le
    have hparse : parseKernel env (img.block .kernel) (img.block .kernel).length = some img.kernel := by
      rw [hlength, htake, parseKernel_take hin (img.raw.size_lt .kernel) hfits]
      have hkernel := hsource.atZero.parsed.kernel
      rwa [← hsource.atZero.mem_eq] at hkernel
    rw [resized, mtkOf]
    split
    · rename_i hk
      rw [resized, mtkOf, if_pos hk] at hnew
      obtain ⟨hsame, hsameEnd⟩ := parseKernel_patch (length_leBytes _ _)
        (by rw [hend]; exact hfmt.2 hk) (by rw [hend]; exact (hmtk hk).le) (hnew hk)
      rw [hsameEnd, length_patch, hsame]
      refine ⟨hparse, fun _ => ?_⟩
      rw [hend]
      exact (hmtk hk).le
    · exact ⟨hparse, hfits⟩

theorem parseRamdisk_resized :
    parseRamdisk (resized img .ramdisk) (resized img .ramdisk).length = some img.ramdisk ∧
      MtkFits (resized img .ramdisk) (resized img .ramdisk).length := by
  have hin : img.raw.get .ramdiskSize ≤ (img.mem.drop (img.ptr .ramdisk)).length := by
    have hle := hsource.ptr_add_le .ramdisk
    simp only [Block.sizeField] at hle
    rw [List.length_drop]
    omega
  have hlength : (img.block .ramdisk).length = img.raw.get .ramdiskSize :=
    hsource.length_block .ramdisk
  have htake : img.block .ramdisk
      = (img.mem.drop (img.ptr .ramdisk)).take (img.raw.get .ramdiskSize) := rfl
  have hold := hsource.parseRamdisk_eq
  by_cases hzero : img.raw.get .ramdiskSize = 0
  · rw [parseRamdisk, if_pos hzero] at hold
    have hnone : img.ramdisk = {} := (Option.some.inj hold).symm
    have hnil : resized img .ramdisk = [] := by
      rw [resized, mtkOf, hnone, if_neg Bool.false_ne_true, block_eq_nil hzero]
    rw [hnil, hnone]
    exact ⟨rfl, mtkFits_nil _ le_rfl⟩
  · rw [parseRamdisk, if_neg hzero] at hold
    have hfmt : checkFmtLg (img.block .ramdisk) (img.raw.get .ramdiskSize) = some .mtk ↔
        img.ramdisk.mtk = true := by
      rw [htake, checkFmtLg_take_of_le le_rfl hin]
      exact checkFmtLg_eq_mtk_iff_of_unwrapMtk hold
    have hfits : MtkFits (img.block .ramdisk) (img.raw.get .ramdiskSize) :=
      fun h => (hsource.ramdiskMtk (hfmt.1 h)).le
    have hparse : parseRamdisk (img.block .ramdisk) (img.raw.get .ramdiskSize) = some img.ramdisk := by
      rw [htake, parseRamdisk_take hin (img.raw.size_lt .ramdisk) hfits, hsource.parseRamdisk_eq]
    rw [hsource.length_resized, Block.sizeField, resized, mtkOf]
    split
    · rename_i hmtk
      rw [← hlength] at hfmt hparse ⊢
      rw [parseRamdisk_patch (length_leBytes _ _) (hfmt.2 hmtk)]
      refine ⟨hparse, fun _ => ?_⟩
      rw [hlength]
      exact (hsource.ramdiskMtk hmtk).le
    · exact ⟨hparse, hfits⟩

theorem parseExtra_resized :
    parseExtra (resized img .extra) (resized img .extra).length = some img.eFmt := by
  have hin : img.raw.get .extraSize ≤ (img.mem.drop (img.ptr .extra)).length := by
    have hle := hsource.ptr_add_le .extra
    simp only [Block.sizeField] at hle
    rw [List.length_drop]
    omega
  have hextra := hsource.atZero.parsed.extra
  rw [← hsource.atZero.mem_eq] at hextra
  have hsame : resized img .extra = img.block .extra := if_neg Bool.false_ne_true
  rw [hsource.length_resized, hsame]
  exact (parseExtra_take hin).trans hextra

end PlainSource

end

end MagiskNative.Boot
