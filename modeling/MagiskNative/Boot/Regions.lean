import MagiskNative.Boot.Parts
import MagiskNative.Boot.Avb

/-!
# Regions of an accepted image

`parse_image` checks the ends of the blocks against the mapping and nothing else: the sizes behind an
MTK header, the vendor ramdisk table and its entries, and the vbmeta header are taken as they come.
-/

namespace MagiskNative.Boot

open Bytes Layout

section

variable {env : Env} {img : BootImg}

/-- The blocks are inside the mapping, and what is kept of kernel and ramdisk inside their blocks. -/
structure BlocksInside (img : BootImg) : Prop where
  block : ∀ blk, img.ptr blk + img.raw.get blk.sizeField ≤ img.mem.length
  kernel : img.kernel.start + img.kernel.size ≤ img.raw.get .kernelSize
  zImage : ∀ z ∈ img.kernel.zInfo,
    img.kernel.start + z.piggy.length + z.tail.length ≤ img.raw.get .kernelSize
  kernelDtb : ∀ off ∈ img.kernel.dtb, off ≤ img.raw.get .kernelSize
  ramdisk : img.ramdisk.start + img.ramdisk.size ≤ img.raw.get .ramdiskSize

/-- The entries of the vendor ramdisk table that are looked at are inside the table, and their ramdisks
inside the ramdisk block. -/
def TableInside (img : BootImg) : Prop :=
  img.raw.get .ramdiskSize ≠ 0 → img.raw.get .vendorRamdiskTableSize ≠ 0 →
    tableEntrySize * img.raw.get .vendorRamdiskTableEntryNum ≤ img.raw.get .vendorRamdiskTableSize ∧
      ∀ entries, img.vendorRamdiskTbl = some entries →
        ∀ e ∈ entries, e.ramdiskOffset + e.ramdiskSize ≤ img.raw.get .ramdiskSize

def vbmetaHdrSize : Nat := 256

def VbmetaInside (img : BootImg) : Prop := ∀ vbmeta ∈ img.vbmeta, vbmeta + vbmetaHdrSize ≤ img.mapSize

structure RegionsInside (img : BootImg) : Prop where
  blocks : img.raw.pageSize < 2 ^ 31 → BlocksInside img
  table : TableInside img
  vbmeta : VbmetaInside img

/-- The vbmeta header that the last bytes of `file` name for an image at `addr`. -/
def namedVbmeta (file : List UInt8) (addr : Nat) : Nat :=
  (addr + bigEndian file (file.length - avbFooterSize + 20) 8) % 2 ^ 64

/-- What `parse_image` does not look at, as it stands in the file: an MTK header needs its 512 bytes, the
sizes and offsets in the vendor ramdisk table must keep to their blocks, and a vbmeta header that the end
of the mapping names must have room in the file. The header gives the blocks the offsets `offs`, and the
tail starts at `off`. -/
structure FieldsFit (env : Env) (file : List UInt8) (p : ParsedHdr) (offs : List Nat) (off : Nat) : Prop where
  kernel : p.hdr.pageSize < 2 ^ 31 → p.hdr.get .kernelSize ≠ 0 →
    MtkFits ((env.map file).drop (blockPtr p.addr offs .kernel))
      (kernelEnd env (slice (env.map file) (blockPtr p.addr offs .kernel) (p.hdr.get .kernelSize)))
  ramdisk : p.hdr.pageSize < 2 ^ 31 → p.hdr.get .ramdiskSize ≠ 0 → p.hdr.get .vendorRamdiskTableSize = 0 →
    MtkFits ((env.map file).drop (blockPtr p.addr offs .ramdisk)) (p.hdr.get .ramdiskSize)
  table : p.hdr.get .ramdiskSize ≠ 0 → p.hdr.get .vendorRamdiskTableSize ≠ 0 →
    tableEntrySize * p.hdr.get .vendorRamdiskTableEntryNum ≤ p.hdr.get .vendorRamdiskTableSize
  entry : p.hdr.get .ramdiskSize ≠ 0 → p.hdr.get .vendorRamdiskTableSize ≠ 0 →
    ∀ i < p.hdr.get .vendorRamdiskTableEntryNum,
      word (env.map file) (blockPtr p.addr offs .vendorRamdiskTable + tableEntrySize * i + 4)
          + word (env.map file) (blockPtr p.addr offs .vendorRamdiskTable + tableEntrySize * i)
        ≤ p.hdr.get .ramdiskSize
  vbmeta : p.addr + off ≠ (env.map file).length →
    slice (env.map file) ((env.map file).length - avbFooterSize) 4 = avbFooterMagic →
    slice (env.map file) (namedVbmeta (env.map file) p.addr) 4 = avbMagic →
      namedVbmeta (env.map file) p.addr + vbmetaHdrSize ≤ file.length

def KernelInside (img : BootImg) : Prop :=
  img.kernel.start + img.kernel.size ≤ img.raw.get .kernelSize ∧
    ∀ z ∈ img.kernel.zInfo, img.kernel.start + z.piggy.length + z.tail.length ≤ img.raw.get .kernelSize

namespace KernelBlock

variable {n : Nat} {part : Payload} (hblock : KernelBlock env img n part)

include hblock

theorem part_end_of_mtk (hmtk : img.kernel.mtk = true → mtkHdrSize ≤ n) :
    part.start + part.size = n := by
  have hlt := hblock.n_lt
  rcases hblock.mtk_cases with ⟨-, hstart, hsize⟩ | ⟨h, hstart, hsize⟩
  · rw [hstart, hsize, Nat.zero_add]
  · rw [hstart, hsize, mtk_size (hmtk h) hlt, Nat.add_sub_cancel' (hmtk h)]

theorem kernel_cases :
    img.kernel.zInfo = none ∧ img.kernel.start = part.start ∧ img.kernel.size = part.size ∨
      ∃ z, img.kernel.zInfo = some z ∧ img.kernel.size ≤ z.piggy.length ∧
        img.kernel.start + z.piggy.length + z.tail.length = part.start + part.size := by
  rcases splitZImage_cases hblock.split with hpart | ⟨z, hle, hparse, hpart⟩
  · obtain ⟨hpayload, hnone⟩ := Prod.mk.inj hpart
    exact .inl ⟨hnone, congrArg Payload.start hpayload, congrArg Payload.size hpayload⟩
  · obtain ⟨hpayload, hsome⟩ := Prod.mk.inj hpart
    have hstart : img.kernel.start = part.start + z.head.length := congrArg Payload.start hpayload
    have hsize : img.kernel.size = if z.fmt ≠ .gzip then z.piggy.length - 4 else z.piggy.length :=
      congrArg Payload.size hpayload
    have hlength := congrArg List.length (ZImage.parse_parts hparse).1
    rw [length_slice_of_le hle] at hlength
    simp only [List.length_append] at hlength
    refine .inr ⟨z, hsome, ?_, by omega⟩
    rw [hsize]
    split <;> omega

theorem inside_iff : KernelInside img ↔ (img.kernel.mtk = true → mtkHdrSize ≤ n) := by
  have hle := hblock.n_le
  have hlt := hblock.n_lt
  have hraw := img.raw.size_lt .kernel
  constructor
  · rintro ⟨hkernel, hz⟩ hmtk
    by_contra hshort
    have hend : part.start + part.size = n + 2 ^ 32 := by
      rcases hblock.mtk_cases with ⟨h, -⟩ | ⟨-, hstart, hsize⟩
      · rw [h] at hmtk
        cases hmtk
      · have hhdr : mtkHdrSize = 512 := rfl
        omega
    simp only [Block.sizeField] at hraw
    rcases hblock.kernel_cases with ⟨-, hstart, hsize⟩ | ⟨z, hsome, -, hfill⟩
    · omega
    · have hin := hz z hsome
      omega
  · intro hmtk
    have hend := hblock.part_end_of_mtk hmtk
    rcases hblock.kernel_cases with ⟨hnone, hstart, hsize⟩ | ⟨z, hsome, hsize, hfill⟩
    · refine ⟨by omega, fun z hz => ?_⟩
      rw [hnone] at hz
      cases hz
    · refine ⟨by omega, ?_⟩
      intro z' hz'
      rw [hsome, Option.mem_some_iff] at hz'
      subst hz'
      omega

end KernelBlock

section Whole

variable {mem : List UInt8} {mapSize : Nat} {flags : Flags}
  (hparsed : Parsed env mem mapSize flags img)

include hparsed

theorem Parsed.kernel_inside_iff :
    KernelInside img ↔
      (img.raw.get .kernelSize ≠ 0 →
        MtkFits (mem.drop (img.ptr .kernel))
          (kernelEnd env (slice mem (img.ptr .kernel) (img.raw.get .kernelSize)))) := by
  have hkernel := hparsed.kernel
  rw [← hparsed.mem_eq] at hkernel ⊢
  rcases kernelBlock_of_parseKernel hkernel with ⟨hzero, hnone⟩ | ⟨n, part, hblock⟩
  · rw [KernelInside, hnone]
    exact iff_of_true ⟨Nat.zero_le _, nofun⟩ fun hne => absurd hzero hne
  · have hend : kernelEnd env (slice img.mem (img.ptr .kernel) (img.raw.get .kernelSize)) = n :=
      hblock.kernelEnd_eq
    rw [hblock.inside_iff, hend, MtkFits, hblock.checkFmtLg_eq_mtk_iff]
    exact ⟨fun hmtk _ => hmtk, fun hmtk => hmtk hblock.pos.ne'⟩

theorem Parsed.kernelDtb_inside : ∀ off ∈ img.kernel.dtb, off ≤ img.raw.get .kernelSize := by
  have hkernel := hparsed.kernel
  rw [← hparsed.mem_eq] at hkernel
  intro off hoff
  rcases kernelBlock_of_parseKernel hkernel with ⟨-, hnone⟩ | ⟨n, part, hblock⟩
  · rw [hnone] at hoff
    cases hoff
  · have hle := hblock.n_le
    have hn := hblock.n_eq
    rw [Option.mem_def.1 hoff, Option.getD_some] at hn
    rwa [hn] at hle

theorem Parsed.ramdisk_inside_iff :
    img.ramdisk.start + img.ramdisk.size ≤ img.raw.get .ramdiskSize ↔
      (img.raw.get .ramdiskSize ≠ 0 → img.raw.get .vendorRamdiskTableSize = 0 →
        MtkFits (mem.drop (img.ptr .ramdisk)) (img.raw.get .ramdiskSize)) := by
  have hramdisk := hparsed.ramdisk
  have hlt := img.raw.size_lt .ramdisk
  simp only [Block.sizeField] at hlt
  rw [parseRamdisks] at hramdisk
  split at hramdisk
  · -- With a table nothing is taken off the block.
    rename_i hboth
    simp only [Option.bind_eq_bind, Option.bind_eq_some_iff] at hramdisk
    obtain ⟨entries, -, fmts, -, hpart⟩ := hramdisk
    rw [← Option.some.inj hpart]
    exact iff_of_true (Nat.zero_add _).le fun _ htable => absurd htable hboth.2
  · rename_i hboth
    rw [parseRamdisk] at hramdisk
    split at hramdisk
    · rename_i hzero
      rw [← Option.some.inj hramdisk]
      exact iff_of_true (Nat.zero_le _) fun hne => absurd hzero hne
    · rename_i hne
      have htable : img.raw.get .vendorRamdiskTableSize = 0 := not_not.1 fun h => hboth ⟨hne, h⟩
      have hhdr : mtkHdrSize = 512 := rfl
      rw [MtkFits, checkFmtLg_eq_mtk_iff_of_unwrapMtk hramdisk]
      rcases unwrapMtk_cases hramdisk with ⟨hmtk, hstart, hsize, -⟩ | ⟨hmtk, hstart, hsize, -⟩
      · rw [hmtk, hstart, hsize]
        exact iff_of_true (Nat.zero_add _).le fun _ _ h => absurd h Bool.false_ne_true
      · rw [hmtk, hstart, hsize]
        constructor
        · intro hle _ _ _
          omega
        · intro hle
          have hin := hle hne htable rfl
          omega

theorem Parsed.blocksInside_iff (hpage : img.raw.pageSize < 2 ^ 31) :
    BlocksInside img ↔ KernelInside img ∧ img.ramdisk.start + img.ramdisk.size ≤ img.raw.get .ramdiskSize := by
  constructor
  · rintro ⟨-, hkernel, hz, -, hramdisk⟩
    exact ⟨⟨hkernel, hz⟩, hramdisk⟩
  · rintro ⟨⟨hkernel, hz⟩, hramdisk⟩
    refine ⟨?_, hkernel, hz, hparsed.kernelDtb_inside, hramdisk⟩
    rw [hparsed.mem_eq]
    exact hparsed.ptr_add_le hpage

theorem Parsed.tableInside_iff :
    TableInside img ↔
      (img.raw.get .ramdiskSize ≠ 0 → img.raw.get .vendorRamdiskTableSize ≠ 0 →
        tableEntrySize * img.raw.get .vendorRamdiskTableEntryNum ≤ img.raw.get .vendorRamdiskTableSize) ∧
      (img.raw.get .ramdiskSize ≠ 0 → img.raw.get .vendorRamdiskTableSize ≠ 0 →
        ∀ i < img.raw.get .vendorRamdiskTableEntryNum,
          word mem (img.ptr .vendorRamdiskTable + tableEntrySize * i + 4)
              + word mem (img.ptr .vendorRamdiskTable + tableEntrySize * i) ≤ img.raw.get .ramdiskSize) := by
  rw [TableInside, ← forall_and]
  refine forall_congr' fun hsize => ?_
  rw [← forall_and]
  refine forall_congr' fun htable => and_congr_right fun _ => ?_
  obtain ⟨entries, hentries⟩ : ∃ entries, vendorRamdiskTbl mem (img.ptr .vendorRamdiskTable) img.raw
      = some entries := by
    have hramdisk := hparsed.ramdisk
    rw [parseRamdisks, if_pos ⟨hsize, htable⟩, Option.bind_eq_bind, Option.bind_eq_some_iff] at hramdisk
    obtain ⟨entries, hentries, -⟩ := hramdisk
    exact ⟨entries, hentries⟩
  have hlist : entries = (List.range (img.raw.get .vendorRamdiskTableEntryNum)).map fun i =>
      ⟨slice mem (img.ptr .vendorRamdiskTable + tableEntrySize * i) tableEntrySize⟩ := by
    rw [Boot.vendorRamdiskTbl, if_neg htable] at hentries
    split at hentries
    · cases hentries
    · split at hentries
      · cases hentries
      · exact (Option.some.inj hentries).symm
  have hword : ∀ a off, off + 4 ≤ tableEntrySize → word (slice mem a tableEntrySize) off = word mem (a + off) :=
    fun a off hoff => by rw [word, slice_slice hoff, word]
  rw [BootImg.vendorRamdiskTbl, hparsed.mem_eq, hentries, hlist]
  simp only [Option.some.injEq, forall_eq', List.forall_mem_map, List.mem_range, TableEntry.ramdiskOffset,
    TableEntry.ramdiskSize, hword _ 0 (by decide), hword _ 4 (by decide), Nat.add_zero]

theorem Parsed.vbmeta_eq_some_iff {vbmeta : Nat} :
    img.vbmeta = some vbmeta ↔
      img.addr + img.off ≠ mem.length ∧ slice mem (mem.length - avbFooterSize) 4 = avbFooterMagic ∧
        slice mem vbmeta 4 = avbMagic ∧ vbmeta = namedVbmeta mem img.addr := by
  have htail := hparsed.tail
  constructor
  · intro hsome
    obtain ⟨-, -, hmagic, heq, -, hmeta⟩ := parseTail_vbmeta htail hsome
    refine ⟨fun hend => ?_, hmagic, hmeta, heq⟩
    rw [parseTail_nil hend, Option.some.injEq, TailInfo.mk.injEq, hsome] at htail
    exact absurd htail.2.2 nofun
  · rintro ⟨hend, hmagic, hmeta, heq⟩
    rcases parseTail_cases htail with ⟨-, hend'⟩ | ⟨env', payload, rest, hfooter⟩
    · exact absurd hend' hend
    · rw [heq, namedVbmeta] at hmeta
      simp only [parseFooter, if_pos hmagic, if_pos hmeta] at hfooter
      split at hfooter
      · cases hfooter
      · rw [Option.some.injEq, TailInfo.mk.injEq] at hfooter
        rw [← hfooter.2.2, heq, namedVbmeta]

theorem Parsed.vbmetaInside_iff :
    VbmetaInside img ↔
      (img.addr + img.off ≠ mem.length → slice mem (mem.length - avbFooterSize) 4 = avbFooterMagic →
        slice mem (namedVbmeta mem img.addr) 4 = avbMagic →
          namedVbmeta mem img.addr + vbmetaHdrSize ≤ mapSize) := by
  rw [VbmetaInside, hparsed.mapSize_eq]
  simp only [Option.mem_def, hparsed.vbmeta_eq_some_iff]
  constructor
  · intro hinside htail hmagic hmeta
    exact hinside _ ⟨htail, hmagic, hmeta, rfl⟩
  · rintro hinside vbmeta ⟨htail, hmagic, hmeta, rfl⟩
    exact hinside htail hmagic hmeta

end Whole

/-- **What is not checked.** The regions of an accepted image are where they belong iff no MTK header is
longer than its part, the vendor ramdisk table and its entries are right, and the vbmeta header does not
reach over the end of the file. -/
theorem regionsInside_iff {file : List UInt8} {addr : Nat} {fmt : FileFormat} {flags : Flags}
    {p : ParsedHdr} {offs : List Nat} {off : Nat} (hhdr : parseHdr (env.map file) addr fmt flags = .ok p)
    (hblocks : blockOffs p.hdr = some (offs, off))
    (hparse : parseImage env (env.map file) file.length addr fmt flags = .ok img) :
    RegionsInside img ↔ FieldsFit env file p offs off := by
  obtain ⟨p', hhdr', hraw, haddr, hparsed⟩ := parseImage_eq_ok_iff.1 hparse
  rw [hhdr, Outcome.ok.injEq] at hhdr'
  subst hhdr'
  have hoffs := hparsed.blocks
  rw [hraw, hblocks, Option.some.injEq, Prod.mk.injEq] at hoffs
  obtain ⟨rfl, rfl⟩ := hoffs
  have hptr : ∀ blk, blockPtr p.addr img.offs blk = img.ptr blk := fun blk => by rw [BootImg.ptr, haddr]
  have hvbmeta : VbmetaInside img ↔ _ := hparsed.vbmetaInside_iff
  have htable := hparsed.tableInside_iff
  rw [hraw] at htable
  rw [haddr] at hvbmeta
  constructor
  · rintro ⟨hblocks', htable', hvbmeta'⟩
    rw [hraw] at hblocks'
    have hmtk := fun hpage => (hparsed.blocksInside_iff (hraw ▸ hpage)).1 (hblocks' hpage)
    rw [hparsed.kernel_inside_iff, hparsed.ramdisk_inside_iff, hraw] at hmtk
    refine ⟨?_, ?_, ?_, ?_, ?_⟩
    · rw [hptr]
      exact fun hpage => (hmtk hpage).1
    · rw [hptr]
      exact fun hpage => (hmtk hpage).2
    · exact (htable.1 htable').1
    · rw [hptr]
      exact (htable.1 htable').2
    · exact hvbmeta.1 hvbmeta'
  · rintro ⟨hkernel, hramdisk, htable', hentry, hvbmeta'⟩
    rw [hptr] at hkernel hramdisk hentry
    refine ⟨fun hpage => ?_, htable.2 ⟨htable', hentry⟩, hvbmeta.2 hvbmeta'⟩
    rw [hparsed.blocksInside_iff hpage, hparsed.kernel_inside_iff, hparsed.ramdisk_inside_iff, hraw]
    rw [hraw] at hpage
    exact ⟨hkernel hpage, hramdisk hpage⟩

end

theorem regionsInside_avbImg :
    ∃ addr fmt flags, parseImage sampleEnv (sampleEnv.map avbFile) avbFile.length addr fmt flags
      = .ok avbImg ∧ RegionsInside avbImg := by
  obtain ⟨addr, fmt, flags, -, hparse, -⟩ := scan_eq_some load_avbFile
  obtain ⟨p, hhdr, hraw, haddr, hparsed⟩ := parseImage_eq_ok_iff.1 hparse
  have hblocks := hparsed.blocks
  rw [hraw] at hblocks
  have hsize : ∀ blk : Block, blk ≠ .second → p.hdr.get blk.sizeField = 0 := by
    intro blk hblk
    rw [← hraw, show avbImg.raw = v1Of (single .second [1]) from avbHeader_eq, get_v1Of v1Blocks_avb]
    cases blk <;> first | rfl | exact absurd rfl hblk
  have htable : p.hdr.get .vendorRamdiskTableSize = 0 := hsize .vendorRamdiskTable (by decide)
  refine ⟨addr, fmt, flags, hparse, (regionsInside_iff hhdr hblocks hparse).2 ⟨?_, ?_, ?_, ?_, ?_⟩⟩
  · exact fun _ hne => absurd (hsize .kernel (by decide)) hne
  · exact fun _ hne => absurd (hsize .ramdisk (by decide)) hne
  · exact fun _ hne => absurd htable hne
  · exact fun _ hne => absurd htable hne
  · intro _ _ _
    have hnamed := (hparsed.vbmeta_eq_some_iff.1 (show avbImg.vbmeta = some 8192 from rfl)).2.2.2
    rw [← haddr, ← hnamed, length_avbFile]
    decide

def cutFooter : List UInt8 :=
  avbFooterMagic ++ zeros 16 ++ beBytes 8 12284 ++ beBytes 8 4 ++ zeros 24 ++ avbMagic

def cutFile : List UInt8 :=
  assemble avbHeader (single .second [1]) ++ (zeros 4032 ++ cutFooter)

def cutImg : BootImg :=
  { assembled avbHeader (single .second [1]) {} {} .unknown with
    mem := cutFile
    mapSize := 12288
    flags := { avb := true }
    avbFooter := some 12224
    vbmeta := some 12284 }

theorem length_cutFooter : cutFooter.length = 64 := by
  simp only [cutFooter, List.length_append, length_zeros, length_beBytes]
  rfl

theorem length_cutFile : cutFile.length = 12288 := by
  rw [cutFile, List.length_append, List.length_append, length_avbHead, length_zeros, length_cutFooter]

theorem slice_cutFile (off n : Nat) : slice cutFile (12224 + off) n = slice cutFooter off n := by
  have hlength : (assemble avbHeader (single .second [1]) ++ zeros 4032).length = 12224 := by
    rw [List.length_append, length_avbHead, length_zeros]
  rw [cutFile, ← List.append_assoc, ← hlength, slice_append_right]

theorem load_cutFile : load sampleEnv cutFile = some cutImg := by
  have hdrop : cutFile.drop 8192 = zeros 4032 ++ cutFooter := by
    rw [cutFile, ← length_avbHead, List.drop_left]
  have hstart : zeros 4 <+: zeros 4032 ++ cutFooter := by
    have hzeros : zeros 4032 = zeros 4 ++ zeros 4028 := by
      rw [zeros_append_zeros]
    rw [hzeros, List.append_assoc]
    exact List.prefix_append _ _
  have hmagic : ∀ magic, (zeros 4).length ≤ magic.length → ¬ zeros 4 <+: magic →
      ¬ magic <+: zeros 4032 ++ cutFooter :=
    fun magic hlength hno hpre => hno (List.prefix_of_prefix_length_le hstart hpre hlength)
  have htail : parseTail sampleEnv cutFile 0 avbHeader.stop {}
      = some { flags := { avb := true }, avbFooter := some 12224, vbmeta := some 12284 } := by
    have hflags : ∀ payload, tailFlags sampleEnv payload (zeros 4032 ++ cutFooter) {} = {} := by
      intro payload
      rw [tailFlags, if_neg (hmagic seandroidMagic (by decide) (by decide)),
        if_neg (hmagic lgBumpMagic (by decide) (by decide)),
        if_neg (show ¬ sampleEnv.verify payload _ = true from Bool.false_ne_true)]
    rw [stop_avbHeader, parseTail_avb]
    · rw [length_cutFile, Nat.zero_add, hdrop, hflags]
      rfl
    · rw [length_cutFile]
      decide
    · rw [length_cutFile]
      exact (slice_cutFile 0 4).trans rfl
    · rw [length_cutFile, show 12288 - avbFooterSize = 12224 from rfl, bigEndian, slice_cutFile]
      rfl
    · rw [length_cutFile]
    · exact (slice_cutFile 60 4).trans rfl
  rw [cutImg, ← length_cutFile]
  rw [cutFile, avbHeader_eq] at htail ⊢
  apply load_single_append (.inl rfl) (by decide) _ htail
  rw [List.length_append, length_zeros, length_cutFooter]

theorem not_regionsInside_cutImg :
    ∃ addr fmt flags, parseImage sampleEnv (sampleEnv.map cutFile) cutFile.length addr fmt flags
      = .ok cutImg ∧ ¬ RegionsInside cutImg := by
  obtain ⟨addr, fmt, flags, -, hparse, -⟩ := scan_eq_some load_cutFile
  refine ⟨addr, fmt, flags, hparse, fun hinside => ?_⟩
  exact absurd (hinside.vbmeta 12284 rfl) (by decide)

end MagiskNative.Boot
