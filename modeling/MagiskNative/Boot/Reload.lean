import MagiskNative.Boot.Accepted

/-!
# Images from their parts

What `parse_image` finds in a block depends on the block alone, and a header with the right sizes in
front of the blocks makes an image that is accepted.
-/

namespace MagiskNative.Boot

open Bytes Layout

theorem dtbOffset_lt {accepts : List UInt8 → Bool} {buf : List UInt8} {off : Nat}
    (hdtb : dtbOffset accepts buf = some off) : off < buf.length := by
  rw [dtbOffset] at hdtb
  split at hdtb
  · rename_i found hfind
    split at hdtb
    · rw [Option.some.injEq] at hdtb
      obtain ⟨rest, hrest⟩ := (isDtb_of_findDtbFrom hfind).2.1
      have hlength := congrArg List.length hrest
      rw [List.length_append, List.length_drop] at hlength
      have hmagic : dtbMagic.length = 4 := rfl
      have hmod := Nat.mod_le found (2 ^ 32)
      omega
    · cases hdtb
  · cases hdtb

variable {n size : Nat} {rest : List UInt8} {part : Payload}

theorem checkFmtLg_take_of_le {buf : List UInt8} (hn : n ≤ size)
    (hsize : size ≤ buf.length) : checkFmtLg (buf.take size) n = checkFmtLg buf n := by
  have htake : n ≤ (buf.take size).length := by
    rw [List.length_take]
    omega
  rw [← checkFmtLg_take htake, ← checkFmtLg_take (hn.trans hsize), List.take_take,
    Nat.min_eq_left hn]

/-- An MTK header in front of a part is there as a whole. -/
def MtkFits (rest : List UInt8) (size : Nat) : Prop :=
  checkFmtLg rest size = some .mtk → mtkHdrSize ≤ size

theorem mtkFits_take (hn : n ≤ size) (hsize : size ≤ rest.length) :
    MtkFits (rest.take size) n ↔ MtkFits rest n := by
  rw [MtkFits, MtkFits, checkFmtLg_take_of_le hn hsize]

theorem mtk_size (hn : mtkHdrSize ≤ n) (hlt : n < 2 ^ 32) :
    (n + (2 ^ 32 - mtkHdrSize)) % 2 ^ 32 = n - mtkHdrSize := by
  have hsize : mtkHdrSize = 512 := rfl
  omega

theorem unwrapMtk_take (hn : n ≤ size)
    (hsize : size ≤ rest.length) (hlt : n < 2 ^ 32) (hmtk : MtkFits rest n) :
    unwrapMtk (rest.take size) n = unwrapMtk rest n := by
  rw [unwrapMtk, unwrapMtk, checkFmtLg_take_of_le hn hsize]
  cases hfmt : checkFmtLg rest n with
  | none => simp only [Option.bind_eq_bind, Option.bind_none]
  | some fmt =>
      simp only [Option.bind_eq_bind, Option.bind_some]
      by_cases heq : fmt = .mtk
      · subst heq
        have hle := hmtk hfmt
        have hdrop : (rest.take size).drop mtkHdrSize
            = (rest.drop mtkHdrSize).take (size - mtkHdrSize) := List.drop_take
        rw [if_pos rfl, if_pos rfl, mtk_size hle hlt, hdrop,
          checkFmtLg_take_of_le (Nat.sub_le_sub_right hn _)
            (by rw [List.length_drop]; exact Nat.sub_le_sub_right hsize _)]
      · rw [if_neg heq, if_neg heq]

theorem unwrapMtk_cases (hunwrap : unwrapMtk rest n = some part) :
    part.mtk = false ∧ part.start = 0 ∧ part.size = n ∧ checkFmtLg rest n = some part.fmt ∧
        part.fmt ≠ .mtk ∨
      part.mtk = true ∧ part.start = mtkHdrSize ∧
        part.size = (n + (2 ^ 32 - mtkHdrSize)) % 2 ^ 32 ∧ checkFmtLg rest n = some .mtk ∧
        checkFmtLg (rest.drop mtkHdrSize) part.size = some part.fmt := by
  simp only [unwrapMtk, Option.bind_eq_bind, Option.bind_eq_some_iff] at hunwrap
  obtain ⟨fmt, hfmt, hunwrap⟩ := hunwrap
  split at hunwrap
  · rename_i heq
    rw [Option.bind_eq_some_iff] at hunwrap
    obtain ⟨fmt', hfmt', hpart⟩ := hunwrap
    cases hpart
    exact .inr ⟨rfl, rfl, rfl, by rw [hfmt, heq], hfmt'⟩
  · rename_i hne
    cases hunwrap
    exact .inl ⟨rfl, rfl, rfl, hfmt, hne⟩

theorem checkFmtLg_eq_mtk_iff_of_unwrapMtk (hunwrap : unwrapMtk rest n = some part) :
    checkFmtLg rest n = some .mtk ↔ part.mtk = true := by
  rcases unwrapMtk_cases hunwrap with ⟨h, -, -, hfmt, hne⟩ | ⟨h, -, -, hfmt, -⟩
  · rw [h, hfmt, Option.some.injEq]
    exact iff_of_false hne Bool.false_ne_true
  · rw [h, hfmt]
    exact iff_of_true rfl rfl

theorem unwrapMtk_bounds (hlt : n < 2 ^ 32)
    (hmtk : MtkFits rest n) (hunwrap : unwrapMtk rest n = some part) :
    part.start + part.size = n := by
  rcases unwrapMtk_cases hunwrap with ⟨-, hstart, hsize, -⟩ | ⟨-, hstart, hsize, hfmt, -⟩
  · omega
  · have hle := hmtk hfmt
    rw [hstart, hsize, mtk_size hle hlt]
    exact Nat.add_sub_cancel' hle

theorem mtkHdrSize_le_of_unwrapMtk
    (hunwrap : unwrapMtk rest n = some part) (hmtk : part.mtk = true) (hn : n ≤ rest.length)
    (hlt : n < 2 ^ 32) : mtkHdrSize ≤ rest.length := by
  have hsize : mtkHdrSize = 512 := rfl
  rcases unwrapMtk_cases hunwrap with ⟨h, -⟩ | ⟨-, -, hpart, -, hfmt⟩
  · rw [hmtk] at h
    cases h
  · by_contra hshort
    have hdrop : rest.drop mtkHdrSize = [] := List.drop_eq_nil_of_le (by omega)
    rw [hdrop, checkFmtLg, readFmt, if_neg (by rw [List.length_nil]; omega)] at hfmt
    cases hfmt

theorem splitZImage_cases {split : Payload × Option ZImage}
    (hsplit : splitZImage rest part = some split) :
    split = (part, none) ∨
      ∃ z, part.start + part.size ≤ rest.length ∧
        ZImage.parse (slice rest part.start part.size) = some z ∧
        split = ({ part with
                    start := part.start + z.head.length
                    size := if z.fmt ≠ .gzip then z.piggy.length - 4 else z.piggy.length
                    fmt := z.fmt }, some z) := by
  rw [splitZImage] at hsplit
  split at hsplit
  · split at hsplit
    · cases hsplit
    · rename_i hlength
      split at hsplit
      · rename_i z hparse
        cases hsplit
        exact .inr ⟨z, Nat.not_lt.1 hlength, hparse, rfl⟩
      · cases hsplit
        exact .inl rfl
  · cases hsplit
    exact .inl rfl

theorem parseKernel_cases {env : Env} {kernel : KernelPart}
    (hparse : parseKernel env rest size = some kernel) :
    size = 0 ∧ kernel = {} ∨
      0 < size ∧ size ≤ rest.length ∧ kernel.dtb = dtbOffset env.fdtAccepts (rest.take size) ∧
        ∃ part, unwrapMtk rest (kernel.dtb.getD size) = some part ∧
          splitZImage rest part = some (kernel.toPayload, kernel.zInfo) := by
  rw [parseKernel] at hparse
  split at hparse
  · rename_i hsize
    cases hparse
    exact .inl ⟨hsize, rfl⟩
  · rename_i hsize
    split at hparse
    · cases hparse
    · rename_i hlength
      simp only [Option.bind_eq_bind, Option.bind_eq_some_iff] at hparse
      obtain ⟨part, hunwrap, ⟨part', zInfo⟩, hsplit, hkernel⟩ := hparse
      cases hkernel
      exact .inr ⟨Nat.pos_of_ne_zero hsize, Nat.not_lt.1 hlength, rfl, part, hunwrap, hsplit⟩

theorem splitZImage_take (part : Payload)
    (hpart : part.start + part.size ≤ size) (hsize : size ≤ rest.length) :
    splitZImage (rest.take size) part = splitZImage rest part := by
  have hlength : (rest.take size).length = size := by
    rw [List.length_take]
    omega
  rw [splitZImage, splitZImage, hlength, slice_take hpart, if_neg (show ¬ size < _ by omega),
    if_neg (show ¬ rest.length < _ by omega)]

/-- Where the kernel in a block ends: at the device tree behind it, if there is one. -/
def kernelEnd (env : Env) (block : List UInt8) : Nat :=
  (dtbOffset env.fdtAccepts block).getD block.length

theorem kernelEnd_le (env : Env) (block : List UInt8) : kernelEnd env block ≤ block.length := by
  rw [kernelEnd]
  cases hdtb : dtbOffset env.fdtAccepts block with
  | none => exact le_refl _
  | some off => exact (dtbOffset_lt hdtb).le

/-- What is found in a kernel block depends on the block alone. -/
theorem parseKernel_take {env : Env} (hsize : size ≤ rest.length)
    (hlt : size < 2 ^ 32) (hmtk : MtkFits (rest.take size) (kernelEnd env (rest.take size))) :
    parseKernel env (rest.take size) size = parseKernel env rest size := by
  have hlength : (rest.take size).length = size := by
    rw [List.length_take]
    omega
  have hend := kernelEnd_le env (rest.take size)
  rw [hlength] at hend
  rw [mtkFits_take hend hsize] at hmtk
  have heq : (dtbOffset env.fdtAccepts (rest.take size)).getD size
      = kernelEnd env (rest.take size) := by
    rw [kernelEnd, hlength]
  rw [parseKernel, parseKernel, hlength, if_neg (lt_irrefl size), if_neg (Nat.not_lt.2 hsize),
    List.take_take, Nat.min_self]
  simp only [heq, unwrapMtk_take hend hsize (by omega) hmtk]
  cases hunwrap : unwrapMtk rest (kernelEnd env (rest.take size)) with
  | none => rfl
  | some part =>
      have hbounds := unwrapMtk_bounds (by omega) hmtk hunwrap
      have hsplit := splitZImage_take part (by omega) hsize
      simp only [Option.bind_eq_bind, Option.bind_some, hsplit]

theorem parseRamdisk_take (hsize : size ≤ rest.length)
    (hlt : size < 2 ^ 32) (hmtk : MtkFits (rest.take size) size) :
    parseRamdisk (rest.take size) size = parseRamdisk rest size := by
  rw [mtkFits_take le_rfl hsize] at hmtk
  rw [parseRamdisk, parseRamdisk, unwrapMtk_take le_rfl hsize hlt hmtk]

theorem parseExtra_take (hsize : size ≤ rest.length) :
    parseExtra (rest.take size) size = parseExtra rest size := by
  rw [parseExtra, parseExtra, checkFmtLg_take_of_le le_rfl hsize]

/-- What `parse_image` finds in the blocks that have more inside: kernel, ramdisk and extra. -/
structure PartsOf (env : Env) (blocks : Block → List UInt8) (kernel : KernelPart) (ramdisk : Payload)
    (eFmt : FileFormat) : Prop where
  kernel : parseKernel env (blocks .kernel) (blocks .kernel).length = some kernel
  kernelMtk : MtkFits (blocks .kernel) (kernelEnd env (blocks .kernel))
  ramdisk : parseRamdisk (blocks .ramdisk) (blocks .ramdisk).length = some ramdisk
  ramdiskMtk : MtkFits (blocks .ramdisk) (blocks .ramdisk).length
  extra : parseExtra (blocks .extra) (blocks .extra).length = some eFmt

def imageMagic (k : Kind) : List UInt8 := if k.isVendor then vendorBootMagic else bootMagic

def imageFmt (k : Kind) : FileFormat := if k.isVendor then .aospVendor else .aosp

theorem imageFmt_cases (k : Kind) : imageFmt k = .aosp ∨ imageFmt k = .aospVendor := by
  rw [imageFmt]
  split
  · exact .inr rfl
  · exact .inl rfl

theorem soleMagic_imageFmt (k : Kind) : soleMagic (imageFmt k) = some (imageMagic k) := by
  rw [imageFmt, imageMagic]
  split <;> rfl

theorem forall₂_blocks {R : Nat → Block → Prop} {offs : List Nat} (hall : List.Forall₂ R offs Block.all)
    (blk : Block) : R (offs.getD (Block.all.idxOf blk) 0) blk := by
  have hmem : blk ∈ Block.all := by cases blk <;> decide
  have hlt := List.idxOf_lt_length_of_mem hmem
  obtain ⟨hlength, hget⟩ := List.forall₂_iff_get.1 hall
  have hblk := hget (Block.all.idxOf blk) (by omega) hlt
  rw [List.get_eq_getElem, List.get_eq_getElem, List.getElem_idxOf] at hblk
  rwa [List.getD_eq_getElem?_getD, List.getElem?_eq_getElem (by omega), Option.getD_some]

theorem forall₂_blocks_of {R : Nat → Block → Prop} {offs : List Nat}
    (hlength : offs.length = Block.all.length)
    (hblk : ∀ blk, R (offs.getD (Block.all.idxOf blk) 0) blk) : List.Forall₂ R offs Block.all :=
  match offs, hlength with
  | [_, _, _, _, _, _, _, _, _], _ =>
      .cons (hblk .kernel) (.cons (hblk .ramdisk) (.cons (hblk .second) (.cons (hblk .extra)
        (.cons (hblk .recoveryDtbo) (.cons (hblk .dtb) (.cons (hblk .signature)
          (.cons (hblk .vendorRamdiskTable) (.cons (hblk .bootconfig) .nil))))))))

theorem Header.dvd_stop (h : Header) : h.pageSize ∣ h.stop := by
  refine Nat.dvd_add (dvd_space h) (List.dvd_sum ?_)
  intro n hn
  obtain ⟨size, -, rfl⟩ := List.mem_map.1 hn
  exact dvd_roundUp _ _

section Load

variable {env : Env} {file : List UInt8} {h : Header}

theorem intact_of_stop_le {mem : List UInt8} {addr : Nat} (hstop : addr + h.stop ≤ mem.length)
    {o : Nat} (ho : o ∈ (starts h.space (h.sizes.map (roundUp h.pageSize))).tail ++ [h.stop]) :
    corrupted mem addr o = false := by
  have hle : o ≤ h.stop := by
    rcases List.mem_append.1 ho with ho | ho
    · exact le_finish_of_mem_starts (List.mem_of_mem_tail ho)
    · rw [List.mem_singleton.1 ho]
  simp only [corrupted, decide_eq_false_iff_not]
  omega

/-- The file starts with this header, and the pages that it gives are all there. -/
structure Fronted (env : Env) (file : List UInt8) (h : Header) : Prop where
  magic : imageMagic h.kind <+: file
  plain : Plain (env.map file) 0 (imageFmt h.kind) h.kind
  read : readHeader (env.map file) 0 h.kind h.kind.hdrSize = some h
  pos : 0 < h.pageSize
  page : h.pageSize < 2 ^ 31
  stop : h.stop ≤ (env.map file).length

def loadedImg (env : Env) (file : List UInt8) (h : Header) (kernel : KernelPart) (ramdisk : Payload)
    (eFmt : FileFormat) (tail : TailInfo) : BootImg where
  mem := env.map file
  mapSize := file.length
  addr := 0
  raw := h
  offs := starts h.space (h.sizes.map (roundUp h.pageSize))
  off := h.stop
  kernel
  ramdisk
  eFmt
  flags := tail.flags
  avbFooter := tail.avbFooter
  vbmeta := tail.vbmeta

namespace Fronted

variable (hfront : Fronted env file h)

include hfront

theorem ne_nil : file ≠ [] := hfront.magic.ne_nil (by rw [imageMagic]; split <;> decide)

theorem readFmt_eq : readFmt (env.map file) file.length = some (imageFmt h.kind) := by
  rw [readFmt_of_le (env.length_le_map file), Env.map, pad, List.take_left,
    checkFmt_of_soleMagic (soleMagic_imageFmt _) hfront.magic]

theorem intact {o : Nat} (ho : o ∈ (starts h.space (h.sizes.map (roundUp h.pageSize))).tail ++ [h.stop]) :
    corrupted (env.map file) 0 o = false :=
  intact_of_stop_le ((Nat.zero_add _).trans_le hfront.stop) ho

variable {kernel : KernelPart} {ramdisk : Payload} {eFmt : FileFormat} {tail : TailInfo}
  (htail : parseTail env (env.map file) 0 h.stop (sha256Flags ⟨h, 0, {}⟩) = some tail)

include htail

theorem load_of_parse
    (hkernel : parseKernel env ((env.map file).drop (h.blockOff .kernel)) (h.get .kernelSize)
      = some kernel)
    (hramdisk : parseRamdisks (env.map file) (h.blockOff .ramdisk) (h.blockOff .vendorRamdiskTable) h
      = some ramdisk)
    (hextra : parseExtra ((env.map file).drop (h.blockOff .extra)) (h.get .extraSize) = some eFmt) :
    load env file = some (loadedImg env file h kernel ramdisk eFmt tail) := by
  have hptr : ∀ blk, (loadedImg env file h kernel ramdisk eFmt tail).ptr blk = h.blockOff blk :=
    blockPtr_eq hfront.pos hfront.page
  refine load_of_plain hfront.ne_nil hfront.readFmt_eq (imageFmt_cases _) hfront.plain hfront.read rfl
    ⟨rfl, rfl, blockOffs_eq hfront.pos hfront.page, fun o ho => hfront.intact ho, ?_, ?_, ?_, htail⟩
  · rw [hptr]
    exact hkernel
  · rw [hptr, hptr]
    exact hramdisk
  · rw [hptr]
    exact hextra

/-- **Acceptance.** A file with a readable header in front of blocks that can be parsed is accepted, with
these blocks. -/
theorem load_of_blocks {blocks : Block → List UInt8}
    (hblocks : ∀ blk, slice (env.map file) (h.blockOff blk) (h.get blk.sizeField) = blocks blk)
    (htable : h.get .vendorRamdiskTableSize = 0) (hparts : PartsOf env blocks kernel ramdisk eFmt) :
    load env file = some (loadedImg env file h kernel ramdisk eFmt tail) := by
  obtain ⟨hkernel, hkernelMtk, hramdisk, hramdiskMtk, hextra⟩ := hparts
  have hstop := hfront.stop
  have hlength : ∀ blk, (blocks blk).length = h.get blk.sizeField := by
    intro blk
    have hin := h.blockOff_add_le hfront.pos blk
    rw [← hblocks blk, length_slice_of_le (by omega)]
  have hrest : ∀ blk, h.get blk.sizeField ≤ ((env.map file).drop (h.blockOff blk)).length := by
    intro blk
    have hin := h.blockOff_add_le hfront.pos blk
    rw [List.length_drop]
    omega
  have htake : ∀ blk, ((env.map file).drop (h.blockOff blk)).take (h.get blk.sizeField) = blocks blk :=
    hblocks
  apply hfront.load_of_parse htail
  · rw [hlength] at hkernel
    rw [← htake] at hkernel hkernelMtk
    rw [← hkernel]
    exact (parseKernel_take (hrest .kernel) (h.size_lt .kernel) hkernelMtk).symm
  · rw [hlength, ← htake] at hramdisk hramdiskMtk
    rw [parseRamdisks, if_neg (fun hboth => hboth.2 htable), ← hramdisk]
    exact (parseRamdisk_take (hrest .ramdisk) (h.size_lt .ramdisk) hramdiskMtk).symm
  · rw [hlength, ← htake] at hextra
    rw [← hextra]
    exact (parseExtra_take (hrest .extra)).symm

end Fronted

theorem parseTail_nil {mem : List UInt8} {addr off : Nat} (hend : addr + off = mem.length)
    (flags : Flags) : parseTail env mem addr off flags = some { flags } := by
  rw [parseTail, if_pos hend.le, hend, List.drop_length]
  simp only [if_true]

/-- A file of a header and the blocks, each filled up to whole pages. -/
def assemble (h : Header) (blocks : Block → List UInt8) : List UInt8 :=
  (Block.all.map fun blk => (⟨blocks blk, true⟩ : Piece)).foldl (put h.pageSize 0)
    (h.raw ++ zeros (h.space - h.hdrSize))

variable {blocks : Block → List UInt8}

section Assemble

variable (hroom : h.hdrSize ≤ h.space) (hpos : 0 < h.pageSize)
  (hlength : ∀ blk, (blocks blk).length = h.get blk.sizeField)

include hroom

theorem length_headerPage : (h.raw ++ zeros (h.space - h.hdrSize)).length = h.space := by
  rw [List.length_append, length_zeros, h.length_raw]
  exact Nat.add_sub_cancel' hroom

include hpos hlength

theorem length_assemble : (assemble h blocks).length = h.stop := by
  have hpage := length_headerPage hroom
  have hdvd : ∀ x ∈ Block.all.map fun blk => (⟨blocks blk, true⟩ : Piece),
      h.pageSize ∣ x.room h.pageSize := by
    intro x hx
    obtain ⟨blk, -, rfl⟩ := List.mem_map.1 hx
    exact dvd_roundUp _ _
  have hfinish := length_foldl_put hpos (Nat.zero_le (h.raw ++ zeros (h.space - h.hdrSize)).length)
    (by rw [hpage]; exact dvd_space h) hdvd
  rw [hpage, Nat.zero_add, Nat.sub_zero, List.map_map] at hfinish
  have hrooms : Block.all.map (Piece.room h.pageSize ∘ fun blk => ⟨blocks blk, true⟩)
      = h.sizes.map (roundUp h.pageSize) := by
    rw [Header.sizes, List.map_map]
    apply List.map_congr_left
    intro blk _
    exact congrArg (roundUp h.pageSize) (hlength blk)
  rw [assemble, hfinish, hrooms, Header.stop]

theorem slice_assemble (blk : Block) :
    slice (assemble h blocks) (h.blockOff blk) (h.get blk.sizeField) = blocks blk := by
  have hput := slice_foldl_put hpos (Nat.zero_le (h.raw ++ zeros (h.space - h.hdrSize)).length)
    (Block.all.map fun blk => ⟨blocks blk, true⟩)
  have hplaces : places h.pageSize h.space (Block.all.map fun blk => (⟨blocks blk, true⟩ : Piece))
      = starts h.space (h.sizes.map (roundUp h.pageSize)) := by
    rw [places_eq_starts_iff hpos (dvd_space h) (by rw [Header.sizes, List.length_map, List.length_map]),
      Header.sizes, ← List.map_dropLast, ← List.map_dropLast, List.forall₂_map_left_iff,
      List.forall₂_map_right_iff, List.forall₂_same]
    intro blk _
    exact congrArg (roundUp h.pageSize) (hlength blk)
  rw [length_headerPage hroom, Nat.sub_zero, hplaces, List.forall₂_map_right_iff] at hput
  have hblk := (forall₂_blocks hput blk).2
  rwa [Nat.zero_add, hlength] at hblk

end Assemble

def assembled (h : Header) (blocks : Block → List UInt8) (kernel : KernelPart) (ramdisk : Payload)
    (eFmt : FileFormat) : BootImg where
  mem := assemble h blocks
  mapSize := (assemble h blocks).length
  addr := 0
  raw := h
  offs := starts h.space (h.sizes.map (roundUp h.pageSize))
  off := h.stop
  kernel
  ramdisk
  eFmt
  flags := sha256Flags ⟨h, 0, {}⟩
  avbFooter := none
  vbmeta := none

def BootImg.followedBy (img : BootImg) (rest : List UInt8) (tail : TailInfo) : BootImg :=
  { img with
    mem := img.mem ++ rest
    mapSize := (img.mem ++ rest).length
    flags := tail.flags
    avbFooter := tail.avbFooter
    vbmeta := tail.vbmeta }

section Head

variable {file' : List UInt8} (hraw : h.raw <+: file')

include hraw

theorem readHeader_of_isPrefix : readHeader file' 0 h.kind h.kind.hdrSize = some h := by
  have hle := hraw.length_le
  rw [h.length_raw] at hle
  rw [readHeader_eq_some_iff, Nat.zero_add]
  refine ⟨rfl, hle, ?_⟩
  rw [slice_of_isPrefix hraw (by rw [h.length_raw, Nat.zero_add]),
    slice_eq_self (by rw [h.length_raw])]

theorem plain_of_isPrefix {fmt : FileFormat} {k : Kind} (hplain : Plain h.raw 0 fmt k) :
    Plain file' 0 fmt k := by
  have hsize := le_hdrSize h.kind
  have hlength := h.length_raw
  have htake : file'.take 1032 = h.raw.take 1032 := by
    obtain ⟨more, hmore⟩ := hraw
    rw [← hmore, List.take_append_of_le_length (by omega)]
  exact plain_of_take htake (Nat.zero_add _).le hplain

end Head

theorem prefix_assemble (h : Header) (blocks : Block → List UInt8) : h.raw <+: assemble h blocks :=
  (List.prefix_append _ _).trans (prefix_foldl_put _ _ _)

section LoadAssemble

variable {kernel : KernelPart} {ramdisk : Payload} {eFmt : FileFormat}
  (hmagic : imageMagic h.kind <+: h.raw) (hplain : Plain h.raw 0 (imageFmt h.kind) h.kind)
  (hroom : h.hdrSize ≤ h.space) (hpos : 0 < h.pageSize) (hpage : h.pageSize < 2 ^ 31)
  (hhost : env.hostPage ∣ h.pageSize) (hlength : ∀ blk, (blocks blk).length = h.get blk.sizeField)
  (htable : h.get .vendorRamdiskTableSize = 0) (hparts : PartsOf env blocks kernel ramdisk eFmt)

include hmagic hplain hroom hpos hpage hhost hlength htable hparts

/-- An assembled file is accepted, whatever follows it that the tail can be read from. -/
theorem load_assemble_append {rest : List UInt8} {tail : TailInfo}
    (hrest : env.hostPage ∣ rest.length)
    (htail : parseTail env (assemble h blocks ++ rest) 0 h.stop (sha256Flags ⟨h, 0, {}⟩) = some tail) :
    load env (assemble h blocks ++ rest)
      = some ((assembled h blocks kernel ramdisk eFmt).followedBy rest tail) := by
  have hstop := length_assemble hroom hpos hlength
  have hmap : env.map (assemble h blocks ++ rest) = assemble h blocks ++ rest := by
    apply env.map_eq_self
    rw [List.length_append, hstop]
    exact Nat.dvd_add (hhost.trans h.dvd_stop) hrest
  have hfile : h.raw <+: assemble h blocks ++ rest :=
    (prefix_assemble h blocks).trans (List.prefix_append _ _)
  have hfront : Fronted env (assemble h blocks ++ rest) h := by
    refine ⟨hmagic.trans hfile, ?_, ?_, hpos, hpage, ?_⟩
    · rw [hmap]
      exact plain_of_isPrefix hfile hplain
    · rw [hmap]
      exact readHeader_of_isPrefix hfile
    · rw [hmap, List.length_append, hstop]
      exact Nat.le_add_right _ _
  have hload := hfront.load_of_blocks (by rw [hmap]; exact htail) (fun blk => ?_) htable hparts
  · rw [hload, loadedImg, hmap]
    rfl
  · rw [hmap, slice_append_left (by rw [hstop]; exact h.blockOff_add_le hpos blk)]
    exact slice_assemble hroom hpos hlength blk

end LoadAssemble

end Load

end MagiskNative.Boot
