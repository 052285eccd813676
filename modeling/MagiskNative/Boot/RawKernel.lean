import MagiskNative.Boot.Frame
import MagiskNative.Boot.Regions
import MagiskNative.Boot.Relocate

/-!
# Kernels without the codecs

With `skip_decomp` and `skip_comp` the payload of the new kernel is the file that was made of the old
one. For a zImage that file is the piggy, but without the size word that follows every stream except
gzip, and only a compressing `repack` appends a new one.
-/

namespace MagiskNative.Boot

open Bytes Layout

variable {z : ZImage}

section Kernel

variable {env : Env} {img : BootImg}

theorem kernelPayload_skip (m : List UInt8) : kernelPayload env img true m = m := by
  simp [kernelPayload, packed, compresses]

namespace KernelBlock

variable {n : Nat} {part : Payload} (hblock : KernelBlock env img n part)

include hblock

theorem part_size_lt : part.size < 2 ^ 32 := by
  have hlt := hblock.n_lt
  rcases hblock.mtk_cases with ⟨-, -, hsize⟩ | ⟨-, -, hsize⟩
  · omega
  · rw [hsize]
    exact Nat.mod_lt _ (by decide)

theorem zImage_eq (hz : img.kernel.zInfo = some z) :
    z.head ++ z.piggy ++ z.tail = slice (img.mem.drop (img.ptr .kernel)) part.start part.size ∧
      z.head.length + z.piggy.length + z.tail.length = part.size ∧ z.piggy ≠ [] ∧
      (z.fmt ≠ .gzip → 4 ≤ z.piggy.length) ∧
      img.kernel.start = part.start + z.head.length ∧
      img.kernel.size = if z.fmt ≠ .gzip then z.piggy.length - 4 else z.piggy.length := by
  rcases splitZImage_cases hblock.split with hpart | ⟨z', hle, hparse, hpart⟩
  · rw [(Prod.mk.inj hpart).2] at hz
    cases hz
  · obtain ⟨hpayload, hsome⟩ := Prod.mk.inj hpart
    rw [hsome, Option.some.injEq] at hz
    subst hz
    obtain ⟨hparts, -, hpiggy, hfour⟩ := ZImage.parse_parts hparse
    have hlength := congrArg List.length hparts
    rw [length_slice_of_le hle, List.length_append, List.length_append] at hlength
    exact ⟨hparts, hlength, hpiggy, hfour, congrArg Payload.start hpayload,
      congrArg Payload.size hpayload⟩

theorem kernelBytes_of_zImage (hz : img.kernel.zInfo = some z) :
    img.kernelBytes = z.piggy.take img.kernel.size := by
  obtain ⟨hparts, hlength, -, -, hstart, hsize⟩ := hblock.zImage_eq hz
  have hle : img.kernel.size ≤ z.piggy.length := by
    rw [hsize]
    split <;> omega
  calc img.kernelBytes
      = slice (img.mem.drop (img.ptr .kernel)) (part.start + z.head.length) img.kernel.size := by
        rw [BootImg.kernelBytes, hstart, slice_drop]
    _ = slice (z.head ++ (z.piggy ++ z.tail)) (z.head.length + 0) img.kernel.size := by
        rw [← List.append_assoc, hparts, slice_slice (by omega), Nat.add_zero]
    _ = z.piggy.take img.kernel.size := by
        rw [slice_append_right, slice, List.drop_zero, List.take_append_of_le_length hle]

theorem kernelBody_raw (hmtk : img.kernel.mtk = true → mtkHdrSize ≤ n)
    (hgzip : ∀ z ∈ img.kernel.zInfo, z.fmt = .gzip) :
    kernelBody env img (unpackedFiles env img true) true
      = (slice (img.mem.drop (img.ptr .kernel)) part.start part.size, part.size) := by
  have hle := hblock.n_le
  have hlength := hblock.length
  have hend := hblock.part_end_of_mtk hmtk
  have hfile : (unpackedFiles env img true).kernel = dump img.kernel.size img.kernelBytes none := rfl
  rw [kernelBody, hfile, dump]
  cases hz : img.kernel.zInfo with
  | none =>
      obtain ⟨-, hstart, hsize⟩ := hblock.kernel_cases.resolve_right (by simp [hz])
      have hbytes : img.kernelBytes
          = slice (img.mem.drop (img.ptr .kernel)) part.start part.size := by
        rw [BootImg.kernelBytes, hstart, hsize, slice_drop]
      have hcount : img.kernelBytes.length = part.size := by
        rw [hbytes, slice_drop, length_slice_of_le (by omega)]
      by_cases hzero : img.kernel.size = 0
      · have hpart : part.size = 0 := by omega
        rw [if_pos hzero, hpart]
        simp [hzero, slice]
      · rw [if_neg hzero]
        simp only [kernelPayload_skip, hcount]
        rw [hbytes]
  | some z =>
      obtain ⟨hparts, hsum, hpiggy, -, -, hsize⟩ := hblock.zImage_eq hz
      have hlt := hblock.part_size_lt
      rw [if_neg (not_not.2 (hgzip z hz))] at hsize
      have hpos := List.length_pos_of_ne_nil hpiggy
      have hbytes : img.kernelBytes = z.piggy := by
        rw [hblock.kernelBytes_of_zImage hz, hsize, List.take_length]
      have hmod : z.piggy.length % 2 ^ 32 = z.piggy.length := Nat.mod_eq_of_lt (by omega)
      rw [if_neg (by omega)]
      simp only [kernelPayload_skip, hbytes, hmod, ZImage.newTail_length, hparts, hsum]

theorem kernelBody_short (hz : img.kernel.zInfo = some z) (hfmt : z.fmt ≠ .gzip) :
    (kernelBody env img (unpackedFiles env img true) true).2 < part.size := by
  obtain ⟨-, hsum, -, hfour, -, hsize⟩ := hblock.zImage_eq hz
  have hlt := hblock.part_size_lt
  have hpiggy := hfour hfmt
  have hfile : (unpackedFiles env img true).kernel = dump img.kernel.size img.kernelBytes none := rfl
  rw [if_pos hfmt] at hsize
  rw [kernelBody, hfile, dump, hz]
  by_cases hzero : img.kernel.size = 0
  · rw [if_pos hzero]
    simp only [hzero, ne_eq, not_true, if_false]
    omega
  · have hlength : img.kernelBytes.length = z.piggy.length - 4 := by
      rw [hblock.kernelBytes_of_zImage hz, hsize, List.length_take]
      omega
    have hmod : (z.piggy.length - 4) % 2 ^ 32 = z.piggy.length - 4 := Nat.mod_eq_of_lt (by omega)
    have htail := z.length_newTail_sub_four hpiggy
    rw [if_neg hzero]
    simp only [kernelPayload_skip, hlength, hmod]
    omega

end KernelBlock

variable {file : List UInt8} {files : Files} {skipComp : Bool} {w : Written}

/-- Files with which `repack` writes payload and device tree as they were. -/
structure KernelCopy (env : Env) (img : BootImg) (files : Files) (skipComp : Bool) (part : Payload) :
    Prop where
  body : kernelBody env img files skipComp
    = (slice (img.mem.drop (img.ptr .kernel)) part.start part.size, part.size)
  dtb : files.kernelDtb.getD [] = img.kernelDtb
  stub : ∀ z ∈ img.kernel.zInfo, zPayloadSz env img files skipComp = 0 ∨
    zPayloadSz env img files skipComp = z.piggy.length

namespace KernelBlock

variable {n : Nat} {part : Payload} (hblock : KernelBlock env img n part)

include hblock

theorem kernelCopy_raw (hmtk : img.kernel.mtk = true → mtkHdrSize ≤ n)
    (hgzip : ∀ z ∈ img.kernel.zInfo, z.fmt = .gzip) :
    KernelCopy env img (unpackedFiles env img true) true part where
  body := hblock.kernelBody_raw hmtk hgzip
  dtb := getD_dump
  stub z hz := by
    obtain ⟨-, hsum, hpiggy, -, -, hsize⟩ := hblock.zImage_eq hz
    rw [if_neg (not_not.2 (hgzip z hz))] at hsize
    have hlt := hblock.part_size_lt
    have hpos := List.length_pos_of_ne_nil hpiggy
    have hfile : (unpackedFiles env img true).kernel = some z.piggy := by
      rw [show (unpackedFiles env img true).kernel = dump img.kernel.size img.kernelBytes none from rfl,
        dump, if_neg (by omega), hblock.kernelBytes_of_zImage hz, hsize, List.take_length]
    right
    rw [zPayloadSz, hfile, show img.kernel.zInfo = some z from hz]
    simp only [kernelPayload_skip]
    exact Nat.mod_eq_of_lt (by omega)

theorem bytes_copy (hcopy : KernelCopy env img files skipComp part)
    (hmtk : img.kernel.mtk = true → mtkHdrSize ≤ n) (hdtb : img.kernelDtb.length ≤ sendfileMax) :
    (kernelSegment env img files skipComp).bytes = img.block .kernel := by
  rw [kernelSegment, hcopy.body, hcopy.dtb, restored, List.take_of_length_le hdtb,
    hblock.block_eq hmtk]

theorem describedSize_kernel :
    describedSize img (.kernel, kernelSegment env img files skipComp)
      = ((kernelBody env img files skipComp).2 + (files.kernelDtb.getD []).length + part.start)
          % 2 ^ 32 := by
  have hfield := (table_eq_zero_of_kernel hblock.pos).2
  simp only [describedSize, kernelSegment, Block.sizeField, hfield, if_true, mtkOf]
  rcases hblock.mtk_cases with ⟨hmtk, hstart, -⟩ | ⟨hmtk, hstart, -⟩
  · rw [hmtk, hstart, if_neg Bool.false_ne_true, Nat.add_zero]
  · rw [hmtk, hstart, if_pos rfl, Nat.mod_add_mod]

theorem kernelSize_mod :
    img.raw.get .kernelSize = (part.size + img.kernelDtb.length + part.start) % 2 ^ 32 := by
  have hle := hblock.n_le
  have hlt := img.raw.size_lt .kernel
  simp only [Block.sizeField] at hlt
  have hhdr : mtkHdrSize = 512 := rfl
  rw [hblock.length_kernelDtb]
  rcases hblock.mtk_cases with ⟨-, hstart, hsize⟩ | ⟨-, hstart, hsize⟩ <;> rw [hstart, hsize] <;> omega

theorem describedSize_eq_iff (lost : Nat) (hlt : lost < 2 ^ 32)
    (hlost : (kernelBody env img files skipComp).2 + (files.kernelDtb.getD []).length + lost
      = part.size + img.kernelDtb.length) :
    describedSize img (.kernel, kernelSegment env img files skipComp) = img.raw.get .kernelSize ↔
      lost = 0 := by
  rw [hblock.describedSize_kernel, hblock.kernelSize_mod]
  omega

end KernelBlock

def resized (img : BootImg) (blk : Block) : List UInt8 :=
  if mtkOf img blk then patch (img.block blk) 4 (leBytes 4 (img.raw.get blk.sizeField - mtkHdrSize))
  else img.block blk

theorem block_eq_nil {blk : Block} (hzero : img.raw.get blk.sizeField = 0) : img.block blk = [] := by
  rw [BootImg.block, hzero, slice_zero]

theorem Wrote.place_kernel_eq (hwrote : Wrote env img files skipComp w)
    (hspace : img.addr + img.raw.space ≤ img.mem.length) (hpos : 0 < img.raw.pageSize)
    (hpage : img.raw.pageSize < 2 ^ 31) : w.place .kernel = w.header + img.raw.space := by
  have hsize := hdrSize_le img.raw.kind
  have hround := roundUp_lt hpos img.raw.hdrSize
  have hheader := length_wrapper_le img
  have hlt : img.raw.space ≤ 2 ^ 31 + 5000 := by
    rw [Header.hdrSize] at hround
    rw [Header.space]
    split
    · rw [Header.hdrSize]
      omega
    · omega
  rw [hwrote.place_kernel hspace, hwrote.header]
  exact Nat.mod_eq_of_lt (by omega)

namespace KernelBlock

variable {n : Nat} {part : Payload} (hblock : KernelBlock env img n part)
  (hcopy : KernelCopy env img files skipComp part) (hwrote : Wrote env img files skipComp w)
  (hmtk : img.kernel.mtk = true → mtkHdrSize ≤ n)

include hblock hcopy hwrote hmtk

theorem get_out : w.out.hdr.get .kernelSize = part.size + img.kernelDtb.length := by
  have hle := hblock.n_le
  have hlt := img.raw.size_lt .kernel
  simp only [Block.sizeField] at hlt
  have hend := hblock.part_end_of_mtk hmtk
  have hmem : (.kernel, kernelSegment env img files skipComp) ∈ plainSegments env img files skipComp :=
    List.mem_cons_self
  have hsize := hwrote.run.size_of_mem _ hmem
  have hkind : (newHdr env img files).kind = img.raw.kind := sameOutside_newHdr.1
  have hfield := (table_eq_zero_of_kernel hblock.pos).2
  simp only [newSize, kernelSegment, Block.sizeField, hkind, hfield, if_true, hcopy.dtb, hcopy.body]
    at hsize
  rw [hsize, hblock.length_kernelDtb]
  exact Nat.mod_eq_of_lt (by omega)

variable (hdtb : img.kernelDtb.length ≤ sendfileMax)
  (hspace : img.addr + img.raw.space ≤ img.mem.length) (hpos : 0 < img.raw.pageSize)
  (hpage : img.raw.pageSize < 2 ^ 31)

include hdtb hspace hpos

theorem slice_data :
    w.header + img.raw.space + img.raw.get .kernelSize ≤ w.tail ∧
      slice w.data (w.header + img.raw.space) (img.raw.get .kernelSize) = img.block .kernel := by
  have hkernel := hwrote.slice_kernel hspace hpos
  rwa [hblock.bytes_copy hcopy hmtk hdtb, hblock.length_block] at hkernel

theorem le_place_ramdisk
    (hsmall : w.header + roundUp img.raw.pageSize (img.raw.space + img.raw.get .kernelSize) < 2 ^ 32) :
    w.header + img.raw.space + img.raw.get .kernelSize ≤ w.place .ramdisk := by
  have hbytes : (kernelSegment env img files skipComp).piece.bytes.length
      = img.raw.get .kernelSize := by
    rw [Segment.piece, hblock.bytes_copy hcopy hmtk hdtb, hblock.length_block]
  have hnext : next img.raw.pageSize img.raw.space (kernelSegment env img files skipComp).piece
      = roundUp img.raw.pageSize (img.raw.space + img.raw.get .kernelSize) := by
    rw [next, if_pos (show (kernelSegment env img files skipComp).piece.aligned = true from rfl), hbytes]
  have hle := le_roundUp hpos (img.raw.space + img.raw.get .kernelSize)
  rw [hwrote.place_ramdisk hspace, hnext, Nat.mod_eq_of_lt hsmall]
  omega

include hpage

variable (hramdisk : img.ramdisk.mtk = true →
  w.header + img.raw.space + img.raw.get .kernelSize ≤ w.place .ramdisk)

include hramdisk

theorem slice_patchMtks_kernel :
    slice (patchMtks img w) (w.header + img.raw.space) (img.raw.get .kernelSize)
      = resized img .kernel := by
  obtain ⟨htail, hslice⟩ := hblock.slice_data hcopy hwrote hmtk hdtb hspace hpos
  rw [patchMtks, slice_patchMtk _ (fun hr => .inl (by have := hramdisk hr; omega)), patchMtk, resized,
    mtkOf]
  split
  · rename_i hk
    have hsize := hblock.part_end_of_mtk hmtk
    have hlength := hblock.length_kernelDtb
    have hle := hblock.n_le
    have hn := hmtk hk
    have hhdr : mtkHdrSize = 512 := rfl
    have hstart : part.start = mtkHdrSize := by
      rcases hblock.mtk_cases with ⟨h, -⟩ | ⟨-, h, -⟩
      · rw [h] at hk
        cases hk
      · exact h
    have hword : w.out.hdr.get .kernelSize = img.raw.get .kernelSize - mtkHdrSize := by
      rw [hblock.get_out hcopy hwrote hmtk]
      omega
    simp only [Block.sizeField, hword, hwrote.place_kernel_eq hspace hpos hpage]
    rw [slice_patch_inside (by rw [length_leBytes]; omega), hslice]
  · exact hslice

theorem slice_patched_kernel :
    slice (patched env img files skipComp w).1 (w.header + img.raw.space)
        (img.raw.get .kernelSize) = resized img .kernel := by
  have hmtks := hblock.slice_patchMtks_kernel hcopy hwrote hmtk hdtb hspace hpos hpage hramdisk
  rw [fst_patched, patchStub]
  cases hz : img.kernel.zInfo with
  | none => exact hmtks
  | some z =>
      obtain ⟨hparts, hsum, hpiggy, -⟩ := hblock.zImage_eq hz
      have hppos := List.length_pos_of_ne_nil hpiggy
      rcases hcopy.stub z hz with hpayload | hpayload
      · simp only [hpayload, ne_eq, not_true_eq_false, if_false]
        exact hmtks
      have hend := hblock.part_end_of_mtk hmtk
      have hn := hblock.n_le
      have hroom : (if img.kernel.mtk then mtkHdrSize else 0) = part.start := by
        rcases hblock.mtk_cases with ⟨h, hstart, -⟩ | ⟨h, hstart, -⟩
        · rw [h, hstart, if_neg Bool.false_ne_true]
        · rw [h, hstart, if_pos rfl]
      have hpart : slice (img.block .kernel) part.start part.size = z.head ++ z.piggy ++ z.tail := by
        rw [hparts, BootImg.block, Block.sizeField, slice_slice (by omega), slice_drop]
      have hhead : slice (resized img .kernel) part.start z.head.length = z.head := by
        have hold : slice (img.block .kernel) part.start z.head.length = z.head := by
          rw [← Nat.add_zero part.start, ← slice_slice (n := part.size) (by omega), hpart,
            List.append_assoc, slice, List.drop_zero, List.take_left]
        rw [resized, mtkOf]
        split
        · rename_i hk
          have hhdr : mtkHdrSize = 512 := rfl
          rw [if_pos hk] at hroom
          rw [slice_patch_of_disjoint (.inr (by rw [length_leBytes]; omega)), hold]
        · exact hold
      have hself : patch (patchMtks img w) (w.place .kernel + if img.kernel.mtk then mtkHdrSize else 0)
          (z.newHead z.piggy.length) = patchMtks img w := by
        apply patch_eq_self
        rw [ZImage.newHead_length, hroom, hwrote.place_kernel_eq hspace hpos hpage,
          ← slice_slice (n := img.raw.get .kernelSize) (by omega), hmtks, hhead]
      simp only [hpayload, ne_eq, hppos.ne', not_false_eq_true, if_true, hself]
      exact hmtks

end KernelBlock

/-- `repack` leads to the old kernel block, apart from the size word of an MTK header. -/
def KernelCopied (env : Env) (file : List UInt8) (img : BootImg) (files : Files) (skipComp : Bool) :
    Prop :=
  ∃ w out, writeImg env img files skipComp = some w ∧ repack env file files skipComp = some out ∧
    (finalHdr env img files skipComp w).get .kernelSize = img.raw.get .kernelSize ∧
    slice out (w.header + img.raw.space) (img.raw.get .kernelSize) = resized img .kernel

variable (env img files skipComp) in
/-- Nothing that `repack` writes, with components of the sizes that image and files give, gets into the place
of the kernel. -/
structure KernelUndisturbed : Prop where
  page : img.raw.pageSize < 2 ^ 31
  header : 0 < img.raw.get .kernelSize → HeaderFits img
  mtk : img.kernel.mtk = true → mtkHdrSize ≤ img.kernel.dtb.getD (img.raw.get .kernelSize)
  ramdisk : 0 < img.raw.get .kernelSize → img.ramdisk.mtk = true →
    (wrapper img).length + roundUp img.raw.pageSize (img.raw.space + img.raw.get .kernelSize) < 2 ^ 32
  late : ∃ sizes, componentSizes env img files skipComp = some sizes ∧ Undisturbed env img (imageEnd img sizes)

theorem not_kernelCopied_of_lost (lost : Nat) (hload : load env file = some img) {n : Nat}
    {part : Payload} (hblock : KernelBlock env img n part) (hpos : 0 < lost) (hlt : lost < 2 ^ 32)
    (hlost : (kernelBody env img files skipComp).2 + (files.kernelDtb.getD []).length + lost
      = part.size + img.kernelDtb.length) : ¬ KernelCopied env file img files skipComp := by
  obtain ⟨flags, hparsed, -⟩ := load_parsed hload
  have htable := (table_eq_zero_of_kernel hblock.pos).1
  rintro ⟨w, out, hwrite, -, hget, -⟩
  obtain ⟨w', hwrite', hwrote⟩ := writeImg_wrote htable hparsed.pageSize_pos
    (pageSize_lt_of_writeImg hwrite)
  rw [hwrite, Option.some.injEq] at hwrite'
  subst hwrite'
  have hfinal := finalHdr_get hwrote .kernel
  simp only [Block.sizeField, segmentOf] at hfinal
  rw [hfinal, hblock.describedSize_eq_iff lost hlt hlost] at hget
  omega

theorem kernelCopied_of_copy (hload : load env file = some img) {n : Nat} {part : Payload}
    (hblock : KernelBlock env img n part) (hcopy : KernelCopy env img files skipComp part)
    (hdtb : img.kernelDtb.length ≤ sendfileMax) (hundisturbed : KernelUndisturbed env img files skipComp) :
    KernelCopied env file img files skipComp := by
  obtain ⟨flags, hparsed, -⟩ := load_parsed hload
  obtain ⟨sizes, hsizes, hlate⟩ := hundisturbed.late
  have hpage := hundisturbed.page
  have htable := (table_eq_zero_of_kernel hblock.pos).1
  have hpos := hparsed.pageSize_pos
  have hspace := hparsed.space_le hpage
  obtain ⟨w, hwrite, hwrote⟩ := writeImg_wrote htable hpos hpage
  have hmtk : img.kernel.mtk = true → mtkHdrSize ≤ n := by
    rw [hblock.n_eq]
    exact hundisturbed.mtk
  obtain ⟨out, hrepack, -, -, hframe⟩ := exists_repack hload hwrite
    (tail_eq_imageEnd hload hwrite hsizes) hlate
  refine ⟨w, out, hwrite, hrepack, ?_, ?_⟩
  · have hfinal := finalHdr_get hwrote .kernel
    simp only [Block.sizeField, segmentOf] at hfinal
    rw [hfinal, hblock.describedSize_eq_iff 0 (by decide) (by rw [hcopy.body, hcopy.dtb, Nat.add_zero])]
  · obtain ⟨hle, -⟩ := hblock.slice_data hcopy hwrote hmtk hdtb hspace hpos
    rw [hframe _ _ (Nat.le_add_right _ _) hle,
      slice_withHeader_of_fits hwrote (hundisturbed.header hblock.pos) hpos hpage le_rfl]
    apply hblock.slice_patched_kernel hcopy hwrote hmtk hdtb hspace hpos hpage
    intro hramdisk
    apply hblock.le_place_ramdisk hcopy hwrote hmtk hdtb hspace hpos
    rw [hwrote.header]
    exact hundisturbed.ramdisk hblock.pos hramdisk

/-- `unpack` and `repack` without the codecs lead to the old kernel block, apart from the size word of an
MTK header. -/
def KernelKept (env : Env) (file : List UInt8) (img : BootImg) : Prop :=
  ∃ files code w out, unpack env file true false {} = some (files, code) ∧
    writeImg env img files true = some w ∧ repack env file files true = some out ∧
    (finalHdr env img files true w).get .kernelSize = img.raw.get .kernelSize ∧
    slice out (w.header + img.raw.space) (img.raw.get .kernelSize) = resized img .kernel

theorem kernelBlock_of_load (hload : load env file = some img) :
    img.raw.get .kernelSize = 0 ∧ img.kernel = {} ∨ ∃ n part, KernelBlock env img n part := by
  obtain ⟨flags, hparsed, -⟩ := load_parsed hload
  have hkernel := hparsed.kernel
  rw [← hparsed.mem_eq] at hkernel
  exact kernelBlock_of_parseKernel hkernel

theorem kernelBlock_of_ne (hload : load env file = some img) (hne : img.kernel ≠ {}) :
    ∃ n part, KernelBlock env img n part :=
  (kernelBlock_of_load hload).resolve_left fun hnone => hne hnone.2

theorem kernelBlock_of_zInfo (hload : load env file = some img)
    (hz : img.kernel.zInfo = some z) : ∃ n part, KernelBlock env img n part := by
  apply kernelBlock_of_ne hload
  intro hnone
  rw [hnone] at hz
  cases hz

theorem kernelKept_iff (hload : load env file = some img)
    (htable : img.raw.get .vendorRamdiskTableSize = 0) :
    KernelKept env file img ↔ KernelCopied env file img (unpackedFiles env img true) true := by
  constructor
  · rintro ⟨files, code, w, out, hunpack, hrest⟩
    rw [unpack_eq hload htable, Option.some.injEq, Prod.mk.injEq] at hunpack
    obtain ⟨rfl, -⟩ := hunpack
    exact ⟨w, out, hrest⟩
  · rintro ⟨w, out, hrest⟩
    exact ⟨_, _, w, out, unpack_eq hload htable, hrest⟩

theorem not_kernelKept (hload : load env file = some img)
    (hz : img.kernel.zInfo = some z) (hfmt : z.fmt ≠ .gzip) : ¬ KernelKept env file img := by
  obtain ⟨n, part, hblock⟩ := kernelBlock_of_zInfo hload hz
  rw [kernelKept_iff hload (table_eq_zero_of_kernel hblock.pos).1]
  have hshort := hblock.kernelBody_short hz hfmt
  have hlt := hblock.part_size_lt
  have hdtb : (unpackedFiles env img true).kernelDtb.getD [] = img.kernelDtb := getD_dump
  apply not_kernelCopied_of_lost
    (part.size - (kernelBody env img (unpackedFiles env img true) true).2) hload hblock
  · omega
  · omega
  · rw [hdtb]
    omega

theorem kernelKept_of_gzip (hload : load env file = some img)
    (hz : img.kernel.zInfo = some z) (hfmt : z.fmt = .gzip) (hdtb : img.kernelDtb.length ≤ sendfileMax)
    (hundisturbed : KernelUndisturbed env img (unpackedFiles env img true) true) :
    KernelKept env file img := by
  obtain ⟨n, part, hblock⟩ := kernelBlock_of_zInfo hload hz
  rw [kernelKept_iff hload (table_eq_zero_of_kernel hblock.pos).1]
  have hmtk := hundisturbed.mtk
  rw [← hblock.n_eq] at hmtk
  refine kernelCopied_of_copy hload hblock (hblock.kernelCopy_raw hmtk ?_) hdtb hundisturbed
  intro z' hz'
  rw [hz, Option.mem_some_iff] at hz'
  rw [← hz', hfmt]

end Kernel

def zImageBlocks (z : ZImage) : Block → List UInt8 := single .kernel (z.head ++ z.piggy ++ z.tail)

def zImagePart (z : ZImage) : KernelPart where
  start := z.head.length
  size := if z.fmt ≠ .gzip then z.piggy.length - 4 else z.piggy.length
  fmt := z.fmt
  zInfo := some z

def zImageFile (z : ZImage) : List UInt8 := assemble (v1Of (zImageBlocks z)) (zImageBlocks z)

def zImageImg (z : ZImage) : BootImg :=
  assembled (v1Of (zImageBlocks z)) (zImageBlocks z) (zImagePart z) {} .unknown

theorem v1Blocks_zImage (hlt : (z.head ++ z.piggy ++ z.tail).length < 2 ^ 32) :
    V1Blocks (zImageBlocks z) := v1Blocks_of_not_mem (by decide) hlt

section Load

variable {env : Env} (hdtb : ∀ buf, dtbOffset env.fdtAccepts buf = none) {z : ZImage}
  (hparse : ZImage.parse (z.head ++ z.piggy ++ z.tail) = some z)
  (hfmt : checkFmtLg (z.head ++ z.piggy ++ z.tail) (z.head ++ z.piggy ++ z.tail).length
    = some .zimage)

include hdtb hparse hfmt

theorem parseKernel_zImage :
    parseKernel env (z.head ++ z.piggy ++ z.tail) (z.head ++ z.piggy ++ z.tail).length
      = some (zImagePart z) := by
  have hpos : (z.head ++ z.piggy ++ z.tail).length ≠ 0 := by
    have hpiggy := List.length_pos_of_ne_nil (ZImage.parse_parts hparse).2.2.1
    rw [List.length_append, List.length_append]
    omega
  have hslice : slice (z.head ++ z.piggy ++ z.tail) 0 (z.head ++ z.piggy ++ z.tail).length
      = z.head ++ z.piggy ++ z.tail := by
    rw [slice, List.drop_zero, List.take_length]
  simp only [parseKernel, if_neg hpos, lt_irrefl, if_false, hdtb, Option.getD_none,
    unwrapMtk, hfmt, splitZImage, Option.bind_eq_bind, Option.bind_some, Option.pure_def, if_true,
    reduceCtorEq, Nat.zero_add, hslice, hparse]
  simp [zImagePart]

theorem load_zImage (hhost : env.hostPage ∣ 4096)
    (hlt : (z.head ++ z.piggy ++ z.tail).length < 2 ^ 32) :
    load env (zImageFile z) = some (zImageImg z) := by
  have hkernel : zImageBlocks z .kernel = z.head ++ z.piggy ++ z.tail := rfl
  apply load_v1 (v1Blocks_zImage hlt) hhost
  refine ⟨parseKernel_zImage hdtb hparse hfmt, ?_, rfl, mtkFits_nil _ le_rfl, rfl⟩
  rw [hkernel, kernelEnd, hdtb, Option.getD_none, MtkFits, hfmt]
  rintro ⟨⟩

end Load

def gzipZImage : ZImage :=
  { ZImage.sampleZImage with piggy := gzip1Magic ++ zeros 14, fmt := .gzip }

theorem load_gzipZImage : load sampleEnv (zImageFile gzipZImage) = some (zImageImg gzipZImage) :=
  load_zImage dtbOffset_sampleEnv (by rfl) (by rfl) dvd_rfl (by decide)

theorem load_sampleZImage :
    load sampleEnv (zImageFile ZImage.sampleZImage) = some (zImageImg ZImage.sampleZImage) :=
  load_zImage dtbOffset_sampleEnv (by rfl) (by rfl) dvd_rfl (by decide)

theorem kernelUndisturbed_gzipZImage (files : Files) (skipComp : Bool) :
    KernelUndisturbed sampleEnv (zImageImg gzipZImage) files skipComp where
  page := by
    rw [show (zImageImg gzipZImage).raw.pageSize = 4096 from pageSize_v1Header _ _ _ _]
    decide
  header _ := by
    rw [HeaderFits, show (zImageImg gzipZImage).raw.space = 4096 from space_v1Header _ _ _ _]
    decide
  mtk h := by cases h
  ramdisk _ h := by cases h
  late := by
    have htable : (zImageImg gzipZImage).raw.get .vendorRamdiskTableSize = 0 := Header.get_eq_zero rfl
    exact ⟨_, by rw [componentSizes, segments_eq htable]; rfl, (fun h => by cases h), (fun h => by cases h),
      fun _ h => by cases h⟩

end MagiskNative.Boot
