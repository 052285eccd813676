import MagiskNative.Boot.RawKernel

/-!
# Repacking without a kernel file

In a directory without a kernel file `repack` takes the payload from the source. Without a file for the
device tree behind it there is no device tree either, although the source has one, and a zImage keeps
its head only if the stream of its piggy is empty.
-/

namespace MagiskNative.Boot

open Bytes Layout

section Frame

variable {env : Env} {file : List UInt8} {img : BootImg} {files : Files} {skipComp : Bool}
  (hkernel : files.kernel = none)

namespace KernelBlock

variable {n : Nat} {part : Payload} (hblock : KernelBlock env img n part)

include hkernel hblock

theorem kernelBody_none (hstream : img.kernel.zInfo ≠ none → img.kernel.size ≠ 0) :
    kernelBody env img files skipComp
      = (slice (img.mem.drop (img.ptr .kernel)) part.start part.size, part.size) := by
  rw [kernelBody, hkernel]
  cases hz : img.kernel.zInfo with
  | none =>
      obtain ⟨-, hstart, hsize⟩ := hblock.kernel_cases.resolve_right (by simp [hz])
      have hbytes : img.kernelBytes
          = slice (img.mem.drop (img.ptr .kernel)) part.start part.size := by
        rw [BootImg.kernelBytes, hstart, hsize, slice_drop]
      by_cases hzero : img.kernel.size = 0
      · rw [hzero] at hsize
        simp [hzero, ← hsize, slice]
      · simp only [ne_eq, hzero, not_false_eq_true, if_true]
        rw [hbytes, hsize]
  | some z =>
      obtain ⟨hparts, hsum, -⟩ := hblock.zImage_eq hz
      have hsize := hstream (by rw [hz]; exact Option.some_ne_none z)
      simp only [ne_eq, hsize, not_false_eq_true, if_true, hparts, hsum]

theorem kernelBody_none_of_zero (hz : img.kernel.zInfo ≠ none) (hzero : img.kernel.size = 0) :
    (kernelBody env img files skipComp).2 = 0 ∧ 0 < part.size := by
  obtain ⟨z, hz⟩ := Option.ne_none_iff_exists'.1 hz
  obtain ⟨-, hsum, hpiggy, -⟩ := hblock.zImage_eq hz
  have hpos := List.length_pos_of_ne_nil hpiggy
  refine ⟨?_, by omega⟩
  rw [kernelBody, hkernel, hz]
  simp only [ne_eq, hzero, not_true_eq_false, if_false]

theorem kernelCopy_none (hfile : files.kernelDtb = none) (hdtb : img.kernel.dtb = none)
    (hstream : img.kernel.zInfo ≠ none → img.kernel.size ≠ 0) :
    KernelCopy env img files skipComp part where
  body := hblock.kernelBody_none hkernel hstream
  dtb := by rw [hfile, BootImg.kernelDtb, hdtb]; rfl
  stub z hz := .inl (by rw [zPayloadSz, hkernel])

omit hkernel in
theorem length_kernelDtb_pos (hdtb : img.kernel.dtb ≠ none) : 0 < img.kernelDtb.length := by
  obtain ⟨off, hoff⟩ := Option.ne_none_iff_exists'.1 hdtb
  have hlt := dtbOffset_lt (hblock.dtb.symm.trans hoff)
  rw [hblock.length_block] at hlt
  rw [hblock.length_kernelDtb, hblock.n_eq, hoff, Option.getD_some]
  omega

end KernelBlock

variable (hload : load env file = some img) (hfile : files.kernelDtb = none)

include hkernel hload hfile

theorem not_kernelCopied_of_dtb (hdtb : img.kernel.dtb ≠ none)
    (hstream : img.kernel.zInfo ≠ none → img.kernel.size ≠ 0) :
    ¬ KernelCopied env file img files skipComp := by
  obtain ⟨n, part, hblock⟩ := kernelBlock_of_ne hload (by rintro h; rw [h] at hdtb; exact hdtb rfl)
  have hpos := hblock.length_kernelDtb_pos hdtb
  have hlength := hblock.length_kernelDtb
  have hlt := img.raw.size_lt .kernel
  simp only [Block.sizeField] at hlt
  apply not_kernelCopied_of_lost img.kernelDtb.length hload hblock hpos (by omega)
  rw [hblock.kernelBody_none hkernel hstream, hfile]
  simp

theorem not_kernelCopied_of_zero (hz : img.kernel.zInfo ≠ none) (hzero : img.kernel.size = 0)
    (hmtk : img.kernel.mtk = true →
      mtkHdrSize ≤ img.kernel.dtb.getD (img.raw.get .kernelSize)) :
    ¬ KernelCopied env file img files skipComp := by
  obtain ⟨n, part, hblock⟩ := kernelBlock_of_ne hload (by rintro h; rw [h] at hz; exact hz rfl)
  rw [← hblock.n_eq] at hmtk
  obtain ⟨hbody, hpos⟩ : (kernelBody env img files skipComp).2 = 0 ∧ 0 < part.size :=
    hblock.kernelBody_none_of_zero hkernel hz hzero
  have hend := hblock.part_end_of_mtk hmtk
  have hle := hblock.n_le
  have hlength := hblock.length_kernelDtb
  have hlt := img.raw.size_lt .kernel
  simp only [Block.sizeField] at hlt
  apply not_kernelCopied_of_lost (part.size + img.kernelDtb.length) hload hblock
  · omega
  · omega
  · rw [hbody, hfile]
    simp

theorem kernelCopied_of_empty (hzero : img.raw.get .kernelSize = 0) (hnone : img.kernel = {})
    (hundisturbed : KernelUndisturbed env img files skipComp) :
    KernelCopied env file img files skipComp := by
  obtain ⟨flags, hparsed, -⟩ := load_parsed hload
  obtain ⟨sizes, hsizes, hlate⟩ := hundisturbed.late
  obtain ⟨segs, hsegs, -⟩ := Option.map_eq_some_iff.1 hsizes
  obtain ⟨w, hwrite, hwrote⟩ := writeImg_segments hsegs hparsed.pageSize_pos hundisturbed.page
  obtain ⟨out, hrepack, -⟩ := exists_repack hload hwrite (tail_eq_imageEnd hload hwrite hsizes) hlate
  refine ⟨w, out, hwrite, hrepack, ?_, ?_⟩
  · rw [hzero]
    by_cases htable : img.raw.get .vendorRamdiskTableSize = 0
    · obtain rfl := Option.some.inj (hsegs.symm.trans (segments_eq htable))
      have hfinal := finalHdr_get hwrote .kernel
      simp only [Block.sizeField, segmentOf] at hfinal
      rw [hfinal]
      simp [describedSize, kernelSegment, kernelBody, hkernel, hfile, hnone, mtkOf]
    · -- only a vendor image has a table, and none of these has a field for the size of a kernel
      apply Header.get_eq_zero
      rw [finalHdr, (sameOutside_final skipComp hwrote).1]
      by_contra hfield
      apply htable
      apply Header.get_eq_zero
      cases hk : img.raw.kind <;> rw [hk] at hfield <;> first | rfl | exact absurd rfl hfield
  · rw [resized, mtkOf, hnone, if_neg Bool.false_ne_true, block_eq_nil hzero, hzero, slice_zero]

end Frame

def treeEnv : Env where
  __ := sampleEnv
  fdtAccepts s := decide (0x84 < s.length)
  length_of_fdtAccepts s hs := by
    have hlt := of_decide_eq_true hs
    omega

def treeKernel : List UInt8 := zeros 4 ++ dtbMagic ++ zeros 136

def treePart : KernelPart where
  size := 4
  dtb := some 4

theorem length_treeKernel : treeKernel.length = 144 := by
  rw [treeKernel, List.length_append, List.length_append, length_zeros, length_zeros]
  rfl

theorem isDtb_treeEnv {buf : List UInt8} {off : Nat} :
    IsDtb treeEnv.fdtAccepts buf off ↔ dtbMagic <+: buf.drop off ∧ 0x84 < (buf.drop off).length :=
  and_congr_right fun _ => decide_eq_true_iff

theorem dtbOffset_treeKernel : dtbOffset treeEnv.fdtAccepts treeKernel = some 4 := by
  have hfind : findDtbOffset treeEnv.fdtAccepts treeKernel = some 4 := by
    rw [findDtbOffset_eq_some_iff treeEnv.length_of_fdtAccepts, isDtb_treeEnv, List.length_drop,
      length_treeKernel]
    refine ⟨⟨⟨zeros 136, rfl⟩, by decide⟩, ?_⟩
    intro i hi hdtb
    have hmagic := hdtb.1
    interval_cases i <;> exact not_prefix_of_head rfl (by decide) hmagic
  rw [dtbOffset, hfind]
  rfl

def treeFile : List UInt8 :=
  assemble (v1Of (single .kernel treeKernel)) (single .kernel treeKernel)

def treeImg : BootImg :=
  assembled (v1Of (single .kernel treeKernel)) (single .kernel treeKernel) treePart {} .unknown

theorem load_treeFile : load treeEnv treeFile = some treeImg := by
  have hlt : treeKernel.length < 2 ^ 32 := by
    rw [length_treeKernel]
    decide
  have hkernel : single .kernel treeKernel .kernel = treeKernel := rfl
  have hfmt : checkFmtLg treeKernel 4 = some .unknown := by
    have hread : readFmt treeKernel 4 = some (checkFmt (zeros 4)) := by
      rw [readFmt, if_pos (by rw [length_treeKernel]; decide)]
      rfl
    rw [checkFmtLg, hread]
    rfl
  apply load_v1 (v1Blocks_of_not_mem (by decide) hlt) dvd_rfl
  refine ⟨?_, ?_, rfl, mtkFits_nil _ le_rfl, rfl⟩
  · have htake : treeKernel.take treeKernel.length = treeKernel := List.take_length
    rw [hkernel, parseKernel, htake, dtbOffset_treeKernel, length_treeKernel]
    simp only [Option.getD_some, unwrapMtk, hfmt, splitZImage, Option.bind_eq_bind, Option.bind_some,
      Option.pure_def, reduceCtorEq, if_false]
    simp [treePart]
  · rw [hkernel, kernelEnd, dtbOffset_treeKernel, Option.getD_some, MtkFits, hfmt]
    rintro ⟨⟩

end MagiskNative.Boot
