import MagiskNative.Boot.Patched

/-!
# The parts of an accepted image

How a kernel block is made up of MTK header, payload and device tree, and which files unpacking makes
of an image in an empty directory.
-/

namespace MagiskNative.Boot

open Bytes Layout

/-- What unpacking writes into an empty directory, for an image without a vendor ramdisk table. -/
def unpackedFiles (env : Env) (img : BootImg) (skipDecomp : Bool) : Files :=
  let plain (blk : Block) := dump (img.raw.get blk.sizeField) (img.block blk) none
  { kernel := dumpPart env skipDecomp img.kernel.fmt img.kernel.size img.kernelBytes none
    kernelDtb := dump img.kernelDtb.length img.kernelDtb none
    ramdisk := dumpPart env skipDecomp img.ramdisk.fmt img.ramdisk.size img.ramdiskBytes none
    second := plain .second
    extra := dumpPart env skipDecomp img.eFmt (img.raw.get .extraSize) (img.block .extra) none
    recoveryDtbo := plain .recoveryDtbo
    dtb := plain .dtb
    bootconfig := plain .bootconfig }

theorem unpackImg_eq {env : Env} {img : BootImg} {skipDecomp : Bool}
    (htable : img.raw.get .vendorRamdiskTableSize = 0) :
    unpackImg env img skipDecomp false {} = some (unpackedFiles env img skipDecomp) := by
  rw [unpackImg, htable]
  rfl

theorem unpack_eq {env : Env} {file : List UInt8} {img : BootImg} {skipDecomp : Bool}
    (hload : load env file = some img) (htable : img.raw.get .vendorRamdiskTableSize = 0) :
    unpack env file skipDecomp false {} = some (unpackedFiles env img skipDecomp, unpackCode img) := by
  rw [unpack, hload]
  simp only [Option.bind_eq_bind, Option.bind_some, unpackImg_eq htable, Option.pure_def]

theorem getD_dump {bytes : List UInt8} : (dump bytes.length bytes none).getD [] = bytes := by
  rw [dump]
  split
  · rename_i hnil
    exact (List.eq_nil_of_length_eq_zero hnil).symm
  · rfl

section Kernel

variable {env : Env} {img : BootImg}

theorem table_eq_zero_of_kernel (hkernel : 0 < img.raw.get .kernelSize) :
    img.raw.get .vendorRamdiskTableSize = 0 ∧ (img.raw.kind.offset .kernelSize).isSome := by
  have hoffset : img.raw.kind.offset .kernelSize ≠ none := by
    intro hnone
    rw [Header.get_eq_zero hnone] at hkernel
    exact absurd hkernel (lt_irrefl 0)
  refine ⟨Header.get_eq_zero ?_, Option.ne_none_iff_isSome.1 hoffset⟩
  cases hk : img.raw.kind <;> rw [hk] at hoffset <;> first | rfl | exact absurd rfl hoffset

structure KernelBlock (env : Env) (img : BootImg) (n : Nat) (part : Payload) : Prop where
  pos : 0 < img.raw.get .kernelSize
  length : img.ptr .kernel + img.raw.get .kernelSize ≤ img.mem.length
  dtb : img.kernel.dtb = dtbOffset env.fdtAccepts (img.block .kernel)
  n_eq : n = img.kernel.dtb.getD (img.raw.get .kernelSize)
  unwrap : unwrapMtk (img.mem.drop (img.ptr .kernel)) n = some part
  split : splitZImage (img.mem.drop (img.ptr .kernel)) part
    = some (img.kernel.toPayload, img.kernel.zInfo)

theorem kernelBlock_of_parseKernel
    (hparse : parseKernel env (img.mem.drop (img.ptr .kernel)) (img.raw.get .kernelSize)
      = some img.kernel) :
    img.raw.get .kernelSize = 0 ∧ img.kernel = {} ∨ ∃ n part, KernelBlock env img n part := by
  rcases parseKernel_cases hparse with hnone | ⟨hpos, hlength, hdtb, part, hunwrap, hsplit⟩
  · exact .inl hnone
  · rw [List.length_drop] at hlength
    exact .inr ⟨_, part, hpos, by omega, hdtb, rfl, hunwrap, hsplit⟩

namespace KernelBlock

variable {n : Nat} {part : Payload} (hblock : KernelBlock env img n part)

include hblock

theorem length_block : (img.block .kernel).length = img.raw.get .kernelSize :=
  length_slice_of_le hblock.length

theorem kernelEnd_eq : kernelEnd env (img.block .kernel) = n := by
  rw [kernelEnd, hblock.length_block, ← hblock.dtb, hblock.n_eq]

theorem n_le : n ≤ img.raw.get .kernelSize := by
  have hle := kernelEnd_le env (img.block .kernel)
  rwa [hblock.kernelEnd_eq, hblock.length_block] at hle

theorem n_lt : n < 2 ^ 32 := lt_of_le_of_lt hblock.n_le (img.raw.size_lt .kernel)

theorem kernelDtb_eq :
    img.kernelDtb = slice img.mem (img.ptr .kernel + n) (img.raw.get .kernelSize - n) := by
  have hn := hblock.n_eq
  rw [BootImg.kernelDtb]
  cases hdtb : img.kernel.dtb with
  | none =>
      rw [hdtb, Option.getD_none] at hn
      rw [hn, Nat.sub_self]
      rfl
  | some off =>
      rw [hdtb, Option.getD_some] at hn
      rw [hn]

theorem length_kernelDtb : img.kernelDtb.length = img.raw.get .kernelSize - n := by
  have hlength := hblock.length
  have hle := hblock.n_le
  rw [hblock.kernelDtb_eq, length_slice_of_le (by omega)]

theorem mtk_eq : img.kernel.mtk = part.mtk := by
  rcases splitZImage_cases hblock.split with hpart | ⟨z, -, -, hpart⟩
  · rw [(Prod.mk.inj hpart).1]
  · rw [(Prod.mk.inj hpart).1]

theorem checkFmtLg_eq_mtk_iff :
    checkFmtLg (img.mem.drop (img.ptr .kernel)) n = some .mtk ↔ img.kernel.mtk = true := by
  rw [hblock.mtk_eq]
  exact checkFmtLg_eq_mtk_iff_of_unwrapMtk hblock.unwrap

theorem mtk_cases :
    img.kernel.mtk = false ∧ part.start = 0 ∧ part.size = n ∨
      img.kernel.mtk = true ∧ part.start = mtkHdrSize ∧
        part.size = (n + (2 ^ 32 - mtkHdrSize)) % 2 ^ 32 := by
  rw [hblock.mtk_eq]
  rcases unwrapMtk_cases hblock.unwrap with ⟨h, hstart, hsize, -⟩ | ⟨h, hstart, hsize, -⟩
  · exact .inl ⟨h, hstart, hsize⟩
  · exact .inr ⟨h, hstart, hsize⟩

theorem block_eq (hmtk : img.kernel.mtk = true → mtkHdrSize ≤ n) :
    img.block .kernel = mtkHdrOf img img.kernel.mtk .kernel
      ++ slice (img.mem.drop (img.ptr .kernel)) part.start part.size ++ img.kernelDtb := by
  have hle := hblock.n_le
  have hlt := hblock.n_lt
  have hsplit : img.block .kernel
      = slice img.mem (img.ptr .kernel) n
        ++ slice img.mem (img.ptr .kernel + n) (img.raw.get .kernelSize - n) := by
    rw [← slice_add, Nat.add_sub_cancel' hle]
    rfl
  rw [hsplit, hblock.kernelDtb_eq, mtkHdrOf, slice_drop]
  congr 1
  rcases hblock.mtk_cases with ⟨h, hstart, hsize⟩ | ⟨h, hstart, hsize⟩
  · rw [h, hstart, hsize, if_neg Bool.false_ne_true]
    rfl
  · have hn := hmtk h
    rw [h, hstart, hsize, mtk_size hn hlt, if_pos rfl]
    have hadd := slice_add img.mem (img.ptr .kernel) mtkHdrSize (n - mtkHdrSize)
    rw [Nat.add_sub_cancel' hn] at hadd
    exact hadd

end KernelBlock

end Kernel

end MagiskNative.Boot
