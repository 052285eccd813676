import MagiskNative.Boot.Avb
import MagiskNative.Boot.Parts

/-!
# What `repack` leaves alone

The blocks are written first and patched over afterwards: AVB structures, the checksum of a wrapper and a
boot signature go to places that were noted while writing. Where these places are depends on the end of the
image only.
-/

namespace MagiskNative.Boot

open Bytes Layout

section

variable {env : Env} {file : List UInt8} {img : BootImg} {files : Files} {skipComp : Bool} {w : Written}
  {stop : Nat}

variable (env img stop) in
/-- With an image that ends at `stop` the output can be patched, and none of the late patches gets into the
image. -/
structure Undisturbed : Prop where
  signature : img.flags.avb1Signed = true → (wrapper img).length + stop < 2 ^ 32
  /-- the checksum in a DHTB header is taken over 20 bytes more than there are -/
  mapped : img.flags.dhtb = true →
    dhtbHdrSize + (stop + 20) % 2 ^ 32 ≤ roundUp env.hostPage (outputLength img stop)
  /-- the descriptors are read in what the footer leaves of the blob -/
  avb : ∀ vbmeta, img.vbmeta = some vbmeta →
    vbmetaPlace img stop < 2 ^ 32 ∧ outputLength img stop < 2 ^ 63 ∧
      WalkEnds env
        ((vbmetaBlob img vbmeta).take (outputLength img stop - avbFooterSize - vbmetaPlace img stop))

theorem kernel_of_table {mem : List UInt8} {mapSize : Nat} {flags : Flags}
    (hparsed : Parsed env mem mapSize flags img) (htable : img.raw.get .vendorRamdiskTableSize ≠ 0) :
    img.kernel = {} ∧ img.ramdisk.mtk = false := by
  constructor
  · have hzero : img.raw.get .kernelSize = 0 := by
      by_contra hpos
      exact htable (table_eq_zero_of_kernel (Nat.pos_of_ne_zero hpos)).1
    have hkernel := hparsed.kernel
    rw [hzero, parseKernel, if_pos rfl, Option.some.injEq] at hkernel
    exact hkernel.symm
  · have hramdisk := hparsed.ramdisk
    by_cases hzero : img.raw.get .ramdiskSize = 0
    · rw [parseRamdisks, if_neg (fun h => h.1 hzero), hzero, parseRamdisk, if_pos rfl,
        Option.some.injEq] at hramdisk
      rw [← hramdisk]
    · rw [parseRamdisks, if_pos ⟨hzero, htable⟩] at hramdisk
      simp only [Option.bind_eq_bind, Option.bind_eq_some_iff, Option.pure_def, Option.some.injEq] at hramdisk
      obtain ⟨-, -, -, -, hpart⟩ := hramdisk
      rw [← hpart]

theorem slice_copyHeader_of_le {h : Header} (hkind : h.kind = img.raw.kind) {data : List UInt8} {off n : Nat}
    (hoff : w.header + 4096 ≤ off) : slice (copyHeader img w data h) off n = slice data off n := by
  have hsize := hdrSize_le img.raw.kind
  have hlength := h.length_raw
  rw [hkind] at hlength
  rw [copyHeader]
  split
  · apply slice_patch_of_disjoint
    have htake := List.length_take_le' (realHdrSz h) h.raw
    have hloader : amonetMicroloaderSz = 1024 := rfl
    omega
  · apply slice_patch_of_disjoint
    omega

theorem Header.space_pos (h : Header) (hpos : 0 < h.pageSize) : 0 < h.space := by
  rw [Header.space]
  split
  · exact lt_of_lt_of_le (lt_of_lt_of_le (by decide) (le_hdrSize _)) (le_roundUp hpos _)
  · exact hpos

theorem length_wrapper_le (img : BootImg) : (wrapper img).length ≤ 2 ^ 20 := by
  have hslice : ∀ n, n ≤ 2 ^ 20 → (slice img.mem 0 n).length ≤ 2 ^ 20 := by
    intro n hn
    rw [length_slice]
    omega
  rw [wrapper]
  repeat' split
  all_goals first | exact hslice _ (by decide) | exact Nat.zero_le _

variable (hload : load env file = some img) (hwrite : writeImg env img files skipComp = some w)

include hload hwrite

theorem slice_patched_of_tail {off n : Nat} (hoff : w.tail ≤ off) :
    slice (patched env img files skipComp w).1 off n = slice w.data off n := by
  obtain ⟨flags, hparsed, -⟩ := load_parsed hload
  have hpage := pageSize_lt_of_writeImg hwrite
  by_cases htable : img.raw.get .vendorRamdiskTableSize = 0
  · obtain ⟨w', hwrite', hwrote⟩ := writeImg_wrote htable hparsed.pageSize_pos hpage
    obtain rfl : w = w' := Option.some.inj (hwrite.symm.trans hwrite')
    have hle := hwrote.tail
    rw [List.length_append] at hle
    exact slice_patched_of_le hparsed hwrote hpage htable (by omega)
  · obtain ⟨hkernel, hmtk⟩ := kernel_of_table hparsed htable
    rw [fst_patched, patchStub, patchMtks, hkernel, hmtk]
    rfl

theorem slice_withHeader_blob {vbmeta : Nat} (hvbmeta : img.vbmeta = some vbmeta) {n : Nat}
    (hn : n ≤ (vbmetaBlob img vbmeta).length) :
    slice (withHeader env img files skipComp w) w.vbmeta n = (vbmetaBlob img vbmeta).take n := by
  obtain ⟨flags, hparsed, -⟩ := load_parsed hload
  have hpos := hparsed.pageSize_pos
  obtain ⟨segs, -, hwrote⟩ := wroteSegments_of_writeImg hpos hwrite
  obtain ⟨fd, hoff, hdata, hpre, hend⟩ := writeImg_vbmeta hwrite hvbmeta
  have hspace := hparsed.space_le (pageSize_lt_of_writeImg hwrite)
  have htail := hwrote.space_le_tail hspace
  have hspacePos := img.raw.space_pos hpos
  have hle := hpre.length_le
  rw [← hwrote.tail, ← hoff] at hle
  -- The header, with the loader in front of it, is shorter than the 4096 bytes that the blob is aligned to.
  have hfar : w.header + 4096 ≤ w.vbmeta := by
    obtain ⟨k, hk⟩ : 4096 ∣ w.vbmeta - w.header := by
      have halign : alignedEnd 4096 w.header (w.header + _) = _ := alignedEnd_add (by decide) w.header
        (alignedEnd img.raw.pageSize w.header w.tail - w.header)
      have hge : w.header ≤ alignedEnd img.raw.pageSize w.header w.tail := by
        rw [alignedEnd]
        omega
      rw [Nat.add_sub_cancel' hge, ← hend] at halign
      rw [halign, Nat.add_sub_cancel_left]
      exact dvd_roundUp _ _
    omega
  have hblob := slice_append_right fd (vbmetaBlob img vbmeta) 0 n
  rw [Nat.add_zero] at hblob
  rw [withHeader, slice_copyHeader_of_le (sameOutside_final skipComp hwrote).1 hfar,
    slice_patched_of_tail hload hwrite hle, hdata,
    slice_of_isPrefix (prefix_padToSource _) (by rw [List.length_append]; omega), hoff, hblob, slice,
    List.drop_zero]

variable (htail : w.tail = w.header + stop) (hundisturbed : Undisturbed env img stop)

include htail hundisturbed

theorem exists_patchAvb :
    ∃ data, patchAvb env img w (withHeader env img files skipComp w) = some data ∧
      data.length = w.data.length ∧ ∀ off n, off + n ≤ w.tail →
        slice data off n = slice (withHeader env img files skipComp w) off n := by
  have hlength : (withHeader env img files skipComp w).length = w.data.length := length_withHeader
  obtain ⟨hdata, hplace⟩ := layout_of_tail hload hwrite htail
  cases hvbmeta : img.vbmeta with
  | none =>
      refine ⟨_, ?_, hlength, fun _ _ _ => rfl⟩
      rw [patchAvb, hvbmeta]
      split
      · contradiction
      · rfl
  | some vbmeta =>
      obtain ⟨hlt, hsmall, hwalk⟩ := hundisturbed.avb vbmeta hvbmeta
      have hlong := hwalk.1
      obtain ⟨hfooter, -⟩ := vbmeta_of_load hload hvbmeta
      obtain ⟨fd, hoff, -, hpre, -⟩ := writeImg_vbmeta hwrite hvbmeta
      obtain ⟨flags, hparsed, -⟩ := load_parsed hload
      obtain ⟨segs, -, hwrote⟩ := wroteSegments_of_writeImg hparsed.pageSize_pos hwrite
      have hle := hpre.length_le
      rw [← hwrote.tail, ← hoff] at hle
      rw [← hplace vbmeta hvbmeta, ← hdata, ← hlength] at hwalk hlong
      rw [← hplace vbmeta hvbmeta] at hlt
      rw [← hdata, ← hlength] at hsmall
      rw [List.length_take] at hlong
      have hblob := slice_withHeader_blob hload hwrite hvbmeta (List.length_take_le'
        ((withHeader env img files skipComp w).length - avbFooterSize - w.vbmeta) (vbmetaBlob img vbmeta))
      rw [List.length_take, ← List.take_eq_take_min, ← List.length_take] at hblob
      obtain ⟨data, hpatch, hsame, hbefore⟩ := patchAvb_frame hfooter hvbmeta hlt hsmall hblob
        (by rw [List.length_take]; omega) hwalk
      exact ⟨data, hpatch, hsame.trans hlength, fun off n hoff => hbefore off n (by omega)⟩

/-- **Late patches.** `repack` comes to its end, and from the header to the end of the image the output is
what was there before the AVB structures, the wrapper and the signature were patched. -/
theorem exists_repack :
    ∃ out, repack env file files skipComp = some out ∧ w.data.length ≤ out.length ∧
      (img.flags.avb1Signed = false → out.length = w.data.length) ∧
      ∀ off n, w.header ≤ off → off + n ≤ w.tail →
        slice out off n = slice (withHeader env img files skipComp w) off n := by
  obtain ⟨data, hpatch, hlength, hbefore⟩ := exists_patchAvb hload hwrite htail hundisturbed
  obtain ⟨hdata, -⟩ := layout_of_tail hload hwrite htail
  obtain ⟨flags, hparsed, -⟩ := load_parsed hload
  obtain ⟨segs, -, hwrote⟩ := wroteSegments_of_writeImg hparsed.pageSize_pos hwrite
  have hheader := hwrote.header
  have hle := hwrote.prefix_data.length_le
  rw [← hwrote.tail, ← hlength] at hle
  have hmem : 512 ≤ img.mem.length := by
    have hspace := hparsed.space_le (pageSize_lt_of_writeImg hwrite)
    have hpos := img.raw.space_pos hparsed.pageSize_pos
    rw [hparsed.mem_eq] at hspace ⊢
    exact (le_trans (by decide) env.hostPage_ge).trans (Nat.le_of_dvd (by omega) (env.dvd_length_map file))
  have hmapped : WrapperMapped env img w data := by
    intro hdhtb
    have hroom := hundisturbed.mapped hdhtb
    have hwrapper := length_wrapper_le img
    have hsize : dhtbSize w = (stop + 20) % 2 ^ 32 := by
      rw [dhtbSize, aospImgSize, htail]
      omega
    rwa [hsize, env.length_map, hlength, hdata]
  have hsigned : img.flags.avb1Signed = true → w.tail < 2 ^ 32 := by
    rw [htail, hheader]
    exact hundisturbed.signature
  refine ⟨signImg env img w (patchWrapper env img w data), ?_, ?_, ?_, ?_⟩
  · rw [repack, hload]
    simp only [Option.bind_eq_bind, Option.bind_some, repackImg, hwrite, hpatch, if_pos hmapped]
    rfl
  · have hsame := length_le_signImg env img w (patchWrapper env img w data)
    rwa [length_patchWrapper, hlength] at hsame
  · intro hunsigned
    rw [signImg, hunsigned, if_neg Bool.false_ne_true, length_patchWrapper, hlength]
  · intro off n hoff hend
    rw [slice_signImg hsigned (by rwa [length_patchWrapper]) hend,
      slice_patchWrapper_of_header hmem (hheader ▸ hoff), hbefore off n hend]

end

end MagiskNative.Boot
