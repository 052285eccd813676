import MagiskNative.Boot.Describes

/-!
# What the patches leave alone

Behind the header page the output differs from what was written only in the size words of MTK headers
and the stub of a zImage, as long as no AVB structures are patched and the offsets fit into 32 bits.
-/

namespace MagiskNative.Boot

open Bytes Layout

section

variable {env : Env} {img : BootImg} {files : Files} {skipComp : Bool} {w : Written}

variable {n off : Nat} {data : List UInt8}

theorem slice_patchMtk {mtk : Bool} {blk : Block} (s : List UInt8 × Header)
    (hapart : mtk = true → off + n ≤ w.place blk + 4 ∨ w.place blk + 8 ≤ off) :
    slice (patchMtk w mtk blk s).1 off n = slice s.1 off n := by
  cases mtk with
  | false => rfl
  | true =>
      apply slice_patch_of_disjoint
      rw [length_leBytes]
      have hword := hapart rfl
      omega

def patchMtks (img : BootImg) (w : Written) : List UInt8 :=
  (patchMtk w img.ramdisk.mtk .ramdisk (patchMtk w img.kernel.mtk .kernel (w.data, w.out.hdr))).1

theorem fst_patched :
    (patched env img files skipComp w).1 = patchStub env img files skipComp w (patchMtks img w) := rfl

/-- The size words in MTK headers are all that is patched in the blocks. -/
theorem slice_patchMtks
    (hkernel : img.kernel.mtk = true → off + n ≤ w.place .kernel + 4 ∨ w.place .kernel + 8 ≤ off)
    (hramdisk : img.ramdisk.mtk = true → off + n ≤ w.place .ramdisk + 4 ∨ w.place .ramdisk + 8 ≤ off) :
    slice (patchMtks img w) off n = slice w.data off n := by
  rw [patchMtks, slice_patchMtk _ hramdisk, slice_patchMtk _ hkernel]

/-- The header that is copied stays inside its page. -/
def HeaderFits (img : BootImg) : Prop :=
  if img.flags.amonet then amonetMicroloaderSz ≤ img.raw.space else img.raw.hdrSize ≤ img.raw.space

theorem slice_copyHeader (hfits : HeaderFits img) {h : Header} (hkind : h.kind = img.raw.kind)
    (hspace : h.hdrSpace = some img.raw.space) (hlt : img.raw.space < 2 ^ 64)
    (hoff : w.header + img.raw.space ≤ off) :
    slice (copyHeader img w data h) off n = slice data off n := by
  rw [HeaderFits] at hfits
  rw [copyHeader]
  split
  · rename_i hamonet
    rw [if_pos hamonet] at hfits
    have hroom : (img.raw.space + (2 ^ 64 - amonetMicroloaderSz)) % 2 ^ 64
        = img.raw.space - amonetMicroloaderSz := by
      have hsize : amonetMicroloaderSz = 1024 := rfl
      omega
    apply slice_patch_of_disjoint
    rw [realHdrSz, hspace, Option.getD_some, hroom, List.length_take]
    omega
  · rename_i hamonet
    rw [if_neg hamonet] at hfits
    apply slice_patch_of_disjoint
    rw [h.length_raw, hkind]
    rw [Header.hdrSize] at hfits
    omega

theorem slice_patchWrapper (hoff : 104 ≤ off) :
    slice (patchWrapper env img w data) off n = slice data off n := by
  rw [patchWrapper]
  split
  · simp only
    rw [slice_patch_of_disjoint, slice_patch_of_disjoint]
    · rw [length_leBytes]
      omega
    · rw [List.length_take]
      omega
  · split
    · apply slice_patch_of_disjoint
      rw [length_leBytes]
      omega
    · rfl

theorem slice_patchWrapper_of_header
    (hmem : 512 ≤ img.mem.length) (hoff : (wrapper img).length ≤ off) :
    slice (patchWrapper env img w data) off n = slice data off n := by
  by_cases hdhtb : img.flags.dhtb = true
  · rw [wrapper, if_pos hdhtb, length_slice_of_le (by rwa [Nat.zero_add])] at hoff
    exact slice_patchWrapper (le_trans (by decide) hoff)
  · by_cases hblob : img.flags.blob = true
    · rw [wrapper, if_neg hdhtb, if_pos hblob,
        length_slice_of_le (le_trans (by decide) hmem)] at hoff
      exact slice_patchWrapper hoff
    · rw [patchWrapper, if_neg hdhtb, if_neg hblob]

theorem slice_signImg
    (htail : img.flags.avb1Signed = true → w.tail < 2 ^ 32) (hdata : w.tail ≤ data.length)
    (hle : off + n ≤ w.tail) : slice (signImg env img w data) off n = slice data off n := by
  rw [signImg]
  split
  · rename_i hsigned
    simp only [Nat.mod_eq_of_lt (htail hsigned)]
    split
    · exact slice_writeAt hdata hle
    · rfl
  · rfl

variable (env img w) in
theorem length_le_signImg (data : List UInt8) : data.length ≤ (signImg env img w data).length := by
  rw [signImg]
  split
  · simp only
    split
    · rw [length_writeAt]
      exact le_max_left _ _
    · exact le_rfl
  · exact le_rfl

theorem length_copyHeader (data : List UInt8) (h : Header) :
    (copyHeader img w data h).length = data.length := by
  rw [copyHeader]
  split <;> exact length_patch _ _ _

theorem length_withHeader : (withHeader env img files skipComp w).length = w.data.length := by
  rw [withHeader, length_copyHeader, length_patched]

theorem length_patchWrapper (data : List UInt8) :
    (patchWrapper env img w data).length = data.length := by
  rw [patchWrapper]
  split
  · simp only [length_patch]
  · split
    · exact length_patch _ _ _
    · rfl

theorem WrapperMapped.of_length {data' : List UInt8} (hmapped : WrapperMapped env img w data)
    (hlength : data'.length = data.length) : WrapperMapped env img w data' := by
  intro hdhtb
  rw [env.length_map, hlength, ← env.length_map]
  exact hmapped hdhtb

theorem wrapperMapped_of_le (hheader : w.header = dhtbHdrSize)
    (htail : dhtbHdrSize ≤ w.tail) (hle : w.tail + 20 ≤ (env.map data).length) :
    WrapperMapped env img w data := by
  intro _
  have hsize : dhtbHdrSize = 512 := rfl
  rw [dhtbSize, aospImgSize]
  omega

/-- The output of `repack` for an image without AVB; without the bytes for its checksum a DHTB wrapper
ends the process. -/
theorem repackImg_cases (hwrite : writeImg env img files skipComp = some w)
    (havb : img.avbFooter = none ∨ img.vbmeta = none) :
    repackImg env img files skipComp
      = if WrapperMapped env img w w.data then
          some (signImg env img w (patchWrapper env img w (withHeader env img files skipComp w)))
        else none := by
  have hpatch : ∀ data, patchAvb env img w data = some data := by
    intro data
    rw [patchAvb]
    split
    · rename_i hfooter hvbmeta
      rcases havb with h | h
      · rw [h] at hfooter
        cases hfooter
      · rw [h] at hvbmeta
        cases hvbmeta
    · rfl
  have hmapped : WrapperMapped env img w (withHeader env img files skipComp w)
      ↔ WrapperMapped env img w w.data :=
    ⟨fun h => h.of_length length_withHeader.symm, fun h => h.of_length length_withHeader⟩
  rw [repackImg, hwrite]
  simp only [Option.bind_eq_bind, Option.bind_some, hpatch, Option.pure_def, hmapped]

theorem repackImg_eq (hwrite : writeImg env img files skipComp = some w)
    (havb : img.avbFooter = none ∨ img.vbmeta = none) (hmapped : WrapperMapped env img w w.data) :
    repackImg env img files skipComp
      = some (signImg env img w (patchWrapper env img w (withHeader env img files skipComp w))) := by
  rw [repackImg_cases hwrite havb, if_pos hmapped]

theorem slice_withHeader_of_fits {segs : List (Block × Segment)} (hwrote : WroteSegments env img files segs w)
    (hfits : HeaderFits img) (hpos : 0 < img.raw.pageSize) (hpage : img.raw.pageSize < 2 ^ 31)
    (hoff : w.header + img.raw.space ≤ off) :
    slice (withHeader env img files skipComp w) off n = slice (patched env img files skipComp w).1 off n := by
  have hsame := sameOutside_final skipComp hwrote
  have hspace : (patched env img files skipComp w).2.hdrSpace = some img.raw.space := by
    rw [hsame.hdrSpace (by decide), hdrSpace_eq hpos hpage]
  have hlt := space_lt hpos hpage
  exact slice_copyHeader hfits hsame.1 hspace (by omega) hoff

/-- **Behind the header page** nothing is changed after the blocks have been patched. -/
theorem slice_repackImg (hwrote : Wrote env img files skipComp w) (hfits : HeaderFits img)
    (hpos : 0 < img.raw.pageSize) (hpage : img.raw.pageSize < 2 ^ 31)
    (htail : img.flags.avb1Signed = true → w.tail < 2 ^ 32)
    (hoff : w.header + img.raw.space ≤ off) (hle : off + n ≤ w.tail) :
    slice (signImg env img w (patchWrapper env img w (withHeader env img files skipComp w))) off n
      = slice (patched env img files skipComp w).1 off n := by
  have hdata := hwrote.prefix_data.length_le
  rw [← hwrote.tail] at hdata
  have hwrapper : 104 ≤ off := by
    have hsize := le_hdrSize img.raw.kind
    rw [HeaderFits] at hfits
    split at hfits
    · have : amonetMicroloaderSz = 1024 := rfl
      omega
    · rw [Header.hdrSize] at hfits
      omega
  have hlength : (patchWrapper env img w (withHeader env img files skipComp w)).length
      = w.data.length := by
    rw [length_patchWrapper, length_withHeader]
  rw [slice_signImg htail (by omega) hle, slice_patchWrapper hwrapper,
    slice_withHeader_of_fits hwrote hfits hpos hpage hoff]

namespace Wrote

variable (hwrote : Wrote env img files skipComp w)
  (hspace : img.addr + img.raw.space ≤ img.mem.length)

include hwrote hspace

theorem place_kernel : w.place .kernel = (w.header + img.raw.space) % 2 ^ 32 := by
  rw [Written.place, hwrote.places_eq hspace]
  rfl

theorem place_ramdisk :
    w.place .ramdisk = (w.header + next img.raw.pageSize img.raw.space
      (kernelSegment env img files skipComp).piece) % 2 ^ 32 := by
  rw [Written.place, hwrote.places_eq hspace]
  rfl

theorem slice_kernel (hpos : 0 < img.raw.pageSize) :
    w.header + img.raw.space + (kernelSegment env img files skipComp).bytes.length ≤ w.tail ∧
      slice w.data (w.header + img.raw.space) (kernelSegment env img files skipComp).bytes.length
        = (kernelSegment env img files skipComp).bytes := by
  have hcontents := hwrote.contents hspace hpos
  rw [plainSegments, List.map_cons, places, List.forall₂_cons] at hcontents
  have htail := hwrote.tail
  rw [List.length_append] at htail
  obtain ⟨⟨hle, hslice⟩, -⟩ := hcontents
  exact ⟨by simp only [Segment.piece] at hle; omega, hslice⟩

end Wrote

end

end MagiskNative.Boot
