import MagiskNative.Boot.Rewrite
import MagiskNative.Boot.Sample

/-!
# Does the new header describe the new image?

A reader recomputes the offsets of the blocks from the header that repacking wrote. They are those at which
the blocks were put exactly when every block but the last takes as much room as its size field says.
-/

namespace MagiskNative.Boot

open Bytes Layout

variable {h' h : Header} {off : Nat} {f : Field}

variable {addr n o : Nat} {mem raw : List UInt8} {h : Header}

theorem word_eq_of_slice (hraw : slice mem addr n = raw)
    (ho : o + 4 ≤ n) : word mem (addr + o) = word raw o := by
  rw [word, word, ← hraw, slice_slice ho]

theorem magic_iff_of_slice {magic : List UInt8} (hraw : slice mem addr n = raw)
    (hn : magic.length ≤ n) : magic <+: mem.drop addr ↔ magic <+: raw := by
  rw [← hraw, slice, List.prefix_take_iff]
  exact (and_iff_left hn).symm

theorem detect_of_slice (hraw : slice mem addr n = raw)
    (hn : 44 ≤ n) (k : Kind) : detect k mem addr = detect k raw 0 := by
  have h8 := word_eq_of_slice hraw (o := 8) (by omega)
  have h36 := word_eq_of_slice hraw (o := 36) (by omega)
  have h40 := word_eq_of_slice hraw (o := 40) (by omega)
  have hmagic : bootMagic <+: mem.drop addr ↔ bootMagic <+: raw.drop 0 := by
    rw [List.drop_zero]
    exact magic_iff_of_slice hraw (le_trans (by decide) hn)
  cases k <;> simp only [detect, vendorKind, aospKind, isPxa, h8, h36, h40, hmagic, Nat.zero_add]

/-- What tells the kind of a header stays, except that the extra size of a v0 header is where others
have their version. -/
def keyRegions : Kind → List (Nat × Nat)
  | .vndV3 | .vndV4 => [(8, 4)]
  | .pxa => [(36, 4)]
  | .v0 => [(0, 8)]
  | _ => [(0, 8), (40, 4)]

theorem keyRegions_apart (k : Kind) : ∀ r ∈ keyRegions k, ∀ part ∈ writtenParts,
    apart (k.region part) (some r) := by
  cases k <;> decide

theorem slice_keyRegion (hsame : h.SameOutside writtenParts h')
    (hr : (off, n) ∈ keyRegions h.kind) : slice h'.raw off n = slice h.raw off n :=
  hsame.2 off n fun part hpart => keyRegions_apart h.kind (off, n) hr part hpart

theorem magic_iff_slice (raw : List UInt8) : bootMagic <+: raw ↔ slice raw 0 8 = bootMagic :=
  prefix_drop_iff bootMagic raw 0

def aliases (h : Header) : Prop := h.kind = .v0 ∧ h.get .extraSize ∈ [1, 2, 3, 4]

theorem aospKind_eq_v0_iff (raw : List UInt8) : aospKind raw 0 = .v0 ↔ word raw 40 ∉ [1, 2, 3, 4] := by
  rw [aospKind, Nat.zero_add]
  split <;> simp_all

theorem get_extraSize_v0 (hkind : h.kind = .v0) : h.get .extraSize = word h.raw 40 := by
  rw [Header.get, hkind]
  rfl

theorem extraSize_of_detect (hdetect : detect h.kind h.raw 0 = some h.kind)
    (hkind : h.kind = .v0) : h.get .extraSize ∉ [1, 2, 3, 4] := by
  rw [hkind] at hdetect
  simp only [detect] at hdetect
  split at hdetect
  · rwa [Option.some.injEq, aospKind_eq_v0_iff, ← get_extraSize_v0 hkind] at hdetect
  · cases hdetect

theorem detect_final (hsame : h.SameOutside writtenParts h')
    (hdetect : detect h.kind h.raw 0 = some h.kind) (halias : ¬ aliases h') :
    detect h.kind h'.raw 0 = some h.kind := by
  obtain ⟨k, raw, hlength⟩ := h
  simp only at hsame hdetect ⊢
  have hkey : ∀ off n, (off, n) ∈ keyRegions k → slice h'.raw off n = slice raw off n :=
    fun off n hr => slice_keyRegion hsame hr
  have hmagic : (0, 8) ∈ keyRegions k → (bootMagic <+: h'.raw ↔ bootMagic <+: raw) := by
    intro hr
    rw [magic_iff_slice, magic_iff_slice, hkey 0 8 hr]
  cases k with
  | vndV3 | vndV4 =>
      have hversion := hkey 8 4 (by decide)
      simpa only [detect, vendorKind, word, Nat.zero_add, hversion] using hdetect
  | pxa =>
      have hpage := hkey 36 4 (by decide)
      simpa only [detect, isPxa, word, Nat.zero_add, hpage] using hdetect
  | v1 | v2 | v3 | v4 =>
      have hversion := hkey 40 4 (by decide)
      simpa only [detect, aospKind, word, Nat.zero_add, List.drop_zero, hversion,
        hmagic (by decide)] using hdetect
  | v0 =>
      simp only [detect, List.drop_zero] at hdetect ⊢
      have hboot : bootMagic <+: raw := by
        by_contra hno
        rw [if_neg hno] at hdetect
        cases hdetect
      rw [if_pos ((hmagic (by decide)).2 hboot), Option.some.injEq, aospKind_eq_v0_iff]
      intro hword
      exact halias ⟨hsame.1, by rwa [get_extraSize_v0 hsame.1]⟩

section

variable {env : Env} {img : BootImg} {files : Files} {skipComp : Bool} {w : Written}

theorem sameOutside_final (skipComp : Bool) {segs : List (Block × Segment)}
    (hwrote : WroteSegments env img files segs w) :
    img.raw.SameOutside writtenParts (patched env img files skipComp w).2 :=
  (sameOutside_newHdr.trans hwrote.run.hdr).trans (sameOutside_patched w)

theorem space_final {segs : List (Block × Segment)} (hwrote : WroteSegments env img files segs w) :
    (patched env img files skipComp w).2.space = img.raw.space := by
  have hsame := sameOutside_final skipComp hwrote
  rw [Header.space, Header.space, hsame.pageSize (by decide), hsame.1, Header.hdrSize, hsame.1,
    Header.hdrSize]

end

namespace Header

def cut (h : Header) (n : Nat) : Header where
  kind := h.kind
  raw := h.raw.take n ++ zeros (h.kind.hdrSize - n)
  length_raw := by
    rw [List.length_append, List.length_take, length_zeros, h.length_raw]
    omega

theorem kind_cut (h : Header) (n : Nat) : (h.cut n).kind = h.kind := rfl

theorem get_cut (h : Header) {n : Nat} (hoff : h.kind.offset f = some off) :
    (h.cut n).get f = h.get f % 256 ^ (n - off) := by
  have hslice : slice (h.cut n).raw off f.width = (slice h.raw off f.width).take (n - off)
      ++ List.replicate (min (f.width - ((h.raw.take n).drop off).length)
        (h.kind.hdrSize - n - (off - (h.raw.take n).length))) 0 := by
    rw [slice, cut, List.drop_append, List.take_append, zeros, List.drop_replicate, List.take_replicate,
      List.drop_take, List.take_take, Nat.min_comm f.width, ← List.take_take, ← slice]
  rw [get, kind_cut, hoff]
  simp only
  rw [hslice, ofLe_take_append_zeros, get, hoff]

end Header

/-- The header in the output: the bytes that are copied, and zeros for a reader behind them. -/
def outputHdr (img : BootImg) (h : Header) : Header := if img.flags.amonet then h.cut (realHdrSz h) else h

/-- Repacking comes to its end, and the offsets recomputed from the header it wrote, the way
`parse_image` does it, are those of the blocks, all of them multiples of the page size. `parse_image`
takes a v0 header with an extra size from 1 to 4 for one of a later version. -/
def Describes (env : Env) (img : BootImg) (files : Files) (skipComp : Bool) : Prop :=
  ∃ w h offs stop, writeImg env img files skipComp = some w ∧
    h = outputHdr img (patched env img files skipComp w).2 ∧ ¬ aliases h ∧
    blockOffs h = some (offs, stop) ∧ w.out.places = offs.map (w.header + ·) ∧
    ∀ o ∈ offs, h.pageSize ∣ o

/-- What a reader finds of the value `n` of a field. -/
def shown (img : BootImg) (f : Field) (n : Nat) : Nat :=
  match img.raw.kind.offset f with
  | some off => if img.flags.amonet then n % 2 ^ 32 % 256 ^ (realHdrSz img.raw - off) else n % 2 ^ 32
  | none => 0

def mtkRoom (mtk : Bool) : Nat := if mtk then mtkHdrSize else 0

/-- A file that `sendfile` copies takes the pages that its size field shows. -/
def RestoredFits (img : BootImg) (f : Field) (file : Option (List UInt8)) : Prop :=
  ∀ m ∈ file, roundUp img.raw.pageSize (shown img f m.length)
    = roundUp img.raw.pageSize (min sendfileMax m.length)

/-- The sizes agree. For each component, the size that goes into the header shows as many pages as are
written for it, and a block that is left out has no old size. -/
structure Accounted (env : Env) (img : BootImg) (files : Files) (skipComp : Bool) : Prop where
  page : img.raw.pageSize < 2 ^ 31
  pageShown : (img.raw.kind.offset .pageSize).isSome →
    shown img .pageSize img.raw.pageSize = img.raw.pageSize
  version : img.raw.kind = .v0 → ∀ m ∈ files.extra,
    shown img .extraSize (packed env skipComp img.eFmt m).length ∉ [1, 2, 3, 4]
  kernel : roundUp img.raw.pageSize (shown img .kernelSize (mtkRoom img.kernel.mtk
      + (kernelBody env img files skipComp).2 + (files.kernelDtb.getD []).length))
    = roundUp img.raw.pageSize (mtkRoom img.kernel.mtk
      + (kernelBody env img files skipComp).1.length + min sendfileMax (files.kernelDtb.getD []).length)
  ramdisk : ∀ m ∈ files.ramdisk,
    roundUp img.raw.pageSize (shown img .ramdiskSize (mtkRoom img.ramdisk.mtk
        + (packed env skipComp (ramdiskFmt img skipComp) m).length))
      = roundUp img.raw.pageSize (mtkRoom img.ramdisk.mtk
        + (packed env skipComp (ramdiskFmt img skipComp) m).length)
  -- Without a file nothing is aligned behind the MTK header.
  noRamdisk : files.ramdisk = none →
    roundUp img.raw.pageSize (shown img .ramdiskSize (mtkRoom img.ramdisk.mtk)) = mtkRoom img.ramdisk.mtk
  second : RestoredFits img .secondSize files.second
  extra : ∀ m ∈ files.extra,
    roundUp img.raw.pageSize (shown img .extraSize (packed env skipComp img.eFmt m).length)
      = roundUp img.raw.pageSize (packed env skipComp img.eFmt m).length
  noExtra : files.extra = none → shown img .extraSize (img.raw.get .extraSize) = 0
  recoveryDtbo : RestoredFits img .recoveryDtboSize files.recoveryDtbo
  noRecoveryDtbo : files.recoveryDtbo = none →
    shown img .recoveryDtboSize (img.raw.get .recoveryDtboSize) = 0
  dtb : RestoredFits img .dtbSize files.dtb

section

variable {env : Env} {img : BootImg} {files : Files} {skipComp : Bool} {w : Written}

theorem map_header_injective (header : Nat) :
    Function.Injective (List.map (header + ·) : List Nat → List Nat) :=
  List.map_injective_iff.2 fun _ _ => Nat.add_left_cancel

theorem realHdrSz_congr (hkind : h'.kind = h.kind) (hspace : h'.hdrSpace = h.hdrSpace) :
    realHdrSz h' = realHdrSz h := by
  rw [realHdrSz, realHdrSz, hspace, Header.hdrSize, Header.hdrSize, hkind]

theorem kind_outputHdr (h : Header) : (outputHdr img h).kind = h.kind := by
  rw [outputHdr]
  split
  · exact h.kind_cut _
  · rfl

theorem get_outputHdr (hsame : img.raw.SameOutside writtenParts h)
    (hwidth : f.width = 4) : (outputHdr img h).get f = shown img f (h.get f) := by
  have hlt : h.get f < 2 ^ 32 := by
    have hlt := h.get_lt f
    rw [hwidth] at hlt
    exact hlt
  have hreal := realHdrSz_congr hsame.1 (hsame.hdrSpace (by decide))
  rw [shown]
  cases hoff : img.raw.kind.offset f with
  | none => exact Header.get_eq_zero (by rw [kind_outputHdr, hsame.1, hoff])
  | some off =>
      rw [← hsame.1] at hoff
      simp only
      rw [Nat.mod_eq_of_lt hlt, outputHdr]
      split
      · rw [h.get_cut hoff, hreal]
      · rfl

theorem shown_zero (img : BootImg) (f : Field) : shown img f 0 = 0 := by
  rw [shown]
  cases img.raw.kind.offset f with
  | none => rfl
  | some off => simp only [Nat.zero_mod, ite_self]

theorem shown_of_le {n : Nat} (hoff : img.raw.kind.offset f = some off) (hn : n < 2 ^ 32)
    (hreal : img.flags.amonet = true → off + 4 ≤ realHdrSz img.raw) : shown img f n = n := by
  rw [shown, hoff]
  simp only
  rw [Nat.mod_eq_of_lt hn]
  split
  · rename_i hamonet
    have hle : (256 : Nat) ^ 4 ≤ 256 ^ (realHdrSz img.raw - off) :=
      Nat.pow_le_pow_right (by decide) (by have := hreal hamonet; omega)
    exact Nat.mod_eq_of_lt (lt_of_lt_of_le hn hle)
  · rfl

variable (img) in
theorem shown_describedSize (seg : Block × Segment) :
    shown img seg.1.sizeField (describedSize img seg)
      = shown img seg.1.sizeField (mtkRoom (mtkOf img seg.1) + seg.2.size.getD (keptSize img.raw seg.1)) := by
  rw [shown, shown]
  cases hoff : img.raw.kind.offset seg.1.sizeField with
  | none => rfl
  | some off =>
      have hmod : describedSize img seg % 2 ^ 32
          = (mtkRoom (mtkOf img seg.1) + seg.2.size.getD (keptSize img.raw seg.1)) % 2 ^ 32 := by
        simp only [describedSize, hoff, Option.isSome_some, if_true, mtkRoom]
        cases mtkOf img seg.1 <;> cases seg.2.size <;> simp [Nat.add_comm]
      simp only
      rw [hmod]

theorem pageSize_outputHdr (hsame : img.raw.SameOutside writtenParts h) :
    (outputHdr img h).pageSize = img.raw.pageSize ↔
      ((img.raw.kind.offset .pageSize).isSome → shown img .pageSize img.raw.pageSize = img.raw.pageSize) := by
  have hget := get_outputHdr hsame (show Field.pageSize.width = 4 from rfl)
  rw [hsame.get (by decide)] at hget
  rw [Header.pageSize, Header.pageSize, kind_outputHdr, hsame.1]
  cases hkind : img.raw.kind <;> simp [Kind.offset, hget]

theorem realHdrSz_of_isVendor (hvendor : h.kind.isVendor = true) (hpos : 0 < h.pageSize)
    (hpage : h.pageSize < 2 ^ 31) : 16 ≤ realHdrSz h := by
  have hspace := space_lt hpos hpage
  have hle : h.hdrSize ≤ h.space := by
    rw [Header.space, if_pos hvendor]
    exact le_roundUp hpos _
  have hsize := le_hdrSize h.kind
  rw [realHdrSz, hdrSpace_eq hpos hpage, Option.getD_some, Header.hdrSize, amonetMicroloaderSz]
  rw [Header.hdrSize] at hle
  omega

theorem pageShown_of_hdrSpace (hsame : img.raw.SameOutside writtenParts h)
    (hpos : 0 < img.raw.pageSize) (hpage : img.raw.pageSize < 2 ^ 31)
    (hspace : (outputHdr img h).hdrSpace = some img.raw.space) :
    (outputHdr img h).pageSize = img.raw.pageSize := by
  by_cases hvendor : img.raw.kind.isVendor = true
  · rw [pageSize_outputHdr hsame]
    intro _
    have hoff : img.raw.kind.offset .pageSize = some 12 := by
      cases hkind : img.raw.kind <;> rw [hkind] at hvendor <;> first | rfl | cases hvendor
    exact shown_of_le hoff (by omega) fun _ => realHdrSz_of_isVendor hvendor hpos hpage
  · rw [Header.hdrSpace, kind_outputHdr, hsame.1, if_neg hvendor, Option.some.injEq] at hspace
    rw [hspace, Header.space, if_neg hvendor]

variable {segs : List (Block × Segment)}

theorem sizes_outputHdr (hwrote : WroteSegments env img files segs w) (hall : segs.map Prod.fst = Block.all) :
    (outputHdr img (patched env img files skipComp w).2).sizes
      = segs.map fun seg => shown img seg.1.sizeField
          (mtkRoom (mtkOf img seg.1) + seg.2.size.getD (keptSize img.raw seg.1)) := by
  have hsame := sameOutside_final skipComp hwrote
  rw [Header.sizes, ← hall, List.map_map]
  apply List.map_congr_left
  intro seg hseg
  rw [← shown_describedSize, ← get_final_of_mem hwrote hseg]
  exact get_outputHdr hsame seg.1.width_sizeField

theorem space_outputHdr (hsame : img.raw.SameOutside writtenParts h)
    (hpage : (outputHdr img h).pageSize = img.raw.pageSize) : (outputHdr img h).space = img.raw.space := by
  rw [Header.space, Header.space, hpage, Header.hdrSize, Header.hdrSize, kind_outputHdr, hsame.1]

theorem hdrSpace_of_places (hwrote : WroteSegments env img files segs w) (hne : segs ≠ [])
    (hspace : img.addr + img.raw.space ≤ img.mem.length) {offs : List Nat} {stop : Nat}
    (hblocks : blockOffs h = some (offs, stop)) (hplaces : w.out.places = offs.map (w.header + ·)) :
    h.hdrSpace = some img.raw.space := by
  rw [blockOffs, Option.bind_eq_bind, Option.bind_eq_some_iff] at hblocks
  obtain ⟨space, hspace', hblocks⟩ := hblocks
  obtain ⟨next, rest, -, -, rfl⟩ := getBlocks_cons_eq_some hblocks
  obtain ⟨seg, segs, rfl⟩ := List.exists_cons_of_ne_nil hne
  rw [hwrote.places_eq hspace, (map_header_injective w.header).eq_iff, List.map_cons, places,
    List.cons.injEq] at hplaces
  rw [hspace', hplaces.1]

/-- The block takes the room that a reader of the header has for it. -/
def Fits (img : BootImg) (seg : Block × Segment) : Prop :=
  seg.2.piece.room img.raw.pageSize
    = roundUp img.raw.pageSize (shown img seg.1.sizeField
        (mtkRoom (mtkOf img seg.1) + seg.2.size.getD (keptSize img.raw seg.1)))

theorem places_eq_blockOffs_iff (hwrote : WroteSegments env img files segs w)
    (hall : segs.map Prod.fst = Block.all) (hspace : img.addr + img.raw.space ≤ img.mem.length)
    (hpos : 0 < img.raw.pageSize) (hpage : img.raw.pageSize < 2 ^ 31) {offs : List Nat} {stop : Nat}
    (hpage' : (outputHdr img (patched env img files skipComp w).2).pageSize = img.raw.pageSize)
    (hblocks : blockOffs (outputHdr img (patched env img files skipComp w).2) = some (offs, stop)) :
    w.out.places = offs.map (w.header + ·) ↔ ∀ seg ∈ segs.dropLast, Fits img seg := by
  rw [blockOffs_eq (by rwa [hpage']) (by rwa [hpage']), Option.some.injEq, Prod.mk.injEq] at hblocks
  obtain ⟨rfl, -⟩ := hblocks
  rw [hwrote.places_eq hspace, (map_header_injective w.header).eq_iff,
    space_outputHdr (sameOutside_final skipComp hwrote) hpage', hpage', sizes_outputHdr hwrote hall,
    places_eq_starts_iff hpos (dvd_space img.raw) (by rw [List.length_map, List.length_map]),
    ← List.map_dropLast, ← List.map_dropLast, List.forall₂_map_left_iff, List.forall₂_map_right_iff,
    List.forall₂_same]
  rfl

end

section Blocks

variable {env : Env} {mem : List UInt8} {mapSize : Nat} {flags : Flags} {img : BootImg}
  {files : Files} {skipComp : Bool} {w : Written} (hparsed : Parsed env mem mapSize flags img)

include hparsed

theorem length_mtkHdrOf_kernel (hmtk : img.kernel.mtk = true) :
    (mtkHdrOf img img.kernel.mtk .kernel).length = mtkHdrSize := by
  rw [mtkHdrOf, if_pos hmtk]
  apply length_slice_of_le
  rw [hparsed.mem_eq]
  rcases parseKernel_cases hparsed.kernel with ⟨-, hnone⟩ | ⟨-, hlength, hdtb, part, hunwrap, hsplit⟩
  · rw [hnone] at hmtk
    cases hmtk
  · have hpart : part.mtk = true := by
      rcases splitZImage_cases hsplit with heq | ⟨z, -, -, heq⟩
      · rwa [(Prod.mk.inj heq).1] at hmtk
      · rwa [(Prod.mk.inj heq).1] at hmtk
    have hsize := img.raw.size_lt .kernel
    have hend : img.kernel.dtb.getD (img.raw.get .kernelSize) ≤ img.raw.get .kernelSize := by
      cases hoff : img.kernel.dtb with
      | none => exact le_rfl
      | some off =>
          rw [hoff] at hdtb
          have hlt := dtbOffset_lt hdtb.symm
          rw [List.length_take] at hlt
          simp only [Option.getD_some]
          omega
    have hle := mtkHdrSize_le_of_unwrapMtk hunwrap hpart (hend.trans hlength)
      (lt_of_le_of_lt hend hsize)
    rw [List.length_drop] at hle
    have hpos : 0 < mtkHdrSize := by decide
    omega

theorem length_mtkHdrOf_ramdisk (hpage : img.raw.pageSize < 2 ^ 31)
    (htable : img.raw.get .vendorRamdiskTableSize = 0) (hmtk : img.ramdisk.mtk = true) :
    (mtkHdrOf img img.ramdisk.mtk .ramdisk).length = mtkHdrSize := by
  rw [mtkHdrOf, if_pos hmtk]
  apply length_slice_of_le
  rw [hparsed.mem_eq]
  have hramdisk := hparsed.ramdisk
  rw [parseRamdisks, if_neg (fun h => h.2 htable), parseRamdisk] at hramdisk
  split at hramdisk
  · rw [← Option.some.inj hramdisk] at hmtk
    cases hmtk
  · have hin := hparsed.ptr_add_le hpage .ramdisk
    have hle := mtkHdrSize_le_of_unwrapMtk hramdisk hmtk
      (by rw [List.length_drop]; simp only [Block.sizeField] at hin; omega) (img.raw.size_lt .ramdisk)
    rw [List.length_drop] at hle
    have hpos : 0 < mtkHdrSize := by decide
    omega

omit hparsed in
theorem length_mtkHdrOf {mtk : Bool} {blk : Block}
    (hmtk : mtk = true → (mtkHdrOf img mtk blk).length = mtkHdrSize) :
    (mtkHdrOf img mtk blk).length = if mtk then mtkHdrSize else 0 := by
  cases mtk with
  | false => rfl
  | true => exact hmtk rfl

variable (hpage : img.raw.pageSize < 2 ^ 31)

omit hparsed in
theorem fits_restoreSegment {blk : Block} (hpos : 0 < img.raw.pageSize) (hmtk : mtkOf img blk = false)
    (file : Option (List UInt8)) :
    Fits img (blk, restoreSegment file) ↔ RestoredFits img blk.sizeField file ∧
      (file = none → shown img blk.sizeField (keptSize img.raw blk) = 0) := by
  rw [Fits, hmtk, mtkRoom, if_neg Bool.false_ne_true, Nat.zero_add, RestoredFits]
  cases file with
  | none =>
      simpa [restoreSegment, Segment.piece, Piece.room] using eq_comm.trans (roundUp_eq_zero_iff hpos)
  | some m =>
      simpa [restoreSegment, Segment.piece, Piece.room, restored] using eq_comm

include hpage

omit hpage in
theorem fits_kernelSegment :
    Fits img (.kernel, kernelSegment env img files skipComp) ↔
      roundUp img.raw.pageSize (shown img .kernelSize (mtkRoom img.kernel.mtk
          + (kernelBody env img files skipComp).2 + (files.kernelDtb.getD []).length))
        = roundUp img.raw.pageSize (mtkRoom img.kernel.mtk
          + (kernelBody env img files skipComp).1.length
          + min sendfileMax (files.kernelDtb.getD []).length) := by
  have hlength := length_mtkHdrOf (length_mtkHdrOf_kernel hparsed)
  simp only [Fits, kernelSegment, Segment.piece, Piece.room, if_true, List.length_append, hlength, restored,
    List.length_take, mtkOf, mtkRoom, Option.getD_some, Block.sizeField, Nat.add_assoc]
  exact eq_comm

variable (htable : img.raw.get .vendorRamdiskTableSize = 0)

include htable

theorem fits_ramdiskSegment :
    Fits img (.ramdisk, ramdiskSegment env img files skipComp) ↔
      (∀ m ∈ files.ramdisk,
        roundUp img.raw.pageSize (shown img .ramdiskSize (mtkRoom img.ramdisk.mtk
            + (packed env skipComp (ramdiskFmt img skipComp) m).length))
          = roundUp img.raw.pageSize (mtkRoom img.ramdisk.mtk
            + (packed env skipComp (ramdiskFmt img skipComp) m).length)) ∧
      (files.ramdisk = none → roundUp img.raw.pageSize (shown img .ramdiskSize (mtkRoom img.ramdisk.mtk))
        = mtkRoom img.ramdisk.mtk) := by
  have hlength := length_mtkHdrOf (length_mtkHdrOf_ramdisk hparsed hpage htable)
  rw [Fits, ramdiskSegment]
  cases files.ramdisk with
  | none =>
      simp only [Segment.piece, Piece.room, hlength, mtkOf, mtkRoom, Option.getD_none, keptSize, Nat.add_zero,
        Block.sizeField, Bool.false_eq_true, if_false, Option.not_mem_none, false_implies, implies_true,
        true_and, forall_const]
      exact eq_comm
  | some m =>
      simp only [Segment.piece, Piece.room, List.length_append, hlength, mtkOf, mtkRoom, Option.getD_some,
        Block.sizeField, if_true, Option.mem_some_iff, forall_eq', reduceCtorEq, false_implies, and_true]
      exact eq_comm

omit hparsed hpage htable in
theorem fits_extraSegment (hpos : 0 < img.raw.pageSize) :
    Fits img (.extra, extraSegment env img files skipComp) ↔
      (∀ m ∈ files.extra,
        roundUp img.raw.pageSize (shown img .extraSize (packed env skipComp img.eFmt m).length)
          = roundUp img.raw.pageSize (packed env skipComp img.eFmt m).length) ∧
      (files.extra = none → shown img .extraSize (img.raw.get .extraSize) = 0) := by
  rw [Fits, extraSegment]
  cases files.extra with
  | none =>
      simpa [Segment.piece, Piece.room, mtkOf, mtkRoom, keptSize, Block.sizeField]
        using eq_comm.trans (roundUp_eq_zero_iff hpos)
  | some m => simpa [Segment.piece, Piece.room, mtkOf, mtkRoom, Block.sizeField] using eq_comm

omit htable in
theorem fits_signatureSegment : Fits img (.signature, signatureSegment img) := by
  have hshown : shown img .signatureSize (img.raw.get .signatureSize) = img.raw.get .signatureSize := by
    cases hoff : img.raw.kind.offset .signatureSize with
    | none => rw [Header.get_eq_zero hoff, shown_zero]
    | some off =>
        refine shown_of_le hoff (img.raw.size_lt .signature) fun _ => ?_
        obtain ⟨hkind, rfl⟩ : img.raw.kind = .v4 ∧ off = 1580 := by
          cases hkind : img.raw.kind <;> rw [hkind] at hoff <;> cases hoff
          exact ⟨rfl, rfl⟩
        have hspace : img.raw.hdrSpace = some 4096 := by
          rw [Header.hdrSpace, Header.pageSize, hkind]
          rfl
        rw [realHdrSz, hspace, Header.hdrSize, hkind]
        decide
  simp only [Fits, signatureSegment_size, mtkOf, mtkRoom, Bool.false_eq_true, if_false, Nat.zero_add,
    Option.getD_none, keptSize, Block.sizeField, hshown]
  rw [signatureSegment]
  split
  · have hlength : (img.block .signature).length = img.raw.get .signatureSize := by
      apply length_slice_of_le
      rw [hparsed.mem_eq]
      exact hparsed.ptr_add_le hpage .signature
    rw [Segment.piece, Piece.room, if_pos rfl, hlength]
  · rename_i hzero
    rw [not_not.1 hzero, roundUp_zero hparsed.pageSize_pos]
    rfl

omit hparsed hpage in
theorem fits_tableSegment (hpos : 0 < img.raw.pageSize) : Fits img (.vendorRamdiskTable, {}) := by
  simp only [Fits, mtkOf, mtkRoom, Bool.false_eq_true, if_false, Nat.zero_add, Option.getD_none, keptSize,
    htable, shown_zero, roundUp_zero hpos]
  rfl

omit hparsed hpage htable in
theorem aliases_outputHdr_iff (hwrote : Wrote env img files skipComp w) :
    aliases (outputHdr img (patched env img files skipComp w).2) ↔ img.raw.kind = .v0 ∧
      shown img .extraSize ((extraSegment env img files skipComp).size.getD (img.raw.get .extraSize))
        ∈ [1, 2, 3, 4] := by
  have hmem : (.extra, extraSegment env img files skipComp) ∈ plainSegments env img files skipComp := by
    simp [plainSegments]
  have hsame := sameOutside_final skipComp hwrote
  have hsize := shown_describedSize img (.extra, extraSegment env img files skipComp)
  rw [← get_final_of_mem hwrote hmem] at hsize
  rw [aliases, kind_outputHdr, hsame.1, get_outputHdr hsame rfl]
  simp only [mtkOf, mtkRoom, Bool.false_eq_true, if_false, Nat.zero_add, Block.sizeField, keptSize] at hsize
  rw [hsize]

/-- Block by block, the sizes of the files decide. -/
theorem fits_plainSegments_iff :
    (∀ seg ∈ (plainSegments env img files skipComp).dropLast, Fits img seg) ↔
      Fits img (.kernel, kernelSegment env img files skipComp) ∧
      Fits img (.ramdisk, ramdiskSegment env img files skipComp) ∧
      Fits img (.second, restoreSegment files.second) ∧
      Fits img (.extra, extraSegment env img files skipComp) ∧
      Fits img (.recoveryDtbo, restoreSegment files.recoveryDtbo) ∧
      Fits img (.dtb, restoreSegment files.dtb) := by
  have hsignature := fits_signatureSegment hparsed hpage
  have hnone := fits_tableSegment htable hparsed.pageSize_pos
  simp only [plainSegments, List.dropLast, List.forall_mem_cons, List.not_mem_nil, false_implies,
    implies_true, hsignature, hnone, and_true]

end Blocks

section

variable {env : Env} {file : List UInt8} {img : BootImg} {files : Files} {skipComp : Bool}

theorem detect_of_load (hload : load env file = some img) (hamonet : img.flags.amonet = false) :
    detect img.raw.kind img.raw.raw 0 = some img.raw.kind := by
  obtain ⟨-, -, hread⟩ := load_parsed hload
  obtain ⟨hdetect, -, hraw⟩ := rereadHeader_eq_some (hread hamonet)
  rwa [detect_of_slice hraw (by have := le_hdrSize img.raw.kind; rw [Header.hdrSize]; omega)]
    at hdetect

variable (hload : load env file = some img) (htable : img.raw.get .vendorRamdiskTableSize = 0)

include hload htable

theorem accounted_of_describes (hdescribes : Describes env img files skipComp) :
    Accounted env img files skipComp := by
  obtain ⟨flags, hparsed, -⟩ := load_parsed hload
  have hpos := hparsed.pageSize_pos
  obtain ⟨w, h, offs, stop, hwrite, rfl, halias, hblocks, hplaces, -⟩ := hdescribes
  have hpage := pageSize_lt_of_writeImg hwrite
  have hspace := hparsed.space_le hpage
  obtain ⟨w', hwrite', hwrote⟩ : ∃ w', writeImg env img files skipComp = some w' ∧
      Wrote env img files skipComp w' := writeImg_wrote htable hpos hpage
  rw [hwrite, Option.some.injEq] at hwrite'
  subst hwrite'
  have hsame := sameOutside_final skipComp hwrote
  have hpage' := pageShown_of_hdrSpace hsame hpos hpage
    (hdrSpace_of_places hwrote (List.cons_ne_nil _ _) hspace hblocks hplaces)
  have hfits := (places_eq_blockOffs_iff hwrote rfl hspace hpos hpage hpage' hblocks).1 hplaces
  rw [fits_plainSegments_iff hparsed hpage htable, fits_kernelSegment hparsed,
    fits_ramdiskSegment hparsed hpage htable, fits_restoreSegment hpos rfl, fits_extraSegment hpos,
    fits_restoreSegment hpos rfl, fits_restoreSegment hpos rfl] at hfits
  obtain ⟨hkernel, ⟨hramdisk, hnoRamdisk⟩, ⟨hsecond, -⟩, ⟨hextra, hnoExtra⟩, ⟨hrecovery, hnoRecovery⟩,
    hdtb, -⟩ := hfits
  refine ⟨hpage, (pageSize_outputHdr hsame).1 hpage', ?_, hkernel, hramdisk, hnoRamdisk, hsecond, hextra,
    hnoExtra, hrecovery, hnoRecovery, hdtb⟩
  intro hkind m hm hmem
  apply halias
  rw [aliases_outputHdr_iff hwrote, extraSegment, Option.mem_def.1 hm]
  exact ⟨hkind, hmem⟩

theorem describes_of_accounted (haccounted : Accounted env img files skipComp) :
    Describes env img files skipComp := by
  obtain ⟨flags, hparsed, -⟩ := load_parsed hload
  have hpos := hparsed.pageSize_pos
  have hpage := haccounted.page
  have hspace := hparsed.space_le hpage
  obtain ⟨w, hwrite, hwrote⟩ : ∃ w, writeImg env img files skipComp = some w ∧
      Wrote env img files skipComp w := writeImg_wrote htable hpos hpage
  have hsame := sameOutside_final skipComp hwrote
  have hpage' := (pageSize_outputHdr hsame).2 haccounted.pageShown
  have hblocks := blockOffs_eq (h := outputHdr img (patched env img files skipComp w).2)
    (by rwa [hpage']) (by rwa [hpage'])
  refine ⟨w, _, _, _, hwrite, rfl, ?_, hblocks,
    (places_eq_blockOffs_iff hwrote rfl hspace hpos hpage hpage' hblocks).2 ?_, ?_⟩
  · rw [aliases_outputHdr_iff hwrote, extraSegment]
    rintro ⟨hkind, hmem⟩
    cases hextra : files.extra with
    | none =>
        rw [hextra] at hmem
        exact absurd hmem (by rw [Option.getD_none, haccounted.noExtra hextra]; decide)
    | some m =>
        rw [hextra] at hmem
        exact haccounted.version hkind m hextra hmem
  · rw [fits_plainSegments_iff hparsed hpage htable, fits_kernelSegment hparsed,
      fits_ramdiskSegment hparsed hpage htable, fits_restoreSegment hpos rfl, fits_extraSegment hpos,
      fits_restoreSegment hpos rfl, fits_restoreSegment hpos rfl]
    exact ⟨haccounted.kernel, ⟨haccounted.ramdisk, haccounted.noRamdisk⟩,
      ⟨haccounted.second, fun _ => shown_zero _ _⟩, ⟨haccounted.extra, haccounted.noExtra⟩,
      ⟨haccounted.recoveryDtbo, haccounted.noRecoveryDtbo⟩, haccounted.dtb, fun _ => shown_zero _ _⟩
  · apply dvd_of_mem_starts (dvd_space _)
    intro n hn
    obtain ⟨size, -, rfl⟩ := List.mem_map.1 hn
    exact dvd_roundUp _ _

end

def recoveryHeader : Header := v1Header 0 0 0 1

def recoveryFile : List UInt8 := assemble recoveryHeader (single .recoveryDtbo [1])

def recoveryImg : BootImg := assembled recoveryHeader (single .recoveryDtbo [1]) {} {} .unknown

theorem recoveryHeader_eq : recoveryHeader = v1Of (single .recoveryDtbo [1]) := rfl

theorem load_recoveryFile : load sampleEnv recoveryFile = some recoveryImg := by
  rw [recoveryFile, recoveryImg, recoveryHeader_eq]
  exact load_single (.inr rfl) (by decide)

theorem pageSize_recoveryImg : recoveryImg.raw.pageSize = 4096 := by
  rw [show recoveryImg.raw = v1Of (single .recoveryDtbo [1]) from recoveryHeader_eq]
  exact pageSize_v1Header _ _ _ _

end MagiskNative.Boot
