import MagiskNative.Boot.Patched

/-!
# Parsing the output

An output whose header describes its blocks is accepted again, whatever follows the blocks, if the
parts can be parsed.
-/

namespace MagiskNative.Boot

open Bytes Layout

section AtZero

variable {env : Env} {file : List UInt8} {img : BootImg}

structure AtZero (env : Env) (file : List UInt8) (img : BootImg) : Prop where
  ne_nil : file ≠ []
  magic : imageMagic img.raw.kind <+: env.map file
  plain : Plain (env.map file) 0 (imageFmt img.raw.kind) img.raw.kind
  read : readHeader (env.map file) 0 img.raw.kind img.raw.kind.hdrSize = some img.raw
  parsed : Parsed env (env.map file) file.length (sha256Flags ⟨img.raw, 0, {}⟩) img
  addr : img.addr = 0
  amonet : img.flags.amonet = false

theorem fmt_of_plain {mem : List UInt8} {fmt : FileFormat} {k : Kind} (hplain : Plain mem 0 fmt k)
    (haosp : fmt = .aosp ∨ fmt = .aospVendor) : fmt = imageFmt k := by
  rcases hplain with ⟨hfmt, hk⟩ | ⟨hfmt, -, hk⟩ | ⟨hfmt, -, -, -, -, -, hk⟩
  · rcases vendorKind_cases mem 0 with h | h <;> rw [hfmt, hk, h] <;> rfl
  · rw [haosp.resolve_right hfmt, hk]
    rfl
  · rcases aospKind_cases mem 0 with h | h | h | h | h <;>
      rw [haosp.resolve_right hfmt, hk, h] <;> rfl

theorem atZero_of_load (hload : load env file = some img) (haddr : img.addr = 0)
    (hamonet : img.flags.amonet = false) : AtZero env file img := by
  obtain ⟨addr, fmt, flags, -, hparse, hzero⟩ := scan_eq_some hload
  obtain ⟨p, hhdr, hraw, hpaddr, hparsed⟩ := parseImage_eq_ok_iff.1 hparse
  have hflags : p.flags.amonet = false := (amonet_parseTail hparsed.tail).symm.trans hamonet
  rcases parseHdr_cases hhdr with ⟨h, -⟩ | ⟨hat, hsame, hplain, hread⟩ | ⟨hlt, -⟩
  · rw [hflags] at h
    cases h
  · have hstart : addr = 0 := by omega
    subst hstart
    obtain ⟨hfmt, haosp, rfl, hne⟩ := hzero rfl
    rw [← hraw] at hplain hread
    have himage := fmt_of_plain hplain haosp
    rw [List.drop_zero] at hfmt
    subst himage
    obtain ⟨hdr, paddr, pflags⟩ := p
    simp only at hraw hpaddr hat hsame
    subst hraw hat hsame
    refine ⟨List.ne_nil_of_length_pos hne, ?_, hplain, hread, hparsed, haddr, hamonet⟩
    rw [readFmt_of_le (env.length_le_map file), Option.some.injEq] at hfmt
    exact ((checkFmt_eq_iff (soleMagic_imageFmt _)).1 hfmt).trans (List.take_prefix _ _)
  · omega

namespace AtZero

variable (hzero : AtZero env file img)

include hzero

theorem mem_eq : img.mem = env.map file := hzero.parsed.mem_eq

theorem flags_eq {α : Type} (f : Flags → α)
    (hf : ∀ flags, f { flags with seandroid := true } = f flags ∧
      f { flags with lgBump := true } = f flags ∧ f { flags with avb1Signed := true } = f flags ∧
      f { flags with avb := true } = f flags) :
    f img.flags = f (sha256Flags ⟨img.raw, 0, {}⟩) :=
  parseTail_flags f hf hzero.parsed.tail

theorem wrapper_eq : wrapper img = [] := by
  have hdhtb := hzero.flags_eq Flags.dhtb fun _ => ⟨rfl, rfl, rfl, rfl⟩
  have hblob := hzero.flags_eq Flags.blob fun _ => ⟨rfl, rfl, rfl, rfl⟩
  have hnookhd := hzero.flags_eq Flags.nookhd fun _ => ⟨rfl, rfl, rfl, rfl⟩
  have hacclaim := hzero.flags_eq Flags.acclaim fun _ => ⟨rfl, rfl, rfl, rfl⟩
  simp only [sha256Flags] at hdhtb hblob hnookhd hacclaim
  rw [wrapper, hdhtb, hblob, hnookhd, hacclaim]
  rfl

theorem header_eq {files : Files} {skipComp : Bool} {w : Written} (hwrote : Wrote env img files skipComp w) :
    w.header = 0 := by
  rw [hwrote.header, hzero.wrapper_eq, List.length_nil]

theorem raw_eq : slice (env.map file) 0 img.raw.hdrSize = img.raw.raw := by
  have hread := readHeader_eq_some_iff.1 hzero.read
  exact hread.2.2.symm

end AtZero

end AtZero

section Inside

variable {env : Env} {mem : List UInt8} {mapSize : Nat} {flags : Flags} {img : BootImg}
  {files : Files} {skipComp : Bool} {w : Written} (hparsed : Parsed env mem mapSize flags img)

include hparsed

theorem slice_patched_of_le (hwrote : Wrote env img files skipComp w)
    (hpage : img.raw.pageSize < 2 ^ 31) (htable : img.raw.get .vendorRamdiskTableSize = 0)
    {off n : Nat} (hoff : w.out.fd.length ≤ off) :
    slice (patched env img files skipComp w).1 off n = slice w.data off n := by
  have hspace := hparsed.space_le hpage
  have hcontents := hwrote.contents hspace hparsed.pageSize_pos
  rw [plainSegments, List.map_cons, List.map_cons, places, places, List.forall₂_cons,
    List.forall₂_cons] at hcontents
  obtain ⟨⟨hkernel, -⟩, ⟨hramdisk, -⟩, -⟩ := hcontents
  have hplaceK : w.place .kernel ≤ w.header + img.raw.space := by
    rw [hwrote.place_kernel hspace]
    exact Nat.mod_le _ _
  have hplaceR : w.place .ramdisk ≤ w.header + next img.raw.pageSize img.raw.space
      (kernelSegment env img files skipComp).piece := by
    rw [hwrote.place_ramdisk hspace]
    exact Nat.mod_le _ _
  have hmtk : mtkHdrSize = 512 := rfl
  simp only [Segment.piece, kernelSegment, List.length_append] at hkernel
  have hstub : slice (patchStub env img files skipComp w (patchMtks img w)) off n
      = slice (patchMtks img w) off n := by
    rw [patchStub]
    split
    · rename_i z hz
      simp only
      split
      · rename_i hpayload
        rw [zPayloadSz] at hpayload
        split at hpayload
        · rename_i m z' hfile hz'
          rw [hz, Option.some.injEq] at hz'
          subst hz'
          have hbody : (kernelBody env img files skipComp).1.length
              = z.head.length + (kernelPayload env img skipComp m).length
                + (z.newTail ((kernelPayload env img skipComp m).length % 2 ^ 32)).length := by
            rw [kernelBody, hfile, hz]
            simp only [List.length_append]
          apply slice_patch_of_disjoint
          rw [ZImage.length_newHead]
          cases hk : img.kernel.mtk with
          | false =>
              rw [if_neg Bool.false_ne_true]
              omega
          | true =>
              have hlength := length_mtkHdrOf_kernel hparsed hk
              rw [if_pos rfl]
              omega
        · exact absurd rfl hpayload
      · rfl
    · rfl
  rw [fst_patched, hstub]
  apply slice_patchMtks
  · intro hk
    have hlength := length_mtkHdrOf_kernel hparsed hk
    omega
  · intro hr
    have hlength := length_mtkHdrOf_ramdisk hparsed hpage htable hr
    have hbytes : mtkHdrSize ≤ (ramdiskSegment env img files skipComp).bytes.length := by
      rw [ramdiskSegment, ← hlength]
      split
      · simp only [List.length_append]
        exact Nat.le_add_right _ _
      · exact le_rfl
    have hbytes' : (ramdiskSegment env img files skipComp).piece.bytes.length
        = (ramdiskSegment env img files skipComp).bytes.length := rfl
    simp only at hramdisk
    omega

end Inside

section Segments

variable (env : Env) (img : BootImg) (files : Files) (skipComp : Bool)

def segmentOf : Block → Segment
  | .kernel => kernelSegment env img files skipComp
  | .ramdisk => ramdiskSegment env img files skipComp
  | .second => restoreSegment files.second
  | .extra => extraSegment env img files skipComp
  | .recoveryDtbo => restoreSegment files.recoveryDtbo
  | .dtb => restoreSegment files.dtb
  | .signature => signatureSegment img
  | .vendorRamdiskTable => {}
  | .bootconfig => restoreSegment files.bootconfig

theorem plainSegments_eq :
    plainSegments env img files skipComp
      = Block.all.map fun blk => (blk, segmentOf env img files skipComp blk) := rfl

def Exact (blk : Block) : Prop :=
  let seg := segmentOf env img files skipComp blk
  describedSize img (blk, seg) = seg.bytes.length ∧ (seg.aligned = true ∨ seg.bytes = [])

end Segments

section Exact

variable {env : Env} {img : BootImg} {files : Files} {skipComp : Bool} {w : Written}

variable (env img files skipComp w) in
def finalHdr : Header := (patched env img files skipComp w).2

def segmentsOf (seg : Block → Segment) : List (Block × Segment) := Block.all.map fun blk => (blk, seg blk)

def Segment.KeepsPages (seg : Segment) : Prop := seg.aligned = true ∨ seg.bytes = []

theorem Segment.KeepsPages.room {seg : Segment} (hkeeps : seg.KeepsPages) {p : Nat} (hp : 0 < p) :
    seg.piece.room p = roundUp p seg.bytes.length := by
  rw [Piece.room, Segment.piece]
  rcases hkeeps with haligned | hnil
  · rw [if_pos haligned]
  · simp [hnil, roundUp_zero hp]

section Segmented

variable {seg : Block → Segment} (hwrote : WroteSegments env img files (segmentsOf seg) w)

include hwrote

theorem pageSize_segmented : (finalHdr env img files skipComp w).pageSize = img.raw.pageSize :=
  (sameOutside_final skipComp hwrote).pageSize (by decide)

theorem get_segmented (blk : Block) :
    (finalHdr env img files skipComp w).get blk.sizeField = describedSize img (blk, seg blk) := by
  have hmem : (blk, seg blk) ∈ segmentsOf seg := List.mem_map_of_mem (by cases blk <;> decide)
  exact get_final_of_mem hwrote hmem

variable (hpos : 0 < img.raw.pageSize) (hkeeps : ∀ blk, (seg blk).KeepsPages)
  (hspace : img.addr + img.raw.space ≤ img.mem.length)

include hpos hkeeps hspace

theorem length_fd_segmented :
    w.out.fd.length = w.header + finish img.raw.space
      (Block.all.map fun blk => roundUp img.raw.pageSize (seg blk).bytes.length) := by
  have hpage := hwrote.length_page hspace
  have hrooms : ((segmentsOf seg).map fun seg => seg.2.piece).map (Piece.room img.raw.pageSize)
      = Block.all.map fun blk => roundUp img.raw.pageSize (seg blk).bytes.length := by
    rw [segmentsOf, List.map_map, List.map_map]
    apply List.map_congr_left
    intro blk _
    exact (hkeeps blk).room hpos
  have hdvd : ∀ x ∈ (segmentsOf seg).map fun seg => seg.2.piece,
      img.raw.pageSize ∣ x.room img.raw.pageSize := by
    intro x hx
    have hroom := List.mem_map_of_mem (f := Piece.room img.raw.pageSize) hx
    rw [hrooms] at hroom
    obtain ⟨blk, -, heq⟩ := List.mem_map.1 hroom
    rw [← heq]
    exact dvd_roundUp _ _
  have hbase : w.header ≤ (wrapper img ++ slice img.mem img.addr img.raw.space).length := by
    rw [hpage]
    exact Nat.le_add_right _ _
  have hfinish := length_foldl_put hpos hbase
    (by rw [hpage, Nat.add_sub_cancel_left]; exact dvd_space _) hdvd
  rw [hpage, Nat.add_sub_cancel_left, hrooms] at hfinish
  have hfd := hwrote.run.fd
  rw [hfd]
  exact hfinish

section Sizes

variable (hsizes : ∀ blk ∈ Block.all.dropLast,
  describedSize img (blk, seg blk) = (seg blk).bytes.length)

include hsizes

omit hspace in
theorem places_segmented :
    places img.raw.pageSize img.raw.space ((segmentsOf seg).map fun seg => seg.2.piece)
      = starts img.raw.space
          ((finalHdr env img files skipComp w).sizes.map (roundUp img.raw.pageSize)) := by
  rw [places_eq_starts_iff hpos (dvd_space _)
    (by rw [segmentsOf, List.length_map, List.length_map, Header.sizes, List.length_map]),
    segmentsOf, List.map_map, Header.sizes, ← List.map_dropLast, ← List.map_dropLast,
    List.forall₂_map_left_iff, List.forall₂_map_right_iff, List.forall₂_same]
  intro blk hblk
  rw [get_segmented hwrote, hsizes blk hblk]
  exact (hkeeps blk).room hpos

theorem place_segmented (blk : Block) :
    w.place blk = (w.header + (finalHdr env img files skipComp w).blockOff blk) % 2 ^ 32 := by
  have hplaces := hwrote.places_eq hspace
  rw [places_segmented hwrote hpos hkeeps hsizes] at hplaces
  rw [Written.place, hplaces, Header.blockOff, pageSize_segmented hwrote, finalHdr, space_final hwrote]
  cases blk <;> rfl

theorem slice_segmented (blk : Block) :
    w.header + (finalHdr env img files skipComp w).blockOff blk + (seg blk).bytes.length
        ≤ w.out.fd.length ∧
      slice w.data (w.header + (finalHdr env img files skipComp w).blockOff blk)
        (seg blk).bytes.length = (seg blk).bytes := by
  have hcontents := hwrote.contents hspace hpos
  rw [places_segmented hwrote hpos hkeeps hsizes, segmentsOf, List.map_map,
    List.forall₂_map_right_iff] at hcontents
  rw [Header.blockOff, pageSize_segmented hwrote, finalHdr, space_final hwrote]
  exact forall₂_blocks hcontents blk

end Sizes

end Segmented

variable (hwrote : Wrote env img files skipComp w)

include hwrote

theorem Wrote.segmented :
    WroteSegments env img files (segmentsOf (segmentOf env img files skipComp)) w := hwrote

theorem finalHdr_kind : (finalHdr env img files skipComp w).kind = img.raw.kind :=
  (sameOutside_final skipComp hwrote).1

theorem length_raw_finalHdr : (finalHdr env img files skipComp w).raw.length = img.raw.hdrSize := by
  rw [Header.length_raw, finalHdr_kind hwrote]
  rfl

theorem finalHdr_pageSize : (finalHdr env img files skipComp w).pageSize = img.raw.pageSize :=
  (sameOutside_final skipComp hwrote).pageSize (by decide)

theorem finalHdr_space : (finalHdr env img files skipComp w).space = img.raw.space :=
  space_final hwrote

theorem finalHdr_get (blk : Block) :
    (finalHdr env img files skipComp w).get blk.sizeField
      = describedSize img (blk, segmentOf env img files skipComp blk) :=
  get_segmented hwrote.segmented blk

variable (hpos : 0 < img.raw.pageSize) (hexact : ∀ blk, Exact env img files skipComp blk)
  (hspace : img.addr + img.raw.space ≤ img.mem.length)

include hpos hexact hspace

theorem length_fd :
    w.out.fd.length = w.header + (finalHdr env img files skipComp w).stop := by
  have hlength := length_fd_segmented hwrote.segmented hpos (fun blk => (hexact blk).2) hspace
  have hsizes : (finalHdr env img files skipComp w).sizes.map (roundUp img.raw.pageSize)
      = Block.all.map fun blk => roundUp img.raw.pageSize
          (segmentOf env img files skipComp blk).bytes.length := by
    rw [Header.sizes, List.map_map]
    apply List.map_congr_left
    intro blk _
    rw [Function.comp_apply, finalHdr_get hwrote, (hexact blk).1]
  rw [hlength, Header.stop, finalHdr_space hwrote, finalHdr_pageSize hwrote, hsizes]

theorem slice_data_block (blk : Block) :
    slice w.data (w.header + (finalHdr env img files skipComp w).blockOff blk)
        ((finalHdr env img files skipComp w).get blk.sizeField)
      = (segmentOf env img files skipComp blk).bytes := by
  rw [finalHdr_get hwrote, (hexact blk).1]
  exact (slice_segmented hwrote.segmented hpos (fun blk => (hexact blk).2) hspace
    (fun blk _ => (hexact blk).1) blk).2

end Exact

section Supplied

variable {env : Env} {img : BootImg} {files : Files} {skipComp : Bool}

theorem describedSize_of_some {blk : Block} {seg : Segment} {n : Nat} (hsize : seg.size = some n)
    (hlength : seg.bytes.length = n + if mtkOf img blk then mtkHdrSize else 0)
    (hlt : seg.bytes.length < 2 ^ 32)
    (hfield : seg.bytes ≠ [] → (img.raw.kind.offset blk.sizeField).isSome) :
    describedSize img (blk, seg) = seg.bytes.length := by
  have hn : n % 2 ^ 32 = n := Nat.mod_eq_of_lt (by omega)
  simp only [describedSize, hsize, hn]
  cases hoff : (img.raw.kind.offset blk.sizeField).isSome with
  | true =>
      simp only [if_true]
      split
      · rename_i hmtk
        rw [if_pos hmtk] at hlength
        rw [← hlength, Nat.mod_eq_of_lt hlt]
      · rename_i hmtk
        rw [if_neg hmtk] at hlength
        exact hlength.symm
  | false =>
      have hnil : seg.bytes = [] := by
        by_contra hne
        rw [hfield hne] at hoff
        cases hoff
      simp [hnil]

theorem sendfileMax_lt : sendfileMax < 2 ^ 32 := by decide

theorem describedSize_restore {blk : Block} {file : Option (List UInt8)}
    (hmtk : mtkOf img blk = false) (hnone : file = none → keptSize img.raw blk = 0)
    (hsome : ∀ m, file = some m → m.length ≤ sendfileMax)
    (hfield : (restoreSegment file).bytes ≠ [] → (img.raw.kind.offset blk.sizeField).isSome) :
    describedSize img (blk, restoreSegment file) = (restoreSegment file).bytes.length ∧
      ((restoreSegment file).aligned = true ∨ (restoreSegment file).bytes = []) := by
  cases file with
  | none =>
      refine ⟨?_, .inr rfl⟩
      simp only [describedSize, restoreSegment, hmtk, Bool.false_eq_true, if_false, hnone rfl]
      rfl
  | some m =>
      refine ⟨?_, .inl rfl⟩
      have hle := hsome m rfl
      have hlt := sendfileMax_lt
      have hall : restored m = m := List.take_of_length_le hle
      apply describedSize_of_some rfl
      · rw [restoreSegment, hall, hmtk, if_neg Bool.false_ne_true, Nat.add_zero]
      · rw [restoreSegment, hall]
        exact lt_of_le_of_lt hle hlt
      · exact hfield

variable (env img files skipComp) in
/-- The files belong to the image: there is one for every block that keeps its size, no file goes
where the header has no size for it, and none is longer than what is copied in one go. -/
structure Supplied : Prop where
  extra : files.extra = none → img.raw.get .extraSize = 0
  recoveryDtbo : files.recoveryDtbo = none → img.raw.get .recoveryDtboSize = 0
  ramdisk : files.ramdisk = none → img.ramdisk.mtk = false
  field : ∀ blk, (segmentOf env img files skipComp blk).bytes ≠ [] →
    (img.raw.kind.offset blk.sizeField).isSome
  short : ∀ m, files.second = some m ∨ files.recoveryDtbo = some m ∨ files.dtb = some m ∨
    files.bootconfig = some m ∨ files.kernelDtb = some m → m.length ≤ sendfileMax
  counted : (kernelBody env img files skipComp).1.length = (kernelBody env img files skipComp).2

def Files.restoredFile (files : Files) : Block → Option (List UInt8)
  | .kernel => files.kernelDtb
  | .second => files.second
  | .recoveryDtbo => files.recoveryDtbo
  | .dtb => files.dtb
  | .bootconfig => files.bootconfig
  | _ => none

variable {mem : List UInt8} {mapSize : Nat} {flags : Flags}

theorem exact_of_files (hparsed : Parsed env mem mapSize flags img) (hpage : img.raw.pageSize < 2 ^ 31)
    (htable : img.raw.get .vendorRamdiskTableSize = 0)
    (hextra : files.extra = none → img.raw.get .extraSize = 0)
    (hrecoveryDtbo : files.recoveryDtbo = none → img.raw.get .recoveryDtboSize = 0)
    (hramdisk : files.ramdisk = none → img.ramdisk.mtk = false)
    (hcounted : (kernelBody env img files skipComp).1.length = (kernelBody env img files skipComp).2)
    {blk : Block} (hshort : ∀ m, files.restoredFile blk = some m → m.length ≤ sendfileMax)
    (hfield : (segmentOf env img files skipComp blk).bytes ≠ [] →
      (img.raw.kind.offset blk.sizeField).isSome)
    (hbytes : (segmentOf env img files skipComp blk).bytes.length < 2 ^ 32) :
    Exact env img files skipComp blk := by
  cases blk with
  | kernel =>
      refine ⟨describedSize_of_some rfl ?_ hbytes hfield, .inl rfl⟩
      have hdtb : (restored (files.kernelDtb.getD [])).length = (files.kernelDtb.getD []).length := by
        rw [restored, List.take_of_length_le]
        cases hm : files.kernelDtb with
        | none => exact Nat.zero_le _
        | some m => exact hshort m hm
      have hmtk : (mtkHdrOf img img.kernel.mtk .kernel).length
          = if mtkOf img .kernel then mtkHdrSize else 0 :=
        length_mtkHdrOf (length_mtkHdrOf_kernel hparsed)
      simp only [segmentOf, kernelSegment, List.length_append, hdtb, hmtk, hcounted]
      omega
  | ramdisk =>
      cases hfile : files.ramdisk with
      | none =>
          have hmtk := hramdisk hfile
          have hnil : segmentOf env img files skipComp .ramdisk = { bytes := [] } := by
            simp only [segmentOf, ramdiskSegment, hfile, mtkHdrOf, hmtk, Bool.false_eq_true, if_false]
          rw [Exact, hnil]
          refine ⟨?_, .inr rfl⟩
          simp only [describedSize, mtkOf, hmtk, Bool.false_eq_true, if_false]
          rfl
      | some m =>
          have hmtk : (mtkHdrOf img img.ramdisk.mtk .ramdisk).length
              = if mtkOf img .ramdisk then mtkHdrSize else 0 :=
            length_mtkHdrOf (length_mtkHdrOf_ramdisk hparsed hpage htable)
          simp only [segmentOf, ramdiskSegment, hfile] at hbytes hfield
          simp only [Exact, segmentOf, ramdiskSegment, hfile]
          refine ⟨describedSize_of_some rfl ?_ hbytes hfield, .inl trivial⟩
          simp only [List.length_append, hmtk]
          omega
  | second | dtb | bootconfig => exact describedSize_restore rfl (fun _ => rfl) hshort hfield
  | extra =>
      cases hfile : files.extra with
      | none =>
          have hnil : segmentOf env img files skipComp .extra = {} := by
            simp only [segmentOf, extraSegment, hfile]
          rw [Exact, hnil]
          exact ⟨hextra hfile, .inr rfl⟩
      | some m =>
          simp only [segmentOf, extraSegment, hfile] at hbytes hfield
          simp only [Exact, segmentOf, extraSegment, hfile]
          exact ⟨describedSize_of_some rfl rfl hbytes hfield, .inl trivial⟩
  | recoveryDtbo => exact describedSize_restore rfl hrecoveryDtbo hshort hfield
  | signature =>
      have hlength : (img.block .signature).length = img.raw.get .signatureSize := by
        apply length_slice_of_le
        rw [hparsed.mem_eq]
        exact hparsed.ptr_add_le hpage .signature
      simp only [Exact, segmentOf, signatureSegment]
      split
      · exact ⟨hlength.symm, .inl rfl⟩
      · rename_i hzero
        exact ⟨not_not.1 hzero, .inr rfl⟩
  | vendorRamdiskTable => exact ⟨htable, .inr rfl⟩

theorem Supplied.exact (hsupplied : Supplied env img files skipComp)
    (hparsed : Parsed env mem mapSize flags img) (hpage : img.raw.pageSize < 2 ^ 31)
    (htable : img.raw.get .vendorRamdiskTableSize = 0)
    (hlt : ∀ blk, (segmentOf env img files skipComp blk).bytes.length < 2 ^ 32) (blk : Block) :
    Exact env img files skipComp blk := by
  apply exact_of_files hparsed hpage htable hsupplied.extra hsupplied.recoveryDtbo hsupplied.ramdisk
    hsupplied.counted _ (hsupplied.field blk) (hlt blk)
  intro m hm
  apply hsupplied.short m
  cases blk with
  | kernel => exact .inr (.inr (.inr (.inr hm)))
  | second => exact .inl hm
  | recoveryDtbo => exact .inr (.inl hm)
  | dtb => exact .inr (.inr (.inl hm))
  | bootconfig => exact .inr (.inr (.inr (.inl hm)))
  | ramdisk | extra | signature | vendorRamdiskTable => cases hm

end Supplied

def Disguised (h : Header) : Prop :=
  h.kind ≠ .pxa ∧ h.kind.isVendor = false ∧
    (isAmonet h.raw 0 = true ∨ isNookhd h.raw 0 = true ∨ isAcclaim h.raw 0 = true)

theorem pageWord_apart {k : Kind} (hpxa : k ≠ .pxa) (hvendor : k.isVendor = false) :
    ∀ part ∈ writtenParts, apart (k.region part) (some (36, 4)) := by
  cases k with
  | pxa => exact absurd rfl hpxa
  | vndV3 | vndV4 => cases hvendor
  | _ => decide

theorem plain_of_detect {h : Header} (hdetect : detect h.kind h.raw 0 = some h.kind)
    (hpxa : h.kind ≠ .pxa → h.kind.isVendor = false → isPxa h.raw 0 = false)
    (hclear : ¬ Disguised h) : Plain h.raw 0 (imageFmt h.kind) h.kind := by
  by_cases hp : h.kind = .pxa
  · rw [hp] at hdetect ⊢
    rw [detect] at hdetect
    split at hdetect
    · rename_i hisPxa
      exact .inr (.inl ⟨by decide, hisPxa, rfl⟩)
    · cases hdetect
  · cases hvendor : h.kind.isVendor with
    | true =>
        left
        refine ⟨by rw [imageFmt, hvendor, if_pos rfl], ?_⟩
        cases hk : h.kind with
        | vndV3 | vndV4 =>
            rw [hk, detect, Option.some.injEq] at hdetect
            exact hdetect.symm
        | _ =>
            rw [hk] at hvendor
            cases hvendor
    | false =>
        right
        right
        have hboot : bootMagic <+: h.raw.drop 0 ∧ h.kind = aospKind h.raw 0 := by
          cases hk : h.kind with
          | vndV3 | vndV4 =>
              rw [hk] at hvendor
              cases hvendor
          | pxa => exact absurd hk hp
          | _ =>
              rw [hk] at hdetect
              simp only [detect] at hdetect
              split at hdetect
              · rename_i hmagic
                exact ⟨hmagic, (Option.some.inj hdetect).symm⟩
              · cases hdetect
        have hno : ∀ b : Bool, (b = true → Disguised h) → ¬ b = true := fun b hb hb' => hclear (hb hb')
        refine ⟨by rw [imageFmt, hvendor]; decide, by rw [hpxa hp hvendor]; decide, ?_, ?_, ?_, hboot⟩
        · exact hno _ fun h => ⟨hp, hvendor, .inl h⟩
        · exact hno _ fun h => ⟨hp, hvendor, .inr (.inl h)⟩
        · exact hno _ fun h => ⟨hp, hvendor, .inr (.inr h)⟩

section Load

variable {env : Env} {file : List UInt8} {img : BootImg} {files : Files} {skipComp : Bool}
  {w : Written} (hload : load env file = some img) (hzero : AtZero env file img)
  (hwrote : Wrote env img files skipComp w)

include hzero hwrote

theorem isPxa_final (hp : img.raw.kind ≠ .pxa) (hvendor : img.raw.kind.isVendor = false) :
    isPxa (finalHdr env img files skipComp w).raw 0 = false := by
  have hword : word (finalHdr env img files skipComp w).raw 36 = word (env.map file) 36 := by
    have hsize := le_hdrSize img.raw.kind
    have hsame := (sameOutside_final skipComp hwrote).2 36 4 (pageWord_apart hp hvendor)
    have hraw := word_eq_of_slice hzero.raw_eq (show 36 + 4 ≤ _ by rw [Header.hdrSize]; omega)
    rw [Nat.zero_add] at hraw
    rw [hraw, word, word]
    exact congrArg ofLe hsame
  rcases hzero.plain with ⟨-, hk⟩ | ⟨-, -, hk⟩ | ⟨-, hpxa, -⟩
  · rcases vendorKind_cases (env.map file) 0 with h | h <;> rw [hk, h] at hvendor <;> cases hvendor
  · exact absurd hk hp
  · rw [isPxa, Nat.zero_add] at hpxa ⊢
    rw [hword]
    simpa using hpxa

include hload

theorem plain_final (halias : ¬ aliases (finalHdr env img files skipComp w))
    (hclear : ¬ Disguised (finalHdr env img files skipComp w)) :
    Plain (finalHdr env img files skipComp w).raw 0 (imageFmt img.raw.kind) img.raw.kind := by
  have hkind := finalHdr_kind hwrote
  have hdetect := detect_final (sameOutside_final skipComp hwrote) (detect_of_load hload hzero.amonet) halias
  rw [← hkind] at hdetect ⊢
  apply plain_of_detect hdetect _ hclear
  rw [hkind]
  exact isPxa_final hzero hwrote

omit hload in
theorem magic_final : imageMagic img.raw.kind <+: (finalHdr env img files skipComp w).raw := by
  have hapart : ∀ part ∈ writtenParts, apart (img.raw.kind.region part) (some (0, 8)) := by
    cases img.raw.kind <;> decide
  have hlength : (imageMagic img.raw.kind).length = 8 := by
    rw [imageMagic]
    split <;> decide
  have hsize := le_hdrSize img.raw.kind
  have hsame := (sameOutside_final skipComp hwrote).2 0 8 hapart
  have hmagic := hzero.magic
  rw [← List.drop_zero (l := env.map file),
    magic_iff_of_slice hzero.raw_eq (by rw [hlength, Header.hdrSize]; omega),
    List.prefix_iff_eq_take, hlength] at hmagic
  rw [List.prefix_iff_eq_take, hlength, hmagic]
  exact hsame.symm

variable (env img files skipComp w) in
def finalBlock (blk : Block) : List UInt8 :=
  slice (patched env img files skipComp w).1 ((finalHdr env img files skipComp w).blockOff blk)
    ((finalHdr env img files skipComp w).get blk.sizeField)

section Framed

variable {out : List UInt8} (hpage : img.raw.pageSize < 2 ^ 31)

include hpage

theorem fronted_out (halias : ¬ aliases (finalHdr env img files skipComp w))
    (hclear : ¬ Disguised (finalHdr env img files skipComp w))
    (hhead : (finalHdr env img files skipComp w).raw <+: out)
    (hstop : (finalHdr env img files skipComp w).stop ≤ (env.map out).length) :
    Fronted env out (finalHdr env img files skipComp w) := by
  have hmap : (finalHdr env img files skipComp w).raw <+: env.map out :=
    hhead.trans (List.prefix_append _ _)
  have hpageSize := finalHdr_pageSize hwrote
  refine ⟨?_, plain_of_isPrefix hmap ?_, readHeader_of_isPrefix hmap, ?_, ?_, hstop⟩
  · rw [finalHdr_kind hwrote]
    exact (magic_final hzero hwrote).trans hhead
  · rw [finalHdr_kind hwrote]
    exact plain_final hload hzero hwrote halias hclear
  · rw [hpageSize]
    exact hzero.parsed.pageSize_pos
  · rwa [hpageSize]

variable (hexact : ∀ blk, Exact env img files skipComp blk) (hlength : w.out.fd.length ≤ out.length)

include hexact hlength

omit hload in
theorem stop_le_map : (finalHdr env img files skipComp w).stop ≤ (env.map out).length := by
  have hspace := hzero.parsed.space_le hpage
  have hheader := hzero.header_eq hwrote
  have hfd := length_fd hwrote hzero.parsed.pageSize_pos hexact hspace
  have hmap := env.length_le_map out
  omega

variable (hframe : ∀ off n, img.raw.space ≤ off → off + n ≤ w.out.fd.length →
  slice out off n = slice (patched env img files skipComp w).1 off n)

include hframe

omit hload in
theorem slice_map_out (blk : Block) :
    slice (env.map out) ((finalHdr env img files skipComp w).blockOff blk)
        ((finalHdr env img files skipComp w).get blk.sizeField)
      = finalBlock env img files skipComp w blk := by
  have hpos := hzero.parsed.pageSize_pos
  have hspace := hzero.parsed.space_le hpage
  have hheader := hzero.header_eq hwrote
  have hfd := length_fd hwrote hpos hexact hspace
  have hin := (finalHdr env img files skipComp w).blockOff_add_le
    (by rw [finalHdr_pageSize hwrote]; exact hpos) blk
  have hfirst := (finalHdr env img files skipComp w).space_le_blockOff blk
  rw [finalHdr_space hwrote] at hfirst
  have hmap : out <+: env.map out := List.prefix_append _ _
  rw [slice_of_isPrefix hmap (by omega)]
  exact hframe _ _ hfirst (by omega)

/-- **Parsing the output.** A file with the new header in front and the patched blocks behind it is
accepted if kernel, ramdisk and extra block can be parsed, whatever follows. -/
theorem load_repacked {kernel : KernelPart} {ramdisk : Payload} {eFmt : FileFormat}
    {tail : TailInfo} (halias : ¬ aliases (finalHdr env img files skipComp w))
    (hclear : ¬ Disguised (finalHdr env img files skipComp w))
    (htable : img.raw.get .vendorRamdiskTableSize = 0)
    (hhead : (finalHdr env img files skipComp w).raw <+: out)
    (hparts : PartsOf env (finalBlock env img files skipComp w) kernel ramdisk eFmt)
    (htail : parseTail env (env.map out) 0 (finalHdr env img files skipComp w).stop
      (sha256Flags ⟨finalHdr env img files skipComp w, 0, {}⟩) = some tail) :
    load env out = some (loadedImg env out (finalHdr env img files skipComp w) kernel ramdisk eFmt tail) :=
  (fronted_out hload hzero hwrote hpage halias hclear hhead
    (stop_le_map hzero hwrote hpage hexact hlength)).load_of_blocks htail
    (slice_map_out hzero hwrote hpage hexact hlength hframe)
    (((sameOutside_final skipComp hwrote).get (by decide)).trans htable) hparts

end Framed

end Load

def sizeParts : List Part :=
  [.field .kernelSize, .field .ramdiskSize, .field .secondSize, .field .extraSize,
    .field .recoveryDtboSize, .field .recoveryDtboOffset, .field .dtbSize, .field .bootconfigSize,
    .field .headerSize, .text .id]

theorem writeSegment_out {page header : Nat} {out out' : Out} {seg : Block × Segment}
    (hwrite : writeSegment page header out seg = some out') :
    out'.hdr = describeSegment out.fd.length seg out.hdr ∧
      out'.places = out.places ++ [out.fd.length] := by
  simp only [writeSegment, Option.bind_eq_bind] at hwrite
  split at hwrite
  · obtain ⟨fd, -, hout⟩ := Option.bind_eq_some_iff.1 hwrite
    cases hout
    exact ⟨rfl, rfl⟩
  · cases hwrite
    exact ⟨rfl, rfl⟩

theorem sameOutside_foldlM {page header : Nat} {segs : List (Block × Segment)} {out out' : Out}
    (hfold : segs.foldlM (writeSegment page header) out = some out') :
    (∀ seg ∈ segs, seg.2.size = none ∨ .field seg.1.sizeField ∈ sizeParts) →
      out.hdr.SameOutside sizeParts out'.hdr := by
  induction segs generalizing out with
  | nil =>
      intro _
      cases hfold
      exact .refl _ _
  | cons seg segs ih =>
      intro hsegs
      rw [List.foldlM_cons, Option.bind_eq_bind, Option.bind_eq_some_iff] at hfold
      obtain ⟨next, hnext, hfold⟩ := hfold
      have hrest := ih hfold fun seg' hseg' => hsegs seg' (List.mem_cons_of_mem _ hseg')
      have hsize : out.hdr.SameOutside sizeParts (out.hdr.setSize seg.1 seg.2.size) := by
        rcases hsegs seg List.mem_cons_self with hnone | hmem
        · rw [hnone]
          exact .refl _ _
        · cases seg.2.size with
          | none => exact .refl _ _
          | some n => exact Header.SameOutside.set _ hmem n
      refine hsize.trans (Header.SameOutside.trans ?_ hrest)
      rw [(writeSegment_out hnext).1]
      simp only [describeSegment]
      split
      · exact Header.SameOutside.set _ (by decide) _
      · exact .refl _ _

section NoHeaderFile

variable {env : Env} {file : List UInt8} {img : BootImg} {files : Files} {skipComp : Bool}
  {w : Written} (htable : img.raw.get .vendorRamdiskTableSize = 0)
  (hwrite : writeImg env img files skipComp = some w) (hnone : files.header = none)

include htable hwrite hnone

theorem sameOutside_final_of_none :
    img.raw.SameOutside sizeParts (finalHdr env img files skipComp w) := by
  have hset : ∀ (h : Header) {f : Field}, .field f ∈ sizeParts → ∀ n,
      h.SameOutside sizeParts (h.set f n) := fun h _ hf n => Header.SameOutside.set h hf n
  have hnew : img.raw.SameOutside sizeParts (newHdr env img files) := by
    rw [newHdr, hnone]
    exact ((((((hset img.raw (by decide) _).trans (hset _ (by decide) _)).trans
      (hset _ (by decide) _)).trans (hset _ (by decide) _)).trans (hset _ (by decide) _)).trans
      (hset _ (by decide) _)).trans (hset _ (by decide) _)
  have hpatch : w.out.hdr.SameOutside sizeParts (finalHdr env img files skipComp w) := by
    have hmtk : ∀ (h : Header) (blk : Block) (mtk : Bool), .field blk.sizeField ∈ sizeParts →
        h.SameOutside sizeParts
          (h.setSize blk (if mtk then some (h.get blk.sizeField + mtkHdrSize) else none)) := by
      intro h blk mtk hblk
      cases mtk with
      | false => exact .refl _ _
      | true => exact hset h hblk _
    simp only [finalHdr, patched, snd_patchMtk]
    have hkernel := hmtk w.out.hdr .kernel img.kernel.mtk (by decide)
    exact ((hkernel.trans (hmtk _ .ramdisk img.ramdisk.mtk (by decide))).trans
      (hset _ (by decide) _)).trans ((sameOutside_updateId _ _ _).mono (by decide))
  simp only [writeImg, segments_eq htable, Option.bind_eq_bind, Option.bind_eq_some_iff,
    Option.some.injEq] at hwrite
  obtain ⟨space, -, segs, rfl, out, hfold, fd, -, vb, -, hw⟩ := hwrite
  cases hw
  refine (hnew.trans (sameOutside_foldlM hfold ?_)).trans hpatch
  intro seg hseg
  rw [plainSegments_eq, List.mem_map] at hseg
  obtain ⟨blk, -, rfl⟩ := hseg
  cases blk with
  | signature =>
      left
      simp only [segmentOf, signatureSegment]
      split <;> rfl
  | vendorRamdiskTable => exact .inl rfl
  | _ => exact .inr (by dsimp only; decide)

theorem clear_final (hzero : AtZero env file img)
    (hloader : img.raw.kind ≠ .pxa → img.raw.kind.isVendor = false →
      bootMagic <+: (env.map file).drop amonetMicroloaderSz →
        isAmonet (finalHdr env img files skipComp w).raw 0 = false) :
    ¬ Disguised (finalHdr env img files skipComp w) := by
  rintro ⟨hpxa, hvendor, hdisguised⟩
  have hsame := sameOutside_final_of_none htable hwrite hnone
  rw [hsame.1] at hpxa hvendor
  have hsize := le_hdrSize img.raw.kind
  have hkept : ∀ magic off, (∀ part ∈ sizeParts, apart (img.raw.kind.region part)
      (some (off, magic.length))) → off + magic.length ≤ 1580 →
      magic <+: (finalHdr env img files skipComp w).raw.drop off → magic <+: (env.map file).drop off := by
    intro magic off hapart hle hpre
    have hraw : slice (env.map file) off magic.length = slice img.raw.raw off magic.length := by
      rw [← hzero.raw_eq, slice_slice (by rw [Header.hdrSize]; omega), Nat.zero_add]
    rw [prefix_drop_iff, hsame.2 off magic.length hapart] at hpre
    rw [prefix_drop_iff, hraw, hpre]
  have hregions : ∀ part ∈ sizeParts, apart (img.raw.kind.region part) (some (amonetMicroloaderSz, 8)) ∧
      (∀ magic ∈ nookhdMagics, apart (img.raw.kind.region part) (some (64, magic.length))) ∧
      apart (img.raw.kind.region part) (some (48, acclaimMagic.length)) := by
    cases hk : img.raw.kind with
    | pxa => exact absurd hk hpxa
    | vndV3 | vndV4 =>
        rw [hk] at hvendor
        cases hvendor
    | _ => decide
  rcases hzero.plain with ⟨-, hk⟩ | ⟨-, -, hk⟩ | ⟨-, -, -, hnookhd, hacclaim, -⟩
  · rcases vendorKind_cases (env.map file) 0 with h | h <;> rw [hk, h] at hvendor <;> cases hvendor
  · exact hpxa hk
  · rcases hdisguised with hamonet | hnook | hacc
    · have hmagic := hamonet
      rw [isAmonet, Bool.and_eq_true, decide_eq_true_eq, Nat.zero_add] at hmagic
      refine Bool.false_ne_true ((hloader hpxa hvendor ?_).symm.trans hamonet)
      exact hkept bootMagic amonetMicroloaderSz (fun part hpart => (hregions part hpart).1) (by decide)
        hmagic.2
    · apply hnookhd
      rw [isNookhd, List.any_eq_true] at hnook ⊢
      obtain ⟨magic, hmagic, hpre⟩ := hnook
      rw [decide_eq_true_eq, Nat.zero_add] at hpre
      have hshort : ∀ magic ∈ nookhdMagics, 64 + magic.length ≤ 1580 := by decide
      refine ⟨magic, hmagic, decide_eq_true ?_⟩
      exact hkept magic 64 (fun part hpart => (hregions part hpart).2.1 magic hmagic)
        (hshort magic hmagic) hpre
    · apply hacclaim
      rw [isAcclaim, decide_eq_true_eq, Nat.zero_add] at hacc ⊢
      exact hkept acclaimMagic 48 (fun part hpart => (hregions part hpart).2.2) (by decide) hacc

end NoHeaderFile

end MagiskNative.Boot
