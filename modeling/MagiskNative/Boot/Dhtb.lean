import MagiskNative.Boot.RawKernel

/-!
# The DHTB header of a repacked image

A DHTB header has the size of what follows it and a checksum over that many bytes. `repack` takes the
size from `off.tail`, which is behind the trailer already, and adds the trailer once more.
-/

namespace MagiskNative.Boot

open Bytes Layout

section Scan

def Flags.wrapped (flags : Flags) : Bool × Bool := (flags.dhtb, flags.seandroid)

/-- A header leaves the flags of the wrapper alone, whether it is accepted or not. -/
def KeepsWrapped (flags : Flags) : Outcome Flags ParsedHdr → Prop
  | .ok p => p.flags.wrapped = flags.wrapped
  | .err flags' => flags'.wrapped = flags.wrapped
  | .panic => True

variable {env : Env} {mem : List UInt8} {mapSize addr : Nat} {fmt : FileFormat} {flags : Flags}

theorem keepsWrapped_of (hdr : Option Header) : KeepsWrapped flags (ParsedHdr.of hdr addr flags) := by
  cases hdr with
  | none => exact trivial
  | some h => exact rfl

theorem keepsWrapped_ofAosp (hdr : Outcome Unit Header) (addr : Nat) {flags' : Flags}
    (hflags : flags'.wrapped = flags.wrapped) :
    KeepsWrapped flags (ParsedHdr.ofAosp hdr addr flags') := by
  cases hdr with
  | ok h => exact hflags
  | err e => exact hflags
  | panic => exact trivial

theorem keepsWrapped_parseHdr : KeepsWrapped flags (parseHdr mem addr fmt flags) := by
  unfold parseHdr
  repeat' split
  · exact trivial
  · exact keepsWrapped_of _
  · exact trivial
  · exact keepsWrapped_of _
  · exact trivial
  · exact keepsWrapped_ofAosp _ addr rfl
  · exact keepsWrapped_ofAosp _ (addr + nookhdPreHeaderSz) rfl
  · exact keepsWrapped_ofAosp _ (addr + acclaimPreHeaderSz) rfl
  · exact keepsWrapped_ofAosp _ addr rfl

theorem wrapped_of_err {flags' : Flags}
    (herr : parseImage env mem mapSize addr fmt flags = .err flags') :
    flags'.wrapped = flags.wrapped := by
  have hkeeps : KeepsWrapped flags (parseHdr mem addr fmt flags) := keepsWrapped_parseHdr
  unfold parseImage at herr
  cases hhdr : parseHdr mem addr fmt flags with
  | err flags₁ =>
      rw [hhdr] at herr hkeeps
      cases herr
      exact hkeeps
  | panic =>
      rw [hhdr] at herr
      cases herr
  | ok p =>
      rw [hhdr] at herr hkeeps
      simp only [Outcome.ok_bind] at herr
      repeat' split at herr
      all_goals cases herr
      exact hkeeps

theorem wrapped_of_ok {img : BootImg} (hok : parseImage env mem mapSize addr fmt flags = .ok img) :
    img.flags.dhtb = flags.dhtb ∧ (flags.seandroid = true → img.flags.seandroid = true) := by
  obtain ⟨p, hhdr, -, -, hparsed⟩ := parseImage_eq_ok_iff.1 hok
  have hkeeps : KeepsWrapped flags (parseHdr mem addr fmt flags) := keepsWrapped_parseHdr
  rw [hhdr] at hkeeps
  obtain ⟨hdhtb, hseandroid⟩ := Prod.mk.inj hkeeps
  constructor
  · have htail := parseTail_flags Flags.dhtb (fun _ => ⟨rfl, rfl, rfl, rfl⟩) hparsed.tail
    exact htail.trans hdhtb
  · intro hset
    refine parseTail_induct (P := fun flags' => flags'.seandroid = true) ?_ ?_ hparsed.tail
    · exact fun _ h => ⟨rfl, h, h, h⟩
    · exact hseandroid.trans hset

/-- **What the wrapper leaves behind.** A DHTB header in front of the image is skipped as a whole, and
the image counts as one with a SEANDROID trailer. -/
theorem dhtb_of_scan {img : BootImg} (hscan : scan env mem mapSize addr flags = some img)
    (hflags : flags.dhtb = true → flags.seandroid = true ∧ dhtbHdrSize ≤ addr)
    (hdhtb : img.flags.dhtb = true) : img.flags.seandroid = true ∧ dhtbHdrSize ≤ mapSize := by
  fun_induction scan env mem mapSize addr flags with
  | case1 addr flags hlt hfmt => cases hscan
  | case2 _ _ _ _ ih | case4 _ _ _ _ ih | case8 _ _ _ _ _ _ _ _ _ ih =>
      apply ih hscan
      intro h
      exact ⟨(hflags h).1, (hflags h).2.trans (Nat.le_add_right _ _)⟩
  | case3 addr flags hlt hfmt ih =>
      apply ih hscan
      intro _
      exact ⟨rfl, Nat.le_add_left _ _⟩
  | case5 addr flags hlt fmt hchromeos hnodhtb hblob hfmt haosp img' hparse =>
      cases hscan
      obtain ⟨hsame, hseandroid⟩ := wrapped_of_ok hparse
      obtain ⟨hset, hle⟩ := hflags (hsame.symm.trans hdhtb)
      exact ⟨hseandroid hset, hle.trans hlt.le⟩
  | case6 addr flags hlt fmt hchromeos hnodhtb hblob hfmt haosp flags₁ hparse ih =>
      apply ih hscan
      obtain ⟨hsame, hseandroid⟩ := Prod.mk.inj (wrapped_of_err hparse)
      intro h
      obtain ⟨hset, hle⟩ := hflags (hsame.symm.trans h)
      exact ⟨hseandroid.trans hset, hle.trans (Nat.le_add_right _ _)⟩
  | case7 addr flags hlt fmt hchromeos hnodhtb hblob hfmt haosp hparse => cases hscan
  | case9 addr flags hge => cases hscan

end Scan

section Repack

variable {env : Env} {file out : List UInt8} {img : BootImg} {files : Files} {skipComp : Bool}
  {w : Written}

theorem prefix_fileAlignWith {page header : Nat} {fd fd' : List UInt8}
    (halign : fileAlignWith page header fd = some fd') : fd <+: fd' := by
  rw [fileAlignWith] at halign
  split at halign
  · cases halign
    exact List.prefix_append _ _
  · cases halign

theorem prefix_writeSegment {page header : Nat} {out out' : Out} {seg : Block × Segment}
    (hwrite : writeSegment page header out seg = some out') : out.fd <+: out'.fd := by
  have hbytes : out.fd <+: out.fd ++ seg.2.bytes := List.prefix_append _ _
  simp only [writeSegment, Option.bind_eq_bind] at hwrite
  split at hwrite
  · obtain ⟨fd, halign, hout⟩ := Option.bind_eq_some_iff.1 hwrite
    cases hout
    exact hbytes.trans (prefix_fileAlignWith halign)
  · cases hwrite
    exact hbytes

theorem prefix_foldlM_writeSegment {page header : Nat} {segs : List (Block × Segment)} {out out' : Out}
    (hfold : segs.foldlM (writeSegment page header) out = some out') : out.fd <+: out'.fd := by
  induction segs generalizing out with
  | nil =>
      cases hfold
      exact List.prefix_rfl
  | cons seg segs ih =>
      rw [List.foldlM_cons, Option.bind_eq_bind, Option.bind_eq_some_iff] at hfold
      obtain ⟨next, hnext, hfold⟩ := hfold
      exact (prefix_writeSegment hnext).trans (ih hfold)

theorem writeImg_tail (hwrite : writeImg env img files skipComp = some w) :
    w.header = (wrapper img).length ∧ wrapper img <+: w.out.fd ∧
      w.tail = (w.out.fd ++ trailer img).length ∧ w.out.fd ++ trailer img <+: w.data := by
  simp only [writeImg, Option.bind_eq_bind, Option.bind_eq_some_iff] at hwrite
  obtain ⟨space, -, segs, -, out, hfold, fd, halign, ⟨fd', off⟩, hvbmeta, hw⟩ := hwrite
  cases hw
  refine ⟨rfl, (List.prefix_append _ _).trans (prefix_foldlM_writeSegment hfold), rfl, ?_⟩
  refine ((prefix_fileAlignWith halign).trans ?_).trans (prefix_padToSource fd')
  rw [writeVbmeta] at hvbmeta
  split at hvbmeta
  · rw [Option.bind_eq_bind, Option.bind_eq_some_iff] at hvbmeta
    obtain ⟨fd₁, halign₁, hfd₁⟩ := hvbmeta
    cases hfd₁
    exact (prefix_fileAlignWith halign₁).trans (List.prefix_append _ _)
  · cases hvbmeta
    exact List.prefix_rfl

theorem length_patchAvb {data data' : List UInt8} (hpatch : patchAvb env img w data = some data') :
    data'.length = data.length := by
  rw [patchAvb] at hpatch
  split at hpatch
  · simp only [Option.bind_eq_bind, Option.bind_eq_some_iff] at hpatch
    obtain ⟨found, -, hdata⟩ := hpatch
    cases hdata
    split <;> split <;> simp only [length_patch]
  · cases hpatch
    rfl

theorem word_patchWrapper {data : List UInt8} (hdhtb : img.flags.dhtb = true)
    (hlength : 52 ≤ data.length) : word (patchWrapper env img w data) 48 = dhtbSize w := by
  have hlt : dhtbSize w < 256 ^ 4 := Nat.mod_lt _ (by decide)
  have hslice : slice (patchWrapper env img w data) 48 4 = leBytes 4 (dhtbSize w) := by
    rw [patchWrapper, if_pos hdhtb]
    simp only
    rw [slice_patch_of_disjoint (.inr (by rw [List.length_take]; omega))]
    have hself : slice (patch data 48 (leBytes 4 (dhtbSize w))) 48 (leBytes 4 (dhtbSize w)).length
        = leBytes 4 (dhtbSize w) := slice_patch_self (by rwa [length_leBytes])
    rwa [length_leBytes] at hself
  rw [word, hslice, ofLe_leBytes_of_lt hlt]

def DhtbDescribes (env : Env) (out : List UInt8) (n : Nat) : Prop :=
  word out 48 = n ∧ slice out 8 32 = env.sha256 (slice out dhtbHdrSize n) ∧
    dhtbHdrSize + n ≤ out.length

variable (hload : load env file = some img) (hdhtb : img.flags.dhtb = true)
  (hwrite : writeImg env img files skipComp = some w)

include hload hdhtb hwrite

theorem tail_of_dhtb :
    w.header = dhtbHdrSize ∧ w.tail = (w.out.fd ++ seandroidMagic ++ [0xff, 0xff, 0xff, 0xff]).length ∧
      dhtbHdrSize + 20 ≤ w.tail ∧ w.tail ≤ w.data.length := by
  obtain ⟨hseandroid, hle⟩ := dhtb_of_scan hload nofun hdhtb
  obtain ⟨flags, hparsed, -⟩ := load_parsed hload
  have hmem : 0 + dhtbHdrSize ≤ img.mem.length := by
    have hmap := env.length_le_map file
    rw [hparsed.mem_eq]
    omega
  have hwrapper : (wrapper img).length = dhtbHdrSize := by
    rw [wrapper, if_pos hdhtb, length_slice_of_le hmem]
  have htrailer : trailer img = seandroidMagic ++ [0xff, 0xff, 0xff, 0xff] := by
    rw [trailer, if_pos hseandroid, if_pos hdhtb]
  obtain ⟨hheader, hfd, htail, hdata⟩ := writeImg_tail hwrite
  have hfdLength := hfd.length_le
  have hdataLength := hdata.length_le
  rw [← htail] at hdataLength
  rw [htrailer, ← List.append_assoc] at htail
  refine ⟨hheader.trans hwrapper, htail, ?_, hdataLength⟩
  rw [htail, List.length_append, List.length_append, show seandroidMagic.length = 16 from rfl]
  simp only [List.length_cons, List.length_nil]
  omega

theorem word_dhtb (hrepack : repack env file files skipComp = some out)
    (hsigned : img.flags.avb1Signed = true → w.tail < 2 ^ 32) :
    word out 48 = (w.tail - dhtbHdrSize + 20) % 2 ^ 32 := by
  obtain ⟨hheader, -, hle, hdata⟩ := tail_of_dhtb hload hdhtb hwrite
  have hsize : dhtbHdrSize = 512 := rfl
  simp only [repack, hload, repackImg, hwrite, Option.bind_eq_bind, Option.bind_some,
    Option.bind_eq_some_iff] at hrepack
  obtain ⟨data, hpatch, hout⟩ := hrepack
  split at hout
  · cases hout
    have hlength := length_patchAvb hpatch
    rw [length_withHeader] at hlength
    have hword : word (patchWrapper env img w data) 48 = dhtbSize w :=
      word_patchWrapper hdhtb (by omega)
    rw [word, slice_signImg hsigned (by rw [length_patchWrapper]; omega) (by omega), ← word, hword,
      dhtbSize, aospImgSize]
    omega
  · cases hout

/-- **The DHTB header of the output** never describes its payload, whose trailer it counts twice. -/
theorem not_dhtbDescribes (hrepack : repack env file files skipComp = some out)
    (hsigned : img.flags.avb1Signed = true → w.tail < 2 ^ 32) :
    w.header = dhtbHdrSize ∧
      w.tail = (w.out.fd ++ seandroidMagic ++ [0xff, 0xff, 0xff, 0xff]).length ∧
      word out 48 = (w.tail - dhtbHdrSize + 20) % 2 ^ 32 ∧
      ¬ DhtbDescribes env out (w.tail - dhtbHdrSize) := by
  obtain ⟨hheader, htail, -⟩ := tail_of_dhtb hload hdhtb hwrite
  have hword := word_dhtb hload hdhtb hwrite hrepack hsigned
  refine ⟨hheader, htail, hword, ?_⟩
  rintro ⟨hsize, -⟩
  omega

end Repack

theorem plain_drop {mem : List UInt8} {addr : Nat} {fmt : FileFormat} {k : Kind} :
    Plain (mem.drop addr) 0 fmt k ↔ Plain mem addr fmt k := by
  simp only [Plain, vendorKind, isPxa, isAmonet, isNookhd, isAcclaim, aospKind, word, slice_drop,
    List.drop_drop, Nat.zero_add, Nat.add_zero]
  exact Iff.rfl

def dhtbHead : List UInt8 := dhtbMagic ++ zeros 504

def dhtbFile : List UInt8 := dhtbHead ++ ((v1Header 0 0 0 0).raw ++ zeros 2448)

def dhtbImg : BootImg where
  mem := sampleEnv.map dhtbFile
  mapSize := dhtbFile.length
  addr := 512
  raw := v1Header 0 0 0 0
  offs := starts (v1Header 0 0 0 0).space ((v1Header 0 0 0 0).sizes.map (roundUp (v1Header 0 0 0 0).pageSize))
  off := (v1Header 0 0 0 0).stop
  kernel := {}
  ramdisk := {}
  eFmt := .unknown
  flags := { dhtb := true, seandroid := true }
  avbFooter := none
  vbmeta := none

theorem length_dhtbHead : dhtbHead.length = 512 := by
  rw [dhtbHead, List.length_append, length_zeros]
  rfl

theorem length_dhtbFile : dhtbFile.length = 4608 := by
  rw [dhtbFile, List.length_append, List.length_append, length_dhtbHead, length_zeros, Header.length_raw]
  rfl

theorem map_dhtbFile :
    sampleEnv.map dhtbFile = dhtbHead ++ ((v1Header 0 0 0 0).raw ++ zeros 6032) := by
  rw [Env.map, pad, length_dhtbFile, dhtbFile, List.append_assoc, List.append_assoc,
    zeros_append_zeros]
  rfl

theorem drop_map_dhtbFile :
    (sampleEnv.map dhtbFile).drop 512 = (v1Header 0 0 0 0).raw ++ zeros 6032 := by
  rw [map_dhtbFile, ← length_dhtbHead, List.drop_left]

theorem length_map_dhtbFile : (sampleEnv.map dhtbFile).length = 8192 := by
  rw [Env.length_map, length_dhtbFile]
  rfl

theorem slice_map_dhtbFile {off n : Nat} (hoff : 2160 ≤ off) (hle : off + n ≤ 8192) :
    slice (sampleEnv.map dhtbFile) off n = zeros n := by
  have hraw : (v1Header 0 0 0 0).raw.length = 1648 := Header.length_raw _
  have hsplit : off = dhtbHead.length + ((v1Header 0 0 0 0).raw.length + (off - 2160)) := by
    rw [length_dhtbHead, hraw]
    omega
  rw [map_dhtbFile, hsplit, slice_append_right, slice_append_right, slice_zeros (by omega)]

theorem stop_v1Header_zero : (v1Header 0 0 0 0).stop = 4096 := by
  rw [Header.stop, Header.sizes]
  simp only [get_v1Header]
  rw [pageSize_v1Header, space_v1Header]
  rfl

theorem parseTail_dhtbFile :
    parseTail sampleEnv (sampleEnv.map dhtbFile) 512 4096 { dhtb := true, seandroid := true }
      = some { flags := { dhtb := true, seandroid := true } } := by
  have hdrop : (sampleEnv.map dhtbFile).drop (512 + 4096) = zeros 3584 := by
    have hslice : slice (sampleEnv.map dhtbFile) 4608 3584 = zeros 3584 :=
      slice_map_dhtbFile (by decide) (by decide)
    rwa [slice, List.take_of_length_le (by rw [List.length_drop, length_map_dhtbFile])] at hslice
  have hflags : ∀ payload flags, tailFlags sampleEnv payload (zeros 3584) flags = flags := by
    intro payload flags
    have hhead : (zeros 3584).head? = some 0 := rfl
    rw [tailFlags, if_neg (not_prefix_of_head hhead (by decide)),
      if_neg (not_prefix_of_head hhead (by decide)),
      if_neg (show ¬ sampleEnv.verify payload (zeros 3584) = true from Bool.false_ne_true)]
  rw [parseTail_of_lt (by rw [length_map_dhtbFile]; decide), hdrop, hflags, parseFooter,
    length_map_dhtbFile]
  simp only [show 8192 - avbFooterSize = 8128 from rfl]
  rw [slice_map_dhtbFile (by decide) (by decide), if_neg (by decide)]

theorem parseImage_dhtbFile :
    parseImage sampleEnv (sampleEnv.map dhtbFile) dhtbFile.length 512 .aosp
      { dhtb := true, seandroid := true } = .ok dhtbImg := by
  have hpre : (v1Header 0 0 0 0).raw <+: (sampleEnv.map dhtbFile).drop 512 := by
    rw [drop_map_dhtbFile]
    exact List.prefix_append _ _
  have hplain : Plain (sampleEnv.map dhtbFile) 512 .aosp .v1 := by
    rw [← plain_drop]
    exact plain_of_isPrefix hpre (plain_v1Header _ _ _ _)
  have hread : readHeader (sampleEnv.map dhtbFile) 512 Kind.v1 Kind.v1.hdrSize
      = some (v1Header 0 0 0 0) := by
    have hle : 512 + Kind.v1.hdrSize ≤ (sampleEnv.map dhtbFile).length := by
      rw [length_map_dhtbFile]
      decide
    refine readHeader_eq_some_iff.2 ⟨rfl, hle, ?_⟩
    have hraw : (v1Header 0 0 0 0).raw.length = Kind.v1.hdrSize := Header.length_raw _
    rw [slice, drop_map_dhtbFile, List.take_left' hraw]
  have hpage : (v1Header 0 0 0 0).pageSize = 4096 := pageSize_v1Header _ _ _ _
  have hstop := stop_v1Header_zero
  have hsize : ∀ blk : Block, (v1Header 0 0 0 0).get blk.sizeField = 0 := by
    intro blk
    rw [get_v1Header]
    cases blk <;> rfl
  have hhdr : parseHdr (sampleEnv.map dhtbFile) 512 .aosp { dhtb := true, seandroid := true }
      = .ok ⟨v1Header 0 0 0 0, 512, { dhtb := true, seandroid := true }⟩ :=
    parseHdr_of_plain (h := v1Header 0 0 0 0) hplain hread _
  refine parseImage_eq_ok_iff.2 ⟨_, hhdr, rfl, rfl, ?_⟩
  rw [sha256Flags_v1Header]
  have hblocks : blockOffs (v1Header 0 0 0 0) = some (dhtbImg.offs, dhtbImg.off) :=
    blockOffs_eq (h := v1Header 0 0 0 0) (by rw [hpage]; decide) (by rw [hpage]; decide)
  refine ⟨rfl, rfl, hblocks, ?_, ?_, ?_, ?_, ?_⟩
  · intro o ho
    exact intact_of_stop_le (by rw [hstop, length_map_dhtbFile]; decide) ho
  · exact (congrArg (parseKernel _ _) (hsize .kernel)).trans rfl
  · rw [parseRamdisks, if_neg (fun h => h.1 (hsize .ramdisk))]
    exact (congrArg (parseRamdisk _) (hsize .ramdisk)).trans rfl
  · exact (congrArg (parseExtra _) (hsize .extra)).trans rfl
  · rw [show dhtbImg.off = 4096 from hstop]
    exact parseTail_dhtbFile

theorem load_dhtbFile : load sampleEnv dhtbFile = some dhtbImg := by
  have hdhtb : readFmt (sampleEnv.map dhtbFile) dhtbFile.length = some .dhtb := by
    rw [readFmt, if_pos (by rw [length_map_dhtbFile]; omega), length_dhtbFile, map_dhtbFile]
    rfl
  have haosp : readFmt ((sampleEnv.map dhtbFile).drop (0 + dhtbHdrSize)) dhtbFile.length
      = some .aosp := by
    have hmagic : bootMagic <+: ((v1Header 0 0 0 0).raw ++ zeros 6032).take 4608 := by
      apply (magic_v1Header 0 0 0 0).trans
      rw [List.prefix_take_iff, Header.length_raw]
      exact ⟨List.prefix_append _ _, by decide⟩
    rw [readFmt_of_le (by rw [List.length_drop, length_map_dhtbFile, length_dhtbFile]; decide),
      show 0 + dhtbHdrSize = 512 from rfl, drop_map_dhtbFile, length_dhtbFile]
    exact congrArg some (checkFmt_of_soleMagic rfl hmagic)
  rw [load, scan, if_pos (by rw [length_dhtbFile]; decide), List.drop_zero, hdhtb]
  simp only
  rw [scan, if_pos (by rw [length_dhtbFile]; decide), haosp]
  simp only [reduceCtorEq, or_false, if_true]
  rw [show 0 + dhtbHdrSize = 512 from rfl, parseImage_dhtbFile]

theorem size_dhtbImg (blk : Block) : dhtbImg.raw.get blk.sizeField = 0 := by
  rw [dhtbImg, get_v1Header]
  cases blk <;> rfl

theorem repack_dhtbFile : ∃ w out, writeImg sampleEnv dhtbImg {} false = some w ∧
    repack sampleEnv dhtbFile {} false = some out ∧ w.tail = 4628 := by
  have hpage : dhtbImg.raw.pageSize = 4096 := pageSize_v1Header _ _ _ _
  have hspace : dhtbImg.raw.space = 4096 := space_v1Header _ _ _ _
  have hpos : 0 < dhtbImg.raw.pageSize := by
    rw [hpage]
    decide
  obtain ⟨w, hwrite, hwrote⟩ : ∃ w, writeImg sampleEnv dhtbImg {} false = some w ∧
      Wrote sampleEnv dhtbImg {} false w :=
    writeImg_wrote (size_dhtbImg .vendorRamdiskTable) hpos (by rw [hpage]; decide)
  have hnil : ∀ blk, (segmentOf sampleEnv dhtbImg {} false blk).bytes = [] := by
    intro blk
    cases blk with
    | signature =>
        have hsize : dhtbImg.raw.get .signatureSize = 0 := size_dhtbImg .signature
        rw [segmentOf, signatureSegment, if_neg (not_not.2 hsize)]
    | _ => rfl
  have hfd := length_fd_segmented hwrote.segmented hpos (fun blk => .inr (hnil blk))
    (show 512 + _ ≤ (sampleEnv.map dhtbFile).length by rw [hspace, length_map_dhtbFile]; decide)
  obtain ⟨hheader, htail, hle, hdata⟩ := tail_of_dhtb load_dhtbFile rfl hwrite
  have htail' : w.tail = 4628 := by
    rw [htail, List.length_append, List.length_append, hfd, hheader, hspace, hpage]
    simp only [hnil]
    rfl
  have hmapped : WrapperMapped sampleEnv dhtbImg w w.data := by
    obtain ⟨hlength, -⟩ :=
      layout_of_tail load_dhtbFile hwrite (show w.tail = w.header + 4116 by rw [htail', hheader]; rfl)
    have hmap := sampleEnv.length_le_map w.data
    have hround : roundUp 4096 4116 = 8192 := by decide
    have hvbmeta : dhtbImg.vbmeta = none := rfl
    have hchromeos : dhtbImg.flags.chromeos = false := rfl
    rw [outputLength, hvbmeta, hpage, hround, ← hwrote.header, hheader, hchromeos, dhtbHdrSize] at hlength
    simp only [Bool.false_eq_true, if_false] at hlength
    apply wrapperMapped_of_le hheader (by omega)
    omega
  have hrepack := repackImg_eq hwrite (.inl rfl) hmapped
  exact ⟨w, _, hwrite, by rw [repack, load_dhtbFile, Option.bind_eq_bind, Option.bind_some, hrepack],
    htail'⟩

theorem not_dhtbDescribes_dhtbFile :
    ∃ w out, load sampleEnv dhtbFile = some dhtbImg ∧ writeImg sampleEnv dhtbImg {} false = some w ∧
      repack sampleEnv dhtbFile {} false = some out ∧ w.tail - dhtbHdrSize = 4116 ∧
      word out 48 = 4136 ∧ ¬ DhtbDescribes sampleEnv out 4116 := by
  obtain ⟨w, out, hwrite, hrepack, htail⟩ := repack_dhtbFile
  have hword := word_dhtb load_dhtbFile rfl hwrite hrepack nofun
  rw [htail, show (4628 - dhtbHdrSize + 20) % 2 ^ 32 = 4136 from rfl] at hword
  refine ⟨w, out, load_dhtbFile, hwrite, hrepack, by rw [htail]; rfl, hword, ?_⟩
  rintro ⟨hsize, -⟩
  omega

theorem not_dhtbDescribes_repacked :
    ∃ w out, writeImg sampleEnv dhtbImg {} false = some w ∧
      repack sampleEnv dhtbFile {} false = some out ∧
      ¬ DhtbDescribes sampleEnv out (w.tail - dhtbHdrSize) := by
  obtain ⟨w, out, hwrite, hrepack, -⟩ := repack_dhtbFile
  exact ⟨w, out, hwrite, hrepack, (not_dhtbDescribes load_dhtbFile rfl hwrite hrepack nofun).2.2.2⟩

end MagiskNative.Boot
