import MagiskNative.Boot.Sample

/-!
# The layout of the blocks

`align_to` divides by the page size of the header, which nothing has looked at, and takes it as an `int`.
-/

namespace MagiskNative.Boot

open Bytes Layout

structure BlocksInOrder (img : BootImg) : Prop where
  nine : img.offs.length = 9
  sorted : img.offs.Pairwise (· ≤ ·)
  next : (img.offs.zip img.raw.sizes).IsChain fun x y =>
    IsLeast {off | img.raw.pageSize ∣ off ∧ x.1 + x.2 ≤ off} y.1
  space : ∀ off ∈ img.offs, ∀ space ∈ img.raw.hdrSpace, space ≤ off
  stop : img.ptr .bootconfig + img.raw.get .bootconfigSize ≤ img.mem.length

/-- `parse_image` at `addr` finds the layout without a division by zero, and it is in order if the image
is accepted. -/
structure LayoutSound (env : Env) (file : List UInt8) (addr : Nat) (fmt : FileFormat) (flags : Flags) :
    Prop where
  divides : ∀ p, parseHdr (env.map file) addr fmt flags = .ok p → blockOffs p.hdr ≠ none
  ordered : ∀ img, parseImage env (env.map file) file.length addr fmt flags = .ok img → BlocksInOrder img

theorem Parsed.blocksInOrder {env : Env} {mem : List UInt8} {mapSize : Nat} {flags : Flags}
    {img : BootImg} (hparsed : Parsed env mem mapSize flags img) (hpage : img.raw.pageSize < 2 ^ 31) :
    BlocksInOrder img := by
  have hpos := hparsed.pageSize_pos
  have hoffs := (hparsed.offs_eq hpage).1
  refine ⟨?_, ?_, ?_, ?_, ?_⟩
  · rw [hoffs, length_starts]
    rfl
  · rw [hoffs]
    exact pairwise_starts _ _
  · rw [hoffs]
    exact isChain_starts hpos (dvd_space img.raw) img.raw.sizes
  · rw [hoffs, hdrSpace_eq hpos hpage]
    rintro off hoff space ⟨⟩
    exact le_of_mem_starts hoff
  · rw [hparsed.mem_eq]
    exact hparsed.ptr_add_le hpage .bootconfig

theorem blockOffs_ne_none {h : Header} (hpos : 0 < h.pageSize) : blockOffs h ≠ none := by
  have halign : ∀ v, ∃ next, alignTo v h.pageSize = some next := by
    intro v
    rw [alignTo, if_neg hpos.ne']
    exact ⟨_, rfl⟩
  have hspace : ∃ space, h.hdrSpace = some space := by
    rw [Header.hdrSpace]
    split
    · exact halign _
    · exact ⟨_, rfl⟩
  have hblocks : ∀ blks off, ∃ found, getBlocks h blks off = some found := by
    intro blks
    induction blks with
    | nil => exact fun off => ⟨_, rfl⟩
    | cons blk blks ih =>
        intro off
        obtain ⟨next, hnext⟩ := halign (off + h.get blk.sizeField)
        obtain ⟨found, hfound⟩ := ih next
        rw [getBlocks, hnext, Option.bind_eq_bind, Option.bind_some, hfound]
        exact ⟨_, rfl⟩
  obtain ⟨space, hspace⟩ := hspace
  obtain ⟨found, hfound⟩ := hblocks Block.all space
  rw [blockOffs, hspace, Option.bind_eq_bind, Option.bind_some, hfound]
  exact Option.some_ne_none found

theorem alignTo_negative (v : Nat) {page a : Nat} (hpage : 2 ^ 31 ≤ page) (hlt : page < 2 ^ 32)
    (ha : a = page + (2 ^ 64 - 2 ^ 32)) :
    alignTo v page = some (if (v + a - 1) % 2 ^ 64 < a then 0 else a) := by
  have hneg : ¬ page < 2 ^ 31 := by omega
  rw [alignTo, if_neg (by omega), if_neg hneg, ← ha]
  have hsum := Nat.mod_lt (v + a - 1) (by decide : 0 < 2 ^ 64)
  simp only [Option.some.injEq]
  generalize (v + a - 1) % 2 ^ 64 = sum at hsum
  split
  · rename_i hsmall
    rw [Nat.div_eq_of_lt hsmall, Nat.zero_mul, Nat.zero_mod]
  · have hone : sum / a = 1 := Nat.div_eq_of_lt_le (by omega) (by omega)
    rw [hone, Nat.one_mul, Nat.mod_eq_of_lt (by omega)]

theorem pageSize_lt (h : Header) : h.pageSize < 2 ^ 32 := by
  rw [Header.pageSize]
  split
  · decide
  · decide
  · exact h.get_lt .pageSize

theorem kernelSize_of_isVendor {h : Header} (hvendor : h.kind.isVendor) : h.get .kernelSize = 0 := by
  apply Header.get_eq_zero
  cases hkind : h.kind <;> rw [hkind] at hvendor <;> first | rfl | cases hvendor

theorem alignTo_zero {page : Nat} (hpage : 2 ^ 31 ≤ page) (hlt : page < 2 ^ 32) :
    alignTo 0 page = some 0 := by
  rw [alignTo_negative 0 hpage hlt rfl, if_pos (by omega)]

/-- A vendor header whose page size is so near to `2 ^ 32` that the header space wraps to zero, and whose
only block is the last one. -/
structure Flat (mem : List UInt8) (p : ParsedHdr) : Prop where
  vendor : p.hdr.kind.isVendor = true
  wraps : 2 ^ 32 < p.hdr.pageSize + p.hdr.hdrSize
  empty : ∀ blk : Block, blk ≠ .bootconfig → p.hdr.get blk.sizeField = 0
  inside : p.addr + p.hdr.get .bootconfigSize ≤ mem.length

section Negative

variable {h : Header} (hpage : 2 ^ 31 ≤ h.pageSize)

include hpage

theorem hdrSpace_of_wraps (hvendor : h.kind.isVendor = true) :
    h.hdrSpace = some 0 ↔ 2 ^ 32 < h.pageSize + h.hdrSize := by
  have hlt := pageSize_lt h
  have hsize := hdrSize_le h.kind
  have hpos := le_hdrSize h.kind
  rw [Header.hdrSpace, if_pos hvendor, alignTo_negative _ hpage hlt rfl, Option.some.injEq, Header.hdrSize]
  split <;> omega

theorem eq_zero_of_isLeast {v next : Nat} (hv : v < 2 ^ 34) (halign : alignTo v h.pageSize = some next)
    (hleast : IsLeast {off | h.pageSize ∣ off ∧ v ≤ off} next) : v = 0 ∧ next = 0 := by
  have hlt := pageSize_lt h
  have hpos : 0 < h.pageSize := by omega
  have hround := hleast.2 (isLeast_roundUp hpos v).1
  have hbound := roundUp_lt hpos v
  have hge : v ≤ next := hleast.1.2
  rw [alignTo_negative v hpage hlt rfl, Option.some.injEq] at halign
  split at halign <;> omega

/-- In order from offset 0 on, the blocks in front of the last one are empty. -/
theorem empty_of_isChain {blks : List Block} {offs : List Nat} {stop : Nat}
    (hblocks : getBlocks h blks 0 = some (offs, stop))
    (hchain : (offs.zip (blks.map fun blk => h.get blk.sizeField)).IsChain fun x y =>
      IsLeast {off | h.pageSize ∣ off ∧ x.1 + x.2 ≤ off} y.1) :
    ∀ blk ∈ blks.dropLast, h.get blk.sizeField = 0 := by
  induction blks generalizing offs with
  | nil => exact fun blk hblk => absurd hblk List.not_mem_nil
  | cons blk blks ih =>
      obtain ⟨next, rest, hnext, hrest, rfl⟩ := getBlocks_cons_eq_some hblocks
      cases blks with
      | nil => exact fun blk hblk => absurd hblk List.not_mem_nil
      | cons blk' blks =>
          obtain ⟨-, rest', -, -, rfl⟩ := getBlocks_cons_eq_some hrest
          rw [List.map_cons, List.map_cons, List.zip_cons_cons, List.zip_cons_cons,
            List.isChain_cons_cons] at hchain
          have hsize := h.size_lt blk
          obtain ⟨hzero, rfl⟩ := eq_zero_of_isLeast hpage (by omega) hnext hchain.1
          rw [List.dropLast_cons_cons]
          rintro b (_ | ⟨_, hb⟩)
          · omega
          · exact ih hrest hchain.2 b hb

theorem blockOffs_of_wraps (hvendor : h.kind.isVendor = true) (hwraps : 2 ^ 32 < h.pageSize + h.hdrSize)
    (hempty : ∀ blk : Block, blk ≠ .bootconfig → h.get blk.sizeField = 0) :
    ∃ stop, blockOffs h = some (List.replicate 9 0, stop) := by
  have hzero := alignTo_zero hpage (pageSize_lt h)
  obtain ⟨stop, hstop⟩ : ∃ stop, alignTo (0 + h.get Block.bootconfig.sizeField) h.pageSize = some stop := by
    rw [alignTo_negative _ hpage (pageSize_lt h) rfl]
    exact ⟨_, rfl⟩
  have hnext : ∀ blk : Block, blk ≠ .bootconfig → alignTo (0 + h.get blk.sizeField) h.pageSize = some 0 := by
    intro blk hblk
    rw [hempty blk hblk]
    exact hzero
  refine ⟨stop, ?_⟩
  rw [blockOffs, (hdrSpace_of_wraps hpage hvendor).2 hwraps, Option.bind_eq_bind, Option.bind_some]
  simp only [Block.all, getBlocks, hnext _ (show Block.kernel ≠ .bootconfig by decide),
    hnext _ (show Block.ramdisk ≠ .bootconfig by decide), hnext _ (show Block.second ≠ .bootconfig by decide),
    hnext _ (show Block.extra ≠ .bootconfig by decide), hnext _ (show Block.recoveryDtbo ≠ .bootconfig by decide),
    hnext _ (show Block.dtb ≠ .bootconfig by decide), hnext _ (show Block.signature ≠ .bootconfig by decide),
    hnext _ (show Block.vendorRamdiskTable ≠ .bootconfig by decide), hstop, Option.bind_eq_bind,
    Option.bind_some, Option.pure_def]
  rfl

end Negative

section Huge

variable {env : Env} {mem : List UInt8} {mapSize : Nat} {flags : Flags} {img : BootImg} {p : ParsedHdr}
  (hparsed : Parsed env mem mapSize flags img) (hraw : img.raw = p.hdr) (haddr : img.addr = p.addr)
  (hpage : 2 ^ 31 ≤ p.hdr.pageSize)

include hparsed hraw haddr hpage

omit haddr in
theorem Parsed.offs_of_wraps (hvendor : p.hdr.kind.isVendor = true)
    (hwraps : 2 ^ 32 < p.hdr.pageSize + p.hdr.hdrSize)
    (hempty : ∀ blk : Block, blk ≠ .bootconfig → p.hdr.get blk.sizeField = 0) :
    img.offs = List.replicate 9 0 := by
  have hblocks := hparsed.blocks
  obtain ⟨stop, hoffs⟩ := blockOffs_of_wraps hpage hvendor hwraps hempty
  rw [hraw, hoffs, Option.some.injEq, Prod.mk.injEq] at hblocks
  exact hblocks.1.symm

theorem Parsed.ptr_of_wraps (hvendor : p.hdr.kind.isVendor = true)
    (hwraps : 2 ^ 32 < p.hdr.pageSize + p.hdr.hdrSize)
    (hempty : ∀ blk : Block, blk ≠ .bootconfig → p.hdr.get blk.sizeField = 0) (blk : Block) :
    img.ptr blk = p.addr := by
  rw [BootImg.ptr, blockPtr, hparsed.offs_of_wraps hraw hpage hvendor hwraps hempty, haddr]
  cases blk <;> rfl

theorem flat_of_blocksInOrder (horder : BlocksInOrder img) : Flat mem p := by
  have hlt := pageSize_lt p.hdr
  have hblocks := hparsed.blocks
  have hnext := horder.next
  rw [hraw] at hblocks hnext
  rw [blockOffs, Option.bind_eq_bind, Option.bind_eq_some_iff] at hblocks
  obtain ⟨space, hspace, hblocks⟩ := hblocks
  obtain ⟨second, rest, hsecond, hrest, hoffs⟩ := getBlocks_cons_eq_some hblocks
  obtain ⟨-, rest', -, -, rfl⟩ := getBlocks_cons_eq_some hrest
  have hle : space ≤ second := by
    have hsorted := horder.sorted
    rw [hoffs, List.pairwise_cons] at hsorted
    exact hsorted.1 second List.mem_cons_self
  have hleast : IsLeast {off | p.hdr.pageSize ∣ off ∧ space + p.hdr.get .kernelSize ≤ off} second := by
    rw [hoffs] at hnext
    exact (List.isChain_cons_cons.1 hnext).1
  have hvendor : p.hdr.kind.isVendor = true := by
    by_contra hvendor
    rw [Header.hdrSpace, if_neg hvendor, Option.some.injEq] at hspace
    have hsize : p.hdr.get Block.kernel.sizeField < 2 ^ 32 := p.hdr.size_lt .kernel
    have hzero := (eq_zero_of_isLeast hpage (by omega) hsecond hleast).1
    omega
  -- From a header space near `2 ^ 64` the next offset is 0.
  obtain rfl : space = 0 := by
    have hspace' := hspace
    rw [Header.hdrSpace, if_pos hvendor, alignTo_negative _ hpage hlt rfl, Option.some.injEq] at hspace'
    rw [Block.sizeField, kernelSize_of_isVendor hvendor, alignTo_negative _ hpage hlt rfl,
      Option.some.injEq] at hsecond
    split at hspace'
    · exact hspace'.symm
    · rw [if_pos (by omega)] at hsecond
      omega
  have hwraps := (hdrSpace_of_wraps hpage hvendor).1 hspace
  have hempty : ∀ blk : Block, blk ≠ .bootconfig → p.hdr.get blk.sizeField = 0 := by
    intro blk hblk
    refine empty_of_isChain hpage hblocks hnext blk ?_
    cases blk <;> first | exact absurd rfl hblk | decide
  refine ⟨hvendor, hwraps, hempty, ?_⟩
  have hstop := horder.stop
  rwa [hparsed.ptr_of_wraps hraw haddr hpage hvendor hwraps hempty, hraw, hparsed.mem_eq] at hstop

theorem blocksInOrder_of_flat (hflat : Flat mem p) : BlocksInOrder img := by
  obtain ⟨hvendor, hwraps, hempty, hinside⟩ := hflat
  have hoffs := hparsed.offs_of_wraps hraw hpage hvendor hwraps hempty
  refine ⟨?_, ?_, ?_, ?_, ?_⟩
  · rw [hoffs, List.length_replicate]
  · rw [hoffs]
    exact List.pairwise_replicate.2 (.inr le_rfl)
  · have hsizes : Block.all.dropLast.map (fun blk => p.hdr.get blk.sizeField) = List.replicate 8 0 := by
      refine List.eq_replicate_iff.2 ⟨rfl, fun n hn => ?_⟩
      obtain ⟨blk, hblk, rfl⟩ := List.mem_map.1 hn
      refine hempty blk fun hlast => absurd hblk ?_
      rw [hlast]
      decide
    have hleast : IsLeast {off | p.hdr.pageSize ∣ off ∧ 0 + 0 ≤ off} 0 :=
      ⟨⟨dvd_zero _, le_rfl⟩, fun off _ => Nat.zero_le off⟩
    rw [hoffs, hraw, Header.sizes, show Block.all = Block.all.dropLast ++ [.bootconfig] from rfl,
      List.map_append, hsizes]
    simp only [List.replicate, List.cons_append, List.nil_append, List.map_cons, List.map_nil,
      List.zip_cons_cons, List.zip_nil_right, List.isChain_cons_cons, List.isChain_singleton, hleast, and_self]
  · rw [hraw, (hdrSpace_of_wraps hpage hvendor).2 hwraps]
    rintro off - space ⟨⟩
    exact Nat.zero_le off
  · rw [hparsed.ptr_of_wraps hraw haddr hpage hvendor hwraps hempty, hraw, hparsed.mem_eq]
    exact hinside

end Huge

/-- **The layout.** Nothing is divided by zero iff the page size is not zero, and the blocks of an accepted
image are in order iff its page size is positive as an `int`, or there is nothing to put in order. -/
theorem layoutSound_iff {env : Env} {file : List UInt8} {addr : Nat} {fmt : FileFormat} {flags : Flags}
    {p : ParsedHdr} (hhdr : parseHdr (env.map file) addr fmt flags = .ok p) :
    (blockOffs p.hdr ≠ none ↔ 0 < p.hdr.pageSize) ∧
      ∀ img, parseImage env (env.map file) file.length addr fmt flags = .ok img →
        (BlocksInOrder img ↔ p.hdr.pageSize < 2 ^ 31 ∨ Flat (env.map file) p) := by
  refine ⟨⟨?_, blockOffs_ne_none⟩, ?_⟩
  · intro hsome
    obtain ⟨⟨offs, off⟩, hblocks⟩ := Option.ne_none_iff_exists'.1 hsome
    exact pageSize_pos_of_blockOffs hblocks
  · intro img hparse
    obtain ⟨p', hhdr', hraw, haddr, hparsed⟩ := parseImage_eq_ok_iff.1 hparse
    rw [hhdr, Outcome.ok.injEq] at hhdr'
    subst hhdr'
    by_cases hpage : p.hdr.pageSize < 2 ^ 31
    · exact iff_of_true (hparsed.blocksInOrder (by rwa [hraw])) (.inl hpage)
    · rw [or_iff_right hpage]
      rw [not_lt] at hpage
      exact ⟨flat_of_blocksInOrder hparsed hraw haddr hpage, blocksInOrder_of_flat hparsed hraw haddr hpage⟩

theorem layoutSound_single :
    ∃ addr fmt flags p img,
      parseHdr (sampleEnv.map (assemble (v1Of (single .second [1])) (single .second [1]))) addr fmt flags
        = .ok p ∧
      parseImage sampleEnv (sampleEnv.map (assemble (v1Of (single .second [1])) (single .second [1])))
        (assemble (v1Of (single .second [1])) (single .second [1])).length addr fmt flags = .ok img ∧
      blockOffs p.hdr ≠ none ∧ BlocksInOrder img := by
  have hload := @load_single .second [1] (.inl rfl) (by decide)
  obtain ⟨addr, fmt, flags, -, hparse, -⟩ := scan_eq_some hload
  obtain ⟨p, hhdr, hraw, -, -⟩ := parseImage_eq_ok_iff.1 hparse
  have hpage : p.hdr.pageSize = 4096 := by
    rw [← hraw]
    exact pageSize_v1Header _ _ _ _
  obtain ⟨hdivides, horder⟩ := layoutSound_iff hhdr
  refine ⟨addr, fmt, flags, p, _, hhdr, hparse, hdivides.2 ?_, (horder _ hparse).2 (.inl ?_)⟩ <;> rw [hpage]
  · decide
  · decide

def zeroPageFile : List UInt8 := vendorBootMagic ++ zeros 4088

theorem length_zeroPageFile : zeroPageFile.length = 4096 := by
  rw [zeroPageFile, List.length_append, length_zeros]
  rfl

theorem slice_zeroPageFile {off n : Nat} (hoff : 8 ≤ off) (hle : off + n ≤ 4096) :
    slice zeroPageFile off n = zeros n := by
  have hslice : slice zeroPageFile (8 + (off - 8)) n = slice (zeros 4088) (off - 8) n :=
    slice_append_right vendorBootMagic (zeros 4088) (off - 8) n
  rwa [Nat.add_sub_cancel' hoff, slice_zeros (by omega)] at hslice

def zeroPageHeader : Header where
  kind := .vndV3
  raw := slice zeroPageFile 0 2112
  length_raw := length_slice_of_le (by rw [length_zeroPageFile]; decide)

theorem pageSize_zeroPageHeader : zeroPageHeader.pageSize = 0 := by
  have hword : slice zeroPageHeader.raw 12 4 = zeros 4 := by
    rw [zeroPageHeader, slice_slice (by decide), slice_zeroPageFile (by decide) (by decide)]
  change ofLe (slice zeroPageHeader.raw 12 4) = 0
  rw [hword]
  rfl

theorem not_layoutSound_zeroPageFile :
    readFmt zeroPageFile zeroPageFile.length = some .aospVendor ∧
      ¬ LayoutSound sampleEnv zeroPageFile 0 .aospVendor {} := by
  have hlength := length_zeroPageFile
  have hmap : sampleEnv.map zeroPageFile = zeroPageFile := by
    apply sampleEnv.map_eq_self
    rw [hlength]
    exact dvd_refl 4096
  have hkind : zeroPageHeader.kind = vendorKind zeroPageFile 0 := by
    rw [vendorKind, word, slice_zeroPageFile (by decide) (by decide)]
    rfl
  have hread : readHeader zeroPageFile 0 zeroPageHeader.kind zeroPageHeader.kind.hdrSize
      = some zeroPageHeader := by
    refine readHeader_eq_some_iff.2 ⟨rfl, ?_, rfl⟩
    rw [hlength]
    decide
  have hhdr := parseHdr_of_plain (.inl ⟨rfl, hkind⟩) hread {}
  refine ⟨?_, fun hsound => ?_⟩
  · have htake : zeroPageFile.take 40 = vendorBootMagic ++ zeros 32 := rfl
    rw [hlength, readFmt, if_pos (by rw [hlength]; decide), show min 4096 40 = 40 from rfl, htake]
    decide
  · rw [← hmap] at hhdr
    obtain ⟨⟨offs, off⟩, hblocks⟩ := Option.ne_none_iff_exists'.1 (hsound.divides _ hhdr)
    have hpos := pageSize_pos_of_blockOffs hblocks
    rw [pageSize_zeroPageHeader] at hpos
    exact absurd hpos (by decide)

end MagiskNative.Boot
