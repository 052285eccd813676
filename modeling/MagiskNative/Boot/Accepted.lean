import MagiskNative.Boot.Image

/-!
# Accepted images

What is known of an image once the constructor has come back with it.
-/

namespace MagiskNative.Boot

open Bytes Layout

variable {mem : List UInt8} {addr off : Nat} {h : Header} {flags : Flags} {env : Env} {img : BootImg}

def detect (k : Kind) (mem : List UInt8) (addr : Nat) : Option Kind :=
  match k with
  | .vndV3 | .vndV4 => some (vendorKind mem addr)
  | .pxa => if isPxa mem addr then some .pxa else none
  | _ => if bootMagic <+: mem.drop addr then some (aospKind mem addr) else none

def rereadHeader (k : Kind) (mem : List UInt8) (addr : Nat) : Option Header := do
  let k ← detect k mem addr
  readHeader mem addr k k.hdrSize

variable {k : Kind} {fmt : FileFormat} {p : ParsedHdr} {off : Nat} {tail : TailInfo}

theorem kind_readHeader {sz : Nat} (hread : readHeader mem addr k sz = some h) : h.kind = k := by
  rw [readHeader] at hread
  split at hread
  · cases hread
    rfl
  · cases hread

theorem readHeader_eq_some_iff :
    readHeader mem addr k k.hdrSize = some h ↔
      h.kind = k ∧ addr + k.hdrSize ≤ mem.length ∧ h.raw = slice mem addr k.hdrSize := by
  rw [readHeader]
  constructor
  · intro hread
    split at hread
    · rename_i hsz
      cases hread
      refine ⟨rfl, hsz.2, ?_⟩
      simp [zeros]
    · cases hread
  · obtain ⟨k', raw, hlength⟩ := h
    rintro ⟨hkind, hle, hraw⟩
    simp only at hkind hraw
    subst hkind hraw
    rw [dif_pos ⟨le_refl _, hle⟩]
    simp [zeros]

theorem aospKind_cases (mem : List UInt8) (addr : Nat) :
    aospKind mem addr = .v0 ∨ aospKind mem addr = .v1 ∨ aospKind mem addr = .v2 ∨
      aospKind mem addr = .v3 ∨ aospKind mem addr = .v4 := by
  rw [aospKind]
  split <;> simp

theorem vendorKind_cases (mem : List UInt8) (addr : Nat) :
    vendorKind mem addr = .vndV3 ∨ vendorKind mem addr = .vndV4 := by
  rw [vendorKind]
  split <;> simp

theorem detect_aospKind (hmagic : bootMagic <+: mem.drop addr) :
    detect (aospKind mem addr) mem addr = some (aospKind mem addr) := by
  rcases aospKind_cases mem addr with h | h | h | h | h <;> simp only [h, detect, if_pos hmagic]

theorem detect_vendorKind (mem : List UInt8) (addr : Nat) :
    detect (vendorKind mem addr) mem addr = some (vendorKind mem addr) := by
  rcases vendorKind_cases mem addr with h | h <;> simp only [h, detect]

def Plain (mem : List UInt8) (addr : Nat) (fmt : FileFormat) (k : Kind) : Prop :=
  fmt = .aospVendor ∧ k = vendorKind mem addr ∨
    fmt ≠ .aospVendor ∧ isPxa mem addr ∧ k = .pxa ∨
    fmt ≠ .aospVendor ∧ ¬ isPxa mem addr ∧ ¬ isAmonet mem addr ∧ ¬ isNookhd mem addr ∧
      ¬ isAcclaim mem addr ∧ bootMagic <+: mem.drop addr ∧ k = aospKind mem addr

theorem le_hdrSize (k : Kind) : 1580 ≤ k.hdrSize := by
  cases k <;> decide

section Same

variable {mem mem' : List UInt8} {n addr : Nat} (hsame : mem'.take n = mem.take n)

include hsame

theorem word_of_take (hle : off + 4 ≤ n) : word mem' off = word mem off := by
  rw [word, word, slice_of_take_eq hsame hle]

theorem vendorKind_of_take (hle : addr + 12 ≤ n) : vendorKind mem' addr = vendorKind mem addr := by
  rw [vendorKind, vendorKind, word_of_take hsame (by omega)]

theorem aospKind_of_take (hle : addr + 44 ≤ n) : aospKind mem' addr = aospKind mem addr := by
  rw [aospKind, aospKind, word_of_take hsame (by omega)]

theorem isPxa_of_take (hle : addr + 40 ≤ n) : isPxa mem' addr = isPxa mem addr := by
  rw [isPxa, isPxa, word_of_take hsame (by omega)]

theorem isAmonet_of_take (hle : addr + 1032 ≤ n) : isAmonet mem' addr = isAmonet mem addr := by
  have hsize : amonetMicroloaderSz = 1024 := rfl
  have hmagic : bootMagic.length = 8 := by decide
  rw [isAmonet, isAmonet, slice_of_take_eq hsame (by omega)]
  simp only [prefix_drop_of_take_eq hsame (show addr + amonetMicroloaderSz + bootMagic.length ≤ n by omega)]

theorem isNookhd_of_take (hle : addr + 94 ≤ n) : isNookhd mem' addr = isNookhd mem addr := by
  have hshort : ∀ magic ∈ nookhdMagics, magic.length ≤ 30 := by decide
  rw [isNookhd, isNookhd, Bool.eq_iff_iff, List.any_eq_true, List.any_eq_true]
  apply exists_congr
  intro magic
  apply and_congr_right
  intro hmem
  have hlength := hshort magic hmem
  simp only [prefix_drop_of_take_eq hsame (show addr + 64 + magic.length ≤ n by omega)]

theorem isAcclaim_of_take (hle : addr + 58 ≤ n) : isAcclaim mem' addr = isAcclaim mem addr := by
  have hmagic : acclaimMagic.length = 10 := by decide
  rw [isAcclaim, isAcclaim]
  simp only [prefix_drop_of_take_eq hsame (show addr + 48 + acclaimMagic.length ≤ n by omega)]

theorem plain_of_take {fmt : FileFormat} {k : Kind} (hle : addr + 1032 ≤ n)
    (hplain : Plain mem addr fmt k) : Plain mem' addr fmt k := by
  have hmagic : bootMagic.length = 8 := by decide
  rw [Plain, vendorKind_of_take hsame (by omega), isPxa_of_take hsame (by omega),
    isAmonet_of_take hsame hle, isNookhd_of_take hsame (by omega), isAcclaim_of_take hsame (by omega),
    prefix_drop_of_take_eq hsame (by omega), aospKind_of_take hsame (by omega)]
  exact hplain

end Same

theorem parseHdr_of_plain (hplain : Plain mem addr fmt h.kind)
    (hread : readHeader mem addr h.kind h.kind.hdrSize = some h) (flags : Flags) :
    parseHdr mem addr fmt flags = .ok ⟨h, addr, flags⟩ := by
  have hle := (readHeader_eq_some_iff.1 hread).2.1
  have hsize := le_hdrSize h.kind
  rw [parseHdr]
  rcases hplain with ⟨hfmt, hk⟩ | ⟨hfmt, hpxa, hk⟩ | ⟨hfmt, hpxa, hamonet, hnookhd, hacclaim, hmagic, hk⟩
  · rw [if_pos hfmt, if_neg (by omega)]
    simp only [← hk, hread, ParsedHdr.of]
  · rw [if_neg hfmt, if_neg (by omega), if_pos hpxa]
    rw [hk] at hread
    rw [hread, ParsedHdr.of]
  · have hreach : ¬ mem.length < addr + amonetMicroloaderSz + 8 := by
      rw [amonetMicroloaderSz]
      omega
    rw [if_neg hfmt, if_neg (by omega), if_neg hpxa, if_neg hreach, if_neg hamonet, if_neg hnookhd,
      if_neg hacclaim, makeAospHdr, if_neg (by omega), if_neg (not_not.2 hmagic), if_neg (by omega)]
    simp only [← hk, Option.getD_none, hread, ParsedHdr.ofAosp]

theorem makeAospHdr_eq_ok (hmake : makeAospHdr mem addr none = .ok h) :
    bootMagic <+: mem.drop addr ∧ h.kind = aospKind mem addr ∧
      readHeader mem addr h.kind h.kind.hdrSize = some h := by
  rw [makeAospHdr] at hmake
  split at hmake
  · cases hmake
  · split at hmake
    · cases hmake
    · rename_i hmagic
      split at hmake
      · cases hmake
      · simp only [Option.getD_none] at hmake
        split at hmake
        · rename_i h' hread
          cases hmake
          have hkind := kind_readHeader hread
          rw [← hkind] at hread
          exact ⟨not_not.1 hmagic, hkind, hread⟩
        · cases hmake

theorem ParsedHdr.of_eq_ok {hdr : Option Header}
    (hof : ParsedHdr.of hdr addr flags = .ok p) : hdr = some p.hdr ∧ p.addr = addr ∧ p.flags = flags := by
  cases hdr with
  | none => cases hof
  | some h =>
      cases hof
      exact ⟨rfl, rfl, rfl⟩

theorem ParsedHdr.ofAosp_eq_ok {hdr : Outcome Unit Header}
    (hof : ParsedHdr.ofAosp hdr addr flags = .ok p) :
    hdr = .ok p.hdr ∧ p.addr = addr ∧ p.flags = flags := by
  cases hdr with
  | ok h =>
      cases hof
      exact ⟨rfl, rfl, rfl⟩
  | err e => cases hof
  | panic => cases hof

theorem parseHdr_cases (hparse : parseHdr mem addr fmt flags = .ok p) :
    p.flags.amonet = true ∧ addr ≤ p.addr ∨
      p.addr = addr ∧ p.flags = flags ∧ Plain mem addr fmt p.hdr.kind ∧
        readHeader mem addr p.hdr.kind p.hdr.kind.hdrSize = some p.hdr ∨
      addr < p.addr ∧ bootMagic <+: mem.drop p.addr ∧ p.hdr.kind = aospKind mem p.addr ∧
        readHeader mem p.addr p.hdr.kind p.hdr.kind.hdrSize = some p.hdr := by
  rw [parseHdr] at hparse
  split at hparse
  · rename_i hfmt
    split at hparse
    · cases hparse
    · obtain ⟨hread, haddr, hflags⟩ := ParsedHdr.of_eq_ok hparse
      have hkind := kind_readHeader hread
      rw [← hkind] at hread
      exact .inr (.inl ⟨haddr, hflags, .inl ⟨hfmt, hkind⟩, hread⟩)
  · rename_i hfmt
    split at hparse
    · cases hparse
    · split at hparse
      · rename_i hpxa
        obtain ⟨hread, haddr, hflags⟩ := ParsedHdr.of_eq_ok hparse
        have hkind := kind_readHeader hread
        rw [← hkind] at hread
        exact .inr (.inl ⟨haddr, hflags, .inr (.inl ⟨hfmt, hpxa, hkind⟩), hread⟩)
      · rename_i hpxa
        split at hparse
        · cases hparse
        · split at hparse
          · obtain ⟨-, haddr, hflags⟩ := ParsedHdr.ofAosp_eq_ok hparse
            left
            rw [hflags, haddr]
            exact ⟨rfl, le_refl _⟩
          · rename_i hamonet
            split at hparse
            · obtain ⟨hmake, haddr, -⟩ := ParsedHdr.ofAosp_eq_ok hparse
              rw [← haddr] at hmake
              obtain ⟨hmagic, hkind, hread⟩ := makeAospHdr_eq_ok hmake
              exact .inr (.inr ⟨by rw [haddr, nookhdPreHeaderSz]; omega, hmagic, hkind, hread⟩)
            · rename_i hnookhd
              split at hparse
              · obtain ⟨hmake, haddr, -⟩ := ParsedHdr.ofAosp_eq_ok hparse
                rw [← haddr] at hmake
                obtain ⟨hmagic, hkind, hread⟩ := makeAospHdr_eq_ok hmake
                exact .inr (.inr ⟨by rw [haddr, acclaimPreHeaderSz]; omega, hmagic, hkind, hread⟩)
              · rename_i hacclaim
                obtain ⟨hmake, haddr, hflags⟩ := ParsedHdr.ofAosp_eq_ok hparse
                obtain ⟨hmagic, hkind, hread⟩ := makeAospHdr_eq_ok hmake
                exact .inr (.inl ⟨haddr, hflags,
                  .inr (.inr ⟨hfmt, hpxa, hamonet, hnookhd, hacclaim, hmagic, hkind⟩), hread⟩)

theorem rereadHeader_of_parseHdr
    (hparse : parseHdr mem addr fmt flags = .ok p) (hamonet : p.flags.amonet = false) :
    rereadHeader p.hdr.kind mem p.addr = some p.hdr := by
  have hgo : detect p.hdr.kind mem p.addr = some p.hdr.kind →
      readHeader mem p.addr p.hdr.kind p.hdr.kind.hdrSize = some p.hdr →
      rereadHeader p.hdr.kind mem p.addr = some p.hdr := by
    intro hdetect hread
    rw [rereadHeader, hdetect]
    exact hread
  rcases parseHdr_cases hparse with ⟨h, -⟩ | ⟨haddr, -, hplain, hread⟩ | ⟨-, hmagic, hkind, hread⟩
  · rw [hamonet] at h
    cases h
  · rw [← haddr] at hread hplain
    apply hgo _ hread
    rcases hplain with ⟨-, hk⟩ | ⟨-, hpxa, hk⟩ | ⟨-, -, -, -, -, hmagic, hk⟩
    · rw [hk, detect_vendorKind]
    · rw [hk, detect, if_pos hpxa]
    · rw [hk, detect_aospKind hmagic]
  · apply hgo _ hread
    rw [hkind, detect_aospKind hmagic]

/-- What is known of an image that was parsed from a mapping, where `flags` are those that the header
left. -/
structure Parsed (env : Env) (mem : List UInt8) (mapSize : Nat) (flags : Flags) (img : BootImg) :
    Prop where
  mem_eq : img.mem = mem
  mapSize_eq : img.mapSize = mapSize
  blocks : blockOffs img.raw = some (img.offs, img.off)
  intact : ∀ o ∈ img.offs.tail ++ [img.off], corrupted mem img.addr o = false
  kernel : parseKernel env (mem.drop (img.ptr .kernel)) (img.raw.get .kernelSize) = some img.kernel
  ramdisk : parseRamdisks mem (img.ptr .ramdisk) (img.ptr .vendorRamdiskTable) img.raw
    = some img.ramdisk
  extra : parseExtra (mem.drop (img.ptr .extra)) (img.raw.get .extraSize) = some img.eFmt
  tail : parseTail env mem img.addr img.off flags = some ⟨img.flags, img.avbFooter, img.vbmeta⟩

def sha256Flags (p : ParsedHdr) : Flags :=
  { p.flags with sha256 := p.flags.sha256 || hasSha256Id p.hdr }

theorem parseImage_eq_ok_iff {mapSize : Nat} :
    parseImage env mem mapSize addr fmt flags = .ok img ↔
      ∃ p, parseHdr mem addr fmt flags = .ok p ∧ img.raw = p.hdr ∧ img.addr = p.addr ∧
        Parsed env mem mapSize (sha256Flags p) img := by
  rw [parseImage, Outcome.bind_eq_ok]
  constructor
  · rintro ⟨p, hhdr, hparse⟩
    refine ⟨p, hhdr, ?_⟩
    simp only at hparse
    split at hparse
    · cases hparse
    · rename_i offs off hblocks
      split at hparse
      · cases hparse
      · rename_i hintact
        split at hparse
        · rename_i img' hparts
          cases hparse
          simp only [parseBlocks, Option.bind_eq_bind, Option.bind_eq_some_iff,
            Option.some.injEq] at hparts
          obtain ⟨kernel, hkernel, ramdisk, hramdisk, eFmt, hextra, tail, htail, rfl⟩ := hparts
          refine ⟨rfl, rfl, rfl, rfl, hblocks, ?_, hkernel, hramdisk, hextra, htail⟩
          intro o ho
          rw [List.any_eq_true] at hintact
          exact Bool.eq_false_iff.2 fun hcorrupted => hintact ⟨o, ho, hcorrupted⟩
        · cases hparse
  · rintro ⟨p, hhdr, hraw, haddr, hparsed⟩
    refine ⟨p, hhdr, ?_⟩
    obtain ⟨mem', mapSize', addr', raw, offs, off, kernel, ramdisk, eFmt, flags', avbFooter, vbmeta⟩
      := img
    obtain ⟨hmem, hmapSize, hblocks, hintact, hkernel, hramdisk, hextra, htail⟩ := hparsed
    simp only at hraw haddr hmem hmapSize hblocks hintact htail hextra
    subst hraw haddr hmem hmapSize
    simp only [hblocks]
    have hany : ¬ ((offs.tail ++ [off]).any (corrupted mem' p.addr) = true) := by
      rw [List.any_eq_true]
      rintro ⟨o, ho, hcorrupted⟩
      rw [hintact o ho] at hcorrupted
      cases hcorrupted
    rw [if_neg hany]
    simp only [BootImg.ptr] at hkernel hramdisk hextra
    have hblocks : parseBlocks env mem' mapSize' { p with flags := sha256Flags p } offs off
        = some ⟨mem', mapSize', p.addr, p.hdr, offs, off, kernel, ramdisk, eFmt, flags', avbFooter,
          vbmeta⟩ := by
      simp only [parseBlocks, hkernel, hramdisk, hextra, htail, Option.bind_eq_bind,
        Option.bind_some]
    simp only [sha256Flags] at hblocks
    rw [hblocks]

theorem scan_eq_some {mapSize : Nat} (hscan : scan env mem mapSize addr flags = some img) :
    ∃ addr' fmt flags', addr ≤ addr' ∧ parseImage env mem mapSize addr' fmt flags' = .ok img ∧
      (addr' = addr → readFmt (mem.drop addr) mapSize = some fmt ∧ (fmt = .aosp ∨ fmt = .aospVendor) ∧
        flags' = flags ∧ addr < mapSize) := by
  fun_induction scan env mem mapSize addr flags with
  | case1 addr flags hlt hfmt => cases hscan
  | case2 _ _ _ _ ih | case6 _ _ _ _ _ _ _ _ _ _ _ ih | case8 _ _ _ _ _ _ _ _ _ ih =>
      obtain ⟨addr', fmt, flags', hle, hparse, -⟩ := ih hscan
      exact ⟨addr', fmt, flags', by omega, hparse, fun h => absurd h (by omega)⟩
  | case3 addr flags hlt hfmt ih =>
      obtain ⟨addr', fmt, flags', hle, hparse, -⟩ := ih hscan
      rw [dhtbHdrSize] at hle
      exact ⟨addr', fmt, flags', by omega, hparse, fun h => absurd h (by omega)⟩
  | case4 addr flags hlt hfmt ih =>
      obtain ⟨addr', fmt, flags', hle, hparse, -⟩ := ih hscan
      rw [blobHdrSize] at hle
      exact ⟨addr', fmt, flags', by omega, hparse, fun h => absurd h (by omega)⟩
  | case5 addr flags hlt fmt hchromeos hdhtb hblob hfmt haosp img' hparse =>
      cases hscan
      exact ⟨addr, fmt, flags, le_refl _, hparse, fun _ => ⟨hfmt, haosp, rfl, hlt⟩⟩
  | case7 addr flags hlt fmt hchromeos hdhtb hblob hfmt haosp hparse => cases hscan
  | case9 addr flags hge => cases hscan

def Header.space (h : Header) : Nat :=
  if h.kind.isVendor then roundUp h.pageSize h.hdrSize else h.pageSize

def Header.sizes (h : Header) : List Nat := Block.all.map fun blk => h.get blk.sizeField

theorem Block.width_sizeField (blk : Block) : blk.sizeField.width = 4 := by
  cases blk <;> rfl

theorem Header.size_lt (h : Header) (blk : Block) : h.get blk.sizeField < 2 ^ 32 := by
  have hlt := h.get_lt blk.sizeField
  rwa [blk.width_sizeField] at hlt

theorem hdrSize_le (k : Kind) : k.hdrSize ≤ 2128 := by
  cases k <;> decide

theorem dvd_space (h : Header) : h.pageSize ∣ h.space := by
  rw [Header.space]
  split
  · exact dvd_roundUp _ _
  · exact dvd_refl _

section Offsets

variable {h : Header} (hpos : 0 < h.pageSize) (hpage : h.pageSize < 2 ^ 31)

include hpos hpage

theorem hdrSpace_eq : h.hdrSpace = some h.space := by
  have hsize := hdrSize_le h.kind
  rw [Header.hdrSpace, Header.space]
  split
  · exact alignTo_eq hpos hpage (by rw [Header.hdrSize]; omega)
  · rfl

theorem space_lt : h.space < 2 ^ 32 := by
  have hsize := hdrSize_le h.kind
  have hround := roundUp_lt hpos h.hdrSize
  rw [Header.hdrSize] at hround
  rw [Header.space]
  split
  · rw [Header.hdrSize]
    omega
  · omega

theorem getBlocks_eq (blks : List Block) (hoff : h.pageSize ∣ off)
    (hbound : off + blks.length * 2 ^ 33 ≤ 2 ^ 63) :
    getBlocks h blks off
      = some (starts off ((blks.map fun blk => h.get blk.sizeField).map (roundUp h.pageSize)),
          finish off ((blks.map fun blk => h.get blk.sizeField).map (roundUp h.pageSize))) := by
  induction blks generalizing off with
  | nil => rfl
  | cons blk blks ih =>
      have hsize := h.size_lt blk
      have hround := roundUp_lt hpos (h.get blk.sizeField)
      rw [List.length_cons] at hbound
      have hnext : alignTo (off + h.get blk.sizeField) h.pageSize
          = some (off + roundUp h.pageSize (h.get blk.sizeField)) := by
        rw [alignTo_eq hpos hpage (by omega), roundUp_add hpos hoff]
      have hrest := @ih (off + roundUp h.pageSize (h.get blk.sizeField))
        (Nat.dvd_add hoff (dvd_roundUp _ _)) (by omega)
      simp only [getBlocks, hnext, hrest, Option.bind_eq_bind, Option.bind_some, List.map_cons,
        starts, finish_cons, Option.pure_def]

theorem blockOffs_eq :
    blockOffs h = some (starts h.space (h.sizes.map (roundUp h.pageSize)),
      finish h.space (h.sizes.map (roundUp h.pageSize))) := by
  have hspace := space_lt hpos hpage
  rw [blockOffs, hdrSpace_eq hpos hpage]
  exact getBlocks_eq hpos hpage Block.all (dvd_space h)
    (by rw [Block.all]; simp only [List.length_cons, List.length_nil]; omega)

end Offsets

def Header.blockOff (h : Header) (blk : Block) : Nat :=
  (starts h.space (h.sizes.map (roundUp h.pageSize))).getD (Block.all.idxOf blk) 0

def Header.stop (h : Header) : Nat := finish h.space (h.sizes.map (roundUp h.pageSize))

theorem Header.blockOff_add_le (hpos : 0 < h.pageSize) (blk : Block) :
    h.blockOff blk + h.get blk.sizeField ≤ h.stop := by
  have hround := le_roundUp hpos (h.get blk.sizeField)
  cases blk <;>
  · simp [Header.blockOff, Header.stop, Header.sizes, Block.all, starts, finish,
      Block.sizeField] at hround ⊢
    omega

theorem Header.stop_lt (hpos : 0 < h.pageSize) (hpage : h.pageSize < 2 ^ 31) :
    h.stop < 2 ^ 36 := by
  have hspace := space_lt hpos hpage
  have hbound : ∀ n ∈ h.sizes.map (roundUp h.pageSize), n ≤ 2 ^ 32 + 2 ^ 31 := by
    intro n hn
    simp only [Header.sizes, List.mem_map] at hn
    obtain ⟨size, ⟨blk, -, rfl⟩, rfl⟩ := hn
    have hsize := h.size_lt blk
    have hround := roundUp_lt hpos (h.get blk.sizeField)
    omega
  have hfinish : h.stop ≤ h.space + _ := finish_le hbound
  have hlength : (h.sizes.map (roundUp h.pageSize)).length = 9 := rfl
  rw [hlength] at hfinish
  omega

theorem Header.blockOff_lt (hpos : 0 < h.pageSize) (hpage : h.pageSize < 2 ^ 31)
    (blk : Block) : h.blockOff blk < 2 ^ 36 := by
  have hle := h.blockOff_add_le hpos blk
  have hlt := h.stop_lt hpos hpage
  omega

theorem pointer_eq (hoff : off < 2 ^ 63) : pointer addr off = addr + off :=
  if_neg fun hdown => absurd hdown.1 (by omega)

theorem blockPtr_add (hpos : 0 < h.pageSize) (hpage : h.pageSize < 2 ^ 31) (base : Nat) (blk : Block) :
    blockPtr base (starts h.space (h.sizes.map (roundUp h.pageSize))) blk = base + h.blockOff blk := by
  have hlt := h.blockOff_lt hpos hpage blk
  rw [blockPtr, pointer_eq (by rw [← Header.blockOff]; omega)]
  rfl

theorem blockPtr_eq (hpos : 0 < h.pageSize) (hpage : h.pageSize < 2 ^ 31) (blk : Block) :
    blockPtr 0 (starts h.space (h.sizes.map (roundUp h.pageSize))) blk = h.blockOff blk := by
  rw [blockPtr_add hpos hpage, Nat.zero_add]

theorem Header.kernel_le_blockOff (hpos : 0 < h.pageSize) :
    h.space + h.get .kernelSize ≤ h.blockOff .ramdisk := by
  have hround := le_roundUp hpos (h.get .kernelSize)
  simp [Header.blockOff, Header.sizes, Block.all, starts, Block.sizeField]
  omega

theorem Header.ramdisk_le_blockOff (hpos : 0 < h.pageSize) {blk : Block}
    (hkernel : blk ≠ .kernel) (hramdisk : blk ≠ .ramdisk) :
    h.blockOff .ramdisk + h.get .ramdiskSize ≤ h.blockOff blk := by
  have hround := le_roundUp hpos (h.get .ramdiskSize)
  cases blk with
  | kernel => exact absurd rfl hkernel
  | ramdisk => exact absurd rfl hramdisk
  | _ =>
      simp [Header.blockOff, Header.sizes, Block.all, starts, Block.sizeField]
      omega

theorem Header.space_le_blockOff (h : Header) (blk : Block) : h.space ≤ h.blockOff blk := by
  cases blk <;>
  · simp [Header.blockOff, Header.sizes, Block.all, starts]
    try omega

theorem getBlocks_cons_eq_some {blk : Block} {blks : List Block} {stop : Nat}
    {offs : List Nat} (hblocks : getBlocks h (blk :: blks) off = some (offs, stop)) :
    ∃ next rest, alignTo (off + h.get blk.sizeField) h.pageSize = some next ∧
      getBlocks h blks next = some (rest, stop) ∧ offs = off :: rest := by
  simp only [getBlocks, Option.bind_eq_bind, Option.bind_eq_some_iff, Option.pure_def,
    Option.some.injEq, Prod.mk.injEq] at hblocks
  obtain ⟨next, hnext, ⟨rest, stop'⟩, hrest, hoffs, rfl⟩ := hblocks
  exact ⟨next, rest, hnext, hrest, hoffs.symm⟩

theorem pageSize_pos_of_blockOffs {offs : List Nat}
    (hblocks : blockOffs h = some (offs, off)) : 0 < h.pageSize := by
  by_contra hzero
  have hzero : h.pageSize = 0 := by omega
  have halign : ∀ v, alignTo v h.pageSize = none := fun v => by rw [alignTo, if_pos hzero]
  rw [blockOffs] at hblocks
  cases hspace : h.hdrSpace with
  | none =>
      rw [hspace] at hblocks
      cases hblocks
  | some space =>
      rw [hspace] at hblocks
      simp [Block.all, getBlocks, halign] at hblocks

namespace Parsed

variable {env : Env} {mem : List UInt8} {mapSize : Nat} {flags : Flags} {img : BootImg}
  (hparsed : Parsed env mem mapSize flags img)

include hparsed

theorem pageSize_pos : 0 < img.raw.pageSize := pageSize_pos_of_blockOffs hparsed.blocks

theorem offs_eq (hpage : img.raw.pageSize < 2 ^ 31) :
    img.offs = starts img.raw.space (img.raw.sizes.map (roundUp img.raw.pageSize)) ∧
      img.off = finish img.raw.space (img.raw.sizes.map (roundUp img.raw.pageSize)) := by
  have hblocks := hparsed.blocks
  rw [blockOffs_eq hparsed.pageSize_pos hpage, Option.some.injEq, Prod.mk.injEq] at hblocks
  exact ⟨hblocks.1.symm, hblocks.2.symm⟩

theorem off_le (hpage : img.raw.pageSize < 2 ^ 31) : img.addr + img.off ≤ mem.length := by
  have hintact := hparsed.intact img.off (List.mem_append_right _ List.mem_cons_self)
  have hlt : img.off < 2 ^ 36 := by
    rw [(hparsed.offs_eq hpage).2]
    exact img.raw.stop_lt hparsed.pageSize_pos hpage
  simp only [corrupted, decide_eq_false_iff_not] at hintact
  omega

theorem space_le (hpage : img.raw.pageSize < 2 ^ 31) :
    img.addr + img.raw.space ≤ img.mem.length := by
  rw [hparsed.mem_eq]
  have hle := hparsed.off_le hpage
  rw [(hparsed.offs_eq hpage).2] at hle
  have hspace := le_finish img.raw.space (img.raw.sizes.map (roundUp img.raw.pageSize))
  omega

end Parsed

namespace Parsed

variable {env : Env} {mem : List UInt8} {mapSize : Nat} {flags : Flags} {img : BootImg}
  (hparsed : Parsed env mem mapSize flags img) (hpage : img.raw.pageSize < 2 ^ 31)

include hparsed hpage

theorem ptr_eq (blk : Block) : img.ptr blk = img.addr + img.raw.blockOff blk := by
  have hlt := img.raw.blockOff_lt hparsed.pageSize_pos hpage blk
  rw [BootImg.ptr, blockPtr, (hparsed.offs_eq hpage).1]
  exact pointer_eq (by rw [← Header.blockOff]; omega)

theorem ptr_add_le (blk : Block) : img.ptr blk + img.raw.get blk.sizeField ≤ mem.length := by
  have hin := Header.blockOff_add_le hparsed.pageSize_pos blk
  have hle := hparsed.off_le hpage
  rw [(hparsed.offs_eq hpage).2] at hle
  rw [hparsed.ptr_eq hpage, Nat.add_assoc]
  exact (Nat.add_le_add_left hin _).trans hle

end Parsed

theorem parseTail_of_lt (hlt : addr + off < mem.length) :
    parseTail env mem addr off flags
      = parseFooter mem addr (tailFlags env (slice mem addr off) (mem.drop (addr + off)) flags) := by
  have hne : mem.drop (addr + off) ≠ [] := by
    rw [Ne, List.drop_eq_nil_iff]
    omega
  rw [parseTail, if_pos hlt.le]
  exact if_neg hne

theorem parseTail_cases (htail : parseTail env mem addr off flags = some tail) :
    tail = { flags } ∧ addr + off = mem.length ∨
      ∃ (env' : Env) (payload rest : List UInt8),
        parseFooter mem addr (tailFlags env' payload rest flags) = some tail := by
  simp only [parseTail] at htail
  split at htail
  · rename_i hle
    split at htail
    · rename_i hnil
      rw [List.drop_eq_nil_iff] at hnil
      cases htail
      exact .inl ⟨rfl, by omega⟩
    · exact .inr ⟨_, _, _, htail⟩
  · split at htail
    · cases htail
    · split at htail
      · exact .inr ⟨_, _, _, htail⟩
      · cases htail

theorem parseTail_induct {P : Flags → Prop}
    (hP : ∀ flags, P flags → P { flags with seandroid := true } ∧ P { flags with lgBump := true } ∧
      P { flags with avb1Signed := true } ∧ P { flags with avb := true })
    (hflags : P flags)
    (htail : parseTail env mem addr off flags = some tail) : P tail.flags := by
  have htailFlags : ∀ (env : Env) payload rest, P (tailFlags env payload rest flags) := by
    intro env payload rest
    rw [tailFlags]
    split
    · exact (hP flags hflags).1
    · split
      · exact (hP flags hflags).2.1
      · split
        · exact (hP flags hflags).2.2.1
        · exact hflags
  have hfooter : ∀ flags, P flags → parseFooter mem addr flags = some tail → P tail.flags := by
    intro flags hflags hfooter
    simp only [parseFooter] at hfooter
    split at hfooter
    · split at hfooter
      · cases hfooter
      · split at hfooter
        · cases hfooter
          exact (hP flags hflags).2.2.2
        · cases hfooter
          exact hflags
    · cases hfooter
      exact hflags
  rcases parseTail_cases htail with ⟨rfl, -⟩ | ⟨env', payload, rest, htail⟩
  · exact hflags
  · exact hfooter _ (htailFlags _ _ _) htail

theorem parseTail_flags {α : Type} (f : Flags → α)
    (hf : ∀ flags, f { flags with seandroid := true } = f flags ∧
      f { flags with lgBump := true } = f flags ∧ f { flags with avb1Signed := true } = f flags ∧
      f { flags with avb := true } = f flags)
    (htail : parseTail env mem addr off flags = some tail) : f tail.flags = f flags := by
  refine parseTail_induct (P := fun flags' => f flags' = f flags) ?_ rfl htail
  intro flags' hsame
  obtain ⟨hseandroid, hlgBump, hsigned, havb⟩ := hf flags'
  exact ⟨hseandroid.trans hsame, hlgBump.trans hsame, hsigned.trans hsame, havb.trans hsame⟩

theorem amonet_parseTail (htail : parseTail env mem addr off flags = some tail) :
    tail.flags.amonet = flags.amonet :=
  parseTail_flags Flags.amonet (fun _ => ⟨rfl, rfl, rfl, rfl⟩) htail

theorem load_parsed {file : List UInt8} (hload : load env file = some img) :
    ∃ flags, Parsed env (env.map file) file.length flags img ∧
      (img.flags.amonet = false → rereadHeader img.raw.kind img.mem img.addr = some img.raw) := by
  obtain ⟨addr, fmt, flags, -, hparse, -⟩ := scan_eq_some hload
  obtain ⟨p, hhdr, hraw, haddr, hparsed⟩ := parseImage_eq_ok_iff.1 hparse
  refine ⟨_, hparsed, ?_⟩
  intro hamonet
  have hflags := amonet_parseTail hparsed.tail
  rw [hraw, haddr, hparsed.mem_eq]
  exact rereadHeader_of_parseHdr hhdr (hflags.symm.trans hamonet)

theorem rereadHeader_eq_some (hread : rereadHeader k mem addr = some h) :
    detect k mem addr = some h.kind ∧ addr + h.hdrSize ≤ mem.length ∧
      slice mem addr h.hdrSize = h.raw := by
  rw [rereadHeader, Option.bind_eq_bind, Option.bind_eq_some_iff] at hread
  obtain ⟨k', hdetect, hread⟩ := hread
  obtain ⟨rfl, hle, hraw⟩ := readHeader_eq_some_iff.1 hread
  exact ⟨hdetect, hle, hraw.symm⟩

theorem load_of_plain {file : List UInt8}
    (hne : file ≠ []) (hfmt : readFmt (env.map file) file.length = some fmt)
    (haosp : fmt = .aosp ∨ fmt = .aospVendor) (hplain : Plain (env.map file) 0 fmt img.raw.kind)
    (hread : readHeader (env.map file) 0 img.raw.kind img.raw.kind.hdrSize = some img.raw)
    (haddr : img.addr = 0)
    (hparsed : Parsed env (env.map file) file.length (sha256Flags ⟨img.raw, 0, {}⟩) img) :
    load env file = some img := by
  have hparse : parseImage env (env.map file) file.length 0 fmt {} = .ok img :=
    parseImage_eq_ok_iff.2 ⟨_, parseHdr_of_plain hplain hread {}, rfl, haddr, hparsed⟩
  rw [load, scan, if_pos (List.length_pos_of_ne_nil hne), List.drop_zero, hfmt]
  rcases haosp with rfl | rfl <;> simp only [reduceCtorEq, or_false, false_or, if_true, hparse]

end MagiskNative.Boot
