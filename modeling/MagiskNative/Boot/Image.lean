import MagiskNative.Lib.Outcome
import MagiskNative.Boot.Dtb
import MagiskNative.Boot.Env
import MagiskNative.Boot.ZImage

/-!
# Parsing a boot image

`parseImage` is `boot_img::parse_image` on the mapping `mem` of an image, `load` the constructor that
looks for a header at every address. Addresses are offsets into the mapping. A parse that returns
`false` is an error and carries the flags, which the next attempt starts with; one that reads outside
the mapping, divides by zero or exits is a panic.
-/

namespace MagiskNative.Boot

open Bytes Layout
open Text (utf8Bytes)

inductive Block where
  | kernel
  | ramdisk
  | second
  | extra
  | recoveryDtbo
  | dtb
  | signature
  | vendorRamdiskTable
  | bootconfig
  deriving DecidableEq, Repr

namespace Block

def all : List Block :=
  [kernel, ramdisk, second, extra, recoveryDtbo, dtb, signature, vendorRamdiskTable, bootconfig]

def sizeField : Block → Field
  | kernel => .kernelSize
  | ramdisk => .ramdiskSize
  | second => .secondSize
  | extra => .extraSize
  | recoveryDtbo => .recoveryDtboSize
  | dtb => .dtbSize
  | signature => .signatureSize
  | vendorRamdiskTable => .vendorRamdiskTableSize
  | bootconfig => .bootconfigSize

end Block

structure Flags where
  chromeos : Bool := false
  dhtb : Bool := false
  seandroid : Bool := false
  lgBump : Bool := false
  sha256 : Bool := false
  blob : Bool := false
  nookhd : Bool := false
  acclaim : Bool := false
  amonet : Bool := false
  avb1Signed : Bool := false
  avb : Bool := false
  deriving DecidableEq, Repr

def seandroidMagic : List UInt8 := utf8Bytes "SEANDROIDENFORCE"

def lgBumpMagic : List UInt8 :=
  [0x41, 0xa9, 0xe4, 0x67, 0x74, 0x4d, 0x1d, 0x1b, 0xa4, 0x29, 0xf2, 0xec, 0xea, 0x65, 0x52, 0x79]

def nookhdMagics : List (List UInt8) :=
  ["Red Loader", "Green Loader", "Green Recovery", "eMMC boot.img+secondloader",
    "eMMC recovery.img+secondloader"].map utf8Bytes

def nookhdPreHeaderSz : Nat := 1048576
def acclaimMagic : List UInt8 := utf8Bytes "BauwksBoot"
def acclaimPreHeaderSz : Nat := 262144
def amonetMicroloaderMagic : List UInt8 := utf8Bytes "microloader"
def amonetMicroloaderSz : Nat := 1024
def avbFooterMagic : List UInt8 := utf8Bytes "AVBf"
def avbMagic : List UInt8 := utf8Bytes "AVB0"

def mtkHdrSize : Nat := 512
def dhtbHdrSize : Nat := 512
def blobHdrSize : Nat := 104
def avbFooterSize : Nat := 64
def tableEntrySize : Nat := 108

variable (mem : List UInt8)

def word (off : Nat) : Nat := ofLe (slice mem off 4)

variable (addr : Nat)

/-- A header object made from the first `sz` bytes at `addr`. More than the object has room for, or
than the mapping has, is not survived. -/
def readHeader (k : Kind) (sz : Nat) : Option Header :=
  if hsz : sz ≤ k.hdrSize ∧ addr + sz ≤ mem.length then
    some
      { kind := k
        raw := slice mem addr sz ++ zeros (k.hdrSize - sz)
        length_raw := by
          rw [List.length_append, length_slice_of_le hsz.2, length_zeros]
          omega }
  else none

def vendorKind : Kind :=
  if word mem (addr + 8) = 4 then .vndV4 else .vndV3

def aospKind : Kind :=
  match word mem (addr + 40) with
  | 1 => .v1
  | 2 => .v2
  | 3 => .v3
  | 4 => .v4
  | _ => .v0

def makeAospHdr (sz : Option Nat) : Outcome Unit Header :=
  if mem.length < addr + 8 then .panic
  else if ¬ bootMagic <+: mem.drop addr then .err ()
  else if mem.length < addr + 44 then .panic
  else
    let k := aospKind mem addr
    match readHeader mem addr k (sz.getD k.hdrSize) with
    | some h => .ok h
    | none => .panic

def isPxa : Bool := 0x02000000 ≤ word mem (addr + 36)

def isAmonet : Bool :=
  (find amonetMicroloaderMagic (slice mem addr amonetMicroloaderSz)).isSome
    && bootMagic <+: mem.drop (addr + amonetMicroloaderSz)

def isNookhd : Bool :=
  nookhdMagics.any fun magic => magic <+: mem.drop (addr + 64)

def isAcclaim : Bool := acclaimMagic <+: mem.drop (addr + 48)

structure ParsedHdr where
  hdr : Header
  addr : Nat
  flags : Flags

def ParsedHdr.of (hdr : Option Header) (addr : Nat) (flags : Flags) : Outcome Flags ParsedHdr :=
  match hdr with
  | some hdr => .ok ⟨hdr, addr, flags⟩
  | none => .panic

def ParsedHdr.ofAosp (hdr : Outcome Unit Header) (addr : Nat) (flags : Flags) :
    Outcome Flags ParsedHdr :=
  match hdr with
  | .ok hdr => .ok ⟨hdr, addr, flags⟩
  | .err () => .err flags
  | .panic => .panic

def parseHdr (fmt : FileFormat) (flags : Flags) : Outcome Flags ParsedHdr :=
  if fmt = .aospVendor then
    if mem.length < addr + 12 then .panic
    else
      let k := vendorKind mem addr
      ParsedHdr.of (readHeader mem addr k k.hdrSize) addr flags
  else if mem.length < addr + 40 then .panic
  else if isPxa mem addr then ParsedHdr.of (readHeader mem addr .pxa Kind.pxa.hdrSize) addr flags
  else if mem.length < addr + amonetMicroloaderSz + 8 then .panic
  else if isAmonet mem addr then
    -- The difference is a `u32`, so a page below 1024 bytes asks for almost 4 GiB.
    let realHdrSz := (word mem (addr + amonetMicroloaderSz + 36) + (2 ^ 32 - amonetMicroloaderSz))
      % 2 ^ 32
    ParsedHdr.ofAosp (makeAospHdr mem (addr + amonetMicroloaderSz) (some realHdrSz)) addr
      { flags with amonet := true }
  else if isNookhd mem addr then
    ParsedHdr.ofAosp (makeAospHdr mem (addr + nookhdPreHeaderSz) none) (addr + nookhdPreHeaderSz)
      { flags with nookhd := true }
  else if isAcclaim mem addr then
    ParsedHdr.ofAosp (makeAospHdr mem (addr + acclaimPreHeaderSz) none) (addr + acclaimPreHeaderSz)
      { flags with acclaim := true }
  else ParsedHdr.ofAosp (makeAospHdr mem addr none) addr flags

def getBlocks (h : Header) : List Block → Nat → Option (List Nat × Nat)
  | [], off => some ([], off)
  | blk :: blks, off => do
      let next ← alignTo (off + h.get blk.sizeField) h.pageSize
      let (offs, stop) ← getBlocks h blks next
      return (off :: offs, stop)

def blockOffs (h : Header) : Option (List Nat × Nat) := do
  let off ← h.hdrSpace
  getBlocks h Block.all off

/-- The pointer `addr + off`. An offset with the top bit set moves it down; what is then in front of the
mapping is an address that no mapping has. -/
def pointer (addr off : Nat) : Nat :=
  if 2 ^ 63 ≤ off ∧ 2 ^ 64 ≤ addr + off then addr + off - 2 ^ 64 else addr + off

/-- `assert_off` fails: the pointer is behind the end. -/
def corrupted (addr off : Nat) : Bool := off < 2 ^ 63 ∧ mem.length < addr + off

/-- What stands in a block behind its MTK header, if it has one; positions are relative to the start of
the block. -/
structure Payload where
  start : Nat := 0
  size : Nat := 0
  fmt : FileFormat := .unknown
  mtk : Bool := false
  deriving DecidableEq, Repr

variable (rest : List UInt8)

def unwrapMtk (size : Nat) : Option Payload := do
  let fmt ← checkFmtLg rest size
  if fmt = .mtk then
    -- A block of less than 512 bytes gets a size near 4 GiB.
    let size := (size + (2 ^ 32 - mtkHdrSize)) % 2 ^ 32
    let fmt ← checkFmtLg (rest.drop mtkHdrSize) size
    return { start := mtkHdrSize, size, fmt, mtk := true }
  else return { size, fmt }

structure KernelPart extends Payload where
  zInfo : Option ZImage := none
  dtb : Option Nat := none
  deriving DecidableEq, Repr

def splitZImage (part : Payload) : Option (Payload × Option ZImage) :=
  if part.fmt = .zimage then
    if rest.length < part.start + part.size then none
    else
      match ZImage.parse (slice rest part.start part.size) with
      | some z =>
          some
            ({ part with
                start := part.start + z.head.length
                size := if z.fmt ≠ .gzip then z.piggy.length - 4 else z.piggy.length
                fmt := z.fmt }, some z)
      | none => some (part, none)
  else some (part, none)

def parseKernel (env : Env) (rest : List UInt8) (size : Nat) : Option KernelPart :=
  if size = 0 then some {}
  else if rest.length < size then none
  else do
    let dtb := dtbOffset env.fdtAccepts (rest.take size)
    let part ← unwrapMtk rest (dtb.getD size)
    let (part, zInfo) ← splitZImage rest part
    return { toPayload := part, zInfo, dtb }

def parseRamdisk (size : Nat) : Option Payload :=
  if size = 0 then some {} else unwrapMtk rest size

structure TableEntry where
  raw : List UInt8
  deriving DecidableEq, Repr

namespace TableEntry

def ramdiskSize (e : TableEntry) : Nat := word e.raw 0

def ramdiskOffset (e : TableEntry) : Nat := word e.raw 4

/-- The name as a C string; one without a NUL goes on into the board id. -/
def ramdiskName (e : TableEntry) : List UInt8 := cstr (e.raw.drop 12) 96

end TableEntry

def vendorRamdiskTbl (ptr : Nat) (h : Header) : Option (List TableEntry) :=
  let num := h.get .vendorRamdiskTableEntryNum
  if h.get .vendorRamdiskTableSize = 0 then some []
  else if h.get .vendorRamdiskTableEntrySize ≠ tableEntrySize then none
  else if mem.length < ptr + tableEntrySize * num then none
  else some ((List.range num).map fun i => ⟨slice mem (ptr + tableEntrySize * i) tableEntrySize⟩)

/-- With a vendor ramdisk table the formats of its ramdisks are looked at and not kept. -/
def parseRamdisks (ptr tablePtr : Nat) (h : Header) : Option Payload :=
  let size := h.get .ramdiskSize
  if size ≠ 0 ∧ h.get .vendorRamdiskTableSize ≠ 0 then do
    let entries ← vendorRamdiskTbl mem tablePtr h
    let _ ← entries.mapM fun e => checkFmtLg (mem.drop (ptr + e.ramdiskOffset)) e.ramdiskSize
    return { size }
  else parseRamdisk (mem.drop ptr) size

def parseExtra (size : Nat) : Option FileFormat :=
  if size = 0 then some .unknown else checkFmtLg rest size

def bigEndian (off n : Nat) : Nat := ofLe (slice mem off n).reverse

structure TailInfo where
  flags : Flags
  avbFooter : Option Nat := none
  vbmeta : Option Nat := none

def tailFlags (env : Env) (payload tail : List UInt8) (flags : Flags) : Flags :=
  if seandroidMagic <+: tail then { flags with seandroid := true }
  else if lgBumpMagic <+: tail then { flags with lgBump := true }
  else if env.verify payload tail then { flags with avb1Signed := true }
  else flags

def parseFooter (flags : Flags) : Option TailInfo :=
  let footer := mem.length - avbFooterSize
  if slice mem footer 4 = avbFooterMagic then
    let vbmeta := (addr + bigEndian mem (footer + 20) 8) % 2 ^ 64
    if mem.length < vbmeta + 4 then none
    else if slice mem vbmeta 4 = avbMagic then
      some { flags := { flags with avb := true }, avbFooter := some footer, vbmeta := some vbmeta }
    else some { flags, avbFooter := some footer }
  else some { flags }

def parseTail (env : Env) (mem : List UInt8) (addr off : Nat) (flags : Flags) : Option TailInfo :=
  if addr + off ≤ mem.length then
    let tail := mem.drop (addr + off)
    if tail = [] then some { flags }
    else parseFooter mem addr (tailFlags env (slice mem addr off) tail flags)
  else
    -- The offset has its top bit set. A payload of that length leads out of the mapping, but only a signature
    -- that names the same length makes `verify` look at it.
    let tail := mem.drop (pointer addr off)
    if tail = [] then none
    else if seandroidMagic <+: tail ∨ lgBumpMagic <+: tail ∨ env.signedLength tail ≠ some off then
      parseFooter mem addr (tailFlags { env with verify := fun _ _ => false } [] tail flags)
    else none

structure BootImg where
  mem : List UInt8
  mapSize : Nat
  addr : Nat
  raw : Header
  offs : List Nat
  off : Nat
  kernel : KernelPart
  ramdisk : Payload
  eFmt : FileFormat
  flags : Flags
  avbFooter : Option Nat
  vbmeta : Option Nat

def hasSha256Id (h : Header) : Bool :=
  match h.kind.textOffset .id with
  | some off => (slice h.raw (off + 24) 8).any (· ≠ 0)
  | none => false

def blockPtr (offs : List Nat) (blk : Block) : Nat :=
  pointer addr (offs.getD (Block.all.idxOf blk) 0)

def parseBlocks (env : Env) (mem : List UInt8) (mapSize : Nat) (p : ParsedHdr) (offs : List Nat)
    (off : Nat) : Option BootImg := do
  let ptr := blockPtr p.addr offs
  let kernel ← parseKernel env (mem.drop (ptr .kernel)) (p.hdr.get .kernelSize)
  let ramdisk ← parseRamdisks mem (ptr .ramdisk) (ptr .vendorRamdiskTable) p.hdr
  let eFmt ← parseExtra (mem.drop (ptr .extra)) (p.hdr.get .extraSize)
  let tail ← parseTail env mem p.addr off p.flags
  some
    { mem
      mapSize
      addr := p.addr
      raw := p.hdr
      offs
      off
      kernel
      ramdisk
      eFmt
      flags := tail.flags
      avbFooter := tail.avbFooter
      vbmeta := tail.vbmeta }

def parseImage (env : Env) (mem : List UInt8) (mapSize addr : Nat) (fmt : FileFormat)
    (flags : Flags) : Outcome Flags BootImg := do
  let p ← parseHdr mem addr fmt flags
  let p := { p with flags := { p.flags with sha256 := p.flags.sha256 || hasSha256Id p.hdr } }
  match blockOffs p.hdr with
  | none => .panic
  | some (offs, off) =>
      if (offs.tail ++ [off]).any (corrupted mem p.addr) then .err p.flags
      else
        match parseBlocks env mem mapSize p offs off with
        | some img => .ok img
        | none => .panic

/-- The constructor from address `addr` on; `none` if it exits or dies. -/
def scan (env : Env) (mem : List UInt8) (mapSize addr : Nat) (flags : Flags) : Option BootImg :=
  if addr < mapSize then
    match readFmt (mem.drop addr) mapSize with
    | none => none
    | some .chromeos => scan env mem mapSize (addr + 65536) { flags with chromeos := true }
    | some .dhtb =>
        scan env mem mapSize (addr + dhtbHdrSize) { flags with dhtb := true, seandroid := true }
    | some .blob => scan env mem mapSize (addr + blobHdrSize) { flags with blob := true }
    | some fmt =>
        if fmt = .aosp ∨ fmt = .aospVendor then
          match parseImage env mem mapSize addr fmt flags with
          | .ok img => some img
          | .err flags => scan env mem mapSize (addr + 1) flags
          | .panic => none
        else scan env mem mapSize (addr + 1) flags
  else none
termination_by mapSize - addr
decreasing_by
  · omega
  · exact Nat.sub_lt_sub_left ‹_› (Nat.lt_add_of_pos_right (by decide))
  · exact Nat.sub_lt_sub_left ‹_› (Nat.lt_add_of_pos_right (by decide))
  · omega
  · omega

def load (env : Env) (file : List UInt8) : Option BootImg :=
  scan env (env.map file) file.length 0 {}

namespace BootImg

variable (img : BootImg)

def ptr (blk : Block) : Nat := blockPtr img.addr img.offs blk

def block (blk : Block) : List UInt8 := slice img.mem (img.ptr blk) (img.raw.get blk.sizeField)

def hdr : Header :=
  (img.raw.set .kernelSize img.kernel.size).set .ramdiskSize img.ramdisk.size

def kernelBytes : List UInt8 :=
  slice img.mem (img.ptr .kernel + img.kernel.start) img.kernel.size

def kernelDtb : List UInt8 :=
  match img.kernel.dtb with
  | some off => slice img.mem (img.ptr .kernel + off) (img.raw.get .kernelSize - off)
  | none => []

def ramdiskBytes : List UInt8 :=
  slice img.mem (img.ptr .ramdisk + img.ramdisk.start) img.ramdisk.size

def vendorRamdiskTbl : Option (List TableEntry) :=
  Boot.vendorRamdiskTbl img.mem (img.ptr .vendorRamdiskTable) img.raw

end BootImg

end MagiskNative.Boot
