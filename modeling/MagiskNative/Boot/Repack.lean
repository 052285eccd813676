import MagiskNative.Lib.Writes
import MagiskNative.Boot.Unpack

/-!
# Repacking

`repack` writes wrapper, header page and blocks one after the other, maps the result and patches it:
MTK headers, the zImage stub, the header, AVB structures and wrapper headers. `Written` is the image
before the patches, and `withHeader` the one with the new header in its place.
-/

namespace MagiskNative.Boot

open Bytes Layout

def beBytes (k n : Nat) : List UInt8 := (leBytes k n).reverse

theorem length_beBytes (k n : Nat) : (beBytes k n).length = k := by
  rw [beBytes, List.length_reverse, length_leBytes]

structure Segment where
  bytes : List UInt8 := []
  aligned : Bool := false
  /-- what its size field is set to; `none` leaves the field alone -/
  size : Option Nat := none

def sendfileMax : Nat := 0x7ffff000

def restored (m : List UInt8) : List UInt8 := m.take sendfileMax

def restoreSegment : Option (List UInt8) → Segment
  | some m => { bytes := restored m, aligned := true, size := some m.length }
  | none => {}

/-- A component is compressed unless it is so already, or its source was not. -/
def compresses (skipComp : Bool) (fmt : FileFormat) (m : List UInt8) : Bool :=
  !skipComp && !fmtCompressedAny (checkFmt m) && fmtCompressed fmt

def packed (env : Env) (skipComp : Bool) (fmt : FileFormat) (m : List UInt8) : List UInt8 :=
  if compresses skipComp fmt m then env.compressBytes fmt m else m

section Segments

variable (env : Env) (img : BootImg) (files : Files) (skipComp : Bool)

def mtkHdrOf (mtk : Bool) (blk : Block) : List UInt8 :=
  if mtk then slice img.mem (img.ptr blk) mtkHdrSize else []

/-- The payload for a kernel file. In a zImage the uncompressed size follows the stream unless that is
gzip, which has it already. -/
def kernelPayload (m : List UInt8) : List UInt8 :=
  packed env skipComp img.kernel.fmt m ++
    if compresses skipComp img.kernel.fmt m ∧ img.kernel.zInfo.isSome ∧ img.kernel.fmt ≠ .gzip then
      leBytes 4 m.length
    else []

/-- What stands between MTK header and device tree, and the size that is counted for it. -/
def kernelBody : List UInt8 × Nat :=
  match files.kernel, img.kernel.zInfo with
  | some m, some z =>
      let payload := kernelPayload env img skipComp m
      let tail := z.newTail (payload.length % 2 ^ 32)
      (z.head ++ payload ++ tail, z.head.length + payload.length % 2 ^ 32 + tail.length)
  | some m, none =>
      let payload := kernelPayload env img skipComp m
      (payload, payload.length)
  | none, some z =>
      if img.kernel.size ≠ 0 then
        (z.head ++ z.piggy ++ z.tail, z.head.length + z.piggy.length + z.tail.length)
      else (z.head, 0)
  | none, none => if img.kernel.size ≠ 0 then (img.kernelBytes, img.kernel.size) else ([], 0)

def zPayloadSz : Nat :=
  match files.kernel, img.kernel.zInfo with
  | some m, some _ => (kernelPayload env img skipComp m).length % 2 ^ 32
  | _, _ => 0

def kernelSegment : Segment where
  bytes := mtkHdrOf img img.kernel.mtk .kernel ++ (kernelBody env img files skipComp).1
    ++ restored (files.kernelDtb.getD [])
  aligned := true
  size := some ((kernelBody env img files skipComp).2 + (files.kernelDtb.getD []).length)

/-- The ramdisk of a v4 boot image is always recompressed as LZ4 legacy. -/
def ramdiskFmt : FileFormat :=
  if !skipComp && !img.raw.kind.isVendor && img.raw.get .headerVersion == 4
      && img.ramdisk.fmt ≠ .lz4Legacy then
    .lz4Legacy
  else img.ramdisk.fmt

-- Without a ramdisk file there is no `file_align`, but an MTK header is written all the same.
def ramdiskSegment : Segment :=
  let mtk := mtkHdrOf img img.ramdisk.mtk .ramdisk
  match files.ramdisk with
  | some m =>
      let payload := packed env skipComp (ramdiskFmt img skipComp) m
      { bytes := mtk ++ payload, aligned := true, size := some payload.length }
  | none => { bytes := mtk }

def extraSegment : Segment :=
  match files.extra with
  | some m =>
      let payload := packed env skipComp img.eFmt m
      { bytes := payload, aligned := true, size := some payload.length }
  | none => {}

def signatureSegment : Segment :=
  if img.raw.get .signatureSize ≠ 0 then { bytes := img.block .signature, aligned := true } else {}

def tableRamdisk (offset : Nat) (e : TableEntry) : Option (List UInt8 × TableEntry) := do
  let m := (files.vendorRamdisks (e.fileName 64)).getD []
  let fmt ← e.fmt img
  let payload := packed env skipComp fmt m
  let raw := patch (patch e.raw 0 (leBytes 4 payload.length)) 4 (leBytes 4 offset)
  return (payload, ⟨raw⟩)

def tableRamdisks : Nat → List TableEntry → Option (List UInt8 × List TableEntry)
  | _, [] => some ([], [])
  | offset, e :: es => do
      let (payload, e) ← tableRamdisk env img files skipComp offset e
      let (payloads, es) ← tableRamdisks ((offset + payload.length) % 2 ^ 32) es
      return (payload ++ payloads, e :: es)

def ramdiskSegments : Option (Segment × Segment) :=
  if img.raw.get .vendorRamdiskTableSize ≠ 0 then do
    let entries ← img.vendorRamdiskTbl
    let (payloads, entries) ← tableRamdisks env img files skipComp 0 entries
    let table : Segment :=
      if entries ≠ [] then { bytes := entries.flatMap TableEntry.raw, aligned := true } else {}
    return ({ bytes := mtkHdrOf img img.ramdisk.mtk .ramdisk ++ payloads, aligned := true,
              size := some payloads.length }, table)
  else some (ramdiskSegment env img files skipComp, {})

def segments : Option (List (Block × Segment)) := do
  let (ramdisk, table) ← ramdiskSegments env img files skipComp
  return [(.kernel, kernelSegment env img files skipComp), (.ramdisk, ramdisk),
    (.second, restoreSegment files.second), (.extra, extraSegment env img files skipComp),
    (.recoveryDtbo, restoreSegment files.recoveryDtbo), (.dtb, restoreSegment files.dtb),
    (.signature, signatureSegment img), (.vendorRamdiskTable, table),
    (.bootconfig, restoreSegment files.bootconfig)]

end Segments

/-- `file_align_with`. A page size of `2 ^ 31` or more is a negative `int`, for which the padding is
negative too, and a negative number of zeros takes forever. -/
def fileAlignWith (page header : Nat) (fd : List UInt8) : Option (List UInt8) :=
  if 0 < page ∧ page < 2 ^ 31 then
    some (fd ++ zeros (roundUp page (fd.length - header) - (fd.length - header)))
  else none

structure Out where
  fd : List UInt8
  hdr : Header
  places : List Nat

def Header.setSize (h : Header) (blk : Block) : Option Nat → Header
  | some n => h.set blk.sizeField n
  | none => h

def describeSegment (pos : Nat) (seg : Block × Segment) (h : Header) : Header :=
  let h := h.setSize seg.1 seg.2.size
  -- The recovery DTBO also has its offset in the header.
  if seg.1 = .recoveryDtbo ∧ seg.2.aligned then h.set .recoveryDtboOffset pos else h

def writeSegment (page header : Nat) (out : Out) (seg : Block × Segment) : Option Out := do
  let pos := out.fd.length
  let fd ← if seg.2.aligned then fileAlignWith page header (out.fd ++ seg.2.bytes)
    else some (out.fd ++ seg.2.bytes)
  return ⟨fd, describeSegment pos seg out.hdr, out.places ++ [pos]⟩

def resetSizes (h : Header) : Header :=
  ((((h.set .kernelSize 0).set .ramdiskSize 0).set .secondSize 0).set .dtbSize 0).set
    .bootconfigSize 0

def newHdr (env : Env) (img : BootImg) (files : Files) : Header :=
  match files.header with
  | some data => loadHdrFile env.locals (resetSizes img.hdr) data
  | none => resetSizes img.hdr

def wrapper (img : BootImg) : List UInt8 :=
  if img.flags.dhtb then slice img.mem 0 dhtbHdrSize
  else if img.flags.blob then slice img.mem 0 blobHdrSize
  else if img.flags.nookhd then slice img.mem 0 nookhdPreHeaderSz
  else if img.flags.acclaim then slice img.mem 0 acclaimPreHeaderSz
  else []

def trailer (img : BootImg) : List UInt8 :=
  if img.flags.seandroid then
    seandroidMagic ++ if img.flags.dhtb then [0xff, 0xff, 0xff, 0xff] else []
  else if img.flags.lgBump then lgBumpMagic
  else []

/-- The image before the patches. The offsets that the source keeps in 32 bits are cut where they are
used. -/
structure Written where
  header : Nat
  /-- the file up to the end of the blocks, the new header and the places of the blocks -/
  out : Out
  tail : Nat
  vbmeta : Nat
  data : List UInt8

def vbmetaSize (img : BootImg) : Nat :=
  match img.avbFooter with
  | some footer => bigEndian img.mem (footer + 28) 8
  | none => 0

def writeVbmeta (img : BootImg) (header : Nat) (fd : List UInt8) : Option (List UInt8 × Nat) :=
  match img.vbmeta with
  | some vbmeta => do
      let fd ← fileAlignWith 4096 header fd
      return (fd ++ slice img.mem vbmeta (vbmetaSize img), fd.length)
  | none => some (fd, 0)

def padToSource (img : BootImg) (fd : List UInt8) : List UInt8 :=
  if img.flags.chromeos then fd else fd ++ zeros (img.mapSize - fd.length)

def writeImg (env : Env) (img : BootImg) (files : Files) (skipComp : Bool) : Option Written := do
  let hdr := newHdr env img files
  let page := img.raw.pageSize
  let header := (wrapper img).length
  let space ← hdr.hdrSpace
  let segs ← segments env img files skipComp
  let out ← segs.foldlM (writeSegment page header)
    ⟨wrapper img ++ slice img.mem img.addr space, hdr, []⟩
  let fd := out.fd ++ trailer img
  let tail := fd.length
  let fd ← fileAlignWith page header fd
  let (fd, vbmeta) ← writeVbmeta img header fd
  return { header, out, tail, vbmeta, data := padToSource img fd }

section Patch

variable (env : Env) (img : BootImg) (files : Files) (skipComp : Bool) (w : Written)

/-- Where a block has been put, as the 32 bits that are kept of it. -/
def Written.place (blk : Block) : Nat := w.out.places.getD (Block.all.idxOf blk) 0 % 2 ^ 32

def patchMtk (mtk : Bool) (blk : Block) (s : List UInt8 × Header) : List UInt8 × Header :=
  if mtk then
    let size := s.2.get blk.sizeField
    (patch s.1 (w.place blk + 4) (leBytes 4 size), s.2.set blk.sizeField (size + mtkHdrSize))
  else s

variable (data : List UInt8)

def patchStub : List UInt8 :=
  match img.kernel.zInfo with
  | some z =>
      let payloadSz := zPayloadSz env img files skipComp
      if payloadSz ≠ 0 then
        patch data (w.place .kernel + if img.kernel.mtk then mtkHdrSize else 0) (z.newHead payloadSz)
      else data
  | none => data

def shaInput (h : Header) : List UInt8 :=
  let sized (off : Nat) (blk : Block) :=
    slice data off (h.get blk.sizeField) ++ leBytes 4 (h.get blk.sizeField)
  let ver := h.get .headerVersion
  sized (w.place .kernel) .kernel ++ sized (w.place .ramdisk) .ramdisk
    ++ sized (w.place .second) .second
    ++ (if h.get .extraSize ≠ 0 then sized (w.place .extra) .extra else [])
    ++ (if ver = 1 ∨ ver = 2 then sized (h.get .recoveryDtboOffset) .recoveryDtbo else [])
    ++ (if ver = 2 then sized (w.place .dtb) .dtb else [])

def updateId (h : Header) : Header :=
  let digest := if img.flags.sha256 then env.sha256 (shaInput w data h) else env.sha1 (shaInput w data h)
  (h.setText .id (List.replicate 32 0)).setText .id digest

def patched : List UInt8 × Header :=
  let (data, h) := patchMtk w img.ramdisk.mtk .ramdisk
    (patchMtk w img.kernel.mtk .kernel (w.data, w.out.hdr))
  let data := patchStub env img files skipComp w data
  let h := h.set .headerSize h.hdrSize
  (data, updateId env img w data h)

/-- What is copied of the header of an AMONET image, whose page also has the loader. -/
def realHdrSz (h : Header) : Nat :=
  min ((h.hdrSpace.getD 0 + (2 ^ 64 - amonetMicroloaderSz)) % 2 ^ 64) h.hdrSize

def copyHeader (h : Header) : List UInt8 :=
  if img.flags.amonet then
    patch data (w.header + amonetMicroloaderSz) (h.raw.take (realHdrSz h))
  else patch data w.header h.raw

def withHeader : List UInt8 :=
  copyHeader img w (patched env img files skipComp w).1 (patched env img files skipComp w).2

def aospImgSize : Nat := (w.tail % 2 ^ 32 + (2 ^ 32 - w.header)) % 2 ^ 32

/-- The loop over the descriptors in the mapped output; at most as many rounds as there are places
for one, since a place seen twice is seen forever. -/
def syncDescriptor (mem : List UInt8) (size last : Nat) : Nat → Nat → Option (Option Nat)
  | 0, _ => none
  | rounds + 1, ptr =>
      if ptr = last then some none
      else if mem.length < ptr + 16 then none
      else
        let following := bigEndian mem (ptr + 8) 8
        if bigEndian mem ptr 8 = 2 then
          let remaining := (size + (2 ^ 64 - ptr)) % 2 ^ 64
          if remaining < following ∨ remaining - following < 16 then some none
          else if following < 116 then some none
          else some (some (ptr + 16))
        else if ofLe (slice mem (ptr + 8) 8) % 8 ≠ 0 then some none
        else syncDescriptor mem size last rounds ((ptr + 16 + following) % 2 ^ 64)

def patchAvb : Option (List UInt8) :=
  match img.avbFooter, img.vbmeta with
  | some footer, some _ => do
      let aosp := beBytes 8 (aospImgSize w)
      let vbmeta := w.vbmeta % 2 ^ 32
      let newFooter := data.length - avbFooterSize
      let data := patch data newFooter (slice img.mem footer avbFooterSize)
      let data := patch data (newFooter + 12) aosp
      let data := patch data (newFooter + 20) (beBytes 8 vbmeta)
      let data := if env.patchVbmetaFlag then patch data (vbmeta + 120) (beBytes 4 3) else data
      let mem := env.map data
      let first := (vbmeta + 256 + bigEndian mem (vbmeta + 12) 8 + bigEndian mem (vbmeta + 96) 8)
        % 2 ^ 64
      let last := (first + bigEndian mem (vbmeta + 104) 8) % 2 ^ 64
      let found ← syncDescriptor mem data.length last (mem.length + 1) first
      return match found with
        | some off => patch data off aosp
        | none => data
  | _, _ => some data

def dhtbSize : Nat := (aospImgSize w + 20) % 2 ^ 32

def WrapperMapped : Prop :=
  img.flags.dhtb = true → dhtbHdrSize + dhtbSize w ≤ (env.map data).length

instance : Decidable (WrapperMapped env img w data) :=
  inferInstanceAs (Decidable (_ → _))

def patchWrapper : List UInt8 :=
  if img.flags.dhtb then
    let data := patch data 48 (leBytes 4 (dhtbSize w))
    patch data 8 ((env.sha256 (slice (env.map data) dhtbHdrSize (dhtbSize w))).take 32)
  else if img.flags.blob then patch data 96 (leBytes 4 (aospImgSize w))
  else data

def signImg : List UInt8 :=
  if img.flags.avb1Signed then
    let sig := env.signPayload (slice data w.header (aospImgSize w))
    if sig ≠ [] then writeAt data (w.tail % 2 ^ 32) sig else data
  else data

end Patch

def repackImg (env : Env) (img : BootImg) (files : Files) (skipComp : Bool) :
    Option (List UInt8) := do
  let w ← writeImg env img files skipComp
  let data ← patchAvb env img w (withHeader env img files skipComp w)
  if WrapperMapped env img w data then return signImg env img w (patchWrapper env img w data)
  else none

def repack (env : Env) (file : List UInt8) (files : Files) (skipComp : Bool) :
    Option (List UInt8) := do
  let img ← load env file
  repackImg env img files skipComp

end MagiskNative.Boot
