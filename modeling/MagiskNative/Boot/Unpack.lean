import MagiskNative.Boot.Image

/-!
# Unpacking

The component files of an image in a working directory.
-/

namespace MagiskNative.Boot

open Bytes
open Text (utf8Bytes)

structure Files where
  header : Option (List UInt8) := none
  kernel : Option (List UInt8) := none
  kernelDtb : Option (List UInt8) := none
  ramdisk : Option (List UInt8) := none
  second : Option (List UInt8) := none
  extra : Option (List UInt8) := none
  recoveryDtbo : Option (List UInt8) := none
  dtb : Option (List UInt8) := none
  bootconfig : Option (List UInt8) := none
  vendorRamdisks : List UInt8 → Option (List UInt8) := fun _ => none

/-- `dump`: a block of size zero leaves the file alone. -/
def dump (size : Nat) (bytes : List UInt8) (old : Option (List UInt8)) : Option (List UInt8) :=
  if size = 0 then old else some bytes

def dumpPart (env : Env) (skipDecomp : Bool) (fmt : FileFormat) (size : Nat) (bytes : List UInt8)
    (old : Option (List UInt8)) : Option (List UInt8) :=
  if !skipDecomp && fmtCompressed fmt then dump size (env.decompressBytes fmt bytes) old
  else dump size bytes old

def ramdiskFile : List UInt8 := utf8Bytes "ramdisk.cpio"

def TableEntry.fileName (e : TableEntry) (bufSz : Nat) : List UInt8 :=
  if e.ramdiskName = [] then ramdiskFile
  else (e.ramdiskName ++ utf8Bytes ".cpio").take (bufSz - 1)

def TableEntry.ramdisk (e : TableEntry) (img : BootImg) : List UInt8 :=
  slice img.mem (img.ptr .ramdisk + e.ramdiskOffset) e.ramdiskSize

def TableEntry.fmt (e : TableEntry) (img : BootImg) : Option FileFormat :=
  checkFmtLg (img.mem.drop (img.ptr .ramdisk + e.ramdiskOffset)) e.ramdiskSize

def dumpEntry (env : Env) (img : BootImg) (skipDecomp : Bool)
    (dir : List UInt8 → Option (List UInt8)) (e : TableEntry) :
    Option (List UInt8 → Option (List UInt8)) := do
  let fmt ← e.fmt img
  let content :=
    if !skipDecomp && fmtCompressed fmt then env.decompressBytes fmt (e.ramdisk img)
    else e.ramdisk img
  return Function.update dir (e.fileName 40) (some content)

/-- `unpack` on a parsed image, in a directory that holds `dir`. -/
def unpackImg (env : Env) (img : BootImg) (skipDecomp hdr : Bool) (dir : Files) : Option Files := do
  let header := if hdr then some (dumpHdrFile img.hdr) else dir.header
  let kernel := dumpPart env skipDecomp img.kernel.fmt img.kernel.size img.kernelBytes dir.kernel
  let kernelDtb := dump img.kernelDtb.length img.kernelDtb dir.kernelDtb
  let hasTable := img.raw.get .vendorRamdiskTableSize ≠ 0
  let vendorRamdisks ←
    if hasTable then do
      let entries ← img.vendorRamdiskTbl
      entries.foldlM (dumpEntry env img skipDecomp) dir.vendorRamdisks
    else some dir.vendorRamdisks
  let ramdisk :=
    if hasTable then dir.ramdisk
    else dumpPart env skipDecomp img.ramdisk.fmt img.ramdisk.size img.ramdiskBytes dir.ramdisk
  let extra :=
    dumpPart env skipDecomp img.eFmt (img.raw.get .extraSize) (img.block .extra) dir.extra
  let plain (blk : Block) (old : Option (List UInt8)) :=
    dump (img.raw.get blk.sizeField) (img.block blk) old
  some
    { header
      kernel
      kernelDtb
      ramdisk
      second := plain .second dir.second
      extra
      recoveryDtbo := plain .recoveryDtbo dir.recoveryDtbo
      dtb := plain .dtb dir.dtb
      bootconfig := plain .bootconfig dir.bootconfig
      vendorRamdisks }

def unpackCode (img : BootImg) : Nat :=
  if img.flags.chromeos then 2 else if img.raw.kind.isVendor then 3 else 0

def unpack (env : Env) (file : List UInt8) (skipDecomp hdr : Bool) (dir : Files) :
    Option (Files × Nat) := do
  let img ← load env file
  let files ← unpackImg env img skipDecomp hdr dir
  return (files, unpackCode img)

end MagiskNative.Boot
