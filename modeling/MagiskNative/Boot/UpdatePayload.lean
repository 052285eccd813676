import MagiskNative.Lib.Outcome
import MagiskNative.Lib.Writes
import MagiskNative.Compress.Commands

/-!
# Partitions in update payloads

`extract_boot_from_payload` reads the manifest of an update payload and carries out the operations of
one partition: each takes a range of the blob behind the manifest and writes it, decoded or not, into
the output. Operations are sorted by their place in the blob, so that an input which cannot seek will
do. The reader of protocol buffers and the decoders are parameters, as is the width of `usize`.
-/

namespace MagiskNative.Boot.UpdatePayload

open Bytes Layout Outcome
open Text (utf8Bytes)

inductive OpType where
  | replace
  | replaceBz
  | move
  | bsdiff
  | sourceCopy
  | sourceBsdiff
  | zero
  | discard
  | replaceXz
  | puffdiff
  | brotliBsdiff
  | zucchini
  | lz4diffBsdiff
  | lz4diffPuffdiff
  deriving DecidableEq, Repr

structure Extent where
  startBlock : Option Nat
  numBlocks : Option Nat
  deriving DecidableEq, Repr

structure InstallOperation where
  typePb : OpType
  dataOffset : Option Nat
  dataLength : Option Nat
  dstExtents : List Extent
  deriving DecidableEq, Repr

structure PartitionUpdate where
  partitionName : String
  operations : List InstallOperation
  deriving DecidableEq, Repr

structure Manifest where
  blockSize : Nat := 4096
  minorVersion : Nat := 0
  partitions : List PartitionUpdate
  deriving DecidableEq, Repr

inductive Error where
  | io
  /-- logged behind `Invalid payload: ` -/
  | badPayload (message : String)
  deriving DecidableEq, Repr

/-- What the tool gets from elsewhere. -/
structure Tool where
  usize : Nat
  coders : Compress.Coders
  fromReader : List UInt8 → Option Manifest

/-- An open file that can seek or not, with the position up to which it has been read. -/
structure Source where
  data : List UInt8
  pos : Nat
  seekable : Bool

namespace Source

def readExact (s : Source) (n : Nat) : Outcome Error (List UInt8 × Source) :=
  if n = 0 ∨ s.pos + n ≤ s.data.length then
    .ok (slice s.data s.pos n, { s with pos := s.pos + n })
  else .err .io

def skipRead (s : Source) (len : Nat) : Outcome Error Source :=
  if len = 0 then .ok s
  else do
    let (_, s) ← s.readExact (min 4096 len)
    skipRead s (len - min 4096 len)
termination_by len

/-- `ReadSeekExt::skip`: a length of `2 ^ 63` or more is a seek backwards, and only when the seek
fails are the bytes read. -/
def skip (s : Source) (len : Nat) : Outcome Error Source :=
  let offset : Int := s.pos + if len < 2 ^ 63 then (len : Int) else len - 2 ^ 64
  if s.seekable ∧ 0 ≤ offset ∧ offset < 2 ^ 63 then .ok { s with pos := offset.toNat }
  else s.skipRead len

def blob (s : Source) (sigLen : Nat) : List UInt8 := s.data.drop (s.pos + sigLen)

def readBe (s : Source) (n : Nat) : Outcome Error (Nat × Source) := do
  let (bytes, s) ← s.readExact n
  return (ofLe bytes.reverse, s)

end Source

def seekTo (off : Nat) : Outcome Error Unit := if off < 2 ^ 63 then .ok () else .err .io

/-- `write_all` behind a seek to `off`. No file is longer than `2 ^ 63 - 1` bytes. -/
def writeAll (out : List UInt8) (off : Nat) (bytes : List UInt8) : Outcome Error (List UInt8) :=
  if bytes = [] ∨ off + bytes.length < 2 ^ 63 then .ok (Write.apply out ⟨off, bytes⟩) else .err .io

section Extract

variable (t : Tool) (blockSize : Nat)

def decode (data : List UInt8) : Outcome Error (List UInt8) :=
  if fmtCompressed (checkFmt data) then
    match t.coders.decompress (checkFmt data) data with
    | .ok content => .ok content
    | .error _ => .err .io
  else .panic

def zeroExtent (out : List UInt8) (ext : Extent) : Outcome Error (List UInt8) := do
  let startBlock ← .ofOption ext.startBlock (.badPayload "start block not found")
  let numBlocks ← .ofOption ext.numBlocks (.badPayload "num blocks not found")
  seekTo (startBlock * blockSize % 2 ^ 64)
  writeAll out (startBlock * blockSize % 2 ^ 64) (zeros (numBlocks % 2 ^ t.usize))

def writeOperation (out : List UInt8) (op : InstallOperation) (data : List UInt8) (outOffset : Nat) :
    Outcome Error (List UInt8) :=
  match op.typePb with
  | .replace => do
      seekTo outOffset
      writeAll out outOffset data
  | .zero => op.dstExtents.foldlM (zeroExtent t blockSize) out
  | .replaceBz | .replaceXz => do
      seekTo outOffset
      Outcome.mapErr (fun _ => .badPayload "decompression failed") do
        let content ← decode t data
        writeAll out outOffset content
  | _ => .err (.badPayload "unsupported operation type")

structure State where
  reader : Source
  currDataOffset : Nat
  outFile : List UInt8

def operate (st : State) (op : InstallOperation) : Outcome Error State := do
  let dataLength ← .ofOption op.dataLength (.badPayload "data length not found")
  let dataLen := dataLength % 2 ^ t.usize
  let dataOffset ← .ofOption op.dataOffset (.badPayload "data offset not found")
  -- a vector has no room for more than `isize::MAX` bytes
  Outcome.assert (dataLen < 2 ^ (t.usize - 1))
  -- the difference of two words
  let skip := (dataOffset + (2 ^ 64 - st.currDataOffset)) % 2 ^ 64
  let reader ← st.reader.skip (skip % 2 ^ t.usize)
  let (data, reader) ← reader.readExact dataLen
  let ext ← .ofOption op.dstExtents.head? (.badPayload "dst extents not found")
  let startBlock ← .ofOption ext.startBlock (.badPayload "start block not found")
  let outFile ← writeOperation t blockSize st.outFile op data (startBlock * blockSize % 2 ^ 64)
  return ⟨reader, (dataOffset + dataLen) % 2 ^ 64, outFile⟩

def InstallOperation.sortKey (op : InstallOperation) : Nat := op.dataOffset.getD 0

def sortOperations (ops : List InstallOperation) : List InstallOperation :=
  ops.insertionSort fun a b => a.sortKey ≤ b.sortKey

def extractOperations (reader : Source) (ops : List InstallOperation) :
    Outcome Error (List UInt8) := do
  let st ← (sortOperations ops).foldlM (operate t blockSize) ⟨reader, 0, []⟩
  return st.outFile

end Extract

def Manifest.find (m : Manifest) (name : String) : Option PartitionUpdate :=
  m.partitions.find? fun p => p.partitionName = name

def Manifest.select (m : Manifest) (partitionName : Option String) : Outcome Error PartitionUpdate :=
  match partitionName with
  | none => .ofOption ((m.find "init_boot").or (m.find "boot")) (.badPayload "boot partition not found")
  | some name =>
      .ofOption (m.find name) (.badPayload ("partition '" ++ name ++ "' not found"))

def extractManifest (t : Tool) (reader : Source) (manifestSigLen : Nat) (m : Manifest)
    (partitionName outPath : Option String) : Outcome Error (String × List UInt8) :=
  if m.minorVersion ≠ 0 then
    .err (.badPayload "delta payloads are not supported, please use a full payload file")
  else do
    let partition ← m.select partitionName
    let reader ← reader.skip (manifestSigLen % 2 ^ t.usize)
    let outFile ← extractOperations t m.blockSize reader partition.operations
    return (outPath.getD (partition.partitionName ++ ".img"), outFile)

def payloadMagic : List UInt8 := utf8Bytes "CrAU"

/-- What precedes the operations: the manifest, the length of its signature and the reader behind it. -/
def readManifest (t : Tool) (reader : Source) : Outcome Error (Manifest × Nat × Source) := do
  let (magic, reader) ← reader.readExact 4
  if magic ≠ payloadMagic then .err (.badPayload "invalid magic")
  else
    let (version, reader) ← reader.readBe 8
    if version ≠ 2 then .err (.badPayload ("unsupported version: " ++ toString version))
    else
      let (manifestLen, reader) ← reader.readBe 8
      let manifestLen := manifestLen % 2 ^ t.usize
      if manifestLen = 0 then .err (.badPayload "manifest length is zero")
      else
        let (manifestSigLen, reader) ← reader.readBe 4
        if manifestSigLen = 0 then .err (.badPayload "manifest signature length is zero")
        else
          Outcome.assert (manifestLen < 2 ^ (t.usize - 1))
          let (manifest, reader) ← reader.readExact manifestLen
          let m ← .ofOption (t.fromReader manifest) .io
          return (m, manifestSigLen, reader)

def extractBootFromPayload (t : Tool) (reader : Source) (partitionName outPath : Option String) :
    Outcome Error (String × List UInt8) := do
  let (m, manifestSigLen, reader) ← readManifest t reader
  extractManifest t reader manifestSigLen m partitionName outPath

namespace Source

variable {s : Source} {n : Nat}

theorem readExact_of_le (hle : s.pos + n ≤ s.data.length) :
    s.readExact n = .ok (slice s.data s.pos n, { s with pos := s.pos + n }) :=
  if_pos (.inr hle)

theorem skipRead_eq_ok_iff {s' : Source} :
    s.skipRead n = .ok s' ↔ (n = 0 ∨ s.pos + n ≤ s.data.length) ∧ s' = { s with pos := s.pos + n } := by
  induction n using Nat.strong_induction_on generalizing s with
  | _ n ih =>
      rw [skipRead]
      by_cases hn : n = 0
      · subst hn
        rw [if_pos rfl, Outcome.ok.injEq, eq_comm]
        simp only [true_or, true_and, Nat.add_zero]
      · rw [if_neg hn, readExact]
        by_cases hread : s.pos + min 4096 n ≤ s.data.length
        · rw [if_pos (.inr hread), ok_bind, ih _ (by omega)]
          have hsum : s.pos + min 4096 n + (n - min 4096 n) = s.pos + n := by omega
          simp only [hsum]
          exact and_congr_left fun _ => by omega
        · rw [if_neg (by omega), err_bind]
          exact iff_of_false nofun fun h => by omega

theorem skip_of_le (hle : s.pos + n ≤ s.data.length) (hdata : s.data.length < 2 ^ 63) :
    s.skip n = .ok { s with pos := s.pos + n } := by
  rw [skip]
  simp only [if_pos (show n < 2 ^ 63 by omega)]
  split
  · congr 2
  · exact skipRead_eq_ok_iff.2 ⟨.inr hle, rfl⟩

theorem skip_eq_ok_iff {s' : Source} {base curr off : Nat} (hpos : s.pos = base + curr)
    (hcurr : base + curr ≤ s.data.length) (hoff : base + off ≤ s.data.length)
    (hdata : s.data.length < 2 ^ 63) :
    s.skip ((off + (2 ^ 64 - curr)) % 2 ^ 64) = .ok s' ↔
      (s.seekable ∨ curr ≤ off) ∧ s' = { s with pos := base + off } := by
  by_cases hle : curr ≤ off
  · have hskip : (off + (2 ^ 64 - curr)) % 2 ^ 64 = off - curr := by omega
    rw [hskip, skip_of_le (by omega) hdata, Outcome.ok.injEq, eq_comm, hpos,
      show base + curr + (off - curr) = base + off by omega]
    simp only [hle, or_true, true_and]
  · have hskip : (off + (2 ^ 64 - curr)) % 2 ^ 64 = 2 ^ 64 - (curr - off) := by omega
    have hoffset : (s.pos : Int) + ((2 ^ 64 - (curr - off) : Nat) - 2 ^ 64) = (base + off : Nat) := by
      omega
    rw [hskip, skip]
    simp only [if_neg (show ¬ 2 ^ 64 - (curr - off) < 2 ^ 63 by omega), hoffset]
    by_cases hseek : s.seekable = true
    · rw [if_pos ⟨hseek, by omega, by omega⟩, Outcome.ok.injEq, eq_comm, Int.toNat_natCast]
      simp only [hseek, true_or, true_and]
    · rw [if_neg (fun h => hseek h.1), skipRead_eq_ok_iff]
      exact iff_of_false (fun h => by omega) fun h => h.1.elim hseek hle

end Source

namespace InstallOperation

variable (t : Tool) (blob : List UInt8) (blockSize : Nat) (op : InstallOperation)

def dataLen : Nat := op.dataLength.getD 0

def dataRange : Set Nat := Set.Ico op.sortKey (op.sortKey + op.dataLen)

def content : Option (List UInt8) :=
  let data := slice blob op.sortKey op.dataLen
  match op.typePb with
  | .replace => some data
  | .replaceBz => t.coders.decode .bzip2 data
  | .replaceXz => t.coders.decode .xz data
  | _ => none

structure Replaces : Prop where
  dataOffset : op.dataOffset.isSome
  dataLength : op.dataLength.isSome
  extent : ∃ ext, op.dstExtents = [ext] ∧ ext.startBlock.isSome
  inside : op.sortKey + op.dataLen ≤ blob.length
  content : (op.content t blob).isSome

def startBlock : Nat := (op.dstExtents.head?.bind Extent.startBlock).getD 0

def target : Write := ⟨op.startBlock * blockSize, (op.content t blob).getD []⟩

def placed : Write := ⟨op.startBlock * blockSize % 2 ^ 64, (op.content t blob).getD []⟩

end InstallOperation

def Tool.ChecksMagic (t : Tool) : Prop :=
  ∀ fmt ∈ [FileFormat.bzip2, .xz], ∀ data content, t.coders.decode fmt data = some content →
    HasMagic data fmt

def Writable (w : Write) : Prop := w.off < 2 ^ 63 ∧ (w.bytes = [] ∨ w.off + w.bytes.length < 2 ^ 63)

section Steps

variable {t : Tool} {blob : List UInt8} {blockSize : Nat} {op : InstallOperation}

theorem decode_eq (ht : t.ChecksMagic) {fmt : FileFormat} (hfmt : fmt ∈ [FileFormat.bzip2, .xz])
    {data content : List UInt8} (hdecode : t.coders.decode fmt data = some content) :
    decode t data = .ok content := by
  rw [decode, checkFmt_of_hasMagic (ht fmt hfmt data content hdecode)]
  simp only [List.mem_cons, List.not_mem_nil, or_false] at hfmt
  rcases hfmt with rfl | rfl
  · simp only [fmtCompressed, if_true, Compress.Coders.decompress, hdecode]
  · simp only [fmtCompressed, if_true, Compress.Coders.decompress, hdecode]

theorem seek_writeAll_eq_ok_iff {out out' : List UInt8} {w : Write} :
    (do seekTo w.off; writeAll out w.off w.bytes) = .ok out' ↔ Writable w ∧ out' = w.apply out := by
  rw [seekTo, Writable]
  split
  · rename_i hoff
    rw [ok_bind, writeAll]
    split
    · rename_i hroom
      rw [Outcome.ok.injEq, eq_comm]
      exact (and_iff_right ⟨hoff, hroom⟩).symm
    · rename_i hroom
      exact iff_of_false nofun fun h => hroom h.1.2
  · rename_i hoff
    exact iff_of_false nofun fun h => hoff h.1.1

variable (ht : t.ChecksMagic) (hop : op.Replaces t blob)

include ht hop

theorem writeOperation_eq_ok_iff {out out' : List UInt8} :
    writeOperation t blockSize out op (slice blob op.sortKey op.dataLen)
        (op.startBlock * blockSize % 2 ^ 64) = .ok out' ↔
      Writable (op.placed t blob blockSize) ∧ out' = (op.placed t blob blockSize).apply out := by
  obtain ⟨content, hcontent⟩ := Option.isSome_iff_exists.1 hop.content
  have hplaced : op.placed t blob blockSize = ⟨op.startBlock * blockSize % 2 ^ 64, content⟩ := by
    rw [InstallOperation.placed, hcontent, Option.getD_some]
  rw [hplaced, ← seek_writeAll_eq_ok_iff]
  have hstream : ∀ fmt ∈ [FileFormat.bzip2, .xz],
      t.coders.decode fmt (slice blob op.sortKey op.dataLen) = some content →
      ((do
        seekTo (op.startBlock * blockSize % 2 ^ 64)
        Outcome.mapErr (fun _ => Error.badPayload "decompression failed") do
          let content ← decode t (slice blob op.sortKey op.dataLen)
          writeAll out (op.startBlock * blockSize % 2 ^ 64) content) = .ok out' ↔
        (do
          seekTo (op.startBlock * blockSize % 2 ^ 64)
          writeAll out (op.startBlock * blockSize % 2 ^ 64) content) = .ok out') := by
    intro fmt hfmt hdecode
    rw [decode_eq ht hfmt hdecode, ok_bind, bind_eq_ok, bind_eq_ok]
    simp only [mapErr_eq_ok]
  rw [InstallOperation.content] at hcontent
  rw [writeOperation]
  cases htype : op.typePb <;> simp only [htype] at hcontent ⊢
  case replace =>
    rw [Option.some.inj hcontent]
  case replaceBz => exact hstream .bzip2 (by decide) hcontent
  case replaceXz => exact hstream .xz (by decide) hcontent
  all_goals cases hcontent

omit ht in
theorem fields_eq :
    op.dataLength = some op.dataLen ∧ op.dataOffset = some op.sortKey ∧
      ∃ ext, op.dstExtents.head? = some ext ∧ ext.startBlock = some op.startBlock := by
  obtain ⟨ext, hextents, hstart⟩ := hop.extent
  have hgetD : ∀ x : Option Nat, x.isSome → x = some (x.getD 0) := by
    intro x hx
    obtain ⟨n, rfl⟩ := Option.isSome_iff_exists.1 hx
    rfl
  refine ⟨hgetD _ hop.dataLength, hgetD _ hop.dataOffset, ext, ?_, ?_⟩
  · rw [hextents, List.head?_cons]
  · rw [InstallOperation.startBlock, hextents]
    exact hgetD _ hstart

end Steps

structure AtData (base : Nat) (st : State) : Prop where
  pos : st.reader.pos = base + st.currDataOffset
  inside : base + st.currDataOffset ≤ st.reader.data.length
  small : st.reader.data.length < 2 ^ 63

def State.after (t : Tool) (base blockSize : Nat) (st : State) (op : InstallOperation) : State where
  reader := { st.reader with pos := base + (op.sortKey + op.dataLen) }
  currDataOffset := op.sortKey + op.dataLen
  outFile := (op.placed t (st.reader.data.drop base) blockSize).apply st.outFile

def Forward : Nat → List InstallOperation → Prop
  | _, [] => True
  | curr, op :: ops => curr ≤ op.sortKey ∧ Forward (op.sortKey + op.dataLen) ops

section Run

variable {t : Tool} {base blockSize : Nat} {st : State}

theorem AtData.after {op : InstallOperation} (hst : AtData base st)
    (hop : op.Replaces t (st.reader.data.drop base)) : AtData base (st.after t base blockSize op) where
  pos := rfl
  inside := by
    have hinside := hop.inside
    have hle := hst.inside
    rw [List.length_drop] at hinside
    simp only [State.after]
    omega
  small := hst.small

variable (husize : t.usize = 64) (ht : t.ChecksMagic)

include husize ht

theorem operate_eq_ok_iff {op : InstallOperation} {st' : State} (hst : AtData base st)
    (hop : op.Replaces t (st.reader.data.drop base)) :
    operate t blockSize st op = .ok st' ↔
      (st.reader.seekable ∨ st.currDataOffset ≤ op.sortKey) ∧
        Writable (op.placed t (st.reader.data.drop base) blockSize) ∧
        st' = st.after t base blockSize op := by
  obtain ⟨hlength, hoffset, ext, hext, hstart⟩ := fields_eq hop
  have hinside := hop.inside
  have hsmall := hst.small
  have hle := hst.inside
  rw [List.length_drop] at hinside
  have hmod : ∀ n, n < 2 ^ 64 → n % 2 ^ t.usize = n := by
    intro n hn
    rw [husize, Nat.mod_eq_of_lt hn]
  have hdata : slice st.reader.data (base + op.sortKey) op.dataLen
      = slice (st.reader.data.drop base) op.sortKey op.dataLen := by
    rw [slice_drop]
  rw [operate, hlength, hoffset]
  simp only [ofOption_some, ok_bind]
  rw [hmod op.dataLen (by omega), hmod _ (Nat.mod_lt _ (by decide)), husize,
    assert_of (show op.dataLen < 2 ^ (64 - 1) by omega), ok_bind, bind_eq_ok]
  simp only [Source.skip_eq_ok_iff hst.pos hle (show base + op.sortKey ≤ _ by omega) hsmall,
    and_assoc, exists_and_left, exists_eq_left]
  apply and_congr_right
  intro _
  rw [Source.readExact_of_le (by simp only; omega)]
  simp only [ok_bind, hext, hstart, ofOption_some, hdata]
  rw [bind_eq_ok]
  simp only [writeOperation_eq_ok_iff ht hop, and_assoc, exists_and_left, exists_eq_left,
    pure_eq, Outcome.ok.injEq, State.after, Nat.add_assoc,
    Nat.mod_eq_of_lt (show op.sortKey + op.dataLen < 2 ^ 64 by omega)]
  exact and_congr_right fun _ => eq_comm

theorem foldlM_operate_eq_ok_iff {ops : List InstallOperation} {out : List UInt8}
    (hst : AtData base st) (hops : ∀ op ∈ ops, op.Replaces t (st.reader.data.drop base)) :
    (∃ st', ops.foldlM (operate t blockSize) st = .ok st' ∧ st'.outFile = out) ↔
      (st.reader.seekable ∨ Forward st.currDataOffset ops) ∧
        (∀ op ∈ ops, Writable (op.placed t (st.reader.data.drop base) blockSize)) ∧
        out = Write.applyAll st.outFile
          (ops.map fun op => op.placed t (st.reader.data.drop base) blockSize) := by
  induction ops generalizing st with
  | nil =>
      simp only [List.foldlM_nil, pure_eq, Outcome.ok.injEq, exists_eq_left', Forward, or_true,
        List.not_mem_nil, false_imp_iff, implies_true, List.map_nil, true_and]
      exact eq_comm
  | cons op ops ih =>
      obtain ⟨hop, hops⟩ := List.forall_mem_cons.1 hops
      have hstep : ∀ st' : State, ((∃ next, operate t blockSize st op = .ok next ∧
            ops.foldlM (operate t blockSize) next = .ok st') ∧ st'.outFile = out) ↔
          ((st.reader.seekable ∨ st.currDataOffset ≤ op.sortKey) ∧
            Writable (op.placed t (st.reader.data.drop base) blockSize)) ∧
          ops.foldlM (operate t blockSize) (st.after t base blockSize op) = .ok st' ∧
          st'.outFile = out := by
        intro st'
        simp only [operate_eq_ok_iff husize ht hst hop, and_assoc, exists_and_left, exists_eq_left]
      simp only [List.foldlM_cons, bind_eq_ok, hstep, exists_and_left]
      rw [ih (hst.after hop) hops]
      simp only [State.after, List.forall_mem_cons, Forward, List.map_cons, Write.applyAll_cons,
        or_and_left]
      tauto

theorem extractOperations_eq_ok_iff {reader : Source} {ops : List InstallOperation} {out : List UInt8}
    (hpos : reader.pos = base) (hinside : base ≤ reader.data.length)
    (hsmall : reader.data.length < 2 ^ 63)
    (hops : ∀ op ∈ ops, op.Replaces t (reader.data.drop base)) :
    extractOperations t blockSize reader ops = .ok out ↔
      (reader.seekable ∨ Forward 0 (sortOperations ops)) ∧
        (∀ op ∈ ops, Writable (op.placed t (reader.data.drop base) blockSize)) ∧
        out = Write.applyAll []
          ((sortOperations ops).map fun op => op.placed t (reader.data.drop base) blockSize) := by
  have hperm : (sortOperations ops).Perm ops := List.perm_insertionSort _ _
  have hat : AtData base ⟨reader, 0, []⟩ := ⟨hpos, hinside, hsmall⟩
  rw [extractOperations, bind_eq_ok]
  simp only [pure_eq, Outcome.ok.injEq]
  rw [foldlM_operate_eq_ok_iff husize ht hat fun op hop => hops op (hperm.mem_iff.1 hop)]
  simp only [hperm.mem_iff]

end Run

theorem forward_iff {curr : Nat} {ops : List InstallOperation} :
    Forward curr ops ↔ (∀ op ∈ ops, curr ≤ op.sortKey) ∧
      ops.Pairwise fun a b => a.sortKey + a.dataLen ≤ b.sortKey := by
  induction ops generalizing curr with
  | nil => simp [Forward]
  | cons op ops ih =>
      rw [Forward, ih, List.forall_mem_cons, List.pairwise_cons]
      constructor
      · rintro ⟨hcurr, hle, hops⟩
        exact ⟨⟨hcurr, fun other hother => by have := hle other hother; omega⟩, hle, hops⟩
      · rintro ⟨⟨hcurr, -⟩, hle, hops⟩
        exact ⟨hcurr, hle, hops⟩

/-- An empty range at the start of another one, or inside it. -/
def Tied (a b : InstallOperation) : Prop := b.dataLen = 0 ∧ b.sortKey ∈ a.dataRange

section Order

variable {ops : List InstallOperation}

theorem forward_sortOperations (hdata : ops.Pairwise fun a b => Disjoint a.dataRange b.dataRange)
    (hfree : ∀ a ∈ ops, ∀ b ∈ ops, ¬ Tied a b) : Forward 0 (sortOperations ops) := by
  have hperm : (sortOperations ops).Perm ops := List.perm_insertionSort _ _
  have hsorted : (sortOperations ops).Pairwise fun a b => a.sortKey ≤ b.sortKey :=
    List.pairwise_insertionSort _ _
  have hdisjoint : (sortOperations ops).Pairwise fun a b => Disjoint a.dataRange b.dataRange :=
    hdata.perm hperm.symm fun h => h.symm
  rw [forward_iff]
  refine ⟨fun _ _ => Nat.zero_le _, ?_⟩
  refine (hsorted.and hdisjoint).imp_of_mem fun {a b} ha hb hab => ?_
  obtain ⟨hle, hranges⟩ := hab
  have htie := hfree a (hperm.mem_iff.1 ha) b (hperm.mem_iff.1 hb)
  by_contra hback
  -- The later one starts inside the other, so that it must be empty.
  have hmem : b.sortKey ∈ a.dataRange := ⟨hle, by omega⟩
  apply htie
  refine ⟨?_, hmem⟩
  by_contra hlen
  exact Set.disjoint_left.1 hranges hmem ⟨le_rfl, by omega⟩

theorem not_tied_of_forward (hforward : ∀ ops', ops'.Perm ops → Forward 0 (sortOperations ops'))
    {a b : InstallOperation} (ha : a ∈ ops) (hb : b ∈ ops) : ¬ Tied a b := by
  rintro ⟨hlen, hle, hlt⟩
  have hne : b ≠ a := by
    rintro rfl
    omega
  have hsub : [a, b].Sublist (a :: ops.erase a) :=
    (List.singleton_sublist.2 ((List.mem_erase_of_ne hne).2 hb)).cons_cons a
  have hsorted : [a, b].Pairwise fun a b => a.sortKey ≤ b.sortKey := List.pairwise_pair.2 hle
  have hrun := (forward_iff.1 (hforward _ (List.perm_cons_erase ha).symm)).2
  have hback := hrun.sublist (List.sublist_insertionSort hsorted hsub)
  rw [List.pairwise_pair] at hback
  omega

end Order

structure Manifest.Reordered (m m' : Manifest) : Prop where
  blockSize : m'.blockSize = m.blockSize
  minorVersion : m'.minorVersion = m.minorVersion
  partitions : List.Forall₂ (fun p p' => p'.partitionName = p.partitionName ∧
    p'.operations.Perm p.operations) m.partitions m'.partitions

namespace Manifest.Reordered

variable {m m' : Manifest}

theorem refl (m : Manifest) : m.Reordered m where
  blockSize := rfl
  minorVersion := rfl
  partitions := List.forall₂_same.2 fun _ _ => ⟨rfl, .refl _⟩

variable (hm : m.Reordered m')

include hm

theorem find (name : String) :
    Option.Rel (fun p p' : PartitionUpdate => p'.partitionName = p.partitionName ∧
      p'.operations.Perm p.operations) (m.find name) (m'.find name) := by
  have hpartitions := hm.partitions
  rw [Manifest.find, Manifest.find]
  generalize m.partitions = ps, m'.partitions = ps' at hpartitions
  induction hpartitions with
  | nil => exact .none
  | cons hp _ ih =>
      rw [List.find?_cons, List.find?_cons, hp.1]
      split
      · exact .some hp
      · exact ih

theorem select {name : Option String} {p : PartitionUpdate} (hselect : m.select name = .ok p) :
    ∃ p', m'.select name = .ok p' ∧ p'.partitionName = p.partitionName ∧
      p'.operations.Perm p.operations := by
  have hfound : ∀ {x y : Option PartitionUpdate} (error : Error), Option.Rel
      (fun p p' : PartitionUpdate => p'.partitionName = p.partitionName ∧
        p'.operations.Perm p.operations) x y → Outcome.ofOption x error = .ok p →
      ∃ p', Outcome.ofOption y error = .ok p' ∧ p'.partitionName = p.partitionName ∧
        p'.operations.Perm p.operations := by
    rintro x y error (hp | -) hx
    · obtain rfl := Option.some.inj (Outcome.ofOption_eq_ok.1 hx)
      exact ⟨_, rfl, hp⟩
    · cases hx
  cases name with
  | none =>
      apply hfound _ _ hselect
      have hboot := hm.find "boot"
      have hinit := hm.find "init_boot"
      revert hboot hinit
      generalize m.find "init_boot" = x, m'.find "init_boot" = y
      rintro hboot (hp | -)
      · exact .some hp
      · exact hboot
  | some name => exact hfound _ (hm.find name) hselect

end Manifest.Reordered

theorem exists_reordered {m : Manifest} {name : Option String} {p : PartitionUpdate}
    (hselect : m.select name = .ok p) {ops : List InstallOperation} (hperm : ops.Perm p.operations) :
    ∃ m', m.Reordered m' ∧ m'.select name = .ok { p with operations := ops } := by
  let reorder (q : PartitionUpdate) : PartitionUpdate := if q = p then { p with operations := ops } else q
  have hreorder : ∀ q, (reorder q).partitionName = q.partitionName ∧
      (reorder q).operations.Perm q.operations := by
    intro q
    by_cases hq : q = p
    · rw [show reorder q = { p with operations := ops } from if_pos hq, hq]
      exact ⟨rfl, hperm⟩
    · rw [show reorder q = q from if_neg hq]
      exact ⟨rfl, .refl _⟩
  have hfind : ∀ name, ({ m with partitions := m.partitions.map reorder } : Manifest).find name
      = (m.find name).map reorder := by
    intro name
    rw [Manifest.find, Manifest.find, List.find?_map]
    simp only [Function.comp_def, (hreorder _).1]
  have hp : reorder p = { p with operations := ops } := if_pos rfl
  refine ⟨{ m with partitions := m.partitions.map reorder }, ⟨rfl, rfl, ?_⟩, ?_⟩
  · rw [List.forall₂_map_right_iff]
    exact List.forall₂_same.2 fun q _ => hreorder q
  · cases name with
    | none =>
        rw [Manifest.select, ofOption_eq_ok] at hselect ⊢
        rw [hfind, hfind, ← Option.map_or, hselect, Option.map_some, hp]
    | some name =>
        rw [Manifest.select, ofOption_eq_ok] at hselect ⊢
        rw [hfind, hselect, Option.map_some, hp]

/-- A full payload whose operations for a partition replace disjoint ranges by disjoint parts of the
blob. -/
structure FullPayload (t : Tool) (reader : Source) (sigLen : Nat) (m : Manifest) (name : Option String)
    (p : PartitionUpdate) : Prop where
  full : m.minorVersion = 0
  select : m.select name = .ok p
  sigLen_lt : sigLen < 2 ^ 32
  inside : reader.pos + sigLen ≤ reader.data.length
  small : reader.data.length < 2 ^ 63
  replaces : ∀ op ∈ p.operations, op.Replaces t (reader.blob sigLen)
  data : p.operations.Pairwise fun a b => Disjoint a.dataRange b.dataRange
  target : p.operations.Pairwise fun a b =>
    Disjoint (a.target t (reader.blob sigLen) m.blockSize).range
      (b.target t (reader.blob sigLen) m.blockSize).range

/-- In whatever order the operations are given, the output is the same, and it has the content of
every operation in its place. -/
def Extracts (t : Tool) (reader : Source) (sigLen : Nat) (m : Manifest) (name outPath : Option String)
    (p : PartitionUpdate) : Prop :=
  ∃ out, (∀ m', m.Reordered m' → extractManifest t reader sigLen m' name outPath
      = .ok (outPath.getD (p.partitionName ++ ".img"), out)) ∧
    ∀ op ∈ p.operations,
      (op.target t (reader.blob sigLen) m.blockSize).Held out

def Fits (w : Write) : Prop := w.off % 2 ^ 64 < 2 ^ 63 ∧ (w.bytes ≠ [] → w.off + w.bytes.length < 2 ^ 63)

section Full

variable {t : Tool} {reader : Source} {sigLen : Nat} {m : Manifest} {name outPath : Option String}
  {p : PartitionUpdate}

theorem extractManifest_eq_ok_iff (husize : t.usize = 64) {m' : Manifest} {p' : PartitionUpdate}
    (hfull : FullPayload t reader sigLen m name p) (hversion : m'.minorVersion = 0)
    (hselect : m'.select name = .ok p') {out : List UInt8} :
    extractManifest t reader sigLen m' name outPath
        = .ok (outPath.getD (p'.partitionName ++ ".img"), out) ↔
      extractOperations t m'.blockSize { reader with pos := reader.pos + sigLen } p'.operations
        = .ok out := by
  have hsig := hfull.sigLen_lt
  rw [extractManifest, if_neg (not_not.2 hversion), hselect, ok_bind, husize,
    Nat.mod_eq_of_lt (by omega), Source.skip_of_le hfull.inside hfull.small, ok_bind,
    bind_eq_ok]
  simp only [pure_eq, Outcome.ok.injEq, Prod.mk.injEq, true_and, exists_eq_right]

theorem apply_placed {blob : List UInt8} {blockSize : Nat} {op : InstallOperation}
    (hfits : Fits (op.target t blob blockSize)) (out : List UInt8) :
    Writable (op.placed t blob blockSize) ∧
      (op.placed t blob blockSize).apply out = (op.target t blob blockSize).apply out := by
  obtain ⟨hoff, hroom⟩ := hfits
  by_cases hnil : (op.content t blob).getD [] = []
  · refine ⟨⟨hoff, .inl hnil⟩, ?_⟩
    rw [Write.apply_of_nil hnil, Write.apply_of_nil hnil]
  · have hlt : op.startBlock * blockSize + ((op.content t blob).getD []).length < 2 ^ 63 := hroom hnil
    have hplaced : op.placed t blob blockSize = op.target t blob blockSize := by
      rw [InstallOperation.placed, InstallOperation.target, Nat.mod_eq_of_lt (by omega)]
    rw [hplaced]
    exact ⟨⟨by simp only [InstallOperation.target]; omega, .inr hlt⟩, rfl⟩

theorem applyAll_placed {blob : List UInt8} {blockSize : Nat} {ops : List InstallOperation}
    (hfits : ∀ op ∈ ops, Fits (op.target t blob blockSize)) (out : List UInt8) :
    Write.applyAll out (ops.map fun op => op.placed t blob blockSize)
      = Write.applyAll out (ops.map fun op => op.target t blob blockSize) := by
  induction ops generalizing out with
  | nil => rfl
  | cons op ops ih =>
      rw [List.forall_mem_cons] at hfits
      rw [List.map_cons, List.map_cons, Write.applyAll_cons, Write.applyAll_cons,
        (apply_placed hfits.1 out).2, ih hfits.2]

variable (husize : t.usize = 64) (ht : t.ChecksMagic) (hfull : FullPayload t reader sigLen m name p)

include husize ht hfull

theorem extractManifest_reordered {m' : Manifest} (hm : m.Reordered m') {p' : PartitionUpdate}
    (hselect : m'.select name = .ok p') (hname : p'.partitionName = p.partitionName)
    (hperm : p'.operations.Perm p.operations) {out : List UInt8} :
    extractManifest t reader sigLen m' name outPath
        = .ok (outPath.getD (p.partitionName ++ ".img"), out) ↔
      (reader.seekable ∨ Forward 0 (sortOperations p'.operations)) ∧
        (∀ op ∈ p'.operations, Writable (op.placed t (reader.blob sigLen) m.blockSize)) ∧
        out = Write.applyAll [] ((sortOperations p'.operations).map fun op =>
          op.placed t (reader.blob sigLen) m.blockSize) := by
  rw [← hname, extractManifest_eq_ok_iff husize hfull (hm.minorVersion.trans hfull.full) hselect,
    hm.blockSize]
  exact extractOperations_eq_ok_iff husize ht rfl hfull.inside hfull.small
    fun op hop => hfull.replaces op (hperm.mem_iff.1 hop)

theorem fits_of_extracts (hextracts : Extracts t reader sigLen m name outPath p) :
    ∀ op ∈ p.operations, Fits (op.target t (reader.blob sigLen) m.blockSize) := by
  obtain ⟨out, hout, hheld⟩ := hextracts
  obtain ⟨-, hwritable, rfl⟩ := (extractManifest_reordered husize ht hfull (.refl m) hfull.select rfl
    (.refl _)).1 (hout m (.refl m))
  have hperm : (sortOperations p.operations).Perm p.operations := List.perm_insertionSort _ _
  intro op hop
  refine ⟨(hwritable op hop).1, fun hne => ?_⟩
  -- The content is in the output, which is shorter than that.
  have hle := (hheld op hop).length_le hne
  refine lt_of_le_of_lt hle (Write.length_applyAll_lt (by decide) ?_)
  intro w hw
  obtain ⟨other, hother, rfl⟩ := List.mem_map.1 hw
  exact (hwritable other (hperm.mem_iff.1 hother)).2

/-- **Places in the output.** Offsets in the output must not reach `2 ^ 63`, and an input that cannot
seek must not hold an empty range at a place where it can come too late. -/
theorem extracts_iff :
    Extracts t reader sigLen m name outPath p ↔
      (∀ op ∈ p.operations, Fits (op.target t (reader.blob sigLen) m.blockSize)) ∧
      (reader.seekable ∨ ∀ a ∈ p.operations, ∀ b ∈ p.operations, ¬ Tied a b) := by
  constructor
  · intro hextracts
    refine ⟨fits_of_extracts husize ht hfull hextracts, ?_⟩
    obtain ⟨out, hout, -⟩ := hextracts
    rw [or_iff_not_imp_left]
    intro hseek a ha b hb
    refine not_tied_of_forward (fun ops hperm => ?_) ha hb
    obtain ⟨m', hm, hselect⟩ := exists_reordered hfull.select hperm
    exact ((extractManifest_reordered husize ht hfull hm hselect rfl hperm).1 (hout m' hm)).1.resolve_left
      hseek
  · rintro ⟨hfits, horder⟩
    refine ⟨Write.applyAll [] (p.operations.map fun op =>
      op.target t (reader.blob sigLen) m.blockSize), fun m' hm => ?_, ?_⟩
    · obtain ⟨p', hselect, hname, hperm⟩ := hm.select hfull.select
      have hsort : (sortOperations p'.operations).Perm p.operations :=
        (List.perm_insertionSort _ _).trans hperm
      have hdata := hfull.data.perm hperm.symm fun h => h.symm
      rw [extractManifest_reordered husize ht hfull hm hselect hname hperm,
        applyAll_placed fun op hop => hfits op (hsort.mem_iff.1 hop)]
      refine ⟨horder.imp id fun hfree => ?_, fun op hop => ?_, ?_⟩
      · exact forward_sortOperations hdata fun a ha b hb =>
          hfree a (hperm.mem_iff.1 ha) b (hperm.mem_iff.1 hb)
      · exact (apply_placed (hfits op (hperm.mem_iff.1 hop)) []).1
      · exact Write.applyAll_perm (List.pairwise_map.2 hfull.target) (hsort.symm.map _)
    · intro op hop
      exact Write.held_applyAll (List.pairwise_map.2 hfull.target) _ (List.mem_map_of_mem hop)

end Full

def sampleTool : Tool where
  usize := 64
  coders :=
    { Compress.Coders.sample with
      decode := fun fmt stream => if fmt = .xz ∧ stream = packedPair then some [1, 2] else none }
  fromReader _ := none

theorem checksMagic_sampleTool : sampleTool.ChecksMagic := by
  intro fmt hfmt data content hdecode
  have hstream : fmt = .xz ∧ data = packedPair := by
    by_contra hno
    rw [show sampleTool.coders.decode fmt data = none from if_neg hno] at hdecode
    cases hdecode
  obtain ⟨rfl, rfl⟩ := hstream
  exact (by decide : xzMagic <+: packedPair)

def sampleReader : Source := ⟨0 :: 5 :: packedPair, 0, false⟩

def samplePartition : PartitionUpdate where
  partitionName := "boot"
  operations :=
    [⟨.replaceXz, some 1, some 56, [⟨some 0, some 1⟩]⟩, ⟨.replace, some 0, some 1, [⟨some 1, some 1⟩]⟩]

def sampleManifest : Manifest := { partitions := [samplePartition] }

theorem fullPayload_sample :
    FullPayload sampleTool sampleReader 1 sampleManifest none samplePartition where
  full := rfl
  select := by decide
  sigLen_lt := by decide
  inside := by decide
  small := by decide
  replaces := by
    intro op hop
    simp only [samplePartition, List.mem_cons, List.not_mem_nil, or_false] at hop
    rcases hop with rfl | rfl
    · exact ⟨rfl, rfl, ⟨_, rfl, rfl⟩, by decide, by decide⟩
    · exact ⟨rfl, rfl, ⟨_, rfl, rfl⟩, by decide, by decide⟩
  data := by
    rw [samplePartition, List.pairwise_pair]
    exact Set.Ico_disjoint_Ico.2 (by decide)
  target := by
    rw [samplePartition, List.pairwise_pair]
    exact Set.Ico_disjoint_Ico.2 (by decide)

theorem extracts_sample :
    Extracts sampleTool sampleReader 1 sampleManifest none none samplePartition := by
  refine (extracts_iff rfl checksMagic_sampleTool fullPayload_sample).2 ⟨?_, .inr ?_⟩
  · intro op hop
    simp only [samplePartition, List.mem_cons, List.not_mem_nil, or_false] at hop
    rcases hop with rfl | rfl
    · exact ⟨by decide, fun _ => by decide⟩
    · exact ⟨by decide, fun _ => by decide⟩
  · rintro a - b hb ⟨hlen, -⟩
    simp only [samplePartition, List.mem_cons, List.not_mem_nil, or_false] at hb
    rcases hb with rfl | rfl
    · cases hlen
    · cases hlen

def farPartition : PartitionUpdate where
  partitionName := "boot"
  operations := [⟨.replace, some 0, some 1, [⟨some (2 ^ 52), some 1⟩]⟩]

def farManifest : Manifest := { partitions := [farPartition] }

def farReader : Source := ⟨[0, 5], 0, true⟩

theorem fullPayload_far : FullPayload sampleTool farReader 1 farManifest none farPartition where
  full := rfl
  select := by decide
  sigLen_lt := by decide
  inside := by decide
  small := by decide
  replaces := by
    intro op hop
    obtain rfl := List.mem_singleton.1 hop
    exact ⟨rfl, rfl, ⟨_, rfl, rfl⟩, by decide, by decide⟩
  data := List.pairwise_singleton _ _
  target := List.pairwise_singleton _ _

theorem not_extracts_far :
    FullPayload sampleTool farReader 1 farManifest none farPartition ∧
      extractManifest sampleTool farReader 1 farManifest none none = .ok ("boot.img", [5]) ∧
      ¬ Extracts sampleTool farReader 1 farManifest none none farPartition := by
  refine ⟨fullPayload_far, by rfl, fun hextracts => ?_⟩
  have hfits := fits_of_extracts rfl checksMagic_sampleTool fullPayload_far hextracts _
    (List.mem_singleton_self _)
  exact absurd (hfits.2 (by decide)) (by decide)

end MagiskNative.Boot.UpdatePayload
