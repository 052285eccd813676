import MagiskNative.Cpio.Backup
import MagiskNative.Boot.Repack
import MagiskNative.Boot.PayloadExtents

/-!
# Formats with a codec

`get_encoder` and `get_decoder` have an arm for seven formats and abort the process for all others.
For each command the formats that it calls them with are listed. What `unpack`, `repack` and `split` write
depends on the coders of these formats only. The extraction of payloads alone passes a format on without a
look at it.
-/

namespace MagiskNative.Boot

open Bytes Layout Text

inductive EncoderKind where
  | xzWriter
  | lzmaWriter
  | bzEncoder
  | lz4FrameEncoder
  | lz4BlockEncoder (isLg : Bool)
  | gzEncoder
  deriving DecidableEq, Repr

inductive DecoderKind where
  | xzReader
  | lzmaReader
  | bzDecoder
  | lz4FrameDecoder
  | lz4BlockDecoder
  | multiGzDecoder
  deriving DecidableEq, Repr

/-- The arms of `get_encoder`, with `none` for the one that is `unreachable!()`. -/
def getEncoder : FileFormat → Option EncoderKind
  | .xz => some .xzWriter
  | .lzma => some .lzmaWriter
  | .bzip2 => some .bzEncoder
  | .lz4 => some .lz4FrameEncoder
  | .lz4Legacy => some (.lz4BlockEncoder false)
  | .lz4Lg => some (.lz4BlockEncoder true)
  | .gzip => some .gzEncoder
  | _ => none

def getDecoder : FileFormat → Option DecoderKind
  | .xz => some .xzReader
  | .lzma => some .lzmaReader
  | .bzip2 => some .bzDecoder
  | .lz4 => some .lz4FrameDecoder
  | .lz4Lg | .lz4Legacy => some .lz4BlockDecoder
  | .gzip => some .multiGzDecoder
  | _ => none

inductive Call where
  | encoder (format : FileFormat)
  | decoder (format : FileFormat)
  deriving DecidableEq, Repr

namespace Call

def format : Call → FileFormat
  | .encoder format | .decoder format => format

def served : Call → Bool
  | .encoder format => (getEncoder format).isSome
  | .decoder format => (getDecoder format).isSome

theorem served_eq (call : Call) : call.served = fmtCompressed call.format := by
  cases call with
  | encoder format => cases format <;> rfl
  | decoder format => cases format <;> rfl

end Call

section Images

variable (env : Env) (img : BootImg) (files : Files) (skip : Bool)

def decoderCalls (fmt : FileFormat) : List Call :=
  if !skip && fmtCompressed fmt then [.decoder fmt] else []

def blockCalls (fmt : FileFormat) (size : Nat) : List Call :=
  if size ≠ 0 then decoderCalls skip fmt else []

def TableEntry.decoderCalls (e : TableEntry) : List Call :=
  match e.fmt img with
  | some fmt => Boot.decoderCalls skip fmt
  | none => []

def unpackCalls : List Call :=
  blockCalls skip img.kernel.fmt img.kernel.size ++
    (if img.raw.get .vendorRamdiskTableSize ≠ 0 then
      (img.vendorRamdiskTbl.getD []).flatMap (TableEntry.decoderCalls img skip)
    else blockCalls skip img.ramdisk.fmt img.ramdisk.size) ++
    blockCalls skip img.eFmt (img.raw.get .extraSize)

def splitCalls (file : List UInt8) : List Call :=
  match dtbOffset env.fdtAccepts file, checkFmtLg (env.map file) file.length with
  | some _, some fmt => decoderCalls skip fmt
  | _, _ => []

def encoderCalls (fmt : FileFormat) (m : List UInt8) : List Call :=
  if compresses skip fmt m then [.encoder fmt] else []

def TableEntry.encoderCalls (e : TableEntry) : List Call :=
  match e.fmt img with
  | some fmt => Boot.encoderCalls skip fmt ((files.vendorRamdisks (e.fileName 64)).getD [])
  | none => []

def repackCalls : List Call :=
  files.kernel.elim [] (encoderCalls skip img.kernel.fmt) ++
    (if img.raw.get .vendorRamdiskTableSize ≠ 0 then
      (img.vendorRamdiskTbl.getD []).flatMap (TableEntry.encoderCalls img files skip)
    else files.ramdisk.elim [] (encoderCalls skip (ramdiskFmt img skip))) ++
    files.extra.elim [] (encoderCalls skip img.eFmt)

end Images

section Complete

abbrev Coder := FileFormat → List UInt8 → List UInt8

abbrev Env.recode (env : Env) (encode decode : Coder) : Env := { env with encode, decode }

variable {env : Env} {enc dec : Coder} {img : BootImg} {files : Files} {skip : Bool} {fmt : FileFormat}
  {entries : List TableEntry}

variable (env enc dec) in
/-- The call is answered as before by the new coders. -/
def Same : Call → Prop
  | .encoder fmt => enc fmt = env.encode fmt
  | .decoder fmt => dec fmt = env.decode fmt

theorem decompressed_congr (hsame : ∀ call ∈ decoderCalls skip fmt, Same env enc dec call) (stream : List UInt8) :
    (if !skip && fmtCompressed fmt then (env.recode enc dec).decompressBytes fmt stream else stream)
      = if !skip && fmtCompressed fmt then env.decompressBytes fmt stream else stream := by
  by_cases hguard : (!skip && fmtCompressed fmt) = true
  · have hcoder : dec fmt = env.decode fmt := hsame (.decoder fmt) (by simp [decoderCalls, hguard])
    rw [if_pos hguard, if_pos hguard]
    cases fmt <;> first | rfl | exact congrFun hcoder stream
  · rw [if_neg hguard, if_neg hguard]

theorem dumpPart_congr {size : Nat} (hsame : ∀ call ∈ blockCalls skip fmt size, Same env enc dec call)
    (bytes : List UInt8) (old : Option (List UInt8)) :
    dumpPart (env.recode enc dec) skip fmt size bytes old = dumpPart env skip fmt size bytes old := by
  by_cases hsize : size = 0
  · simp [dumpPart, dump, hsize]
  · rw [blockCalls, if_pos hsize] at hsame
    simp only [dumpPart, dump, if_neg hsize, ← apply_ite some, decompressed_congr hsame]

theorem foldlM_dumpEntry_congr (dir : List UInt8 → Option (List UInt8))
    (hsame : ∀ call ∈ entries.flatMap (TableEntry.decoderCalls img skip), Same env enc dec call) :
    entries.foldlM (dumpEntry (env.recode enc dec) img skip) dir = entries.foldlM (dumpEntry env img skip) dir := by
  induction entries generalizing dir with
  | nil => rfl
  | cons e entries ih =>
      rw [List.flatMap_cons, List.forall_mem_append, TableEntry.decoderCalls] at hsame
      simp only [List.foldlM_cons, ih _ hsame.2, dumpEntry]
      cases hfmt : e.fmt img with
      | none => rfl
      | some fmt =>
          rw [hfmt] at hsame
          simp only [Option.bind_eq_bind, Option.bind_some, decompressed_congr hsame.1]

/-- **The calls of unpack.** Decoders that agree on the listed formats unpack the same files. -/
theorem unpackImg_congr (hdr : Bool) (dir : Files)
    (hsame : ∀ call ∈ unpackCalls img skip, Same env enc dec call) :
    unpackImg (env.recode enc dec) img skip hdr dir = unpackImg env img skip hdr dir := by
  rw [unpackCalls, List.forall_mem_append, List.forall_mem_append] at hsame
  obtain ⟨⟨hkernel, hramdisk⟩, hextra⟩ := hsame
  simp only [unpackImg, dumpPart_congr hkernel, dumpPart_congr hextra]
  by_cases htable : img.raw.get .vendorRamdiskTableSize ≠ 0
  · simp only [if_pos htable] at hramdisk ⊢
    cases hentries : img.vendorRamdiskTbl with
    | none => rfl
    | some entries =>
        rw [hentries, Option.getD_some] at hramdisk
        simp only [Option.bind_eq_bind, Option.bind_some, foldlM_dumpEntry_congr _ hramdisk]
  · simp only [if_neg htable] at hramdisk ⊢
    simp only [dumpPart_congr hramdisk]

/-- `split_image_dtb`: the files and the exit code. -/
def splitImageDtb (env : Env) (skipDecomp : Bool) (file : List UInt8) (dir : Files) : Option (Files × Nat) :=
  match dtbOffset env.fdtAccepts file, checkFmtLg (env.map file) file.length with
  | none, _ => some (dir, 1)
  | some off, fmt => fmt.map fun fmt =>
      let kernel :=
        if !skipDecomp && fmtCompressed fmt then env.decompressBytes fmt (file.take off) else file.take off
      ({ dir with kernel, kernelDtb := dump (file.length - off) (file.drop off) dir.kernelDtb }, 0)

theorem splitImageDtb_congr {file : List UInt8} (dir : Files)
    (hsame : ∀ call ∈ splitCalls env skip file, Same env enc dec call) :
    splitImageDtb (env.recode enc dec) skip file dir = splitImageDtb env skip file dir := by
  rw [splitCalls] at hsame
  simp only [splitImageDtb, Env.map] at hsame ⊢
  cases hoff : dtbOffset env.fdtAccepts file with
  | none => rfl
  | some off =>
      cases hfmt : checkFmtLg (pad env.hostPage file) file.length with
      | none => rfl
      | some fmt =>
          rw [hoff, hfmt] at hsame
          simp only [Option.map_some, decompressed_congr hsame]

theorem packed_congr {file : Option (List UInt8)} {m : List UInt8} (hm : file = some m)
    (hsame : ∀ call ∈ file.elim [] (encoderCalls skip fmt), Same env enc dec call) :
    packed (env.recode enc dec) skip fmt m = packed env skip fmt m := by
  rw [packed, packed]
  by_cases hguard : compresses skip fmt m = true
  · have hcoder : enc fmt = env.encode fmt := hsame (.encoder fmt) (by simp [hm, encoderCalls, hguard])
    rw [if_pos hguard, if_pos hguard]
    cases fmt <;> first | rfl | exact congrFun hcoder m
  · rw [if_neg hguard, if_neg hguard]

theorem tableRamdisks_congr (offset : Nat)
    (hsame : ∀ call ∈ entries.flatMap (TableEntry.encoderCalls img files skip), Same env enc dec call) :
    tableRamdisks (env.recode enc dec) img files skip offset entries
      = tableRamdisks env img files skip offset entries := by
  induction entries generalizing offset with
  | nil => rfl
  | cons e entries ih =>
      rw [List.flatMap_cons, List.forall_mem_append, TableEntry.encoderCalls] at hsame
      simp only [tableRamdisks, tableRamdisk, ih _ hsame.2]
      cases hfmt : e.fmt img with
      | none => rfl
      | some fmt =>
          rw [hfmt] at hsame
          simp only [Option.bind_eq_bind, Option.bind_some, packed_congr rfl hsame.1]

theorem segments_congr (hsame : ∀ call ∈ repackCalls img files skip, Same env enc dec call) :
    segments (env.recode enc dec) img files skip = segments env img files skip ∧
      zPayloadSz (env.recode enc dec) img files skip = zPayloadSz env img files skip := by
  rw [repackCalls, List.forall_mem_append, List.forall_mem_append] at hsame
  obtain ⟨⟨hkernel, hramdisk⟩, hextra⟩ := hsame
  have hpayload : ∀ m, files.kernel = some m →
      kernelPayload (env.recode enc dec) img skip m = kernelPayload env img skip m := by
    intro m hm
    rw [kernelPayload, kernelPayload, packed_congr hm hkernel]
  have hextra : extraSegment (env.recode enc dec) img files skip = extraSegment env img files skip := by
    rw [extraSegment, extraSegment]
    cases hm : files.extra with
    | none => rfl
    | some m => simp only [packed_congr hm hextra]
  have hramdisk : ramdiskSegments (env.recode enc dec) img files skip = ramdiskSegments env img files skip := by
    rw [ramdiskSegments, ramdiskSegments]
    by_cases htable : img.raw.get .vendorRamdiskTableSize ≠ 0
    · simp only [if_pos htable] at hramdisk ⊢
      cases hentries : img.vendorRamdiskTbl with
      | none => rfl
      | some entries =>
          rw [hentries, Option.getD_some] at hramdisk
          simp only [Option.bind_eq_bind, Option.bind_some, tableRamdisks_congr _ hramdisk]
    · simp only [if_neg htable, ramdiskSegment] at hramdisk ⊢
      cases hm : files.ramdisk with
      | none => rfl
      | some m => simp only [packed_congr hm hramdisk]
  rw [segments, segments, hextra, hramdisk, kernelSegment, kernelSegment, kernelBody, kernelBody, zPayloadSz,
    zPayloadSz]
  cases hm : files.kernel with
  | none => cases img.kernel.zInfo <;> exact ⟨rfl, rfl⟩
  | some m => cases img.kernel.zInfo <;> simp only [hpayload m hm, and_self]

/-- **The calls of repack.** Encoders that agree on the listed formats give the same image. -/
theorem repackImg_congr (hsame : ∀ call ∈ repackCalls img files skip, Same env enc dec call) :
    repackImg (env.recode enc dec) img files skip = repackImg env img files skip := by
  obtain ⟨hsegments, hsize⟩ := segments_congr hsame
  have hwrite : writeImg (env.recode enc dec) img files skip = writeImg env img files skip := by
    rw [writeImg, writeImg, hsegments]
    rfl
  have hheader : withHeader (env.recode enc dec) img files skip = withHeader env img files skip := by
    funext w
    simp only [withHeader, patched, patchStub, hsize]
    rfl
  rw [repackImg, repackImg, hwrite, hheader]
  rfl

end Complete

section SingleFiles

open Compress (System)

def FileFormat.fromStr (s : String) : Option FileFormat :=
  if s = "gzip" then some .gzip
  else if s = "xz" then some .xz
  else if s = "lzma" then some .lzma
  else if s = "bzip2" then some .bzip2
  else if s = "lz4" then some .lz4
  else if s = "lz4_legacy" then some .lz4Legacy
  else if s = "lz4_lg" then some .lz4Lg
  else none

/-- The format that the name of the command asks for, as `compress=xz`. -/
def compressFormat (cmd : String) : Option FileFormat :=
  FileFormat.fromStr
    (if StartsWith cmd "compress=" then String.ofList (cmd.toList.drop 9) else "gzip")

def compressCalls (sys : System) (cmd infile : String) : List Call :=
  match compressFormat cmd, sys.read infile with
  | some format, .ok _ => [.encoder format]
  | _, _ => []

def decompressCalls (sys : System) (len : Nat) (infile : String) (outfile : Option String) :
    List Call :=
  match sys.read infile with
  | .error _ => []
  | .ok content =>
      let format := checkFmt (content.take len)
      if fmtCompressed format then
        if outfile.isSome ∨ infile = "-" then [.decoder format]
        else
          match rsplitOnce infile '.' with
          | none => []
          | some (_, ext) => if ext = format.ext then [.decoder format] else []
      else []

end SingleFiles

section Ramdisks

open Cpio OrderedMap

def isRegular (entry : CpioEntry) : Bool := entry.mode &&& CpioEntry.sIfmt == CpioEntry.sIfreg

def backupCalls (skipCompress : Bool) (o self : CpioEntries) : List Call :=
  ((fullJoin (rm o ".backup" true).toList (rm self ".backup" true).toList).map action).flatMap fun
    | .backup _ entry => if !skipCompress && isRegular entry then [.encoder .xz] else []
    | _ => []

def restoreCalls (self : CpioEntries) : List Call :=
  (self.toList.filter fun e => StartsWith e.1 ".backup/").flatMap fun (name, entry) =>
    if name ≠ ".backup/.rmlist" ∧ name ≠ ".backup/.magisk" ∧ EndsWith name ".xz" ∧ isRegular entry then
      [.decoder .xz]
    else []

end Ramdisks

section Payloads

open UpdatePayload

variable (t : Tool) (blockSize : Nat)

def operationCalls (st : State) (op : InstallOperation) : List Call :=
  if op.typePb = .replaceBz ∨ op.typePb = .replaceXz then
    match fetch t st op, op.outOffset blockSize with
    | .ok (data, _), .ok outOffset => if outOffset < 2 ^ 63 then [.decoder (checkFmt data)] else []
    | _, _ => []
  else []

def runCalls : State → List InstallOperation → List Call
  | _, [] => []
  | st, op :: ops =>
      operationCalls t blockSize st op ++
        match operate t blockSize st op with
        | .ok st' => runCalls st' ops
        | _ => []

def openPayload (reader : Source) (partitionName : Option String) :
    Outcome UpdatePayload.Error (Source × Manifest × PartitionUpdate) := do
  let (m, manifestSigLen, reader) ← readManifest t reader
  if m.minorVersion ≠ 0 then
    .err (.badPayload "delta payloads are not supported, please use a full payload file")
  else
    let partition ← m.select partitionName
    let reader ← reader.skip (manifestSigLen % 2 ^ t.usize)
    return (reader, m, partition)

def extractCalls (reader : Source) (partitionName : Option String) : List Call :=
  match openPayload t reader partitionName with
  | .ok (reader, m, partition) =>
      runCalls t m.blockSize ⟨reader, 0, []⟩ (sortOperations partition.operations)
  | _ => []

theorem extractBootFromPayload_eq (reader : Source) (partitionName outPath : Option String) :
    extractBootFromPayload t reader partitionName outPath = do
      let (reader, m, partition) ← openPayload t reader partitionName
      let outFile ← extractOperations t m.blockSize reader partition.operations
      return (outPath.getD (partition.partitionName ++ ".img"), outFile) := by
  simp only [extractBootFromPayload, openPayload, extractManifest, bind_assoc, Outcome.ite_bind,
    Outcome.err_bind, Outcome.pure_eq, Outcome.ok_bind]

end Payloads

section Runs

open UpdatePayload

variable {t : Tool} {blockSize : Nat}

variable {op : InstallOperation} {st : State}

theorem mem_operationCalls {call : Call} :
    call ∈ operationCalls t blockSize st op ↔
      (op.typePb = .replaceBz ∨ op.typePb = .replaceXz) ∧
        ∃ data behind off, fetch t st op = .ok (data, behind) ∧ op.outOffset blockSize = .ok off ∧
          off < 2 ^ 63 ∧ call = .decoder (checkFmt data) := by
  rw [operationCalls]
  by_cases htype : op.typePb = .replaceBz ∨ op.typePb = .replaceXz
  · rw [if_pos htype, and_iff_right htype]
    cases fetch t st op with
    | ok read =>
        cases op.outOffset blockSize with
        | ok off => simp [Prod.ext_iff]
        | err error => simp
        | panic => simp
    | err error => simp
    | panic => simp
  · rw [if_neg htype]
    exact iff_of_false List.not_mem_nil fun h => htype h.1

theorem mem_runCalls {ops : List InstallOperation} {call : Call} :
    call ∈ runCalls t blockSize st ops ↔
      ∃ before op after st', ops = before ++ op :: after ∧
        before.foldlM (operate t blockSize) st = .ok st' ∧ call ∈ operationCalls t blockSize st' op := by
  induction ops generalizing st with
  | nil =>
      refine iff_of_false List.not_mem_nil ?_
      rintro ⟨before, op, after, st', hops, -⟩
      exact List.append_ne_nil_of_right_ne_nil before (List.cons_ne_nil op after) hops.symm
  | cons op ops ih =>
      rw [runCalls, List.mem_append]
      constructor
      · rintro (hcall | hcall)
        · exact ⟨[], op, ops, st, rfl, rfl, hcall⟩
        · cases hrun : operate t blockSize st op with
          | ok next =>
              rw [hrun] at hcall
              obtain ⟨before, op', after, st', rfl, hbefore, hcall⟩ := ih.1 hcall
              refine ⟨op :: before, op', after, st', rfl, ?_, hcall⟩
              rw [List.foldlM_cons, hrun]
              exact hbefore
          | err error =>
              rw [hrun] at hcall
              cases hcall
          | panic =>
              rw [hrun] at hcall
              cases hcall
      · rintro ⟨before, op', after, st', hops, hbefore, hcall⟩
        cases before with
        | nil =>
            obtain ⟨rfl, rfl⟩ := List.cons.inj hops
            rw [Outcome.ok.inj hbefore]
            exact .inl hcall
        | cons first before =>
            obtain ⟨rfl, rfl⟩ := List.cons.inj hops
            rw [List.foldlM_cons] at hbefore
            obtain ⟨next, hrun, hbefore⟩ := Outcome.bind_eq_ok.1 hbefore
            rw [hrun]
            exact .inr (ih.2 ⟨before, op', after, st', rfl, hbefore, hcall⟩)

end Runs

section Requests

open UpdatePayload (Tool Source GetsTo fetch)

inductive Request where
  | unpack (file : List UInt8) (skipDecomp : Bool)
  | repack (file : List UInt8) (files : Files) (skipComp : Bool)
  | split (file : List UInt8) (skipDecomp : Bool)
  | decompress (sys : Compress.System) (len : Nat) (infile : String) (outfile : Option String)
  | compress (sys : Compress.System) (cmd infile : String)
  | extract (t : Tool) (reader : Source) (partitionName : Option String)
  | backup (skipCompress : Bool) (o self : CpioEntries)
  | restore (self : CpioEntries)

def Request.calls (env : Env) : Request → List Call
  | .unpack file skipDecomp => (load env file).elim [] fun img => unpackCalls img skipDecomp
  | .repack file files skipComp => (load env file).elim [] fun img => repackCalls img files skipComp
  | .split file skipDecomp => splitCalls env skipDecomp file
  | .decompress sys len infile outfile => decompressCalls sys len infile outfile
  | .compress sys cmd infile => compressCalls sys cmd infile
  | .extract t reader partitionName => extractCalls t reader partitionName
  | .backup skipCompress o self => backupCalls skipCompress o self
  | .restore self => restoreCalls self

def Decodable (t : Tool) (reader : Source) (partitionName : Option String) : Prop :=
  ∀ reader' m partition, openPayload t reader partitionName = .ok (reader', m, partition) →
    ∀ st op data behind off, GetsTo t m.blockSize reader' partition.operations st op →
      op.typePb = .replaceBz ∨ op.typePb = .replaceXz → fetch t st op = .ok (data, behind) →
      op.outOffset m.blockSize = .ok off → off < 2 ^ 63 → fmtCompressed (checkFmt data)

def AllServed (calls : List Call) : Prop := ∀ call ∈ calls, call.served

namespace AllServed

theorem nil : AllServed [] := List.forall_mem_nil _

theorem one {call : Call} (hfmt : fmtCompressed call.format) : AllServed [call] := by
  rw [AllServed, List.forall_mem_singleton, Call.served_eq]
  exact hfmt

theorem append {a b : List Call} (ha : AllServed a) (hb : AllServed b) : AllServed (a ++ b) :=
  List.forall_mem_append.2 ⟨ha, hb⟩

theorem ite {p : Prop} [Decidable p] {a b : List Call} (ha : p → AllServed a) (hb : AllServed b) :
    AllServed (if p then a else b) := by
  split
  · rename_i hp
    exact ha hp
  · exact hb

theorem elim {α : Type} {calls : α → List Call} (hcalls : ∀ x, AllServed (calls x)) (x : Option α) :
    AllServed (x.elim [] calls) := by
  cases x with
  | none => exact nil
  | some x => exact hcalls x

theorem flatMap {α : Type} {calls : α → List Call} (hcalls : ∀ x, AllServed (calls x)) (xs : List α) :
    AllServed (xs.flatMap calls) := by
  intro call hcall
  obtain ⟨x, -, hx⟩ := List.mem_flatMap.1 hcall
  exact hcalls x call hx

end AllServed

section Guards

variable (img : BootImg) (files : Files) (skip : Bool)

theorem allServed_decoderCalls (fmt : FileFormat) : AllServed (decoderCalls skip fmt) :=
  .ite (fun hguard => .one (Bool.and_eq_true_iff.1 hguard).2) .nil

theorem allServed_blockCalls (fmt : FileFormat) (size : Nat) : AllServed (blockCalls skip fmt size) :=
  .ite (fun _ => allServed_decoderCalls skip fmt) .nil

theorem allServed_encoderCalls (fmt : FileFormat) (m : List UInt8) : AllServed (encoderCalls skip fmt m) :=
  .ite (fun hguard => .one (Bool.and_eq_true_iff.1 hguard).2) .nil

theorem allServed_unpackCalls : AllServed (unpackCalls img skip) := by
  refine .append (.append (allServed_blockCalls _ _ _) (.ite (fun _ => ?_) (allServed_blockCalls _ _ _)))
    (allServed_blockCalls _ _ _)
  refine .flatMap (fun e => ?_) _
  rw [TableEntry.decoderCalls]
  split
  · exact allServed_decoderCalls _ _
  · exact .nil

theorem allServed_repackCalls : AllServed (repackCalls img files skip) := by
  have hfile : ∀ (fmt : FileFormat) (m : Option (List UInt8)),
      AllServed (m.elim [] (encoderCalls skip fmt)) := fun fmt m => .elim (allServed_encoderCalls skip fmt) m
  refine .append (.append (hfile _ _) (.ite (fun _ => ?_) (hfile _ _))) (hfile _ _)
  refine .flatMap (fun e => ?_) _
  rw [TableEntry.encoderCalls]
  split
  · exact allServed_encoderCalls _ _ _
  · exact .nil

theorem allServed_splitCalls (env : Env) (file : List UInt8) : AllServed (splitCalls env skip file) := by
  rw [splitCalls]
  split
  · exact allServed_decoderCalls _ _
  · exact .nil

theorem fmtCompressed_of_compressFormat {cmd : String} {format : FileFormat}
    (hformat : compressFormat cmd = some format) : fmtCompressed format := by
  rw [compressFormat, FileFormat.fromStr] at hformat
  split_ifs at hformat <;> cases hformat <;> rfl

theorem allServed_compressCalls (sys : Compress.System) (cmd infile : String) :
    AllServed (compressCalls sys cmd infile) := by
  rw [compressCalls]
  split
  · rename_i hformat _
    exact .one (fmtCompressed_of_compressFormat hformat)
  · exact .nil

theorem allServed_decompressCalls (sys : Compress.System) (len : Nat) (infile : String)
    (outfile : Option String) : AllServed (decompressCalls sys len infile outfile) := by
  rw [decompressCalls]
  split
  · exact .nil
  · refine .ite (fun hfmt => .ite (fun _ => .one hfmt) ?_) .nil
    split
    · exact .nil
    · exact .ite (fun _ => .one hfmt) .nil

theorem allServed_backupCalls (o self : CpioEntries) : AllServed (backupCalls skip o self) := by
  refine .flatMap (fun action => ?_) _
  split
  · exact .ite (fun _ => .one rfl) .nil
  · exact .nil

theorem allServed_restoreCalls (self : CpioEntries) : AllServed (restoreCalls self) :=
  .flatMap (fun _ => .ite (fun _ => .one rfl) .nil) _

end Guards

theorem served_extractCalls_iff {t : Tool} {reader : Source} {partitionName : Option String} :
    (∀ call ∈ extractCalls t reader partitionName, call.served) ↔ Decodable t reader partitionName := by
  rw [extractCalls, Decodable]
  constructor
  · intro hserved reader' m partition hopen st op data behind off hgets htype hfetch hoff hlt
    rw [hopen] at hserved
    obtain ⟨before, after, hops, hbefore⟩ := hgets
    have hcall := hserved (.decoder (checkFmt data)) (mem_runCalls.2 ⟨before, op, after, st, hops, hbefore,
      mem_operationCalls.2 ⟨htype, data, behind, off, hfetch, hoff, hlt, rfl⟩⟩)
    rwa [Call.served_eq] at hcall
  · intro hdecodable call hcall
    split at hcall
    · rename_i reader' m partition hopen
      obtain ⟨before, op, after, st, hops, hbefore, hcall⟩ := mem_runCalls.1 hcall
      obtain ⟨htype, data, behind, off, hfetch, hoff, hlt, rfl⟩ := mem_operationCalls.1 hcall
      rw [Call.served_eq]
      exact hdecodable reader' m partition hopen st op data behind off ⟨before, after, hops, hbefore⟩ htype
        hfetch hoff hlt
    · cases hcall

/-- **Formats with a codec.** Every command looks at a format before it asks for a coder, with the
exception of the extraction from payloads, which depends on the streams in them. -/
theorem served_calls_iff (env : Env) (request : Request) :
    (∀ call ∈ request.calls env, call.served) ↔
      ∀ t reader partitionName, request = .extract t reader partitionName →
        Decodable t reader partitionName := by
  have hserved : ∀ {calls : List Call}, AllServed calls →
      (∀ t reader partitionName, request ≠ .extract t reader partitionName) →
      ((∀ call ∈ calls, call.served) ↔ ∀ t reader partitionName,
        request = .extract t reader partitionName → Decodable t reader partitionName) :=
    fun hcalls hother => iff_of_true hcalls fun t reader name heq => absurd heq (hother t reader name)
  cases request with
  | unpack file skipDecomp =>
      exact hserved (.elim (fun img => allServed_unpackCalls img skipDecomp) _) nofun
  | repack file files skipComp =>
      exact hserved (.elim (fun img => allServed_repackCalls img files skipComp) _) nofun
  | split file skipDecomp => exact hserved (allServed_splitCalls skipDecomp env file) nofun
  | decompress sys len infile outfile =>
      exact hserved (allServed_decompressCalls sys len infile outfile) nofun
  | compress sys cmd infile => exact hserved (allServed_compressCalls sys cmd infile) nofun
  | extract t reader partitionName =>
      rw [Request.calls, served_extractCalls_iff]
      constructor
      · rintro hdecodable t' reader' name heq
        cases heq
        exact hdecodable
      · intro hdecodable
        exact hdecodable t reader partitionName rfl
  | backup skipCompress o self => exact hserved (allServed_backupCalls skipCompress o self) nofun
  | restore self => exact hserved (allServed_restoreCalls self) nofun

def rawTool : Tool where
  usize := 64
  coders := Compress.Coders.sample
  fromReader _ := some
    { partitions := [⟨"boot", [⟨.replaceBz, some 0, some 1, [⟨some 0, some 1⟩]⟩]⟩] }

def rawPayload : Source where
  data := UpdatePayload.payloadMagic ++ beBytes 8 2 ++ beBytes 8 1 ++ beBytes 4 1 ++ [0, 0, 7]
  pos := 0
  seekable := true

theorem not_served_rawPayload :
    (¬ ∀ call ∈ (Request.extract rawTool rawPayload none).calls sampleEnv, call.served) ∧
      UpdatePayload.extractBootFromPayload rawTool rawPayload none none = .panic := by
  constructor
  · intro hserved
    exact absurd (hserved (.decoder .unknown) (by decide)) (by decide)
  · decide

end Requests

end MagiskNative.Boot
