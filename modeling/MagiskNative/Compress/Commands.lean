import MagiskNative.Boot.Env

/-!
# The commands compress and decompress

`compress_cmd` writes a stream next to its input and removes the input; `decompress_cmd` takes the
format from the first bytes of its input, the name of its output from the extension, and needs the two
to agree. The libraries for the formats other than the LZ4 blocks are parameters.
-/

namespace MagiskNative.Compress

open Boot Text

variable {codec : Codec} {d : Decoder} {method : FileFormat} {content stream : List UInt8}

structure Coders where
  /-- gzip, xz, lzma, bzip2 and lz4 frames: what the pieces of a copy and `finish` write -/
  encode : FileFormat → List (List UInt8) → Option (List UInt8)
  decode : FileFormat → List UInt8 → Option (List UInt8)
  lz4 : Codec
  split : List UInt8 → List (List UInt8)
  flatten_split : ∀ x, (split x).flatten = x
  ne_nil_of_mem_split : ∀ x, ∀ piece ∈ split x, piece ≠ []
  /-- the input buffer of a new LZ4 decoder, and where its reads come short -/
  inBuf : List UInt8
  length_inBuf : inBuf.length = compressBound lz4BlockSize
  events : List Reader.Event
  onlyShort : Reader.OnlyShort events

structure System where
  files : String → Option (List UInt8)
  stdin : List UInt8
  stdout : List UInt8

inductive Failure where
  | io
  | logged (message : String)
  deriving DecidableEq, Repr

inductive Output where
  | stdOut
  | file (name : String)
  deriving DecidableEq, Repr

namespace System

variable (sys : System)

def read (infile : String) : Except Failure (List UInt8) :=
  if infile = "-" then .ok sys.stdin
  else
    match sys.files infile with
    | none => .error .io
    | some content => .ok content

def write (output : Output) (content : List UInt8) : System :=
  match output with
  | .stdOut => { sys with stdout := sys.stdout ++ content }
  | .file name => { sys with files := Function.update sys.files name (some content) }

def remove (name : String) : System :=
  { sys with files := Function.update sys.files name none }

theorem files_write (name : String) (content : List UInt8) :
    (sys.write (.file name) content).files = Function.update sys.files name (some content) := rfl

theorem files_remove (name : String) :
    (sys.remove name).files = Function.update sys.files name none := rfl

end System

def packedName (infile : String) (method : FileFormat) : String :=
  infile ++ String.singleton '.' ++ method.ext

def outputOf (outfile : String) : Output := if outfile = "-" then .stdOut else .file outfile

def Decoder.copyAll (codec : Codec) (d : Decoder) : Except Reader.Error (List UInt8) :=
  match _hread : Decoder.read codec d copyBufSize with
  | (.ok [], _) => .ok []
  | (.ok (b :: out), d') =>
      match copyAll codec d' with
      | .ok rest => .ok (b :: out ++ rest)
      | .error e => .error e
  | (.error e, _) => .error e
termination_by (d.reader.data.length, d.pending.length)
decreasing_by
  rcases read_decreases _hread with hlt | ⟨heq, hlt⟩
  · exact Prod.Lex.left _ _ hlt
  · rw [heq]
    exact Prod.Lex.right _ hlt

namespace Coders

variable (c : Coders)

def compress (format : FileFormat) (content : List UInt8) : Except Failure (List UInt8) :=
  let stream :=
    match format with
    | .lz4Legacy => Compress.encode c.lz4 false (c.split content)
    | .lz4Lg => Compress.encode c.lz4 true (c.split content)
    | format => c.encode format (c.split content)
  match stream with
  | none => .error .io
  | some stream => .ok stream

def decompress (format : FileFormat) (stream : List UInt8) : Except Failure (List UInt8) :=
  match format with
  | .lz4Legacy | .lz4Lg =>
      match (Decoder.new stream c.events c.inBuf).copyAll c.lz4 with
      | .ok content => .ok content
      | .error _ => .error .io
  | format =>
      match c.decode format stream with
      | none => .error .io
      | some content => .ok content

def decompressCmd (sys : System) (infile : String) (outfile : Option String) : Except Failure System := do
  let content ← sys.read infile
  let format := checkFmt (content.take 4096)
  if fmtCompressed format then
    match outfile with
    | some outfile => return sys.write (outputOf outfile) (← c.decompress format content)
    | none =>
        if infile = "-" then return sys.write .stdOut (← c.decompress format content)
        else
          -- strip out the extension and remove the input
          match rsplitOnce infile '.' with
          | none => throw (.logged "Input file is not a supported type!")
          | some (outfile, ext) =>
              if ext = format.ext then
                return (sys.write (.file outfile) (← c.decompress format content)).remove infile
              else throw (.logged "Input file is not a supported type!")
  else throw (.logged "Input file is not a supported type!")

def compressCmd (sys : System) (method : FileFormat) (infile : String) (outfile : Option String) :
    Except Failure System := do
  let content ← sys.read infile
  match outfile with
  | some outfile => return sys.write (outputOf outfile) (← c.compress method content)
  | none =>
      if infile = "-" then return sys.write .stdOut (← c.compress method content)
      else
        return (sys.write (.file (packedName infile method)) (← c.compress method content)).remove infile

structure Lawful : Prop where
  lz4 : c.lz4.Lawful
  library : ∀ format ∈ [FileFormat.gzip, .xz, .lzma, .bzip2, .lz4], ∀ pieces, ∃ stream,
    c.encode format pieces = some stream ∧ HasMagic stream format ∧
      c.decode format stream = some pieces.flatten

def Recreates (sys : System) (method : FileFormat) (name : String) (content : List UInt8) : Prop :=
  ∃ packed sys', c.compressCmd sys method name none = .ok packed ∧
    c.decompressCmd packed (packedName name method) none = .ok sys' ∧
    sys'.files name = some content

theorem copyAll_of_read {d' : Decoder} {out rest : List UInt8} (hout : out ≠ [])
    (hread : Decoder.read codec d copyBufSize = (.ok out, d')) (hrest : d'.copyAll codec = .ok rest) :
    d.copyAll codec = .ok (out ++ rest) := by
  obtain ⟨b, out, rfl⟩ := List.exists_cons_of_ne_nil hout
  rw [Decoder.copyAll]
  split
  · rename_i hread'
    rw [hread] at hread'
    cases hread'
  · rename_i hread'
    rw [hread] at hread'
    cases hread'
    rw [hrest]
  · rename_i hread'
    rw [hread] at hread'
    cases hread'

theorem copyAll_of_eof {d' : Decoder}
    (hread : Decoder.read codec d copyBufSize = (.ok [], d')) : d.copyAll codec = .ok [] := by
  rw [Decoder.copyAll]
  split
  · rfl
  · rename_i hread'
    rw [hread] at hread'
    cases hread'
  · rename_i hread'
    rw [hread] at hread'
    cases hread'

theorem copyAll_serves {tail x : List UInt8}
    (htail : Decoder.CleanTail tail) (hd : Serves codec tail d x) : d.copyAll codec = .ok x := by
  induction hn : x.length using Nat.strong_induction_on generalizing d x with
  | _ n ih =>
      by_cases hx : x = []
      · subst hx
        obtain ⟨d', hread, -⟩ := Decoder.read_eof htail hd copyBufSize
        exact copyAll_of_eof hread
      · obtain ⟨out, d', x', hread, hout, rfl, hd'⟩ :=
          Decoder.read_serves hd hx (by decide : 0 < copyBufSize)
        have hpos := List.length_pos_of_ne_nil hout
        rw [List.length_append] at hn
        exact copyAll_of_read hout hread (ih x'.length (by omega) hd' rfl)

section

variable {c : Coders} (hc : c.Lawful)

include hc

theorem compress_library
    (hmethod : method ∈ [FileFormat.gzip, .xz, .lzma, .bzip2, .lz4]) (content : List UInt8) :
    ∃ stream, c.compress method content = .ok stream ∧ HasMagic stream method ∧
      c.decompress method stream = .ok content := by
  obtain ⟨stream, hencode, hmagic, hdecode⟩ := hc.library method hmethod (c.split content)
  rw [c.flatten_split] at hdecode
  refine ⟨stream, ?_, hmagic, ?_⟩
  · cases method <;> simp_all [compress]
  · cases method <;> simp_all [decompress]

theorem compress_blocks (hmethod : method ∈ [FileFormat.lz4Legacy, .lz4Lg])
    (hne : content ≠ []) (hlt : content.length < 2 ^ 32)
    (htotal : content.length ≠ lz4Magic) :
    ∃ stream, c.compress method content = .ok stream ∧ HasMagic stream .lz4Legacy ∧
      c.decompress .lz4Legacy stream = .ok content := by
  have hcontent := c.flatten_split content
  have hwrites : ∀ isLg, ∃ stream, Compress.encode c.lz4 isLg (c.split content) = some stream ∧
      HasMagic stream .lz4Legacy ∧ c.decompress .lz4Legacy stream = .ok content := by
    intro isLg
    obtain ⟨chunks, hencode, hchunks, hsizes⟩ := encode_eq hc.lz4.bounded isLg (c.ne_nil_of_mem_split content)
      (by rwa [hcontent]) (by rwa [hcontent])
    rw [hcontent] at hencode hchunks
    refine ⟨_, hencode, ⟨_, (List.append_assoc _ _ _).symm⟩, ?_⟩
    have htail : Archive c.lz4 (if isLg then Bytes.leBytes 4 content.length else [])
        (if isLg then Bytes.leBytes 4 content.length else []) [] := .done
    have harchive := archive_stream hc.lz4 htail (by rwa [hchunks]) hsizes
    rw [List.append_nil, hchunks] at harchive
    have hclean : Decoder.CleanTail (if isLg then Bytes.leBytes 4 content.length else []) := by
      cases isLg with
      | false => exact .inl rfl
      | true => exact .inr ⟨_, hlt, htotal, rfl⟩
    have hcopy := copyAll_serves hclean (d := Decoder.new _ c.events c.inBuf)
      ⟨c.length_inBuf, c.onlyShort, content, harchive, rfl⟩
    rw [decompress, hcopy]
    rfl
  rcases List.mem_pair.1 hmethod with rfl | rfl
  · obtain ⟨stream, hencode, hstream⟩ := hwrites false
    exact ⟨stream, by rw [compress, hencode], hstream⟩
  · obtain ⟨stream, hencode, hstream⟩ := hwrites true
    exact ⟨stream, by rw [compress, hencode], hstream⟩

end

theorem split_nil (c : Coders) : c.split [] = [] := by
  cases hsplit : c.split [] with
  | nil => rfl
  | cons piece pieces =>
      have hmem : piece ∈ c.split [] := by
        rw [hsplit]
        exact List.mem_cons_self
      exact absurd (List.flatten_eq_nil_iff.1 (c.flatten_split []) piece hmem)
        (c.ne_nil_of_mem_split [] piece hmem)

theorem compress_blocks_nil (c : Coders) (hmethod : method ∈ [FileFormat.lz4Legacy, .lz4Lg]) :
    ∃ stream, c.compress method [] = .ok stream ∧ checkFmt (stream.take 4096) = .unknown := by
  rcases List.mem_pair.1 hmethod with rfl | rfl
  · refine ⟨[], ?_, by rfl⟩
    rw [compress, split_nil]
    rfl
  · refine ⟨[0, 0, 0, 0], ?_, by rfl⟩
    rw [compress, split_nil]
    rfl

section

variable {c : Coders} {sys : System} {method : FileFormat} {name : String}

theorem packedName_ne (method : FileFormat) (name : String) :
    packedName name method ≠ name ∧
      packedName name method ≠ "-" := by
  have hlength : (packedName name method).toList.length
      = name.toList.length + 1 + method.ext.toList.length := by
    rw [packedName, String.toList_append, String.toList_append, List.length_append, List.length_append]
    rfl
  constructor
  · intro heq
    rw [heq] at hlength
    omega
  · intro heq
    have hdot : '.' ∈ (packedName name method).toList := by
      simp [packedName]
    rw [heq] at hdot
    exact absurd hdot (by decide)

theorem rsplitOnce_packedName (method : FileFormat) (name : String) :
    rsplitOnce (packedName name method) '.' = some (name, method.ext) := by
  apply rsplitOnce_append
  cases method <;> decide

theorem compressCmd_eq (hname : name ≠ "-")
    (hfile : sys.files name = some content) (hcompress : c.compress method content = .ok stream) :
    c.compressCmd sys method name none
      = .ok ((sys.write (.file (packedName name method)) stream).remove name) := by
  simp only [compressCmd, System.read, if_neg hname, hfile, bind, Except.bind, hcompress]
  rfl

theorem decompressCmd_eq (hfile : sys.files (packedName name method) = some stream) :
    c.decompressCmd sys (packedName name method) none =
      if fmtCompressed (checkFmt (stream.take 4096)) ∧ (checkFmt (stream.take 4096)).ext = method.ext then
        (c.decompress (checkFmt (stream.take 4096)) stream).map fun content =>
          (sys.write (.file name) content).remove (packedName name method)
      else .error (.logged "Input file is not a supported type!") := by
  simp only [decompressCmd, System.read, if_neg (packedName_ne method name).2, hfile, bind, Except.bind,
    rsplitOnce_packedName]
  by_cases hformat : fmtCompressed (checkFmt (stream.take 4096))
  · by_cases hext : method.ext = (checkFmt (stream.take 4096)).ext
    · rw [if_pos hformat, if_pos hext, if_pos ⟨hformat, hext.symm⟩]
      rfl
    · rw [if_pos hformat, if_neg hext, if_neg fun h => hext h.2.symm]
      rfl
  · rw [if_neg hformat, if_neg fun h => hformat h.1]
    rfl

theorem recreates_iff_of_stream (hname : name ≠ "-")
    (hfile : sys.files name = some content) (hcompress : c.compress method content = .ok stream) :
    c.Recreates sys method name content ↔
      fmtCompressed (checkFmt (stream.take 4096)) ∧ (checkFmt (stream.take 4096)).ext = method.ext ∧
      c.decompress (checkFmt (stream.take 4096)) stream = .ok content := by
  have hne := (packedName_ne method name).1
  have hpacked : ((sys.write (.file (packedName name method)) stream).remove name).files
      (packedName name method) = some stream := by
    rw [System.files_remove, Function.update_of_ne hne, System.files_write, Function.update_self]
  rw [Recreates, compressCmd_eq hname hfile hcompress]
  simp only [Except.ok.injEq, exists_and_left, exists_eq_left', decompressCmd_eq hpacked]
  split
  · rename_i hformat
    cases hdecompress : c.decompress (checkFmt (stream.take 4096)) stream with
    | error failure => simp [Except.map]
    | ok content' =>
        simp [hformat, Except.map, System.files_remove, System.files_write, hne.symm]
  · rename_i hformat
    simp only [reduceCtorEq, false_and, exists_false, false_iff]
    exact fun h => hformat ⟨h.1, h.2.1⟩

end

/-- **Compressing and decompressing.** A file comes back from every supported method, except that an
empty one does not come back from the LZ4 block formats. -/
theorem recreates_iff {c : Coders} (hc : c.Lawful) (hmethod : fmtCompressed method)
    {sys : System} {name : String} (hname : name ≠ "-")
    (hfile : sys.files name = some content) (hlt : content.length < 2 ^ 32)
    (htotal : content.length ≠ lz4Magic) :
    c.Recreates sys method name content ↔
      ¬ (content = [] ∧ (method = .lz4Legacy ∨ method = .lz4Lg)) := by
  have hback : ∀ {format stream}, c.compress method content = .ok stream → HasMagic stream format →
      c.decompress format stream = .ok content → fmtCompressed format → format.ext = method.ext →
      c.Recreates sys method name content := by
    intro format stream hcompress hmagic hdecompress hformat hext
    rw [recreates_iff_of_stream hname hfile hcompress, checkFmt_take (by decide),
      checkFmt_of_hasMagic hmagic]
    exact ⟨hformat, hext, hdecompress⟩
  have hkind : method ∈ [FileFormat.gzip, .xz, .lzma, .bzip2, .lz4] ∨
      method ∈ [FileFormat.lz4Legacy, .lz4Lg] := by
    cases method <;> simp_all [fmtCompressed]
  rcases hkind with hlibrary | hblocks
  · obtain ⟨stream, hcompress, hmagic, hdecompress⟩ := compress_library hc hlibrary content
    refine iff_of_true (hback hcompress hmagic hdecompress hmethod rfl) ?_
    rintro ⟨-, rfl | rfl⟩
    · exact absurd hlibrary (by decide)
    · exact absurd hlibrary (by decide)
  · have hmem := List.mem_pair.1 hblocks
    by_cases hne : content = []
    · subst hne
      obtain ⟨stream, hcompress, hunknown⟩ := compress_blocks_nil c hblocks
      refine iff_of_false ?_ (not_not.2 ⟨rfl, hmem⟩)
      rw [recreates_iff_of_stream hname hfile hcompress, hunknown]
      rintro ⟨hformat, -⟩
      cases hformat
    · obtain ⟨stream, hcompress, hmagic, hdecompress⟩ := compress_blocks hc hblocks hne hlt htotal
      refine iff_of_true (hback hcompress hmagic hdecompress rfl ?_) fun h => hne h.1
      rcases hmem with rfl | rfl <;> rfl

def sample : Coders where
  encode format pieces := some (stamp format ++ 0 :: pieces.flatten)
  decode format stream := some (stream.drop ((stamp format).length + 1))
  lz4 := literalCodec
  split := sampleEnv.split
  flatten_split := sampleEnv.flatten_split
  ne_nil_of_mem_split := sampleEnv.ne_nil_of_mem_split
  inBuf := List.replicate (compressBound lz4BlockSize) 0
  length_inBuf := List.length_replicate
  events := []
  onlyShort event hmem := by cases hmem

theorem guessLzma_stamp (rest : List UInt8) : guessLzma (stamp .lzma ++ 0 :: rest) := by
  have hlength : ¬ (stamp .lzma ++ 0 :: rest).length ≤ 13 := by
    rw [List.length_append, List.length_cons, show (stamp .lzma).length = 13 from rfl]
    omega
  have hdict : Bytes.slice (stamp .lzma ++ 0 :: rest) 1 4 = [0, 0, 1, 0] := rfl
  have hsize : Bytes.slice (stamp .lzma ++ 0 :: rest) 5 8 = List.replicate 8 0xff := rfl
  rw [guessLzma, if_neg (not_or.2 ⟨hlength, fun h => h rfl⟩), hdict, hsize]
  decide

theorem sample_lawful : sample.Lawful where
  lz4 := literalCodec_lawful
  library format hformat pieces := by
    refine ⟨_, rfl, ?_, ?_⟩
    · simp only [List.mem_cons, List.not_mem_nil, or_false] at hformat
      rcases hformat with rfl | rfl | rfl | rfl | rfl
      · exact .inl ⟨_, rfl⟩
      · exact ⟨_, rfl⟩
      · exact guessLzma_stamp _
      · exact ⟨_, rfl⟩
      · exact .inl ⟨_, rfl⟩
    · simp [sample]

theorem recreates_lg_three :
    sample.Recreates ⟨Function.update (fun _ => none) "kernel" (some [1, 2, 3]), [], []⟩ .lz4Lg "kernel"
      [1, 2, 3] :=
  (recreates_iff sample_lawful rfl (by decide) (by rfl) (by decide) (by decide)).2 (by decide)

theorem not_recreates_legacy_empty :
    sample.Lawful ∧ ¬ sample.Recreates ⟨Function.update (fun _ => none) "kernel" (some []), [], []⟩
      .lz4Legacy "kernel" [] := by
  refine ⟨sample_lawful, ?_⟩
  rintro ⟨packed, sys', hcompress, hdecompress, -⟩
  cases hcompress
  cases hdecompress

end Coders

end MagiskNative.Compress
