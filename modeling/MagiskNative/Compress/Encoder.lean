import MagiskNative.Lib.Bytes
import MagiskNative.Lib.Chunks

/-!
# The LZ4 block encoder

`Chunker` cuts whatever is written to it into pieces of one size, and `LZ4BlockEncoder` turns each
piece into a length-prefixed compressed block behind a magic number. The block codec itself is a
parameter.
-/

namespace MagiskNative.Compress

open Chunks Bytes

structure Chunker where
  chunkSize : Nat
  pending : List UInt8
  pending_lt : pending.length < chunkSize

namespace Chunker

def new (chunkSize : Nat) (hpos : 0 < chunkSize) : Chunker := ⟨chunkSize, [], hpos⟩

/-- The rest of the buffer, the chunk if one is full, and the new state. -/
def addData (c : Chunker) (buf : List UInt8) : List UInt8 × Option (List UInt8) × Chunker :=
  if 0 < c.pending.length then
    let len := min (c.chunkSize - c.pending.length) buf.length
    let chunk := c.pending ++ buf.take len
    if hfull : chunk.length = c.chunkSize then
      (buf.drop len, some chunk, ⟨c.chunkSize, [], by have := c.pending_lt; simp; omega⟩)
    else
      (buf.drop len, none, ⟨c.chunkSize, chunk, by
        have hpending := c.pending_lt
        have hlength : chunk.length = c.pending.length + min len buf.length := by
          simp [chunk]
        have hlen : len ≤ c.chunkSize - c.pending.length := Nat.min_le_left _ _
        omega⟩)
  else if hbuf : c.chunkSize ≤ buf.length then
    (buf.drop c.chunkSize, some (buf.take c.chunkSize), c)
  else
    ([], none, ⟨c.chunkSize, buf, by omega⟩)

def getAvailable (c : Chunker) : List UInt8 × Chunker :=
  (c.pending, ⟨c.chunkSize, [], by have := c.pending_lt; simp; omega⟩)

theorem addData_progress (c : Chunker) {buf : List UInt8} (hbuf : buf ≠ []) :
    (c.addData buf).1.length < buf.length := by
  have hpending := c.pending_lt
  have hpos := List.length_pos_of_ne_nil hbuf
  unfold addData
  split
  · dsimp only
    split <;>
    · simp only [List.length_drop]
      omega
  · split
    · simp only [List.length_drop]
      omega
    · simpa using hpos

theorem addData_spec (c : Chunker) (buf : List UInt8) :
    (c.addData buf).2.2.chunkSize = c.chunkSize ∧
      (∀ chunk, (c.addData buf).2.1 = some chunk → chunk.length = c.chunkSize) ∧
      c.pending ++ buf
        = (c.addData buf).2.1.getD [] ++ ((c.addData buf).2.2.pending ++ (c.addData buf).1) := by
  have hpending := c.pending_lt
  unfold addData
  split
  · dsimp only
    split
    · rename_i hfull
      refine ⟨rfl, ?_, ?_⟩
      · rintro chunk ⟨⟩
        exact hfull
      · simp [List.append_assoc]
    · refine ⟨rfl, by rintro chunk ⟨⟩, ?_⟩
      simp [List.append_assoc]
  · rename_i hempty
    have hnil : c.pending = [] := List.eq_nil_of_length_eq_zero (by omega)
    split
    · rename_i hbuf
      refine ⟨rfl, ?_, ?_⟩
      · rintro chunk ⟨⟩
        rw [List.length_take]
        omega
      · simp [hnil]
    · exact ⟨rfl, by rintro chunk ⟨⟩, by simp [hnil]⟩

end Chunker

/-- The lz4 block functions; `none` is an error. -/
structure Codec where
  compress : List UInt8 → Option (List UInt8)
  decompress : List UInt8 → Option (List UInt8)

def lz4BlockSize : Nat := 0x800000

def lz4Magic : Nat := 0x184c2102

def compressBound (n : Nat) : Nat := n + n / 255 + 16

def Codec.Bounded (codec : Codec) : Prop :=
  ∀ chunk, 0 < chunk.length → chunk.length ≤ lz4BlockSize →
    ∃ block, codec.compress chunk = some block ∧ 0 < block.length ∧
      block.length ≤ compressBound lz4BlockSize

structure Codec.Lawful (codec : Codec) : Prop where
  roundTrip : ∀ chunk block, 0 < chunk.length → chunk.length ≤ lz4BlockSize →
    codec.compress chunk = some block → codec.decompress block = some chunk
  bounded : codec.Bounded

structure Encoder where
  written : List UInt8
  chunker : Chunker
  total : UInt32
  isLg : Bool

namespace Encoder

def new (isLg : Bool) : Encoder := ⟨[], Chunker.new lz4BlockSize (by decide), 0, isLg⟩

def encodeBlock (codec : Codec) (written chunk : List UInt8) : Option (List UInt8) := do
  let block ← codec.compress chunk
  return written ++ (leBytes 4 block.length ++ block)

def encodeChunk (codec : Codec) (written : List UInt8) : Option (List UInt8) → Option (List UInt8)
  | none => some written
  | some chunk => encodeBlock codec written chunk

-- the loop of `write_all`
def writeChunks (codec : Codec) (c : Chunker) (written buf : List UInt8) :
    Option (List UInt8 × Chunker) :=
  if _hbuf : buf = [] then some (written, c)
  else
    match encodeChunk codec written (c.addData buf).2.1 with
    | none => none
    | some written => writeChunks codec (c.addData buf).2.2 written (c.addData buf).1
termination_by buf.length
decreasing_by exact c.addData_progress _hbuf

def writeAll (codec : Codec) (e : Encoder) (buf : List UInt8) : Option Encoder := do
  let header := if e.total = 0 then leBytes 4 lz4Magic else []
  let (written, chunker) ← writeChunks codec e.chunker (e.written ++ header) buf
  return ⟨written, chunker, e.total + UInt32.ofNat buf.length, e.isLg⟩

def finish (codec : Codec) (e : Encoder) : Option (List UInt8) := do
  let chunk := e.chunker.getAvailable.1
  let written ← if chunk.isEmpty then some e.written else encodeBlock codec e.written chunk
  return written ++ if e.isLg then leBytes 4 e.total.toNat else []

end Encoder

def encode (codec : Codec) (isLg : Bool) (writes : List (List UInt8)) : Option (List UInt8) := do
  let e ← writes.foldlM (Encoder.writeAll codec) (Encoder.new isLg)
  e.finish codec

def block (codec : Codec) (chunk : List UInt8) : List UInt8 :=
  let b := (codec.compress chunk).getD []
  leBytes 4 b.length ++ b

/-- What the stream of `x` is: the magic unless there is no input, a block for each piece, and in the
LG variant the total size. -/
def stream (codec : Codec) (isLg : Bool) (x : List UInt8) : Option (List UInt8) := do
  let header := if x = [] then [] else leBytes 4 lz4Magic
  let blocks ← (Chunks.pieces lz4BlockSize x).foldlM (Encoder.encodeBlock codec) header
  return blocks ++ if isLg then leBytes 4 x.length else []

theorem lz4BlockSize_pos : 0 < lz4BlockSize := by decide

namespace Chunker

def holding (x : List UInt8) : Chunker where
  chunkSize := lz4BlockSize
  pending := (Chunks.cut lz4BlockSize x).2
  pending_lt := length_rest_lt lz4BlockSize_pos x

theorem eq_holding {c : Chunker} (hsize : c.chunkSize = lz4BlockSize) : c = holding c.pending := by
  obtain ⟨chunkSize, pending, hpending⟩ := c
  simp only at hsize
  subst hsize
  rw [holding, mk.injEq, cut_of_lt hpending]
  exact ⟨rfl, rfl⟩

theorem cut_addData {c : Chunker} (hsize : c.chunkSize = lz4BlockSize) (buf : List UInt8) :
    Chunks.cut lz4BlockSize (c.pending ++ buf)
      = ((c.addData buf).2.1.toList
          ++ (Chunks.cut lz4BlockSize ((c.addData buf).2.2.pending ++ (c.addData buf).1)).1,
        (Chunks.cut lz4BlockSize ((c.addData buf).2.2.pending ++ (c.addData buf).1)).2) := by
  obtain ⟨-, hfull, hsplit⟩ := c.addData_spec buf
  rw [hsplit]
  cases hchunk : (c.addData buf).2.1 with
  | none => rfl
  | some chunk =>
      rw [hsize] at hfull
      exact cut_append_left lz4BlockSize_pos (hfull chunk hchunk) _

end Chunker

namespace Encoder

section Stream

variable (codec : Codec)

theorem writeChunks_eq {c : Chunker} (hsize : c.chunkSize = lz4BlockSize) (written buf : List UInt8) :
    writeChunks codec c written buf
      = ((Chunks.cut lz4BlockSize (c.pending ++ buf)).1.foldlM (encodeBlock codec) written).map
          (·, Chunker.holding (c.pending ++ buf)) := by
  induction hn : buf.length using Nat.strong_induction_on generalizing c written buf with
  | _ n ih =>
      rw [writeChunks]
      by_cases hbuf : buf = []
      · have hpending : c.pending.length < lz4BlockSize := hsize ▸ c.pending_lt
        rw [dif_pos hbuf, hbuf, List.append_nil, cut_of_lt hpending, ← Chunker.eq_holding hsize]
        rfl
      · rw [dif_neg hbuf]
        have hlt : (c.addData buf).1.length < n := hn ▸ c.addData_progress hbuf
        have hsize' := (c.addData_spec buf).1.trans hsize
        have hcut := Chunker.cut_addData hsize buf
        have hholding : Chunker.holding (c.pending ++ buf)
            = Chunker.holding ((c.addData buf).2.2.pending ++ (c.addData buf).1) := by
          simp only [Chunker.holding, hcut]
        rw [hcut, hholding, List.foldlM_append]
        have hrest := fun written => ih _ hlt hsize' written (c.addData buf).1 rfl
        cases hchunk : (c.addData buf).2.1 with
        | none => exact hrest written
        | some chunk =>
            simp only [encodeChunk, Option.toList_some, List.foldlM_cons, List.foldlM_nil, bind_pure]
            cases encodeBlock codec written chunk with
            | none => rfl
            | some written => exact hrest written

def after (isLg : Bool) (x : List UInt8) : Option Encoder := do
  let header := if x = [] then [] else leBytes 4 lz4Magic
  let written ← (Chunks.cut lz4BlockSize x).1.foldlM (encodeBlock codec) header
  return ⟨written, .holding x, UInt32.ofNat x.length, isLg⟩

theorem after_nil (isLg : Bool) : after codec isLg [] = some (new isLg) := by
  have hholding : Chunker.new lz4BlockSize lz4BlockSize_pos = .holding [] := Chunker.eq_holding rfl
  rw [after, cut_nil lz4BlockSize_pos, if_pos rfl, ← hholding]
  rfl

theorem after_bind_writeAll {isLg : Bool} {x buf : List UInt8} (hbuf : buf ≠ [])
    (hlen : (x ++ buf).length < 2 ^ 32) :
    (after codec isLg x >>= fun e => writeAll codec e buf) = after codec isLg (x ++ buf) := by
  rw [List.length_append] at hlen
  have htotal : UInt32.ofNat x.length = 0 ↔ x = [] := by
    rw [← UInt32.toNat_inj, UInt32.toNat_ofNat_of_lt' (by simp only [UInt32.size]; omega)]
    exact List.length_eq_zero_iff
  have hsum : UInt32.ofNat x.length + UInt32.ofNat buf.length = UInt32.ofNat (x ++ buf).length := by
    rw [List.length_append, UInt32.ofNat_add]
  have hholding : Chunker.holding ((Chunker.holding x).pending ++ buf) = Chunker.holding (x ++ buf) := by
    simp only [Chunker.holding, cut_append lz4BlockSize_pos x buf]
  have hwrite : ∀ written : List UInt8,
      writeAll codec ⟨written, .holding x, UInt32.ofNat x.length, isLg⟩ buf = (do
        let header := if x = [] then leBytes 4 lz4Magic else []
        let written ← (Chunks.cut lz4BlockSize ((Chunker.holding x).pending ++ buf)).1.foldlM
          (encodeBlock codec) (written ++ header)
        return ⟨written, .holding (x ++ buf), UInt32.ofNat (x ++ buf).length, isLg⟩) := by
    intro written
    rw [writeAll, writeChunks_eq codec rfl, hsum, hholding]
    simp only [htotal]
    cases List.foldlM (encodeBlock codec) (written ++ _) _ <;> rfl
  have hne : x ++ buf ≠ [] := fun hnil => hbuf (List.append_eq_nil_iff.1 hnil).2
  simp only [after, if_neg hne, cut_append lz4BlockSize_pos x buf, List.foldlM_append, bind_assoc,
    pure_bind, hwrite]
  by_cases hx : x = []
  · simp only [hx, if_true, cut_nil lz4BlockSize_pos, List.foldlM_nil, pure_bind, List.nil_append,
      Chunker.holding]
  · simp only [if_neg hx, List.append_nil, Chunker.holding]

theorem after_bind_foldlM {isLg : Bool} {x : List UInt8} {writes : List (List UInt8)}
    (hne : ∀ buf ∈ writes, buf ≠ []) (hlen : (x ++ writes.flatten).length < 2 ^ 32) :
    (after codec isLg x >>= fun e => writes.foldlM (writeAll codec) e)
      = after codec isLg (x ++ writes.flatten) := by
  induction writes generalizing x with
  | nil => simp only [List.foldlM_nil, bind_pure, List.flatten_nil, List.append_nil]
  | cons buf writes ih =>
      rw [List.forall_mem_cons] at hne
      rw [List.flatten_cons, ← List.append_assoc] at hlen ⊢
      rw [← ih hne.2 hlen, ← after_bind_writeAll codec hne.1 (by rw [List.length_append] at hlen; omega)]
      simp only [List.foldlM_cons, bind_assoc]

theorem after_bind_finish {isLg : Bool} {x : List UInt8} (hlen : x.length < 2 ^ 32) :
    (after codec isLg x >>= fun e => e.finish codec) = stream codec isLg x := by
  have htotal : (UInt32.ofNat x.length).toNat = x.length :=
    UInt32.toNat_ofNat_of_lt' hlen
  simp only [after, stream, finish, Chunker.getAvailable, Chunker.holding, bind_assoc, pure_bind, htotal,
    pieces_eq lz4BlockSize_pos x, List.foldlM_append, List.isEmpty_iff]
  congr 1
  funext written
  by_cases hrest : (Chunks.cut lz4BlockSize x).2 = []
  · simp only [if_pos hrest, List.foldlM_nil]
    rfl
  · simp only [if_neg hrest, List.foldlM_cons, List.foldlM_nil, bind_pure]

end Stream

end Encoder

theorem encode_eq_stream (codec : Codec) (isLg : Bool) {writes : List (List UInt8)}
    (hne : ∀ buf ∈ writes, buf ≠ []) (hlen : writes.flatten.length < 2 ^ 32) :
    encode codec isLg writes = stream codec isLg writes.flatten := by
  have hafter := @Encoder.after_bind_foldlM codec isLg [] writes hne hlen
  rw [Encoder.after_nil, List.nil_append, Option.bind_eq_bind, Option.bind_some] at hafter
  rw [encode, hafter, Encoder.after_bind_finish codec hlen]

/-- The format of the source: the magic, for each piece of eight MiB the size of its block and the block,
and in the LG variant the total size. -/
def lz4BlockArchive (codec : Codec) (isLg : Bool) (x : List UInt8) : Option (List UInt8) := do
  let count := (x.length + lz4BlockSize - 1) / lz4BlockSize
  let blocks ← (List.range count).mapM fun i => codec.compress ((x.drop (i * lz4BlockSize)).take lz4BlockSize)
  return leBytes 4 lz4Magic ++ blocks.flatMap (fun b => leBytes 4 b.length ++ b) ++
    if isLg then leBytes 4 x.length else []

theorem pieces_eq_range (x : List UInt8) :
    Chunks.pieces lz4BlockSize x = (List.range ((x.length + lz4BlockSize - 1) / lz4BlockSize)).map fun i =>
      (x.drop (i * lz4BlockSize)).take lz4BlockSize := by
  have hsize : lz4BlockSize = 0x800000 := rfl
  apply List.ext_getElem?
  intro i
  rw [getElem?_pieces lz4BlockSize_pos, List.getElem?_map]
  by_cases hi : i * lz4BlockSize < x.length
  · rw [if_pos hi, List.getElem?_range (by rw [hsize] at hi ⊢; omega)]
    rfl
  · rw [if_neg hi, List.getElem?_eq_none (by rw [hsize] at hi; rw [List.length_range, hsize]; omega)]
    rfl

theorem foldlM_encodeBlock_eq (codec : Codec) (written : List UInt8) (chunks : List (List UInt8)) :
    chunks.foldlM (Encoder.encodeBlock codec) written = (chunks.mapM codec.compress).map fun blocks =>
      written ++ blocks.flatMap fun b => leBytes 4 b.length ++ b := by
  induction chunks generalizing written with
  | nil => simp
  | cons chunk chunks ih =>
      rw [List.foldlM_cons, List.mapM_cons, Encoder.encodeBlock]
      cases codec.compress chunk with
      | none => rfl
      | some b =>
          simp only [Option.bind_eq_bind, Option.bind_some, Option.pure_def, ih]
          cases chunks.mapM codec.compress <;> simp

theorem stream_eq_archive (codec : Codec) (isLg : Bool) {x : List UInt8} (hne : x ≠ []) :
    stream codec isLg x = lz4BlockArchive codec isLg x := by
  rw [stream, if_neg hne, foldlM_encodeBlock_eq, pieces_eq_range, List.mapM_map]
  unfold lz4BlockArchive
  simp only [Function.comp_def]
  cases List.mapM (fun i => codec.compress ((x.drop (i * lz4BlockSize)).take lz4BlockSize))
    (List.range ((x.length + lz4BlockSize - 1) / lz4BlockSize)) <;> rfl

/-- The writes come out as the archive of their bytes, and so do those of the same bytes in other pieces. -/
def Archives (codec : Codec) (isLg : Bool) (writes : List (List UInt8)) : Prop :=
  encode codec isLg writes = lz4BlockArchive codec isLg writes.flatten ∧
    ∀ writes' : List (List UInt8), (∀ buf ∈ writes', buf ≠ []) → writes'.flatten = writes.flatten →
      encode codec isLg writes' = encode codec isLg writes

/-- **Splitting the input.** The stream depends on the bytes alone, and it has the format of the source
exactly if there was a write. -/
theorem archives_iff (codec : Codec) (isLg : Bool) {writes : List (List UInt8)}
    (hne : ∀ buf ∈ writes, buf ≠ []) (hlen : writes.flatten.length < 2 ^ 32) :
    Archives codec isLg writes ↔ writes ≠ [] := by
  constructor
  · rintro ⟨harchive, -⟩ rfl
    have hempty : encode codec isLg [] = some (if isLg then leBytes 4 0 else []) := by
      cases isLg <;> rfl
    have hmagic : lz4BlockArchive codec isLg [] = some (leBytes 4 lz4Magic ++
        if isLg then leBytes 4 0 else []) := by
      cases isLg <;> rfl
    rw [List.flatten_nil, hempty, hmagic, Option.some.injEq] at harchive
    have hlength := congrArg List.length harchive
    rw [List.length_append, length_leBytes] at hlength
    omega
  · intro hwrites
    have hstream := encode_eq_stream codec isLg hne hlen
    obtain ⟨buf, hbuf⟩ := List.exists_mem_of_ne_nil writes hwrites
    have hx : writes.flatten ≠ [] := fun hnil => hne buf hbuf (List.flatten_eq_nil_iff.1 hnil buf hbuf)
    refine ⟨hstream.trans (stream_eq_archive codec isLg hx), fun writes' hne' hsame => ?_⟩
    rw [encode_eq_stream codec isLg hne' (hsame ▸ hlen), hsame, hstream]

/-- What lz4 makes of up to 14 bytes: a token with their number and the bytes themselves. -/
def literalCodec : Codec where
  compress chunk := some (UInt8.ofNat (16 * chunk.length) :: chunk)
  decompress
    | [] => none
    | _ :: chunk => some chunk

theorem literalCodec_lawful : literalCodec.Lawful where
  roundTrip chunk block hpos hle hcompress := by
    cases hcompress
    rfl
  bounded chunk hpos hle := by
    refine ⟨_, rfl, Nat.succ_pos _, ?_⟩
    rw [List.length_cons, compressBound]
    omega

theorem archives_three : Archives literalCodec true [[1], [2, 3]] :=
  (archives_iff literalCodec true (by decide) (by decide)).2 (by decide)

theorem not_archives_without_write : ¬ Archives literalCodec false [] := by
  rintro ⟨harchive, -⟩
  exact absurd harchive (by decide)

theorem foldlM_encodeBlock {codec : Codec} (hcodec : codec.Bounded) {chunks : List (List UInt8)}
    (hchunks : ∀ chunk ∈ chunks, 0 < chunk.length ∧ chunk.length ≤ lz4BlockSize) (written : List UInt8) :
    chunks.foldlM (Encoder.encodeBlock codec) written
      = some (written ++ chunks.flatMap (block codec)) := by
  induction chunks generalizing written with
  | nil => simp
  | cons chunk chunks ih =>
      rw [List.forall_mem_cons] at hchunks
      obtain ⟨b, hb, -, -⟩ := hcodec chunk hchunks.1.1 hchunks.1.2
      have hblock : Encoder.encodeBlock codec written chunk = some (written ++ block codec chunk) := by
        rw [Encoder.encodeBlock, block, hb]
        rfl
      rw [List.foldlM_cons, hblock, Option.bind_eq_bind, Option.bind_some, ih hchunks.2,
        List.flatMap_cons, List.append_assoc]

theorem encode_eq {codec : Codec} (hcodec : codec.Bounded) (isLg : Bool)
    {writes : List (List UInt8)} (hne : ∀ buf ∈ writes, buf ≠ []) (hx : writes.flatten ≠ [])
    (hlen : writes.flatten.length < 2 ^ 32) :
    ∃ chunks : List (List UInt8), encode codec isLg writes
        = some (leBytes 4 lz4Magic ++ chunks.flatMap (block codec) ++
            if isLg then leBytes 4 writes.flatten.length else []) ∧
      chunks.flatten = writes.flatten ∧
      ∀ chunk ∈ chunks, 0 < chunk.length ∧ chunk.length ≤ lz4BlockSize := by
  have hpieces : ∀ piece ∈ Chunks.pieces lz4BlockSize writes.flatten,
      0 < piece.length ∧ piece.length ≤ lz4BlockSize := fun piece hpiece =>
    length_of_mem_pieces lz4BlockSize_pos hpiece
  refine ⟨_, ?_, flatten_pieces lz4BlockSize_pos _, hpieces⟩
  rw [encode_eq_stream codec isLg hne hlen, stream, if_neg hx, foldlM_encodeBlock hcodec hpieces]
  rfl

end MagiskNative.Compress
