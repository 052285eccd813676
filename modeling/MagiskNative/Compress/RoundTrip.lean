import MagiskNative.Compress.Decoder

/-!
# LZ4 block archives are decoded to what was encoded

The encoder's stream is an `Archive`, and so is the concatenation of several of them, so a decoder
on top of it serves the input. The LG variant ends with the total size, which the decoder takes for
one more block size: it stops cleanly unless that number happens to be the magic.
-/

namespace MagiskNative.Compress

open Bytes

variable {tail x : List UInt8} {codec : Codec}

/-- An input, given by its writes: no write is empty, there is something to encode, and its size
fits the 32-bit counter. -/
structure Input where
  writes : List (List UInt8)
  writes_ne : ∀ buf ∈ writes, buf ≠ []
  content_ne : writes.flatten ≠ []
  length_lt : writes.flatten.length < 2 ^ 32

def Input.content (input : Input) : List UInt8 := input.writes.flatten

section Streams

variable {codec : Codec} (hcodec : codec.Lawful)

include hcodec

/-- The blocks that an encoder writes are blocks that the decoder takes. -/
theorem exists_block {chunk : List UInt8} (hpos : 0 < chunk.length) (hle : chunk.length ≤ lz4BlockSize) :
    ∃ b, block codec chunk = leBytes 4 b.length ++ b ∧ codec.decompress b = some chunk ∧
      chunk ≠ [] ∧ 0 < b.length ∧ b.length ≤ compressBound lz4BlockSize := by
  obtain ⟨b, hb, hbpos, hble⟩ := hcodec.bounded chunk hpos hle
  refine ⟨b, ?_, hcodec.roundTrip chunk b hpos hle hb, List.ne_nil_of_length_pos hpos, hbpos, hble⟩
  rw [block, hb]
  rfl

theorem archive_blocks {rest y : List UInt8} (hrest : Archive codec tail rest y)
    (chunks : List (List UInt8))
    (hchunks : ∀ chunk ∈ chunks, 0 < chunk.length ∧ chunk.length ≤ lz4BlockSize) :
    Archive codec tail (chunks.flatMap (block codec) ++ rest) (chunks.flatten ++ y) := by
  induction chunks with
  | nil => exact hrest
  | cons chunk chunks ih =>
      obtain ⟨hpos, hle⟩ := hchunks chunk List.mem_cons_self
      have htail := ih fun c hc => hchunks c (List.mem_cons_of_mem _ hc)
      obtain ⟨b, hblock, hdecode, hchunk, hbpos, hble⟩ := exists_block hcodec hpos hle
      rw [List.flatMap_cons, List.flatten_cons, hblock, List.append_assoc, List.append_assoc,
        List.append_assoc]
      exact .block hdecode hchunk hbpos hble htail

theorem archive_stream {rest y : List UInt8} (hrest : Archive codec tail rest y)
    {chunks : List (List UInt8)} (hne : chunks.flatten ≠ [])
    (hchunks : ∀ chunk ∈ chunks, 0 < chunk.length ∧ chunk.length ≤ lz4BlockSize) :
    Archive codec tail (leBytes 4 lz4Magic ++ chunks.flatMap (block codec) ++ rest)
      (chunks.flatten ++ y) := by
  cases chunks with
  | nil => exact absurd rfl hne
  | cons chunk chunks =>
      obtain ⟨hpos, hle⟩ := hchunks chunk List.mem_cons_self
      have htail := archive_blocks hcodec hrest chunks
        fun c hc => hchunks c (List.mem_cons_of_mem _ hc)
      obtain ⟨b, hblock, hdecode, hchunk, hbpos, hble⟩ := exists_block hcodec hpos hle
      rw [List.flatMap_cons, List.flatten_cons, hblock]
      simp only [List.append_assoc]
      exact .magic hdecode hchunk hbpos hble htail

theorem archive_streams (inputs : List Input) :
    ∃ streams, inputs.mapM (fun input => encode codec false input.writes) = some streams ∧
      Archive codec [] streams.flatten (inputs.map Input.content).flatten := by
  induction inputs with
  | nil => exact ⟨[], rfl, .done⟩
  | cons input inputs ih =>
      obtain ⟨streams, hmap, harchive⟩ := ih
      obtain ⟨chunks, hencode, hcontent, hchunks⟩ :=
        encode_eq hcodec.bounded false input.writes_ne input.content_ne input.length_lt
      rw [if_neg Bool.false_ne_true, List.append_nil] at hencode
      refine ⟨(leBytes 4 lz4Magic ++ chunks.flatMap (block codec)) :: streams, ?_, ?_⟩
      · rw [List.mapM_cons, hencode, hmap]
        rfl
      · have hne : chunks.flatten ≠ [] := by
          rw [hcontent]
          exact input.content_ne
        rw [List.flatten_cons, List.map_cons, List.flatten_cons, Input.content, ← hcontent]
        exact archive_stream hcodec harchive hne hchunks

theorem archive_lg (input : Input) :
    ∃ stream, encode codec true input.writes = some stream ∧
      Archive codec (leBytes 4 input.content.length) stream input.content := by
  obtain ⟨chunks, hencode, hcontent, hchunks⟩ :=
    encode_eq hcodec.bounded true input.writes_ne input.content_ne input.length_lt
  have hne : chunks.flatten ≠ [] := by
    rw [hcontent]
    exact input.content_ne
  refine ⟨_, hencode, ?_⟩
  have htail : Archive codec (leBytes 4 input.content.length)
      (leBytes 4 input.content.length) [] := .done
  have harchive := archive_stream hcodec htail hne hchunks
  rw [List.append_nil, hcontent] at harchive
  exact harchive

end Streams

def Decoder.new (data : List UInt8) (events : List Reader.Event) (inBuf : List UInt8) : Decoder :=
  ⟨⟨data, events⟩, inBuf, []⟩

/-- The decoder hands out exactly `x` and then end of file, whatever its input buffer holds at
first, for all short reads of the underlying reader and all sizes of the callers' buffers. -/
def DecodesTo (codec : Codec) (data x : List UInt8) : Prop :=
  ∀ inBuf : List UInt8, inBuf.length = compressBound lz4BlockSize →
  ∀ events, Reader.OnlyShort events → ∀ lens : List Nat, (∀ len ∈ lens, 0 < len) →
    ∃ outs, (Decoder.new data events inBuf).reads codec lens = .ok outs ∧
      outs.length = lens.length ∧ Delivers outs x

theorem decodesTo_of_archive {data : List UInt8}
    (htail : Decoder.CleanTail tail) (harchive : Archive codec tail data x) :
    DecodesTo codec data x := by
  intro inBuf hinBuf events hevents lens hlens
  exact reads_deliver htail ⟨hinBuf, hevents, x, harchive, rfl⟩ lens hlens

/-- **Round trip.** The streams of any number of inputs, one after the other, decode to the inputs
one after the other. -/
theorem decode_streams (hcodec : codec.Lawful) (inputs : List Input) :
    ∃ streams, inputs.mapM (fun input => encode codec false input.writes) = some streams ∧
      DecodesTo codec streams.flatten (inputs.map Input.content).flatten := by
  obtain ⟨streams, hmap, harchive⟩ := archive_streams hcodec inputs
  exact ⟨streams, hmap, decodesTo_of_archive (.inl rfl) harchive⟩

theorem decode_streams_two :
    ∃ streams, [Input.mk [[1, 2], [3]] (by decide) (by decide) (by decide),
          Input.mk [[4]] (by decide) (by decide) (by decide)].mapM
        (fun input => encode literalCodec false input.writes) = some streams ∧
      DecodesTo literalCodec streams.flatten [1, 2, 3, 4] :=
  decode_streams literalCodec_lawful
    [Input.mk [[1, 2], [3]] (by decide) (by decide) (by decide),
      Input.mk [[4]] (by decide) (by decide) (by decide)]

theorem reads_magic_trailer {d : Decoder}
    (hd : Serves codec (leBytes 4 lz4Magic) d x) {n : Nat} (hn : x.length < n) :
    d.reads codec (List.replicate n 1) = .error .unexpectedEof := by
  induction n generalizing d x with
  | zero => omega
  | succ n ih =>
      rw [List.replicate_succ, Decoder.reads]
      by_cases hx : x = []
      · subst hx
        obtain ⟨hpending, hdata⟩ := Decoder.tail_of_serves hd
        obtain ⟨d', hfill⟩ : ∃ d', Decoder.fill codec d = (.error .unexpectedEof, d') :=
          Decoder.fill_total_magic hd.events hdata
        rw [Decoder.read, if_pos hpending, hfill]
      · obtain ⟨out, d', x', hread, hout, rfl, hd'⟩ := Decoder.read_serves hd hx Nat.one_pos
        have hpos := List.length_pos_of_ne_nil hout
        rw [List.length_append] at hn
        rw [hread]
        simp only [ih hd' (by omega)]

theorem not_decodesTo_magic_trailer {data : List UInt8}
    (harchive : Archive codec (leBytes 4 lz4Magic) data x) : ¬ DecodesTo codec data x := by
  intro hdecodes
  have hinBuf : (List.replicate (compressBound lz4BlockSize) (0 : UInt8)).length
      = compressBound lz4BlockSize := List.length_replicate
  have hshort : Reader.OnlyShort [] := fun event hmem => by cases hmem
  obtain ⟨outs, hreads, -, -⟩ := hdecodes _ hinBuf [] hshort (List.replicate (x.length + 1) 1)
    (fun len hmem => by rw [List.eq_of_mem_replicate hmem]; decide)
  have hserves : Serves codec (leBytes 4 lz4Magic)
      (Decoder.new data [] (List.replicate (compressBound lz4BlockSize) 0)) x :=
    ⟨hinBuf, hshort, x, harchive, rfl⟩
  have herror := reads_magic_trailer hserves (Nat.lt_succ_self _)
  rw [hreads] at herror
  cases herror

/-- **The LG variant.** Its stream decodes to the input iff the size of the input is not the magic
number that a block size is compared with. -/
theorem decode_lg_iff (hcodec : codec.Lawful) (input : Input) :
    (∃ stream, encode codec true input.writes = some stream ∧
        DecodesTo codec stream input.content)
      ↔ input.content.length ≠ lz4Magic := by
  obtain ⟨stream, hencode, harchive⟩ := archive_lg hcodec input
  rw [hencode]
  simp only [Option.some.injEq, exists_eq_left']
  constructor
  · intro hdecodes hmagic
    rw [hmagic] at harchive
    exact not_decodesTo_magic_trailer harchive hdecodes
  · intro hmagic
    exact decodesTo_of_archive (.inr ⟨_, input.length_lt, hmagic, rfl⟩) harchive

theorem decode_lg_three :
    (∃ stream, encode literalCodec true [[1, 2], [3]] = some stream ∧
        DecodesTo literalCodec stream [1, 2, 3])
      ∧ [1, 2, 3].length ≠ lz4Magic :=
  have hlength : [1, 2, 3].length ≠ lz4Magic := by decide
  ⟨(decode_lg_iff literalCodec_lawful
    (Input.mk [[1, 2], [3]] (by decide) (by decide) (by decide))).2 hlength, hlength⟩

/-- One write of `0x184c2102` zero bytes. -/
def magicInput : Input where
  writes := [List.replicate lz4Magic 0]
  writes_ne buf hmem := by
    rw [List.mem_singleton.1 hmem]
    exact List.ne_nil_of_length_pos (by rw [List.length_replicate]; decide)
  content_ne := by
    rw [List.flatten_singleton]
    exact List.ne_nil_of_length_pos (by rw [List.length_replicate]; decide)
  length_lt := by
    rw [List.flatten_singleton, List.length_replicate]
    decide

theorem length_magicInput : magicInput.content.length = lz4Magic := by
  rw [Input.content, magicInput, List.flatten_singleton, List.length_replicate]

/-- An input of `0x184c2102` bytes comes back with an error, for every block codec. -/
theorem decode_lg_magic_length :
    literalCodec.Lawful ∧ ∀ codec : Codec, codec.Lawful →
      ¬ ∃ stream, encode codec true magicInput.writes = some stream ∧
          DecodesTo codec stream magicInput.content := by
  refine ⟨literalCodec_lawful, ?_⟩
  rintro codec hcodec ⟨stream, hencode, hdecodes⟩
  obtain ⟨stream', hencode', harchive⟩ := archive_lg hcodec magicInput
  rw [hencode, Option.some.injEq] at hencode'
  rw [length_magicInput, ← hencode'] at harchive
  exact not_decodesTo_magic_trailer harchive hdecodes

end MagiskNative.Compress
