import MagiskNative.Compress.RoundTrip

/-!
# Copying through the LZ4 coders

`decompress_bytes` copies a whole buffer through a decoder and drops the error if there is one. Every
read that hands out something uses up the input or what the decoder holds, so the copy ends.
-/

namespace MagiskNative.Compress

def copyBufSize : Nat := 8192

namespace Decoder

variable {codec : Codec}

theorem reader_decodeBlock (codec : Codec) (d : Decoder) (size : Nat) :
    (decodeBlock codec d size).2.reader = d.reader := by
  rw [decodeBlock]
  split <;> rfl

variable {d d' : Decoder}

theorem length_data_readBlock_le {size : Nat} (hread : readBlock codec d size = (.ok true, d')) :
    d'.reader.data.length ≤ d.reader.data.length := by
  have hle := Reader.length_data_read_le d.reader size
  rw [readBlock] at hread
  split at hread
  · cases hread
  · rcases hfirst : Reader.read d.reader size with ⟨result, r⟩
    rw [hfirst] at hread hle
    have hdecode : ∀ e : Decoder, decodeBlock codec e size = (.ok true, d') →
        e.reader.data.length ≤ d.reader.data.length →
        d'.reader.data.length ≤ d.reader.data.length := by
      intro e heq hle
      have hreader := reader_decodeBlock codec e size
      rw [heq] at hreader
      rwa [hreader]
    rcases result with e | - | ⟨b, got⟩
    · exact hdecode _ hread hle
    · cases hread
    · simp only at hread
      split at hread
      · rcases hrest : Reader.readExact r (size - (b :: got).length) with ⟨result', r'⟩
        rw [hrest] at hread
        cases result' with
        | error e => cases hread
        | ok rest =>
            have hdata := congrArg List.length (Reader.data_readExact hrest).1
            rw [List.length_append] at hdata
            refine hdecode _ hread ?_
            simp only at hle ⊢
            omega
      · exact hdecode _ hread hle

theorem length_data_fill_lt (hfill : fill codec d = (.ok true, d')) :
    d'.reader.data.length < d.reader.data.length := by
  rw [fill] at hfill
  rcases hword : Reader.readExact d.reader 4 with ⟨result, r⟩
  rw [hword] at hfill
  cases result with
  | error e => cases e <;> cases hfill
  | ok word =>
      obtain ⟨hdata, hlength⟩ := Reader.data_readExact hword
      have hdata := congrArg List.length hdata
      rw [List.length_append] at hdata
      simp only at hfill
      split at hfill
      · rcases hword' : Reader.readExact r 4 with ⟨result', r'⟩
        rw [hword'] at hfill
        cases result' with
        | error e => cases hfill
        | ok word' =>
            have hdata' := congrArg List.length (Reader.data_readExact hword').1
            have hle := length_data_readBlock_le hfill
            rw [List.length_append] at hdata'
            simp only at hle
            omega
      · have hle := length_data_readBlock_le hfill
        simp only at hle
        omega

theorem read_decreases {len : Nat} {b : UInt8} {out : List UInt8}
    (hread : read codec d len = (.ok (b :: out), d')) :
    d'.reader.data.length < d.reader.data.length ∨
      d'.reader.data.length = d.reader.data.length ∧ d'.pending.length < d.pending.length := by
  rw [read] at hread
  split at hread
  · rcases hfill : fill codec d with ⟨result, e⟩
    rw [hfill] at hread
    rcases result with err | - | -
    · cases hread
    · cases hread
    · left
      have hlt := length_data_fill_lt hfill
      obtain rfl := congrArg Prod.snd hread
      exact hlt
  · right
    rw [copyOut, Prod.mk.injEq] at hread
    obtain ⟨hout, rfl⟩ := hread
    have htake : (d.pending.take len).length = out.length + 1 := by
      injection hout with hout
      rw [hout, List.length_cons]
    rw [List.length_take] at htake
    refine ⟨rfl, ?_⟩
    rw [List.length_drop]
    omega

def drain (codec : Codec) (d : Decoder) : List UInt8 :=
  match _hread : read codec d copyBufSize with
  | (.ok (b :: out), d') => b :: out ++ drain codec d'
  | _ => []
termination_by (d.reader.data.length, d.pending.length)
decreasing_by
  rcases read_decreases _hread with hlt | ⟨heq, hlt⟩
  · exact Prod.Lex.left _ _ hlt
  · rw [heq]
    exact Prod.Lex.right _ hlt

end Decoder

/-- `decompress_bytes` for the two LZ4 block formats. The input buffer starts out as zeros. -/
def decompressLz4 (codec : Codec) (data : List UInt8) : List UInt8 :=
  (Decoder.new data [] (List.replicate (compressBound lz4BlockSize) 0)).drain codec

end MagiskNative.Compress
