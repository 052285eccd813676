import MagiskNative.Compress.Copy
import MagiskNative.Boot.Format
import MagiskNative.Boot.HeaderFile

/-!
# What the boot image tool gets from elsewhere

The system, the libraries for compression, device trees, hashes and signatures, and the values of
variables that are read before they are written.
-/

namespace MagiskNative.Boot

open Bytes Layout

structure Env where
  hostPage : Nat
  hostPage_ge : 4096 ≤ hostPage
  /-- whether the `fdt` crate takes the bytes for a device tree that is not empty -/
  fdtAccepts : List UInt8 → Bool
  length_of_fdtAccepts : ∀ s, fdtAccepts s → 40 ≤ s.length
  /-- gzip, xz, lzma, bzip2 and lz4 frames: what a whole copy through the coder writes -/
  encode : FileFormat → List UInt8 → List UInt8
  decode : FileFormat → List UInt8 → List UInt8
  lz4 : Compress.Codec
  /-- the pieces in which `std::io::copy` writes a buffer -/
  split : List UInt8 → List (List UInt8)
  flatten_split : ∀ x, (split x).flatten = x
  ne_nil_of_mem_split : ∀ x, ∀ piece ∈ split x, piece ≠ []
  sha1 : List UInt8 → List UInt8
  sha256 : List UInt8 → List UInt8
  verify : List UInt8 → List UInt8 → Bool
  /-- the length of the payload, as the boot signature at the start of a tail gives it -/
  signedLength : List UInt8 → Option Nat
  signPayload : List UInt8 → List UInt8
  patchVbmetaFlag : Bool
  locals : Locals

namespace Env

variable (env : Env) (file : List UInt8)

/-- A mapped file: behind its end the last page is zero. -/
def map : List UInt8 := pad env.hostPage file

def compressBytes (fmt : FileFormat) (x : List UInt8) : List UInt8 :=
  match fmt with
  | .lz4Legacy => (Compress.encode env.lz4 false (env.split x)).getD []
  | .lz4Lg => (Compress.encode env.lz4 true (env.split x)).getD []
  | fmt => env.encode fmt x

def decompressBytes (fmt : FileFormat) (stream : List UInt8) : List UInt8 :=
  match fmt with
  | .lz4Legacy | .lz4Lg => Compress.decompressLz4 env.lz4 stream
  | fmt => env.decode fmt stream

theorem hostPage_pos : 0 < env.hostPage := lt_of_lt_of_le (by decide) env.hostPage_ge

theorem length_map : (env.map file).length = roundUp env.hostPage file.length :=
  length_pad env.hostPage_pos file

theorem dvd_length_map : env.hostPage ∣ (env.map file).length := by
  rw [length_map]
  exact dvd_roundUp _ _

theorem map_eq_self {file : List UInt8} (hpages : env.hostPage ∣ file.length) :
    env.map file = file := by
  rw [map, pad, roundUp_of_dvd env.hostPage_pos hpages, Nat.sub_self]
  exact List.append_nil file

theorem length_le_map : file.length ≤ (env.map file).length := by
  rw [length_map]
  exact le_roundUp env.hostPage_pos _

end Env

def stamp : FileFormat → List UInt8
  | .gzip => gzip1Magic ++ zeros 3
  | .xz => xzMagic
  | .lzma => 0x5d :: leBytes 4 0x10000 ++ List.replicate 8 0xff
  | .bzip2 => bzipMagic ++ zeros 2
  | .lz4 => lz41Magic ++ zeros 1
  | _ => []

def sampleEnv : Env where
  hostPage := 4096
  hostPage_ge := le_refl _
  fdtAccepts _ := false
  length_of_fdtAccepts _ h := by cases h
  encode fmt x := stamp fmt ++ x
  decode fmt stream := stream.drop (stamp fmt).length
  lz4 := Compress.literalCodec
  split x := if x = [] then [] else [x]
  flatten_split x := by
    split
    · rename_i hx
      rw [hx]
      rfl
    · exact List.flatten_singleton
  ne_nil_of_mem_split x piece hpiece := by
    split at hpiece
    · cases hpiece
    · rename_i hx
      rwa [List.mem_singleton.1 hpiece]
  sha1 _ := zeros 20
  sha256 _ := zeros 32
  verify _ _ := false
  signedLength _ := none
  signPayload _ := []
  patchVbmetaFlag := false
  locals := ⟨0, 0, 0, 0, 0⟩

end MagiskNative.Boot
