import MagiskNative.Lib.Bytes

/-!
# The wire format of protocol buffers

Numbers are sent in groups of seven bits, the lowest first, and texts and messages behind their lengths.
-/

namespace MagiskNative.Wire

def varint (n : Nat) : List UInt8 :=
  if n < 128 then [UInt8.ofNat n] else UInt8.ofNat (n % 128 + 128) :: varint (n / 128)

def readVarint : List UInt8 → Option (Nat × List UInt8)
  | [] => none
  | b :: rest =>
      if b.toNat < 128 then some (b.toNat, rest)
      else do
        let (high, rest) ← readVarint rest
        return (b.toNat - 128 + 128 * high, rest)

def delimited (bytes : List UInt8) : List UInt8 := varint bytes.length ++ bytes

def readDelimited (data : List UInt8) : Option (List UInt8 × List UInt8) := do
  let (n, rest) ← readVarint data
  if n ≤ rest.length then return (rest.take n, rest.drop n)
  none

theorem delimited_of_lt {bytes : List UInt8} (hlt : bytes.length < 128) :
    delimited bytes = UInt8.ofNat bytes.length :: bytes := by
  rw [delimited, varint, if_pos hlt]
  rfl

theorem readVarint_varint (n : Nat) (rest : List UInt8) : readVarint (varint n ++ rest) = some (n, rest) := by
  induction n using Nat.strong_induction_on with
  | _ n ih =>
      rw [varint]
      split
      · rename_i hlt
        have hbyte : (UInt8.ofNat n).toNat = n := by
          rw [UInt8.toNat_ofNat']
          omega
        rw [List.singleton_append, readVarint, hbyte, if_pos hlt]
      · rename_i hge
        have hbyte : (UInt8.ofNat (n % 128 + 128)).toNat = n % 128 + 128 := by
          rw [UInt8.toNat_ofNat']
          omega
        have hsum : n % 128 + 128 - 128 + 128 * (n / 128) = n := by omega
        rw [List.cons_append, readVarint, hbyte, if_neg (by omega), ih (n / 128) (by omega)]
        simp only [Option.bind_eq_bind, Option.bind_some, Option.pure_def, hsum]

theorem readDelimited_delimited (bytes rest : List UInt8) :
    readDelimited (delimited bytes ++ rest) = some (bytes, rest) := by
  rw [readDelimited, delimited, List.append_assoc, readVarint_varint]
  simp

end MagiskNative.Wire
