import MagiskNative.Daemon.Certificate

/-!
# Signed packages

A package as the comment above `read_certificate` draws it, with a signing block of pairs of an id and a
value. The value under the id of the second signature scheme is a sequence of signers; in sequences, and
in general before fields, stands a length.
-/

namespace MagiskNative.Daemon

open Bytes

def prefixed (field : List UInt8) : List UInt8 := leBytes 4 field.length ++ field

def sequence (items : List (List UInt8)) : List UInt8 := prefixed (items.flatMap prefixed)

/-- `certificates` are those after the first, `attributes` is the rest of the signed data, and `signatures`
what stands behind the signed data. -/
structure Signer where
  digests : List (List UInt8)
  certificate : List UInt8
  certificates : List (List UInt8)
  attributes : List UInt8
  signatures : List UInt8

namespace Signer

def signedData (s : Signer) : List UInt8 :=
  sequence s.digests ++ (sequence (s.certificate :: s.certificates) ++ s.attributes)

def bytes (s : Signer) : List UInt8 := prefixed s.signedData ++ s.signatures

end Signer

inductive Pair where
  | v2 (signer : Signer) (signers : List Signer)
  | other (id : UInt32) (value : List UInt8) (hid : id.toNat ≠ signatureSchemeV2Magic)

namespace Pair

def id : Pair → Nat
  | v2 _ _ => signatureSchemeV2Magic
  | other id _ _ => id.toNat

def value : Pair → List UInt8
  | v2 signer signers => sequence ((signer :: signers).map Signer.bytes)
  | other _ value _ => value

def bytes (p : Pair) : List UInt8 := leBytes 8 (4 + p.value.length) ++ (leBytes 4 p.id ++ p.value)

def certificate? : Pair → Option (List UInt8)
  | v2 signer _ => some signer.certificate
  | other _ _ _ => none

end Pair

structure Apk where
  archive : Archive
  pairs : List Pair
  body_eq : archive.body = pairs.flatMap Pair.bytes
  wellFormed : archive.WellFormed

def Apk.file (apk : Apk) : File := apk.wellFormed.file

def Apk.certificate? (apk : Apk) : Option (List UInt8) := apk.pairs.findSome? Pair.certificate?

section Walk

variable {apk : File} {pos : Nat} {behind : List UInt8}

theorem sequence_signers (signer : Signer) (signers : List Signer) :
    ∃ l₁ l₂ l₃ l₄ behind, sequence ((signer :: signers).map Signer.bytes) =
      leBytes 4 l₁ ++ (leBytes 4 l₂ ++ (leBytes 4 l₃ ++ (sequence signer.digests ++
        (leBytes 4 l₄ ++ (prefixed signer.certificate ++ behind))))) := by
  refine ⟨(((signer :: signers).map Signer.bytes).flatMap prefixed).length, signer.bytes.length,
    signer.signedData.length, ((signer.certificate :: signer.certificates).flatMap prefixed).length,
    signer.certificates.flatMap prefixed ++ (signer.attributes ++ (signer.signatures ++
      (signers.map Signer.bytes).flatMap prefixed)), ?_⟩
  simp only [sequence, prefixed, List.map_cons, List.flatMap_cons, List.append_assoc, Signer.bytes,
    Signer.signedData]

theorem firstCertificate_of_drop {signer : Signer} {signers : List Signer}
    (hdrop : apk.data.drop pos = sequence ((signer :: signers).map Signer.bytes) ++ behind)
    (hlength : (sequence ((signer :: signers).map Signer.bytes)).length < 2 ^ 32) :
    firstCertificate apk pos = .ok signer.certificate := by
  have hbound := congrArg List.length hdrop
  have hfile := apk.length_lt
  obtain ⟨l₁, l₂, l₃, l₄, behind', hsequence⟩ := sequence_signers signer signers
  rw [List.length_append, List.length_drop] at hbound
  rw [hsequence] at hdrop hlength hbound
  simp only [List.length_append, length_leBytes, sequence, prefixed] at hlength hbound
  set digests := signer.digests.flatMap prefixed with hdigests
  simp only [List.append_assoc, sequence, prefixed, ← hdigests] at hdrop
  have hskip := drop_add_of_length (drop_add_of_length (drop_add_of_length hdrop (length_leBytes 4 _))
    (length_leBytes 4 _)) (length_leBytes 4 _)
  have hpos : pos + 4 + 4 + 4 = pos + 12 := rfl
  rw [hpos] at hskip
  have hcerts := drop_add_of_length (drop_add_of_length hskip (length_leBytes 4 _)) rfl
  have hcert := drop_add_of_length hcerts (length_leBytes 4 _)
  have hseek : seek (pos + 12) = .ok (pos + 12) := seek_eq_ok_iff.2 ⟨by omega, by omega⟩
  have hseek' : seek ((pos + 12 + 4 : Nat) + digests.length) = .ok (pos + 12 + 4 + digests.length) :=
    seek_eq_ok_iff.2 ⟨by omega, by omega⟩
  have hseek'' : seek ((pos + 12 + 4 + digests.length : Nat) + 4) = .ok (pos + 12 + 4 + digests.length + 4) :=
    seek_eq_ok_iff.2 ⟨by omega, by omega⟩
  rw [firstCertificate, hseek, except_ok_bind, readPod_of_drop hskip (by omega), except_ok_bind]
  dsimp only
  rw [hseek', except_ok_bind, hseek'', except_ok_bind, readPod_of_drop hcert (by omega), except_ok_bind]
  dsimp only
  rw [readExact_of_drop (drop_add_of_length hcert (length_leBytes 4 _)) rfl, except_ok_bind]
  rfl

theorem pairLen_of_drop {len : Nat} (hdrop : apk.data.drop pos = leBytes 8 len ++ behind)
    (hlen : len < 2 ^ 32) : pairLen apk pos = len := by
  rw [pairLen, slice, hdrop, List.take_left' (length_leBytes 8 _), ofLe_leBytes_of_lt (by omega)]

theorem length_bytes (p : Pair) : p.bytes.length = p.value.length + 12 := by
  rw [Pair.bytes, List.length_append, List.length_append, length_leBytes, length_leBytes]
  omega

theorem id_lt (p : Pair) : p.id < 256 ^ 4 := by
  cases p with
  | v2 signer signers =>
      change signatureSchemeV2Magic < 256 ^ 4
      decide
  | other id value hid => exact id.toNat_lt

theorem round_of_drop {p : Pair} {signingBlkSz : Nat} (hdrop : apk.data.drop pos = p.bytes ++ behind)
    (hlength : p.bytes.length < signingBlkSz) (hsize : signingBlkSz < 2 ^ 32) :
    round apk signingBlkSz pos =
      match p.certificate? with
      | some cert => .leave (.ok cert)
      | none => .next (pos + p.bytes.length) := by
  have hbound := congrArg List.length hdrop
  have hbytes := length_bytes p
  rw [List.length_append, List.length_drop] at hbound
  have hid := hdrop
  rw [Pair.bytes, List.append_assoc, List.append_assoc] at hid
  have hlen := pairLen_of_drop hid (by omega)
  have hne : pairLen apk pos ≠ signingBlkSz := by omega
  have hvalue := drop_add_of_length hid (length_leBytes 8 _)
  have hpairId : pairId apk pos = p.id := by
    rw [pairId, slice, hvalue, List.take_left' (length_leBytes 4 _), ofLe_leBytes_of_lt (id_lt p)]
  cases p with
  | v2 signer signers =>
      have hsequence := drop_add_of_length hvalue (length_leBytes 4 _)
      rw [Pair.value] at hbytes hsequence
      have hcert : firstCertificate apk (pos + 12) = .ok signer.certificate :=
        firstCertificate_of_drop hsequence (by omega)
      have hv2 : pairId apk pos = signatureSchemeV2Magic := hpairId
      rw [round, readPair_of_le (by omega), if_neg hne, if_pos hv2, hcert]
      rfl
  | other id value hother =>
      have hfile := apk.length_lt
      refine round_eq_next_iff.2 ⟨by omega, hne, ?_, .inl ⟨by omega, by omega⟩⟩
      rw [hpairId]
      exact hother

theorem run_pairs {pairs : List Pair} {signingBlkSz rounds : Nat}
    (hdrop : apk.data.drop pos = pairs.flatMap Pair.bytes ++ (leBytes 8 signingBlkSz ++ behind))
    (hbehind : 4 ≤ behind.length) (hlength : (pairs.flatMap Pair.bytes).length < signingBlkSz)
    (hsize : signingBlkSz < 2 ^ 32) (hrounds : pairs.length < rounds) :
    Loop.run (round apk signingBlkSz) rounds pos =
      some (match pairs.findSome? Pair.certificate? with
        | some cert => .ok cert
        | none => .error (.badApk "cannot find certificate")) := by
  obtain ⟨rounds, rfl⟩ := Nat.exists_eq_add_one_of_ne_zero (Nat.ne_zero_of_lt hrounds)
  induction pairs generalizing pos rounds with
  | nil =>
      apply Loop.run_succ_leave
      have hbound := congrArg List.length hdrop
      rw [List.length_drop] at hbound
      simp only [List.length_append, length_leBytes, List.flatMap_nil, List.length_nil] at hbound
      rw [round, readPair_of_le (by omega), if_pos (pairLen_of_drop hdrop hsize)]
      rfl
  | cons p pairs ih =>
      rw [List.flatMap_cons, List.length_append] at hlength
      rw [List.flatMap_cons, List.append_assoc] at hdrop
      have hround := round_of_drop hdrop (by omega) hsize
      rw [List.length_cons] at hrounds
      cases hcert : p.certificate? with
      | some cert =>
          rw [hcert] at hround
          rw [Loop.run_succ_leave hround, List.findSome?_cons, hcert]
      | none =>
          rw [hcert] at hround
          obtain ⟨rounds, rfl⟩ := Nat.exists_eq_add_one_of_ne_zero (show rounds ≠ 0 by omega)
          rw [Loop.run_succ_next hround, ih (drop_add_of_drop_eq hdrop) (by omega) rounds (by omega),
            List.findSome?_cons, hcert]

end Walk

/-- **Reading a certificate.** The first one of the first signer under the first id of the second scheme is
returned, and nothing if there is no such id. -/
theorem readCertificate_file (apk : Apk) {version : Int} (hversion : version < 0) {rounds : Nat}
    (hrounds : apk.pairs.length < rounds) :
    readCertificate apk.file version rounds = some (apk.certificate?.getD []) := by
  have hblock := Archive.signingBlock_file apk.wellFormed hversion
  have hoff := apk.wellFormed.centralDirOff_lt
  have hsize : apk.archive.blockSize = (apk.pairs.flatMap Pair.bytes).length + 24 := by
    rw [Archive.blockSize, apk.body_eq]
  have hdrop := apk.archive.drop_body
  rw [apk.body_eq, Archive.tail] at hdrop
  have hle : apk.archive.blockSize ≤ apk.archive.centralDirOff := Nat.le_add_left _ _
  have hbehind : 4 ≤ (apkSigningBlockMagic ++ (apk.archive.centralDir ++ apk.archive.endRecord)).length := by
    rw [List.length_append]
    exact Nat.le_add_right_of_le (by decide)
  have hrun : Loop.run (round apk.file apk.archive.blockSize) rounds (apk.archive.content.length + 8) = _ :=
    run_pairs hdrop hbehind (by omega) (by omega) hrounds
  rw [readCertificate, Apk.file, hblock]
  dsimp only
  rw [Apk.file] at hrun
  rw [hrun, Apk.certificate?]
  cases apk.pairs.findSome? Pair.certificate? <;> rfl

def samplePairs : List Pair := [.other 1 [9] (by decide), .v2 ⟨[[4]], [1, 2, 3], [[6]], [], []⟩ []]

def sampleApk : Apk where
  archive := ⟨[7], samplePairs.flatMap Pair.bytes, [8], List.replicate 12 0, [5]⟩
  pairs := samplePairs
  body_eq := rfl
  wellFormed := ⟨rfl, by decide, by decide, by decide, by decide⟩

theorem readCertificate_sampleApk : readCertificate sampleApk.file (-1) 3 = some [1, 2, 3] :=
  readCertificate_file sampleApk (by decide) (by decide)

end MagiskNative.Daemon
