import MagiskNative.Boot.HeaderFile
import MagiskNative.Lib.Loop

/-!
# The certificate of a package

`read_certificate` of `core/package.rs` finds the end record of an archive from the back, the signing block
from its end, and walks over the pairs in the block until it comes to the one of the second signature
scheme. All integers are added as the release build does, which wraps.
-/

namespace MagiskNative.Daemon

open Bytes

/-- The size of a file is an `off_t`. -/
structure File where
  data : List UInt8
  length_lt : data.length < 2 ^ 63

/-- `badApk` stands for an error with the text `cert: ` and the message. -/
inductive CertError where
  | io
  | badApk (msg : String)
  deriving DecidableEq, Repr

def eocdMagic : Nat := 0x06054B50

def apkSigningBlockMagic : List UInt8 :=
  [0x41, 0x50, 0x4b, 0x20, 0x53, 0x69, 0x67, 0x20, 0x42, 0x6c, 0x6f, 0x63, 0x6b, 0x20, 0x34, 0x32]

def signatureSchemeV2Magic : Nat := 0x7109871A

def i64 (x : Int) : Int := x.bmod (2 ^ 64)

def seek (pos : Int) : Except CertError Nat :=
  if 0 ≤ pos ∧ pos < 2 ^ 63 then .ok pos.toNat else .error .io

def parseI32 (s : String) : Option Int :=
  let (negative, digits) :=
    match s.toList with
    | '-' :: digits => (true, digits)
    | '+' :: digits => (false, digits)
    | digits => (false, digits)
  if digits = [] ∨ digits.all Char.isDigit = false then none
  else
    let n : Int := digits.foldl (fun n d => n * 10 + (d.toNat - 0x30)) 0
    let n := if negative then -n else n
    if -2 ^ 31 ≤ n ∧ n < 2 ^ 31 then some n else none

def apkVersion (comment : List UInt8) : Int :=
  match ((Boot.validLines comment).filterMap Boot.propOfLine).find? (·.1 = "versionCode") with
  | some (_, value) => (parseI32 value).getD 0
  | none => 0

section Reading

variable (apk : File)

def readExact (pos n : Nat) : Except CertError (List UInt8 × Nat) :=
  if n = 0 ∨ pos + n ≤ apk.data.length then .ok (slice apk.data pos n, pos + n) else .error .io

def readPod (pos n : Nat) : Except CertError (Nat × Nat) := do
  let (bytes, pos) ← readExact apk pos n
  return (ofLe bytes, pos)

/-- The position behind the magic of an end record with `i` bytes of comment, if there is one. -/
def checkEocd (i : Nat) : Except CertError (Option Nat) := do
  let pos ← seek (apk.data.length + (-2 - i))
  let (commentSz, pos) ← readPod apk pos 2
  if commentSz = i then
    let pos ← seek (pos - 22)
    let (magic, pos) ← readPod apk pos 4
    return if magic = eocdMagic then some pos else none
  else return none

/-- The search for the end record, from `0xffff - left` bytes of comment on. -/
def findEocd : (left : Nat) → Except CertError Nat
  | 0 => do
      match ← checkEocd apk 0xffff with
      | some pos => return pos
      | none => throw (.badApk "invalid APK format")
  | left + 1 => do
      match ← checkEocd apk (0xffff - (left + 1)) with
      | some pos => return pos
      | none => findEocd left

def checkVersion (version : Int) (pos : Nat) : Except CertError Unit :=
  if 0 ≤ version then do
    let (commentSz, pos) ← readPod apk pos 2
    let (comment, _) ← readExact apk pos commentSz
    if version > apkVersion comment then throw (.badApk "APK version too low")
  else return

def signingBlockAt (centralDirOff : Nat) : Except CertError (Nat × Nat) := do
  let pos ← seek ((centralDirOff + (2 ^ 32 - 24)) % 2 ^ 32 : Nat)
  let (blockSz, pos) ← readPod apk pos 8
  let (magic, pos) ← readExact apk pos 16
  if magic ≠ apkSigningBlockMagic then throw (.badApk "invalid signing block magic")
  let pos ← seek (pos + i64 (i64 (-i64 blockSz) - 8))
  let (signingBlkSz, pos) ← readPod apk pos 8
  if signingBlkSz ≠ blockSz then throw (.badApk "invalid signing block size")
  return (signingBlkSz, pos)

def signingBlock (version : Int) : Except CertError (Nat × Nat) := do
  let pos ← findEocd apk 0xffff
  let pos ← seek (pos + 12)
  let (centralDirOff, pos) ← readPod apk pos 4
  checkVersion apk version pos
  signingBlockAt apk centralDirOff

/-- The first certificate of the first signer, from behind the id of the pair on. -/
def firstCertificate (pos : Nat) : Except CertError (List UInt8) := do
  let pos ← seek (pos + 12)
  let (digests, pos) ← readPod apk pos 4
  let pos ← seek (pos + digests)
  let pos ← seek (pos + 4)
  let (certLen, pos) ← readPod apk pos 4
  let (cert, _) ← readExact apk pos certLen
  return cert

def readPair (signingBlkSz pos : Nat) : Except CertError (Loop.Round Nat (List UInt8)) := do
  let (len, pos) ← readPod apk pos 8
  if len = signingBlkSz then throw (.badApk "cannot find certificate")
  let (id, pos) ← readPod apk pos 4
  if id = signatureSchemeV2Magic then
    let cert ← firstCertificate apk pos
    return .leave cert
  else
    let pos ← seek (pos + i64 (i64 len - 4))
    return .next pos

def round (signingBlkSz pos : Nat) : Loop.Round Nat (Except CertError (List UInt8)) :=
  match readPair apk signingBlkSz pos with
  | .ok (.leave cert) => .leave (.ok cert)
  | .ok (.next pos) => .next pos
  | .error e => .leave (.error e)

/-- `none` if the loop is not left after `rounds` passes. -/
def readCertificate (version : Int) (rounds : Nat) : Option (List UInt8) :=
  match signingBlock apk version with
  | .ok (signingBlkSz, pos) => (Loop.run (round apk signingBlkSz) rounds pos).map (Except.toOption · |>.getD [])
  | .error _ => some []

end Reading

@[simp] theorem except_ok_bind {α β : Type} (value : α) (f : α → Except CertError β) :
    (Except.ok value >>= f) = f value := rfl

theorem seek_eq_ok_iff {x : Int} {pos : Nat} : seek x = .ok pos ↔ x = pos ∧ pos < 2 ^ 63 := by
  unfold seek
  split
  · rw [Except.ok.injEq]
    omega
  · refine iff_of_false nofun ?_
    omega

theorem exists_i64_eq (x : Int) : ∃ k : Int, i64 x = x + k * 2 ^ 64 ∧ -2 ^ 63 ≤ i64 x ∧ i64 x < 2 ^ 63 := by
  refine ⟨-(x.bdiv (2 ^ 64)), ?_, ?_, ?_⟩
  · have hdiv := Int.bmod_add_bdiv x (2 ^ 64)
    rw [Nat.cast_pow, Nat.cast_ofNat] at hdiv
    unfold i64
    linarith
  · exact Int.le_bmod (by norm_num)
  · exact Int.bmod_lt (by norm_num)

variable {apk : File} {pos n : Nat}

theorem readExact_of_le (hle : pos + n ≤ apk.data.length) :
    readExact apk pos n = .ok (slice apk.data pos n, pos + n) :=
  if_pos (.inr hle)

theorem readPod_of_le (hle : pos + n ≤ apk.data.length) :
    readPod apk pos n = .ok (ofLe (slice apk.data pos n), pos + n) := by
  rw [readPod, readExact_of_le hle]
  rfl

theorem readPod_of_lt (hn : n ≠ 0) (hlt : apk.data.length < pos + n) : readPod apk pos n = .error .io := by
  rw [readPod, readExact, if_neg (by omega)]
  rfl

section Drop

variable {field behind : List UInt8}

theorem drop_add_of_length {data : List UInt8} (hdrop : data.drop pos = field ++ behind)
    (hlength : field.length = n) : data.drop (pos + n) = behind := by
  rw [← hlength, drop_add_of_drop_eq hdrop]

theorem readExact_of_drop (hdrop : apk.data.drop pos = field ++ behind) (hlength : field.length = n) :
    readExact apk pos n = .ok (field, pos + n) := by
  subst hlength
  have hslice : slice apk.data pos field.length = field := by rw [slice, hdrop, List.take_left]
  rw [readExact, hslice]
  by_cases hfield : field = []
  · exact if_pos (.inl (List.length_eq_zero_iff.2 hfield))
  · exact if_pos (.inr (add_le_length_of_drop_eq hdrop hfield))

theorem readPod_of_drop {value : Nat} (hdrop : apk.data.drop pos = leBytes n value ++ behind)
    (hvalue : value < 256 ^ n) : readPod apk pos n = .ok (value, pos + n) := by
  rw [readPod, readExact_of_drop hdrop (length_leBytes n value), except_ok_bind]
  dsimp only
  rw [ofLe_leBytes_of_lt hvalue]
  rfl

end Drop

/-- A file with a signing block in it: what stands before the block, the pairs of the block, the central
directory, the fields of the end record before the offset of the directory, and the comment. -/
structure Archive where
  content : List UInt8
  body : List UInt8
  centralDir : List UInt8
  fields : List UInt8
  comment : List UInt8

namespace Archive

variable (a : Archive)

def blockSize : Nat := a.body.length + 24

def centralDirOff : Nat := a.content.length + 8 + a.blockSize

def endRecord : List UInt8 :=
  leBytes 4 eocdMagic ++ (a.fields ++ (leBytes 4 a.centralDirOff ++ (leBytes 2 a.comment.length ++ a.comment)))

def tail : List UInt8 :=
  leBytes 8 a.blockSize ++ (apkSigningBlockMagic ++ (a.centralDir ++ a.endRecord))

def bytes : List UInt8 := a.content ++ (leBytes 8 a.blockSize ++ (a.body ++ a.tail))

end Archive

/-- The last bytes, of which `i` are the comment, look like an end record. -/
def LooksLikeRecord (data : List UInt8) (i : Nat) : Prop :=
  ofLe (slice data (data.length - 22 - i) 4) = eocdMagic ∧ ofLe (slice data (data.length - 2 - i) 2) = i

structure Archive.WellFormed (a : Archive) : Prop where
  length_fields : a.fields.length = 12
  length_comment : a.comment.length < 2 ^ 16
  centralDirOff_lt : a.centralDirOff < 2 ^ 32
  length_lt : a.bytes.length < 2 ^ 63
  comment_free : ∀ i < a.comment.length, ¬ LooksLikeRecord a.bytes i

instance (data : List UInt8) (i : Nat) : Decidable (LooksLikeRecord data i) :=
  inferInstanceAs (Decidable (_ ∧ _))

theorem checkEocd_eq {i : Nat} (hi : 22 + i ≤ apk.data.length) :
    checkEocd apk i =
      .ok (if LooksLikeRecord apk.data i then some (apk.data.length - 22 - i + 4) else none) := by
  have hlength := apk.length_lt
  have hfield : seek (apk.data.length + (-2 - i)) = .ok (apk.data.length - 2 - i) :=
    seek_eq_ok_iff.2 ⟨by omega, by omega⟩
  have hmagic : seek ((apk.data.length - 2 - i + 2 : Nat) - 22) = .ok (apk.data.length - 22 - i) :=
    seek_eq_ok_iff.2 ⟨by omega, by omega⟩
  rw [checkEocd, hfield, except_ok_bind, readPod_of_le (by omega), except_ok_bind]
  dsimp only
  by_cases hcomment : ofLe (slice apk.data (apk.data.length - 2 - i) 2) = i
  · rw [if_pos hcomment, hmagic, except_ok_bind, readPod_of_le (by omega), except_ok_bind]
    simp only [LooksLikeRecord, hcomment, and_true]
    rfl
  · rw [if_neg hcomment, if_neg fun hlooks => hcomment hlooks.2]
    rfl

theorem findEocd_eq {i left : Nat} (hi : 22 + i ≤ apk.data.length) (hlooks : LooksLikeRecord apk.data i)
    (hshorter : ∀ j < i, ¬ LooksLikeRecord apk.data j) (hleft : 0xffff ≤ i + left) (hle : i ≤ 0xffff) :
    findEocd apk left = .ok (apk.data.length - 22 - i + 4) := by
  induction left with
  | zero =>
      obtain rfl : i = 0xffff := by omega
      rw [findEocd, checkEocd_eq hi, if_pos hlooks]
      rfl
  | succ left ih =>
      rw [findEocd, checkEocd_eq (by omega)]
      rcases Nat.lt_or_ge (0xffff - (left + 1)) i with hlt | hge
      · rw [if_neg (hshorter _ hlt)]
        exact ih (by omega)
      · obtain rfl : 0xffff - (left + 1) = i := by omega
        rw [if_pos hlooks]
        rfl

namespace Archive

variable {a : Archive}

def WellFormed.file (hwf : a.WellFormed) : File := ⟨a.bytes, hwf.length_lt⟩

def recordOff (a : Archive) : Nat := a.centralDirOff + a.centralDir.length

theorem length_bytes (hwf : a.WellFormed) : a.bytes.length = a.recordOff + 22 + a.comment.length := by
  simp only [bytes, tail, endRecord, recordOff, centralDirOff, blockSize, List.length_append, length_leBytes,
    hwf.length_fields]
  have hmagic : apkSigningBlockMagic.length = 16 := rfl
  omega

theorem drop_content (a : Archive) :
    a.bytes.drop a.content.length = leBytes 8 a.blockSize ++ (a.body ++ a.tail) :=
  List.drop_left

theorem drop_body (a : Archive) : a.bytes.drop (a.content.length + 8) = a.body ++ a.tail :=
  drop_add_of_length a.drop_content (length_leBytes 8 _)

theorem drop_tail (a : Archive) : a.bytes.drop (a.content.length + 8 + a.body.length) = a.tail :=
  drop_add_of_drop_eq a.drop_body

theorem drop_endRecord (a : Archive) : a.bytes.drop a.recordOff = a.endRecord := by
  have hmagic := drop_add_of_length a.drop_tail (length_leBytes 8 _)
  have hcentral := drop_add_of_length hmagic (n := 16) rfl
  exact drop_add_of_drop_eq hcentral

theorem drop_centralDirOff (hwf : a.WellFormed) :
    a.bytes.drop (a.recordOff + 4 + 12) =
      leBytes 4 a.centralDirOff ++ (leBytes 2 a.comment.length ++ a.comment) :=
  drop_add_of_length (drop_add_of_length a.drop_endRecord (length_leBytes 4 _)) hwf.length_fields

theorem looksLikeRecord (hwf : a.WellFormed) : LooksLikeRecord a.bytes a.comment.length := by
  have hlength := length_bytes hwf
  have hstart : a.bytes.length - 22 - a.comment.length = a.recordOff := by omega
  have hfield : a.bytes.length - 2 - a.comment.length = a.recordOff + 4 + 12 + 4 := by omega
  have hcomment := drop_add_of_length (drop_centralDirOff hwf) (length_leBytes 4 _)
  refine ⟨?_, ?_⟩
  · rw [hstart, slice, drop_endRecord, endRecord, List.take_left' (length_leBytes 4 _),
      ofLe_leBytes_of_lt (by decide)]
  · rw [hfield, slice, hcomment, List.take_left' (length_leBytes 2 _), ofLe_leBytes_of_lt hwf.length_comment]

theorem signingBlockAt_file (hwf : a.WellFormed) :
    signingBlockAt hwf.file a.centralDirOff = .ok (a.blockSize, a.content.length + 8) := by
  have hoff : a.centralDirOff = a.content.length + 8 + a.body.length + 24 := rfl
  have hlt := hwf.centralDirOff_lt
  have hsize : a.blockSize < 256 ^ 8 := by
    have hle : a.blockSize ≤ a.centralDirOff := Nat.le_add_left _ _
    omega
  have hseek : seek ((a.centralDirOff + (2 ^ 32 - 24)) % 2 ^ 32 : Nat) =
      .ok (a.content.length + 8 + a.body.length) :=
    seek_eq_ok_iff.2 ⟨by omega, by omega⟩
  have hback : seek ((a.content.length + 8 + a.body.length + 8 + 16 : Nat) +
      i64 (i64 (-i64 a.blockSize) - 8)) = .ok a.content.length := by
    obtain ⟨k, hk, hlow, hhigh⟩ := exists_i64_eq a.blockSize
    obtain ⟨k', hk', hlow', hhigh'⟩ := exists_i64_eq (-i64 a.blockSize)
    obtain ⟨k'', hk'', hlow'', hhigh''⟩ := exists_i64_eq (i64 (-i64 a.blockSize) - 8)
    have hblock : a.blockSize = a.body.length + 24 := rfl
    exact seek_eq_ok_iff.2 ⟨by omega, by omega⟩
  have hmagic : readExact hwf.file (a.content.length + 8 + a.body.length + 8) 16 =
      .ok (apkSigningBlockMagic, a.content.length + 8 + a.body.length + 8 + 16) :=
    readExact_of_drop (drop_add_of_length a.drop_tail (length_leBytes 8 _)) rfl
  rw [signingBlockAt, hseek, except_ok_bind, readPod_of_drop a.drop_tail hsize, except_ok_bind]
  dsimp only
  rw [hmagic, except_ok_bind]
  dsimp only
  rw [if_neg (not_not.2 rfl), hback, except_ok_bind, readPod_of_drop a.drop_content hsize, except_ok_bind]
  dsimp only
  rw [if_neg (not_not.2 rfl)]
  rfl

theorem signingBlock_file (hwf : a.WellFormed) {version : Int} (hversion : version < 0) :
    signingBlock hwf.file version = .ok (a.blockSize, a.content.length + 8) := by
  have hlength := length_bytes hwf
  have hlt := hwf.length_lt
  have hcomment := hwf.length_comment
  have hfind : findEocd hwf.file 0xffff = .ok (a.recordOff + 4) := by
    have hstart : a.bytes.length - 22 - a.comment.length = a.recordOff := by omega
    rw [← hstart]
    have hinside : 22 + a.comment.length ≤ a.bytes.length := by omega
    exact findEocd_eq hinside (looksLikeRecord hwf) hwf.comment_free (by omega) (by omega)
  have hseek : seek ((a.recordOff + 4 : Nat) + 12) = .ok (a.recordOff + 4 + 12) :=
    seek_eq_ok_iff.2 ⟨by omega, by omega⟩
  have hversion' : ∀ pos, checkVersion hwf.file version pos = .ok () := fun pos => if_neg (by omega)
  rw [signingBlock, hfind, except_ok_bind, hseek, except_ok_bind,
    readPod_of_drop (drop_centralDirOff hwf) hwf.centralDirOff_lt, except_ok_bind]
  dsimp only
  rw [hversion', except_ok_bind, signingBlockAt_file]

end Archive

def pairLen (apk : File) (pos : Nat) : Nat := ofLe (slice apk.data pos 8)

def pairId (apk : File) (pos : Nat) : Nat := ofLe (slice apk.data (pos + 8) 4)

theorem pairLen_lt (apk : File) (pos : Nat) : pairLen apk pos < 2 ^ 64 := by
  calc
    pairLen apk pos < 256 ^ (slice apk.data pos 8).length := ofLe_lt _
    _ ≤ 256 ^ 8 := Nat.pow_le_pow_right (by decide) (by rw [length_slice]; omega)

theorem readPair_of_le {signingBlkSz : Nat} (hle : pos + 12 ≤ apk.data.length) :
    readPair apk signingBlkSz pos =
      if pairLen apk pos = signingBlkSz then .error (.badApk "cannot find certificate")
      else if pairId apk pos = signatureSchemeV2Magic then .leave <$> firstCertificate apk (pos + 12)
      else .next <$> seek ((pos + 12 : Nat) + i64 (i64 (pairLen apk pos) - 4)) := by
  rw [readPair, readPod_of_le (by omega)]
  simp only [except_ok_bind]
  by_cases hsize : ofLe (slice apk.data pos 8) = signingBlkSz
  · rw [if_pos hsize, pairLen, if_pos hsize]
    rfl
  · rw [if_neg hsize, pairLen, if_neg hsize, readPod_of_le (by omega), except_ok_bind, pairId]
    dsimp only
    by_cases hid : ofLe (slice apk.data (pos + 8) 4) = signatureSchemeV2Magic
    · rw [if_pos hid, if_pos hid, map_eq_pure_bind]
    · rw [if_neg hid, if_neg hid, map_eq_pure_bind]

theorem exists_readPair_of_lt (signingBlkSz : Nat) (hlt : apk.data.length < pos + 12) :
    ∃ e, readPair apk signingBlkSz pos = .error e := by
  by_cases hle : pos + 8 ≤ apk.data.length
  · rw [readPair, readPod_of_le hle]
    simp only [except_ok_bind]
    split
    · exact ⟨_, rfl⟩
    · rw [readPod_of_lt (by decide) (by omega)]
      exact ⟨_, rfl⟩
  · rw [readPair, readPod_of_lt (by decide) (by omega)]
    exact ⟨_, rfl⟩

theorem round_eq_next_iff {signingBlkSz pos' : Nat} :
    round apk signingBlkSz pos = .next pos' ↔
      pos + 12 ≤ apk.data.length ∧ pairLen apk pos ≠ signingBlkSz ∧
        pairId apk pos ≠ signatureSchemeV2Magic ∧
        (pos' = pos + 8 + pairLen apk pos ∧ pos' < 2 ^ 63 ∨ pos' + 2 ^ 64 = pos + 8 + pairLen apk pos) := by
  rcases Nat.lt_or_ge apk.data.length (pos + 12) with hlt | hle
  · obtain ⟨e, he⟩ := exists_readPair_of_lt signingBlkSz hlt
    rw [round, he]
    exact iff_of_false nofun (by omega)
  · have hjump : ((pos + 12 : Nat) : Int) + i64 (i64 (pairLen apk pos) - 4) = pos' ∧ pos' < 2 ^ 63 ↔
        pos' = pos + 8 + pairLen apk pos ∧ pos' < 2 ^ 63 ∨ pos' + 2 ^ 64 = pos + 8 + pairLen apk pos := by
      have hlength := apk.length_lt
      have hlen := pairLen_lt apk pos
      obtain ⟨k, hk, hlow, hhigh⟩ := exists_i64_eq (pairLen apk pos)
      obtain ⟨k', hk', hlow', hhigh'⟩ := exists_i64_eq (i64 (pairLen apk pos) - 4)
      omega
    rw [← hjump, ← seek_eq_ok_iff, round, readPair_of_le hle]
    by_cases hsize : pairLen apk pos = signingBlkSz
    · rw [if_pos hsize]
      exact iff_of_false nofun fun h => h.2.1 hsize
    rw [if_neg hsize]
    by_cases hid : pairId apk pos = signatureSchemeV2Magic
    · rw [if_pos hid]
      refine iff_of_false ?_ fun h => h.2.2.1 hid
      cases firstCertificate apk (pos + 12) <;> exact nofun
    rw [if_neg hid]
    cases hseek : seek ((pos + 12 : Nat) + i64 (i64 (pairLen apk pos) - 4)) with
    | error e => exact iff_of_false nofun fun h => nomatch h.2.2.2
    | ok next => simp [Functor.map, Except.map, hle, hsize, hid]

def Terminates (apk : File) (version : Int) : Prop :=
  ∃ rounds cert, readCertificate apk version rounds = some cert

def Advances (apk : File) (version : Int) : Prop :=
  ∀ signingBlkSz start, signingBlock apk version = .ok (signingBlkSz, start) → ∀ pos pos',
    Loop.Visits (round apk signingBlkSz) start pos → round apk signingBlkSz pos = .next pos' → pos < pos'

/-- A pair that is skipped with a length of `-8` or less, as a signed number, and so that the position stays
in the file. -/
def JumpsBack (apk : File) (signingBlkSz pos : Nat) : Prop :=
  pos + 12 ≤ apk.data.length ∧ pairLen apk pos ≠ signingBlkSz ∧ pairId apk pos ≠ signatureSchemeV2Magic ∧
    2 ^ 64 ≤ pos + 8 + pairLen apk pos ∧ pairLen apk pos + 8 ≤ 2 ^ 64

theorem terminates_of_advances {version : Int} (hadvances : Advances apk version) : Terminates apk version := by
  unfold Terminates readCertificate
  match hblock : signingBlock apk version with
  | .error e => exact ⟨0, [], rfl⟩
  | .ok (signingBlkSz, start) =>
      -- a pass that goes on has read a pair inside the file
      have hends : Loop.Ends (round apk signingBlkSz) start := by
        apply Loop.ends_of_measure (μ := fun pos => apk.data.length - pos)
        intro pos pos' hvisits hnext
        have hlt := hadvances signingBlkSz start hblock pos pos' hvisits hnext
        have hle := (round_eq_next_iff.1 hnext).1
        omega
      obtain ⟨rounds, result, hrun⟩ := hends
      exact ⟨rounds, _, congrArg (Option.map _) hrun⟩

/-- **Termination.** The loop advances in every pass, and so ends, exactly if it comes to no pair whose
length makes it jump back. -/
theorem terminates_and_advances_iff (apk : File) (version : Int) :
    Terminates apk version ∧ Advances apk version ↔
      ∀ signingBlkSz start, signingBlock apk version = .ok (signingBlkSz, start) → ∀ pos,
        Loop.Visits (round apk signingBlkSz) start pos → ¬ JumpsBack apk signingBlkSz pos := by
  constructor
  · rintro ⟨-, hadvances⟩ signingBlkSz start hblock pos hvisits ⟨hle, hsize, hid, hinside, hback⟩
    have hnext : round apk signingBlkSz pos = .next (pos + 8 + pairLen apk pos - 2 ^ 64) :=
      round_eq_next_iff.2 ⟨hle, hsize, hid, .inr (by omega)⟩
    have hlt := hadvances signingBlkSz start hblock pos _ hvisits hnext
    omega
  · intro hforward
    have hadvances : Advances apk version := by
      intro signingBlkSz start hblock pos pos' hvisits hnext
      obtain ⟨hle, hsize, hid, hpos | hpos⟩ := round_eq_next_iff.1 hnext
      · omega
      · by_contra hge
        exact hforward signingBlkSz start hblock pos hvisits ⟨hle, hsize, hid, by omega, by omega⟩
    exact ⟨terminates_of_advances hadvances, hadvances⟩

def loopingArchive : Archive := ⟨[], leBytes 8 (2 ^ 64 - 8) ++ leBytes 4 1, [], List.replicate 12 0, []⟩

theorem wellFormed_loopingArchive : loopingArchive.WellFormed where
  length_fields := rfl
  length_comment := by decide
  centralDirOff_lt := by decide
  length_lt := by decide
  comment_free := nofun

def loopingApk : File := wellFormed_loopingArchive.file

theorem not_terminates_loopingApk : ¬ Terminates loopingApk (-1) := by
  have hself : round loopingApk 36 8 = .next 8 := round_eq_next_iff.2 (by decide)
  rintro ⟨rounds, cert, hcert⟩
  have hblock : signingBlock loopingApk (-1) = .ok (36, 8) :=
    Archive.signingBlock_file wellFormed_loopingArchive (by decide)
  rw [readCertificate, hblock] at hcert
  simp only [Loop.run_eq_none_of_self hself, Option.map_none] at hcert
  cases hcert

end MagiskNative.Daemon
