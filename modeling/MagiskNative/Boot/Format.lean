import MagiskNative.Lib.Bytes
import MagiskNative.Lib.Text

/-!
# File formats

Formats are recognised by their first bytes. `check_fmt` gets a pointer and a length, and the pointer
can be near the end of a mapping: in `readFmt` and `checkFmtLg` the buffer is everything the mapping
has from the pointer on, the length is the claimed one, and `none` stands for a process that does not
get any further, because it reads outside the mapping or because the loop never ends.
-/

namespace MagiskNative.Boot

open Bytes
open Text (utf8Bytes)

inductive FileFormat where
  | unknown
  | chromeos
  | aosp
  | aospVendor
  | dhtb
  | blob
  | gzip
  | xz
  | lzma
  | bzip2
  | lz4
  | lz4Legacy
  | lz4Lg
  | lzop
  | mtk
  | dtb
  | zimage
  deriving DecidableEq, Repr

def fmtCompressed : FileFormat → Bool
  | .gzip | .xz | .lzma | .bzip2 | .lz4 | .lz4Legacy | .lz4Lg => true
  | _ => false

def FileFormat.ext : FileFormat → String
  | .gzip => "gz"
  | .lzop => "lzo"
  | .xz => "xz"
  | .lzma => "lzma"
  | .bzip2 => "bz2"
  | .lz4 | .lz4Legacy | .lz4Lg => "lz4"
  | _ => ""

def fmtCompressedAny (fmt : FileFormat) : Bool := fmtCompressed fmt || fmt == .lzop

def chromeosMagic : List UInt8 := utf8Bytes "CHROMEOS"
def bootMagic : List UInt8 := utf8Bytes "ANDROID!"
def vendorBootMagic : List UInt8 := utf8Bytes "VNDRBOOT"
def gzip1Magic : List UInt8 := [0x1f, 0x8b]
def gzip2Magic : List UInt8 := [0x1f, 0x9e]
def lzopMagic : List UInt8 := [0x89, 0x4c, 0x5a, 0x4f]
def xzMagic : List UInt8 := [0xfd, 0x37, 0x7a, 0x58, 0x5a]
def bzipMagic : List UInt8 := [0x42, 0x5a, 0x68]
def lz41Magic : List UInt8 := [0x03, 0x21, 0x4c, 0x18]
def lz42Magic : List UInt8 := [0x04, 0x22, 0x4d, 0x18]
def lz4LegMagic : List UInt8 := [0x02, 0x21, 0x4c, 0x18]
def mtkMagic : List UInt8 := [0x88, 0x16, 0x88, 0x58]
def dtbMagic : List UInt8 := [0xd0, 0x0d, 0xfe, 0xed]
def dhtbMagic : List UInt8 := [0x44, 0x48, 0x54, 0x42, 0x01, 0x00, 0x00, 0x00]
def tegrablobMagic : List UInt8 := utf8Bytes "-SIGNED-BY-SIGNBLOB-"
def zimageMagic : List UInt8 := [0x18, 0x28, 0x6f, 0x01]

def guessLzma (buf : List UInt8) : Bool :=
  if buf.length ≤ 13 ∨ buf.head? ≠ some 0x5d then false
  else
    let dictSz := ofLe (slice buf 1 4)
    if dictSz = 0 ∨ dictSz &&& (dictSz - 1) ≠ 0 then false
    else slice buf 5 8 = List.replicate 8 0xff

def checkFmt (buf : List UInt8) : FileFormat :=
  if chromeosMagic <+: buf then .chromeos
  else if bootMagic <+: buf then .aosp
  else if vendorBootMagic <+: buf then .aospVendor
  else if gzip1Magic <+: buf ∨ gzip2Magic <+: buf then .gzip
  else if lzopMagic <+: buf then .lzop
  else if xzMagic <+: buf then .xz
  else if guessLzma buf then .lzma
  else if bzipMagic <+: buf then .bzip2
  else if lz41Magic <+: buf ∨ lz42Magic <+: buf then .lz4
  else if lz4LegMagic <+: buf then .lz4Legacy
  else if mtkMagic <+: buf then .mtk
  else if dtbMagic <+: buf then .dtb
  else if dhtbMagic <+: buf then .dhtb
  else if tegrablobMagic <+: buf then .blob
  else if 0x28 ≤ buf.length ∧ slice buf 0x24 4 = zimageMagic then .zimage
  else .unknown

/-- `check_fmt` on `sz` bytes: no test looks behind the first 40. -/
def readFmt (buf : List UInt8) (sz : Nat) : Option FileFormat :=
  if min sz 40 ≤ buf.length then some (checkFmt (buf.take (min sz 40))) else none

/-- The loop of `check_fmt_lg`. Its offset has 32 bits, so one that is still running after `2 ^ 32`
rounds has been at the same offset twice. -/
def lgLoop (buf : List UInt8) (sz : Nat) : Nat → Nat → Option FileFormat
  | 0, _ => none
  | rounds + 1, off =>
      if off + 4 ≤ sz then
        if off + 4 ≤ buf.length then
          let blockSz := ofLe (slice buf off 4)
          let off := (off + 4) % 2 ^ 32
          if sz < (off + blockSz) % 2 ^ 32 then some .lz4Lg
          else lgLoop buf sz rounds ((off + blockSz) % 2 ^ 32)
        else none
      else some .lz4Legacy

def checkFmtLg (buf : List UInt8) (sz : Nat) : Option FileFormat := do
  let fmt ← readFmt buf sz
  if fmt = .lz4Legacy then lgLoop buf sz (2 ^ 32) 4 else return fmt

/-- The stream starts with the magic of its format, or with the header of an LZMA stream of unknown
length. -/
def HasMagic (buf : List UInt8) : FileFormat → Prop
  | .gzip => gzip1Magic <+: buf ∨ gzip2Magic <+: buf
  | .xz => xzMagic <+: buf
  | .lzma => guessLzma buf
  | .bzip2 => bzipMagic <+: buf
  | .lz4 => lz41Magic <+: buf ∨ lz42Magic <+: buf
  | .lz4Legacy => lz4LegMagic <+: buf
  | _ => False

variable {b : UInt8} {buf magic : List UInt8} {sz : Nat}

theorem head?_of_startsWith (hmagic : magic.head? = some b)
    (hpre : magic <+: buf) : buf.head? = some b := by
  obtain ⟨rest, rfl⟩ := hpre
  rw [List.head?_append, hmagic]
  rfl

theorem head?_of_guessLzma (hguess : guessLzma buf) : buf.head? = some 0x5d := by
  by_contra hhead
  rw [guessLzma, if_pos (.inr hhead)] at hguess
  cases hguess

theorem not_prefix_of_head (hbuf : buf.head? = some b) (hmagic : magic.head?.any (· != b) = true) :
    ¬ magic <+: buf := by
  rintro ⟨rest, rfl⟩
  cases magic with
  | nil => cases hmagic
  | cons a magic =>
      cases hbuf
      simp at hmagic

theorem not_guessLzma_of_head (hbuf : buf.head? = some b) (hne : 0x5d ≠ b) : ¬ guessLzma buf := by
  intro hguess
  rw [head?_of_guessLzma hguess] at hbuf
  exact hne (Option.some.inj hbuf)

variable {fmt : FileFormat}

-- No test before that of the format takes a stream with this first byte.
theorem checkFmt_of_hasMagic (hmagic : HasMagic buf fmt) : checkFmt buf = fmt := by
  cases fmt <;> simp only [HasMagic] at hmagic
  case gzip =>
    have hbuf : buf.head? = some 0x1f := by
      rcases hmagic with hpre | hpre
      · exact head?_of_startsWith rfl hpre
      · exact head?_of_startsWith rfl hpre
    simp (disch := decide) only [checkFmt, not_prefix_of_head hbuf, hmagic, if_true, if_false]
  case xz =>
    have hbuf : buf.head? = some 0xfd := head?_of_startsWith rfl hmagic
    simp (disch := decide) only [checkFmt, not_prefix_of_head hbuf, hmagic, if_true, if_false, or_self]
  case lzma =>
    have hbuf : buf.head? = some 0x5d := head?_of_guessLzma hmagic
    simp (disch := decide) only [checkFmt, not_prefix_of_head hbuf, hmagic, if_true, if_false, or_self]
  case bzip2 =>
    have hbuf : buf.head? = some 0x42 := head?_of_startsWith rfl hmagic
    simp (disch := decide) only [checkFmt, not_prefix_of_head hbuf, not_guessLzma_of_head hbuf, hmagic,
      Bool.false_eq_true, if_true, if_false, or_self]
  case lz4 =>
    rcases hmagic with hpre | hpre
    · have hbuf : buf.head? = some 0x03 := head?_of_startsWith rfl hpre
      simp (disch := decide) only [checkFmt, not_prefix_of_head hbuf, not_guessLzma_of_head hbuf, hpre,
        Bool.false_eq_true, if_true, if_false, or_self, true_or]
    · have hbuf : buf.head? = some 0x04 := head?_of_startsWith rfl hpre
      simp (disch := decide) only [checkFmt, not_prefix_of_head hbuf, not_guessLzma_of_head hbuf, hpre,
        Bool.false_eq_true, if_true, if_false, or_self, or_true]
  case lz4Legacy =>
    have hbuf : buf.head? = some 0x02 := head?_of_startsWith rfl hmagic
    simp (disch := decide) only [checkFmt, not_prefix_of_head hbuf, not_guessLzma_of_head hbuf, hmagic,
      Bool.false_eq_true, if_true, if_false, or_self]

theorem ite_ne_of_ne {α : Type} {c : Prop} [Decidable c] {a b x : α} (ha : a ≠ x) (hb : b ≠ x) :
    (if c then a else b) ≠ x := by
  split
  · exact ha
  · exact hb

theorem checkFmt_of_head (hbuf : buf.head? = some b)
    (hb : b ∉ [0x43, 0x41, 0x56, 0x1f, 0x89, 0xfd, 0x5d, 0x42, 0x03, 0x04, 0x02]) :
    checkFmt buf
      = if mtkMagic <+: buf then .mtk
        else if dtbMagic <+: buf then .dtb
        else if dhtbMagic <+: buf then .dhtb
        else if tegrablobMagic <+: buf then .blob
        else if 0x28 ≤ buf.length ∧ slice buf 0x24 4 = zimageMagic then .zimage
        else .unknown := by
  have hno : ∀ magic : List UInt8,
      magic.head?.any (· ∈ [0x43, 0x41, 0x56, 0x1f, 0x89, 0xfd, 0x5d, 0x42, 0x03, 0x04, 0x02]) = true →
        ¬ magic <+: buf := by
    intro magic hmagic
    apply not_prefix_of_head hbuf
    revert hmagic
    cases magic.head? with
    | none => exact id
    | some a =>
        simp only [Option.any_some, decide_eq_true_eq, bne_iff_ne]
        rintro ha rfl
        exact hb ha
  have hguess : ¬ guessLzma buf := not_guessLzma_of_head hbuf (by rintro rfl; exact hb (by decide))
  simp (disch := decide) only [checkFmt, hno, hguess, Bool.false_eq_true, if_false, or_self]

/-- The formats that come with nothing but a magic, which no other test takes away from them. -/
def soleMagic : FileFormat → Option (List UInt8)
  | .chromeos => some chromeosMagic
  | .aosp => some bootMagic
  | .aospVendor => some vendorBootMagic
  | .mtk => some mtkMagic
  | .dhtb => some dhtbMagic
  | .blob => some tegrablobMagic
  | _ => none

theorem checkFmt_of_soleMagic
    (hfmt : soleMagic fmt = some magic) (hmagic : magic <+: buf) : checkFmt buf = fmt := by
  cases fmt <;> simp only [soleMagic, Option.some.injEq, reduceCtorEq] at hfmt <;> subst hfmt
  case chromeos => rw [checkFmt, if_pos hmagic]
  case aosp =>
    have hbuf : buf.head? = some 0x41 := head?_of_startsWith (by rfl) hmagic
    simp (disch := decide) only [checkFmt, not_prefix_of_head hbuf, hmagic, if_true, if_false]
  case aospVendor =>
    have hbuf : buf.head? = some 0x56 := head?_of_startsWith (by rfl) hmagic
    simp (disch := decide) only [checkFmt, not_prefix_of_head hbuf, hmagic, if_true, if_false]
  case mtk =>
    have hbuf : buf.head? = some 0x88 := head?_of_startsWith rfl hmagic
    rw [checkFmt_of_head hbuf (by decide), if_pos hmagic]
  case dhtb =>
    have hbuf : buf.head? = some 0x44 := head?_of_startsWith rfl hmagic
    rw [checkFmt_of_head hbuf (by decide)]
    simp (disch := decide) only [not_prefix_of_head hbuf, hmagic, if_true, if_false]
  case blob =>
    have hbuf : buf.head? = some 0x2d := head?_of_startsWith (by rfl) hmagic
    rw [checkFmt_of_head hbuf (by decide)]
    simp (disch := decide) only [not_prefix_of_head hbuf, hmagic, if_true, if_false]

theorem checkFmt_eq_iff
    (hfmt : soleMagic fmt = some magic) : checkFmt buf = fmt ↔ magic <+: buf := by
  refine ⟨fun hcheck => ?_, checkFmt_of_soleMagic hfmt⟩
  by_contra hno
  revert hcheck
  cases fmt <;> simp only [soleMagic, Option.some.injEq, reduceCtorEq] at hfmt <;> subst hfmt
  all_goals
    rw [checkFmt, if_neg hno]
    repeat' apply ite_ne_of_ne
    all_goals decide

theorem checkFmt_eq_mtk_iff : checkFmt buf = .mtk ↔ mtkMagic <+: buf :=
  checkFmt_eq_iff rfl

theorem guessLzma_take {n : Nat} (hn : 40 ≤ n) :
    guessLzma (buf.take n) = guessLzma buf := by
  have hlength : (buf.take n).length ≤ 13 ↔ buf.length ≤ 13 := by
    rw [List.length_take]
    omega
  have hhead : (buf.take n).head? = buf.head? := by
    cases buf with
    | nil => simp
    | cons b bs =>
        obtain ⟨m, rfl⟩ : ∃ m, n = m + 1 := ⟨n - 1, by omega⟩
        rfl
  rw [guessLzma, guessLzma, hhead, slice_take (by omega), slice_take (by omega)]
  simp only [hlength]

theorem checkFmt_take {n : Nat} (hn : 40 ≤ n) :
    checkFmt (buf.take n) = checkFmt buf := by
  have hpre : ∀ magic : List UInt8, magic.length ≤ 40 → (magic <+: buf.take n ↔ magic <+: buf) := by
    intro magic hmagic
    rw [List.prefix_take_iff]
    exact and_iff_left (by omega)
  have hlength : 0x28 ≤ (buf.take n).length ↔ 0x28 ≤ buf.length := by
    rw [List.length_take]
    omega
  have hslice : slice (buf.take n) 0x24 4 = slice buf 0x24 4 := slice_take (by omega)
  simp only [checkFmt, guessLzma_take hn, hlength, hslice,
    hpre chromeosMagic (by decide), hpre bootMagic (by decide),
    hpre vendorBootMagic (by decide), hpre gzip1Magic (by decide),
    hpre gzip2Magic (by decide), hpre lzopMagic (by decide), hpre xzMagic (by decide),
    hpre bzipMagic (by decide), hpre lz41Magic (by decide), hpre lz42Magic (by decide),
    hpre lz4LegMagic (by decide), hpre mtkMagic (by decide), hpre dtbMagic (by decide),
    hpre dhtbMagic (by decide), hpre tegrablobMagic (by decide)]

theorem readFmt_of_le (hsz : sz ≤ buf.length) :
    readFmt buf sz = some (checkFmt (buf.take sz)) := by
  rw [readFmt, if_pos (by omega)]
  congr 1
  by_cases hlong : 40 ≤ sz
  · rw [Nat.min_eq_right hlong, checkFmt_take le_rfl, checkFmt_take hlong]
  · rw [Nat.min_eq_left (by omega)]

theorem lgLoop_ne_mtk (buf : List UInt8) (sz rounds off : Nat) :
    lgLoop buf sz rounds off ≠ some .mtk := by
  induction rounds generalizing off with
  | zero => exact nofun
  | succ rounds ih =>
      rw [lgLoop]
      apply ite_ne_of_ne
      · apply ite_ne_of_ne
        · apply ite_ne_of_ne
          · decide
          · exact ih _
        · exact nofun
      · decide

theorem checkFmtLg_eq_mtk_iff (hsz : sz ≤ buf.length) :
    checkFmtLg buf sz = some .mtk ↔ mtkMagic <+: buf.take sz := by
  rw [checkFmtLg, readFmt_of_le hsz, ← checkFmt_eq_mtk_iff]
  simp only [Option.bind_eq_bind, Option.bind_some]
  split
  · rename_i hfmt
    rw [hfmt]
    exact iff_of_false (lgLoop_ne_mtk _ _ _ _) (by decide)
  · exact Option.some_inj

theorem lgLoop_take (hsz : sz ≤ buf.length) (rounds off : Nat) :
    lgLoop (buf.take sz) sz rounds off = lgLoop buf sz rounds off := by
  induction rounds generalizing off with
  | zero => rfl
  | succ rounds ih =>
      rw [lgLoop, lgLoop]
      by_cases hoff : off + 4 ≤ sz
      · have hin' : off + 4 ≤ buf.length := by omega
        have hin : off + 4 ≤ (buf.take sz).length := by
          rw [List.length_take]
          omega
        rw [if_pos hoff, if_pos hoff, if_pos hin, if_pos hin', slice_take hoff]
        simp only [ih]
      · rw [if_neg hoff, if_neg hoff]

theorem checkFmtLg_take (hsz : sz ≤ buf.length) :
    checkFmtLg (buf.take sz) sz = checkFmtLg buf sz := by
  have hsz' : sz ≤ (buf.take sz).length := by
    rw [List.length_take]
    omega
  rw [checkFmtLg, checkFmtLg, readFmt_of_le hsz, readFmt_of_le hsz', List.take_take, Nat.min_self]
  simp only [lgLoop_take hsz]

/-- What `xz` makes of the bytes 1 and 2. -/
def packedPair : List UInt8 :=
  [0xfd, 0x37, 0x7a, 0x58, 0x5a, 0x00, 0x00, 0x01, 0x69, 0x22, 0xde, 0x36, 0x02, 0x00, 0x21, 0x01,
   0x16, 0x00, 0x00, 0x00, 0x74, 0x2f, 0xe5, 0xa3, 0x01, 0x00, 0x01, 0x01, 0x02, 0x00, 0x00, 0x00,
   0x92, 0x42, 0xcc, 0xb6, 0x00, 0x01, 0x16, 0x02, 0xd0, 0x61, 0x10, 0xd2, 0x90, 0x42, 0x99, 0x0d,
   0x01, 0x00, 0x00, 0x00, 0x00, 0x01, 0x59, 0x5a]

end MagiskNative.Boot
