import MagiskNative.Lib.Text
import MagiskNative.Boot.Header

/-!
# The header file

`dump_hdr_file` prints name, command line and version of a header as properties, and `load_hdr_file`
reads such a file into a header. Neither has anything to do with the sizes of the blocks.
-/

namespace MagiskNative.Boot

open Bytes
open Text (utf8Bytes ofUtf8?)

def cstr (raw : List UInt8) (n : Nat) : List UInt8 := (raw.take n).takeWhile (· ≠ 0)

def decimal (n : Nat) : List UInt8 := utf8Bytes (toString n)

def Header.cmdline (h : Header) : List UInt8 :=
  let text (t : TextField) :=
    match h.kind.textOffset t with
    | some off => cstr (h.raw.drop off) t.width
    | none => []
  text .cmdline ++ text .extraCmdline

def dumpHdrFile (h : Header) : List UInt8 :=
  let name :=
    match h.kind.textOffset .name with
    | some off => utf8Bytes "name=" ++ cstr (h.raw.drop off) h.raw.length ++ [10]
    | none => []
  let ver := h.get .osVersion
  let version := ver / 2 ^ 11
  let patchLevel := ver % 2 ^ 11
  let versions :=
    if ver ≠ 0 then
      utf8Bytes "os_version=" ++ decimal (version / 2 ^ 14 % 2 ^ 7) ++ utf8Bytes "."
        ++ decimal (version / 2 ^ 7 % 2 ^ 7) ++ utf8Bytes "." ++ decimal (version % 2 ^ 7) ++ [10]
        ++ utf8Bytes "os_patch_level=" ++ decimal (patchLevel / 2 ^ 4 + 2000) ++ utf8Bytes "-"
        ++ (if patchLevel % 2 ^ 4 < 10 then utf8Bytes "0" else []) ++ decimal (patchLevel % 2 ^ 4)
        ++ [10]
    else []
  name ++ utf8Bytes "cmdline=" ++ h.cmdline ++ [10] ++ versions

def isWhite (c : Char) : Bool :=
  '\t' ≤ c && c ≤ '\r' || ' ' ≤ c && c ≤ ' '
    || c ∈ [' ', '\u0085', ' ', ' ', ' ', ' ', ' ', ' ', '　']

def trim (s : List Char) : List Char :=
  ((s.dropWhile isWhite).reverse.dropWhile isWhite).reverse

/-- The lines of a file up to the first that is not valid text. -/
def validLines (data : List UInt8) : List (List Char) :=
  (((data.splitOn 10).map ofUtf8?).takeWhile Option.isSome).filterMap (Option.map String.toList)

def propOfLine (line : List Char) : Option (String × String) :=
  let line := trim line
  if line.head? = some '#' then none
  else
    match line.span (· ≠ '=') with
    | (key, _ :: value) => some (String.ofList (trim key), String.ofList (trim value))
    | (_, []) => none

def isSpace (b : UInt8) : Bool := b == 32 || 9 ≤ b && b ≤ 13

def isDigit (b : UInt8) : Bool := 0x30 ≤ b && b ≤ 0x39

def scanInt (s : List UInt8) : Option (UInt32 × List UInt8) :=
  let s := s.dropWhile isSpace
  let (neg, s) :=
    match s with
    | 0x2d :: s => (true, s)
    | 0x2b :: s => (false, s)
    | s => (false, s)
  let (digits, rest) := s.span isDigit
  if digits = [] then none
  else
    let n := UInt32.ofNat (digits.foldl (fun n b => n * 10 + (b.toNat - 0x30)) 0)
    some (if neg then 0 - n else n, rest)

/-- `sscanf` for integers with `sep` between them. What is not scanned keeps the value its variable
had before, which is that of an uninitialised variable. -/
def scanInts (sep : UInt8) : List UInt32 → List UInt8 → List UInt32
  | [], _ => []
  | before :: befores, s =>
      match scanInt s with
      | none => before :: befores
      | some (n, rest) =>
          match befores, rest with
          | _ :: _, b :: rest => if b = sep then n :: scanInts sep befores rest else n :: befores
          | befores, _ => n :: befores

structure Locals where
  a : UInt32
  b : UInt32
  c : UInt32
  y : UInt32
  m : UInt32

def loadName (h : Header) (value : List UInt8) : Header :=
  (h.setText .name (List.replicate 16 0)).setText .name (value.take 15)

def loadCmdline (h : Header) (value : List UInt8) : Header :=
  let h := h.setText .cmdline (List.replicate 512 0)
  let h := h.setText .extraCmdline (List.replicate 1024 0)
  if 512 < value.length then
    (h.setText .cmdline (value.take 512)).setText .extraCmdline ((value.drop 512).take 1024)
  else h.setText .cmdline value

variable (locals : Locals)

def loadOsVersion (h : Header) (value : List UInt8) : Header :=
  let patchLevel := UInt32.ofNat (h.get .osVersion) &&& 0x7ff
  match scanInts 0x2e [locals.a, locals.b, locals.c] value with
  | [a, b, c] => h.set .osVersion ((((a <<< 14) ||| (b <<< 7) ||| c) <<< 11) ||| patchLevel).toNat
  | _ => h

def loadOsPatchLevel (h : Header) (value : List UInt8) : Header :=
  let osVer := UInt32.ofNat (h.get .osVersion) >>> 11
  match scanInts 0x2d [locals.y, locals.m] value with
  | [y, m] => h.set .osVersion ((osVer <<< 11) ||| ((y - 2000) <<< 4) ||| m).toNat
  | _ => h

def loadProp (h : Header) : String × String → Header
  | (key, value) =>
      let value := utf8Bytes value
      if key = "name" ∧ (h.kind.textOffset .name).isSome then loadName h value
      else if key = "cmdline" then loadCmdline h value
      else if key = "os_version" then loadOsVersion locals h value
      else if key = "os_patch_level" then loadOsPatchLevel locals h value
      else h

def loadHdrFile (h : Header) (data : List UInt8) : Header :=
  ((validLines data).filterMap propOfLine).foldl (loadProp locals) h

def fileParts : List Part := [.text .name, .text .cmdline, .text .extraCmdline, .field .osVersion]

theorem sameOutside_loadProp (h : Header) (prop : String × String) :
    h.SameOutside fileParts (loadProp locals h prop) := by
  have hname : ∀ (h : Header) new, h.SameOutside fileParts (h.setText .name new) :=
    fun h => Header.SameOutside.setText h (by decide)
  have hcmdline : ∀ (h : Header) new, h.SameOutside fileParts (h.setText .cmdline new) :=
    fun h => Header.SameOutside.setText h (by decide)
  have hextra : ∀ (h : Header) new, h.SameOutside fileParts (h.setText .extraCmdline new) :=
    fun h => Header.SameOutside.setText h (by decide)
  have hversion : ∀ (h : Header) value, h.SameOutside fileParts (h.set .osVersion value) :=
    fun h => Header.SameOutside.set h (by decide)
  obtain ⟨key, value⟩ := prop
  simp only [loadProp]
  split
  · exact (hname _ _).trans (hname _ _)
  · split
    · rw [loadCmdline]
      have hclear := (hcmdline h (List.replicate 512 0)).trans (hextra _ (List.replicate 1024 0))
      split
      · exact hclear.trans ((hcmdline _ _).trans (hextra _ _))
      · exact hclear.trans (hcmdline _ _)
    · split
      · rw [loadOsVersion]
        split
        · exact hversion _ _
        · exact .refl _ h
      · split
        · rw [loadOsPatchLevel]
          split
          · exact hversion _ _
          · exact .refl _ h
        · exact .refl _ h

theorem sameOutside_loadHdrFile (h : Header) (data : List UInt8) :
    h.SameOutside fileParts (loadHdrFile locals h data) := by
  rw [loadHdrFile]
  induction (validLines data).filterMap propOfLine generalizing h with
  | nil => exact .refl _ h
  | cons prop props ih => exact (sameOutside_loadProp locals h prop).trans (ih _)

end MagiskNative.Boot
