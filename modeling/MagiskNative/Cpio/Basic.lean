import Std.Data.ExtTreeMap
import MagiskNative.Lib.Bytes
import MagiskNative.Lib.Outcome
import MagiskNative.Lib.Text

/-!
# Cpio archives

An archive in memory, and the two directions between it and the `newc` format: `loadFromData` and
`dump`. Every name is a C string on its way in and out, so that no name has a NUL in it is part of
an archive.
-/

namespace MagiskNative

open Text Outcome
open Bytes (find)

structure CpioEntry where
  mode : UInt32
  uid : UInt32
  gid : UInt32
  rdevmajor : UInt64
  rdevminor : UInt64
  data : List UInt8
  deriving DecidableEq, Repr

abbrev CpioEntries := Std.ExtTreeMap String CpioEntry

structure Cpio where
  entries : CpioEntries
  nulFree : ∀ name ∈ entries, NulFree name

namespace Cpio

inductive LoadError where
  | invalidMagic
  | badHeader
  | badName
  deriving DecidableEq, Repr

def align4 (x : Nat) : Nat := (x + 3) / 4 * 4

-- "070701"
def magic : List UInt8 := [0x30, 0x37, 0x30, 0x37, 0x30, 0x31]

def headerSize : Nat := 110

def x8u (x : List UInt8) : Outcome LoadError Nat := .ofOption (ofHex 0 x) .badHeader

/-- `Utf8CStr::from_bytes`: one NUL, at the end, and valid UTF-8 before it. -/
def utf8CStr (bytes : List UInt8) : Option String :=
  if bytes.getLast? = some 0 ∧ 0 ∉ bytes.dropLast then ofUtf8? bytes.dropLast else none

inductive Step where
  | skip (pos : Nat)
  | entry (name : String) (entry : CpioEntry) (pos : Nat)
  | stop

def field (data : List UInt8) (pos offset : Nat) : List UInt8 := (data.drop (pos + offset)).take 8

def loadEntry (data : List UInt8) (hdr pos : Nat) (name : String) : Outcome LoadError Step := do
  let fileSz ← x8u (field data hdr 54)
  let mode ← x8u (field data hdr 14)
  let uid ← x8u (field data hdr 22)
  let gid ← x8u (field data hdr 30)
  let rdevmajor ← x8u (field data hdr 78)
  let rdevminor ← x8u (field data hdr 86)
  Outcome.assert (pos + fileSz ≤ data.length)
  return .entry name
    { mode := UInt32.ofNat mode
      uid := UInt32.ofNat uid
      gid := UInt32.ofNat gid
      rdevmajor := UInt64.ofNat rdevmajor
      rdevminor := UInt64.ofNat rdevminor
      data := (data.drop pos).take fileSz }
    (align4 (pos + fileSz))

def loadTrailer (data : List UInt8) (pos : Nat) : Outcome LoadError Step := do
  Outcome.assert (pos ≤ data.length)
  match find magic (data.drop pos) with
  | some x => return .skip (pos + x)
  | none => return .stop

def loadStep (data : List UInt8) (hdr : Nat) : Outcome LoadError Step := do
  Outcome.assert (hdr + headerSize ≤ data.length)
  if (data.drop hdr).take 6 ≠ magic then
    Outcome.err .invalidMagic
  else
    let nameSz ← x8u (field data hdr 94)
    Outcome.assert (hdr + headerSize + nameSz ≤ data.length)
    let name ← Outcome.ofOption (utf8CStr ((data.drop (hdr + headerSize)).take nameSz)) .badName
    let pos := align4 (hdr + headerSize + nameSz)
    if name = "." ∨ name = ".." then
      return .skip pos
    else if name = "TRAILER!!!" then
      loadTrailer data pos
    else
      loadEntry data hdr pos name

theorem le_align4 (x : Nat) : x ≤ align4 x := by
  rw [align4]
  omega

def Step.next? : Step → Option Nat
  | .skip pos => some pos
  | .entry _ _ pos => some pos
  | .stop => none

variable {data : List UInt8} {hdr next pos : Nat} {name : String} {step : Step}

theorem le_of_loadEntry
    (hstep : loadEntry data hdr pos name = .ok step) (hnext : step.next? = some next) :
    pos ≤ next := by
  simp only [loadEntry, bind_eq_ok, pure_eq, Outcome.ok.injEq] at hstep
  obtain ⟨fileSz, -, _, -, _, -, _, -, _, -, _, -, _, -, rfl⟩ := hstep
  cases hnext
  have := le_align4 (pos + fileSz)
  omega

theorem le_of_loadTrailer
    (hstep : loadTrailer data pos = .ok step) (hnext : step.next? = some next) : pos ≤ next := by
  simp only [loadTrailer, bind_eq_ok] at hstep
  obtain ⟨-, -, hstep⟩ := hstep
  split at hstep
  · cases hstep
    cases hnext
    omega
  · cases hstep
    cases hnext

theorem lt_of_loadStep
    (hstep : loadStep data pos = .ok step) (hnext : step.next? = some next) : pos < next := by
  simp only [loadStep, bind_eq_ok] at hstep
  obtain ⟨-, -, hstep⟩ := hstep
  split at hstep
  · cases hstep
  · simp only [bind_eq_ok] at hstep
    obtain ⟨nameSz, -, -, -, name, -, hstep⟩ := hstep
    have halign := le_align4 (pos + headerSize + nameSz)
    have hheader : headerSize = 110 := rfl
    split at hstep
    · cases hstep
      cases hnext
      omega
    · split at hstep
      · have := le_of_loadTrailer hstep hnext
        omega
      · have := le_of_loadEntry hstep hnext
        omega

def loadLoop (data : List UInt8) (pos : Nat) (entries : CpioEntries) :
    Outcome LoadError CpioEntries :=
  if pos < data.length then
    match _hstep : loadStep data pos with
    | .ok (.skip pos') => loadLoop data pos' entries
    | .ok (.entry name entry pos') => loadLoop data pos' (entries.insert name entry)
    | .ok .stop => .ok entries
    | .err e => .err e
    | .panic => .panic
  else .ok entries
termination_by data.length - pos
decreasing_by
  · have := lt_of_loadStep _hstep rfl
    omega
  · have := lt_of_loadStep _hstep rfl
    omega

theorem loadLoop_skip (hpos : pos < data.length)
    (hstep : loadStep data pos = .ok (.skip next)) (entries : CpioEntries) :
    loadLoop data pos entries = loadLoop data next entries := by
  rw [loadLoop, if_pos hpos]
  split <;> simp_all

variable {entry : CpioEntry}

theorem loadLoop_entry
    (hpos : pos < data.length) (hstep : loadStep data pos = .ok (.entry name entry next))
    (entries : CpioEntries) :
    loadLoop data pos entries = loadLoop data next (entries.insert name entry) := by
  rw [loadLoop, if_pos hpos]
  split <;> simp_all

theorem loadLoop_stop (hpos : pos < data.length)
    (hstep : loadStep data pos = .ok .stop) (entries : CpioEntries) :
    loadLoop data pos entries = .ok entries := by
  rw [loadLoop, if_pos hpos]
  split <;> simp_all

theorem loadLoop_err {e : LoadError} (hpos : pos < data.length)
    (hstep : loadStep data pos = .err e) (entries : CpioEntries) :
    loadLoop data pos entries = .err e := by
  rw [loadLoop, if_pos hpos]
  split <;> simp_all

theorem nulFree_of_utf8CStr {bytes : List UInt8}
    (hname : utf8CStr bytes = some name) : NulFree name := by
  rw [utf8CStr] at hname
  split at hname
  · rename_i hnul
    rw [NulFree, utf8Bytes_of_ofUtf8? hname]
    exact hnul.2
  · cases hname

theorem loadStep_eq_entry (hstep : loadStep data hdr = .ok (.entry name entry next)) :
    ∃ bytes pos, utf8CStr bytes = some name ∧
      loadEntry data hdr pos name = .ok (.entry name entry next) := by
  simp only [loadStep, bind_eq_ok] at hstep
  obtain ⟨-, -, hstep⟩ := hstep
  split at hstep
  · cases hstep
  · simp only [bind_eq_ok] at hstep
    obtain ⟨nameSz, -, -, -, name', hname', hstep⟩ := hstep
    split at hstep
    · cases hstep
    · split at hstep
      · simp only [loadTrailer, bind_eq_ok] at hstep
        obtain ⟨-, -, hstep⟩ := hstep
        split at hstep <;> cases hstep
      · have heq : name' = name := by
          simp only [loadEntry, bind_eq_ok, pure_eq, Outcome.ok.injEq] at hstep
          obtain ⟨_, -, _, -, _, -, _, -, _, -, _, -, _, -, heq⟩ := hstep
          cases heq
          rfl
        rw [heq] at hname' hstep
        exact ⟨_, _, Outcome.ofOption_eq_ok.1 hname', hstep⟩

theorem nulFree_of_loadStep
    (hstep : loadStep data hdr = .ok (.entry name entry next)) : NulFree name := by
  obtain ⟨bytes, pos, hname, -⟩ := loadStep_eq_entry hstep
  exact nulFree_of_utf8CStr hname

theorem x8u_field_lt {offset value : Nat}
    (hvalue : x8u (field data pos offset) = .ok value) : value < 2 ^ 32 := by
  have hlt := ofHex_lt (Outcome.ofOption_eq_ok.1 hvalue)
  have hlength : (field data pos offset).length ≤ 8 := List.length_take_le _ _
  calc value < (0 + 1) * 16 ^ (field data pos offset).length := hlt
    _ ≤ (0 + 1) * 16 ^ 8 := Nat.mul_le_mul_left _ (Nat.pow_le_pow_right (by decide) hlength)
    _ = 2 ^ 32 := by norm_num

theorem rdev_lt_of_loadStep (hstep : loadStep data hdr = .ok (.entry name entry next)) :
    entry.rdevmajor.toNat < 2 ^ 32 ∧ entry.rdevminor.toNat < 2 ^ 32 := by
  obtain ⟨bytes, pos, -, hentry⟩ := loadStep_eq_entry hstep
  simp only [loadEntry, bind_eq_ok, pure_eq, Outcome.ok.injEq] at hentry
  obtain ⟨_, -, _, -, _, -, _, -, major, hmajor, minor, hminor, _, -, heq⟩ := hentry
  cases heq
  have hmajor := x8u_field_lt hmajor
  have hminor := x8u_field_lt hminor
  constructor
  · rw [UInt64.toNat_ofNat_of_lt' (lt_trans hmajor (by decide))]
    exact hmajor
  · rw [UInt64.toNat_ofNat_of_lt' (lt_trans hminor (by decide))]
    exact hminor

variable {entries : CpioEntries}

theorem nulFree_insert (hentries : ∀ name ∈ entries, NulFree name)
    (hname : NulFree name) (entry : CpioEntry) :
    ∀ other ∈ entries.insert name entry, NulFree other := by
  intro other hother
  rcases Std.ExtTreeMap.mem_insert.1 hother with heq | hmem
  · rw [← Std.LawfulEqOrd.eq_of_compare heq]
    exact hname
  · exact hentries other hmem

theorem loadLoop_induct {P : CpioEntries → Prop}
    (hinsert : ∀ hdr next name entry entries, loadStep data hdr = .ok (.entry name entry next) →
      P entries → P (entries.insert name entry)) {result : CpioEntries} (hentries : P entries)
    (hload : loadLoop data pos entries = .ok result) : P result := by
  induction hn : data.length - pos using Nat.strong_induction_on generalizing pos entries with
  | _ n ih =>
      rw [loadLoop] at hload
      split at hload
      · rename_i hpos
        split at hload
        · rename_i next hstep
          have hlt := lt_of_loadStep hstep rfl
          exact ih _ (by omega) hentries hload rfl
        · rename_i name entry next hstep
          have hlt := lt_of_loadStep hstep rfl
          exact ih _ (by omega) (hinsert _ _ _ _ _ hstep hentries) hload rfl
        · cases hload
          exact hentries
        · cases hload
        · cases hload
      · cases hload
        exact hentries

theorem nulFree_loadLoop {result : CpioEntries}
    (hentries : ∀ name ∈ entries, NulFree name) (hload : loadLoop data pos entries = .ok result) :
    ∀ name ∈ result, NulFree name := by
  apply loadLoop_induct (P := fun entries => ∀ name ∈ entries, NulFree name) ?_ hentries hload
  intro hdr next name entry entries hstep hentries
  exact nulFree_insert hentries (nulFree_of_loadStep hstep) entry

def loadFromData (data : List UInt8) : Outcome LoadError Cpio :=
  match hload : loadLoop data 0 ∅ with
  | .ok entries => .ok ⟨entries, nulFree_loadLoop (by simp) hload⟩
  | .err e => .err e
  | .panic => .panic

theorem loadFromData_of_ok {cpio : Cpio}
    (hload : loadLoop data 0 ∅ = .ok cpio.entries) : loadFromData data = .ok cpio := by
  rw [loadFromData]
  split <;> simp_all

theorem loadFromData_of_err {e : LoadError}
    (hload : loadLoop data 0 ∅ = .err e) : loadFromData data = .err e := by
  rw [loadFromData]
  split <;> simp_all

def header (fields : List Nat) : List UInt8 := magic ++ fields.flatMap (hexPad 8)

def zeros (n : Nat) : List UInt8 := List.replicate n 0

def dumpEntry (pos inode : Nat) (name : String) (entry : CpioEntry) : List UInt8 :=
  let hdr := header
    [inode, entry.mode.toNat, entry.uid.toNat, entry.gid.toNat, 1, 0, entry.data.length, 0, 0,
      entry.rdevmajor.toNat, entry.rdevminor.toNat, (utf8Bytes name).length + 1, 0]
  let out := hdr ++ utf8Bytes name ++ [0]
  let out := out ++ zeros (align4 (pos + out.length) - (pos + out.length))
  let out := out ++ entry.data
  out ++ zeros (align4 (pos + out.length) - (pos + out.length))

def dumpTrailer (pos inode : Nat) : List UInt8 :=
  let out := header [inode, 0o755, 0, 0, 1, 0, 0, 0, 0, 0, 0, 11, 0] ++ utf8Bytes "TRAILER!!!" ++ [0]
  out ++ zeros (align4 (pos + out.length) - (pos + out.length))

def dumpLoop (pos inode : Nat) : List (String × CpioEntry) → List UInt8
  | [] => dumpTrailer pos inode
  | (name, entry) :: rest =>
      let out := dumpEntry pos inode name entry
      out ++ dumpLoop (pos + out.length) (inode + 1) rest

def dump (cpio : Cpio) : List UInt8 := dumpLoop 0 300000 cpio.entries.toList

end Cpio

end MagiskNative
