import MagiskNative.Lib.Layout

/-!
# Boot image headers

The header objects are one table of field offsets for each kind of header. A kind that lacks a field
reads it as zero and drops what is written to it, which is what the junk references of the source
amount to.
-/

namespace MagiskNative.Boot

open Bytes Layout

inductive Kind where
  | v0
  | v1
  | v2
  | pxa
  | v3
  | v4
  | vndV3
  | vndV4
  deriving DecidableEq, Repr

inductive Field where
  | kernelSize
  | ramdiskSize
  | secondSize
  | pageSize
  | headerVersion
  | extraSize
  | osVersion
  | recoveryDtboSize
  | recoveryDtboOffset
  | headerSize
  | dtbSize
  | signatureSize
  | vendorRamdiskTableSize
  | vendorRamdiskTableEntryNum
  | vendorRamdiskTableEntrySize
  | bootconfigSize
  deriving DecidableEq, Repr

inductive TextField where
  | name
  | cmdline
  | id
  | extraCmdline
  deriving DecidableEq, Repr

namespace Kind

def isVendor : Kind → Bool
  | vndV3 | vndV4 => true
  | _ => false

def hdrSize : Kind → Nat
  | v0 => 1632
  | v1 => 1648
  | v2 => 1660
  | pxa => 1640
  | v3 => 1580
  | v4 => 1584
  | vndV3 => 2112
  | vndV4 => 2128

-- The v0 header has its extra size where later headers have their version.
def offset : Kind → Field → Option Nat
  | v0, .kernelSize | v1, .kernelSize | v2, .kernelSize | pxa, .kernelSize => some 8
  | v0, .ramdiskSize | v1, .ramdiskSize | v2, .ramdiskSize | pxa, .ramdiskSize => some 16
  | v0, .secondSize | v1, .secondSize | v2, .secondSize | pxa, .secondSize => some 24
  | v0, .pageSize | v1, .pageSize | v2, .pageSize => some 36
  | v0, .extraSize => some 40
  | v1, .headerVersion | v2, .headerVersion => some 40
  | v0, .osVersion | v1, .osVersion | v2, .osVersion => some 44
  | v1, .recoveryDtboSize | v2, .recoveryDtboSize => some 1632
  | v1, .recoveryDtboOffset | v2, .recoveryDtboOffset => some 1636
  | v1, .headerSize | v2, .headerSize => some 1644
  | v2, .dtbSize => some 1648
  | pxa, .extraSize => some 32
  | pxa, .pageSize => some 44
  | v3, .kernelSize | v4, .kernelSize => some 8
  | v3, .ramdiskSize | v4, .ramdiskSize => some 12
  | v3, .osVersion | v4, .osVersion => some 16
  | v3, .headerSize | v4, .headerSize => some 20
  | v3, .headerVersion | v4, .headerVersion => some 40
  | v4, .signatureSize => some 1580
  | vndV3, .headerVersion | vndV4, .headerVersion => some 8
  | vndV3, .pageSize | vndV4, .pageSize => some 12
  | vndV3, .ramdiskSize | vndV4, .ramdiskSize => some 24
  | vndV3, .headerSize | vndV4, .headerSize => some 2096
  | vndV3, .dtbSize | vndV4, .dtbSize => some 2100
  | vndV4, .vendorRamdiskTableSize => some 2112
  | vndV4, .vendorRamdiskTableEntryNum => some 2116
  | vndV4, .vendorRamdiskTableEntrySize => some 2120
  | vndV4, .bootconfigSize => some 2124
  | _, _ => none

def textOffset : Kind → TextField → Option Nat
  | v0, .name | v1, .name | v2, .name => some 48
  | v0, .cmdline | v1, .cmdline | v2, .cmdline => some 64
  | v0, .id | v1, .id | v2, .id => some 576
  | v0, .extraCmdline | v1, .extraCmdline | v2, .extraCmdline => some 608
  | pxa, .name => some 48
  | pxa, .cmdline => some 72
  | pxa, .id => some 584
  | pxa, .extraCmdline => some 616
  | v3, .cmdline | v4, .cmdline => some 44
  | v3, .extraCmdline | v4, .extraCmdline => some 556
  | vndV3, .cmdline | vndV4, .cmdline => some 28
  | vndV3, .extraCmdline | vndV4, .extraCmdline => some 540
  | vndV3, .name | vndV4, .name => some 2080
  | _, _ => none

end Kind

def Field.width : Field → Nat
  | recoveryDtboOffset => 8
  | _ => 4

def TextField.width : TextField → Nat
  | name => 16
  | cmdline => 512
  | id => 32
  | extraCmdline => 1024

inductive Part where
  | field (f : Field)
  | text (t : TextField)
  deriving DecidableEq, Repr

def Part.all : List Part :=
  [.field .kernelSize, .field .ramdiskSize, .field .secondSize, .field .pageSize,
    .field .headerVersion, .field .extraSize, .field .osVersion, .field .recoveryDtboSize,
    .field .recoveryDtboOffset, .field .headerSize, .field .dtbSize, .field .signatureSize,
    .field .vendorRamdiskTableSize, .field .vendorRamdiskTableEntryNum,
    .field .vendorRamdiskTableEntrySize, .field .bootconfigSize, .text .name, .text .cmdline,
    .text .id, .text .extraCmdline]

theorem Part.mem_all (part : Part) : part ∈ Part.all := by
  cases part with
  | field f => cases f <;> decide
  | text t => cases t <;> decide

def Kind.region (k : Kind) : Part → Option (Nat × Nat)
  | .field f => (k.offset f).map fun off => (off, f.width)
  | .text t => (k.textOffset t).map fun off => (off, t.width)

def apart : Option (Nat × Nat) → Option (Nat × Nat) → Bool
  | some (o, n), some (o', n') => o + n ≤ o' || o' + n' ≤ o
  | _, _ => true

theorem apart_symm (a b : Option (Nat × Nat)) (hab : apart a b) : apart b a := by
  cases a with
  | none => cases b <;> rfl
  | some x =>
      cases b with
      | none => rfl
      | some y =>
          simp only [apart, Bool.or_eq_true, decide_eq_true_eq] at hab ⊢
          exact hab.symm

theorem pairwise_apart (k : Kind) :
    Part.all.Pairwise fun p q => apart (k.region p) (k.region q) := by
  cases k <;> decide

theorem region_apart (k : Kind) {p q : Part} (hpq : p ≠ q) : apart (k.region p) (k.region q) :=
  haveI : Std.Symm fun p q => apart (k.region p) (k.region q) = true := ⟨fun _ _ => apart_symm _ _⟩
  (pairwise_apart k).forall p.mem_all q.mem_all hpq

theorem regions_in_header (k : Kind) :
    ∀ part ∈ Part.all, (k.region part).all fun r => r.1 + r.2 ≤ k.hdrSize := by
  cases k <;> decide

theorem field_in_header {k : Kind} {f : Field} {off : Nat} (hf : k.offset f = some off) :
    off + f.width ≤ k.hdrSize := by
  have hin := regions_in_header k (.field f) (Part.mem_all _)
  rw [Kind.region, hf] at hin
  simpa using hin

structure Header where
  kind : Kind
  raw : List UInt8
  length_raw : raw.length = kind.hdrSize
  deriving DecidableEq

namespace Header

variable (h : Header)

def get (f : Field) : Nat :=
  match h.kind.offset f with
  | some off => ofLe (slice h.raw off f.width)
  | none => 0

def patchRaw (off : Nat) (new : List UInt8) : Header :=
  { h with
    raw := patch h.raw off new
    length_raw := by rw [length_patch, h.length_raw] }

def set (f : Field) (value : Nat) : Header :=
  match h.kind.offset f with
  | some off => h.patchRaw off (leBytes f.width value)
  | none => h

def setText (t : TextField) (new : List UInt8) : Header :=
  match h.kind.textOffset t with
  | some off => h.patchRaw off (new.take t.width)
  | none => h

def pageSize : Nat :=
  match h.kind with
  | .v3 | .v4 => 4096
  | _ => h.get .pageSize

def hdrSize : Nat := h.kind.hdrSize

end Header

/-- `align_to` on a `size_t`: the page size goes through an `int`, and zero is divided by. -/
def alignTo (v page : Nat) : Option Nat :=
  if page = 0 then none
  else
    let a := if page < 2 ^ 31 then page else page + (2 ^ 64 - 2 ^ 32)
    some ((v + a - 1) % 2 ^ 64 / a * a % 2 ^ 64)

def Header.hdrSpace (h : Header) : Option Nat :=
  if h.kind.isVendor then alignTo h.hdrSize h.pageSize else some h.pageSize

theorem alignTo_eq {v page : Nat} (hpos : 0 < page) (hpage : page < 2 ^ 31)
    (hv : v + page ≤ 2 ^ 64) : alignTo v page = some (roundUp page v) := by
  have hlt : roundUp page v < 2 ^ 64 := by
    have := roundUp_lt hpos v
    omega
  rw [alignTo, if_neg (by omega), if_pos hpage]
  simp only [Option.some.injEq]
  rw [Nat.mod_eq_of_lt (by omega : v + page - 1 < 2 ^ 64), Nat.add_sub_assoc hpos]
  exact Nat.mod_eq_of_lt hlt

namespace Header

variable {h : Header} {f g : Field}

theorem get_lt (h : Header) (f : Field) : h.get f < 256 ^ f.width := by
  rw [get]
  split
  · rename_i off hoff
    have hlt := ofLe_lt (slice h.raw off f.width)
    refine lt_of_lt_of_le hlt (Nat.pow_le_pow_right (by omega) ?_)
    rw [length_slice]
    omega
  · positivity

@[simp] theorem kind_set (h : Header) (f : Field) (value : Nat) : (h.set f value).kind = h.kind := by
  rw [set]
  split <;> rfl

@[simp] theorem kind_setText (h : Header) (t : TextField) (new : List UInt8) :
    (h.setText t new).kind = h.kind := by
  rw [setText]
  split <;> rfl

theorem get_eq_zero (hf : h.kind.offset f = none) : h.get f = 0 := by
  rw [get, hf]

theorem set_eq_self (hf : h.kind.offset f = none) (value : Nat) : h.set f value = h := by
  rw [set, hf]

theorem get_set_self {off : Nat} (hf : h.kind.offset f = some off) (value : Nat) :
    (h.set f value).get f = value % 256 ^ f.width := by
  have hle : off + (leBytes f.width value).length ≤ h.raw.length := by
    rw [length_leBytes, h.length_raw]
    exact field_in_header hf
  have hslice := slice_patch_self hle
  rw [length_leBytes] at hslice
  rw [get, kind_set, hf, set, hf]
  simp only [patchRaw, hslice, ofLe_leBytes]

theorem get_set_ne (hfg : f ≠ g) (value : Nat) : (h.set f value).get g = h.get g := by
  have hapart := region_apart h.kind (p := .field f) (q := .field g) (by simpa using hfg)
  rw [get, get, kind_set]
  cases hg : h.kind.offset g with
  | none => rfl
  | some o' =>
      rw [set]
      cases hf : h.kind.offset f with
      | none => rfl
      | some o =>
          simp only [Kind.region, hf, hg, Option.map_some, apart, Bool.or_eq_true,
            decide_eq_true_eq] at hapart
          simp only [patchRaw]
          rw [slice_patch_of_disjoint]
          rw [length_leBytes]
          omega

theorem get_setText (h : Header) (t : TextField) (new : List UInt8) (f : Field) :
    (h.setText t new).get f = h.get f := by
  have hapart := region_apart h.kind (p := .text t) (q := .field f) (by simp)
  rw [get, get, kind_setText]
  cases hf : h.kind.offset f with
  | none => rfl
  | some o' =>
      rw [setText]
      cases ht : h.kind.textOffset t with
      | none => rfl
      | some o =>
          simp only [Kind.region, ht, hf, Option.map_some, apart, Bool.or_eq_true,
            decide_eq_true_eq] at hapart
          simp only [patchRaw]
          rw [slice_patch_of_disjoint]
          rw [List.length_take]
          omega

/-- The headers have the same kind and the same bytes wherever no part of the list is. -/
def SameOutside (touched : List Part) (h h' : Header) : Prop :=
  h'.kind = h.kind ∧ ∀ off n,
    (∀ part ∈ touched, apart (h.kind.region part) (some (off, n))) →
      slice h'.raw off n = slice h.raw off n

namespace SameOutside

variable {touched touched' : List Part} {h h' h'' : Header}

theorem refl (touched : List Part) (h : Header) : SameOutside touched h h :=
  ⟨rfl, fun _ _ _ => rfl⟩

theorem trans (hfirst : SameOutside touched h h') (hsecond : SameOutside touched h' h'') :
    SameOutside touched h h'' := by
  refine ⟨hsecond.1.trans hfirst.1, ?_⟩
  intro off n hapart
  rw [hsecond.2 off n (by rwa [hfirst.1]), hfirst.2 off n hapart]

theorem mono (hsame : SameOutside touched h h') (hsub : touched ⊆ touched') :
    SameOutside touched' h h' :=
  ⟨hsame.1, fun off n hapart => hsame.2 off n fun part hpart => hapart part (hsub hpart)⟩

theorem set (h : Header) {f : Field} (hf : .field f ∈ touched) (value : Nat) :
    SameOutside touched h (h.set f value) := by
  refine ⟨h.kind_set f value, ?_⟩
  intro off n hapart
  have hfield := hapart _ hf
  rw [Header.set]
  cases hoff : h.kind.offset f with
  | none => rfl
  | some o =>
      simp only [Kind.region, hoff, Option.map_some, apart, Bool.or_eq_true,
        decide_eq_true_eq] at hfield
      apply slice_patch_of_disjoint
      rw [length_leBytes]
      omega

theorem setText (h : Header) {t : TextField} (ht : .text t ∈ touched) (new : List UInt8) :
    SameOutside touched h (h.setText t new) := by
  refine ⟨h.kind_setText t new, ?_⟩
  intro off n hapart
  have htext := hapart _ ht
  rw [Header.setText]
  cases hoff : h.kind.textOffset t with
  | none => rfl
  | some o =>
      simp only [Kind.region, hoff, Option.map_some, apart, Bool.or_eq_true,
        decide_eq_true_eq] at htext
      apply slice_patch_of_disjoint
      rw [List.length_take]
      omega

theorem get (hsame : SameOutside touched h h') {f : Field} (hf : .field f ∉ touched) :
    h'.get f = h.get f := by
  rw [Header.get, Header.get, hsame.1]
  cases hoff : h.kind.offset f with
  | none => rfl
  | some off =>
      have hregion : h.kind.region (.field f) = some (off, f.width) := by
        rw [Kind.region, hoff]
        rfl
      simp only
      rw [hsame.2 off f.width]
      intro part hpart
      rw [← hregion]
      apply region_apart
      rintro rfl
      exact hf hpart

theorem pageSize (hsame : SameOutside touched h h') (hpage : .field .pageSize ∉ touched) :
    h'.pageSize = h.pageSize := by
  rw [Header.pageSize, Header.pageSize, hsame.1, hsame.get hpage]

theorem hdrSpace (hsame : SameOutside touched h h') (hpage : .field .pageSize ∉ touched) :
    h'.hdrSpace = h.hdrSpace := by
  rw [Header.hdrSpace, Header.hdrSpace, hsame.1, hsame.pageSize hpage, Header.hdrSize, hsame.1,
    Header.hdrSize]

end SameOutside

end Header

end MagiskNative.Boot
