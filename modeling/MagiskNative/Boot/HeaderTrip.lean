import MagiskNative.Boot.CommandLine

/-!
# A header through its file

`dump_hdr_file` and then `load_hdr_file` on the same header.
-/

namespace MagiskNative.Boot

open Bytes Layout Header
open Text (utf8Bytes ofUtf8?)

variable {c : Char} {n off : Nat} {digits : List UInt8} {s : String} {t : TextField} {k : Kind}

section Numbers

theorem toNat_of_isDigit (hc : c.isDigit = true) : 0x30 ≤ c.toNat ∧ c.toNat ≤ 0x39 := by
  simp only [Char.isDigit, Bool.and_eq_true, decide_eq_true_eq, ge_iff_le, UInt32.le_iff_toNat_le] at hc
  exact hc

theorem utf8EncodeChar_of_isDigit (hc : c.isDigit = true) :
    String.utf8EncodeChar c = [UInt8.ofNat c.toNat] := by
  have hle := (toNat_of_isDigit hc).2
  exact if_pos (le_trans hle (by decide))

theorem decimal_eq_map (n : Nat) :
    decimal n = (Nat.toDigits 10 n).map fun c => UInt8.ofNat c.toNat := by
  rw [decimal, Nat.toString_eq_ofList_toDigits, Text.utf8Bytes_ofList, List.map_eq_flatMap]
  apply List.flatMap_congr
  intro c hc
  exact utf8EncodeChar_of_isDigit (Nat.isDigit_of_mem_toDigits (by decide) (by decide) hc)

theorem exists_of_mem_decimal {b : UInt8} (hb : b ∈ decimal n) :
    0x30 ≤ b.toNat ∧ b.toNat ≤ 0x39 := by
  rw [decimal_eq_map, List.mem_map] at hb
  obtain ⟨c, hc, rfl⟩ := hb
  have hdigit := toNat_of_isDigit (Nat.isDigit_of_mem_toDigits (by decide) (by decide) hc)
  rw [UInt8.toNat_ofNat']
  omega

theorem isDigit_of_mem_decimal {b : UInt8} (hb : b ∈ decimal n) : isDigit b = true := by
  have hdigit := exists_of_mem_decimal hb
  simp only [isDigit, Bool.and_eq_true, decide_eq_true_eq, UInt8.le_iff_toNat_le]
  exact hdigit

theorem decimal_ne_nil (n : Nat) : decimal n ≠ [] := by
  rw [decimal_eq_map, ne_eq, List.map_eq_nil_iff]
  exact Nat.toDigits_ne_nil

def digitsValue (digits : List UInt8) : Nat := digits.foldl (fun n b => n * 10 + (b.toNat - 0x30)) 0

theorem digitsValue_decimal (n : Nat) : digitsValue (decimal n) = n := by
  have hfold : ∀ (cs : List Char) (acc : Nat), (∀ c ∈ cs, c.isDigit = true) →
      (cs.map fun c => UInt8.ofNat c.toNat).foldl (fun n b => n * 10 + (b.toNat - 0x30)) acc
        = Nat.ofDigitChars 10 cs acc := by
    intro cs
    induction cs with
    | nil => exact fun acc _ => rfl
    | cons c cs ih =>
        intro acc hcs
        have hc := toNat_of_isDigit (hcs c List.mem_cons_self)
        rw [List.map_cons, List.foldl_cons, ih _ fun d hd => hcs d (List.mem_cons_of_mem c hd),
          UInt8.toNat_ofNat', Nat.mod_eq_of_lt (by omega), Nat.mul_comm]
        rfl
  rw [digitsValue, decimal_eq_map, hfold _ _ fun c hc =>
    Nat.isDigit_of_mem_toDigits (by decide) (by decide) hc]
  exact Nat.ofDigitChars_toDigits (by decide) (by decide)

theorem scanInt_append {rest : List UInt8} (hdigits : ∀ b ∈ digits, isDigit b = true)
    (hne : digits ≠ []) (hrest : ∀ b, rest.head? = some b → isDigit b = false) :
    scanInt (digits ++ rest) = some (UInt32.ofNat (digitsValue digits), rest) := by
  obtain ⟨d, ds, rfl⟩ := List.exists_cons_of_ne_nil hne
  have hd := hdigits d List.mem_cons_self
  have htoNat : 0x30 ≤ d.toNat ∧ d.toNat ≤ 0x39 := by
    simp only [isDigit, Bool.and_eq_true, decide_eq_true_eq, UInt8.le_iff_toNat_le] at hd
    exact hd
  have hne_of_lt : ∀ b : UInt8, b.toNat < 0x30 → d ≠ b := by
    rintro b hb rfl
    omega
  have hspace : isSpace d = false := by
    simp only [isSpace, Bool.or_eq_false_iff, Bool.and_eq_false_iff, beq_eq_false_iff_ne,
      decide_eq_false_iff_not, UInt8.le_iff_toNat_le]
    exact ⟨hne_of_lt _ (by decide), .inr (by simpa using by omega)⟩
  have hspan : ((d :: ds) ++ rest).span isDigit = (d :: ds, rest) := by
    rw [List.span_eq_takeWhile_dropWhile, List.takeWhile_append_of_pos hdigits,
      List.dropWhile_append_of_pos hdigits]
    cases rest with
    | nil => simp
    | cons b bs =>
        have hb := hrest b rfl
        rw [List.takeWhile_cons_of_neg (by simp [hb]), List.dropWhile_cons_of_neg (by simp [hb]),
          List.append_nil]
  have hdrop : ((d :: ds) ++ rest).dropWhile isSpace = (d :: ds) ++ rest :=
    List.dropWhile_cons_of_neg (by simp [hspace])
  rw [scanInt, hdrop]
  split
  rename_i neg s hsign
  have hsign' : neg = false ∧ s = (d :: ds) ++ rest := by
    split at hsign
    · rename_i hminus
      exact absurd (List.cons.inj hminus).1 (hne_of_lt _ (by decide))
    · rename_i hplus
      exact absurd (List.cons.inj hplus).1 (hne_of_lt _ (by decide))
    · cases hsign
      exact ⟨rfl, rfl⟩
  obtain ⟨rfl, rfl⟩ := hsign'
  rw [hspan]
  rfl

theorem scanInts_cons {sep : UInt8} (hsep : isDigit sep = false)
    (hdigits : ∀ b ∈ digits, isDigit b = true) (hne : digits ≠ []) (rest : List UInt8)
    (x y : UInt32) (ys : List UInt32) :
    scanInts sep (x :: y :: ys) (digits ++ sep :: rest)
      = UInt32.ofNat (digitsValue digits) :: scanInts sep (y :: ys) rest := by
  have hscan : scanInt (digits ++ sep :: rest) = some (UInt32.ofNat (digitsValue digits), sep :: rest) :=
    scanInt_append hdigits hne (by rintro b ⟨⟩; exact hsep)
  rw [scanInts, hscan]
  simp

theorem scanInts_last (sep : UInt8) (hdigits : ∀ b ∈ digits, isDigit b = true)
    (hne : digits ≠ []) (x : UInt32) :
    scanInts sep [x] digits = [UInt32.ofNat (digitsValue digits)] := by
  have hscan : scanInt (digits ++ []) = some (UInt32.ofNat (digitsValue digits), []) :=
    scanInt_append hdigits hne (by rintro b ⟨⟩)
  rw [List.append_nil] at hscan
  rw [scanInts, hscan]

theorem toNat_shiftLeft_or {a b : UInt32} {k : Nat} (hk : k < 32) (hb : b.toNat < 2 ^ k)
    (ha : a.toNat * 2 ^ k < 2 ^ 32) :
    ((a <<< UInt32.ofNat k) ||| b).toNat = a.toNat * 2 ^ k + b.toNat := by
  have hshift : (a <<< UInt32.ofNat k).toNat = a.toNat <<< k := by
    rw [UInt32.toNat_shiftLeft, UInt32.toNat_ofNat', Nat.mod_eq_of_lt (by omega : k < 2 ^ 32),
      Nat.mod_eq_of_lt hk, Nat.shiftLeft_eq, Nat.mod_eq_of_lt ha]
  rw [UInt32.toNat_or, hshift, ← Nat.shiftLeft_add_eq_or_of_lt hb, Nat.shiftLeft_eq]

end Numbers

def osVersionValue (ver : Nat) : String :=
  toString (ver / 2 ^ 11 / 2 ^ 14 % 2 ^ 7) ++ "." ++ toString (ver / 2 ^ 11 / 2 ^ 7 % 2 ^ 7) ++ "."
    ++ toString (ver / 2 ^ 11 % 2 ^ 7)

def osPatchLevelValue (ver : Nat) : String :=
  toString (ver % 2 ^ 11 / 2 ^ 4 + 2000) ++ "-"
    ++ ((if ver % 2 ^ 11 % 2 ^ 4 < 10 then "0" else "") ++ toString (ver % 2 ^ 11 % 2 ^ 4))

section Version

variable {h : Header} {locals : Locals} {ver : Nat}

theorem toNat_ofNat_of_lt {k : Nat} (hn : n < 2 ^ k) (hk : k ≤ 32) : (UInt32.ofNat n).toNat = n := by
  rw [UInt32.toNat_ofNat', Nat.mod_eq_of_lt (lt_of_lt_of_le hn (Nat.pow_le_pow_right (by decide) hk))]

theorem toNat_pack {a b c : UInt32} {i j : Nat} (hi : i < 32) (hij : i + j < 32) (hc : c.toNat < 2 ^ i)
    (hb : b.toNat < 2 ^ j) (ha : a.toNat * 2 ^ (i + j) < 2 ^ 32) :
    ((a <<< UInt32.ofNat (i + j)) ||| (b <<< UInt32.ofNat i) ||| c).toNat
      = a.toNat * 2 ^ (i + j) + (b.toNat * 2 ^ i + c.toNat) := by
  have hbi : b.toNat * 2 ^ i + c.toNat < 2 ^ (i + j) := by
    calc b.toNat * 2 ^ i + c.toNat < (b.toNat + 1) * 2 ^ i := by rw [Nat.add_mul]; omega
      _ ≤ 2 ^ j * 2 ^ i := Nat.mul_le_mul_right _ hb
      _ = 2 ^ (i + j) := by rw [← pow_add, Nat.add_comm]
  have hlow : ((b <<< UInt32.ofNat i) ||| c).toNat = b.toNat * 2 ^ i + c.toNat := by
    apply toNat_shiftLeft_or hi hc
    have hpow : 2 ^ (i + j) ≤ 2 ^ 32 := Nat.pow_le_pow_right (by decide) (by omega)
    omega
  rw [UInt32.or_assoc, toNat_shiftLeft_or hij (by rwa [hlow]) ha, hlow]

theorem loadOsVersion_decimal {a b c : Nat} (ha : a < 2 ^ 7) (hb : b < 2 ^ 7) (hc : c < 2 ^ 7)
    (hlt : h.get .osVersion < 2 ^ 32) :
    loadOsVersion locals h (decimal a ++ 0x2e :: (decimal b ++ 0x2e :: decimal c))
      = h.set .osVersion ((a * 2 ^ 14 + (b * 2 ^ 7 + c)) * 2 ^ 11 + h.get .osVersion % 2 ^ 11) := by
  have hdigits : ∀ n, ∀ b ∈ decimal n, isDigit b = true := fun n b hb => isDigit_of_mem_decimal hb
  rw [loadOsVersion, scanInts_cons (by decide) (hdigits _) (decimal_ne_nil _),
    scanInts_cons (by decide) (hdigits _) (decimal_ne_nil _), scanInts_last _ (hdigits _) (decimal_ne_nil _),
    digitsValue_decimal, digitsValue_decimal, digitsValue_decimal]
  refine congrArg (h.set .osVersion) ?_
  have ha' := toNat_ofNat_of_lt ha (by decide)
  have hb' := toNat_ofNat_of_lt hb (by decide)
  have hc' := toNat_ofNat_of_lt hc (by decide)
  have hpack := toNat_pack (i := 7) (j := 7) (by decide) (by decide) (by rwa [hc']) (by rwa [hb'])
    (show (UInt32.ofNat a).toNat * 2 ^ (7 + 7) < 2 ^ 32 by rw [ha']; omega)
  rw [ha', hb', hc'] at hpack
  have hlow : (UInt32.ofNat (h.get .osVersion) &&& 0x7ff).toNat = h.get .osVersion % 2 ^ 11 := by
    rw [UInt32.toNat_and, toNat_ofNat_of_lt hlt (by decide)]
    exact Nat.and_two_pow_sub_one_eq_mod _ 11
  have hor := toNat_shiftLeft_or (k := 11) (by decide)
    (show (UInt32.ofNat (h.get .osVersion) &&& 0x7ff).toNat < 2 ^ 11 by rw [hlow]; exact Nat.mod_lt _ (by decide))
    (show _ < 2 ^ 32 by rw [hpack]; omega)
  rwa [hpack, hlow] at hor

theorem loadOsVersion_self (hver : h.get .osVersion = ver) (hlt : ver < 2 ^ 32) :
    loadOsVersion locals h (utf8Bytes (osVersionValue ver)) = h.set .osVersion ver := by
  have hload : loadOsVersion locals h _ = _ := loadOsVersion_decimal
    (Nat.mod_lt (ver / 2 ^ 11 / 2 ^ 14) (by decide)) (Nat.mod_lt (ver / 2 ^ 11 / 2 ^ 7) (by decide))
    (Nat.mod_lt (ver / 2 ^ 11) (by decide)) (hver ▸ hlt)
  simp only [osVersionValue, Text.utf8Bytes_append, List.append_assoc]
  refine hload.trans (congrArg (h.set .osVersion) ?_)
  omega

/-- The month, with a zero before it if it has one digit. -/
def monthDigits (m : Nat) : List UInt8 := utf8Bytes (if m < 10 then "0" else "") ++ decimal m

theorem monthDigits_spec (m : Nat) :
    (∀ b ∈ monthDigits m, isDigit b = true) ∧ digitsValue (monthDigits m) = m ∧ monthDigits m ≠ [] := by
  have hdigits : ∀ b ∈ decimal m, isDigit b = true := fun b hb => isDigit_of_mem_decimal hb
  refine ⟨?_, ?_, by simp [monthDigits, decimal_ne_nil]⟩ <;> rw [monthDigits] <;> split
  · intro b hb
    rcases List.mem_append.1 hb with hb | hb
    · have hzero : b ∈ [0x30] := hb
      rw [List.eq_of_mem_singleton hzero]
      rfl
    · exact hdigits b hb
  · exact hdigits
  · exact digitsValue_decimal m
  · exact digitsValue_decimal m

theorem loadOsPatchLevel_decimal {y m : Nat} (hy : y < 2 ^ 7) (hm : m < 2 ^ 4)
    (hlt : h.get .osVersion < 2 ^ 32) :
    loadOsPatchLevel locals h (decimal (y + 2000) ++ 0x2d :: monthDigits m)
      = h.set .osVersion (h.get .osVersion / 2 ^ 11 * 2 ^ 11 + (y * 2 ^ 4 + m)) := by
  obtain ⟨hdigits, hvalue, hne⟩ := monthDigits_spec m
  rw [loadOsPatchLevel, scanInts_cons (by decide) (fun b hb => isDigit_of_mem_decimal hb) (decimal_ne_nil _),
    scanInts_last _ hdigits hne, digitsValue_decimal, hvalue]
  refine congrArg (h.set .osVersion) ?_
  have hversion : (UInt32.ofNat (h.get .osVersion) >>> 11).toNat = h.get .osVersion / 2 ^ 11 := by
    rw [UInt32.toNat_shiftRight, toNat_ofNat_of_lt hlt (by decide)]
    exact Nat.shiftRight_eq_div_pow _ 11
  have hyear : (UInt32.ofNat (y + 2000) - 2000).toNat = y := by
    have hsum : (UInt32.ofNat (y + 2000)).toNat = y + 2000 :=
      toNat_ofNat_of_lt (k := 12) (by omega) (by decide)
    rw [UInt32.toNat_sub_of_le _ _ (by rw [UInt32.le_iff_toNat_le, hsum]; exact Nat.le_add_left _ _), hsum]
    exact Nat.add_sub_cancel _ 2000
  have hmonth := toNat_ofNat_of_lt hm (by decide)
  have hpack := toNat_pack (i := 4) (j := 7) (by decide) (by decide) (by rwa [hmonth]) (by rwa [hyear])
    (show _ < 2 ^ 32 by rw [hversion]; omega)
  rwa [hversion, hyear, hmonth] at hpack

theorem loadOsPatchLevel_self (hver : h.get .osVersion = ver) (hlt : ver < 2 ^ 32) :
    loadOsPatchLevel locals h (utf8Bytes (osPatchLevelValue ver)) = h.set .osVersion ver := by
  have hload : loadOsPatchLevel locals h _ = _ := loadOsPatchLevel_decimal
    (show ver % 2 ^ 11 / 2 ^ 4 < 2 ^ 7 by omega) (Nat.mod_lt (ver % 2 ^ 11) (by decide)) (hver ▸ hlt)
  simp only [osPatchLevelValue, Text.utf8Bytes_append, List.append_assoc]
  refine hload.trans (congrArg (h.set .osVersion) ?_)
  omega

def IsNumeric (s : List Char) : Prop := ∀ c ∈ s, c.isDigit = true ∨ c = '.' ∨ c = '-'

theorem IsNumeric.append {t : String} (hs : IsNumeric s.toList) (ht : IsNumeric t.toList) :
    IsNumeric (s ++ t).toList := by
  intro c hc
  rw [String.toList_append, List.mem_append] at hc
  rcases hc with hc | hc
  · exact hs c hc
  · exact ht c hc

theorem isNumeric_toString (n : Nat) : IsNumeric (toString n).toList := by
  intro c hc
  rw [Nat.toString_eq_ofList_toDigits, String.toList_ofList] at hc
  exact .inl (Nat.isDigit_of_mem_toDigits (by decide) (by decide) hc)

theorem isNumeric_osVersionValue (ver : Nat) : IsNumeric (osVersionValue ver).toList := by
  have hdot : IsNumeric ".".toList := by
    rintro c ⟨⟩
    · exact .inr (.inl rfl)
    · contradiction
  exact ((((isNumeric_toString _).append hdot).append (isNumeric_toString _)).append hdot).append
    (isNumeric_toString _)

theorem isNumeric_osPatchLevelValue (ver : Nat) : IsNumeric (osPatchLevelValue ver).toList := by
  have hdash : IsNumeric "-".toList := by
    rintro c ⟨⟩
    · exact .inr (.inr rfl)
    · contradiction
  refine ((isNumeric_toString _).append hdash).append (.append ?_ (isNumeric_toString _))
  split
  · rintro c ⟨⟩
    · exact .inl rfl
    · contradiction
  · exact List.forall_mem_nil _

theorem eq_of_isDigit (hc : c.isDigit = true) : c ∈ "0123456789".toList := by
  obtain ⟨hlow, hhigh⟩ := toNat_of_isDigit hc
  have hofNat := Char.ofNat_toNat c
  generalize c.toNat = n at *
  interval_cases n <;> rw [← hofNat] <;> decide

theorem IsNumeric.not_white {s : List Char} (hs : IsNumeric s) (hc : c ∈ s) :
    isWhite c = false ∧ c ≠ '\n' := by
  have hall : ∀ c ∈ "0123456789.-".toList, isWhite c = false ∧ c ≠ '\n' :=
    Text.forall_mem_of_all (by decide)
  apply hall
  rcases hs c hc with hdigit | rfl | rfl
  · have hmem := eq_of_isDigit hdigit
    exact List.mem_append_left ".-".toList hmem
  · decide
  · decide

end Version

structure Filled (field : List UInt8) (v : String) : Prop where
  nul : Text.NulFree v
  newline : '\n' ∉ v.toList
  trimmed : trim v.toList = v.toList
  filled : ∃ k, 0 < k ∧ field = utf8Bytes v ++ zeros k

structure Tidy (h : Header) (name cmd : String) : Prop where
  name : (h.kind.textOffset .name).isSome → Filled (h.text .name) name
  cmdline : Filled (h.text .cmdline ++ h.text .extraCmdline) cmd

theorem Filled.takeWhile {field : List UInt8} {v : String} (hfield : Filled field v) (rest : List UInt8) :
    (field ++ rest).takeWhile (· ≠ 0) = utf8Bytes v := by
  obtain ⟨k, hk, rfl⟩ := hfield.filled
  exact takeWhile_append_zeros hfield.nul hk

theorem takeWhile_take_append_zeros {bs : List UInt8} (hbs : 0 ∉ bs) (k m : Nat) :
    ((bs ++ zeros k).take m).takeWhile (· ≠ 0) = bs.take m := by
  have hall : ∀ b ∈ bs.take m, decide (b ≠ 0) = true := by
    intro b hb
    rw [decide_eq_true_eq]
    rintro rfl
    exact hbs (List.mem_of_mem_take hb)
  have hzeros : ((zeros k).take (m - bs.length)).takeWhile (· ≠ 0) = [] := by
    rw [zeros, List.take_replicate]
    cases min (m - bs.length) k with
    | zero => rfl
    | succ n => rw [List.replicate_succ, List.takeWhile_cons_of_neg (by decide)]
  rw [List.take_append, List.takeWhile_append_of_pos hall, hzeros, List.append_nil]

section Dump

variable {h : Header} {name cmd : String}

theorem cstr_text {m : Nat} (harray : h.kind.array t = some (off, n))
    (hm : m ≤ n) : cstr (h.raw.drop off) m = ((h.text t).take m).takeWhile (· ≠ 0) := by
  rw [cstr, Header.text, harray]
  simp only [slice, List.take_take, Nat.min_eq_left hm]

theorem cstr_name (htidy : Tidy h name cmd) (hoff : h.kind.textOffset .name = some off) :
    cstr (h.raw.drop off) h.raw.length = utf8Bytes name := by
  have hfield := htidy.name (by rw [hoff]; rfl)
  have htext : h.text .name = (h.raw.drop off).take (h.kind.room .name) := by
    rw [Header.text, Kind.array, hoff]
    rfl
  rw [cstr, List.take_of_length_le (by simp), ← List.take_append_drop (h.kind.room .name) (h.raw.drop off),
    ← htext, hfield.takeWhile]

theorem texts_of_tidy (htidy : Tidy h name cmd) :
    ∃ k k', h.text .cmdline = (utf8Bytes cmd ++ zeros k).take 512 ∧
      h.text .extraCmdline = (utf8Bytes cmd).drop 512 ++ zeros k' := by
  obtain ⟨k, hk, hfilled⟩ := htidy.cmdline.filled
  have hfirst := length_text_cmdline h
  refine ⟨k, k - (512 - (utf8Bytes cmd).length), ?_, ?_⟩
  · rw [← hfilled, List.take_left' hfirst]
  · have hdrop := congrArg (List.drop 512) hfilled
    rw [List.drop_left' hfirst, List.drop_append, zeros, List.drop_replicate] at hdrop
    exact hdrop

theorem cmdline_eq_take (htidy : Tidy h name cmd) : h.cmdline = (utf8Bytes cmd).take 1536 := by
  obtain ⟨⟨off, n⟩, hcmdline⟩ := Option.isSome_iff_exists.1 (isSome_array_cmdline h.kind)
  obtain ⟨⟨off', n'⟩, hextra⟩ := Option.isSome_iff_exists.1 (isSome_array_extraCmdline h.kind)
  obtain ⟨k, k', htext, htext'⟩ := texts_of_tidy htidy
  have hnul : 0 ∉ utf8Bytes cmd := htidy.cmdline.nul
  have hwidth := width_le_room hcmdline
  have hwidth' := width_le_room hextra
  simp only [Header.cmdline, textOffset_of_array hcmdline, textOffset_of_array hextra,
    cstr_text hcmdline hwidth.1, cstr_text hextra hwidth'.1]
  rw [htext, htext', takeWhile_take_append_zeros fun hmem => hnul (List.mem_of_mem_drop hmem)]
  simp only [TextField.width, List.take_take, Nat.min_self]
  rw [takeWhile_take_append_zeros hnul, ← List.take_add]

def nameLines (h : Header) (name : String) : List String :=
  if (h.kind.textOffset .name).isSome then ["name=" ++ name] else []

def versionLines (ver : Nat) : List String :=
  if ver ≠ 0 then ["os_version=" ++ osVersionValue ver, "os_patch_level=" ++ osPatchLevelValue ver]
  else []

theorem dumpHdrFile_eq (htidy : Tidy h name cmd) :
    dumpHdrFile h
      = ((nameLines h name).map utf8Bytes ++ (utf8Bytes "cmdline=" ++ (utf8Bytes cmd).take 1536) ::
          (versionLines (h.get .osVersion)).map utf8Bytes).flatMap (· ++ [10]) := by
  have hname : ((h.kind.textOffset .name).elim [] fun off =>
      utf8Bytes "name=" ++ cstr (h.raw.drop off) h.raw.length ++ [10])
        = ((nameLines h name).map utf8Bytes).flatMap (· ++ [10]) := by
    rw [nameLines]
    cases hoff : h.kind.textOffset .name with
    | none => rfl
    | some off => simp [cstr_name htidy hoff, Text.utf8Bytes_append]
  have hversion : (if h.get .osVersion ≠ 0 then
      utf8Bytes "os_version=" ++ decimal (h.get .osVersion / 2 ^ 11 / 2 ^ 14 % 2 ^ 7) ++ utf8Bytes "."
        ++ decimal (h.get .osVersion / 2 ^ 11 / 2 ^ 7 % 2 ^ 7) ++ utf8Bytes "."
        ++ decimal (h.get .osVersion / 2 ^ 11 % 2 ^ 7) ++ [10]
        ++ utf8Bytes "os_patch_level=" ++ decimal (h.get .osVersion % 2 ^ 11 / 2 ^ 4 + 2000)
        ++ utf8Bytes "-" ++ (if h.get .osVersion % 2 ^ 11 % 2 ^ 4 < 10 then utf8Bytes "0" else [])
        ++ decimal (h.get .osVersion % 2 ^ 11 % 2 ^ 4) ++ [10]
      else []) = ((versionLines (h.get .osVersion)).map utf8Bytes).flatMap (· ++ [10]) := by
    rw [versionLines]
    split
    · simp only [osVersionValue, osPatchLevelValue, List.map_cons, List.map_nil, List.flatMap_cons,
        List.flatMap_nil, Text.utf8Bytes_append, apply_ite utf8Bytes, List.append_assoc, List.append_nil]
      rfl
    · rfl
  calc dumpHdrFile h
      = ((nameLines h name).map utf8Bytes).flatMap (· ++ [10]) ++ utf8Bytes "cmdline=" ++ h.cmdline ++ [10]
          ++ ((versionLines (h.get .osVersion)).map utf8Bytes).flatMap (· ++ [10]) := by
        rw [← hname, ← hversion, dumpHdrFile]
        cases h.kind.textOffset .name <;> rfl
    _ = _ := by
        rw [cmdline_eq_take htidy, List.flatMap_append, List.flatMap_cons]
        simp only [List.append_assoc]

end Dump

section Load

variable {h : Header} {locals : Locals} {name cmd : String}

theorem validLines_flatMap {lines : List (List UInt8)} (hlines : ∀ line ∈ lines, 10 ∉ line) :
    validLines (lines.flatMap (· ++ [10]))
      = (((lines ++ [[]]).map ofUtf8?).takeWhile Option.isSome).filterMap (Option.map String.toList) := by
  rw [validLines, Text.splitOn_flatMap hlines]

theorem takeWhile_isSome_append (texts : List String) (rest : List (Option String)) :
    ((texts.map utf8Bytes).map ofUtf8? ++ rest).takeWhile Option.isSome
      = texts.map some ++ rest.takeWhile Option.isSome := by
  have hvalid : (texts.map utf8Bytes).map ofUtf8? = texts.map some := by
    rw [List.map_map]
    exact List.map_congr_left fun line _ => Text.ofUtf8?_utf8Bytes line
  rw [hvalid, List.takeWhile_append_of_pos]
  intro line hline
  obtain ⟨text, -, rfl⟩ := List.mem_map.1 hline
  rfl

theorem filterMap_toList (texts : List String) :
    (texts.map some).filterMap (Option.map String.toList) = texts.map String.toList := by
  rw [List.filterMap_map]
  exact congrFun List.filterMap_eq_map' texts

theorem loadHdrFile_lines {lines : List String} (hlines : ∀ line ∈ lines, '\n' ∉ line.toList) :
    loadHdrFile locals h ((lines.map utf8Bytes).flatMap (· ++ [10]))
      = ((lines.map String.toList).filterMap propOfLine).foldl (loadProp locals) h := by
  have hnewline : ∀ line ∈ lines.map utf8Bytes, 10 ∉ line := by
    intro bytes hbytes
    obtain ⟨line, hline, rfl⟩ := List.mem_map.1 hbytes
    exact Text.not_mem_utf8Bytes (by decide) rfl (hlines line hline)
  have hempty : ([[]].map ofUtf8?).takeWhile Option.isSome = [some ""] := by
    have hnil : ofUtf8? [] = some "" := Text.ofUtf8?_utf8Bytes ""
    rw [List.map_singleton, hnil]
    rfl
  rw [loadHdrFile, validLines_flatMap hnewline, List.map_append, takeWhile_isSome_append, hempty,
    List.filterMap_append, filterMap_toList, List.filterMap_append]
  have hlast : ([some ""].filterMap (Option.map String.toList)).filterMap propOfLine = [] := by decide
  rw [hlast, List.append_nil]

theorem loadHdrFile_bad {lines : List String} {bad : List UInt8} {more : List (List UInt8)}
    (hlines : ∀ line ∈ lines, '\n' ∉ line.toList) (hbad : 10 ∉ bad) (hmore : ∀ line ∈ more, 10 ∉ line)
    (hinvalid : ofUtf8? bad = none) :
    loadHdrFile locals h ((lines.map utf8Bytes ++ bad :: more).flatMap (· ++ [10]))
      = ((lines.map String.toList).filterMap propOfLine).foldl (loadProp locals) h := by
  have hnewline : ∀ line ∈ lines.map utf8Bytes ++ bad :: more, 10 ∉ line := by
    intro bytes hbytes
    rcases List.mem_append.1 hbytes with hbytes | hbytes
    · obtain ⟨line, hline, rfl⟩ := List.mem_map.1 hbytes
      exact Text.not_mem_utf8Bytes (by decide) rfl (hlines line hline)
    · rcases List.mem_cons.1 hbytes with rfl | hbytes
      · exact hbad
      · exact hmore bytes hbytes
  rw [loadHdrFile, validLines_flatMap hnewline, List.append_assoc, List.map_append,
    takeWhile_isSome_append, List.cons_append, List.map_cons, hinvalid,
    List.takeWhile_cons_of_neg (by simp), List.append_nil, filterMap_toList]

def nameLoaded (h : Header) (name : String) : Header :=
  if (h.kind.textOffset .name).isSome then loadName h (utf8Bytes name) else h

theorem foldl_nameLines (htidy : Tidy h name cmd) :
    (((nameLines h name).map String.toList).filterMap propOfLine).foldl (loadProp locals) h
      = nameLoaded h name := by
  rw [nameLines, nameLoaded]
  split
  · rename_i hsome
    have hfield := htidy.name hsome
    have hprop : propOfLine ("name=" ++ name).toList = some ("name", name) := by
      rw [propOfLine_append "name" rfl (by decide) (leftTrimmed_of_trim hfield.trimmed), hfield.trimmed,
        String.ofList_toList]
    rw [List.map_singleton, List.filterMap_cons_some hprop]
    exact if_pos ⟨rfl, hsome⟩
  · rfl

theorem text_nameLoaded_of_ne (ht : t ≠ .name) :
    (nameLoaded h name).text t = h.text t := by
  rw [nameLoaded]
  split
  · rw [loadName, text_setText_ne ht.symm, text_setText_ne ht.symm]
  · rfl

theorem get_nameLoaded (h : Header) (name : String) (f : Field) : (nameLoaded h name).get f = h.get f := by
  rw [nameLoaded]
  split
  · rw [loadName, get_setText, get_setText]
  · rfl

theorem nameText_loadName (hsome : (h.kind.textOffset .name).isSome) {value : List UInt8}
    (hvalue : 0 ∉ value) : (loadName h value).nameText = value.take 15 := by
  have harray : (h.kind.array .name).isSome := by
    rw [Kind.array, Option.isSome_map]
    exact hsome
  have hshort : (value.take 15).length ≤ TextField.name.width :=
    le_trans (List.length_take_le _ _) (by decide)
  have hpos : 0 < TextField.name.width - (value.take 15).length := by
    have hle := List.length_take_le 15 value
    have hwidth : TextField.name.width = 16 := rfl
    omega
  have htext : (loadName h value).text .name
      = value.take 15 ++ zeros (TextField.name.width - (value.take 15).length)
        ++ (h.text .name).drop TextField.name.width :=
    text_write (by rwa [kind_setText]) (text_clear harray) hshort
  rw [Header.nameText, htext]
  exact takeWhile_append_zeros (fun hmem => hvalue (List.mem_of_mem_take hmem)) hpos

theorem length_name_lt (htidy : Tidy h name cmd) (hsome : (h.kind.textOffset .name).isSome) :
    (utf8Bytes name).length < h.kind.room .name := by
  obtain ⟨k, hk, hfilled⟩ := (htidy.name hsome).filled
  obtain ⟨off, hoff⟩ := Option.isSome_iff_exists.1 hsome
  have harray : h.kind.array .name = some (off, h.kind.room .name) := by
    rw [Kind.array, hoff]
    rfl
  have hlength := length_text harray
  rw [hfilled, List.length_append, length_zeros] at hlength
  omega

theorem nameText_nameLoaded_iff (htidy : Tidy h name cmd) :
    (nameLoaded h name).nameText = h.nameText ↔ (h.kind = .pxa → (utf8Bytes name).length ≤ 15) := by
  rw [nameLoaded]
  split
  · rename_i hsome
    have hfield := htidy.name hsome
    have hlt := length_name_lt htidy hsome
    have hname : h.nameText = utf8Bytes name := by
      have hwhole := hfield.takeWhile []
      rwa [List.append_nil] at hwhole
    rw [nameText_loadName hsome hfield.nul, hname, List.take_eq_self_iff]
    constructor
    · exact fun hle _ => hle
    · intro hpxa
      by_cases hkind : h.kind = .pxa
      · exact hpxa hkind
      · have hroom : h.kind.room .name = 16 := by
          generalize h.kind = k at hkind
          cases k <;> first | rfl | exact absurd rfl hkind
        omega
  · rename_i hnone
    refine ⟨fun _ hpxa => absurd ?_ hnone, fun _ => rfl⟩
    rw [hpxa]
    rfl

theorem loadProp_osVersion (locals : Locals) (h : Header) (value : String) :
    loadProp locals h ("os_version", value) = loadOsVersion locals h (utf8Bytes value) := by
  rw [loadProp, if_neg (by rintro ⟨hname, -⟩; exact absurd hname (by decide)),
    if_neg (by decide), if_pos rfl]

theorem loadProp_osPatchLevel (locals : Locals) (h : Header) (value : String) :
    loadProp locals h ("os_patch_level", value) = loadOsPatchLevel locals h (utf8Bytes value) := by
  rw [loadProp, if_neg (by rintro ⟨hname, -⟩; exact absurd hname (by decide)),
    if_neg (by decide), if_neg (by decide), if_pos rfl]

theorem foldl_versionLines (locals : Locals) {g : Header} {ver : Nat} (hver : g.get .osVersion = ver) :
    ((((versionLines ver).map String.toList).filterMap propOfLine).foldl (loadProp locals) g).get .osVersion
        = ver ∧
      ∀ t, ((((versionLines ver).map String.toList).filterMap propOfLine).foldl (loadProp locals) g).text t
        = g.text t := by
  rw [versionLines]
  split
  · rename_i hne
    have hlt : ver < 2 ^ 32 := hver ▸ g.get_lt .osVersion
    obtain ⟨off, hoff⟩ : ∃ off, g.kind.offset .osVersion = some off := by
      refine Option.ne_none_iff_exists'.1 fun hnone => hne ?_
      rw [← hver, get_eq_zero hnone]
    have hset : ∀ x : Header, x.kind = g.kind → (x.set .osVersion ver).get .osVersion = ver := by
      intro x hx
      rw [get_set_self (hx ▸ hoff)]
      exact Nat.mod_eq_of_lt hlt
    have hvalue : ∀ {v : String}, IsNumeric v.toList → LeftTrimmed v.toList ∧ trim v.toList = v.toList :=
      fun hv => ⟨leftTrimmed_of_trim (trim_of_not_white fun c hc => (hv.not_white hc).1),
        trim_of_not_white fun c hc => (hv.not_white hc).1⟩
    obtain ⟨hleft, htrim⟩ := hvalue (isNumeric_osVersionValue ver)
    obtain ⟨hleft', htrim'⟩ := hvalue (isNumeric_osPatchLevelValue ver)
    have hprop : propOfLine ("os_version=" ++ osVersionValue ver).toList
        = some ("os_version", osVersionValue ver) := by
      rw [propOfLine_append "os_version" rfl (by decide) hleft, htrim, String.ofList_toList]
    have hprop' : propOfLine ("os_patch_level=" ++ osPatchLevelValue ver).toList
        = some ("os_patch_level", osPatchLevelValue ver) := by
      rw [propOfLine_append "os_patch_level" rfl (by decide) hleft', htrim', String.ofList_toList]
    have hload : loadProp locals g ("os_version", osVersionValue ver) = g.set .osVersion ver := by
      rw [loadProp_osVersion, loadOsVersion_self hver hlt]
    have hload' : loadProp locals (g.set .osVersion ver) ("os_patch_level", osPatchLevelValue ver)
        = (g.set .osVersion ver).set .osVersion ver := by
      rw [loadProp_osPatchLevel, loadOsPatchLevel_self (hset g rfl) hlt]
    rw [List.map_cons, List.map_singleton, List.filterMap_cons_some hprop,
      List.filterMap_cons_some hprop', List.filterMap_nil, List.foldl_cons, List.foldl_cons,
      List.foldl_nil, hload, hload']
    have hkind : (g.set .osVersion ver).kind = g.kind := kind_set ..
    constructor
    · exact hset _ hkind
    · intro t
      rw [text_set, text_set]
  · exact ⟨hver, fun _ => rfl⟩

theorem utf8Bytes_ne_nil (hs : s ≠ "") : utf8Bytes s ≠ [] := by
  intro hnil
  exact hs (Text.utf8Bytes_injective hnil)

theorem length_trim_lt (hleft : LeftTrimmed s.toList) (hne : trim s.toList ≠ s.toList) :
    (utf8Bytes (String.ofList (trim s.toList))).length < (utf8Bytes s).length := by
  rw [trim_eq_of_leftTrimmed hleft] at hne ⊢
  obtain ⟨rest, hrest⟩ := List.rdropWhile_prefix isWhite s.toList
  have hs : s = String.ofList (s.toList.rdropWhile isWhite) ++ String.ofList rest := by
    apply String.toList_inj.1
    rw [String.toList_append, String.toList_ofList, String.toList_ofList, hrest]
  have hnil : String.ofList rest ≠ "" := by
    intro hempty
    have hrest' : rest = [] := by
      rw [← String.toList_ofList (l := rest), hempty]
      rfl
    rw [hrest', List.append_nil] at hrest
    exact hne hrest
  have hpos := List.length_pos_of_ne_nil (utf8Bytes_ne_nil hnil)
  conv_rhs => rw [hs]
  rw [Text.utf8Bytes_append, List.length_append]
  omega

theorem commandLine_of_tidy (htidy : Tidy h name cmd) : h.commandLine = utf8Bytes cmd := by
  have hwhole := htidy.cmdline.takeWhile []
  rwa [List.append_nil] at hwhole

theorem cmdlineTail_of_tidy (htidy : Tidy h name cmd) (hlong : 1536 ≤ (utf8Bytes cmd).length) :
    h.cmdlineTail = (utf8Bytes cmd).drop 1536 := by
  obtain ⟨k, k', -, htext'⟩ := texts_of_tidy htidy
  have hall : ∀ b ∈ (utf8Bytes cmd).drop 1536, decide (b ≠ 0) = true := by
    intro b hb
    rw [decide_eq_true_eq]
    rintro rfl
    exact htidy.cmdline.nul (List.mem_of_mem_drop hb)
  have hzeros : (zeros k').takeWhile (· ≠ 0) = [] := by
    cases k' with
    | zero => rfl
    | succ k' => rw [zeros, List.replicate_succ, List.takeWhile_cons_of_neg (by decide)]
  rw [Header.cmdlineTail, htext', List.drop_append_of_le_length (by rw [List.length_drop]; omega),
    List.drop_drop, List.takeWhile_append_of_pos hall, hzeros, List.append_nil]

theorem prefix_of_cut (hs : ofUtf8? ((utf8Bytes cmd).take 1536) = some s) :
    s.toList <+: cmd.toList := by
  apply Text.prefix_of_utf8Bytes_prefix
  rw [Text.utf8Bytes_of_ofUtf8? hs]
  exact List.take_prefix _ _

theorem commandLine_loadCmdline_iff {g : Header} (htidy : Tidy h name cmd)
    (hg : g.text .extraCmdline = h.text .extraCmdline)
    (hs : ofUtf8? ((utf8Bytes cmd).take 1536) = some s) :
    (loadCmdline g (utf8Bytes (String.ofList (trim s.toList)))).commandLine = h.commandLine ↔
      trim s.toList = s.toList := by
  have hbytes := Text.utf8Bytes_of_ofUtf8? hs
  have hleft : LeftTrimmed s.toList :=
    (leftTrimmed_of_trim htidy.cmdline.trimmed).mono (prefix_of_cut hs)
  have hnul : 0 ∉ utf8Bytes s := by
    rw [hbytes]
    exact fun hmem => htidy.cmdline.nul (List.mem_of_mem_take hmem)
  have hnul' : Text.NulFree (String.ofList (trim s.toList)) := by
    rw [trim_eq_of_leftTrimmed hleft]
    exact Text.nulFree_ofList hnul (List.rdropWhile_prefix _ _).subset
  have htail : ((g.text .extraCmdline).drop 1024).takeWhile (· ≠ 0) = h.cmdlineTail := by
    rw [hg]
    rfl
  rw [commandLine_loadCmdline g hnul', htail, commandLine_of_tidy htidy]
  by_cases htrim : trim s.toList = s.toList
  · rw [htrim, String.ofList_toList, hbytes]
    refine ⟨fun _ => rfl, fun _ => ?_⟩
    by_cases hlong : 1536 ≤ (utf8Bytes cmd).length
    · rw [if_neg (by rw [List.length_take]; omega), cmdlineTail_of_tidy htidy hlong, List.take_take,
        Nat.min_self, List.take_append_drop]
    · rw [if_pos (by rw [List.length_take]; omega), List.take_of_length_le (by omega)]
  · refine ⟨fun heq => absurd heq ?_, fun h => absurd h htrim⟩
    have hlt := length_trim_lt hleft htrim
    have hle : (utf8Bytes s).length ≤ 1536 := by
      rw [hbytes]
      exact List.length_take_le _ _
    have hle' : (utf8Bytes s).length ≤ (utf8Bytes cmd).length := by
      rw [hbytes]
      exact List.length_take_le' _ _
    rw [if_pos (by omega)]
    intro heq
    rw [heq] at hlt
    omega

end Load

structure Keeps (h h' : Header) : Prop where
  name : h'.nameText = h.nameText
  cmdline : h'.commandLine = h.commandLine
  version : h'.get .osVersion = h.get .osVersion

section RoundTrip

variable {h : Header} {name cmd : String}

theorem newline_nameLines (htidy : Tidy h name cmd) :
    ∀ line ∈ nameLines h name, '\n' ∉ line.toList := by
  rw [nameLines]
  split
  · rename_i hsome
    intro line hline
    rw [List.eq_of_mem_singleton hline, String.toList_append, List.mem_append]
    rintro (hmem | hmem)
    · exact absurd hmem (by decide)
    · exact (htidy.name hsome).newline hmem
  · exact List.forall_mem_nil _

theorem newline_versionLines (ver : Nat) : ∀ line ∈ versionLines ver, '\n' ∉ line.toList := by
  have hnumeric : ∀ {start v : String}, '\n' ∉ start.toList → IsNumeric v.toList →
      '\n' ∉ (start ++ v).toList := by
    intro start v hstart hv
    rw [String.toList_append, List.mem_append]
    rintro (hmem | hmem)
    · exact hstart hmem
    · exact (hv.not_white hmem).2 rfl
  rw [versionLines]
  split
  · intro line hline
    rcases List.mem_cons.1 hline with rfl | hline
    · exact hnumeric (by decide) (isNumeric_osVersionValue ver)
    · rw [List.eq_of_mem_singleton hline]
      exact hnumeric (by decide) (isNumeric_osPatchLevelValue ver)
  · exact List.forall_mem_nil _

theorem newline_cmdline (hs : '\n' ∉ s.toList) : '\n' ∉ ("cmdline=" ++ s).toList := by
  rw [String.toList_append, List.mem_append]
  rintro (hmem | hmem)
  · exact absurd hmem (by decide)
  · exact hs hmem

variable (locals : Locals)

theorem loadHdrFile_dumpHdrFile (htidy : Tidy h name cmd)
    (hs : ofUtf8? ((utf8Bytes cmd).take 1536) = some s) :
    loadHdrFile locals h (dumpHdrFile h)
      = (((versionLines (h.get .osVersion)).map String.toList).filterMap propOfLine).foldl
          (loadProp locals)
          (loadCmdline (nameLoaded h name) (utf8Bytes (String.ofList (trim s.toList)))) := by
  have hcut := prefix_of_cut hs
  have hline : utf8Bytes "cmdline=" ++ (utf8Bytes cmd).take 1536 = utf8Bytes ("cmdline=" ++ s) := by
    rw [Text.utf8Bytes_append, Text.utf8Bytes_of_ofUtf8? hs]
  have hprop : propOfLine ("cmdline=" ++ s).toList = some ("cmdline", String.ofList (trim s.toList)) :=
    propOfLine_append "cmdline" rfl (by decide)
      ((leftTrimmed_of_trim htidy.cmdline.trimmed).mono hcut)
  have hlines : ∀ line ∈ nameLines h name ++ ("cmdline=" ++ s) :: versionLines (h.get .osVersion),
      '\n' ∉ line.toList := by
    intro line hline
    rcases List.mem_append.1 hline with hline | hline
    · exact newline_nameLines htidy line hline
    · rcases List.mem_cons.1 hline with rfl | hline
      · exact newline_cmdline fun hmem => htidy.cmdline.newline (hcut.subset hmem)
      · exact newline_versionLines _ line hline
  rw [dumpHdrFile_eq htidy, hline, ← List.map_cons, ← List.map_append, loadHdrFile_lines hlines,
    List.map_append, List.map_cons, List.filterMap_append, List.filterMap_cons_some hprop,
    List.foldl_append, foldl_nameLines htidy, List.foldl_cons, loadProp_cmdline]

theorem ofUtf8?_append_eq_none {start : String} {bytes : List UInt8} (hbytes : ofUtf8? bytes = none) :
    ofUtf8? (utf8Bytes start ++ bytes) = none := by
  rw [Option.eq_none_iff_forall_ne_some]
  intro line hline
  have hall := Text.utf8Bytes_of_ofUtf8? hline
  obtain ⟨rest, hrest⟩ : start.toList <+: line.toList := by
    apply Text.prefix_of_utf8Bytes_prefix
    rw [hall]
    exact List.prefix_append _ _
  have hsplit : line = start ++ String.ofList rest := by
    apply String.toList_inj.1
    rw [String.toList_append, String.toList_ofList, hrest]
  rw [hsplit, Text.utf8Bytes_append] at hall
  rw [← List.append_cancel_left hall, Text.ofUtf8?_utf8Bytes] at hbytes
  cases hbytes

theorem loadHdrFile_dumpHdrFile_bad (htidy : Tidy h name cmd)
    (hs : ofUtf8? ((utf8Bytes cmd).take 1536) = none) :
    loadHdrFile locals h (dumpHdrFile h) = nameLoaded h name := by
  have hnewline : 10 ∉ utf8Bytes "cmdline=" ++ (utf8Bytes cmd).take 1536 := by
    rw [List.mem_append]
    rintro (hmem | hmem)
    · exact absurd hmem (by decide)
    · exact Text.not_mem_utf8Bytes (by decide) rfl htidy.cmdline.newline (List.mem_of_mem_take hmem)
  have hmore : ∀ line ∈ (versionLines (h.get .osVersion)).map utf8Bytes, 10 ∉ line := by
    intro bytes hbytes
    obtain ⟨line, hline, rfl⟩ := List.mem_map.1 hbytes
    exact Text.not_mem_utf8Bytes (by decide) rfl (newline_versionLines _ line hline)
  rw [dumpHdrFile_eq htidy, loadHdrFile_bad (newline_nameLines htidy) hnewline hmore
    (ofUtf8?_append_eq_none hs), foldl_nameLines htidy]

theorem text_name_loadCmdline (g : Header) (value : List UInt8) :
    (loadCmdline g value).text .name = g.text .name := by
  have hcmdline : ∀ (x : Header) new, (x.setText .cmdline new).text .name = x.text .name :=
    fun x => text_setText_ne (by decide)
  have hextra : ∀ (x : Header) new, (x.setText .extraCmdline new).text .name = x.text .name :=
    fun x => text_setText_ne (by decide)
  rw [loadCmdline]
  split <;> simp only [hcmdline, hextra]

theorem get_loadCmdline (g : Header) (value : List UInt8) (f : Field) :
    (loadCmdline g value).get f = g.get f := by
  rw [loadCmdline]
  split <;> simp only [get_setText]

theorem nameText_loadHdrFile_dumpHdrFile (htidy : Tidy h name cmd) :
    (loadHdrFile locals h (dumpHdrFile h)).nameText = (nameLoaded h name).nameText := by
  cases hs : ofUtf8? ((utf8Bytes cmd).take 1536) with
  | none => rw [loadHdrFile_dumpHdrFile_bad locals htidy hs]
  | some s =>
      have hver : (loadCmdline (nameLoaded h name) (utf8Bytes (String.ofList (trim s.toList)))).get
          .osVersion = h.get .osVersion := by
        rw [get_loadCmdline, get_nameLoaded]
      rw [loadHdrFile_dumpHdrFile locals htidy hs, Header.nameText, (foldl_versionLines locals hver).2,
        text_name_loadCmdline]
      rfl

theorem get_loadHdrFile_dumpHdrFile (htidy : Tidy h name cmd) :
    (loadHdrFile locals h (dumpHdrFile h)).get .osVersion = h.get .osVersion := by
  cases hs : ofUtf8? ((utf8Bytes cmd).take 1536) with
  | none => rw [loadHdrFile_dumpHdrFile_bad locals htidy hs, get_nameLoaded]
  | some s =>
      rw [loadHdrFile_dumpHdrFile locals htidy hs]
      refine (foldl_versionLines locals ?_).1
      rw [get_loadCmdline, get_nameLoaded]

theorem commandLine_loadHdrFile_dumpHdrFile_iff (htidy : Tidy h name cmd) :
    (loadHdrFile locals h (dumpHdrFile h)).commandLine = h.commandLine ↔
      ∀ s, ofUtf8? ((utf8Bytes cmd).take 1536) = some s → trim s.toList = s.toList := by
  cases hs : ofUtf8? ((utf8Bytes cmd).take 1536) with
  | none =>
      rw [loadHdrFile_dumpHdrFile_bad locals htidy hs, Header.commandLine,
        text_nameLoaded_of_ne (by decide), text_nameLoaded_of_ne (by decide)]
      constructor
      · intro _ s hnone
        cases hnone
      · exact fun _ => rfl
  | some s =>
      have hver : (loadCmdline (nameLoaded h name) (utf8Bytes (String.ofList (trim s.toList)))).get
          .osVersion = h.get .osVersion := by
        rw [get_loadCmdline, get_nameLoaded]
      have htexts := (foldl_versionLines locals hver).2
      have hextra : (nameLoaded h name).text .extraCmdline = h.text .extraCmdline :=
        text_nameLoaded_of_ne (by decide)
      have hiff := commandLine_loadCmdline_iff htidy hextra hs
      rw [loadHdrFile_dumpHdrFile locals htidy hs, Header.commandLine, htexts, htexts]
      refine hiff.trans ⟨?_, fun hall => hall s rfl⟩
      intro htrim s' hs'
      cases hs'
      exact htrim

/-- **A header through its file.** Name, command line and version come back exactly if a PXA header has
a name of at most 15 bytes and the first 1536 bytes of the command line do not end in white space. -/
theorem keeps_loadHdrFile_dumpHdrFile_iff (htidy : Tidy h name cmd) :
    Keeps h (loadHdrFile locals h (dumpHdrFile h)) ↔
      (h.kind = .pxa → (utf8Bytes name).length ≤ 15) ∧
        ∀ s, ofUtf8? ((utf8Bytes cmd).take 1536) = some s → trim s.toList = s.toList := by
  rw [← nameText_nameLoaded_iff htidy, ← nameText_loadHdrFile_dumpHdrFile locals htidy,
    ← commandLine_loadHdrFile_dumpHdrFile_iff locals htidy]
  constructor
  · intro hkeeps
    exact ⟨hkeeps.name, hkeeps.cmdline⟩
  · rintro ⟨hname, hcmdline⟩
    exact ⟨hname, hcmdline, get_loadHdrFile_dumpHdrFile locals htidy⟩

end RoundTrip

section Samples

theorem text_zeroHeader (harray : k.array t = some (off, n)) :
    (zeroHeader k).text t = zeros n := by
  have hroom := (width_le_room (h := zeroHeader k) harray).2
  have hlength : (zeroHeader k).raw.length = k.hdrSize := length_zeros _
  rw [Header.text, show (zeroHeader k).kind.array t = some (off, n) from harray]
  simp only [slice, zeroHeader, zeros, List.drop_replicate, List.take_replicate]
  rw [Nat.min_eq_left (by omega)]

theorem text_setText_zeroHeader
    (harray : k.array t = some (off, k.room t)) {h : Header} (hkind : h.kind = k)
    (htext : h.text t = (zeroHeader k).text t) {new : List UInt8} (hlength : new.length ≤ t.width) :
    (h.setText t new).text t = new ++ zeros (k.room t - new.length) := by
  rw [text_setText_self (by rw [hkind, harray]; rfl) hlength, htext, text_zeroHeader harray, zeros,
    List.drop_replicate]
  rfl

def namedHeader (k : Kind) (name cmd : String) (version : Nat) : Header :=
  (((zeroHeader k).setText .name (utf8Bytes name)).setText .cmdline (utf8Bytes cmd)).set .osVersion version

/-- A text without NUL and newline and without white space at its ends. -/
def Line (v : String) : Prop := Text.NulFree v ∧ '\n' ∉ v.toList ∧ trim v.toList = v.toList

theorem tidy_namedHeader {name cmd : String} {off' : Nat} (version : Nat)
    (hname : k.array .name = some (off, k.room .name))
    (hcmdline : k.array .cmdline = some (off', k.room .cmdline)) (hline : Line name) (hline' : Line cmd)
    (hlength : (utf8Bytes name).length ≤ 16)
    (hlt : (utf8Bytes name).length < k.room .name) (hlength' : (utf8Bytes cmd).length ≤ 512)
    (hlt' : (utf8Bytes cmd).length < k.room .cmdline) :
    Tidy (namedHeader k name cmd version) name cmd := by
  constructor
  · intro _
    refine ⟨hline.1, hline.2.1, hline.2.2, _, Nat.sub_pos_of_lt hlt, ?_⟩
    rw [namedHeader, text_set, text_setText_ne (by decide),
      text_setText_zeroHeader hname rfl rfl hlength]
  · obtain ⟨r, hextra⟩ := Option.isSome_iff_exists.1 (isSome_array_extraCmdline k)
    refine ⟨hline'.1, hline'.2.1, hline'.2.2, _, Nat.add_pos_left (Nat.sub_pos_of_lt hlt') r.2, ?_⟩
    rw [namedHeader, text_set, text_set,
      text_setText_zeroHeader hcmdline (kind_setText _ _ _) (text_setText_ne (by decide) _)
        hlength', text_setText_ne (by decide),
      text_setText_ne (by decide), text_zeroHeader hextra, List.append_assoc, zeros_append_zeros]

/-- A board, a command line and the version 11.0.0 of May 2020. -/
theorem keeps_namedHeader :
    Keeps (namedHeader .v2 "a" "b c" 0x16000145)
      (loadHdrFile ⟨0, 0, 0, 0, 0⟩ (namedHeader .v2 "a" "b c" 0x16000145)
        (dumpHdrFile (namedHeader .v2 "a" "b c" 0x16000145))) := by
  have htidy : Tidy (namedHeader .v2 "a" "b c" 0x16000145) "a" "b c" :=
    tidy_namedHeader (k := .v2) _ rfl rfl ⟨by decide, by decide, by decide⟩ ⟨by decide, by decide, by decide⟩
      (by decide) (by decide) (by decide) (by decide)
  apply (keeps_loadHdrFile_dumpHdrFile_iff ⟨0, 0, 0, 0, 0⟩ htidy).2
  refine ⟨fun hpxa => absurd hpxa (by decide), ?_⟩
  intro s hs
  have hsame : s = "b c" := Text.utf8Bytes_injective (Text.utf8Bytes_of_ofUtf8? hs)
  rw [hsame]
  decide

theorem not_keeps_pxa :
    Tidy (namedHeader .pxa (letters 16) "" 0) (letters 16) "" ∧
      ¬ Keeps (namedHeader .pxa (letters 16) "" 0) (loadHdrFile ⟨0, 0, 0, 0, 0⟩
        (namedHeader .pxa (letters 16) "" 0) (dumpHdrFile (namedHeader .pxa (letters 16) "" 0))) := by
  have hlength : (utf8Bytes (letters 16)).length = 16 := by
    rw [utf8Bytes_letters, List.length_replicate]
  have htidy : Tidy (namedHeader .pxa (letters 16) "" 0) (letters 16) "" :=
    tidy_namedHeader (k := .pxa) 0 rfl rfl ⟨by decide, by decide, trim_letters 16⟩
      ⟨by decide, by decide, by decide⟩ (Nat.le_of_eq hlength) (by rw [hlength]; decide) (by decide) (by decide)
  refine ⟨htidy, fun hkeeps => ?_⟩
  have hname := hkeeps.name
  rw [nameText_loadHdrFile_dumpHdrFile _ htidy, nameText_nameLoaded_iff htidy] at hname
  have hle := hname rfl
  omega

end Samples

end MagiskNative.Boot
