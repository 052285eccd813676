import Mathlib.Data.List.DropRight
import Mathlib.Data.List.TakeWhile
import MagiskNative.Boot.HeaderFile

/-!
# Loading a header file

`load_hdr_file` writes the name and the command line through pointers to parts of the header, with
the sizes that the fields have in the first boot headers. Where a header has more room, what lies
behind those sizes stays as it was.
-/

namespace MagiskNative.Boot

open Bytes Layout Header
open Text (utf8Bytes ofUtf8?)

/-- The size of the array that a text is in. The command line of a vendor header is one array of 2048
bytes, in which `extra_cmdline` is the part behind the first 512. -/
def Kind.room : Kind → TextField → Nat
  | .pxa, .name => 24
  | .vndV3, .extraCmdline | .vndV4, .extraCmdline => 1536
  | _, t => t.width

def Kind.array (k : Kind) (t : TextField) : Option (Nat × Nat) :=
  (k.textOffset t).map fun off => (off, k.room t)

theorem array_in_header (k : Kind) (t : TextField) :
    (k.array t).all fun r => t.width ≤ r.2 ∧ r.1 + r.2 ≤ k.hdrSize := by
  cases k <;> cases t <;> decide

theorem array_apart (k : Kind) (t : TextField) :
    ∀ part ∈ Part.all, part ≠ .text t → apart (k.array t) (k.region part) := by
  cases k <;> cases t <;> decide

namespace Header

variable {h : Header} {t t' : TextField}

def text (h : Header) (t : TextField) : List UInt8 :=
  match h.kind.array t with
  | some (off, n) => slice h.raw off n
  | none => []

def commandLine (h : Header) : List UInt8 :=
  (h.text .cmdline ++ h.text .extraCmdline).takeWhile (· ≠ 0)

def nameText (h : Header) : List UInt8 := (h.text .name).takeWhile (· ≠ 0)

theorem width_le_room {off n : Nat} (harray : h.kind.array t = some (off, n)) :
    t.width ≤ n ∧ off + n ≤ h.raw.length := by
  have hin := array_in_header h.kind t
  rw [harray] at hin
  rw [h.length_raw]
  simpa using hin

theorem textOffset_of_array {off n : Nat} (harray : h.kind.array t = some (off, n)) :
    h.kind.textOffset t = some off := by
  rw [Kind.array, Option.map_eq_some_iff] at harray
  obtain ⟨off', hoff, heq⟩ := harray
  cases heq
  exact hoff

theorem length_text {off n : Nat} (harray : h.kind.array t = some (off, n)) :
    (h.text t).length = n := by
  rw [text, harray]
  exact length_slice_of_le (width_le_room harray).2

theorem text_setText_self (hsome : (h.kind.array t).isSome) {new : List UInt8}
    (hnew : new.length ≤ t.width) :
    (h.setText t new).text t = new ++ (h.text t).drop new.length := by
  obtain ⟨⟨off, n⟩, harray⟩ := Option.isSome_iff_exists.1 hsome
  obtain ⟨hwidth, hroom⟩ := width_le_room harray
  have htake : new.take t.width = new := List.take_of_length_le hnew
  have hraw : (h.setText t new).raw = patch h.raw off new := by
    rw [setText, textOffset_of_array harray, htake]
    rfl
  obtain ⟨rest, rfl⟩ : ∃ rest, n = new.length + rest := ⟨n - new.length, by omega⟩
  rw [text, text, kind_setText, harray]
  simp only [hraw]
  rw [slice_add, slice_patch_self (by omega), slice_patch_of_disjoint (.inr (Nat.le_refl _)),
    slice_add, List.drop_left' (length_slice_of_le (by omega))]

theorem text_clear (hsome : (h.kind.array t).isSome) :
    (h.setText t (zeros t.width)).text t = zeros t.width ++ (h.text t).drop t.width := by
  rw [text_setText_self hsome (Nat.le_of_eq (length_zeros _)), length_zeros]

theorem text_write {value rest : List UInt8} (hsome : (h.kind.array t).isSome)
    (hclear : h.text t = zeros t.width ++ rest) (hvalue : value.length ≤ t.width) :
    (h.setText t value).text t = value ++ zeros (t.width - value.length) ++ rest := by
  rw [text_setText_self hsome hvalue, hclear,
    List.drop_append_of_le_length (by rwa [length_zeros]), zeros, List.drop_replicate, List.append_assoc]
  rfl

theorem text_patchRaw {off width : Nat} {new : List UInt8} (hnew : new.length ≤ width)
    (hapart : apart (h.kind.array t) (some (off, width))) : (h.patchRaw off new).text t = h.text t := by
  have hkind : (h.patchRaw off new).kind = h.kind := rfl
  rw [text, text, hkind]
  cases harray : h.kind.array t with
  | none => rfl
  | some r =>
      simp only [harray, apart, Bool.or_eq_true, decide_eq_true_eq] at hapart
      simp only [patchRaw]
      exact slice_patch_of_disjoint (by omega)

theorem text_setText_ne (hne : t' ≠ t) (new : List UInt8) :
    (h.setText t' new).text t = h.text t := by
  have hapart := array_apart h.kind t (.text t') (Part.mem_all _) (by simpa using hne)
  rw [setText]
  cases hoff : h.kind.textOffset t' with
  | none => rfl
  | some off =>
      rw [Kind.region, hoff] at hapart
      exact text_patchRaw (List.length_take_le t'.width new) hapart

theorem text_set (h : Header) (f : Field) (value : Nat) (t : TextField) :
    (h.set f value).text t = h.text t := by
  have hapart := array_apart h.kind t (.field f) (Part.mem_all _) (by simp)
  rw [set]
  cases hoff : h.kind.offset f with
  | none => rfl
  | some off =>
      rw [Kind.region, hoff] at hapart
      exact text_patchRaw (Nat.le_of_eq (length_leBytes f.width value)) hapart

end Header

section Load

variable {h : Header} {value : List UInt8}

theorem isSome_array_cmdline (k : Kind) : (k.array .cmdline).isSome := by
  cases k <;> rfl

theorem isSome_array_extraCmdline (k : Kind) : (k.array .extraCmdline).isSome := by
  cases k <;> rfl

theorem length_text_cmdline (h : Header) : (h.text .cmdline).length = 512 := by
  obtain ⟨r, harray⟩ := Option.isSome_iff_exists.1 (isSome_array_cmdline h.kind)
  have hroom : r.2 = 512 := by
    generalize h.kind = k at harray
    cases k <;> cases harray <;> rfl
  rw [length_text harray, hroom]

theorem text_loadCmdline (h : Header) (value : List UInt8) :
    (loadCmdline h value).text .cmdline ++ (loadCmdline h value).text .extraCmdline
      = value.take 1536 ++ zeros (1536 - value.length) ++ (h.text .extraCmdline).drop 1024 := by
  have hcmdline := isSome_array_cmdline h.kind
  have hextra := isSome_array_extraCmdline h.kind
  -- Both parts once they are cleared.
  let g := (h.setText .cmdline (zeros 512)).setText .extraCmdline (zeros 1024)
  have hg : g.kind = h.kind := by simp [g]
  have hclear : g.text .cmdline = zeros 512 ++ [] := by
    have hdrop : (h.text .cmdline).drop 512 = [] :=
      List.drop_eq_nil_of_le (Nat.le_of_eq (length_text_cmdline h))
    rw [text_setText_ne (by decide), ← hdrop]
    exact text_clear hcmdline
  have hclear' : g.text .extraCmdline = zeros 1024 ++ (h.text .extraCmdline).drop 1024 := by
    have hkept : (h.setText .cmdline (zeros 512)).text .extraCmdline = h.text .extraCmdline :=
      text_setText_ne (by decide) _
    rw [← hkept]
    exact text_clear (by rwa [kind_setText])
  by_cases hlong : 512 < value.length
  · have hload : loadCmdline h value
        = (g.setText .cmdline (value.take 512)).setText .extraCmdline ((value.drop 512).take 1024) := by
      rw [loadCmdline, if_pos hlong]
      rfl
    have hfirst : (value.take 512).length = 512 := List.length_take_of_le (by omega)
    have htext : (loadCmdline h value).text .cmdline = value.take 512 := by
      rw [hload, text_setText_ne (by decide),
        text_write (by rwa [hg]) hclear (Nat.le_of_eq hfirst), hfirst]
      simp [TextField.width, zeros]
    have htext' : (loadCmdline h value).text .extraCmdline
        = (value.drop 512).take 1024 ++ zeros (1536 - value.length)
          ++ (h.text .extraCmdline).drop 1024 := by
      have hrest : g.text .extraCmdline = (g.setText .cmdline (value.take 512)).text .extraCmdline :=
        (text_setText_ne (by decide) _).symm
      rw [hrest] at hclear'
      have hlength : TextField.extraCmdline.width - ((value.drop 512).take 1024).length
          = 1536 - value.length := by
        simp only [TextField.width, List.length_take, List.length_drop]
        omega
      have hfits : ((value.drop 512).take 1024).length ≤ TextField.extraCmdline.width :=
        List.length_take_le _ _
      rw [hload, text_write (by rwa [kind_setText, hg]) hclear' hfits, hlength]
    rw [htext, htext', ← List.append_assoc, ← List.append_assoc, ← List.take_add]
  · have hload : loadCmdline h value = g.setText .cmdline value := by
      rw [loadCmdline, if_neg hlong]
      rfl
    have hshort : value.length ≤ TextField.cmdline.width := Nat.le_of_not_lt hlong
    rw [hload, text_write (by rwa [hg]) hclear hshort, text_setText_ne (by decide), hclear',
      List.take_of_length_le (by omega), List.append_nil, List.append_assoc, ← List.append_assoc (zeros _),
      zeros_append_zeros, List.append_assoc]
    simp only [TextField.width]
    rw [show 512 - value.length + 1024 = 1536 - value.length by omega]

theorem takeWhile_append_zeros {bs rest : List UInt8} (hbs : 0 ∉ bs) {n : Nat} (hn : 0 < n) :
    (bs ++ zeros n ++ rest).takeWhile (· ≠ 0) = bs := by
  have hall : ∀ b ∈ bs, decide (b ≠ 0) = true := by
    intro b hb
    rw [decide_eq_true_eq]
    rintro rfl
    exact hbs hb
  obtain ⟨n, rfl⟩ := Nat.exists_eq_succ_of_ne_zero (Nat.ne_of_gt hn)
  rw [List.append_assoc, List.takeWhile_append_of_pos hall, zeros, List.replicate_succ, List.cons_append,
    List.takeWhile_cons_of_neg (by decide), List.append_nil]

theorem commandLine_loadCmdline (h : Header) {value : List UInt8} (hvalue : 0 ∉ value) :
    (loadCmdline h value).commandLine
      = if value.length < 1536 then value
        else value.take 1536 ++ ((h.text .extraCmdline).drop 1024).takeWhile (· ≠ 0) := by
  rw [Header.commandLine, text_loadCmdline]
  split
  · rename_i hlt
    rw [List.take_of_length_le (by omega), takeWhile_append_zeros hvalue (by omega)]
  · rename_i hge
    have hall : ∀ b ∈ value.take 1536, decide (b ≠ 0) = true := by
      intro b hb
      rw [decide_eq_true_eq]
      rintro rfl
      exact hvalue (List.mem_of_mem_take hb)
    rw [show 1536 - value.length = 0 by omega, zeros, List.replicate_zero, List.append_nil,
      List.takeWhile_append_of_pos hall]

end Load

def fileOf (lines : List String) : List UInt8 := [10].intercalate (lines.map utf8Bytes)

theorem validLines_fileOf {lines : List String} (hne : lines ≠ [])
    (hlines : ∀ line ∈ lines, '\n' ∉ line.toList) :
    validLines (fileOf lines) = lines.map String.toList := by
  have hsplit : (fileOf lines).splitOn 10 = lines.map utf8Bytes := by
    apply List.splitOn_intercalate
    · intro bytes hbytes
      obtain ⟨line, hline, rfl⟩ := List.mem_map.1 hbytes
      exact Text.not_mem_utf8Bytes (by decide) rfl (hlines line hline)
    · simpa using hne
  have hvalid : (lines.map utf8Bytes).map ofUtf8? = lines.map some := by
    rw [List.map_map]
    exact List.map_congr_left fun line _ => Text.ofUtf8?_utf8Bytes line
  rw [validLines, hsplit, hvalid, List.takeWhile_eq_self_iff.2 (by simp), List.filterMap_map]
  exact congrFun List.filterMap_eq_map' lines

def LeftTrimmed (s : List Char) : Prop := ∀ c, s.head? = some c → isWhite c = false

section Lines

variable {s t key value : List Char}

theorem dropWhile_of_leftTrimmed (hs : LeftTrimmed s) : s.dropWhile isWhite = s := by
  cases s with
  | nil => rfl
  | cons c cs => rw [List.dropWhile_cons_of_neg (by simp [hs c rfl])]

theorem LeftTrimmed.mono (hs : LeftTrimmed s) (hts : t <+: s) : LeftTrimmed t := by
  intro c hc
  apply hs
  obtain ⟨rest, rfl⟩ := hts
  rw [List.head?_append, hc]
  rfl

theorem trim_eq_of_leftTrimmed (hs : LeftTrimmed s) : trim s = s.rdropWhile isWhite := by
  rw [trim, dropWhile_of_leftTrimmed hs]
  rfl

theorem leftTrimmed_of_trim (hs : trim s = s) : LeftTrimmed s := by
  intro c hc
  by_contra hwhite
  cases s with
  | nil => cases hc
  | cons d cs =>
      cases hc
      have hlength := congrArg List.length hs
      have hdrop : (c :: cs).dropWhile isWhite = cs.dropWhile isWhite :=
        List.dropWhile_cons_of_pos (by simpa using hwhite)
      have hle := (List.rdropWhile_prefix isWhite (cs.dropWhile isWhite)).length_le
      have hle' := (List.dropWhile_suffix isWhite (l := cs)).length_le
      have htrim : trim (c :: cs) = (cs.dropWhile isWhite).rdropWhile isWhite := by
        rw [trim, hdrop]
        rfl
      rw [htrim, List.length_cons] at hlength
      omega

theorem rdropWhile_append_eq (key value : List Char) :
    (key ++ '=' :: value).rdropWhile isWhite = key ++ '=' :: value.rdropWhile isWhite := by
  have hstop : ('=' :: key.reverse).dropWhile isWhite = '=' :: key.reverse :=
    List.dropWhile_cons_of_neg (by decide)
  have hreverse : (key ++ '=' :: value).reverse = value.reverse ++ '=' :: key.reverse := by simp
  rw [List.rdropWhile, hreverse, List.dropWhile_append, hstop]
  split
  · rename_i hempty
    rw [List.rdropWhile, List.isEmpty_iff.1 hempty]
    simp
  · simp [List.rdropWhile]

theorem propOfLine_eq (hkey : trim key = key) (hne : key ≠ []) (hcomment : key.head? ≠ some '#')
    (heq : '=' ∉ key) (hvalue : LeftTrimmed value) :
    propOfLine (key ++ '=' :: value) = some (String.ofList key, String.ofList (trim value)) := by
  have hhead : ∀ rest : List Char, (key ++ rest).head? = key.head? := by
    intro rest
    cases key with
    | nil => exact absurd rfl hne
    | cons c cs => rfl
  have hleft : LeftTrimmed (key ++ '=' :: value) := by
    intro c hc
    rw [hhead] at hc
    exact leftTrimmed_of_trim hkey c hc
  have htrim : trim (value.rdropWhile isWhite) = trim value := by
    rw [trim_eq_of_leftTrimmed (hvalue.mono (List.rdropWhile_prefix _ _)),
      List.rdropWhile_idempotent, trim_eq_of_leftTrimmed hvalue]
  have hall : ∀ c ∈ key, decide (c ≠ '=') = true := by
    intro c hc
    rw [decide_eq_true_eq]
    rintro rfl
    exact heq hc
  rw [propOfLine, trim_eq_of_leftTrimmed hleft, rdropWhile_append_eq, hhead]
  simp only [if_neg hcomment, List.span_eq_takeWhile_dropWhile, List.takeWhile_append_of_pos hall,
    List.dropWhile_append_of_pos hall]
  simp [hkey, htrim]

theorem propOfLine_append {start v : String} (name : String)
    (hstart : start.toList = name.toList ++ ['='])
    (hname : trim name.toList = name.toList ∧ name.toList ≠ [] ∧ name.toList.head? ≠ some '#' ∧
      '=' ∉ name.toList) (hv : LeftTrimmed v.toList) :
    propOfLine (start ++ v).toList = some (name, String.ofList (trim v.toList)) := by
  have hline : (start ++ v).toList = name.toList ++ '=' :: v.toList := by
    rw [String.toList_append, hstart, List.append_assoc, List.singleton_append]
  rw [hline, propOfLine_eq hname.1 hname.2.1 hname.2.2.1 hname.2.2.2 hv, String.ofList_toList]

theorem trim_of_not_white {s : List Char} (hs : ∀ c ∈ s, isWhite c = false) : trim s = s := by
  rw [trim_eq_of_leftTrimmed fun c hc => hs c (List.mem_of_head? hc), List.rdropWhile_eq_self_iff]
  intro hne hlast
  rw [hs _ (List.getLast_mem hne)] at hlast
  cases hlast

end Lines

/-- What a vendor header has of its command line behind the 1536 bytes that boot headers have room
for. -/
def Header.cmdlineTail (h : Header) : List UInt8 :=
  ((h.text .extraCmdline).drop 1024).takeWhile (· ≠ 0)

section CommandLine

variable {h : Header} {locals : Locals}

theorem drop_text_loadCmdline (h : Header) (value : List UInt8) :
    ((loadCmdline h value).text .extraCmdline).drop 1024 = (h.text .extraCmdline).drop 1024 := by
  have htext := congrArg (List.drop 1536) (text_loadCmdline h value)
  have hlength : (value.take 1536 ++ zeros (1536 - value.length)).length = 1536 := by
    rw [List.length_append, List.length_take, length_zeros]
    omega
  have hfirst := length_text_cmdline (loadCmdline h value)
  rw [List.drop_left' hlength, List.drop_append, List.drop_eq_nil_of_le (by omega), hfirst,
    List.nil_append] at htext
  exact htext

theorem text_loadProp_of_ne {prop : String × String} (hkey : prop.1 ≠ "cmdline") {t : TextField}
    (ht : t ≠ .name) : (loadProp locals h prop).text t = h.text t := by
  obtain ⟨key, value⟩ := prop
  simp only [loadProp, if_neg hkey]
  split
  · rw [loadName, text_setText_ne ht.symm, text_setText_ne ht.symm]
  · split
    · rw [loadOsVersion]
      split
      · exact text_set ..
      · rfl
    · split
      · rw [loadOsPatchLevel]
        split
        · exact text_set ..
        · rfl
      · rfl

theorem loadProp_cmdline (value : String) :
    loadProp locals h ("cmdline", value) = loadCmdline h (utf8Bytes value) := by
  rw [loadProp, if_neg (by rintro ⟨hname, -⟩; exact absurd hname (by decide)), if_pos rfl]

theorem cmdlineTail_loadProp (prop : String × String) :
    (loadProp locals h prop).cmdlineTail = h.cmdlineTail := by
  by_cases hkey : prop.1 = "cmdline"
  · obtain ⟨key, value⟩ := prop
    cases hkey
    rw [loadProp_cmdline, Header.cmdlineTail, drop_text_loadCmdline]
    rfl
  · rw [Header.cmdlineTail, text_loadProp_of_ne hkey (by decide)]
    rfl

theorem cmdlineTail_foldl (props : List (String × String)) :
    (props.foldl (loadProp locals) h).cmdlineTail = h.cmdlineTail := by
  induction props generalizing h with
  | nil => rfl
  | cons prop props ih => rw [List.foldl_cons, ih, cmdlineTail_loadProp]

theorem commandLine_foldl {props : List (String × String)} (hprops : ∀ p ∈ props, p.1 ≠ "cmdline") :
    (props.foldl (loadProp locals) h).commandLine = h.commandLine := by
  induction props generalizing h with
  | nil => rfl
  | cons prop props ih =>
      have hkey := hprops prop List.mem_cons_self
      rw [List.foldl_cons, ih fun p hp => hprops p (List.mem_cons_of_mem prop hp), Header.commandLine,
        text_loadProp_of_ne hkey (by decide), text_loadProp_of_ne hkey (by decide)]
      rfl

theorem commandLine_loadHdrFile (locals : Locals) (h : Header) {v : String} {before after : List String}
    (hbefore : ∀ line ∈ before, '\n' ∉ line.toList) (hafter : ∀ line ∈ after, '\n' ∉ line.toList)
    (hlast : ∀ line ∈ after, ∀ p, propOfLine line.toList = some p → p.1 ≠ "cmdline")
    (hnewline : '\n' ∉ v.toList) (hnul : Text.NulFree v) (htrim : trim v.toList = v.toList) :
    (loadHdrFile locals h (fileOf (before ++ ("cmdline=" ++ v) :: after))).commandLine
      = if (utf8Bytes v).length < 1536 then utf8Bytes v
        else (utf8Bytes v).take 1536 ++ h.cmdlineTail := by
  have hlines : ∀ line ∈ before ++ ("cmdline=" ++ v) :: after, '\n' ∉ line.toList := by
    intro line hline
    rcases List.mem_append.1 hline with hline | hline
    · exact hbefore line hline
    · rcases List.mem_cons.1 hline with rfl | hline
      · rw [String.toList_append, List.mem_append]
        rintro (hmem | hmem)
        · exact absurd hmem (by decide)
        · exact hnewline hmem
      · exact hafter line hline
  have hprop : propOfLine ("cmdline=" ++ v).toList = some ("cmdline", v) := by
    rw [propOfLine_append "cmdline" rfl (by decide) (leftTrimmed_of_trim htrim), htrim, String.ofList_toList]
  have hrest : ∀ p ∈ (after.map String.toList).filterMap propOfLine, p.1 ≠ "cmdline" := by
    intro p hp
    obtain ⟨chars, hchars, hp⟩ := List.mem_filterMap.1 hp
    obtain ⟨line, hline, rfl⟩ := List.mem_map.1 hchars
    exact hlast line hline p hp
  rw [loadHdrFile, validLines_fileOf (by simp) hlines, List.map_append, List.map_cons,
    List.filterMap_append, List.filterMap_cons_some hprop, List.foldl_append, List.foldl_cons,
    commandLine_foldl hrest, loadProp_cmdline, commandLine_loadCmdline _ hnul]
  split
  · rfl
  · exact congrArg _ (cmdlineTail_foldl _)

def Kind.cmdlineCapacity (k : Kind) : Nat := if k.isVendor then 2048 else 1536

theorem cmdlineTail_eq_nil (hboot : h.kind.isVendor = false) : h.cmdlineTail = [] := by
  have hroom : h.kind.room .extraCmdline = 1024 := by
    generalize h.kind = k at hboot
    cases k <;> first | rfl | cases hboot
  obtain ⟨r, harray⟩ := Option.isSome_iff_exists.1 (isSome_array_extraCmdline h.kind)
  have hlength := length_text harray
  have hr : r.2 = 1024 := by
    rw [Kind.array, Option.map_eq_some_iff] at harray
    obtain ⟨off, -, rfl⟩ := harray
    exact hroom
  rw [Header.cmdlineTail, List.drop_eq_nil_of_le (by omega)]
  rfl

/-- **A line `cmdline=v`.** It makes `v` the command line in every boot header. In a vendor header it
does so if `v` is shorter than what boot headers have room for, or if what was there goes on as `v`
does. -/
theorem commandLine_loadHdrFile_iff (locals : Locals) (h : Header) {v : String}
    {before after : List String} (hbefore : ∀ line ∈ before, '\n' ∉ line.toList)
    (hafter : ∀ line ∈ after, '\n' ∉ line.toList)
    (hlast : ∀ line ∈ after, ∀ p, propOfLine line.toList = some p → p.1 ≠ "cmdline")
    (hnewline : '\n' ∉ v.toList) (hnul : Text.NulFree v) (htrim : trim v.toList = v.toList)
    (hfits : (utf8Bytes v).length ≤ h.kind.cmdlineCapacity) :
    (loadHdrFile locals h (fileOf (before ++ ("cmdline=" ++ v) :: after))).commandLine = utf8Bytes v ↔
      (h.kind.isVendor = true →
        (utf8Bytes v).length < 1536 ∨ h.cmdlineTail = (utf8Bytes v).drop 1536) := by
  rw [commandLine_loadHdrFile locals h hbefore hafter hlast hnewline hnul htrim]
  split
  · rename_i hlt
    exact ⟨fun _ _ => .inl hlt, fun _ => rfl⟩
  · rename_i hge
    have hiff : (utf8Bytes v).take 1536 ++ h.cmdlineTail = utf8Bytes v ↔
        h.cmdlineTail = (utf8Bytes v).drop 1536 := by
      have hsplit := List.take_append_drop 1536 (utf8Bytes v)
      constructor
      · intro heq
        exact List.append_cancel_left (heq.trans hsplit.symm)
      · intro heq
        rw [heq, hsplit]
    rw [hiff]
    constructor
    · exact fun htail _ => .inr htail
    · intro hvendor
      cases hkind : h.kind.isVendor with
      | true => exact (hvendor hkind).resolve_left hge
      | false =>
          have hle : (utf8Bytes v).length ≤ 1536 := by
            rwa [Kind.cmdlineCapacity, hkind] at hfits
          rw [cmdlineTail_eq_nil hkind, List.drop_eq_nil_of_le hle]

end CommandLine

def zeroHeader (k : Kind) : Header := ⟨k, zeros k.hdrSize, length_zeros _⟩

theorem commandLine_loadHdrFile_quiet :
    (loadHdrFile ⟨0, 0, 0, 0, 0⟩ (zeroHeader .v2) (fileOf ["name=a", "cmdline=quiet", ""])).commandLine
      = utf8Bytes "quiet" := by
  have hiff : (loadHdrFile ⟨0, 0, 0, 0, 0⟩ (zeroHeader .v2)
      (fileOf (["name=a"] ++ ("cmdline=" ++ "quiet") :: [""]))).commandLine = utf8Bytes "quiet" ↔ _ :=
    commandLine_loadHdrFile_iff _ _ (by decide) (by decide) (by simp [propOfLine, trim]) (by decide)
      (by decide) (by decide) (by decide)
  exact hiff.2 fun hvendor => absurd hvendor (by decide)

section Long

def letters (n : Nat) : String := String.ofList (List.replicate n 'a')

theorem toList_letters (n : Nat) : (letters n).toList = List.replicate n 'a' := String.toList_ofList

theorem utf8Bytes_letters (n : Nat) : utf8Bytes (letters n) = List.replicate n 97 := by
  rw [letters, Text.utf8Bytes_ofList]
  induction n with
  | zero => rfl
  | succ n ih =>
      rw [List.replicate_succ, List.flatMap_cons, ih]
      rfl

theorem trim_letters (n : Nat) : trim (letters n).toList = (letters n).toList := by
  apply trim_of_not_white
  intro c hc
  rw [toList_letters] at hc
  rw [List.eq_of_mem_replicate hc]
  decide

theorem cmdlineTail_zeroHeader (k : Kind) : (zeroHeader k).cmdlineTail = [] := by
  have hzero : ∀ b ∈ (zeroHeader k).text .extraCmdline, b = 0 := by
    intro b hb
    rw [Header.text] at hb
    split at hb
    · exact List.eq_of_mem_replicate (List.mem_of_mem_drop (List.mem_of_mem_take hb))
    · cases hb
  rw [Header.cmdlineTail]
  cases hdrop : ((zeroHeader k).text .extraCmdline).drop 1024 with
  | nil => rfl
  | cons b bs =>
      have hb := hzero b (List.mem_of_mem_drop (hdrop ▸ List.mem_cons_self))
      rw [List.takeWhile_cons_of_neg (by simp [hb])]

theorem commandLine_loadHdrFile_ne :
    (loadHdrFile ⟨0, 0, 0, 0, 0⟩ (zeroHeader .vndV3) (fileOf ["cmdline=" ++ letters 1537])).commandLine
      ≠ utf8Bytes (letters 1537) := by
  have hnewline : '\n' ∉ (letters 1537).toList := by
    rw [toList_letters]
    exact fun hmem => absurd (List.eq_of_mem_replicate hmem) (by decide)
  have hnul : Text.NulFree (letters 1537) := by
    rw [Text.NulFree, utf8Bytes_letters]
    exact fun hmem => absurd (List.eq_of_mem_replicate hmem) (by decide)
  have hload := commandLine_loadHdrFile ⟨0, 0, 0, 0, 0⟩ (zeroHeader .vndV3) (v := letters 1537)
    (List.forall_mem_nil _) (List.forall_mem_nil _) (List.forall_mem_nil _) hnewline hnul
    (trim_letters 1537)
  rw [List.nil_append] at hload
  intro heq
  have hlength := congrArg List.length (hload.symm.trans heq)
  have hlong : ¬ (utf8Bytes (letters 1537)).length < 1536 := by
    rw [utf8Bytes_letters, List.length_replicate]
    decide
  rw [if_neg hlong, cmdlineTail_zeroHeader, List.append_nil, List.length_take, utf8Bytes_letters,
    List.length_replicate] at hlength
  exact absurd hlength (by decide)

end Long

end MagiskNative.Boot
