import MagiskNative.Cpio.Basic

/-!
# Loading what was dumped

Writer and reader each keep a position of their own. Both round it up to a multiple of four after a
name and after a body, so as long as an archive starts at a multiple of four the two agree, and the
reader stands behind an entry exactly when the writer has finished it.
-/

namespace MagiskNative.Cpio

open Text Outcome Bytes Std.ExtTreeMap
open Bytes (find)

variable {data rest : List UInt8} {pos n : Nat} {name : String} {entry : CpioEntry}

section Header

variable {fields : List Nat}

theorem header_eq (hfields : ∀ v ∈ fields, v < 16 ^ 8) :
    header fields = magic ++ fields.flatMap (hexDigits 8) := by
  rw [header]
  congr 1
  apply List.flatMap_congr
  intro v hv
  exact hexPad_of_lt (by omega) (hfields v hv)

theorem length_header (hfields : ∀ v ∈ fields, v < 16 ^ 8) :
    (header fields).length = 6 + 8 * fields.length := by
  rw [header_eq hfields, List.length_append, List.length_flatMap]
  simp only [length_hexDigits, List.map_const', List.sum_replicate, smul_eq_mul]
  rw [Nat.mul_comm]
  rfl

theorem take_drop_flatMap_hexDigits (rest : List UInt8) {i v : Nat} (hi : fields[i]? = some v) :
    ((fields.flatMap (hexDigits 8) ++ rest).drop (8 * i)).take 8 = hexDigits 8 v := by
  induction fields generalizing i with
  | nil => cases hi
  | cons f fields ih =>
      rw [List.flatMap_cons, List.append_assoc]
      cases i with
      | zero =>
          obtain rfl : f = v := by simpa using hi
          exact List.take_left' (length_hexDigits 8 f)
      | succ i =>
          have hstep : 8 * (i + 1) = (hexDigits 8 f).length + 8 * i := by
            rw [length_hexDigits]
            omega
          rw [hstep, ← List.drop_drop, List.drop_left]
          exact ih (by simpa using hi)

theorem x8u_field {i v : Nat} (hfields : ∀ v ∈ fields, v < 16 ^ 8)
    (hdata : data.drop pos = header fields ++ rest) (hi : fields[i]? = some v) :
    x8u (field data pos (6 + 8 * i)) = .ok v := by
  have hv : v < 16 ^ 8 := hfields v (List.mem_of_getElem? hi)
  rw [header_eq hfields, List.append_assoc] at hdata
  have hfield : field data pos (6 + 8 * i) = hexDigits 8 v := by
    rw [field, ← Nat.add_assoc, ← List.drop_drop,
      show pos + 6 = pos + magic.length from rfl, drop_add_of_drop_eq hdata]
    exact take_drop_flatMap_hexDigits rest hi
  rw [hfield, x8u, ofHex_hexDigits, Nat.mod_eq_of_lt hv]
  rfl

end Header

theorem align4_add (hpos : 4 ∣ pos) (k : Nat) : align4 (pos + k) = pos + align4 k := by
  rw [align4, align4]
  omega

theorem dvd_align4 (k : Nat) : 4 ∣ align4 k := by
  rw [align4]
  exact Dvd.intro_left _ rfl

theorem utf8CStr_append_nul (hname : NulFree name) :
    utf8CStr (utf8Bytes name ++ [0]) = some name := by
  rw [utf8CStr, List.dropLast_concat, if_pos ⟨by simp, hname⟩, ofUtf8?_utf8Bytes]

theorem loadStep_of_name {fields : List Nat}
    (hfields : ∀ v ∈ fields, v < 16 ^ 8) (hlength : fields.length = 13) (hname : NulFree name)
    (hnameSz : fields[11]? = some ((utf8Bytes name).length + 1))
    (hdata : data.drop pos = header fields ++ (utf8Bytes name ++ [0] ++ rest)) :
    loadStep data pos
      = if name = "." ∨ name = ".." then
          .ok (.skip (align4 (pos + headerSize + ((utf8Bytes name).length + 1))))
        else if name = "TRAILER!!!" then
          loadTrailer data (align4 (pos + headerSize + ((utf8Bytes name).length + 1)))
        else
          loadEntry data pos (align4 (pos + headerSize + ((utf8Bytes name).length + 1))) name := by
  have hheader : (header fields).length = headerSize := by
    rw [length_header hfields, hlength]
    rfl
  have hne : header fields ≠ [] := by
    apply List.ne_nil_of_length_pos
    rw [hheader]
    decide
  have hin : pos + headerSize ≤ data.length := by
    rw [← hheader]
    exact add_le_length_of_drop_eq hdata hne
  have hmagic : (data.drop pos).take 6 = magic := by
    rw [hdata, header, List.append_assoc]
    rfl
  have hnameField : x8u (field data pos 94) = .ok ((utf8Bytes name).length + 1) :=
    x8u_field hfields hdata hnameSz
  have hbehind : data.drop (pos + headerSize) = utf8Bytes name ++ [0] ++ rest := by
    rw [← hheader]
    exact drop_add_of_drop_eq hdata
  have hsize : (utf8Bytes name ++ [0]).length = (utf8Bytes name).length + 1 := by
    rw [List.length_append, List.length_singleton]
  have hnameIn : pos + headerSize + ((utf8Bytes name).length + 1) ≤ data.length := by
    rw [← hsize]
    exact add_le_length_of_drop_eq hbehind (by simp)
  have htake : (data.drop (pos + headerSize)).take ((utf8Bytes name).length + 1)
      = utf8Bytes name ++ [0] := by
    rw [hbehind]
    exact List.take_left' hsize
  simp only [loadStep, assert_of hin, hmagic, ne_eq, not_true, if_false, hnameField,
    ok_bind, assert_of hnameIn, htake, utf8CStr_append_nul hname,
    ofOption_some, pure_eq]

structure Dumpable (name : String) (entry : CpioEntry) : Prop where
  nulFree : NulFree name
  ne_dot : name ≠ "."
  ne_dotdot : name ≠ ".."
  ne_trailer : name ≠ "TRAILER!!!"
  name_lt : (utf8Bytes name).length + 1 < 2 ^ 32
  data_lt : entry.data.length < 2 ^ 32
  rdevmajor_lt : entry.rdevmajor.toNat < 2 ^ 32
  rdevminor_lt : entry.rdevminor.toNat < 2 ^ 32

def entryFields (inode : Nat) (name : String) (entry : CpioEntry) : List Nat :=
  [inode, entry.mode.toNat, entry.uid.toNat, entry.gid.toNat, 1, 0, entry.data.length, 0, 0,
    entry.rdevmajor.toNat, entry.rdevminor.toNat, (utf8Bytes name).length + 1, 0]

theorem entryFields_lt {inode : Nat} (hinode : inode < 2 ^ 32)
    (hentry : Dumpable name entry) : ∀ v ∈ entryFields inode name entry, v < 16 ^ 8 := by
  have hmode := entry.mode.toNat_lt
  have huid := entry.uid.toNat_lt
  have hgid := entry.gid.toNat_lt
  have hname := hentry.name_lt
  have hdata := hentry.data_lt
  have hmajor := hentry.rdevmajor_lt
  have hminor := hentry.rdevminor_lt
  intro v hv
  simp only [entryFields, List.mem_cons, List.not_mem_nil, or_false] at hv
  rcases hv with rfl | rfl | rfl | rfl | rfl | rfl | rfl | rfl | rfl | rfl | rfl | rfl | rfl <;>
    omega

def nameEnd (w : Nat) (name : String) : Nat := w + headerSize + ((utf8Bytes name).length + 1)

def bodyStart (w : Nat) (name : String) : Nat := align4 (nameEnd w name)

def entryEnd (w : Nat) (name : String) (entry : CpioEntry) : Nat :=
  align4 (bodyStart w name + entry.data.length)

section Entry

variable {data rest : List UInt8} {base w inode : Nat} {name : String} {entry : CpioEntry}

theorem dumpEntry_eq (hinode : inode < 2 ^ 32) (hentry : Dumpable name entry) :
    dumpEntry w inode name entry
      = header (entryFields inode name entry) ++ (utf8Bytes name ++ [0] ++
          (zeros (bodyStart w name - nameEnd w name) ++ (entry.data ++
            zeros (entryEnd w name entry - (bodyStart w name + entry.data.length))))) := by
  have hheader : (header (entryFields inode name entry)).length = headerSize :=
    length_header (entryFields_lt hinode hentry)
  have hname : w + (header (entryFields inode name entry) ++ utf8Bytes name ++ [0]).length
      = nameEnd w name := by
    rw [List.length_append, List.length_append, hheader, List.length_singleton, nameEnd]
    omega
  have hbody : w + (header (entryFields inode name entry) ++ utf8Bytes name ++ [0] ++
      zeros (bodyStart w name - nameEnd w name) ++ entry.data).length
      = bodyStart w name + entry.data.length := by
    have hle : nameEnd w name ≤ bodyStart w name := le_align4 _
    rw [List.length_append, List.length_append, zeros, List.length_replicate]
    omega
  rw [dumpEntry, ← entryFields]
  simp only [hname]
  rw [← bodyStart]
  simp only [hbody]
  rw [← entryEnd]
  simp only [List.append_assoc]

theorem length_dumpEntry (hinode : inode < 2 ^ 32) (hentry : Dumpable name entry) :
    w + (dumpEntry w inode name entry).length = entryEnd w name entry := by
  have hheader : (header (entryFields inode name entry)).length = headerSize :=
    length_header (entryFields_lt hinode hentry)
  have hle : nameEnd w name ≤ bodyStart w name := le_align4 _
  have hle' : bodyStart w name + entry.data.length ≤ entryEnd w name entry := le_align4 _
  rw [dumpEntry_eq hinode hentry]
  simp only [List.length_append, zeros, List.length_replicate, hheader, List.length_singleton]
  rw [nameEnd] at *
  omega

/-- **One entry.** A reader that stands where the writer began an entry reads that entry and comes
to stand where the writer ended it. The writer counts from the start of its archive, which the
reader has at `base`. -/
theorem loadStep_dumpEntry (hbase : 4 ∣ base) (hinode : inode < 2 ^ 32)
    (hentry : Dumpable name entry)
    (hdata : data.drop (base + w) = dumpEntry w inode name entry ++ rest) :
    loadStep data (base + w) = .ok (.entry name entry (base + entryEnd w name entry)) := by
  have hfields := entryFields_lt hinode hentry
  have hlength : (header (entryFields inode name entry)).length = headerSize := length_header hfields
  rw [dumpEntry_eq hinode hentry] at hdata
  simp only [List.append_assoc] at hdata
  have hstep := loadStep_of_name hfields rfl hentry.nulFree rfl
    (hdata.trans (by simp only [List.append_assoc]) :
      data.drop (base + w) = header (entryFields inode name entry) ++ (utf8Bytes name ++ [0] ++
        (zeros (bodyStart w name - nameEnd w name) ++ (entry.data ++
          (zeros (entryEnd w name entry - (bodyStart w name + entry.data.length)) ++ rest)))))
  have hbody : align4 (base + w + headerSize + ((utf8Bytes name).length + 1))
      = base + bodyStart w name := by
    rw [bodyStart, nameEnd, ← align4_add hbase]
    congr 1
    omega
  rw [hbody] at hstep
  rw [hstep, if_neg (by simp [hentry.ne_dot, hentry.ne_dotdot]), if_neg hentry.ne_trailer]
  -- the body stands behind the first padding
  have hsplit : data.drop (base + w) = (header (entryFields inode name entry) ++ utf8Bytes name ++
      [0] ++ zeros (bodyStart w name - nameEnd w name)) ++ (entry.data ++
        (zeros (entryEnd w name entry - (bodyStart w name + entry.data.length)) ++ rest)) := by
    rw [hdata]
    simp only [List.append_assoc]
  have hpos : base + bodyStart w name = base + w + (header (entryFields inode name entry) ++
      utf8Bytes name ++ [0] ++ zeros (bodyStart w name - nameEnd w name)).length := by
    have hle : nameEnd w name ≤ bodyStart w name := le_align4 _
    simp only [List.length_append, zeros, List.length_replicate, hlength, List.length_singleton]
    rw [nameEnd] at *
    omega
  have hbehind := drop_add_of_drop_eq hsplit
  have hstart := add_le_length_of_drop_eq hsplit (by simp)
  rw [← hpos] at hbehind hstart
  have hin : base + bodyStart w name + entry.data.length ≤ data.length := by
    have hcount := congrArg List.length hbehind
    rw [List.length_drop, List.length_append] at hcount
    omega
  have hend : align4 (base + bodyStart w name + entry.data.length) = base + entryEnd w name entry := by
    rw [Nat.add_assoc, align4_add hbase, entryEnd]
  have hheader : data.drop (base + w) = header (entryFields inode name entry) ++ (utf8Bytes name ++
      ([0] ++ (zeros (bodyStart w name - nameEnd w name) ++ (entry.data ++
        (zeros (entryEnd w name entry - (bodyStart w name + entry.data.length)) ++ rest))))) := hdata
  have hfileSz : x8u (field data (base + w) 54) = .ok entry.data.length :=
    x8u_field (i := 6) hfields hheader rfl
  have hmode : x8u (field data (base + w) 14) = .ok entry.mode.toNat :=
    x8u_field (i := 1) hfields hheader rfl
  have huid : x8u (field data (base + w) 22) = .ok entry.uid.toNat :=
    x8u_field (i := 2) hfields hheader rfl
  have hgid : x8u (field data (base + w) 30) = .ok entry.gid.toNat :=
    x8u_field (i := 3) hfields hheader rfl
  have hmajor : x8u (field data (base + w) 78) = .ok entry.rdevmajor.toNat :=
    x8u_field (i := 9) hfields hheader rfl
  have hminor : x8u (field data (base + w) 86) = .ok entry.rdevminor.toNat :=
    x8u_field (i := 10) hfields hheader rfl
  have htake : (data.drop (base + bodyStart w name)).take entry.data.length = entry.data := by
    rw [hbehind, List.take_left]
  simp only [loadEntry, hfileSz, hmode, huid, hgid, hmajor, hminor, ok_bind,
    assert_of hin, htake, hend, UInt32.ofNat_toNat, UInt64.ofNat_toNat, pure_eq]

end Entry

def trailerFields (inode : Nat) : List Nat := [inode, 0o755, 0, 0, 1, 0, 0, 0, 0, 0, 0, 11, 0]

theorem nulFree_trailer : NulFree "TRAILER!!!" := by
  rw [NulFree]
  decide

section Trailer

variable {data rest : List UInt8} {base w inode : Nat}

theorem trailerFields_lt (hinode : inode < 2 ^ 32) : ∀ v ∈ trailerFields inode, v < 16 ^ 8 := by
  intro v hv
  simp only [trailerFields, List.mem_cons, List.not_mem_nil, or_false] at hv
  omega

theorem dumpTrailer_eq (hw : 4 ∣ w) (hinode : inode < 2 ^ 32) :
    dumpTrailer w inode
      = header (trailerFields inode) ++ (utf8Bytes "TRAILER!!!" ++ [0] ++ zeros 3) := by
  have hname : (utf8Bytes "TRAILER!!!").length = 10 := by decide
  have hlength : (header (trailerFields inode) ++ utf8Bytes "TRAILER!!!" ++ [0]).length = 121 := by
    rw [List.length_append, List.length_append, length_header (trailerFields_lt hinode), hname]
    rfl
  have hpad : align4 (w + 121) - (w + 121) = 3 := by
    rw [align4]
    omega
  rw [dumpTrailer, ← trailerFields]
  simp only [hlength, hpad]
  simp only [List.append_assoc]

theorem length_dumpTrailer (hw : 4 ∣ w) (hinode : inode < 2 ^ 32) :
    (dumpTrailer w inode).length = 124 := by
  have hname : (utf8Bytes "TRAILER!!!").length = 10 := by decide
  rw [dumpTrailer_eq hw hinode]
  simp only [List.length_append, length_header (trailerFields_lt hinode), hname]
  rfl

theorem loadStep_dumpTrailer (hbase : 4 ∣ base) (hw : 4 ∣ w) (hinode : inode < 2 ^ 32)
    (hdata : data.drop (base + w) = dumpTrailer w inode ++ rest) :
    loadStep data (base + w)
      = .ok (match find magic rest with
          | some x => .skip (base + (w + 124) + x)
          | none => .stop) := by
  have hlength := length_dumpTrailer hw hinode
  have hbehind := drop_add_of_drop_eq hdata
  have hin := add_le_length_of_drop_eq hdata
    (List.ne_nil_of_length_pos (by rw [hlength]; decide))
  rw [hlength, Nat.add_assoc] at hbehind hin
  have hname : (utf8Bytes "TRAILER!!!").length = 10 := by decide
  have hsplit : data.drop (base + w) = header (trailerFields inode) ++
      (utf8Bytes "TRAILER!!!" ++ [0] ++ (zeros 3 ++ rest)) := by
    rw [hdata, dumpTrailer_eq hw hinode]
    simp only [List.append_assoc]
  have hend : align4 (base + w + headerSize + (10 + 1)) = base + (w + 124) := by
    rw [align4, headerSize]
    omega
  have hstep := loadStep_of_name (trailerFields_lt hinode) rfl nulFree_trailer
    (by rw [hname]; rfl) hsplit
  rw [hname, hend] at hstep
  rw [hstep, if_neg (by decide), if_pos rfl, loadTrailer, assert_of hin, hbehind]
  cases find magic rest <;> rfl

end Trailer

theorem find_zeros (k : Nat) (rest : List UInt8) :
    find magic (zeros k ++ rest) = (find magic rest).map (· + k) := by
  induction k with
  | zero =>
      rw [zeros, List.replicate_zero, List.nil_append]
      simp
  | succ k ih =>
      have hzero : ¬ magic <+: 0 :: (zeros k ++ rest) := by
        rw [magic, List.cons_prefix_cons]
        rintro ⟨hbyte, -⟩
        revert hbyte
        decide
      rw [zeros, List.replicate_succ, List.cons_append, ← zeros, find, if_neg hzero, ih]
      cases find magic rest with
      | none => rfl
      | some x =>
          simp only [Option.map_some]
          congr 1

theorem find_of_isPrefix (hrest : magic <+: rest) : find magic rest = some 0 := by
  cases rest with
  | nil =>
      rw [List.prefix_nil] at hrest
      cases hrest
  | cons b bs => rw [find, if_pos hrest]

theorem magic_prefix_header (fields : List Nat) : magic <+: header fields := List.prefix_append _ _

theorem magic_prefix_dumpLoop (w inode : Nat) (entries : List (String × CpioEntry)) :
    magic <+: dumpLoop w inode entries := by
  cases entries with
  | nil =>
      rw [dumpLoop, dumpTrailer]
      simp only [List.append_assoc]
      exact (magic_prefix_header _).trans (List.prefix_append _ _)
  | cons entry entries =>
      rw [dumpLoop, dumpEntry]
      simp only [List.append_assoc]
      exact (magic_prefix_header _).trans (List.prefix_append _ _)

theorem loadLoop_dumpLoop {base : Nat} (hbase : 4 ∣ base)
    (entries : List (String × CpioEntry)) (hentries : ∀ e ∈ entries, Dumpable e.1 e.2)
    {w inode : Nat} (hw : 4 ∣ w) (hinode : inode + entries.length ≤ 2 ^ 32)
    (hdata : data.drop (base + w) = dumpLoop w inode entries ++ rest) (acc : CpioEntries) :
    ∃ w', 4 ∣ w' ∧
      loadLoop data (base + w) acc = loadLoop data (base + w') (acc.insertMany entries) ∧
      data.drop (base + w') = dumpTrailer w' (inode + entries.length) ++ rest := by
  induction entries generalizing w inode acc with
  | nil => exact ⟨w, hw, rfl, hdata⟩
  | cons e entries ih =>
      obtain ⟨name, entry⟩ := e
      have hentry : Dumpable name entry := hentries _ List.mem_cons_self
      have htail : ∀ e ∈ entries, Dumpable e.1 e.2 :=
        fun e he => hentries e (List.mem_cons_of_mem _ he)
      rw [List.length_cons] at hinode
      have hlt : inode < 2 ^ 32 := by omega
      rw [dumpLoop, List.append_assoc, length_dumpEntry hlt hentry] at hdata
      have hstep := loadStep_dumpEntry hbase hlt hentry hdata
      have hlength : w + (dumpEntry w inode name entry).length = entryEnd w name entry :=
        length_dumpEntry hlt hentry
      have hne : dumpEntry w inode name entry ≠ [] := by
        rw [dumpEntry_eq hlt hentry, header]
        simp [magic]
      have hpos : base + w < data.length := by
        have hle := add_le_length_of_drop_eq hdata hne
        have := List.length_pos_of_ne_nil hne
        omega
      have hbehind := drop_add_of_drop_eq hdata
      rw [Nat.add_assoc, hlength] at hbehind
      have hdvd : 4 ∣ entryEnd w name entry := dvd_align4 _
      obtain ⟨w', hw', hloop, hdata'⟩ :=
        ih htail hdvd (by omega) hbehind (acc.insert name entry)
      refine ⟨w', hw', ?_, ?_⟩
      · rw [loadLoop_entry hpos hstep, insertMany_cons, hloop]
      · rw [hdata', List.length_cons, Nat.add_right_comm, Nat.add_assoc]

variable (archives : List (Cpio × Nat))

def concat : List UInt8 :=
  archives.flatMap fun a => a.1.dump ++ zeros a.2

/-- What a concatenation can hold: entries that fit the format, fewer of them than inodes fit into
eight digits, and paddings of whole words. -/
structure Concatenable (a : Cpio × Nat) : Prop where
  dumpable : ∀ name entry, a.1.entries[name]? = some entry → Dumpable name entry
  size_lt : 300000 + a.1.entries.size < 2 ^ 32
  padding : 4 ∣ a.2

theorem dumpable_of_mem_toList {cpio : Cpio}
    (hdumpable : ∀ name entry, cpio.entries[name]? = some entry → Dumpable name entry) :
    ∀ e ∈ cpio.entries.toList, Dumpable e.1 e.2 :=
  fun e he => hdumpable e.1 e.2 (Std.ExtTreeMap.mem_toList_iff_getElem?_eq_some.1 he)

theorem loadLoop_concat (harchives : ∀ a ∈ archives, Concatenable a) {base : Nat} (hbase : 4 ∣ base)
    (hdata : data.drop base = concat archives) (acc : CpioEntries) :
    loadLoop data base acc
      = .ok (archives.foldl (fun acc a => acc.insertMany a.1.entries.toList) acc) := by
  induction archives generalizing base acc with
  | nil =>
      have hend : ¬ base < data.length := by
        have hlength := congrArg List.length hdata
        rw [List.length_drop, concat, List.flatMap_nil, List.length_nil] at hlength
        omega
      rw [loadLoop, if_neg hend]
      rfl
  | cons a archives ih =>
      have ha := harchives a List.mem_cons_self
      have htail : ∀ b ∈ archives, Concatenable b :=
        fun b hb => harchives b (List.mem_cons_of_mem _ hb)
      rw [concat, List.flatMap_cons, ← concat, List.append_assoc, dump] at hdata
      obtain ⟨w, hw, hloop, htrailer⟩ := loadLoop_dumpLoop hbase a.1.entries.toList
        (dumpable_of_mem_toList ha.dumpable) (Dvd.intro 0 rfl : 4 ∣ 0)
        (by rw [length_toList]; exact ha.size_lt.le) hdata acc
      rw [Nat.add_zero] at hloop
      rw [length_toList] at htrailer
      have hlength := length_dumpTrailer hw ha.size_lt
      have hpos : base + w < data.length := by
        have hle := add_le_length_of_drop_eq htrailer
          (List.ne_nil_of_length_pos (by rw [hlength]; decide))
        omega
      have hstep := loadStep_dumpTrailer hbase hw ha.size_lt htrailer
      rw [find_zeros] at hstep
      rw [hloop, List.foldl_cons]
      cases archives with
      | nil => exact loadLoop_stop hpos hstep _
      | cons next archives =>
          have hmagic : magic <+: concat (next :: archives) := by
            rw [concat, List.flatMap_cons, dump, List.append_assoc]
            exact (magic_prefix_dumpLoop _ _ _).trans (List.prefix_append _ _)
          rw [find_of_isPrefix hmagic] at hstep
          have hbehind := drop_add_of_drop_eq htrailer
          rw [hlength] at hbehind
          have hnext := drop_add_of_drop_eq hbehind
          rw [zeros, List.length_replicate] at hnext
          rw [loadLoop_skip hpos hstep]
          have hdvd : 4 ∣ base + (w + 124) + (0 + a.2) := by
            have := ha.padding
            omega
          refine ih htail hdvd ?_ _
          rw [← hnext]
          congr 1
          omega

theorem getElem?_insertMany_toList (acc m : CpioEntries) (name : String) :
    (acc.insertMany m.toList)[name]? = m[name]?.or acc[name]? := by
  cases hm : m[name]? with
  | some entry =>
      exact getElem?_insertMany_list_of_mem Std.ReflCmp.compare_self
        distinct_keys_toList
        (Std.ExtTreeMap.mem_toList_iff_getElem?_eq_some.2 hm)
  | none =>
      apply getElem?_insertMany_list_of_contains_eq_false
      rw [← Bool.not_eq_true, List.contains_iff_mem]
      intro hmem
      obtain ⟨⟨name', entry⟩, hentry, rfl⟩ := List.mem_map.1 hmem
      rw [mem_toList_iff_getElem?_eq_some, hm] at hentry
      cases hentry

theorem getElem?_foldl_insertMany (acc : CpioEntries) (name : String) :
    (archives.foldl (fun acc a => acc.insertMany a.1.entries.toList) acc)[name]?
      = (archives.reverse.findSome? fun a => a.1.entries[name]?).or acc[name]? := by
  induction archives generalizing acc with
  | nil => rfl
  | cons a archives ih =>
      rw [List.foldl_cons, ih, getElem?_insertMany_toList, List.reverse_cons,
        List.findSome?_append, Option.or_assoc]
      congr 1
      cases ha : a.1.entries[name]? <;> simp [List.findSome?, ha]

/-- **Round trip.** Archives one after the other, with zero padding behind each, load as one archive
in which the last archive that has a name decides about it. -/
theorem loadFromData_concat (harchives : ∀ a ∈ archives, Concatenable a) :
    ∃ cpio, loadFromData (concat archives) = .ok cpio ∧
      ∀ name : String, cpio.entries[name]?
        = archives.reverse.findSome? fun a => a.1.entries[name]? := by
  have hload := loadLoop_concat archives harchives (Dvd.intro 0 rfl : 4 ∣ 0)
    (List.drop_zero : (concat archives).drop 0 = concat archives) ∅
  refine ⟨⟨_, nulFree_loadLoop (by simp) hload⟩, loadFromData_of_ok hload, ?_⟩
  intro name
  simp only [getElem?_foldl_insertMany]
  simp

theorem loadFromData_dump {cpio : Cpio} (hcpio : Concatenable (cpio, 0)) :
    loadFromData (dump cpio) = .ok cpio := by
  have hdata : (dump cpio).drop 0 = concat [(cpio, 0)] := by
    simp [concat, zeros]
  have hload := loadLoop_concat [(cpio, 0)] (by simpa using hcpio) (Dvd.intro 0 rfl : 4 ∣ 0) hdata ∅
  apply loadFromData_of_ok
  rw [hload]
  congr 1
  apply ext_getElem?
  intro name
  rw [List.foldl_cons, List.foldl_nil, getElem?_insertMany_toList]
  simp

def solo (name : String) (entry : CpioEntry) (hname : NulFree name) : Cpio :=
  ⟨(∅ : CpioEntries).insert name entry, nulFree_insert (by simp) hname entry⟩

theorem concatenable_solo (hentry : Dumpable name entry) :
    Concatenable (solo name entry hentry.nulFree, 0) := by
  refine ⟨fun other entry' hget => ?_, ?_, Dvd.intro 0 rfl⟩
  · rw [solo, getElem?_insert] at hget
    split at hget
    · rename_i heq
      cases hget
      rw [← Std.LawfulEqOrd.eq_of_compare heq]
      exact hentry
    · simp at hget
  · simp [solo, size_insert]

theorem loadFromData_solo (hentry : Dumpable name entry) :
    loadFromData (dump (solo name entry hentry.nulFree)) = .ok (solo name entry hentry.nulFree) :=
  loadFromData_dump (concatenable_solo hentry)

/-! ### Too many entries

The inode of an entry is `300000` plus its index, written with at least eight digits. With
`2 ^ 32 - 300000` entries the trailer is the first to need nine, and the reader finds every later
field one place too far left. -/

def emptyEntry : CpioEntry := ⟨0o100644, 0, 0, 0, 0, []⟩

def hexName (i : Nat) : String := String.ofList ((hexDigits 8 i).map fun b => Char.ofNat b.toNat)

theorem utf8EncodeChar_hexDigit {d : Nat} (hd : d < 16) :
    String.utf8EncodeChar (Char.ofNat (hexDigit d).toNat) = [hexDigit d] := by
  interval_cases d <;> rfl

theorem flatMap_utf8EncodeChar_hexDigits (k n : Nat) :
    ((hexDigits k n).map fun b => Char.ofNat b.toNat).flatMap String.utf8EncodeChar
      = hexDigits k n := by
  induction k generalizing n with
  | zero => rfl
  | succ k ih =>
      rw [hexDigits, List.map_append, List.flatMap_append, ih, List.map_singleton,
        List.flatMap_singleton, utf8EncodeChar_hexDigit (Nat.mod_lt n (by omega))]

theorem utf8Bytes_hexName (i : Nat) : utf8Bytes (hexName i) = hexDigits 8 i := by
  rw [hexName, utf8Bytes_ofList, flatMap_utf8EncodeChar_hexDigits]

theorem hexName_inj {i j : Nat} (hi : i < 2 ^ 32) (hj : j < 2 ^ 32)
    (heq : hexName i = hexName j) : i = j := by
  have hbytes := congrArg (fun s => ofHex 0 (utf8Bytes s)) heq
  simp only [utf8Bytes_hexName, ofHex_hexDigits, Option.some.injEq] at hbytes
  omega

theorem not_mem_hexDigits_zero (k n : Nat) : 0 ∉ hexDigits k n := by
  induction k generalizing n with
  | zero => exact List.not_mem_nil
  | succ k ih =>
      rw [hexDigits, List.mem_append, List.mem_singleton]
      rintro (hmem | hdigit)
      · exact ih _ hmem
      · have hval := hexVal_hexDigit (Nat.mod_lt n (by omega : 16 > 0))
        rw [← hdigit] at hval
        cases hval

theorem dumpable_hexName (i : Nat) : Dumpable (hexName i) emptyEntry := by
  have hlength : (utf8Bytes (hexName i)).length = 8 := by
    rw [utf8Bytes_hexName, length_hexDigits]
  have hne : ∀ s : String, (utf8Bytes s).length ≠ 8 → hexName i ≠ s := by
    intro s hs heq
    rw [← heq] at hs
    exact hs hlength
  refine ⟨?_, hne _ (by decide), hne _ (by decide), hne _ (by decide), ?_, by decide, by decide,
    by decide⟩
  · rw [NulFree, utf8Bytes_hexName]
    exact not_mem_hexDigits_zero 8 i
  · rw [hlength]
    decide

def hexEntries (n : Nat) : List (String × CpioEntry) :=
  (List.range n).map fun i => (hexName i, emptyEntry)

theorem pairwise_hexEntries (hn : n ≤ 2 ^ 32) :
    (hexEntries n).Pairwise fun a b => ¬ compare a.1 b.1 = .eq := by
  rw [hexEntries, List.pairwise_map]
  apply List.nodup_range.imp_of_mem
  intro i j hi hj hij heq
  have hi' := List.mem_range.1 hi
  have hj' := List.mem_range.1 hj
  exact hij (hexName_inj (by omega) (by omega) (Std.LawfulEqOrd.eq_of_compare heq))

theorem dumpable_hexArchive
    (hentry : (Std.ExtTreeMap.ofList (hexEntries n) : CpioEntries)[name]? = some entry)
    (hn : n ≤ 2 ^ 32) : Dumpable name entry := by
  have hmem : name ∈ (hexEntries n).map Prod.fst := by
    have hcontains : name ∈ (Std.ExtTreeMap.ofList (hexEntries n) : CpioEntries) := by
      rw [mem_iff_isSome_getElem?, hentry]
      rfl
    simpa using hcontains
  obtain ⟨⟨name', entry'⟩, hmem', rfl⟩ := List.mem_map.1 hmem
  have hget : (Std.ExtTreeMap.ofList (hexEntries n) : CpioEntries)[name']? = some entry' :=
    getElem?_ofList_of_mem Std.ReflCmp.compare_self (pairwise_hexEntries hn) hmem'
  rw [hentry, Option.some.injEq] at hget
  obtain ⟨i, -, heq⟩ := List.mem_map.1 hmem'
  cases heq
  rw [hget]
  exact dumpable_hexName i

def hexArchive (n : Nat) (hn : n ≤ 2 ^ 32) : Cpio where
  entries := Std.ExtTreeMap.ofList (hexEntries n)
  nulFree name hname := by
    rw [mem_iff_isSome_getElem?] at hname
    obtain ⟨entry, hentry⟩ := Option.isSome_iff_exists.1 hname
    exact (dumpable_hexArchive hentry hn).nulFree

theorem size_hexArchive (hn : n ≤ 2 ^ 32) : (hexArchive n hn).entries.size = n := by
  rw [hexArchive, size_ofList (pairwise_hexEntries hn), hexEntries, List.length_map,
    List.length_range]

theorem concatenable_hexArchive {k : Nat} (hn : 300000 + n < 2 ^ 32) (hk : 4 ∣ k) :
    Concatenable (hexArchive n (by omega), k) where
  dumpable _ _ hentry := dumpable_hexArchive hentry (by omega)
  size_lt := by
    rw [size_hexArchive]
    exact hn
  padding := hk

theorem loadFromData_concat_two :
    ∃ cpio, loadFromData (concat [(hexArchive 1 (by decide), 4), (hexArchive 2 (by decide), 0)])
        = .ok cpio ∧
      ∀ name : String, cpio.entries[name]?
        = [(hexArchive 1 (by decide), 4), (hexArchive 2 (by decide), 0)].reverse.findSome?
          fun a => a.1.entries[name]? := by
  refine loadFromData_concat _ ?_
  intro a ha
  simp only [List.mem_cons, List.not_mem_nil, or_false] at ha
  rcases ha with rfl | rfl
  · exact concatenable_hexArchive (by decide) (by decide)
  · exact concatenable_hexArchive (by decide) (by decide)

theorem take_drop_append_of_le {a b : List UInt8} {k : Nat} (hle : n + k ≤ a.length) :
    ((a ++ b).drop n).take k = (a.drop n).take k := by
  rw [List.drop_append_of_le_length (by omega), List.take_append_of_le_length]
  rw [List.length_drop]
  omega

theorem loadStep_long_inode {w : Nat} (hdata : data.drop pos = dumpTrailer w (2 ^ 32) ++ rest) :
    loadStep data pos = .err .badName := by
  rw [dumpTrailer, ← trailerFields] at hdata
  simp only [List.append_assoc] at hdata
  have hlength : (header (trailerFields (2 ^ 32))).length = 111 := by decide
  have hle := add_le_length_of_drop_eq hdata (List.ne_nil_of_length_pos (by omega))
  have hin : pos + headerSize ≤ data.length := by
    rw [headerSize]
    omega
  have hmagic : (data.drop pos).take 6 = magic := by
    rw [hdata, header, List.append_assoc]
    rfl
  have hfield : field data pos 94 = List.replicate 8 0x30 := by
    rw [field, ← List.drop_drop, hdata, take_drop_append_of_le (by omega)]
    decide
  have hnameSz : x8u (field data pos 94) = .ok 0 := by
    rw [hfield]
    rfl
  have hnameIn : pos + headerSize + 0 ≤ data.length := hin
  simp only [loadStep, assert_of hin, ok_bind, hmagic, ne_eq, not_true, if_false,
    hnameSz, assert_of hnameIn, List.take_zero]
  rfl

def fullArchive : Cpio := hexArchive (2 ^ 32 - 300000) (by decide)

theorem loadFromData_fullArchive : loadFromData (concat [(fullArchive, 0)]) = .err .badName := by
  have hsize : fullArchive.entries.size = 2 ^ 32 - 300000 := size_hexArchive (by decide)
  have hdata : (concat [(fullArchive, 0)]).drop (0 + 0)
      = dumpLoop 0 300000 fullArchive.entries.toList ++ [] := by
    simp [concat, dump, zeros]
  have hdumpable : ∀ e ∈ fullArchive.entries.toList, Dumpable e.1 e.2 :=
    dumpable_of_mem_toList fun name entry hentry => dumpable_hexArchive hentry (by decide)
  have hinode : 300000 + fullArchive.entries.toList.length = 2 ^ 32 := by
    rw [length_toList, hsize]
    norm_num
  obtain ⟨w, -, hloop, htrailer⟩ := loadLoop_dumpLoop (Dvd.intro 0 rfl : 4 ∣ 0)
    fullArchive.entries.toList hdumpable (Dvd.intro 0 rfl : 4 ∣ 0) hinode.le hdata ∅
  rw [hinode] at htrailer
  have hpos : 0 + w < (concat [(fullArchive, 0)]).length := by
    have hne : dumpTrailer w (2 ^ 32) ≠ [] := by
      rw [dumpTrailer, header]
      simp [magic]
    have hle := add_le_length_of_drop_eq htrailer hne
    have := List.length_pos_of_ne_nil hne
    omega
  apply loadFromData_of_err
  rw [Nat.add_zero] at hloop
  rw [hloop]
  exact loadLoop_err hpos (loadStep_long_inode htrailer) _

/-- An archive of `2 ^ 32 - 300000` files with names of eight digits does not load again, although
each of its entries fits the format. -/
theorem loadFromData_concat_too_many :
    (∀ name entry, fullArchive.entries[name]? = some entry → Dumpable name entry) ∧
      ¬ ∃ cpio, loadFromData (concat [(fullArchive, 0)]) = .ok cpio ∧
        ∀ name : String, cpio.entries[name]?
          = [(fullArchive, 0)].reverse.findSome? fun a => a.1.entries[name]? := by
  refine ⟨fun name entry hentry => dumpable_hexArchive hentry (by decide), ?_⟩
  rintro ⟨cpio, hload, -⟩
  rw [loadFromData_fullArchive] at hload
  cases hload

end MagiskNative.Cpio
