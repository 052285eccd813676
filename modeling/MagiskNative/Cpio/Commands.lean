import MagiskNative.Boot.Patch
import MagiskNative.Cpio.Restore

/-!
# The commands on an archive file

`cpio_commands` loads the archive, runs its commands one after the other and writes the archive back, unless
one of them fails.
-/

namespace MagiskNative.Cpio

open Text OrderedMap Outcome Std.ExtTreeMap

structure Arg where
  text : String
  nulFree : NulFree text

/-- What `add` finds under a path; a symbolic link counts as what it leads to. -/
inductive HostFile where
  | file (content : List UInt8)
  | blockDevice (major minor : UInt32)
  | charDevice (major minor : UInt32)
  | other

structure Host where
  xz : Xz
  keepVerity : Bool
  keepForceEncrypt : Bool
  attr : String → Option HostFile
  /-- `MappedFile::open` -/
  mapped : String → Option (List UInt8)

inductive Command where
  | restore
  | patch
  | backup (origin : Arg) (skipCompress : Bool)
  | rm (path : Arg) (recursive : Bool)
  | mv (source dest : Arg)
  | mkdir (mode : UInt32) (dir : Arg)
  | ln (src dst : Arg)
  | add (mode : UInt32) (path file : Arg)

inductive CommandError where
  | load (error : LoadError)
  | io
  /-- "path cannot end with / for add" -/
  | slashAtEnd
  /-- "unsupported file type" -/
  | unsupportedFileType
  /-- "No such entry {from}" -/
  | noSuchEntry (source : String)

theorem nulFree_normPath {path : String} (hpath : NulFree path) : NulFree (normPath path) := by
  have hslash : NulFree (path ++ "/") := hpath.append (by decide)
  refine nulFree_ofList hslash fun c hc => ?_
  rw [String.toList_append, List.mem_append]
  rcases (mem_intercalate _ _).1 hc with hsep | ⟨part, hpart, hcpart⟩
  · exact Or.inr (by simpa using hsep)
  · exact Or.inl (mem_of_mem_splitOn (List.mem_of_mem_filter hpart) hcpart)

def put (cpio : Cpio) (path : Arg) (entry : CpioEntry) : Cpio :=
  ⟨cpio.entries.insert (normPath path.text) entry,
    nulFree_insert cpio.nulFree (nulFree_normPath path.nulFree) entry⟩

def add (host : Host) (cpio : Cpio) (mode : UInt32) (path file : Arg) : Outcome CommandError Cpio :=
  if EndsWith path.text "/" then .err .slashAtEnd
  else
    match host.attr file.text with
    | none => .err .io
    | some (.file content) => .ok (cpio.put path ⟨mode ||| 0o100000, 0, 0, 0, 0, content⟩)
    | some (.blockDevice major minor) =>
        .ok (cpio.put path ⟨mode ||| 0o060000, 0, 0, major.toUInt64, minor.toUInt64, []⟩)
    | some (.charDevice major minor) =>
        .ok (cpio.put path ⟨mode ||| 0o020000, 0, 0, major.toUInt64, minor.toUInt64, []⟩)
    | some .other => .err .unsupportedFileType

def mkdir (cpio : Cpio) (mode : UInt32) (dir : Arg) : Cpio :=
  cpio.put dir ⟨mode ||| 0o040000, 0, 0, 0, 0, []⟩

def ln (cpio : Cpio) (src dst : Arg) : Cpio :=
  cpio.put dst ⟨0o120000, 0, 0, 0, 0, utf8Bytes (normPath src.text)⟩

def mv (cpio : Cpio) (source dest : Arg) : Outcome CommandError Cpio :=
  match cpio.entries[normPath source.text]? with
  | none => .err (.noSuchEntry source.text)
  | some entry =>
      let rest : Cpio := ⟨rm cpio.entries source.text false,
        fun name hmem => cpio.nulFree name (mem_of_mem_rm hmem)⟩
      .ok (rest.put dest entry)

def resized (data : List UInt8) (patched : List UInt8 × Nat) : List UInt8 :=
  if patched.2 ≠ data.length then patched.1.take patched.2 else patched.1

-- What `retain` does with an entry; `none` drops it.
def patchEntry (host : Host) (name : String) (entry : CpioEntry) : Option CpioEntry :=
  let fstab : Bool := (!host.keepVerity || !host.keepForceEncrypt)
    && entry.mode &&& CpioEntry.sIfmt = CpioEntry.sIfreg
    && ¬ StartsWith name ".backup" && ¬ StartsWith name "twrp" && ¬ StartsWith name "recovery"
    && StartsWith name "fstab"
  if !host.keepVerity && !fstab && name = "verity_key" then none
  else
    let data := if !host.keepVerity && fstab then resized entry.data (Patch.patchVerity entry.data)
      else entry.data
    let data := if !host.keepForceEncrypt && fstab then resized data (Patch.patchEncryption data)
      else data
    some { entry with data }

def patch (host : Host) (cpio : Cpio) : Cpio where
  entries := cpio.entries.filterMap (patchEntry host)
  nulFree name hmem := cpio.nulFree name (mem_of_mem_filterMap hmem)

def run (host : Host) (cpio : Cpio) : Command → Outcome CommandError Cpio
  | .restore => .ok (restore host.xz cpio)
  | .patch => .ok (cpio.patch host)
  | .backup origin skipCompress =>
      match host.mapped origin.text with
      | none => .err .io
      | some data => (backup host.xz cpio data skipCompress).mapErr .load
  | .rm path recursive =>
      .ok ⟨rm cpio.entries path.text recursive, fun name hmem => cpio.nulFree name (mem_of_mem_rm hmem)⟩
  | .mv source dest => cpio.mv source dest
  | .mkdir mode dir => .ok (cpio.mkdir mode dir)
  | .ln src dst => .ok (cpio.ln src dst)
  | .add mode path file => cpio.add host mode path file

def runCommands (host : Host) (cpio : Cpio) : List Command → Outcome CommandError Cpio
  | [] => .ok cpio
  | cmd :: cmds => do
      let cpio ← run host cpio cmd
      runCommands host cpio cmds

def loadOrNew : Option (List UInt8) → Outcome CommandError Cpio
  | none => .ok ⟨∅, by simp⟩
  -- a file without bytes cannot be mapped
  | some [] => .err .io
  | some data => (loadFromData data).mapErr .load

theorem dumpLoop_ne_nil (pos inode : Nat) (entries : List (String × CpioEntry)) :
    dumpLoop pos inode entries ≠ [] := by
  cases entries with
  | nil => simp [dumpLoop, dumpTrailer]
  | cons e entries => simp [dumpLoop, dumpEntry]

theorem loadOrNew_dump (cpio : Cpio) :
    loadOrNew (some (dump cpio)) = (loadFromData (dump cpio)).mapErr .load := by
  have hdump : dump cpio ≠ [] := dumpLoop_ne_nil _ _ _
  rw [loadOrNew]
  exact hdump

def cpioCommands (host : Host) (file : Option (List UInt8)) (cmds : List Command) :
    Outcome CommandError (List UInt8) := do
  let cpio ← loadOrNew file
  let cpio ← runCommands host cpio cmds
  return dump cpio

def fileAfter (host : Host) (file : Option (List UInt8)) (cmds : List Command) :
    Option (List UInt8) :=
  match cpioCommands host file cmds with
  | .ok out => some out
  | .err _ => file
  | .panic => file

/-! ### Device numbers

An entry's device number is a 64-bit word that is written with eight digits. Each of them comes from
eight digits or from the 32-bit halves of a device, whatever the commands do. -/

def SmallRdev (entry : CpioEntry) : Prop :=
  entry.rdevmajor.toNat < 2 ^ 32 ∧ entry.rdevminor.toNat < 2 ^ 32

theorem smallRdev_zero (mode uid gid : UInt32) (data : List UInt8) :
    SmallRdev ⟨mode, uid, gid, 0, 0, data⟩ := by
  have hzero : (0 : UInt64).toNat < 2 ^ 32 := by decide
  exact ⟨hzero, hzero⟩

theorem smallRdev_device (mode uid gid major minor : UInt32) (data : List UInt8) :
    SmallRdev ⟨mode, uid, gid, major.toUInt64, minor.toUInt64, data⟩ := by
  have hmajor := major.toNat_lt
  have hminor := minor.toNat_lt
  constructor
  · simpa using hmajor
  · simpa using hminor

variable {entry : CpioEntry} {cpio cpio' : Cpio}

theorem smallRdev_storedAs (hentry : SmallRdev entry) (xz : Xz)
    (skipCompress : Bool) (name : String) :
    SmallRdev (storedAs xz skipCompress name entry).2 := by
  rw [storedAs]
  split
  · rename_i packed hpacked
    split at hpacked
    · cases hpacked
    · rw [CpioEntry.compress] at hpacked
      split at hpacked
      · cases hpacked
      · split at hpacked
        · cases hpacked
        · cases hpacked
          exact hentry
  · exact hentry

theorem smallRdev_restoredAs (hentry : SmallRdev entry) (xz : Xz)
    (name : String) : SmallRdev (restoredAs xz name entry).2 := by
  rw [restoredAs]
  split
  · rename_i unpacked hunpacked
    split at hunpacked
    · rw [CpioEntry.decompress] at hunpacked
      split at hunpacked
      · cases hunpacked
      · split at hunpacked
        · cases hunpacked
        · cases hunpacked
          exact hentry
    · cases hunpacked
  · exact hentry

def SmallRdevs (cpio : Cpio) : Prop := Forall (fun _ entry => SmallRdev entry) cpio.entries

theorem smallRdevs_of_load {data : List UInt8} (hload : loadFromData data = .ok cpio) :
    SmallRdevs cpio := by
  rw [loadFromData] at hload
  split at hload
  · rename_i entries hloop
    cases hload
    refine loadLoop_induct (P := Forall fun _ entry => SmallRdev entry) ?_ forall_empty hloop
    intro hdr next name entry entries hstep hentries
    exact forall_insert hentries (rdev_lt_of_loadStep hstep)
  · cases hload
  · cases hload

theorem smallRdevs_put (hcpio : SmallRdevs cpio) (path : Arg)
    (hentry : SmallRdev entry) : SmallRdevs (cpio.put path entry) :=
  forall_insert hcpio hentry

theorem smallRdevs_patch (hcpio : SmallRdevs cpio) (host : Host) :
    SmallRdevs (cpio.patch host) := by
  intro name entry hentry
  rw [patch, getElem?_filterMap', Option.bind_eq_some_iff] at hentry
  obtain ⟨old, hold, hpatched⟩ := hentry
  simp only [patchEntry] at hpatched
  split at hpatched
  · cases hpatched
  · cases hpatched
    exact hcpio name old hold

variable {host : Host} {path : Arg}

theorem smallRdevs_add {mode : UInt32} {file : Arg}
    (hcpio : SmallRdevs cpio) (hadd : cpio.add host mode path file = .ok cpio') :
    SmallRdevs cpio' := by
  rw [add] at hadd
  split at hadd
  · cases hadd
  · split at hadd
    · cases hadd
    · cases hadd
      exact smallRdevs_put hcpio path (smallRdev_zero _ _ _ _)
    · cases hadd
      exact smallRdevs_put hcpio path (smallRdev_device _ _ _ _ _ _)
    · cases hadd
      exact smallRdevs_put hcpio path (smallRdev_device _ _ _ _ _ _)
    · cases hadd

theorem smallRdevs_mv {source dest : Arg} (hcpio : SmallRdevs cpio)
    (hmv : cpio.mv source dest = .ok cpio') : SmallRdevs cpio' := by
  rw [mv] at hmv
  split at hmv
  · cases hmv
  · rename_i entry hentry
    cases hmv
    exact forall_insert (forall_rm hcpio _ _) (hcpio _ entry hentry)

theorem smallRdevs_backup {xz : Xz} {origin : List UInt8} {skipCompress : Bool}
    (hcpio : SmallRdevs cpio) (hbackup : backup xz cpio origin skipCompress = .ok cpio') :
    SmallRdevs cpio' := by
  rw [backup, bind_eq_ok] at hbackup
  obtain ⟨o, ho, heq⟩ := hbackup
  cases heq
  exact forall_backupEntries (smallRdev_zero _ _ _ _) (fun _ => smallRdev_zero _ _ _ _)
    (fun name _ hentry => smallRdev_storedAs hentry xz skipCompress name) (smallRdevs_of_load ho) hcpio

theorem smallRdevs_run (hcpio : SmallRdevs cpio) (cmd : Command)
    (hrun : run host cpio cmd = .ok cpio') : SmallRdevs cpio' := by
  cases cmd with
  | restore =>
      cases hrun
      exact forall_restoreEntries (fun name _ hentry => smallRdev_restoredAs hentry host.xz name) hcpio
  | patch =>
      cases hrun
      exact smallRdevs_patch hcpio host
  | backup origin skipCompress =>
      rw [run] at hrun
      split at hrun
      · cases hrun
      · exact smallRdevs_backup hcpio (Outcome.mapErr_eq_ok.1 hrun)
  | rm path recursive =>
      cases hrun
      exact forall_rm hcpio _ _
  | mv source dest => exact smallRdevs_mv hcpio hrun
  | mkdir mode dir =>
      cases hrun
      exact smallRdevs_put hcpio dir (smallRdev_zero _ _ _ _)
  | ln src dst =>
      cases hrun
      exact smallRdevs_put hcpio dst (smallRdev_zero _ _ _ _)
  | add mode path file => exact smallRdevs_add hcpio hrun

theorem smallRdevs_runCommands (cmds : List Command)
    (hcpio : SmallRdevs cpio) (hrun : runCommands host cpio cmds = .ok cpio') :
    SmallRdevs cpio' := by
  induction cmds generalizing cpio with
  | nil =>
      cases hrun
      exact hcpio
  | cons cmd cmds ih =>
      rw [runCommands, bind_eq_ok] at hrun
      obtain ⟨next, hnext, hrest⟩ := hrun
      exact ih (smallRdevs_run hcpio cmd hnext) hrest

theorem smallRdevs_loadOrNew {file : Option (List UInt8)}
    (hload : loadOrNew file = .ok cpio) : SmallRdevs cpio := by
  cases file with
  | none =>
      cases hload
      exact forall_empty
  | some data =>
      cases data with
      | nil => cases hload
      | cons b data => exact smallRdevs_of_load (Outcome.mapErr_eq_ok.1 hload)

structure Storable (cpio : Cpio) : Prop where
  names : ∀ name ∈ cpio.entries, name ≠ "." ∧ name ≠ ".." ∧ name ≠ "TRAILER!!!"
  size_lt : 300000 + cpio.entries.size < 2 ^ 32
  name_lt : ∀ name ∈ cpio.entries, (utf8Bytes name).length + 1 < 2 ^ 32
  data_lt : Forall (fun _ entry => entry.data.length < 2 ^ 32) cpio.entries

theorem loadFromData_dump_of_storable (hcpio : Storable cpio)
    (hrdevs : SmallRdevs cpio) : loadFromData (dump cpio) = .ok cpio := by
  apply loadFromData_dump
  refine ⟨fun name entry hentry => ?_, hcpio.size_lt, Dvd.intro 0 rfl⟩
  have hmem : name ∈ cpio.entries := Std.ExtTreeMap.mem_iff_isSome_getElem?.2 (by simp [hentry])
  obtain ⟨hdot, hdotdot, htrailer⟩ := hcpio.names name hmem
  obtain ⟨hmajor, hminor⟩ := hrdevs name entry hentry
  exact ⟨cpio.nulFree name hmem, hdot, hdotdot, htrailer, hcpio.name_lt name hmem,
    hcpio.data_lt name entry hentry, hmajor, hminor⟩

theorem runCommands_append (host : Host) (c₁ c₂ : List Command) (cpio : Cpio) :
    runCommands host cpio (c₁ ++ c₂)
      = (runCommands host cpio c₁ >>= fun cpio => runCommands host cpio c₂) := by
  induction c₁ generalizing cpio with
  | nil => rfl
  | cons cmd c₁ ih =>
      rw [List.cons_append, runCommands, runCommands]
      cases hrun : run host cpio cmd with
      | ok next =>
          rw [ok_bind, ok_bind]
          exact ih next
      | err e => rfl
      | panic => rfl

def archiveAfter (host : Host) (file : Option (List UInt8)) (cmds : List Command) :
    Outcome CommandError Cpio := do
  let cpio ← loadOrNew file
  runCommands host cpio cmds

theorem cpioCommands_eq_ok {file : Option (List UInt8)} {cmds : List Command} {out : List UInt8} :
    cpioCommands host file cmds = .ok out ↔ ∃ cpio, archiveAfter host file cmds = .ok cpio ∧
      dump cpio = out := by
  simp only [cpioCommands, archiveAfter, bind_eq_ok, pure_eq, Outcome.ok.injEq]
  constructor
  · rintro ⟨cpio, hload, cpio', hrun, hout⟩
    exact ⟨cpio', ⟨cpio, hload, hrun⟩, hout⟩
  · rintro ⟨cpio', ⟨cpio, hload, hrun⟩, hout⟩
    exact ⟨cpio, hload, cpio', hrun, hout⟩

/-- **Splitting an invocation.** If the archive between the two lists of commands is storable, then
two invocations leave the file that one invocation with all of them leaves. An invocation that fails
leaves the file as it was. -/
theorem fileAfter_append (host : Host) (file : Option (List UInt8)) :
    (∀ c₁ c₂ out, (∀ cpio, archiveAfter host file c₁ = .ok cpio → Storable cpio) →
      cpioCommands host file (c₁ ++ c₂) = .ok out →
      ∃ mid, cpioCommands host file c₁ = .ok mid ∧ cpioCommands host (some mid) c₂ = .ok out ∧
        fileAfter host (fileAfter host file c₁) c₂ = fileAfter host file (c₁ ++ c₂)) ∧
    ∀ cmds, (∀ out, cpioCommands host file cmds ≠ .ok out) → fileAfter host file cmds = file := by
  constructor
  · intro c₁ c₂ out hstorable hout
    obtain ⟨final, hfinal, hdump⟩ := cpioCommands_eq_ok.1 hout
    rw [archiveAfter, bind_eq_ok] at hfinal
    obtain ⟨cpio, hload, hrun⟩ := hfinal
    rw [runCommands_append, bind_eq_ok] at hrun
    obtain ⟨between, hbetween, hrest⟩ := hrun
    have hafter : archiveAfter host file c₁ = .ok between :=
      Outcome.bind_eq_ok.2 ⟨cpio, hload, hbetween⟩
    have hfirst : cpioCommands host file c₁ = .ok (dump between) :=
      cpioCommands_eq_ok.2 ⟨between, hafter, rfl⟩
    have hreload := loadFromData_dump_of_storable (hstorable between hafter)
      (smallRdevs_runCommands c₁ (smallRdevs_loadOrNew hload) hbetween)
    have hsecond : cpioCommands host (some (dump between)) c₂ = .ok out :=
      cpioCommands_eq_ok.2 ⟨final,
        Outcome.bind_eq_ok.2 ⟨between, (loadOrNew_dump between).trans (Outcome.mapErr_eq_ok.2 hreload), hrest⟩,
        hdump⟩
    refine ⟨dump between, hfirst, hsecond, ?_⟩
    simp only [fileAfter, hfirst, hsecond, hout]
  · intro cmds hfail
    rw [fileAfter]
    split
    · rename_i out hout
      exact absurd hout (hfail out)
    · rfl
    · rfl

def plainHost (xz : Xz) : Host := ⟨xz, false, false, fun _ => none, fun _ => none⟩

def argA : Arg := ⟨"a", by decide⟩

theorem storable_solo {name : String} (hentry : Dumpable name entry) :
    Storable (solo name entry hentry.nulFree) where
  names := forall_names_iff.1
    (forall_insert forall_empty ⟨hentry.ne_dot, hentry.ne_dotdot, hentry.ne_trailer⟩)
  size_lt := by simp [solo, size_insert]
  name_lt := forall_names_iff.1 (forall_insert forall_empty hentry.name_lt)
  data_lt := forall_insert forall_empty hentry.data_lt

def argB : Arg := ⟨"b", by decide⟩

def fileHost : Host := { plainHost Xz.sample with attr := fun _ => some (.file [1, 2, 3]) }

theorem fileAfter_add_mv :
    fileAfter fileHost (fileAfter fileHost none [.add 0o644 argA argA]) [.mkdir 0o755 argB, .mv argA argB]
      = fileAfter fileHost none [.add 0o644 argA argA, .mkdir 0o755 argB, .mv argA argB] := by
  have hstorable : ∀ cpio, archiveAfter fileHost none [.add 0o644 argA argA] = .ok cpio → Storable cpio := by
    intro cpio hcpio
    cases hcpio
    have hentry : Dumpable (normPath "a") ⟨0o644 ||| 0o100000, 0, 0, 0, 0, [1, 2, 3]⟩ := by
      constructor <;> decide
    exact storable_solo hentry
  obtain ⟨mid, -, -, heq⟩ := (fileAfter_append fileHost none).1
    [.add 0o644 argA argA] [.mkdir 0o755 argB, .mv argA argB] _ hstorable rfl
  exact heq

/-! ### An entry of four gigabytes

The size of its data takes nine digits, and with a name of the right length the reader takes the
header for that of an entry whose name has one digit more in front. What it reads as data is the
first sixteenth. -/

def longName (n : Nat) : String := String.ofList (List.replicate (n + 1) 'a')

theorem utf8Bytes_longName (n : Nat) : utf8Bytes (longName n) = List.replicate (n + 1) 0x61 := by
  have hchar : String.utf8EncodeChar 'a' = [0x61] := by decide
  rw [longName, utf8Bytes_ofList, List.flatMap_replicate, hchar]
  simp

theorem ordinary_longName (n : Nat) : Ordinary (longName n) := by
  have hlist : (longName n).toList = List.replicate (n + 1) 'a' := String.toList_ofList
  have hsub : ∀ pattern : String, '.' ∈ pattern.toList → ¬ pattern.toList ⊆ (longName n).toList := by
    intro pattern hdot hsub
    have hmem := hsub hdot
    rw [hlist] at hmem
    exact absurd (List.eq_of_mem_replicate hmem) (by decide)
  have hne : ∀ pattern : String, '.' ∈ pattern.toList → longName n ≠ pattern := by
    intro pattern hpattern heq
    exact hsub pattern hpattern (by rw [heq]; exact List.Subset.refl _)
  refine ⟨fun h => hsub ".backup" (by decide) h.subset, fun h => hsub ".xz" (by decide) h.subset,
    hne _ (by decide), hne _ (by decide), ?_, ?_⟩
  · have hsplit : (longName n).toList.splitOn '/' = [(longName n).toList] := by
      rw [List.splitOn_eq_singleton]
      rw [hlist]
      intro hmem
      exact absurd (List.eq_of_mem_replicate hmem) (by decide)
    rw [normPath, hsplit, hlist]
    simp [longName]
  · intro heq
    rw [heq] at hlist
    simp [List.replicate_succ] at hlist

theorem dumpEntry_shifted {name : String} {body rest : List UInt8}
    (hname : (utf8Bytes name).length = 0x1111110f) (hbody : body.length = 2 ^ 28)
    (hrest : rest.length = 2 ^ 32 - 2 ^ 28) :
    dumpEntry 0 300000 name ⟨0o100644, 0, 0, 0, 1, body ++ rest⟩
      = dumpEntry 0 300000 ("0" ++ name) ⟨0o100644, 0, 0, 0, 0, body⟩ ++ rest := by
  have hdata : (body ++ rest).length = 2 ^ 32 := by
    rw [List.length_append, hbody, hrest]
    norm_num
  have hdigit : utf8Bytes "0" = [0x30] := by decide
  have hshift : header [300000, (0o100644 : UInt32).toNat, (0 : UInt32).toNat, (0 : UInt32).toNat,
        1, 0, 2 ^ 32, 0, 0, (0 : UInt64).toNat, (1 : UInt64).toNat, 0x1111110f + 1, 0]
      = header [300000, (0o100644 : UInt32).toNat, (0 : UInt32).toNat, (0 : UInt32).toNat,
        1, 0, 2 ^ 28, 0, 0, (0 : UInt64).toNat, (0 : UInt64).toNat, 1 + 0x1111110f + 1, 0]
        ++ [0x30] := by
    decide
  have hlong : (utf8Bytes ("0" ++ name)).length = 1 + 0x1111110f := by
    rw [utf8Bytes_append, hdigit, List.length_append, hname]
    rfl
  simp only [dumpEntry, hdata, hbody, hname, hlong, hshift]
  simp only [utf8Bytes_append, hdigit, List.append_assoc]
  generalize hfront : header _ ++ ([0x30] ++ (utf8Bytes name ++ [0])) = front
  simp only [← List.append_assoc] at hfront ⊢
  simp only [hfront]
  have haligned : ∀ l : List UInt8, 4 ∣ l.length →
      zeros (align4 (0 + l.length) - (0 + l.length)) = [] := by
    intro l hl
    have hzero : align4 (0 + l.length) - (0 + l.length) = 0 := by
      rw [align4]
      omega
    rw [hzero, zeros, List.replicate_zero]
  have hdvd : 4 ∣ (front ++ zeros (align4 (0 + front.length) - (0 + front.length))).length := by
    rw [List.length_append, zeros, List.length_replicate, align4]
    omega
  generalize front ++ zeros _ = padded at hdvd
  rw [haligned (padded ++ body ++ rest), haligned (padded ++ body), List.append_nil, List.append_nil]
  · rw [List.length_append, hbody]
    omega
  · rw [List.length_append, List.length_append, hbody, hrest]
    omega

theorem nulFree_longName (n : Nat) : NulFree (longName n) := by
  rw [NulFree, utf8Bytes_longName]
  intro hmem
  exact absurd (List.eq_of_mem_replicate hmem) (by decide)

section Restored

variable {name : String} {data : List UInt8}

def fileEntry (rdevminor : UInt64) (data : List UInt8) : CpioEntry := ⟨0o100644, 0, 0, 0, rdevminor, data⟩

def packing (data : List UInt8) : Xz where
  encode text := if text = data then some [1] else none
  decode text := if text = [1] then some data else none

theorem packing_roundTrips (data : List UInt8) : (packing data).RoundTrips := by
  intro text out hout
  simp only [packing] at hout ⊢
  split at hout
  · rename_i htext
    cases hout
    rw [if_pos rfl, htext]
  · cases hout

theorem storedAs_packing :
    storedAs (packing data) false name (fileEntry 1 data)
      = (".backup/" ++ name ++ ".xz", fileEntry 1 [1]) := by
  have hmode : (0o100644 : UInt32) &&& CpioEntry.sIfmt = CpioEntry.sIfreg := by decide
  have hpacked : (fileEntry 1 data).compress (packing data) = some (fileEntry 1 [1]) := by
    simp [CpioEntry.compress, packing, fileEntry, hmode]
  simp only [storedAs, Bool.false_eq_true, if_false, hpacked]

theorem restore_packed (hname : NulFree name) (hordinary : Ordinary name)
    (hstored : NulFree (".backup/" ++ name ++ ".xz")) :
    restore (packing data) (solo (".backup/" ++ name ++ ".xz") (fileEntry 1 [1]) hstored)
      = solo name (fileEntry 1 data) hname := by
  have hrecalled : recalled? (packing data) (storedAs (packing data) false name (fileEntry 1 data))
      = some (name, fileEntry 1 data) := recalled_storedAs (packing_roundTrips data) hordinary _
  have hstart := startsWith_storedAs (packing data) false name (fileEntry 1 data)
  rw [storedAs_packing] at hrecalled hstart
  generalize hkey : ".backup/" ++ name ++ ".xz" = key at *
  have hextracted : extracted ((∅ : CpioEntries).insert key (fileEntry 1 [1]))
      = [(key, fileEntry 1 [1])] := by
    have hlist : ((∅ : CpioEntries).insert key (fileEntry 1 [1])).toList = [(key, fileEntry 1 [1])] := rfl
    rw [extracted, hlist, List.filter_cons_of_pos (by simpa using hstart), List.filter_nil]
  have hgathered : (recallAll (packing data) ((∅ : CpioEntries).insert key (fileEntry 1 [1]))).stored
      = (∅ : CpioEntries).insert name (fileEntry 1 data) := by
    rw [recallAll, stored_foldl_recall, hextracted, List.filterMap_cons_some hrecalled,
      List.filterMap_nil, insertMany_list_singleton]
  have hrest : Forall (fun _ _ => False) (((∅ : CpioEntries).insert key (fileEntry 1 [1])).filter
      fun name _ => ¬ StartsWith name ".backup/") := by
    intro other entry hentry
    rw [getElem?_filter_backup, getElem?_insert] at hentry
    split at hentry
    · cases hentry
    · rename_i hother
      split at hentry
      · rename_i heq
        rw [← Std.LawfulEqOrd.eq_of_compare heq] at hother
        exact hother hstart
      · simp at hentry
  rw [restore, solo, solo, Cpio.mk.injEq]
  rw [restoreEntries_eq (by simp [hgathered]), hgathered]
  apply ext_getElem?
  intro other
  have hnone : ∀ entries : CpioEntries, Forall (fun _ _ => False) entries → entries[other]? = none := by
    intro entries hentries
    exact Option.eq_none_iff_forall_ne_some.2 fun entry hentry => hentries other entry hentry
  rw [getElem?_union, hnone _ (forall_rm_names (forall_rm hrest _ _) _), Option.or_none]

end Restored

theorem dumpTrailer_aligned {w w' inode : Nat} (hw : 4 ∣ w) (hw' : 4 ∣ w') (hinode : inode < 2 ^ 32) :
    dumpTrailer w inode = dumpTrailer w' inode := by
  rw [dumpTrailer_eq hw hinode, dumpTrailer_eq hw' hinode]

theorem loadFromData_second_trailer (hcpio : Concatenable (cpio, 0)) {k w inode : Nat}
    (hk : 4 ∣ k) (hw : 4 ∣ w) (hinode : inode < 2 ^ 32) :
    loadFromData (dump cpio ++ (zeros k ++ dumpTrailer w inode)) = .ok cpio := by
  generalize hdata : dump cpio ++ (zeros k ++ dumpTrailer w inode) = data
  have hdrop : data.drop (0 + 0)
      = dumpLoop 0 300000 cpio.entries.toList ++ (zeros k ++ dumpTrailer w inode) := by
    rw [← hdata, dump]
    rfl
  have hbase : 4 ∣ 0 := Dvd.intro 0 rfl
  obtain ⟨w', hw', hloop, htrailer⟩ := loadLoop_dumpLoop hbase cpio.entries.toList
    (dumpable_of_mem_toList hcpio.dumpable) hbase
    (by rw [length_toList]; exact hcpio.size_lt.le) hdrop ∅
  rw [length_toList] at htrailer
  have hlength := length_dumpTrailer hw' hcpio.size_lt
  have hin := Bytes.add_le_length_of_drop_eq htrailer
    (List.ne_nil_of_length_pos (by rw [hlength]; decide))
  have hstep := loadStep_dumpTrailer hbase hw' hcpio.size_lt htrailer
  have hmagic : magic <+: dumpTrailer w inode := magic_prefix_dumpLoop w inode []
  rw [find_zeros, find_of_isPrefix hmagic] at hstep
  have hbehind := Bytes.drop_add_of_drop_eq (Bytes.drop_add_of_drop_eq htrailer)
  rw [hlength, zeros, List.length_replicate] at hbehind
  have hsecond : data.drop (0 + (w' + 124 + k)) = dumpTrailer (w' + 124 + k) inode ++ [] := by
    rw [dumpTrailer_aligned (by omega : 4 ∣ w' + 124 + k) hw hinode, List.append_nil, ← hbehind]
    congr 1
    omega
  have hlength' := length_dumpTrailer (by omega : 4 ∣ w' + 124 + k) hinode
  have hin' := Bytes.add_le_length_of_drop_eq hsecond
    (List.ne_nil_of_length_pos (by rw [hlength']; decide))
  have hstop := loadStep_dumpTrailer hbase (by omega : 4 ∣ w' + 124 + k) hinode hsecond
  apply loadFromData_of_ok
  have hnext : 0 + (w' + 124) + (0 + k) = 0 + (w' + 124 + k) := by omega
  calc loadLoop data 0 ∅ = loadLoop data (0 + w') ((∅ : CpioEntries).insertMany cpio.entries.toList) := hloop
    _ = loadLoop data (0 + (w' + 124 + k)) ((∅ : CpioEntries).insertMany cpio.entries.toList) := by
        rw [loadLoop_skip (by omega) hstep, hnext]
    _ = .ok ((∅ : CpioEntries).insertMany cpio.entries.toList) := loadLoop_stop (by omega) hstop _
    _ = .ok cpio.entries := by
        congr 1
        apply ext_getElem?
        intro name
        rw [getElem?_insertMany_toList]
        simp

def hugeName : String := longName 0x1111110e

def hiddenTrailer : List UInt8 := dumpTrailer 0 300001 ++ zeros (2 ^ 32 - 2 ^ 28 - 124)

def hugeData : List UInt8 := zeros (2 ^ 28) ++ hiddenTrailer

theorem nulFree_hugeName : NulFree hugeName := nulFree_longName _

theorem length_utf8Bytes_hugeName : (utf8Bytes hugeName).length = 0x1111110f := by
  rw [hugeName, utf8Bytes_longName, List.length_replicate]

theorem length_hiddenTrailer : hiddenTrailer.length = 2 ^ 32 - 2 ^ 28 := by
  have hzero : 4 ∣ 0 := Dvd.intro 0 rfl
  rw [hiddenTrailer, List.length_append, length_dumpTrailer hzero (by decide), zeros,
    List.length_replicate]
  norm_num

def hugeArchive : Cpio := solo hugeName (fileEntry 1 hugeData) nulFree_hugeName

def readArchive : Cpio :=
  solo ("0" ++ hugeName) (fileEntry 0 (zeros (2 ^ 28)))
    (NulFree.append (by decide) nulFree_hugeName)

theorem dumpable_fileEntry {name : String} {rdevminor : UInt64} {data : List UInt8}
    (hname : NulFree name) (hlong : 10 < (utf8Bytes name).length)
    (hname_lt : (utf8Bytes name).length + 1 < 2 ^ 32) (hdata : data.length < 2 ^ 32)
    (hminor : rdevminor.toNat < 2 ^ 32) : Dumpable name (fileEntry rdevminor data) := by
  have hne : ∀ s : String, (utf8Bytes s).length ≤ 10 → name ≠ s := by
    rintro s hs rfl
    omega
  exact ⟨hname, hne _ (by decide), hne _ (by decide), hne _ (by decide), hname_lt, hdata,
    Nat.two_pow_pos 32, hminor⟩

theorem dumpable_read : Dumpable ("0" ++ hugeName) (fileEntry 0 (zeros (2 ^ 28))) := by
  have hlength : (utf8Bytes ("0" ++ hugeName)).length = 0x11111110 := by
    rw [utf8Bytes_append, List.length_append, length_utf8Bytes_hugeName]
    rfl
  apply dumpable_fileEntry (NulFree.append (by decide) nulFree_hugeName)
  · rw [hlength]
    decide
  · rw [hlength]
    decide
  · rw [zeros, List.length_replicate]
    decide
  · decide

theorem dump_solo (name : String) (entry : CpioEntry) (hname : NulFree name) :
    dump (solo name entry hname) = dumpEntry 0 300000 name entry
      ++ dumpTrailer (0 + (dumpEntry 0 300000 name entry).length) 300001 := rfl

theorem dump_hugeArchive :
    ∃ w, 4 ∣ w ∧ dump hugeArchive
      = dump readArchive ++ (zeros (2 ^ 32 - 2 ^ 28 - 124) ++ dumpTrailer w 300001) := by
  have hdvd : 4 ∣ 0 + (dumpEntry 0 300000 ("0" ++ hugeName) (fileEntry 0 (zeros (2 ^ 28)))).length := by
    rw [length_dumpEntry (by decide) dumpable_read]
    exact dvd_align4 _
  have hzero : 4 ∣ 0 := Dvd.intro 0 rfl
  have hzeros : (zeros (2 ^ 28)).length = 2 ^ 28 := List.length_replicate
  have hshifted := dumpEntry_shifted length_utf8Bytes_hugeName hzeros length_hiddenTrailer
  have hentry : dumpEntry 0 300000 hugeName (fileEntry 1 hugeData)
      = dumpEntry 0 300000 ("0" ++ hugeName) (fileEntry 0 (zeros (2 ^ 28))) ++ hiddenTrailer := hshifted
  refine ⟨0 + (dumpEntry 0 300000 hugeName (fileEntry 1 hugeData)).length, ?_, ?_⟩
  · have hsum : ∀ n, 4 ∣ 0 + n → 4 ∣ 0 + (n + (2 ^ 32 - 2 ^ 28)) := by
      intro n hn
      omega
    rw [hentry, List.length_append, length_hiddenTrailer]
    exact hsum _ hdvd
  · rw [hugeArchive, readArchive, dump_solo, dump_solo,
      dumpTrailer_aligned hdvd hzero (by decide), hentry, hiddenTrailer]
    simp only [List.append_assoc]

theorem rm_of_absent (habsent : normPath path.text ∉ cpio.entries)
    (host : Host) : run host cpio (.rm path false) = .ok cpio := by
  have hentries : rm cpio.entries path.text false = cpio.entries := by
    apply ext_getElem?
    intro name
    rw [getElem?_rm]
    split
    · rename_i hname
      have heq : normPath path.text = name := by simpa using hname
      rw [← heq]
      exact (getElem?_eq_none habsent).symm
    · rfl
  simp only [run, hentries]

theorem rm_solo {name : String} {hname : NulFree name}
    (hne : normPath path.text ≠ name) (host : Host) :
    run host (solo name entry hname) (.rm path false) = .ok (solo name entry hname) := by
  apply rm_of_absent
  intro hmem
  rcases Std.ExtTreeMap.mem_insert.1 hmem with heq | hmem
  · exact hne (Std.LawfulEqOrd.eq_of_compare heq).symm
  · simp at hmem

def packedArchive : Cpio :=
  solo (".backup/" ++ hugeName ++ ".xz") (fileEntry 1 [1])
    (((by decide : NulFree ".backup/").append nulFree_hugeName).append (by decide))

theorem dumpable_packed : Dumpable (".backup/" ++ hugeName ++ ".xz") (fileEntry 1 [1]) := by
  have hlength : (utf8Bytes (".backup/" ++ hugeName ++ ".xz")).length = 0x1111110f + 11 := by
    rw [utf8Bytes_append, utf8Bytes_append, List.length_append, List.length_append,
      length_utf8Bytes_hugeName]
    rfl
  apply dumpable_fileEntry
    (((by decide : NulFree ".backup/").append nulFree_hugeName).append (by decide))
  · rw [hlength]
    decide
  · rw [hlength]
    decide
  · decide
  · decide

/-- **Four gigabytes come out of a backup.** After `restore` the archive holds them in one entry. The
next invocation finds another entry in the file, although both succeed. -/
theorem not_fileAfter_append_huge :
    let host := plainHost (packing hugeData)
    let file := some (dump packedArchive)
    ∃ out mid out', cpioCommands host file ([.restore] ++ [.rm argA false]) = .ok out ∧
      cpioCommands host file [.restore] = .ok mid ∧
      cpioCommands host (some mid) [.rm argA false] = .ok out' ∧ out' ≠ out ∧
      ∀ cpio, archiveAfter host file [.restore] = .ok cpio →
        ∀ name ∈ cpio.entries, name ≠ "." ∧ name ≠ ".." ∧ name ≠ "TRAILER!!!" := by
  intro host file
  obtain ⟨w, hw, hdump⟩ := dump_hugeArchive
  have hload : loadOrNew file = .ok packedArchive :=
    (loadOrNew_dump packedArchive).trans (Outcome.mapErr_eq_ok.2 (loadFromData_solo dumpable_packed))
  have hrestore : restore (packing hugeData) packedArchive = hugeArchive :=
    restore_packed nulFree_hugeName (ordinary_longName _) dumpable_packed.nulFree
  have hreload : loadOrNew (some (dump hugeArchive)) = .ok readArchive := by
    rw [loadOrNew_dump]
    apply Outcome.mapErr_eq_ok.2
    rw [hdump]
    exact loadFromData_second_trailer (concatenable_solo dumpable_read) (by decide) hw (by decide)
  have hne : ∀ name : String, 10 < (utf8Bytes name).length → normPath argA.text ≠ name := by
    rintro name hlength rfl
    exact absurd hlength (by decide)
  have hname : 10 < (utf8Bytes hugeName).length := by
    rw [length_utf8Bytes_hugeName]
    decide
  have hkeep : ∀ {cpio}, run host cpio (.rm argA false) = .ok cpio →
      runCommands host cpio [.rm argA false] = .ok cpio := by
    intro cpio hrun
    rw [runCommands, hrun]
    rfl
  have hrun : runCommands host packedArchive [.restore] = .ok hugeArchive := congrArg Outcome.ok hrestore
  have hafter : archiveAfter host file [.restore] = .ok hugeArchive := by
    rw [archiveAfter, hload, ok_bind, hrun]
  refine ⟨dump hugeArchive, dump hugeArchive, dump readArchive, ?_, ?_, ?_, ?_, ?_⟩
  · refine cpioCommands_eq_ok.2 ⟨hugeArchive, ?_, rfl⟩
    rw [archiveAfter, hload, ok_bind, runCommands_append, hrun, ok_bind]
    exact hkeep (rm_solo (hne _ hname) host)
  · exact cpioCommands_eq_ok.2 ⟨hugeArchive, hafter, rfl⟩
  · refine cpioCommands_eq_ok.2 ⟨readArchive, ?_, rfl⟩
    rw [archiveAfter, hreload, ok_bind]
    refine hkeep (rm_solo (hne _ ?_) host)
    rw [utf8Bytes_append, List.length_append]
    omega
  · rw [hdump]
    intro heq
    have hlength := congrArg List.length heq
    rw [List.length_append] at hlength
    have hpos : 0 < (zeros (2 ^ 32 - 2 ^ 28 - 124) ++ dumpTrailer w 300001).length := by
      rw [List.length_append, length_dumpTrailer hw (by decide)]
      omega
    omega
  · intro cpio hcpio
    rw [hafter] at hcpio
    cases hcpio
    have hother : ∀ other : String, (utf8Bytes other).length ≤ 10 → hugeName ≠ other := by
      rintro other hother rfl
      omega
    exact forall_names_iff.1 (forall_insert forall_empty
      ⟨hother _ (by decide), hother _ (by decide), hother _ (by decide)⟩)

end MagiskNative.Cpio
