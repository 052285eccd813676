import MagiskNative.Lib.Machine
import Mathlib.Data.List.AList
import Mathlib.Data.Finset.Sort
import Mathlib.Data.String.Basic

/-!
# The deny list

The packages of the deny list with their processes, and an index from app ids to packages. The index
follows what is installed when an entry is added or the list is scanned; an entry leaves it under the
app id that the package has at that time.
-/

namespace MagiskNative.Daemon

inductive DenyResponse where
  | ok
  | itemExist
  | itemNotExist
  | invalidPkg
  | error
  deriving DecidableEq, Repr

def isolatedMagic : String := "isolated"

def webviewZygoteMagic : String := "webview_zygote"

def webviewZygoteUid : Int := 1053

/-- The data directories of the packages: the users, and the owner of a package's directory for a user. -/
structure Disk where
  users : List Int
  owner : Int → String → Option Nat

/-- `get_app_id` for a list of users: the first of them who has the package. -/
def Disk.userAppId (disk : Disk) (pkg : String) : Int :=
  match disk.users.findSome? fun user => disk.owner user pkg with
  | some uid => uid % 100000
  | none => 0

def Disk.getAppId (disk : Disk) (pkg : String) : Int :=
  if pkg = isolatedMagic then -1
  else if pkg = webviewZygoteMagic then webviewZygoteUid
  else disk.userAppId pkg

structure DenyData where
  pkgToProcs : AList fun _ : String => Finset String := ∅
  appIdToPkgs : AList fun _ : Int => Finset String := ∅

/-- `rows` is the table in the database, `none` if it cannot be used. -/
structure DenyList where
  data : Option DenyData := none
  disk : Disk
  rows : Option (List (String × String))

def isNameChar (c : Char) : Bool := c.isAlphanum || c = '_'

def validIsolated : List Char → Bool
  | [] => true
  | c :: cs => if isNameChar c || c = '.' then validIsolated cs else c = ':'

def validPkg (dotted : Bool) : List Char → Bool
  | [] => dotted
  | c :: cs => if isNameChar c then validPkg dotted cs else if c = '.' then validPkg true cs else false

def validate (pkg proc : String) : Bool :=
  if pkg = isolatedMagic then validIsolated proc.toList
  else if pkg = webviewZygoteMagic then proc = webviewZygoteMagic
  else validPkg false pkg.toList && proc.toList.all fun c => isNameChar c || c = ':' || c = '.'

namespace DenyData

variable (d : DenyData)

def updateAppId (appId : Int) (pkg : String) (remove : Bool) : DenyData :=
  if appId ≤ 0 then d
  else if remove then
    match d.appIdToPkgs.lookup appId with
    | none => d
    | some pkgs =>
        if pkgs.erase pkg = ∅ then { d with appIdToPkgs := d.appIdToPkgs.erase appId }
        else { d with appIdToPkgs := d.appIdToPkgs.insert appId (pkgs.erase pkg) }
  else
    { d with
      appIdToPkgs := d.appIdToPkgs.insert appId (insert pkg ((d.appIdToPkgs.lookup appId).getD ∅)) }

def addHideSet (pkg proc : String) : Option DenyData :=
  let procs := (d.pkgToProcs.lookup pkg).getD ∅
  if proc ∈ procs then none else some { d with pkgToProcs := d.pkgToProcs.insert pkg (insert proc procs) }

/-- The loop body of `scan_deny_apps`: a package that is not installed is dropped. -/
def scanPkg (disk : Disk) (acc : DenyData × Option (List (String × String))) (pkg : String) :
    DenyData × Option (List (String × String)) :=
  let (d, rows) := acc
  if pkg = isolatedMagic then (d, rows)
  else if pkg = webviewZygoteMagic then (d.updateAppId webviewZygoteUid pkg false, rows)
  else if disk.userAppId pkg = 0 then
    ({ d with pkgToProcs := d.pkgToProcs.erase pkg }, rows.map fun rows => rows.filter (·.1 ≠ pkg))
  else (d.updateAppId (disk.userAppId pkg) pkg false, rows)

/-- The lookups of `is_deny_target`; `none` is the use of a package that is not in the list. -/
def targets (process : String) : List String → Option Bool
  | [] => some false
  | pkg :: pkgs => do
      let procs ← d.pkgToProcs.lookup pkg
      if process ∈ procs then return true else targets process pkgs

end DenyData

namespace DenyList

variable (s : DenyList)

def scanDenyApps : DenyList :=
  match s.data with
  | none => s
  | some d =>
      let (data, rows) :=
        d.pkgToProcs.keys.foldl (DenyData.scanPkg s.disk) ({ d with appIdToPkgs := ∅ }, s.rows)
      { s with data := some data, rows }

def ensureData : DenyList :=
  match s.data, s.rows with
  | some _, _ | none, none => s
  | none, some rows =>
      let data := rows.foldl (fun d (pkg, proc) => (d.addHideSet pkg proc).getD d) {}
      scanDenyApps { s with data := some data }

def insertRow (row : String × String) : DenyList × DenyResponse :=
  match s.rows with
  | none => (s, .error)
  | some rows => if row ∈ rows then (s, .error) else ({ s with rows := some (rows ++ [row]) }, .ok)

def deleteRows (drop : String × String → Bool) : DenyList × DenyResponse :=
  match s.rows with
  | none => (s, .error)
  | some rows => ({ s with rows := some (rows.filter fun row => !drop row) }, .ok)

def addList (pkg proc : String) : DenyList × DenyResponse :=
  let proc := if proc = "" then pkg else proc
  if !validate pkg proc then (s, .invalidPkg)
  else
    let s := s.ensureData
    match s.data with
    | none => (s, .error)
    | some d =>
        let appId := s.disk.getAppId pkg
        if appId = 0 then (s, .invalidPkg)
        else
          match d.addHideSet pkg proc with
          | none => (s, .itemExist)
          | some d => insertRow { s with data := some (d.updateAppId appId pkg false) } (pkg, proc)

def erasePkg (d : DenyData) (pkg : String) : DenyData :=
  let d := d.updateAppId (s.disk.getAppId pkg) pkg true
  { d with pkgToProcs := d.pkgToProcs.erase pkg }

def rmList (pkg proc : String) : DenyList × DenyResponse :=
  let s := s.ensureData
  match s.data with
  | none => (s, .error)
  | some d =>
      match d.pkgToProcs.lookup pkg with
      | none => (s, .itemNotExist)
      | some procs =>
          if proc = "" then
            deleteRows { s with data := some (s.erasePkg d pkg) } (·.1 = pkg)
          else if proc ∈ procs then
            let rest := procs.erase proc
            let d := { d with pkgToProcs := d.pkgToProcs.insert pkg rest }
            let d := if rest = ∅ then s.erasePkg d pkg else d
            deleteRows { s with data := some d } (· = (pkg, proc))
          else (s, .itemNotExist)

def lsList : DenyList :=
  let s := s.ensureData
  s.scanDenyApps

/-- `none` is a lookup that has failed. -/
def isDenyTarget (uid : Int) (process : String) : DenyList × Option Bool :=
  let s := s.ensureData
  let appId := uid.tmod 100000
  let answer :=
    match s.data with
    | none => some false
    | some d =>
        if 90000 ≤ appId then
          let procs := (d.pkgToProcs.lookup isolatedMagic).getD ∅
          some ((procs.sort (· ≤ ·)).any fun proc => process.startsWith proc)
        else
          match d.appIdToPkgs.lookup appId with
          | none => some false
          | some pkgs => d.targets process (pkgs.sort (· ≤ ·))
  (s, answer)

end DenyList

inductive DenyAction where
  | addList (pkg proc : String)
  | rmList (pkg proc : String)
  | lsList
  | scanDenyApps
  | isDenyTarget (uid : Int) (process : String)
  | change (disk : Disk) (rows : Option (List (String × String)))

def DenyList.step (s : DenyList) : DenyAction → DenyList
  | .addList pkg proc => (s.addList pkg proc).1
  | .rmList pkg proc => (s.rmList pkg proc).1
  | .lsList => s.lsList
  | .scanDenyApps => s.scanDenyApps
  | .isDenyTarget uid process => (s.isDenyTarget uid process).1
  | .change disk rows => { s with disk, rows }

namespace DenyData

variable {d : DenyData} {disk : Disk}

def Stores (d : DenyData) (appId : Int) (pkg : String) : Prop :=
  ∃ pkgs, d.appIdToPkgs.lookup appId = some pkgs ∧ pkg ∈ pkgs

/-- Every package of the index is in the list. -/
def Linked (d : DenyData) : Prop := ∀ appId pkg, d.Stores appId pkg → pkg ∈ d.pkgToProcs

variable {appId : Int} {pkg p : String} {rows : Option (List (String × String))}

theorem not_stores_empty {procs : AList fun _ : String => Finset String} :
    ¬ Stores { pkgToProcs := procs, appIdToPkgs := ∅ } appId pkg := by
  rintro ⟨pkgs, hlookup, -⟩
  simp at hlookup

@[simp] theorem pkgToProcs_updateAppId (appId : Int) (pkg : String) (remove : Bool) :
    (d.updateAppId appId pkg remove).pkgToProcs = d.pkgToProcs := by
  unfold updateAppId
  split_ifs
  · rfl
  · split
    · rfl
    · split_ifs <;> rfl
  · rfl

theorem stores_updateAppId_add {id : Int} :
    (d.updateAppId appId pkg false).Stores id p ↔
      d.Stores id p ∨ 0 < appId ∧ id = appId ∧ p = pkg := by
  unfold updateAppId
  by_cases hle : appId ≤ 0
  · rw [if_pos hle]
    simp [Int.not_lt.2 hle]
  · rw [if_neg hle, if_neg Bool.false_ne_true]
    by_cases hid : id = appId
    · subst hid
      cases hlookup : d.appIdToPkgs.lookup id <;> simp [Stores, hlookup, Int.not_le.1 hle, or_comm]
    · simp [Stores, AList.lookup_insert_ne hid, hid]

theorem stores_updateAppId_remove {id : Int} :
    (d.updateAppId appId pkg true).Stores id p ↔
      d.Stores id p ∧ ¬ (0 < appId ∧ id = appId ∧ p = pkg) := by
  unfold updateAppId
  by_cases hle : appId ≤ 0
  · rw [if_pos hle]
    simp [Int.not_lt.2 hle]
  · rw [if_neg hle, if_pos rfl]
    by_cases hid : id = appId
    · subst hid
      have hpos := Int.not_le.1 hle
      cases hlookup : d.appIdToPkgs.lookup id with
      | none => simp [Stores, hlookup]
      | some pkgs =>
          by_cases hempty : pkgs.erase pkg = ∅
          · have honly : ∀ q ∈ pkgs, q = pkg := fun q hq => by
              by_contra hne
              exact Finset.notMem_empty q (hempty ▸ Finset.mem_erase.2 ⟨hne, hq⟩)
            simp only [hempty, if_true, Stores, AList.lookup_erase, hlookup]
            simpa [hpos] using fun hp => honly p hp
          · simp [hempty, Stores, hlookup, hpos, and_comm]
    · cases hlookup : d.appIdToPkgs.lookup appId with
      | none => simp [hid]
      | some pkgs =>
          by_cases hempty : pkgs.erase pkg = ∅
          · simp [hempty, Stores, AList.lookup_erase_ne hid, hid]
          · simp [hempty, Stores, AList.lookup_insert_ne hid, hid]

/-- While the packages `left` are still to come, the index lists packages before them, under the app ids
that they have now. -/
def Scanned (disk : Disk) (left : List String) (d : DenyData) : Prop :=
  ∀ appId pkg, d.Stores appId pkg →
    pkg ∈ d.pkgToProcs ∧ pkg ∉ left ∧ 0 < appId ∧ appId = disk.getAppId pkg

theorem Scanned.scanPkg {left : List String}
    (hscanned : d.Scanned disk (pkg :: left)) (hkey : pkg ∈ d.pkgToProcs) (hleft : pkg ∉ left) :
    (DenyData.scanPkg disk (d, rows) pkg).1.Scanned disk left := by
  have hweaken : d.Scanned disk left := by
    intro appId p hstores
    obtain ⟨hmem, hnot, hid⟩ := hscanned appId p hstores
    exact ⟨hmem, fun h => hnot (List.mem_cons_of_mem pkg h), hid⟩
  have hadd : ∀ {id : Int}, disk.getAppId pkg = id →
      (d.updateAppId id pkg false).Scanned disk left := by
    intro id hid appId p hstores
    rw [pkgToProcs_updateAppId]
    rcases stores_updateAppId_add.1 hstores with hold | ⟨hpos, rfl, rfl⟩
    · exact hweaken appId p hold
    · exact ⟨hkey, hleft, hpos, hid.symm⟩
  unfold DenyData.scanPkg
  by_cases hisolated : pkg = isolatedMagic
  · simpa [hisolated] using hweaken
  by_cases hwebview : pkg = webviewZygoteMagic
  · simp only [if_neg hisolated, if_pos hwebview]
    exact hadd (by rw [Disk.getAppId, if_neg hisolated, if_pos hwebview])
  have happ : disk.getAppId pkg = disk.userAppId pkg := by
    rw [Disk.getAppId, if_neg hisolated, if_neg hwebview]
  simp only [if_neg hisolated, if_neg hwebview]
  split
  · -- The package is dropped; the index does not list it yet.
    intro appId p hstores
    obtain ⟨hmem, hnot, hid⟩ := hscanned appId p hstores
    have hne : p ≠ pkg := fun h => hnot (h ▸ List.mem_cons_self)
    exact ⟨AList.mem_erase.2 ⟨hne, hmem⟩, fun h => hnot (List.mem_cons_of_mem pkg h), hid⟩
  · exact hadd happ

theorem mem_scanPkg (hne : p ≠ pkg)
    (hmem : p ∈ d.pkgToProcs) : p ∈ (DenyData.scanPkg disk (d, rows) pkg).1.pkgToProcs := by
  simp only [DenyData.scanPkg]
  split_ifs
  · exact hmem
  · rwa [pkgToProcs_updateAppId]
  · exact AList.mem_erase.2 ⟨hne, hmem⟩
  · rwa [pkgToProcs_updateAppId]

theorem Scanned.foldl {left : List String}
    (hscanned : d.Scanned disk left) (hkeys : ∀ p ∈ left, p ∈ d.pkgToProcs) (hleft : left.Nodup) :
    (left.foldl (DenyData.scanPkg disk) (d, rows)).1.Scanned disk [] := by
  induction left generalizing d rows with
  | nil => exact hscanned
  | cons pkg left ih =>
      have hnot := (List.nodup_cons.1 hleft).1
      refine ih (hscanned.scanPkg (hkeys pkg List.mem_cons_self) hnot) (fun p hp => ?_)
        (List.nodup_cons.1 hleft).2
      exact mem_scanPkg (fun h => hnot (h ▸ hp)) (hkeys p (List.mem_cons_of_mem pkg hp))

theorem Scanned.linked (hscanned : d.Scanned disk []) : d.Linked :=
  fun appId pkg hstores => (hscanned appId pkg hstores).1

theorem Linked.addHideSet {d' : DenyData} {proc : String} (hlinked : d.Linked)
    (hadd : d.addHideSet pkg proc = some d') : d'.Linked ∧ pkg ∈ d'.pkgToProcs := by
  simp only [DenyData.addHideSet] at hadd
  split_ifs at hadd
  cases hadd
  refine ⟨fun appId p hstores => ?_, ?_⟩
  · exact (AList.mem_insert _).2 (.inr (hlinked appId p hstores))
  · exact (AList.mem_insert _).2 (.inl rfl)

theorem Linked.updateAppId (hlinked : d.Linked)
    (hkey : pkg ∈ d.pkgToProcs) : (d.updateAppId appId pkg false).Linked := by
  intro id p hstores
  rw [pkgToProcs_updateAppId]
  rcases stores_updateAppId_add.1 hstores with hold | ⟨-, -, rfl⟩
  · exact hlinked id p hold
  · exact hkey

theorem Linked.isSome_targets {pkgs : Finset String} (hlinked : d.Linked)
    (hlookup : d.appIdToPkgs.lookup appId = some pkgs) (process : String) :
    (d.targets process (pkgs.sort (· ≤ ·))).isSome := by
  have hkeys : ∀ p ∈ pkgs.sort (· ≤ ·), p ∈ d.pkgToProcs := fun p hp =>
    hlinked appId p ⟨pkgs, hlookup, (Finset.mem_sort _).1 hp⟩
  generalize pkgs.sort (· ≤ ·) = names at hkeys ⊢
  induction names with
  | nil => rfl
  | cons p rest ih =>
      have hfound := AList.lookup_isSome.2 (hkeys p List.mem_cons_self)
      obtain ⟨procs, hprocs⟩ := Option.isSome_iff_exists.1 hfound
      simp only [DenyData.targets, hprocs, Option.bind_eq_bind, Option.bind_some]
      split
      · rfl
      · exact ih fun q hq => hkeys q (List.mem_cons_of_mem p hq)

end DenyData

namespace DenyList

variable {s : DenyList}

def Linked (s : DenyList) : Prop := ∀ d, s.data = some d → d.Linked

theorem scanned_scanDenyApps {d : DenyData} (hdata : s.scanDenyApps.data = some d) :
    d.Scanned s.disk [] := by
  unfold scanDenyApps at hdata
  split at hdata
  · rename_i hnone
    rw [hnone] at hdata
    cases hdata
  · cases hdata
    apply DenyData.Scanned.foldl
    · exact fun appId pkg hstores => absurd hstores DenyData.not_stores_empty
    · exact fun p hp => AList.mem_keys.2 hp
    · exact AList.keys_nodup _

theorem ensureData_of_some {d : DenyData} (hdata : s.data = some d) : s.ensureData = s := by
  unfold ensureData
  rw [hdata]

theorem disk_scanDenyApps : s.scanDenyApps.disk = s.disk := by
  unfold scanDenyApps
  split <;> rfl

theorem disk_ensureData : s.ensureData.disk = s.disk := by
  unfold ensureData
  split
  · rfl
  · rfl
  · rw [disk_scanDenyApps]

theorem ensureData_data {d : DenyData} (hdata : s.ensureData.data = some d) :
    s.data = some d ∨ s.data = none ∧ d.Scanned s.disk [] := by
  cases hold : s.data with
  | some d' =>
      rw [ensureData_of_some hold, hold] at hdata
      exact .inl hdata
  | none =>
      refine .inr ⟨rfl, ?_⟩
      cases hrows : s.rows with
      | none =>
          simp only [ensureData, hold, hrows] at hdata
          cases hdata
      | some rows =>
          simp only [ensureData, hold, hrows] at hdata
          rw [← hrows] at hdata
          exact scanned_scanDenyApps (s := { s with data := some _ }) hdata

theorem Linked.ensureData (hlinked : s.Linked) : s.ensureData.Linked := by
  intro d hdata
  rcases ensureData_data hdata with hold | ⟨-, hscanned⟩
  · exact hlinked d hold
  · exact hscanned.linked

theorem Linked.isSome_isDenyTarget (hlinked : s.Linked) (uid : Int) (process : String) :
    (s.isDenyTarget uid process).2.isSome := by
  unfold isDenyTarget
  dsimp only
  split
  · rfl
  · rename_i d hdata
    split
    · rfl
    · split
      · rfl
      · rename_i pkgs hlookup
        exact (hlinked.ensureData d hdata).isSome_targets hlookup process

theorem data_insertRow (row : String × String) : (s.insertRow row).1.data = s.data := by
  unfold insertRow
  split
  · rfl
  · split_ifs <;> rfl

theorem data_deleteRows (drop : String × String → Bool) : (s.deleteRows drop).1.data = s.data := by
  unfold deleteRows
  split <;> rfl

theorem Linked.addList (hlinked : s.Linked) (pkg proc : String) : (s.addList pkg proc).1.Linked := by
  unfold DenyList.addList
  generalize (if proc = "" then pkg else proc) = proc
  simp only
  split
  · exact hlinked
  · have hensured := hlinked.ensureData
    split
    · exact hensured
    · rename_i d hdata
      split
      · exact hensured
      · split
        · exact hensured
        · rename_i d' hadd
          intro d'' hd''
          rw [data_insertRow] at hd''
          cases hd''
          obtain ⟨hd', hkey⟩ := (hensured d hdata).addHideSet hadd
          exact hd'.updateAppId hkey

def Drops (d : DenyData) (pkg proc : String) : Prop :=
  ∃ procs, d.pkgToProcs.lookup pkg = some procs ∧ (proc = "" ∨ procs = {proc})

def Current (disk : Disk) (d : DenyData) (pkg : String) : Prop :=
  ∀ appId, d.Stores appId pkg → 0 < appId ∧ appId = disk.getAppId pkg

theorem linked_erasePkg {d : DenyData} {pkg : String} (hlinked : d.Linked) :
    (s.erasePkg d pkg).Linked ↔ Current s.disk d pkg := by
  have hstores : ∀ {appId : Int} {p : String}, (s.erasePkg d pkg).Stores appId p ↔
      d.Stores appId p ∧ ¬ (0 < s.disk.getAppId pkg ∧ appId = s.disk.getAppId pkg ∧ p = pkg) :=
    DenyData.stores_updateAppId_remove
  have hkeys : ∀ {p : String}, p ∈ (s.erasePkg d pkg).pkgToProcs ↔ p ≠ pkg ∧ p ∈ d.pkgToProcs := by
    intro p
    simp only [erasePkg, DenyData.pkgToProcs_updateAppId]
    exact AList.mem_erase
  constructor
  · intro herased appId hstored
    by_contra hother
    have hleft : (s.erasePkg d pkg).Stores appId pkg :=
      hstores.2 ⟨hstored, fun h => hother ⟨h.2.1 ▸ h.1, h.2.1⟩⟩
    exact (hkeys.1 (herased appId pkg hleft)).1 rfl
  · intro hcurrent appId p hleft
    obtain ⟨hstored, hnot⟩ := hstores.1 hleft
    refine hkeys.2 ⟨?_, hlinked appId p hstored⟩
    rintro rfl
    obtain ⟨hpos, hid⟩ := hcurrent appId hstored
    exact hnot ⟨hid ▸ hpos, hid, rfl⟩

theorem linked_rmList {d : DenyData} {pkg proc : String} (hdata : s.ensureData.data = some d)
    (hlinked : d.Linked) :
    (s.rmList pkg proc).1.Linked ↔ (Drops d pkg proc → Current s.disk d pkg) := by
  have hsame : s.ensureData.Linked := fun d' hd' => by
    rw [hdata] at hd'
    exact Option.some.inj hd' ▸ hlinked
  have hdeleted : ∀ {d' : DenyData} {disk : Disk} {rows : Option (List (String × String))}
      {drop : String × String → Bool},
      (deleteRows { data := some d', disk, rows } drop).1.Linked ↔ d'.Linked := by
    simp [Linked, data_deleteRows]
  simp only [rmList, hdata]
  cases hprocs : d.pkgToProcs.lookup pkg with
  | none => exact iff_of_true hsame (by rintro ⟨procs, hlookup, -⟩; simp [hprocs] at hlookup)
  | some procs =>
      have hdrops : Drops d pkg proc ↔ proc = "" ∨ procs = {proc} := by simp [Drops, hprocs]
      dsimp only
      by_cases hwhole : proc = ""
      · rw [if_pos hwhole, hdeleted, linked_erasePkg hlinked, disk_ensureData]
        exact ⟨fun h _ => h, fun h => h (hdrops.2 (.inl hwhole))⟩
      simp only [if_neg hwhole]
      by_cases hproc : proc ∈ procs
      · -- The package keeps its key unless that was its last process.
        set d' := { d with pkgToProcs := d.pkgToProcs.insert pkg (procs.erase proc) } with hd'
        have hlinked' : d'.Linked := fun appId p hstores =>
          (AList.mem_insert _).2 (.inr (hlinked appId p hstores))
        have hlast : procs.erase proc = ∅ ↔ procs = {proc} := by
          rw [Finset.erase_eq_empty_iff]
          exact or_iff_right (Finset.ne_empty_of_mem hproc)
        rw [if_pos hproc, hdeleted]
        by_cases hrest : procs.erase proc = ∅
        · rw [if_pos hrest, linked_erasePkg hlinked', disk_ensureData]
          exact ⟨fun h _ => h, fun h => h (hdrops.2 (.inr (hlast.1 hrest)))⟩
        · rw [if_neg hrest]
          exact iff_of_true hlinked' fun h => absurd ((hdrops.1 h).resolve_left hwhole) (mt hlast.2 hrest)
      · rw [if_neg hproc]
        refine iff_of_true hsame fun h => absurd ((hdrops.1 h).resolve_left hwhole) ?_
        rintro rfl
        exact hproc (Finset.mem_singleton_self proc)

/-- A removal drops a package only while the index lists it under its present app id alone. -/
def Attended (s : DenyList) : DenyAction → Prop
  | .rmList pkg proc => ∀ d, s.data = some d → Drops d pkg proc → Current s.disk d pkg
  | _ => True

theorem linked_step (a : DenyAction) (hlinked : s.Linked) : (s.step a).Linked ↔ s.Attended a := by
  cases a with
  | addList pkg proc => exact iff_of_true (hlinked.addList pkg proc) trivial
  | rmList pkg proc =>
      cases hdata : s.ensureData.data with
      | none =>
          have hnone : s.data = none := by
            by_contra hsome
            obtain ⟨d, hd⟩ := Option.ne_none_iff_exists'.1 hsome
            rw [ensureData_of_some hd, hd] at hdata
            cases hdata
          have hfailed : (s.rmList pkg proc).1 = s.ensureData := by rw [rmList, hdata]
          refine iff_of_true ?_ fun d hd => by simp [hnone] at hd
          rw [step, hfailed]
          exact hlinked.ensureData
      | some d =>
          rw [step, linked_rmList hdata (hlinked.ensureData d hdata), Attended]
          rcases ensureData_data hdata with hold | ⟨hnone, hscanned⟩
          · simp [hold]
          · -- The data come from the scan of this call.
            refine iff_of_true (fun _ appId hstores => ?_) fun d hd => by simp [hnone] at hd
            exact (hscanned appId pkg hstores).2.2
  | lsList | scanDenyApps => exact iff_of_true (fun d hdata => (scanned_scanDenyApps hdata).linked) trivial
  | isDenyTarget uid process => exact iff_of_true hlinked.ensureData trivial
  | change disk rows => exact iff_of_true hlinked trivial

theorem linked_of_step {s' : DenyList} {a : DenyAction} (hs : some (s.step a) = some s') (hlinked : s.Linked) :
    s'.Linked ↔ s.Attended a := by
  cases hs
  exact linked_step a hlinked

/-- **The index and the list.** Along a run every package of the index is in the list exactly if no removal
drops a package that the index lists under another app id than its present one. -/
theorem linked_iff (disk : Disk) (rows : Option (List (String × String))) (acts : List DenyAction) :
    (∀ s ∈ Machine.visited (fun s a => some (step s a)) { disk, rows } acts, s.Linked) ↔
      ∀ x ∈ Machine.taken (fun s a => some (step s a)) { disk, rows } acts, Attended x.1 x.2 := by
  have hstart : Linked { disk, rows } := fun d hd => by cases hd
  exact Machine.forall_visited_iff (fun _ _ _ _ _ => trivial) (fun _ _ _ hs _ => linked_of_step hs) trivial
    hstart acts

/-- **Lookups do not fail.** Along a run whose removals are attended, `is_deny_target` gives an answer to every
question in every state. -/
theorem isSome_isDenyTarget_of_attended {disk : Disk} {rows : Option (List (String × String))}
    {acts : List DenyAction}
    (hattended : ∀ x ∈ Machine.taken (fun s a => some (step s a)) { disk, rows } acts, Attended x.1 x.2) :
    ∀ s ∈ Machine.visited (fun s a => some (step s a)) { disk, rows } acts, ∀ uid process,
      (s.isDenyTarget uid process).2.isSome := by
  have hstart : Linked { disk, rows } := fun d hd => by cases hd
  have hlinked := (Machine.forall_visited_iff (fun _ _ _ _ _ => trivial) (fun _ _ _ hs _ => linked_of_step hs)
    trivial hstart acts).2 hattended
  exact fun s hs => (hlinked s hs).isSome_isDenyTarget

def oneApp (uid : Option Nat) : Disk where
  users := [0]
  owner _ pkg := if pkg = "org.app" then uid else none

def uninstalledRun : List DenyAction :=
  [.addList "org.app" "", .change (oneApp none) (some [("org.app", "org.app")]), .rmList "org.app" ""]

theorem current_added {d : DenyData}
    (hdata : (step { disk := oneApp (some 10100), rows := some [] } (.addList "org.app" "")).data = some d) :
    Current (oneApp (some 10100)) d "org.app" := by
  have hindex : (step { disk := oneApp (some 10100), rows := some [] } (.addList "org.app" "")).data.map
      (fun d => d.appIdToPkgs.entries) = some [⟨10100, {"org.app"}⟩] := by decide
  rw [hdata, Option.map_some, Option.some.injEq] at hindex
  rintro appId ⟨pkgs, hlookup, -⟩
  have hmem := AList.mem_lookup_iff.1 hlookup
  rw [hindex, List.mem_singleton] at hmem
  cases hmem
  exact ⟨by decide, by decide⟩

/-- The app is still installed when it is taken off the list again. -/
theorem isSome_isDenyTarget_removed :
    (([.addList "org.app" "", .rmList "org.app" ""].foldl step
      { disk := oneApp (some 10100), rows := some [] }).isDenyTarget 10100 "org.app").2.isSome := by
  have hattended : ∀ x ∈ Machine.taken (fun s a => some (step s a)) { disk := oneApp (some 10100), rows := some [] }
      [.addList "org.app" "", .rmList "org.app" ""], Attended x.1 x.2 := by
    intro x hx
    simp only [Machine.taken, List.mem_cons, List.not_mem_nil, or_false] at hx
    rcases hx with rfl | rfl
    · trivial
    · exact fun d hdata _ => current_added hdata
  exact isSome_isDenyTarget_of_attended hattended _ (.tail _ (.tail _ (.head _))) _ _

theorem not_linked_uninstalled :
    ¬ ∀ s ∈ Machine.visited (fun s a => some (step s a)) { disk := oneApp (some 10100), rows := some [] }
      uninstalledRun, s.Linked := by
  intro hall
  set last := uninstalledRun.foldl step { disk := oneApp (some 10100), rows := some [] } with hlast
  have hmem := hall last (.tail _ (.tail _ (.tail _ (.head _))))
  have hleft : last.data.map (fun d => (d.appIdToPkgs.lookup 10100, d.pkgToProcs.keys))
      = some (some {"org.app"}, []) := by
    rw [hlast]
    decide
  obtain ⟨d, hd, hd'⟩ := Option.map_eq_some_iff.1 hleft
  obtain ⟨hindex, hkeys⟩ := Prod.mk.inj hd'
  have hstores : d.Stores 10100 "org.app" := ⟨_, hindex, Finset.mem_singleton_self _⟩
  have hkey := AList.mem_keys.1 (hmem d hd _ _ hstores)
  rw [hkeys] at hkey
  cases hkey

end DenyList

end MagiskNative.Daemon
