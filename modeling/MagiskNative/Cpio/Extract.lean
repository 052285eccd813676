import MagiskNative.Cpio.RoundTrip
import MagiskNative.Lib.FileTree
import Mathlib.Data.UInt

/-!
# Extracting an archive

`extract` without arguments creates every entry under its own name, in the order of the names, and stops
at the first one that fails. Neither the loader nor `extract_entry` looks at where a name leads.
-/

namespace MagiskNative.Cpio

open Text FileTree

inductive FileType where
  | dir
  | reg
  | lnk
  | dev
  | unknown
  deriving DecidableEq, Repr

def fileType (mode : UInt32) : FileType :=
  let fmt := mode &&& 0o170000
  if fmt = 0o040000 then .dir
  else if fmt = 0o100000 then .reg
  else if fmt = 0o120000 then .lnk
  else if fmt = 0o060000 ∨ fmt = 0o020000 then .dev
  else .unknown

abbrev DiskAction := Disk → Disk × Bool

def runAll : List DiskAction → DiskAction
  | [], d => (d, true)
  | act :: acts, d =>
      match act d with
      | (d, true) => runAll acts d
      | (d, false) => (d, false)

def attempt (call : Disk → Except Errno Disk) : DiskAction := fun d =>
  match call d with
  | .ok d => (d, true)
  | .error _ => (d, false)

def mkdirAction (cwd : Location) (path : List UInt8) : DiskAction := fun d =>
  match Disk.mkdir cwd path d with
  | .ok d => (d, true)
  | .error .eexist => (d, true)
  | .error .other => (d, false)

def joinPath (absolute : Bool) (names : List Name) : List UInt8 :=
  (if absolute then [slash] else []) ++ [slash].intercalate names

def mkdirParents (cwd : Location) (path : List UInt8) : List DiskAction :=
  ((normal (components path)).dropLast.inits.tail).map fun names =>
    mkdirAction cwd (joinPath (isAbsolute path) names)

def createAction (cwd : Location) (path : List UInt8) (entry : CpioEntry) : DiskAction :=
  match fileType entry.mode with
  | .dir => mkdirAction cwd path
  | .reg => attempt (Disk.create cwd path entry.data)
  | .lnk =>
      -- the target is clipped to the buffer, and it ends at a NUL
      if (ofUtf8? entry.data).isSome then
        attempt (Disk.symlink cwd ((entry.data.take 4095).takeWhile (· ≠ 0)) path)
      else fun d => (d, false)
  | .dev =>
      if entry.rdevmajor < 2 ^ 32 ∧ entry.rdevminor < 2 ^ 32 then
        -- the result of `mknod` is dropped
        fun d => ((attempt (Disk.mknod cwd path) d).1, true)
      else fun d => (d, false)
  | .unknown => fun d => (d, false)

def extractEntry (cwd : Location) (name : String) (entry : CpioEntry) : DiskAction :=
  runAll (mkdirParents cwd (utf8Bytes name) ++ [createAction cwd (utf8Bytes name) entry])

def entriesToExtract (cpio : Cpio) : List (String × CpioEntry) :=
  cpio.entries.toList.filter fun e => e.1 ≠ "." ∧ e.1 ≠ ".."

def extract (cwd : Location) (cpio : Cpio) : DiskAction :=
  runAll (cpio.entriesToExtract.map fun e => extractEntry cwd e.1 e.2)

/-- The entries that the extraction gets to, with the disk that it finds. -/
def reached (cwd : Location) : List (String × CpioEntry) → Disk → List (Disk × String × CpioEntry)
  | [], _ => []
  | e :: entries, d =>
      (d, e) :: match extractEntry cwd e.1 e.2 d with
        | (d, true) => reached cwd entries d
        | (_, false) => []

/-- The components by which an entry is created, and whether a link at the last one is followed. -/
def steps (type : FileType) (path : List UInt8) : List Name × Bool :=
  match type with
  | .dir => ((components path).rdropWhile (· = []), false)
  | type => (components path, type = .reg)

/-- The name is relative, and on the way along it nothing leads out of the directory. -/
structure Stays (cwd : Location) (tree : Tree) (name : String) (entry : CpioEntry) : Prop where
  relative : isAbsolute (utf8Bytes name) = false
  beneath : ¬ Leaves tree cwd (steps (fileType entry.mode) (utf8Bytes name)).2 []
    (steps (fileType entry.mode) (utf8Bytes name)).1

section Actions

variable {P Q : Disk → Prop}

variable {d : Disk}

theorem runAll_inv {acts : List DiskAction} (hacts : ∀ act ∈ acts, ∀ d, P d → P (act d).1)
    (hd : P d) : P (runAll acts d).1 := by
  induction acts generalizing d with
  | nil => exact hd
  | cons act acts ih =>
      have hact := hacts act List.mem_cons_self d hd
      rw [runAll]
      split
      · rename_i d' heq
        rw [heq] at hact
        exact ih (fun a ha => hacts a (List.mem_cons_of_mem _ ha)) hact
      · rename_i d' heq
        rwa [heq] at hact

theorem runAll_append (acts acts' : List DiskAction) (d : Disk) :
    runAll (acts ++ acts') d
      = match runAll acts d with
        | (d, true) => runAll acts' d
        | (d, false) => (d, false) := by
  induction acts generalizing d with
  | nil => rfl
  | cons act acts ih =>
      rw [List.cons_append, runAll, runAll]
      cases act d with
      | mk d' ok =>
          cases ok with
          | true => exact ih d'
          | false => rfl

theorem attempt_inv {call : Disk → Except Errno Disk}
    (hcall : ∀ d', call d = .ok d' → Q d') (hd : Q d) : Q (attempt call d).1 := by
  rw [attempt]
  split
  · rename_i d' hok
    exact hcall d' hok
  · exact hd

theorem mkdirAction_inv {cwd : Location} {path : List UInt8}
    (hcall : ∀ d', Disk.mkdir cwd path d = .ok d' → Q d') (hd : Q d) :
    Q (mkdirAction cwd path d).1 := by
  rw [mkdirAction]
  split
  · rename_i d' hok
    exact hcall d' hok
  · exact hd
  · exact hd

end Actions

section Entry

variable {cwd : Location} {name : String} {entry : CpioEntry} {d : Disk} {names : List Name}

theorem components_joinPath (hne : names ≠ []) (hslash : ∀ c ∈ names, slash ∉ c) :
    components (joinPath false names) = names := by
  rw [joinPath, if_neg Bool.false_ne_true, List.nil_append, components]
  exact List.splitOn_intercalate slash hslash hne

theorem isAbsolute_eq_false {path : List UInt8} (hpath : [] ∉ components path) :
    isAbsolute path = false := by
  cases path with
  | nil => rfl
  | cons b path =>
      by_contra habs
      have hb : b = slash := by simpa [isAbsolute] using habs
      refine hpath ?_
      rw [components, List.splitOn_cons_eq_if_modifyHead, if_pos (by simp [hb])]
      exact List.mem_cons_self

theorem normal_steps (type : FileType) (path : List UInt8) : normal (steps type path).1 = normal (components path) := by
  cases type with
  | dir => exact normal_rdropWhile _
  | _ => rfl

/-- What leads out on the way to a parent does so on the way to the entry. -/
theorem not_leaves_parent (hstays : Stays cwd d.tree name entry) (hne : names ≠ [])
    (hpre : names <+: (normal (components (utf8Bytes name))).dropLast) :
    isAbsolute (joinPath false names) = false ∧
      ¬ Leaves d.tree cwd false [] ((components (joinPath false names)).rdropWhile (· = [])) := by
  have hmem : ∀ c ∈ names, c ∈ components (utf8Bytes name) ∧ c ≠ [] ∧ c ≠ dot := by
    intro c hc
    have hplace := (List.dropLast_prefix _).subset (hpre.subset hc)
    rw [normal, List.mem_filter] at hplace
    exact ⟨hplace.1, of_decide_eq_true hplace.2⟩
  have hcomps : components (joinPath false names) = names :=
    components_joinPath hne fun c hc => slash_notMem_of_mem_components (hmem c hc).1
  have hnormal : normal names = names := by
    rw [normal, List.filter_eq_self]
    intro c hc
    exact decide_eq_true (hmem c hc).2
  refine ⟨isAbsolute_eq_false ?_, fun hleaves => hstays.beneath (hleaves.of_prefix ?_ ?_)⟩
  · rw [hcomps]
    exact fun hnil => (hmem [] hnil).2.1 rfl
  · rw [normal_rdropWhile, hcomps, hnormal, normal_steps]
    exact hpre.trans (List.dropLast_prefix _)
  · rw [normal_rdropWhile, hcomps, hnormal, normal_steps]
    rintro rfl
    have hlength := hpre.length_le
    have hpos := List.length_pos_of_ne_nil hne
    rw [List.length_dropLast] at hlength
    omega

theorem Stays.congr {tree tree' : Tree} (hstays : Stays cwd tree name entry) (hsame : SameLinks tree tree') :
    Stays cwd tree' name entry :=
  ⟨hstays.relative, fun hleaves => hstays.beneath (hleaves.congr hsame)⟩

def Kept (cwd : Location) (name : String) (entry : CpioEntry) (d : Disk) : Prop :=
  Stays cwd d.tree name entry ∧ Inside cwd d

theorem kept_mkdirParents {act : DiskAction} (hact : act ∈ mkdirParents cwd (utf8Bytes name))
    (hkept : Kept cwd name entry d) : Kept cwd name entry (act d).1 := by
  obtain ⟨hstays, hinside⟩ := hkept
  rw [mkdirParents, hstays.relative, List.mem_map] at hact
  obtain ⟨names, hnames, rfl⟩ := hact
  have hpre := (List.mem_inits _ _).1 (List.mem_of_mem_tail hnames)
  have hne : names ≠ [] := by
    rintro rfl
    cases hparent : (normal (components (utf8Bytes name))).dropLast with
    | nil =>
        rw [hparent] at hnames
        cases hnames
    | cons c cs =>
        rw [hparent, List.inits_cons, List.tail_cons, List.mem_map] at hnames
        obtain ⟨rest, -, hcons⟩ := hnames
        cases hcons
  obtain ⟨hrelative, hbeneath⟩ := not_leaves_parent hstays hne hpre
  refine mkdirAction_inv (fun d' hcall => ?_) ⟨hstays, hinside⟩
  exact ⟨hstays.congr (sameLinks_mkdir hcall), inside_mkdir hinside hrelative hbeneath hcall⟩

theorem inside_createAction (hstays : Stays cwd d.tree name entry) (hinside : Inside cwd d) :
    Inside cwd (createAction cwd (utf8Bytes name) entry d).1 := by
  obtain ⟨hrelative, hbeneath⟩ := hstays
  cases htype : fileType entry.mode with
  | dir =>
      simp only [createAction, htype]
      rw [htype] at hbeneath
      exact mkdirAction_inv (fun d' => inside_mkdir hinside hrelative hbeneath) hinside
  | reg =>
      simp only [createAction, htype]
      rw [htype] at hbeneath
      exact attempt_inv (fun d' => inside_create hinside hrelative hbeneath) hinside
  | lnk =>
      simp only [createAction, htype]
      rw [htype] at hbeneath
      split
      · exact attempt_inv (fun d' => inside_symlink hinside hrelative hbeneath) hinside
      · exact hinside
  | dev =>
      simp only [createAction, htype]
      rw [htype] at hbeneath
      split
      · exact attempt_inv (fun d' => inside_mknod hinside hrelative hbeneath) hinside
      · exact hinside
  | unknown =>
      simp only [createAction, htype]
      exact hinside

theorem inside_extractEntry (hstays : Stays cwd d.tree name entry) (hinside : Inside cwd d) :
    Inside cwd (extractEntry cwd name entry d).1 := by
  have hparents : Kept cwd name entry (runAll (mkdirParents cwd (utf8Bytes name)) d).1 :=
    runAll_inv (fun act hact d hd => kept_mkdirParents hact hd) ⟨hstays, hinside⟩
  rw [extractEntry, runAll_append]
  split
  · rename_i d' heq
    rw [heq] at hparents
    have hcreate := inside_createAction hparents.1 hparents.2
    rw [runAll]
    split
    · rename_i d'' heq'
      rwa [heq'] at hcreate
    · rename_i d'' heq'
      rwa [heq'] at hcreate
  · rename_i d' heq
    rw [heq] at hparents
    exact hparents.2

theorem inside_runAll {entries : List (String × CpioEntry)}
    (hstays : ∀ x ∈ reached cwd entries d, Stays cwd x.1.tree x.2.1 x.2.2) (hinside : Inside cwd d) :
    Inside cwd (runAll (entries.map fun e => extractEntry cwd e.1 e.2) d).1 := by
  induction entries generalizing d with
  | nil => exact hinside
  | cons e entries ih =>
      rw [reached, List.forall_mem_cons] at hstays
      have hstep := inside_extractEntry hstays.1 hinside
      rw [List.map_cons, runAll]
      rcases hrun : extractEntry cwd e.1 e.2 d with ⟨d', ok⟩
      rw [hrun] at hstays hstep
      cases ok with
      | true => exact ih hstays.2 hstep
      | false => exact hstep

end Entry

theorem dumpable_inward : Dumpable "a/x" emptyEntry :=
  ⟨by rw [NulFree]; decide, by decide, by decide, by decide, by decide, by decide, by decide, by decide⟩

theorem dumpable_upward : Dumpable "../x" emptyEntry :=
  ⟨by rw [NulFree]; decide, by decide, by decide, by decide, by decide, by decide, by decide, by decide⟩

def emptyTree : Tree := fun loc => if loc = [] ∨ loc = [[0x64]] then some .dir else none

theorem stays_inward : Stays [[0x64]] emptyTree "a/x" emptyEntry := by
  refine ⟨by rfl, not_leaves_of_names (fun loc target => ?_) (by decide)⟩
  rw [emptyTree]
  split <;> simp

theorem touched_upward :
    (extractEntry [[0x64]] "../x" emptyEntry ⟨emptyTree, []⟩).1.touched = [[[0x78]]] := by
  have hcomps : components (utf8Bytes "../x") = [dotdot, [0x78]] := by rfl
  have hparents : (normal [dotdot, [0x78]]).dropLast.inits.tail = [[dotdot]] := by rfl
  have hjoin : joinPath (isAbsolute (utf8Bytes "../x")) [dotdot] = dotdot := by rfl
  have hup : resolve emptyTree false [[0x64]] dotdot ((components dotdot).rdropWhile (· = [])) = some [] := by
    have hwalk : walk emptyTree false 40 [[0x64]] [dotdot] = some [] := by
      simp [walk, dotdot, dot]
    exact hwalk
  have hmkdir : mkdirAction [[0x64]] dotdot ⟨emptyTree, []⟩ = (⟨emptyTree, []⟩, true) := by
    rw [mkdirAction, Disk.mkdir, hup]
    rfl
  have hname : resolve emptyTree true [[0x64]] (utf8Bytes "../x") [dotdot, [0x78]] = some [[0x78]] := by
    have hwalk : walk emptyTree true 40 [[0x64]] [dotdot, [0x78]] = some [[0x78]] := by
      simp [walk, dotdot, dot, emptyTree]
    exact hwalk
  have hcreate : createAction [[0x64]] (utf8Bytes "../x") emptyEntry ⟨emptyTree, []⟩
      = (Disk.put ⟨emptyTree, []⟩ [[0x78]] (.file []), true) := by
    have htype : fileType emptyEntry.mode = .reg := by decide
    simp only [createAction, htype, attempt, Disk.create, hcomps, hname]
    rfl
  simp only [extractEntry, mkdirParents, hcomps, hparents, hjoin, List.map_cons, List.map_nil,
    List.cons_append, List.nil_append, runAll, hmkdir, hcreate]
  rfl

end MagiskNative.Cpio
