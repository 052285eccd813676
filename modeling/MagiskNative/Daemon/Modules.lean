import MagiskNative.Lib.Forest

/-!
# Mounting modules

`core/module.rs` gathers the files of all modules in one tree and mounts it over the partitions. A directory
stays in place, with mounts over single files in it, as long as all of them are there already; otherwise it
is rebuilt in a tmpfs. Attributes are left out, links lead out of the trees, and of the calls to the system
only bind mounts fail: of a directory over a file, the other way round, and of what does not exist.
-/

namespace MagiskNative.Daemon

variable {q path : List String}

inductive Kind where
  | dir
  | link (target : String)
  | whiteout
  | file (content : List UInt8)
  deriving DecidableEq, Repr

def Kind.isDir (k : Kind) : Bool := k = .dir

/-- The path `src` starts at the directory that `get_magisk_tmp` gives. -/
inductive FsNode where
  | directory
  | file (src : List String)
  | symlink (target : String)
  | magiskLink
  | whiteout
  deriving DecidableEq, Repr

namespace FsNode

open Forest

def isDir (node : FsNode) : Bool := node = .directory

def new (src : List String) : Kind → FsNode
  | .dir => directory
  | .link target => symlink target
  | .whiteout => whiteout
  | .file _ => file src

/-- `collect` for the children of a directory, from the entries of one at `src`. -/
def collect (src : List String) : Forest Kind → Forest FsNode → Forest FsNode
  | .nil, children => children
  | .entry name kind sub rest, children =>
      let (node, old) := (children.lookup name).getD (new (src ++ [name]) kind, .nil)
      -- in a node that is no directory nothing is collected
      let inner := if kind = .dir ∧ node = .directory then collect (src ++ [name]) sub old else old
      collect src rest (children.put name node inner)

/-- The entries of a directory, or of the one that a link leads to. -/
def entriesOf {α : Type} (found : Option (α × Forest α)) : Forest α := found.elim .nil Prod.snd

def moduleMnt : List String := [".magisk", "modules"]

/-- The entries that are collected from a module. -/
def systemOf (tmp : Forest Kind) (module : String) : Forest Kind :=
  let entries := entriesOf (tmp.find? (moduleMnt ++ [module]))
  if (entries.lookup "skip_mount").isSome then .nil else entriesOf (entries.lookup "system")

/-- The first step of `apply_modules`, which starts with no children. -/
def collectModules (tmp : Forest Kind) (modules : List String) (children : Forest FsNode) : Forest FsNode :=
  modules.foldl (fun system module => collect (moduleMnt ++ [module, "system"]) (systemOf tmp module) system)
    children

def parentShouldBeTmpfs (target : Option Kind) : FsNode → Bool
  | .directory | .file _ =>
      match target with
      | some (.link _) => true
      | some _ => false
      | none => true
  | _ => true

/-- What can be mounted over a file. -/
def fileAt (tmp : Forest Kind) (src : List String) : Option Kind :=
  ((tmp.find? src).map Prod.fst).filter (· ≠ .dir)

def replaceDir (children : Forest FsNode) : Option (List String) :=
  match children.lookup ".replace" with
  | some (.file src, _) => some src.dropLast
  | _ => none

/-- `commit_tmpfs` of a new directory. -/
def mirror : Forest Kind → Forest Kind
  | .nil => .nil
  | .entry name kind sub rest => .entry name kind (if kind = .dir then mirror sub else .nil) (mirror rest)

/-- The loop of `commit_tmpfs` over the real directory. The node `.replace` has been removed before. -/
def mirrored (children : Forest FsNode) (real : Forest Kind) : Forest Kind :=
  if (replaceDir children).isSome then .nil
  else mirror (real.retain fun name _ => name = ".replace" ∨ children.lookup name = none)

/-- What `commit_tmpfs` puts into the worker. Without a mount the empty file stays that was made for it. -/
def shown (tmp : Forest Kind) (name : String) : FsNode → Option Kind
  | .directory => some .dir
  | .file src => some ((fileAt tmp src).getD (.file []))
  | .symlink target => some (.link target)
  | .magiskLink => some (.link (if name = "supolicy" then "./magiskpolicy" else "./magisk"))
  | .whiteout => none

/-- The entry for a node, with what is below it if it is a directory. -/
def place (tmp : Forest Kind) (name : String) (node : FsNode) (entries : Forest Kind) :
    Option (Kind × Forest Kind) :=
  (node.shown tmp name).map fun kind => (kind, if node = .directory then entries else .nil)

/-- The loops of `commit_tmpfs` over the children, where `replace` is the directory of a file `.replace`. -/
def commitTmpfs (tmp : Forest Kind) : Forest FsNode → Forest Kind → Option (List String) → Forest Kind
  | .nil, _, _ => .nil
  | .entry name node sub rest, real, replace =>
      let others := commitTmpfs tmp rest real replace
      let entries := match replace with
        | some dir => entriesOf (tmp.find? (dir ++ [name]))
        | none =>
            let real := entriesOf (real.lookup name)
            (mirrored sub real).append (commitTmpfs tmp sub real (replaceDir sub))
      if name = ".replace" then others
      else (node.place tmp name entries).elim others fun e => .entry name e.1 e.2 others

def workerDir (tmp : Forest Kind) (children : Forest FsNode) (real : Forest Kind) : Forest Kind :=
  (mirrored children real).append (commitTmpfs tmp children real (replaceDir children))

def workerChild (tmp real : Forest Kind) (name : String) (sub : Forest FsNode) :
    Option (List String) → Forest Kind
  | some dir => entriesOf (tmp.find? (dir ++ [name]))
  | none => workerDir tmp sub (entriesOf (real.lookup name))

def isTmpfs (real : Forest Kind) : Forest FsNode → Bool
  | .nil => false
  | .entry name node _ rest =>
      name = ".replace" || node.parentShouldBeTmpfs ((real.lookup name).map Prod.fst) || isTmpfs real rest

/-- What is at a place of the device after `commit` of a node, which comes to `entries` if it is a directory. -/
def bindMount (tmp : Forest Kind) (node : FsNode) (entries : Forest Kind) (found : Kind × Forest Kind) :
    Kind × Forest Kind :=
  match node with
  | .directory => if found.1 = .dir then (.dir, entries) else found
  | .file src => if found.1 = .dir then found else (fileAt tmp src).elim found fun kind => (kind, .nil)
  | _ => found

/-- What a directory shows after the loop of `commit` over the children. -/
def commit (tmp : Forest Kind) : Forest FsNode → Forest Kind → Forest Kind
  | .nil, real => real
  | .entry name node sub rest, real =>
      let others := commit tmp rest real
      match real.lookup name with
      | none => others
      | some found =>
          let entries := if isTmpfs found.2 sub then workerDir tmp sub found.2 else commit tmp sub found.2
          let e := bindMount tmp node entries found
          others.put name e.1 e.2

def commitDir (tmp : Forest Kind) (children : Forest FsNode) (real : Forest Kind) : Forest Kind :=
  if isTmpfs real children then workerDir tmp children real else commit tmp children real

def supported (real : Forest Kind) (children : Forest FsNode) : Forest FsNode :=
  children.retain fun name node =>
    name ≠ ".replace" ∧ ¬ node.parentShouldBeTmpfs ((real.lookup name).map Prod.fst)

def commitRoot (tmp : Forest Kind) (children : Forest FsNode) (real : Forest Kind) : Forest Kind :=
  commit tmp (supported real children) real

/-- What a directory is to show: the nodes of the tree, and what the device has besides. In a directory that
is replaced there is nothing else, and its directories are those of the module that replaces it. -/
def overlay (tmp : Forest Kind) (children : Forest FsNode) (real : Forest Kind) : List String → Option Kind
  | [] => none
  | name :: path =>
      match if name = ".replace" then none else children.lookup name with
      | none => if (replaceDir children).isSome then none else real.at? Kind.isDir (name :: path)
      | some (node, sub) =>
          if path = [] then node.shown tmp name
          else if node = .directory then
            match replaceDir children with
            | some dir => (entriesOf (tmp.find? (dir ++ [name]))).at? Kind.isDir path
            | none => overlay tmp sub (entriesOf (real.lookup name)) path
          else none

/-- Every mount over a place of the device can succeed. -/
def Fits (tmp : Forest Kind) : Forest FsNode → Forest Kind → Prop
  | .nil, _ => True
  | .entry name node sub rest, real =>
      (match node, real.lookup name with
        | .directory, some (kind, old) => kind = .dir ∧ (isTmpfs old sub ∨ Fits tmp sub old)
        | .file src, some (kind, _) => kind ≠ .dir ∧ (fileAt tmp src).isSome
        | _, _ => True) ∧ Fits tmp rest real

section Collect

/-- What the first one that has a path has there: the children, or a module. -/
def firstNode (tmp : Forest Kind) (modules : List String) (children : Forest FsNode) (path : List String) :
    Option FsNode :=
  (children.at? isDir path).or (modules.findSome? fun module =>
    ((systemOf tmp module).at? Kind.isDir path).map (new (moduleMnt ++ [module, "system"] ++ path)))

/-- Both modules have `bin/x`. The first one has a new file in `etc` and replaces `app`. -/
def sampleTmp : Forest Kind :=
  let bin (content : List UInt8) : Forest Kind → Forest Kind :=
    .entry "bin" .dir (.entry "x" (.file content) .nil .nil)
  let first := bin [1] (.entry "etc" .dir (.entry "new" (.file [3]) .nil .nil)
    (.entry "app" .dir (.entry ".replace" (.file []) .nil .nil) .nil))
  let second := bin [2] .nil
  .entry ".magisk" .dir (.entry "modules" .dir (.entry "m" .dir (.entry "system" .dir first .nil)
    (.entry "n" .dir (.entry "system" .dir second .nil) .nil)) .nil) .nil

/-- No node on the way to a path is anything but a directory. -/
def Passable (nodeAt : List String → Option FsNode) (path : List String) : Prop :=
  ∀ q, q <+: path → q ≠ path → ∀ node, nodeAt q = some node → node = .directory

def collected (src : List String) (e : Kind × Forest Kind) (found : Option (FsNode × Forest FsNode)) :
    FsNode × Forest FsNode :=
  let (node, old) := found.getD (new src e.1, .nil)
  (node, if e.1 = .dir ∧ node = .directory then collect src e.2 old else old)

variable {dir : Forest Kind} {children : Forest FsNode} {path : List String}

theorem lookup_collect (hdistinct : dir.Distinct) (src : List String) (name : String) :
    (collect src dir children).lookup name
      = (dir.lookup name).elim (children.lookup name)
          fun e => some (collected (src ++ [name]) e (children.lookup name)) := by
  induction dir generalizing children with
  | nil => rfl
  | entry first kind sub rest _ ih =>
      rw [collect, ih hdistinct.2.2, lookup_put]
      by_cases hfirst : first = name
      · subst hfirst
        rw [hdistinct.1, if_pos rfl, lookup_entry_self]
        rfl
      · rw [lookup_entry_of_ne hfirst, if_neg hfirst]

theorem Passable.below {name : String} {node : FsNode} {sub : Forest FsNode} (hpath : path ≠ [])
    (hpass : Passable (children.at? isDir) (name :: path)) (hlookup : children.lookup name = some (node, sub)) :
    node = .directory ∧ Passable (sub.at? isDir) path := by
  have hnode : node = .directory := by
    refine hpass [name] (List.prefix_append [name] path) (by simpa using hpath.symm) node ?_
    simp [at?, hlookup]
  refine ⟨hnode, fun q hq hne n hn => ?_⟩
  refine hpass (name :: q) (List.cons_prefix_cons.2 ⟨rfl, hq⟩) (by simpa using hne) n ?_
  have hq : q ≠ [] := by
    rintro rfl
    cases hn
  simpa [at?, hlookup, hq, hnode, isDir] using hn

theorem passable_of_at? {node : FsNode} (hnode : children.at? isDir path = some node) :
    Passable (children.at? isDir) path := by
  rintro q ⟨r, rfl⟩ hne node' hnode'
  have hr : r ≠ [] := by
    rintro rfl
    exact hne (List.append_nil q).symm
  simpa [isDir] using isDir_of_at?_append hnode hr hnode'

theorem at?_collect (hdistinct : dir.Distinct) (src : List String)
    (hpass : Passable (children.at? isDir) path) :
    (collect src dir children).at? isDir path
      = (children.at? isDir path).or ((dir.at? Kind.isDir path).map (new (src ++ path))) := by
  induction path generalizing src dir children with
  | nil => rfl
  | cons name path ih =>
      rw [at?, at?, at?, lookup_collect hdistinct]
      cases hdir : dir.lookup name with
      | none => simp
      | some e =>
          obtain ⟨kind, sub⟩ := e
          have hsub := hdistinct.of_lookup hdir
          by_cases hpath : path = []
          · cases hlookup : children.lookup name <;> simp [collected, hpath]
          cases hlookup : children.lookup name with
          | none =>
              cases kind <;> simp [collected, hpath, new, isDir, Kind.isDir]
              rw [ih hsub (src ++ [name]) (by intro q _ _ n hn; rw [at?_nil] at hn; cases hn), at?_nil]
              simp
          | some found =>
              obtain ⟨node, old⟩ := found
              obtain ⟨rfl, hold⟩ := hpass.below hpath hlookup
              cases kind <;> simp [collected, hpath, isDir, Kind.isDir]
              rw [ih hsub (src ++ [name]) hold]
              simp

theorem distinct_systemOf {tmp : Forest Kind} (htmp : tmp.Distinct) (module : String) :
    (systemOf tmp module).Distinct := by
  have hfind : ∀ path, ∀ f : Forest Kind, f.Distinct → (entriesOf (f.find? path)).Distinct := by
    intro path f hf
    cases hfound : f.find? path with
    | none => trivial
    | some e => exact hf.of_find? hfound
  have hmodule := hfind (moduleMnt ++ [module]) tmp htmp
  unfold systemOf
  dsimp only
  split_ifs
  · trivial
  · exact hfind ["system"] _ hmodule

theorem Passable.of_prefix {f : List String → Option FsNode} (hf : Passable f path)
    (hq : q <+: path) : Passable f q :=
  fun r hr hne => hf r (hr.trans hq) fun h => hne (hr.eq_of_length_le (h ▸ hq.length_le))

theorem Passable.mono {f g : List String → Option FsNode} (hg : Passable g path)
    (hfg : ∀ q, q <+: path → ∀ node, f q = some node → g q = some node) : Passable f path :=
  fun q hq hne node hnode => hg q hq hne node (hfg q hq node hnode)

theorem firstNode_cons {tmp : Forest Kind} (htmp : tmp.Distinct) (module : String) (modules : List String)
    (hpass : Passable (children.at? isDir) path) :
    firstNode tmp modules (collect (moduleMnt ++ [module, "system"]) (systemOf tmp module) children) path
      = firstNode tmp (module :: modules) children path := by
  rw [firstNode, firstNode, at?_collect (distinct_systemOf htmp module) _ hpass, Option.or_assoc,
    List.findSome?_cons]
  cases Option.map (new _) ((systemOf tmp module).at? Kind.isDir path) <;> rfl

theorem firstNode_of_at? {tmp : Forest Kind} {modules : List String} {node : FsNode}
    (hnode : children.at? isDir path = some node) : firstNode tmp modules children path = some node := by
  rw [firstNode, hnode]
  rfl

/-- **Which module decides.** At a path there is what the first module with an entry there makes of it, if
what comes first on the way to it are directories. The induction is on the modules, over all trees that are
there before. -/
theorem at?_collectModules {tmp : Forest Kind} (htmp : tmp.Distinct) (modules : List String)
    (children : Forest FsNode) (path : List String) (node : FsNode) :
    (collectModules tmp modules children).at? isDir path = some node ↔
      firstNode tmp modules children path = some node ∧ Passable (firstNode tmp modules children) path := by
  induction modules generalizing children with
  | nil =>
      have hnone : firstNode tmp [] children = children.at? isDir := funext fun q => Option.or_none
      rw [hnone]
      exact ⟨fun hnode => ⟨hnode, passable_of_at? hnode⟩, And.left⟩
  | cons module modules ih =>
      refine (ih _).trans ?_
      by_cases hpass : Passable (children.at? isDir) path
      · have hsame := fun q (hq : q <+: path) => firstNode_cons htmp module modules (hpass.of_prefix hq)
        rw [hsame path List.prefix_rfl]
        refine and_congr_right fun _ => ⟨fun h => ?_, fun h => ?_⟩
        · exact h.mono fun q hq node hnode => (hsame q hq).trans hnode
        · exact h.mono fun q hq node hnode => (hsame q hq).symm.trans hnode
      · -- a file in the tree that is there before is in the way on both sides
        refine iff_of_false (fun h => hpass (h.2.mono ?_)) fun h => hpass (h.2.mono ?_)
        · intro q _ node hnode
          rw [firstNode_cons htmp module modules (passable_of_at? hnode)]
          exact firstNode_of_at? hnode
        · exact fun q _ node hnode => firstNode_of_at? hnode

theorem at?_collectModules_sample :
    sampleTmp.Distinct ∧ firstNode sampleTmp ["m", "n"] .nil ["bin", "x"]
      = some (.file (moduleMnt ++ ["m", "system", "bin", "x"])) := by
  have hdistinct : sampleTmp.Distinct := by simp [sampleTmp, Distinct, lookup]
  exact ⟨hdistinct, ((at?_collectModules hdistinct ["m", "n"] .nil ["bin", "x"] _).1 (by decide)).1⟩

end Collect

variable {tmp real : Forest Kind} {children : Forest FsNode} {name : String}

theorem lookup_mirror (real : Forest Kind) :
    (mirror real).lookup name
      = (real.lookup name).map fun e => (e.1, if e.1 = .dir then mirror e.2 else .nil) := by
  induction real with
  | nil => rfl
  | entry first kind sub rest _ ih =>
      rw [mirror, lookup, lookup, ih]
      by_cases hfirst : first = name
      · rw [if_pos hfirst, if_pos hfirst, Option.map_some]
      · rw [if_neg hfirst, if_neg hfirst]

theorem at?_mirror (real : Forest Kind) (path : List String) :
    (mirror real).at? Kind.isDir path = real.at? Kind.isDir path := by
  induction path generalizing real with
  | nil => rfl
  | cons name path ih =>
      rw [at?, at?, lookup_mirror]
      cases real.lookup name with
      | none => rfl
      | some e =>
          by_cases hdir : e.1 = .dir
          · simp [hdir, ih]
          · simp [hdir, Kind.isDir]

theorem commitTmpfs_entry {node : FsNode} {sub rest : Forest FsNode} {replace : Option (List String)} :
    commitTmpfs tmp (.entry name node sub rest) real replace
      = if name = ".replace" then commitTmpfs tmp rest real replace
        else (node.place tmp name (workerChild tmp real name sub replace)).elim
          (commitTmpfs tmp rest real replace)
          fun e => .entry name e.1 e.2 (commitTmpfs tmp rest real replace) := by
  cases replace <;> rfl

theorem lookup_commitTmpfs (hdistinct : children.Distinct) (replace : Option (List String)) :
    (commitTmpfs tmp children real replace).lookup name
      = (if name = ".replace" then none else children.lookup name).bind fun e =>
          e.1.place tmp name (workerChild tmp real name e.2 replace) := by
  induction children with
  | nil =>
      rw [lookup_nil, ite_self]
      rfl
  | entry first node sub rest _ ih =>
      have ih := ih hdistinct.2.2
      rw [commitTmpfs_entry]
      by_cases hfirst : first = name
      · subst hfirst
        rw [hdistinct.1, ite_self] at ih
        split_ifs
        · exact ih
        · rw [lookup_entry_self, Option.bind_some]
          cases node.place tmp first (workerChild tmp real first sub replace) with
          | none => exact ih
          | some e => exact lookup_entry_self
      · rw [lookup_entry_of_ne hfirst, ← ih]
        split_ifs
        · rfl
        · cases node.place tmp first (workerChild tmp real first sub replace) with
          | none => rfl
          | some e => exact lookup_entry_of_ne hfirst

theorem lookup_workerDir (hdistinct : children.Distinct) :
    (workerDir tmp children real).lookup name
      = (if name = ".replace" then none else children.lookup name).elim
          (if (replaceDir children).isSome then none else (mirror real).lookup name)
          fun e => e.1.place tmp name (workerChild tmp real name e.2 (replaceDir children)) := by
  have hmirrored : (mirrored children real).lookup name
      = if (replaceDir children).isSome then none
        else if name = ".replace" ∨ children.lookup name = none then (mirror real).lookup name else none := by
    rw [mirrored]
    split_ifs <;> simp_all [lookup_mirror, lookup_retain_name]
  rw [workerDir, lookup_append, lookup_commitTmpfs hdistinct, hmirrored]
  by_cases hreplace : name = ".replace"
  · simp [hreplace]
  · cases children.lookup name <;> simp [hreplace]

theorem bind_place {node : FsNode} {entries : Forest Kind} :
    ((node.place tmp name entries).bind fun e =>
        if path = [] then some e.1 else if e.1.isDir then e.2.at? Kind.isDir path else none)
      = if path = [] then node.shown tmp name
        else if node = .directory then entries.at? Kind.isDir path else none := by
  by_cases hpath : path = []
  · cases hshown : node.shown tmp name <;> simp [place, hpath, hshown]
  · cases node <;> simp [place, hpath, shown, Kind.isDir, at?_nil]

theorem at?_workerDir (hdistinct : children.Distinct) (path : List String) :
    (workerDir tmp children real).at? Kind.isDir path = overlay tmp children real path := by
  induction path generalizing children real with
  | nil => rfl
  | cons name path ih =>
      unfold at? overlay
      rw [lookup_workerDir hdistinct]
      cases hfound : if name = ".replace" then none else children.lookup name with
      | none =>
          by_cases hreplaced : (replaceDir children).isSome = true
          · rw [Option.elim_none, if_pos hreplaced]
            exact (if_pos hreplaced).symm
          · rw [Option.elim_none, if_neg hreplaced]
            exact (at?_mirror real (name :: path)).trans (if_neg hreplaced).symm
      | some e =>
          have hsub : e.2.Distinct := by
            split_ifs at hfound
            exact hdistinct.of_lookup hfound
          rw [Option.elim_some, bind_place]
          cases replaceDir children with
          | none => simp only [workerChild, ih hsub]
          | some dir => rfl

theorem cases_of_fits {node : FsNode} {sub : Forest FsNode} (htmpfs : isTmpfs real children = false)
    (hfits : Fits tmp children real) (hlookup : children.lookup name = some (node, sub)) :
    name ≠ ".replace" ∧
      ((node = .directory ∧ ∃ old, real.lookup name = some (.dir, old) ∧
          (isTmpfs old sub = true ∨ Fits tmp sub old)) ∨
        ∃ src kind old content, node = .file src ∧ real.lookup name = some (kind, old) ∧ kind ≠ .dir ∧
          fileAt tmp src = some content) := by
  induction children with
  | nil => cases hlookup
  | entry first node' sub' rest _ ih =>
      simp only [isTmpfs, Bool.or_eq_false_iff] at htmpfs
      by_cases hfirst : first = name
      · subst hfirst
        rw [lookup_entry_self] at hlookup
        cases hlookup
        refine ⟨by simpa using htmpfs.1.1, ?_⟩
        have hnode := htmpfs.1.2
        have hplace := hfits.1
        cases hreal : real.lookup first with
        | none => cases node <;> simp [hreal, parentShouldBeTmpfs] at hnode
        | some found =>
            obtain ⟨kind, old⟩ := found
            rw [hreal] at hplace
            cases node with
            | directory =>
                obtain ⟨rfl, hsub⟩ := hplace
                exact .inl ⟨rfl, old, rfl, hsub⟩
            | file src =>
                obtain ⟨content, hcontent⟩ := Option.isSome_iff_exists.1 hplace.2
                exact .inr ⟨src, kind, old, content, rfl, rfl, hplace.1, hcontent⟩
            | _ => cases hnode
      · rw [lookup_entry_of_ne hfirst] at hlookup
        exact ih htmpfs.2 hfits.2 hlookup

theorem lookup_commit :
    (commit tmp children real).lookup name
      = (real.lookup name).map fun found =>
          (children.lookup name).elim found fun e => bindMount tmp e.1 (commitDir tmp e.2 found.2) found := by
  induction children with
  | nil => exact Option.map_id.symm ▸ rfl
  | entry first node sub rest _ ih =>
      unfold commit
      by_cases hfirst : first = name
      · subst hfirst
        cases hreal : real.lookup first with
        | none => simpa [hreal] using ih
        | some found => simp [lookup_put, commitDir]
      · rw [lookup_entry_of_ne hfirst, ← ih]
        cases real.lookup first with
        | none => rfl
        | some found => simp [lookup_put, hfirst]

theorem lookup_replace_of_fits (htmpfs : isTmpfs real children = false) (hfits : Fits tmp children real) :
    children.lookup ".replace" = none := by
  cases hlookup : children.lookup ".replace" with
  | none => rfl
  | some e => exact absurd rfl (cases_of_fits htmpfs hfits hlookup).1

theorem at?_commit (hdistinct : children.Distinct) (htmpfs : isTmpfs real children = false)
    (hfits : Fits tmp children real) (path : List String) :
    (commit tmp children real).at? Kind.isDir path = overlay tmp children real path := by
  induction path generalizing children real with
  | nil => rfl
  | cons name path ih =>
      have hreplace := lookup_replace_of_fits htmpfs hfits
      have hfound : (if name = ".replace" then none else children.lookup name) = children.lookup name := by
        split_ifs with hname
        · rw [hname, hreplace]
        · rfl
      unfold at? overlay
      rw [lookup_commit, hfound, replaceDir, hreplace]
      cases hlookup : children.lookup name with
      | none => cases hreal : real.lookup name <;> simp [at?, hreal]
      | some e =>
          have hsub := hdistinct.of_lookup hlookup
          rcases (cases_of_fits htmpfs hfits hlookup).2 with ⟨hnode, old, hreal, hfits⟩ |
            ⟨src, kind, old, content, hnode, hreal, hkind, hcontent⟩
          · have hdir : (commitDir tmp e.2 old).at? Kind.isDir path = overlay tmp e.2 old path := by
              rw [commitDir]
              split_ifs with hrebuilt
              · exact at?_workerDir hsub path
              · exact ih hsub (Bool.eq_false_iff.2 hrebuilt) (hfits.resolve_left hrebuilt)
            simp [hnode, hreal, bindMount, shown, Kind.isDir, entriesOf, hdir]
          · simp [hnode, hreal, hkind, hcontent, bindMount, shown, at?_nil]

theorem isTmpfs_supported (real : Forest Kind) (children : Forest FsNode) :
    isTmpfs real (supported real children) = false := by
  unfold supported
  induction children with
  | nil => rfl
  | entry first node sub rest _ ih =>
      unfold retain
      split_ifs with hkeep
      · simp_all [isTmpfs]
      · exact ih

/-- **What a partition shows.** -/
theorem at?_commitRoot (hdistinct : children.Distinct) (hfits : Fits tmp (supported real children) real)
    (path : List String) :
    (commitRoot tmp children real).at? Kind.isDir path
      = overlay tmp (supported real children) real path :=
  at?_commit hdistinct.retain (isTmpfs_supported real children) hfits path

def sampleTree : Forest FsNode := collectModules sampleTmp ["m", "n"] .nil

def sampleReal : Forest Kind :=
  .entry "bin" .dir (.entry "x" (.file []) .nil .nil)
    (.entry "etc" .dir (.entry "old" (.file [5]) .nil .nil)
      (.entry "app" .dir (.entry "gone" (.file []) .nil .nil) .nil))

theorem fits_sample :
    sampleTree.Distinct ∧ Fits sampleTmp (supported sampleReal sampleTree) sampleReal :=
  ⟨⟨rfl, ⟨rfl, trivial, trivial⟩, rfl, ⟨rfl, trivial, trivial⟩, rfl, ⟨rfl, trivial, trivial⟩, trivial⟩,
    ⟨rfl, .inr ⟨⟨by decide, rfl⟩, trivial⟩⟩, ⟨rfl, .inl rfl⟩, ⟨rfl, .inl rfl⟩, trivial⟩

theorem at?_commitRoot_sample :
    (commitRoot sampleTmp sampleTree sampleReal).at? Kind.isDir ["bin", "x"] = some (.file [1]) ∧
    (commitRoot sampleTmp sampleTree sampleReal).at? Kind.isDir ["etc", "new"] = some (.file [3]) ∧
    (commitRoot sampleTmp sampleTree sampleReal).at? Kind.isDir ["app", "gone"] = none := by
  simp only [at?_commitRoot fits_sample.1 fits_sample.2]
  decide

/-- No directory on the way to the path is replaced. -/
def Kept (children : Forest FsNode) (path : List String) : Prop :=
  ∀ q, q <+: path → q ≠ path → children.at? isDir (q ++ [".replace"]) = none

theorem Kept.lookup_replace (hkept : Kept children (name :: path)) :
    children.lookup ".replace" = none := by
  have hfirst := hkept [] List.nil_prefix (List.cons_ne_nil name path).symm
  cases hlookup : children.lookup ".replace" with
  | none => rfl
  | some e => simp [at?, hlookup] at hfirst

theorem at?_below {sub : Forest FsNode} (hlookup : children.lookup name = some (.directory, sub))
    (hq : q ≠ []) : children.at? isDir (name :: q) = sub.at? isDir q := by
  simp [at?, hlookup, hq, isDir]

theorem Kept.below {sub : Forest FsNode} (hkept : Kept children (name :: path))
    (hlookup : children.lookup name = some (.directory, sub)) : Kept sub path := by
  intro q hq hne
  rw [← at?_below hlookup (by simp)]
  exact hkept (name :: q) (List.cons_prefix_cons.2 ⟨rfl, hq⟩) (by simpa using hne)

theorem overlay_cons (hkept : Kept children (name :: path)) :
    overlay tmp children real (name :: path)
      = (children.lookup name).elim (real.at? Kind.isDir (name :: path)) fun e =>
          if path = [] then e.1.shown tmp name
          else if e.1 = .directory then overlay tmp e.2 (entriesOf (real.lookup name)) path else none := by
  have hreplace := hkept.lookup_replace
  rw [overlay, replaceDir, hreplace]
  by_cases hname : name = ".replace"
  · simp [hname, hreplace]
  · cases children.lookup name <;> simp [hname]

/-- The tree has no node at the path, and on the way to it only directories that are not replaced. -/
structure Spares (children : Forest FsNode) (path : List String) : Prop where
  free : children.at? isDir path = none
  passable : Passable (children.at? isDir) path
  kept : Kept children path

theorem Spares.below {name : String} {node : FsNode} {sub : Forest FsNode}
    (hspares : Spares children (name :: path)) (hlookup : children.lookup name = some (node, sub)) :
    path ≠ [] ∧ node = .directory ∧ Spares sub path := by
  have hpath : path ≠ [] := by
    rintro rfl
    simpa [at?, hlookup] using hspares.free
  obtain ⟨rfl, hpass⟩ := hspares.passable.below hpath hlookup
  exact ⟨hpath, rfl, at?_below hlookup hpath ▸ hspares.free, hpass, hspares.kept.below hlookup⟩

theorem overlay_of_spares {kind : Kind} (hspares : Spares children path)
    (hreal : real.at? Kind.isDir path = some kind) : overlay tmp children real path = some kind := by
  induction path generalizing children real with
  | nil => cases hreal
  | cons name path ih =>
      rw [overlay_cons hspares.kept]
      cases hlookup : children.lookup name with
      | none => exact hreal
      | some e =>
          obtain ⟨node, sub⟩ := e
          obtain ⟨hpath, rfl, hsub⟩ := hspares.below hlookup
          have hold : (entriesOf (real.lookup name)).at? Kind.isDir path = some kind := by
            unfold at? at hreal
            cases hfound : real.lookup name <;> simp_all [entriesOf]
          simpa [hpath] using ih hsub hold

theorem overlay_of_at? {node : FsNode} (hkept : Kept children path)
    (hnode : children.at? isDir path = some node) (hlast : path.getLast? = some name) :
    overlay tmp children real path = node.shown tmp name := by
  induction path generalizing children real with
  | nil => cases hnode
  | cons first path ih =>
      rw [overlay_cons hkept]
      rw [at?] at hnode
      cases hlookup : children.lookup first with
      | none => simp [hlookup] at hnode
      | some e =>
          obtain ⟨node', sub⟩ := e
          by_cases hpath : path = []
          · simp_all
          · rw [List.getLast?_cons_of_ne_nil hpath] at hlast
            by_cases hdir : node' = .directory
            · subst hdir
              have hnode : sub.at? isDir path = some node := by simpa [hlookup, hpath, isDir] using hnode
              simpa [hpath] using ih (hkept.below hlookup) hnode hlast
            · simp [hlookup, hpath, isDir, hdir] at hnode

/-- **Files of modules.** A node of the tree is shown, unless a directory on the way to it is replaced. -/
theorem at?_commitRoot_of_node {node : FsNode} (hdistinct : children.Distinct)
    (hfits : Fits tmp (supported real children) real) (hkept : Kept (supported real children) path)
    (hnode : (supported real children).at? isDir path = some node) (hlast : path.getLast? = some name) :
    (commitRoot tmp children real).at? Kind.isDir path = node.shown tmp name :=
  (at?_commit hdistinct.retain (isTmpfs_supported real children) hfits path).trans
    (overlay_of_at? hkept hnode hlast)

theorem eq_of_prefix {a b : String} (hq : q <+: [a, b]) (hne : q ≠ [a, b]) :
    q = [] ∨ q = [a] := by
  simp only [List.prefix_cons_iff, List.prefix_nil] at hq
  rcases hq with rfl | ⟨q, rfl, rfl | ⟨q, rfl, rfl⟩⟩
  · exact .inl rfl
  · exact .inr rfl
  · exact absurd rfl hne

theorem kept_sample (b : String) : Kept (supported sampleReal sampleTree) ["etc", b] := by
  intro q hq hne
  rcases eq_of_prefix hq hne with rfl | rfl <;> decide

theorem at?_commitRoot_of_node_sample :
    (commitRoot sampleTmp sampleTree sampleReal).at? Kind.isDir ["etc", "new"] = some (.file [3]) :=
  (at?_commitRoot_of_node fits_sample.1 fits_sample.2 (kept_sample "new") rfl rfl).trans (by decide)

theorem at?_commit_of_spares {kind : Kind} (hdistinct : children.Distinct)
    (hspares : Spares children path) (hreal : real.at? Kind.isDir path = some kind) :
    (commit tmp children real).at? Kind.isDir path = some kind := by
  induction path generalizing children real with
  | nil => cases hreal
  | cons name path ih =>
      unfold at? at hreal ⊢
      rw [lookup_commit]
      cases hlookup : children.lookup name with
      | none => cases hfound : real.lookup name <;> simp_all
      | some e =>
          obtain ⟨node, sub⟩ := e
          obtain ⟨hpath, rfl, hsub⟩ := hspares.below hlookup
          obtain ⟨⟨kind', old⟩, hfound, hbelow⟩ := Option.bind_eq_some_iff.1 hreal
          rw [if_neg hpath] at hbelow
          split_ifs at hbelow with hdir
          have hshown : (commitDir tmp sub old).at? Kind.isDir path = some kind := by
            rw [commitDir]
            split_ifs
            · exact (at?_workerDir (hdistinct.of_lookup hlookup) path).trans (overlay_of_spares hsub hbelow)
            · exact ih (hdistinct.of_lookup hlookup) hsub hbelow
          have hkind : kind' = .dir := of_decide_eq_true hdir
          simp [hfound, hkind, bindMount, hpath, Kind.isDir, hshown]

end FsNode

end MagiskNative.Daemon
