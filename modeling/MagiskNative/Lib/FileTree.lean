import Mathlib.Data.List.DropRight
import Mathlib.Tactic

/-!
# File trees and paths

A tree says what is at a location, which is the list of names on the way from the root. A path is
resolved one component after the other: `.` stays, `..` goes up, and a symbolic link is replaced by its
target. The calls that create something remember where they did.
-/

namespace FileTree

abbrev Name := List UInt8

abbrev Location := List Name

inductive Node where
  | dir
  | file (content : List UInt8)
  | link (target : List UInt8)
  | device
  deriving DecidableEq, Repr

inductive Errno where
  | eexist
  | other
  deriving DecidableEq, Repr

abbrev Tree := Location → Option Node

structure Disk where
  tree : Tree
  /-- what has been created or written to -/
  touched : List Location

def slash : UInt8 := 0x2f

def dot : Name := [0x2e]

def dotdot : Name := [0x2e, 0x2e]

def isAbsolute (path : List UInt8) : Bool := path.head? = some slash

def components (path : List UInt8) : List Name := path.splitOn slash

/-- The location that the components designate from `loc` on; the last one need not exist. At most
`links` symbolic links are followed, the last component only if asked to. -/
def walk (tree : Tree) (follow : Bool) (links : Nat) (loc : Location) : List Name → Option Location
  | [] => some loc
  | c :: rest =>
      if c = [] ∨ c = dot then walk tree follow links loc rest
      else if c = dotdot then walk tree follow links loc.dropLast rest
      else
        match tree (loc ++ [c]) with
        | some (.link target) =>
            if rest = [] ∧ follow = false then some (loc ++ [c])
            else
              match links with
              | 0 => none
              | links + 1 =>
                  walk tree follow links (if isAbsolute target then [] else loc)
                    (components target ++ rest)
        | some .dir => walk tree follow links (loc ++ [c]) rest
        | _ => if rest = [] then some (loc ++ [c]) else none
termination_by comps => (links, comps.length)

/-- No path of 4096 bytes is resolved, and none goes through more than 40 links. -/
def resolve (tree : Tree) (follow : Bool) (cwd : Location) (path : List UInt8) (comps : List Name) :
    Option Location :=
  if path = [] ∨ 4096 ≤ path.length then none
  else walk tree follow 40 (if isAbsolute path then [] else cwd) comps

namespace Disk

def put (d : Disk) (loc : Location) (node : Node) : Disk :=
  ⟨Function.update d.tree loc (some node), loc :: d.touched⟩

theorem tree_put (d : Disk) (loc : Location) (node : Node) :
    (d.put loc node).tree = Function.update d.tree loc (some node) := rfl

/-- A directory may be made with slashes behind its name. -/
def mkdir (cwd : Location) (path : List UInt8) (d : Disk) : Except Errno Disk :=
  match resolve d.tree false cwd path ((components path).rdropWhile (· = [])) with
  | none => .error .other
  | some loc => if (d.tree loc).isSome then .error .eexist else .ok (d.put loc .dir)

/-- `open` with `O_CREAT | O_TRUNC`, and one `write`. -/
def create (cwd : Location) (path content : List UInt8) (d : Disk) : Except Errno Disk :=
  match resolve d.tree true cwd path (components path) with
  | none => .error .other
  | some loc =>
      match d.tree loc with
      | some .dir => .error .other
      | some .device => .ok { d with touched := loc :: d.touched }
      | _ => .ok (d.put loc (.file content))

def symlink (cwd : Location) (target path : List UInt8) (d : Disk) : Except Errno Disk :=
  if target = [] then .error .other
  else
    match resolve d.tree false cwd path (components path) with
    | none => .error .other
    | some loc => if (d.tree loc).isSome then .error .eexist else .ok (d.put loc (.link target))

def mknod (cwd : Location) (path : List UInt8) (d : Disk) : Except Errno Disk :=
  match resolve d.tree false cwd path (components path) with
  | none => .error .other
  | some loc => if (d.tree loc).isSome then .error .eexist else .ok (d.put loc .device)

end Disk

theorem slash_notMem_of_mem_components {path : List UInt8} {name : Name}
    (hname : name ∈ components path) : slash ∉ name := by
  induction path generalizing name with
  | nil =>
      rw [components, List.splitOn_nil, List.mem_singleton] at hname
      rw [hname]
      exact List.not_mem_nil
  | cons b path ih =>
      rw [components, List.splitOn_cons_eq_if_modifyHead, ← components] at hname
      split at hname
      · rcases List.mem_cons.1 hname with rfl | hmem
        · exact List.not_mem_nil
        · exact ih hmem
      · rename_i hb
        obtain ⟨first, rest, hsplit⟩ := List.exists_cons_of_ne_nil (List.splitOn_ne_nil slash path)
        rw [components, hsplit, List.modifyHead_cons] at hname
        rcases List.mem_cons.1 hname with rfl | hmem
        · rw [List.mem_cons, not_or]
          refine ⟨fun h => hb (by simp [h]), ih ?_⟩
          rw [components, hsplit]
          exact List.mem_cons_self
        · apply ih
          rw [components, hsplit]
          exact List.mem_cons_of_mem _ hmem

def normal (comps : List Name) : List Name := comps.filter fun c => c ≠ [] ∧ c ≠ dot

def IsName (c : Name) : Prop := c ≠ [] ∧ c ≠ dot ∧ c ≠ dotdot

/-- The way along the components, from `names` below `cwd` on, goes up from `cwd` or through a link with an
absolute target. What does not exist yet counts as a directory. -/
inductive Leaves (tree : Tree) (cwd : Location) (follow : Bool) : List Name → List Name → Prop
  | out (rest : List Name) : Leaves tree cwd follow [] (dotdot :: rest)
  | root {names rest : List Name} {c : Name} {target : List UInt8} (hname : IsName c)
      (hlink : tree (cwd ++ names ++ [c]) = some (.link target)) (hfollow : rest = [] → follow = true)
      (habsolute : isAbsolute target) : Leaves tree cwd follow names (c :: rest)
  | skip {names rest : List Name} {c : Name} (hskip : c = [] ∨ c = dot)
      (hrest : Leaves tree cwd follow names rest) : Leaves tree cwd follow names (c :: rest)
  | up {names rest : List Name} (hrest : Leaves tree cwd follow names.dropLast rest) :
      Leaves tree cwd follow names (dotdot :: rest)
  | link {names rest : List Name} {c : Name} {target : List UInt8} (hname : IsName c)
      (hlink : tree (cwd ++ names ++ [c]) = some (.link target)) (hfollow : rest = [] → follow = true)
      (hrest : Leaves tree cwd follow names (components target ++ rest)) :
      Leaves tree cwd follow names (c :: rest)
  | enter {names rest : List Name} {c : Name} (hname : IsName c)
      (hlink : ∀ target, tree (cwd ++ names ++ [c]) ≠ some (.link target))
      (hrest : Leaves tree cwd follow (names ++ [c]) rest) : Leaves tree cwd follow names (c :: rest)

section

variable {tree tree' : Tree} {cwd loc : Location} {follow follow' : Bool} {names comps : List Name}
  {path : List UInt8} {d d' : Disk}

theorem walk_inside {links : Nat} (hstays : ¬ Leaves tree cwd follow names comps)
    (hwalk : walk tree follow links (cwd ++ names) comps = some loc) : cwd <+: loc := by
  -- the links bound how often the components get longer
  induction links using Nat.strong_induction_on generalizing names comps with
  | _ links ihlinks =>
      induction comps generalizing names with
      | nil =>
          rw [walk, Option.some.injEq] at hwalk
          rw [← hwalk]
          exact List.prefix_append _ _
      | cons c rest ih =>
          rw [walk] at hwalk
          split at hwalk
          · rename_i hskip
            exact ih (fun h => hstays (.skip hskip h)) hwalk
          rename_i hskip
          split at hwalk
          · rename_i hup
            subst hup
            by_cases hnil : names = []
            · subst hnil
              exact absurd (.out rest) hstays
            · rw [List.dropLast_append_of_ne_nil hnil] at hwalk
              exact ih (fun h => hstays (.up h)) hwalk
          rename_i hup
          have hname : IsName c := ⟨fun h => hskip (.inl h), fun h => hskip (.inr h), hup⟩
          split at hwalk
          · rename_i target hlink
            split at hwalk
            · rw [← Option.some.inj hwalk, List.append_assoc]
              exact List.prefix_append _ _
            · rename_i hlast
              have hfollow : rest = [] → follow = true := fun h => by simpa [h] using hlast
              split at hwalk
              · cases hwalk
              · rename_i links
                by_cases habsolute : isAbsolute target
                · exact absurd (.root hname hlink hfollow habsolute) hstays
                · rw [if_neg habsolute] at hwalk
                  exact ihlinks links (Nat.lt_succ_self links) (fun h => hstays (.link hname hlink hfollow h)) hwalk
          · rename_i hdir
            rw [List.append_assoc] at hwalk
            exact ih (fun h => hstays (.enter hname (fun target => by rw [hdir]; simp) h)) hwalk
          · split at hwalk
            · rw [← Option.some.inj hwalk, List.append_assoc]
              exact List.prefix_append _ _
            · cases hwalk

theorem normal_cons_skip {c : Name} {rest : List Name} (hskip : c = [] ∨ c = dot) :
    normal (c :: rest) = normal rest :=
  List.filter_cons_of_neg (by simpa [or_iff_not_imp_left] using hskip)

theorem normal_cons_name {c : Name} {rest : List Name} (hname : ¬ (c = [] ∨ c = dot)) :
    normal (c :: rest) = c :: normal rest :=
  List.filter_cons_of_pos (by simpa using hname)

theorem normal_append (comps comps' : List Name) : normal (comps ++ comps') = normal comps ++ normal comps' :=
  List.filter_append ..

/-- The first component that counts. -/
theorem leaves_of_normal_cons {c : Name} {rest : List Name} (hpre : c :: rest <+: normal comps)
    (hstrict : c :: rest ≠ normal comps)
    (hleaves : ∀ rest', rest <+: normal rest' → rest ≠ normal rest' → Leaves tree cwd follow names (c :: rest')) :
    Leaves tree cwd follow names comps := by
  induction comps with
  | nil => cases List.prefix_nil.1 hpre
  | cons c' comps ih =>
      by_cases hskip : c' = [] ∨ c' = dot
      · rw [normal_cons_skip hskip] at hpre hstrict
        exact .skip hskip (ih hpre hstrict)
      · rw [normal_cons_name hskip] at hpre hstrict
        obtain ⟨rfl, hrest⟩ := List.cons_prefix_cons.1 hpre
        exact hleaves comps hrest fun heq => hstrict (by rw [heq])

theorem Leaves.of_prefix {q : List Name} (hleaves : Leaves tree cwd follow' names q)
    (hpre : normal q <+: normal comps) (hstrict : normal q ≠ normal comps) :
    Leaves tree cwd follow names comps := by
  have hfollow : ∀ {q' rest' : List Name}, normal q' <+: normal rest' → normal q' ≠ normal rest' →
      rest' = [] → follow = true := by
    rintro q' rest' hpre hne rfl
    exact absurd (List.prefix_nil.1 hpre) hne
  induction hleaves generalizing comps with
  | out rest =>
      rw [normal_cons_name (by decide)] at hpre hstrict
      exact leaves_of_normal_cons hpre hstrict fun rest' _ _ => .out rest'
  | skip hskip _ ih =>
      rw [normal_cons_skip hskip] at hpre hstrict
      exact ih hpre hstrict
  | up _ ih =>
      rw [normal_cons_name (by decide)] at hpre hstrict
      exact leaves_of_normal_cons hpre hstrict fun rest' hrest hne => .up (ih hrest hne)
  | root hname hlink _ habsolute =>
      rw [normal_cons_name fun h => h.elim hname.1 hname.2.1] at hpre hstrict
      exact leaves_of_normal_cons hpre hstrict fun rest' hrest hne =>
        .root hname hlink (hfollow hrest hne) habsolute
  | link hname hlink _ _ ih =>
      rw [normal_cons_name fun h => h.elim hname.1 hname.2.1] at hpre hstrict
      refine leaves_of_normal_cons hpre hstrict fun rest' hrest hne => ?_
      refine .link hname hlink (hfollow hrest hne) (ih ?_ ?_)
      · rw [normal_append, normal_append]
        exact (List.prefix_append_right_inj _).2 hrest
      · rw [normal_append, normal_append]
        exact fun h => hne (List.append_cancel_left h)
  | enter hname hlink _ ih =>
      rw [normal_cons_name fun h => h.elim hname.1 hname.2.1] at hpre hstrict
      exact leaves_of_normal_cons hpre hstrict fun rest' hrest hne => .enter hname hlink (ih hrest hne)

theorem not_leaves_of_names (hlinks : ∀ loc target, tree loc ≠ some (.link target)) (hup : dotdot ∉ comps) :
    ¬ Leaves tree cwd follow names comps := by
  intro hleaves
  induction hleaves with
  | out rest => exact hup List.mem_cons_self
  | up _ _ => exact hup List.mem_cons_self
  | root _ hlink _ _ => exact hlinks _ _ hlink
  | link _ hlink _ _ _ => exact hlinks _ _ hlink
  | skip _ _ ih => exact ih fun hmem => hup (List.mem_cons_of_mem _ hmem)
  | enter _ _ _ ih => exact ih fun hmem => hup (List.mem_cons_of_mem _ hmem)

def SameLinks (tree tree' : Tree) : Prop :=
  ∀ loc target, tree' loc = some (.link target) ↔ tree loc = some (.link target)

theorem Leaves.congr (hleaves : Leaves tree' cwd follow names comps) (hsame : SameLinks tree tree') :
    Leaves tree cwd follow names comps := by
  induction hleaves with
  | out rest => exact .out rest
  | root hname hlink hfollow habsolute => exact .root hname ((hsame _ _).1 hlink) hfollow habsolute
  | skip hskip _ ih => exact .skip hskip ih
  | up _ ih => exact .up ih
  | link hname hlink hfollow _ ih => exact .link hname ((hsame _ _).1 hlink) hfollow ih
  | enter hname hlink _ ih => exact .enter hname (fun target h => hlink target ((hsame _ _).2 h)) ih

theorem normal_rdropWhile (comps : List Name) : normal (comps.rdropWhile (· = [])) = normal comps := by
  induction comps using List.reverseRecOn with
  | nil => rfl
  | append_singleton comps c ih =>
      by_cases hc : c = []
      · rw [List.rdropWhile_concat_pos _ _ _ (by simpa using hc), ih]
        simp [normal, hc]
      · rw [List.rdropWhile_concat_neg _ _ _ (by simpa using hc)]

theorem resolve_inside (hpath : isAbsolute path = false) (hstays : ¬ Leaves tree cwd follow [] comps)
    (hresolve : resolve tree follow cwd path comps = some loc) : cwd <+: loc := by
  rw [resolve] at hresolve
  split at hresolve
  · cases hresolve
  · rw [hpath, if_neg Bool.false_ne_true, ← List.append_nil cwd] at hresolve
    exact walk_inside hstays hresolve

def Inside (cwd : Location) (d : Disk) : Prop := ∀ loc ∈ d.touched, cwd <+: loc

theorem Inside.put (hinside : Inside cwd d) (hloc : cwd <+: loc) (node : Node) : Inside cwd (d.put loc node) :=
  List.forall_mem_cons.2 ⟨hloc, hinside⟩

theorem sameLinks_mkdir (hcall : Disk.mkdir cwd path d = .ok d') : SameLinks d.tree d'.tree := by
  rw [Disk.mkdir] at hcall
  split at hcall
  · cases hcall
  · rename_i loc hresolve
    split at hcall
    · cases hcall
    · rename_i hfree
      cases hcall
      intro other target
      rw [Disk.tree_put]
      by_cases hother : other = loc
      · subst hother
        rw [Function.update_self, Option.not_isSome_iff_eq_none.1 hfree]
        simp
      · rw [Function.update_of_ne hother]

theorem inside_mkdir (hinside : Inside cwd d) (hpath : isAbsolute path = false)
    (hstays : ¬ Leaves d.tree cwd false [] ((components path).rdropWhile (· = [])))
    (hcall : Disk.mkdir cwd path d = .ok d') : Inside cwd d' := by
  rw [Disk.mkdir] at hcall
  split at hcall
  · cases hcall
  · rename_i loc hresolve
    split at hcall
    · cases hcall
    · cases hcall
      exact hinside.put (resolve_inside hpath hstays hresolve) .dir

theorem inside_create {content : List UInt8} (hinside : Inside cwd d) (hpath : isAbsolute path = false)
    (hstays : ¬ Leaves d.tree cwd true [] (components path))
    (hcall : Disk.create cwd path content d = .ok d') : Inside cwd d' := by
  rw [Disk.create] at hcall
  split at hcall
  · cases hcall
  · rename_i loc hresolve
    have hloc := resolve_inside hpath hstays hresolve
    split at hcall
    · cases hcall
    · cases hcall
      exact List.forall_mem_cons.2 ⟨hloc, hinside⟩
    · cases hcall
      exact hinside.put hloc _

theorem inside_symlink {target : List UInt8} (hinside : Inside cwd d) (hpath : isAbsolute path = false)
    (hstays : ¬ Leaves d.tree cwd false [] (components path))
    (hcall : Disk.symlink cwd target path d = .ok d') : Inside cwd d' := by
  rw [Disk.symlink] at hcall
  split at hcall
  · cases hcall
  · split at hcall
    · cases hcall
    · rename_i loc hresolve
      split at hcall
      · cases hcall
      · cases hcall
        exact hinside.put (resolve_inside hpath hstays hresolve) _

theorem inside_mknod (hinside : Inside cwd d) (hpath : isAbsolute path = false)
    (hstays : ¬ Leaves d.tree cwd false [] (components path))
    (hcall : Disk.mknod cwd path d = .ok d') : Inside cwd d' := by
  rw [Disk.mknod] at hcall
  split at hcall
  · cases hcall
  · rename_i loc hresolve
    split at hcall
    · cases hcall
    · cases hcall
      exact hinside.put (resolve_inside hpath hstays hresolve) _

end

end FileTree
