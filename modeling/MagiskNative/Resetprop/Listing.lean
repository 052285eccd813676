import MagiskNative.Resetprop.Persist
import Mathlib.Data.List.AList

/-!
# Reading properties

`resetprop` reads one property with `get` and all of them with `print_all`. Both combine the system
properties with the persistent ones, in different orders.
-/

namespace MagiskNative.Resetprop

/-- The persistent properties: the protobuf file, or a directory with one file for each property. Of the
directory the names with whether they are regular files, and what reading a file in it gives. -/
inductive PropStore where
  | proto (file : List UInt8)
  | files (entries : Option (List (String × Bool))) (read : String → Option String)

structure SysProp where
  props : AList fun _ : String => String
  getContext : String → String

variable (lib : PropLib)

namespace PropStore

variable (store : PropStore)

def persistGetProp (key : String) : Option String :=
  match store with
  | proto file => Resetprop.persistGetProp lib file key
  | files _ read => read key

def pairOf : PersistentPropertyRecord → Option (String × String)
  | ⟨some name, some value⟩ => some (name, value)
  | _ => none

def pairs : List (String × String) :=
  match store with
  | proto file => ((protoReadProps lib file).getD []).filterMap pairOf
  | files entries read =>
      (entries.getD []).filterMap fun (name, isFile) =>
        if isFile then (read name).map fun value => (name, value) else none

def persistGetAllProps (map : AList fun _ : String => String) : AList fun _ : String => String :=
  (store.pairs lib).foldl (fun map (name, value) => map.insert name value) map

def listed (key : String) : Option String :=
  (Keyed.find (fun p => some p.1) (store.pairs lib).reverse key).map (·.2)

end PropStore

structure ResetProp where
  persist : Bool := false
  persistOnly : Bool := false
  context : Bool := false
  deriving DecidableEq, Repr

namespace ResetProp

variable (flags : ResetProp) (sys : SysProp) (store : PropStore)

def get (key : String) : Option String :=
  if flags.context then some (sys.getContext key)
  else
    let val := if !flags.persistOnly then sys.props.lookup key else none
    if val.isNone && (flags.persist || flags.persistOnly) && decide (Text.StartsWith key "persist.") then
      store.persistGetProp lib key
    else val

def collect : AList fun _ : String => String :=
  let map := if !flags.persistOnly then sys.props else ∅
  if flags.persist || flags.persistOnly then store.persistGetAllProps lib map else map

def printAll : List (String × String) :=
  (flags.collect lib sys store).entries.map fun e =>
    (e.1, if flags.context then sys.getContext e.1 else e.2)

def visible (key : String) : Option String := if flags.persistOnly then none else sys.props.lookup key

end ResetProp

variable {lib}

/-- The store has the value under the name. -/
def PropStore.Holds (lib : PropLib) (store : PropStore) (key val : String) : Prop :=
  match store with
  | proto file => ⟨some key, some val⟩ ∈ (lib.decode file).getD []
  | files entries read => (key, true) ∈ entries.getD [] ∧ read key = some val

/-- What is stored under a name is there once, or always the same: all records of the name, or the regular
file in the directory and nothing else that can be read by the name. -/
def PropStore.Alike (lib : PropLib) (store : PropStore) (key : String) : Prop :=
  match store with
  | proto file => ∀ val val', ⟨some key, val⟩ ∈ (lib.decode file).getD [] →
      ⟨some key, val'⟩ ∈ (lib.decode file).getD [] → val = val'
  | files entries read => (read key).isSome → (key, true) ∈ entries.getD []

theorem lookup_foldl_insert (pairs : List (String × String)) (map : AList fun _ : String => String)
    (key : String) :
    (pairs.foldl (fun map (name, value) => map.insert name value) map).lookup key
      = ((Keyed.find (fun p => some p.1) pairs.reverse key).map (·.2)).or (map.lookup key) := by
  induction pairs generalizing map with
  | nil => rfl
  | cons p pairs ih =>
      obtain ⟨name, value⟩ := p
      rw [List.foldl_cons, ih, List.reverse_cons, Keyed.find, Keyed.find, List.find?_append]
      by_cases hkey : key = name
      · subst hkey
        cases pairs.reverse.find? fun a => decide (some a.1 = some key) <;> simp
      · rw [AList.lookup_insert_ne hkey]
        cases pairs.reverse.find? fun a => decide (some a.1 = some key) <;> simp [Ne.symm hkey]

theorem lookup_collect (flags : ResetProp) (sys : SysProp) (store : PropStore) (key : String) :
    (flags.collect lib sys store).lookup key
      = if flags.persist || flags.persistOnly then
          (store.listed lib key).or (flags.visible sys key)
        else flags.visible sys key := by
  have hmap : (if !flags.persistOnly then sys.props else ∅).lookup key = flags.visible sys key := by
    rw [ResetProp.visible]
    cases flags.persistOnly <;> simp
  rw [ResetProp.collect]
  by_cases hpersist : (flags.persist || flags.persistOnly) = true
  · rw [if_pos hpersist, if_pos hpersist, PropStore.persistGetAllProps, lookup_foldl_insert, hmap,
      PropStore.listed]
  · rw [if_neg hpersist, if_neg hpersist, hmap]

open ResetProp

theorem mem_printAll {persist persistOnly : Bool} {sys : SysProp} {store : PropStore} {key val : String} :
    (key, val) ∈ printAll lib { persist, persistOnly } sys store ↔
      (collect lib { persist, persistOnly } sys store).lookup key = some val := by
  rw [← Option.mem_def, AList.mem_lookup_iff, printAll, List.mem_map]
  constructor
  · rintro ⟨⟨name, value⟩, he, hpair⟩
    cases hpair
    exact he
  · intro he
    exact ⟨⟨key, val⟩, he, rfl⟩

theorem get_eq (persist persistOnly : Bool) (sys : SysProp) (store : PropStore) (key : String) :
    get lib { persist, persistOnly } sys store key
      = (visible { persist, persistOnly } sys key).or
          (if (persist || persistOnly) = true ∧ Text.StartsWith key "persist." then
            store.persistGetProp lib key else none) := by
  have hval : (if !persistOnly then sys.props.lookup key else none)
      = visible { persist, persistOnly } sys key := by
    rw [visible]
    cases persistOnly <;> rfl
  simp only [ResetProp.get, hval, Bool.false_eq_true, if_false]
  cases visible { persist, persistOnly } sys key <;> simp

/-- What has to hold of the stored properties for them to be listed as they are read. -/
structure Agrees (lib : PropLib) (flags : ResetProp) (sys : SysProp) (store : PropStore) : Prop where
  /-- a stored property is one that can be asked for -/
  named : ∀ key val, store.Holds lib key val → (flags.visible sys key).isSome ∨ Text.StartsWith key "persist."
  /-- a stored property that the system has as well has the same value there -/
  same : ∀ key val val', store.Holds lib key val → flags.visible sys key = some val' → val = val'
  /-- the other stored properties have one value each -/
  alike : ∀ key, flags.visible sys key = none → Text.StartsWith key "persist." → store.Alike lib key

theorem or_eq_or_iff {listed visible found : Option String} {asked : Prop} [Decidable asked] :
    listed.or visible = visible.or (if asked then found else none) ↔
      (∀ val, listed = some val → visible.isSome ∨ asked) ∧
      (∀ val val', listed = some val → visible = some val' → val = val') ∧
      (visible = none → asked → found = listed) := by
  cases visible with
  | some val' => cases listed <;> simp
  | none =>
      by_cases hasked : asked
      · simp [hasked, eq_comm]
      · cases listed <;> simp [hasked]

section Listed

variable {store : PropStore} {key val : String} {file : List UInt8}

theorem mem_protoReadProps (file : List UInt8) (r : PersistentPropertyRecord) :
    r ∈ (protoReadProps lib file).getD [] ↔ r ∈ (lib.decode file).getD [] := by
  rw [protoReadProps]
  by_cases hnil : file = []
  · subst hnil
    rw [if_pos rfl, decode_nil]
    exact Iff.rfl
  · rw [if_neg hnil]
    cases lib.decode file with
    | none => exact Iff.rfl
    | some props => exact (lib.sort_perm props).mem_iff

theorem pairOf_eq_some {r : PersistentPropertyRecord} :
    PropStore.pairOf r = some (key, val) ↔ r = ⟨some key, some val⟩ := by
  obtain ⟨name, value⟩ := r
  cases name <;> cases value <;> simp [PropStore.pairOf]

theorem mem_pairs : (key, val) ∈ store.pairs lib ↔ store.Holds lib key val := by
  cases store with
  | proto file =>
      rw [PropStore.pairs, List.mem_filterMap, PropStore.Holds, ← mem_protoReadProps]
      simp only [pairOf_eq_some, exists_eq_right]
  | files entries read =>
      rw [PropStore.pairs, List.mem_filterMap, PropStore.Holds]
      constructor
      · rintro ⟨⟨name, isFile⟩, hmem, hread⟩
        cases isFile with
        | false => cases hread
        | true =>
            obtain ⟨value, hvalue, hpair⟩ := Option.map_eq_some_iff.1 hread
            cases hpair
            exact ⟨hmem, hvalue⟩
      · rintro ⟨hmem, hread⟩
        exact ⟨(key, true), hmem, by simp [hread]⟩

theorem holds_of_listed (hlisted : store.listed lib key = some val) : store.Holds lib key val := by
  obtain ⟨⟨name, value⟩, hfind, hvalue⟩ := Option.map_eq_some_iff.1 hlisted
  have hname := List.find?_some hfind
  have hmem := List.mem_reverse.1 (List.mem_of_find?_eq_some hfind)
  cases hvalue
  cases of_decide_eq_true hname
  exact mem_pairs.1 hmem

theorem listed_of_holds (hholds : store.Holds lib key val) : ∃ val', store.listed lib key = some val' := by
  have hmem := List.mem_reverse.2 (mem_pairs.2 hholds)
  rw [← Option.isSome_iff_exists, PropStore.listed, Option.isSome_map, Keyed.find, List.find?_isSome]
  exact ⟨_, hmem, decide_eq_true rfl⟩

theorem persistGetProp_of_name {props : List PersistentPropertyRecord} {r : PersistentPropertyRecord}
    (hread : protoReadProps lib file = some props) (hfind : lib.find props key = some r)
    (hname : r.name = some key) : (PropStore.proto file).persistGetProp lib key = r.value := by
  obtain ⟨name, value⟩ := r
  obtain rfl : name = some key := hname
  rw [PropStore.persistGetProp, Resetprop.persistGetProp, hread, Option.bind_eq_bind, Option.bind_some, hfind]
  cases value <;> rfl

theorem sorted_of_protoReadProps {props : List PersistentPropertyRecord}
    (hread : protoReadProps lib file = some props) : PersistentPropertyRecord.Sorted props := by
  rw [protoReadProps] at hread
  split at hread
  · cases hread
  · obtain ⟨records, -, rfl⟩ := Option.map_eq_some_iff.1 hread
    exact lib.sorted_sort records

theorem persistGetProp_of_alike (halike : store.Alike lib key) :
    store.persistGetProp lib key = store.listed lib key := by
  cases store with
  | files entries read =>
      change read key = _
      cases hread : read key with
      | none =>
          refine (Option.eq_none_iff_forall_ne_some.2 fun val hlisted => ?_).symm
          have hsome := (holds_of_listed hlisted).2
          rw [hread] at hsome
          cases hsome
      | some val =>
          have hholds : (PropStore.files entries read).Holds lib key val :=
            ⟨halike (by rw [hread]; rfl), hread⟩
          obtain ⟨val', hlisted⟩ := listed_of_holds hholds
          rw [hlisted, ← (holds_of_listed hlisted).2, hread]
  | proto file =>
      cases hread : protoReadProps lib file with
      | none =>
          have hpairs : (PropStore.proto file).pairs lib = [] := by rw [PropStore.pairs, hread]; rfl
          rw [PropStore.listed, hpairs, PropStore.persistGetProp, Resetprop.persistGetProp, hread]
          rfl
      | some props =>
          have hmem : ∀ r, r ∈ props ↔ r ∈ (lib.decode file).getD [] := by
            intro r
            rw [← mem_protoReadProps, hread]
            rfl
          have hholds : ∀ val, (PropStore.proto file).Holds lib key val ↔ ⟨some key, some val⟩ ∈ props :=
            fun val => (hmem _).symm
          cases hsearch : lib.search props key with
          | error i =>
              -- then there is nothing to list either
              have hfind : lib.find props key = none := by rw [PropLib.find, hsearch]
              have habsent := (lib.search_error (sorted_of_protoReadProps hread) hsearch).2
              have hnone : (PropStore.proto file).listed lib key = none :=
                Option.eq_none_iff_forall_ne_some.2 fun val hlisted =>
                  habsent _ ((hholds val).1 (holds_of_listed hlisted)) rfl
              rw [hnone, PropStore.persistGetProp, Resetprop.persistGetProp, hread, Option.bind_eq_bind,
                Option.bind_some, hfind]
              rfl
          | ok i =>
              obtain ⟨r, hr, hname⟩ := lib.search_ok (sorted_of_protoReadProps hread) hsearch
              have hfind : lib.find props key = some r := by rw [PropLib.find, hsearch]; exact hr
              obtain ⟨name, value⟩ := r
              obtain rfl : name = some key := hname
              have hrecord := (hmem _).1 (List.mem_of_getElem? hr)
              rw [persistGetProp_of_name hread hfind rfl]
              cases value with
              | none =>
                  refine (Option.eq_none_iff_forall_ne_some.2 fun val hlisted => ?_).symm
                  cases halike _ _ hrecord (holds_of_listed hlisted)
              | some value =>
                  have hheld : (PropStore.proto file).Holds lib key value := hrecord
                  obtain ⟨val, hlisted⟩ := listed_of_holds hheld
                  rw [hlisted, halike _ _ hrecord (holds_of_listed hlisted)]

/-! ### Other orders

The sort is not stable and the search may take any record of the name. -/

/-- Among records of one name, `last` comes last. -/
def PropLib.sortLast (lib : PropLib) (last : PersistentPropertyRecord) : PropLib where
  __ := lib
  sort props := props.insertionSort fun a b =>
    toLex (a.rank, decide (a = last)) ≤ toLex (b.rank, decide (b = last))
  sort_perm props := List.perm_insertionSort _ props
  sorted_sort props := by
    have hsorted := List.pairwise_insertionSort (fun a b : PersistentPropertyRecord =>
      toLex (a.rank, decide (a = last)) ≤ toLex (b.rank, decide (b = last))) props
    refine hsorted.imp fun {a b} hle => ?_
    rcases Prod.Lex.toLex_le_toLex.1 hle with hlt | ⟨heq, -⟩
    · exact hlt.le
    · exact heq.le

theorem listed_sortLast (hholds : (PropStore.proto file).Holds lib key val) :
    (PropStore.proto file).listed (lib.sortLast ⟨some key, some val⟩) key = some val := by
  generalize hlib : lib.sortLast ⟨some key, some val⟩ = lib'
  have hheld : (PropStore.proto file).Holds lib' key val := by
    rw [← hlib]
    exact hholds
  have hmem := mem_pairs.2 hheld
  have hlast : ((PropStore.proto file).pairs lib').Pairwise fun p q =>
      p = (key, val) → q.1 = key → q = (key, val) := by
    rw [PropStore.pairs, protoReadProps]
    by_cases hnil : file = []
    · rw [if_pos hnil]
      exact List.Pairwise.nil
    rw [if_neg hnil]
    cases lib'.decode file with
    | none => exact List.Pairwise.nil
    | some props =>
        have hsorted := List.pairwise_insertionSort (fun a b : PersistentPropertyRecord =>
          toLex (a.rank, decide (a = ⟨some key, some val⟩)) ≤ toLex (b.rank, decide (b = ⟨some key, some val⟩)))
          props
        rw [Option.map_some, Option.getD_some, ← hlib]
        refine List.Pairwise.filterMap _ (fun a b hle p hp q hq hpair hname => ?_) hsorted
        obtain ⟨name, value⟩ := q
        obtain rfl : name = key := hname
        rw [hpair] at hp
        obtain rfl := pairOf_eq_some.1 hp
        obtain rfl := pairOf_eq_some.1 hq
        rcases Prod.Lex.toLex_le_toLex.1 hle with hlt | ⟨-, hbool⟩
        · exact absurd hlt (lt_irrefl _)
        · have heq := of_decide_eq_true (hbool (decide_eq_true rfl))
          cases heq
          rfl
  obtain ⟨val', hlisted⟩ := listed_of_holds hheld
  obtain ⟨⟨name, value⟩, hfind, rfl⟩ := Option.map_eq_some_iff.1 hlisted
  rw [hlisted]
  obtain ⟨hname, before, after, hsplit, hbefore⟩ := List.find?_eq_some_iff_append.1 hfind
  obtain rfl : name = key := Option.some.inj (of_decide_eq_true hname)
  -- the pair is found from the end, so what is behind it has other names
  rw [List.reverse_eq_iff, List.reverse_append, List.reverse_cons, List.append_assoc] at hsplit
  rw [hsplit] at hlast hmem
  obtain ⟨-, -, hcross⟩ := List.pairwise_append.1 hlast
  rcases List.mem_append.1 hmem with hmem | hmem
  · have heq := hcross _ hmem _ (List.mem_cons_self) rfl rfl
    rw [Prod.mk.injEq] at heq
    rw [heq.2]
  · rcases List.mem_cons.1 hmem with heq | hmem
    · cases heq
      rfl
    · have hother := hbefore _ (List.mem_reverse.1 hmem)
      simp at hother

theorem listed_of_orders (hholds : store.Holds lib key val) :
    ∃ lib' : PropLib, lib'.decode = lib.decode ∧ store.listed lib' key = some val := by
  cases store with
  | proto file => exact ⟨lib.sortLast ⟨some key, some val⟩, rfl, listed_sortLast hholds⟩
  | files entries read =>
      obtain ⟨val', hlisted⟩ := listed_of_holds hholds
      have hread := (holds_of_listed hlisted).2
      rw [hholds.2] at hread
      exact ⟨lib, rfl, by rw [hlisted, hread]⟩

/-- In the list `props`, the search for the name of `r` finds `r`. -/
def PropLib.searchFor (lib : PropLib) (props : List PersistentPropertyRecord) (r : PersistentPropertyRecord)
    (hr : r ∈ props) : PropLib where
  __ := lib
  search props' name := if props' = props ∧ r.name = some name then .ok (props.idxOf r) else lib.search props' name
  search_ok := by
    intro props' name i hsorted hsearch
    split at hsearch
    · rename_i hsame
      cases hsearch
      have hlt := List.idxOf_lt_length_of_mem hr
      exact ⟨r, by rw [hsame.1, List.getElem?_eq_getElem hlt, List.getElem_idxOf hlt], hsame.2⟩
    · exact lib.search_ok hsorted hsearch
  search_error := by
    intro props' name i hsorted hsearch
    split at hsearch
    · cases hsearch
    · exact lib.search_error hsorted hsearch

theorem alike_of_orders (hfound : ∀ lib' : PropLib, lib'.decode = lib.decode →
    store.persistGetProp lib' key = store.listed lib' key) : store.Alike lib key := by
  cases store with
  | files entries read =>
      intro hsome
      obtain ⟨val, hval⟩ := Option.isSome_iff_exists.1 hsome
      have hlisted := (hfound lib rfl).symm.trans (show read key = some val from hval)
      exact (holds_of_listed hlisted).1
  | proto file =>
      have hvalue : ∀ value, ⟨some key, value⟩ ∈ (lib.decode file).getD [] →
          value = (PropStore.proto file).listed lib key := by
        intro value hmem
        rw [← mem_protoReadProps] at hmem
        cases hread : protoReadProps lib file with
        | none =>
            rw [hread] at hmem
            cases hmem
        | some props =>
            rw [hread, Option.getD_some] at hmem
            have hlt := List.idxOf_lt_length_of_mem hmem
            have hsearch : (lib.searchFor props _ hmem).search props key = .ok (props.idxOf ⟨some key, value⟩) :=
              if_pos ⟨rfl, rfl⟩
            have hfind : (lib.searchFor props _ hmem).find props key = some ⟨some key, value⟩ := by
              rw [PropLib.find, hsearch]
              exact (List.getElem?_eq_getElem hlt).trans (congrArg some (List.getElem_idxOf hlt))
            have hread' : protoReadProps (lib.searchFor props _ hmem) file = some props := hread
            exact (persistGetProp_of_name hread' hfind rfl).symm.trans (hfound (lib.searchFor props _ hmem) rfl)
      intro val val' hval hval'
      rw [hvalue val hval, hvalue val' hval']

end Listed

theorem Agrees.congr {lib' : PropLib} {flags : ResetProp} {sys : SysProp} {store : PropStore}
    (hagrees : Agrees lib flags sys store) (hdecode : lib'.decode = lib.decode) :
    Agrees lib' flags sys store := by
  have hholds : store.Holds lib' = store.Holds lib := by
    unfold PropStore.Holds
    rw [hdecode]
  have halike : store.Alike lib' = store.Alike lib := by
    unfold PropStore.Alike
    rw [hdecode]
  exact ⟨hholds ▸ hagrees.named, hholds ▸ hagrees.same, halike ▸ hagrees.alike⟩

theorem lookup_eq_get_iff (persist persistOnly : Bool) (sys : SysProp) (store : PropStore) :
    (∀ key val, (key, val) ∈ printAll lib { persist, persistOnly } sys store ↔
        get lib { persist, persistOnly } sys store key = some val) ↔
      ∀ key, (collect lib { persist, persistOnly } sys store).lookup key
        = get lib { persist, persistOnly } sys store key := by
  simp only [mem_printAll]
  exact forall_congr' fun key => Option.ext_iff.symm

/-- **Listing and reading.** Whatever record of a name the sort puts last and the search finds, what is
listed is what can be read, with the same values, exactly if no persistent properties are read or the
stored ones agree with each other and with the system. -/
theorem printAll_eq_get_iff (persist persistOnly : Bool) (sys : SysProp) (store : PropStore) :
    (∀ lib' : PropLib, lib'.decode = lib.decode →
      ∀ key val, (key, val) ∈ printAll lib' { persist, persistOnly } sys store ↔
        get lib' { persist, persistOnly } sys store key = some val) ↔
      ((persist || persistOnly) = true → Agrees lib { persist, persistOnly } sys store) := by
  simp only [lookup_eq_get_iff]
  by_cases hpersist : (persist || persistOnly) = true
  · simp only [lookup_collect, get_eq, hpersist, if_true, true_and, true_implies, or_eq_or_iff]
    constructor
    · intro h
      refine ⟨fun key val hholds => ?_, fun key val val' hholds hvisible => ?_, fun key hvisible hname => ?_⟩
      · obtain ⟨val', hlisted⟩ := listed_of_holds hholds
        exact (h lib rfl key).1 val' hlisted
      · obtain ⟨lib', hdecode, hlisted⟩ := listed_of_orders hholds
        exact (h lib' hdecode key).2.1 val val' hlisted hvisible
      · exact alike_of_orders fun lib' hdecode => (h lib' hdecode key).2.2 hvisible hname
    · intro hagrees lib' hdecode key
      have hagrees' := hagrees.congr hdecode
      exact ⟨fun val hlisted => hagrees'.named key val (holds_of_listed hlisted),
        fun val val' hlisted => hagrees'.same key val val' (holds_of_listed hlisted),
        fun hvisible hname => persistGetProp_of_alike (hagrees'.alike key hvisible hname)⟩
  · simp [lookup_collect, get_eq, hpersist]

def twoValues : SysProp where
  props := AList.singleton "persist.a" "0"
  getContext _ := ""

theorem pairs_oneProp (lib : PropLib) :
    (PropStore.proto (lib.encode oneProp)).pairs lib = [("persist.a", "1")] := by
  rw [PropStore.pairs, protoReadProps_oneProp]
  rfl

/-- The persistent value is listed, the value in the system is read. -/
theorem not_printAll_eq_get :
    ¬ ∀ key val,
      (key, val) ∈ printAll wireLib { persist := true } twoValues (.proto (wireLib.encode oneProp)) ↔
        get wireLib { persist := true } twoValues (.proto (wireLib.encode oneProp)) key
          = some val := by
  intro hall
  have hlisted := (hall "persist.a" "0").2 rfl
  rw [mem_printAll, lookup_collect, PropStore.listed, pairs_oneProp] at hlisted
  revert hlisted
  decide

end MagiskNative.Resetprop
