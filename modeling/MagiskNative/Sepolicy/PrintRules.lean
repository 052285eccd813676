import MagiskNative.Sepolicy.FilenameTrans
import MagiskNative.Sepolicy.Print
import MagiskNative.Sepolicy.Rule

/-!
# Printing a whole policy

`print_rules` writes the attributes, the types, the nodes of the access vector table, the filename
transitions and the contexts of file systems, a line each. A type is written only as the beginning of the
list of its attributes, and of the data under one key of the filename transitions only the first is read.
-/

namespace MagiskNative.Sepolicy

open Text

variable {name : String} {key : FilenameTransKey}

/-- An array from values to names. The names are keys of a hash table, so no two values share one. -/
structure NameTable where
  name : UInt32 → Option String
  unique : ∀ {v w : UInt32} {n : String}, name v = some n → name w = some n → v = w

structure PrintDb where
  trans : FilenameTransDb
  typeNames : NameTable
  classNames : NameTable
  typeStruct : UInt32 → TypeDatum
  classStruct : UInt32 → Option ClassDatum
  typeAttrMap : UInt32 → Finset UInt32
  permissiveMap : Finset UInt32
  tables : PolicyDb.PermTables
  /-- the paths of each file system with their contexts, if these can be written -/
  genfs : List (List UInt8 × List (List UInt8 × Option (List UInt8)))

inductive Line where
  | attribute (name : String)
  | type (name : String) (attrs : List String)
  | permissive (name : String)
  | av (word src tgt cls : String) (perms : List (List UInt8))
  | typeRule (word src tgt cls default : String)
  | xperms (effect : XpermsEffect) (src tgt cls : String) (items : List XpermItem)
  | filenameTrans (src tgt cls default : String) (name : List UInt8)
  | genfscon (fsName path context : List UInt8)
  deriving DecidableEq, Repr

def spaced (words : List (List UInt8)) : List UInt8 := [0x20].intercalate words

def Line.text : Line → List UInt8
  | .attribute name => spaced [utf8Bytes "attribute", utf8Bytes name] ++ [0x0a]
  | type name attrs =>
      spaced ([utf8Bytes "type", utf8Bytes name, utf8Bytes "\x7b"] ++ attrs.map utf8Bytes ++ [utf8Bytes "\x7d"])
        ++ [0x0a]
  | permissive name => spaced [utf8Bytes "permissive", utf8Bytes name] ++ [0x0a]
  | av word src tgt cls perms =>
      spaced ([word, src, tgt, cls, "\x7b"].map utf8Bytes ++ perms ++ [utf8Bytes "\x7d"]) ++ [0x0a]
  | typeRule word src tgt cls default => spaced ([word, src, tgt, cls, default].map utf8Bytes) ++ [0x0a]
  | xperms effect src tgt cls items =>
      utf8Bytes (String.ofList (xpermsText effect src tgt cls items ++ ['\n']))
  | filenameTrans src tgt cls default name =>
      spaced (["type_transition", src, tgt, cls, default].map utf8Bytes ++ [name]) ++ [0x0a]
  | genfscon fsName path context => spaced [utf8Bytes "genfscon", fsName, path, context] ++ [0x0a]

namespace PrintDb

def bits (bitmap : Finset UInt32) : List UInt32 := bitmap.sort (· ≤ ·)

def attrNames (db : PrintDb) (type : TypeDatum) : List String :=
  (bits (db.typeAttrMap type.value)).filterMap fun i =>
    if (db.typeStruct i).flavor = .attrib then db.typeNames.name i else none

def printType (db : PrintDb) (type : TypeDatum) : List Line :=
  match db.typeNames.name type.value with
  | none => []
  | some name =>
      (match type.flavor with
        | .attrib => [.attribute name]
        -- the line is begun with the first attribute
        | .type => if db.attrNames type = [] then [] else [.type name (db.attrNames type)]
        | .alias => []) ++
      if type.value ∈ db.permissiveMap then [.permissive name] else []

/-- The name of a permission by its bit: the last one that is entered for it. -/
def permName (db : PrintDb) (cls : ClassDatum) (i : Nat) : Option (List UInt8) :=
  ((db.tables.own cls ++ db.tables.common cls).reverse.find? fun entry =>
    (entry.2.value - 1).toNat = i).map Prod.fst

def permNames (db : PrintDb) (cls : ClassDatum) (data : UInt32) : List (List UInt8) :=
  (List.range 32).filterMap fun i => if data.toBitVec.getLsbD i then db.permName cls i else none

def printRule (db : PrintDb) (key : AvtabKey RuleEffect) (data : UInt32) (src tgt cls : String) : List Line :=
  let av := fun word data =>
    match db.classStruct key.targetClass.toUInt32 with
    | none => []
    | some clz =>
        if db.permNames clz data = [] then [] else [Line.av word src tgt cls (db.permNames clz data)]
  let typeRule := fun word =>
    match db.typeNames.name data with
    | none => []
    | some default => [Line.typeRule word src tgt cls default]
  match key.specified with
  | .allowed => av "allow" data
  | .auditAllow => av "auditallow" data
  -- invert the rules for dontaudit
  | .auditDeny => av "dontaudit" (~~~data)
  | .transition => typeRule "type_transition"
  | .member => typeRule "type_member"
  | .change => typeRule "type_change"

def withNames {Effect : Type} (db : PrintDb) (key : AvtabKey Effect)
    (lines : String → String → String → List Line) : List Line :=
  match db.typeNames.name key.sourceType.toUInt32, db.typeNames.name key.targetType.toUInt32,
      db.classNames.name key.targetClass.toUInt32 with
  | some src, some tgt, some cls => lines src tgt cls
  | _, _, _ => []

def printAvtab (db : PrintDb) : AvtabNode → List Line
  | .rule key data => db.withNames key (db.printRule key data)
  | .xperms key datum => db.withNames key fun src tgt cls =>
      if datum.items = [] then [] else [.xperms key.specified src tgt cls datum.items]

def printFilenameTrans (db : PrintDb) (key : FilenameTransKey) (chain : List FilenameTransDatum) :
    List Line :=
  match chain with
  | [] => []
  -- the data behind the first one are not looked at
  | trans :: _ =>
      match db.typeNames.name key.ttype, db.classNames.name key.tclass, db.typeNames.name trans.otype with
      | some tgt, some cls, some default =>
          (bits trans.stypes).filterMap fun i =>
            (db.typeNames.name i).map fun src => .filenameTrans src tgt cls default key.name
      | _, _, _ => []

def printGenfs (fs : List UInt8 × List (List UInt8 × Option (List UInt8))) : List Line :=
  fs.2.filterMap fun entry => entry.2.map fun context => .genfscon fs.1 entry.1 context

def lines (db : PrintDb) : List Line :=
  let types := db.trans.policy.types.map Prod.snd
  (types.filter fun type => type.flavor = .attrib).flatMap db.printType ++
    ((types.filter fun type => type.flavor = .type).flatMap db.printType ++
      (db.trans.policy.teAvtab.entries.flatMap db.printAvtab ++
        (db.trans.filenameTrans.entries.flatMap (fun entry => db.printFilenameTrans entry.1 entry.2) ++
          db.genfs.flatMap printGenfs)))

def printRules (db : PrintDb) : List UInt8 := db.lines.flatMap Line.text

section Lines

variable {db : PrintDb}

theorem mem_bits {bitmap : Finset UInt32} {i : UInt32} : i ∈ bits bitmap ↔ i ∈ bitmap :=
  Finset.mem_sort _

variable {type : TypeDatum}

theorem mem_attrNames {attr : String} :
    attr ∈ db.attrNames type ↔ ∃ i ∈ db.typeAttrMap type.value, (db.typeStruct i).flavor = .attrib ∧
      db.typeNames.name i = some attr := by
  simp only [attrNames, List.mem_filterMap, mem_bits, Option.ite_none_right_eq_some]

theorem type_mem_printType {attrs : List String} :
    Line.type name attrs ∈ db.printType type ↔ type.flavor = .type ∧
      db.typeNames.name type.value = some name ∧ attrs = db.attrNames type ∧ attrs ≠ [] := by
  unfold printType
  cases hname : db.typeNames.name type.value with
  | none => simp
  | some name' =>
      have hperm : Line.type name attrs ∉ if type.value ∈ db.permissiveMap then [Line.permissive name']
          else [] := by
        split <;> simp
      simp only [List.mem_append, hperm, or_false, Option.some.injEq]
      cases type.flavor with
      | attrib => simp
      | «alias» => simp
      | type =>
          by_cases hnil : db.attrNames type = []
          · rw [if_pos hnil]
            simp only [List.not_mem_nil, true_and, false_iff, not_and, hnil]
            rintro - rfl
            simp
          · rw [if_neg hnil, List.mem_singleton, Line.type.injEq]
            constructor
            · rintro ⟨rfl, rfl⟩
              exact ⟨rfl, rfl, rfl, hnil⟩
            · rintro ⟨-, rfl, rfl, -⟩
              exact ⟨rfl, rfl⟩

theorem attribute_mem_printType (hflavor : type.flavor = .attrib)
    (hname : db.typeNames.name type.value = some name) : Line.attribute name ∈ db.printType type := by
  rw [printType, hname, hflavor]
  exact List.mem_append_left _ List.mem_cons_self

theorem filenameTrans_mem_print {chain : List FilenameTransDatum}
    {src tgt cls default : String} {name : List UInt8} :
    Line.filenameTrans src tgt cls default name ∈ db.printFilenameTrans key chain ↔
      name = key.name ∧ db.typeNames.name key.ttype = some tgt ∧ db.classNames.name key.tclass = some cls ∧
        ∃ trans ∈ chain.head?, db.typeNames.name trans.otype = some default ∧
          ∃ i ∈ trans.stypes, db.typeNames.name i = some src := by
  unfold printFilenameTrans
  cases chain with
  | nil => simp
  | cons trans chain =>
      simp only [List.head?_cons, Option.mem_def, Option.some.injEq, exists_eq_left']
      cases db.typeNames.name key.ttype with
      | none => simp
      | some tgt' =>
          cases db.classNames.name key.tclass with
          | none => simp
          | some cls' =>
              cases db.typeNames.name trans.otype with
              | none => simp
              | some default' =>
                  simp only [List.mem_filterMap, mem_bits, Option.map_eq_some_iff, Line.filenameTrans.injEq,
                    Option.some.injEq]
                  constructor
                  · rintro ⟨i, hi, src', hsrc, rfl, rfl, rfl, rfl, rfl⟩
                    exact ⟨rfl, rfl, rfl, rfl, i, hi, hsrc⟩
                  · rintro ⟨rfl, rfl, rfl, rfl, i, hi, hsrc⟩
                    exact ⟨i, hi, src, hsrc, rfl, rfl, rfl, rfl, rfl⟩

inductive Part where
  | types
  | avtab
  | trans
  | genfs
  deriving DecidableEq, Repr

def partOf : Line → Part
  | .attribute _ => .types
  | .type _ _ => .types
  | .permissive _ => .types
  | .av _ _ _ _ _ => .avtab
  | .typeRule _ _ _ _ _ => .avtab
  | .xperms _ _ _ _ _ => .avtab
  | .filenameTrans _ _ _ _ _ => .trans
  | .genfscon _ _ _ => .genfs

variable {line : Line}

theorem partOf_printType (hline : line ∈ db.printType type) :
    partOf line = .types := by
  unfold printType at hline
  split at hline
  · cases hline
  · rcases List.mem_append.1 hline with hline | hline
    · split at hline
      · rw [List.mem_singleton.1 hline]
        rfl
      · split at hline
        · cases hline
        · rw [List.mem_singleton.1 hline]
          rfl
      · cases hline
    · split at hline
      · rw [List.mem_singleton.1 hline]
        rfl
      · cases hline

theorem partOf_printRule {key : AvtabKey RuleEffect} {data : UInt32} {src tgt cls : String}
    (hline : line ∈ db.printRule key data src tgt cls) : partOf line = .avtab := by
  unfold printRule at hline
  dsimp only at hline
  -- three effects print permissions and three a type
  split at hline <;> split at hline
  all_goals first
    | cases hline
      done
    | rw [List.mem_singleton.1 hline]
      rfl
    | split at hline
      · cases hline
      · rw [List.mem_singleton.1 hline]
        rfl

theorem partOf_printAvtab {node : AvtabNode} (hline : line ∈ db.printAvtab node) :
    partOf line = .avtab := by
  have hwith : ∀ {Effect : Type} (key : AvtabKey Effect) (f : String → String → String → List Line),
      line ∈ db.withNames key f → ∃ src tgt cls, line ∈ f src tgt cls := by
    intro Effect key f hmem
    unfold withNames at hmem
    split at hmem
    · exact ⟨_, _, _, hmem⟩
    · cases hmem
  cases node with
  | rule key data =>
      obtain ⟨src, tgt, cls, hmem⟩ := hwith key _ hline
      exact partOf_printRule hmem
  | xperms key datum =>
      obtain ⟨src, tgt, cls, hmem⟩ := hwith key _ hline
      split at hmem
      · cases hmem
      · rw [List.mem_singleton.1 hmem]
        rfl

theorem partOf_printFilenameTrans {chain : List FilenameTransDatum}
    (hline : line ∈ db.printFilenameTrans key chain) : partOf line = .trans := by
  unfold printFilenameTrans at hline
  split at hline
  · cases hline
  · split at hline
    · obtain ⟨i, -, hi⟩ := List.mem_filterMap.1 hline
      obtain ⟨src, -, rfl⟩ := Option.map_eq_some_iff.1 hi
      rfl
    · cases hline

theorem partOf_printGenfs {fs : List UInt8 × List (List UInt8 × Option (List UInt8))}
    (hline : line ∈ printGenfs fs) : partOf line = .genfs := by
  obtain ⟨entry, -, hentry⟩ := List.mem_filterMap.1 hline
  obtain ⟨context, -, rfl⟩ := Option.map_eq_some_iff.1 hentry
  rfl

theorem not_mem_flatMap {α : Type} {f : α → List Line} {part : Part}
    (hf : ∀ x, ∀ line ∈ f x, partOf line = part) (hne : partOf line ≠ part) (xs : List α) :
    line ∉ xs.flatMap f := by
  intro hmem
  obtain ⟨x, -, hline⟩ := List.mem_flatMap.1 hmem
  exact hne (hf x line hline)

theorem mem_lines_types (hpart : partOf line = .types) :
    line ∈ db.lines ↔ ∃ entry ∈ db.trans.policy.types,
      (entry.2.flavor = .attrib ∨ entry.2.flavor = .type) ∧ line ∈ db.printType entry.2 := by
  have havtab : line ∉ db.trans.policy.teAvtab.entries.flatMap db.printAvtab :=
    not_mem_flatMap (fun _ _ => partOf_printAvtab) (by rw [hpart]; decide) _
  have htrans : line ∉ db.trans.filenameTrans.entries.flatMap
      fun entry => db.printFilenameTrans entry.1 entry.2 :=
    not_mem_flatMap (fun _ _ => partOf_printFilenameTrans) (by rw [hpart]; decide) _
  have hgenfs : line ∉ db.genfs.flatMap printGenfs :=
    not_mem_flatMap (fun _ _ => partOf_printGenfs) (by rw [hpart]; decide) _
  simp only [lines, List.mem_append, havtab, htrans, hgenfs, or_false, List.mem_flatMap, List.mem_filter,
    List.mem_map, decide_eq_true_eq]
  constructor
  · rintro (⟨type, ⟨⟨entry, hentry, rfl⟩, hflavor⟩, hline⟩ | ⟨type, ⟨⟨entry, hentry, rfl⟩, hflavor⟩, hline⟩)
    · exact ⟨entry, hentry, .inl hflavor, hline⟩
    · exact ⟨entry, hentry, .inr hflavor, hline⟩
  · rintro ⟨entry, hentry, hflavor | hflavor, hline⟩
    · exact .inl ⟨entry.2, ⟨⟨entry, hentry, rfl⟩, hflavor⟩, hline⟩
    · exact .inr ⟨entry.2, ⟨⟨entry, hentry, rfl⟩, hflavor⟩, hline⟩

theorem mem_lines_trans (hpart : partOf line = .trans) :
    line ∈ db.lines ↔ ∃ key chain, db.trans.filenameTrans.lookup key = some chain ∧
      line ∈ db.printFilenameTrans key chain := by
  have htypes : ∀ types : List TypeDatum, line ∉ types.flatMap db.printType :=
    not_mem_flatMap (fun _ _ => partOf_printType) (by rw [hpart]; decide)
  have havtab : line ∉ db.trans.policy.teAvtab.entries.flatMap db.printAvtab :=
    not_mem_flatMap (fun _ _ => partOf_printAvtab) (by rw [hpart]; decide) _
  have hgenfs : line ∉ db.genfs.flatMap printGenfs :=
    not_mem_flatMap (fun _ _ => partOf_printGenfs) (by rw [hpart]; decide) _
  simp only [lines, List.mem_append, htypes, havtab, hgenfs, or_false, false_or, List.mem_flatMap,
    Sigma.exists]
  refine exists₂_congr fun key chain => and_congr_left fun _ => ?_
  exact AList.mem_lookup_iff.symm

end Lines

structure AllNamed (db : PrintDb) : Prop where
  types : ∀ entry ∈ db.trans.policy.types, (db.typeNames.name entry.2.value).isSome
  attrs : ∀ entry ∈ db.trans.policy.types, ∀ i ∈ db.typeAttrMap entry.2.value,
    (db.typeNames.name i).isSome
  keys : ∀ key chain, db.trans.filenameTrans.lookup key = some chain →
    (db.typeNames.name key.ttype).isSome ∧ (db.classNames.name key.tclass).isSome
  data : ∀ key chain, db.trans.filenameTrans.lookup key = some chain → ∀ trans ∈ chain,
    (db.typeNames.name trans.otype).isSome ∧ ∀ i ∈ trans.stypes, (db.typeNames.name i).isSome

/-- Every type and every attribute has its declaration, and every filename transition its line. -/
structure PrintsAll (db : PrintDb) : Prop where
  types : ∀ entry ∈ db.trans.policy.types, entry.2.flavor = .type → ∀ name,
    db.typeNames.name entry.2.value = some name → ∃ attrs, Line.type name attrs ∈ db.lines
  attributes : ∀ entry ∈ db.trans.policy.types, entry.2.flavor = .attrib → ∀ name,
    db.typeNames.name entry.2.value = some name → Line.attribute name ∈ db.lines
  transitions : ∀ stype key otype, db.trans.lookup stype key = some otype → ∀ src tgt cls default,
    db.typeNames.name stype = some src → db.typeNames.name key.ttype = some tgt →
    db.classNames.name key.tclass = some cls → db.typeNames.name otype = some default →
      Line.filenameTrans src tgt cls default key.name ∈ db.lines

variable {chain : List FilenameTransDatum}

theorem exists_pick {stype : UInt32} {trans : FilenameTransDatum}
    (htrans : trans ∈ chain) (hstype : stype ∈ trans.stypes) :
    ∃ d ∈ chain, pick stype chain = some d.otype := by
  induction chain with
  | nil => cases htrans
  | cons d chain ih =>
      rw [pick_cons]
      by_cases hd : stype ∈ d.stypes
      · exact ⟨d, List.mem_cons_self, if_pos hd⟩
      · rcases List.mem_cons.1 htrans with rfl | hmem
        · exact absurd hstype hd
        · obtain ⟨d', hd', hpick⟩ := ih hmem
          exact ⟨d', List.mem_cons_of_mem d hd', by rw [if_neg hd, hpick]⟩

theorem exists_mem_of_pick {stype otype : UInt32}
    (hpick : pick stype chain = some otype) : ∃ trans ∈ chain, stype ∈ trans.stypes := by
  obtain ⟨trans, htrans, hsome⟩ := List.exists_of_findSome?_eq_some hpick
  refine ⟨trans, htrans, ?_⟩
  by_contra hnot
  rw [if_neg hnot] at hsome
  cases hsome

section Complete

variable {db : PrintDb}

theorem type_mem_lines_iff (hnamed : db.AllNamed) {entry : List UInt8 × TypeDatum}
    (hentry : entry ∈ db.trans.policy.types) (hflavor : entry.2.flavor = .type)
    (hname : db.typeNames.name entry.2.value = some name) :
    (∃ attrs, Line.type name attrs ∈ db.lines) ↔
      ∃ i ∈ db.typeAttrMap entry.2.value, (db.typeStruct i).flavor = .attrib := by
  constructor
  · rintro ⟨attrs, hline⟩
    obtain ⟨entry', -, -, hprint⟩ := (mem_lines_types rfl).1 hline
    obtain ⟨-, hname', rfl, hne⟩ := type_mem_printType.1 hprint
    obtain ⟨attr, hattr⟩ := List.exists_mem_of_ne_nil _ hne
    obtain ⟨i, hi, hattrib, -⟩ := mem_attrNames.1 hattr
    rw [db.typeNames.unique hname' hname] at hi
    exact ⟨i, hi, hattrib⟩
  · rintro ⟨i, hi, hattrib⟩
    obtain ⟨attr, hattr⟩ := Option.isSome_iff_exists.1 (hnamed.attrs entry hentry i hi)
    have hmem : attr ∈ db.attrNames entry.2 := mem_attrNames.2 ⟨i, hi, hattrib, hattr⟩
    refine ⟨db.attrNames entry.2, (mem_lines_types rfl).2 ⟨entry, hentry, .inr hflavor, ?_⟩⟩
    exact type_mem_printType.2 ⟨hflavor, hname, rfl, List.ne_nil_of_mem hmem⟩

/-- **What is printed.** All types and filename transitions are, exactly if every type has an attribute and
the first datum under each key has all sources that the others have. -/
theorem printsAll_iff (hnamed : db.AllNamed) :
    db.PrintsAll ↔
      (∀ entry ∈ db.trans.policy.types, entry.2.flavor = .type →
        ∃ i ∈ db.typeAttrMap entry.2.value, (db.typeStruct i).flavor = .attrib) ∧
      ∀ key chain, db.trans.filenameTrans.lookup key = some chain → ∀ trans ∈ chain, ∀ i ∈ trans.stypes,
        ∃ first ∈ chain.head?, i ∈ first.stypes := by
  constructor
  · intro hall
    refine ⟨fun entry hentry hflavor => ?_, fun key chain hchain trans htrans i hi => ?_⟩
    · obtain ⟨name, hname⟩ := Option.isSome_iff_exists.1 (hnamed.types entry hentry)
      exact (type_mem_lines_iff hnamed hentry hflavor hname).1 (hall.types entry hentry hflavor name hname)
    · obtain ⟨d, hd, hpick⟩ := exists_pick htrans hi
      have hlookup : db.trans.lookup i key = some d.otype := by
        rw [FilenameTransDb.lookup, FilenameTransDb.chain, hchain, Option.getD_some, hpick]
      obtain ⟨htgt, hcls⟩ := hnamed.keys key chain hchain
      obtain ⟨tgt, htgt⟩ := Option.isSome_iff_exists.1 htgt
      obtain ⟨cls, hcls⟩ := Option.isSome_iff_exists.1 hcls
      obtain ⟨src, hsrc⟩ := Option.isSome_iff_exists.1 ((hnamed.data key chain hchain trans htrans).2 i hi)
      obtain ⟨default, hdefault⟩ := Option.isSome_iff_exists.1 (hnamed.data key chain hchain d hd).1
      have hline := hall.transitions i key d.otype hlookup src tgt cls default hsrc htgt hcls hdefault
      obtain ⟨key', chain', hchain', hprint⟩ := (mem_lines_trans rfl).1 hline
      obtain ⟨hkey, htgt', hcls', first, hfirst, -, i', hi', hsrc'⟩ := filenameTrans_mem_print.1 hprint
      -- The names tell the keys and the sources apart.
      obtain rfl : key' = key := by
        cases key
        cases key'
        cases hkey
        cases db.typeNames.unique htgt htgt'
        cases db.classNames.unique hcls hcls'
        rfl
      cases hchain.symm.trans hchain'
      cases db.typeNames.unique hsrc hsrc'
      exact ⟨first, hfirst, hi'⟩
  · rintro ⟨hattrs, hfirsts⟩
    refine ⟨fun entry hentry hflavor name hname => ?_, fun entry hentry hflavor name hname => ?_, ?_⟩
    · exact (type_mem_lines_iff hnamed hentry hflavor hname).2 (hattrs entry hentry hflavor)
    · exact (mem_lines_types rfl).2
        ⟨entry, hentry, .inl hflavor, attribute_mem_printType hflavor hname⟩
    · intro stype key otype hlookup src tgt cls default hsrc htgt hcls hdefault
      rw [FilenameTransDb.lookup, FilenameTransDb.chain] at hlookup
      cases hchain : db.trans.filenameTrans.lookup key with
      | none =>
          rw [hchain] at hlookup
          cases hlookup
      | some chain =>
          rw [hchain, Option.getD_some] at hlookup
          obtain ⟨trans, htrans, hstype⟩ := exists_mem_of_pick hlookup
          obtain ⟨first, hfirst, hmem⟩ := hfirsts key chain hchain trans htrans stype hstype
          obtain ⟨rest, rfl⟩ := List.head?_eq_some_iff.1 hfirst
          rw [pick_cons, if_pos hmem] at hlookup
          cases hlookup
          refine (mem_lines_trans rfl).2 ⟨key, _, hchain, filenameTrans_mem_print.2 ?_⟩
          exact ⟨rfl, htgt, hcls, first, rfl, hdefault, stype, hmem, hsrc⟩

end Complete

def sampleTypeNames : NameTable where
  name v := if v = 1 then some "source" else if v = 2 then some "target" else if v = 3 then some "domain" else none
  unique := by
    intro v w n hv hw
    split_ifs at hv hw <;> cases hv <;> simp_all

def sampleClassNames : NameTable where
  name v := if v = 1 then some "class" else none
  unique := by
    intro v w n hv hw
    rw [Option.ite_none_right_eq_some] at hv hw
    exact hv.1.trans hw.1.symm

def sampleKey : FilenameTransKey := ⟨2, 1, utf8Bytes "name"⟩

/-- Two types and an attribute, which the types have or have not, and one key with filename transitions. -/
def samplePrint (attrs : Bool) (chain : List FilenameTransDatum) : PrintDb where
  trans :=
    { policy :=
        { PolicyDb.samplePolicy 30 with
          types := [(copyStr "source", ⟨1, .type⟩), (copyStr "target", ⟨2, .type⟩),
            (copyStr "domain", ⟨3, .attrib⟩)] }
      filenameTrans := AList.singleton sampleKey chain
      filenameTransCount := 0 }
  typeNames := sampleTypeNames
  classNames := sampleClassNames
  typeStruct v := ⟨v, if v = 3 then .attrib else .type⟩
  classStruct v := if v = 1 then some ⟨1⟩ else none
  typeAttrMap v := if attrs then {v, 3} else {v}
  permissiveMap := ∅
  tables := ⟨fun _ => [], fun _ => []⟩
  genfs := []

theorem lookup_samplePrint {attrs : Bool} {chain' : List FilenameTransDatum}
    (hlookup : (samplePrint attrs chain).trans.filenameTrans.lookup key = some chain') :
    key = sampleKey ∧ chain' = chain := by
  have hmem := AList.mem_lookup_iff.1 hlookup
  simpa [samplePrint, AList.singleton_entries] using hmem

theorem allNamed_samplePrint (attrs : Bool)
    (hchain : ∀ trans ∈ chain, ∀ i ∈ insert trans.otype trans.stypes, (sampleTypeNames.name i).isSome) :
    (samplePrint attrs chain).AllNamed where
  types := by simp [samplePrint, PolicyDb.samplePolicy, sampleTypeNames]
  attrs := by
    cases attrs <;> simp [samplePrint, PolicyDb.samplePolicy, sampleTypeNames]
  keys := by
    intro key chain' hlookup
    obtain ⟨rfl, rfl⟩ := lookup_samplePrint hlookup
    exact ⟨rfl, rfl⟩
  data := by
    intro key chain' hlookup trans htrans
    obtain ⟨rfl, rfl⟩ := lookup_samplePrint hlookup
    exact ⟨hchain trans htrans _ (Finset.mem_insert_self _ _),
      fun i hi => hchain trans htrans i (Finset.mem_insert_of_mem hi)⟩

theorem printsAll_samplePrint : (samplePrint true [⟨{1}, 2⟩]).PrintsAll := by
  refine (printsAll_iff (allNamed_samplePrint true (by simp [sampleTypeNames]))).2 ⟨?_, ?_⟩
  · intro entry _ _
    exact ⟨3, by simp [samplePrint], by simp [samplePrint]⟩
  · intro key chain hlookup trans htrans i hi
    obtain ⟨rfl, rfl⟩ := lookup_samplePrint hlookup
    rw [List.mem_singleton.1 htrans] at hi
    exact ⟨_, rfl, hi⟩

/-- A type without an attribute has no declaration; of two data under one key only the first is printed. -/
theorem not_printsAll_samplePrint :
    ((samplePrint false [⟨{1}, 2⟩]).AllNamed ∧ ¬ (samplePrint false [⟨{1}, 2⟩]).PrintsAll) ∧
      (samplePrint true [⟨{1}, 2⟩, ⟨{2}, 1⟩]).AllNamed ∧
      ¬ (samplePrint true [⟨{1}, 2⟩, ⟨{2}, 1⟩]).PrintsAll := by
  have hbare : (samplePrint false [⟨{1}, 2⟩]).AllNamed :=
    allNamed_samplePrint false (by simp [sampleTypeNames])
  have htwo : (samplePrint true [⟨{1}, 2⟩, ⟨{2}, 1⟩]).AllNamed :=
    allNamed_samplePrint true (by simp [sampleTypeNames])
  refine ⟨⟨hbare, fun hall => ?_⟩, htwo, fun hall => ?_⟩
  · have hentry : (copyStr "source", ⟨1, .type⟩) ∈ (samplePrint false [⟨{1}, 2⟩]).trans.policy.types :=
      List.mem_cons_self
    have hline := hall.types _ hentry rfl "source" rfl
    obtain ⟨i, hi, hattrib⟩ := (type_mem_lines_iff hbare hentry rfl rfl).1 hline
    simp only [samplePrint, Bool.false_eq_true, if_false, Finset.mem_singleton] at hi
    subst hi
    revert hattrib
    decide
  · have hline := hall.transitions 2 sampleKey 1 (by decide) "target" "target" "class" "source" rfl rfl rfl rfl
    obtain ⟨key, chain, hlookup, hprint⟩ := (mem_lines_trans rfl).1 hline
    obtain ⟨-, -, -, first, hfirst, hdefault, -⟩ := filenameTrans_mem_print.1 hprint
    obtain ⟨rfl, rfl⟩ := lookup_samplePrint hlookup
    cases hfirst
    revert hdefault
    decide

end PrintDb

end MagiskNative.Sepolicy
