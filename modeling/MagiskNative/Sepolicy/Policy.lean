import MagiskNative.Sepolicy.Xperm

/-!
# Extended permission statements on a policy

From the tokens of a statement to the table: name lookup, the expansion of lists and wildcards, and
what a whole list of ranges does to the commands a key permits.
-/

namespace MagiskNative.Sepolicy

inductive TypeFlavor where
  | type
  | attrib
  | alias
  deriving DecidableEq, Repr

structure TypeDatum where
  value : UInt32
  flavor : TypeFlavor
  deriving DecidableEq, Repr

structure ClassDatum where
  value : UInt32
  deriving DecidableEq, Repr

/-- The parts of a `policydb_t` that extended permission rules read or write. The symbol tables are
listed in the order in which their hash tables are traversed. -/
structure PolicyDb where
  policyvers : UInt32
  types : List (List UInt8 × TypeDatum)
  classes : List (List UInt8 × ClassDatum)
  teAvtab : Avtab

def xpermsIoctlVersion : UInt32 := 30

def copyStr (key : String) : List UInt8 :=
  -- a buffer of 256 bytes, read back as a C string
  (key.toUTF8.data.toList.take 255).takeWhile (· ≠ 0)

def hashtabFind {α : Type} (table : List (List UInt8 × α)) (key : String) : Option α :=
  table.lookup (copyStr key)

namespace PolicyDb

def attributes (db : PolicyDb) : List TypeDatum :=
  (db.types.map Prod.snd).filter fun type => type.flavor = .attrib

def xpermKey (src tgt : TypeDatum) (cls : ClassDatum) (effect : XpermsEffect) :
    AvtabKey XpermsEffect where
  sourceType := src.value.toUInt16
  targetType := tgt.value.toUInt16
  targetClass := cls.value.toUInt16
  specified := effect

def addXpermRule (db : PolicyDb) (src tgt : Option TypeDatum) (cls : Option ClassDatum)
    (p : Xperm) (effect : XpermsEffect) : PolicyDb :=
  if db.policyvers < xpermsIoctlVersion then db
  else
    match src, tgt, cls with
    | none, tgt, cls =>
        db.attributes.foldl (fun db type => db.addXpermRule (some type) tgt cls p effect) db
    | some src, none, cls =>
        db.attributes.foldl (fun db type => db.addXpermRule (some src) (some type) cls p effect) db
    | some src, some tgt, none =>
        db.classes.foldl
          (fun db cls => db.addXpermRule (some src) (some tgt) (some cls.2) p effect) db
    | some src, some tgt, some cls =>
        { db with teAvtab := db.teAvtab.addXpermRule (xpermKey src tgt cls effect) p }
termination_by src.isNone.toNat + tgt.isNone.toNat + cls.isNone.toNat

def findName {α : Type} (table : List (List UInt8 × α)) (name : String) : Option (Option α) :=
  if name = "" then some none else (hashtabFind table name).map some

def addXpermRuleNamed (db : PolicyDb) (s t c : String) (p : Xperm) (effect : XpermsEffect) :
    PolicyDb × Bool :=
  match findName db.types s with
  | none => (db, false)
  | some src =>
      match findName db.types t with
      | none => (db, false)
      | some tgt =>
          match findName db.classes c with
          | none => (db, false)
          | some cls => (db.addXpermRule src tgt cls p effect, true)

def expandNames (names : List String) : List String := if names.isEmpty then [""] else names

def expandXperms (db : PolicyDb) (src tgt cls : List String) (xperms : List Xperm)
    (effect : XpermsEffect) : PolicyDb :=
  (expandNames src).foldl (fun db s =>
    (expandNames tgt).foldl (fun db t =>
      (expandNames cls).foldl (fun db c =>
        xperms.foldl (fun db p => (db.addXpermRuleNamed s t c p effect).1) db) db) db) db

def allowxperm (db : PolicyDb) (src tgt cls : List String) (xperms : List Xperm) : PolicyDb :=
  db.expandXperms src tgt cls xperms .allowed

def auditallowxperm (db : PolicyDb) (src tgt cls : List String) (xperms : List Xperm) : PolicyDb :=
  db.expandXperms src tgt cls xperms .auditAllow

def dontauditxperm (db : PolicyDb) (src tgt cls : List String) (xperms : List Xperm) : PolicyDb :=
  db.expandXperms src tgt cls xperms .dontAudit

/-- The arms of `exec_statement` for extended permissions; `none` for the other statements. -/
def execXpermStatement (db : PolicyDb) : PolicyStatement → Option PolicyDb
  | .allowXperm src tgt cls xperms => some (db.allowxperm src tgt cls xperms)
  | .auditAllowXperm src tgt cls xperms => some (db.auditallowxperm src tgt cls xperms)
  | .dontAuditXperm src tgt cls xperms => some (db.dontauditxperm src tgt cls xperms)
  | _ => none

def parseStatement (db : PolicyDb) (tokens : List Token) : Option PolicyDb :=
  match parseStatementTokens tokens with
  | .ok stmt => db.execXpermStatement stmt
  -- a syntax error prints a hint and leaves the policy alone
  | .error _ => some db

def permitted (db : PolicyDb) (key : AvtabKey XpermsEffect) (x : UInt16) : Bool :=
  db.teAvtab.permitted key x

end PolicyDb

def XpermsEffect.statement (effect : XpermsEffect) (src tgt cls : List String)
    (xperms : List Xperm) : PolicyStatement :=
  match effect with
  | .allowed => .allowXperm src tgt cls xperms
  | .auditAllow => .auditAllowXperm src tgt cls xperms
  | .dontAudit => .dontAuditXperm src tgt cls xperms

namespace PolicyDb

structure Resolves (db : PolicyDb) (s t c : String) (src tgt : TypeDatum) (cls : ClassDatum) :
    Prop where
  source_ne : s ≠ ""
  target_ne : t ≠ ""
  class_ne : c ≠ ""
  source : hashtabFind db.types s = some src
  target : hashtabFind db.types t = some tgt
  cls : hashtabFind db.classes c = some cls

section Resolved

variable {db : PolicyDb} {s t c : String} {src tgt : TypeDatum} {cls : ClassDatum}

theorem addXpermRule_old (hold : db.policyvers < xpermsIoctlVersion)
    (src tgt : Option TypeDatum) (cls : Option ClassDatum) (p : Xperm) (effect : XpermsEffect) :
    db.addXpermRule src tgt cls p effect = db := by
  rw [addXpermRule.eq_def, if_pos hold]

theorem addXpermRule_some (hnew : ¬ db.policyvers < xpermsIoctlVersion)
    (src tgt : TypeDatum) (cls : ClassDatum) (p : Xperm) (effect : XpermsEffect) :
    db.addXpermRule (some src) (some tgt) (some cls) p effect
      = { db with teAvtab := db.teAvtab.addXpermRule (xpermKey src tgt cls effect) p } := by
  rw [addXpermRule.eq_def, if_neg hnew]

theorem addXpermRuleNamed_of_resolves (hres : db.Resolves s t c src tgt cls) (p : Xperm)
    (effect : XpermsEffect) :
    db.addXpermRuleNamed s t c p effect
      = (db.addXpermRule (some src) (some tgt) (some cls) p effect, true) := by
  simp only [addXpermRuleNamed, findName, if_neg hres.source_ne, if_neg hres.target_ne,
    if_neg hres.class_ne, hres.source, hres.target, hres.cls, Option.map_some]

theorem foldl_addXpermRuleNamed (hres : db.Resolves s t c src tgt cls)
    (hnew : ¬ db.policyvers < xpermsIoctlVersion) (xperms : List Xperm) (effect : XpermsEffect) :
    xperms.foldl (fun db p => (db.addXpermRuleNamed s t c p effect).1) db
      = { db with
          teAvtab := xperms.foldl (·.addXpermRule (xpermKey src tgt cls effect) ·) db.teAvtab } := by
  induction xperms generalizing db with
  | nil => rfl
  | cons p xperms ih =>
      rw [List.foldl_cons, addXpermRuleNamed_of_resolves hres, addXpermRule_some hnew]
      have hnext : PolicyDb.Resolves
          { db with teAvtab := db.teAvtab.addXpermRule (xpermKey src tgt cls effect) p }
          s t c src tgt cls :=
        ⟨hres.1, hres.2, hres.3, hres.4, hres.5, hres.6⟩
      exact ih hnext hnew

theorem foldl_addXpermRuleNamed_old (hres : db.Resolves s t c src tgt cls)
    (hold : db.policyvers < xpermsIoctlVersion) (xperms : List Xperm) (effect : XpermsEffect) :
    xperms.foldl (fun db p => (db.addXpermRuleNamed s t c p effect).1) db = db := by
  induction xperms with
  | nil => rfl
  | cons p xperms ih =>
      rw [List.foldl_cons, addXpermRuleNamed_of_resolves hres, addXpermRule_old hold, ih]

theorem execXpermStatement_statement (db : PolicyDb) (effect : XpermsEffect) (s t c : String)
    (xperms : List Xperm) :
    db.execXpermStatement (effect.statement [s] [t] [c] xperms)
      = some (xperms.foldl (fun db p => (db.addXpermRuleNamed s t c p effect).1) db) := by
  cases effect <;> rfl

end Resolved

def samplePolicy (policyvers : UInt32) : PolicyDb where
  policyvers := policyvers
  types := [(copyStr "source", ⟨1, .type⟩), (copyStr "target", ⟨2, .type⟩)]
  classes := [(copyStr "class", ⟨1⟩)]
  teAvtab := ⟨[], List.nodup_nil⟩

theorem samplePolicy_resolves (policyvers : UInt32) :
    (samplePolicy policyvers).Resolves "source" "target" "class" ⟨1, .type⟩ ⟨2, .type⟩ ⟨1⟩ :=
  ⟨by decide, by decide, by decide, by rfl, by rfl, by rfl⟩

section Complement

variable {db : PolicyDb} {s t c : String} {src tgt : TypeDatum} {cls : ClassDatum}
  {items : List XpermItem}

theorem parseStatement_complement (db : PolicyDb) (s t c : String) (hne : items ≠ []) :
    db.parseStatement (complementTokens s t c items)
      = some ((items.map (XpermItem.xperm true)).foldl
          (fun db p => (db.addXpermRuleNamed s t c p .allowed).1) db) := by
  rw [parseStatement, parseStatementTokens_complement s t c hne]
  exact execXpermStatement_statement db .allowed s t c _

theorem permitted_complement (hres : db.Resolves s t c src tgt cls)
    (hnew : ¬ db.policyvers < xpermsIoctlVersion) (hne : items ≠ []) {db' : PolicyDb}
    (hparse : db.parseStatement (complementTokens s t c items) = some db') (x : UInt16) :
    db'.permitted (xpermKey src tgt cls .allowed) x = true
      ↔ ¬ ((items.getLast hne).xperm true).InHull x := by
  have hmap : items.map (XpermItem.xperm true) ≠ [] := by simpa using hne
  have hlast : (items.map (XpermItem.xperm true)).getLast hmap
      = (items.getLast hne).xperm true := List.getLast_map hmap
  rw [parseStatement_complement db s t c hne, foldl_addXpermRuleNamed hres hnew,
    Option.some.injEq] at hparse
  rw [← hparse, ← hlast]
  exact Avtab.permitted_foldl_reset _ _ _ hmap (by rw [hlast]; rfl) x

/-- The condition under which a complement list `~{ ... }` takes away what it lists. The last range
must do the work of all, and a policy too old for extended permissions must be right already. -/
def ComplementExact (db : PolicyDb) (key : AvtabKey XpermsEffect) (items : List XpermItem)
    (hne : items ≠ []) : Prop :=
  if db.policyvers < xpermsIoctlVersion then
    ∀ x, db.permitted key x = true ↔ ∀ item ∈ items, ¬ (item.xperm true).Covers x
  else
    ∀ x, (∃ item ∈ items, (item.xperm true).Covers x) ↔ ((items.getLast hne).xperm true).InHull x

/-- **Complement lists.** `allowxperm s t c ioctl ~{ items }` leaves exactly the commands outside
all items iff the last item alone reaches exactly the commands that the items cover together. -/
theorem allowxperm_complement_iff (hres : db.Resolves s t c src tgt cls) (hne : items ≠ []) :
    (∃ db', db.parseStatement (complementTokens s t c items) = some db' ∧
        ∀ x, db'.permitted (xpermKey src tgt cls .allowed) x = true
          ↔ ∀ item ∈ items, ¬ (item.xperm true).Covers x)
      ↔ db.ComplementExact (xpermKey src tgt cls .allowed) items hne := by
  have hparse := parseStatement_complement db s t c hne
  rw [ComplementExact]
  by_cases hold : db.policyvers < xpermsIoctlVersion
  · rw [foldl_addXpermRuleNamed_old hres hold] at hparse
    simp only [if_pos hold, hparse, Option.some.injEq, exists_eq_left']
  · have hpermitted := permitted_complement hres hold hne hparse
    simp only [if_neg hold, hparse, Option.some.injEq, exists_eq_left', hpermitted]
    refine forall_congr' fun x => ?_
    have hnone : (∀ item ∈ items, ¬ (item.xperm true).Covers x)
        ↔ ¬ ∃ item ∈ items, (item.xperm true).Covers x := by
      simp only [not_exists, not_and]
    rw [hnone, not_iff_not]
    exact iff_comm

theorem allowxperm_complement_single :
    ∃ db', (samplePolicy 30).parseStatement
          (complementTokens "source" "target" "class" [.single 0x8910]) = some db' ∧
        ∀ x, db'.permitted (xpermKey ⟨1, .type⟩ ⟨2, .type⟩ ⟨1⟩ .allowed) x = true
          ↔ ∀ item ∈ [XpermItem.single 0x8910], ¬ (item.xperm true).Covers x := by
  refine (allowxperm_complement_iff (samplePolicy_resolves 30) (by simp)).2 ?_
  rw [ComplementExact, if_neg (by decide)]
  intro x
  simp [Xperm.InHull, Xperm.Covers, XpermItem.xperm, XpermItem.low, XpermItem.high]

/-- The help text's own example `~{ 0x8910 0x892A }` leaves `0x8910` permitted. -/
theorem allowxperm_complement_two_values :
    ¬ ∃ db', (samplePolicy 30).parseStatement
          (complementTokens "source" "target" "class" [.single 0x8910, .single 0x892A]) = some db' ∧
        ∀ x, db'.permitted (xpermKey ⟨1, .type⟩ ⟨2, .type⟩ ⟨1⟩ .allowed) x = true
          ↔ ∀ item ∈ [XpermItem.single 0x8910, .single 0x892A], ¬ (item.xperm true).Covers x := by
  rintro ⟨db', hparse, hexact⟩
  have hkept : db'.permitted (xpermKey ⟨1, .type⟩ ⟨2, .type⟩ ⟨1⟩ .allowed) 0x8910 = true :=
    (permitted_complement (samplePolicy_resolves 30) (by decide) (by simp) hparse _).2 (by decide)
  exact (hexact 0x8910).1 hkept (.single 0x8910) (by simp) (by decide)

end Complement

section Grants

variable {db : PolicyDb} {s t c : String} {src tgt : TypeDatum} {cls : ClassDatum}
  {xperms : List Xperm}

theorem permitted_grants (hres : db.Resolves s t c src tgt cls)
    (hnew : ¬ db.policyvers < xpermsIoctlVersion) (effect : XpermsEffect)
    (hgrant : ∀ p ∈ xperms, p.reset = false) {db' : PolicyDb}
    (hexec : db.execXpermStatement (effect.statement [s] [t] [c] xperms) = some db') (x : UInt16) :
    db'.permitted (xpermKey src tgt cls effect) x = true
      ↔ db.permitted (xpermKey src tgt cls effect) x = true ∨ ∃ p ∈ xperms, p.InHull x := by
  rw [execXpermStatement_statement, foldl_addXpermRuleNamed hres hnew, Option.some.injEq] at hexec
  rw [← hexec]
  exact Avtab.permitted_foldl_grant _ _ _ hgrant x

theorem permitted_statement_ne (hres : db.Resolves s t c src tgt cls)
    (hnew : ¬ db.policyvers < xpermsIoctlVersion) (effect : XpermsEffect) {db' : PolicyDb}
    (hexec : db.execXpermStatement (effect.statement [s] [t] [c] xperms) = some db')
    {key : AvtabKey XpermsEffect} (hkey : key ≠ xpermKey src tgt cls effect) (x : UInt16) :
    db'.permitted key x = db.permitted key x := by
  rw [execXpermStatement_statement, foldl_addXpermRuleNamed hres hnew, Option.some.injEq] at hexec
  rw [← hexec]
  exact Avtab.permitted_foldl_ne _ _ _ hkey x

/-- The condition under which a list of grants adds nothing but what it names: every driver that a
range touches only in part is paid for by the other ranges or by what was permitted before. -/
def GrantsExact (db : PolicyDb) (key : AvtabKey XpermsEffect) (xperms : List Xperm) : Prop :=
  if db.policyvers < xpermsIoctlVersion then
    ∀ p ∈ xperms, ∀ x, p.Covers x → db.permitted key x = true
  else
    ∀ p ∈ xperms, ioctlDriver p.low ≠ ioctlDriver p.high →
      ∀ x, ioctlDriver p.low ≤ ioctlDriver x → ioctlDriver x ≤ ioctlDriver p.high →
        db.permitted key x = true ∨ ∃ q ∈ xperms, q.Covers x

/-- **Lists of grants.** A statement with ranges and no reset adds exactly the named commands to its
key, and nothing to other keys, iff no range of several drivers reaches a command that is neither
named nor permitted before. -/
theorem grants_iff (hres : db.Resolves s t c src tgt cls) (effect : XpermsEffect)
    (hgrant : ∀ p ∈ xperms, p.reset = false) :
    (∃ db', db.execXpermStatement (effect.statement [s] [t] [c] xperms) = some db' ∧
        (∀ x, db'.permitted (xpermKey src tgt cls effect) x = true
          ↔ db.permitted (xpermKey src tgt cls effect) x = true ∨ ∃ p ∈ xperms, p.Covers x) ∧
        ∀ key, key ≠ xpermKey src tgt cls effect → ∀ x, db'.permitted key x = db.permitted key x)
      ↔ db.GrantsExact (xpermKey src tgt cls effect) xperms := by
  have hexec := execXpermStatement_statement db effect s t c xperms
  rw [GrantsExact]
  by_cases hold : db.policyvers < xpermsIoctlVersion
  · rw [if_pos hold]
    rw [foldl_addXpermRuleNamed_old hres hold] at hexec
    simp only [hexec, Option.some.injEq, exists_eq_left']
    constructor
    · rintro ⟨hpermitted, -⟩ p hp x hx
      exact (hpermitted x).2 (.inr ⟨p, hp, hx⟩)
    · intro hnamed
      refine ⟨fun x => ⟨.inl, ?_⟩, fun _ _ _ => trivial⟩
      rintro (hx | ⟨p, hp, hx⟩)
      · exact hx
      · exact hnamed p hp x hx
  · have hhull := permitted_grants hres hold effect hgrant hexec
    simp only [if_neg hold, hexec, Option.some.injEq, exists_eq_left', hhull]
    constructor
    · rintro ⟨hpermitted, -⟩ p hp hdriver x hlow hhigh
      refine (hpermitted x).1 (.inr ⟨p, hp, ?_⟩)
      rw [Xperm.InHull, if_neg hdriver]
      exact ⟨hlow, hhigh⟩
    · intro hpaid
      refine ⟨fun x => ⟨?_, ?_⟩, fun key hkey => permitted_statement_ne hres hold effect hexec hkey⟩
      · rintro (hx | ⟨p, hp, hx⟩)
        · exact .inl hx
        · unfold Xperm.InHull at hx
          split at hx
          · exact .inr ⟨p, hp, hx⟩
          · rename_i hdriver
            exact hpaid p hp hdriver x hx.1 hx.2
      · rintro (hx | ⟨p, hp, hx⟩)
        · exact .inl hx
        · exact .inr ⟨p, hp, Xperm.inHull_of_covers hx⟩

theorem grants_one_driver :
    ∃ db', (samplePolicy 30).execXpermStatement
          (XpermsEffect.allowed.statement ["source"] ["target"] ["class"]
            [⟨0x8910, 0x8926, false⟩, ⟨0x892A, 0x8935, false⟩]) = some db' ∧
        (∀ x, db'.permitted (xpermKey ⟨1, .type⟩ ⟨2, .type⟩ ⟨1⟩ .allowed) x = true
          ↔ (samplePolicy 30).permitted (xpermKey ⟨1, .type⟩ ⟨2, .type⟩ ⟨1⟩ .allowed) x = true ∨
            ∃ p ∈ [Xperm.mk 0x8910 0x8926 false, ⟨0x892A, 0x8935, false⟩], p.Covers x) ∧
        ∀ key, key ≠ xpermKey ⟨1, .type⟩ ⟨2, .type⟩ ⟨1⟩ .allowed →
          ∀ x, db'.permitted key x = (samplePolicy 30).permitted key x := by
  refine (grants_iff (samplePolicy_resolves 30) .allowed (by decide)).2 ?_
  rw [GrantsExact, if_neg (by decide)]
  intro p hp hdriver
  exact absurd hdriver (by revert p; decide)

/-- `0x8910-0x8A00` also permits `0x8900`, below the range but of the driver it starts in. -/
theorem grants_two_drivers :
    ¬ ∃ db', (samplePolicy 30).execXpermStatement
          (XpermsEffect.allowed.statement ["source"] ["target"] ["class"]
            [⟨0x8910, 0x8A00, false⟩]) = some db' ∧
        (∀ x, db'.permitted (xpermKey ⟨1, .type⟩ ⟨2, .type⟩ ⟨1⟩ .allowed) x = true
          ↔ (samplePolicy 30).permitted (xpermKey ⟨1, .type⟩ ⟨2, .type⟩ ⟨1⟩ .allowed) x = true ∨
            ∃ p ∈ [Xperm.mk 0x8910 0x8A00 false], p.Covers x) ∧
        ∀ key, key ≠ xpermKey ⟨1, .type⟩ ⟨2, .type⟩ ⟨1⟩ .allowed →
          ∀ x, db'.permitted key x = (samplePolicy 30).permitted key x := by
  rintro ⟨db', hexec, hexact, -⟩
  have hpermitted : db'.permitted (xpermKey ⟨1, .type⟩ ⟨2, .type⟩ ⟨1⟩ .allowed) 0x8900 = true := by
    refine (permitted_grants (samplePolicy_resolves 30) (by decide) .allowed (by decide) hexec _).2 ?_
    exact .inr ⟨⟨0x8910, 0x8A00, false⟩, by simp, by decide⟩
  rcases (hexact 0x8900).1 hpermitted with hbefore | hcovered
  · revert hbefore
    decide
  · revert hcovered
    decide

end Grants

end PolicyDb

end MagiskNative.Sepolicy
