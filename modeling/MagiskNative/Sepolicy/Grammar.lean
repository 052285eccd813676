import Mathlib.Tactic
import MagiskNative.Sepolicy.Statement

/-!
# The grammar of policy statements

Statements as syntax trees, with the tokens they are written with and the value they stand for. The trees
are those that the parser takes: a brace list may be empty, which the documented grammar does not allow.
-/

namespace MagiskNative.Sepolicy

inductive Name where
  | id (name : String)
  | star
  deriving DecidableEq, Repr

def Name.token : Name → Token
  | id name => .ID name
  | star => .ST

inductive Sterm where
  | one (name : Name)
  | braces (names : List Name)
  deriving DecidableEq, Repr

namespace Sterm

def tokens : Sterm → List Token
  | one name => [name.token]
  | braces names => .LB :: names.map Name.token ++ [.RB]

def namesOf : List Name → Option (List String)
  | [] => some []
  | .id name :: names => (namesOf names).map (name :: ·)
  | .star :: _ => none

def value : Sterm → List String
  | one name => (namesOf [name]).getD []
  | braces names => (namesOf names).getD []

def WellFormed : Sterm → Prop
  | one _ => True
  | braces names => names ≠ []

end Sterm

inductive Term where
  | id (name : String)
  | braces (names : List String)
  deriving DecidableEq, Repr

namespace Term

def tokens : Term → List Token
  | id name => [.ID name]
  | braces names => .LB :: names.map .ID ++ [.RB]

def value : Term → List String
  | id name => [name]
  | braces names => names

def WellFormed : Term → Prop
  | id _ => True
  | braces names => names ≠ []

end Term

inductive Xperms where
  | item (item : XpermItem)
  | star
  | braces (first : XpermItem) (rest : List XpermItem)
  | complement (first : XpermItem) (rest : List XpermItem)
  deriving DecidableEq, Repr

namespace Xperms

def tokens : Xperms → List Token
  | item i => i.tokens
  | star => [.ST]
  | braces first rest => .LB :: (first :: rest).flatMap XpermItem.tokens ++ [.RB]
  | complement first rest => .TL :: .LB :: (first :: rest).flatMap XpermItem.tokens ++ [.RB]

def value : Xperms → List Xperm
  | item (.single value) => if value = 0 then [⟨0x0000, 0xFFFF, true⟩] else [⟨value, value, false⟩]
  | item (.range low high) => [⟨low, high, false⟩]
  | star => [⟨0x0000, 0xFFFF, false⟩]
  | braces first rest => (first :: rest).map (XpermItem.xperm false)
  | complement first rest => (first :: rest).map (XpermItem.xperm true)

/-- A range from zero outside of braces. -/
def ZeroRange : Xperms → Prop
  | item (.range low _) => low = 0
  | _ => False

end Xperms

inductive AvAction where
  | allow | deny | auditAllow | dontAudit
  deriving DecidableEq, Repr

inductive XpermAction where
  | allowXperm | auditAllowXperm | dontAuditXperm
  deriving DecidableEq, Repr

inductive StateAction where
  | permissive | enforce
  deriving DecidableEq, Repr

inductive TypeAction where
  | typeChange | typeMember
  deriving DecidableEq, Repr

def AvAction.token : AvAction → Token
  | allow => .AL
  | deny => .DN
  | auditAllow => .AA
  | dontAudit => .DA

def AvAction.statement : AvAction → List String → List String → List String → List String →
    PolicyStatement
  | allow => .allow
  | deny => .deny
  | auditAllow => .auditAllow
  | dontAudit => .dontAudit

def XpermAction.token : XpermAction → Token
  | allowXperm => .AX
  | auditAllowXperm => .AY
  | dontAuditXperm => .DX

def XpermAction.statement : XpermAction → List String → List String → List String → List Xperm →
    PolicyStatement
  | allowXperm => .allowXperm
  | auditAllowXperm => .auditAllowXperm
  | dontAuditXperm => .dontAuditXperm

def StateAction.token : StateAction → Token
  | permissive => .PM
  | enforce => .EF

def StateAction.statement : StateAction → List String → PolicyStatement
  | permissive => .permissive
  | enforce => .enforce

def TypeAction.token : TypeAction → Token
  | typeChange => .TC
  | typeMember => .TM

def TypeAction.statement : TypeAction → String → String → String → String → PolicyStatement
  | typeChange => .typeChange
  | typeMember => .typeMember

inductive Statement where
  | av (action : AvAction) (src target cls perm : Sterm)
  | xperm (action : XpermAction) (src target cls : Sterm) (xperms : Xperms)
  | state (action : StateAction) (types : Sterm)
  | typeAttribute (types attr : Term)
  | type (name : String) (attr : Option Term)
  | attribute (attr : String)
  | typeTransition (src target cls default : String) (object : Option String)
  | typeRule (action : TypeAction) (src target cls default : String)
  | genfsCon (fsName path context : String)
  deriving DecidableEq, Repr

namespace Statement

def tokens : Statement → List Token
  | av action src target cls perm =>
      action.token :: (src.tokens ++ (target.tokens ++ (cls.tokens ++ perm.tokens)))
  | xperm action src target cls xperms =>
      action.token :: (src.tokens ++ (target.tokens ++ (cls.tokens ++ (.ID "ioctl" :: xperms.tokens))))
  | state action types => action.token :: types.tokens
  | typeAttribute types attr => .TA :: (types.tokens ++ attr.tokens)
  | type name attr => .TY :: .ID name :: attr.elim [] Term.tokens
  | .attribute attr => [.AT, .ID attr]
  | typeTransition src target cls default object =>
      .TT :: .ID src :: .ID target :: .ID cls :: .ID default :: object.elim [] fun o => [.ID o]
  | typeRule action src target cls default =>
      [action.token, .ID src, .ID target, .ID cls, .ID default]
  | genfsCon fsName path context => [.GF, .ID fsName, .ID path, .ID context]

def value : Statement → PolicyStatement
  | av action src target cls perm => action.statement src.value target.value cls.value perm.value
  | xperm action src target cls xperms =>
      action.statement src.value target.value cls.value xperms.value
  | state action types => action.statement types.value
  | typeAttribute types attr => .typeAttribute types.value attr.value
  | type name attr => .type name (attr.elim [] Term.value)
  | .attribute attr => .attribute attr
  | typeTransition src target cls default object =>
      .typeTransition src target cls default (object.getD "")
  | typeRule action src target cls default => action.statement src target cls default
  | genfsCon fsName path context => .genfsCon fsName path context

/-- The list arguments of a statement: how each is written and what it stands for. -/
def listArgs : Statement → List (List Token × List String)
  | av _ src target cls perm => [src, target, cls, perm].map fun t => (t.tokens, t.value)
  | xperm _ src target cls _ => [src, target, cls].map fun t => (t.tokens, t.value)
  | state _ types => [(types.tokens, types.value)]
  | typeAttribute types attr => [types, attr].map fun t => (t.tokens, t.value)
  | type _ attr => attr.toList.map fun t => (t.tokens, t.value)
  | _ => []

/-- No list is empty, as the documented grammar has it. -/
def WellFormed : Statement → Prop
  | av _ src target cls perm => ∀ t ∈ [src, target, cls, perm], t.WellFormed
  | xperm _ src target cls _ => ∀ t ∈ [src, target, cls], t.WellFormed
  | state _ types => types.WellFormed
  | typeAttribute types attr => types.WellFormed ∧ attr.WellFormed
  | type _ attr => ∀ t ∈ attr, t.WellFormed
  | _ => True

def ZeroRange : Statement → Prop
  | xperm _ _ _ _ xperms => xperms.ZeroRange
  | _ => False

end Statement

theorem Sterm.namesOf_eq_none_iff (names : List Name) : namesOf names = none ↔ Name.star ∈ names := by
  induction names with
  | nil => simp [namesOf]
  | cons name names ih =>
      cases name with
      | id name => simp [namesOf, ih]
      | star => simp [namesOf]

theorem parseStermNames_braces (acc : Option (List String)) (names : List Name)
    (rest : List Token) :
    parseStermNames acc (names.map Name.token ++ .RB :: rest)
      = .ok ((acc.bind fun a => (Sterm.namesOf names).map (a ++ ·)).getD [], rest) := by
  induction names generalizing acc with
  | nil =>
      cases acc with
      | none => rfl
      | some a => simp [parseStermNames, Sterm.namesOf]
  | cons name names ih =>
      cases name with
      | id name =>
          rw [List.map_cons, List.cons_append, Name.token, parseStermNames, ih]
          cases acc with
          | none => rfl
          | some a => cases hnames : Sterm.namesOf names <;> simp [Sterm.namesOf, hnames]
      | star =>
          rw [List.map_cons, List.cons_append, Name.token, parseStermNames, ih]
          cases acc <;> rfl

variable {tokens rest rest' : List Token}

theorem exists_of_parseStermNames {acc : Option (List String)}
    {value : List String} (hparse : parseStermNames acc tokens = .ok (value, rest)) :
    ∃ names : List Name, tokens = names.map Name.token ++ .RB :: rest := by
  induction tokens generalizing acc with
  | nil => cases hparse
  | cons token tokens ih =>
      cases token with
      | ID name =>
          obtain ⟨names, rfl⟩ := ih hparse
          exact ⟨.id name :: names, rfl⟩
      | ST =>
          obtain ⟨names, rfl⟩ := ih hparse
          exact ⟨.star :: names, rfl⟩
      | RB =>
          cases hparse
          exact ⟨[], rfl⟩
      | _ => cases hparse

theorem parseSterm_tokens (t : Sterm) (rest : List Token) :
    parseSterm (t.tokens ++ rest) = .ok (t.value, rest) := by
  cases t with
  | one name => cases name <;> rfl
  | braces names =>
      have hnames := parseStermNames_braces (some []) names rest
      simp only [Option.bind_some, List.nil_append, Option.map_id'] at hnames
      rw [Sterm.tokens, List.cons_append, List.cons_append, List.append_assoc, List.singleton_append,
        parseSterm, hnames]
      rfl

/-- A parser that reads back what is written, and accepts nothing else. -/
theorem eq_ok_iff_of_reads {τ α : Type} {parse : List Token → Except ParseError (α × List Token)}
    {write : τ → List Token} {value : τ → α} {v : α}
    (hreads : ∀ t rest, parse (write t ++ rest) = .ok (value t, rest))
    (hwritten : parse tokens = .ok (v, rest) → ∃ t, tokens = write t ++ rest) :
    parse tokens = .ok (v, rest) ↔ ∃ t, tokens = write t ++ rest ∧ value t = v := by
  constructor
  · intro hparse
    obtain ⟨t, rfl⟩ := hwritten hparse
    rw [hreads] at hparse
    cases hparse
    exact ⟨t, rfl, rfl⟩
  · rintro ⟨t, rfl, rfl⟩
    exact hreads t rest

theorem parseSterm_eq_ok_iff {value : List String} :
    parseSterm tokens = .ok (value, rest) ↔
      ∃ t : Sterm, tokens = t.tokens ++ rest ∧ t.value = value := by
  refine eq_ok_iff_of_reads parseSterm_tokens fun hparse => ?_
  cases tokens with
  | nil => cases hparse
  | cons token tokens =>
      cases token with
      | ID name =>
          cases hparse
          exact ⟨.one (.id name), rfl⟩
      | ST =>
          cases hparse
          exact ⟨.one .star, rfl⟩
      | LB =>
          obtain ⟨names, rfl⟩ := exists_of_parseStermNames hparse
          exact ⟨.braces names, by simp [Sterm.tokens]⟩
      | _ => cases hparse

theorem parseTermNames_braces (acc names : List String) (rest : List Token) :
    parseTermNames acc (names.map .ID ++ .RB :: rest) = .ok (acc ++ names, rest) := by
  induction names generalizing acc with
  | nil => simp [parseTermNames]
  | cons name names ih =>
      rw [List.map_cons, List.cons_append, parseTermNames, ih, List.append_assoc]
      rfl

theorem exists_of_parseTermNames {acc : List String} {value : List String}
    (hparse : parseTermNames acc tokens = .ok (value, rest)) :
    ∃ names : List String, tokens = names.map .ID ++ .RB :: rest := by
  induction tokens generalizing acc with
  | nil => cases hparse
  | cons token tokens ih =>
      cases token with
      | ID name =>
          obtain ⟨names, rfl⟩ := ih hparse
          exact ⟨name :: names, rfl⟩
      | RB =>
          cases hparse
          exact ⟨[], rfl⟩
      | _ => cases hparse

theorem parseTerm_tokens (t : Term) (rest : List Token) :
    parseTerm (t.tokens ++ rest) = .ok (t.value, rest) := by
  cases t with
  | id name => rfl
  | braces names =>
      have hnames := parseTermNames_braces [] names rest
      rw [Term.tokens, List.cons_append, List.cons_append, List.append_assoc, List.singleton_append,
        parseTerm, hnames]
      rfl

theorem parseTerm_eq_ok_iff {value : List String} :
    parseTerm tokens = .ok (value, rest) ↔
      ∃ t : Term, tokens = t.tokens ++ rest ∧ t.value = value := by
  refine eq_ok_iff_of_reads parseTerm_tokens fun hparse => ?_
  cases tokens with
  | nil => cases hparse
  | cons token tokens =>
      cases token with
      | ID name =>
          cases hparse
          exact ⟨.id name, rfl⟩
      | LB =>
          obtain ⟨names, rfl⟩ := exists_of_parseTermNames hparse
          exact ⟨.braces names, by simp [Term.tokens]⟩
      | _ => cases hparse

theorem parseId_eq_ok_iff {name : String} :
    parseId tokens = .ok (name, rest) ↔ tokens = .ID name :: rest := by
  constructor
  · intro hparse
    cases tokens with
    | nil => cases hparse
    | cons token tokens =>
        cases token with
        | ID name' =>
            cases hparse
            rfl
        | _ => cases hparse
  · rintro rfl
    rfl

theorem matchString_eq_ok_iff {pattern : String} {u : Unit} :
    matchString pattern tokens = .ok (u, rest) ↔ tokens = .ID pattern :: rest := by
  constructor
  · intro hmatch
    cases tokens with
    | nil => cases hmatch
    | cons token tokens =>
        cases token with
        | ID name =>
            rw [matchString] at hmatch
            split at hmatch
            · rename_i heq
              cases hmatch
              rw [heq]
            · cases hmatch
        | _ => cases hmatch
  · rintro rfl
    exact if_pos rfl

theorem checkAdditionalArgs_eq_ok_iff {u : Unit} :
    checkAdditionalArgs tokens = .ok u ↔ tokens = [] := by
  cases tokens with
  | nil => exact iff_of_true rfl rfl
  | cons token tokens => exact iff_of_false nofun nofun

theorem exists_of_parseXperm {xperm : Xperm}
    (hparse : parseXperm tokens = .ok (xperm, rest)) :
    ∃ item : XpermItem, tokens = item.tokens ++ rest ∧ item.xperm false = xperm := by
  unfold parseXperm at hparse
  split at hparse
  · cases hparse
    exact ⟨.range _ _, rfl, rfl⟩
  · cases hparse
  · cases hparse
    exact ⟨.single _, rfl, rfl⟩
  · cases hparse

theorem exists_of_parseXpermList {reset : Bool} {acc : List Xperm}
    {value : List Xperm} (hparse : parseXpermList reset acc tokens = .ok (value, rest)) :
    ∃ (first : XpermItem) (more : List XpermItem),
      tokens = (first :: more).flatMap XpermItem.tokens ++ .RB :: rest := by
  fun_induction parseXpermList reset acc tokens with
  | case1 acc tokens e herror => cases hparse
  | case2 acc tokens xperm more hitem acc' hclosed =>
      simp only [Except.ok.injEq, Prod.mk.injEq] at hparse
      obtain ⟨-, rfl⟩ := hparse
      obtain ⟨item, rfl, -⟩ := exists_of_parseXperm hitem
      refine ⟨item, [], ?_⟩
      cases more with
      | nil => cases hclosed
      | cons token more =>
          cases hclosed
          simp
  | case3 acc tokens xperm more hitem acc' hopen ih =>
      obtain ⟨first, items, hmore⟩ := ih hparse
      obtain ⟨item, rfl, -⟩ := exists_of_parseXperm hitem
      refine ⟨item, first :: items, ?_⟩
      simp only [hmore, List.flatMap_cons, List.append_assoc]

theorem parseXperms_eq_ok_iff {value : List Xperm} :
    parseXperms tokens = .ok (value, []) ↔
      ∃ x : Xperms, tokens = x.tokens ∧ ¬ x.ZeroRange ∧ x.value = value := by
  have hbraces : ∀ (reset : Bool) (first : XpermItem) (more : List XpermItem),
      parseXpermList reset [] ((first :: more).flatMap XpermItem.tokens ++ [.RB])
        = .ok ((first :: more).map (XpermItem.xperm reset), []) := fun reset first more =>
    parseXpermList_items reset (first :: more) (List.cons_ne_nil _ _) [] []
  constructor
  · intro hparse
    unfold parseXperms at hparse
    split at hparse
    · rw [parseXpermsBody] at hparse
      obtain ⟨first, more, rfl⟩ := exists_of_parseXpermList hparse
      rw [hbraces] at hparse
      cases hparse
      exact ⟨.complement first more, rfl, not_false, rfl⟩
    · cases hparse
    · unfold parseXpermsBody at hparse
      split at hparse
      · obtain ⟨first, more, rfl⟩ := exists_of_parseXpermList hparse
        rw [hbraces] at hparse
        cases hparse
        exact ⟨.braces first more, rfl, not_false, rfl⟩
      · cases hparse
        exact ⟨.star, rfl, not_false, rfl⟩
      · cases hparse
        exact ⟨.item (.single 0), rfl, not_false, rfl⟩
      · rename_i number tokens hzero _ _
        split at hparse
        · cases hparse
        · rename_i xperm rest hxperm
          cases hparse
          obtain ⟨item, htokens, rfl⟩ := exists_of_parseXperm hxperm
          rw [List.append_nil] at htokens
          cases item with
          | single number' =>
              cases htokens
              refine ⟨.item (.single number), rfl, not_false, ?_⟩
              rw [Xperms.value, if_neg hzero]
              rfl
          | range low high =>
              cases htokens
              exact ⟨.item (.range number high), rfl, hzero, rfl⟩
      · cases hparse
  · rintro ⟨x, rfl, hzero, rfl⟩
    cases x with
    | item i =>
        cases i with
        | single number =>
            by_cases hnumber : number = 0
            · subst hnumber
              rfl
            · have hitem := parseXperm_item (.single number) (List.cons_ne_nil .HP · |>.symm)
              simp only [List.append_nil, XpermItem.tokens] at hitem
              simp only [Xperms.tokens, XpermItem.tokens, parseXperms, parseXpermsBody, hitem,
                Xperms.value, if_neg hnumber]
              rfl
        | range low high =>
            have hlow : low ≠ 0 := hzero
            simp only [Xperms.tokens, XpermItem.tokens, parseXperms, parseXpermsBody, parseXperm,
              Xperms.value]
    | star => rfl
    | braces first more => exact hbraces false first more
    | complement first more => exact hbraces true first more

theorem bind_eq_ok {ε α β : Type} {x : Except ε α} {f : α → Except ε β} {b : β} :
    (x >>= f) = .ok b ↔ ∃ a, x = .ok a ∧ f a = .ok b := by
  cases x with
  | ok a => exact ⟨fun h => ⟨a, rfl, h⟩, by rintro ⟨a', ⟨⟩, h⟩; exact h⟩
  | error e => exact iff_of_false nofun (by rintro ⟨a, ⟨⟩, -⟩)

theorem mapErr_eq_ok_iff {α : Type} {result : Except ParseError α} {e : ParseError} {value : α} :
    mapErr result e = .ok value ↔ result = .ok value := by
  cases result with
  | ok a => exact Iff.rfl
  | error e' => exact iff_of_false nofun nofun

section Forms

variable {value : PolicyStatement}

theorem parseAvStatement_eq_ok_iff
    {stmt : List String → List String → List String → List String → PolicyStatement} :
    parseAvStatement stmt tokens = .ok value ↔
      ∃ src target cls perm : Sterm,
        tokens = src.tokens ++ (target.tokens ++ (cls.tokens ++ perm.tokens)) ∧
          stmt src.value target.value cls.value perm.value = value := by
  simp only [parseAvStatement, bind_eq_ok, Prod.exists, parseSterm_eq_ok_iff,
    checkAdditionalArgs_eq_ok_iff, pure, Except.pure, Except.ok.injEq]
  constructor
  · rintro ⟨_, _, ⟨src, rfl, rfl⟩, _, _, ⟨target, rfl, rfl⟩, _, _, ⟨cls, rfl, rfl⟩, _, _,
      ⟨perm, rfl, rfl⟩, _, rfl, rfl⟩
    exact ⟨src, target, cls, perm, by rw [List.append_nil], rfl⟩
  · rintro ⟨src, target, cls, perm, rfl, rfl⟩
    exact ⟨_, _, ⟨src, rfl, rfl⟩, _, _, ⟨target, rfl, rfl⟩, _, _, ⟨cls, rfl, rfl⟩, _, [],
      ⟨perm, by rw [List.append_nil], rfl⟩, (), rfl, rfl⟩

theorem parseXpermStatement_eq_ok_iff
    {stmt : List String → List String → List String → List Xperm → PolicyStatement} :
    parseXpermStatement stmt tokens = .ok value ↔
      ∃ (src target cls : Sterm) (xperms : Xperms),
        tokens = src.tokens ++ (target.tokens ++ (cls.tokens ++ (.ID "ioctl" :: xperms.tokens))) ∧
          ¬ xperms.ZeroRange ∧ stmt src.value target.value cls.value xperms.value = value := by
  simp only [parseXpermStatement, bind_eq_ok, Prod.exists, parseSterm_eq_ok_iff,
    matchString_eq_ok_iff, checkAdditionalArgs_eq_ok_iff, pure, Except.pure, Except.ok.injEq]
  constructor
  · rintro ⟨_, _, ⟨src, rfl, rfl⟩, _, _, ⟨target, rfl, rfl⟩, _, _, ⟨cls, rfl, rfl⟩, ⟨⟩, _, rfl, _, _,
      hxperms, _, rfl, rfl⟩
    obtain ⟨xperms, rfl, hzero, rfl⟩ := parseXperms_eq_ok_iff.1 hxperms
    exact ⟨src, target, cls, xperms, rfl, hzero, rfl⟩
  · rintro ⟨src, target, cls, xperms, rfl, hzero, rfl⟩
    exact ⟨_, _, ⟨src, rfl, rfl⟩, _, _, ⟨target, rfl, rfl⟩, _, _, ⟨cls, rfl, rfl⟩, (), _, rfl, _, [],
      parseXperms_eq_ok_iff.2 ⟨xperms, rfl, hzero, rfl⟩, (), rfl, rfl⟩

theorem parseTypeStateStatement_eq_ok_iff {stmt : List String → PolicyStatement} :
    parseTypeStateStatement stmt tokens = .ok value ↔
      ∃ types : Sterm, tokens = types.tokens ∧ stmt types.value = value := by
  simp only [parseTypeStateStatement, bind_eq_ok, Prod.exists, parseSterm_eq_ok_iff,
    checkAdditionalArgs_eq_ok_iff, pure, Except.pure, Except.ok.injEq]
  constructor
  · rintro ⟨_, _, ⟨types, rfl, rfl⟩, _, rfl, rfl⟩
    exact ⟨types, List.append_nil _, rfl⟩
  · rintro ⟨types, rfl, rfl⟩
    exact ⟨_, [], ⟨types, (List.append_nil _).symm, rfl⟩, (), rfl, rfl⟩

theorem parseTypeAttribute_eq_ok_iff :
    parseTypeAttribute tokens = .ok value ↔
      ∃ types attr : Term, tokens = types.tokens ++ attr.tokens ∧
        .typeAttribute types.value attr.value = value := by
  simp only [parseTypeAttribute, bind_eq_ok, Prod.exists, parseTerm_eq_ok_iff,
    checkAdditionalArgs_eq_ok_iff, pure, Except.pure, Except.ok.injEq]
  constructor
  · rintro ⟨_, _, ⟨types, rfl, rfl⟩, _, _, ⟨attr, rfl, rfl⟩, _, rfl, rfl⟩
    exact ⟨types, attr, by rw [List.append_nil], rfl⟩
  · rintro ⟨types, attr, rfl, rfl⟩
    exact ⟨_, _, ⟨types, rfl, rfl⟩, _, [], ⟨attr, by rw [List.append_nil], rfl⟩, (), rfl, rfl⟩

theorem Term.tokens_ne_nil (t : Term) : t.tokens ≠ [] := by
  cases t <;> exact List.cons_ne_nil _ _

theorem parseType_eq_ok_iff :
    parseType tokens = .ok value ↔
      ∃ (name : String) (attr : Option Term), tokens = .ID name :: attr.elim [] Term.tokens ∧
        .type name (attr.elim [] Term.value) = value := by
  simp only [parseType, bind_eq_ok, Prod.exists, parseId_eq_ok_iff, pure, Except.pure]
  constructor
  · rintro ⟨name, rest, rfl, hrest⟩
    split at hrest
    · rename_i hempty
      rw [List.isEmpty_iff] at hempty
      subst hempty
      cases hrest
      exact ⟨name, none, rfl, rfl⟩
    · simp only [bind_eq_ok, Prod.exists, parseTerm_eq_ok_iff, checkAdditionalArgs_eq_ok_iff,
        Except.ok.injEq] at hrest
      obtain ⟨_, _, ⟨t, rfl, rfl⟩, _, rfl, rfl⟩ := hrest
      exact ⟨name, some t, by rw [List.append_nil]; rfl, rfl⟩
  · rintro ⟨name, attr, rfl, rfl⟩
    refine ⟨name, _, rfl, ?_⟩
    cases attr with
    | none => rfl
    | some t =>
        have hne : ¬ t.tokens.isEmpty := by
          rw [List.isEmpty_iff]
          exact t.tokens_ne_nil
        rw [Option.elim_some, if_neg hne]
        simp only [bind_eq_ok, Prod.exists, parseTerm_eq_ok_iff, checkAdditionalArgs_eq_ok_iff]
        exact ⟨_, [], ⟨t, by rw [List.append_nil], rfl⟩, (), rfl, rfl⟩

theorem parseAttribute_eq_ok_iff :
    parseAttribute tokens = .ok value ↔ ∃ attr, tokens = [.ID attr] ∧ .attribute attr = value := by
  simp only [parseAttribute, bind_eq_ok, Prod.exists, parseId_eq_ok_iff,
    checkAdditionalArgs_eq_ok_iff, pure, Except.pure, Except.ok.injEq]
  constructor
  · rintro ⟨attr, _, rfl, _, rfl, rfl⟩
    exact ⟨attr, rfl, rfl⟩
  · rintro ⟨attr, rfl, rfl⟩
    exact ⟨attr, [], rfl, (), rfl, rfl⟩

theorem parseTypeRule_eq_ok_iff {stmt : String → String → String → String → PolicyStatement} :
    parseTypeRule stmt tokens = .ok value ↔
      ∃ src target cls default, tokens = [.ID src, .ID target, .ID cls, .ID default] ∧
        stmt src target cls default = value := by
  simp only [parseTypeRule, bind_eq_ok, Prod.exists, parseId_eq_ok_iff,
    checkAdditionalArgs_eq_ok_iff, pure, Except.pure, Except.ok.injEq]
  constructor
  · rintro ⟨src, _, rfl, target, _, rfl, cls, _, rfl, default, _, rfl, _, rfl, rfl⟩
    exact ⟨src, target, cls, default, rfl, rfl⟩
  · rintro ⟨src, target, cls, default, rfl, rfl⟩
    exact ⟨src, _, rfl, target, _, rfl, cls, _, rfl, default, [], rfl, (), rfl, rfl⟩

theorem parseTypeTransition_eq_ok_iff :
    parseTypeTransition tokens = .ok value ↔
      ∃ (src target cls default : String) (object : Option String),
        tokens = .ID src :: .ID target :: .ID cls :: .ID default :: object.elim [] (fun o => [.ID o]) ∧
          .typeTransition src target cls default (object.getD "") = value := by
  simp only [parseTypeTransition, bind_eq_ok, Prod.exists, parseId_eq_ok_iff, pure, Except.pure]
  constructor
  · rintro ⟨src, _, rfl, target, _, rfl, cls, _, rfl, default, rest, rfl, hrest⟩
    split at hrest
    · rename_i hempty
      rw [List.isEmpty_iff] at hempty
      subst hempty
      cases hrest
      exact ⟨src, target, cls, default, none, rfl, rfl⟩
    · simp only [bind_eq_ok, Prod.exists, parseId_eq_ok_iff, checkAdditionalArgs_eq_ok_iff,
        Except.ok.injEq] at hrest
      obtain ⟨object, _, rfl, _, rfl, rfl⟩ := hrest
      exact ⟨src, target, cls, default, some object, rfl, rfl⟩
  · rintro ⟨src, target, cls, default, object, rfl, rfl⟩
    refine ⟨src, _, rfl, target, _, rfl, cls, _, rfl, default, _, rfl, ?_⟩
    cases object <;> rfl

theorem parseGenfsCon_eq_ok_iff :
    parseGenfsCon tokens = .ok value ↔
      ∃ fsName path context, tokens = [.ID fsName, .ID path, .ID context] ∧
        .genfsCon fsName path context = value := by
  simp only [parseGenfsCon, bind_eq_ok, Prod.exists, parseId_eq_ok_iff,
    checkAdditionalArgs_eq_ok_iff, pure, Except.pure, Except.ok.injEq]
  constructor
  · rintro ⟨fsName, _, rfl, path, _, rfl, context, _, rfl, _, rfl, rfl⟩
    exact ⟨fsName, path, context, rfl, rfl⟩
  · rintro ⟨fsName, path, context, rfl, rfl⟩
    exact ⟨fsName, _, rfl, path, _, rfl, context, [], rfl, (), rfl, rfl⟩

/-- A statement that the parser accepts is written with these tokens and stands for this value. -/
def Reads (tokens : List Token) (value : PolicyStatement) : Prop :=
  ∃ s : Statement, tokens = s.tokens ∧ ¬ s.ZeroRange ∧ s.value = value

theorem reads_av (action : AvAction) {e : ParseError}
    (hparse : mapErr (parseAvStatement action.statement tokens) e = .ok value) :
    Reads (action.token :: tokens) value := by
  obtain ⟨src, target, cls, perm, rfl, rfl⟩ :=
    parseAvStatement_eq_ok_iff.1 (mapErr_eq_ok_iff.1 hparse)
  exact ⟨.av action src target cls perm, rfl, not_false, rfl⟩

theorem reads_xperm (action : XpermAction) {e : ParseError}
    (hparse : mapErr (parseXpermStatement action.statement tokens) e = .ok value) :
    Reads (action.token :: tokens) value := by
  obtain ⟨src, target, cls, xperms, rfl, hzero, rfl⟩ :=
    parseXpermStatement_eq_ok_iff.1 (mapErr_eq_ok_iff.1 hparse)
  exact ⟨.xperm action src target cls xperms, rfl, hzero, rfl⟩

theorem reads_state (action : StateAction) {e : ParseError}
    (hparse : mapErr (parseTypeStateStatement action.statement tokens) e = .ok value) :
    Reads (action.token :: tokens) value := by
  obtain ⟨types, rfl, rfl⟩ := parseTypeStateStatement_eq_ok_iff.1 (mapErr_eq_ok_iff.1 hparse)
  exact ⟨.state action types, rfl, not_false, rfl⟩

theorem reads_typeRule (action : TypeAction) {e : ParseError}
    (hparse : mapErr (parseTypeRule action.statement tokens) e = .ok value) :
    Reads (action.token :: tokens) value := by
  obtain ⟨src, target, cls, default, rfl, rfl⟩ :=
    parseTypeRule_eq_ok_iff.1 (mapErr_eq_ok_iff.1 hparse)
  exact ⟨.typeRule action src target cls default, rfl, not_false, rfl⟩

/-- **What the parser accepts.** The statements that it takes are those that can be written down,
empty lists included, with the exception of a range from zero outside of braces. -/
theorem parseStatementTokens_eq_ok_iff :
    parseStatementTokens tokens = .ok value ↔
      ∃ s : Statement, tokens = s.tokens ∧ ¬ s.ZeroRange ∧ s.value = value := by
  constructor
  · intro hparse
    cases tokens with
    | nil => cases hparse
    | cons action tokens =>
        cases action with
        | AL => exact reads_av .allow hparse
        | DN => exact reads_av .deny hparse
        | AA => exact reads_av .auditAllow hparse
        | DA => exact reads_av .dontAudit hparse
        | AX => exact reads_xperm .allowXperm hparse
        | AY => exact reads_xperm .auditAllowXperm hparse
        | DX => exact reads_xperm .dontAuditXperm hparse
        | PM => exact reads_state .permissive hparse
        | EF => exact reads_state .enforce hparse
        | TA =>
            obtain ⟨types, attr, rfl, rfl⟩ :=
              parseTypeAttribute_eq_ok_iff.1 (mapErr_eq_ok_iff.1 hparse)
            exact ⟨.typeAttribute types attr, rfl, not_false, rfl⟩
        | TY =>
            obtain ⟨name, attr, rfl, rfl⟩ := parseType_eq_ok_iff.1 (mapErr_eq_ok_iff.1 hparse)
            exact ⟨.type name attr, rfl, not_false, rfl⟩
        | AT =>
            obtain ⟨attr, rfl, rfl⟩ := parseAttribute_eq_ok_iff.1 (mapErr_eq_ok_iff.1 hparse)
            exact ⟨.attribute attr, rfl, not_false, rfl⟩
        | TC => exact reads_typeRule .typeChange hparse
        | TM => exact reads_typeRule .typeMember hparse
        | TT =>
            obtain ⟨src, target, cls, default, object, rfl, rfl⟩ :=
              parseTypeTransition_eq_ok_iff.1 (mapErr_eq_ok_iff.1 hparse)
            exact ⟨.typeTransition src target cls default object, rfl, not_false, rfl⟩
        | GF =>
            obtain ⟨fsName, path, context, rfl, rfl⟩ :=
              parseGenfsCon_eq_ok_iff.1 (mapErr_eq_ok_iff.1 hparse)
            exact ⟨.genfsCon fsName path context, rfl, not_false, rfl⟩
        | _ => cases hparse
  · rintro ⟨s, rfl, hzero, rfl⟩
    cases s with
    | av action src target cls perm =>
        have hparse : ∀ stmt, parseAvStatement stmt
            (src.tokens ++ (target.tokens ++ (cls.tokens ++ perm.tokens)))
              = .ok (stmt src.value target.value cls.value perm.value) := fun stmt =>
          parseAvStatement_eq_ok_iff.2 ⟨src, target, cls, perm, rfl, rfl⟩
        cases action <;> exact mapErr_eq_ok_iff.2 (hparse _)
    | xperm action src target cls xperms =>
        have hparse : ∀ stmt, parseXpermStatement stmt
            (src.tokens ++ (target.tokens ++ (cls.tokens ++ (.ID "ioctl" :: xperms.tokens))))
              = .ok (stmt src.value target.value cls.value xperms.value) := fun stmt =>
          parseXpermStatement_eq_ok_iff.2 ⟨src, target, cls, xperms, rfl, hzero, rfl⟩
        cases action <;> exact mapErr_eq_ok_iff.2 (hparse _)
    | state action types =>
        have hparse : ∀ stmt, parseTypeStateStatement stmt types.tokens = .ok (stmt types.value) :=
          fun stmt => parseTypeStateStatement_eq_ok_iff.2 ⟨types, rfl, rfl⟩
        cases action <;> exact mapErr_eq_ok_iff.2 (hparse _)
    | typeAttribute types attr =>
        exact mapErr_eq_ok_iff.2 (parseTypeAttribute_eq_ok_iff.2 ⟨types, attr, rfl, rfl⟩)
    | type name attr => exact mapErr_eq_ok_iff.2 (parseType_eq_ok_iff.2 ⟨name, attr, rfl, rfl⟩)
    | «attribute» attr => rfl
    | typeTransition src target cls default object =>
        exact mapErr_eq_ok_iff.2
          (parseTypeTransition_eq_ok_iff.2 ⟨src, target, cls, default, object, rfl, rfl⟩)
    | typeRule action src target cls default => cases action <;> rfl
    | genfsCon fsName path context => rfl

end Forms

theorem Name.token_injective : Function.Injective Name.token := by
  intro a b hab
  cases a <;> cases b <;> cases hab <;> rfl

theorem Sterm.tokens_injective : Function.Injective Sterm.tokens := by
  intro t t' heq
  cases t with
  | one name =>
      cases t' with
      | one name' => rw [Name.token_injective (List.cons.inj heq).1]
      | braces names' => cases name <;> cases heq
  | braces names =>
      cases t' with
      | one name' => cases name' <;> cases heq
      | braces names' =>
          have hnames := List.append_cancel_right (List.cons.inj heq).2
          rw [List.map_injective_iff.2 Name.token_injective hnames]

-- The parser leaves what follows the term.
theorem Sterm.tokens_append_inj {t t' : Sterm}
    (heq : t.tokens ++ rest = t'.tokens ++ rest') : t = t' ∧ rest = rest' := by
  have hparse := parseSterm_tokens t rest
  rw [heq, parseSterm_tokens] at hparse
  obtain rfl : rest' = rest := (Prod.ext_iff.1 (Except.ok.inj hparse)).2
  exact ⟨Sterm.tokens_injective (List.append_cancel_right heq), rfl⟩

def Term.toSterm : Term → Sterm
  | id name => .one (.id name)
  | braces names => .braces (names.map .id)

theorem Term.tokens_toSterm (t : Term) : t.toSterm.tokens = t.tokens := by
  cases t with
  | id name => rfl
  | braces names => simp [toSterm, Sterm.tokens, Term.tokens, Name.token, Function.comp_def]

theorem Term.toSterm_injective : Function.Injective Term.toSterm := by
  intro t t' heq
  cases t with
  | id name => cases t' <;> cases heq; rfl
  | braces names =>
      cases t' with
      | id name' => cases heq
      | braces names' =>
          rw [toSterm, toSterm, Sterm.braces.injEq] at heq
          rw [List.map_injective_iff.2 (fun a b hab => Name.id.inj hab) heq]

theorem XpermItem.flatMap_tokens_inj {items items' : List XpermItem}
    (heq : items.flatMap XpermItem.tokens ++ [.RB] = items'.flatMap XpermItem.tokens ++ [.RB]) :
    items = items' := by
  induction items generalizing items' with
  | nil =>
      cases items' with
      | nil => rfl
      | cons item' items' => cases item' <;> cases heq
  | cons item items ih =>
      cases items' with
      | nil => cases item <;> cases heq
      | cons item' items' =>
          -- What follows a single value never starts with a hyphen.
          have hnext : ∀ (items : List XpermItem) (tokens : List Token),
              items.flatMap XpermItem.tokens ++ [.RB] ≠ .HP :: tokens := by
            intro items tokens
            cases items with
            | nil => exact nofun
            | cons item items => cases item <;> exact nofun
          simp only [List.flatMap_cons, List.append_assoc] at heq
          cases item with
          | single value =>
              cases item' with
              | single value' =>
                  obtain ⟨hvalue, htail⟩ := List.cons.inj heq
                  rw [ih htail, Token.HX.inj hvalue]
              | range low high => exact absurd (List.cons.inj heq).2 (hnext _ _)
          | range low high =>
              cases item' with
              | single value' => exact absurd (List.cons.inj heq).2.symm (hnext _ _)
              | range low' high' =>
                  simp only [XpermItem.tokens, List.cons_append, List.nil_append, List.cons.injEq,
                    Token.HX.injEq, true_and] at heq
                  rw [heq.1, heq.2.1, ih heq.2.2]

theorem Xperms.tokens_injective : Function.Injective Xperms.tokens := by
  intro x x' heq
  cases x with
  | item i =>
      cases x' with
      | item i' => cases i <;> cases i' <;> cases heq <;> rfl
      | star => cases i <;> cases heq
      | braces first' rest' => cases i <;> cases heq
      | complement first' rest' => cases i <;> cases heq
  | star =>
      cases x' with
      | item i' => cases i' <;> cases heq
      | star => rfl
      | braces first' rest' => cases heq
      | complement first' rest' => cases heq
  | braces first rest =>
      cases x' with
      | item i' => cases i' <;> cases heq
      | star => cases heq
      | braces first' rest' =>
          cases XpermItem.flatMap_tokens_inj (List.cons.inj heq).2
          rfl
      | complement first' rest' => cases heq
  | complement first rest =>
      cases x' with
      | item i' => cases i' <;> cases heq
      | star => cases heq
      | braces first' rest' => cases heq
      | complement first' rest' =>
          cases XpermItem.flatMap_tokens_inj (List.cons.inj (List.cons.inj heq).2).2
          rfl

theorem Term.tokens_append_inj {t t' : Term}
    (heq : t.tokens ++ rest = t'.tokens ++ rest') : t = t' ∧ rest = rest' := by
  rw [← t.tokens_toSterm, ← t'.tokens_toSterm] at heq
  obtain ⟨hterm, hrest⟩ := Sterm.tokens_append_inj heq
  exact ⟨Term.toSterm_injective hterm, hrest⟩

theorem Term.tokens_injective : Function.Injective Term.tokens := by
  intro t t' heq
  rw [← t.tokens_toSterm, ← t'.tokens_toSterm] at heq
  exact Term.toSterm_injective (Sterm.tokens_injective heq)

theorem Term.elim_tokens_inj {attr attr' : Option Term}
    (heq : attr.elim [] Term.tokens = attr'.elim [] Term.tokens) : attr = attr' := by
  cases attr with
  | none =>
      cases attr' with
      | none => rfl
      | some t' => exact absurd heq.symm t'.tokens_ne_nil
  | some t =>
      cases attr' with
      | none => exact absurd heq t.tokens_ne_nil
      | some t' => rw [Term.tokens_injective heq]

/-- The first token tells the forms apart. -/
def formOf : Token → Nat
  | .AL | .DN | .AA | .DA => 0
  | .AX | .AY | .DX => 1
  | .PM | .EF => 2
  | .TA => 3
  | .TY => 4
  | .AT => 5
  | .TT => 6
  | .TC | .TM => 7
  | .GF => 8
  | _ => 9

def Statement.form : Statement → Nat
  | av .. => 0
  | xperm .. => 1
  | state .. => 2
  | typeAttribute .. => 3
  | type .. => 4
  | .attribute .. => 5
  | typeTransition .. => 6
  | typeRule .. => 7
  | genfsCon .. => 8

theorem Statement.formOf_head (s : Statement) : s.tokens.head?.map formOf = some s.form := by
  cases s with
  | av action => cases action <;> rfl
  | xperm action => cases action <;> rfl
  | state action => cases action <;> rfl
  | typeRule action => cases action <;> rfl
  | _ => rfl

theorem Statement.tokens_injective : Function.Injective Statement.tokens := by
  intro s s' heq
  have hform : s.form = s'.form := by
    rw [← Option.some.injEq, ← s.formOf_head, ← s'.formOf_head, heq]
  cases s <;> cases s' <;> simp only [form, Nat.reduceEqDiff, reduceCtorEq] at hform
  case av.av action src target cls perm action' src' target' cls' perm' =>
      obtain ⟨haction, hargs⟩ := List.cons.inj heq
      obtain ⟨hsrc, hargs₁⟩ := Sterm.tokens_append_inj hargs
      obtain ⟨htarget, hargs₂⟩ := Sterm.tokens_append_inj hargs₁
      obtain ⟨hcls, hargs₃⟩ := Sterm.tokens_append_inj hargs₂
      rw [hsrc, htarget, hcls, Sterm.tokens_injective hargs₃]
      cases action <;> cases action' <;> first | rfl | cases haction
  case xperm.xperm action src target cls xperms action' src' target' cls' xperms' =>
      obtain ⟨haction, hargs⟩ := List.cons.inj heq
      obtain ⟨hsrc, hargs₁⟩ := Sterm.tokens_append_inj hargs
      obtain ⟨htarget, hargs₂⟩ := Sterm.tokens_append_inj hargs₁
      obtain ⟨hcls, hargs₃⟩ := Sterm.tokens_append_inj hargs₂
      rw [hsrc, htarget, hcls, Xperms.tokens_injective (List.cons.inj hargs₃).2]
      cases action <;> cases action' <;> first | rfl | cases haction
  case state.state action types action' types' =>
      obtain ⟨haction, hargs⟩ := List.cons.inj heq
      rw [Sterm.tokens_injective hargs]
      cases action <;> cases action' <;> first | rfl | cases haction
  case typeAttribute.typeAttribute types attr types' attr' =>
      obtain ⟨htypes, hattr⟩ := Term.tokens_append_inj (List.cons.inj heq).2
      rw [htypes, Term.tokens_injective hattr]
  case type.type name attr name' attr' =>
      obtain ⟨hname, hattr⟩ := List.cons.inj (List.cons.inj heq).2
      rw [Token.ID.inj hname, Term.elim_tokens_inj hattr]
  case attribute.attribute attr attr' =>
      cases heq
      rfl
  case typeTransition.typeTransition src target cls default object src' target' cls' default' object' =>
      cases object <;> cases object' <;> cases heq <;> rfl
  case typeRule.typeRule action src target cls default action' src' target' cls' default' =>
      cases action <;> cases action' <;> cases heq <;> rfl
  case genfsCon.genfsCon fsName path context fsName' path' context' =>
      cases heq
      rfl

theorem Sterm.length_namesOf {names : List Name} {strings : List String}
    (hnames : namesOf names = some strings) : strings.length = names.length := by
  induction names generalizing strings with
  | nil =>
      cases hnames
      rfl
  | cons name names ih =>
      cases name with
      | id name =>
          rw [namesOf, Option.map_eq_some_iff] at hnames
          obtain ⟨strings', hstrings, rfl⟩ := hnames
          rw [List.length_cons, List.length_cons, ih hstrings]
      | star => cases hnames

theorem Name.star_mem_iff (names : List Name) :
    Token.ST ∈ names.map Name.token ↔ Name.star ∈ names := by
  rw [List.mem_map]
  constructor
  · rintro ⟨name, hmem, htoken⟩
    cases name with
    | id name => cases htoken
    | star => exact hmem
  · exact fun hmem => ⟨.star, hmem, rfl⟩

theorem Sterm.value_eq_nil_iff {t : Sterm} (ht : t.WellFormed) : t.value = [] ↔ Token.ST ∈ t.tokens := by
  cases t with
  | one name => cases name <;> simp [value, namesOf, tokens, Name.token]
  | braces names =>
      have hmem : Token.ST ∈ (braces names).tokens ↔ Name.star ∈ names := by
        rw [← Name.star_mem_iff]
        simp [tokens]
      rw [hmem, ← namesOf_eq_none_iff, value]
      cases hnames : namesOf names with
      | none => simp
      | some strings =>
          have hlength := length_namesOf hnames
          have hpos := List.length_pos_of_ne_nil ht
          simp only [Option.getD_some, reduceCtorEq, iff_false]
          exact List.ne_nil_of_length_pos (by omega)

theorem Term.value_eq_nil_iff {t : Term} (ht : t.WellFormed) : t.value = [] ↔ Token.ST ∈ t.tokens := by
  cases t with
  | id name => simp [value, tokens]
  | braces names =>
      have hne : names ≠ [] := ht
      simp [value, tokens, hne]

theorem Statement.listArgs_eq_nil_iff {s : Statement} (hs : s.WellFormed) :
    ∀ arg ∈ s.listArgs, arg.2 = [] ↔ Token.ST ∈ arg.1 := by
  intro arg harg
  cases s with
  | av action src target cls perm | xperm action src target cls xperms =>
      obtain ⟨t, ht, rfl⟩ := List.mem_map.1 harg
      exact Sterm.value_eq_nil_iff (hs t ht)
  | state action types =>
      obtain rfl := List.mem_singleton.1 harg
      exact Sterm.value_eq_nil_iff hs
  | typeAttribute types attr =>
      obtain ⟨t, ht, rfl⟩ := List.mem_map.1 harg
      simp only [List.mem_cons, List.not_mem_nil, or_false] at ht
      rcases ht with rfl | rfl
      · exact Term.value_eq_nil_iff hs.1
      · exact Term.value_eq_nil_iff hs.2
  | type name attr =>
      obtain ⟨t, ht, rfl⟩ := List.mem_map.1 harg
      exact Term.value_eq_nil_iff (hs t (Option.mem_toList.1 ht))
  | _ => cases harg

def Derivable (tokens : List Token) : Prop := ∃ s : Statement, s.WellFormed ∧ tokens = s.tokens

/-- The parser accepts the tokens exactly if the documented grammar derives them, and a list argument
of what it accepts is the match-all value exactly if a star is in it. -/
def Agrees (tokens : List Token) : Prop :=
  ((∃ value, parseStatementTokens tokens = .ok value) ↔ Derivable tokens) ∧
    ∀ (s : Statement) (value : PolicyStatement), tokens = s.tokens →
      parseStatementTokens tokens = .ok value →
        s.value = value ∧ ∀ arg ∈ s.listArgs, arg.2 = [] ↔ Token.ST ∈ arg.1

theorem accepted_iff (s : Statement) :
    (∃ value, parseStatementTokens s.tokens = .ok value) ↔ ¬ s.ZeroRange := by
  constructor
  · rintro ⟨value, hparse⟩
    obtain ⟨s', htokens, hzero, -⟩ := parseStatementTokens_eq_ok_iff.1 hparse
    rwa [Statement.tokens_injective htokens]
  · exact fun hzero => ⟨s.value, parseStatementTokens_eq_ok_iff.2 ⟨s, rfl, hzero, rfl⟩⟩

theorem derivable_iff (s : Statement) : Derivable s.tokens ↔ s.WellFormed := by
  constructor
  · rintro ⟨s', hs', htokens⟩
    rwa [Statement.tokens_injective htokens]
  · exact fun hs => ⟨s, hs, rfl⟩

/-- **Parser against grammar.** They agree on a statement unless it has an empty list, which the parser
takes, or a range from zero outside of braces, which it does not take. -/
theorem agrees_iff (tokens : List Token) :
    Agrees tokens ↔ ∀ s : Statement, tokens = s.tokens → (¬ s.ZeroRange ↔ s.WellFormed) := by
  constructor
  · rintro ⟨haccept, -⟩ s rfl
    rwa [accepted_iff, derivable_iff] at haccept
  · intro hforms
    refine ⟨⟨?_, ?_⟩, ?_⟩
    · rintro ⟨value, hparse⟩
      obtain ⟨s, rfl, hzero, -⟩ := parseStatementTokens_eq_ok_iff.1 hparse
      exact ⟨s, (hforms s rfl).1 hzero, rfl⟩
    · rintro ⟨s, hs, rfl⟩
      exact (accepted_iff s).2 ((hforms s rfl).2 hs)
    · rintro s value rfl hparse
      obtain ⟨s', htokens, hzero, rfl⟩ := parseStatementTokens_eq_ok_iff.1 hparse
      obtain rfl := Statement.tokens_injective htokens
      exact ⟨rfl, Statement.listArgs_eq_nil_iff ((hforms s rfl).1 hzero)⟩

/-- `allow { } t c p` allows everything for every source, and `0x0-0x5` is a syntax error. -/
theorem empty_list_matches_all :
    parseStatementTokens [.AL, .LB, .RB, .ID "t", .ID "c", .ID "p"]
        = .ok (.allow [] ["t"] ["c"] ["p"]) ∧
      ¬ Agrees [.AL, .LB, .RB, .ID "t", .ID "c", .ID "p"] ∧
      ¬ Agrees [.AX, .ID "s", .ID "t", .ID "c", .ID "ioctl", .HX 0, .HP, .HX 5] := by
  refine ⟨rfl, ?_, ?_⟩
  · rintro ⟨haccept, -⟩
    have hderivable := haccept.1 ⟨_, rfl⟩
    have hs := (derivable_iff (.av .allow (.braces []) (.one (.id "t")) (.one (.id "c"))
      (.one (.id "p")))).1 hderivable
    exact hs (.braces []) List.mem_cons_self rfl
  · rintro ⟨haccept, -⟩
    have hstatement := accepted_iff (.xperm .allowXperm (.one (.id "s")) (.one (.id "t"))
      (.one (.id "c")) (.item (.range 0 5)))
    refine hstatement.1 (haccept.2 ((derivable_iff (.xperm .allowXperm (.one (.id "s"))
      (.one (.id "t")) (.one (.id "c")) (.item (.range 0 5)))).2 ?_)) rfl
    simp [Statement.WellFormed, Sterm.WellFormed]

end MagiskNative.Sepolicy
