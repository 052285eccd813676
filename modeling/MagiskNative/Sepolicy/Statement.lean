import Mathlib.Data.List.Basic

/-!
# Policy statements

The recursive-descent parser of `statement.rs`. The peekable token iterator is the list of tokens
still to be read, and every parser returns what it leaves.
-/

namespace MagiskNative.Sepolicy

/-- The tokens of a statement, with two letters for each keyword as in the source. -/
inductive Token where
  | AL | DN | AA | DA | AX | AY | DX | PM | EF | TA | TY | AT | TT | TC | TM | GF
  | LB | RB | CM | ST | TL | HP
  | HX (value : UInt16)
  | ID (name : String)
  deriving DecidableEq, Repr

structure Xperm where
  low : UInt16
  high : UInt16
  reset : Bool
  deriving DecidableEq, Repr

inductive PolicyStatement where
  | allow (src target cls perm : List String)
  | deny (src target cls perm : List String)
  | auditAllow (src target cls perm : List String)
  | dontAudit (src target cls perm : List String)
  | allowXperm (src target cls : List String) (xperm : List Xperm)
  | auditAllowXperm (src target cls : List String) (xperm : List Xperm)
  | dontAuditXperm (src target cls : List String) (xperm : List Xperm)
  | permissive (types : List String)
  | enforce (types : List String)
  | typeAttribute (types attr : List String)
  | type (name : String) (attr : List String)
  | attribute (attr : String)
  | typeTransition (src target cls default object : String)
  | typeChange (src target cls default : String)
  | typeMember (src target cls default : String)
  | genfsCon (fsName path context : String)
  deriving DecidableEq, Repr

inductive ParseError where
  | general
  | avtabAv (action : Token)
  | avtabXperms (action : Token)
  | avtabType (action : Token)
  | typeState (action : Token)
  | typeAttr
  | typeTrans
  | newType
  | newAttr
  | genfsCon
  | showHelp
  | unknownAction (action : Token)
  deriving DecidableEq, Repr

abbrev ParseResult (α : Type) := Except ParseError (α × List Token)

def parseId : List Token → ParseResult String
  | .ID name :: tokens => .ok (name, tokens)
  | _ => .error .general

def parseTermNames (names : List String) : List Token → ParseResult (List String)
  | .ID name :: tokens => parseTermNames (names ++ [name]) tokens
  | .RB :: tokens => .ok (names, tokens)
  | _ => .error .general

def parseTerm : List Token → ParseResult (List String)
  | .ID name :: tokens => .ok ([name], tokens)
  | .LB :: tokens => parseTermNames [] tokens
  | _ => .error .general

def parseStermNames (names : Option (List String)) : List Token → ParseResult (List String)
  | .ID name :: tokens => parseStermNames (names.map (· ++ [name])) tokens
  -- one star makes the whole list match everything
  | .ST :: tokens => parseStermNames none tokens
  | .RB :: tokens => .ok (names.getD [], tokens)
  | _ => .error .general

/-- A name, a star or names in braces; a star anywhere makes the list empty, which matches all. -/
def parseSterm : List Token → ParseResult (List String)
  | .ID name :: tokens => .ok ([name], tokens)
  | .ST :: tokens => .ok ([], tokens)
  | .LB :: tokens => parseStermNames (some []) tokens
  | _ => .error .general

def parseXperm : List Token → ParseResult Xperm
  | .HX low :: .HP :: .HX high :: tokens => .ok (⟨low, high, false⟩, tokens)
  | .HX _ :: .HP :: _ => .error .general
  | .HX low :: tokens => .ok (⟨low, low, false⟩, tokens)
  | _ => .error .general

theorem parseXperm_length_lt {tokens rest : List Token} {xperm : Xperm}
    (hparse : parseXperm tokens = .ok (xperm, rest)) : rest.length < tokens.length := by
  unfold parseXperm at hparse
  split at hparse <;> simp at hparse <;> simp [← hparse.2]
  omega

def parseXpermList (reset : Bool) (xperms : List Xperm) (tokens : List Token) :
    ParseResult (List Xperm) :=
  match hparse : parseXperm tokens with
  | .error e => .error e
  | .ok (xperm, rest) =>
      let xperms := xperms ++ [{ xperm with reset := reset }]
      if rest.head? = some .RB then .ok (xperms, rest.tail)
      else parseXpermList reset xperms rest
termination_by tokens.length
decreasing_by exact parseXperm_length_lt hparse

def parseXpermsBody (reset : Bool) : List Token → ParseResult (List Xperm)
  | .LB :: tokens => parseXpermList reset [] tokens
  | .ST :: tokens => .ok ([⟨0x0000, 0xFFFF, reset⟩], tokens)
  | .HX 0 :: tokens => .ok ([⟨0x0000, 0xFFFF, true⟩], tokens)
  | .HX value :: tokens =>
      match parseXperm (.HX value :: tokens) with
      | .error e => .error e
      | .ok (xperm, tokens) => .ok ([{ xperm with reset := reset }], tokens)
  | _ => .error .general

/-- A number, a range, a star or items in braces, with a tilde for the complement. -/
def parseXperms : List Token → ParseResult (List Xperm)
  | .TL :: .LB :: tokens => parseXpermsBody true (.LB :: tokens)
  | .TL :: _ => .error .general
  | tokens => parseXpermsBody false tokens

def matchString (pattern : String) : List Token → ParseResult Unit
  | .ID name :: tokens => if name = pattern then .ok ((), tokens) else .error .general
  | _ => .error .general

def checkAdditionalArgs : List Token → Except ParseError Unit
  | [] => .ok ()
  | _ => .error .general

def mapErr {α : Type} (result : Except ParseError α) (e : ParseError) : Except ParseError α :=
  match result with
  | .ok value => .ok value
  | .error _ => .error e

def parseAvStatement (stmt : List String → List String → List String → List String →
    PolicyStatement) (tokens : List Token) : Except ParseError PolicyStatement := do
  let (src, tokens) ← parseSterm tokens
  let (target, tokens) ← parseSterm tokens
  let (cls, tokens) ← parseSterm tokens
  let (perm, tokens) ← parseSterm tokens
  checkAdditionalArgs tokens
  return stmt src target cls perm

def parseXpermStatement (stmt : List String → List String → List String → List Xperm →
    PolicyStatement) (tokens : List Token) : Except ParseError PolicyStatement := do
  let (src, tokens) ← parseSterm tokens
  let (target, tokens) ← parseSterm tokens
  let (cls, tokens) ← parseSterm tokens
  let ((), tokens) ← matchString "ioctl" tokens
  let (xperm, tokens) ← parseXperms tokens
  checkAdditionalArgs tokens
  return stmt src target cls xperm

def parseTypeStateStatement (stmt : List String → PolicyStatement) (tokens : List Token) :
    Except ParseError PolicyStatement := do
  let (types, tokens) ← parseSterm tokens
  checkAdditionalArgs tokens
  return stmt types

def parseTypeAttribute (tokens : List Token) : Except ParseError PolicyStatement := do
  let (types, tokens) ← parseTerm tokens
  let (attr, tokens) ← parseTerm tokens
  checkAdditionalArgs tokens
  return .typeAttribute types attr

def parseType (tokens : List Token) : Except ParseError PolicyStatement := do
  let (name, tokens) ← parseId tokens
  let (attr, tokens) ← if tokens.isEmpty then pure ([], tokens) else parseTerm tokens
  checkAdditionalArgs tokens
  return .type name attr

def parseAttribute (tokens : List Token) : Except ParseError PolicyStatement := do
  let (attr, tokens) ← parseId tokens
  checkAdditionalArgs tokens
  return .attribute attr

def parseTypeRule (stmt : String → String → String → String → PolicyStatement)
    (tokens : List Token) : Except ParseError PolicyStatement := do
  let (src, tokens) ← parseId tokens
  let (target, tokens) ← parseId tokens
  let (cls, tokens) ← parseId tokens
  let (default, tokens) ← parseId tokens
  checkAdditionalArgs tokens
  return stmt src target cls default

def parseTypeTransition (tokens : List Token) : Except ParseError PolicyStatement := do
  let (src, tokens) ← parseId tokens
  let (target, tokens) ← parseId tokens
  let (cls, tokens) ← parseId tokens
  let (default, tokens) ← parseId tokens
  let (object, tokens) ← if tokens.isEmpty then pure ("", tokens) else parseId tokens
  checkAdditionalArgs tokens
  return .typeTransition src target cls default object

def parseGenfsCon (tokens : List Token) : Except ParseError PolicyStatement := do
  let (fsName, tokens) ← parseId tokens
  let (path, tokens) ← parseId tokens
  let (context, tokens) ← parseId tokens
  checkAdditionalArgs tokens
  return .genfsCon fsName path context

/-- One statement; the first token decides which. -/
def parseStatementTokens : List Token → Except ParseError PolicyStatement
  | [] => .error .showHelp
  | action :: tokens =>
      match action with
      | .AL => mapErr (parseAvStatement .allow tokens) (.avtabAv action)
      | .DN => mapErr (parseAvStatement .deny tokens) (.avtabAv action)
      | .AA => mapErr (parseAvStatement .auditAllow tokens) (.avtabAv action)
      | .DA => mapErr (parseAvStatement .dontAudit tokens) (.avtabAv action)
      | .AX => mapErr (parseXpermStatement .allowXperm tokens) (.avtabXperms action)
      | .AY => mapErr (parseXpermStatement .auditAllowXperm tokens) (.avtabXperms action)
      | .DX => mapErr (parseXpermStatement .dontAuditXperm tokens) (.avtabXperms action)
      | .PM => mapErr (parseTypeStateStatement .permissive tokens) (.typeState action)
      | .EF => mapErr (parseTypeStateStatement .enforce tokens) (.typeState action)
      | .TA => mapErr (parseTypeAttribute tokens) .typeAttr
      | .TY => mapErr (parseType tokens) .newType
      | .AT => mapErr (parseAttribute tokens) .newAttr
      | .TC => mapErr (parseTypeRule .typeChange tokens) (.avtabType action)
      | .TM => mapErr (parseTypeRule .typeMember tokens) (.avtabType action)
      | .TT => mapErr (parseTypeTransition tokens) .typeTrans
      | .GF => mapErr (parseGenfsCon tokens) .genfsCon
      | _ => .error (.unknownAction action)

/-! ### Complement lists

The tokens of `~{ ... }`, and what the parser makes of them: one reset per element. -/

inductive XpermItem where
  | single (value : UInt16)
  | range (low high : UInt16)
  deriving DecidableEq, Repr

def XpermItem.tokens : XpermItem → List Token
  | .single value => [.HX value]
  | .range low high => [.HX low, .HP, .HX high]

def XpermItem.low : XpermItem → UInt16
  | .single value => value
  | .range low _ => low

def XpermItem.high : XpermItem → UInt16
  | .single value => value
  | .range _ high => high

def XpermItem.xperm (reset : Bool) (item : XpermItem) : Xperm := ⟨item.low, item.high, reset⟩

theorem parseXperm_item (item : XpermItem) {rest : List Token}
    (hrest : ∀ tokens, rest ≠ .HP :: tokens) :
    parseXperm (item.tokens ++ rest) = .ok (item.xperm false, rest) := by
  cases item with
  | range low high => rfl
  | single value =>
      rw [XpermItem.tokens, List.singleton_append, parseXperm]
      · rfl
      · rintro high tokens rfl
        exact hrest _ rfl
      · rintro tokens rfl
        exact hrest _ rfl

theorem parseXpermList_step (reset : Bool) (item : XpermItem) (xperms : List Xperm)
    {rest : List Token} (hrest : ∀ tokens, rest ≠ .HP :: tokens) :
    parseXpermList reset xperms (item.tokens ++ rest)
      = if rest.head? = some .RB then .ok (xperms ++ [item.xperm reset], rest.tail)
        else parseXpermList reset (xperms ++ [item.xperm reset]) rest := by
  rw [parseXpermList]
  split
  · rename_i herr
    rw [parseXperm_item item hrest] at herr
    cases herr
  · rename_i hok
    rw [parseXperm_item item hrest] at hok
    cases hok
    rfl

/-- Items in braces are read to the brace, one entry each. -/
theorem parseXpermList_items (reset : Bool) (items : List XpermItem) (hne : items ≠ [])
    (xperms : List Xperm) (rest : List Token) :
    parseXpermList reset xperms (items.flatMap XpermItem.tokens ++ .RB :: rest)
      = .ok (xperms ++ items.map (XpermItem.xperm reset), rest) := by
  induction items generalizing xperms with
  | nil => exact absurd rfl hne
  | cons item items ih =>
      cases items with
      | nil =>
          rw [List.flatMap_cons, List.flatMap_nil, List.append_nil,
            parseXpermList_step reset item xperms (by simp)]
          simp
      | cons next items =>
          obtain ⟨value, tokens, hnext⟩ : ∃ value tokens,
              (next :: items).flatMap XpermItem.tokens ++ Token.RB :: rest
                = Token.HX value :: tokens := by
            cases next <;> exact ⟨_, _, rfl⟩
          rw [List.flatMap_cons, List.append_assoc,
            parseXpermList_step reset item xperms (by rw [hnext]; simp), if_neg (by rw [hnext]; simp),
            ih (by simp)]
          simp

def complementTokens (s t c : String) (items : List XpermItem) : List Token :=
  [.AX, .ID s, .ID t, .ID c, .ID "ioctl", .TL, .LB] ++ items.flatMap XpermItem.tokens ++ [.RB]

theorem parseStatementTokens_complement (s t c : String) {items : List XpermItem}
    (hne : items ≠ []) :
    parseStatementTokens (complementTokens s t c items)
      = .ok (.allowXperm [s] [t] [c] (items.map (XpermItem.xperm true))) := by
  have hlist := parseXpermList_items true items hne [] []
  simp only [complementTokens, List.cons_append, List.nil_append, parseStatementTokens,
    parseXpermStatement, parseSterm, matchString, parseXperms, parseXpermsBody, hlist,
    if_true, bind, Except.bind, checkAdditionalArgs, pure, Except.pure, mapErr]

end MagiskNative.Sepolicy
