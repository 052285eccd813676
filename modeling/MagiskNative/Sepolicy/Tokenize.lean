import MagiskNative.Lib.Text
import MagiskNative.Lib.Tokens
import MagiskNative.Sepolicy.Statement

/-!
# Tokens of a statement line

`tokenize_statement` cuts a line at whitespace and `extract_token` cuts each word further, at its
braces and commas and at the hyphen of a range.
-/

namespace MagiskNative.Sepolicy

def hexValue (c : Char) : Option Nat :=
  if '0' ≤ c ∧ c ≤ '9' then some (c.toNat - '0'.toNat)
  else if 'a' ≤ c ∧ c ≤ 'f' then some (c.toNat - 'a'.toNat + 10)
  else if 'A' ≤ c ∧ c ≤ 'F' then some (c.toNat - 'A'.toNat + 10)
  else none

def pushHex (acc : Nat) (c : Char) : Option Nat := do
  let d ← hexValue c
  if acc * 16 + d < 2 ^ 16 then some (acc * 16 + d) else none

/-- `u16::from_str_radix(s, 16)`, which also takes a plus sign in front of the digits. -/
def fromStrRadix (s : List Char) : Option UInt16 :=
  let digits := match s with
    | '+' :: digits => digits
    | s => s
  if digits = [] then none else (digits.foldlM pushHex 0).map UInt16.ofNat

def parseXpermHex : List Char → Option UInt16
  | '0' :: 'x' :: s => fromStrRadix s
  | _ => none

def upperDigit (d : Nat) : Char := if d < 10 then Char.ofNat (0x30 + d) else Char.ofNat (0x37 + d)

def upperDigits : List Char := (List.range 16).map upperDigit

/-- The four digits of the format `%04X` for a 16-bit value. -/
def upperHex (value : UInt16) : List Char :=
  [upperDigit (value.toNat / 4096), upperDigit (value.toNat / 256 % 16),
    upperDigit (value.toNat / 16 % 16), upperDigit (value.toNat % 16)]

def splitChar (c : Char) : List Char → Option (List Char × List Char)
  | [] => none
  | x :: s => if x = c then some ([], s) else (splitChar c s).map fun (a, b) => (x :: a, b)

variable {a s : List Char} {c : Char} {d : Nat}

theorem splitChar_eq_some {b : List Char} (hsplit : splitChar c s = some (a, b)) :
    s = a ++ c :: b := by
  induction s generalizing a with
  | nil => cases hsplit
  | cons x s ih =>
      rw [splitChar] at hsplit
      split at hsplit
      · rename_i hx
        cases hsplit
        rw [hx, List.nil_append]
      · cases htail : splitChar c s with
        | none => simp [htail] at hsplit
        | some parts =>
            obtain ⟨a', b'⟩ := parts
            simp only [htail, Option.map_some, Option.some.injEq, Prod.mk.injEq] at hsplit
            rw [ih (hsplit.2 ▸ htail), ← hsplit.1, List.cons_append]

theorem splitChar_eq_none (hs : c ∉ s) : splitChar c s = none := by
  induction s with
  | nil => rfl
  | cons x s ih =>
      rw [List.mem_cons, not_or] at hs
      rw [splitChar, if_neg (Ne.symm hs.1), ih hs.2, Option.map_none]

theorem splitChar_append (ha : c ∉ a) (b : List Char) :
    splitChar c (a ++ c :: b) = some (a, b) := by
  induction a with
  | nil => rw [List.nil_append, splitChar, if_pos rfl]
  | cons x a ih =>
      rw [List.mem_cons, not_or] at ha
      rw [List.cons_append, splitChar, if_neg (Ne.symm ha.1), ih ha.2, Option.map_some]

theorem splitChar_length_lt {b : List Char} (hsplit : splitChar c s = some (a, b)) :
    a.length < s.length ∧ b.length < s.length := by
  rw [splitChar_eq_some hsplit]
  simp
  omega

theorem tail_length_lt (hhead : s.head? = some c) :
    s.tail.length < s.length := by
  cases s with
  | nil => cases hhead
  | cons x s => simp

def keyword (s : List Char) : Option (List Token) :=
  match String.ofList s with
  | "allow" => some [.AL]
  | "deny" => some [.DN]
  | "auditallow" => some [.AA]
  | "dontaudit" => some [.DA]
  | "allowxperm" => some [.AX]
  | "auditallowxperm" => some [.AY]
  | "dontauditxperm" => some [.DX]
  | "permissive" => some [.PM]
  | "enforce" => some [.EF]
  | "typeattribute" => some [.TA]
  | "type" => some [.TY]
  | "attribute" => some [.AT]
  | "type_transition" => some [.TT]
  | "type_change" => some [.TC]
  | "type_member" => some [.TM]
  | "genfscon" => some [.GF]
  | "*" => some [.ST]
  | "-" => some [.HP]
  | "" => some []
  | _ => none

def extractLast (s : List Char) : List Token :=
  match parseXpermHex s with
  | some n => [.HX n]
  | none => [.ID (String.ofList s)]

def extractToken (s : List Char) : List Token :=
  match keyword s with
  | some tokens => tokens
  | none =>
      match hlb : splitChar '{' s with
      | some (a, b) =>
          have := splitChar_length_lt hlb
          extractToken a ++ .LB :: extractToken b
      | none =>
          match hrb : splitChar '}' s with
          | some (a, b) =>
              have := splitChar_length_lt hrb
              extractToken a ++ .RB :: extractToken b
          | none =>
              match hcm : splitChar ',' s with
              | some (a, b) =>
                  have := splitChar_length_lt hcm
                  extractToken a ++ .CM :: extractToken b
              | none =>
                  if htilde : s.head? = some '~' then
                    have := tail_length_lt htilde
                    .TL :: extractToken s.tail
                  else
                    match hhp : splitChar '-' s with
                    | some (a, b) =>
                        have := splitChar_length_lt hhp
                        if (parseXpermHex a).isSome then extractToken a ++ .HP :: extractToken b
                        else extractLast s
                    | none => extractLast s
termination_by s.length
decreasing_by all_goals omega

def isWhiteSpace (c : Char) : Bool :=
  (0x09 ≤ c.toNat && c.toNat ≤ 0x0D) || (0x2000 ≤ c.toNat && c.toNat ≤ 0x200A)
    || c.toNat ∈ [0x20, 0x85, 0xA0, 0x1680, 0x2028, 0x2029, 0x202F, 0x205F, 0x3000]

def splitWhitespace (s : List Char) : List (List Char) :=
  (s.splitOnP isWhiteSpace).filter (· ≠ [])

def tokenizeStatement (statement : List Char) : List Token :=
  (splitWhitespace statement).flatMap extractToken

theorem extractToken_nil : extractToken [] = [] := by
  rw [extractToken]
  rfl

theorem extractToken_keyword {tokens : List Token} (hkey : keyword s = some tokens) :
    extractToken s = tokens := by
  rw [extractToken, hkey]

theorem extractToken_plain (hkey : keyword s = none) (hplain : ∀ c ∈ s, c ∉ ['{', '}', ',', '~']) :
    extractToken s = match splitChar '-' s with
      | some (a, b) =>
          if (parseXpermHex a).isSome then extractToken a ++ .HP :: extractToken b
          else extractLast s
      | none => extractLast s := by
  have hnone : ∀ c ∈ ['{', '}', ',', '~'], splitChar c s = none :=
    fun c hc => splitChar_eq_none fun hmem => hplain c hmem hc
  have htilde : ¬ s.head? = some '~' := fun hhead =>
    hplain '~' (List.mem_of_mem_head? hhead) (by simp)
  rw [extractToken, hkey]
  simp only [htilde, dite_false]
  split
  · rename_i hlb
    cases (hnone '{' (by simp)).symm.trans hlb
  · split
    · rename_i hrb
      cases (hnone '}' (by simp)).symm.trans hrb
    · split
      · rename_i hcm
        cases (hnone ',' (by simp)).symm.trans hcm
      · split <;> rename_i hhp <;> rw [hhp]

theorem extractToken_lb : extractToken ['{'] = [.LB] := by
  have hkey : keyword ['{'] = none := rfl
  rw [extractToken]
  simp [hkey, splitChar, extractToken_nil]

theorem extractToken_rb : extractToken ['}'] = [.RB] := by
  have hkey : keyword ['}'] = none := rfl
  rw [extractToken]
  simp [hkey, splitChar, extractToken_nil]

theorem keyword_zero (s : List Char) : keyword ('0' :: s) = none := by
  unfold keyword
  split
  all_goals first
    | rfl
    | rename_i hword
      have hlist := congrArg String.toList hword
      rw [String.toList_ofList] at hlist
      have hhead : some '0' = _ := congrArg List.head? hlist
      revert hhead
      decide

theorem hexValue_upperDigit (hd : d < 16) : hexValue (upperDigit d) = some d := by
  interval_cases d <;> rfl

theorem upperDigit_mem (hd : d < 16) : upperDigit d ∈ upperDigits :=
  List.mem_map_of_mem (List.mem_range.2 hd)

theorem pushHex_upperDigit {acc : Nat} (hd : d < 16) (hacc : acc * 16 + d < 2 ^ 16) :
    pushHex acc (upperDigit d) = some (acc * 16 + d) := by
  rw [pushHex, hexValue_upperDigit hd, Option.bind_eq_bind, Option.bind_some, if_pos hacc]

def hexWord (value : UInt16) : List Char := '0' :: 'x' :: upperHex value

theorem parseXpermHex_hexWord (value : UInt16) : parseXpermHex (hexWord value) = some value := by
  have hlt := value.toNat_lt
  have hplus : upperDigit (value.toNat / 4096) ≠ '+' := by
    intro heq
    have hmem : upperDigit (value.toNat / 4096) ∈ upperDigits := upperDigit_mem (by omega)
    rw [heq] at hmem
    revert hmem
    decide
  have hdigits : (upperHex value).foldlM pushHex 0 = some value.toNat := by
    simp only [upperHex, List.foldlM_cons, List.foldlM_nil, Option.bind_eq_bind]
    rw [pushHex_upperDigit (by omega) (by omega), Option.bind_some,
      pushHex_upperDigit (by omega) (by omega), Option.bind_some,
      pushHex_upperDigit (by omega) (by omega), Option.bind_some,
      pushHex_upperDigit (by omega) (by omega), Option.bind_some]
    exact congrArg some (by omega)
  rw [hexWord, parseXpermHex, fromStrRadix]
  · rw [if_neg (by simp [upperHex]), hdigits, Option.map_some, UInt16.ofNat_toNat]
  · intro digits hhead
    exact hplus (List.cons.inj hhead).1

theorem mem_hexWord {value : UInt16} (hc : c ∈ hexWord value) :
    c ∈ 'x' :: upperDigits := by
  have hlt := value.toNat_lt
  simp only [hexWord, upperHex, List.mem_cons, List.not_mem_nil, or_false] at hc
  rcases hc with rfl | rfl | rfl | rfl | rfl | rfl
  · decide
  · decide
  all_goals exact List.mem_cons_of_mem _ (upperDigit_mem (by omega))

theorem not_mem_hexWord {value : UInt16} (hc : c ∉ 'x' :: upperDigits) :
    c ∉ hexWord value :=
  fun hmem => hc (mem_hexWord hmem)

theorem extractToken_hexWord (value : UInt16) : extractToken (hexWord value) = [.HX value] := by
  have hplain : ∀ c ∈ hexWord value, c ∉ ['{', '}', ',', '~'] := by
    intro c hc
    exact Text.forall_mem_of_all (p := fun c => c ∉ ['{', '}', ',', '~']) rfl c (mem_hexWord hc)
  have hkey : keyword (hexWord value) = none := keyword_zero _
  rw [extractToken_plain hkey hplain, splitChar_eq_none (not_mem_hexWord (by decide)),
    extractLast, parseXpermHex_hexWord]

theorem extractToken_range (low high : UInt16) :
    extractToken (hexWord low ++ '-' :: hexWord high) = [.HX low, .HP, .HX high] := by
  have hplain : ∀ c ∈ hexWord low ++ '-' :: hexWord high, c ∉ ['{', '}', ',', '~'] := by
    intro c hc
    have hdigit : c ∈ '-' :: 'x' :: upperDigits := by
      rcases List.mem_append.1 hc with hlow | hhigh
      · exact List.mem_cons_of_mem _ (mem_hexWord hlow)
      · rcases List.mem_cons.1 hhigh with rfl | hhigh
        · exact List.mem_cons_self
        · exact List.mem_cons_of_mem _ (mem_hexWord hhigh)
    exact Text.forall_mem_of_all (p := fun c => c ∉ ['{', '}', ',', '~']) rfl c hdigit
  have hkey : keyword (hexWord low ++ '-' :: hexWord high) = none := keyword_zero _
  rw [extractToken_plain hkey hplain, splitChar_append (not_mem_hexWord (by decide))]
  simp only [parseXpermHex_hexWord, Option.isSome_some, if_true, extractToken_hexWord,
    List.cons_append, List.nil_append]

theorem splitWhitespace_eq_tokens (s : List Char) : splitWhitespace s = Tokens.tokens isWhiteSpace s := by
  unfold splitWhitespace Tokens.tokens
  congr 1
  funext t
  cases t <;> rfl

theorem tokenizeStatement_space (u : List Char) {sep : Char} (hsep : isWhiteSpace sep = true)
    (v : List Char) :
    tokenizeStatement (u ++ sep :: v) = tokenizeStatement u ++ tokenizeStatement v := by
  unfold tokenizeStatement
  rw [splitWhitespace_eq_tokens, Tokens.tokens_append_cons u hsep, List.flatMap_append,
    ← splitWhitespace_eq_tokens, ← splitWhitespace_eq_tokens]

theorem tokenizeStatement_last {w : List Char} (hw : ∀ c ∈ w, isWhiteSpace c = false) :
    tokenizeStatement w = extractToken w := by
  unfold tokenizeStatement
  rw [splitWhitespace_eq_tokens, Tokens.tokens_of_free hw]
  split
  · rename_i hnil
    rw [hnil, extractToken_nil, List.flatMap_nil]
  · rw [List.flatMap_singleton]

theorem tokenizeStatement_word {w : List Char} (hw : ∀ c ∈ w, isWhiteSpace c = false)
    {sep : Char} (hsep : isWhiteSpace sep = true) (s : List Char) :
    tokenizeStatement (w ++ sep :: s) = extractToken w ++ tokenizeStatement s := by
  rw [tokenizeStatement_space w hsep, tokenizeStatement_last hw]

structure IsName (name : String) : Prop where
  word : ∀ c ∈ name.toList, isWhiteSpace c = false
  token : extractToken name.toList = [.ID name]

theorem isName_of_plain {name : String} (hkey : keyword name.toList = none)
    (hplain : ∀ c ∈ name.toList, c ∉ ['{', '}', ',', '~'])
    (hword : ∀ c ∈ name.toList, isWhiteSpace c = false)
    (hhp : splitChar '-' name.toList = none) (hhex : parseXpermHex name.toList = none) :
    IsName name := by
  refine ⟨hword, ?_⟩
  rw [extractToken_plain hkey hplain, hhp]
  simp only [extractLast, hhex, String.ofList_toList]

end MagiskNative.Sepolicy
