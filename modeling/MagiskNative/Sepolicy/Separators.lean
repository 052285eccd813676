import MagiskNative.Sepolicy.Grammar
import MagiskNative.Sepolicy.Tokenize

/-!
# Braces and commas

A brace or a comma is a token of its own wherever it stands in a word, so the white space around it
makes no difference. The parsers know nothing of commas: no list may have one.
-/

namespace MagiskNative.Sepolicy

def separator : Char → Option Token
  | '{' => some .LB
  | '}' => some .RB
  | ',' => some .CM
  | _ => none

variable {c : Char} {s w : List Char} {tokens : List Token}

theorem splitChar_eq_none_iff : splitChar c s = none ↔ c ∉ s := by
  refine ⟨fun hnone hmem => ?_, splitChar_eq_none⟩
  induction s with
  | nil => cases hmem
  | cons x s ih =>
      rw [splitChar] at hnone
      split at hnone
      · cases hnone
      · rename_i hx
        rw [Option.map_eq_none_iff] at hnone
        exact ih hnone ((List.mem_cons.1 hmem).resolve_left (Ne.symm hx))

theorem separator_of_keyword (hkey : keyword s = some tokens) :
    ∀ c ∈ s, separator c = none := by
  unfold keyword at hkey
  split at hkey
  all_goals first
    | cases hkey
      done
    | rename_i hword
      rw [← String.toList_ofList (l := s), hword]
      exact Text.forall_mem_of_all rfl

theorem exists_extractToken_cut (hc : (separator c).isSome) (hmem : c ∈ s) :
    ∃ a b x t, s = a ++ x :: b ∧ separator x = some t ∧
      extractToken s = extractToken a ++ t :: extractToken b := by
  have hkey : keyword s = none := by
    cases hkey : keyword s with
    | none => rfl
    | some tokens =>
        rw [separator_of_keyword hkey c hmem] at hc
        cases hc
  rw [extractToken, hkey]
  dsimp only
  split
  · rename_i a b hlb
    exact ⟨a, b, '{', .LB, splitChar_eq_some hlb, rfl, rfl⟩
  · rename_i hlb
    split
    · rename_i a b hrb
      exact ⟨a, b, '}', .RB, splitChar_eq_some hrb, rfl, rfl⟩
    · rename_i hrb
      split
      · rename_i a b hcm
        exact ⟨a, b, ',', .CM, splitChar_eq_some hcm, rfl, rfl⟩
      · rename_i hcm
        rw [splitChar_eq_none_iff] at hlb hrb hcm
        exfalso
        unfold separator at hc
        split at hc
        · exact hlb hmem
        · exact hrb hmem
        · exact hcm hmem
        · cases hc

/-- The tokens of a word do not depend on where it is cut first. The induction is on the length of the
word: its own cut is before, at or behind the separator `c`. -/
theorem extractToken_separator (a b : List Char) {t : Token} (hc : separator c = some t) :
    extractToken (a ++ c :: b) = extractToken a ++ t :: extractToken b := by
  induction hn : (a ++ c :: b).length using Nat.strong_induction_on generalizing a b c t with
  | _ n ih =>
      have hshorter : ∀ a b c t, separator c = some t → a.length + b.length + 1 < n →
          extractToken (a ++ c :: b) = extractToken a ++ t :: extractToken b := by
        intro a b c t hc hlt
        refine ih _ ?_ a b hc rfl
        rw [List.length_append, List.length_cons]
        omega
      obtain ⟨a', b', x, t', hword, hx, hcut⟩ :=
        exists_extractToken_cut (s := a ++ c :: b) (by rw [hc]; rfl) (by simp)
      rw [hcut]
      rw [List.length_append, List.length_cons] at hn
      rcases List.append_eq_append_iff.1 hword with ⟨m, rfl, hb⟩ | ⟨m, rfl, hb'⟩
      · cases m with
        | nil =>
            cases hb
            cases hc.symm.trans hx
            rw [List.append_nil]
        | cons y m =>
            rw [List.cons_append, List.cons.injEq] at hb
            obtain ⟨rfl, rfl⟩ := hb
            rw [List.length_append, List.length_cons] at hn
            rw [hshorter a m c t hc (by omega), hshorter m b' x t' hx (by omega), List.append_assoc,
              List.cons_append]
      · cases m with
        | nil =>
            cases hb'
            cases hc.symm.trans hx
            rw [List.append_nil]
        | cons y m =>
            rw [List.cons_append, List.cons.injEq] at hb'
            obtain ⟨rfl, rfl⟩ := hb'
            rw [List.length_append, List.length_cons] at hn
            rw [hshorter m b c t hc (by omega), hshorter a' m x t' hx (by omega), List.append_assoc,
              List.cons_append]

theorem tokenizeStatement_separator (u v : List Char) {t : Token} (hc : separator c = some t) :
    tokenizeStatement (u ++ c :: v) = tokenizeStatement u ++ t :: tokenizeStatement v := by
  have hspace : isWhiteSpace c = false := by
    unfold separator at hc
    split at hc
    · decide
    · decide
    · decide
    · cases hc
  have hfree : ∀ {a b : List Char}, Tokens.Free isWhiteSpace a → Tokens.Free isWhiteSpace b →
      ∀ x ∈ a ++ c :: b, isWhiteSpace x = false := by
    intro a b ha hb x hx
    rcases List.mem_append.1 hx with hx | hx
    · exact ha x hx
    · rcases List.mem_cons.1 hx with rfl | hx
      · exact hspace
      · exact hb x hx
  induction u using Tokens.induction isWhiteSpace with
  | hlast a ha =>
      rw [tokenizeStatement_last ha]
      induction v using Tokens.induction isWhiteSpace with
      | hlast b hb =>
          rw [tokenizeStatement_last (hfree ha hb), tokenizeStatement_last hb, extractToken_separator a b hc]
      | hmore b sep v hb hsep _ =>
          rw [← List.cons_append, ← List.append_assoc, tokenizeStatement_word (hfree ha hb) hsep,
            tokenizeStatement_word hb hsep, extractToken_separator a b hc, List.append_assoc,
            List.cons_append]
  | hmore a sep u ha hsep ih =>
      rw [List.append_assoc, List.cons_append, tokenizeStatement_word ha hsep, ih,
        tokenizeStatement_word ha hsep, List.append_assoc]

def IsSpace (w : List Char) : Prop := ∀ c ∈ w, isWhiteSpace c = true

theorem tokenizeStatement_append_space (u : List Char) (hw : IsSpace w) :
    tokenizeStatement (u ++ w) = tokenizeStatement u := by
  induction w generalizing u with
  | nil => rw [List.append_nil]
  | cons c w ih =>
      have hrest : tokenizeStatement w = [] := by
        rw [← List.nil_append w, ih [] fun x hx => hw x (List.mem_cons_of_mem c hx)]
        rfl
      rw [tokenizeStatement_space u (hw c List.mem_cons_self), hrest, List.append_nil]

theorem tokenizeStatement_space_append (hw : IsSpace w) (v : List Char) :
    tokenizeStatement (w ++ v) = tokenizeStatement v := by
  induction w with
  | nil => rfl
  | cons c w ih =>
      rw [List.cons_append, ← List.nil_append (c :: (w ++ v)),
        tokenizeStatement_space [] (hw c List.mem_cons_self),
        ih fun x hx => hw x (List.mem_cons_of_mem c hx)]
      rfl

/-- White space is put before or behind a separator. -/
inductive Spaced : List Char → List Char → Prop
  | before (u v : List Char) {w : List Char} {c : Char} (hc : (separator c).isSome) (hw : IsSpace w) :
      Spaced (u ++ c :: v) (u ++ (w ++ c :: v))
  | behind (u v : List Char) {w : List Char} {c : Char} (hc : (separator c).isSome) (hw : IsSpace w) :
      Spaced (u ++ c :: v) (u ++ c :: (w ++ v))

theorem Spaced.tokenizeStatement_eq {s' : List Char} (hspaced : Spaced s s') :
    tokenizeStatement s = tokenizeStatement s' := by
  cases hspaced with
  | before u v hc hw =>
      obtain ⟨t, ht⟩ := Option.isSome_iff_exists.1 hc
      rw [tokenizeStatement_separator u v ht, ← List.append_assoc, tokenizeStatement_separator _ v ht,
        tokenizeStatement_append_space u hw]
  | behind u v hc hw =>
      obtain ⟨t, ht⟩ := Option.isSome_iff_exists.1 hc
      rw [tokenizeStatement_separator u v ht, tokenizeStatement_separator u _ ht,
        tokenizeStatement_space_append hw]

/-- **White space at separators.** Putting it in and taking it out, at any separators and any number of
times, leaves the tokens as they are. -/
theorem tokenizeStatement_respaced {s s' : List Char} (hspaced : Relation.EqvGen Spaced s s') :
    tokenizeStatement s = tokenizeStatement s' := by
  induction hspaced with
  | rel s s' hspaced => exact hspaced.tokenizeStatement_eq
  | refl s => rfl
  | symm s s' _ ih => exact ih.symm
  | trans s s' s'' _ _ ih ih' => exact ih.trans ih'

theorem tokenizeStatement_respaced_lb :
    tokenizeStatement ("allow".toList ++ '{' :: "s t".toList)
      = tokenizeStatement ("allow".toList ++ ([' '] ++ '{' :: ([' '] ++ "s t".toList))) := by
  have hspace : IsSpace [' '] := by simp [IsSpace, isWhiteSpace]
  refine tokenizeStatement_respaced (.trans _ _ _ (.rel _ _ (.before "allow".toList "s t".toList rfl hspace)) ?_)
  exact .rel _ _ (.behind ("allow".toList ++ [' ']) "s t".toList (c := '{') rfl hspace)

def InBraces (u : List Char) : Prop := ∃ a b, u = a ++ '{' :: b ∧ ∀ c ∈ b, c ≠ '{' ∧ c ≠ '}'

/-- The tokens that an element of a list can begin or end with. -/
def Token.Element : Token → Prop
  | .ID _ => True
  | .ST => True
  | .HX _ => True
  | _ => False

/-- The white space between two elements of a list makes way for a comma. -/
inductive CommaFor : List Char → List Char → Prop
  | mk {u v w left right : List Char} {t t' : Token} (hbraces : InBraces u) (hw : IsSpace w) (hne : w ≠ [])
      (hlast : (tokenizeStatement u).getLast? = some t) (ht : t.Element)
      (hfirst : (tokenizeStatement v).head? = some t') (ht' : t'.Element)
      (hleft : IsSpace left) (hright : IsSpace right) :
      CommaFor (u ++ (w ++ v)) (u ++ (left ++ ',' :: (right ++ v)))

theorem tokenizeStatement_gap (u v : List Char) (hw : IsSpace w) (hne : w ≠ []) :
    tokenizeStatement (u ++ (w ++ v)) = tokenizeStatement u ++ tokenizeStatement v := by
  obtain ⟨c, w, rfl⟩ := List.exists_cons_of_ne_nil hne
  rw [List.cons_append, tokenizeStatement_space u (hw c List.mem_cons_self),
    tokenizeStatement_space_append fun x hx => hw x (List.mem_cons_of_mem c hx)]

theorem CommaFor.exists_tokens {s' : List Char} (hcomma : CommaFor s s') :
    ∃ action before after, tokenizeStatement s = action :: before ++ after ∧
      tokenizeStatement s' = action :: before ++ .CM :: after := by
  cases hcomma with
  | @mk u v w left right t t' hbraces hw hne hlast ht hfirst ht' hleft hright =>
      obtain ⟨action, before, hu⟩ : ∃ action before, tokenizeStatement u = action :: before :=
        List.exists_cons_of_ne_nil (by rintro hnil; rw [hnil] at hlast; cases hlast)
      refine ⟨action, before, tokenizeStatement v, ?_, ?_⟩
      · rw [tokenizeStatement_gap u v hw hne, hu]
      · rw [← List.append_assoc, tokenizeStatement_separator _ _ (c := ',') rfl,
          tokenizeStatement_append_space u hleft, tokenizeStatement_space_append hright, hu]

theorem Sterm.comma_not_mem (t : Sterm) : Token.CM ∉ t.tokens := by
  cases t with
  | one name => cases name <;> simp [tokens, Name.token]
  | braces names =>
      simp only [tokens, List.cons_append, List.mem_cons, List.mem_append, List.mem_map, reduceCtorEq,
        List.not_mem_nil, or_false, false_or]
      rintro ⟨name, -, hname⟩
      cases name <;> cases hname

theorem Term.comma_not_mem (t : Term) : Token.CM ∉ t.tokens := by
  rw [← Term.tokens_toSterm]
  exact t.toSterm.comma_not_mem

theorem Xperms.comma_not_mem (x : Xperms) : Token.CM ∉ x.tokens := by
  have hitem : ∀ item : XpermItem, Token.CM ∉ item.tokens := by
    intro item
    cases item <;> simp [XpermItem.tokens]
  cases x with
  | item i => exact hitem i
  | star => simp [tokens]
  | braces first rest => simp [tokens, hitem]
  | complement first rest => simp [tokens, hitem]

theorem Statement.comma_not_mem (s : Statement) : Token.CM ∉ s.tokens := by
  cases s with
  | av action src target cls perm =>
      cases action <;> simp [tokens, AvAction.token, Sterm.comma_not_mem]
  | xperm action src target cls xperms =>
      cases action <;> simp [tokens, XpermAction.token, Sterm.comma_not_mem, Xperms.comma_not_mem]
  | state action types => cases action <;> simp [tokens, StateAction.token, Sterm.comma_not_mem]
  | typeAttribute types attr => simp [tokens, Term.comma_not_mem]
  | type name attr => cases attr <;> simp [tokens, Term.comma_not_mem]
  | «attribute» attr => simp [tokens]
  | typeTransition src target cls default object => cases object <;> simp [tokens]
  | typeRule action src target cls default => cases action <;> simp [tokens, TypeAction.token]
  | genfsCon fsName path context => simp [tokens]

theorem exists_error_of_comma (hcomma : Token.CM ∈ tokens) :
    ∃ e, parseStatementTokens tokens = .error e := by
  cases hparse : parseStatementTokens tokens with
  | error e => exact ⟨e, rfl⟩
  | ok value =>
      obtain ⟨s, rfl, -, -⟩ := parseStatementTokens_eq_ok_iff.1 hparse
      exact absurd hcomma s.comma_not_mem

theorem error_of_action {action : Token} {tokens' : List Token} {e e' : ParseError}
    (herror : parseStatementTokens (action :: tokens) = .error e)
    (herror' : parseStatementTokens (action :: tokens') = .error e') : e = e' := by
  have hmap : ∀ {result result' : Except ParseError PolicyStatement} {e₀ e e' : ParseError},
      mapErr result e₀ = .error e → mapErr result' e₀ = .error e' → e = e' := by
    intro result result' e₀ e e' h h'
    cases result with
    | ok value => cases h
    | error _ =>
        cases result' with
        | ok value => cases h'
        | error _ =>
            cases h
            cases h'
            rfl
  cases action <;> first
    | exact hmap herror herror'
    | exact Except.error.inj (herror.symm.trans herror')

/-- **Commas in lists.** A statement in which commas have taken the place of white space in lists parses to
the same result exactly if it did not parse before. -/
theorem parse_commaFor_iff {s s' : List Char} (hcommas : Relation.TransGen CommaFor s s') :
    parseStatementTokens (tokenizeStatement s') = parseStatementTokens (tokenizeStatement s) ↔
      ∃ e, parseStatementTokens (tokenizeStatement s) = .error e := by
  have hsame : ∃ action rest rest', tokenizeStatement s = action :: rest ∧
      tokenizeStatement s' = action :: rest' ∧ Token.CM ∈ rest' := by
    induction hcommas with
    | single hcomma =>
        obtain ⟨action, before, after, hs, hs'⟩ := hcomma.exists_tokens
        exact ⟨action, _, _, hs, hs', by simp⟩
    | tail _ hcomma ih =>
        obtain ⟨action, rest, rest', hs, hmid, -⟩ := ih
        obtain ⟨action', before, after, hmid', hs'⟩ := hcomma.exists_tokens
        cases hmid.symm.trans hmid'
        exact ⟨action, rest, _, hs, hs', by simp⟩
  obtain ⟨action, rest, rest', hs, hs', hcomma⟩ := hsame
  obtain ⟨e', he'⟩ := exists_error_of_comma (List.mem_cons_of_mem action hcomma)
  rw [hs, hs', he']
  constructor
  · intro heq
    exact ⟨e', heq.symm⟩
  · rintro ⟨e, he⟩
    rw [he, error_of_action he' he]

section Sample

theorem isName_listWords : ∀ name ∈ ["s1", "s2", "t", "c", "p"], IsName name := by
  have hname : ∀ name ∈ ["s1", "s2", "t", "c", "p"], keyword name.toList = none ∧
      (∀ c ∈ name.toList, c ∉ ['{', '}', ',', '~']) ∧ (∀ c ∈ name.toList, isWhiteSpace c = false) ∧
      splitChar '-' name.toList = none ∧ parseXpermHex name.toList = none := by
    simp only [List.forall_mem_cons, List.not_mem_nil, false_imp_iff, implies_true, and_true]
    refine ⟨?_, ?_, ?_, ?_, ?_⟩
    all_goals exact ⟨rfl, Text.forall_mem_of_all (by decide), Text.forall_mem_of_all (by decide), rfl, rfl⟩
  intro name hmem
  obtain ⟨hkey, hplain, hword, hhp, hhex⟩ := hname name hmem
  exact isName_of_plain hkey hplain hword hhp hhex

theorem tokenizeStatement_name {name : String} (hname : IsName name) :
    tokenizeStatement name.toList = [.ID name] := by
  rw [tokenizeStatement_last hname.word, hname.token]

def listStart : List Char := "allow".toList ++ ' ' :: ([] ++ '{' :: "s1".toList)

def listEnd : List Char :=
  "s2".toList ++ '}' :: ([] ++ ' ' :: ("t".toList ++ ' ' :: ("c".toList ++ ' ' :: "p".toList)))

theorem tokenizeStatement_listStart : tokenizeStatement listStart = [.AL, .LB, .ID "s1"] := by
  have hallow : tokenizeStatement "allow".toList = [.AL] := by
    rw [tokenizeStatement_last (Text.forall_mem_of_all rfl), extractToken_keyword rfl]
  rw [listStart, tokenizeStatement_space _ (by decide), hallow, tokenizeStatement_separator _ _ rfl,
    tokenizeStatement_name (isName_listWords "s1" (by simp))]
  rfl

theorem tokenizeStatement_listEnd :
    tokenizeStatement listEnd = [.ID "s2", .RB, .ID "t", .ID "c", .ID "p"] := by
  rw [listEnd, tokenizeStatement_separator _ _ rfl, tokenizeStatement_space _ (by decide),
    tokenizeStatement_space _ (by decide), tokenizeStatement_space _ (by decide),
    tokenizeStatement_name (isName_listWords "s2" (by simp)), tokenizeStatement_name (isName_listWords "t" (by simp)),
    tokenizeStatement_name (isName_listWords "c" (by simp)), tokenizeStatement_name (isName_listWords "p" (by simp))]
  rfl

theorem commaFor_listStart {v : List Char} (hv : (tokenizeStatement v).head? = some (.ID "s2")) :
    CommaFor (listStart ++ ([' '] ++ v)) (listStart ++ ([] ++ ',' :: ([] ++ v))) := by
  have hempty : IsSpace [] := nofun
  have hbraces : InBraces listStart := ⟨"allow ".toList, "s1".toList, by decide,
    Text.forall_mem_of_all (by decide)⟩
  have hlast : (tokenizeStatement listStart).getLast? = some (.ID "s1") := by
    rw [tokenizeStatement_listStart]
    rfl
  exact .mk hbraces (by simp [IsSpace, isWhiteSpace]) (by simp) hlast trivial hv trivial hempty hempty

theorem parse_commaFor_incomplete :
    CommaFor (listStart ++ ([' '] ++ "s2".toList)) (listStart ++ ([] ++ ',' :: ([] ++ "s2".toList))) ∧
      parseStatementTokens (tokenizeStatement (listStart ++ ([] ++ ',' :: ([] ++ "s2".toList))))
        = parseStatementTokens (tokenizeStatement (listStart ++ ([' '] ++ "s2".toList))) := by
  have hs2 : tokenizeStatement "s2".toList = [.ID "s2"] :=
    tokenizeStatement_name (isName_listWords "s2" (by simp))
  have hcomma := commaFor_listStart (v := "s2".toList) (by rw [hs2]; rfl)
  refine ⟨hcomma, (parse_commaFor_iff (.single hcomma)).2 ⟨.avtabAv .AL, ?_⟩⟩
  rw [tokenizeStatement_gap _ _ (by simp [IsSpace, isWhiteSpace]) (by simp), tokenizeStatement_listStart, hs2]
  rfl

/-- `allow {s1 s2} t c p` is a rule; `allow {s1,s2} t c p` is none. -/
theorem parse_commaFor_list :
    CommaFor (listStart ++ ([' '] ++ listEnd)) (listStart ++ ([] ++ ',' :: ([] ++ listEnd))) ∧
      parseStatementTokens (tokenizeStatement (listStart ++ ([' '] ++ listEnd)))
        = .ok (.allow ["s1", "s2"] ["t"] ["c"] ["p"]) ∧
      parseStatementTokens (tokenizeStatement (listStart ++ ([] ++ ',' :: ([] ++ listEnd))))
        = .error (.avtabAv .AL) := by
  refine ⟨commaFor_listStart (by rw [tokenizeStatement_listEnd]; rfl), ?_, ?_⟩
  · rw [tokenizeStatement_gap _ _ (by simp [IsSpace, isWhiteSpace]) (by simp), tokenizeStatement_listStart,
      tokenizeStatement_listEnd]
    rfl
  · rw [List.nil_append, List.nil_append, tokenizeStatement_separator _ _ rfl, tokenizeStatement_listStart,
      tokenizeStatement_listEnd]
    rfl

end Sample

end MagiskNative.Sepolicy
