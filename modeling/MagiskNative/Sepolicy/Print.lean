import MagiskNative.Sepolicy.Grammar
import MagiskNative.Sepolicy.Policy
import MagiskNative.Sepolicy.Tokenize

/-!
# Printing extended permissions

`print_avtab` writes the bitmap of a node as ranges of commands. A driver bit stands for 256
commands, but the printer writes only the lowest of them for each end of a range, and a range of one
bit becomes one command.
-/

namespace MagiskNative.Sepolicy

open Text

variable {i : Nat} {perms : BitVec 256} {r : UInt8 × UInt8}

/-- One round of the loop that collects the ranges: `low` is where the current range starts. -/
def rangeStep (perms : BitVec 256) : Option Nat × List (UInt8 × UInt8) → Nat →
    Option Nat × List (UInt8 × UInt8)
  | (low, ranges), i =>
      if perms.getLsbD i then
        let low := low.getD i
        (some low, if i = 255 then ranges ++ [(UInt8.ofNat low, 255)] else ranges)
      else
        match low with
        | some low => (none, ranges ++ [(UInt8.ofNat low, UInt8.ofNat (i - 1))])
        | none => (none, ranges)

def permRanges (perms : BitVec 256) : List (UInt8 × UInt8) :=
  ((List.range 256).foldl (rangeStep perms) (none, [])).2

/-- The bits from `low` to `high` are set and those next to them are not. -/
structure IsRun (perms : BitVec 256) (low high : Nat) : Prop where
  le : low ≤ high
  set : ∀ i, low ≤ i → i ≤ high → perms.getLsbD i = true
  left : ∀ i, i + 1 = low → perms.getLsbD i = false
  right : perms.getLsbD (high + 1) = false

def Isolated (perms : BitVec 256) (i : Nat) : Prop := IsRun perms i i

structure RangeInv (perms : BitVec 256) (n : Nat) (low : Option Nat)
    (ranges : List (UInt8 × UInt8)) : Prop where
  runs : ∀ r ∈ ranges, IsRun perms r.1.toNat r.2.toNat
  low_lt : ∀ l ∈ low, l < n
  open_set : ∀ l ∈ low, ∀ i, l ≤ i → i < n → perms.getLsbD i = true
  open_left : ∀ l ∈ low, ∀ i, i + 1 = l → perms.getLsbD i = false
  closed : low = none → ∀ i, i + 1 = n → perms.getLsbD i = false
  covered : ∀ i < n, perms.getLsbD i = true →
    (∃ r ∈ ranges, r.1.toNat ≤ i ∧ i ≤ r.2.toNat) ∨ n ≠ 256 ∧ ∃ l ∈ low, l ≤ i

section Loop

variable {perms : BitVec 256} {n : Nat} {low : Option Nat} {ranges : List (UInt8 × UInt8)}

theorem RangeInv.open_getD (hinv : RangeInv perms n low ranges) (hset : perms.getLsbD n = true) :
    low.getD n ≤ n ∧ (∀ i, low.getD n ≤ i → i ≤ n → perms.getLsbD i = true) ∧
      ∀ i, i + 1 = low.getD n → perms.getLsbD i = false := by
  cases low with
  | none =>
      refine ⟨le_rfl, fun i hge hle => ?_, hinv.closed rfl⟩
      rwa [le_antisymm hle hge]
  | some l =>
      refine ⟨(hinv.low_lt l rfl).le, fun i hge hle => ?_, hinv.open_left l rfl⟩
      rcases hle.lt_or_eq with hlt | rfl
      · exact hinv.open_set l rfl i hge hlt
      · exact hset

theorem RangeInv.covered_getD (hinv : RangeInv perms n low ranges) (hn : n < 256)
    (hi : i < n + 1) (hset : perms.getLsbD i = true) :
    (∃ r ∈ ranges, r.1.toNat ≤ i ∧ i ≤ r.2.toNat) ∨ low.getD n ≤ i := by
  rcases (Nat.lt_succ_iff_lt_or_eq.1 hi) with hlt | rfl
  · rcases hinv.covered i hlt hset with hr | ⟨-, l, rfl, hl⟩
    · exact .inl hr
    · exact .inr hl
  · right
    cases low with
    | none => exact le_rfl
    | some l => exact (hinv.low_lt l rfl).le

theorem rangeInv_step_set (hn : n < 256) (hinv : RangeInv perms n low ranges)
    (hset : perms.getLsbD n = true) :
    RangeInv perms (n + 1) (some (low.getD n))
      (if n = 255 then ranges ++ [(UInt8.ofNat (low.getD n), 255)] else ranges) := by
  obtain ⟨hle, hbits, hleft⟩ := hinv.open_getD hset
  have hval : (UInt8.ofNat (low.getD n)).toNat = low.getD n :=
    UInt8.toNat_ofNat_of_lt (by simp only [UInt8.size]; omega)
  refine ⟨?_, by simpa using by omega, ?_, by simpa using hleft, by simp, ?_⟩
  · intro r hr
    split at hr
    · rename_i hlast
      subst hlast
      rcases List.mem_append.1 hr with hr | hr
      · exact hinv.runs r hr
      · rw [List.mem_singleton.1 hr]
        refine ⟨?_, ?_, ?_, BitVec.getLsbD_of_ge _ _ le_rfl⟩
        all_goals simp only [hval]
        · exact hle
        · exact hbits
        · exact hleft
    · exact hinv.runs r hr
  · rintro l ⟨⟩ i hge hlt
    exact hbits i hge (by omega)
  · intro i hi hbit
    split
    · rename_i hlast
      subst hlast
      left
      rcases hinv.covered_getD hn hi hbit with ⟨r, hr, hin⟩ | hopen
      · exact ⟨r, List.mem_append_left _ hr, hin⟩
      · exact ⟨_, List.mem_append_right _ (List.mem_singleton.2 rfl), by rw [hval]; exact hopen,
          Nat.lt_succ_iff.1 hi⟩
    · rcases hinv.covered_getD hn hi hbit with hr | hopen
      · exact .inl hr
      · exact .inr ⟨by omega, _, rfl, hopen⟩

theorem rangeInv_step_clear (hn : n < 256) (hinv : RangeInv perms n low ranges)
    (hclear : perms.getLsbD n = false) :
    RangeInv perms (n + 1) none
      (low.elim ranges fun l => ranges ++ [(UInt8.ofNat l, UInt8.ofNat (n - 1))]) := by
  have hbelow : ∀ i < n + 1, perms.getLsbD i = true → i < n := by
    intro i hi hbit
    refine lt_of_le_of_ne (by omega) ?_
    rintro rfl
    rw [hclear] at hbit
    cases hbit
  have hclosed : ∀ i, i + 1 = n + 1 → perms.getLsbD i = false := by
    intro i hi
    rwa [Nat.succ_injective hi]
  refine ⟨?_, by simp, by simp, by simp, fun _ => hclosed, fun i hi hbit => .inl ?_⟩
  · cases low with
    | none => exact hinv.runs
    | some l =>
        have hlt := hinv.low_lt l rfl
        intro r hr
        rcases List.mem_append.1 hr with hr | hr
        · exact hinv.runs r hr
        · rw [List.mem_singleton.1 hr]
          have hl : (UInt8.ofNat l).toNat = l :=
            UInt8.toNat_ofNat_of_lt (by simp only [UInt8.size]; omega)
          have hh : (UInt8.ofNat (n - 1)).toNat = n - 1 :=
            UInt8.toNat_ofNat_of_lt (by simp only [UInt8.size]; omega)
          refine ⟨?_, ?_, ?_, ?_⟩
          all_goals simp only [hl, hh]
          · omega
          · exact fun i hge hle => hinv.open_set l rfl i hge (by omega)
          · exact hinv.open_left l rfl
          · rwa [show n - 1 + 1 = n by omega]
  · have hin := hbelow i hi hbit
    rcases hinv.covered i hin hbit with ⟨r, hr, hcov⟩ | ⟨-, l, rfl, hl⟩
    · refine ⟨r, ?_, hcov⟩
      cases low with
      | none => exact hr
      | some l => exact List.mem_append_left _ hr
    · have hlt := hinv.low_lt l rfl
      refine ⟨_, List.mem_append_right _ (List.mem_singleton.2 rfl), ?_, ?_⟩
      · rwa [UInt8.toNat_ofNat', Nat.mod_eq_of_lt (by omega)]
      · rw [UInt8.toNat_ofNat', Nat.mod_eq_of_lt (by omega)]
        omega

theorem rangeInv_step (hn : n < 256) (hinv : RangeInv perms n low ranges) :
    RangeInv perms (n + 1) (rangeStep perms (low, ranges) n).1
      (rangeStep perms (low, ranges) n).2 := by
  cases hbit : perms.getLsbD n with
  | true =>
      simp only [rangeStep, hbit, if_true]
      exact rangeInv_step_set hn hinv hbit
  | false =>
      have hstep := rangeInv_step_clear hn hinv hbit
      cases low with
      | none => simpa [rangeStep, hbit] using hstep
      | some l => simpa [rangeStep, hbit] using hstep

end Loop

theorem rangeInv_foldl (perms : BitVec 256) (n : Nat) (hn : n ≤ 256) :
    RangeInv perms n ((List.range n).foldl (rangeStep perms) (none, [])).1
      ((List.range n).foldl (rangeStep perms) (none, [])).2 := by
  induction n with
  | zero => exact ⟨by simp, by simp, by simp, by simp, by simp, by simp⟩
  | succ n ih =>
      rw [List.range_succ, List.foldl_append]
      exact rangeInv_step (by omega) (ih (by omega))

theorem isRun_of_mem (hr : r ∈ permRanges perms) :
    IsRun perms r.1.toNat r.2.toNat :=
  (rangeInv_foldl perms 256 le_rfl).runs r hr

theorem exists_mem_permRanges (hi : perms.getLsbD i = true) :
    ∃ r ∈ permRanges perms, r.1.toNat ≤ i ∧ i ≤ r.2.toNat := by
  have hlt : i < 256 := BitVec.lt_of_getLsbD hi
  rcases (rangeInv_foldl perms 256 le_rfl).covered i hlt hi with hr | ⟨hne, -⟩
  · exact hr
  · exact absurd rfl hne

theorem Isolated.eq_of_run {low high : Nat} (hi : Isolated perms i)
    (hrun : IsRun perms low high) (hlow : low ≤ i) (hhigh : i ≤ high) : low = i ∧ high = i := by
  refine ⟨le_antisymm hlow (not_lt.1 fun hlt => ?_), le_antisymm (not_lt.1 fun hlt => ?_) hhigh⟩
  · have hclear := hi.left (i - 1) (by omega)
    rw [hrun.set (i - 1) (by omega) (by omega)] at hclear
    cases hclear
  · have hclear := hi.right
    rw [hrun.set (i + 1) (by omega) (by omega)] at hclear
    cases hclear

theorem permRanges_eq_nil_iff : permRanges perms = [] ↔ perms = 0 := by
  constructor
  · intro hnil
    apply BitVec.eq_of_getLsbD_eq
    intro i hi
    by_contra hne
    have hset : perms.getLsbD i = true := by simpa using hne
    obtain ⟨r, hr, -⟩ := exists_mem_permRanges hset
    rw [hnil] at hr
    cases hr
  · rintro rfl
    apply List.eq_nil_iff_forall_not_mem.2
    intro r hr
    have hset := (isRun_of_mem hr).set _ le_rfl (isRun_of_mem hr).le
    simp at hset

namespace ExtendedPerms

variable (xperms : ExtendedPerms)

def permits (x : UInt16) : Bool :=
  match xperms.specified with
  | .ioctlDriver => xperms.perms.getLsbD (ioctlDriver x).toNat
  | .ioctlFunction =>
      decide (ioctlDriver x = xperms.driver) && xperms.perms.getLsbD (ioctlFunc x).toNat
  | .nlmsg => false

def toValue (val : UInt8) : UInt16 :=
  if xperms.specified = .ioctlFunction then (xperms.driver.toUInt16 <<< 8) ||| val.toUInt16
  else val.toUInt16 <<< 8

def rangeItem (range : UInt8 × UInt8) : XpermItem :=
  let low := xperms.toValue range.1
  let high := xperms.toValue range.2
  if low = high then .single low else .range low high

def items : List XpermItem :=
  (permRanges xperms.perms).map xperms.rangeItem

end ExtendedPerms

def XpermItem.word : XpermItem → List Char
  | single value => hexWord value
  | range low high => hexWord low ++ '-' :: hexWord high

def XpermsEffect.action : XpermsEffect → XpermAction
  | allowed => .allowXperm
  | auditAllow => .auditAllowXperm
  | dontAudit => .dontAuditXperm

def XpermsEffect.word : XpermsEffect → List Char
  | allowed => "allowxperm".toList
  | auditAllow => "auditallowxperm".toList
  | dontAudit => "dontauditxperm".toList

def xpermsText (effect : XpermsEffect) (src tgt cls : String) (items : List XpermItem) :
    List Char :=
  effect.word ++ ' ' :: (src.toList ++ ' ' :: (tgt.toList ++ ' ' :: (cls.toList ++ ' ' ::
    ("ioctl".toList ++ ' ' :: ('{' :: (items.flatMap fun item => ' ' :: item.word)
      ++ ' ' :: ['}'])))))

def printXperms (effect : XpermsEffect) (src tgt cls : String) (xperms : ExtendedPerms) :
    Option (List Char) :=
  if xperms.items = [] then none else some (xpermsText effect src tgt cls xperms.items ++ ['\n'])

def trim (s : List Char) : List Char :=
  ((s.dropWhile isWhiteSpace).reverse.dropWhile isWhiteSpace).reverse

def PolicyDb.parseLine (db : PolicyDb) (statement : List Char) : Option PolicyDb :=
  let statement := trim statement
  if statement = [] ∨ statement.head? = some '#' then some db
  else db.parseStatement (tokenizeStatement statement)

theorem XpermItem.isWhiteSpace_word (item : XpermItem) :
    ∀ c ∈ item.word, isWhiteSpace c = false := by
  have hhex : ∀ value : UInt16, ∀ c ∈ hexWord value, isWhiteSpace c = false := by
    intro value c hc
    exact forall_mem_of_all (p := fun c => isWhiteSpace c = false) rfl c (mem_hexWord hc)
  cases item with
  | single value => exact hhex value
  | range low high =>
      intro c hc
      rcases List.mem_append.1 hc with hlow | hhigh
      · exact hhex low c hlow
      · rcases List.mem_cons.1 hhigh with rfl | hhigh
        · decide
        · exact hhex high c hhigh

theorem XpermItem.extractToken_word (item : XpermItem) : extractToken item.word = item.tokens := by
  cases item with
  | single value => exact extractToken_hexWord value
  | range low high => exact extractToken_range low high

theorem tokenizeStatement_items {w : List Char} (hw : ∀ c ∈ w, isWhiteSpace c = false)
    (items : List XpermItem) :
    tokenizeStatement (w ++ (items.flatMap (fun item => ' ' :: item.word) ++ ' ' :: ['}']))
      = extractToken w ++ (items.flatMap XpermItem.tokens ++ [.RB]) := by
  induction items generalizing w with
  | nil =>
      rw [List.flatMap_nil, List.nil_append, tokenizeStatement_word hw (by decide),
        tokenizeStatement_last (forall_mem_of_all rfl), extractToken_rb, List.flatMap_nil, List.nil_append]
  | cons item items ih =>
      rw [List.flatMap_cons, List.append_assoc, List.cons_append,
        tokenizeStatement_word hw (by decide), ih item.isWhiteSpace_word, item.extractToken_word,
        List.flatMap_cons, List.append_assoc]

theorem XpermsEffect.extractToken_word (effect : XpermsEffect) :
    extractToken effect.word = [effect.action.token] := by
  cases effect <;> exact extractToken_keyword rfl

theorem XpermsEffect.isWhiteSpace_word (effect : XpermsEffect) :
    ∀ c ∈ effect.word, isWhiteSpace c = false := by
  cases effect <;> exact forall_mem_of_all rfl

theorem tokenizeStatement_xpermsText {s t c : String} (hs : IsName s) (ht : IsName t)
    (hc : IsName c) (effect : XpermsEffect) (first : XpermItem) (rest : List XpermItem) :
    tokenizeStatement (xpermsText effect s t c (first :: rest))
      = (Statement.xperm effect.action (.one (.id s)) (.one (.id t)) (.one (.id c))
          (.braces first rest)).tokens := by
  have hioctl : IsName "ioctl" :=
    isName_of_plain rfl (forall_mem_of_all rfl) (forall_mem_of_all rfl) rfl rfl
  unfold xpermsText
  rw [tokenizeStatement_word effect.isWhiteSpace_word (by decide),
    tokenizeStatement_word hs.word (by decide), tokenizeStatement_word ht.word (by decide),
    tokenizeStatement_word hc.word (by decide), tokenizeStatement_word hioctl.word (by decide),
    ← List.singleton_append, List.append_assoc, tokenizeStatement_items (forall_mem_of_all rfl)]
  rw [effect.extractToken_word, hs.token, ht.token, hc.token, hioctl.token, extractToken_lb]
  simp [Statement.tokens, Sterm.tokens, Name.token, Xperms.tokens]

theorem dropWhile_of_head? {s : List Char} {a : Char} (hhead : s.head? = some a)
    (ha : isWhiteSpace a = false) : s.dropWhile isWhiteSpace = s := by
  cases s with
  | nil => rfl
  | cons x s =>
      cases hhead
      rw [List.dropWhile_cons_of_neg (by simp [ha])]

theorem trim_newline {s : List Char} {a b : Char} (hhead : s.head? = some a)
    (ha : isWhiteSpace a = false) (hlast : s.getLast? = some b) (hb : isWhiteSpace b = false) :
    trim (s ++ ['\n']) = s := by
  have hfirst : (s ++ ['\n']).head? = some a := by
    rw [List.head?_append, hhead, Option.some_or]
  unfold trim
  rw [dropWhile_of_head? hfirst ha, List.reverse_append, List.reverse_singleton,
    List.singleton_append, List.dropWhile_cons_of_pos (by decide),
    dropWhile_of_head? (List.head?_reverse.trans hlast) hb, List.reverse_reverse]

theorem XpermsEffect.head?_word (effect : XpermsEffect) :
    ∃ a, effect.word.head? = some a ∧ isWhiteSpace a = false ∧ a ≠ '#' := by
  cases effect
  · exact ⟨'a', rfl, by decide, by decide⟩
  · exact ⟨'a', rfl, by decide, by decide⟩
  · exact ⟨'d', rfl, by decide, by decide⟩

theorem getLast?_xpermsText (effect : XpermsEffect) (s t c : String) (items : List XpermItem) :
    (xpermsText effect s t c items).getLast? = some '}' := by
  simp [xpermsText, List.getLast?_append, List.getLast?_cons]

theorem XpermsEffect.statement_action (effect : XpermsEffect) :
    effect.action.statement = effect.statement := by
  cases effect <;> rfl

theorem parseLine_xpermsText {s t c : String} (hs : IsName s) (ht : IsName t) (hc : IsName c)
    (db : PolicyDb) (effect : XpermsEffect) {items : List XpermItem} (hne : items ≠ []) :
    db.parseLine (xpermsText effect s t c items ++ ['\n'])
      = db.execXpermStatement
          (effect.statement [s] [t] [c] (items.map (XpermItem.xperm false))) := by
  obtain ⟨first, rest, rfl⟩ := List.exists_cons_of_ne_nil hne
  obtain ⟨a, hword, ha, hhash⟩ := effect.head?_word
  have hhead : (xpermsText effect s t c (first :: rest)).head? = some a := by
    rw [xpermsText, List.head?_append, hword, Option.some_or]
  have hskip : ¬ (xpermsText effect s t c (first :: rest) = [] ∨
      (xpermsText effect s t c (first :: rest)).head? = some '#') := by
    rw [hhead, Option.some.injEq]
    rintro (hnil | hsharp)
    · rw [hnil] at hhead
      cases hhead
    · exact hhash hsharp
  have hparse : parseStatementTokens (tokenizeStatement (xpermsText effect s t c (first :: rest)))
      = .ok (effect.statement [s] [t] [c] ((first :: rest).map (XpermItem.xperm false))) := by
    rw [tokenizeStatement_xpermsText hs ht hc, parseStatementTokens_eq_ok_iff,
      ← XpermsEffect.statement_action]
    exact ⟨_, rfl, not_false, rfl⟩
  unfold PolicyDb.parseLine
  simp only [trim_newline hhead ha (getLast?_xpermsText effect s t c _) (by decide), if_neg hskip,
    PolicyDb.parseStatement, hparse]

namespace ExtendedPerms

variable {xperms : ExtendedPerms}

theorem toNat_shiftLeft (val : UInt8) : (val.toUInt16 <<< 8).toNat = val.toNat * 256 := by
  have hval := val.toNat_lt
  have height : UInt16.toNat 8 % 16 = 8 := by decide
  rw [UInt16.toNat_shiftLeft, height, UInt8.toNat_toUInt16, Nat.shiftLeft_eq]
  omega

theorem toNat_toValue_func (hfunc : xperms.specified = .ioctlFunction) (val : UInt8) :
    (xperms.toValue val).toNat = xperms.driver.toNat * 256 + val.toNat := by
  have hval : val.toNat < 2 ^ 8 := val.toNat_lt
  rw [toValue, if_pos hfunc, UInt16.toNat_or, toNat_shiftLeft, UInt8.toNat_toUInt16,
    ← Nat.shiftLeft_eq _ 8, ← Nat.shiftLeft_add_eq_or_of_lt hval, Nat.shiftLeft_eq]

theorem toNat_toValue_driver (hdriver : xperms.specified = .ioctlDriver) (val : UInt8) :
    (xperms.toValue val).toNat = val.toNat * 256 := by
  rw [toValue, if_neg (by simp [hdriver]), toNat_shiftLeft]

theorem xperm_rangeItem (xperms : ExtendedPerms) (r : UInt8 × UInt8) :
    (xperms.rangeItem r).xperm false = ⟨xperms.toValue r.1, xperms.toValue r.2, false⟩ := by
  simp only [rangeItem]
  split
  · rename_i hsame
    simp only [XpermItem.xperm, XpermItem.low, XpermItem.high, hsame]
  · rfl

theorem inHull_func (hfunc : xperms.specified = .ioctlFunction) (r : UInt8 × UInt8) (x : UInt16) :
    ((xperms.rangeItem r).xperm false).InHull x ↔
      ioctlDriver x = xperms.driver ∧
        r.1.toNat ≤ (ioctlFunc x).toNat ∧ (ioctlFunc x).toNat ≤ r.2.toNat := by
  have hlow := toNat_toValue_func hfunc r.1
  have hhigh := toNat_toValue_func hfunc r.2
  have hlow_lt := r.1.toNat_lt
  have hhigh_lt := r.2.toNat_lt
  rw [xperm_rangeItem]
  generalize xperms.toValue r.1 = low at hlow ⊢
  generalize xperms.toValue r.2 = high at hhigh ⊢
  have hsame : ioctlDriver low = ioctlDriver high := by
    apply ioctlDriver_eq_iff.2
    omega
  rw [Xperm.inHull_iff_of_eq (p := ⟨low, high, false⟩) hsame, ← UInt8.toNat_inj, ← UInt8.toNat_inj,
    toNat_ioctlDriver, toNat_ioctlDriver, toNat_ioctlFunc]
  simp only [hlow, hhigh]
  omega

theorem inHull_driver (hdriver : xperms.specified = .ioctlDriver)
    (hne : r.1.toNat ≠ r.2.toNat) (x : UInt16) :
    ((xperms.rangeItem r).xperm false).InHull x ↔
      r.1.toNat ≤ (ioctlDriver x).toNat ∧ (ioctlDriver x).toNat ≤ r.2.toNat := by
  have hlow := toNat_toValue_driver hdriver r.1
  have hhigh := toNat_toValue_driver hdriver r.2
  rw [xperm_rangeItem]
  generalize xperms.toValue r.1 = low at hlow ⊢
  generalize xperms.toValue r.2 = high at hhigh ⊢
  have hother : ioctlDriver low ≠ ioctlDriver high := by
    rw [Ne, ioctlDriver_eq_iff]
    omega
  rw [Xperm.inHull_iff_of_ne (p := ⟨low, high, false⟩) hother, toNat_ioctlDriver]
  simp only [hlow, hhigh]
  omega

theorem inHull_isolated (hdriver : xperms.specified = .ioctlDriver)
    (heq : r.1.toNat = r.2.toNat) (x : UInt16) :
    ((xperms.rangeItem r).xperm false).InHull x ↔ x.toNat = r.1.toNat * 256 := by
  have hlow := toNat_toValue_driver hdriver r.1
  rw [xperm_rangeItem, ← UInt8.toNat_inj.1 heq]
  generalize xperms.toValue r.1 = low at hlow ⊢
  rw [Xperm.inHull_iff_of_eq (p := ⟨low, low, false⟩) rfl, ioctlDriver_eq_iff]
  simp only [hlow]
  omega

theorem exists_inHull_iff (xperms : ExtendedPerms) (x : UInt16) :
    (∃ p ∈ xperms.items.map (XpermItem.xperm false), p.InHull x) ↔
      ∃ r ∈ permRanges xperms.perms, ((xperms.rangeItem r).xperm false).InHull x := by
  simp only [items, List.map_map, List.mem_map, Function.comp_apply]
  constructor
  · rintro ⟨p, ⟨r, hr, rfl⟩, hx⟩
    exact ⟨r, hr, hx⟩
  · rintro ⟨r, hr, hx⟩
    exact ⟨_, ⟨r, hr, rfl⟩, hx⟩

theorem getLsbD_iff_exists :
    perms.getLsbD i = true ↔ ∃ r ∈ permRanges perms, r.1.toNat ≤ i ∧ i ≤ r.2.toNat := by
  constructor
  · exact exists_mem_permRanges
  · rintro ⟨r, hr, hlow, hhigh⟩
    exact (isRun_of_mem hr).set i hlow hhigh

theorem printed_func_iff (hfunc : xperms.specified = .ioctlFunction) (x : UInt16) :
    (∃ p ∈ xperms.items.map (XpermItem.xperm false), p.InHull x) ↔ xperms.permits x = true := by
  rw [exists_inHull_iff]
  simp only [permits, hfunc, inHull_func hfunc, Bool.and_eq_true, decide_eq_true_iff,
    getLsbD_iff_exists]
  constructor
  · rintro ⟨r, hr, hdriver, hin⟩
    exact ⟨hdriver, r, hr, hin⟩
  · rintro ⟨hdriver, r, hr, hin⟩
    exact ⟨r, hr, hdriver, hin⟩

theorem printed_driver_iff (hdriver : xperms.specified = .ioctlDriver) :
    (∀ x, (∃ p ∈ xperms.items.map (XpermItem.xperm false), p.InHull x) ↔ xperms.permits x = true)
      ↔ ∀ i, ¬ Isolated xperms.perms i := by
  simp only [exists_inHull_iff, permits, hdriver]
  constructor
  · -- the command behind the first one of an isolated driver is not printed
    intro hexact i hi
    have hlt : i < 256 := BitVec.lt_of_getLsbD (hi.set i le_rfl le_rfl)
    obtain ⟨x, hx⟩ : ∃ x : UInt16, x.toNat = i * 256 + 1 :=
      ⟨UInt16.ofNat (i * 256 + 1), UInt16.toNat_ofNat_of_lt (by simp only [UInt16.size]; omega)⟩
    have hbit : xperms.perms.getLsbD (ioctlDriver x).toNat = true := by
      rw [toNat_ioctlDriver, show x.toNat / 256 = i by omega]
      exact hi.set i le_rfl le_rfl
    obtain ⟨r, hr, hin⟩ := (hexact x).2 hbit
    by_cases hone : r.1.toNat = r.2.toNat
    · have hcmd := (inHull_isolated hdriver hone x).1 hin
      omega
    · have hends := (inHull_driver hdriver hone x).1 hin
      rw [toNat_ioctlDriver, show x.toNat / 256 = i by omega] at hends
      have heq := hi.eq_of_run (isRun_of_mem hr) hends.1 hends.2
      omega
  · intro hnone x
    rw [getLsbD_iff_exists]
    refine exists_congr fun r => and_congr_right fun hr => ?_
    apply inHull_driver hdriver
    intro heq
    have hrun := isRun_of_mem hr
    rw [← heq] at hrun
    exact hnone _ hrun

theorem printed_iff (hkind : xperms.specified ≠ .nlmsg) :
    (∀ x, (∃ p ∈ xperms.items.map (XpermItem.xperm false), p.InHull x) ↔ xperms.permits x = true)
      ↔ (xperms.specified = .ioctlDriver → ∀ i, ¬ Isolated xperms.perms i) := by
  cases hspec : xperms.specified with
  | nlmsg => exact absurd hspec hkind
  | ioctlFunction => exact iff_of_true (printed_func_iff hspec) (fun h => absurd h (by decide))
  | ioctlDriver =>
      rw [printed_driver_iff hspec]
      exact ⟨fun h _ => h, fun h => h rfl⟩

theorem exists_permits (hkind : xperms.specified ≠ .nlmsg) (hperms : xperms.perms ≠ 0) :
    ∃ x, xperms.permits x = true := by
  obtain ⟨r, hr⟩ := List.exists_mem_of_ne_nil _ (mt permRanges_eq_nil_iff.1 hperms)
  have hrun := isRun_of_mem hr
  have hbit := hrun.set _ le_rfl hrun.le
  have hlt := r.1.toNat_lt
  have hdriver_lt := xperms.driver.toNat_lt
  cases hspec : xperms.specified with
  | nlmsg => exact absurd hspec hkind
  | ioctlFunction =>
      have hval := toNat_toValue_func hspec r.1
      refine ⟨xperms.toValue r.1, ?_⟩
      generalize xperms.toValue r.1 = x at hval ⊢
      simp only [permits, hspec, Bool.and_eq_true, decide_eq_true_iff, ← UInt8.toNat_inj,
        toNat_ioctlDriver, toNat_ioctlFunc]
      rw [show x.toNat % 256 = r.1.toNat by omega]
      exact ⟨by omega, hbit⟩
  | ioctlDriver =>
      have hval := toNat_toValue_driver hspec r.1
      refine ⟨xperms.toValue r.1, ?_⟩
      generalize xperms.toValue r.1 = x at hval ⊢
      simp only [permits, hspec, toNat_ioctlDriver]
      rwa [show x.toNat / 256 = r.1.toNat by omega]

end ExtendedPerms

namespace PolicyDb

def NoEntry (db : PolicyDb) (key : AvtabKey XpermsEffect) : Prop :=
  ∀ datum, AvtabNode.xperms key datum ∉ db.teAvtab.entries

theorem NoEntry.permitted_eq_false {db : PolicyDb} {key : AvtabKey XpermsEffect}
    (habsent : db.NoEntry key) (x : UInt16) : db.permitted key x = false := by
  have hperms : ∀ slot, slot = .driver key ∨ (∃ driver, slot = .func key driver) →
      db.teAvtab.perms? slot = none := by
    intro slot hslot
    rw [Avtab.perms?, Option.map_eq_none_iff, Keyed.Table.lookup, List.find?_eq_none]
    intro node hnode
    rw [decide_eq_true_iff]
    intro hkey
    rcases node with ⟨key', data⟩ | ⟨key', ⟨_ | _ | _, driver', perms⟩⟩ <;>
      rcases hslot with rfl | ⟨driver, rfl⟩ <;> cases hkey
    · exact habsent _ hnode
    · exact habsent _ hnode
  rw [permitted, Avtab.permitted, hperms _ (.inl rfl), hperms _ (.inr ⟨_, rfl⟩)]
  simp

/-- What is printed for a node brings the node's commands back, and a node for which nothing is
printed has none. -/
def ReadsBack (db : PolicyDb) (key : AvtabKey XpermsEffect) (s t c : String)
    (xperms : ExtendedPerms) : Prop :=
  (printXperms key.specified s t c xperms = none → ∀ x, xperms.permits x = false) ∧
    ∀ line, printXperms key.specified s t c xperms = some line →
      ∃ db', db.parseLine line = some db' ∧ ∀ x, db'.permitted key x = xperms.permits x

section ReadsBack

variable {db : PolicyDb} {s t c : String} {src tgt : TypeDatum} {cls : ClassDatum}
  {effect : XpermsEffect} {xperms : ExtendedPerms}

theorem items_eq_nil_iff : xperms.items = [] ↔ xperms.perms = 0 := by
  rw [ExtendedPerms.items, List.map_eq_nil_iff, permRanges_eq_nil_iff]

theorem readsBack_of_zero (key : AvtabKey XpermsEffect) (hperms : xperms.perms = 0) :
    db.ReadsBack key s t c xperms := by
  unfold ReadsBack printXperms
  rw [if_pos (items_eq_nil_iff.2 hperms)]
  refine ⟨fun _ x => ?_, nofun⟩
  unfold ExtendedPerms.permits
  split <;> simp [hperms]

theorem readsBack_iff_exec (hs : IsName s) (ht : IsName t) (hc : IsName c)
    (hperms : xperms.perms ≠ 0) :
    db.ReadsBack (xpermKey src tgt cls effect) s t c xperms ↔
      ∃ db', db.execXpermStatement
          (effect.statement [s] [t] [c] (xperms.items.map (XpermItem.xperm false))) = some db' ∧
        ∀ x, db'.permitted (xpermKey src tgt cls effect) x = xperms.permits x := by
  have hne : xperms.items ≠ [] := mt items_eq_nil_iff.1 hperms
  have hline := parseLine_xpermsText hs ht hc db effect hne
  have hspec : (xpermKey src tgt cls effect).specified = effect := rfl
  unfold ReadsBack printXperms
  rw [if_neg hne, hspec]
  constructor
  · rintro ⟨-, hread⟩
    obtain ⟨db', hparse, hexact⟩ := hread _ rfl
    exact ⟨db', hline ▸ hparse, hexact⟩
  · rintro ⟨db', hexec, hexact⟩
    refine ⟨nofun, fun line hsome => ?_⟩
    rw [← Option.some.inj hsome, hline]
    exact ⟨db', hexec, hexact⟩

theorem readsBack_iff_printed (hres : db.Resolves s t c src tgt cls) (hs : IsName s) (ht : IsName t)
    (hc : IsName c) (habsent : db.NoEntry (xpermKey src tgt cls effect))
    (hnew : ¬ db.policyvers < xpermsIoctlVersion) (hperms : xperms.perms ≠ 0) :
    db.ReadsBack (xpermKey src tgt cls effect) s t c xperms ↔
      ∀ x, (∃ p ∈ xperms.items.map (XpermItem.xperm false), p.InHull x)
        ↔ xperms.permits x = true := by
  have hgrant : ∀ p ∈ xperms.items.map (XpermItem.xperm false), p.reset = false := by
    intro p hp
    obtain ⟨item, -, rfl⟩ := List.mem_map.1 hp
    rfl
  have hexec := execXpermStatement_statement db effect s t c
    (xperms.items.map (XpermItem.xperm false))
  have hpermitted := permitted_grants hres hnew effect hgrant hexec
  simp only [habsent.permitted_eq_false, Bool.false_eq_true, false_or] at hpermitted
  rw [readsBack_iff_exec hs ht hc hperms, hexec]
  simp only [Option.some.injEq, exists_eq_left']
  refine forall_congr' fun x => ?_
  rw [← hpermitted x, Bool.eq_iff_iff]

/-- **Printed extended permissions.** What is printed for a node permits the node's commands again
iff no driver bit of it stands alone. -/
theorem readsBack_iff (hres : db.Resolves s t c src tgt cls) (hs : IsName s) (ht : IsName t)
    (hc : IsName c) (habsent : db.NoEntry (xpermKey src tgt cls effect))
    (hkind : xperms.specified ≠ .nlmsg) :
    db.ReadsBack (xpermKey src tgt cls effect) s t c xperms ↔
      xperms.perms = 0 ∨ (¬ db.policyvers < xpermsIoctlVersion ∧
        (xperms.specified = .ioctlDriver → ∀ i, ¬ Isolated xperms.perms i)) := by
  by_cases hperms : xperms.perms = 0
  · refine iff_of_true ?_ (.inl hperms)
    exact readsBack_of_zero (xpermKey src tgt cls effect) hperms
  · rw [or_iff_right hperms]
    by_cases hold : db.policyvers < xpermsIoctlVersion
    · -- an old policy takes the line and stays without the key
      obtain ⟨x, hx⟩ := ExtendedPerms.exists_permits hkind hperms
      refine iff_of_false ?_ (fun hnew => hnew.1 hold)
      rw [readsBack_iff_exec hs ht hc hperms]
      rintro ⟨db', hexec, hexact⟩
      rw [execXpermStatement_statement, foldl_addXpermRuleNamed_old hres hold,
        Option.some.injEq] at hexec
      have hfalse := habsent.permitted_eq_false x
      rw [hexec, hexact x, hx] at hfalse
      cases hfalse
    · rw [and_iff_right hold, ← ExtendedPerms.printed_iff hkind]
      exact readsBack_iff_printed hres hs ht hc habsent hold hperms

end ReadsBack

theorem isName_sample :
    IsName "source" ∧ IsName "target" ∧ IsName "class" :=
  ⟨isName_of_plain rfl (forall_mem_of_all rfl) (forall_mem_of_all rfl) rfl rfl,
    isName_of_plain rfl (forall_mem_of_all rfl) (forall_mem_of_all rfl) rfl rfl,
    isName_of_plain rfl (forall_mem_of_all rfl) (forall_mem_of_all rfl) rfl rfl⟩

theorem samplePolicy_noEntry (policyvers : UInt32) (key : AvtabKey XpermsEffect) :
    (samplePolicy policyvers).NoEntry key :=
  fun _ hmem => absurd hmem List.not_mem_nil

theorem readsBack_function :
    (samplePolicy 30).ReadsBack (xpermKey ⟨1, .type⟩ ⟨2, .type⟩ ⟨1⟩ .allowed) "source" "target"
      "class" ⟨.ioctlFunction, 0x89, 1⟩ := by
  obtain ⟨hs, ht, hc⟩ := isName_sample
  rw [readsBack_iff (samplePolicy_resolves 30) hs ht hc (samplePolicy_noEntry 30 _) (by simp)]
  exact .inr ⟨by decide, fun h => absurd h (by simp)⟩

/-- The driver node that permits the commands `0x0000` to `0x00FF` is printed as `{ 0x0000 }`. -/
theorem not_readsBack_isolated :
    ¬ (samplePolicy 30).ReadsBack (xpermKey ⟨1, .type⟩ ⟨2, .type⟩ ⟨1⟩ .allowed) "source" "target"
      "class" ⟨.ioctlDriver, 0, 1⟩ := by
  obtain ⟨hs, ht, hc⟩ := isName_sample
  rw [readsBack_iff_printed (samplePolicy_resolves 30) hs ht hc (samplePolicy_noEntry 30 _)
    (by decide) (by simp), ExtendedPerms.printed_driver_iff rfl]
  intro hnone
  apply hnone 0
  refine ⟨le_rfl, fun i _ hi => ?_, fun i hi => absurd hi (by omega), by simp⟩
  rw [Nat.le_zero.1 hi]
  simp

end PolicyDb

end MagiskNative.Sepolicy
