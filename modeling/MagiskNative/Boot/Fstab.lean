import MagiskNative.Lib.Tokens
import MagiskNative.Boot.Patch

/-!
# Flags of an fstab text

What `patch_verity` and `patch_encryption` make of the tokens of a text. A match does not go over a
separator, so each token is scanned for itself.
-/

namespace MagiskNative.Patch

open Tokens
open Text (utf8Bytes)

/-- Names of flags. The first one that a name starts with is the name itself. -/
structure FlagNames where
  names : List (List UInt8)
  ne_nil : [] ∉ names
  plain : ∀ name ∈ names, ∀ c ∈ name, isSeparator c = false ∧ c ≠ 0x3d
  first : ∀ name ∈ names, names.find? (· <+: name) = some name

def FlagNames.matcher (f : FlagNames) : Matcher := ⟨matchPatterns f.names, matchPatterns_bounds f.ne_nil⟩

section Tables

set_option maxRecDepth 4000

def verityFlags : FlagNames where
  names := verityPatterns
  ne_nil := by decide
  plain := by decide
  first := by decide

def encryptionFlags : FlagNames where
  names := encryptionPatterns
  ne_nil := by decide
  plain := by decide
  first := by decide

end Tables

theorem matcher_verityFlags : verityFlags.matcher = verityMatcher := rfl

theorem matcher_encryptionFlags : encryptionFlags.matcher = encryptionMatcher := rfl

def flagName (t : List UInt8) : List UInt8 := t.takeWhile (· ≠ 0x3d)

def result (r : List UInt8 × Nat) : List UInt8 := r.1.take r.2

section Match

variable {f : FlagNames} {t rest : List UInt8}

def EndsName (rest : List UInt8) : Prop := ∀ c ∈ rest.head?, isSeparator c = true ∨ c = 0x3d

theorem prefix_append_iff (hrest : EndsName rest) {name : List UInt8} (hname : name ∈ f.names) :
    name <+: t ++ rest ↔ name <+: t := by
  constructor
  · intro hstarts
    rcases Nat.le_total name.length t.length with hle | hle
    · exact List.prefix_of_prefix_length_le hstarts (List.prefix_append t rest) hle
    · obtain ⟨q, rfl⟩ := List.prefix_of_prefix_length_le (List.prefix_append t rest) hstarts hle
      rw [List.prefix_append_right_inj] at hstarts
      cases q with
      | nil => rw [List.append_nil]
      | cons c q =>
          obtain ⟨rest', rfl⟩ := hstarts
          obtain ⟨hplain, hvalue⟩ := f.plain _ hname c (by simp)
          rcases hrest c rfl with hsep | hsep
          · rw [hplain] at hsep
            cases hsep
          · exact absurd hsep hvalue
  · exact fun hstarts => hstarts.trans (List.prefix_append t rest)

theorem find?_append (hrest : EndsName rest) :
    f.names.find? (· <+: t ++ rest) = f.names.find? (· <+: t) := by
  have hsame : ∀ names : List (List UInt8), (∀ name ∈ names, name ∈ f.names) →
      names.find? (· <+: t ++ rest) = names.find? (· <+: t) := by
    intro names hnames
    induction names with
    | nil => rfl
    | cons name names ih =>
        rw [List.forall_mem_cons] at hnames
        rw [List.find?_cons, List.find?_cons, ih hnames.2]
        simp only [prefix_append_iff hrest hnames.1]
  exact hsame f.names fun _ h => h

theorem find?_nil : f.names.find? (· <+: []) = none := by
  rw [List.find?_eq_none]
  intro name hname hstarts
  rw [decide_eq_true_iff, List.prefix_nil] at hstarts
  rw [hstarts] at hname
  exact f.ne_nil hname

theorem find?_of_bounded (hrest : Bounded isSeparator rest) : f.names.find? (· <+: rest) = none := by
  have happend := @find?_append f [] rest fun c hc => .inl (hrest c hc)
  rwa [List.nil_append, find?_nil] at happend

theorem length_value (ht : Free isSeparator t) (hrest : Bounded isSeparator rest) :
    ((t ++ rest).takeWhile (!isSeparator ·)).length = t.length := by
  have hall : ∀ c ∈ t, (!isSeparator c) = true := by
    intro c hc
    rw [ht c hc, Bool.not_false]
  rw [List.takeWhile_append_of_pos hall]
  cases rest with
  | nil => rw [List.takeWhile_nil, List.append_nil]
  | cons c rest =>
      rw [List.takeWhile_cons_of_neg (by rw [hrest c rfl]; decide), List.append_nil]

theorem head?_value (hrest : Bounded isSeparator rest) :
    (t ++ rest).head? = some 0x3d ↔ t.head? = some 0x3d := by
  cases t with
  | nil =>
      constructor
      · intro hhead
        have hsep := hrest 0x3d hhead
        cases hsep
      · nofun
  | cons b t => rfl

theorem find_token {pre : List UInt8} (hpre : pre = [0x2c] ∨ pre = [] ∧ t ≠ [])
    (ht : Free isSeparator t) (hrest : Bounded isSeparator rest) :
    f.matcher.find (pre ++ (t ++ rest)) = (f.names.find? (· <+: t)).map fun name =>
      pre.length + if (t.drop name.length).head? = some 0x3d then t.length else name.length := by
  have hcomma : (if (pre ++ (t ++ rest)).head? = some 0x2c then 1 else 0) = pre.length := by
    rcases hpre with rfl | ⟨rfl, hne⟩
    · rfl
    · obtain ⟨b, t, rfl⟩ := List.exists_cons_of_ne_nil hne
      have hb := ht b List.mem_cons_self
      apply if_neg
      rintro ⟨⟩
      cases hb
  have hdrop : ∀ n, (pre ++ (t ++ rest)).drop (pre.length + n) = (t ++ rest).drop n := by
    intro n
    rw [← List.drop_drop, List.drop_left]
  change matchPatterns f.names (pre ++ (t ++ rest)) = _
  have hends : EndsName rest := fun c hc => .inl (hrest c hc)
  rw [matchPatterns, hcomma]
  simp only [List.drop_left, hdrop, find?_append hends]
  cases hfind : f.names.find? (· <+: t) with
  | none =>
      rw [Option.map_none]
      split <;> rfl
  | some name =>
      have hstarts : name <+: t := by simpa using List.find?_some hfind
      have hname := List.mem_of_find?_eq_some hfind
      have hle := hstarts.length_le
      have hne : (t ++ rest).isEmpty = false := by
        rw [← Bool.not_eq_true, List.isEmpty_iff]
        intro hnil
        rw [(List.append_eq_nil_iff.1 hnil).1, List.prefix_nil] at hstarts
        rw [hstarts] at hname
        exact f.ne_nil hname
      have hvalue : ((t ++ rest).drop name.length).head? = some 0x3d ↔
          (t.drop name.length).head? = some 0x3d := by
        rw [List.drop_append_of_le_length hle, head?_value hrest]
      simp only [hne, Bool.false_eq_true, if_false, Option.map_some, hvalue]
      rw [List.drop_append_of_le_length hle,
        length_value (ht.sublist (List.drop_sublist _ _)) hrest, List.length_drop]
      split
      · congr 1
        omega
      · rfl

theorem find_separator {c : UInt8} (hc : isSeparator c = true) (hcomma : c ≠ 0x2c) :
    f.matcher.find (c :: rest) = none := by
  have hhead : (c :: rest).head? ≠ some 0x2c := by
    rw [List.head?_cons]
    exact fun h => hcomma (Option.some.inj h)
  change matchPatterns f.names (c :: rest) = none
  rw [matchPatterns, if_neg hhead]
  simp only [List.drop_zero, find?_of_bounded (bounded_cons hc)]
  split <;> rfl

end Match

theorem kept_nil (matcher : Matcher) : kept matcher [] = [] := by rw [kept]

theorem kept_sublist (matcher : Matcher) (l : List UInt8) : (kept matcher l).Sublist l := by
  fun_induction kept matcher l with
  | case1 => exact List.Sublist.refl _
  | case2 b rest len hmatch ih => exact ih.trans (List.drop_sublist _ _)
  | case3 b rest hmatch ih => exact ih.cons_cons b

section Kept

variable {f : FlagNames} {t rest : List UInt8}

theorem find_alone (hne : t ≠ []) (ht : Free isSeparator t) :
    f.matcher.find t = (f.names.find? (· <+: t)).map fun name =>
      if (t.drop name.length).head? = some 0x3d then t.length else name.length := by
  have htoken := @find_token f t [] [] (.inr ⟨rfl, hne⟩) ht bounded_nil
  simpa only [List.nil_append, List.append_nil, List.length_nil, Nat.zero_add] using htoken

theorem find_append (hne : t ≠ []) (ht : Free isSeparator t) (hrest : Bounded isSeparator rest) :
    f.matcher.find (t ++ rest) = f.matcher.find t := by
  have htoken := @find_token f t rest [] (.inr ⟨rfl, hne⟩) ht hrest
  rw [find_alone hne ht]
  simpa only [List.nil_append, List.length_nil, Nat.zero_add] using htoken

theorem kept_append (ht : Free isSeparator t) (hrest : Bounded isSeparator rest) :
    kept f.matcher (t ++ rest) = kept f.matcher t ++ kept f.matcher rest := by
  induction hn : t.length using Nat.strong_induction_on generalizing t with
  | _ n ih =>
      cases t with
      | nil => rw [kept_nil, List.nil_append, List.nil_append]
      | cons b t =>
          have hsame := @find_append f _ _ (List.cons_ne_nil b t) ht hrest
          cases hfind : f.matcher.find (b :: t) with
          | none =>
              have hfree : Free isSeparator t := ht.sublist (List.sublist_cons_self b t)
              rw [kept_of_no_match hfind, List.cons_append,
                kept_of_no_match (by rw [← List.cons_append, hsame, hfind]),
                ih t.length (by rw [← hn, List.length_cons]; omega) hfree rfl, List.cons_append]
          | some len =>
              obtain ⟨hpos, hle⟩ := f.matcher.bounds _ _ hfind
              rw [kept_of_match hfind, kept_of_match (hsame.trans hfind),
                List.drop_append_of_le_length hle]
              exact ih _ (by rw [List.length_drop]; omega) (ht.sublist (List.drop_sublist _ _)) rfl

theorem kept_cons {c : UInt8} (hc : isSeparator c = true) (l : List UInt8) :
    kept f.matcher (c :: l) = c :: kept f.matcher l ∨
      kept f.matcher (c :: l) = kept f.matcher l ∧ ∃ t rest name, l = t ++ rest ∧ Free isSeparator t ∧
        Bounded isSeparator rest ∧ name ∈ f.names ∧ name <+: t := by
  by_cases hcomma : c = 0x2c
  · subst hcomma
    obtain ⟨t, rest, rfl, ht, hrest⟩ := exists_split isSeparator l
    have hfind := @find_token f t rest [0x2c] (.inl rfl) ht hrest
    rw [List.singleton_append] at hfind
    cases hname : f.names.find? (· <+: t) with
    | none =>
        rw [hname, Option.map_none] at hfind
        exact .inl (kept_of_no_match hfind)
    | some name =>
        have hmem := List.mem_of_find?_eq_some hname
        have hstarts : name <+: t := by simpa using List.find?_some hname
        have hne : t ≠ [] := by
          rintro rfl
          rw [find?_nil] at hname
          cases hname
        have htoken := (find_append hne ht hrest).trans (@find_alone f t hne ht)
        rw [hname, Option.map_some] at hfind htoken
        refine .inr ⟨?_, t, rest, name, rfl, ht, hrest, hmem, hstarts⟩
        rw [kept_of_match hfind, kept_of_match htoken, List.length_singleton, Nat.add_comm,
          List.drop_succ_cons]
  · exact .inl (kept_of_no_match (find_separator hc hcomma))

theorem exists_value (t : List UInt8) :
    ∃ value, t = flagName t ++ value ∧ ∀ c ∈ value.head?, c = 0x3d := by
  refine ⟨t.dropWhile (· ≠ 0x3d), List.takeWhile_append_dropWhile.symm, fun c hc => ?_⟩
  have hstop := List.head?_dropWhile_not (· ≠ 0x3d) t
  rw [Option.mem_def] at hc
  rw [hc] at hstop
  simpa using hstop

theorem length_kept_lt {len : Nat} {l : List UInt8} (hfind : f.matcher.find l = some len) :
    (kept f.matcher l).length < l.length := by
  obtain ⟨hpos, hle⟩ := f.matcher.bounds _ _ hfind
  have hsub := (kept_sublist f.matcher (l.drop len)).length_le
  rw [List.length_drop] at hsub
  rw [kept_of_match hfind]
  omega

theorem kept_of_flagName (ht : Free isSeparator t) (hname : flagName t ∈ f.names) :
    kept f.matcher t = [] := by
  have hne : t ≠ [] := by
    rintro rfl
    exact f.ne_nil hname
  obtain ⟨value, hsplit, hvalue⟩ := exists_value t
  have hfind : f.names.find? (· <+: t) = some (flagName t) := by
    have happend := @find?_append f (flagName t) value fun c hc => .inr (hvalue c hc)
    rwa [← hsplit, f.first _ hname] at happend
  have hdrop : t.drop (flagName t).length = value := by
    nth_rewrite 2 [hsplit]
    exact List.drop_left
  have hlen : (if value.head? = some 0x3d then t.length else (flagName t).length) = t.length := by
    cases value with
    | nil =>
        rw [List.append_nil] at hsplit
        rw [← hsplit, ite_self]
    | cons c value => exact if_pos (congrArg some (hvalue c rfl))
  have halone := @find_alone f t hne ht
  rw [hfind, Option.map_some, hdrop, hlen] at halone
  rw [kept_of_match halone, List.drop_length, kept_nil]

theorem length_kept_eq_iff (ht : Free isSeparator t) :
    (kept f.matcher t).length = t.length ↔ ∀ name ∈ f.names, ¬ name <:+: t := by
  induction t with
  | nil =>
      rw [kept_nil]
      refine iff_of_true rfl fun name hname hinfix => ?_
      rw [List.infix_nil.1 hinfix] at hname
      exact f.ne_nil hname
  | cons b t ih =>
      have hfree : Free isSeparator t := ht.sublist (List.sublist_cons_self b t)
      have halone := @find_alone f _ (List.cons_ne_nil b t) ht
      cases hname : f.names.find? (· <+: b :: t) with
      | none =>
          rw [hname, Option.map_none] at halone
          rw [kept_of_no_match halone, List.length_cons, List.length_cons, Nat.add_right_cancel_iff,
            ih hfree]
          refine forall₂_congr fun name hmem => ?_
          rw [List.infix_cons_iff, not_or]
          refine (and_iff_right ?_).symm
          simpa using List.find?_eq_none.1 hname name hmem
      | some name =>
          rw [hname, Option.map_some] at halone
          refine iff_of_false (length_kept_lt halone).ne fun hnone => ?_
          have hstarts : name <+: b :: t := by simpa using List.find?_some hname
          exact hnone name (List.mem_of_find?_eq_some hname) hstarts.isInfix

end Kept

def Whole (f : FlagNames) (t : List UInt8) : Prop :=
  flagName t ∈ f.names ∨ ∀ name ∈ f.names, ¬ name <:+: t

def unnamed (f : FlagNames) (ts : List (List UInt8)) : List (List UInt8) :=
  ts.filter fun t => flagName t ∉ f.names

section Result

variable {f : FlagNames} {t l : List UInt8}

theorem free_kept (ht : Free isSeparator t) : Free isSeparator (kept f.matcher t) :=
  ht.sublist (kept_sublist f.matcher t)

theorem unnamed_cons (t : List UInt8) (ts : List (List UInt8)) :
    unnamed f (t :: ts) = if flagName t ∈ f.names then unnamed f ts else t :: unnamed f ts := by
  rw [unnamed, List.filter_cons]
  by_cases hname : flagName t ∈ f.names
  · rw [if_pos hname, if_neg (by simpa using hname)]
    rfl
  · rw [if_neg hname, if_pos (by simpa using hname)]
    rfl

theorem filter_kept (l : List UInt8) :
    (kept f.matcher l).filter (!isSeparator ·) = (tokens isSeparator l).flatMap (kept f.matcher) := by
  have hfree : ∀ t, Free isSeparator t →
      (kept f.matcher t).filter (!isSeparator ·) = (tokens isSeparator t).flatMap (kept f.matcher) := by
    intro t ht
    have hall : (kept f.matcher t).filter (!isSeparator ·) = kept f.matcher t := by
      rw [List.filter_eq_self]
      intro c hc
      rw [free_kept ht c hc, Bool.not_false]
    rw [hall, tokens_of_free ht]
    split
    · rename_i hnil
      rw [hnil, kept_nil, List.flatMap_nil]
    · rw [List.flatMap_singleton]
  induction l using Tokens.induction isSeparator with
  | hlast t ht => exact hfree t ht
  | hmore t c rest ht hc ih =>
      have hrest : (kept f.matcher (c :: rest)).filter (!isSeparator ·)
          = (kept f.matcher rest).filter (!isSeparator ·) := by
        rcases @kept_cons f c hc rest with hcons | ⟨hcons, -⟩
        · rw [hcons, List.filter_cons_of_neg (by rw [hc]; decide)]
        · rw [hcons]
      rw [kept_append ht (bounded_cons hc), List.filter_append, hfree t ht, hrest, ih,
        tokens_append_cons t hc, List.flatMap_append]

theorem length_flatMap_kept {ts : List (List UInt8)} (hts : ∀ t ∈ ts, Free isSeparator t) :
    (ts.flatMap (kept f.matcher)).length ≤ (unnamed f ts).flatten.length ∧
      ((ts.flatMap (kept f.matcher)).length = (unnamed f ts).flatten.length →
        ∀ t ∈ ts, Whole f t) := by
  induction ts with
  | nil => exact ⟨Nat.le_refl 0, nofun⟩
  | cons t ts ih =>
      rw [List.forall_mem_cons] at hts
      obtain ⟨hle, hwhole⟩ := ih hts.2
      rw [List.flatMap_cons, List.length_append, unnamed_cons, List.forall_mem_cons]
      by_cases hname : flagName t ∈ f.names
      · rw [if_pos hname, kept_of_flagName hts.1 hname, List.length_nil, Nat.zero_add]
        exact ⟨hle, fun heq => ⟨.inl hname, hwhole heq⟩⟩
      · have hsub := (kept_sublist f.matcher t).length_le
        rw [if_neg hname, List.flatten_cons, List.length_append]
        refine ⟨by omega, fun heq => ⟨.inr ?_, hwhole (by omega)⟩⟩
        rw [← length_kept_eq_iff hts.1]
        omega

theorem tokens_kept_of_free (ht : Free isSeparator t) (hwhole : t ≠ [] → Whole f t) :
    tokens isSeparator (kept f.matcher t) = unnamed f (tokens isSeparator t) := by
  by_cases hnil : t = []
  · rw [hnil, kept_nil]
    rfl
  · have htokens : tokens isSeparator t = [t] := by rw [tokens_of_free ht, if_neg hnil]
    rw [htokens, unnamed_cons]
    by_cases hname : flagName t ∈ f.names
    · rw [if_pos hname, kept_of_flagName ht hname]
      rfl
    · have hsame : kept f.matcher t = t := by
        apply (kept_sublist f.matcher t).eq_of_length
        rw [length_kept_eq_iff ht]
        exact (hwhole hnil).resolve_left hname
      rw [if_neg hname, hsame, htokens]
      rfl

theorem kept_cons_of_whole {c : UInt8} (hc : isSeparator c = true)
    (hwhole : ∀ t ∈ tokens isSeparator l, Whole f t) :
    kept f.matcher (c :: l) = c :: kept f.matcher l ∨
      kept f.matcher (c :: l) = kept f.matcher l ∧ ∃ t rest, l = t ++ rest ∧ t ≠ [] ∧
        Free isSeparator t ∧ Bounded isSeparator rest ∧ kept f.matcher l = kept f.matcher rest := by
  refine (kept_cons hc l).imp_right ?_
  rintro ⟨hcons, t, rest, name, rfl, ht, hrest, hmem, hstarts⟩
  have hne : t ≠ [] := by
    rintro rfl
    rw [List.prefix_nil.1 hstarts] at hmem
    exact f.ne_nil hmem
  have htoken : t ∈ tokens isSeparator (t ++ rest) := by
    rw [tokens_append t hrest, tokens_of_free ht, if_neg hne]
    exact List.mem_append_left _ (List.mem_singleton_self t)
  have hname : flagName t ∈ f.names :=
    (hwhole t htoken).resolve_right fun hnone => hnone name hmem hstarts.isInfix
  refine ⟨hcons, t, rest, rfl, hne, ht, hrest, ?_⟩
  rw [kept_append ht hrest, kept_of_flagName ht hname, List.nil_append]

theorem bounded_kept (hl : Bounded isSeparator l) (hwhole : ∀ t ∈ tokens isSeparator l, Whole f t) :
    Bounded isSeparator (kept f.matcher l) := by
  induction hn : l.length using Nat.strong_induction_on generalizing l with
  | _ n ih =>
      cases l with
      | nil =>
          rw [kept_nil]
          exact bounded_nil
      | cons c l =>
          have hc := hl c rfl
          rw [tokens_cons hc] at hwhole
          rcases kept_cons_of_whole hc hwhole with hcons | ⟨hcons, t, rest, rfl, hne, ht, hrest, hkept⟩
          · rw [hcons]
            exact bounded_cons hc
          · rw [hcons, hkept]
            rw [tokens_append t hrest] at hwhole
            rw [List.length_cons, List.length_append] at hn
            exact ih rest.length (by omega) hrest
              (fun u hu => hwhole u (List.mem_append_right _ hu)) rfl

theorem tokens_kept (hwhole : ∀ t ∈ tokens isSeparator l, Whole f t) :
    tokens isSeparator (kept f.matcher l) = unnamed f (tokens isSeparator l) := by
  have hfree : ∀ t, Free isSeparator t → (∀ u ∈ tokens isSeparator t, Whole f u) →
      tokens isSeparator (kept f.matcher t) = unnamed f (tokens isSeparator t) := by
    intro t ht hu
    refine tokens_kept_of_free ht fun hne => hu t ?_
    rw [tokens_of_free ht, if_neg hne]
    exact List.mem_singleton_self t
  induction l using Tokens.induction isSeparator with
  | hlast t ht => exact hfree t ht hwhole
  | hmore t c rest ht hc ih =>
      rw [tokens_append_cons t hc, List.forall_mem_append] at hwhole
      have hbehind : tokens isSeparator (kept f.matcher (c :: rest)) = unnamed f (tokens isSeparator rest) := by
        rw [← ih hwhole.2]
        rcases kept_cons_of_whole hc hwhole.2 with hcons | ⟨hcons, -⟩
        · rw [hcons, tokens_cons hc]
        · rw [hcons]
      have hbounded : Bounded isSeparator (kept f.matcher (c :: rest)) :=
        bounded_kept (bounded_cons hc) (by rw [tokens_cons hc]; exact hwhole.2)
      calc
        tokens isSeparator (kept f.matcher (t ++ c :: rest))
          = tokens isSeparator (kept f.matcher t ++ kept f.matcher (c :: rest)) := by
            rw [kept_append ht (bounded_cons hc)]
        _ = tokens isSeparator (kept f.matcher t) ++ tokens isSeparator (kept f.matcher (c :: rest)) :=
            tokens_append _ hbounded
        _ = unnamed f (tokens isSeparator t) ++ unnamed f (tokens isSeparator rest) := by
            rw [hfree t ht hwhole.1, hbehind]
        _ = unnamed f (tokens isSeparator (t ++ c :: rest)) := by
            rw [tokens_append_cons t hc, unnamed, unnamed, unnamed, List.filter_append]

theorem tokens_kept_iff (f : FlagNames) (l : List UInt8) :
    tokens isSeparator (kept f.matcher l) = unnamed f (tokens isSeparator l) ↔
      ∀ t ∈ tokens isSeparator l, Whole f t := by
  refine ⟨fun htokens => ?_, tokens_kept⟩
  have hts : ∀ t ∈ tokens isSeparator l, Free isSeparator t := fun t ht => (free_of_mem_tokens ht).1
  apply (length_flatMap_kept hts).2
  rw [← filter_kept, ← flatten_tokens, htokens]

theorem result_removePattern (matcher : Matcher) (l : List UInt8) :
    result (removePattern matcher l) = kept matcher l := by
  rw [removePattern_eq, result]
  exact List.take_left

end Result

/-- **Tokens of an fstab text.** Exactly the named flags are gone if and only if no name occurs in
another token. -/
theorem tokens_patch_iff (text : List UInt8) :
    (tokens isSeparator (result (patchVerity text)) = unnamed verityFlags (tokens isSeparator text) ↔
        ∀ t ∈ tokens isSeparator text, Whole verityFlags t) ∧
      (tokens isSeparator (result (patchEncryption text))
          = unnamed encryptionFlags (tokens isSeparator text) ↔
        ∀ t ∈ tokens isSeparator text, Whole encryptionFlags t) := by
  rw [patchVerity, patchEncryption, result_removePattern, result_removePattern,
    ← matcher_verityFlags, ← matcher_encryptionFlags]
  exact ⟨tokens_kept_iff verityFlags text, tokens_kept_iff encryptionFlags text⟩

/-- A mount point that ends in a name. -/
theorem tokens_patch_path :
    tokens isSeparator (result (patchVerity (utf8Bytes "/avb ext4")))
      ≠ unnamed verityFlags (tokens isSeparator (utf8Bytes "/avb ext4")) := by
  rw [patchVerity, result_removePattern, ← matcher_verityFlags, Ne, tokens_kept_iff]
  intro hwhole
  rcases hwhole (utf8Bytes "/avb") (by decide) with hname | hnone
  · exact absurd hname (by decide)
  · exact hnone (utf8Bytes "avb") (by decide) ⟨utf8Bytes "/", [], by decide⟩

end MagiskNative.Patch
