import Mathlib.Data.String.Basic
import Mathlib.Tactic

/-!
# Text as bytes

Hexadecimal numbers with a minimal width, and strings as the bytes of their UTF-8 encoding.
-/

namespace Text

def hexDigit (d : Nat) : UInt8 := if d < 10 then UInt8.ofNat (0x30 + d) else UInt8.ofNat (0x57 + d)

def hexVal (b : UInt8) : Option Nat :=
  if 0x30 ≤ b ∧ b ≤ 0x39 then some (b.toNat - 0x30)
  else if 0x61 ≤ b ∧ b ≤ 0x66 then some (b.toNat - 0x57)
  else if 0x41 ≤ b ∧ b ≤ 0x46 then some (b.toNat - 0x37)
  else none

def hexDigits : Nat → Nat → List UInt8
  | 0, _ => []
  | k + 1, n => hexDigits k (n / 16) ++ [hexDigit (n % 16)]

def hexWidth (n : Nat) : Nat := n.log2 / 4 + 1

def hexPad (width n : Nat) : List UInt8 := hexDigits (max width (hexWidth n)) n

def ofHex (acc : Nat) : List UInt8 → Option Nat
  | [] => some acc
  | b :: bs =>
      match hexVal b with
      | none => none
      | some d => ofHex (acc * 16 + d) bs

theorem hexVal_hexDigit {d : Nat} (hd : d < 16) : hexVal (hexDigit d) = some d := by
  interval_cases d <;> rfl

@[simp] theorem length_hexDigits (k n : Nat) : (hexDigits k n).length = k := by
  induction k generalizing n with
  | zero => rfl
  | succ k ih => rw [hexDigits, List.length_append, ih, List.length_singleton]

variable {b : UInt8} {bs : List UInt8} {s t : String} {c : Char}

theorem hexVal_lt {d : Nat} (hd : hexVal b = some d) : d < 16 := by
  have hb := b.toNat_lt
  simp only [hexVal, UInt8.le_iff_toNat_le, UInt8.reduceToNat] at hd
  split at hd
  · cases hd
    omega
  · split at hd
    · cases hd
      omega
    · split at hd
      · cases hd
        omega
      · cases hd

theorem ofHex_lt {acc value : Nat} (hbs : ofHex acc bs = some value) :
    value < (acc + 1) * 16 ^ bs.length := by
  induction bs generalizing acc with
  | nil =>
      cases hbs
      simp
  | cons b bs ih =>
      rw [ofHex] at hbs
      cases hval : hexVal b with
      | none =>
          rw [hval] at hbs
          cases hbs
      | some d =>
          rw [hval] at hbs
          have hd := hexVal_lt hval
          calc value < (acc * 16 + d + 1) * 16 ^ bs.length := ih hbs
            _ ≤ ((acc + 1) * 16) * 16 ^ bs.length := Nat.mul_le_mul_right _ (by omega)
            _ = (acc + 1) * 16 ^ (b :: bs).length := by rw [List.length_cons, pow_succ]; ring

theorem ofHex_append {acc value : Nat} (hbs : ofHex acc bs = some value)
    (bs' : List UInt8) : ofHex acc (bs ++ bs') = ofHex value bs' := by
  induction bs generalizing acc with
  | nil =>
      cases hbs
      rfl
  | cons b bs ih =>
      rw [ofHex] at hbs
      rw [List.cons_append, ofHex]
      cases hval : hexVal b with
      | none =>
          rw [hval] at hbs
          cases hbs
      | some d =>
          rw [hval] at hbs
          exact ih hbs

theorem ofHex_hexDigits (k n : Nat) : ofHex 0 (hexDigits k n) = some (n % 16 ^ k) := by
  induction k generalizing n with
  | zero => rw [hexDigits, ofHex, pow_zero, Nat.mod_one]
  | succ k ih =>
      rw [hexDigits, ofHex_append (ih (n / 16)), ofHex, hexVal_hexDigit (Nat.mod_lt n (by omega))]
      have hsplit : n % 16 ^ (k + 1) = n % 16 + 16 * (n / 16 % 16 ^ k) := by
        rw [pow_succ', Nat.mod_mul]
      simp only [ofHex, hsplit]
      congr 1
      omega

theorem hexWidth_le {k n : Nat} (hk : 0 < k) (hn : n < 16 ^ k) : hexWidth n ≤ k := by
  rcases Nat.eq_zero_or_pos n with rfl | hpos
  · exact hk
  · have hpow : (16 : Nat) ^ k = 2 ^ (4 * k) := by
      rw [pow_mul]
      norm_num
    rw [hpow, ← Nat.log2_lt (by omega)] at hn
    rw [hexWidth]
    omega

theorem hexPad_of_lt {width n : Nat} (hwidth : 0 < width) (hn : n < 16 ^ width) :
    hexPad width n = hexDigits width n := by
  rw [hexPad, Nat.max_eq_left (hexWidth_le hwidth hn)]

def utf8Bytes (s : String) : List UInt8 := s.toByteArray.data.toList

def ofUtf8? (bs : List UInt8) : Option String := String.fromUTF8? ⟨bs.toArray⟩

theorem ofUtf8?_utf8Bytes (s : String) : ofUtf8? (utf8Bytes s) = some s := by
  have hbytes : (⟨(utf8Bytes s).toArray⟩ : ByteArray) = s.toByteArray := by
    simp [utf8Bytes]
  rw [ofUtf8?, hbytes, String.fromUTF8?, dif_pos s.isValidUTF8]
  rfl

theorem utf8Bytes_of_ofUtf8? (hs : ofUtf8? bs = some s) :
    utf8Bytes s = bs := by
  rw [ofUtf8?, String.fromUTF8?] at hs
  split at hs
  · cases hs
    simp [utf8Bytes, String.fromUTF8]
  · cases hs

theorem utf8Bytes_injective (hst : utf8Bytes s = utf8Bytes t) : s = t := by
  have hs := ofUtf8?_utf8Bytes s
  rw [hst, ofUtf8?_utf8Bytes] at hs
  exact (Option.some.inj hs).symm

theorem utf8Bytes_append (s t : String) : utf8Bytes (s ++ t) = utf8Bytes s ++ utf8Bytes t := by
  simp [utf8Bytes]

theorem utf8Bytes_ofList (cs : List Char) :
    utf8Bytes (String.ofList cs) = cs.flatMap String.utf8EncodeChar := by
  simp [utf8Bytes, List.utf8Encode]

theorem utf8EncodeChar_append_lt {d : Char} (hlt : c < d) (bs bs' : List UInt8) :
    String.utf8EncodeChar c ++ bs < String.utf8EncodeChar d ++ bs' := by
  have hval : c.val.toNat < d.val.toNat := hlt
  have hd : d.val.toNat < 0x110000 := by
    rcases d.valid with h | ⟨-, h⟩
    · exact h.trans (by decide)
    · exact h
  generalize hv : c.val.toNat = v at hval
  generalize hw : d.val.toNat = w at hval hd
  have hdiv : ∀ n, n / 4096 = n / 64 / 64 := fun n => (Nat.div_div_eq_div_mul n 64 64).symm
  have hdiv' : ∀ n, n / 262144 = n / 64 / 64 / 64 := by
    intro n
    rw [Nat.div_div_eq_div_mul, Nat.div_div_eq_div_mul]
  simp only [String.utf8EncodeChar, hv, hw, hdiv, hdiv']
  split_ifs <;>
    simp only [List.cons_append, List.nil_append, List.cons_lt_cons_iff, UInt8.lt_iff_toNat_lt,
      ← UInt8.toNat_inj, UInt8.toNat_ofNat'] <;>
    omega

theorem utf8Bytes_lt (hlt : s < t) : utf8Bytes s < utf8Bytes t := by
  have hlist : ∀ cs ds : List Char, cs < ds →
      cs.flatMap String.utf8EncodeChar < ds.flatMap String.utf8EncodeChar := by
    intro cs
    induction cs with
    | nil =>
        intro ds hds
        cases ds with
        | nil => exact absurd hds (List.lt_irrefl [])
        | cons d ds =>
            rw [List.flatMap_nil, List.flatMap_cons]
            cases hd : String.utf8EncodeChar d with
            | nil => exact absurd hd String.utf8EncodeChar_ne_nil
            | cons b bs => exact List.nil_lt_cons _ _
    | cons c cs ih =>
        intro ds hds
        cases ds with
        | nil => exact absurd hds (List.not_lt_nil _)
        | cons d ds =>
            rw [List.flatMap_cons, List.flatMap_cons]
            rcases List.cons_lt_cons_iff.1 hds with hcd | ⟨rfl, hrest⟩
            · exact utf8EncodeChar_append_lt hcd _ _
            · exact List.append_left_lt (ih ds hrest)
  have h := hlist _ _ (String.lt_iff_toList_lt.1 hlt)
  rwa [← utf8Bytes_ofList, ← utf8Bytes_ofList, String.ofList_toList, String.ofList_toList] at h

theorem prefix_of_utf8Bytes_prefix (hst : utf8Bytes s <+: utf8Bytes t) :
    s.toList <+: t.toList := by
  have hlist : ∀ cs ds : List Char,
      cs.flatMap String.utf8EncodeChar <+: ds.flatMap String.utf8EncodeChar → cs <+: ds := by
    intro cs
    induction cs with
    | nil => exact fun ds _ => List.nil_prefix
    | cons c cs ih =>
        rintro ds ⟨rest, hrest⟩
        rw [List.flatMap_cons, List.append_assoc] at hrest
        cases ds with
        | nil =>
            rw [List.flatMap_nil, List.append_eq_nil_iff] at hrest
            exact absurd hrest.1 String.utf8EncodeChar_ne_nil
        | cons d ds =>
            rw [List.flatMap_cons] at hrest
            rcases lt_trichotomy c d with hlt | rfl | hlt
            · have hless := utf8EncodeChar_append_lt hlt (cs.flatMap String.utf8EncodeChar ++ rest)
                (ds.flatMap String.utf8EncodeChar)
              rw [hrest] at hless
              exact absurd hless (List.lt_irrefl _)
            · rw [List.prefix_cons_inj]
              exact ih ds ⟨rest, List.append_cancel_left hrest⟩
            · have hless := utf8EncodeChar_append_lt hlt (ds.flatMap String.utf8EncodeChar)
                (cs.flatMap String.utf8EncodeChar ++ rest)
              rw [hrest] at hless
              exact absurd hless (List.lt_irrefl _)
  apply hlist
  rwa [← utf8Bytes_ofList, ← utf8Bytes_ofList, String.ofList_toList, String.ofList_toList]

theorem isSome_ofUtf8?_iff : (ofUtf8? bs).isSome ↔ ∃ s, utf8Bytes s = bs := by
  rw [Option.isSome_iff_exists]
  refine exists_congr fun s => ⟨utf8Bytes_of_ofUtf8?, ?_⟩
  rintro rfl
  exact ofUtf8?_utf8Bytes s

theorem isSome_ofUtf8?_append {bs' : List UInt8} (hbs : (ofUtf8? bs).isSome) :
    (ofUtf8? (bs ++ bs')).isSome ↔ (ofUtf8? bs').isSome := by
  rw [isSome_ofUtf8?_iff] at hbs
  obtain ⟨s, rfl⟩ := hbs
  rw [isSome_ofUtf8?_iff, isSome_ofUtf8?_iff]
  constructor
  · rintro ⟨t, ht⟩
    obtain ⟨cs, hcs⟩ := prefix_of_utf8Bytes_prefix ⟨bs', ht.symm⟩
    have hst : t = s ++ String.ofList cs := by
      apply String.toList_injective
      rw [String.toList_append, String.toList_ofList, hcs]
    refine ⟨String.ofList cs, ?_⟩
    rw [hst, utf8Bytes_append] at ht
    exact List.append_cancel_left ht
  · rintro ⟨t, rfl⟩
    exact ⟨s ++ t, utf8Bytes_append s t⟩

theorem toNat_of_mem_utf8EncodeChar (hb : b < 128)
    (hmem : b ∈ String.utf8EncodeChar c) : c.val.toNat = b.toNat := by
  rw [UInt8.lt_iff_toNat_lt] at hb
  generalize hv : c.val.toNat = v
  simp only [String.utf8EncodeChar, hv] at hmem
  split_ifs at hmem <;>
    simp only [List.mem_cons, List.not_mem_nil, or_false, ← UInt8.toNat_inj, UInt8.toNat_ofNat',
      UInt8.reduceToNat] at hmem hb <;>
    omega

theorem not_mem_utf8Bytes (hb : b < 128)
    (hc : c.val.toNat = b.toNat) (hs : c ∉ s.toList) : b ∉ utf8Bytes s := by
  intro hmem
  have hlist : s = String.ofList s.toList := by simp
  rw [hlist, utf8Bytes_ofList, List.mem_flatMap] at hmem
  obtain ⟨d, hd, hbyte⟩ := hmem
  have hval := toNat_of_mem_utf8EncodeChar hb hbyte
  have heq : c = d := Char.ext (UInt32.toNat_inj.1 (hc.trans hval.symm))
  exact hs (heq ▸ hd)

theorem lt_append (s : String) (ht : t ≠ "") : s < s ++ t := by
  rw [String.lt_iff_toList_lt, String.toList_append]
  have hnil : t.toList ≠ [] := fun h => ht (String.toList_eq_nil_iff.1 h)
  obtain ⟨c, cs, hcs⟩ := List.exists_cons_of_ne_nil hnil
  have hlt : s.toList ++ [] < s.toList ++ t.toList := by
    rw [hcs]
    exact List.append_left_lt (List.nil_lt_cons _ _)
  rwa [List.append_nil] at hlt

/-- No byte is zero, so the text can be a C string. -/
def NulFree (s : String) : Prop := 0 ∉ utf8Bytes s

instance (s : String) : Decidable (NulFree s) := inferInstanceAs (Decidable (0 ∉ utf8Bytes s))

theorem NulFree.append (hs : NulFree s) (ht : NulFree t) : NulFree (s ++ t) := by
  rw [NulFree, utf8Bytes_append, List.mem_append]
  rintro (h | h)
  · exact hs h
  · exact ht h

theorem NulFree.not_mem_toList (hs : NulFree s) : '\x00' ∉ s.toList := by
  intro hmem
  apply hs
  have hlist : s = String.ofList s.toList := by simp
  rw [hlist, utf8Bytes_ofList, List.mem_flatMap]
  exact ⟨'\x00', hmem, by decide⟩

theorem nulFree_ofList (hs : NulFree s) {cs : List Char} (hcs : cs ⊆ s.toList) :
    NulFree (String.ofList cs) := by
  intro hmem
  apply hs
  have hlist : s = String.ofList s.toList := by simp
  rw [hlist, utf8Bytes_ofList, List.mem_flatMap]
  rw [utf8Bytes_ofList, List.mem_flatMap] at hmem
  obtain ⟨c, hc, hzero⟩ := hmem
  exact ⟨c, hcs hc, hzero⟩

theorem forall_mem_of_all {p : Char → Prop} [DecidablePred p] {cs : List Char}
    (hall : cs.all (fun c => decide (p c)) = true) : ∀ c ∈ cs, p c :=
  fun c hc => of_decide_eq_true (List.all_eq_true.1 hall c hc)

def StartsWith (s pattern : String) : Prop := pattern.toList <+: s.toList

def EndsWith (s pattern : String) : Prop := pattern.toList <:+ s.toList

instance (s pattern : String) : Decidable (StartsWith s pattern) :=
  inferInstanceAs (Decidable (pattern.toList <+: s.toList))

instance (s pattern : String) : Decidable (EndsWith s pattern) :=
  inferInstanceAs (Decidable (pattern.toList <:+ s.toList))

def slice (s : String) (start stop : Nat) : String := String.ofList ((s.toList.take stop).drop start)

theorem slice_append (a b c : String) :
    slice (a ++ b ++ c) a.toList.length (a.toList.length + b.toList.length) = b := by
  rw [slice, String.toList_append, String.toList_append, ← List.length_append, List.take_left,
    List.drop_left]
  exact String.ofList_toList

theorem NulFree.slice (hs : NulFree s) (start stop : Nat) :
    NulFree (slice s start stop) :=
  nulFree_ofList hs fun _ hc => List.mem_of_mem_take (List.mem_of_mem_drop hc)

theorem mem_intercalate {α : Type} (sep : List α) {c : α} (parts : List (List α)) :
    (c ∈ sep.intercalate parts → c ∈ sep ∨ ∃ part ∈ parts, c ∈ part) ∧
      ∀ part ∈ parts, c ∈ part → c ∈ sep.intercalate parts := by
  induction parts with
  | nil => simp [List.intercalate]
  | cons part parts ih =>
      cases parts with
      | nil =>
          rw [List.intercalate_singleton]
          simp only [List.mem_singleton, forall_eq, exists_eq_left]
          tauto
      | cons next parts =>
          rw [List.intercalate_cons_cons]
          simp only [List.mem_append, List.mem_cons, forall_eq_or_imp, exists_eq_or_imp] at ih ⊢
          tauto

theorem mem_of_mem_splitOn {sep : Char} {s part : List Char} (hpart : part ∈ s.splitOn sep)
    (hc : c ∈ part) : c ∈ s := by
  have hmem := (mem_intercalate [sep] (s.splitOn sep)).2 part hpart hc
  rwa [List.intercalate_splitOn sep] at hmem

theorem splitOn_flatMap {α : Type} [DecidableEq α] {sep : α} {parts : List (List α)}
    (hparts : ∀ part ∈ parts, sep ∉ part) :
    (parts.flatMap fun part => part ++ [sep]).splitOn sep = parts ++ [[]] := by
  induction parts with
  | nil => rfl
  | cons part parts ih =>
      rw [List.flatMap_cons, List.append_assoc, List.singleton_append,
        List.splitOn_append_cons_self_of_not_mem (hparts part List.mem_cons_self),
        ih fun p hp => hparts p (List.mem_cons_of_mem part hp)]
      rfl

/-- The text before and behind the last occurrence of a character. -/
def rsplitOnce (s : String) (c : Char) : Option (String × String) :=
  match s.toList.reverse.dropWhile (· ≠ c) with
  | [] => none
  | _ :: before =>
      some (String.ofList before.reverse, String.ofList (s.toList.reverse.takeWhile (· ≠ c)).reverse)

theorem rsplitOnce_append (a : String) {b : String} (hb : c ∉ b.toList) :
    rsplitOnce (a ++ String.singleton c ++ b) c = some (a, b) := by
  have hreverse : (a ++ String.singleton c ++ b).toList.reverse
      = b.toList.reverse ++ c :: a.toList.reverse := by
    simp
  have hall : ∀ x ∈ b.toList.reverse, decide (x ≠ c) = true := by
    intro x hx
    rw [decide_eq_true_eq]
    rintro rfl
    exact hb (List.mem_reverse.1 hx)
  rw [rsplitOnce, hreverse, List.dropWhile_append_of_pos hall, List.takeWhile_append_of_pos hall]
  simp

end Text
