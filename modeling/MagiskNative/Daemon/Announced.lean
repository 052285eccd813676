import MagiskNative.Daemon.Socket

/-!
# Announced lengths

A client announces the lengths of its strings and vectors. `Vec::decode` and `String::decode` allocate for
them before anything is read, and a string ends where the stream ends, however long it was to be.
-/

namespace MagiskNative.Daemon

open Bytes Text Outcome Reader

variable {s elem : Shape} {t rest : List UInt8} {bad : Prop} {ts : List (List UInt8)}

/-- The width of a pointer and the sizes that values have in memory. No type that is sent has size zero. -/
structure Platform where
  pointerBits : Nat
  sizeOf : Shape → Nat
  pointerBits_ge : 32 ≤ pointerBits
  sizeOf_pos : ∀ s, 0 < sizeOf s

namespace Platform

variable (p : Platform)

def asUsize (len : BitVec 32) : Nat := (len.toInt % 2 ^ p.pointerBits).toNat

/-- Room for `len` values of `size` bytes can be asked for: no allocation is larger than `isize::MAX`. -/
def Allocates (size : Nat) (len : BitVec 32) : Prop := p.asUsize len * size < 2 ^ (p.pointerBits - 1)

instance (size : Nat) (len : BitVec 32) : Decidable (p.Allocates size len) :=
  inferInstanceAs (Decidable (_ < _))

theorem allocates_iff {size : Nat} (hsize : 0 < size) (len : BitVec 32) :
    p.Allocates size len ↔ 0 ≤ len.toInt ∧ len.toInt.toNat * size < 2 ^ (p.pointerBits - 1) := by
  have hlow := BitVec.le_toInt len
  have hhigh := BitVec.toInt_lt (x := len)
  have hbits : (2 : Int) ^ p.pointerBits = 2 * 2 ^ (p.pointerBits - 1) := by
    rw [← pow_succ', Nat.sub_add_cancel (Nat.le_trans (by decide) p.pointerBits_ge)]
  have hhalf : (2 : Nat) ^ 31 ≤ 2 ^ (p.pointerBits - 1) :=
    Nat.pow_le_pow_right (by decide) (Nat.le_sub_of_add_le p.pointerBits_ge)
  have hcast : ((2 ^ (p.pointerBits - 1) : Nat) : Int) = 2 ^ (p.pointerBits - 1) := by push_cast; rfl
  rw [Allocates, asUsize, hbits, ← hcast]
  generalize 2 ^ (p.pointerBits - 1) = half at hhalf
  norm_num at hlow hhigh
  rcases Int.lt_or_le len.toInt 0 with hneg | hpos
  · have hmod : len.toInt % (2 * (half : Int)) = len.toInt + 2 * half := by
      rw [← Int.add_emod_right, Int.emod_eq_of_lt (by omega) (by omega)]
    refine iff_of_false (fun hlt => ?_) (by omega)
    have hge : half ≤ (len.toInt % (2 * (half : Int))).toNat := by omega
    have hmul := Nat.mul_le_mul hge hsize
    omega
  · rw [Int.emod_eq_of_lt hpos (by omega)]
    exact ⟨fun hlt => ⟨hpos, hlt⟩, fun h => h.2⟩

/-- The fields of a value, without gaps between them. -/
def fieldBytes (pointerBytes : Nat) : Shape → Nat
  | .pod bytes => max bytes 1
  | .bool => 1
  -- a capacity, a pointer and a length
  | .string | .vec _ => 3 * pointerBytes
  | .pair fst snd => fieldBytes pointerBytes fst + fieldBytes pointerBytes snd

def alignOf (pointerBytes : Nat) : Shape → Nat
  | .pod bytes => max bytes 1
  | .bool => 1
  | .string | .vec _ => pointerBytes
  | .pair fst snd => max (alignOf pointerBytes fst) (alignOf pointerBytes snd)

theorem fieldBytes_pos {pointerBytes : Nat} (hbytes : 0 < pointerBytes) (s : Shape) :
    0 < fieldBytes pointerBytes s := by
  induction s with
  | pair fst snd ihfst ihsnd => exact Nat.add_pos_left ihfst _
  | _ => simp only [fieldBytes]; omega

/-- The fields of a struct are ordered by their alignment, and what is left to fill is at its end. -/
def ofPointer (pointerBytes : Nat) (hbytes : 4 ≤ pointerBytes) : Platform where
  pointerBits := 8 * pointerBytes
  sizeOf s :=
    let bytes := fieldBytes pointerBytes s
    let align := alignOf pointerBytes s
    bytes + (align - bytes % align) % align
  pointerBits_ge := by omega
  sizeOf_pos s := Nat.add_pos_left (fieldBytes_pos (by omega) s) _

def lp64 : Platform := ofPointer 8 (by decide)

def arm : Platform := ofPointer 4 (by decide)

end Platform

namespace Shape

variable (p : Platform)

/-- A length, and `with_capacity` for as many values of `size` bytes. -/
def announced (size : Nat) : Decoder (BitVec 32) := fun r => do
  let (len, r) ← decodePod 4 r
  Outcome.assert (p.Allocates size len)
  return (len, r)

def readText (len : BitVec 32) : Decoder String := fun r => do
  let (got, r) ← ofRead (Reader.readTake r (len.toInt % 2 ^ 64).toNat)
  let v ← Outcome.ofOption (ofUtf8? got) .other
  return (v, r)

/-- `Decodable::decode` on a platform. -/
def decodeOn : (s : Shape) → Decoder s.Value
  | pod bytes, r => decodePod bytes r
  | bool, r => do
      let (b, r) ← decodePod 1 r
      return (b ≠ 0, r)
  | string, r => do
      let (len, r) ← announced p 1 r
      readText len r
  | vec elem, r => do
      let (len, r) ← announced p (p.sizeOf elem) r
      decodeMany elem.decodeOn len.toInt.toNat r
  | pair fst snd, r => do
      let (x, r) ← fst.decodeOn r
      let (y, r) ← snd.decodeOn r
      return ((x, y), r)

/-- The texts of a shape: what `encode` writes, but with any byte for a flag. -/
def Text : Shape → List UInt8 → Prop
  | pod bytes, t => t.length = bytes
  | bool, t => t.length = 1
  | string, t => ∃ v, (utf8Bytes v).length < 2 ^ 31 ∧ t = encodeLen (utf8Bytes v).length ++ utf8Bytes v
  | vec elem, t => ∃ ts : List (List UInt8), ts.length < 2 ^ 31 ∧ (∀ u ∈ ts, elem.Text u) ∧
      t = encodeLen ts.length ++ ts.flatten
  | pair fst snd, t => ∃ t₁ t₂, fst.Text t₁ ∧ snd.Text t₂ ∧ t = t₁ ++ t₂

/-- A text with a flag that is neither zero nor one. -/
def Flagged : Shape → List UInt8 → Prop
  | pod _, _ | string, _ => False
  | bool, t => ∃ b, 1 < b ∧ t = [b]
  | vec elem, t => ∃ ts : List (List UInt8), ts.length < 2 ^ 31 ∧ (∀ u ∈ ts, elem.Text u) ∧
      (∃ u ∈ ts, elem.Flagged u) ∧ t = encodeLen ts.length ++ ts.flatten
  | pair fst snd, t => ∃ t₁ t₂, fst.Text t₁ ∧ snd.Text t₂ ∧ (fst.Flagged t₁ ∨ snd.Flagged t₂) ∧ t = t₁ ++ t₂

/-- A text that ends inside its last string, with nothing to follow. -/
def Cut : Shape → List UInt8 → Prop
  | pod _, _ | bool, _ => False
  | string, t => ∃ (len : BitVec 32) (v : String), ((utf8Bytes v).length : Int) < len.toInt ∧
      t = encodePod (n := 4) len ++ utf8Bytes v
  | vec elem, t => ∃ (ts : List (List UInt8)) (u : List UInt8), ts.length + 1 < 2 ^ 31 ∧
      (∀ u ∈ ts, elem.Text u) ∧ elem.Cut u ∧ t = encodeLen (ts.length + 1) ++ (ts.flatten ++ u)
  | pair fst snd, t => ∃ t₁ t₂, (fst.Text t₁ ∧ snd.Cut t₂ ∨ fst.Cut t₁ ∧ snd.Text t₂ ∧ t₂ = []) ∧ t = t₁ ++ t₂

/-- Behind whole texts comes a length for which nothing can be allocated. -/
def Overflows : Shape → List UInt8 → Prop
  | pod _, _ | bool, _ => False
  | string, data => ∃ len rest, ¬ p.Allocates 1 len ∧ data = encodePod (n := 4) len ++ rest
  | vec elem, data => ∃ (len : BitVec 32) (ts : List (List UInt8)) (rest : List UInt8),
      (¬ p.Allocates (p.sizeOf elem) len ∨
        (∀ u ∈ ts, elem.Text u) ∧ (ts.length : Int) < len.toInt ∧ elem.Overflows rest) ∧
      data = encodePod (n := 4) len ++ (ts.flatten ++ rest)
  | pair fst snd, data => fst.Overflows data ∨ ∃ t rest, fst.Text t ∧ snd.Overflows rest ∧ data = t ++ rest

variable {p}

theorem ofRead_ne_panic (result : Except Reader.Error (List UInt8) × Reader.State) :
    ofRead result ≠ .panic := by
  obtain ⟨got | e, r⟩ := result <;> exact nofun

theorem decodePod_ne_panic (bytes : Nat) (r : Reader.State) : decodePod bytes r ≠ .panic :=
  Outcome.bind_ne_panic_iff.2 ⟨ofRead_ne_panic _, fun _ _ => nofun⟩

variable {α : Type} {r r' : Reader.State} {size n : Nat} {len : BitVec 32} {same : Prop}
  {sent : List UInt8}

theorem announced_eq_panic (hpanic : announced p size r = .panic) :
    ∃ len r', decodePod 4 r = .ok (len, r') ∧ ¬ p.Allocates size len := by
  rcases Outcome.bind_eq_panic.1 hpanic with hpod | ⟨⟨len, r'⟩, hpod, hrest⟩
  · exact absurd hpod (decodePod_ne_panic 4 r)
  · refine ⟨len, r', hpod, fun hfits => ?_⟩
    dsimp only at hrest
    rw [assert_of hfits] at hrest
    cases hrest

theorem announced_eq_ok_iff :
    announced p size r = .ok (len, r') ↔ decodePod 4 r = .ok (len, r') ∧ p.Allocates size len := by
  rw [announced, bind_eq_ok]
  constructor
  · rintro ⟨a, ha, hbody⟩
    obtain ⟨u, hassert, hpure⟩ := Outcome.bind_eq_ok.1 hbody
    cases hpure
    refine ⟨ha, ?_⟩
    by_contra hnot
    rw [Outcome.assert, if_neg hnot] at hassert
    cases hassert
  · rintro ⟨hlen, hfits⟩
    refine ⟨(len, r'), hlen, ?_⟩
    dsimp only
    rw [assert_of hfits]
    rfl

theorem readText_ne_panic (len : BitVec 32) (r : Reader.State) : readText len r ≠ .panic := by
  refine Outcome.bind_ne_panic_iff.2 ⟨ofRead_ne_panic _, fun _ _ => ?_⟩
  exact Outcome.bind_ne_panic_iff.2 ⟨ofOption_ne_panic _ _, fun _ _ => nofun⟩

theorem ofLe_encodePod (v : BitVec (8 * n)) : ofLe (encodePod v) = v.toNat := by
  apply ofLe_leBytes_of_lt
  have hlt := v.isLt
  rwa [Nat.pow_mul] at hlt

theorem encodePod_inj {v w : BitVec (8 * n)} : encodePod v = encodePod w ↔ v = w := by
  refine ⟨fun heq => BitVec.eq_of_toNat_eq ?_, fun heq => by rw [heq]⟩
  rw [← ofLe_encodePod, heq, ofLe_encodePod]

theorem ofRead_eq_ok_iff {result : Except Reader.Error (List UInt8) × Reader.State} {got : List UInt8}
    : ofRead result = .ok (got, r) ↔ result = (.ok got, r) := by
  obtain ⟨bytes | e, r₁⟩ := result
  · exact iff_of_false nofun nofun
  · simp [ofRead]

theorem data_of_decodePod {v : BitVec (8 * n)}
    (hdecode : decodePod n r = .ok (v, r')) : r.data = encodePod v ++ r'.data := by
  obtain ⟨a, hread, hpure⟩ := Outcome.bind_eq_ok.1 hdecode
  cases hpure
  obtain ⟨hdata, hlength⟩ := data_readExact (ofRead_eq_ok_iff.1 hread)
  rw [hdata, encodePod, BitVec.toNat_ofNat, Nat.pow_mul, Nat.mod_eq_of_lt (hlength ▸ ofLe_lt a.1), ← hlength,
    leBytes_ofLe]

theorem consumes_text {v : String} (hpos : 0 ≤ len.toInt) (htext : readText len r = .ok (v, r')) :
    r.data = utf8Bytes v ++ r'.data ∧
      (((utf8Bytes v).length : Int) = len.toInt ∨ ((utf8Bytes v).length : Int) < len.toInt ∧ r'.data = []) := by
  obtain ⟨⟨got, r₁⟩, hread, hrest⟩ := Outcome.bind_eq_ok.1 htext
  obtain ⟨w, hutf, hpure⟩ := Outcome.bind_eq_ok.1 hrest
  cases hpure
  obtain ⟨hdata, hle, hend⟩ := data_readTake (ofRead_eq_ok_iff.1 hread)
  have hlt : len.toInt < 2 ^ 31 := BitVec.toInt_lt
  rw [Int.emod_eq_of_lt hpos (by omega)] at hle hend
  rw [utf8Bytes_of_ofUtf8? (Outcome.ofOption_eq_ok.1 hutf)]
  refine ⟨hdata, ?_⟩
  rcases hend with hend | hend
  · exact .inl (by omega)
  · rcases Nat.lt_or_eq_of_le hle with hlt | heq
    · exact .inr ⟨by omega, hend⟩
    · exact .inl (by omega)

theorem eq_ofNat_iff (hn : n < 2 ^ 31) :
    len = BitVec.ofNat 32 n ↔ (n : Int) = len.toInt := by
  have hint : (BitVec.ofNat 32 n).toInt = n := by
    rw [BitVec.toInt_eq_toNat_of_lt] <;> rw [BitVec.toNat_ofNat] <;> omega
  rw [← BitVec.toInt_inj, hint, eq_comm]

theorem length_encodePod (v : BitVec (8 * n)) : (encodePod v).length = n := length_leBytes _ _

theorem encodePod_append_ne_nil (len : BitVec 32) (t : List UInt8) : encodePod (n := 4) len ++ t ≠ [] := by
  intro hnil
  have hlength := congrArg List.length hnil
  rw [List.length_append, length_encodePod, List.length_nil] at hlength
  omega

theorem not_cut_nil (s : Shape) : ¬ s.Cut [] := by
  induction s with
  | pod bytes => exact id
  | bool => exact id
  | string =>
      rintro ⟨len, v, -, hnil⟩
      exact encodePod_append_ne_nil _ _ hnil.symm
  | vec elem ih =>
      rintro ⟨ts, u, -, -, -, hnil⟩
      exact encodePod_append_ne_nil _ _ hnil.symm
  | pair fst snd ihfst ihsnd =>
      rintro ⟨t₁, t₂, hcut, hnil⟩
      obtain ⟨rfl, rfl⟩ := List.append_eq_nil_iff.1 hnil.symm
      rcases hcut with ⟨-, hcut⟩ | ⟨hcut, -⟩
      · exact ihsnd hcut
      · exact ihfst hcut

/-- A shape with a string in it cannot be read from nothing. -/
theorem not_text_nil_of_cut (hcut : s.Cut t) : ¬ s.Text [] := by
  induction s generalizing t with
  | pod bytes => exact hcut.elim
  | bool => exact hcut.elim
  | string =>
      rintro ⟨v, -, hnil⟩
      exact encodePod_append_ne_nil _ _ hnil.symm
  | vec elem ih =>
      rintro ⟨ts, -, -, hnil⟩
      exact encodePod_append_ne_nil _ _ hnil.symm
  | pair fst snd ihfst ihsnd =>
      rintro ⟨t₁, t₂, hfst, hsnd, hnil⟩
      obtain ⟨rfl, rfl⟩ := List.append_eq_nil_iff.1 hnil.symm
      obtain ⟨u₁, u₂, ⟨-, hcut⟩ | ⟨hcut, -⟩, -⟩ := hcut
      · exact ihsnd hcut hsnd
      · exact ihfst hcut hfst

theorem not_overflows_nil (s : Shape) : ¬ s.Overflows p [] := by
  induction s with
  | pod bytes => exact id
  | bool => exact id
  | string =>
      rintro ⟨len, rest, -, hnil⟩
      exact encodePod_append_ne_nil _ _ hnil.symm
  | vec elem ih =>
      rintro ⟨len, ts, rest, -, hnil⟩
      exact encodePod_append_ne_nil _ _ hnil.symm
  | pair fst snd ihfst ihsnd =>
      rintro (hfst | ⟨t, rest, -, hsnd, hnil⟩)
      · exact ihfst hfst
      · obtain ⟨-, rfl⟩ := List.append_eq_nil_iff.1 hnil.symm
        exact ihsnd hsnd

/-- What has been read for a value: a whole text, or one that the end of the stream cuts off. -/
def Took (s : Shape) (v : s.Value) (r r' : Reader.State) : Prop :=
  ∃ t, r.data = t ++ r'.data ∧ (s.Text t ∧ (t ≠ s.encode v → s.Flagged t) ∨ s.Cut t ∧ r'.data = [])

/-- Behind a text that is cut off nothing with a string in it is read. -/
theorem Took.not_cut {v : s.Value} (htook : s.Took v r r') (hnil : r.data = []) : ¬ s.Cut t := by
  obtain ⟨u, hdata, hkind⟩ := htook
  obtain ⟨rfl, -⟩ := List.append_eq_nil_iff.1 (hdata.symm.trans hnil)
  rcases hkind with ⟨htext, -⟩ | ⟨hcut, -⟩
  · exact fun hcut => not_text_nil_of_cut hcut htext
  · exact absurd hcut (not_cut_nil s)

theorem took_many
    (helem : ∀ {r r' : Reader.State} {v : elem.Value}, elem.decodeOn p r = .ok (v, r') → elem.Took v r r')
    {vs : List elem.Value} (hmany : decodeMany (elem.decodeOn p) n r = .ok (vs, r')) :
    vs.length = n ∧
      ((∃ ts : List (List UInt8), ts.length = n ∧ r.data = ts.flatten ++ r'.data ∧ (∀ u ∈ ts, elem.Text u) ∧
          (ts.flatten ≠ vs.flatMap (fun v => elem.encode v) → ∃ u ∈ ts, elem.Flagged u)) ∨
        ∃ (ts : List (List UInt8)) (u : List UInt8), ts.length + 1 = n ∧ r.data = ts.flatten ++ u ∧
          (∀ u ∈ ts, elem.Text u) ∧ elem.Cut u ∧ r'.data = []) := by
  induction n generalizing r vs with
  | zero =>
      cases hmany
      exact ⟨rfl, .inl ⟨[], rfl, rfl, by simp, fun h => absurd rfl h⟩⟩
  | succ n ih =>
      obtain ⟨⟨v, r₁⟩, hv, hrest⟩ := Outcome.bind_eq_ok.1 hmany
      obtain ⟨⟨vs, r₂⟩, hvs, hpure⟩ := Outcome.bind_eq_ok.1 hrest
      cases hpure
      obtain ⟨hcount, hmany⟩ := ih hvs
      obtain ⟨t, hdata, hkind⟩ := helem hv
      refine ⟨by rw [List.length_cons, hcount], ?_⟩
      rw [List.flatMap_cons]
      rcases hkind with ⟨htext, hflagged⟩ | ⟨hcut, hnil⟩
      · rcases hmany with ⟨ts, rfl, hdata', htexts, hflagged'⟩ | ⟨ts, u, rfl, hdata', htexts, hcut, hend⟩
        · refine .inl ⟨t :: ts, rfl, ?_, List.forall_mem_cons.2 ⟨htext, htexts⟩, fun hne => ?_⟩
          · rw [hdata, hdata', List.flatten_cons, List.append_assoc]
          · rw [List.flatten_cons] at hne
            by_cases heq : t = elem.encode v
            · obtain ⟨u, hu, hflag⟩ := hflagged' fun heq' => hne (by rw [heq, heq'])
              exact ⟨u, List.mem_cons_of_mem t hu, hflag⟩
            · exact ⟨t, List.mem_cons_self, hflagged heq⟩
        · refine .inr ⟨t :: ts, u, rfl, ?_, List.forall_mem_cons.2 ⟨htext, htexts⟩, hcut, hend⟩
          rw [hdata, hdata', List.flatten_cons, List.append_assoc]
      · -- nothing is left for the elements behind the one that is cut off
        cases n with
        | zero =>
            cases hvs
            refine .inr ⟨[], t, rfl, ?_, by simp, hcut, hnil⟩
            rw [hdata, hnil, List.append_nil]
            rfl
        | succ n =>
            obtain ⟨⟨w, r₃⟩, hw, -⟩ := Outcome.bind_eq_ok.1 hvs
            exact absurd hcut ((helem hw).not_cut hnil)

theorem flagged_encodePod {b : BitVec 8} (hne : encodePod (n := 1) b ≠ bool.encode (decide (b ≠ 0))) :
    bool.Flagged (encodePod (n := 1) b) := by
  have hbit : b ≠ 0 ∧ b ≠ 1 := by
    refine ⟨?_, ?_⟩ <;> rintro rfl <;> exact hne rfl
  have hlt := b.isLt
  have hbyte : (UInt8.ofNat b.toNat).toNat = b.toNat := by
    rw [UInt8.toNat_ofNat']
    omega
  refine ⟨UInt8.ofNat b.toNat, ?_, rfl⟩
  rw [UInt8.lt_iff_toNat_lt, hbyte]
  have h0 : b.toNat ≠ 0 := fun h => hbit.1 (BitVec.eq_of_toNat_eq h)
  have h1 : b.toNat ≠ 1 := fun h => hbit.2 (BitVec.eq_of_toNat_eq h)
  change 1 < b.toNat
  omega

theorem took_decodeOn (s : Shape) {v : s.Value} (hdecode : s.decodeOn p r = .ok (v, r')) : s.Took v r r' := by
  induction s generalizing r r' with
  | pod bytes =>
      exact ⟨encodePod v, data_of_decodePod hdecode, .inl ⟨length_encodePod v, fun h => absurd rfl h⟩⟩
  | bool =>
      obtain ⟨⟨b, r₁⟩, hb, hpure⟩ := Outcome.bind_eq_ok.1 hdecode
      cases hpure
      exact ⟨encodePod (n := 1) b, data_of_decodePod hb, .inl ⟨rfl, flagged_encodePod⟩⟩
  | string =>
      obtain ⟨⟨len, r₁⟩, hlen, htext⟩ := Outcome.bind_eq_ok.1 hdecode
      obtain ⟨hpod, hfits⟩ := announced_eq_ok_iff.1 hlen
      have hpos := ((p.allocates_iff Nat.one_pos len).1 hfits).1
      obtain ⟨hdata, hkind⟩ := consumes_text hpos htext
      have hlt : len.toInt < 2 ^ 31 := BitVec.toInt_lt
      refine ⟨encodePod (n := 4) len ++ utf8Bytes v, ?_, ?_⟩
      · rw [data_of_decodePod hpod, hdata, List.append_assoc]
      · rcases hkind with heq | ⟨hless, hend⟩
        · have hsame : encodePod (n := 4) len = encodeLen (utf8Bytes v).length := by
            rw [encodeLen, ← (eq_ofNat_iff (by omega)).2 heq]
          rw [hsame]
          exact .inl ⟨⟨v, by omega, rfl⟩, fun hne => absurd rfl hne⟩
        · exact .inr ⟨⟨len, v, hless, rfl⟩, hend⟩
  | vec elem ih =>
      obtain ⟨⟨len, r₁⟩, hlen, hmany⟩ := Outcome.bind_eq_ok.1 hdecode
      obtain ⟨hpod, hfits⟩ := announced_eq_ok_iff.1 hlen
      have hpos := ((p.allocates_iff (p.sizeOf_pos elem) len).1 hfits).1
      have hlt : len.toInt < 2 ^ 31 := BitVec.toInt_lt
      obtain ⟨hcount, hkind⟩ := took_many ih hmany
      have hsame : encodePod (n := 4) len = encodeLen v.length := by
        rw [encodeLen, ← (eq_ofNat_iff (by omega)).2 (by rw [hcount, Int.toNat_of_nonneg hpos])]
      have hdata := data_of_decodePod hpod
      rw [hsame] at hdata
      rcases hkind with ⟨ts, htotal, hdata', htexts, hflagged⟩ | ⟨ts, u, htotal, hdata', htexts, hcut, hend⟩
      · refine ⟨encodeLen v.length ++ ts.flatten, by rw [hdata, hdata', List.append_assoc],
          .inl ⟨⟨ts, by omega, htexts, by rw [htotal, ← hcount]⟩, fun hne => ?_⟩⟩
        have hflag := hflagged fun heq => hne (by rw [heq, encode])
        exact ⟨ts, by omega, htexts, hflag, by rw [htotal, ← hcount]⟩
      · refine ⟨encodeLen v.length ++ (ts.flatten ++ u), by rw [hdata, hdata', hend, List.append_nil],
          .inr ⟨⟨ts, u, by omega, htexts, hcut, by rw [htotal, ← hcount]⟩, hend⟩⟩
  | pair fst snd ihfst ihsnd =>
      obtain ⟨⟨x, r₁⟩, hx, hrest⟩ := Outcome.bind_eq_ok.1 hdecode
      obtain ⟨⟨y, r₂⟩, hy, hpure⟩ := Outcome.bind_eq_ok.1 hrest
      cases hpure
      obtain ⟨t₁, hdata₁, hkind₁⟩ := ihfst hx
      obtain ⟨t₂, hdata₂, hkind₂⟩ := ihsnd hy
      refine ⟨t₁ ++ t₂, by rw [hdata₁, hdata₂, List.append_assoc], ?_⟩
      rcases hkind₁ with ⟨htext₁, hflagged₁⟩ | ⟨hcut₁, hnil⟩
      · rcases hkind₂ with ⟨htext₂, hflagged₂⟩ | ⟨hcut₂, hend⟩
        · refine .inl ⟨⟨t₁, t₂, htext₁, htext₂, rfl⟩, fun hne => ⟨t₁, t₂, htext₁, htext₂, ?_, rfl⟩⟩
          by_cases heq : t₁ = fst.encode x
          · exact .inr (hflagged₂ fun heq' => hne (by rw [heq, heq', encode]))
          · exact .inl (hflagged₁ heq)
        · exact .inr ⟨⟨t₁, t₂, .inl ⟨htext₁, hcut₂⟩, rfl⟩, hend⟩
      · rw [hnil] at hdata₂
        obtain ⟨rfl, hend⟩ := List.append_eq_nil_iff.1 hdata₂.symm
        rcases hkind₂ with ⟨htext₂, -⟩ | ⟨hcut₂, -⟩
        · exact .inr ⟨⟨t₁, [], .inr ⟨hcut₁, htext₂, rfl⟩, rfl⟩, hend⟩
        · exact absurd hcut₂ (not_cut_nil snd)

theorem overflows_many (helem : ∀ {r}, elem.decodeOn p r = .panic → elem.Overflows p r.data)
    (hmany : decodeMany (elem.decodeOn p) n r = .panic) :
    ∃ (ts : List (List UInt8)) (rest : List UInt8), ts.length < n ∧ (∀ u ∈ ts, elem.Text u) ∧
      elem.Overflows p rest ∧ r.data = ts.flatten ++ rest := by
  induction n generalizing r with
  | zero => cases hmany
  | succ n ih =>
      rcases Outcome.bind_eq_panic.1 hmany with hpanic | ⟨⟨v, r₁⟩, hv, hrest⟩
      · exact ⟨[], r.data, Nat.succ_pos n, by simp, helem hpanic, rfl⟩
      · rcases Outcome.bind_eq_panic.1 hrest with hpanic | ⟨a, -, hpure⟩
        · obtain ⟨ts, rest, hlt, htexts, hover, hdata⟩ := ih hpanic
          obtain ⟨t, hdata', ⟨htext, -⟩ | ⟨hcut, hnil⟩⟩ := took_decodeOn elem hv
          · refine ⟨t :: ts, rest, Nat.succ_lt_succ hlt, List.forall_mem_cons.2 ⟨htext, htexts⟩, hover, ?_⟩
            rw [hdata', hdata, List.flatten_cons, List.append_assoc]
          · obtain ⟨-, rfl⟩ := List.append_eq_nil_iff.1 (hdata.symm.trans hnil)
            exact absurd hover (not_overflows_nil elem)
        · cases hpure

theorem overflows_of_panic (s : Shape) (hpanic : s.decodeOn p r = .panic) : s.Overflows p r.data := by
  induction s generalizing r with
  | pod bytes => exact absurd hpanic (decodePod_ne_panic bytes r)
  | bool =>
      rcases Outcome.bind_eq_panic.1 hpanic with hpod | ⟨a, -, hpure⟩
      · exact absurd hpod (decodePod_ne_panic 1 r)
      · cases hpure
  | string =>
      rcases Outcome.bind_eq_panic.1 hpanic with hannounced | ⟨⟨len, r₁⟩, -, htext⟩
      · obtain ⟨len, r₁, hpod, hnot⟩ := announced_eq_panic hannounced
        exact ⟨len, r₁.data, hnot, data_of_decodePod hpod⟩
      · exact absurd htext (readText_ne_panic len r₁)
  | vec elem ih =>
      rcases Outcome.bind_eq_panic.1 hpanic with hannounced | ⟨⟨len, r₁⟩, hlen, hmany⟩
      · obtain ⟨len, r₁, hpod, hnot⟩ := announced_eq_panic hannounced
        exact ⟨len, [], r₁.data, .inl hnot, data_of_decodePod hpod⟩
      · obtain ⟨ts, rest, hlt, htexts, hover, hdata⟩ := overflows_many ih hmany
        refine ⟨len, ts, rest, .inr ⟨htexts, by omega, hover⟩, ?_⟩
        rw [data_of_decodePod (announced_eq_ok_iff.1 hlen).1, hdata]
  | pair fst snd ihfst ihsnd =>
      rcases Outcome.bind_eq_panic.1 hpanic with hfst | ⟨⟨x, r₁⟩, hx, hrest⟩
      · exact .inl (ihfst hfst)
      · rcases Outcome.bind_eq_panic.1 hrest with hsnd | ⟨a, -, hpure⟩
        · have hover := ihsnd hsnd
          obtain ⟨t, hdata, ⟨htext, -⟩ | ⟨-, hnil⟩⟩ := took_decodeOn fst hx
          · exact .inr ⟨t, r₁.data, htext, hover, hdata⟩
          · rw [hnil] at hover
            exact absurd hover (not_overflows_nil snd)
        · cases hpure

/-- A reader that serves every call in full, on a text: it aborts, or it gives a value whose encoding is
as long as the text, and another one if the text is `bad`. -/
def Gives {α : Type} (decode : Decoder α) (encode : α → List UInt8) (t rest : List UInt8) (bad : Prop) : Prop :=
  decode ⟨t ++ rest, []⟩ = .panic ∨ ∃ v, decode ⟨t ++ rest, []⟩ = .ok (v, ⟨rest, []⟩) ∧
    (encode v).length = t.length ∧ (bad → t ≠ encode v)

theorem decodePod_encodePod (v : BitVec (8 * n)) (rest : List UInt8) :
    decodePod n ⟨encodePod v ++ rest, []⟩ = .ok (v, ⟨rest, []⟩) := by
  have hread : Reader.readExact ⟨encodePod v ++ rest, []⟩ n = (.ok (encodePod v), ⟨rest, []⟩) := by
    have hlen : n ≤ (encodePod v ++ rest).length := by
      rw [List.length_append, length_encodePod]
      omega
    rw [readExact_full hlen, List.take_left' (length_encodePod v), List.drop_left' (length_encodePod v)]
  rw [decodePod, hread, ofRead, ok_bind]
  dsimp only
  rw [ofLe_encodePod, BitVec.ofNat_toNat, BitVec.setWidth_eq, pure_eq]

theorem announced_encodePod (hfits : p.Allocates size len) (rest : List UInt8) :
    announced p size ⟨encodePod (n := 4) len ++ rest, []⟩ = .ok (len, ⟨rest, []⟩) :=
  announced_eq_ok_iff.2 ⟨decodePod_encodePod (n := 4) len rest, hfits⟩

theorem announced_panic (hfits : ¬ p.Allocates size len) (rest : List UInt8) :
    announced p size ⟨encodePod (n := 4) len ++ rest, []⟩ = .panic := by
  refine Outcome.bind_eq_panic.2 (.inr ⟨_, decodePod_encodePod (n := 4) len rest, ?_⟩)
  dsimp only
  rw [Outcome.assert, if_neg hfits]
  rfl

theorem Gives.seq {β γ : Type} {first : Decoder α} {second : Decoder β} {encode : α → List UInt8}
    {encode' : β → List UInt8} {t' : List UInt8} {bad' : Prop} (f : α → β → γ)
    (encode'' : γ → List UInt8) (hencode : ∀ x y, encode'' (f x y) = encode x ++ encode' y)
    (hfirst : Gives first encode t (t' ++ rest) bad) (hsecond : Gives second encode' t' rest bad') :
    Gives (fun r => do
      let (x, r) ← first r
      let (y, r) ← second r
      return (f x y, r)) encode'' (t ++ t') rest (bad ∨ bad') := by
  rw [Gives, List.append_assoc]
  rcases hfirst with hpanic | ⟨x, hx, hlength, hbad⟩
  · exact .inl (Outcome.bind_panic hpanic _)
  · rcases hsecond with hpanic | ⟨y, hy, hlength', hbad'⟩
    · exact .inl (Outcome.bind_eq_panic.2 (.inr ⟨_, hx, Outcome.bind_panic hpanic _⟩))
    · refine .inr ⟨f x y, ?_, ?_, ?_⟩
      · simp only [hx, hy, ok_bind, pure_eq]
      · rw [hencode, List.length_append, List.length_append, hlength, hlength']
      · intro hsome heq
        rw [hencode] at heq
        obtain ⟨hfst, hsnd⟩ := List.append_inj heq hlength.symm
        exact hsome.elim (fun h => hbad h hfst) fun h => hbad' h hsnd

theorem Gives.many {decode : Decoder α} {encode : α → List UInt8} {bad : List UInt8 → Prop}
    (hts : ∀ u ∈ ts, ∀ rest, Gives decode encode u rest (bad u)) (rest : List UInt8) :
    Gives (decodeMany decode ts.length) (fun vs => vs.flatMap encode) ts.flatten rest (∃ u ∈ ts, bad u) := by
  induction ts with
  | nil => exact .inr ⟨[], rfl, rfl, fun h => absurd h (by simp)⟩
  | cons u ts ih =>
      rw [List.forall_mem_cons] at hts
      have hcons := Gives.seq List.cons (fun vs => vs.flatMap encode) (fun x y => rfl)
        (hts.1 (ts.flatten ++ rest)) (ih hts.2)
      rw [Gives] at hcons ⊢
      refine hcons.imp id ?_
      rintro ⟨vs, hvs, hlength, hbad⟩
      exact ⟨vs, hvs, hlength, fun h => hbad (by simpa using h)⟩

/-- All but the last of the texts are whole. -/
theorem Gives.many_last {decode : Decoder α} {encode : α → List UInt8}
    {u : List UInt8} (hts : ∀ u ∈ ts, ∀ rest, Gives decode encode u rest False)
    (hu : Gives decode encode u [] True) :
    Gives (decodeMany decode (ts.length + 1)) (fun vs => vs.flatMap encode) (ts.flatten ++ u) [] True := by
  induction ts with
  | nil =>
      have hnil : Gives (decodeMany decode 0) (fun vs => vs.flatMap encode) [] [] False :=
        .inr ⟨[], rfl, rfl, fun h => h.elim⟩
      have hlast := Gives.seq List.cons (fun vs => vs.flatMap encode) (fun x y => rfl) hu hnil
      rw [List.append_nil, or_false] at hlast
      exact hlast
  | cons t ts ih =>
      rw [List.forall_mem_cons] at hts
      have hfirst := hts.1 (ts.flatten ++ u)
      rw [← List.append_nil (ts.flatten ++ u)] at hfirst
      have hcons := Gives.seq List.cons (fun vs => vs.flatMap encode) (fun x y => rfl)
        hfirst (ih hts.2)
      rwa [false_or, ← List.append_assoc] at hcons

theorem gives_string {v : String} (hle : ((utf8Bytes v).length : Int) ≤ len.toInt)
    (hend : ((utf8Bytes v).length : Int) = len.toInt ∨ rest = []) :
    Gives (string.decodeOn p) string.encode (encodePod (n := 4) len ++ utf8Bytes v) rest
      (((utf8Bytes v).length : Int) ≠ len.toInt) := by
  rw [Gives, List.append_assoc]
  by_cases hfits : p.Allocates 1 len
  · have hlt : len.toInt < 2 ^ 31 := BitVec.toInt_lt
    have hread : Reader.readTake ⟨utf8Bytes v ++ rest, []⟩ (len.toInt % 2 ^ 64).toNat
        = (.ok (utf8Bytes v), ⟨rest, []⟩) := by
      rw [Int.emod_eq_of_lt (by omega) (by omega)]
      rcases hend with heq | rfl
      · rw [← heq, Int.toNat_natCast, readTake_eq_readExact (by simp),
          readExact_full (by simp), List.take_left, List.drop_left]
      · rw [List.append_nil, readTake_eof (by omega)]
    refine .inr ⟨v, ?_, ?_, fun hne heq => hne ?_⟩
    · rw [decodeOn, announced_encodePod hfits, ok_bind]
      dsimp only
      rw [readText, hread, ofRead, ok_bind]
      dsimp only
      rw [ofUtf8?_utf8Bytes]
      rfl
    · rw [encode, encodeLen, List.length_append, List.length_append, length_encodePod, length_encodePod]
    · rw [encode, encodeLen, List.append_left_inj, encodePod_inj] at heq
      exact (eq_ofNat_iff (by omega)).1 heq
  · exact .inl (Outcome.bind_panic (announced_panic hfits _) _)

theorem gives_vec {count : Nat} (hcount : count < 2 ^ 31)
    (hmany : Gives (decodeMany (elem.decodeOn p) count) (fun vs => vs.flatMap fun v => elem.encode v) t rest bad) :
    Gives ((vec elem).decodeOn p) (vec elem).encode (encodeLen count ++ t) rest bad := by
  rw [Gives, List.append_assoc]
  by_cases hfits : p.Allocates (p.sizeOf elem) (BitVec.ofNat 32 count)
  · have hint : (BitVec.ofNat 32 count).toInt.toNat = count := by
      rw [← (eq_ofNat_iff hcount).1 rfl, Int.toNat_natCast]
    have hdecode : (vec elem).decodeOn p ⟨encodeLen count ++ (t ++ rest), []⟩
        = decodeMany (elem.decodeOn p) count ⟨t ++ rest, []⟩ := by
      rw [decodeOn, encodeLen, announced_encodePod hfits, ok_bind]
      dsimp only
      rw [hint]
    rw [hdecode]
    refine hmany.imp id ?_
    rintro ⟨vs, hvs, hlength, hbad⟩
    refine ⟨vs, hvs, ?_, fun h heq => hbad h ?_⟩
    · rw [encode, encodeLen, encodeLen, List.length_append, List.length_append, length_encodePod,
        length_encodePod, hlength]
    · rw [encode, encodeLen, encodeLen] at heq
      exact (List.append_inj heq (by rw [length_encodePod, length_encodePod])).2
  · exact .inl (Outcome.bind_panic (announced_panic hfits _) _)

theorem exists_encodePod (hlength : t.length = n) : ∃ v : BitVec (8 * n), t = encodePod v := by
  refine ⟨BitVec.ofNat (8 * n) (ofLe t), ?_⟩
  rw [encodePod, BitVec.toNat_ofNat, Nat.pow_mul, Nat.mod_eq_of_lt (hlength ▸ ofLe_lt t), ← hlength, leBytes_ofLe]

theorem gives_bool {b : BitVec 8} (rest : List UInt8) :
    Gives (bool.decodeOn p) bool.encode (encodePod (n := 1) b) rest (b ≠ 0 ∧ b ≠ 1) := by
  refine .inr ⟨decide (b ≠ 0), ?_, rfl, fun hbad heq => ?_⟩
  · rw [decodeOn, decodePod_encodePod (n := 1)]
    rfl
  · rw [encode, encodePod_inj, if_pos (decide_eq_true hbad.1)] at heq
    exact hbad.2 heq

theorem Gives.weaken {decode : Decoder α} {encode : α → List UInt8} {bad' : Prop}
    (hgives : Gives decode encode t rest bad) (himp : bad' → bad) : Gives decode encode t rest bad' :=
  hgives.imp id fun ⟨v, hv, hlength, hbad⟩ => ⟨v, hv, hlength, fun h => hbad (himp h)⟩

theorem gives_pair {fst snd : Shape} {t' : List UInt8} {bad' : Prop}
    (hfst : Gives (fst.decodeOn p) fst.encode t (t' ++ rest) bad)
    (hsnd : Gives (snd.decodeOn p) snd.encode t' rest bad') :
    Gives ((pair fst snd).decodeOn p) (pair fst snd).encode (t ++ t') rest (bad ∨ bad') :=
  Gives.seq Prod.mk (pair fst snd).encode (fun _ _ => rfl) hfst hsnd

theorem gives_text (s : Shape) (htext : s.Text t) (rest : List UInt8) :
    Gives (s.decodeOn p) s.encode t rest False := by
  induction s generalizing t rest with
  | pod bytes =>
      obtain ⟨v, rfl⟩ := exists_encodePod htext
      exact .inr ⟨v, decodePod_encodePod v rest, rfl, False.elim⟩
  | bool =>
      obtain ⟨b, rfl⟩ := exists_encodePod htext
      exact (gives_bool rest).weaken False.elim
  | string =>
      obtain ⟨v, hv, rfl⟩ := htext
      have heq : ((utf8Bytes v).length : Int) = (BitVec.ofNat 32 (utf8Bytes v).length).toInt :=
        (eq_ofNat_iff hv).1 rfl
      exact (gives_string heq.le (.inl heq)).weaken False.elim
  | vec elem ih =>
      obtain ⟨ts, hcount, htexts, rfl⟩ := htext
      have hgives : ∀ u ∈ ts, ∀ rest, Gives (elem.decodeOn p) (fun v => elem.encode v) u rest False :=
        fun u hu => ih (htexts u hu)
      exact gives_vec hcount ((Gives.many hgives rest).weaken False.elim)
  | pair fst snd ihfst ihsnd =>
      obtain ⟨t₁, t₂, hfst, hsnd, rfl⟩ := htext
      exact (gives_pair (ihfst hfst _) (ihsnd hsnd rest)).weaken False.elim

theorem gives_flagged (s : Shape) (hflagged : s.Flagged t) (rest : List UInt8) :
    Gives (s.decodeOn p) s.encode t rest True := by
  induction s generalizing t rest with
  | pod bytes => exact hflagged.elim
  | string => exact hflagged.elim
  | bool =>
      obtain ⟨byte, hlt, rfl⟩ := hflagged
      obtain ⟨b, hb⟩ := exists_encodePod (n := 1) (t := [byte]) rfl
      rw [hb]
      refine (gives_bool rest).weaken fun _ => ⟨?_, ?_⟩ <;> rintro rfl <;> cases hb <;> exact absurd hlt (by decide)
  | vec elem ih =>
      obtain ⟨ts, hcount, htexts, ⟨u, hu, hflag⟩, rfl⟩ := hflagged
      have hgives : ∀ u ∈ ts, ∀ rest, Gives (elem.decodeOn p) (fun v => elem.encode v) u rest (elem.Flagged u) := by
        intro u hu rest
        by_cases hflag : elem.Flagged u
        · exact (ih hflag rest).weaken fun _ => trivial
        · exact (gives_text elem (htexts u hu) rest).weaken hflag
      exact gives_vec hcount ((Gives.many hgives rest).weaken fun _ => ⟨u, hu, hflag⟩)
  | pair fst snd ihfst ihsnd =>
      obtain ⟨t₁, t₂, hfst, hsnd, hflag, rfl⟩ := hflagged
      rcases hflag with hflag | hflag
      · exact (gives_pair (ihfst hflag _) (gives_text snd hsnd rest)).weaken .inl
      · exact (gives_pair (gives_text fst hfst _) (ihsnd hflag rest)).weaken .inr

theorem gives_cut (s : Shape) (hcut : s.Cut t) : Gives (s.decodeOn p) s.encode t [] True := by
  induction s generalizing t with
  | pod bytes => exact hcut.elim
  | bool => exact hcut.elim
  | string =>
      obtain ⟨len, v, hlt, rfl⟩ := hcut
      exact (gives_string hlt.le (.inr rfl)).weaken fun _ => hlt.ne
  | vec elem ih =>
      obtain ⟨ts, u, hcount, htexts, hcut, rfl⟩ := hcut
      exact gives_vec hcount (Gives.many_last (fun u hu => gives_text elem (htexts u hu)) (ih hcut))
  | pair fst snd ihfst ihsnd =>
      obtain ⟨t₁, t₂, ⟨hfst, hcut⟩ | ⟨hcut, hsnd, rfl⟩, rfl⟩ := hcut
      · exact (gives_pair (gives_text fst hfst _) (ihsnd hcut)).weaken .inr
      · exact (gives_pair (ihfst hcut) (gives_text snd hsnd [])).weaken .inl

theorem panic_many (htexts : ∀ u ∈ ts, elem.Text u)
    (hpanic : elem.decodeOn p ⟨rest, []⟩ = .panic) (hlt : ts.length < n) :
    decodeMany (elem.decodeOn p) n ⟨ts.flatten ++ rest, []⟩ = .panic := by
  induction ts generalizing n with
  | nil =>
      obtain ⟨n, rfl⟩ := Nat.exists_eq_add_of_lt hlt
      exact Outcome.bind_panic hpanic _
  | cons u ts ih =>
      rw [List.forall_mem_cons] at htexts
      obtain ⟨n, rfl⟩ : ∃ m, n = m + 1 := ⟨n - 1, by omega⟩
      rw [List.flatten_cons, List.append_assoc]
      rcases gives_text elem htexts.1 (ts.flatten ++ rest) with hfirst | ⟨v, hv, -⟩
      · exact Outcome.bind_panic hfirst _
      · refine Outcome.bind_eq_panic.2 (.inr ⟨_, hv, Outcome.bind_panic ?_ _⟩)
        exact ih htexts.2 (Nat.lt_of_succ_lt_succ hlt)

theorem panic_of_overflows (s : Shape) {data : List UInt8} (hover : s.Overflows p data) :
    s.decodeOn p ⟨data, []⟩ = .panic := by
  induction s generalizing data with
  | pod bytes => exact hover.elim
  | bool => exact hover.elim
  | string =>
      obtain ⟨len, rest, hfits, rfl⟩ := hover
      exact Outcome.bind_panic (announced_panic hfits rest) _
  | vec elem ih =>
      obtain ⟨len, ts, rest, hkind, rfl⟩ := hover
      by_cases hfits : p.Allocates (p.sizeOf elem) len
      · obtain ⟨htexts, hlt, hover⟩ := hkind.resolve_left (not_not.2 hfits)
        refine Outcome.bind_eq_panic.2 (.inr ⟨_, announced_encodePod hfits _, ?_⟩)
        exact panic_many htexts (ih hover) (by omega)
      · exact Outcome.bind_panic (announced_panic hfits _) _
  | pair fst snd ihfst ihsnd =>
      rcases hover with hover | ⟨t, rest, htext, hover, rfl⟩
      · exact Outcome.bind_panic (ihfst hover) _
      · rcases gives_text fst htext rest with hfirst | ⟨x, hx, -⟩
        · exact Outcome.bind_panic hfirst _
        · exact Outcome.bind_eq_panic.2 (.inr ⟨_, hx, Outcome.bind_panic (ihsnd hover) _⟩)

theorem allocates_of_pointerBits (hbits : p.pointerBits = 64) (hpos : 0 < size)
    (hsize : size ≤ 2 ^ 32) (len : BitVec 32) : p.Allocates size len ↔ 0 ≤ len.toInt := by
  rw [p.allocates_iff hpos, hbits]
  have hlt : len.toInt.toNat < 2 ^ 31 := by
    have hint : len.toInt < 2 ^ 31 := BitVec.toInt_lt
    omega
  refine ⟨fun h => h.1, fun h => ⟨h, ?_⟩⟩
  calc
    len.toInt.toNat * size < 2 ^ 31 * 2 ^ 32 := Nat.mul_lt_mul_of_lt_of_le hlt hsize (by decide)
    _ = 2 ^ (64 - 1) := rfl

theorem announced_bind_eq (hbits : p.pointerBits = 64) (hpos : 0 < size)
    (hsize : size ≤ 2 ^ 32) (body : BitVec 32 → Decoder α) (body' : Nat → Decoder α)
    (hbody : ∀ len : BitVec 32, 0 ≤ len.toInt → body len = body' len.toInt.toNat) (r : Reader.State) :
    ((do
      let (len, r) ← announced p size r
      body len r) : Outcome Reader.Error (α × Reader.State)) =
    (do
      let (len, r) ← decodeLen r
      body' len r) := by
  unfold announced decodeLen
  cases hpod : decodePod 4 r with
  | err e => rfl
  | panic => rfl
  | ok a =>
      obtain ⟨len, r'⟩ := a
      simp only [ok_bind]
      rcases Int.lt_or_le len.toInt 0 with hneg | hnonneg
      · have hnot : ¬ p.Allocates size len := fun h =>
          absurd ((allocates_of_pointerBits hbits hpos hsize len).1 h) (by omega)
        rw [if_pos hneg, Outcome.assert, if_neg hnot]
        rfl
      · have hfits := (allocates_of_pointerBits hbits hpos hsize len).2 hnonneg
        rw [if_neg (by omega), assert_of hfits]
        simp only [ok_bind, pure_eq, hbody len hnonneg]

/-- What the vectors of a value have as elements. -/
def elems : Shape → List Shape
  | pod _ | bool | string => []
  | vec elem => elem :: elem.elems
  | pair fst snd => fst.elems ++ snd.elems

theorem decodeOn_eq_decode (hbits : p.pointerBits = 64) (s : Shape)
    (hsizes : ∀ elem ∈ s.elems, p.sizeOf elem ≤ 2 ^ 32) : s.decodeOn p = s.decode := by
  induction s with
  | pod bytes => rfl
  | bool => rfl
  | string =>
      funext r
      refine announced_bind_eq hbits Nat.one_pos (by decide) readText (fun len r => do
        let (got, r) ← ofRead (Reader.readTake r len)
        let v ← Outcome.ofOption (ofUtf8? got) .other
        return (v, r)) (fun len hnonneg => ?_) r
      have hlt : len.toInt < 2 ^ 31 := BitVec.toInt_lt
      funext r
      rw [readText, Int.emod_eq_of_lt hnonneg (by omega)]
  | vec elem ih =>
      funext r
      rw [elems, List.forall_mem_cons] at hsizes
      refine announced_bind_eq hbits (p.sizeOf_pos elem) hsizes.1
        (fun len => decodeMany (elem.decodeOn p) len.toInt.toNat) (decodeMany elem.decode) (fun len _ => ?_) r
      rw [ih hsizes.2]
  | pair fst snd ihfst ihsnd =>
      funext r
      rw [elems, List.forall_mem_append] at hsizes
      rw [decodeOn, decode, ihfst hsizes.1, ihsnd hsizes.2]

/-- **Messages on 64 bits.** There the lengths of what was sent are no obstacle. -/
theorem returns_decodeOn (hbits : p.pointerBits = 64) (s : Shape)
    (hsizes : ∀ elem ∈ s.elems, p.sizeOf elem ≤ 2 ^ 32) (v : s.Value) (hv : s.Fits v) :
    Returns (s.decodeOn p) (s.encode v) v := by
  rw [decodeOn_eq_decode hbits s hsizes]
  exact returns_decode s v hv

/-- A shell for the user 2000, with its groups. -/
def sampleRequest : suRequest.Value :=
  (2000#32, 312#32, true, false, false, "/system/bin/sh", "id", "", [1004#32, 1015#32, 3003#32])

theorem returns_decodeOn_lp64 :
    Returns (suRequest.decodeOn Platform.lp64) (suRequest.encode sampleRequest) sampleRequest := by
  refine returns_decodeOn rfl suRequest (by decide) sampleRequest ?_
  have hshell : string.Fits "/system/bin/sh" := show _ < _ by decide
  have hcommand : string.Fits "id" := show _ < _ by decide
  have hcontext : string.Fits "" := show _ < _ by decide
  exact ⟨trivial, trivial, trivial, trivial, trivial, hshell, hcommand, hcontext, by decide, fun _ _ => trivial⟩

/-- Decoding does not panic, and the encoding of a value that it returns is what it has consumed. -/
def Exact (p : Platform) (s : Shape) (r : Reader.State) : Prop :=
  s.decodeOn p r ≠ .panic ∧ ∀ v r', s.decodeOn p r = .ok (v, r') → r.data = s.encode v ++ r'.data

theorem not_exact_of_gives
    (hgives : Gives (s.decodeOn p) s.encode t rest True) : ¬ s.Exact p ⟨t ++ rest, []⟩ := by
  rintro ⟨hpanic, hexact⟩
  rcases hgives with h | ⟨v, hv, -, hne⟩
  · exact hpanic h
  · exact hne trivial (List.append_cancel_right (hexact v _ hv))

/-- **Announced lengths.** Decoding is exact or an error, however the stream is served, exactly if the
stream does not come to a length for which it cannot allocate, does not end inside the last string of a
message, and no message in it has a flag that is neither zero nor one. -/
theorem exact_iff (p : Platform) (s : Shape) (data : List UInt8) :
    (∀ events, s.Exact p ⟨data, events⟩) ↔
      ¬ s.Overflows p data ∧ ¬ s.Cut data ∧ ∀ t rest, data = t ++ rest → ¬ s.Flagged t := by
  constructor
  · intro hexact
    refine ⟨fun hover => (hexact []).1 (panic_of_overflows s hover), fun hcut => ?_, ?_⟩
    · have hnot := not_exact_of_gives (gives_cut (p := p) s hcut)
      rw [List.append_nil] at hnot
      exact hnot (hexact [])
    · rintro t rest rfl hflagged
      exact not_exact_of_gives (gives_flagged s hflagged rest) (hexact [])
  · rintro ⟨hover, hcut, hflagged⟩ events
    refine ⟨fun hpanic => hover (overflows_of_panic s hpanic), fun v r' hv => ?_⟩
    obtain ⟨t, hdata, ⟨-, hne⟩ | ⟨hcut', hend⟩⟩ := took_decodeOn s hv
    · by_contra hnot
      refine hflagged t r'.data hdata (hne fun heq => hnot ?_)
      rw [hdata, heq]
    · rw [hend, List.append_nil] at hdata
      dsimp only at hdata
      exact absurd (hdata ▸ hcut') hcut

/-- A negative length, a length that is too large for pointers of 32 bits, and a command that ends before
the announced length. -/
theorem not_exact_streams :
    string.decodeOn Platform.arm ⟨[0xff, 0xff, 0xff, 0xff], []⟩ = .panic ∧
    (vec u32).decodeOn Platform.arm ⟨[0, 0, 0, 0x20], []⟩ = .panic ∧
    string.decodeOn Platform.arm ⟨[3, 0, 0, 0, 0x61], []⟩ = .ok ("a", ⟨[], []⟩) ∧
    ¬ string.Exact Platform.arm ⟨[3, 0, 0, 0, 0x61], []⟩ := by
  have hcut : string.decodeOn Platform.arm ⟨[3, 0, 0, 0, 0x61], []⟩ = .ok ("a", ⟨[], []⟩) := by
    have hfits : Platform.arm.Allocates 1 3#32 := by decide
    have hread : Reader.readTake ⟨[0x61], []⟩ ((3#32).toInt % 2 ^ 64).toNat = (.ok [0x61], ⟨[], []⟩) :=
      readTake_eof (by decide)
    rw [decodeOn, show [3, 0, 0, 0, 0x61] = encodePod (n := 4) 3#32 ++ [0x61] by decide,
      announced_encodePod hfits, ok_bind]
    dsimp only
    rw [readText, hread]
    rfl
  refine ⟨?_, ?_, hcut, fun hexact => ?_⟩
  · have hnegative : ¬ Platform.arm.Allocates 1 (BitVec.ofInt 32 (-1)) := by decide
    exact panic_of_overflows string ⟨_, [], hnegative, by decide⟩
  · have hlarge : ¬ Platform.arm.Allocates (Platform.arm.sizeOf u32) (BitVec.ofNat 32 (2 ^ 29)) := by decide
    exact panic_of_overflows (vec u32) ⟨_, [], [], .inl hlarge, by decide⟩
  · have hdata := hexact.2 _ _ hcut
    revert hdata
    decide

end Shape

end MagiskNative.Daemon
