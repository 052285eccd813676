import MagiskNative.Boot.Relocate

/-!
# The sites of relocation

`newHead` patches words that it finds by unrelated heuristics, the later ones in a buffer that the earlier
ones have changed. Here each patch leaves its offset behind.
-/

namespace MagiskNative.Boot.ZImage

open Bytes Layout

structure Traced where
  stub : List UInt8
  sites : List Nat

section

variable (z : ZImage) (payloadSz : Nat) (t : Traced)

def Traced.write (off val : Nat) : Traced := ⟨writeU32 t.stub off val, t.sites ++ [off]⟩

def Traced.shift (off : Nat) : Traced := ⟨z.shift payloadSz t.stub off, t.sites ++ [off]⟩

def tracedLc0Entry (entryOff : Nat) : Traced :=
  let val := readU32 t.stub entryOff
  if val = wrappingSub z.origPiggyEnd 4 then
    t.write entryOff (wrappingSub (z.newPiggyEnd payloadSz) 4)
  else if wrappingAdd z.head.length z.start ≤ val then t.shift z payloadSz entryOff
  else t

/-- The literal that the word at `prevOff` loads into the register `rm`, if it is an
`ldr rt, [pc, #imm]`. -/
def literalAddr? (stub : List UInt8) (rm prevOff : Nat) : Option Nat :=
  let prevInsn := readU32 stub prevOff
  if prevInsn &&& 0x0f7f0000 = 0x051f0000 ∧ prevInsn / 2 ^ 12 % 16 = rm then
    let imm := prevInsn % 2 ^ 12
    let litAddr :=
      if prevInsn / 2 ^ 23 % 2 = 1 then some (prevOff + 8 + imm)
      else if imm ≤ prevOff + 8 then some (prevOff + 8 - imm)
      else none
    litAddr.filter (· + 4 ≤ stub.length)
  else none

/-- The literal at `litAddr`, added to the program counter at `off`, gives an address near the GOT. -/
def InGot (gotStart gotEnd : Nat) (stub : List UInt8) (off litAddr : Nat) : Prop :=
  let target := wrappingAdd (wrappingAdd (u32 off + 8) (readU32 stub litAddr)) z.start
  gotStart - 0x20 ≤ target ∧ target ≤ wrappingAdd gotEnd 0x20

instance (gotStart gotEnd : Nat) (stub : List UInt8) (off litAddr : Nat) :
    Decidable (z.InGot gotStart gotEnd stub off litAddr) := inferInstanceAs (Decidable (_ ∧ _))

def tracedLiteral (gotStart gotEnd off rm : Nat) (t : Traced) (prevOff : Nat) : Traced :=
  match literalAddr? t.stub rm prevOff with
  | some litAddr =>
      if z.InGot gotStart gotEnd t.stub off litAddr then t.shift z payloadSz litAddr else t
  | none => t

def IsAdd (insn : Nat) : Prop := insn &&& 0x0fe00000 = 0x00800000 ∧ insn / 2 ^ 16 % 16 = 0xf

instance (insn : Nat) : Decidable (IsAdd insn) := inferInstanceAs (Decidable (_ ∧ _))

def lookback (off : Nat) : List Nat := (words (off - 128) off).filter (· < off)

def tracedInsn (gotStart gotEnd : Nat) (t : Traced) (off : Nat) : Traced :=
  let insn := readU32 t.stub off
  if IsAdd insn then
    (lookback off).foldl (z.tracedLiteral payloadSz gotStart gotEnd off (insn % 16)) t
  else t

def lc0Entries : List Nat := (List.range' 1 7).map fun i => z.offLc0 + i * 4

def tracedEnds : Traced :=
  let t := (⟨z.head, []⟩ : Traced).shift z payloadSz 0x2c
  if z.offInflatedSize ≠ 0 then t.shift z payloadSz z.offInflatedSize else t

def tracedLc0 : Traced :=
  if z.offLc0 ≠ 0 then z.lc0Entries.foldl (z.tracedLc0Entry payloadSz) t else t

def tracedLc1 : Traced :=
  if z.offLc1 ≠ 0 then
    let val0 := readU32 t.stub z.offLc1
    let val1 := readU32 t.stub (z.offLc1 + 4)
    (t.write z.offLc1 (wrappingAdd val0 (z.deltaGot payloadSz))).write (z.offLc1 + 4)
      (wrappingAdd val1 (z.deltaGot payloadSz))
  else t

def tracedTable : Traced :=
  if z.offTable ≠ 0 then t.shift z payloadSz z.offTable else t

def tracedTables : Traced :=
  z.tracedTable payloadSz (z.tracedLc1 payloadSz (z.tracedLc0 payloadSz (z.tracedEnds payloadSz)))

def got? : Option (Nat × Nat) :=
  (if z.offLc0 ≠ 0 then gotBounds z.head z.start z.offLc0 else none).filter
    fun got => got.1 ≠ 0 ∧ got.2 ≠ 0

def tracedLiterals : Traced :=
  match z.got? with
  | some (gotStart, gotEnd) =>
      (words 0 (t.stub.length - 4)).foldl (z.tracedInsn payloadSz gotStart gotEnd) t
  | none => t

def tracedHead : Traced :=
  if z.head = [] ∨ payloadSz = 0 ∨ payloadSz = z.piggy.length then ⟨z.head, []⟩
  else z.tracedLiterals payloadSz (z.tracedTables payloadSz)

end

section

variable (z : ZImage) (payloadSz : Nat)

theorem stub_foldl {f : Traced → Nat → Traced} {g : List UInt8 → Nat → List UInt8}
    (hstep : ∀ t off, (f t off).stub = g t.stub off) (offs : List Nat) (t : Traced) :
    (offs.foldl f t).stub = offs.foldl g t.stub := by
  induction offs generalizing t with
  | nil => rfl
  | cons off offs ih => rw [List.foldl_cons, List.foldl_cons, ih, hstep]

theorem stub_tracedLc0Entry (t : Traced) (off : Nat) :
    (z.tracedLc0Entry payloadSz t off).stub = z.patchLc0Entry payloadSz t.stub off := by
  simp only [tracedLc0Entry, patchLc0Entry]
  split
  · rfl
  · split <;> rfl

theorem stub_tracedLiteral (gotStart gotEnd off rm : Nat) (t : Traced) (prevOff : Nat) :
    (z.tracedLiteral payloadSz gotStart gotEnd off rm t prevOff).stub
      = z.patchLiteral payloadSz gotStart gotEnd off rm t.stub prevOff := by
  simp only [tracedLiteral, literalAddr?, patchLiteral]
  by_cases hload : readU32 t.stub prevOff &&& 0x0f7f0000 = 0x051f0000 ∧
      readU32 t.stub prevOff / 2 ^ 12 % 16 = rm
  · rw [if_pos hload, if_pos hload]
    generalize (if readU32 t.stub prevOff / 2 ^ 23 % 2 = 1 then _ else _ : Option Nat) = litAddr
    cases litAddr with
    | none => rfl
    | some litAddr =>
        by_cases hin : litAddr + 4 ≤ t.stub.length
        · simp only [Option.filter_some, decide_eq_true hin, if_true, if_pos hin]
          by_cases hgot : z.InGot gotStart gotEnd t.stub off litAddr
          · rw [if_pos hgot]
            exact (if_pos hgot).symm
          · rw [if_neg hgot]
            exact (if_neg hgot).symm
        · simp only [Option.filter_some, decide_eq_false hin, Bool.false_eq_true, if_false, if_neg hin]
  · rw [if_neg hload, if_neg hload]

theorem stub_tracedInsn (gotStart gotEnd : Nat) (t : Traced) (off : Nat) :
    (z.tracedInsn payloadSz gotStart gotEnd t off).stub
      = z.patchInsn payloadSz gotStart gotEnd t.stub off := by
  rw [tracedInsn, patchInsn]
  by_cases hadd : IsAdd (readU32 t.stub off)
  · rw [if_pos hadd]
    exact (stub_foldl (z.stub_tracedLiteral payloadSz gotStart gotEnd off _) _ t).trans (if_pos hadd).symm
  · rw [if_neg hadd]
    exact (if_neg hadd).symm

theorem stub_tracedTables :
    (z.tracedTables payloadSz).stub = z.patchedTables payloadSz := by
  simp only [patchedTables, tablePatches, applyPatches_append, applyPatches_ite,
    ← foldl_patchLc0Entry, ← writeU32_lc1, tracedTables, tracedTable, tracedLc1, tracedLc0, tracedEnds,
    apply_ite Traced.stub, stub_foldl (z.stub_tracedLc0Entry payloadSz), Traced.shift, Traced.write]
  rfl

theorem stub_tracedLiterals (t : Traced) :
    (z.tracedLiterals payloadSz t).stub = z.patchLiterals payloadSz t.stub := by
  rw [tracedLiterals, got?, patchLiterals]
  cases (if z.offLc0 ≠ 0 then gotBounds z.head z.start z.offLc0 else none) with
  | none => rfl
  | some got =>
      obtain ⟨gotStart, gotEnd⟩ := got
      by_cases hgot : gotStart ≠ 0 ∧ gotEnd ≠ 0
      · simp only [Option.filter_some, decide_eq_true hgot, if_true, if_pos hgot]
        exact stub_foldl (z.stub_tracedInsn payloadSz gotStart gotEnd) _ t
      · simp only [Option.filter_some, decide_eq_false hgot, Bool.false_eq_true, if_false, if_neg hgot]

theorem stub_tracedHead : (z.tracedHead payloadSz).stub = z.newHead payloadSz := by
  by_cases htrivial : z.head = [] ∨ payloadSz = 0 ∨ payloadSz = z.piggy.length
  · rw [tracedHead, newHead, if_pos htrivial, if_pos htrivial]
  · rw [tracedHead, if_neg htrivial]
    simp only [not_or] at htrivial
    rw [newHead_eq z payloadSz htrivial.2.1 htrivial.2.2 htrivial.1, stub_tracedLiterals,
      stub_tracedTables]

end

/-- A later state: some more words have been patched, and what is apart from them is as it was. A write over
the end of the buffer does nothing. -/
def Traced.Extends (t t' : Traced) : Prop :=
  ∃ sites, t'.sites = t.sites ++ sites ∧ t'.stub.length = t.stub.length ∧
    (∀ w, (∀ site ∈ sites, site + 4 ≤ t.stub.length → WordsApart site w) →
      readU32 t'.stub w = readU32 t.stub w) ∧
    ∀ b, (∀ site ∈ sites, site + 4 ≤ t.stub.length → site + 4 ≤ b) → t'.stub.drop b = t.stub.drop b

theorem Traced.Extends.refl (t : Traced) : t.Extends t :=
  ⟨[], by simp, rfl, fun _ _ => rfl, fun _ _ => rfl⟩

theorem Traced.Extends.trans {t t' t'' : Traced} (h : t.Extends t') (h' : t'.Extends t'') :
    t.Extends t'' := by
  obtain ⟨sites, hsites, hlength, hwords, hdrop⟩ := h
  obtain ⟨sites', hsites', hlength', hwords', hdrop'⟩ := h'
  rw [hlength] at hwords' hdrop'
  refine ⟨sites ++ sites', by rw [hsites', hsites, List.append_assoc], hlength'.trans hlength,
    fun w hw => ?_, fun b hb => ?_⟩
  · rw [hwords' w fun site hsite => hw site (List.mem_append_right _ hsite),
      hwords w fun site hsite => hw site (List.mem_append_left _ hsite)]
  · rw [hdrop' b fun site hsite => hb site (List.mem_append_right _ hsite),
      hdrop b fun site hsite => hb site (List.mem_append_left _ hsite)]

theorem Traced.extends_write (t : Traced) (off val : Nat) : t.Extends (t.write off val) := by
  refine ⟨[off], rfl, length_writeU32 _ _ _, fun w hw => ?_, fun b hb => ?_⟩
  · by_cases hroom : off + 4 ≤ t.stub.length
    · exact readU32_writeU32_of_apart (hw off (by simp) hroom) val
    · rw [Traced.write, writeU32, if_neg hroom]
  · rw [Traced.write, writeU32]
    split
    · rename_i hroom
      exact drop_patch (by rw [length_leBytes]; exact hb off (by simp) hroom)
    · rfl

theorem Traced.Extends.readU32_eq {t t' : Traced} (h : t.Extends t') {sites : List Nat}
    (hsites : t'.sites = t.sites ++ sites) {w : Nat}
    (hclear : ∀ site ∈ sites, site + 4 ≤ t.stub.length → WordsApart site w) :
    readU32 t'.stub w = readU32 t.stub w := by
  obtain ⟨sites', hsites', -, hwords, -⟩ := h
  rw [hsites, List.append_right_inj] at hsites'
  subst hsites'
  exact hwords w hclear

theorem Traced.Extends.length_stub {t t' : Traced} (h : t.Extends t') : t'.stub.length = t.stub.length := by
  obtain ⟨-, -, hlength, -⟩ := h
  exact hlength

theorem Traced.extends_shift (z : ZImage) (payloadSz : Nat) (t : Traced) (off : Nat) :
    t.Extends (t.shift z payloadSz off) := t.extends_write off _

theorem Traced.extends_ite {p : Prop} [Decidable p] {t t' : Traced} (h : p → t.Extends t') :
    t.Extends (if p then t' else t) := by
  split
  · rename_i hp
    exact h hp
  · exact .refl t

theorem Traced.extends_foldl {f : Traced → Nat → Traced} (hf : ∀ (t : Traced) off, t.Extends (f t off))
    (offs : List Nat) (t : Traced) : t.Extends (offs.foldl f t) := by
  induction offs generalizing t with
  | nil => exact .refl t
  | cons off offs ih => exact (hf t off).trans (ih _)

theorem sites_foldl {f : Traced → Nat → Traced} {p : Nat → Prop} [DecidablePred p]
    (hextends : ∀ (t : Traced) off, t.Extends (f t off))
    (hsites : ∀ (t : Traced) off, (f t off).sites = t.sites ++ [off].filter fun off => p (readU32 t.stub off))
    {offs : List Nat} (hoffs : offs.Pairwise WordsApart) (t : Traced) :
    (offs.foldl f t).sites = t.sites ++ offs.filter fun off => p (readU32 t.stub off) := by
  induction offs generalizing t with
  | nil => simp
  | cons off offs ih =>
      rw [List.pairwise_cons] at hoffs
      have hkept : ∀ i ∈ offs, readU32 (f t off).stub i = readU32 t.stub i := by
        intro i hi
        refine (hextends t off).readU32_eq (hsites t off) fun site hsite _ => ?_
        rw [List.mem_singleton.1 (List.mem_of_mem_filter hsite)]
        exact hoffs.1 i hi
      have hfilter : offs.filter (fun i => p (readU32 (f t off).stub i))
          = offs.filter fun i => p (readU32 t.stub i) := by
        apply List.filter_congr
        intro i hi
        rw [hkept i hi]
      rw [List.foldl_cons, ih hoffs.2, hsites, hfilter, List.append_assoc, ← List.filter_append]
      rfl

section

variable (z : ZImage) (payloadSz : Nat) (t : Traced)

theorem extends_tracedLc0Entry (off : Nat) : t.Extends (z.tracedLc0Entry payloadSz t off) := by
  simp only [tracedLc0Entry]
  split
  · exact t.extends_write off _
  · exact Traced.extends_ite fun _ => t.extends_shift z payloadSz off

theorem extends_tracedLiteral (gotStart gotEnd off rm : Nat) (t : Traced) (prevOff : Nat) :
    t.Extends (z.tracedLiteral payloadSz gotStart gotEnd off rm t prevOff) := by
  rw [tracedLiteral]
  split
  · exact Traced.extends_ite fun _ => t.extends_shift z payloadSz _
  · exact .refl t

theorem extends_tracedInsn (gotStart gotEnd : Nat) (t : Traced) (off : Nat) :
    t.Extends (z.tracedInsn payloadSz gotStart gotEnd t off) :=
  Traced.extends_ite fun _ =>
    Traced.extends_foldl (z.extends_tracedLiteral payloadSz gotStart gotEnd off _) _ t

theorem extends_tracedLiterals : t.Extends (z.tracedLiterals payloadSz t) := by
  rw [tracedLiterals]
  split
  · exact Traced.extends_foldl (z.extends_tracedInsn payloadSz _ _) _ t
  · exact .refl t

theorem extends_tracedLc0 : t.Extends (z.tracedLc0 payloadSz t) :=
  Traced.extends_ite fun _ => Traced.extends_foldl (z.extends_tracedLc0Entry payloadSz) _ t

theorem extends_tracedLc1 : t.Extends (z.tracedLc1 payloadSz t) :=
  Traced.extends_ite fun _ => (t.extends_write _ _).trans (Traced.extends_write _ _ _)

theorem extends_tracedTable : t.Extends (z.tracedTable payloadSz t) :=
  Traced.extends_ite fun _ => t.extends_shift z payloadSz z.offTable

/-- Whether step 4 patches an entry with this value. -/
def IsLc0Target (val : Nat) : Prop :=
  val = wrappingSub z.origPiggyEnd 4 ∨ wrappingAdd z.head.length z.start ≤ val

instance (val : Nat) : Decidable (z.IsLc0Target val) := inferInstanceAs (Decidable (_ ∨ _))

def endSites : List Nat := [0x2c] ++ if z.offInflatedSize ≠ 0 then [z.offInflatedSize] else []

def lc0Sites : List Nat :=
  if z.offLc0 ≠ 0 then
    z.lc0Entries.filter fun off => z.IsLc0Target (readU32 (z.tracedEnds payloadSz).stub off)
  else []

def lc1Sites : List Nat := if z.offLc1 ≠ 0 then [z.offLc1, z.offLc1 + 4] else []

def tagSites : List Nat := if z.offTable ≠ 0 then [z.offTable] else []

/-- The words that steps 2 to 6 patch. -/
def tableSites : List Nat := z.endSites ++ z.lc0Sites payloadSz ++ z.lc1Sites ++ z.tagSites

theorem sites_tracedLc0Entry (off : Nat) : (z.tracedLc0Entry payloadSz t off).sites
      = t.sites ++ [off].filter fun off => z.IsLc0Target (readU32 t.stub off) := by
  simp only [tracedLc0Entry, IsLc0Target]
  split
  · rename_i hend
    simp [hend, Traced.write]
  · rename_i hend
    split
    · rename_i hbehind
      simp [hbehind, Traced.shift]
    · rename_i hbehind
      simp [hend, hbehind]

theorem pairwise_lc0Entries : z.lc0Entries.Pairwise WordsApart := by
  rw [lc0Entries, List.pairwise_map]
  refine List.Pairwise.imp (fun hlt => ?_) (List.pairwise_lt_range' (s := 1) (n := 7))
  rw [WordsApart]
  omega

theorem sites_tracedEnds : (z.tracedEnds payloadSz).sites = z.endSites := by
  rw [tracedEnds, endSites]
  split <;> rfl

theorem sites_tracedLc0 : (z.tracedLc0 payloadSz (z.tracedEnds payloadSz)).sites
    = z.endSites ++ z.lc0Sites payloadSz := by
  rw [tracedLc0, lc0Sites, ← z.sites_tracedEnds payloadSz]
  split
  · exact sites_foldl (z.extends_tracedLc0Entry payloadSz) (z.sites_tracedLc0Entry payloadSz)
      z.pairwise_lc0Entries _
  · exact (List.append_nil _).symm

theorem sites_tracedLc1 : (z.tracedLc1 payloadSz t).sites = t.sites ++ z.lc1Sites := by
  rw [tracedLc1, lc1Sites]
  split
  · exact List.append_assoc _ _ _
  · exact (List.append_nil _).symm

theorem sites_tracedTable : (z.tracedTable payloadSz t).sites = t.sites ++ z.tagSites := by
  rw [tracedTable, tagSites]
  split
  · rfl
  · exact (List.append_nil _).symm

theorem sites_tracedTables : (z.tracedTables payloadSz).sites = z.tableSites payloadSz := by
  rw [tracedTables, sites_tracedTable, sites_tracedLc1, sites_tracedLc0, tableSites]

end

def IsLoad (insn : Nat) : Prop := insn &&& 0x0f7f0000 = 0x051f0000

def pairAt? (stub : List UInt8) (off rm prevOff : Nat) : Option (Nat × Nat) :=
  (literalAddr? stub rm prevOff).map (off, ·)

/-- The pairs of an instruction `add rd, pc, rm` and a literal that a load before it may have put into
`rm`. -/
def candidatesAt (stub : List UInt8) (off : Nat) : List (Nat × Nat) :=
  if IsAdd (readU32 stub off) then
    (lookback off).filterMap (pairAt? stub off (readU32 stub off % 16))
  else []

def candidates (stub : List UInt8) : List (Nat × Nat) :=
  (words 0 (stub.length - 4)).flatMap (candidatesAt stub)

/-- Where the buffers differ, neither has an instruction of such a pair. -/
def SameCode (stub stub' : List UInt8) : Prop :=
  stub'.length = stub.length ∧ ∀ w, 4 ∣ w →
    readU32 stub' w = readU32 stub w ∨
      (¬ IsAdd (readU32 stub w) ∧ ¬ IsLoad (readU32 stub w)) ∧
        ¬ IsAdd (readU32 stub' w) ∧ ¬ IsLoad (readU32 stub' w)

theorem SameCode.literalAddr?_eq {stub stub' : List UInt8} (hsame : SameCode stub stub') {w : Nat}
    (hw : 4 ∣ w) (rm : Nat) : literalAddr? stub' rm w = literalAddr? stub rm w := by
  rcases hsame.2 w hw with heq | ⟨hwas, hnow⟩
  · simp only [literalAddr?, heq, hsame.1]
  · simp only [literalAddr?]
    rw [if_neg fun h => hnow.2 h.1, if_neg fun h => hwas.2 h.1]

section Literals

variable (z : ZImage) (payloadSz gotStart gotEnd : Nat)

def tracedPair (t : Traced) (c : Nat × Nat) : Traced :=
  if z.InGot gotStart gotEnd t.stub c.1 c.2 then t.shift z payloadSz c.2 else t

/-- The literals that are moved when the pairs are gone through in their order. -/
def moves : List UInt8 → List (Nat × Nat) → List Nat
  | _, [] => []
  | stub, c :: cands =>
      if z.InGot gotStart gotEnd stub c.1 c.2 then c.2 :: moves (z.shift payloadSz stub c.2) cands
      else moves stub cands

theorem foldl_tracedPair (cands : List (Nat × Nat)) (t : Traced) :
    cands.foldl (z.tracedPair payloadSz gotStart gotEnd) t
      = ⟨(z.moves payloadSz gotStart gotEnd t.stub cands).foldl (z.shift payloadSz) t.stub,
          t.sites ++ z.moves payloadSz gotStart gotEnd t.stub cands⟩ := by
  induction cands generalizing t with
  | nil => simp [moves]
  | cons c cands ih =>
      rw [List.foldl_cons, ih, tracedPair, moves]
      split
      · simp only [Traced.shift, List.foldl_cons, List.append_assoc, List.singleton_append]
      · rfl

/-- Whichever of the pairs have been dealt with, the instructions are still those of `stub`. -/
def Calm (stub : List UInt8) (cands : List (Nat × Nat)) (t : Traced) : Prop :=
  ∀ done, done <+: cands → SameCode stub (done.foldl (z.tracedPair payloadSz gotStart gotEnd) t).stub

variable {z payloadSz gotStart gotEnd} {stub : List UInt8} {t : Traced}

theorem Calm.append {cands cands' : List (Nat × Nat)}
    (hcalm : z.Calm payloadSz gotStart gotEnd stub (cands ++ cands') t) :
    z.Calm payloadSz gotStart gotEnd stub cands t ∧
      z.Calm payloadSz gotStart gotEnd stub cands' (cands.foldl (z.tracedPair payloadSz gotStart gotEnd) t) := by
  refine ⟨fun done hdone => hcalm done (hdone.trans (List.prefix_append _ _)), fun done hdone => ?_⟩
  rw [← List.foldl_append]
  exact hcalm _ ((List.prefix_append_right_inj cands).2 hdone)

theorem foldl_tracedLiteral {off rm : Nat} (prevs : List Nat) (hprevs : ∀ prevOff ∈ prevs, 4 ∣ prevOff)
    (hcalm : z.Calm payloadSz gotStart gotEnd stub (prevs.filterMap (pairAt? stub off rm)) t) :
    prevs.foldl (z.tracedLiteral payloadSz gotStart gotEnd off rm) t
      = (prevs.filterMap (pairAt? stub off rm)).foldl (z.tracedPair payloadSz gotStart gotEnd) t := by
  induction prevs generalizing t with
  | nil => rfl
  | cons prevOff prevs ih =>
      rw [List.forall_mem_cons] at hprevs
      have hnow : SameCode stub t.stub := hcalm [] List.nil_prefix
      have haddr := hnow.literalAddr?_eq hprevs.1 rm
      rw [List.foldl_cons, tracedLiteral, haddr]
      cases hlit : literalAddr? stub rm prevOff with
      | none =>
          have hnone : pairAt? stub off rm prevOff = none := by
            rw [pairAt?, hlit]
            rfl
          rw [List.filterMap_cons_none hnone] at hcalm ⊢
          exact ih hprevs.2 hcalm
      | some a =>
          have hsome : pairAt? stub off rm prevOff = some (off, a) := by
            rw [pairAt?, hlit]
            rfl
          rw [List.filterMap_cons_some hsome] at hcalm ⊢
          rw [List.foldl_cons]
          rw [← List.singleton_append] at hcalm
          exact ih hprevs.2 hcalm.append.2

theorem four_dvd_of_mem_words {lo hi : Nat} {off : Nat} (hlo : 4 ∣ lo) (hmem : off ∈ words lo hi) : 4 ∣ off := by
  rw [words, List.mem_map] at hmem
  obtain ⟨i, -, rfl⟩ := hmem
  omega

theorem four_dvd_of_mem_lookback {off prevOff : Nat} (hoff : 4 ∣ off) (hmem : prevOff ∈ lookback off) :
    4 ∣ prevOff :=
  four_dvd_of_mem_words (by omega) (List.mem_of_mem_filter hmem)

theorem tracedInsn_eq {off : Nat} (hoff : 4 ∣ off)
    (hcalm : z.Calm payloadSz gotStart gotEnd stub (candidatesAt stub off) t) :
    z.tracedInsn payloadSz gotStart gotEnd t off
      = (candidatesAt stub off).foldl (z.tracedPair payloadSz gotStart gotEnd) t := by
  have hnow : SameCode stub t.stub := hcalm [] List.nil_prefix
  rw [candidatesAt] at hcalm ⊢
  rw [tracedInsn]
  rcases hnow.2 off hoff with heq | ⟨hwas, hnow⟩
  · rw [heq]
    split
    · rename_i hadd
      rw [if_pos hadd] at hcalm
      exact foldl_tracedLiteral _ (fun _ => four_dvd_of_mem_lookback hoff) hcalm
    · rfl
  · rw [if_neg hnow.1, if_neg hwas.1]
    rfl

theorem foldl_tracedInsn (offs : List Nat) (hoffs : ∀ off ∈ offs, 4 ∣ off)
    (hcalm : z.Calm payloadSz gotStart gotEnd stub (offs.flatMap (candidatesAt stub)) t) :
    offs.foldl (z.tracedInsn payloadSz gotStart gotEnd) t
      = (offs.flatMap (candidatesAt stub)).foldl (z.tracedPair payloadSz gotStart gotEnd) t := by
  induction offs generalizing t with
  | nil => rfl
  | cons off offs ih =>
      rw [List.forall_mem_cons] at hoffs
      rw [List.flatMap_cons] at hcalm ⊢
      rw [List.foldl_cons, List.foldl_append, tracedInsn_eq hoffs.1 hcalm.append.1]
      exact ih hoffs.2 hcalm.append.2

end Literals

section

variable (z : ZImage) (payloadSz : Nat)

/-- The literals that step 7 moves, for the pairs of instructions in the old head. -/
def literalSites : List Nat :=
  match z.got? with
  | some (gotStart, gotEnd) =>
      z.moves payloadSz gotStart gotEnd (z.patchedTables payloadSz) (candidates z.head)
  | none => []

/-- Nothing that is patched is an instruction of a pair, or comes to look like one. -/
def CodeKept : Prop :=
  ∀ gotStart gotEnd, z.got? = some (gotStart, gotEnd) →
    z.Calm payloadSz gotStart gotEnd z.head (candidates z.head) (z.tracedTables payloadSz)

def Unmoved : Prop := z.head = [] ∨ payloadSz = 0 ∨ payloadSz = z.piggy.length

variable {z payloadSz}

theorem tracedHead_eq (hmoved : ¬ z.Unmoved payloadSz) (hkept : z.CodeKept payloadSz) :
    z.tracedHead payloadSz = ⟨(z.literalSites payloadSz).foldl (z.shift payloadSz) (z.patchedTables payloadSz),
      z.tableSites payloadSz ++ z.literalSites payloadSz⟩ := by
  have hstub := z.stub_tracedTables payloadSz
  have hsites := z.sites_tracedTables payloadSz
  rw [Unmoved] at hmoved
  rw [tracedHead, if_neg hmoved, tracedLiterals, literalSites]
  cases hgot : z.got? with
  | none =>
      rw [← hstub, ← hsites]
      exact congrArg (Traced.mk _) (List.append_nil _).symm
  | some got =>
      obtain ⟨gotStart, gotEnd⟩ := got
      have hcalm := hkept gotStart gotEnd hgot
      have hlength : (z.tracedTables payloadSz).stub.length = z.head.length := (hcalm [] List.nil_prefix).1
      have hscan : (words 0 (z.head.length - 4)).foldl (z.tracedInsn payloadSz gotStart gotEnd)
          (z.tracedTables payloadSz)
            = (candidates z.head).foldl (z.tracedPair payloadSz gotStart gotEnd) (z.tracedTables payloadSz) :=
        foldl_tracedInsn _ (fun off => four_dvd_of_mem_words (Nat.dvd_zero 4)) hcalm
      simp only [hlength]
      rw [hscan, foldl_tracedPair, hstub, hsites]

/-- Of the words of the head that are patched no two overlap. A write over the end of the head does
nothing. -/
def RelocatedOnce (z : ZImage) (payloadSz : Nat) : Prop :=
  ((z.tracedHead payloadSz).sites.filter (· + 4 ≤ z.head.length)).Pairwise WordsApart

/-- The words that parsing has recorded and the literals are apart. -/
def SitesApart (z : ZImage) (payloadSz : Nat) : Prop :=
  ((z.tableSites payloadSz ++ z.literalSites payloadSz).filter (· + 4 ≤ z.head.length)).Pairwise WordsApart

end

def twiceZImage : ZImage where
  head := zeros 36 ++ leBytes 4 0x016f2818 ++ leBytes 4 0xffffffc0 ++ leBytes 4 32 ++ zeros 16
  piggy := xzMagic ++ zeros 11
  tail := zeros 16 ++ leBytes 4 16
  fmt := .xz
  offInflatedSize := 0x2c
  offLc0 := 0
  offLc1 := 0
  offTable := 0

end MagiskNative.Boot.ZImage
