import MagiskNative.Boot.UpdatePayload

/-!
# Where a payload is read

Before an operation reads its data, the reader is moved by the distance from the end of the data that
was read last. The distance is a difference of words that is cut to a `usize` and then taken for a
signed offset. As long as no operation is too far away for that, the reader stands at
`currDataOffset` of the blob between operations.
-/

namespace MagiskNative.Boot.UpdatePayload

open Outcome

section Parts

variable (t : Tool) (blockSize : Nat) (st : State) (op : InstallOperation)

def InstallOperation.readLen : Nat := op.dataLen % 2 ^ t.usize

def seekData : Outcome Error Source := do
  let _ ← Outcome.ofOption op.dataLength (.badPayload "data length not found")
  let dataOffset ← .ofOption op.dataOffset (.badPayload "data offset not found")
  Outcome.assert (op.readLen t < 2 ^ (t.usize - 1))
  st.reader.skip ((dataOffset + (2 ^ 64 - st.currDataOffset)) % 2 ^ 64 % 2 ^ t.usize)

def fetch : Outcome Error (List UInt8 × Source) := do
  let reader ← seekData t st op
  reader.readExact (op.readLen t)

def InstallOperation.outOffset : Outcome Error Nat := do
  let ext ← Outcome.ofOption op.dstExtents.head? (.badPayload "dst extents not found")
  let startBlock ← .ofOption ext.startBlock (.badPayload "start block not found")
  return startBlock * blockSize % 2 ^ 64

theorem operate_eq :
    operate t blockSize st op = do
      let (data, reader) ← fetch t st op
      let outOffset ← op.outOffset blockSize
      let outFile ← writeOperation t blockSize st.outFile op data outOffset
      return ⟨reader, (op.sortKey + op.readLen t) % 2 ^ 64, outFile⟩ := by
  cases hlength : op.dataLength with
  | none =>
      rw [operate, fetch, seekData, hlength]
      rfl
  | some dataLength =>
      cases hoffset : op.dataOffset with
      | none =>
          rw [operate, fetch, seekData, hlength, hoffset]
          rfl
      | some dataOffset =>
          simp only [operate, fetch, seekData, InstallOperation.readLen, InstallOperation.dataLen,
            InstallOperation.sortKey, InstallOperation.outOffset, hlength, hoffset, bind_assoc,
            ofOption_some, ok_bind, pure_eq, Option.getD_some]

end Parts

section Positions

variable (t : Tool) (blockSize base : Nat)

def reads : State → List InstallOperation → List (InstallOperation × Nat)
  | _, [] => []
  | st, op :: ops =>
      match seekData t st op with
      | .ok reader =>
          (op, reader.pos) ::
            match operate t blockSize st op with
            | .ok st' => reads st' ops
            | _ => []
      | _ => []

/-- A run that succeeds has read the data of each operation at its offset from the first byte behind
the manifest and its signature. -/
def ReadsAtOffsets (reader : Source) (ops : List InstallOperation) : Prop :=
  ∀ out, extractOperations t blockSize reader ops = .ok out →
    ∀ read ∈ reads t blockSize ⟨reader, 0, []⟩ (sortOperations ops),
      read.2 = reader.pos + read.1.sortKey

/-- A `usize` of 32 bits only takes the reader forward. One of 64 bits takes it anywhere, but a place
at `2 ^ 64` or more is taken for one before the blob. -/
def Near (curr off : Nat) : Prop :=
  if t.usize = 32 then curr ≤ off ∧ off < curr + 2 ^ 32 else base + off < 2 ^ 64

def Reaches : Nat → List InstallOperation → Prop
  | _, [] => True
  | curr, op :: ops => Near t base curr op.sortKey ∧ Reaches (op.sortKey + op.readLen t) ops

instance (curr off : Nat) : Decidable (Near t base curr off) :=
  inferInstanceAs (Decidable (if t.usize = 32 then curr ≤ off ∧ off < curr + 2 ^ 32
    else base + off < 2 ^ 64))

end Positions

/-- The reader stands at `currDataOffset` of the blob at `base`, which need not be inside the file. -/
structure Stands (base : Nat) (st : State) : Prop where
  pos : st.reader.pos = base + st.currDataOffset
  pos_lt : st.reader.pos < 2 ^ 63
  small : st.reader.data.length < 2 ^ 63

theorem Source.pos_of_skip {s s' : Source} {len : Nat} (hskip : s.skip len = .ok s')
    (hpos : s.pos < 2 ^ 63) (hsmall : s.data.length < 2 ^ 63) :
    (s'.pos : Int) = s.pos + (if len < 2 ^ 63 then (len : Int) else len - 2 ^ 64) ∧
      s'.pos < 2 ^ 63 ∧ s'.data = s.data := by
  simp only [skip] at hskip
  generalize hmove : (if len < 2 ^ 63 then (len : Int) else len - 2 ^ 64) = move at hskip ⊢
  split at hskip
  · rename_i hseek
    cases hskip
    refine ⟨Int.toNat_of_nonneg hseek.2.1, ?_, rfl⟩
    simp only
    omega
  · obtain ⟨hread, rfl⟩ := skipRead_eq_ok_iff.1 hskip
    rw [if_pos (by omega)] at hmove
    refine ⟨?_, ?_, rfl⟩
    · simp only
      omega
    · simp only
      omega

section Run

variable {t : Tool} {blockSize base : Nat} {st : State} {op : InstallOperation} {reader : Source}

theorem seekData_eq_ok_iff :
    seekData t st op = .ok reader ↔
      op.dataLength.isSome ∧ op.dataOffset.isSome ∧ op.readLen t < 2 ^ (t.usize - 1) ∧
        st.reader.skip ((op.sortKey + (2 ^ 64 - st.currDataOffset)) % 2 ^ 64 % 2 ^ t.usize) = .ok reader := by
  cases hlength : op.dataLength with
  | none =>
      rw [seekData, hlength]
      exact iff_of_false nofun fun h => Bool.false_ne_true h.1
  | some dataLength =>
      cases hoffset : op.dataOffset with
      | none =>
          rw [seekData, hlength, hoffset]
          exact iff_of_false nofun fun h => Bool.false_ne_true h.2.1
      | some dataOffset =>
          simp only [seekData, InstallOperation.sortKey, hlength, hoffset, ofOption_some,
            ok_bind, Option.getD_some, Option.isSome_some, true_and]
          rw [bind_eq_ok]
          simp only [assert_eq_ok, exists_const]

variable (husize : t.usize = 32 ∨ t.usize = 64) (hop : op.sortKey < 2 ^ 64)

include husize hop

theorem seekData_pos (hst : Stands base st) (hseek : seekData t st op = .ok reader) :
    (reader.pos = base + op.sortKey ↔ Near t base st.currDataOffset op.sortKey) ∧
      reader.pos < 2 ^ 63 ∧ reader.data = st.reader.data := by
  obtain ⟨-, -, -, hskip⟩ := seekData_eq_ok_iff.1 hseek
  obtain ⟨hpos, hlt, hdata⟩ := Source.pos_of_skip hskip hst.pos_lt hst.small
  refine ⟨?_, hlt, hdata⟩
  have hcurr := hst.pos
  have hbound := hst.pos_lt
  rw [hcurr] at hpos hbound
  rw [Near]
  rcases husize with h32 | h64
  · -- what is left of the distance is less than `2 ^ 32`, so that the seek is one forward
    rw [if_pos h32]
    rw [h32, if_pos (lt_trans (Nat.mod_lt _ (by decide)) (by decide))] at hpos
    omega
  · rw [if_neg (by omega)]
    rw [h64] at hpos
    split at hpos <;> omega

theorem stands_of_operate {st' : State} (hst : Stands base st)
    (hnear : Near t base st.currDataOffset op.sortKey)
    (hrun : operate t blockSize st op = .ok st') :
    Stands base st' ∧ st'.currDataOffset = op.sortKey + op.readLen t := by
  rw [operate_eq, bind_eq_ok] at hrun
  obtain ⟨⟨data, behind⟩, hfetch, hrun⟩ := hrun
  obtain ⟨reader, hseek, hread⟩ := Outcome.bind_eq_ok.1 hfetch
  obtain ⟨outOffset, -, hrun⟩ := Outcome.bind_eq_ok.1 hrun
  obtain ⟨outFile, -, hrun⟩ := Outcome.bind_eq_ok.1 hrun
  cases hrun
  obtain ⟨hplace, hlt, hdata⟩ := seekData_pos husize hop hst hseek
  have hpos := hplace.2 hnear
  have hsmall := hst.small
  rw [Source.readExact] at hread
  split at hread
  · rename_i hroom
    cases hread
    rw [hdata] at hroom
    have hword : (op.sortKey + op.readLen t) % 2 ^ 64 = op.sortKey + op.readLen t := by omega
    refine ⟨⟨?_, ?_, ?_⟩, hword⟩
    · simp only [hword, hpos, Nat.add_assoc]
    · simp only
      omega
    · rwa [hdata]
  · cases hread

end Run

section Extraction

variable {t : Tool} {blockSize base : Nat} (husize : t.usize = 32 ∨ t.usize = 64)

include husize

/-- **The reads of a run.** An operation that is not near the one before it is read elsewhere, and
what follows it does not matter any more. -/
theorem reads_iff {ops : List InstallOperation} {st st' : State} (hst : Stands base st)
    (hops : ∀ op ∈ ops, op.sortKey < 2 ^ 64) (hrun : ops.foldlM (operate t blockSize) st = .ok st') :
    (∀ read ∈ reads t blockSize st ops, read.2 = base + read.1.sortKey) ↔
      Reaches t base st.currDataOffset ops := by
  induction ops generalizing st with
  | nil => simp only [reads, Reaches, List.not_mem_nil, false_imp_iff, implies_true]
  | cons op ops ih =>
      rw [List.forall_mem_cons] at hops
      rw [List.foldlM_cons] at hrun
      obtain ⟨next, hstep, hrest⟩ := Outcome.bind_eq_ok.1 hrun
      obtain ⟨read, hfetch, -⟩ := Outcome.bind_eq_ok.1 ((operate_eq t blockSize st op).symm.trans hstep)
      obtain ⟨reader, hseek, -⟩ := Outcome.bind_eq_ok.1 hfetch
      obtain ⟨hplace, -, -⟩ := seekData_pos husize hops.1 hst hseek
      simp only [reads, hseek, hstep, List.forall_mem_cons, Reaches]
      rw [hplace]
      apply and_congr_right
      intro hnear
      obtain ⟨hnext, hcurr⟩ := stands_of_operate husize hops.1 hst hnear hstep
      rw [ih hnext hops.2 hrest, hcurr]

/-- **Where the data is read.** On success each operation has read from its own place if none was too
far from the data before it. -/
theorem readsAtOffsets_iff {reader : Source} {ops : List InstallOperation} (hpos : reader.pos < 2 ^ 63)
    (hsmall : reader.data.length < 2 ^ 63) (hops : ∀ op ∈ ops, op.sortKey < 2 ^ 64) :
    ReadsAtOffsets t blockSize reader ops ↔
      (∀ out, extractOperations t blockSize reader ops ≠ .ok out) ∨
        Reaches t reader.pos 0 (sortOperations ops) := by
  have hperm : (sortOperations ops).Perm ops := List.perm_insertionSort _ _
  have hst : Stands reader.pos ⟨reader, 0, []⟩ := ⟨rfl, hpos, hsmall⟩
  have hreads : ∀ out, extractOperations t blockSize reader ops = .ok out →
      ((∀ read ∈ reads t blockSize ⟨reader, 0, []⟩ (sortOperations ops),
        read.2 = reader.pos + read.1.sortKey) ↔ Reaches t reader.pos 0 (sortOperations ops)) := by
    intro out hrun
    rw [extractOperations, bind_eq_ok] at hrun
    obtain ⟨st', hrun, -⟩ := hrun
    exact reads_iff husize hst (fun op hop => hops op (hperm.mem_iff.1 hop)) hrun
  constructor
  · intro hat
    by_cases hrun : ∃ out, extractOperations t blockSize reader ops = .ok out
    · obtain ⟨out, hrun⟩ := hrun
      exact .inr ((hreads out hrun).1 (hat out hrun))
    · exact .inl fun out hout => hrun ⟨out, hout⟩
  · rintro (hfails | hreaches) out hrun
    · exact absurd hrun (hfails out)
    · exact (hreads out hrun).2 hreaches

end Extraction

def twoBytes (pos : Nat) : Source := ⟨[5, 6], pos, true⟩

def copyByte (dataOffset startBlock : Nat) : InstallOperation :=
  ⟨.replace, some dataOffset, some 1, [⟨some startBlock, some 1⟩]⟩

theorem readsAtOffsets_twoBytes :
    ReadsAtOffsets sampleTool 1 (twoBytes 0) [copyByte 1 0, copyByte 0 1, copyByte 1 2] :=
  (readsAtOffsets_iff (.inr rfl) (by decide) (by decide) (by decide)).2
    (.inr ⟨by decide, by decide, by decide, trivial⟩)

/-- With 32 bits the distance `2 ^ 32` is none at all, and with 64 bits the last word is a step back
into what precedes the blob. -/
theorem not_readsAtOffsets_far :
    ¬ ReadsAtOffsets { sampleTool with usize := 32 } 1 (twoBytes 0)
        [copyByte 0 0, copyByte (2 ^ 32 + 1) 1] ∧
      ¬ ReadsAtOffsets sampleTool 1 (twoBytes 1) [copyByte (2 ^ 64 - 1) 0] := by
  constructor
  · intro hreads
    exact absurd (hreads [5, 6] (by decide) (copyByte (2 ^ 32 + 1) 1, 1) (by decide)) (by decide)
  · intro hreads
    exact absurd (hreads [5] (by decide) (copyByte (2 ^ 64 - 1) 0, 0) (by decide)) (by decide)

end MagiskNative.Boot.UpdatePayload
