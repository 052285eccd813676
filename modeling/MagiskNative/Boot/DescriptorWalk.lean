import MagiskNative.Boot.Repack

/-!
# The walk over the descriptors of a vbmeta blob

The loop goes from a descriptor to the next by the length of its body. It ends at exactly the end of the
descriptors, at a hash descriptor, or at a length that is not a multiple of eight; but that test takes
the bytes of the length in the order of the host, and sees the highest byte only.
-/

namespace MagiskNative.Boot

open Bytes Layout Loop

def descriptorRound (mem : List UInt8) (size last ptr : Nat) : Round Nat (Option (Option Nat)) :=
  if ptr = last then .leave (some none)
  else if mem.length < ptr + 16 then .leave none
  else
    let following := bigEndian mem (ptr + 8) 8
    if bigEndian mem ptr 8 = 2 then
      let remaining := (size + (2 ^ 64 - ptr)) % 2 ^ 64
      if remaining < following ∨ remaining - following < 16 then .leave (some none)
      else if following < 116 then .leave (some none)
      else .leave (some (some (ptr + 16)))
    else if ofLe (slice mem (ptr + 8) 8) % 8 ≠ 0 then .leave (some none)
    else .next ((ptr + 16 + following) % 2 ^ 64)

theorem syncDescriptor_eq_run (mem : List UInt8) (size last rounds ptr : Nat) :
    syncDescriptor mem size last rounds ptr = (run (descriptorRound mem size last) rounds ptr).join := by
  induction rounds generalizing ptr with
  | zero => rfl
  | succ rounds ih =>
      rw [syncDescriptor, run, descriptorRound]
      split
      · rfl
      · split
        · rfl
        · simp only [ih]
          split
          · split
            · rfl
            · split <;> rfl
          · split <;> rfl

def firstDescriptor (mem : List UInt8) (vbmeta : Nat) : Nat :=
  (vbmeta + 256 + bigEndian mem (vbmeta + 12) 8 + bigEndian mem (vbmeta + 96) 8) % 2 ^ 64

def descriptorsSize (mem : List UInt8) (vbmeta : Nat) : Nat := bigEndian mem (vbmeta + 104) 8

def descriptorsStop (mem : List UInt8) (vbmeta : Nat) : Nat :=
  firstDescriptor mem vbmeta + descriptorsSize mem vbmeta

def descriptorLoop (mem : List UInt8) (size vbmeta : Nat) : Nat → Round Nat (Option (Option Nat)) :=
  descriptorRound mem size (descriptorsStop mem vbmeta % 2 ^ 64)

/-- The loop comes to its end, every header that it reads is in the declared area, and it does not go on
behind a length that is not a multiple of eight. -/
structure DescriptorsSafe (mem : List UInt8) (size vbmeta : Nat) : Prop where
  ends : ∃ rounds found, syncDescriptor mem size (descriptorsStop mem vbmeta % 2 ^ 64) rounds
    (firstDescriptor mem vbmeta) = some found
  inside : ∀ ptr, Visits (descriptorLoop mem size vbmeta) (firstDescriptor mem vbmeta) ptr →
    ptr ≠ descriptorsStop mem vbmeta % 2 ^ 64 →
      firstDescriptor mem vbmeta ≤ ptr ∧ ptr + 16 ≤ descriptorsStop mem vbmeta
  stops : ∀ ptr next, Visits (descriptorLoop mem size vbmeta) (firstDescriptor mem vbmeta) ptr →
    descriptorLoop mem size vbmeta ptr = .next next → 8 ∣ bigEndian mem (ptr + 8) 8

/-- The descriptors from `ptr` on, up to the one at which the loop stops or to the end of the area. -/
inductive Linked (mem : List UInt8) (first stop : Nat) : Nat → Prop
  | done : Linked mem first stop (stop % 2 ^ 64)
  | last {ptr : Nat} (hinside : first ≤ ptr ∧ ptr + 16 ≤ stop ∧ ptr + 16 ≤ mem.length)
      (hlast : bigEndian mem ptr 8 = 2 ∨ ofLe (slice mem (ptr + 8) 8) % 8 ≠ 0) :
      Linked mem first stop ptr
  | next {ptr : Nat} (hinside : first ≤ ptr ∧ ptr + 16 ≤ stop ∧ ptr + 16 ≤ mem.length)
      (hnext : bigEndian mem ptr 8 ≠ 2 ∧ ofLe (slice mem (ptr + 8) 8) % 8 = 0)
      (hmult : 8 ∣ bigEndian mem (ptr + 8) 8)
      (hrest : Linked mem first stop ((ptr + 16 + bigEndian mem (ptr + 8) 8) % 2 ^ 64)) :
      Linked mem first stop ptr

section

variable {mem : List UInt8} {size last ptr : Nat}

theorem descriptorRound_eq_next {next : Nat} (hround : descriptorRound mem size last ptr = .next next) :
    ptr ≠ last ∧ ptr + 16 ≤ mem.length ∧ bigEndian mem ptr 8 ≠ 2 ∧
      ofLe (slice mem (ptr + 8) 8) % 8 = 0 ∧ next = (ptr + 16 + bigEndian mem (ptr + 8) 8) % 2 ^ 64 := by
  simp only [descriptorRound] at hround
  split at hround
  · cases hround
  · rename_i hptr
    split at hround
    · cases hround
    · rename_i hmem
      split at hround
      · split at hround
        · cases hround
        · split at hround <;> cases hround
      · rename_i htag
        split at hround
        · cases hround
        · rename_i hmult
          cases hround
          exact ⟨hptr, Nat.not_lt.1 hmem, htag, not_not.1 hmult, rfl⟩

theorem descriptorRound_of_next (hptr : ptr ≠ last) (hmem : ptr + 16 ≤ mem.length)
    (hnext : bigEndian mem ptr 8 ≠ 2 ∧ ofLe (slice mem (ptr + 8) 8) % 8 = 0) :
    descriptorRound mem size last ptr = .next ((ptr + 16 + bigEndian mem (ptr + 8) 8) % 2 ^ 64) := by
  simp only [descriptorRound]
  rw [if_neg hptr, if_neg (by omega), if_neg hnext.1, if_neg (not_not.2 hnext.2)]

theorem descriptorRound_eq_leave {found : Option Nat}
    (hround : descriptorRound mem size last ptr = .leave (some found)) :
    ptr = last ∨ ptr + 16 ≤ mem.length ∧
      (bigEndian mem ptr 8 = 2 ∨ ofLe (slice mem (ptr + 8) 8) % 8 ≠ 0) := by
  by_contra hcond
  rw [not_or] at hcond
  obtain ⟨hptr, hcond⟩ := hcond
  by_cases hmem : ptr + 16 ≤ mem.length
  · have hnext : bigEndian mem ptr 8 ≠ 2 ∧ ofLe (slice mem (ptr + 8) 8) % 8 = 0 := by
      tauto
    rw [descriptorRound_of_next hptr hmem hnext] at hround
    cases hround
  · rw [descriptorRound, if_neg hptr, if_pos (by omega)] at hround
    cases hround

theorem exists_descriptorRound_leave (hmem : ptr + 16 ≤ mem.length)
    (hlast : bigEndian mem ptr 8 = 2 ∨ ofLe (slice mem (ptr + 8) 8) % 8 ≠ 0) :
    ∃ found, descriptorRound mem size last ptr = .leave (some found) := by
  simp only [descriptorRound]
  by_cases hptr : ptr = last
  · rw [if_pos hptr]
    exact ⟨_, rfl⟩
  · rw [if_neg hptr, if_neg (by omega)]
    split
    · split
      · exact ⟨_, rfl⟩
      · split <;> exact ⟨_, rfl⟩
    · rename_i htag
      rw [if_pos (hlast.resolve_left htag)]
      exact ⟨_, rfl⟩

end

section

variable {mem : List UInt8} {size first stop : Nat}

theorem Linked.inside {ptr : Nat} (hlinked : Linked mem first stop ptr) (hptr : ptr ≠ stop % 2 ^ 64) :
    first ≤ ptr ∧ ptr + 16 ≤ stop ∧ ptr + 16 ≤ mem.length := by
  cases hlinked with
  | done => exact absurd rfl hptr
  | last hinside _ => exact hinside
  | next hinside _ _ _ => exact hinside

/-- What the loop passes is linked if all of it is in the area. The induction is on the rounds. -/
theorem linked_of_run {rounds ptr : Nat} {found : Option Nat}
    (hrun : run (descriptorRound mem size (stop % 2 ^ 64)) rounds ptr = some (some found))
    (hinside : ∀ q, Visits (descriptorRound mem size (stop % 2 ^ 64)) ptr q → q ≠ stop % 2 ^ 64 →
      first ≤ q ∧ q + 16 ≤ stop)
    (hstops : ∀ q next, Visits (descriptorRound mem size (stop % 2 ^ 64)) ptr q →
      descriptorRound mem size (stop % 2 ^ 64) q = .next next → 8 ∣ bigEndian mem (q + 8) 8) :
    Linked mem first stop ptr := by
  induction rounds generalizing ptr with
  | zero => cases hrun
  | succ rounds ih =>
      by_cases hptr : ptr = stop % 2 ^ 64
      · rw [hptr]
        exact .done
      · have hin := hinside ptr .start hptr
        cases hround : descriptorRound mem size (stop % 2 ^ 64) ptr with
        | leave result =>
            rw [run_succ_leave hround] at hrun
            cases hrun
            obtain ⟨hmem, hlast⟩ := (descriptorRound_eq_leave hround).resolve_left hptr
            exact .last ⟨hin.1, hin.2, hmem⟩ hlast
        | next next =>
            rw [run_succ_next hround] at hrun
            obtain ⟨-, hmem, htag, hmult, rfl⟩ := descriptorRound_eq_next hround
            refine .next ⟨hin.1, hin.2, hmem⟩ ⟨htag, hmult⟩ (hstops ptr _ .start hround) (ih hrun ?_ ?_)
            · exact fun q hvisits => hinside q (hvisits.of_next hround)
            · exact fun q next hvisits => hstops q next (hvisits.of_next hround)

theorem Linked.ends {ptr : Nat} (hlinked : Linked mem first stop ptr) :
    ∃ rounds found, run (descriptorRound mem size (stop % 2 ^ 64)) rounds ptr = some (some found) := by
  induction hlinked with
  | done =>
      have hround : descriptorRound mem size (stop % 2 ^ 64) (stop % 2 ^ 64) = .leave (some none) :=
        if_pos rfl
      exact ⟨1, none, run_succ_leave hround 0⟩
  | last hinside hlast =>
      obtain ⟨found, hround⟩ := exists_descriptorRound_leave hinside.2.2 hlast
      exact ⟨1, found, run_succ_leave hround 0⟩
  | @next ptr hinside hnext _ _ ih =>
      obtain ⟨rounds, found, hrun⟩ := ih
      by_cases hptr : ptr = stop % 2 ^ 64
      · have hround : descriptorRound mem size (stop % 2 ^ 64) ptr = .leave (some none) := if_pos hptr
        exact ⟨1, none, run_succ_leave hround 0⟩
      · refine ⟨rounds + 1, found, ?_⟩
        rw [run_succ_next (descriptorRound_of_next hptr hinside.2.2 hnext), hrun]

theorem Linked.of_visits {ptr q : Nat} (hlinked : Linked mem first stop ptr)
    (hvisits : Visits (descriptorRound mem size (stop % 2 ^ 64)) ptr q) : Linked mem first stop q := by
  refine hvisits.invariant (P := Linked mem first stop) ?_ hlinked
  intro ptr next hptr hround
  obtain ⟨hne, -, htag, hmult, rfl⟩ := descriptorRound_eq_next hround
  cases hptr with
  | done => exact absurd rfl hne
  | last _ hlast => exact absurd hlast (not_or.2 ⟨htag, not_not.2 hmult⟩)
  | next _ _ _ hrest => exact hrest

end

structure Descriptor where
  tag : Nat
  body : List UInt8

def Descriptor.text (d : Descriptor) : List UInt8 := beBytes 8 d.tag ++ beBytes 8 d.body.length ++ d.body

/-- A descriptor that the loop goes past, as it should. -/
def Descriptor.Plain (d : Descriptor) : Prop := d.tag < 2 ^ 64 ∧ d.tag ≠ 2 ∧ 8 ∣ d.body.length

/-- What ends a list of descriptors that take `used` bytes of an area of `size` bytes. -/
inductive Closed (size used : Nat) (rest : List UInt8) : Prop
  | full (hfull : used = size)
  | stops (hroom : used + 16 ≤ size) (hrest : 16 ≤ rest.length)
      (hstops : bigEndian rest 0 8 = 2 ∨ ofLe (slice rest 8 8) % 8 ≠ 0)
  | leads (hroom : used + 16 ≤ size) (hrest : 16 ≤ rest.length) (hmult : 8 ∣ bigEndian rest 8 8)
      (hend : used + 16 + bigEndian rest 8 8 = size)

/-- At `first` begins a list of descriptors that fills an area of `size` bytes, or that ends in it with
one at which the loop stops. -/
def Listed (mem : List UInt8) (first size : Nat) : Prop :=
  ∃ (ds : List Descriptor) (rest : List UInt8), mem.drop first = ds.flatMap Descriptor.text ++ rest ∧
    (∀ d ∈ ds, d.Plain) ∧ Closed size (ds.flatMap Descriptor.text).length rest

section

variable {mem : List UInt8} {first stop ptr : Nat}

theorem length_text (d : Descriptor) : d.text.length = 16 + d.body.length := by
  simp only [Descriptor.text, List.length_append, length_beBytes]

theorem bigEndian_drop (mem : List UInt8) (ptr off n : Nat) :
    bigEndian (mem.drop ptr) off n = bigEndian mem (ptr + off) n := by
  rw [bigEndian, bigEndian, slice_drop]

theorem bigEndian_of_slice {mem : List UInt8} {off k n : Nat} (hslice : slice mem off k = beBytes k n)
    (hn : n < 256 ^ k) : bigEndian mem off k = n := by
  rw [bigEndian, hslice, beBytes, List.reverse_reverse, ofLe_leBytes_of_lt hn]

/-- The three bits that the loop tests are the low ones of the highest byte of the length. -/
theorem ofLe_mod_eight {bs : List UInt8} (hlength : bs.length = 8) :
    ofLe bs % 8 = ofLe bs.reverse / 2 ^ 56 % 8 := by
  match bs, hlength with
  | [b0, b1, b2, b3, b4, b5, b6, b7], _ =>
      have h1 := b1.toNat_lt
      have h2 := b2.toNat_lt
      have h3 := b3.toNat_lt
      have h4 := b4.toNat_lt
      have h5 := b5.toNat_lt
      have h6 := b6.toNat_lt
      have h7 := b7.toNat_lt
      have hhigh : ofLe [b0, b1, b2, b3, b4, b5, b6, b7].reverse / 2 ^ 56 = b0.toNat := by
        simp only [List.reverse_cons, List.reverse_nil, List.nil_append, List.cons_append, ofLe]
        omega
      rw [hhigh, ofLe]
      omega

theorem bigEndian_lt (mem : List UInt8) (off : Nat) : bigEndian mem off 8 < 2 ^ 64 := by
  calc bigEndian mem off 8 < 256 ^ (slice mem off 8).reverse.length := ofLe_lt _
    _ ≤ 256 ^ 8 := by
      refine Nat.pow_le_pow_right (by decide) ?_
      rw [List.length_reverse]
      exact List.length_take_le _ _
    _ = 2 ^ 64 := by norm_num

/-- In a mapping of so few bytes no length that passes the test leads backwards. -/
theorem lt_of_mod_eight (hmem : mem.length ≤ 2 ^ 56) (hptr : ptr + 16 ≤ mem.length)
    (hmult : ofLe (slice mem (ptr + 8) 8) % 8 = 0) : ptr + 16 + bigEndian mem (ptr + 8) 8 < 2 ^ 64 := by
  have hlt := bigEndian_lt mem (ptr + 8)
  rw [ofLe_mod_eight (length_slice_of_le (by omega)), ← bigEndian] at hmult
  omega

theorem beBytes_bigEndian (hptr : ptr + 8 ≤ mem.length) : beBytes 8 (bigEndian mem ptr 8) = slice mem ptr 8 := by
  have hbytes := leBytes_ofLe (slice mem ptr 8).reverse
  rw [List.length_reverse, length_slice_of_le hptr] at hbytes
  rw [beBytes, bigEndian, hbytes, List.reverse_reverse]

theorem Closed.le {size used : Nat} {rest : List UInt8} (hclosed : Closed size used rest) : used ≤ size := by
  cases hclosed with
  | full hfull => exact hfull.le
  | stops hroom _ _ => omega
  | leads hroom _ _ _ => omega

theorem closed_add_iff {n size used : Nat} {rest : List UInt8} :
    Closed (n + size) (n + used) rest ↔ Closed size used rest := by
  constructor
  · rintro (hfull | ⟨hroom, hrest, hstops⟩ | ⟨hroom, hrest, hmult, hend⟩)
    · exact .full (by omega)
    · exact .stops (by omega) hrest hstops
    · exact .leads (by omega) hrest hmult (by omega)
  · rintro (hfull | ⟨hroom, hrest, hstops⟩ | ⟨hroom, hrest, hmult, hend⟩)
    · exact .full (by omega)
    · exact .stops (by omega) hrest hstops
    · exact .leads (by omega) hrest hmult (by omega)

theorem slice_text {d : Descriptor} {behind : List UInt8} (hdrop : mem.drop ptr = d.text ++ behind) :
    slice mem ptr 8 = beBytes 8 d.tag ∧ slice mem (ptr + 8) 8 = beBytes 8 d.body.length := by
  have hfirst := slice_drop mem ptr 0 8
  have hsecond := slice_drop mem ptr 8 8
  rw [hdrop, Descriptor.text, List.append_assoc] at hfirst hsecond
  refine ⟨?_, ?_⟩
  · rw [← Nat.add_zero ptr, ← hfirst, List.append_assoc, slice, List.drop_zero]
    exact List.take_left' (length_beBytes _ _)
  · rw [← hsecond]
    exact slice_append_of_length (length_beBytes _ _) (length_beBytes _ _)

/-- The induction is on the links. The walk cannot wrap, so each link is a descriptor of the list. -/
theorem Linked.listed (hmem : mem.length ≤ 2 ^ 56) (hstop : stop < first + 2 ^ 64)
    (hlinked : Linked mem first stop ptr) (hptr : ptr = stop % 2 ^ 64 → ptr = stop) (hfirst : first ≤ ptr) :
    Listed mem ptr (stop - ptr) := by
  induction hlinked with
  | done =>
      refine ⟨[], _, rfl, by simp, .full ?_⟩
      rw [List.flatMap_nil, List.length_nil]
      have := hptr rfl
      omega
  | @last ptr hinside hlast =>
      refine ⟨[], mem.drop ptr, rfl, by simp, .stops ?_ ?_ ?_⟩
      · rw [List.flatMap_nil, List.length_nil]
        omega
      · rw [List.length_drop]
        omega
      · rw [bigEndian_drop, slice_drop]
        exact hlast
  | @next ptr hinside hnext hmult hrest ih =>
      have hlt := lt_of_mod_eight hmem hinside.2.2 hnext.2
      rw [Nat.mod_eq_of_lt hlt] at hrest ih
      by_cases hend : ptr + 16 + bigEndian mem (ptr + 8) 8 = stop % 2 ^ 64
      · refine ⟨[], mem.drop ptr, rfl, by simp, .leads ?_ ?_ ?_ ?_⟩
        · rw [List.flatMap_nil, List.length_nil]
          omega
        · rw [List.length_drop]
          omega
        · rwa [bigEndian_drop]
        · rw [bigEndian_drop, List.flatMap_nil, List.length_nil]
          omega
      · have hin := hrest.inside hend
        obtain ⟨ds, rest, hds, hplain, hclosed⟩ := ih (fun h => absurd h hend) (by omega)
        generalize hlen : bigEndian mem (ptr + 8) 8 = len at *
        have hbody : (slice mem (ptr + 16) len).length = len := length_slice_of_le (by omega)
        let d : Descriptor := ⟨bigEndian mem ptr 8, slice mem (ptr + 16) len⟩
        have htext : mem.drop ptr = d.text ++ mem.drop (ptr + 16 + len) := by
          have hwords : d.text = slice mem ptr (16 + len) := by
            rw [Descriptor.text, hbody, beBytes_bigEndian (by omega), ← hlen,
              beBytes_bigEndian (by omega), hlen, ← slice_add, ← slice_add]
          rw [hwords, Nat.add_assoc, slice_append_drop]
        refine ⟨d :: ds, rest, ?_, ?_, ?_⟩
        · rw [htext, hds, List.flatMap_cons, List.append_assoc]
        · rw [List.forall_mem_cons]
          refine ⟨⟨bigEndian_lt mem ptr, hnext.1, ?_⟩, hplain⟩
          rwa [hbody]
        · rw [List.flatMap_cons, List.length_append, length_text, hbody,
            show stop - ptr = 16 + len + (stop - (ptr + 16 + len)) by omega, closed_add_iff]
          exact hclosed

/-- The induction is on the list. -/
theorem Listed.linked (hmem : mem.length ≤ 2 ^ 56) (hfirst : first ≤ ptr) (hptr : ptr < 2 ^ 64)
    (hlisted : Listed mem ptr (stop - ptr)) (hstop : ptr ≤ stop) : Linked mem first stop ptr := by
  obtain ⟨ds, rest, hds, hplain, hclosed⟩ := hlisted
  induction ds generalizing ptr with
  | nil =>
      rw [List.flatMap_nil, List.nil_append] at hds
      rw [List.flatMap_nil, List.length_nil] at hclosed
      subst hds
      cases hclosed with
      | full hfull =>
          rw [show ptr = stop % 2 ^ 64 by omega]
          exact .done
      | stops hroom hrest hstops =>
          rw [List.length_drop] at hrest
          rw [bigEndian_drop, slice_drop] at hstops
          exact .last ⟨hfirst, by omega, by omega⟩ hstops
      | leads hroom hrest hmult hend =>
          rw [List.length_drop] at hrest
          rw [bigEndian_drop] at hmult hend
          by_cases hlast : bigEndian mem ptr 8 = 2 ∨ ofLe (slice mem (ptr + 8) 8) % 8 ≠ 0
          · exact .last ⟨hfirst, by omega, by omega⟩ hlast
          · rw [not_or, not_not] at hlast
            refine .next ⟨hfirst, by omega, by omega⟩ hlast hmult ?_
            rw [show ptr + 16 + bigEndian mem (ptr + 8) 8 = stop by omega]
            exact .done
  | cons d ds ih =>
      rw [List.forall_mem_cons] at hplain
      obtain ⟨⟨htag, hne, hmult⟩, hplain⟩ := hplain
      rw [List.flatMap_cons, List.append_assoc] at hds
      rw [List.flatMap_cons, List.length_append, length_text] at hclosed
      have hdrop := drop_add_of_drop_eq hds
      have hlength := congrArg List.length hds
      rw [List.length_drop, List.length_append, length_text] at hlength
      obtain ⟨hword, hword'⟩ := slice_text hds
      have hfollowing : bigEndian mem (ptr + 8) 8 = d.body.length := bigEndian_of_slice hword' (by omega)
      have hpasses : ofLe (slice mem (ptr + 8) 8) % 8 = 0 := by
        rw [ofLe_mod_eight (length_slice_of_le (by omega)), ← bigEndian, hfollowing]
        omega
      have hle := hclosed.le
      rw [show stop - ptr = 16 + d.body.length + (stop - (ptr + (16 + d.body.length))) by omega,
        closed_add_iff] at hclosed
      refine .next ⟨hfirst, by omega, by omega⟩ ⟨by rwa [bigEndian_of_slice hword htag], hpasses⟩
        (by rwa [hfollowing]) ?_
      rw [hfollowing, Nat.mod_eq_of_lt (by omega), Nat.add_assoc]
      rw [length_text] at hdrop
      exact ih (by omega) (by omega) (by omega) hdrop hplain hclosed

end

/-- **The walk over the descriptors.** It is safe iff the declared area starts with a list of plain
descriptors that fills it, or that ends in it with a descriptor at which the loop stops. -/
theorem descriptorsSafe_iff {mem : List UInt8} (hmem : mem.length ≤ 2 ^ 56) (size vbmeta : Nat) :
    DescriptorsSafe mem size vbmeta ↔
      Listed mem (firstDescriptor mem vbmeta) (descriptorsSize mem vbmeta) := by
  have hfirst : firstDescriptor mem vbmeta < 2 ^ 64 := Nat.mod_lt _ (by decide)
  have hsize := bigEndian_lt mem (vbmeta + 104)
  have hleft : descriptorsStop mem vbmeta - firstDescriptor mem vbmeta = descriptorsSize mem vbmeta := by
    rw [descriptorsStop, Nat.add_sub_cancel_left]
  rw [← hleft]
  constructor
  · rintro ⟨⟨rounds, found, hends⟩, hinside, hstops⟩
    rw [syncDescriptor_eq_run, Option.join_eq_some_iff] at hends
    refine (linked_of_run hends hinside hstops).listed hmem ?_ ?_ le_rfl
    · rw [descriptorsStop, descriptorsSize]
      omega
    · rw [descriptorsStop, descriptorsSize]
      omega
  · intro hlisted
    have hlinked := hlisted.linked hmem le_rfl hfirst (Nat.le_add_right _ _)
    refine ⟨?_, ?_, ?_⟩
    · obtain ⟨rounds, found, hrun⟩ := hlinked.ends
      refine ⟨rounds, found, ?_⟩
      rw [syncDescriptor_eq_run, hrun]
      rfl
    · intro ptr hvisits hptr
      have hinside := (hlinked.of_visits hvisits).inside hptr
      exact ⟨hinside.1, hinside.2.1⟩
    · intro ptr next hvisits hround
      obtain ⟨hne, -, htag, hmult, -⟩ := descriptorRound_eq_next hround
      cases hlinked.of_visits hvisits with
      | done => exact absurd rfl hne
      | last _ hlast => exact absurd hlast (not_or.2 ⟨htag, not_not.2 hmult⟩)
      | next _ _ hmult _ => exact hmult

/-- A descriptor of eight bytes, and behind it a hash descriptor. -/
def evenDescriptors : List UInt8 :=
  avbMagic ++ zeros 100 ++ beBytes 8 40 ++ zeros 144
    ++ (Descriptor.text ⟨0, zeros 8⟩ ++ (beBytes 8 2 ++ beBytes 8 0))

theorem descriptorsSafe_evenDescriptors : DescriptorsSafe evenDescriptors evenDescriptors.length 0 := by
  have hlength : evenDescriptors.length = 296 := by
    simp only [evenDescriptors, Descriptor.text, List.length_append, length_zeros, length_beBytes]
    rfl
  refine (descriptorsSafe_iff (by rw [hlength]; decide) _ 0).2
    ⟨[⟨0, zeros 8⟩], beBytes 8 2 ++ beBytes 8 0, by decide, ?_, ?_⟩
  · intro d hd
    rw [List.mem_singleton] at hd
    subst hd
    exact ⟨by decide, by decide, by decide⟩
  · exact .stops (by decide) (by decide) (by decide)

def oddDescriptors : List UInt8 :=
  avbMagic ++ zeros 100 ++ beBytes 8 24 ++ zeros 144 ++ beBytes 8 0 ++ beBytes 8 12 ++ zeros 28

theorem not_descriptorsSafe_oddDescriptors :
    firstDescriptor oddDescriptors 0 = 256 ∧ descriptorsStop oddDescriptors 0 = 280 ∧
      descriptorLoop oddDescriptors oddDescriptors.length 0 256 = .next 284 ∧
      ¬ DescriptorsSafe oddDescriptors oddDescriptors.length 0 := by
  have hfirst : firstDescriptor oddDescriptors 0 = 256 := by decide
  have hstop : descriptorsStop oddDescriptors 0 = 280 := by decide
  have hround : descriptorLoop oddDescriptors oddDescriptors.length 0 256 = .next 284 := by
    have hfollowing : bigEndian oddDescriptors (256 + 8) 8 = 12 := by decide
    have hlength : oddDescriptors.length = 300 := by
      simp only [oddDescriptors, List.length_append, length_zeros, length_beBytes]
      rfl
    rw [descriptorLoop, hstop, descriptorRound_of_next (by decide) (by rw [hlength]; decide) (by decide),
      hfollowing]
    rfl
  refine ⟨hfirst, hstop, hround, fun hsafe => ?_⟩
  have hmult := hsafe.stops 256 284 (by rw [hfirst]; exact .start) hround
  exact absurd hmult (by decide)

end MagiskNative.Boot
