import Memtrace.Ud.Builder

/-! # Indices past `uint32_t`

`InsnInTrace` keeps its use and def indices in `uint32_t`: `Flush` stores
`static_cast<std::uint32_t>(GetUseCount())`, and `AddDef` maps a range to
`static_cast<std::uint32_t>(defs_.size())`. Two traces of one instruction complete without error
once a count reaches `2 ^ 32`, and the stored indices wrap.

* `rereadTrace n` is a `PUT_REG` of one register byte, then `n` `GET_REG`s of it; `rewriteTrace n`
  is `n` `PUT_REG`s of that byte. `readInt_replicate` reads inside the `k`-th of repeated records
  as inside the record alone, and `visitOne_record` is `VisitOne` on one of them.
* `rereadState uses` is the builder after the `PUT_REG` and the reads `uses`: each `GET_REG`
  reads the whole def of the `PUT_REG` and appends its index (`visitLoop_getRegs`).
  `rewriteState old` is the builder after the writes whose defs, before the last, are `old`: each
  `PUT_REG` replaces the interval `[0, 1)` by its own def (`visitLoop_putRegs`).
* `udVisit_rereadTrace`: the visit of `rereadTrace n` returns `n` uses, and the instruction's entry
  closes at `uint32_t(n)`; `udVisit_use_index_wraps` is `n = 2 ^ 32`. `udVisit_rewriteTrace`: the
  visit of `rewriteTrace n` maps `[0, 1)` to def `uint32_t(n)`; `udVisit_def_index_wraps` is
  `n = 2 ^ 32`, where that is the catch-all def 0.
-/

namespace Memtrace

set_option autoImplicit false

/-- The header record of a little-endian, 4-byte-word trace of an `EM_386` program. -/
def header386 : List UInt8 := [0x34, 0x4d, 6, 0, 3, 0, 0, 0]

/-- A `PUT_REG` record of `insnSeq` 1 that writes the byte `0xaa` at register offset 0. -/
def putRegRecord : List UInt8 := [0x50, 0x50, 13, 0, 1, 0, 0, 0, 0, 0, 0, 0, 0xaa, 0, 0, 0]

/-- A `GET_REG` record of `insnSeq` 1 that reads the byte at register offset 0. -/
def getRegRecord : List UInt8 := [0x47, 0x47, 13, 0, 1, 0, 0, 0, 0, 0, 0, 0, 0xaa, 0, 0, 0]

/-- The header, the `PUT_REG`, then `n` `GET_REG`s. -/
def rereadTrace (n : Nat) : List UInt8 :=
  header386 ++ putRegRecord ++ (List.replicate n getRegRecord).flatten

theorem length_rereadTrace (n : Nat) : (rereadTrace n).length = 24 + 16 * n := by
  simp [rereadTrace, header386, putRegRecord, getRegRecord]
  omega

/-- The header, then `n` `PUT_REG`s. -/
def rewriteTrace (n : Nat) : List UInt8 := header386 ++ (List.replicate n putRegRecord).flatten

theorem length_rewriteTrace (n : Nat) : (rewriteTrace n).length = 8 + 16 * n := by
  simp [rewriteTrace, header386, putRegRecord]
  omega

/-! ## Reading the records -/

theorem readInt_rereadTrace_head {e : Endianness} {n i w : Nat} (h : i + w ≤ 24) :
    readInt e (rereadTrace n) i w = readInt e (header386 ++ putRegRecord) i w :=
  readInt_append_left h

theorem readInt_replicate {e : Endianness} {pre r : List UInt8} (hr : r.length = 16)
    {n k i w : Nat} (hk : k < n) (h : i + w ≤ 16) :
    readInt e (pre ++ (List.replicate n r).flatten) (pre.length + 16 * k + i) w =
      readInt e r i w := by
  obtain ⟨m, rfl⟩ : ∃ m, n = k + 1 + m := ⟨n - k - 1, by omega⟩
  have hsplit : pre ++ (List.replicate (k + 1 + m) r).flatten =
      (pre ++ (List.replicate k r).flatten) ++ (r ++ (List.replicate m r).flatten) := by
    simp [List.replicate_add]
  have hpre : (pre ++ (List.replicate k r).flatten).length = pre.length + 16 * k := by
    simp [hr]
    omega
  rw [hsplit, ← hpre, readInt_append_right, readInt_append_left (show i + w ≤ r.length by omega)]

theorem readInt_rereadTrace {e : Endianness} {n k cur i w : Nat} (hk : k < n)
    (hcur : cur = 24 + 16 * k + i) (h : i + w ≤ 16) :
    readInt e (rereadTrace n) cur w = readInt e getRegRecord i w := by
  subst hcur
  exact @readInt_replicate e (header386 ++ putRegRecord) getRegRecord rfl n k i w hk h

theorem rereadTrace_getReg {n k : Nat} (hk : k < n) :
    getTag .little (rereadTrace n) (24 + 16 * k) = some 0x4747 ∧
      getLength .little (rereadTrace n) (24 + 16 * k) = some 13 ∧
      getInsnSeq .little (rereadTrace n) (24 + 16 * k) = some 1 ∧
      getAddr .little .four (rereadTrace n) (24 + 16 * k) = some 0 :=
  ⟨readInt_rereadTrace (i := 0) hk rfl (by decide),
    readInt_rereadTrace (i := 2) hk rfl (by decide),
    readInt_rereadTrace (i := 4) hk rfl (by decide),
    readInt_rereadTrace (i := 8) hk rfl (by decide)⟩

theorem rereadTrace_putReg (n : Nat) :
    getTag .little (rereadTrace n) 8 = some 0x5050 ∧
      getLength .little (rereadTrace n) 8 = some 13 ∧
      getInsnSeq .little (rereadTrace n) 8 = some 1 ∧
      getAddr .little .four (rereadTrace n) 8 = some 0 ∧
      getLength .little (rereadTrace n) 0 = some 6 ∧
      getMachineType .little (rereadTrace n) = some 3 :=
  ⟨readInt_rereadTrace_head (by decide), readInt_rereadTrace_head (by decide),
    readInt_rereadTrace_head (by decide), readInt_rereadTrace_head (by decide),
    readInt_rereadTrace_head (by decide), readInt_rereadTrace_head (by decide)⟩

theorem readInt_rewriteTrace_head {e : Endianness} {n i w : Nat} (h : i + w ≤ 8) :
    readInt e (rewriteTrace n) i w = readInt e header386 i w :=
  readInt_append_left h

theorem readInt_rewriteTrace {e : Endianness} {n k cur i w : Nat} (hk : k < n)
    (hcur : cur = 8 + 16 * k + i) (h : i + w ≤ 16) :
    readInt e (rewriteTrace n) cur w = readInt e putRegRecord i w := by
  subst hcur
  exact @readInt_replicate e header386 putRegRecord rfl n k i w hk h

theorem rewriteTrace_putReg {n k : Nat} (hk : k < n) :
    getTag .little (rewriteTrace n) (8 + 16 * k) = some 0x5050 ∧
      getLength .little (rewriteTrace n) (8 + 16 * k) = some 13 ∧
      getInsnSeq .little (rewriteTrace n) (8 + 16 * k) = some 1 ∧
      getAddr .little .four (rewriteTrace n) (8 + 16 * k) = some 0 ∧
      getLength .little (rewriteTrace n) 0 = some 6 ∧
      getMachineType .little (rewriteTrace n) = some 3 :=
  ⟨readInt_rewriteTrace (i := 0) hk rfl (by decide),
    readInt_rewriteTrace (i := 2) hk rfl (by decide),
    readInt_rewriteTrace (i := 4) hk rfl (by decide),
    readInt_rewriteTrace (i := 8) hk rfl (by decide),
    readInt_rewriteTrace_head (by decide), readInt_rewriteTrace_head (by decide)⟩

/-! ## The builder on the records -/

/-- The builder after `Ud::Init` on a 4-byte-word trace, over the partial-use tables its
`reserve`s made and the prime cache they left. -/
def seedState (tReg tMem : PartialUses) (primes : List Nat) : Ud :=
  ⟨[⟨0, 0, 0⟩], [], ["<unknown>"], [.opening 0 ⟨0, 0, 0, 0⟩],
    ⟨[], tReg, [⟨0, WordSize.four.max⟩], [(WordSize.four.max, ⟨0, 0⟩)]⟩,
    ⟨[], tMem, [⟨0, WordSize.four.max⟩], [(WordSize.four.max, ⟨0, 0⟩)]⟩, primes⟩

/-- The builder after the `PUT_REG` and the `GET_REG`s whose def indices are `uses`: the seed
entry is closed, the instruction's entry is open, and the register byte `[0, 1)` is def 1. -/
def rereadState (tReg tMem : PartialUses) (primes uses : List Nat) : Ud :=
  ⟨[⟨0, 0, 0⟩], [], ["<unknown>"], [⟨0, 0, 0, 0, 0, 0, 1, 0, 1⟩, .opening 1 ⟨0, 0, 1, 1⟩],
    ⟨uses, tReg, [⟨0, WordSize.four.max⟩, ⟨0, 1⟩], [(1, ⟨0, 1⟩), (WordSize.four.max, ⟨1, 0⟩)]⟩,
    ⟨[], tMem, [⟨0, WordSize.four.max⟩], [(WordSize.four.max, ⟨0, 0⟩)]⟩, primes⟩

/-- The builder after `PUT_REG`s whose defs, up to the last one's, are `old`: the seed entry is
closed, the instruction's entry is open, and `[0, 1)` is mapped to the last def under the index
`uint32_t(old.size())` that `AddDef` gave it. -/
def rewriteState (tReg tMem : PartialUses) (primes : List Nat) (old : List Def) : Ud :=
  ⟨[⟨0, 0, 0⟩], [], ["<unknown>"], [⟨0, 0, 0, 0, 0, 0, 1, 0, 1⟩, .opening 1 ⟨0, 0, 1, 1⟩],
    ⟨[], tReg, old ++ [⟨0, 1⟩], [(1, ⟨0, u32 old.length⟩), (WordSize.four.max, ⟨1, 0⟩)]⟩,
    ⟨[], tMem, [⟨0, WordSize.four.max⟩], [(WordSize.four.max, ⟨0, 0⟩)]⟩, primes⟩

theorem rereadState_nil (tReg tMem : PartialUses) (primes : List Nat) :
    rereadState tReg tMem primes [] = rewriteState tReg tMem primes [⟨0, WordSize.four.max⟩] :=
  rfl

theorem Ud.init_eq_seedState {fuel n : Nat} {primes p₁ p₂ : List Nat} {tReg tMem : PartialUses}
    (h₁ : PartialUses.create fuel primes (some (n / 10)) = .ok (tReg, p₁))
    (h₂ : PartialUses.create fuel p₁ (some (n / 20)) = .ok (tMem, p₂)) :
    Ud.init .four .little fuel primes 3 n = .ok (seedState tReg tMem p₂) := by
  simp only [Ud.init, UdState.init, h₁, h₂]
  rfl

section Steps

variable {buf : List UInt8} {cur : Nat} (fuel i : Nat)
  (doDisasm : List UInt8 → Nat → Option String) (tReg tMem : PartialUses) (primes : List Nat)

/-- The `PUT_REG`: its `insnSeq` closes the seed entry and opens the instruction's, and its
`AddDefs(0, 1)` splits the catch-all def at 1. -/
theorem dispatch_putReg (hseq : getInsnSeq .little buf cur = some 1)
    (haddr : getAddr .little .four buf cur = some 0) (hlen : getLength .little buf cur = some 13) :
    (Ud.visitor .four .little buf false fuel doDisasm).dispatch i 0x5050 cur
        (seedState tReg tMem primes) = .ok (rereadState tReg tMem primes []) := by
  simp only [Visitor.dispatch, show Tag.ofCode 0x5050 = some .mtPutReg from rfl, Ud.visitor,
    Tag.entryKind, Ud.ldSt, Ud.ldStRange, hseq, haddr, hlen]
  rfl

/-- A `GET_REG`: the same `insnSeq` keeps the entry open, and `AddUses(0, 1)` reads the whole of
def 1, so it appends a use of it and no partial use. -/
theorem dispatch_getReg (hseq : getInsnSeq .little buf cur = some 1)
    (haddr : getAddr .little .four buf cur = some 0) (hlen : getLength .little buf cur = some 13)
    (uses : List Nat) :
    (Ud.visitor .four .little buf false fuel doDisasm).dispatch i 0x4747 cur
        (rereadState tReg tMem primes uses) = .ok (rereadState tReg tMem primes (uses ++ [1])) := by
  simp only [Visitor.dispatch, show Tag.ofCode 0x4747 = some .mtGetReg from rfl, Ud.visitor,
    Tag.entryKind, Ud.ldSt, Ud.ldStRange, hseq, haddr, hlen]
  rfl

/-- A further `PUT_REG`: `AddDefs(0, 1)` erases the interval `[0, 1)` of the last def, which
the write covers, and maps it to a new def. -/
theorem dispatch_rewrite (hseq : getInsnSeq .little buf cur = some 1)
    (haddr : getAddr .little .four buf cur = some 0) (hlen : getLength .little buf cur = some 13)
    (old : List Def) :
    (Ud.visitor .four .little buf false fuel doDisasm).dispatch i 0x5050 cur
        (rewriteState tReg tMem primes old) =
      .ok (rewriteState tReg tMem primes (old ++ [⟨0, 1⟩])) := by
  simp only [Visitor.dispatch, show Tag.ofCode 0x5050 = some .mtPutReg from rfl, Ud.visitor,
    Tag.entryKind, Ud.ldSt, Ud.ldStRange, hseq, haddr, hlen]
  rfl

end Steps

section Loop

variable {n : Nat} (fuel : Nat) (doDisasm : List UInt8 → Nat → Option String)
  (tReg tMem : PartialUses) (primes : List Nat)

theorem visitOne_record {buf : List UInt8} {v : Visitor Ud} {cur i tag : Nat} {u u' : Ud}
    (htag : getTag .little buf cur = some tag) (hlen : getLength .little buf cur = some 13)
    (hin : cur + 16 ≤ buf.length) (hi : i + 1 < 2 ^ 64) (hd : v.dispatch i tag cur u = .ok u') :
    visitOne .little .four buf v 0 sizeMax ⟨cur, i⟩ u = .ok (⟨cur + 16, i + 1⟩, u') := by
  simp only [visitOne, htag, hlen, tlvFixedLength, show alignedLength .four 13 = 16 from rfl]
  rw [if_neg (by omega), if_neg (by omega), if_pos ⟨Nat.zero_le _, by unfold sizeMax; omega⟩, hd]
  simp only [Except.map, Nat.mod_eq_of_lt hi]

theorem visitOne_getReg {k : Nat} (hk : k < n) (hn : n < 2 ^ 63) (uses : List Nat) :
    visitOne .little .four (rereadTrace n)
        (Ud.visitor .four .little (rereadTrace n) false fuel doDisasm) 0 sizeMax
        ⟨24 + 16 * k, k + 1⟩ (rereadState tReg tMem primes uses) =
      .ok (⟨24 + 16 * (k + 1), k + 2⟩, rereadState tReg tMem primes (uses ++ [1])) := by
  obtain ⟨htag, hlen, hseq, haddr⟩ := rereadTrace_getReg hk
  rw [show 24 + 16 * (k + 1) = 24 + 16 * k + 16 by omega]
  exact visitOne_record htag hlen (by rw [length_rereadTrace]; omega) (by omega)
    (dispatch_getReg fuel _ doDisasm tReg tMem primes hseq haddr hlen uses)

theorem visitLoop_getRegs (hn : n < 2 ^ 63) :
    ∀ (m k loopFuel : Nat) (uses : List Nat), k + m = n → m < loopFuel →
      visitLoop .little .four (rereadTrace n)
          (Ud.visitor .four .little (rereadTrace n) false fuel doDisasm) 0 sizeMax loopFuel
          ⟨24 + 16 * k, k + 1⟩ (rereadState tReg tMem primes uses) =
        .ok (⟨24 + 16 * n, n + 1⟩, rereadState tReg tMem primes (uses ++ List.replicate m 1))
  | 0, k, loopFuel + 1, uses, hkm, _ => by
    rw [visitLoop, if_pos (by simp only [length_rereadTrace]; omega), List.replicate_zero,
      List.append_nil, show k = n by omega]
  | m + 1, k, loopFuel + 1, uses, hkm, hf => by
    rw [visitLoop, if_neg (by simp only [length_rereadTrace]; omega),
      visitOne_getReg fuel doDisasm tReg tMem primes (by omega) hn]
    simp only
    rw [visitLoop_getRegs hn m (k + 1) loopFuel _ (by omega : k + 1 + m = n)
      (by omega : m < loopFuel), List.append_assoc,
      List.singleton_append, ← List.replicate_succ]

theorem visitLoop_putRegs (hn : n < 2 ^ 63) :
    ∀ (m k loopFuel : Nat) (old : List Def), k + m = n → m < loopFuel →
      visitLoop .little .four (rewriteTrace n)
          (Ud.visitor .four .little (rewriteTrace n) false fuel doDisasm) 0 sizeMax loopFuel
          ⟨8 + 16 * k, k⟩ (rewriteState tReg tMem primes old) =
        .ok (⟨8 + 16 * n, n⟩,
          rewriteState tReg tMem primes (old ++ List.replicate m ⟨0, 1⟩))
  | 0, k, loopFuel + 1, old, hkm, _ => by
    rw [visitLoop, if_pos (by simp only [length_rewriteTrace]; omega), List.replicate_zero,
      List.append_nil, show k = n by omega]
  | m + 1, k, loopFuel + 1, old, hkm, hf => by
    obtain ⟨htag, hlen, hseq, haddr, -⟩ := rewriteTrace_putReg (show k < n by omega)
    rw [visitLoop, if_neg (by simp only [length_rewriteTrace]; omega),
      visitOne_record htag hlen (by rw [length_rewriteTrace]; omega) (by omega)
        (dispatch_rewrite fuel k doDisasm tReg tMem primes hseq haddr hlen old)]
    simp only
    rw [show 8 + 16 * k + 16 = 8 + 16 * (k + 1) by omega,
      visitLoop_putRegs hn m (k + 1) loopFuel _ (by omega) (by omega), List.append_assoc,
      List.singleton_append, ← List.replicate_succ]

end Loop

/-! ## The whole visit -/

/-- `VisitFile<Ud>` on a little-endian, 4-byte-word `EM_386` trace with a header of length 6:
with enough fuel both `reserve`s of `Ud::Init` return, and the visit is the `Flush` of the loop
from the seed state. -/
theorem udVisit_eq_flush_seed {buf : List UInt8} (h₈ : 8 ≤ buf.length)
    (hbuf : buf.length < 2 ^ 64) (hlen₀ : getLength .little buf 0 = some 6)
    (hmt : getMachineType .little buf = some 3) : ∃ F, ∀ fuel, F ≤ fuel →
      ∃ tReg tMem primes, ∀ (doDisasm : List UInt8 → Nat → Option String) (t' : TraceMm) (u' : Ud),
        visitLoop .little .four buf (Ud.visitor .four .little buf false fuel doDisasm) 0 sizeMax
            fuel ⟨8, 0⟩ (seedState tReg tMem primes) = .ok (t', u') →
          udVisit .little .four buf doDisasm false fuel initialPrimes 0 sizeMax = u'.flush false := by
  obtain ⟨F, hF⟩ := exists_primeFuel
  refine ⟨F, fun fuel hf => ?_⟩
  obtain ⟨tReg, p₁, h₁, hp₁⟩ := PartialUses.create_ok (hF fuel hf) (n := buf.length / 128 / 10)
    (by omega) goodCache_initialPrimes
  obtain ⟨tMem, p₂, h₂, -⟩ := PartialUses.create_ok (hF fuel hf) (n := buf.length / 128 / 20)
    (by omega) hp₁
  have hinit : TraceMm.init .little .four buf = .ok ⟨8, 0⟩ := by
    simp only [TraceMm.init, hlen₀, headerFixedLength, tlvFixedLength,
      show alignedLength .four 6 = 8 from rfl]
    rw [if_neg (by omega), if_neg (by omega)]
  exact ⟨tReg, tMem, p₂, fun _ _ _ hl =>
    udVisit_eq_flush hinit hmt (Ud.init_eq_seedState h₁ h₂) hl⟩

/-- `VisitFile<Ud>` on `rereadTrace n`: with enough fuel for the two `reserve`s of `Ud::Init` and
for the records, the builder completes with `n` uses of def 1, and `Flush` closes the
instruction's entry at `uint32_t(n)` uses. -/
theorem udVisit_rereadTrace {n : Nat} (hn : n < 2 ^ 40)
    (doDisasm : List UInt8 → Nat → Option String) : ∃ F, ∀ fuel, F ≤ fuel → ∃ u,
      udVisit .little .four (rereadTrace n) doDisasm false fuel initialPrimes 0 sizeMax = .ok u ∧
        u.regState.uses = List.replicate n 1 ∧
        u.trace = [⟨0, 0, 0, 0, 0, 0, 1, 0, 1⟩, ⟨1, 0, u32 n, 0, 0, 1, 2, 1, 1⟩] := by
  have hl := length_rereadTrace n
  obtain ⟨htag, hlen, hseq, haddr, hlen₀, hmt⟩ := rereadTrace_putReg n
  obtain ⟨F, hF⟩ := udVisit_eq_flush_seed (by omega) (by omega) hlen₀ hmt
  refine ⟨F + n + 2, fun fuel hf => ?_⟩
  obtain ⟨tReg, tMem, p, hv⟩ := hF fuel (by omega)
  obtain ⟨loopFuel, rfl⟩ : ∃ f, fuel = f + 1 := ⟨fuel - 1, by omega⟩
  have hloop : visitLoop .little .four (rereadTrace n)
      (Ud.visitor .four .little (rereadTrace n) false (loopFuel + 1) doDisasm) 0 sizeMax
      (loopFuel + 1) ⟨8, 0⟩ (seedState tReg tMem p) =
      .ok (⟨24 + 16 * n, n + 1⟩, rereadState tReg tMem p ([] ++ List.replicate n 1)) := by
    rw [visitLoop, if_neg (by simp only [hl]; omega),
      visitOne_record htag hlen (by omega) (by omega)
        (dispatch_putReg _ _ doDisasm tReg tMem p hseq haddr hlen)]
    exact visitLoop_getRegs _ doDisasm tReg tMem p (by omega) n 0 loopFuel [] (by omega)
      (by omega)
  rw [hv doDisasm _ _ hloop]
  refine ⟨_, rfl, rfl, ?_⟩
  simp [rereadState, Ud.counts, InsnInTrace.opening, InsnInTrace.close]

/-- `2 ^ 32` reads of one register byte: the builder completes with `2 ^ 32` uses, but the entry
that made them has the use interval `[0, 0)`, like the seed entry, so use 0 lies in no entry's
interval. -/
theorem udVisit_use_index_wraps :
    ∃ fuel u, udVisit .little .four (rereadTrace (2 ^ 32)) (fun _ _ => none) false fuel
        initialPrimes 0 sizeMax = .ok u ∧
      u.regState.uses.length = 2 ^ 32 ∧
      u.trace = [⟨0, 0, 0, 0, 0, 0, 1, 0, 1⟩, ⟨1, 0, 0, 0, 0, 1, 2, 1, 1⟩] ∧
      ∀ t ∈ u.trace, ¬ (t.regUseStartIndex ≤ 0 ∧ 0 < t.regUseEndIndex) := by
  obtain ⟨F, hF⟩ := udVisit_rereadTrace (n := 2 ^ 32) (by decide) fun _ _ => none
  obtain ⟨u, h, huses, htrace⟩ := hF F le_rfl
  refine ⟨F, u, h, by rw [huses, List.length_replicate], by rw [htrace]; rfl, ?_⟩
  rw [htrace]
  decide

/-- `VisitFile<Ud>` on `rewriteTrace n`: with enough fuel the builder completes with the catch-all
def and `n` defs of `[0, 1)`, the address space maps `[0, 1)` to def index `uint32_t(n)`, and
`Flush` closes the instruction's entry at `uint32_t(n + 1)` defs. -/
theorem udVisit_rewriteTrace {n : Nat} (hn₁ : 1 ≤ n) (hn : n < 2 ^ 40)
    (doDisasm : List UInt8 → Nat → Option String) : ∃ F, ∀ fuel, F ≤ fuel → ∃ u,
      udVisit .little .four (rewriteTrace n) doDisasm false fuel initialPrimes 0 sizeMax = .ok u ∧
        u.regState.defs = ⟨0, WordSize.four.max⟩ :: List.replicate n ⟨0, 1⟩ ∧
        u.regState.addressSpace = [(1, ⟨0, u32 n⟩), (WordSize.four.max, ⟨1, 0⟩)] ∧
        u.trace = [⟨0, 0, 0, 0, 0, 0, 1, 0, 1⟩, ⟨1, 0, 0, 0, 0, 1, u32 (n + 1), 1, 1⟩] := by
  have hl := length_rewriteTrace n
  obtain ⟨htag, hlen, hseq, haddr, hlen₀, hmt⟩ := rewriteTrace_putReg (show 0 < n by omega)
  obtain ⟨F, hF⟩ := udVisit_eq_flush_seed (by omega) (by omega) hlen₀ hmt
  refine ⟨F + n + 2, fun fuel hf => ?_⟩
  obtain ⟨tReg, tMem, p, hv⟩ := hF fuel (by omega)
  obtain ⟨loopFuel, rfl⟩ : ∃ f, fuel = f + 1 := ⟨fuel - 1, by omega⟩
  have hloop : visitLoop .little .four (rewriteTrace n)
      (Ud.visitor .four .little (rewriteTrace n) false (loopFuel + 1) doDisasm) 0 sizeMax
      (loopFuel + 1) ⟨8, 0⟩ (seedState tReg tMem p) =
      .ok (⟨8 + 16 * n, n⟩, rewriteState tReg tMem p
        ([⟨0, WordSize.four.max⟩] ++ List.replicate (n - 1) ⟨0, 1⟩)) := by
    rw [visitLoop, if_neg (by simp only [hl]; omega),
      visitOne_record htag hlen (by omega) (by omega)
        (dispatch_putReg _ _ doDisasm tReg tMem p hseq haddr hlen), rereadState_nil]
    exact visitLoop_putRegs _ doDisasm tReg tMem p (by omega) (n - 1) 1 loopFuel _ (by omega)
      (by omega)
  rw [hv doDisasm _ _ hloop]
  have hsucc : n - 1 + 1 = n := Nat.sub_add_cancel hn₁
  have hdefs : [⟨0, WordSize.four.max⟩] ++ List.replicate (n - 1) ⟨0, 1⟩ ++ [⟨0, 1⟩] =
      (⟨0, WordSize.four.max⟩ :: List.replicate n ⟨0, 1⟩ : List Def) := by
    rw [List.append_assoc, ← List.replicate_succ', hsucc, List.singleton_append]
  refine ⟨_, rfl, hdefs, by simp [rewriteState, hsucc], ?_⟩
  simp [rewriteState, Ud.counts, InsnInTrace.opening, InsnInTrace.close, hsucc]

/-- `2 ^ 32` writes of one register byte: the builder completes with the catch-all def and
`2 ^ 32` more, but the address space maps the byte to def index 0, the catch-all, in place of
def `2 ^ 32` that wrote it last, and the entry that made the defs has the def interval `[1, 1)`. -/
theorem udVisit_def_index_wraps :
    ∃ fuel u, udVisit .little .four (rewriteTrace (2 ^ 32)) (fun _ _ => none) false fuel
        initialPrimes 0 sizeMax = .ok u ∧
      u.regState.defs.length = 2 ^ 32 + 1 ∧ lastDef u.regState.defs 0 = 2 ^ 32 ∧
      u.regState.addressSpace = [(1, ⟨0, 0⟩), (WordSize.four.max, ⟨1, 0⟩)] ∧
      u.trace = [⟨0, 0, 0, 0, 0, 0, 1, 0, 1⟩, ⟨1, 0, 0, 0, 0, 1, 1, 1, 1⟩] := by
  obtain ⟨F, hF⟩ := udVisit_rewriteTrace (n := 2 ^ 32) (by decide) (by decide) fun _ _ => none
  obtain ⟨u, h, hdefs, has, htrace⟩ := hF F le_rfl
  refine ⟨F, u, h, by rw [hdefs, List.length_cons, List.length_replicate], ?_, has, htrace⟩
  rw [hdefs, show List.replicate (2 ^ 32) (⟨0, 1⟩ : Def) = List.replicate (2 ^ 32 - 1) ⟨0, 1⟩ ++ [⟨0, 1⟩]
    from List.replicate_succ' _ _, ← List.cons_append, lastDef_append, if_pos ⟨le_rfl, one_pos⟩,
    List.length_cons, List.length_replicate]
  rfl

end Memtrace
