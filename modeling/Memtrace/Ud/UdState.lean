import Memtrace.Ud.AddressSpace
import Memtrace.Ud.PartialUses

/-! # The use-def state of one address space

`UdState<W>` follows one address space, the registers or the memory, through a trace: `defs_` is
every write, `uses_` the def each read reads, `partialUses_` the part of the def a read reads
when that is not the whole def, and `addressSpace_` the live-writer map.

* `addDef`, `addUses` and `addDefs` are `AddDef`, `AddUses` and `AddDefs`, computed in `W`: the end
  of a range is `startAddr + size` and the key of the first affected entry is `startAddr + 1`,
  both modulo `2 ^ (8 * sizeof(W))`; use and def indices are `uint32_t` casts of vector sizes.
* `addDefs` returns its `int` with the state after the call; it counts the affected entries in a
  `uint32_t` and copies them into an array of `kMaxAffectedCount`.
* `UdCall` is a call of `AddDefs` or `AddUses`, `runCalls` runs calls from a state, and `seed` is
  the state after `Init` and the catch-all `AddDef(0, max)` of `Ud::Init`.

Two runs close the module. A size-0 write on the seed leaves bytes `[0, 5)` in no interval
(`addDefs_of_size_zero_uncovers`); 32 size-0 writes leave entries that no range meets but that
`AddDefs` still counts (`addDefs_counts_empty_entries`). `runCalls_addDefs_zero_one` is the run of
`AddDefs(0, 1)` that wraps the def index stored in the map.
-/

namespace Memtrace

set_option autoImplicit false

/-- `UdState<W>`. -/
structure UdState where
  uses : List Nat
  partialUses : PartialUses
  defs : List Def
  addressSpace : AddressSpace

/-- `EINVAL`. -/
def EINVAL : Int := 22

/-- A call of `AddDefs` or `AddUses`, as the record handlers of `Ud` make them. -/
inductive UdCall
  | addDefs (startAddr size : Nat)
  | addUses (startAddr size : Nat)
  deriving DecidableEq, Repr

namespace UdState

variable (ws : WordSize)

/-- `UdState::Init` in a create mode: empty vectors, an empty map, and the partial-use table
reserved for `expectedPartialUseCount` uses. The `reserve` of `uses_` and `defs_` only sets their
capacities. -/
def init (fuel : Nat) (primes : List Nat) (expectedPartialUseCount : Nat) :
    Except Failure (UdState × List Nat) :=
  match PartialUses.create fuel primes (some expectedPartialUseCount) with
  | .error e => .error e
  | .ok (t, primes) => .ok (⟨[], t, [], []⟩, primes)

/-- `UdState::AddDef`. -/
def addDef (s : UdState) (startAddr endAddr : Nat) : UdState :=
  { s with
    defs := s.defs ++ [⟨startAddr, endAddr⟩]
    addressSpace := AddressSpace.mapSet s.addressSpace endAddr ⟨startAddr, u32 s.defs.length⟩ }

/-- One pass of the loop of `AddUses`: a use of the entry's def, and a partial use when the part
of the entry that the read covers is not the whole def. -/
def addUse (fuel startAddr endAddr : Nat) (entry : Nat × EntryValue) (s : UdState)
    (primes : List Nat) : Except Failure (UdState × List Nat) :=
  let useIndex := u32 s.uses.length
  let s := { s with uses := s.uses ++ [entry.2.defIndex] }
  match s.defs.get? entry.2.defIndex with
  | none => .error .fault
  | some d =>
    let maxStartAddr := max startAddr entry.2.startAddr
    let minEndAddr := min endAddr entry.1
    if d.startAddr ≠ maxStartAddr ∨ d.endAddr ≠ minEndAddr then
      match s.partialUses.set fuel primes useIndex ⟨maxStartAddr, minEndAddr⟩ with
      | .error e => .error e
      | .ok (t, primes) => .ok ({ s with partialUses := t }, primes)
    else .ok (s, primes)

/-- The loop of `AddUses` over the affected entries. -/
def addUsesLoop (fuel startAddr endAddr : Nat) :
    List (Nat × EntryValue) → UdState → List Nat → Except Failure (UdState × List Nat)
  | [], s, primes => .ok (s, primes)
  | entry :: entries, s, primes =>
    match addUse fuel startAddr endAddr entry s primes with
    | .error e => .error e
    | .ok (s, primes) => addUsesLoop fuel startAddr endAddr entries s primes

/-- `UdState::AddUses(startAddr, size)`. -/
def addUses (fuel : Nat) (s : UdState) (primes : List Nat) (startAddr size : Nat) :
    Except Failure (UdState × List Nat) :=
  let endAddr := ws.add startAddr size
  addUsesLoop fuel startAddr endAddr
    (AddressSpace.affected s.addressSpace (ws.add startAddr 1) endAddr) s primes

/-- `kMaxAffectedCount`. -/
def kMaxAffectedCount : Nat := 32

/-- `UdState::AddDefs(startAddr, size)`: the value it returns and the state after the call. The
count of affected entries is a `uint32_t`; copying more than `kMaxAffectedCount` entries into
`affected` writes past the array. -/
def addDefs (s : UdState) (startAddr size : Nat) : Except Failure (Int × UdState) :=
  let endAddr := ws.add startAddr size
  let key := ws.add startAddr 1
  let affected := AddressSpace.affected s.addressSpace key endAddr
  let affectedCount := u32 affected.length
  if affectedCount > kMaxAffectedCount then .ok (-EINVAL, s)
  else if affected.length > kMaxAffectedCount then .error .fault
  else
    let addressSpace := affected.foldl (AddressSpace.reinsert startAddr endAddr)
      (AddressSpace.eraseAffected s.addressSpace key endAddr)
    .ok (0, addDef { s with addressSpace } startAddr endAddr)

/-- One call. An `AddDefs` that does not return 0 stops the run with `-EINVAL`, as the handlers
of `Ud` pass its value on. -/
def call (fuel : Nat) (s : UdState) (primes : List Nat) : UdCall →
    Except Failure (UdState × List Nat)
  | .addDefs startAddr size =>
    match addDefs ws s startAddr size with
    | .error e => .error e
    | .ok (r, s) => if r = 0 then .ok (s, primes) else .error .einval
  | .addUses startAddr size => addUses ws fuel s primes startAddr size

/-- Calls in order. -/
def runCalls (fuel : Nat) : UdState → List Nat → List UdCall → Except Failure (UdState × List Nat)
  | s, primes, [] => .ok (s, primes)
  | s, primes, c :: calls =>
    match call ws fuel s primes c with
    | .error e => .error e
    | .ok (s, primes) => runCalls fuel s primes calls

/-- The state after `Init` and the catch-all `AddDef(0, std::numeric_limits<W>::max())` of
`Ud::Init`. -/
def seed (fuel : Nat) (primes : List Nat) (expectedPartialUseCount : Nat) :
    Except Failure (UdState × List Nat) :=
  match init fuel primes expectedPartialUseCount with
  | .error e => .error e
  | .ok (s, primes) => .ok (s.addDef 0 ws.max, primes)

/-! ## Writes of size zero -/

/-- `AddDefs(5, 0)` on the seed splits the catch-all at 5, then the empty def `[5, 5)` takes the
key 5 of the lower part: bytes `[0, 5)` are in no interval any more. -/
theorem addDefs_of_size_zero_uncovers :
    ∃ s primes s', seed .four 2 initialPrimes 0 = .ok (s, primes) ∧
      addDefs .four s 5 0 = .ok (0, s') ∧
      s'.addressSpace = [(5, ⟨5, 1⟩), (2 ^ 32 - 1, ⟨5, 0⟩)] ∧
      ∀ p ∈ s'.addressSpace, ¬ (p.2.startAddr ≤ 0 ∧ 0 < p.1) :=
  ⟨_, _, _, rfl, rfl, rfl, by decide⟩

/-- After the size-0 writes `AddDefs(i, 0)` for `i = 1, ..., 32`, the map holds 32 empty entries
`[i, i)` below `[32, max)`. `AddDefs(0, 33)` counts 33 affected entries and returns `-EINVAL`,
though a single interval meets `[0, 33)`. -/
theorem addDefs_counts_empty_entries :
    ∃ s primes s₁ primes₁, seed .four 2 initialPrimes 0 = .ok (s, primes) ∧
      runCalls .four 2 s primes ((List.range 32).map fun i => .addDefs (i + 1) 0) =
        .ok (s₁, primes₁) ∧
      addDefs .four s₁ 0 33 = .ok (-EINVAL, s₁) ∧
      (s₁.addressSpace.filter (AddressSpace.meets 0 33)).length = 1 :=
  ⟨_, _, _, _, rfl, rfl, rfl, by decide⟩

/-! ## Wrapping def indices -/

/-- `AddDefs(0, 1)` when `[0, 1)` is an interval of its own: the outer overlap erases it and the
new def takes its key, under the index `uint32_t(defs_.size())`. -/
theorem addDefs_zero_one {uses : List Nat} {t : PartialUses} {defs : List Def} {d : Nat} :
    addDefs .four ⟨uses, t, defs, [(1, ⟨0, d⟩), (2 ^ 32 - 1, ⟨1, 0⟩)]⟩ 0 1 =
      .ok (0, ⟨uses, t, defs ++ [⟨0, 1⟩], [(1, ⟨0, u32 defs.length⟩), (2 ^ 32 - 1, ⟨1, 0⟩)]⟩) :=
  rfl

theorem runCalls_addDefs_zero_one (fuel : Nat) {uses : List Nat} {t : PartialUses}
    {primes : List Nat} :
    ∀ (k : Nat) (defs : List Def) (d : Nat),
      runCalls .four fuel ⟨uses, t, defs, [(1, ⟨0, d⟩), (2 ^ 32 - 1, ⟨1, 0⟩)]⟩ primes
          (List.replicate (k + 1) (.addDefs 0 1)) =
        .ok (⟨uses, t, defs ++ List.replicate (k + 1) ⟨0, 1⟩,
          [(1, ⟨0, u32 (defs.length + k)⟩), (2 ^ 32 - 1, ⟨1, 0⟩)]⟩, primes)
  | 0, defs, d => by simp only [List.replicate, runCalls, call, addDefs_zero_one]; rfl
  | k + 1, defs, d => by
    rw [List.replicate_succ, runCalls, call, addDefs_zero_one]
    simp only [if_true]
    rw [runCalls_addDefs_zero_one fuel k, List.append_assoc, List.singleton_append,
      ← List.replicate_succ, List.length_append, List.length_singleton,
      show defs.length + 1 + k = defs.length + (k + 1) by omega]

theorem seed_eq {fuel : Nat} {primes : List Nat} {n : Nat} {s : UdState} {primes' : List Nat}
    (h : seed ws fuel primes n = .ok (s, primes')) :
    ∃ t, PartialUses.create fuel primes (some n) = .ok (t, primes') ∧
      s = ⟨[], t, [⟨0, ws.max⟩], [(ws.max, ⟨0, 0⟩)]⟩ := by
  unfold seed init at h
  split at h
  · cases h
  · rename_i t p ht
    split at ht
    · cases ht
    · rename_i t' p' ht'
      cases ht; cases h
      exact ⟨t', ht', rfl⟩

end UdState

end Memtrace
