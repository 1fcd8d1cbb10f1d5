import Memtrace.Ud.Refinement

/-! # `ResolveUse`

The builder records, for every dynamic instruction, an `InsnInTrace`: its static instruction and,
in each address space, the index ranges `[start, end)` of the uses and defs it made. `ResolveUse`
answers, for a use, the range it reads and the trace entry that made the def it reads: the range
is the use's partial-use entry when `FindPartialUse` finds one and the def otherwise, and the
entry is found by `std::upper_bound` over the trace on a start def index, then one step back.

* `upperBound` is the binary search of libstdc++'s `std::upper_bound`; on a range where the
  comparison fails up to `m` and holds from `m` on it returns `m` (`upperBound_eq`).
* `UdState.resolveUse` is `UdState<W>::ResolveUse`; on a valid table it returns the range
  `effectiveRange` names and the last entry whose start def index is at most the def index
  (`resolveUse_eq`).
-/

namespace Memtrace

set_option autoImplicit false

/-- `InsnInTrace`. -/
structure InsnInTrace where
  codeIndex : Nat
  regUseStartIndex : Nat
  regUseEndIndex : Nat
  memUseStartIndex : Nat
  memUseEndIndex : Nat
  regDefStartIndex : Nat
  regDefEndIndex : Nat
  memDefStartIndex : Nat
  memDefEndIndex : Nat
  deriving DecidableEq, Repr, Inhabited

/-- The two address spaces of `Ud`, `regState_` and `memState_`. -/
inductive Space
  | reg
  | mem
  deriving DecidableEq, Repr

namespace InsnInTrace

/-- `&InsnInTrace::regUseStartIndex` or `&InsnInTrace::memUseStartIndex`. -/
def useStartIndex (t : InsnInTrace) : Space → Nat
  | .reg => t.regUseStartIndex
  | .mem => t.memUseStartIndex

/-- `&InsnInTrace::regUseEndIndex` or `&InsnInTrace::memUseEndIndex`. -/
def useEndIndex (t : InsnInTrace) : Space → Nat
  | .reg => t.regUseEndIndex
  | .mem => t.memUseEndIndex

/-- `&InsnInTrace::regDefStartIndex` or `&InsnInTrace::memDefStartIndex`. -/
def defStartIndex (t : InsnInTrace) : Space → Nat
  | .reg => t.regDefStartIndex
  | .mem => t.memDefStartIndex

/-- `&InsnInTrace::regDefEndIndex` or `&InsnInTrace::memDefEndIndex`. -/
def defEndIndex (t : InsnInTrace) : Space → Nat
  | .reg => t.regDefEndIndex
  | .mem => t.memDefEndIndex

end InsnInTrace

/-! ## `std::upper_bound` -/

/-- The loop of libstdc++'s `std::upper_bound` over `[first, first + len)`, with `p i` the
comparison `comp(value, *(begin + i))`; `fuel` bounds the halvings. -/
def upperBoundLoop (p : Nat → Bool) : Nat → Nat → Nat → Nat
  | 0, first, _ => first
  | fuel + 1, first, len =>
    if len = 0 then first
    else if p (first + len / 2) then upperBoundLoop p fuel first (len / 2)
    else upperBoundLoop p fuel (first + len / 2 + 1) (len - len / 2 - 1)

/-- `std::upper_bound(begin, begin + n, value, comp)`, as an index. -/
def upperBound (p : Nat → Bool) (n : Nat) : Nat := upperBoundLoop p n 0 n

/-- While the comparison fails on `[first, m)` and holds on `[m, first + len)`, every halving keeps
`m` inside the range it searches. -/
theorem upperBoundLoop_eq {p : Nat → Bool} :
    ∀ {fuel first len m : Nat}, len ≤ fuel → first ≤ m → m ≤ first + len →
      (∀ i, first ≤ i → i < m → p i = false) → (∀ i, m ≤ i → i < first + len → p i = true) →
      upperBoundLoop p fuel first len = m
  | 0, first, len, m, hf, h₁, h₂, _, _ => by simp only [upperBoundLoop]; omega
  | fuel + 1, first, len, m, hf, h₁, h₂, hlo, hhi => by
    unfold upperBoundLoop
    split_ifs with h0 hp
    · omega
    · -- the middle holds: `m` is in the lower half
      have hm : m ≤ first + len / 2 := by
        by_contra hc
        have := hlo (first + len / 2) (by omega) (by omega)
        rw [hp] at this; cases this
      exact upperBoundLoop_eq (by omega) h₁ hm hlo fun i hi₁ hi₂ => hhi i hi₁ (by omega)
    · -- the middle fails: `m` is in the upper half
      have hm : first + len / 2 + 1 ≤ m := by
        by_contra hc
        exact hp (hhi (first + len / 2) (by omega) (by omega))
      exact upperBoundLoop_eq (by omega) hm (by omega) (fun i hi₁ hi₂ => hlo i (by omega) hi₂)
        fun i hi₁ hi₂ => hhi i hi₁ (by omega)

theorem upperBound_eq {p : Nat → Bool} {n m : Nat} (hm : m ≤ n)
    (hlo : ∀ i < m, p i = false) (hhi : ∀ i, m ≤ i → i < n → p i = true) : upperBound p n = m :=
  upperBoundLoop_eq le_rfl (Nat.zero_le m) (by omega) (fun i _ hi => hlo i hi)
    fun i hi₁ hi₂ => hhi i hi₁ (by omega)

example : upperBound (fun i => decide (3 < [0, 2, 2, 5, 9].getD i 0)) 5 = 3 := by decide

/-! ## `ResolveUse` -/

namespace UdState

/-- `UdState<W>::ResolveUse(useIndex, trace, startDefIndex)`: the range the use reads (the slot
`FindPartialUse` stops at when it holds the use, else the def the use names) and the index of the
trace entry before the first one whose start def index is above the def index. An index outside
`uses_` or `defs_`, and a step back from the first entry, are faults. -/
def resolveUse (s : UdState) (trace : List InsnInTrace) (sp : Space) (useIndex : Nat) :
    Except Failure (Def × Nat) :=
  match s.uses[useIndex]? with
  | none => .error .fault
  | some defIndex =>
    match PartialUses.findPartialUse s.partialUses.entries useIndex with
    | .error err => .error err
    | .ok i =>
      let partialUse := PartialUses.slotAt s.partialUses.entries i
      let def? := if partialUse.first = emptyKey then s.defs[defIndex]? else some partialUse.second
      match def? with
      | none => .error .fault
      | some d =>
        match upperBound (fun j => decide (defIndex < (trace.getD j default).defStartIndex sp))
            trace.length with
        | 0 => .error .fault
        | j + 1 => .ok (d, u32 j)

/-- The slot `FindPartialUse` stops at holds the key exactly when the table, read as a map, has
it. -/
theorem lookup_of_findPartialUse {t : PartialUses} {k i : Nat} (hk : k ≠ emptyKey)
    (h : PartialUses.findPartialUse t.entries k = .ok i) :
    t.lookup k = if (PartialUses.slotAt t.entries i).first = emptyKey then none
      else some (PartialUses.slotAt t.entries i).second := by
  have hs := (PartialUses.findPartialUse_spec h).2
  simp only [PartialUses.stopsAt, Bool.or_eq_true, decide_eq_true_eq] at hs
  simp only [PartialUses.lookup, PartialUses.find_eq h]
  rcases hs with hs | hs
  · rw [if_pos hs, if_neg (hs ▸ hk)]
  · rw [if_neg (by rw [hs]; exact Ne.symm hk), if_pos hs]

/-- On a valid table, `ResolveUse` returns the use's effective range and, when the entries `[0, m)`
start at or before the def index and the later ones after it, the entry `m - 1`. -/
theorem resolveUse_eq {s : UdState} {trace : List InsnInTrace} {sp : Space} {u d m : Nat}
    {r : Def} (hv : s.partialUses.Valid) (hu : s.uses[u]? = some d) (hk : u ≠ emptyKey)
    (hr : s.effectiveRange u = some r) (hm₀ : 0 < m) (hm : m ≤ trace.length)
    (hlo : ∀ i < m, (trace.getD i default).defStartIndex sp ≤ d)
    (hhi : ∀ i, m ≤ i → i < trace.length → d < (trace.getD i default).defStartIndex sp) :
    s.resolveUse trace sp u = .ok (r, u32 (m - 1)) := by
  obtain ⟨i, hi⟩ := PartialUses.findPartialUse_ok_of_empty (k := u) (hv.load_eq ▸ hv.load_lt)
  have hl := lookup_of_findPartialUse hk hi
  have hub : upperBound (fun j => decide (d < (trace.getD j default).defStartIndex sp))
      trace.length = m :=
    upperBound_eq hm (fun j hj => by simpa using hlo j hj) fun j hj₁ hj₂ => by
      simpa using hhi j hj₁ hj₂
  unfold effectiveRange at hr
  rw [hu, hl] at hr
  obtain ⟨m', rfl⟩ : ∃ m', m = m' + 1 := ⟨m - 1, by omega⟩
  simp only [resolveUse, hu, hi, hub, Nat.add_sub_cancel]
  split_ifs at hr ⊢ <;> simp only [Option.some.injEq] at hr <;> simp [hr]

end UdState

end Memtrace
