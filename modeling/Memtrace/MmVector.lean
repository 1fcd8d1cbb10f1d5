import Memtrace.Ud.PartialUses

/-! # `MmVector<T>`: a vector in a mapped file

`MmVector<T>` keeps a `size_t size` and then `size` records `T` in a file that it maps; the file
and the mapping have `kOverhead + capacity_ * sizeof(T)` bytes. `reserve` resizes and remaps them;
`push_back`, `emplace_back`, `insert` and `resize` first `Grow`, which reserves more, in steps of
`kGrowAmount = 1 GiB` rounded by `GetAligned`, then write the records.

* `Layout` is what an instantiation fixes, `sizeof(T)` and `kOverhead`; `MmVector α` is the state:
  the records `[0, size)`, `capacity_`, and the number of bytes mapped.
* `getAligned`, `reserve`, `grow`, `pushBack`, `emplaceBack`, `insert` and `resize` compute in
  `size_t`; a record written past the mapping is a fault. The failures of `ftruncate` and
  `mremap`, thrown as `std::bad_alloc`, are left out: the model follows the calls that succeed.
* `MmCall` is a call, `MmCall.apply` what it does to the records as a list operation, and `step`
  runs one call; `Reachable` is every state a sequence of calls reaches from `InitCreated` or
  `InitOpened`.
* `step_capacity_le`: no call shrinks the capacity. `step_spec`: from a state with `Inv` (the
  records fit in the capacity, and the mapping has exactly `kOverhead + capacity_ * sizeof(T)`
  bytes), a call whose requested size, with one growth step, fits in `size_t` succeeds, applies its
  list operation and keeps `Inv`, when `sizeof(T)` is at most `kGrowAmount`.
* `resize_aligned_wraps`: near the top of `size_t` the sum in `GetAligned` wraps, `Grow(0)`
  reserves nothing, and `resize` writes past the mapping although `kOverhead + n * sizeof(T)`
  fits.
-/

namespace Memtrace

set_option autoImplicit false

/-- What an instantiation `MmVector<T>` fixes: `sizeof(T)`, never 0, and `kOverhead`, the offset of
`entries` in `Storage`, a `size_t`. -/
structure Layout where
  elemSize : Nat
  kOverhead : Nat
  elemSize_pos : 0 < elemSize
  kOverhead_lt : kOverhead < 2 ^ 64

/-- `kGrowAmount`. -/
def kGrowAmount : Nat := 1024 * 1024 * 1024

theorem kGrowAmount_eq : kGrowAmount = 2 ^ 30 := rfl

/-- `GetAligned<size_t>(pos, n)`: `(pos + (n - 1)) & ~(n - 1)` in `uint64_t`. -/
def getAligned (pos n : Nat) : Nat :=
  let m := (n + 2 ^ 64 - 1) % 2 ^ 64
  (pos + m) % 2 ^ 64 &&& (2 ^ 64 - 1 - m)

/-- The state of an `MmVector<T>`: the records `storage_->entries[0, storage_->size)`,
`capacity_`, and the number of bytes of the file that are mapped. -/
structure MmVector (α : Type) where
  entries : List α
  capacity : Nat
  mapped : Nat

/-- A call; `insert xs` is `insert(end(), first, last)` with `[first, last)` holding `xs`. -/
inductive MmCall (α : Type)
  | reserve (n : Nat)
  | pushBack (val : α)
  | emplaceBack
  | insert (xs : List α)
  | resize (n : Nat) (val : α)

namespace MmVector

variable {α : Type} (L : Layout)

/-- `InitCreated()`: the file is cut to `kOverhead` bytes and mapped, `size` is 0, and `capacity_`
keeps the 0 of the constructor. -/
def initCreated : MmVector α := ⟨[], 0, L.kOverhead⟩

/-- `InitOpened()` on a file holding the records `xs`: `kOverhead + size * sizeof(T)` bytes are
mapped, in `size_t`, and `capacity_` is `size`. -/
def initOpened (xs : List α) : MmVector α :=
  ⟨xs, xs.length, (L.kOverhead + xs.length * L.elemSize) % 2 ^ 64⟩

/-- `reserve(n)`: past the capacity, the file and the mapping grow to
`kOverhead + n * sizeof(T)` bytes, in `size_t`. -/
def reserve (v : MmVector α) (n : Nat) : MmVector α :=
  if n ≤ v.capacity then v
  else { v with capacity := n, mapped := (L.kOverhead + n * L.elemSize) % 2 ^ 64 }

/-- `Grow(bytes)`: `reserve(capacity_ + bytes / sizeof(T))`. -/
def grow (v : MmVector α) (bytes : Nat) : MmVector α :=
  reserve L v ((v.capacity + bytes / L.elemSize) % 2 ^ 64)

/-- `if (n > capacity_) Grow(GetAligned((n - capacity_) * sizeof(T), kGrowAmount))`, the growth
step of `insert` and `resize`. -/
def growFor (v : MmVector α) (n : Nat) : MmVector α :=
  if n > v.capacity then
    grow L v (getAligned ((n - v.capacity) * L.elemSize % 2 ^ 64) kGrowAmount)
  else v

/-- `storage_->entries[i] = x`, or a placement `new` there: the record must lie inside the
mapping. -/
def writeEntry (v : MmVector α) (i : Nat) (x : α) : Except Failure (MmVector α) :=
  if L.kOverhead + (i + 1) * L.elemSize ≤ v.mapped then
    .ok { v with entries := v.entries.take i ++ x :: v.entries.drop (i + 1) }
  else .error .fault

/-- The loops of `insert` and `resize`: the records `xs` written from position `i` on. -/
def writeAll : MmVector α → Nat → List α → Except Failure (MmVector α)
  | v, _, [] => .ok v
  | v, i, x :: xs =>
    match writeEntry L v i x with
    | .error e => .error e
    | .ok v => writeAll v (i + 1) xs

/-- `push_back(val)`. -/
def pushBack (v : MmVector α) (val : α) : Except Failure (MmVector α) :=
  let v := if (v.entries.length + 1) % 2 ^ 64 > v.capacity then grow L v kGrowAmount else v
  writeEntry L v v.entries.length val

/-- `emplace_back()`: `push_back` of a value-initialised `T()`. -/
def emplaceBack [Inhabited α] (v : MmVector α) : Except Failure (MmVector α) :=
  pushBack L v default

/-- `insert(begin() + i, first, last)` with `[first, last)` holding `xs`; the records written
from `i` on make `size` the larger of `size` and `i + n`. -/
def insert (v : MmVector α) (i : Nat) (xs : List α) : Except Failure (MmVector α) :=
  writeAll L (growFor L v (i + xs.length)) i xs

/-- `resize(n, val)`: the records from `size` up to `n` are constructed from `val`, then `size`
becomes `n`. -/
def resize (v : MmVector α) (n : Nat) (val : α) : Except Failure (MmVector α) :=
  let v := growFor L v n
  match writeAll L v v.entries.length (List.replicate (n - v.entries.length) val) with
  | .error e => .error e
  | .ok v => .ok { v with entries := v.entries.take n }

/-- One call. -/
def step [Inhabited α] (v : MmVector α) : MmCall α → Except Failure (MmVector α)
  | .reserve n => .ok (reserve L v n)
  | .pushBack val => pushBack L v val
  | .emplaceBack => emplaceBack L v
  | .insert xs => insert L v v.entries.length xs
  | .resize n val => resize L v n val

end MmVector

namespace MmCall

variable {α : Type} [Inhabited α]

/-- What a call does to the records, as a list operation. -/
def apply (l : List α) : MmCall α → List α
  | .reserve _ => l
  | .pushBack val => l ++ [val]
  | .emplaceBack => l ++ [default]
  | .insert xs => l ++ xs
  | .resize n val => if n ≤ l.length then l.take n else l ++ List.replicate (n - l.length) val

/-- The number of records a call on the records `l` asks room for. -/
def demand (l : List α) : MmCall α → Nat
  | .reserve n => n
  | .pushBack _ | .emplaceBack => l.length + 1
  | .insert xs => l.length + xs.length
  | .resize n _ => n

end MmCall

namespace MmVector

variable {α : Type} (L : Layout)

/-- The invariant of an `MmVector`: the records fit in the capacity, and the mapping has exactly
`kOverhead + capacity_ * sizeof(T)` bytes, which fits in `size_t`. -/
structure Inv (v : MmVector α) : Prop where
  size_le : v.entries.length ≤ v.capacity
  mapped_eq : v.mapped = L.kOverhead + v.capacity * L.elemSize
  mapped_lt : L.kOverhead + v.capacity * L.elemSize < 2 ^ 64

/-- A call on the records `l` fits when the bytes of the records it asks room for, with one more
growth step, fit in `size_t`. -/
def Fits [Inhabited α] (l : List α) (c : MmCall α) : Prop :=
  L.kOverhead + c.demand l * L.elemSize + kGrowAmount ≤ 2 ^ 64

/-- The states a sequence of fitting calls reaches from `InitCreated`, or from `InitOpened` on a
file whose byte size fits in `size_t`. -/
inductive Reachable [Inhabited α] : MmVector α → Prop
  | created : Reachable (initCreated L)
  | opened (xs : List α) : L.kOverhead + xs.length * L.elemSize < 2 ^ 64 →
      Reachable (initOpened L xs)
  | step {v v' : MmVector α} {c : MmCall α} : Reachable v → Fits L v.entries c →
      step L v c = .ok v' → Reachable v'

end MmVector

/-! ## `GetAligned` -/

theorem and_two_pow_sub_two_pow {x k w : Nat} (hk : k ≤ w) (hx : x < 2 ^ w) :
    x &&& (2 ^ w - 2 ^ k) = x / 2 ^ k * 2 ^ k := by
  have hm : 2 ^ w - 2 ^ k = (2 ^ (w - k) - 1) <<< k := by
    rw [Nat.shiftLeft_eq, Nat.sub_mul, ← Nat.pow_add, Nat.sub_add_cancel hk, Nat.one_mul]
  rw [hm, ← Nat.shiftRight_eq_div_pow, ← Nat.shiftLeft_eq]
  refine Nat.eq_of_testBit_eq fun i => ?_
  simp only [Nat.testBit_and, Nat.testBit_shiftLeft, Nat.testBit_shiftRight,
    Nat.testBit_two_pow_sub_one]
  by_cases hi : k ≤ i
  · rw [Nat.add_sub_cancel' hi]
    by_cases hiw : i < w
    · simp [hi, show i - k < w - k by omega]
    · rw [Nat.testBit_lt_two_pow (lt_of_lt_of_le hx (Nat.pow_le_pow_right (by decide) (by omega)))]
      simp
  · simp [hi]

/-- `GetAligned(pos, kGrowAmount)` rounds `pos + kGrowAmount - 1`, taken in `uint64_t`, down to a
multiple of `kGrowAmount`. -/
theorem getAligned_kGrowAmount (pos : Nat) :
    getAligned pos kGrowAmount = (pos + (2 ^ 30 - 1)) % 2 ^ 64 / 2 ^ 30 * 2 ^ 30 := by
  have hm : (kGrowAmount + 2 ^ 64 - 1) % 2 ^ 64 = 2 ^ 30 - 1 := by decide
  have hw : 2 ^ 64 - 1 - (2 ^ 30 - 1) = 2 ^ 64 - 2 ^ 30 := by decide
  simp only [getAligned, hm, hw]
  exact and_two_pow_sub_two_pow (by decide) (Nat.mod_lt _ (by decide))

theorem getAligned_bounds {pos : Nat} (h : pos + (2 ^ 30 - 1) < 2 ^ 64) :
    pos ≤ getAligned pos kGrowAmount ∧ getAligned pos kGrowAmount ≤ pos + (2 ^ 30 - 1) := by
  rw [getAligned_kGrowAmount, Nat.mod_eq_of_lt h]
  omega

namespace MmVector

variable {α : Type} {L : Layout} {v : MmVector α}

/-! ## Growing -/

theorem capacity_le_reserve (v : MmVector α) (n : Nat) : v.capacity ≤ (reserve L v n).capacity := by
  unfold reserve; split_ifs with h
  · exact le_rfl
  · exact Nat.le_of_lt (Nat.lt_of_not_le h)

theorem capacity_le_growFor (v : MmVector α) (n : Nat) : v.capacity ≤ (growFor L v n).capacity := by
  unfold growFor; split_ifs
  · exact capacity_le_reserve v _
  · exact le_rfl

theorem Inv.reserve (hv : v.Inv L) {n : Nat} (hn : L.kOverhead + n * L.elemSize < 2 ^ 64) :
    (MmVector.reserve L v n).Inv L ∧ n ≤ (MmVector.reserve L v n).capacity ∧
      (MmVector.reserve L v n).entries = v.entries := by
  unfold MmVector.reserve
  split_ifs with h
  · exact ⟨hv, h, rfl⟩
  · exact ⟨⟨by have := hv.size_le; dsimp only; omega, Nat.mod_eq_of_lt hn, hn⟩, le_rfl, rfl⟩

/-- `Grow(bytes)` keeps `Inv`, adds `bytes / sizeof(T)` records to the capacity and keeps the
records, when the bytes of the capacity and `bytes` more fit. -/
theorem Inv.grow (hv : v.Inv L) {bytes : Nat}
    (hb : L.kOverhead + v.capacity * L.elemSize + bytes < 2 ^ 64) :
    (MmVector.grow L v bytes).Inv L ∧
      v.capacity + bytes / L.elemSize ≤ (MmVector.grow L v bytes).capacity ∧
      (MmVector.grow L v bytes).entries = v.entries := by
  have hsz := L.elemSize_pos
  have hqA : bytes / L.elemSize * L.elemSize ≤ bytes := Nat.div_mul_le_self _ _
  have ht : L.kOverhead + (v.capacity + bytes / L.elemSize) * L.elemSize < 2 ^ 64 := by
    rw [Nat.add_mul]; omega
  unfold MmVector.grow
  rw [Nat.mod_eq_of_lt (lt_of_le_of_lt (Nat.le_mul_of_pos_right _ hsz) (by omega))]
  exact hv.reserve ht

/-- The growth step of `insert` and `resize`, for a size `n` whose bytes with one more growth step
fit: `GetAligned` does not wrap and rounds `(n - capacity_) * sizeof(T)` up, so the capacity
reaches `n`, and the bytes of the new capacity still fit. -/
theorem Inv.growFor (hv : v.Inv L) {n : Nat}
    (hn : L.kOverhead + n * L.elemSize + kGrowAmount ≤ 2 ^ 64) :
    (MmVector.growFor L v n).Inv L ∧ n ≤ (MmVector.growFor L v n).capacity ∧
      (MmVector.growFor L v n).entries = v.entries := by
  unfold MmVector.growFor
  split_ifs with h
  · have hsplit : v.capacity * L.elemSize + (n - v.capacity) * L.elemSize = n * L.elemSize := by
      rw [← Nat.add_mul, Nat.add_sub_cancel' (Nat.le_of_lt h)]
    rw [kGrowAmount_eq] at hn
    rw [Nat.mod_eq_of_lt (by omega)]
    obtain ⟨hA₁, hA₂⟩ := @getAligned_bounds ((n - v.capacity) * L.elemSize) (by omega)
    have hq : n - v.capacity ≤ getAligned ((n - v.capacity) * L.elemSize) kGrowAmount / L.elemSize :=
      (Nat.le_div_iff_mul_le L.elemSize_pos).2 hA₁
    obtain ⟨hi, hle, he⟩ := hv.grow (show L.kOverhead + v.capacity * L.elemSize +
      getAligned ((n - v.capacity) * L.elemSize) kGrowAmount < 2 ^ 64 by omega)
    exact ⟨hi, by omega, he⟩
  · exact ⟨hv, by omega, rfl⟩

/-! ## Writing -/

theorem Inv.room (hv : v.Inv L) {k : Nat} (hk : k ≤ v.capacity) :
    L.kOverhead + k * L.elemSize ≤ v.mapped := by
  rw [hv.mapped_eq]
  exact Nat.add_le_add_left (Nat.mul_le_mul_right _ hk) _

theorem Inv.append (hv : v.Inv L) {xs : List α} (h : v.entries.length + xs.length ≤ v.capacity) :
    Inv L { v with entries := v.entries ++ xs } :=
  ⟨by simpa using h, hv.mapped_eq, hv.mapped_lt⟩

theorem writeEntry_append (v : MmVector α) (x : α)
    (h : L.kOverhead + (v.entries.length + 1) * L.elemSize ≤ v.mapped) :
    writeEntry L v v.entries.length x = .ok { v with entries := v.entries ++ [x] } := by
  simp [writeEntry, h, List.drop_eq_nil_of_le]

theorem writeAll_append (x : List α) : ∀ (v : MmVector α),
    L.kOverhead + (v.entries.length + x.length) * L.elemSize ≤ v.mapped →
      writeAll L v v.entries.length x = .ok { v with entries := v.entries ++ x } := by
  induction x with
  | nil => intro v _; simp [writeAll]
  | cons y ys ih =>
    intro v h
    have h₁ : L.kOverhead + (v.entries.length + 1) * L.elemSize ≤ v.mapped :=
      le_trans (Nat.add_le_add_left (Nat.mul_le_mul_right _ (by simp)) _) h
    rw [writeAll, writeEntry_append v y h₁]
    dsimp only
    have := ih { v with entries := v.entries ++ [y] }
      (by simpa [Nat.add_assoc, Nat.add_comm 1] using h)
    simpa using this

/-! ## The calls -/

theorem pushBack_spec (hsz : L.elemSize ≤ kGrowAmount) (hv : v.Inv L) (val : α)
    (hfit : L.kOverhead + (v.entries.length + 1) * L.elemSize + kGrowAmount ≤ 2 ^ 64) :
    ∃ w, pushBack L v val = .ok w ∧ w.entries = v.entries ++ [val] ∧ w.Inv L ∧
      v.capacity ≤ w.capacity := by
  have hpos := L.elemSize_pos
  rw [kGrowAmount_eq] at hsz hfit
  have hs := hv.size_le
  -- `Grow()` adds `kGrowAmount / sizeof(T) ≥ 1` records when the records fill the capacity
  obtain ⟨g, hg, hgi, hgc, hge, hgm⟩ : ∃ g, g = (if (v.entries.length + 1) % 2 ^ 64 > v.capacity
      then grow L v kGrowAmount else v) ∧ g.Inv L ∧ v.entries.length + 1 ≤ g.capacity ∧
      g.entries = v.entries ∧ v.capacity ≤ g.capacity := by
    refine ⟨_, rfl, ?_⟩
    have hmul : (v.entries.length + 1) * L.elemSize = v.entries.length * L.elemSize + L.elemSize :=
      Nat.succ_mul _ _
    rw [Nat.mod_eq_of_lt (by have := Nat.le_mul_of_pos_right (v.entries.length + 1) hpos; omega)]
    split_ifs with h
    · have hd : 1 ≤ kGrowAmount / L.elemSize :=
        (Nat.le_div_iff_mul_le hpos).2 (by rw [kGrowAmount_eq]; omega)
      have hcm : v.capacity * L.elemSize = v.entries.length * L.elemSize := by
        rw [show v.capacity = v.entries.length by omega]
      obtain ⟨hi, hle, he⟩ := hv.grow
        (show L.kOverhead + v.capacity * L.elemSize + kGrowAmount < 2 ^ 64 by
          rw [kGrowAmount_eq]; omega)
      exact ⟨hi, by omega, he, by omega⟩
    · exact ⟨hv, by omega, rfl, le_rfl⟩
  refine ⟨{ g with entries := g.entries ++ [val] }, ?_, by rw [hge], ?_, hgm⟩
  · simp only [pushBack, ← hg]
    exact writeEntry_append g val (hgi.room (by rw [hge]; omega))
  · exact hgi.append (by simp only [hge, List.length_singleton]; omega)

theorem insert_spec (hv : v.Inv L) (xs : List α)
    (hfit : L.kOverhead + (v.entries.length + xs.length) * L.elemSize + kGrowAmount ≤ 2 ^ 64) :
    ∃ w, insert L v v.entries.length xs = .ok w ∧ w.entries = v.entries ++ xs ∧ w.Inv L ∧
      v.capacity ≤ w.capacity := by
  obtain ⟨hgi, hgc, hge⟩ := hv.growFor hfit
  have hcap := capacity_le_growFor (L := L) v (v.entries.length + xs.length)
  unfold insert
  generalize growFor L v (v.entries.length + xs.length) = g at hgi hgc hge hcap ⊢
  have hl : g.entries.length = v.entries.length := by rw [hge]
  rw [← hl, writeAll_append xs g (hgi.room (by omega))]
  exact ⟨_, rfl, by rw [hge], hgi.append (by omega), hcap⟩

theorem resize_spec [Inhabited α] (hv : v.Inv L) (n : Nat) (val : α)
    (hfit : L.kOverhead + n * L.elemSize + kGrowAmount ≤ 2 ^ 64) :
    ∃ w, resize L v n val = .ok w ∧ w.entries = (MmCall.resize n val).apply v.entries ∧
      w.Inv L ∧ v.capacity ≤ w.capacity := by
  obtain ⟨hgi, hgc, hge⟩ := hv.growFor hfit
  have hcap := capacity_le_growFor (L := L) v n
  dsimp only [resize]
  generalize growFor L v n = g at hgi hgc hge hcap ⊢
  have hgs := hgi.size_le
  rw [writeAll_append _ g (hgi.room (by simp only [List.length_replicate]; omega))]
  refine ⟨_, rfl, ?_, ⟨?_, hgi.mapped_eq, hgi.mapped_lt⟩, hcap⟩
  · dsimp only
    rw [hge, MmCall.apply]
    split_ifs with h
    · rw [Nat.sub_eq_zero_of_le h, List.replicate_zero, List.append_nil]
    · exact List.take_of_length_le (by simp; omega)
  · simp only [List.length_take, List.length_append, List.length_replicate]
    omega

/-- What a call does, from `Inv`, when it fits and `sizeof(T) ≤ kGrowAmount`: it succeeds, so
every record it writes lies inside the mapping, applies its list operation, keeps `Inv` and does
not shrink the capacity. -/
theorem step_spec [Inhabited α] (hsz : L.elemSize ≤ kGrowAmount) (hv : v.Inv L) {c : MmCall α}
    (hc : Fits L v.entries c) :
    ∃ w, step L v c = .ok w ∧ w.entries = c.apply v.entries ∧ w.Inv L ∧
      v.capacity ≤ w.capacity := by
  unfold Fits at hc
  cases c with
  | reserve n =>
    obtain ⟨hi, -, he⟩ := hv.reserve (n := n) (by simp only [MmCall.demand] at hc; rw [kGrowAmount_eq] at hc; omega)
    exact ⟨_, rfl, he, hi, capacity_le_reserve v n⟩
  | pushBack val => exact pushBack_spec hsz hv val hc
  | emplaceBack => exact pushBack_spec hsz hv default hc
  | insert xs => exact insert_spec hv xs hc
  | resize n val => exact resize_spec hv n val hc

theorem capacity_writeEntry {w : MmVector α} {i : Nat} {x : α} (h : writeEntry L v i x = .ok w) :
    w.capacity = v.capacity := by
  unfold writeEntry at h
  split_ifs at h
  cases h
  rfl

theorem capacity_writeAll : ∀ (xs : List α) {v w : MmVector α} {i : Nat},
    writeAll L v i xs = .ok w → w.capacity = v.capacity
  | [], _, _, _, h => by cases h; rfl
  | x :: xs, v, w, i, h => by
    rw [writeAll] at h
    split at h
    · cases h
    · rename_i v' hv'
      rw [capacity_writeAll xs h, capacity_writeEntry hv']

theorem step_capacity_le [Inhabited α] {w : MmVector α} {c : MmCall α} (h : step L v c = .ok w) :
    v.capacity ≤ w.capacity := by
  cases c with
  | reserve n => cases h; exact capacity_le_reserve v n
  | pushBack val | emplaceBack =>
    simp only [step, emplaceBack, pushBack] at h
    rw [capacity_writeEntry h]
    split_ifs
    · exact capacity_le_reserve v _
    · exact le_rfl
  | insert xs =>
    rw [capacity_writeAll xs h]
    exact capacity_le_growFor v _
  | resize n val =>
    simp only [step, resize] at h
    split at h
    · cases h
    · rename_i w' hw'
      cases h
      show v.capacity ≤ w'.capacity
      rw [capacity_writeAll _ hw']
      exact capacity_le_growFor v n

/-! ## Runs -/

theorem inv_initCreated : (initCreated L : MmVector α).Inv L :=
  ⟨le_rfl, by simp [initCreated], by simpa [initCreated] using L.kOverhead_lt⟩

theorem inv_initOpened {xs : List α} (h : L.kOverhead + xs.length * L.elemSize < 2 ^ 64) :
    (initOpened L xs).Inv L :=
  ⟨le_rfl, Nat.mod_eq_of_lt h, h⟩

/-- When `sizeof(T) ≤ kGrowAmount`, every state that fitting calls reach from `InitCreated` or
`InitOpened` has `Inv`: `size() ≤ capacity()` and the mapping has exactly
`kOverhead + capacity_ * sizeof(T)` bytes. From it every fitting call succeeds, so each record it
writes lies inside the mapping, transforms the records by its list operation, and does not shrink
the capacity. -/
theorem reachable_step_spec [Inhabited α] (hsz : L.elemSize ≤ kGrowAmount)
    (hr : Reachable L v) :
    v.Inv L ∧ ∀ c, Fits L v.entries c → ∃ w, step L v c = .ok w ∧
      w.entries = c.apply v.entries ∧ w.Inv L ∧ v.capacity ≤ w.capacity := by
  have hv : v.Inv L := by
    induction hr with
    | created => exact inv_initCreated
    | opened xs h => exact inv_initOpened h
    | step _ hc hs ih =>
      obtain ⟨w, hw, -, hwi, -⟩ := step_spec hsz ih hc
      rw [hs] at hw
      cases hw
      exact hwi
  exact ⟨hv, fun c hc => step_spec hsz hv hc⟩

/-- `MmVector<PartialUse<std::uint64_t>>`, the table of `PartialUses<std::uint64_t>`: 24-byte
records after the 8-byte `size`. -/
def partialUse64Layout : Layout := ⟨24, 8, by decide, by decide⟩

/-- The calls on an empty `MmVector<PartialUse<std::uint64_t>>`. -/
theorem reachable_step_spec_created :
    (initCreated partialUse64Layout : MmVector Nat).Inv partialUse64Layout ∧
      ∀ c, Fits partialUse64Layout (initCreated partialUse64Layout : MmVector Nat).entries c →
        ∃ w, step partialUse64Layout (initCreated partialUse64Layout) c = .ok w ∧
          w.entries = c.apply (initCreated partialUse64Layout : MmVector Nat).entries ∧
          w.Inv partialUse64Layout ∧
          (initCreated partialUse64Layout : MmVector Nat).capacity ≤ w.capacity :=
  reachable_step_spec (by decide) .created

/-- `entries_.resize(n)` of an empty `MmVector<PartialUse<std::uint64_t>>`, with `n` the largest
count whose bytes `kOverhead + n * sizeof(T)` fit in `size_t`: the sum
`(n - capacity_) * sizeof(T) + (kGrowAmount - 1)` in `GetAligned` wraps and is rounded down to 0,
`Grow(0)` reserves nothing, and the first record is written past the mapping. -/
theorem resize_aligned_wraps :
    partialUse64Layout.kOverhead + 768614336404564650 * partialUse64Layout.elemSize < 2 ^ 64 ∧
      getAligned ((768614336404564650 - 0) * partialUse64Layout.elemSize % 2 ^ 64)
        kGrowAmount = 0 ∧
      resize partialUse64Layout (initCreated partialUse64Layout) 768614336404564650
        PartialUse.zero = .error .fault :=
  ⟨by decide, by decide, rfl⟩

/-- With `sizeof(T) > kGrowAmount`, `Grow()` adds `kGrowAmount / sizeof(T) = 0` records, and the
first `push_back` writes past the mapping. -/
theorem pushBack_faults_of_large {L : Layout} (h : kGrowAmount < L.elemSize) (val : α) :
    pushBack L (initCreated L) val = .error .fault := by
  have hpos := L.elemSize_pos
  simp [pushBack, initCreated, grow, reserve, Nat.div_eq_of_lt h, writeEntry, hpos.ne']

end MmVector

end Memtrace
