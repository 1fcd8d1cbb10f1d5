import Memtrace.Ud.Primes

/-! # The partial-use table

`PartialUses<W>` is an open-addressing hash table from a use index to the part of the def that the
use reads, with linear probing and a prime number of slots. A slot whose key is `0xFFFFFFFF` is
empty. `operator[]` inserts a key at the first empty slot of its probe sequence and doubles the
load into a `reserve` when the load passes half the size; `reserve` takes the first prime at least
twice its argument as the new size and reinserts every occupied slot.

* `findPartialUse` is `FindPartialUse` with its two calls of `ScanPartialUses`, and
  `findPartialUse_eq` says it scans the cyclic probe sequence `probeOrder`.
* `Reach`: `FindPartialUse` finds every occupied key at its slot. It says at once that the probe
  from the key's home slot crosses no empty slot and that keys are unique (`Reach.unique`).
  `Valid` adds the bookkeeping of `load_` and `maxLoad_`.
* `set` is `operator[]` followed by the write through the returned reference, `reserve` is
  `reserve`, `find` is `find`; `lookup` reads the table as a map.
* `set_spec`: a write keeps the table valid and can only run out of fuel in the prime search of a
  rehash, so with fuel for that search (`PrimeFuel`) it returns (`set_ok`, and `create_ok` for
  `Init` and its `reserve`).
-/

namespace Memtrace

set_option autoImplicit false

/-- `Def<W>`: the range `[startAddr, endAddr)` that a def writes or a use reads. -/
structure Def where
  startAddr : Nat
  endAddr : Nat
  deriving DecidableEq, Repr

/-- `PartialUse<W>`: a slot of the table, a use index and its range. -/
structure PartialUse where
  first : Nat
  second : Def
  deriving DecidableEq, Repr

/-- `static_cast<std::uint32_t>(-1)`, the key of an empty slot. -/
def emptyKey : Nat := uint32Max

/-- A value-initialized `PartialUse<W>`, as `resize` creates it. -/
def PartialUse.zero : PartialUse := ⟨0, ⟨0, 0⟩⟩

/-- A slot that holds a key. -/
def PartialUse.occupied (u : PartialUse) : Bool := u.first != emptyKey

@[simp] theorem PartialUse.occupied_iff {u : PartialUse} :
    u.occupied = true ↔ u.first ≠ emptyKey := by
  simp [PartialUse.occupied]

/-- `PartialUses<W>`: the slots `entries_`, `load_` and `maxLoad_`. -/
structure PartialUses where
  entries : List PartialUse
  load : Nat
  maxLoad : Nat
  deriving DecidableEq, Repr

namespace PartialUses

/-- The slot a reference returned by `FindPartialUse` designates. -/
def slotAt (entries : List PartialUse) (i : Nat) : PartialUse :=
  entries.getD i PartialUse.zero

/-- The test of `ScanPartialUses`: the slot holds `useIndex` or is empty. -/
def stopsAt (entries : List PartialUse) (useIndex i : Nat) : Bool :=
  (slotAt entries i).first = useIndex || (slotAt entries i).first = emptyKey

/-- `ScanPartialUses(partialUses + from, count, useIndex)`: the first slot of `[from, from + count)`
that stops the scan, `nullptr` as `none`. -/
def scanPartialUses (entries : List PartialUse) (useIndex start count : Nat) : Option Nat :=
  (List.range' start count).find? (stopsAt entries useIndex)

/-- `FindPartialUse`: scan from the home slot `useIndex % hashTableSize` to the end, then from the
start. A table of no slot divides by zero; `assert(use != nullptr)` fails when no slot stops the
scan. -/
def findPartialUse (hashTable : List PartialUse) (useIndex : Nat) : Except Failure Nat :=
  let hashTableSize := hashTable.length
  if hashTableSize = 0 then .error .fault
  else
    let entryIndex := useIndex % hashTableSize
    match scanPartialUses hashTable useIndex entryIndex (hashTableSize - entryIndex) with
    | some i => .ok i
    | none =>
      match scanPartialUses hashTable useIndex 0 entryIndex with
      | some i => .ok i
      | none => .error .assertFailed

/-- `PartialUses::Init` in a create mode: eleven empty slots. -/
def init : PartialUses :=
  ⟨List.replicate 11 ⟨emptyKey, ⟨0, 0⟩⟩, 0, 11 / 2⟩

/-- The loop of `reserve` over the old slots: move every occupied one to the slot
`FindPartialUse` gives in the new table, which must be empty. -/
def reinsertAll : List PartialUse → List PartialUse → Except Failure (List PartialUse)
  | entries, [] => .ok entries
  | entries, oldEntry :: oldEntries =>
    if oldEntry.first = emptyKey then reinsertAll entries oldEntries
    else
      match findPartialUse entries oldEntry.first with
      | .error e => .error e
      | .ok j =>
        if (slotAt entries j).first = emptyKey then reinsertAll (entries.set j oldEntry) oldEntries
        else .error .assertFailed

/-- `PartialUses::reserve(n)`: resize to `GetFirstPrimeGreaterThanOrEqualTo(n * 2)` slots, empty
them all, and reinsert the old ones. `load_` is kept. -/
def reserve (fuel : Nat) (primes : List Nat) (t : PartialUses) (n : Nat) :
    Except Failure (PartialUses × List Nat) :=
  match getFirstPrimeGreaterThanOrEqualTo fuel primes (n * 2 % 2 ^ 64) with
  | .error e => .error e
  | .ok (newSize, primes) =>
    let resized := t.entries.take newSize ++ List.replicate (newSize - t.entries.length) .zero
    let emptied := resized.map fun e => { e with first := emptyKey }
    match reinsertAll emptied t.entries with
    | .error e => .error e
    | .ok entries => .ok (⟨entries, t.load, newSize / 2⟩, primes)

/-- `partialUses_[useIndex] = range`: `operator[]` finds the key's slot or claims an empty one,
rehashing with `reserve(load_ * 2)` when the load passes `maxLoad_`, and the caller writes the
range through the returned reference. -/
def set (fuel : Nat) (primes : List Nat) (t : PartialUses) (useIndex : Nat) (range : Def) :
    Except Failure (PartialUses × List Nat) :=
  match findPartialUse t.entries useIndex with
  | .error e => .error e
  | .ok i =>
    let result1 := slotAt t.entries i
    if result1.first = useIndex then
      .ok ({ t with entries := t.entries.set i ⟨useIndex, range⟩ }, primes)
    else
      let entries := t.entries.set i ⟨useIndex, result1.second⟩
      let load := (t.load + 1) % 2 ^ 64
      if load ≤ t.maxLoad then
        .ok (⟨entries.set i ⟨useIndex, range⟩, load, t.maxLoad⟩, primes)
      else
        match reserve fuel primes ⟨entries, load, t.maxLoad⟩ (load * 2 % 2 ^ 64) with
        | .error e => .error e
        | .ok (t', primes) =>
          match findPartialUse t'.entries useIndex with
          | .error e => .error e
          | .ok j =>
            if (slotAt t'.entries j).first = useIndex then
              .ok ({ t' with entries := t'.entries.set j ⟨useIndex, range⟩ }, primes)
            else .error .assertFailed

/-- `PartialUses::find`: the key's slot, or `nullptr` as `none`. -/
def find (t : PartialUses) (useIndex : Nat) : Except Failure (Option Nat) :=
  match findPartialUse t.entries useIndex with
  | .error e => .error e
  | .ok i => .ok (if (slotAt t.entries i).first = useIndex then some i else none)

/-- The table read as a map: the range in the slot `find` returns. -/
def lookup (t : PartialUses) (useIndex : Nat) : Option Def :=
  match t.find useIndex with
  | .ok (some i) => some (slotAt t.entries i).second
  | _ => none

/-! ## The probe sequence -/

/-- The slots `FindPartialUse` scans, in order: from `home` to the end, then from the start. -/
def probeOrder (n home : Nat) : List Nat :=
  List.range' home (n - home) ++ List.range' 0 home

theorem mem_probeOrder {n home i : Nat} (hh : home ≤ n) (hi : i < n) : i ∈ probeOrder n home := by
  simp only [probeOrder, List.mem_append, List.mem_range'_1]
  omega

theorem probeOrder_lt {n home i : Nat} (hh : home ≤ n) (hi : i ∈ probeOrder n home) : i < n := by
  simp only [probeOrder, List.mem_append, List.mem_range'_1] at hi
  omega

/-- `FindPartialUse` is one scan of the probe sequence from the home slot. -/
theorem findPartialUse_eq {entries : List PartialUse} (h : 0 < entries.length) (useIndex : Nat) :
    findPartialUse entries useIndex =
      match (probeOrder entries.length (useIndex % entries.length)).find?
          (stopsAt entries useIndex) with
      | some i => .ok i
      | none => .error .assertFailed := by
  rw [findPartialUse, if_neg (by omega)]
  simp only [scanPartialUses, probeOrder, List.find?_append]
  cases (List.range' _ _).find? _ <;> rfl

theorem find?_stable {l : List Nat} {p q : Nat → Bool} {i j : Nat} (h : l.find? p = some i)
    (hj : p j = true) (hpq : ∀ x, x ≠ j → q x = p x) (hqi : q i = true) : l.find? q = some i := by
  obtain ⟨-, as, bs, rfl, has⟩ := List.find?_eq_some.1 h
  refine List.find?_eq_some.2 ⟨hqi, as, bs, rfl, fun a ha => ?_⟩
  have hpa := has a ha
  have : a ≠ j := by rintro rfl; simp [hj] at hpa
  rw [hpq a this]
  exact hpa

/-! ## Slots -/

@[simp] theorem slotAt_set_self {l : List PartialUse} {j : Nat} {u : PartialUse}
    (h : j < l.length) : slotAt (l.set j u) j = u := by
  simp [slotAt, h]

@[simp] theorem slotAt_set_ne {l : List PartialUse} {i j : Nat} {u : PartialUse} (h : j ≠ i) :
    slotAt (l.set j u) i = slotAt l i := by
  simp [slotAt, List.getElem?_set_ne h]

theorem slotAt_set {l : List PartialUse} {i j : Nat} {u : PartialUse} (h : j < l.length) :
    slotAt (l.set j u) i = if j = i then u else slotAt l i := by
  split_ifs with hji
  · subst hji; exact slotAt_set_self h
  · exact slotAt_set_ne hji

theorem slotAt_eq_getElem {l : List PartialUse} {i : Nat} (h : i < l.length) :
    slotAt l i = l[i] := by
  simp [slotAt, h]

theorem countP_set_empty {l : List PartialUse} {j : Nat} {u : PartialUse} (hj : j < l.length)
    (he : (slotAt l j).first = emptyKey) (hu : u.first ≠ emptyKey) :
    (l.set j u).countP PartialUse.occupied = l.countP PartialUse.occupied + 1 := by
  rw [List.countP_set _ _ _ _ hj, ← slotAt_eq_getElem hj]
  simp [PartialUse.occupied, he, hu]

theorem countP_set_same {l : List PartialUse} {j : Nat} {u : PartialUse} (hj : j < l.length)
    (hu : u.first = (slotAt l j).first) :
    (l.set j u).countP PartialUse.occupied = l.countP PartialUse.occupied := by
  rw [List.countP_set _ _ _ _ hj, ← slotAt_eq_getElem hj]
  simp only [PartialUse.occupied, hu]
  split_ifs with h
  · have : 0 < l.countP PartialUse.occupied :=
      List.countP_pos_iff.2 ⟨_, List.getElem_mem hj, by rw [← slotAt_eq_getElem hj]; exact h⟩
    omega
  · rfl

theorem exists_empty {l : List PartialUse} (h : l.countP PartialUse.occupied < l.length) :
    ∃ i < l.length, (slotAt l i).first = emptyKey := by
  by_contra hne
  push_neg at hne
  have : l.countP PartialUse.occupied = l.length := List.countP_eq_length.2 fun u hu => by
    obtain ⟨i, hi, rfl⟩ := List.mem_iff_getElem.1 hu
    simpa [← slotAt_eq_getElem hi] using hne i hi
  omega

/-! ## Finding a key -/

theorem findPartialUse_spec {l : List PartialUse} {k i : Nat} (h : findPartialUse l k = .ok i) :
    i < l.length ∧ stopsAt l k i = true := by
  have hpos : 0 < l.length := by
    rw [findPartialUse] at h; split_ifs at h with h0; omega
  rw [findPartialUse_eq hpos] at h
  split at h
  · rename_i i' hi'
    cases h
    exact ⟨probeOrder_lt (Nat.mod_lt _ hpos).le (List.mem_of_find?_eq_some hi'),
      List.find?_some hi'⟩
  · cases h

/-- With a slot that stops the scan, `FindPartialUse` returns, and its `assert` holds. -/
theorem findPartialUse_ok {l : List PartialUse} {k i : Nat} (hi : i < l.length)
    (hs : stopsAt l k i = true) : ∃ j, findPartialUse l k = .ok j := by
  have hpos : 0 < l.length := by omega
  rw [findPartialUse_eq hpos]
  cases hf : (probeOrder l.length (k % l.length)).find? (stopsAt l k) with
  | some j => exact ⟨j, rfl⟩
  | none =>
    exact absurd hs (by
      simpa using List.find?_eq_none.1 hf i (mem_probeOrder (Nat.mod_lt _ hpos).le hi))

theorem findPartialUse_ok_of_empty {l : List PartialUse} {k : Nat}
    (h : l.countP PartialUse.occupied < l.length) : ∃ j, findPartialUse l k = .ok j := by
  obtain ⟨i, hi, he⟩ := exists_empty h
  exact findPartialUse_ok hi (by simp [stopsAt, he])

theorem findPartialUse_congr {l l' : List PartialUse} (hlen : l'.length = l.length)
    (hkey : ∀ i, (slotAt l' i).first = (slotAt l i).first) (k : Nat) :
    findPartialUse l' k = findPartialUse l k := by
  have hs : stopsAt l' k = stopsAt l k := funext fun i => by simp only [stopsAt, hkey]
  simp only [findPartialUse, scanPartialUses, hlen, hs]

theorem findPartialUse_set_empty {l : List PartialUse} {k i j : Nat} {u : PartialUse}
    (h : findPartialUse l k = .ok i) (hj : (slotAt l j).first = emptyKey)
    (hi : stopsAt (l.set j u) k i = true) : findPartialUse (l.set j u) k = .ok i := by
  have hpos : 0 < l.length := by have := (findPartialUse_spec h).1; omega
  rw [findPartialUse_eq hpos] at h
  rw [findPartialUse_eq (by simpa using hpos), List.length_set]
  split at h
  · rename_i i' hi'
    cases h
    rw [find?_stable (j := j) hi' (by simp [stopsAt, hj])
      (fun x hx => by simp [stopsAt, slotAt_set_ne hx.symm]) hi]
  · cases h

/-! ## Reachability -/

/-- `FindPartialUse` finds every occupied key at its slot: the probe from the key's home slot
crosses no empty slot and meets no other slot of the key. -/
def Reach (l : List PartialUse) : Prop :=
  ∀ i, i < l.length → (slotAt l i).first ≠ emptyKey → findPartialUse l (slotAt l i).first = .ok i

theorem Reach.unique {l : List PartialUse} (h : Reach l) {i i' : Nat} (hi : i < l.length)
    (hi' : i' < l.length) (he : (slotAt l i).first ≠ emptyKey)
    (hk : (slotAt l i).first = (slotAt l i').first) : i = i' := by
  have h1 := h i hi he
  rw [hk] at h1 he
  rw [h i' hi' he] at h1
  cases h1; rfl

theorem Reach.set_empty {l : List PartialUse} (h : Reach l) {k j : Nat} {v : Def}
    (hf : findPartialUse l k = .ok j) (hj : (slotAt l j).first = emptyKey) :
    Reach (l.set j ⟨k, v⟩) := by
  have hjl := (findPartialUse_spec hf).1
  intro i hi he
  rw [List.length_set] at hi
  by_cases hji : j = i
  · subst hji
    rw [slotAt_set_self hjl] at he ⊢
    exact findPartialUse_set_empty hf hj (by simp [stopsAt, slotAt_set_self hjl])
  · rw [slotAt_set_ne hji] at he ⊢
    exact findPartialUse_set_empty (h i hi he) hj (by simp [stopsAt, slotAt_set_ne hji])

theorem Reach.set_same {l : List PartialUse} (h : Reach l) {j : Nat} {u : PartialUse}
    (hj : j < l.length) (hu : u.first = (slotAt l j).first) : Reach (l.set j u) := by
  have hkey : ∀ i, (slotAt (l.set j u) i).first = (slotAt l i).first := fun i => by
    rw [slotAt_set hj]; split_ifs with hji <;> [subst hji; skip] <;> simp [hu]
  intro i hi he
  rw [List.length_set] at hi
  rw [hkey] at he ⊢
  rw [findPartialUse_congr (List.length_set ..) hkey]
  exact h i hi he


/-! ## The table as a map -/

/-- Two occupied slots never hold the same key. -/
def UniqueKeys (l : List PartialUse) : Prop :=
  ∀ i i', i < l.length → i' < l.length → (slotAt l i).first ≠ emptyKey →
    (slotAt l i).first = (slotAt l i').first → i = i'

theorem Reach.uniqueKeys {l : List PartialUse} (h : Reach l) : UniqueKeys l :=
  fun _ _ hi hi' he hk => h.unique hi hi' he hk

theorem UniqueKeys.tail {u : PartialUse} {l : List PartialUse} (h : UniqueKeys (u :: l)) :
    UniqueKeys l := fun i i' hi hi' he hk => by
  have := h (i + 1) (i' + 1) (by simp; omega) (by simp; omega) (by simpa [slotAt] using he)
    (by simpa [slotAt] using hk)
  omega

theorem UniqueKeys.head {u : PartialUse} {l : List PartialUse} (h : UniqueKeys (u :: l))
    (hu : u.first ≠ emptyKey) : ∀ w ∈ l, w.first ≠ u.first := fun w hw hk => by
  obtain ⟨i, hi, rfl⟩ := List.mem_iff_getElem.1 hw
  have := h 0 (i + 1) (by simp) (by simp; omega) (by simpa [slotAt] using hu)
    (by simp [slotAt, hi, hk])
  omega

theorem keys_nodup : ∀ {l : List PartialUse}, UniqueKeys l →
    ((l.filter PartialUse.occupied).map PartialUse.first).Nodup
  | [], _ => List.nodup_nil
  | u :: l, h => by
    rw [List.filter_cons]
    split_ifs with hu
    · rw [List.map_cons, List.nodup_cons]
      refine ⟨fun hm => ?_, keys_nodup h.tail⟩
      obtain ⟨w, hw, hwk⟩ := List.mem_map.1 hm
      exact h.head (by simpa using hu) w (List.mem_filter.1 hw).1 hwk
    · exact keys_nodup h.tail

theorem countP_occupied_le {l : List PartialUse} (h : UniqueKeys l)
    (hk : ∀ u ∈ l, u.first ≠ emptyKey → u.first < 2 ^ 32) :
    l.countP PartialUse.occupied ≤ 2 ^ 32 - 1 := by
  have hsub : (l.filter PartialUse.occupied).map PartialUse.first ⊆ List.range (2 ^ 32 - 1) :=
    fun x hx => by
      obtain ⟨w, hw, rfl⟩ := List.mem_map.1 hx
      obtain ⟨hw, ho⟩ := List.mem_filter.1 hw
      have ho' := PartialUse.occupied_iff.1 ho
      have := hk w hw ho'
      simp only [emptyKey, uint32Max] at ho'
      simp only [List.mem_range]
      omega
  have := ((keys_nodup h).subperm hsub).length_le
  rw [List.length_map, List.length_range] at this
  rw [List.countP_eq_length_filter]
  exact this

theorem mem_set_iff {l : List PartialUse} {j : Nat} {u x : PartialUse} (hj : j < l.length)
    (hx : x ≠ slotAt l j) : x ∈ l.set j u ↔ x = u ∨ x ∈ l := by
  constructor
  · intro hm
    rcases List.mem_or_eq_of_mem_set hm with h | h
    · exact .inr h
    · exact .inl h
  · rintro (rfl | hm)
    · exact List.mem_set l j hj x
    · obtain ⟨i, hi, rfl⟩ := List.mem_iff_getElem.1 hm
      have hij : j ≠ i := by rintro rfl; exact hx (slotAt_eq_getElem hi).symm
      exact List.mem_iff_getElem.2 ⟨i, by simpa using hi, by simp [List.getElem_set_ne hij]⟩

theorem mem_set_same_iff {l : List PartialUse} (hu : UniqueKeys l) {j k : Nat} {v v' : Def}
    (hj : j < l.length) (hkj : (slotAt l j).first = k) (hk : k ≠ emptyKey) :
    (⟨k, v'⟩ : PartialUse) ∈ l.set j ⟨k, v⟩ ↔ v' = v := by
  constructor
  · intro hm
    obtain ⟨i, hi, hiv⟩ := List.mem_iff_getElem.1 hm
    rw [List.length_set] at hi
    by_cases hji : j = i
    · subst hji; simp at hiv; exact hiv.symm
    · rw [List.getElem_set_ne hji, ← slotAt_eq_getElem hi] at hiv
      exact absurd (hu j i hj hi (by rw [hkj]; exact hk) (by rw [hkj, hiv])) hji
  · rintro rfl; exact List.mem_set l j hj _

theorem find_eq {t : PartialUses} {k i : Nat} (h : findPartialUse t.entries k = .ok i) :
    t.find k = .ok (if (slotAt t.entries i).first = k then some i else none) := by
  simp [find, h]

/-- Read as a map, a table whose keys are reachable holds what its slots hold. -/
theorem lookup_eq_some_iff {t : PartialUses} (h : Reach t.entries) {k : Nat} (hk : k ≠ emptyKey)
    {v : Def} : t.lookup k = some v ↔ (⟨k, v⟩ : PartialUse) ∈ t.entries := by
  constructor
  · intro hl
    cases hf : findPartialUse t.entries k with
    | error e => simp [lookup, find, hf] at hl
    | ok i =>
      have hi := (findPartialUse_spec hf).1
      by_cases hki : (slotAt t.entries i).first = k
      · simp only [lookup, find_eq hf, if_pos hki, Option.some.injEq] at hl
        have : slotAt t.entries i = ⟨k, v⟩ := by rw [← hki, ← hl]
        rw [← this, slotAt_eq_getElem hi]
        exact List.getElem_mem hi
      · simp [lookup, find_eq hf, hki] at hl
  · intro hm
    obtain ⟨i, hi, hiv⟩ := List.mem_iff_getElem.1 hm
    rw [← slotAt_eq_getElem hi] at hiv
    have hf := h i hi (by rw [hiv]; exact hk)
    rw [hiv] at hf
    simp [lookup, find_eq hf, hiv]

theorem lookup_congr {t t' : PartialUses} (h : Reach t.entries) (h' : Reach t'.entries) {k : Nat}
    (hk : k ≠ emptyKey) (hm : ∀ v : Def, (⟨k, v⟩ : PartialUse) ∈ t'.entries ↔ ⟨k, v⟩ ∈ t.entries) :
    t'.lookup k = t.lookup k := by
  cases hl : t.lookup k with
  | some v => exact (lookup_eq_some_iff h' hk).2 ((hm v).2 ((lookup_eq_some_iff h hk).1 hl))
  | none =>
    cases hl' : t'.lookup k with
    | none => rfl
    | some v =>
      have := (lookup_eq_some_iff h hk).2 ((hm v).1 ((lookup_eq_some_iff h' hk).1 hl'))
      rw [hl] at this; cases this


/-! ## Rehashing -/

/-- The reinsertion loop of `reserve`: with room in the new table for the occupied old slots,
whose keys are unique and not yet in the new table, every `FindPartialUse` lands on an empty slot
(so the `assert` holds), every key stays reachable, and the new table gains exactly the occupied
old slots. -/
theorem reinsertAll_spec : ∀ (old : List PartialUse) {l : List PartialUse}, Reach l →
    UniqueKeys old →
    (∀ u ∈ old, u.first ≠ emptyKey → ∀ i < l.length, (slotAt l i).first ≠ u.first) →
    l.countP PartialUse.occupied + old.countP PartialUse.occupied ≤ l.length →
    ∃ l', reinsertAll l old = .ok l' ∧ Reach l' ∧ l'.length = l.length ∧
      l'.countP PartialUse.occupied =
        l.countP PartialUse.occupied + old.countP PartialUse.occupied ∧
      ∀ x : PartialUse, x.first ≠ emptyKey → (x ∈ l' ↔ x ∈ l ∨ x ∈ old)
  | [], l, hr, _, _, _ => ⟨l, rfl, hr, rfl, rfl, fun _ _ => by simp⟩
  | u :: old, l, hr, hu, hnot, hroom => by
    have hnot' : ∀ w ∈ old, w.first ≠ emptyKey → ∀ i < l.length, (slotAt l i).first ≠ w.first :=
      fun w hw => hnot w (List.mem_cons_of_mem _ hw)
    rw [List.countP_cons] at hroom
    by_cases he : u.first = emptyKey
    · -- an empty old slot is skipped
      obtain ⟨l', h, hr', hlen, hcnt, hmem⟩ :=
        reinsertAll_spec old hr hu.tail hnot' (by simp [he] at hroom; omega)
      refine ⟨l', by rw [reinsertAll, if_pos he]; exact h, hr', hlen,
        by rw [hcnt, List.countP_cons]; simp [he], fun x hx => ?_⟩
      have : x ≠ u := by rintro rfl; exact hx he
      simp [hmem x hx, this]
    · -- an occupied one goes to the empty slot its scan stops at
      have hroom' : l.countP PartialUse.occupied < l.length := by simp [he] at hroom; omega
      obtain ⟨j, hj⟩ := findPartialUse_ok_of_empty (k := u.first) hroom'
      obtain ⟨hjl, hjs⟩ := findPartialUse_spec hj
      have hje : (slotAt l j).first = emptyKey := by
        simp only [stopsAt, Bool.or_eq_true, decide_eq_true_eq] at hjs
        exact hjs.resolve_left (hnot u (List.mem_cons_self _ _) he j hjl)
      have hr1 : Reach (l.set j u) := hr.set_empty (v := u.second) hj hje
      have hnot1 : ∀ w ∈ old, w.first ≠ emptyKey →
          ∀ i < (l.set j u).length, (slotAt (l.set j u) i).first ≠ w.first := by
        intro w hw hwe i hi
        rw [List.length_set] at hi
        rw [slotAt_set hjl]
        split_ifs
        · exact (hu.head he w hw).symm
        · exact hnot' w hw hwe i hi
      obtain ⟨l', h, hr', hlen, hcnt, hmem⟩ := reinsertAll_spec old hr1 hu.tail hnot1
        (by rw [countP_set_empty hjl hje he, List.length_set]; simp [he] at hroom; omega)
      refine ⟨l', ?_, hr', by rw [hlen, List.length_set], ?_, fun x hx => ?_⟩
      · rw [reinsertAll, if_neg he, hj]
        simp only [if_pos hje]
        exact h
      · rw [hcnt, countP_set_empty hjl hje he, List.countP_cons]; simp [he]; omega
      · rw [hmem x hx, mem_set_iff hjl (fun h => hx (by rw [h]; exact hje)), List.mem_cons]
        exact or_assoc.trans or_left_comm

/-- `reserve` once the new size is known: with room for the occupied slots, the reinsertion
succeeds, keeps every key reachable and keeps what the table holds. -/
theorem reserve_eq {fuel : Nat} {primes primes' : List Nat} {t : PartialUses} {n newSize : Nat}
    (hgp : getFirstPrimeGreaterThanOrEqualTo fuel primes (n * 2 % 2 ^ 64) = .ok (newSize, primes'))
    (hr : Reach t.entries) (hroom : t.entries.countP PartialUse.occupied ≤ newSize) :
    ∃ entries, t.reserve fuel primes n = .ok (⟨entries, t.load, newSize / 2⟩, primes') ∧
      Reach entries ∧ entries.length = newSize ∧
      entries.countP PartialUse.occupied = t.entries.countP PartialUse.occupied ∧
      ∀ x : PartialUse, x.first ≠ emptyKey → (x ∈ entries ↔ x ∈ t.entries) := by
  set emptied := (t.entries.take newSize ++
    List.replicate (newSize - t.entries.length) PartialUse.zero).map
      fun e => { e with first := emptyKey }
  have hlen : emptied.length = newSize := by simp [emptied]; omega
  have hall : ∀ x ∈ emptied, x.first = emptyKey := fun x hx => by
    obtain ⟨e, -, rfl⟩ := List.mem_map.1 hx
    rfl
  have hempty : ∀ i < emptied.length, (slotAt emptied i).first = emptyKey := fun i hi => by
    rw [slotAt_eq_getElem hi]; exact hall _ (List.getElem_mem hi)
  have hcnt0 : emptied.countP PartialUse.occupied = 0 :=
    List.countP_eq_zero.2 fun x hx => by simp [hall x hx]
  obtain ⟨entries, h, hr', hlen', hcnt, hmem⟩ := reinsertAll_spec t.entries (l := emptied)
    (fun i hi he => absurd (hempty i hi) he) hr.uniqueKeys
    (fun u _ hu i hi => by rw [hempty i hi]; exact Ne.symm hu) (by omega)
  refine ⟨entries, ?_, hr', by omega, by omega, fun x hx => ?_⟩
  · simp only [reserve, hgp]
    rw [h]
  · rw [hmem x hx]
    exact or_iff_right fun hm => hx (hall x hm)


/-! ## The invariant -/

/-- The invariant of the table: at least one slot, `maxLoad_ = size / 2`, `load_ ≤ maxLoad_`,
`load_` counts the occupied slots, occupied keys are `uint32_t` values, and every occupied key is
reachable. -/
structure Valid (t : PartialUses) : Prop where
  size_pos : 0 < t.entries.length
  maxLoad_eq : t.maxLoad = t.entries.length / 2
  load_le : t.load ≤ t.maxLoad
  load_eq : t.load = t.entries.countP PartialUse.occupied
  key_lt : ∀ u ∈ t.entries, u.first ≠ emptyKey → u.first < 2 ^ 32
  reach : Reach t.entries

theorem Valid.load_lt {t : PartialUses} (h : t.Valid) : t.load < t.entries.length := by
  have := h.size_pos; have := h.load_le; have := h.maxLoad_eq; omega

theorem Valid.load_le_keys {t : PartialUses} (h : t.Valid) : t.load ≤ 2 ^ 32 - 1 :=
  h.load_eq ▸ countP_occupied_le h.reach.uniqueKeys h.key_lt

theorem Valid.find_ok {t : PartialUses} (h : t.Valid) (k : Nat) : ∃ r, t.find k = .ok r := by
  obtain ⟨i, hi⟩ := findPartialUse_ok_of_empty (k := k) (h.load_eq ▸ h.load_lt)
  exact ⟨_, find_eq hi⟩

theorem Valid.of_empty {t : PartialUses} (hpos : 0 < t.entries.length)
    (hmax : t.maxLoad = t.entries.length / 2) (hload : t.load = 0)
    (hall : ∀ u ∈ t.entries, u.first = emptyKey) : t.Valid where
  size_pos := hpos
  maxLoad_eq := hmax
  load_le := by omega
  load_eq := by rw [hload, eq_comm, List.countP_eq_zero]; intro u hu; simp [hall u hu]
  key_lt := fun u hu he => absurd (hall u hu) he
  reach := fun i hi he =>
    absurd (by rw [slotAt_eq_getElem hi]; exact hall _ (List.getElem_mem hi)) he

theorem init_valid : init.Valid :=
  .of_empty (by decide) rfl rfl fun u hu => by simp [init] at hu; rw [hu]

/-! ## Writing a partial use -/

theorem mem_set_other {l : List PartialUse} {i k : Nat} {w : Def} (hil : i < l.length)
    (hslot : (slotAt l i).first = k ∨ (slotAt l i).first = emptyKey) {x : PartialUse}
    (hx : x.first ≠ emptyKey) (hxk : x.first ≠ k) : x ∈ l.set i ⟨k, w⟩ ↔ x ∈ l :=
  (mem_set_iff hil fun h => by rw [h] at hx hxk; exact hslot.elim hxk hx).trans
    (or_iff_right fun h => hxk (by rw [h]))

theorem keys_lt_set {l : List PartialUse} (h : ∀ u ∈ l, u.first ≠ emptyKey → u.first < 2 ^ 32)
    {i k : Nat} (w : Def) (hk32 : k < 2 ^ 32) :
    ∀ u ∈ l.set i ⟨k, w⟩, u.first ≠ emptyKey → u.first < 2 ^ 32 := fun u hu hue => by
  rcases List.mem_or_eq_of_mem_set hu with hu | rfl
  · exact h u hu hue
  · exact hk32

theorem set_own_slot {l : List PartialUse} (hr : Reach l)
    (hkeys : ∀ u ∈ l, u.first ≠ emptyKey → u.first < 2 ^ 32) {j k : Nat} (hj : j < l.length)
    (hkj : (slotAt l j).first = k) (hk : k ≠ emptyKey) (hk32 : k < 2 ^ 32) (v : Def) :
    Reach (l.set j ⟨k, v⟩) ∧ (∀ u ∈ l.set j ⟨k, v⟩, u.first ≠ emptyKey → u.first < 2 ^ 32) ∧
      (l.set j ⟨k, v⟩).countP PartialUse.occupied = l.countP PartialUse.occupied ∧
      (∀ x : PartialUse, x.first ≠ emptyKey → x.first ≠ k → (x ∈ l.set j ⟨k, v⟩ ↔ x ∈ l)) ∧
      ∀ v', (⟨k, v'⟩ : PartialUse) ∈ l.set j ⟨k, v⟩ ↔ v' = v := by
  have hu : (⟨k, v⟩ : PartialUse).first = (slotAt l j).first := hkj.symm
  exact ⟨hr.set_same hj hu, keys_lt_set hkeys v hk32, countP_set_same hj hu,
    fun x hx hxk => mem_set_other hj (.inl hkj) hx hxk,
    fun v' => mem_set_same_iff hr.uniqueKeys hj hkj hk⟩

/-- `partialUses_[k] = v` on a valid table, with `k` a `uint32_t` that is not the empty key: the
table stays valid, every `assert` holds, and read as a map it now sends `k` to `v`. It can only
fail by running out of fuel in the prime search of a rehash, the one at `4 * (load_ + 1)`. -/
theorem set_spec (fuel : Nat) {primes : List Nat} {t : PartialUses} {k : Nat} (v : Def)
    (ht : t.Valid) (hp : GoodCache primes) (hk : k ≠ emptyKey) (hk32 : k < 2 ^ 32) :
    (getFirstPrimeGreaterThanOrEqualTo fuel primes (4 * (t.load + 1)) = .error .outOfFuel ∧
      t.set fuel primes k v = .error .outOfFuel) ∨
      ∃ t' primes', t.set fuel primes k v = .ok (t', primes') ∧ t'.Valid ∧ GoodCache primes' ∧
        ∀ k', k' ≠ emptyKey → t'.lookup k' = if k' = k then some v else t.lookup k' := by
  obtain ⟨i, hi⟩ := findPartialUse_ok_of_empty (k := k) (ht.load_eq ▸ ht.load_lt)
  obtain ⟨hil, his⟩ := findPartialUse_spec hi
  have hkeys := ht.load_le_keys
  -- what a table that holds `k ↦ v` and otherwise what `t` holds reads as
  have hread : ∀ t' : PartialUses, Reach t'.entries →
      (∀ x : PartialUse, x.first ≠ emptyKey → x.first ≠ k → (x ∈ t'.entries ↔ x ∈ t.entries)) →
      (∀ v', (⟨k, v'⟩ : PartialUse) ∈ t'.entries ↔ v' = v) →
      ∀ k', k' ≠ emptyKey → t'.lookup k' = if k' = k then some v else t.lookup k' := by
    intro t' hr' hother hk' k' hk'e
    split_ifs with hkk
    · subst hkk; exact (lookup_eq_some_iff hr' hk'e).2 ((hk' v).2 rfl)
    · exact lookup_congr ht.reach hr' hk'e fun v' => hother _ hk'e hkk
  unfold set
  rw [hi]
  simp only
  by_cases hki : (slotAt t.entries i).first = k
  · -- the key is there: overwrite its range
    rw [if_pos hki]
    obtain ⟨hr, hkl, hcnt, hoth, hown⟩ := set_own_slot ht.reach ht.key_lt hil hki hk hk32 v
    exact .inr ⟨_, primes, rfl, ⟨by simpa using ht.size_pos, by simpa using ht.maxLoad_eq,
      ht.load_le, hcnt ▸ ht.load_eq, hkl, hr⟩, hp, hread _ hr hoth hown⟩
  -- a new key: claim the empty slot the scan stopped at
  rw [if_neg hki]
  have hie : (slotAt t.entries i).first = emptyKey := by
    simp only [stopsAt, Bool.or_eq_true, decide_eq_true_eq] at his
    exact his.resolve_left hki
  set l₁ := t.entries.set i ⟨k, (slotAt t.entries i).second⟩
  have hlen₁ : l₁.length = t.entries.length := List.length_set ..
  have hil₁ : i < l₁.length := hlen₁ ▸ hil
  have hcnt₁ : l₁.countP PartialUse.occupied = t.load + 1 := by
    rw [countP_set_empty hil hie hk, ht.load_eq]
  have hoth₁ : ∀ x : PartialUse, x.first ≠ emptyKey → x.first ≠ k → (x ∈ l₁ ↔ x ∈ t.entries) :=
    fun x hx hxk => mem_set_other hil (.inr hie) hx hxk
  have hkl₁ : ∀ u ∈ l₁, u.first ≠ emptyKey → u.first < 2 ^ 32 := keys_lt_set ht.key_lt _ hk32
  have hr₁ : Reach l₁ := ht.reach.set_empty hi hie
  rw [Nat.mod_eq_of_lt (by omega : t.load + 1 < 2 ^ 64)]
  by_cases hle : t.load + 1 ≤ t.maxLoad
  · -- room left
    rw [if_pos hle]
    obtain ⟨hr, hkl, hcnt, hoth, hown⟩ :=
      set_own_slot hr₁ hkl₁ hil₁ (by simp [l₁, slotAt_set_self hil]) hk hk32 v
    exact .inr ⟨_, primes, rfl, ⟨by simpa [hlen₁] using ht.size_pos,
      by simpa [hlen₁] using ht.maxLoad_eq, hle, by rw [hcnt, hcnt₁], hkl, hr⟩, hp,
      hread _ hr (fun x hx hxk => (hoth x hx hxk).trans (hoth₁ x hx hxk)) hown⟩
  -- rehash into at least four times the load, then write
  rw [if_neg hle]
  have harg : (t.load + 1) * 2 % 2 ^ 64 * 2 % 2 ^ 64 = 4 * (t.load + 1) := by omega
  rcases @getFirstPrime_ge fuel primes (4 * (t.load + 1)) hp (by omega) with
    hgp | ⟨newSize, primes', hgp, hge, hp'⟩
  · exact .inl ⟨hgp, by simp only [reserve, harg, hgp]⟩
  rw [← harg] at hgp
  obtain ⟨entries, hres, hr', hlen, hcnt', hmem'⟩ :=
    reserve_eq (t := ⟨l₁, t.load + 1, t.maxLoad⟩) hgp hr₁ (by simp only; omega)
  rw [hres]
  simp only
  -- the key is in the new table, so the second scan finds it
  obtain ⟨j, hj, hjv⟩ := List.mem_iff_getElem.1
    ((hmem' _ hk).2 (List.mem_set t.entries i hil _) : (⟨k, _⟩ : PartialUse) ∈ entries)
  rw [← slotAt_eq_getElem hj] at hjv
  have hfj := hr' j hj (by rw [hjv]; exact hk)
  rw [hjv] at hfj
  simp only at hfj
  rw [hfj]
  simp only [hjv, if_true]
  obtain ⟨hr, hkl, hcnt, hoth, hown⟩ := set_own_slot hr'
    (fun u hu hue => hkl₁ u ((hmem' u hue).1 hu) hue) hj (by rw [hjv]) hk hk32 v
  exact .inr ⟨_, primes', rfl, ⟨by simp only [List.length_set]; omega, by simp [hlen],
    by simp only; omega, by rw [hcnt, hcnt', hcnt₁], hkl, hr⟩, hp',
    hread _ hr (fun x hx hxk => (hoth x hx hxk).trans ((hmem' x hx).trans (hoth₁ x hx hxk)))
      hown⟩

theorem set_ok {fuel : Nat} (hF : PrimeFuel fuel) {primes : List Nat} {t : PartialUses} {k : Nat}
    (v : Def) (ht : t.Valid) (hp : GoodCache primes) (hk : k ≠ emptyKey) (hk32 : k < 2 ^ 32) :
    ∃ r, t.set fuel primes k v = .ok r := by
  rcases set_spec fuel v ht hp hk hk32 with ⟨hgp, -⟩ | ⟨t', primes', h, -⟩
  · obtain ⟨r, hr⟩ := hF hp (4 * (t.load + 1)) (by have := ht.load_le_keys; omega)
    rw [hr] at hgp
    cases hgp
  · exact ⟨_, h⟩

/-! ## Runs of the table -/

/-- `PartialUses::Init` in a create mode, then the `reserve(n)` of `UdState::Init` if it issues
one. -/
def create (fuel : Nat) (primes : List Nat) : Option Nat → Except Failure (PartialUses × List Nat)
  | none => .ok (init, primes)
  | some n => init.reserve fuel primes n

/-- The writes `partialUses_[k] = v`, in order. -/
def setAll (fuel : Nat) : List Nat → PartialUses → List (Nat × Def) →
    Except Failure (PartialUses × List Nat)
  | primes, t, [] => .ok (t, primes)
  | primes, t, (k, v) :: writes =>
    match t.set fuel primes k v with
    | .error e => .error e
    | .ok (t', primes') => setAll fuel primes' t' writes

/-- A created table, then the writes. -/
def run (fuel : Nat) (primes : List Nat) (n : Option Nat) (writes : List (Nat × Def)) :
    Except Failure (PartialUses × List Nat) :=
  match create fuel primes n with
  | .error e => .error e
  | .ok (t, primes) => setAll fuel primes t writes

/-- The map the writes describe: the range last written for each key. -/
def written (m : Nat → Option Def) (writes : List (Nat × Def)) : Nat → Option Def :=
  writes.foldl (fun m w k => if k = w.1 then some w.2 else m k) m

theorem written_congr {m₁ m₂ : Nat → Option Def} {p : Nat → Prop} (h : ∀ k, p k → m₁ k = m₂ k) :
    ∀ (writes : List (Nat × Def)) (k : Nat), p k → written m₁ writes k = written m₂ writes k
  | [], k, hk => h k hk
  | w :: writes, k, hk => written_congr (fun k hk => by simp only; split_ifs; rfl; exact h k hk)
      writes k hk

/-- A created table is valid and empty, whatever size `reserve` gives it. -/
theorem create_spec (fuel : Nat) {primes : List Nat} (hp : GoodCache primes) (n : Option Nat) :
    create fuel primes n = .error .outOfFuel ∨
      ∃ t primes', create fuel primes n = .ok (t, primes') ∧ t.Valid ∧ GoodCache primes' ∧
        ∀ k, k ≠ emptyKey → t.lookup k = none := by
  have hinit : ∀ k, k ≠ emptyKey → init.lookup k = none := fun k hk => by
    cases h : init.lookup k with
    | none => rfl
    | some v =>
      have := (lookup_eq_some_iff init_valid.reach hk).1 h
      simp [init] at this; exact absurd this.1 hk
  cases n with
  | none => exact .inr ⟨init, primes, rfl, init_valid, hp, hinit⟩
  | some n =>
    have hv : n * 2 % 2 ^ 64 ||| 1 = n * 2 % 2 ^ 64 + 1 := by rw [or_one_eq]; omega
    rcases @primeLoop_odd fuel primes (n * 2 % 2 ^ 64 ||| 1) hp (by omega) (by omega) with
      h | ⟨newSize, primes', h, hodd, -, hp'⟩
    · left; simp only [create, reserve, getFirstPrimeGreaterThanOrEqualTo, h]
    · obtain ⟨entries, hres, hr, hlen, hcnt, hmem⟩ := reserve_eq (t := init) h init_valid.reach
        (by rw [← init_valid.load_eq]; exact Nat.zero_le _)
      have hall : ∀ u ∈ entries, u.first = emptyKey := fun u hu => by
        by_contra hue
        have := (hmem u hue).1 hu
        simp [init] at this; exact hue (by rw [this])
      have hv' : (⟨entries, init.load, newSize / 2⟩ : PartialUses).Valid :=
        .of_empty (by simp only; omega) (by simp [hlen]) rfl hall
      refine .inr ⟨_, primes', hres, hv', hp', fun k hk => ?_⟩
      rw [lookup_congr init_valid.reach hv'.reach hk fun v => ?_, hinit k hk]
      exact (hmem _ hk).trans Iff.rfl

theorem create_ok {fuel : Nat} (hF : PrimeFuel fuel) {n : Nat} (hn : n < 2 ^ 59)
    {primes : List Nat} (hp : GoodCache primes) :
    ∃ t primes', create fuel primes (some n) = .ok (t, primes') ∧ GoodCache primes' := by
  obtain ⟨⟨newSize, primes'⟩, h⟩ := hF hp (n * 2 % 2 ^ 64) (by omega)
  rcases create_spec fuel hp (some n) with hc | ⟨t, primes', hc, -, hp', -⟩
  · obtain ⟨_, hres, -⟩ := reserve_eq (t := init) h init_valid.reach
      (by rw [← init_valid.load_eq]; exact Nat.zero_le _)
    rw [create, hres] at hc
    cases hc
  · exact ⟨t, primes', hc, hp'⟩

/-- Every write keeps the table valid and the map it reads as follows the writes. -/
theorem setAll_spec (fuel : Nat) :
    ∀ (writes : List (Nat × Def)) {primes : List Nat} {t : PartialUses}, t.Valid →
      GoodCache primes → (∀ w ∈ writes, w.1 ≠ emptyKey ∧ w.1 < 2 ^ 32) →
      setAll fuel primes t writes = .error .outOfFuel ∨
        ∃ t' primes', setAll fuel primes t writes = .ok (t', primes') ∧ t'.Valid ∧
          GoodCache primes' ∧ ∀ k, k ≠ emptyKey → t'.lookup k = written t.lookup writes k
  | [], primes, t, ht, hp, _ => .inr ⟨t, primes, rfl, ht, hp, fun _ _ => rfl⟩
  | (k, v) :: writes, primes, t, ht, hp, hw => by
    have hk := hw (k, v) (List.mem_cons_self _ _)
    rcases set_spec fuel v ht hp hk.1 hk.2 with ⟨-, h⟩ | ⟨t', primes', h, ht', hp', hl⟩
    · left; simp only [setAll, h]
    · rcases setAll_spec fuel writes ht' hp' fun w hw' => hw w (List.mem_cons_of_mem _ hw') with
        h' | ⟨t'', primes'', h', ht'', hp'', hl'⟩
      · left; simp only [setAll, h, h']
      · refine .inr ⟨t'', primes'', by simp only [setAll, h, h'], ht'', hp'', fun k' hk' => ?_⟩
        rw [hl' k' hk']
        exact written_congr hl writes k' hk'


theorem setAll_ok {fuel : Nat} (hF : PrimeFuel fuel) :
    ∀ (writes : List (Nat × Def)) {primes : List Nat} {t : PartialUses}, t.Valid →
      GoodCache primes → (∀ w ∈ writes, w.1 ≠ emptyKey ∧ w.1 < 2 ^ 32) →
      ∃ r, setAll fuel primes t writes = .ok r
  | [], _, _, _, _, _ => ⟨_, rfl⟩
  | (k, v) :: writes, primes, t, ht, hp, hw => by
    have hk := hw (k, v) (List.mem_cons_self _ _)
    rcases set_spec fuel v ht hp hk.1 hk.2 with ⟨-, h⟩ | ⟨t', primes', h, ht', hp', -⟩
    · obtain ⟨r, hr⟩ := set_ok hF v ht hp hk.1 hk.2
      rw [hr] at h
      cases h
    · obtain ⟨r, hr⟩ := setAll_ok hF writes ht' hp' fun w hw' => hw w (List.mem_cons_of_mem _ hw')
      exact ⟨r, by simp only [setAll, h, hr]⟩

theorem run_ok {fuel : Nat} (hF : PrimeFuel fuel) {primes : List Nat} (hp : GoodCache primes)
    {n : Option Nat} (hn : ∀ m ∈ n, m < 2 ^ 59) {writes : List (Nat × Def)}
    (hw : ∀ w ∈ writes, w.1 ≠ emptyKey ∧ w.1 < 2 ^ 32) :
    ∃ r, run fuel primes n writes = .ok r := by
  rcases create_spec fuel hp n with h | ⟨t, primes', h, ht, hp', -⟩
  · cases n with
    | none => cases h
    | some m =>
      obtain ⟨_, _, h', -⟩ := create_ok hF (hn m rfl) hp
      rw [h'] at h
      cases h
  · obtain ⟨r, hr⟩ := setAll_ok hF writes ht hp' hw
    exact ⟨r, by simp only [run, h, hr]⟩

theorem run_spec (fuel : Nat) {primes : List Nat} (hp : GoodCache primes) (n : Option Nat)
    {writes : List (Nat × Def)} (hw : ∀ w ∈ writes, w.1 ≠ emptyKey ∧ w.1 < 2 ^ 32) :
    run fuel primes n writes = .error .outOfFuel ∨
      ∃ t primes', run fuel primes n writes = .ok (t, primes') ∧ t.Valid ∧
        ∀ k, k ≠ emptyKey → ∃ r, t.find k = .ok r ∧
          r.map (fun i => (slotAt t.entries i).second) = written (fun _ => none) writes k := by
  rcases create_spec fuel hp n with h | ⟨t0, p0, h, ht0, hp0, hl0⟩
  · left; simp only [run, h]
  rcases setAll_spec fuel writes ht0 hp0 hw with h' | ⟨t, primes', h', ht, -, hl⟩
  · left; simp only [run, h, h']
  refine .inr ⟨t, primes', by simp only [run, h, h'], ht, fun k hk => ?_⟩
  obtain ⟨r, hr⟩ := ht.find_ok k
  refine ⟨r, hr, ?_⟩
  have hlk : t.lookup k = r.map fun i => (slotAt t.entries i).second := by
    cases r <;> simp [lookup, hr]
  rw [← hlk, hl k hk]
  exact written_congr hl0 writes k hk

/-- From `Init` in a create mode, after the `reserve(n)` of `UdState::Init` if there is one and
any writes `partialUses_[k] = v` of `uint32_t` keys other than `0xFFFFFFFF`: no `assert` fails and
nothing divides by zero (at any fuel a run can only stop by running out of fuel in the prime
search), the table is valid, and `find(k)` returns the slot holding the range last written for
`k`, or `nullptr` when `k` was never written. With enough fuel the run returns, for every `n`
whose doubling stays below `2 ^ 60`. -/
theorem find_returns_last_written {primes : List Nat} (hp : GoodCache primes)
    (n : Option Nat) {writes : List (Nat × Def)}
    (hw : ∀ w ∈ writes, w.1 ≠ emptyKey ∧ w.1 < 2 ^ 32) :
    (∀ fuel, run fuel primes n writes = .error .outOfFuel ∨
      ∃ t primes', run fuel primes n writes = .ok (t, primes') ∧ t.Valid ∧
        ∀ k, k ≠ emptyKey → ∃ r, t.find k = .ok r ∧
          r.map (fun i => (slotAt t.entries i).second) = written (fun _ => none) writes k) ∧
    ((∀ m ∈ n, m < 2 ^ 59) → ∃ F, ∀ fuel, F ≤ fuel →
      ∃ t primes', run fuel primes n writes = .ok (t, primes') ∧ t.Valid ∧
        ∀ k, k ≠ emptyKey → ∃ r, t.find k = .ok r ∧
          r.map (fun i => (slotAt t.entries i).second) = written (fun _ => none) writes k) := by
  refine ⟨fun fuel => run_spec fuel hp n hw, fun hn => ?_⟩
  obtain ⟨F, hF⟩ := exists_primeFuel
  refine ⟨F, fun fuel hf => (run_spec fuel hp n hw).resolve_left fun h => ?_⟩
  obtain ⟨r, hr⟩ := run_ok (hF fuel hf) hp hn hw
  rw [hr] at h
  cases h

/-- A table of one slot, as `reserve(0)` makes it, then a write that rehashes it: four rounds of
the prime search are enough. -/
theorem find_returns_last_written_after_rehash :
    ∃ t primes', run 4 initialPrimes (some 0) [(7, ⟨1, 2⟩)] = .ok (t, primes') ∧ t.Valid ∧
      ∀ k, k ≠ emptyKey → ∃ r, t.find k = .ok r ∧
        r.map (fun i => (slotAt t.entries i).second) = written (fun _ => none) [(7, ⟨1, 2⟩)] k :=
  ((find_returns_last_written goodCache_initialPrimes (some 0)
    (by simp [emptyKey, uint32Max])).1 4).resolve_left fun h => by
    have hok : (run 4 initialPrimes (some 0) [(7, ⟨1, 2⟩)]).toBool = true := by decide!
    rw [h] at hok
    cases hok

end PartialUses

end Memtrace
