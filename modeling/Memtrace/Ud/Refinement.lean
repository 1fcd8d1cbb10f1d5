import Memtrace.Ud.LastWriter

/-! # The use-def state refines its abstraction

On calls whose ranges are non-empty and do not wrap, and while the `uint32_t` def and use indices
do not wrap, the concrete `UdState` is the abstract `UdSpec` of `LastWriter`.

* `addDefs_eq`, `addDefs_einval` and `addDefs_ok_zero` say what `AddDefs` does on a tiled map:
  the abstract `overwrite` under the index `uint32_t(defs_.size())`, or `-EINVAL` with the state
  untouched.
* `Refines s sp`: the same map and defs, uses that name the same defs and read the same ranges
  (`effectiveRange`, the range `ResolveUse` reports), and a valid partial-use table with no key
  from the next use index on. `addDefs_refines` and `addUses_refines` are one call each,
  `refines_run` a whole run, with the room in `uint32_t` as bounds on the abstract run.
* `runCalls_tracks_last_writer`: after well-formed calls from the seed the map tiles the address
  space and names the last writer of every byte; `addDefs_wraps_def_index` shows the bound on the
  def count is needed.
* `addUses_covers_read`: the uses of a read are non-empty and cover it.
* `addDefs_einval_iff_many_meet`: `-EINVAL` changes nothing, and on a reachable state it is
  returned exactly when more than `kMaxAffectedCount` intervals meet the range.
-/

namespace Memtrace

set_option autoImplicit false

namespace UdState

variable (ws : WordSize)

/-- The range use `u` reads: its partial-use entry if there is one, else the def it names. -/
def effectiveRange (s : UdState) (u : Nat) : Option Def :=
  match s.uses[u]? with
  | none => none
  | some d =>
    match s.partialUses.lookup u with
    | some r => some r
    | none => s.defs[d]?

/-! ## `AddDefs` on a tiled map -/

theorem add_eq_of_le {startAddr size : Nat} (h : startAddr + size ≤ ws.max) :
    ws.add startAddr size = startAddr + size :=
  ws.add_of_lt (by have := ws.max_add_one; omega)

/-- For a well-formed range on a tiled map, the entries the loops of `AddUses` and `AddDefs` visit
are the intervals that meet the range. -/
theorem affected_eq {m : AddressSpace} {startAddr size : Nat} (h₁ : 1 ≤ size)
    (h₂ : startAddr + size ≤ ws.max) (ht : AddressSpace.Tiles 0 ws.max m) :
    AddressSpace.affected m (ws.add startAddr 1) (ws.add startAddr size) =
      m.filter (AddressSpace.meets startAddr (startAddr + size)) := by
  rw [add_eq_of_le ws h₂, add_eq_of_le ws (by omega : startAddr + 1 ≤ ws.max)]
  exact ht.affected_eq_filter (by omega)

/-- `AddDefs` of a range that meets at most `kMaxAffectedCount` intervals of a tiled map returns 0
after overwriting the range with a new def. -/
theorem addDefs_eq {s : UdState} {startAddr size : Nat} (h₁ : 1 ≤ size)
    (h₂ : startAddr + size ≤ ws.max) (ht : AddressSpace.Tiles 0 ws.max s.addressSpace)
    (hc : (s.addressSpace.filter (AddressSpace.meets startAddr (startAddr + size))).length ≤
      kMaxAffectedCount) :
    addDefs ws s startAddr size =
      .ok (0, { s with
        defs := s.defs ++ [⟨startAddr, startAddr + size⟩]
        addressSpace := AddressSpace.overwrite s.addressSpace startAddr (startAddr + size)
          (u32 s.defs.length) }) := by
  have hmap := AddressSpace.addDefsMap_eq_overwrite ht (Nat.zero_le startAddr)
    (by omega : startAddr < startAddr + size) h₂ (u32 s.defs.length)
  rw [ht.affected_eq_filter (by omega)] at hmap
  have hc' : u32 (s.addressSpace.filter (AddressSpace.meets startAddr (startAddr + size))).length
      ≤ kMaxAffectedCount := by
    rw [u32_of_lt (by simp only [kMaxAffectedCount] at hc; omega)]; exact hc
  unfold addDefs
  simp only [add_eq_of_le ws h₂, add_eq_of_le ws (by omega : startAddr + 1 ≤ ws.max),
    ht.affected_eq_filter (by omega : startAddr < startAddr + size)]
  rw [if_neg (by omega), if_neg (by omega)]
  simp only [addDef, hmap]

/-- `AddDefs` of a range that meets more than `kMaxAffectedCount` intervals of a tiled map (fewer
than `2 ^ 32` of them) returns `-EINVAL` and leaves the state as it was. -/
theorem addDefs_einval {s : UdState} {startAddr size : Nat} (h₁ : 1 ≤ size)
    (h₂ : startAddr + size ≤ ws.max) (ht : AddressSpace.Tiles 0 ws.max s.addressSpace)
    (hc : kMaxAffectedCount <
      (s.addressSpace.filter (AddressSpace.meets startAddr (startAddr + size))).length)
    (hc' : (s.addressSpace.filter (AddressSpace.meets startAddr (startAddr + size))).length <
      2 ^ 32) :
    addDefs ws s startAddr size = .ok (-EINVAL, s) := by
  unfold addDefs
  simp only [affected_eq ws h₁ h₂ ht]
  rw [if_pos (by rw [u32_of_lt hc']; exact hc)]

/-- Whatever the state, `-EINVAL` leaves it as it was: `AddDefs` counts before it changes
anything. -/
theorem addDefs_einval_unchanged {s s' : UdState} {startAddr size : Nat}
    (h : addDefs ws s startAddr size = .ok (-EINVAL, s')) : s' = s := by
  unfold addDefs at h
  dsimp only at h
  split_ifs at h
  · cases h; rfl
  · cases h

theorem addDefs_zero_le {s s' : UdState} {startAddr size : Nat}
    (h : addDefs ws s startAddr size = .ok (0, s')) :
    (AddressSpace.affected s.addressSpace (ws.add startAddr 1) (ws.add startAddr size)).length ≤
      kMaxAffectedCount := by
  unfold addDefs at h
  dsimp only at h
  split_ifs at h with h₁ h₂
  · cases h
  · omega

/-- A well-formed `AddDefs` that returns 0 on a tiled map overwrites the range with the new def. -/
theorem addDefs_ok_zero {s s' : UdState} {startAddr size : Nat} (h₁ : 1 ≤ size)
    (h₂ : startAddr + size ≤ ws.max) (ht : AddressSpace.Tiles 0 ws.max s.addressSpace)
    (h : addDefs ws s startAddr size = .ok (0, s')) :
    s' = { s with
      defs := s.defs ++ [⟨startAddr, startAddr + size⟩]
      addressSpace := AddressSpace.overwrite s.addressSpace startAddr (startAddr + size)
        (u32 s.defs.length) } := by
  have hc := addDefs_zero_le ws h
  rw [affected_eq ws h₁ h₂ ht] at hc
  rw [addDefs_eq ws h₁ h₂ ht hc] at h
  cases h; rfl

theorem call_addDefs {fuel : Nat} {s s' : UdState} {primes primes' : List Nat}
    {startAddr size : Nat}
    (h : call ws fuel s primes (.addDefs startAddr size) = .ok (s', primes')) :
    addDefs ws s startAddr size = .ok (0, s') ∧ primes' = primes := by
  simp only [call] at h
  split at h
  · cases h
  · rename_i r s₁ hr
    split_ifs at h with h0
    cases h; subst h0; exact ⟨hr, rfl⟩

/-! ## `AddUses` -/

theorem addUsesLoop_frame {fuel startAddr endAddr : Nat} :
    ∀ {l : List (Nat × EntryValue)} {s s' : UdState} {primes primes' : List Nat},
      addUsesLoop fuel startAddr endAddr l s primes = .ok (s', primes') →
      s'.addressSpace = s.addressSpace ∧ s'.defs = s.defs
  | [], s, s', primes, primes', h => by cases h; exact ⟨rfl, rfl⟩
  | entry :: l, s, s', primes, primes', h => by
    unfold addUsesLoop at h
    split at h
    · cases h
    · rename_i s₁ p₁ h₁
      have := addUsesLoop_frame h
      unfold addUse at h₁
      dsimp only at h₁
      split at h₁
      · cases h₁
      · split_ifs at h₁
        · split at h₁
          · cases h₁
          · cases h₁; exact this
        · cases h₁; exact this

theorem call_tiles {fuel : Nat} {s s' : UdState} {primes primes' : List Nat} {c : UdCall}
    (ht : AddressSpace.Tiles 0 ws.max s.addressSpace) (hc : c.WellFormed ws)
    (h : call ws fuel s primes c = .ok (s', primes')) :
    AddressSpace.Tiles 0 ws.max s'.addressSpace := by
  cases c with
  | addDefs startAddr size =>
    rw [addDefs_ok_zero ws hc.1 hc.2 ht (call_addDefs ws h).1]
    exact ht.overwrite (Nat.zero_le _) (by have := hc.1; omega) hc.2
  | addUses startAddr size =>
    simp only [call, addUses] at h
    exact (addUsesLoop_frame h).1 ▸ ht

theorem runCalls_tiles {fuel : Nat} :
    ∀ {calls : List UdCall} {s s' : UdState} {primes primes' : List Nat},
      AddressSpace.Tiles 0 ws.max s.addressSpace → (∀ c ∈ calls, c.WellFormed ws) →
      runCalls ws fuel s primes calls = .ok (s', primes') →
      AddressSpace.Tiles 0 ws.max s'.addressSpace
  | [], s, s', primes, primes', ht, _, h => by cases h; exact ht
  | c :: calls, s, s', primes, primes', ht, hc, h => by
    unfold runCalls at h
    split at h
    · cases h
    · rename_i s₁ p₁ h₁
      exact runCalls_tiles (call_tiles ws ht (hc c (List.mem_cons_self _ _)) h₁)
        (fun c' hc' => hc c' (List.mem_cons_of_mem _ hc')) h

/-! ## The refinement relation -/

/-- The concrete state is the abstract one: the same map and defs, uses that name the same defs
and read the same ranges, and a valid partial-use table that holds no key from the next use index
on. -/
structure Refines (s : UdState) (sp : UdSpec) : Prop where
  addressSpace_eq : s.addressSpace = sp.liveMap
  defs_eq : s.defs = sp.defs
  uses_eq : s.uses = sp.uses.map Prod.fst
  range_eq : ∀ u, s.effectiveRange u = sp.uses[u]?.map Prod.snd
  valid : s.partialUses.Valid
  fresh : ∀ k, sp.uses.length ≤ k → k ≠ emptyKey → s.partialUses.lookup k = none

theorem effectiveRange_append_defs {s : UdState} (hlt : ∀ i ∈ s.uses, i < s.defs.length)
    (ds : List Def) (m : AddressSpace) (u : Nat) :
    effectiveRange { s with defs := s.defs ++ ds, addressSpace := m } u = effectiveRange s u := by
  simp only [effectiveRange]
  cases hu : s.uses[u]? with
  | none => rfl
  | some i => simp only [List.getElem?_append_left (hlt i (List.getElem?_mem hu))]

/-- A use appended to a refining state, with the table after it: the new use reads `r`, through a
partial use or through its def, and no other key of the table changed. -/
theorem Refines.push {s : UdState} {sp : UdSpec} (h : s.Refines sp)
    (hlen : sp.uses.length < 2 ^ 32 - 1) {i : Nat} {r : Def} {t : PartialUses} (ht : t.Valid)
    (hnew : t.lookup sp.uses.length = some r ∨
      t.lookup sp.uses.length = none ∧ s.defs[i]? = some r)
    (hold : ∀ k, k ≠ emptyKey → k ≠ sp.uses.length → t.lookup k = s.partialUses.lookup k) :
    Refines { s with uses := s.uses ++ [i], partialUses := t }
      { sp with uses := sp.uses ++ [(i, r)] } := by
  have hsl : s.uses.length = sp.uses.length := by rw [h.uses_eq, List.length_map]
  refine ⟨h.addressSpace_eq, h.defs_eq, by simp [h.uses_eq], fun u => ?_, ht, fun k hk hke => ?_⟩
  · simp only [effectiveRange]
    rcases Nat.lt_trichotomy u sp.uses.length with hu | rfl | hu
    · -- an old use: the same def, and its key is not the new one
      have hr := h.range_eq u
      simp only [effectiveRange] at hr
      rw [List.getElem?_append_left (hsl ▸ hu), List.getElem?_append_left hu,
        hold u (by simp only [emptyKey, uint32Max]; omega) (by omega), ← hr]
    · rw [← hsl, List.getElem?_concat_length, hsl, List.getElem?_concat_length]
      rcases hnew with hn | ⟨hn, hd⟩ <;> simp only [hn, Option.map_some']
      exact hd
    · rw [List.getElem?_eq_none (by simp only [List.length_append, List.length_singleton]; omega),
        List.getElem?_eq_none (by simp only [List.length_append, List.length_singleton]; omega)]
      rfl
  · simp only [List.length_append, List.length_singleton] at hk
    rw [hold k hke (by omega)]
    exact h.fresh k (by omega) hke

/-- One pass of the loop of `AddUses`: the use of a live interval reads the part of it that the
read covers. -/
theorem addUse_refines {fuel startAddr endAddr : Nat} {entry : Nat × EntryValue} {s s' : UdState}
    {sp : UdSpec} {primes primes' : List Nat} (h : s.Refines sp) (hp : GoodCache primes)
    (hlen : sp.uses.length < 2 ^ 32 - 1) (hd : ∃ d, sp.defs[entry.2.defIndex]? = some d)
    (ha : addUse fuel startAddr endAddr entry s primes = .ok (s', primes')) :
    s'.Refines { sp with uses := sp.uses ++
        [(entry.2.defIndex, ⟨max startAddr entry.2.startAddr, min endAddr entry.1⟩)] } ∧
      GoodCache primes' := by
  obtain ⟨d, hd⟩ := hd
  have hk : sp.uses.length ≠ emptyKey := by simp only [emptyKey, uint32Max]; omega
  have hidx : u32 s.uses.length = sp.uses.length := by
    rw [h.uses_eq, List.length_map, u32_of_lt (by omega)]
  have hd' : s.defs.get? entry.2.defIndex = some d := by rw [List.get?_eq_getElem?, h.defs_eq, hd]
  unfold addUse at ha
  simp only [hidx, hd'] at ha
  split_ifs at ha with hne
  · -- the read covers part of the def: a partial use
    rcases PartialUses.set_spec fuel ⟨max startAddr entry.2.startAddr, min endAddr entry.1⟩
      h.valid hp hk (by omega) with ⟨-, hs⟩ | ⟨t, p, hs, hv, hp', hl⟩
    · rw [hs] at ha; cases ha
    · rw [hs] at ha
      cases ha
      exact ⟨h.push hlen hv (.inl (by rw [hl _ hk, if_pos rfl]))
        fun k hk₁ hk₂ => by rw [hl k hk₁, if_neg hk₂], hp'⟩
  · -- the read covers the whole def
    cases ha
    have hdr : d = ⟨max startAddr entry.2.startAddr, min endAddr entry.1⟩ := by
      obtain ⟨d₁, d₂⟩ := d
      simp only [ne_eq, not_or, not_not] at hne
      rw [hne.1, hne.2]
    exact ⟨h.push hlen h.valid (.inr ⟨h.fresh _ le_rfl hk, by rw [h.defs_eq, hd, hdr]⟩)
      fun _ _ _ => rfl, hp⟩

theorem addUsesLoop_refines {fuel startAddr endAddr : Nat} :
    ∀ {l : List (Nat × EntryValue)} {s s' : UdState} {sp : UdSpec} {primes primes' : List Nat},
      s.Refines sp → GoodCache primes → sp.uses.length + l.length ≤ 2 ^ 32 - 1 →
      (∀ p ∈ l, ∃ d, sp.defs[p.2.defIndex]? = some d) →
      addUsesLoop fuel startAddr endAddr l s primes = .ok (s', primes') →
      s'.Refines { sp with uses := sp.uses ++ l.map fun p =>
        (p.2.defIndex, ⟨max startAddr p.2.startAddr, min endAddr p.1⟩) } ∧ GoodCache primes'
  | [], s, s', sp, primes, primes', h, hp, _, _, ha => by
    cases ha
    simp only [List.map_nil, List.append_nil]
    exact ⟨h, hp⟩
  | entry :: l, s, s', sp, primes, primes', h, hp, hlen, hd, ha => by
    unfold addUsesLoop at ha
    split at ha
    · cases ha
    · rename_i s₁ p₁ h₁
      simp only [List.length_cons] at hlen
      obtain ⟨hr₁, hp₁⟩ := addUse_refines h hp (by omega) (hd entry (List.mem_cons_self _ _)) h₁
      have := addUsesLoop_refines hr₁ hp₁
        (by simp only [List.length_append, List.length_singleton]; omega)
        (fun p hp => hd p (List.mem_cons_of_mem _ hp)) ha
      simpa only [List.map_cons, List.append_assoc, List.singleton_append] using this

/-- `AddUses` is the abstract read: one use per live interval that meets the range. -/
theorem addUses_refines {fuel : Nat} {s s' : UdState} {sp : UdSpec} {primes primes' : List Nat}
    {startAddr size : Nat} (h : s.Refines sp) (hi : sp.Inv ws) (hp : GoodCache primes)
    (h₁ : 1 ≤ size) (h₂ : startAddr + size ≤ ws.max)
    (hlen : (UdSpec.step sp (.addUses startAddr size)).uses.length ≤ 2 ^ 32 - 1)
    (ha : addUses ws fuel s primes startAddr size = .ok (s', primes')) :
    s'.Refines (UdSpec.step sp (.addUses startAddr size)) ∧ GoodCache primes' := by
  have ht : AddressSpace.Tiles 0 ws.max s.addressSpace := h.addressSpace_eq ▸ hi.tiles
  simp only [addUses] at ha
  rw [affected_eq ws h₁ h₂ ht, add_eq_of_le ws h₂, h.addressSpace_eq] at ha
  simp only [UdSpec.step, UdSpec.readUses, List.length_append, List.length_map] at hlen ⊢
  exact addUsesLoop_refines h hp hlen (fun p hp => by
    obtain ⟨d, hd, -⟩ := hi.within p (List.mem_filter.1 hp).1
    exact ⟨d, hd⟩) ha

/-- `AddDefs` is the abstract write while the def index fits in `uint32_t`. -/
theorem addDefs_refines {s s' : UdState} {sp : UdSpec} {startAddr size : Nat}
    (h : s.Refines sp) (hi : sp.Inv ws) (h₁ : 1 ≤ size) (h₂ : startAddr + size ≤ ws.max)
    (hlen : sp.defs.length < 2 ^ 32) (ha : addDefs ws s startAddr size = .ok (0, s')) :
    s'.Refines (UdSpec.step sp (.addDefs startAddr size)) := by
  rw [addDefs_ok_zero ws h₁ h₂ (h.addressSpace_eq ▸ hi.tiles) ha]
  have hlt : ∀ i ∈ s.uses, i < s.defs.length := fun i hi' => by
    rw [h.uses_eq] at hi'
    obtain ⟨u, hu, rfl⟩ := List.mem_map.1 hi'
    exact h.defs_eq ▸ hi.uses_lt u hu
  refine ⟨?_, by rw [h.defs_eq]; rfl, h.uses_eq, fun u => ?_, h.valid, h.fresh⟩
  · show AddressSpace.overwrite _ _ _ _ = AddressSpace.overwrite _ _ _ _
    rw [h.addressSpace_eq, h.defs_eq, u32_of_lt hlen]
  · rw [effectiveRange_append_defs hlt, h.range_eq]; rfl

theorem call_refines {fuel : Nat} {s s' : UdState} {sp : UdSpec} {primes primes' : List Nat}
    {c : UdCall} (h : s.Refines sp) (hi : sp.Inv ws) (hp : GoodCache primes)
    (hc : c.WellFormed ws) (hd : (UdSpec.step sp c).defs.length ≤ 2 ^ 32)
    (hu : (UdSpec.step sp c).uses.length ≤ 2 ^ 32 - 1)
    (hr : call ws fuel s primes c = .ok (s', primes')) :
    s'.Refines (UdSpec.step sp c) ∧ GoodCache primes' := by
  cases c with
  | addDefs startAddr size =>
    obtain ⟨hz, rfl⟩ := call_addDefs ws hr
    simp only [UdSpec.step, List.length_append, List.length_singleton] at hd
    exact ⟨addDefs_refines ws h hi hc.1 hc.2 (by omega) hz, hp⟩
  | addUses startAddr size => exact addUses_refines ws h hi hp hc.1 hc.2 hu hr

/-- A run of well-formed calls refines the abstract run, while the abstract run has at most
`2 ^ 32` defs and `2 ^ 32 - 1` uses. -/
theorem refines_run {fuel : Nat} :
    ∀ {calls : List UdCall} {s s' : UdState} {sp : UdSpec} {primes primes' : List Nat},
      s.Refines sp → sp.Inv ws → GoodCache primes → (∀ c ∈ calls, c.WellFormed ws) →
      (UdSpec.run sp calls).defs.length ≤ 2 ^ 32 →
      (UdSpec.run sp calls).uses.length ≤ 2 ^ 32 - 1 →
      runCalls ws fuel s primes calls = .ok (s', primes') →
      s'.Refines (UdSpec.run sp calls) ∧ GoodCache primes'
  | [], s, s', sp, primes, primes', h, _, hp, _, _, _, hr => by cases hr; exact ⟨h, hp⟩
  | c :: calls, s, s', sp, primes, primes', h, hi, hp, hc, hd, hu, hr => by
    unfold runCalls at hr
    split at hr
    · cases hr
    · rename_i s₁ p₁ h₁
      rw [UdSpec.run_cons] at hd hu ⊢
      have hwf := hc c (List.mem_cons_self _ _)
      obtain ⟨hd₁, hu₁⟩ := UdSpec.length_le_run (UdSpec.step sp c) calls
      obtain ⟨hr₁, hp₁⟩ := call_refines ws h hi hp hwf (by omega) (by omega) h₁
      exact refines_run hr₁ (UdSpec.inv_step ws hi hwf) hp₁
        (fun c' hc' => hc c' (List.mem_cons_of_mem _ hc')) hd hu hr

theorem seed_refines {fuel : Nat} {primes : List Nat} (hp : GoodCache primes) {n : Nat}
    {s : UdState} {primes' : List Nat} (h : seed ws fuel primes n = .ok (s, primes')) :
    s.Refines (UdSpec.seed ws) ∧ GoodCache primes' := by
  obtain ⟨t, ht, rfl⟩ := seed_eq ws h
  rcases PartialUses.create_spec fuel hp (some n) with hc | ⟨t', p', hc, hv, hp', hl⟩
  · rw [hc] at ht; cases ht
  · rw [hc] at ht
    cases ht
    exact ⟨⟨rfl, rfl, rfl, fun u => rfl, hv, fun k _ hk => hl k hk⟩, hp'⟩

/-! ## The last writer of every byte -/

/-- On well-formed calls from the seed, while the abstract run has at most `2 ^ 32` defs and
`2 ^ 32 - 1` uses, the state after the calls is the abstract one (`AddDefs` appends one def and
overwrites its range, `AddUses` appends the uses `readUses` lists), its map tiles `[0, max)`, and
the interval holding byte `x` names the last def written over `x` and lies inside it. -/
theorem runCalls_tracks_last_writer (fuel : Nat) {primes : List Nat} (hp : GoodCache primes)
    (n : Nat) {calls : List UdCall} (hc : ∀ c ∈ calls, c.WellFormed ws)
    (hdefs : (UdSpec.run (UdSpec.seed ws) calls).defs.length ≤ 2 ^ 32)
    (huses : (UdSpec.run (UdSpec.seed ws) calls).uses.length ≤ 2 ^ 32 - 1)
    {s₀ s : UdState} {p₀ p : List Nat} (h₀ : seed ws fuel primes n = .ok (s₀, p₀))
    (h : runCalls ws fuel s₀ p₀ calls = .ok (s, p)) :
    s.Refines (UdSpec.run (UdSpec.seed ws) calls) ∧ AddressSpace.Tiles 0 ws.max s.addressSpace ∧
      ∀ x < ws.max, ∃ q d, AddressSpace.entryAt s.addressSpace x = some q ∧
        q.2.startAddr ≤ x ∧ x < q.1 ∧ q.2.defIndex = lastDef s.defs x ∧
        s.defs[q.2.defIndex]? = some d ∧ d.startAddr ≤ q.2.startAddr ∧ q.1 ≤ d.endAddr := by
  obtain ⟨hr₀, hp₀⟩ := seed_refines ws hp h₀
  have hi := UdSpec.inv_run ws (UdSpec.inv_seed ws) hc
  obtain ⟨hr, -⟩ := refines_run ws hr₀ (UdSpec.inv_seed ws) hp₀ hc hdefs huses h
  refine ⟨hr, hr.addressSpace_eq ▸ hi.tiles, fun x hx => ?_⟩
  rw [hr.addressSpace_eq, hr.defs_eq]
  obtain ⟨q, hq, hq₁, hq₂⟩ := hi.tiles.entryAt_spec (Nat.zero_le x) hx
  obtain ⟨d, hd, hd₁, hd₂⟩ := hi.within q (AddressSpace.entryAt_mem hq)
  exact ⟨q, d, hq, hq₁, hq₂, hi.last x hx q hq, hd, hd₁, hd₂⟩

/-- A store of `[4, 8)` and a load of the same bytes after it, on 4-byte words. -/
theorem runCalls_tracks_last_writer_store_load :
    ∃ s₀ p₀ s p, seed .four 2 initialPrimes 0 = .ok (s₀, p₀) ∧
      runCalls .four 2 s₀ p₀ [.addDefs 4 4, .addUses 4 4] = .ok (s, p) ∧
      s.Refines (UdSpec.run (UdSpec.seed .four) [.addDefs 4 4, .addUses 4 4]) ∧
      AddressSpace.Tiles 0 WordSize.four.max s.addressSpace ∧
      ∀ x < WordSize.four.max, ∃ q d, AddressSpace.entryAt s.addressSpace x = some q ∧
        q.2.startAddr ≤ x ∧ x < q.1 ∧ q.2.defIndex = lastDef s.defs x ∧
        s.defs[q.2.defIndex]? = some d ∧ d.startAddr ≤ q.2.startAddr ∧ q.1 ≤ d.endAddr :=
  ⟨_, _, _, _, rfl, rfl,
    runCalls_tracks_last_writer .four 2 goodCache_initialPrimes 0 (by decide) (by decide)
    (by decide) rfl rfl⟩

/-- `2 ^ 32` writes `AddDefs(0, 1)` from the seed: the last of them appends the def of index
`2 ^ 32`, the last write of byte 0, but the map records its index as `uint32_t(2 ^ 32) = 0`, the
catch-all. -/
theorem addDefs_wraps_def_index :
    ∃ s primes s' primes', seed .four 2 initialPrimes 0 = .ok (s, primes) ∧
      runCalls .four 2 s primes (List.replicate (2 ^ 32) (.addDefs 0 1)) = .ok (s', primes') ∧
      s'.defs.length = 2 ^ 32 + 1 ∧ s'.defs.getLast? = some ⟨0, 1⟩ ∧ lastDef s'.defs 0 = 2 ^ 32 ∧
      AddressSpace.entryAt s'.addressSpace 0 = some (1, ⟨0, 0⟩) := by
  obtain ⟨s, p, hs⟩ : ∃ s p, seed .four 2 initialPrimes 0 = .ok (s, p) := ⟨_, _, rfl⟩
  obtain ⟨t, -, rfl⟩ := seed_eq .four hs
  have hfirst : addDefs .four ⟨[], t, [⟨0, WordSize.four.max⟩], [(WordSize.four.max, ⟨0, 0⟩)]⟩ 0 1 =
      .ok (0, ⟨[], t, [⟨0, WordSize.four.max⟩, ⟨0, 1⟩], [(1, ⟨0, 1⟩), (2 ^ 32 - 1, ⟨1, 0⟩)]⟩) :=
    rfl
  have hrep : List.replicate (2 ^ 32) (UdCall.addDefs 0 1) =
      .addDefs 0 1 :: List.replicate (2 ^ 32 - 2 + 1) (.addDefs 0 1) :=
    List.replicate_succ ..
  refine ⟨_, p, ⟨[], t, [⟨0, WordSize.four.max⟩, ⟨0, 1⟩] ++
    List.replicate (2 ^ 32 - 2 + 1) ⟨0, 1⟩,
    [(1, ⟨0, u32 (2 + (2 ^ 32 - 2))⟩), (2 ^ 32 - 1, ⟨1, 0⟩)]⟩, p, hs, ?_, ?_, ?_, ?_, ?_⟩
  · rw [hrep, runCalls, call, hfirst]
    exact runCalls_addDefs_zero_one 2 (2 ^ 32 - 2) _ 1
  · rw [List.length_append, List.length_replicate]; rfl
  · rw [List.getLast?_append, List.getLast?_replicate, if_neg (by decide)]; rfl
  · rw [List.replicate_succ', ← List.append_assoc, lastDef_append, if_pos (by decide),
      List.length_append, List.length_replicate]
    rfl
  · show AddressSpace.entryAt [(1, ⟨0, u32 (2 + (2 ^ 32 - 2))⟩), (2 ^ 32 - 1, ⟨1, 0⟩)] 0 = _
    rw [show u32 (2 + (2 ^ 32 - 2)) = 0 from rfl]; rfl

/-! ## The uses of a read cover it -/

theorem Refines.range_append {s : UdState} {sp : UdSpec} {R : List (Nat × Def)}
    (h : s.Refines { sp with uses := sp.uses ++ R }) (i : Nat) :
    s.effectiveRange (sp.uses.length + i) = R[i]?.map Prod.snd := by
  rw [h.range_eq, List.getElem?_append_right (Nat.le_add_right _ _), Nat.add_sub_cancel_left]

/-- On well-formed calls from the seed, within the bounds of `runCalls_tracks_last_writer`, the
map tiles `[0, max)` and every def is a non-empty range; the uses that a well-formed `AddUses`
appends then read non-empty parts of the read that together cover it. -/
theorem addUses_covers_read (fuel : Nat) {primes : List Nat} (hp : GoodCache primes) (n : Nat)
    {calls : List UdCall} {startAddr size : Nat}
    (hc : ∀ c ∈ calls ++ [.addUses startAddr size], c.WellFormed ws)
    (hdefs : (UdSpec.run (UdSpec.seed ws) calls).defs.length ≤ 2 ^ 32)
    (huses : (UdSpec.run (UdSpec.seed ws) (calls ++ [.addUses startAddr size])).uses.length ≤
      2 ^ 32 - 1)
    {s₀ s s' : UdState} {p₀ p p' : List Nat} (h₀ : seed ws fuel primes n = .ok (s₀, p₀))
    (h : runCalls ws fuel s₀ p₀ calls = .ok (s, p))
    (h' : addUses ws fuel s p startAddr size = .ok (s', p')) :
    AddressSpace.Tiles 0 ws.max s.addressSpace ∧ (∀ d ∈ s.defs, d.startAddr < d.endAddr) ∧
      (∀ u, s.uses.length ≤ u → u < s'.uses.length → ∃ r, s'.effectiveRange u = some r ∧
        r.startAddr < r.endAddr ∧ startAddr ≤ r.startAddr ∧ r.endAddr ≤ startAddr + size) ∧
      ∀ x, startAddr ≤ x → x < startAddr + size → ∃ u r, s.uses.length ≤ u ∧
        u < s'.uses.length ∧ s'.effectiveRange u = some r ∧ r.startAddr ≤ x ∧ x < r.endAddr := by
  have hc₀ : ∀ c ∈ calls, c.WellFormed ws := fun c hc' => hc c (List.mem_append_left _ hc')
  have hwf : 1 ≤ size ∧ startAddr + size ≤ ws.max :=
    hc _ (List.mem_append_right _ (List.mem_singleton_self _))
  rw [UdSpec.run_append] at huses
  have hi := UdSpec.inv_run ws (UdSpec.inv_seed ws) hc₀
  obtain ⟨hr₀, hp₀⟩ := seed_refines ws hp h₀
  obtain ⟨hr, hp₁⟩ := refines_run ws hr₀ (UdSpec.inv_seed ws) hp₀ hc₀ hdefs
    (le_trans (by simp only [UdSpec.step, List.length_append]; omega) huses) h
  obtain ⟨hr', -⟩ := addUses_refines ws hr hi hp₁ hwf.1 hwf.2 huses h'
  obtain ⟨hin, hcov⟩ := UdSpec.readUses_spec hi.tiles (Nat.zero_le startAddr) hwf.2
  set sp := UdSpec.run (UdSpec.seed ws) calls
  set R := UdSpec.readUses sp.liveMap startAddr (startAddr + size)
  have hl : s.uses.length = sp.uses.length := by rw [hr.uses_eq, List.length_map]
  have hl' : s'.uses.length = sp.uses.length + R.length := by
    rw [hr'.uses_eq, List.length_map]; simp only [UdSpec.step, List.length_append, R]
  refine ⟨hr.addressSpace_eq ▸ hi.tiles, hr.defs_eq ▸ hi.nonempty, fun u hu₁ hu₂ => ?_,
    fun x hx₁ hx₂ => ?_⟩
  · -- the use is one of those the read appended
    obtain ⟨i, rfl⟩ : ∃ i, u = sp.uses.length + i := ⟨u - sp.uses.length, by omega⟩
    have hiR : i < R.length := by omega
    rw [hr'.range_append, List.getElem?_eq_getElem hiR]
    exact ⟨_, rfl, hin _ (List.getElem_mem hiR)⟩
  · -- the use of the interval that holds `x`
    obtain ⟨r, hrR, hx⟩ := hcov x hx₁ hx₂
    obtain ⟨i, hiR, rfl⟩ := List.getElem_of_mem hrR
    exact ⟨sp.uses.length + i, _, by omega, by omega,
      by rw [hr'.range_append, List.getElem?_eq_getElem hiR]; rfl, hx⟩

/-- A store of `[4, 8)`, then a load of the same bytes. -/
theorem addUses_covers_read_after_store :
    ∃ s₀ p₀ s p s' p', seed .four 2 initialPrimes 0 = .ok (s₀, p₀) ∧
      runCalls .four 2 s₀ p₀ [.addDefs 4 4] = .ok (s, p) ∧
      addUses .four 2 s p 4 4 = .ok (s', p') ∧
      AddressSpace.Tiles 0 WordSize.four.max s.addressSpace ∧
      (∀ d ∈ s.defs, d.startAddr < d.endAddr) ∧
      (∀ u, s.uses.length ≤ u → u < s'.uses.length → ∃ r, s'.effectiveRange u = some r ∧
        r.startAddr < r.endAddr ∧ 4 ≤ r.startAddr ∧ r.endAddr ≤ 4 + 4) ∧
      ∀ x, 4 ≤ x → x < 4 + 4 → ∃ u r, s.uses.length ≤ u ∧
        u < s'.uses.length ∧ s'.effectiveRange u = some r ∧ r.startAddr ≤ x ∧ x < r.endAddr :=
  ⟨_, _, _, _, _, _, rfl, rfl, rfl, addUses_covers_read .four 2 goodCache_initialPrimes 0
    (by decide) (by decide) (by decide) rfl (rfl : runCalls .four 2 _ _ [.addDefs 4 4] = _) rfl⟩

/-! ## `-EINVAL` -/

/-- `-EINVAL` leaves any state as it was; on a state that well-formed calls reach from the seed, a
well-formed `AddDefs` whose range meets fewer than `2 ^ 32` intervals returns `-EINVAL` exactly
when more than `kMaxAffectedCount` of them meet it, and 0 otherwise. -/
theorem addDefs_einval_iff_many_meet :
    (∀ (s s' : UdState) startAddr size, addDefs ws s startAddr size = .ok (-EINVAL, s') →
      s' = s) ∧
    ∀ (fuel : Nat) (primes : List Nat) (n : Nat) {calls : List UdCall} {s₀ s : UdState}
      {p₀ p : List Nat}, (∀ c ∈ calls, c.WellFormed ws) → seed ws fuel primes n = .ok (s₀, p₀) →
      runCalls ws fuel s₀ p₀ calls = .ok (s, p) →
      ∀ startAddr size, 1 ≤ size → startAddr + size ≤ ws.max →
        (s.addressSpace.filter (AddressSpace.meets startAddr (startAddr + size))).length <
          2 ^ 32 →
        ∃ s', addDefs ws s startAddr size = .ok (if kMaxAffectedCount <
          (s.addressSpace.filter (AddressSpace.meets startAddr (startAddr + size))).length
          then -EINVAL else 0, s') := by
  refine ⟨fun _ _ _ _ he => addDefs_einval_unchanged ws he,
    fun fuel primes n calls s₀ s p₀ p hc h₀ h startAddr size h₁ h₂ hlt => ?_⟩
  obtain ⟨t, -, rfl⟩ := seed_eq ws h₀
  have ht := runCalls_tiles ws (UdSpec.inv_seed ws).tiles hc h
  split_ifs with hgt
  · exact ⟨s, addDefs_einval ws h₁ h₂ ht hgt hlt⟩
  · exact ⟨_, addDefs_eq ws h₁ h₂ ht (by omega)⟩

/-- After a store of `[4, 8)`. -/
theorem addDefs_einval_iff_many_meet_after_store :
    ∃ s₀ p₀ s p, seed .four 2 initialPrimes 0 = .ok (s₀, p₀) ∧
      runCalls .four 2 s₀ p₀ [.addDefs 4 4] = .ok (s, p) ∧
      ∀ startAddr size, 1 ≤ size → startAddr + size ≤ WordSize.four.max →
        (s.addressSpace.filter (AddressSpace.meets startAddr (startAddr + size))).length <
          2 ^ 32 →
        ∃ s', addDefs .four s startAddr size = .ok (if kMaxAffectedCount <
          (s.addressSpace.filter (AddressSpace.meets startAddr (startAddr + size))).length
          then -EINVAL else 0, s') :=
  ⟨_, _, _, _, rfl, rfl, (addDefs_einval_iff_many_meet .four).2 2 initialPrimes 0 (by decide) rfl
    (rfl : runCalls .four 2 _ _ [.addDefs 4 4] = _)⟩

end UdState

end Memtrace
