import Memtrace.Ud.UdState

/-! # What the use-def state computes

The use-def state of one address space, as what it is for: the defs in the order of the writes,
the live intervals as `overwrite` leaves them, and for every use the def it reads and the range it
reads of it. A write appends a def and overwrites its range; a read appends one use per live
interval that meets it, reading the intersection.

* `UdSpec`, `UdSpec.seed`, `UdSpec.step` and `UdSpec.run` are this machine; `UdCall.WellFormed`
  is a call whose range is non-empty and ends at most at `max`.
* `lastDef defs x` is the index of the last def whose range holds `x`.
* `UdSpec.Inv`: the intervals tile `[0, max)`, the interval at `x` names `lastDef defs x`, and each
  interval lies in the def it names (`inv_run`). The uses of a read are non-empty and cover it
  (`readUses_spec`).
-/

namespace Memtrace

set_option autoImplicit false

/-- The abstract use-def state: defs, live intervals, and uses as a def index and a range. -/
structure UdSpec where
  defs : List Def
  liveMap : AddressSpace
  uses : List (Nat × Def)

/-- A call whose range is non-empty and ends at most at `max`, so that `startAddr + size` does not
wrap. -/
def UdCall.WellFormed (ws : WordSize) : UdCall → Prop
  | .addDefs startAddr size | .addUses startAddr size => 1 ≤ size ∧ startAddr + size ≤ ws.max

instance (ws : WordSize) (c : UdCall) : Decidable (c.WellFormed ws) :=
  match c with
  | .addDefs startAddr size | .addUses startAddr size =>
    inferInstanceAs (Decidable (1 ≤ size ∧ startAddr + size ≤ ws.max))

/-- The index of the last def whose range holds `x`, `0` if none does. -/
def lastDef (defs : List Def) (x : Nat) : Nat :=
  defs.enum.foldl (fun last p => if p.2.startAddr ≤ x ∧ x < p.2.endAddr then p.1 else last) 0

theorem lastDef_append (defs : List Def) (d : Def) (x : Nat) :
    lastDef (defs ++ [d]) x =
      if d.startAddr ≤ x ∧ x < d.endAddr then defs.length else lastDef defs x := by
  simp only [lastDef, List.enum_append, List.enumFrom_singleton, List.foldl_append,
    List.foldl_cons, List.foldl_nil]

namespace UdSpec

variable (ws : WordSize)

/-- The catch-all def `[0, max)`, live everywhere. -/
def seed : UdSpec := ⟨[⟨0, ws.max⟩], [(ws.max, ⟨0, 0⟩)], []⟩

/-- The uses of a read of `[startAddr, endAddr)`: for each live interval that meets it, in address
order, its def and the intersection. -/
def readUses (m : AddressSpace) (startAddr endAddr : Nat) : List (Nat × Def) :=
  (m.filter (AddressSpace.meets startAddr endAddr)).map fun p =>
    (p.2.defIndex, ⟨max startAddr p.2.startAddr, min endAddr p.1⟩)

/-- One call. -/
def step (sp : UdSpec) : UdCall → UdSpec
  | .addDefs startAddr size =>
    ⟨sp.defs ++ [⟨startAddr, startAddr + size⟩],
      AddressSpace.overwrite sp.liveMap startAddr (startAddr + size) sp.defs.length, sp.uses⟩
  | .addUses startAddr size =>
    { sp with uses := sp.uses ++ readUses sp.liveMap startAddr (startAddr + size) }

/-- Calls in order from `sp`. -/
def run (sp : UdSpec) (calls : List UdCall) : UdSpec := calls.foldl step sp

@[simp] theorem run_nil (sp : UdSpec) : run sp [] = sp := rfl

@[simp] theorem run_cons (sp : UdSpec) (c : UdCall) (calls : List UdCall) :
    run sp (c :: calls) = run (step sp c) calls := rfl

theorem run_append (sp : UdSpec) (calls : List UdCall) (c : UdCall) :
    run sp (calls ++ [c]) = step (run sp calls) c := by
  simp only [run, List.foldl_append, List.foldl_cons, List.foldl_nil]

theorem length_le_run (sp : UdSpec) : ∀ calls : List UdCall,
    sp.defs.length ≤ (run sp calls).defs.length ∧ sp.uses.length ≤ (run sp calls).uses.length
  | [] => ⟨le_rfl, le_rfl⟩
  | c :: calls => by
    obtain ⟨h₁, h₂⟩ := length_le_run (step sp c) calls
    cases c <;> simp only [run_cons, step, List.length_append] at h₁ h₂ ⊢ <;>
      exact ⟨by omega, by omega⟩

/-- The invariant of the abstract state. -/
structure Inv (sp : UdSpec) : Prop where
  tiles : AddressSpace.Tiles 0 ws.max sp.liveMap
  within : ∀ p ∈ sp.liveMap, ∃ d, sp.defs[p.2.defIndex]? = some d ∧
    d.startAddr ≤ p.2.startAddr ∧ p.1 ≤ d.endAddr
  last : ∀ x < ws.max, ∀ p, AddressSpace.entryAt sp.liveMap x = some p →
    p.2.defIndex = lastDef sp.defs x
  nonempty : ∀ d ∈ sp.defs, d.startAddr < d.endAddr
  uses_lt : ∀ u ∈ sp.uses, u.1 < sp.defs.length

theorem inv_seed : (seed ws).Inv ws where
  tiles := by simpa [seed, AddressSpace.Tiles] using ws.max_pos
  within := fun p hp => by simp [seed] at hp; subst hp; exact ⟨_, rfl, le_rfl, le_rfl⟩
  last := fun x _ p hp => by
    have := AddressSpace.entryAt_mem hp
    simp [seed] at this; subst this
    show 0 = lastDef [⟨0, ws.max⟩] x
    simp only [lastDef, List.enum_singleton, List.foldl_cons, List.foldl_nil]
    split_ifs <;> rfl
  nonempty := fun d hd => by simp [seed] at hd; subst hd; exact ws.max_pos
  uses_lt := fun u hu => by simp [seed] at hu

theorem inv_step {sp : UdSpec} (h : sp.Inv ws) {c : UdCall} (hc : c.WellFormed ws) :
    (step sp c).Inv ws := by
  cases c with
  | addUses startAddr size =>
    refine ⟨h.tiles, h.within, h.last, h.nonempty, fun u hu => ?_⟩
    rcases List.mem_append.1 hu with hu | hu
    · exact h.uses_lt u hu
    · -- a read names the def of a live interval
      obtain ⟨p, hp, rfl⟩ := List.mem_map.1 hu
      obtain ⟨d, hd, -⟩ := h.within p (List.mem_filter.1 hp).1
      exact (List.getElem?_eq_some_iff.1 hd).1
  | addDefs startAddr size =>
    obtain ⟨h1, h2⟩ := hc
    refine ⟨h.tiles.overwrite (Nat.zero_le _) (by omega) h2, fun p hp => ?_, fun x hx p hp => ?_,
      fun d hd => ?_, fun u hu => ?_⟩
    · -- every piece lies in the def it names
      have hget : ∀ {i : Nat} {d : Def}, sp.defs[i]? = some d →
          (sp.defs ++ [⟨startAddr, startAddr + size⟩])[i]? = some d := fun hi =>
        by rw [List.getElem?_append_left (List.getElem?_eq_some_iff.1 hi).1]; exact hi
      rcases AddressSpace.mem_overwrite.1 hp with ⟨q, hq, hl⟩ | rfl | ⟨q, hq, hr⟩
      · obtain ⟨d, hd, hd₁, hd₂⟩ := h.within q hq
        unfold AddressSpace.leftPart at hl
        split_ifs at hl; cases hl
        exact ⟨d, hget hd, hd₁, by simp only; omega⟩
      · exact ⟨_, List.getElem?_concat_length _ _, le_rfl, le_rfl⟩
      · obtain ⟨d, hd, hd₁, hd₂⟩ := h.within q hq
        unfold AddressSpace.rightPart at hr
        split_ifs at hr; cases hr
        exact ⟨d, hget hd, by simp only; omega, hd₂⟩
    · -- inside the write the new def is the last writer, outside it the old one still is
      obtain ⟨q, hq, -, -, hov⟩ := h.tiles.entryAt_overwrite (d := sp.defs.length)
        (Nat.zero_le startAddr) (by omega : startAddr < startAddr + size) h2 (Nat.zero_le x) hx
      simp only [step] at hp ⊢
      rw [hp, lastDef_append] at *
      have hlast := h.last x hx q hq
      simp only at hov ⊢
      split_ifs at hov with hmid hlt <;> cases hov
      · simp [hmid]
      · simp only; rw [if_neg hmid]; exact hlast
      · simp only; rw [if_neg hmid]; exact hlast
    · rcases List.mem_append.1 hd with hd | hd
      · exact h.nonempty d hd
      · rw [List.mem_singleton.1 hd]; simp only; omega
    · simp only [step, List.length_append, List.length_singleton]
      exact Nat.lt_succ_of_lt (h.uses_lt u hu)

theorem inv_run {sp : UdSpec} (h : sp.Inv ws) {calls : List UdCall}
    (hc : ∀ c ∈ calls, c.WellFormed ws) : (run sp calls).Inv ws := by
  induction calls generalizing sp with
  | nil => exact h
  | cons c calls ih =>
    exact ih (inv_step ws h (hc c (List.mem_cons_self _ _))) fun c' hc' =>
      hc c' (List.mem_cons_of_mem _ hc')

/-- The uses of a read on a tiled map read non-empty ranges inside the read, and every byte of the
read is in one of them. -/
theorem readUses_spec {lo hi startAddr endAddr : Nat} {m : AddressSpace}
    (h : AddressSpace.Tiles lo hi m) (h₁ : lo ≤ startAddr) (h₂ : endAddr ≤ hi) :
    (∀ u ∈ readUses m startAddr endAddr,
      u.2.startAddr < u.2.endAddr ∧ startAddr ≤ u.2.startAddr ∧ u.2.endAddr ≤ endAddr) ∧
    ∀ x, startAddr ≤ x → x < endAddr →
      ∃ u ∈ readUses m startAddr endAddr, u.2.startAddr ≤ x ∧ x < u.2.endAddr := by
  refine ⟨fun u hu => ?_, fun x hx₁ hx₂ => ?_⟩
  · obtain ⟨p, hp, rfl⟩ := List.mem_map.1 hu
    have := (List.mem_filter.1 hp).2
    simp [AddressSpace.meets] at this
    simp only; omega
  · obtain ⟨p, hp, hp₁, hp₂⟩ := h.entryAt_spec (x := x) (by omega) (by omega)
    refine ⟨_, List.mem_map.2 ⟨p, List.mem_filter.2 ⟨AddressSpace.entryAt_mem hp, ?_⟩, rfl⟩, ?_⟩
    · simp [AddressSpace.meets]; omega
    · simp only; omega

end UdSpec

end Memtrace
