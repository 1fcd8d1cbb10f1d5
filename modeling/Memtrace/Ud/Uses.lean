import Memtrace.Ud.Runs

/-! # Every use lies in its instruction's entry, and `ResolveUse` finds its writer

A read record appends uses to `uses_` and a write record a def to `defs_`; the trace entry that is
`trace_.back()` while a record is handled gets, at `Flush`, the counts after the last record of its
run. So every use index lies in the use interval of the entry that was `trace_.back()` at its read
record and in no other, and the `upper_bound` of `ResolveUse` on the start def indices finds the
entry that was `trace_.back()` at the write record of the def.

* `specAt_succ_cases`, `use_of_read` and `def_of_write`: what record `i` adds to the abstract state.
* `runEnd_le_iff`: the runs opened up to record `i` end at or before it, the others after it.
* `trace_eq_close`, `trace_entry` and `trace_defEndIndex`: every trace entry is opened and closed
  at the counts around its run, as `uint32_t`s.
* `udVisit_resolves_uses`: `ResolvesUse` for every use of the state `VisitFile<Ud>` leaves, while
  the counts stay inside `uint32_t`.
-/

namespace Memtrace

set_option autoImplicit false

/-- The use count of `sp` among the counts. -/
def Counts.uses (c : Counts) : Space → Nat
  | .reg => c.regUses
  | .mem => c.memUses

/-- The def count of `sp` among the counts. -/
def Counts.defs (c : Counts) : Space → Nat
  | .reg => c.regDefs
  | .mem => c.memDefs

namespace InsnInTrace

variable (c : Counts) (sp : Space)

@[simp] theorem opening_useStartIndex (k : Nat) :
    (opening k c).useStartIndex sp = u32 (c.uses sp) := by
  cases sp <;> rfl

@[simp] theorem opening_defStartIndex (k : Nat) :
    (opening k c).defStartIndex sp = u32 (c.defs sp) := by
  cases sp <;> rfl

@[simp] theorem close_useStartIndex (t : InsnInTrace) :
    (t.close c).useStartIndex sp = t.useStartIndex sp := by
  cases sp <;> rfl

@[simp] theorem close_defStartIndex (t : InsnInTrace) :
    (t.close c).defStartIndex sp = t.defStartIndex sp := by
  cases sp <;> rfl

@[simp] theorem close_useEndIndex (t : InsnInTrace) :
    (t.close c).useEndIndex sp = u32 (c.uses sp) := by
  cases sp <;> rfl

end InsnInTrace

theorem UdSpec.run_extends : ∀ (sp : UdSpec) (calls : List UdCall),
    sp.defs <+: (UdSpec.run sp calls).defs ∧ sp.uses <+: (UdSpec.run sp calls).uses
  | _, [] => ⟨List.prefix_refl _, List.prefix_refl _⟩
  | sp, c :: calls => by
    obtain ⟨h₁, h₂⟩ := UdSpec.run_extends (UdSpec.step sp c) calls
    cases c with
    | addDefs a z => exact ⟨(List.prefix_append _ _).trans h₁, h₂⟩
    | addUses a z => exact ⟨h₁, (List.prefix_append _ _).trans h₂⟩

theorem UdSpec.run_append' (sp : UdSpec) (calls calls' : List UdCall) :
    UdSpec.run sp (calls ++ calls') = UdSpec.run (UdSpec.run sp calls) calls' :=
  List.foldl_append _ _ _ _

theorem getElem?_eq_of_extends {α : Type} {l₁ l₂ : List α} (h : l₁ <+: l₂) {n : Nat}
    (hn : n < l₁.length) : l₂[n]? = l₁[n]? := by
  obtain ⟨t, rfl⟩ := h
  exact List.getElem?_append_left hn

/-! ## What a record adds -/

section Records

variable (e : Endianness) (ws : WordSize) (buf : List UInt8)

theorem callsOf_append (sp : Space) (l₁ l₂ : List Frame) :
    callsOf e ws buf sp (l₁ ++ l₂) = callsOf e ws buf sp l₁ ++ callsOf e ws buf sp l₂ :=
  List.filterMap_append _ _ _

@[simp] theorem countsAt_uses (fs : List Frame) (i : Nat) (sp : Space) :
    (countsAt e ws buf fs i).uses sp = (specAt e ws buf fs sp i).uses.length := by
  cases sp <;> rfl

@[simp] theorem countsAt_defs (fs : List Frame) (i : Nat) (sp : Space) :
    (countsAt e ws buf fs i).defs sp = (specAt e ws buf fs sp i).defs.length := by
  cases sp <;> rfl

theorem specAt_zero (fs : List Frame) (sp : Space) : specAt e ws buf fs sp 0 = UdSpec.seed ws := by
  simp [specAt, callsOf]

theorem specAt_extends (fs : List Frame) (sp : Space) {i i' : Nat} (h : i ≤ i') :
    (specAt e ws buf fs sp i).defs <+: (specAt e ws buf fs sp i').defs ∧
      (specAt e ws buf fs sp i).uses <+: (specAt e ws buf fs sp i').uses := by
  obtain ⟨l, hl⟩ : ∃ l, fs.take i' = fs.take i ++ l :=
    ⟨_, by rw [← List.take_append_drop i (fs.take i'), List.take_take, Nat.min_eq_left h]⟩
  rw [specAt, specAt, hl, callsOf_append, UdSpec.run_append']
  exact UdSpec.run_extends _ _

theorem specAt_extends_final (fs : List Frame) (sp : Space) (i : Nat) :
    (specAt e ws buf fs sp i).defs <+: (specAt e ws buf fs sp fs.length).defs ∧
      (specAt e ws buf fs sp i).uses <+: (specAt e ws buf fs sp fs.length).uses := by
  rcases Nat.le_total i fs.length with h | h
  · exact specAt_extends e ws buf fs sp h
  · have : specAt e ws buf fs sp i = specAt e ws buf fs sp fs.length := by
      rw [specAt, specAt, List.take_of_length_le h, List.take_length]
    rw [this]
    exact ⟨List.prefix_refl _, List.prefix_refl _⟩

theorem specAt_succ_cases (fs : List Frame) (sp : Space) (i : Nat) :
    specAt e ws buf fs sp (i + 1) = specAt e ws buf fs sp i ∨
      ∃ f c, fs[i]? = some f ∧ recordCall e ws buf f = some (sp, c) ∧
        specAt e ws buf fs sp (i + 1) = UdSpec.step (specAt e ws buf fs sp i) c := by
  simp only [specAt, List.take_succ, callsOf_append, UdSpec.run_append']
  cases hf : fs[i]? with
  | none => exact .inl (by simp [callsOf])
  | some f =>
    cases hr : recordCall e ws buf f with
    | none => exact .inl (by simp [callsOf, hr])
    | some p =>
      obtain ⟨sp', c⟩ := p
      by_cases hsp : sp' = sp
      · subst hsp
        exact .inr ⟨f, c, rfl, hr, by simp [callsOf, hr]⟩
      · exact .inl (by simp [callsOf, hr, hsp])

theorem use_of_read (fs : List Frame) (sp : Space) {i j : Nat}
    (hj : (specAt e ws buf fs sp i).uses.length ≤ j ∧
      j < (specAt e ws buf fs sp (i + 1)).uses.length) :
    ∃ f a z, fs[i]? = some f ∧ recordCall e ws buf f = some (sp, .addUses a z) ∧
      specAt e ws buf fs sp (i + 1) = UdSpec.step (specAt e ws buf fs sp i) (.addUses a z) := by
  rcases specAt_succ_cases e ws buf fs sp i with h | ⟨f, c, hf, hr, h⟩
  · rw [h] at hj; omega
  · cases c with
    | addUses a z => exact ⟨f, a, z, hf, hr, h⟩
    | addDefs a z => rw [h] at hj; simp only [UdSpec.step] at hj; omega

/-- A def other than the catch-all is the one the write of an earlier record appended. -/
theorem def_of_write (fs : List Frame) (sp : Space) {d : Nat} (hd₀ : 0 < d) :
    ∀ {i : Nat}, d < (specAt e ws buf fs sp i).defs.length →
      ∃ i' < i, ∃ f a z, fs[i']? = some f ∧ recordCall e ws buf f = some (sp, .addDefs a z) ∧
        d = (specAt e ws buf fs sp i').defs.length ∧
        specAt e ws buf fs sp (i' + 1) = UdSpec.step (specAt e ws buf fs sp i') (.addDefs a z)
  | 0, hd => by simp [specAt_zero, UdSpec.seed] at hd; omega
  | i + 1, hd => by
    by_cases hlt : d < (specAt e ws buf fs sp i).defs.length
    · obtain ⟨i', hi', rest⟩ := def_of_write fs sp hd₀ hlt
      exact ⟨i', by omega, rest⟩
    · rcases specAt_succ_cases e ws buf fs sp i with h | ⟨f, c, hf, hr, h⟩
      · rw [h] at hd; omega
      · cases c with
        | addDefs a z =>
          rw [h] at hd
          simp only [UdSpec.step, List.length_append, List.length_singleton] at hd
          exact ⟨i, by omega, f, a, z, hf, hr, by omega, h⟩
        | addUses a z => rw [h] at hd; simp only [UdSpec.step] at hd; omega

/-- The use `j` of the read of record `i`: the def `d` it names and the range `r` it reads, which
lies inside the read and inside def `d`, and every byte of which `d` wrote last. -/
theorem use_reads_last_def (fs : List Frame) (sp : Space) {i j : Nat}
    (hinv : (specAt e ws buf fs sp i).Inv ws) (hc : ∀ f ∈ fs, CallWellFormed e ws buf f)
    (hj : (specAt e ws buf fs sp i).uses.length ≤ j ∧
      j < (specAt e ws buf fs sp (i + 1)).uses.length) :
    ∃ f a z d r dd, fs[i]? = some f ∧ recordCall e ws buf f = some (sp, .addUses a z) ∧
      (specAt e ws buf fs sp fs.length).uses[j]? = some (d, r) ∧
      a ≤ r.startAddr ∧ r.startAddr < r.endAddr ∧ r.endAddr ≤ a + z ∧
      (∀ x, r.startAddr ≤ x → x < r.endAddr → lastDef (specAt e ws buf fs sp i).defs x = d) ∧
      (specAt e ws buf fs sp i).defs[d]? = some dd ∧ dd.startAddr ≤ r.startAddr ∧
      r.endAddr ≤ dd.endAddr := by
  obtain ⟨f, a, z, hf, hr, hstep⟩ := use_of_read e ws buf fs sp hj
  have hwf : 1 ≤ z ∧ a + z ≤ ws.max := hc f (List.getElem?_mem hf) (sp, .addUses a z) hr
  set Si := specAt e ws buf fs sp i
  have hj' : j - Si.uses.length < (UdSpec.readUses Si.liveMap a (a + z)).length := by
    rw [hstep] at hj; simp only [UdSpec.step, List.length_append] at hj; omega
  -- the use reads the part inside the read of a live interval `p`
  obtain ⟨p, hpm, hpq⟩ := List.mem_map.1 (List.getElem?_mem (List.getElem?_eq_getElem hj'))
  have hSj : (specAt e ws buf fs sp fs.length).uses[j]? =
      some (p.2.defIndex, ⟨max a p.2.startAddr, min (a + z) p.1⟩) := by
    rw [getElem?_eq_of_extends (specAt_extends_final e ws buf fs sp (i + 1)).2 hj.2, hstep]
    simp only [UdSpec.step]
    rw [List.getElem?_append_right hj.1, List.getElem?_eq_getElem hj', hpq]
  have hpmem := (List.mem_filter.1 hpm).1
  have hrng := (UdSpec.readUses_spec hinv.tiles (Nat.zero_le a) hwf.2).1 _
    (List.mem_map.2 ⟨p, hpm, rfl⟩)
  obtain ⟨dd, hdd, hdd₁, hdd₂⟩ := hinv.within p hpmem
  refine ⟨f, a, z, _, _, dd, hf, hr, hSj, le_max_left _ _, hrng.1, hrng.2.2, fun x hx₁ hx₂ => ?_,
    hdd, by simp only; omega, by simp only; omega⟩
  -- every byte of the range lies in `p`, whose def is the last writer there
  simp only at hx₁ hx₂
  have hx : AddressSpace.entryAt Si.liveMap x = some p :=
    hinv.tiles.entryAt_eq_of_mem hpmem (by omega) (by omega)
  exact (hinv.last x (by omega) p hx).symm

end Records

/-! ## Which entry is `trace_.back()` -/

section Entries

variable (e : Endianness) (ws : WordSize) (buf : List UInt8)

/-- The index of `trace_.back()` once `HandleInsnSeq` has run for record `i`: the number of run
heads, counted from the seed's code index 0, among the records up to `i`. -/
def backAt (fs : List Frame) (i : Nat) : Nat :=
  (runHeads e buf (some 0) (fs.take (i + 1)).enum).length

theorem runEnd_le_iff (fs : List Frame) {i : Nat} (hi : i < fs.length) (k : Nat) :
    runEnd e buf (some 0) fs k ≤ i ↔ k < backAt e buf fs i := by
  have hlen : (fs.take (i + 1)).length = i + 1 := by simp; omega
  have hsplit : runHeads e buf (some 0) fs.enum = runHeads e buf (some 0) (fs.take (i + 1)).enum ++
      runHeads e buf (seqAfter e buf (some 0) (fs.take (i + 1)).enum)
        ((fs.drop (i + 1)).enumFrom (i + 1)) := by
    conv_lhs => rw [← List.take_append_drop (i + 1) fs]
    rw [List.enum_append, hlen, runHeads_append]
  unfold runEnd backAt
  rw [hsplit]
  set pre := runHeads e buf (some 0) (fs.take (i + 1)).enum
  set post := runHeads e buf (seqAfter e buf (some 0) (fs.take (i + 1)).enum)
    ((fs.drop (i + 1)).enumFrom (i + 1))
  have hpre : ∀ p ∈ pre, p.1 ≤ i := fun p hp => by
    have := List.fst_lt_add_of_mem_enumFrom (mem_runHeads e buf hp).1
    omega
  have hpost : ∀ p ∈ post, i + 1 ≤ p.1 := fun p hp =>
    List.le_fst_of_mem_enumFrom (mem_runHeads e buf hp).1
  rcases Nat.lt_or_ge k pre.length with hk | hk
  · rw [List.getElem?_append_left hk, List.getElem?_eq_getElem hk]
    exact iff_of_true (hpre _ (List.getElem_mem _)) hk
  · rw [List.getElem?_append_right hk]
    refine iff_of_false ?_ (by omega)
    cases hq : post[k - pre.length]? with
    | none => simp; omega
    | some q => have := hpost q (List.getElem?_mem hq); simp; omega

theorem runEnd_le_length (fs : List Frame) (k : Nat) : runEnd e buf (some 0) fs k ≤ fs.length := by
  unfold runEnd
  cases hq : (runHeads e buf (some 0) fs.enum)[k]? with
  | none => rfl
  | some q =>
    have := List.fst_lt_add_of_mem_enumFrom (mem_runHeads e buf (List.getElem?_mem hq)).1
    simp; omega

theorem runEnd_mono (fs : List Frame) {k k' : Nat} (h : k ≤ k') :
    runEnd e buf (some 0) fs k ≤ runEnd e buf (some 0) fs k' := by
  rcases Nat.lt_or_ge (runEnd e buf (some 0) fs k') fs.length with hlt | hge
  · exact (runEnd_le_iff e buf fs hlt k).2
      (lt_of_le_of_lt h ((runEnd_le_iff e buf fs hlt k').1 le_rfl))
  · exact (runEnd_le_length e buf fs k).trans hge

theorem backAt_le (fs : List Frame) {i : Nat} (hi : i < fs.length) :
    backAt e buf fs i ≤ (runHeads e buf (some 0) fs.enum).length := by
  by_contra hlt
  have := (runEnd_le_iff e buf fs hi _).2 (Nat.lt_of_not_le hlt)
  simp [runEnd] at this
  omega

/-- The trace after the records and `Flush`: entry `t` is an opened entry closed at the counts
before the head of run `t`; the seed entry was opened at no counts, entry `k + 1` at the counts
before the head of run `k`. -/
theorem trace_eq_close (fs : List Frame) {t : Nat} {T : InsnInTrace}
    (hT : ((Built.init ws).run e ws buf fs).flush.trace[t]? = some T) :
    t ≤ (runHeads e buf (some 0) fs.enum).length ∧
      ∃ o : InsnInTrace, T = o.close (countsAt e ws buf fs (runEnd e buf (some 0) fs t)) ∧
        (t = 0 → o = .opening 0 ⟨0, 0, 0, 0⟩) ∧
        ∀ k, t = k + 1 → ∃ s, o = .opening s (countsAt e ws buf fs (runEnd e buf (some 0) fs k)) := by
  rw [(Built.run_trace e ws buf fs (countsAt e ws buf fs) fun i _ => countsAt_eq e ws buf fs i).2,
    List.getElem?_zipWith_eq_some] at hT
  obtain ⟨o, c, ho, hc, rfl⟩ := hT
  rw [List.getElem?_map, Option.map_eq_some'] at hc
  obtain ⟨x, hx, rfl⟩ := hc
  have ht : t ≤ (runHeads e buf (some 0) fs.enum).length := by
    have := (List.getElem?_eq_some_iff.1 hx).1
    simp at this; omega
  rw [getElem?_map_fst_append ht, Option.some.injEq] at hx
  subst hx
  refine ⟨ht, o, rfl, fun h0 => ?_, fun k hk => ?_⟩
  · subst h0
    simpa using ho.symm
  · subst hk
    rw [List.getElem?_cons_succ, List.getElem?_map, Option.map_eq_some'] at ho
    obtain ⟨p, hp, rfl⟩ := ho
    exact ⟨_, by rw [show runEnd e buf (some 0) fs k = p.1 by simp [runEnd, hp]]⟩

/-- The use interval and the start def index of every trace entry, as `u32` of the counts. -/
theorem trace_entry (fs : List Frame) (sp : Space) {t : Nat} {T : InsnInTrace}
    (hT : ((Built.init ws).run e ws buf fs).flush.trace[t]? = some T) :
    t ≤ (runHeads e buf (some 0) fs.enum).length ∧
      T.useEndIndex sp = u32 (specAt e ws buf fs sp (runEnd e buf (some 0) fs t)).uses.length ∧
      (t = 0 → T.useStartIndex sp = 0 ∧ T.defStartIndex sp = 0) ∧
      ∀ k, t = k + 1 →
        T.useStartIndex sp = u32 (specAt e ws buf fs sp (runEnd e buf (some 0) fs k)).uses.length ∧
        T.defStartIndex sp =
          u32 (specAt e ws buf fs sp (runEnd e buf (some 0) fs k)).defs.length := by
  obtain ⟨ht, o, rfl, h0, hs⟩ := trace_eq_close e ws buf fs hT
  refine ⟨ht, by cases sp <;> rfl, fun h => ?_, fun k hk => ?_⟩
  · rw [h0 h]
    cases sp <;> exact ⟨rfl, rfl⟩
  · obtain ⟨s, rfl⟩ := hs k hk
    cases sp <;> exact ⟨rfl, rfl⟩

theorem trace_defEndIndex (fs : List Frame) (sp : Space) {t : Nat} {T : InsnInTrace}
    (hT : ((Built.init ws).run e ws buf fs).flush.trace[t]? = some T) :
    T.defEndIndex sp = u32 (specAt e ws buf fs sp (runEnd e buf (some 0) fs t)).defs.length := by
  obtain ⟨-, o, rfl, -⟩ := trace_eq_close e ws buf fs hT
  cases sp <;> rfl

theorem trace_length (fs : List Frame) :
    ((Built.init ws).run e ws buf fs).flush.trace.length =
      (runHeads e buf (some 0) fs.enum).length + 1 := by
  rw [(Built.run_trace e ws buf fs (countsAt e ws buf fs) fun i _ => countsAt_eq e ws buf fs i).2]
  simp

theorem trace_defStartIndex_succ (fs : List Frame) (sp : Space)
    (hbound : (specAt e ws buf fs sp fs.length).defs.length < 2 ^ 32) {k : Nat} {T : InsnInTrace}
    (hT : ((Built.init ws).run e ws buf fs).flush.trace[k + 1]? = some T) :
    T.defStartIndex sp = (specAt e ws buf fs sp (runEnd e buf (some 0) fs k)).defs.length := by
  rw [((trace_entry e ws buf fs sp hT).2.2.2 k rfl).2,
    u32_of_lt (lt_of_le_of_lt (specAt_extends_final e ws buf fs sp _).1.length_le hbound)]

/-- Against a record `i'`: the entries up to the one open at `i'` start at or before the defs
before `i'`, the later ones at or after the defs after `i'`, and every entry but the seed after
the catch-all def. -/
theorem trace_defStartIndex_bounds (fs : List Frame) (sp : Space)
    (hbound : (specAt e ws buf fs sp fs.length).defs.length < 2 ^ 32) {t : Nat} {T : InsnInTrace}
    (hT : ((Built.init ws).run e ws buf fs).flush.trace[t]? = some T) :
    (T.defStartIndex sp = 0 ↔ t = 0) ∧ ∀ {i'}, i' < fs.length →
      (t ≤ backAt e buf fs i' → T.defStartIndex sp ≤ (specAt e ws buf fs sp i').defs.length) ∧
      (backAt e buf fs i' < t →
        (specAt e ws buf fs sp (i' + 1)).defs.length ≤ T.defStartIndex sp) := by
  have hmono : ∀ {k k' : Nat}, k ≤ k' →
      (specAt e ws buf fs sp k).defs.length ≤ (specAt e ws buf fs sp k').defs.length :=
    fun h => (specAt_extends e ws buf fs sp h).1.length_le
  cases t with
  | zero =>
    rw [((trace_entry e ws buf fs sp hT).2.2.1 rfl).2]
    exact ⟨iff_of_true rfl rfl, fun _ => ⟨fun _ => Nat.zero_le _, by omega⟩⟩
  | succ k =>
    rw [trace_defStartIndex_succ e ws buf fs sp hbound hT]
    refine ⟨iff_of_false (fun h0 => ?_) (Nat.succ_ne_zero k),
      fun hi' => ⟨fun ht => hmono ((runEnd_le_iff e buf fs hi' k).2 ht),
        fun ht => hmono (Nat.lt_of_not_le (mt (runEnd_le_iff e buf fs hi' k).1 (by omega)))⟩⟩
    -- the catch-all def is there before any record
    have := hmono (Nat.zero_le (runEnd e buf (some 0) fs k))
    rw [specAt_zero, h0] at this
    exact absurd this (by simp [UdSpec.seed])

/-- The use `j` of record `i` lies in the use interval of the entry that was `trace_.back()` at
record `i`, and in no other. -/
theorem use_in_entry (fs : List Frame) (sp : Space) {i j : Nat} (hi : i < fs.length)
    (hbound : (specAt e ws buf fs sp fs.length).uses.length < 2 ^ 32)
    (hj : (specAt e ws buf fs sp i).uses.length ≤ j ∧
      j < (specAt e ws buf fs sp (i + 1)).uses.length)
    {t : Nat} {T : InsnInTrace} (hT : ((Built.init ws).run e ws buf fs).flush.trace[t]? = some T) :
    T.useStartIndex sp ≤ j ∧ j < T.useEndIndex sp ↔ t = backAt e buf fs i := by
  obtain ⟨-, hend, hzero, hsucc⟩ := trace_entry e ws buf fs sp hT
  have hcount : ∀ k, u32 (specAt e ws buf fs sp k).uses.length =
      (specAt e ws buf fs sp k).uses.length := fun k =>
    u32_of_lt (lt_of_le_of_lt (specAt_extends_final e ws buf fs sp k).2.length_le hbound)
  have hmono : ∀ {k k' : Nat}, k ≤ k' →
      (specAt e ws buf fs sp k).uses.length ≤ (specAt e ws buf fs sp k').uses.length :=
    fun h => (specAt_extends e ws buf fs sp h).2.length_le
  have hle := runEnd_le_iff e buf fs hi
  rw [hend, hcount]
  constructor
  · rintro ⟨h₁, h₂⟩
    by_contra hne
    rcases Nat.lt_or_gt_of_ne hne with hlt | hgt
    · -- an earlier entry ends at or before record `i`
      have := hmono ((hle t).2 hlt)
      omega
    · -- a later entry starts after record `i`
      obtain ⟨k, rfl⟩ : ∃ k, t = k + 1 := ⟨t - 1, by omega⟩
      rw [(hsucc k rfl).1, hcount] at h₁
      have := hmono (show i + 1 ≤ runEnd e buf (some 0) fs k from
        Nat.lt_of_not_le (mt (hle k).1 (by omega)))
      omega
  · rintro rfl
    refine ⟨?_, ?_⟩
    · cases hb : backAt e buf fs i with
      | zero => rw [(hzero hb).1]; exact Nat.zero_le _
      | succ k =>
        rw [(hsucc k hb).1, hcount]
        have := hmono ((hle k).2 (by omega))
        omega
    · have := hmono (show i + 1 ≤ runEnd e buf (some 0) fs (backAt e buf fs i) from
        Nat.lt_of_not_le (mt (hle _).1 (lt_irrefl _)))
      omega

end Entries

theorem Built.flush_spec (b : Built) (sp : Space) : b.flush.spec sp = b.spec sp := by
  cases sp <;> rfl

/-! ## `ResolveUse` -/

section Resolve

variable (e : Endianness) (ws : WordSize) (buf : List UInt8)

/-- What the builder answers for the use `j` of `sp`, made by the read record `i`. The use is one
of the read's, and its effective range `r` (the partial use, else the def) is non-empty, inside
the read, and last written, at every byte, by the def `d` the use names. The entry that was
`trace_.back()` at record `i` is the one entry whose use interval holds `j`. `ResolveUse` returns
`r` and the seed entry for the catch-all def, else the entry that was `trace_.back()` at the
earlier write record that appended `d`, whose range holds `r`. -/
def ResolvesUse (fs : List Frame) (u : Ud) (sp : Space) (i j : Nat) : Prop :=
  ∃ f a z d r, fs[i]? = some f ∧ recordCall e ws buf f = some (sp, .addUses a z) ∧
    (u.state sp).uses[j]? = some d ∧ (u.state sp).effectiveRange j = some r ∧
    a ≤ r.startAddr ∧ r.startAddr < r.endAddr ∧ r.endAddr ≤ a + z ∧
    (∀ x, r.startAddr ≤ x → x < r.endAddr → lastDef (specAt e ws buf fs sp i).defs x = d) ∧
    backAt e buf fs i < u.trace.length ∧
    (∀ t T, u.trace[t]? = some T →
      (T.useStartIndex sp ≤ j ∧ j < T.useEndIndex sp ↔ t = backAt e buf fs i)) ∧
    (d = 0 ∧ (u.state sp).resolveUse u.trace sp j = .ok (r, 0) ∨
      ∃ i' < i, ∃ f' a' z', fs[i']? = some f' ∧
        recordCall e ws buf f' = some (sp, .addDefs a' z') ∧
        d = (specAt e ws buf fs sp i').defs.length ∧ a' ≤ r.startAddr ∧ r.endAddr ≤ a' + z' ∧
        (u.state sp).resolveUse u.trace sp j = .ok (r, u32 (backAt e buf fs i')))

theorem getD_of_getElem? {l : List InsnInTrace} {t : Nat} {T : InsnInTrace} (h : l[t]? = some T) :
    l.getD t default = T := by
  rw [List.getD_eq_getElem?_getD, h, Option.getD_some]

/-- `udVisit_refines` while the def and use counts stay below `2 ^ 32`, with the abstract states
after all the records as `specAt`. -/
theorem udVisit_refines_specAt {doDisasm : List UInt8 → Nat → Option String} {verbose : Bool}
    {fuel stop : Nat} {primes : List Nat} {u : Ud} (hp : GoodCache primes) {t₀ : TraceMm}
    (hinit : TraceMm.init e ws buf = .ok t₀) {fs : List Frame} (hfr : Framed e ws buf t₀.cur fs)
    (hc : ∀ f ∈ fs, CallWellFormed e ws buf f) (hw : fs.length ≤ stop)
    (hlen : buf.length < 2 ^ 64)
    (hb : ∀ sp, (specAt e ws buf fs sp fs.length).defs.length < 2 ^ 32 ∧
      (specAt e ws buf fs sp fs.length).uses.length < 2 ^ 32)
    (h : udVisit e ws buf doDisasm verbose fuel primes 0 stop = .ok u) :
    u.trace = ((Built.init ws).run e ws buf fs).flush.trace ∧
      ∀ sp, (u.state sp).Refines (specAt e ws buf fs sp fs.length) := by
  have hspec : ∀ sp, ((Built.init ws).run e ws buf fs).spec sp = specAt e ws buf fs sp fs.length :=
    fun sp => by rw [specAt_eq, List.take_length]
  have href := udVisit_refines hp hinit hfr hc hw hlen (fun sp => by
    rw [hspec]; exact ⟨(hb sp).1.le, by have := (hb sp).2; omega⟩) h
  exact ⟨href.trace_eq, fun sp => by have := href.state sp; rwa [Built.flush_spec, hspec] at this⟩

/-- `VisitFile<Ud>` over framed records, all in the window, whose calls are well-formed and whose
def and use counts stay below `2 ^ 32`: every use of the state it leaves resolves as
`ResolvesUse` says. -/
theorem udVisit_resolves_uses {doDisasm : List UInt8 → Nat → Option String} {verbose : Bool}
    {fuel stop : Nat} {primes : List Nat} {u : Ud} (hp : GoodCache primes) {t₀ : TraceMm}
    (hinit : TraceMm.init e ws buf = .ok t₀) {fs : List Frame} (hfr : Framed e ws buf t₀.cur fs)
    (hc : ∀ f ∈ fs, CallWellFormed e ws buf f) (hw : fs.length ≤ stop)
    (hlen : buf.length < 2 ^ 64)
    (hb : ∀ sp, (specAt e ws buf fs sp fs.length).defs.length < 2 ^ 32 ∧
      (specAt e ws buf fs sp fs.length).uses.length < 2 ^ 32)
    (h : udVisit e ws buf doDisasm verbose fuel primes 0 stop = .ok u) (sp : Space) {i j : Nat}
    (hj : (specAt e ws buf fs sp i).uses.length ≤ j ∧
      j < (specAt e ws buf fs sp (i + 1)).uses.length) :
    ResolvesUse e ws buf fs u sp i j := by
  obtain ⟨htr, hst⟩ := udVisit_refines_specAt e ws buf hp hinit hfr hc hw hlen hb h
  replace hst := hst sp
  have hi : i < fs.length := by
    by_contra hi
    have : specAt e ws buf fs sp (i + 1) = specAt e ws buf fs sp i := by
      rw [specAt, specAt, List.take_of_length_le (by omega), List.take_of_length_le (by omega)]
    rw [this] at hj; omega
  have hinv : (specAt e ws buf fs sp i).Inv ws := by
    rw [specAt_eq]
    exact Built.inv_run e ws buf (fun f hf => hc f (List.mem_of_mem_take hf)) (Built.inv_init ws) sp
  obtain ⟨f, a, z, d, r, dd, hf, hr, hSj, ha, hr₁, hz, hlast, hdd, hdd₁, hdd₂⟩ :=
    use_reads_last_def e ws buf fs sp hinv hc hj
  -- what `ResolveUse` reads on the concrete state
  have hu : (u.state sp).uses[j]? = some d := by rw [hst.uses_eq, List.getElem?_map, hSj]; rfl
  have hrr : (u.state sp).effectiveRange j = some r := by rw [hst.range_eq, hSj]; rfl
  have hk : j ≠ emptyKey := by
    have := lt_of_lt_of_le hj.2 (specAt_extends_final e ws buf fs sp _).2.length_le
    have := (hb sp).2; unfold emptyKey uint32Max; omega
  have hlen' : u.trace.length = (runHeads e buf (some 0) fs.enum).length + 1 := by
    rw [htr, trace_length]
  have hbd := fun t (ht : t < u.trace.length) =>
    trace_defStartIndex_bounds e ws buf fs sp (hb sp).1 (T := u.trace.getD t default)
      (by rw [← htr, List.getElem?_eq_getElem ht, getD_of_getElem? (List.getElem?_eq_getElem ht)])
  refine ⟨f, a, z, d, r, hf, hr, hu, hrr, ha, hr₁, hz, hlast,
    by have := backAt_le e buf fs hi; omega,
    fun t T hT => use_in_entry e ws buf fs sp hi (hb sp).2 hj (htr ▸ hT), ?_⟩
  by_cases hd0 : d = 0
  · -- the catch-all def: only the seed entry starts at def index 0
    refine .inl ⟨hd0, ?_⟩
    have hres := @UdState.resolveUse_eq (u.state sp) u.trace sp j _ 1 _ hst.valid hu hk hrr
      Nat.one_pos (by omega)
      (fun t ht => ((hbd t (by omega)).1.2 (by omega)).le.trans (Nat.zero_le d))
      (fun t ht₁ ht₂ => by have := (hbd t ht₂).1; omega)
    simpa using hres
  · -- another def: the write record that appended it, and the entry open at it
    obtain ⟨i', hi', f', a', z', hf', hr', hd', hstep'⟩ :=
      def_of_write e ws buf fs sp (Nat.pos_of_ne_zero hd0) (List.getElem?_eq_some_iff.1 hdd).1
    have hd1 : (specAt e ws buf fs sp (i' + 1)).defs.length = d + 1 := by
      rw [hstep', hd']; simp only [UdSpec.step, List.length_append, List.length_singleton]
    have hdd' : (specAt e ws buf fs sp i).defs[d]? = some ⟨a', a' + z'⟩ := by
      rw [getElem?_eq_of_extends (specAt_extends e ws buf fs sp (show i' + 1 ≤ i from hi')).1
        (by omega), hstep', hd']
      exact List.getElem?_concat_length _ _
    rw [hdd] at hdd'
    cases hdd'
    have hi'' := backAt_le e buf fs (lt_trans hi' hi)
    have hres := @UdState.resolveUse_eq (u.state sp) u.trace sp j _ (backAt e buf fs i' + 1) _
      hst.valid hu hk hrr (Nat.succ_pos _) (by omega)
      (fun t ht => by rw [hd']; exact ((hbd t (by omega)).2 (lt_trans hi' hi)).1 (by omega))
      (fun t ht₁ ht₂ => by have := ((hbd t ht₂).2 (lt_trans hi' hi)).2 (by omega); omega)
    exact .inr ⟨i', hi', f', a', z', hf', hr', hd', hdd₁, hdd₂, by simpa using hres⟩

theorem udVisit_resolves_uses_store_load :
    ∃ u, udVisit .little .four storeLoadTrace386 (fun _ _ => none) false 8 initialPrimes 0
        sizeMax = .ok u ∧
      ResolvesUse .little .four storeLoadTrace386 storeLoadFrames u .mem 3 0 := by
  obtain ⟨u, hu⟩ : ∃ u, udVisit .little .four storeLoadTrace386 (fun _ _ => none) false 8
      initialPrimes 0 sizeMax = .ok u := ⟨_, rfl⟩
  exact ⟨u, hu, udVisit_resolves_uses .little .four storeLoadTrace386 goodCache_initialPrimes
    (rfl : TraceMm.init .little .four storeLoadTrace386 = .ok ⟨8, 0⟩) framed_storeLoadFrames
    (by decide) (by decide) (by decide) (fun sp => by cases sp <;> decide) hu .mem (by decide)⟩

end Resolve

end Memtrace
