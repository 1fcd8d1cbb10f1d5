import Memtrace.Ud.Uses

/-! # The `uint32_t` indices of the builder are the counts they cast

`AddUses` keys the partial use of use `j` by `uint32_t(uses_.size())`, `AddDef` maps an interval
to `uint32_t(defs_.size())`, `AddTrace` and `Flush` store `uint32_t` counts as start and end
indices, and `operator()(InsnEntry)` stores `uint32_t(text_.size())` and `uint32_t(size)` as
`textIndex` and `textSize`. While the def, use and text counts stay below `2 ^ 32`, each of them
is the count it casts (`udVisit_indices_exact`); `udVisit_def_index_wraps` is a run past the
bound.

* `LaidOut code text vs`: `text_` is the opcodes `vs` end to end, and each code entry holds the
  offset and the length of its own, as `uint32_t`s. `Ud::Init` lays out the catch-all entry, and
  every record keeps the layout (`dispatch_code_text`, `udVisit_laidOut`).
* `IndicesExact`: what the casts of a run store, against the untruncated counts.
-/

namespace Memtrace

set_option autoImplicit false

/-! ## `code_` and `text_` -/

/-- `code_` and `text_` as `operator()(InsnEntry)` lays them out: `text_` is the opcodes `vs`, one
per code entry, end to end, and entry `k` holds the offset and the length of the `k`-th, cast to
`uint32_t`. -/
def LaidOut (code : List InsnInCode) (text : List UInt8) (vs : List (List UInt8)) : Prop :=
  text = vs.flatten ∧ code.length = vs.length ∧ ∀ k c v, code[k]? = some c → vs[k]? = some v →
    c.textIndex = u32 (vs.take k).flatten.length ∧ c.textSize = u32 v.length

/-- The catch-all code entry `{0, 0, 0}` of `Ud::Init`, with no text. -/
theorem laidOut_init : LaidOut [⟨0, 0, 0⟩] [] [[]] := by
  refine ⟨rfl, rfl, fun k c v hc hv => ?_⟩
  cases k with
  | zero => cases hc; cases hv; exact ⟨rfl, rfl⟩
  | succ k => cases hc

/-- An `INSN` record: the entry `{pc, uint32_t(text_.size()), uint32_t(size)}` and its opcode. -/
theorem LaidOut.push {code : List InsnInCode} {text : List UInt8} {vs : List (List UInt8)}
    (h : LaidOut code text vs) (pc : Nat) (v : List UInt8) :
    LaidOut (code ++ [⟨pc, u32 text.length, u32 v.length⟩]) (text ++ v) (vs ++ [v]) := by
  obtain ⟨rfl, hl, hk⟩ := h
  refine ⟨by simp, by simp [hl], fun k c v' hc hv => ?_⟩
  rcases Nat.lt_or_ge k vs.length with hlt | hge
  · -- an old entry and its opcode
    rw [List.getElem?_append_left (hl ▸ hlt)] at hc
    rw [List.getElem?_append_left hlt] at hv
    rw [List.take_append_of_le_length hlt.le]
    exact hk k c v' hc hv
  · -- the new one, at the old end of the text
    obtain rfl : k = vs.length := by
      have := (List.getElem?_eq_some_iff.1 hv).1
      simp only [List.length_append, List.length_singleton] at this
      omega
    rw [← hl, List.getElem?_concat_length] at hc
    rw [List.getElem?_concat_length] at hv
    cases hc; cases hv
    simp

namespace Ud

variable {u u' : Ud}

theorem flush_code_text {verbose : Bool} (h : u.flush verbose = .ok u') :
    u'.code = u.code ∧ u'.text = u.text := by
  unfold flush at h
  split at h
  · cases h
  · dsimp only at h
    split_ifs at h
    cases h
    exact ⟨rfl, rfl⟩

theorem handleInsnSeq_code_text {verbose : Bool} {s : Nat}
    (h : u.handleInsnSeq verbose s = .ok u') : u'.code = u.code ∧ u'.text = u.text := by
  unfold handleInsnSeq at h
  split at h
  · cases h
  · split_ifs at h
    · cases h
      exact ⟨rfl, rfl⟩
    · split at h
      · cases h
      · rename_i hf
        cases h
        obtain ⟨hc, ht⟩ := flush_code_text hf
        exact ⟨hc, ht⟩

theorem callOn_code_text {ws : WordSize} {fuel : Nat} {sp : Space} {r : Option (Nat × Nat)}
    {mk : Nat → Nat → UdCall} (h : u.callOn ws fuel sp r mk = .ok u') :
    u'.code = u.code ∧ u'.text = u.text := by
  unfold callOn call at h
  split at h
  · split at h
    · cases h
    · cases h
      cases sp <;> exact ⟨rfl, rfl⟩
  · cases h

/-- `operator()(InsnEntry)` appends the entry of the opcode it copies, at the end of the text. -/
theorem insn_code_text {ws : WordSize} {e : Endianness} {buf : List UInt8}
    {doDisasm : List UInt8 → Nat → Option String} {cur : Nat}
    (h : u.insn ws e buf doDisasm cur = .ok u') : ∃ pc v,
      u'.code = u.code ++ [⟨pc, u32 u.text.length, u32 v.length⟩] ∧ u'.text = u.text ++ v := by
  unfold insn at h
  split at h
  · cases h
  · split_ifs at h
    split at h
    · cases h
    · split at h
      · cases h
      · rename_i pc size _ _ v hv
        cases h
        exact ⟨pc, v, by rw [length_of_bytesAt hv], rfl⟩

/-- `Ud::Init` creates the catch-all code entry and no text. -/
theorem init_code_text {ws : WordSize} {e : Endianness} {fuel machineType n : Nat}
    {primes : List Nat} (h : Ud.init ws e fuel primes machineType n = .ok u) :
    u.code = [⟨0, 0, 0⟩] ∧ u.text = [] := by
  unfold Ud.init at h
  split at h
  · cases h
  · split at h
    · cases h
    · split at h
      · cases h
      · cases h
        exact ⟨rfl, rfl⟩

end Ud

section Layout

variable {ws : WordSize} {e : Endianness} {buf : List UInt8} {verbose : Bool} {fuel : Nat}
  {doDisasm : List UInt8 → Nat → Option String}

/-- What one record does to `code_` and `text_`: an `INSN` record appends an entry and its opcode,
every other record leaves both alone. -/
theorem dispatch_code_text {i tag cur : Nat} {u u' : Ud}
    (hd : (Ud.visitor ws e buf verbose fuel doDisasm).dispatch i tag cur u = .ok u') :
    (u'.code = u.code ∧ u'.text = u.text) ∨ ∃ pc v,
      u'.code = u.code ++ [⟨pc, u32 u.text.length, u32 v.length⟩] ∧ u'.text = u.text ++ v := by
  rcases Ud.dispatch_cases e ws buf 0 hd with
    ⟨-, hd⟩ | ⟨-, rfl⟩ | ⟨s, u₁, -, hh, ⟨-, rfl⟩ | ⟨sp, r, mk, -, hcall⟩⟩
  · exact .inr (Ud.insn_code_text hd)
  · exact .inl ⟨rfl, rfl⟩
  · exact .inl (Ud.handleInsnSeq_code_text hh)
  · obtain ⟨hc, ht⟩ := Ud.handleInsnSeq_code_text hh
    exact .inl (And.imp (·.trans hc) (·.trans ht) (Ud.callOn_code_text hcall))

/-- `VisitFile<Ud>` leaves `code_` and `text_` laid out. -/
theorem udVisit_laidOut {primes : List Nat} {start stop : Nat} {u : Ud}
    (h : udVisit e ws buf doDisasm verbose fuel primes start stop = .ok u) :
    ∃ vs, LaidOut u.code u.text vs := by
  obtain ⟨t, mt, u₀, t', u₁, -, -, h₀, h₁, h⟩ := udVisit_eq_ok h
  obtain ⟨hc, ht⟩ := Ud.flush_code_text h
  obtain ⟨hc₀, ht₀⟩ := Ud.init_code_text h₀
  obtain ⟨vs, hvs⟩ := visitLoop_preserves e ws buf (fun u => ∃ vs, LaidOut u.code u.text vs)
    (fun _ _ _ _ _ hd ⟨vs, hvs⟩ => by
      rcases dispatch_code_text hd with ⟨hc, ht⟩ | ⟨pc, v, hc, ht⟩
      · exact ⟨vs, hc ▸ ht ▸ hvs⟩
      · exact ⟨_, hc ▸ ht ▸ hvs.push pc v⟩)
    h₁ ⟨_, hc₀ ▸ ht₀ ▸ laidOut_init⟩
  exact ⟨vs, hc ▸ ht ▸ hvs⟩

end Layout

/-! ## The indices of a run -/

section Exact

variable (e : Endianness) (ws : WordSize) (buf : List UInt8)

/-- What the `uint32_t` casts of a run of the builder over the records `fs` store, against the
untruncated counts. `addressSpace_`, `defs_` and `uses_` are the abstract states, which number a
def by its position in `defs_`, and the def index at each byte is its last writer's; use `j` is
keyed by `j` itself, never by the empty-slot marker, and reads its own range; each trace entry
starts at the counts before the head of its run (the seed entry at none) and ends at the counts
before the head of the next; and `textIndex` and `textSize` of each code entry are the offset and
the length of its opcode in `text_`. -/
structure IndicesExact (fs : List Frame) (u : Ud) : Prop where
  state : ∀ sp, (u.state sp).Refines (specAt e ws buf fs sp fs.length)
  defIndex_last : ∀ sp, ∀ x < ws.max, ∀ p,
    AddressSpace.entryAt (u.state sp).addressSpace x = some p →
      p.2.defIndex = lastDef (u.state sp).defs x
  useKey : ∀ sp j, j < (u.state sp).uses.length → u32 j = j ∧ j ≠ emptyKey
  seed_opened : ∀ sp T, u.trace[0]? = some T → T.useStartIndex sp = 0 ∧ T.defStartIndex sp = 0
  opened : ∀ sp k T, u.trace[k + 1]? = some T →
    T.useStartIndex sp = (specAt e ws buf fs sp (runEnd e buf (some 0) fs k)).uses.length ∧
      T.defStartIndex sp = (specAt e ws buf fs sp (runEnd e buf (some 0) fs k)).defs.length
  closed : ∀ sp t T, u.trace[t]? = some T →
    T.useEndIndex sp = (specAt e ws buf fs sp (runEnd e buf (some 0) fs t)).uses.length ∧
      T.defEndIndex sp = (specAt e ws buf fs sp (runEnd e buf (some 0) fs t)).defs.length
  text : ∃ vs : List (List UInt8), u.text = vs.flatten ∧ u.code.length = vs.length ∧
    ∀ k c v, u.code[k]? = some c → vs[k]? = some v →
      c.textIndex = (vs.take k).flatten.length ∧ c.textSize = v.length

/-- Below `2 ^ 32` bytes of text, the layout's casts are the offsets and lengths themselves. -/
theorem LaidOut.exact {code : List InsnInCode} {text : List UInt8} {vs : List (List UInt8)}
    (h : LaidOut code text vs) (htext : text.length < 2 ^ 32) {k : Nat} {c : InsnInCode}
    {v : List UInt8} (hc : code[k]? = some c) (hv : vs[k]? = some v) :
    c.textIndex = (vs.take k).flatten.length ∧ c.textSize = v.length := by
  obtain ⟨rfl, -, hk⟩ := h
  have hpre : (vs.take k).flatten.length ≤ vs.flatten.length := by
    conv_rhs => rw [← List.take_append_drop k vs]
    rw [List.flatten_append, List.length_append]
    omega
  have hmem : v.length ≤ vs.flatten.length :=
    (List.sublist_flatten_of_mem (List.getElem?_mem hv)).length_le
  rw [(hk k c v hc hv).1, (hk k c v hc hv).2, u32_of_lt (by omega), u32_of_lt (by omega)]
  exact ⟨rfl, rfl⟩

/-- `VisitFile<Ud>` over framed records, all in the window, whose calls are well-formed, whose
def and use counts stay below `2 ^ 32` and whose text stays below `2 ^ 32` bytes: every index the
builder casts to `uint32_t` is the count it casts. -/
theorem udVisit_indices_exact {doDisasm : List UInt8 → Nat → Option String} {verbose : Bool}
    {fuel stop : Nat} {primes : List Nat} {u : Ud} (hp : GoodCache primes) {t₀ : TraceMm}
    (hinit : TraceMm.init e ws buf = .ok t₀) {fs : List Frame} (hfr : Framed e ws buf t₀.cur fs)
    (hc : ∀ f ∈ fs, CallWellFormed e ws buf f) (hw : fs.length ≤ stop)
    (hlen : buf.length < 2 ^ 64)
    (hb : ∀ sp, (specAt e ws buf fs sp fs.length).defs.length < 2 ^ 32 ∧
      (specAt e ws buf fs sp fs.length).uses.length < 2 ^ 32)
    (htext : u.text.length < 2 ^ 32)
    (h : udVisit e ws buf doDisasm verbose fuel primes 0 stop = .ok u) :
    IndicesExact e ws buf fs u := by
  obtain ⟨htr, hst⟩ := udVisit_refines_specAt e ws buf hp hinit hfr hc hw hlen hb h
  -- every count of the run is at most the final one
  have hcount : ∀ sp i, (specAt e ws buf fs sp i).defs.length < 2 ^ 32 ∧
      (specAt e ws buf fs sp i).uses.length < 2 ^ 32 := fun sp i =>
    ⟨lt_of_le_of_lt (specAt_extends_final e ws buf fs sp i).1.length_le (hb sp).1,
      lt_of_le_of_lt (specAt_extends_final e ws buf fs sp i).2.length_le (hb sp).2⟩
  obtain ⟨vs, hvs⟩ := udVisit_laidOut h
  refine ⟨hst, fun sp x hx p hxp => ?_, fun sp j hj => ?_, fun sp T hT => ?_, fun sp k T hT => ?_,
    fun sp t T hT => ?_, vs, hvs.1, hvs.2.1, fun k c v hck hv => hvs.exact htext hck hv⟩
  · -- the map is the abstract one, whose indices name the last writers
    rw [(hst sp).addressSpace_eq] at hxp
    rw [(hst sp).defs_eq]
    have hinv : (specAt e ws buf fs sp fs.length).Inv ws := by
      rw [specAt_eq, List.take_length]
      exact Built.inv_run e ws buf hc (Built.inv_init ws) sp
    exact hinv.last x hx p hxp
  · rw [(hst sp).uses_eq, List.length_map] at hj
    have := (hb sp).2
    exact ⟨u32_of_lt (by omega), by unfold emptyKey uint32Max; omega⟩
  · exact (trace_entry e ws buf fs sp (htr ▸ hT)).2.2.1 rfl
  · obtain ⟨h₁, h₂⟩ := (trace_entry e ws buf fs sp (htr ▸ hT)).2.2.2 k rfl
    rw [h₁, h₂, u32_of_lt (hcount sp _).2, u32_of_lt (hcount sp _).1]
    exact ⟨rfl, rfl⟩
  · rw [(trace_entry e ws buf fs sp (htr ▸ hT)).2.1,
      trace_defEndIndex e ws buf fs sp (htr ▸ hT), u32_of_lt (hcount sp _).2,
      u32_of_lt (hcount sp _).1]
    exact ⟨rfl, rfl⟩

theorem udVisit_indices_exact_store_load :
    ∃ u, udVisit .little .four storeLoadTrace386 (fun _ _ => none) false 8 initialPrimes 0
        sizeMax = .ok u ∧ u.text.length = 2 ∧
      IndicesExact .little .four storeLoadTrace386 storeLoadFrames u := by
  obtain ⟨u, hu⟩ : ∃ u, udVisit .little .four storeLoadTrace386 (fun _ _ => none) false 8
      initialPrimes 0 sizeMax = .ok u := ⟨_, rfl⟩
  have htext : u.text.length = 2 := by
    have h2 : (udVisit .little .four storeLoadTrace386 (fun _ _ => none) false 8 initialPrimes 0
        sizeMax).map (·.text.length) = .ok 2 := rfl
    rw [hu] at h2
    injection h2
  exact ⟨u, hu, htext, udVisit_indices_exact .little .four storeLoadTrace386
    goodCache_initialPrimes (rfl : TraceMm.init .little .four storeLoadTrace386 = .ok ⟨8, 0⟩)
    framed_storeLoadFrames (by decide) (by decide) (by decide) (fun sp => by cases sp <;> decide)
    (by omega) hu⟩

end Exact

end Memtrace
