import Memtrace.Word

/-! # The live-writer map of `UdState`

`UdState::addressSpace_` is a `std::map<W, EntryValue>` from the end address of a live interval to
its start address and the index of the def that wrote it. It is modelled by its entries in key
order, and its `operator[]` assignment by `mapSet`.

* `Tiles lo hi m`: the intervals `[startAddr, endAddr)` of `m` are non-empty and, in key order,
  follow each other without gap from `lo` to `hi`. This is the invariant of the map.
* `overwrite m start stop d` is what writing `[start, stop)` by def `d` should do to a tiled map:
  keep what lies below `start` and above `stop` of every interval, and put the new interval in
  between (`Tiles.overwrite`); `entryAt` reads the map at one address.
* `affected`, `eraseAffected` and `reinsert` are the pieces of `UdState::AddDefs`, and
  `addDefsMap_eq_overwrite` says that on a tiled map they compute `overwrite`.
-/

namespace Memtrace

set_option autoImplicit false

/-- `UdState::EntryValue`. -/
structure EntryValue where
  startAddr : Nat
  defIndex : Nat
  deriving DecidableEq, Repr

/-- `UdState::AddressSpace`: the entries `endAddr → EntryValue` in increasing key order. -/
abbrev AddressSpace := List (Nat × EntryValue)

namespace AddressSpace

/-- `addressSpace_[k] = v`: insert the key at its place, or overwrite its value. -/
def mapSet : AddressSpace → Nat → EntryValue → AddressSpace
  | [], k, v => [(k, v)]
  | (k', v') :: rest, k, v =>
    if k < k' then (k, v) :: (k', v') :: rest
    else if k = k' then (k, v) :: rest
    else (k', v') :: mapSet rest k v

/-- Assignments `addressSpace_[k] = v` in order. -/
def mapSetAll (m : AddressSpace) (ps : List (Nat × EntryValue)) : AddressSpace :=
  ps.foldl (fun m p => mapSet m p.1 p.2) m

theorem mapSet_between {k : Nat} {v : EntryValue} :
    ∀ {pre post : AddressSpace}, (∀ p ∈ pre, p.1 < k) → (∀ p ∈ post, k < p.1) →
      mapSet (pre ++ post) k v = pre ++ (k, v) :: post
  | [], [], _, _ => rfl
  | [], (k', v') :: post, _, hpost => by
    simp [mapSet, hpost (k', v') (List.mem_cons_self _ _)]
  | (k', v') :: pre, post, hpre, hpost => by
    have h := hpre (k', v') (List.mem_cons_self _ _)
    simp only at h
    rw [List.cons_append, mapSet, if_neg (Nat.lt_asymm h), if_neg (Nat.ne_of_gt h),
      mapSet_between (fun p hp => hpre p (List.mem_cons_of_mem _ hp)) hpost, List.cons_append]

/-- Assigning keys that lie, in order, between the keys of `pre` and those of `post`. -/
theorem mapSetAll_between :
    ∀ {pre ps post : AddressSpace}, (pre ++ ps ++ post).Pairwise (fun a b => a.1 < b.1) →
      mapSetAll (pre ++ post) ps = pre ++ ps ++ post
  | _, [], _, _ => by simp [mapSetAll]
  | pre, p :: ps, post, h => by
    have h' : ((pre ++ [p]) ++ ps ++ post).Pairwise (fun a b => a.1 < b.1) := by simpa using h
    simp only [List.pairwise_append, List.pairwise_cons, List.mem_append, List.mem_cons] at h
    rw [mapSetAll, List.foldl_cons, mapSet_between (fun q hq => h.1.2.2 q hq p (.inl rfl))
      (fun q hq => h.2.2 p (.inr (.inl rfl)) q hq), ← List.singleton_append,
      ← List.append_assoc]
    have := mapSetAll_between h'
    simp only [mapSetAll, List.append_assoc, List.singleton_append] at this ⊢
    exact this

/-! ## Tiling -/

/-- The entries are non-empty intervals that follow each other from `lo` to `hi`. -/
def Tiles : Nat → Nat → AddressSpace → Prop
  | lo, hi, [] => lo = hi
  | lo, hi, (k, v) :: rest => v.startAddr = lo ∧ lo < k ∧ Tiles k hi rest

@[simp] theorem tiles_nil {lo hi : Nat} : Tiles lo hi [] ↔ lo = hi := Iff.rfl

@[simp] theorem tiles_cons {lo hi k : Nat} {v : EntryValue} {rest : AddressSpace} :
    Tiles lo hi ((k, v) :: rest) ↔ v.startAddr = lo ∧ lo < k ∧ Tiles k hi rest := Iff.rfl

theorem Tiles.append {lo mid hi : Nat} :
    ∀ {l₁ l₂ : AddressSpace}, Tiles lo mid l₁ → Tiles mid hi l₂ → Tiles lo hi (l₁ ++ l₂)
  | [], _, h₁, h₂ => by rw [tiles_nil] at h₁; subst h₁; exact h₂
  | (_, _) :: _, _, ⟨hs, hlt, h₁⟩, h₂ => ⟨hs, hlt, Tiles.append h₁ h₂⟩

theorem Tiles.le {lo hi : Nat} : ∀ {m : AddressSpace}, Tiles lo hi m → lo ≤ hi
  | [], h => by rw [tiles_nil] at h; omega
  | (_, _) :: _, ⟨_, hlt, h⟩ => by have := Tiles.le h; omega

theorem Tiles.mem {lo hi : Nat} :
    ∀ {m : AddressSpace}, Tiles lo hi m →
      ∀ p ∈ m, lo ≤ p.2.startAddr ∧ p.2.startAddr < p.1 ∧ p.1 ≤ hi
  | [], _, _, hp => by simp at hp
  | (k, v) :: rest, ⟨hs, hlt, h⟩, p, hp => by
    rcases List.mem_cons.1 hp with rfl | hp
    · exact ⟨hs.ge, hs ▸ hlt, h.le⟩
    · have := Tiles.mem h p hp
      omega

theorem Tiles.pairwise {lo hi : Nat} :
    ∀ {m : AddressSpace}, Tiles lo hi m → m.Pairwise (fun a b => a.1 < b.1)
  | [], _ => List.Pairwise.nil
  | (k, v) :: rest, ⟨_, _, h⟩ => List.Pairwise.cons (fun p hp => by
      have := Tiles.mem h p hp; simp only; omega) (Tiles.pairwise h)

theorem Tiles.pairwise_le {lo hi : Nat} :
    ∀ {m : AddressSpace}, Tiles lo hi m → m.Pairwise (fun a b => a.1 ≤ b.2.startAddr)
  | [], _ => List.Pairwise.nil
  | _ :: _, ⟨_, _, h⟩ => List.Pairwise.cons (fun p hp => (Tiles.mem h p hp).1)
      (Tiles.pairwise_le h)

/-! ## Overwriting an interval -/

/-- What is left of an entry below `start`. -/
def leftPart (start : Nat) (p : Nat × EntryValue) : Option (Nat × EntryValue) :=
  if p.2.startAddr < start then some (min p.1 start, p.2) else none

/-- What is left of an entry from `stop` on. -/
def rightPart (stop : Nat) (p : Nat × EntryValue) : Option (Nat × EntryValue) :=
  if stop < p.1 then some (p.1, ⟨max p.2.startAddr stop, p.2.defIndex⟩) else none

/-- Writing `[start, stop)` by def `d`: the parts of the old intervals below `start`, the new
interval, and the parts of the old intervals from `stop` on. -/
def overwrite (m : AddressSpace) (start stop d : Nat) : AddressSpace :=
  m.filterMap (leftPart start) ++ (stop, ⟨start, d⟩) :: m.filterMap (rightPart stop)

theorem filterMap_leftPart_eq_nil {start : Nat} {m : AddressSpace}
    (h : ∀ p ∈ m, start ≤ p.2.startAddr) : m.filterMap (leftPart start) = [] :=
  List.filterMap_eq_nil_iff.2 fun p hp => by have := h p hp; simp [leftPart]; omega

theorem filterMap_leftPart_self {start : Nat} {m : AddressSpace}
    (h : ∀ p ∈ m, p.2.startAddr < p.1 ∧ p.1 ≤ start) : m.filterMap (leftPart start) = m := by
  induction m with
  | nil => rfl
  | cons p m ih =>
    have hp := h p (List.mem_cons_self _ _)
    rw [List.filterMap_cons, leftPart, if_pos (by omega), Nat.min_eq_left hp.2,
      ih fun q hq => h q (List.mem_cons_of_mem _ hq)]

theorem filterMap_rightPart_eq_nil {stop : Nat} {m : AddressSpace}
    (h : ∀ p ∈ m, p.1 ≤ stop) : m.filterMap (rightPart stop) = [] :=
  List.filterMap_eq_nil_iff.2 fun p hp => by have := h p hp; simp [rightPart]; omega

theorem filterMap_rightPart_self {stop : Nat} {m : AddressSpace}
    (h : ∀ p ∈ m, stop ≤ p.2.startAddr ∧ p.2.startAddr < p.1) :
    m.filterMap (rightPart stop) = m := by
  induction m with
  | nil => rfl
  | cons p m ih =>
    have hp := h p (List.mem_cons_self _ _)
    rw [List.filterMap_cons, rightPart, if_pos (by omega), Nat.max_eq_left hp.1,
      ih fun q hq => h q (List.mem_cons_of_mem _ hq)]

theorem Tiles.filterMap_leftPart {lo hi start : Nat} :
    ∀ {m : AddressSpace}, Tiles lo hi m → lo ≤ start → start ≤ hi →
      Tiles lo start (m.filterMap (leftPart start))
  | [], h, h₁, h₂ => by rw [tiles_nil] at h; rw [List.filterMap_nil, tiles_nil]; omega
  | (k, v) :: rest, ⟨hs, hlt, h⟩, h₁, h₂ => by
    have hrest := fun p hp => (Tiles.mem h p hp).1
    by_cases hls : lo < start
    · rw [List.filterMap_cons, leftPart, if_pos (by simp only; omega)]
      by_cases hk : k ≤ start
      · exact ⟨hs, by simp only; omega, by
          rw [Nat.min_eq_left hk]; exact Tiles.filterMap_leftPart h hk h₂⟩
      · rw [filterMap_leftPart_eq_nil fun p hp => by have := hrest p hp; omega]
        exact ⟨hs, by simp only; omega, by simp only [tiles_nil]; omega⟩
    · rw [List.filterMap_cons, leftPart, if_neg (by simp only; omega),
        filterMap_leftPart_eq_nil fun p hp => by have := hrest p hp; omega, tiles_nil]
      omega

theorem Tiles.filterMap_rightPart {lo hi stop : Nat} :
    ∀ {m : AddressSpace}, Tiles lo hi m → lo ≤ stop → stop ≤ hi →
      Tiles stop hi (m.filterMap (rightPart stop))
  | [], h, h₁, h₂ => by rw [tiles_nil] at h; rw [List.filterMap_nil, tiles_nil]; omega
  | (k, v) :: rest, ⟨hs, hlt, h⟩, h₁, h₂ => by
    by_cases hk : stop < k
    · rw [List.filterMap_cons, rightPart, if_pos hk,
        filterMap_rightPart_self fun p hp => by have := Tiles.mem h p hp; omega]
      exact ⟨by simp only; omega, hk, h⟩
    · rw [List.filterMap_cons, rightPart, if_neg hk]
      exact Tiles.filterMap_rightPart h (by omega) h₂

theorem Tiles.overwrite {lo hi start stop d : Nat} {m : AddressSpace} (h : Tiles lo hi m)
    (h₁ : lo ≤ start) (h₂ : start < stop) (h₃ : stop ≤ hi) :
    Tiles lo hi (AddressSpace.overwrite m start stop d) :=
  (h.filterMap_leftPart h₁ (by omega)).append
    ⟨rfl, h₂, h.filterMap_rightPart (by omega) h₃⟩

theorem mem_overwrite {m : AddressSpace} {start stop d : Nat} {p : Nat × EntryValue} :
    p ∈ AddressSpace.overwrite m start stop d ↔
      (∃ q ∈ m, leftPart start q = some p) ∨ p = (stop, ⟨start, d⟩) ∨
        ∃ q ∈ m, rightPart stop q = some p := by
  simp [AddressSpace.overwrite, List.mem_filterMap, or_assoc]


/-! ## The pieces of `AddDefs` -/

/-- The entries the loops of `AddUses` and `AddDefs` visit: from `lower_bound(key)` (`key` is
`startAddr + 1` in `W`) while the entry starts below `endAddr`. -/
def affected (m : AddressSpace) (key endAddr : Nat) : AddressSpace :=
  (m.dropWhile fun p => p.1 < key).takeWhile fun p => p.2.startAddr < endAddr

/-- `addressSpace_.erase(firstAffected, lastAffected)`. -/
def eraseAffected (m : AddressSpace) (key endAddr : Nat) : AddressSpace :=
  m.takeWhile (fun p => p.1 < key) ++
    (m.dropWhile fun p => p.1 < key).dropWhile fun p => p.2.startAddr < endAddr

/-- The body of the loop of `AddDefs` over the affected entries: what is kept of one of them. -/
def reinsert (startAddr endAddr : Nat) (m : AddressSpace) (entry : Nat × EntryValue) :
    AddressSpace :=
  let entryStartAddr := entry.2.startAddr
  let entryEndAddr := entry.1
  let entryDefIndex := entry.2.defIndex
  if startAddr ≤ entryStartAddr then
    -- Left overlap, or outer overlap.
    if endAddr < entryEndAddr then mapSet m entryEndAddr ⟨endAddr, entryDefIndex⟩ else m
  else
    -- Inner overlap, or right overlap.
    if endAddr < entryEndAddr then
      mapSet (mapSet m startAddr ⟨entryStartAddr, entryDefIndex⟩) entryEndAddr
        ⟨endAddr, entryDefIndex⟩
    else mapSet m startAddr ⟨entryStartAddr, entryDefIndex⟩

/-- What `reinsert` assigns, for an entry that the write meets. -/
theorem reinsert_eq {startAddr endAddr : Nat} (m : AddressSpace) {e : Nat × EntryValue}
    (h₁ : startAddr < e.1) (h₂ : e.2.startAddr < endAddr) :
    reinsert startAddr endAddr m e =
      mapSetAll m ((leftPart startAddr e).toList ++ (rightPart endAddr e).toList) := by
  obtain ⟨k, s, d⟩ := e
  simp only at h₁ h₂
  unfold reinsert leftPart rightPart
  simp only [Nat.min_eq_right h₁.le, Nat.max_eq_right h₂.le]
  split_ifs <;> first | omega | simp [mapSetAll]

theorem dropWhile_key_ge {k : Nat} :
    ∀ {m : AddressSpace}, m.Pairwise (fun a b => a.1 < b.1) →
      ∀ p ∈ m.dropWhile (fun p => p.1 < k), k ≤ p.1
  | [], _, _, hp => by simp at hp
  | q :: m, h, p, hp => by
    rw [List.pairwise_cons] at h
    by_cases hq : q.1 < k
    · rw [List.dropWhile_cons_of_pos (by simpa using hq)] at hp
      exact dropWhile_key_ge h.2 p hp
    · rw [List.dropWhile_cons_of_neg (by simpa using hq)] at hp
      rcases List.mem_cons.1 hp with rfl | hp
      · omega
      · have := h.1 p hp; omega

theorem dropWhile_start_ge {k : Nat} :
    ∀ {m : AddressSpace}, m.Pairwise (fun a b => a.1 ≤ b.2.startAddr) →
      (∀ p ∈ m, p.2.startAddr < p.1) →
      ∀ p ∈ m.dropWhile (fun p => p.2.startAddr < k), k ≤ p.2.startAddr
  | [], _, _, _, hp => by simp at hp
  | q :: m, h, hne, p, hp => by
    rw [List.pairwise_cons] at h
    have hne' := fun p hp => hne p (List.mem_cons_of_mem q hp)
    by_cases hq : q.2.startAddr < k
    · rw [List.dropWhile_cons_of_pos (by simpa using hq)] at hp
      exact dropWhile_start_ge h.2 hne' p hp
    · rw [List.dropWhile_cons_of_neg (by simpa using hq)] at hp
      rcases List.mem_cons.1 hp with rfl | hp
      · omega
      · have := h.1 p hp; have := hne q (List.mem_cons_self _ _); omega

theorem flatMap_pieces_of_le {start stop : Nat} :
    ∀ {l : AddressSpace}, (∀ e ∈ l, start ≤ e.2.startAddr) →
      l.flatMap (fun e => (leftPart start e).toList ++ (rightPart stop e).toList) =
        l.filterMap (rightPart stop)
  | [], _ => rfl
  | e :: l, h => by
    have he : leftPart start e = none := by
      have := h e (List.mem_cons_self _ _); simp [leftPart]; omega
    rw [List.flatMap_cons, he, Option.toList_none, List.nil_append, List.filterMap_cons,
      flatMap_pieces_of_le fun q hq => h q (List.mem_cons_of_mem _ hq)]
    cases rightPart stop e <;> rfl

theorem flatMap_pieces {start stop : Nat} :
    ∀ {l : AddressSpace}, l.Pairwise (fun a b => a.1 ≤ b.2.startAddr) → (∀ e ∈ l, start < e.1) →
      l.flatMap (fun e => (leftPart start e).toList ++ (rightPart stop e).toList) =
        l.filterMap (leftPart start) ++ l.filterMap (rightPart stop)
  | [], _, _ => rfl
  | a :: l, hpw, ha => by
    have hl : ∀ e ∈ l, start ≤ e.2.startAddr := fun e he => by
      have := (List.pairwise_cons.1 hpw).1 e he; have := ha a (List.mem_cons_self _ _); omega
    rw [List.flatMap_cons, flatMap_pieces_of_le hl, List.filterMap_cons, List.filterMap_cons,
      filterMap_leftPart_eq_nil hl]
    cases leftPart start a <;> cases rightPart stop a <;> rfl

/-- The loop of `AddDefs` assigns the pieces of the affected entries in order. -/
theorem foldl_reinsert {start stop : Nat} :
    ∀ {l : AddressSpace} (m : AddressSpace), (∀ e ∈ l, start < e.1 ∧ e.2.startAddr < stop) →
      l.foldl (reinsert start stop) m =
        mapSetAll m (l.flatMap fun e => (leftPart start e).toList ++ (rightPart stop e).toList)
  | [], _, _ => rfl
  | e :: l, m, h => by
    have he := h e (List.mem_cons_self _ _)
    rw [List.foldl_cons, reinsert_eq m he.1 he.2,
      foldl_reinsert _ fun q hq => h q (List.mem_cons_of_mem _ hq), List.flatMap_cons]
    simp only [mapSetAll, List.foldl_append]

/-- The three parts of a tiled map around a write `[start, stop)`: the entries below `start`, the
affected ones, which meet the write, and the entries from `stop` on. -/
theorem Tiles.parts {lo hi : Nat} {m : AddressSpace} (h : Tiles lo hi m) (start stop : Nat) :
    (∀ p ∈ m.takeWhile (fun p => p.1 < start + 1), p.2.startAddr < p.1 ∧ p.1 ≤ start) ∧
    (∀ e ∈ affected m (start + 1) stop, start < e.1 ∧ e.2.startAddr < stop) ∧
    ∀ p ∈ (m.dropWhile fun p => p.1 < start + 1).dropWhile (fun p => p.2.startAddr < stop),
      stop ≤ p.2.startAddr ∧ p.2.startAddr < p.1 := by
  have hrest : (m.dropWhile fun p => p.1 < start + 1) <:+ m := List.dropWhile_suffix _
  refine ⟨fun p hp => ⟨(h.mem p ((List.takeWhile_prefix _).subset hp)).2.1, ?_⟩,
    fun e he => ⟨dropWhile_key_ge h.pairwise e ((List.takeWhile_prefix _).subset he), ?_⟩,
    fun p hp => ⟨dropWhile_start_ge (h.pairwise_le.sublist hrest.sublist)
      (fun q hq => (h.mem q (hrest.subset hq)).2.1) p hp,
      (h.mem p (hrest.subset ((List.dropWhile_suffix _).subset hp))).2.1⟩⟩
  · have := List.mem_takeWhile_imp hp; simp at this; omega
  · have := List.mem_takeWhile_imp he; simpa using this

/-- On a tiled map the entries that `AddDefs(start, stop - start)` erases and reassigns give
`overwrite`: the code's map after the write is the abstract one. -/
theorem addDefsMap_eq_overwrite {lo hi start stop : Nat} {m : AddressSpace} (h : Tiles lo hi m)
    (h₁ : lo ≤ start) (h₂ : start < stop) (h₃ : stop ≤ hi) (d : Nat) :
    mapSet ((affected m (start + 1) stop).foldl (reinsert start stop)
      (eraseAffected m (start + 1) stop)) stop ⟨start, d⟩ = overwrite m start stop d := by
  obtain ⟨hpre, haff, hpost⟩ := h.parts start stop
  set pre := m.takeWhile fun p => p.1 < start + 1
  set rest := m.dropWhile fun p => p.1 < start + 1
  set aff := rest.takeWhile fun p => p.2.startAddr < stop
  set post := rest.dropWhile fun p => p.2.startAddr < stop
  have hm : m = pre ++ (aff ++ post) := by simp [pre, rest, aff, post]
  have hov : overwrite m start stop d = (pre ++ aff.filterMap (leftPart start)) ++
      (stop, ⟨start, d⟩) :: (aff.filterMap (rightPart stop) ++ post) := by
    conv_lhs => rw [hm]
    rw [overwrite, List.filterMap_append, List.filterMap_append, List.filterMap_append,
      List.filterMap_append, filterMap_leftPart_self hpre,
      filterMap_leftPart_eq_nil (m := post) fun p hp => by have := hpost p hp; omega,
      filterMap_rightPart_eq_nil (m := pre) fun p hp => by have := hpre p hp; omega,
      filterMap_rightPart_self hpost, List.append_nil, List.nil_append]
  have hP := (Tiles.overwrite (d := d) h h₁ h₂ h₃).pairwise
  rw [hov] at hP
  have hP' := List.pairwise_append.1 hP
  have hlt : ∀ p ∈ pre ++ aff.filterMap (leftPart start), p.1 < stop := fun p hp =>
    hP'.2.2 p hp _ (List.mem_cons_self _ _)
  have hgt := (List.pairwise_cons.1 hP'.2.1).1
  have hP2 : (pre ++ (aff.filterMap (leftPart start) ++ aff.filterMap (rightPart stop)) ++
      post).Pairwise (fun a b => a.1 < b.1) := by
    simpa only [List.append_assoc] using hP.sublist ((List.sublist_cons_self _ _).append_left _)
  have hpw : aff.Pairwise (fun a b => a.1 ≤ b.2.startAddr) :=
    h.pairwise_le.sublist ((List.takeWhile_prefix _).sublist.trans
      (List.dropWhile_suffix _).sublist)
  have haff' : ∀ e ∈ aff, start < e.1 ∧ e.2.startAddr < stop := haff
  show mapSet (aff.foldl (reinsert start stop) (pre ++ post)) stop ⟨start, d⟩ = _
  rw [foldl_reinsert _ haff', flatMap_pieces hpw fun e he => (haff' e he).1,
    mapSetAll_between hP2, hov, ← mapSet_between hlt hgt]
  simp only [List.append_assoc]

/-- The intervals that meet `[start, stop)`. -/
def meets (start stop : Nat) (p : Nat × EntryValue) : Bool :=
  max p.2.startAddr start < min p.1 stop

/-- On a tiled map the loops of `AddUses` and `AddDefs` visit exactly the intervals that meet the
range, in address order. -/
theorem Tiles.affected_eq_filter {lo hi start stop : Nat} {m : AddressSpace} (h : Tiles lo hi m)
    (hs : start < stop) : affected m (start + 1) stop = m.filter (meets start stop) := by
  obtain ⟨hpre, haff, hpost⟩ := h.parts start stop
  have hne : ∀ p ∈ m, p.2.startAddr < p.1 := fun p hp => (h.mem p hp).2.1
  have h1 : (m.takeWhile fun p => p.1 < start + 1).filter (meets start stop) = [] :=
    List.filter_eq_nil_iff.2 fun p hp => by have := hpre p hp; simp [meets]; omega
  have h2 : ((m.dropWhile fun p => p.1 < start + 1).dropWhile
      fun p => p.2.startAddr < stop).filter (meets start stop) = [] :=
    List.filter_eq_nil_iff.2 fun p hp => by have := hpost p hp; simp [meets]; omega
  have h3 : ((m.dropWhile fun p => p.1 < start + 1).takeWhile
      fun p => p.2.startAddr < stop).filter (meets start stop) = affected m (start + 1) stop :=
    List.filter_eq_self.2 fun p hp => by
      have := haff p hp
      have := hne p ((List.dropWhile_suffix _).subset ((List.takeWhile_prefix _).subset hp))
      simp [meets]; omega
  conv_rhs => rw [← List.takeWhile_append_dropWhile (fun p => decide (p.1 < start + 1)) m,
    ← List.takeWhile_append_dropWhile (fun p => decide (p.2.startAddr < stop))
      (m.dropWhile fun p => decide (p.1 < start + 1))]
  rw [List.filter_append, List.filter_append, h1, h2, h3, List.nil_append, List.append_nil]

/-! ## Reading the map at an address -/

/-- The entry whose interval contains `x`: the first one ending after `x`. -/
def entryAt (m : AddressSpace) (x : Nat) : Option (Nat × EntryValue) :=
  m.find? fun p => x < p.1

theorem entryAt_mem {m : AddressSpace} {x : Nat} {p : Nat × EntryValue}
    (h : entryAt m x = some p) : p ∈ m :=
  List.mem_of_find?_eq_some h

theorem Tiles.entryAt_spec {lo hi : Nat} :
    ∀ {m : AddressSpace}, Tiles lo hi m → ∀ {x : Nat}, lo ≤ x → x < hi →
      ∃ p, entryAt m x = some p ∧ p.2.startAddr ≤ x ∧ x < p.1
  | [], h, x, hlo, hhi => by rw [tiles_nil] at h; omega
  | (k, v) :: rest, ⟨hs, hlt, h⟩, x, hlo, hhi => by
    by_cases hx : x < k
    · exact ⟨(k, v), by simp [entryAt, hx], by simp only; omega, hx⟩
    · obtain ⟨p, hp, hps⟩ := Tiles.entryAt_spec h (by omega) hhi
      exact ⟨p, by simpa [entryAt, hx] using hp, hps⟩

theorem Tiles.entryAt_eq_of_mem {lo hi : Nat} :
    ∀ {m : AddressSpace}, Tiles lo hi m → ∀ {p : Nat × EntryValue} {x : Nat}, p ∈ m →
      p.2.startAddr ≤ x → x < p.1 → entryAt m x = some p
  | [], _, _, _, hp, _, _ => by simp at hp
  | (k, v) :: rest, ⟨_, _, h⟩, p, x, hp, h1, h2 => by
    rcases List.mem_cons.1 hp with rfl | hp
    · simp [entryAt, h2]
    · have := (Tiles.mem h p hp).1
      have hx : ¬ x < k := by omega
      simpa [entryAt, hx] using Tiles.entryAt_eq_of_mem h hp h1 h2

/-- What the map reads at `x` after overwriting `[start, stop)`: the new interval inside the
write, and outside it what is left of the interval that held `x`, under its old def. -/
theorem Tiles.entryAt_overwrite {lo hi start stop d x : Nat} {m : AddressSpace}
    (h : Tiles lo hi m) (h₁ : lo ≤ start) (h₂ : start < stop) (h₃ : stop ≤ hi) (hx₁ : lo ≤ x)
    (hx₂ : x < hi) :
    ∃ q, entryAt m x = some q ∧ q.2.startAddr ≤ x ∧ x < q.1 ∧
      entryAt (AddressSpace.overwrite m start stop d) x =
        if start ≤ x ∧ x < stop then some (stop, ⟨start, d⟩)
        else if x < start then some (min q.1 start, q.2)
        else some (q.1, ⟨max q.2.startAddr stop, q.2.defIndex⟩) := by
  obtain ⟨q, hq, hq₁, hq₂⟩ := h.entryAt_spec hx₁ hx₂
  have hqm := entryAt_mem hq
  have hov := h.overwrite (d := d) h₁ h₂ h₃
  refine ⟨q, hq, hq₁, hq₂, ?_⟩
  split_ifs with hmid hlt
  · exact hov.entryAt_eq_of_mem (mem_overwrite.2 (.inr (.inl rfl))) hmid.1 hmid.2
  · have hl : leftPart start q = some (min q.1 start, q.2) := by
      unfold leftPart; rw [if_pos (by omega)]
    exact hov.entryAt_eq_of_mem (mem_overwrite.2 (.inl ⟨q, hqm, hl⟩)) hq₁
      (show x < min q.1 start by omega)
  · have hr : rightPart stop q = some (q.1, ⟨max q.2.startAddr stop, q.2.defIndex⟩) := by
      unfold rightPart; rw [if_pos (by omega)]
    exact hov.entryAt_eq_of_mem (mem_overwrite.2 (.inr (.inr ⟨q, hqm, hr⟩)))
      (show max q.2.startAddr stop ≤ x by omega) hq₂

end AddressSpace

end Memtrace
