import Cbop.Merge.Check
import Cbop.RangeTree.Contains

/-
  What `check_for_overlap` accepts when the task has
  received data.

  An access range passes if it misses the write union, or if
  it is excused: it is one of the ranges of the union and
  part of a range received from the task that wrote it last.
  Each excused range is noted in `received_n_used` with the
  data received for it.

  Main declarations:
    * `Excuses`, `usedRange`
    * `checkRange_spec`
    * `checkForOverlap_accepts`
-/

namespace Cbop

------------------------------------------------------------
-- Lookups
------------------------------------------------------------

/- A lookup inside a stored range returns that range. -/
theorem mapFind_of_mem
    {map : RangeMap Bytes}
    {r : MemRange Bytes}
    {addr : Nat}
    (hMap : map.Keeps 0)
    (hr : r ∈ map.ranges)
    (hAddr : addr ∈ r.addrs) :
    ∃ map', mapFind map addr = .ret (map', r) ∧
      map'.ranges = map.ranges ∧ map'.size = map.size := by
  rcases mapContains_spec hMap.apart addr with
    ⟨map', found, hLookup⟩
  have hFound : found = some r :=
    (hLookup.found_iff r).mpr ⟨hr, hAddr⟩
  refine ⟨map', ?_, hLookup.ranges_eq, hLookup.size_eq⟩
  unfold mapFind
  rw [hLookup.call, hFound]
  rfl

/- One range lies inside another. -/
def Inside (m q : MemRange Bytes) : Prop :=
  q.base ≤ m.base ∧ m.base + m.size ≤ q.base + q.size

/- The common part is the whole of a range exactly inside. -/
theorem commonPart_eq_extent_iff
    {q m : MemRange Bytes}
    (hValid : m.Valid) :
    memRangeEq (commonPart q m) m.extent = true ↔
      Inside m q := by
  have hPos := hValid.pos
  unfold memRangeEq commonPart MemRange.extent Inside
  simp only [Bool.and_eq_true, decide_eq_true_eq]
  omega

/- Of disjoint ranges only one can hold a given range. -/
theorem mapOverlaps_of_inside
    {map : RangeMap Bytes}
    {m q : MemRange Bytes}
    (hMap : map.Keeps 0)
    (hValid : m.Valid)
    (hq : q ∈ map.ranges)
    (hInside : Inside m q) :
    mapOverlaps map m = some m.extent := by
  have hPos := hValid.pos
  have hMeets : Meets q m :=
    ⟨by have h := hInside.1; omega,
      by have h := hInside.2; omega⟩
  rcases mapOverlaps_cases hMap.apart hValid with
    ⟨_, hFree⟩ | ⟨r, hr, hR, hEq⟩
  · exact absurd hMeets (hFree q hq)
  · have hSame : SameExtent r q := by
      rcases hMap.apart.equalOrDisjoint hr hq with
        hSame | hMiss
      · exact hSame
      · exfalso
        apply hMiss
        rcases hInside with ⟨hLow, hHigh⟩
        rcases hR with ⟨hRLow, hRHigh⟩
        exact ⟨by omega, by omega⟩
    rw [hEq]
    have hInsideR : Inside m r := by
      unfold Inside
      rw [hSame.1, hSame.2]
      exact hInside
    have hWhole :=
      (commonPart_eq_extent_iff hValid).mpr hInsideR
    unfold memRangeEq at hWhole
    simp only [Bool.and_eq_true,
      decide_eq_true_eq] at hWhole
    exact congrArg some (Prod.ext hWhole.1 hWhole.2)

------------------------------------------------------------
-- Excused Ranges
------------------------------------------------------------

/- The access range shares no byte with the write union. -/
def Untouched
    (st : CheckState)
    (m : MemRange Bytes) : Prop :=
  Disjoint m.addrs st.writeUnion.covered

/-
  The access range is the range `w` of the write union and
  lies in the range `q` received from its last writer.
-/
structure Excuses
    (st : CheckState)
    (m w q : MemRange Bytes) : Prop where
  written : w ∈ st.writeUnion.ranges
  extent : SameExtent w m
  received : q ∈ st.received.ranges
  inside : Inside m q
  task : q.task = w.task

/- The range noted in `received_n_used`. -/
def usedRange (m w q : MemRange Bytes) : MemRange Bytes :=
  taskNode m.base m.size q.record w.task

/- Two states of the check with the same maps to search. -/
structure SameMaps (st st' : CheckState) : Prop where
  union_ranges :
    st'.writeUnion.ranges = st.writeUnion.ranges
  union_size : st'.writeUnion.size = st.writeUnion.size
  received_ranges : st'.received.ranges = st.received.ranges
  received_size : st'.received.size = st.received.size

theorem SameMaps.refl (st : CheckState) : SameMaps st st :=
  ⟨rfl, rfl, rfl, rfl⟩

theorem SameMaps.trans
    {st st₁ st₂ : CheckState}
    (h : SameMaps st st₁)
    (h' : SameMaps st₁ st₂) :
    SameMaps st st₂ :=
  ⟨h'.union_ranges.trans h.union_ranges,
    h'.union_size.trans h.union_size,
    h'.received_ranges.trans h.received_ranges,
    h'.received_size.trans h.received_size⟩

theorem SameMaps.union_keeps
    {st st' : CheckState}
    (h : SameMaps st st')
    (hUnion : st.writeUnion.Keeps 0) :
    st'.writeUnion.Keeps 0 :=
  keeps_of_ranges hUnion h.union_ranges h.union_size

theorem SameMaps.received_keeps
    {st st' : CheckState}
    (h : SameMaps st st')
    (hReceived : st.received.Keeps 0) :
    st'.received.Keeps 0 :=
  keeps_of_ranges hReceived h.received_ranges h.received_size

theorem SameMaps.untouched_iff
    {st st' : CheckState}
    (h : SameMaps st st')
    {m : MemRange Bytes} :
    Untouched st' m ↔ Untouched st m := by
  unfold Untouched RangeMap.covered
  rw [h.union_ranges]

theorem SameMaps.excuses_iff
    {st st' : CheckState}
    (h : SameMaps st st')
    {m w q : MemRange Bytes} :
    Excuses st' m w q ↔ Excuses st m w q := by
  constructor
  · intro hCase
    rcases hCase with ⟨hW, hExtent, hQ, hInside, hTask⟩
    rw [h.union_ranges] at hW
    rw [h.received_ranges] at hQ
    exact ⟨hW, hExtent, hQ, hInside, hTask⟩
  · intro hCase
    rcases hCase with ⟨hW, hExtent, hQ, hInside, hTask⟩
    rw [← h.union_ranges] at hW
    rw [← h.received_ranges] at hQ
    exact ⟨hW, hExtent, hQ, hInside, hTask⟩

/- No stored range meets an untouched one. -/
theorem untouched_iff
    {st : CheckState}
    {m : MemRange Bytes}
    (hUnion : st.writeUnion.Keeps 0)
    (hValid : m.Valid) :
    Untouched st m ↔
      ∀ w ∈ st.writeUnion.ranges, ¬ Meets w m := by
  unfold Untouched
  rw [Set.disjoint_left]
  constructor
  · intro hDisjoint w hw hMeets
    rcases exists_mem_of_meets hMeets
        (hUnion.apart.valid w hw) hValid with
      ⟨a, haW, haM⟩
    exact hDisjoint haM ⟨w, hw, haW⟩
  · intro hFree a haM h
    rcases h with ⟨w, hw, haW⟩
    exact hFree w hw (meets_of_mem haW haM)

------------------------------------------------------------
-- One Access Range
------------------------------------------------------------

theorem base_mem_of_inside
    {m q : MemRange Bytes}
    (hValid : m.Valid)
    (h : Inside m q) :
    m.base ∈ q.addrs := by
  have hPos := hValid.pos
  rw [MemRange.mem_addrs]
  exact ⟨h.1, by have hHigh := h.2; omega⟩

theorem inside_of_sameExtent
    {m w : MemRange Bytes}
    (h : SameExtent w m) :
    Inside m w := by
  rcases h with ⟨hBase, hSize⟩
  exact ⟨by omega, by omega⟩

/- A range of the write union around an excused one. -/
theorem Excuses.written_eq
    {st : CheckState}
    {m w q r : MemRange Bytes}
    (h : Excuses st m w q)
    (hUnion : st.writeUnion.Keeps 0)
    (hValid : m.Valid)
    (hr : r ∈ st.writeUnion.ranges)
    (hInside : Inside m r) :
    w = r :=
  eq_of_mem_addrs hUnion h.written hr
    (base_mem_of_inside hValid (inside_of_sameExtent h.extent))
    (base_mem_of_inside hValid hInside)

theorem memRangeEq_iff
    {x y : Nat × Nat} :
    memRangeEq x y = true ↔ x = y := by
  unfold memRangeEq
  rw [Bool.and_eq_true, decide_eq_true_eq,
    decide_eq_true_eq, Prod.ext_iff]

/- The end of `check_for_overlap` for an excused range. -/
def noteUsed
    (st : CheckState)
    (m w q : MemRange Bytes) :
    Outcome (CheckState × Option Nat) := do
  let used ←
    (mapAddRangeFromTask st.receivedNUsed m.base m.size
      q.record w.task).outcome
  pure ({ st with receivedNUsed := used }, none)

/- A range equal to one of the write union. -/
theorem checkReceived_spec
    {st : CheckState}
    {m w : MemRange Bytes}
    (hReceived : st.received.Keeps 0)
    (hValid : m.Valid)
    (hWritten : w ∈ st.writeUnion.ranges)
    (hExtent : SameExtent w m) :
    (∃ q st₁, Excuses st m w q ∧ SameMaps st st₁ ∧
      st₁.receivedNUsed = st.receivedNUsed ∧
      checkReceived st m w m.extent = noteUsed st₁ m w q) ∨
    ((∀ q, ¬ Excuses st m w q) ∧
      ∃ st₁, SameMaps st st₁ ∧
        checkReceived st m w m.extent =
          .ret (st₁, some m.base)) := by
  unfold checkReceived
  by_cases hHeld : ∃ q ∈ st.received.ranges, Inside m q
  · rcases hHeld with ⟨q, hq, hInside⟩
    have hOverlap :=
      mapOverlaps_of_inside hReceived hValid hq hInside
    have hBase := base_mem_of_inside hValid hInside
    rcases mapFind_of_mem hReceived hq hBase with
      ⟨received', hFind, hRanges, hSize⟩
    have hSelf : memRangeEq m.extent m.extent = true :=
      memRangeEq_iff.mpr rfl
    have hFind' :
        mapFind st.received m.extent.1 = .ret (received', q) :=
      hFind
    simp only [hOverlap, hSelf, if_true, hFind',
      Outcome.ret_bind]
    by_cases hTask : q.task = w.task
    · left
      refine ⟨q, { st with received := received' },
        ⟨hWritten, hExtent, hq, hInside, hTask⟩,
        ⟨rfl, rfl, hRanges, hSize⟩, rfl, ?_⟩
      rw [if_pos hTask, hExtent.1, hExtent.2]
      rfl
    · right
      refine ⟨?_, { st with received := received' },
        ⟨rfl, rfl, hRanges, hSize⟩, if_neg hTask⟩
      intro q' h
      rcases h with ⟨_, _, hq', hInside', hTask'⟩
      have hSame := eq_of_mem_addrs hReceived hq hq' hBase
        (base_mem_of_inside hValid hInside')
      rw [← hSame] at hTask'
      exact hTask hTask'
  · right
    refine ⟨fun q hExcuse =>
      hHeld ⟨q, hExcuse.received, hExcuse.inside⟩,
      st, SameMaps.refl st, ?_⟩
    rcases mapOverlaps_cases hReceived.apart hValid with
      ⟨hNone, _⟩ | ⟨r, hr, _, hEq⟩
    · rw [hNone]
      rfl
    · have hOther :
          memRangeEq m.extent (commonPart r m) = false := by
        rw [Bool.eq_false_iff]
        intro hWhole
        apply hHeld
        refine ⟨r, hr, ?_⟩
        apply (commonPart_eq_extent_iff hValid).mp
        rw [memRangeEq_iff] at hWhole ⊢
        exact hWhole.symm
      simp only [hEq, hOther]
      rfl

/-
  One access range: it is untouched, or excused and noted,
  or neither and a conflict is reported.
-/
theorem checkRange_spec
    {st : CheckState}
    {m : MemRange Bytes}
    (hUnion : st.writeUnion.Keeps 0)
    (hReceived : st.received.Keeps 0)
    (hValid : m.Valid)
    (hZero : 0 < m.base) :
    (Untouched st m ∧ checkRange st m = .ret (st, none)) ∨
    (∃ w q st₁, Excuses st m w q ∧ SameMaps st st₁ ∧
      st₁.receivedNUsed = st.receivedNUsed ∧
      checkRange st m = noteUsed st₁ m w q) ∨
    ((¬ Untouched st m ∧ ∀ w q, ¬ Excuses st m w q) ∧
      ∃ st₁ base, SameMaps st st₁ ∧ 0 < base ∧
        checkRange st m = .ret (st₁, some base)) := by
  unfold checkRange
  rcases mapOverlaps_cases hUnion.apart hValid with
    ⟨hNone, hFree⟩ | ⟨r, hr, hMeets, hFound⟩
  · left
    refine ⟨(untouched_iff hUnion hValid).mpr hFree, ?_⟩
    rw [hNone]
    rfl
  right
  have hTouched : ¬ Untouched st m := by
    rw [untouched_iff hUnion hValid]
    intro hFree
    exact hFree r hr hMeets
  have hLow : 0 < (commonPart r m).1 := by
    unfold commonPart
    simp only
    omega
  have hIn : (commonPart r m).1 ∈ r.addrs := by
    have hPos := (hUnion.apart.valid r hr).pos
    rcases hMeets with ⟨hLt, hGt⟩
    rw [MemRange.mem_addrs]
    unfold commonPart
    simp only
    omega
  rcases mapFind_of_mem hUnion hr hIn with
    ⟨wu, hFind, hRanges, hSize⟩
  have hUnion₁ : wu.Keeps 0 :=
    keeps_of_ranges hUnion hRanges hSize
  simp only [hFound, hFind, Outcome.ret_bind]
  by_cases hInside : Inside m r
  · have hWhole := (commonPart_eq_extent_iff hValid).mpr hInside
    have hPart : commonPart r m = m.extent :=
      memRangeEq_iff.mp hWhole
    rcases mapFind_of_mem hUnion₁ (by rw [hRanges]; exact hr)
        hIn with
      ⟨wu', hFind', hRanges', hSize'⟩
    simp only [hWhole, if_true, hFind', Outcome.ret_bind]
    obtain ⟨st₀, hSt₀⟩ : ∃ st₀ : CheckState, st₀ =
        { st with
          writeUnion := wu'
          conflictAddr := (commonPart r m).1 } := ⟨_, rfl⟩
    have hSame : SameMaps st st₀ := by
      rw [hSt₀]
      exact
        ⟨hRanges'.trans hRanges, hSize'.trans hSize, rfl, rfl⟩
    have hUsed : st₀.receivedNUsed = st.receivedNUsed := by
      rw [hSt₀]
    rw [← hSt₀]
    by_cases hExtent : SameExtent r m
    · have hExact :
          memRangeEq r.extent (commonPart r m) = true := by
        rw [hPart, memRangeEq_iff]
        exact Prod.ext hExtent.1 hExtent.2
      rw [if_pos hExact, hPart]
      rcases checkReceived_spec
          (hSame.received_keeps hReceived)
          hValid (by rw [hSame.union_ranges]; exact hr)
          hExtent with
        ⟨q, st₁, hExcuse, hSame₁, hUsed₁, hCheck⟩ |
        ⟨hNone, st₁, hSame₁, hCheck⟩
      · left
        exact ⟨r, q, st₁, hSame.excuses_iff.mp hExcuse,
          hSame.trans hSame₁, hUsed₁.trans hUsed, hCheck⟩
      · right
        refine ⟨⟨hTouched, ?_⟩, st₁, m.base,
          hSame.trans hSame₁, hZero, hCheck⟩
        intro w q hExcuse
        have hW := hExcuse.written_eq hUnion hValid hr hInside
        rw [hW] at hExcuse
        exact hNone q (hSame.excuses_iff.mpr hExcuse)
    · right
      have hExact :
          ¬ memRangeEq r.extent (commonPart r m) = true := by
        rw [hPart, memRangeEq_iff]
        intro hEq'
        exact hExtent
          ⟨congrArg Prod.fst hEq', congrArg Prod.snd hEq'⟩
      rw [if_neg hExact]
      refine ⟨⟨hTouched, ?_⟩, st₀, _, hSame, hLow, rfl⟩
      intro w q hExcuse
      apply hExtent
      rw [← hExcuse.written_eq hUnion hValid hr hInside]
      exact hExcuse.extent
  · right
    have hWhole :
        ¬ memRangeEq (commonPart r m) m.extent = true := by
      rw [commonPart_eq_extent_iff hValid]
      exact hInside
    rw [if_neg hWhole]
    refine ⟨⟨hTouched, ?_⟩, { st with writeUnion := wu }, _,
      ⟨hRanges, hSize, rfl, rfl⟩, hLow, rfl⟩
    intro w q hExcuse
    have hFull := mapOverlaps_of_inside hUnion hValid
      hExcuse.written (inside_of_sameExtent hExcuse.extent)
    rw [hFound, Option.some.injEq] at hFull
    exact hWhole (memRangeEq_iff.mpr hFull)

theorem meets_of_sameExtent
    {m r : MemRange Bytes}
    (hValid : m.Valid)
    (h : SameExtent r m) :
    Meets r m := by
  have hPos := hValid.pos
  rcases h with ⟨hBase, hSize⟩
  exact ⟨by omega, by omega⟩

/- The last writer of an excused range is unique. -/
theorem Excuses.writer_unique
    {st : CheckState}
    {m w q w' q' : MemRange Bytes}
    (h : Excuses st m w q)
    (hUnion : st.writeUnion.Keeps 0)
    (hValid : m.Valid)
    (h' : Excuses st m w' q') :
    w' = w :=
  h'.written_eq hUnion hValid h.written
    (inside_of_sameExtent h.extent)

/- The received range that holds it is unique. -/
theorem Excuses.source_unique
    {st : CheckState}
    {m w q w' q' : MemRange Bytes}
    (h : Excuses st m w q)
    (hReceived : st.received.Keeps 0)
    (hValid : m.Valid)
    (h' : Excuses st m w' q') :
    q' = q :=
  eq_of_mem_addrs hReceived h'.received h.received
    (base_mem_of_inside hValid h'.inside)
    (base_mem_of_inside hValid h.inside)

/- An excused range is noted in one way. -/
theorem Excuses.used_iff
    {st : CheckState}
    {m w q u : MemRange Bytes}
    (h : Excuses st m w q)
    (hUnion : st.writeUnion.Keeps 0)
    (hReceived : st.received.Keeps 0)
    (hValid : m.Valid) :
    (∃ w' q', Excuses st m w' q' ∧ u = usedRange m w' q') ↔
      u = usedRange m w q := by
  constructor
  · intro hCase
    rcases hCase with ⟨w', q', hExcuse, hEq⟩
    have hW := h.writer_unique hUnion hValid hExcuse
    have hQ := h.source_unique hReceived hValid hExcuse
    rw [hEq, hW, hQ]
  · intro hEq
    exact ⟨w, q, h, hEq⟩

------------------------------------------------------------
-- All Access Ranges
------------------------------------------------------------

/- The access range is untouched or excused. -/
def Accepted
    (st : CheckState)
    (m : MemRange Bytes) : Prop :=
  Untouched st m ∨ ∃ w q, Excuses st m w q

theorem SameMaps.accepted_iff
    {st st' : CheckState}
    (h : SameMaps st st')
    {m : MemRange Bytes} :
    Accepted st' m ↔ Accepted st m := by
  unfold Accepted
  simp only [h.untouched_iff, h.excuses_iff]

theorem noteUsed_ret
    {st st' : CheckState}
    {m w q : MemRange Bytes}
    {conflict : Option Nat}
    (h : noteUsed st m w q = .ret (st', conflict)) :
    SameMaps st st' ∧ conflict = none := by
  unfold noteUsed at h
  simp only [Outcome.bind_eq_ret_iff,
    Outcome.pure_eq_ret_iff, Prod.mk.injEq] at h
  rcases h with ⟨used, _, rfl, rfl⟩
  exact ⟨⟨rfl, rfl, rfl, rfl⟩, rfl⟩

/- A range that equals or misses those noted is noted. -/
theorem noteUsed_stores
    {st : CheckState}
    {m : MemRange Bytes}
    (w q : MemRange Bytes)
    (hUsed : st.receivedNUsed.Keeps 0)
    (hValid : m.Valid)
    (hFree : ∀ u ∈ st.receivedNUsed.ranges,
      EqualOrDisjoint u m) :
    ∃ used approved,
      noteUsed st m w q =
        .ret ({ st with receivedNUsed := used }, none) ∧
      Stores st.receivedNUsed used (usedRange m w q)
        approved := by
  rcases mapAddRangeFromTask_stores q.record w.task hUsed
      hValid.pos hValid.fits hFree with
    ⟨used, approved, hCall, hStores⟩
  refine ⟨used, approved, ?_, hStores⟩
  unfold noteUsed
  rw [hCall]
  rfl

/- A range that misses those noted is the only new one. -/
theorem noteUsed_adds
    {st : CheckState}
    {m : MemRange Bytes}
    (w q : MemRange Bytes)
    (hUsed : st.receivedNUsed.Keeps 0)
    (hValid : m.Valid)
    (hFree : ∀ u ∈ st.receivedNUsed.ranges, ¬ Meets u m) :
    ∃ used,
      noteUsed st m w q =
        .ret ({ st with receivedNUsed := used }, none) ∧
      used.Keeps 0 ∧
      ∀ u, u ∈ used.ranges ↔
        u = usedRange m w q ∨
          u ∈ st.receivedNUsed.ranges := by
  rcases noteUsed_stores w q hUsed hValid
      (fun u hu => Or.inr (hFree u hu)) with
    ⟨used, approved, hNote, hStores⟩
  have hNew : approved = usedRange m w q := by
    rcases hStores.winner with ⟨hEq, _⟩ | ⟨hOld, _⟩
    · exact hEq
    · exfalso
      exact hFree approved hOld
        (meets_of_sameExtent hValid hStores.extent)
  refine ⟨used, hNote, hStores.keeps, ?_⟩
  intro u
  rw [hStores.mem_iff u, hNew]
  constructor
  · intro h
    rcases h with hEq | ⟨hOld, _⟩
    · exact Or.inl hEq
    · exact Or.inr hOld
  · intro h
    rcases h with hEq | hOld
    · exact Or.inl hEq
    · refine Or.inr ⟨hOld, ?_⟩
      intro hExtent
      exact hFree u hOld (meets_of_sameExtent hValid hExtent)

section Loop

variable {st : CheckState}
variable {access : List (MemRange Bytes)}

/- Whatever was noted before, an answer of zero is exact. -/
theorem checkRanges_answer
    {st' : CheckState}
    {conflict : Nat}
    (hUnion : st.writeUnion.Keeps 0)
    (hReceived : st.received.Keeps 0)
    (hValid : ∀ m ∈ access, m.Valid)
    (hZero : ∀ m ∈ access, 0 < m.base)
    (h : checkRanges st access = .ret (st', conflict)) :
    conflict = 0 ↔ ∀ m ∈ access, Accepted st m := by
  induction access generalizing st with
  | nil =>
      simp only [checkRanges, Outcome.pure_eq_ret_iff,
        Prod.mk.injEq] at h
      simp [← h.2]
  | cons m rest ih =>
      simp only [checkRanges, Outcome.bind_eq_ret_iff,
        Prod.exists] at h
      rcases h with ⟨st₁, found, hRange, hRest⟩
      have hLater :
          SameMaps st st₁ → found = none → Accepted st m →
          (conflict = 0 ↔
            ∀ r ∈ m :: rest, Accepted st r) := by
        intro hSame hNone hHead
        rw [hNone] at hRest
        have hIff := ih
          (hSame.union_keeps hUnion)
          (hSame.received_keeps hReceived)
          (fun r hr => hValid r (List.mem_cons_of_mem m hr))
          (fun r hr => hZero r (List.mem_cons_of_mem m hr))
          hRest
        simp only [hSame.accepted_iff] at hIff
        rw [hIff, List.forall_mem_cons]
        exact ⟨fun hTail => ⟨hHead, hTail⟩, And.right⟩
      rcases checkRange_spec hUnion hReceived
          (hValid m List.mem_cons_self)
          (hZero m List.mem_cons_self) with
        ⟨hFree, hEq⟩ |
        ⟨w, q, st₂, hExcuse, hSame, _, hEq⟩ |
        ⟨⟨hTouched, hNone⟩, st₂, base, _, hPos, hEq⟩
      · rw [hEq, Outcome.ret.injEq, Prod.mk.injEq] at hRange
        rcases hRange with ⟨rfl, rfl⟩
        exact hLater (SameMaps.refl _) rfl (Or.inl hFree)
      · rw [hEq] at hRange
        rcases noteUsed_ret hRange with ⟨hSame', hNone⟩
        exact hLater (hSame.trans hSame') hNone
          (Or.inr ⟨w, q, hExcuse⟩)
      · rw [hEq, Outcome.ret.injEq, Prod.mk.injEq] at hRange
        rcases hRange with ⟨rfl, rfl⟩
        simp only [Outcome.pure_eq_ret_iff,
          Prod.mk.injEq] at hRest
        constructor
        · intro hConflict
          omega
        · intro hAll
          rcases hAll m List.mem_cons_self with
            hFree | ⟨w, q, hExcuse⟩
          · exact absurd hFree hTouched
          · exact absurd hExcuse (hNone w q)

/-
  Where the access ranges equal or miss what was noted
  before, the check returns.
-/
theorem checkRanges_returns
    (hUnion : st.writeUnion.Keeps 0)
    (hReceived : st.received.Keeps 0)
    (hUsed : st.receivedNUsed.Keeps 0)
    (hAccess : Apart 0 access)
    (hZero : ∀ m ∈ access, 0 < m.base)
    (hFree : ∀ u ∈ st.receivedNUsed.ranges, ∀ m ∈ access,
      EqualOrDisjoint u m) :
    ∃ st' conflict,
      checkRanges st access = .ret (st', conflict) := by
  induction access generalizing st with
  | nil => exact ⟨st, 0, rfl⟩
  | cons m rest ih =>
      have hPair : ∀ r ∈ rest, EqualOrDisjoint m r := by
        intro r hr
        exact hAccess.equalOrDisjoint List.mem_cons_self
          (List.mem_cons_of_mem m hr)
      rw [Apart.cons_iff] at hAccess
      rcases hAccess with ⟨hValid, hRest, _⟩
      have hRestZero : ∀ r ∈ rest, 0 < r.base :=
        fun r hr => hZero r (List.mem_cons_of_mem m hr)
      rcases checkRange_spec hUnion hReceived hValid
          (hZero m List.mem_cons_self) with
        ⟨_, hEq⟩ | ⟨w, q, st₁, _, hSame, hNoted, hEq⟩ |
        ⟨_, st₁, base, _, _, hEq⟩
      · have hFreeRest : ∀ u ∈ st.receivedNUsed.ranges,
            ∀ r ∈ rest, EqualOrDisjoint u r :=
          fun u hu r hr =>
            hFree u hu r (List.mem_cons_of_mem m hr)
        rcases ih hUnion hReceived hUsed hRest hRestZero
            hFreeRest with
          ⟨st', conflict, hRet⟩
        refine ⟨st', conflict, ?_⟩
        simp only [checkRanges, hEq, Outcome.ret_bind]
        exact hRet
      · rw [← hNoted] at hUsed hFree
        rcases noteUsed_stores w q hUsed hValid
            (fun u hu => hFree u hu m List.mem_cons_self) with
          ⟨used, approved, hNote, hStores⟩
        have hFreeRest : ∀ u ∈ used.ranges,
            ∀ r ∈ rest, EqualOrDisjoint u r := by
          intro u hu r hr
          rcases (hStores.mem_iff u).mp hu with
            rfl | ⟨hOld, _⟩
          · exact (hPair r hr).congr hStores.extent ⟨rfl, rfl⟩
          · exact hFree u hOld r (List.mem_cons_of_mem m hr)
        rcases @ih { st₁ with receivedNUsed := used }
            (hSame.union_keeps hUnion)
            (hSame.received_keeps hReceived)
            hStores.keeps hRest hRestZero hFreeRest with
          ⟨st', conflict, hRet⟩
        refine ⟨st', conflict, ?_⟩
        simp only [checkRanges, hEq, hNote, Outcome.ret_bind]
        exact hRet
      · refine ⟨st₁, base, ?_⟩
        simp only [checkRanges, hEq, Outcome.ret_bind]
        rfl

/-
  Where the access ranges miss what was noted before, an
  answer of zero leaves the excused ranges noted as well,
  and nothing else.
-/
theorem checkRanges_notes
    (hUnion : st.writeUnion.Keeps 0)
    (hReceived : st.received.Keeps 0)
    (hUsed : st.receivedNUsed.Keeps 0)
    (hAccess : Apart 0 access)
    (hZero : ∀ m ∈ access, 0 < m.base)
    (hFree : ∀ u ∈ st.receivedNUsed.ranges, ∀ m ∈ access,
      ¬ Meets u m)
    {st' : CheckState}
    (h : checkRanges st access = .ret (st', 0)) :
    st'.receivedNUsed.Keeps 0 ∧
      ∀ u, u ∈ st'.receivedNUsed.ranges ↔
        u ∈ st.receivedNUsed.ranges ∨
          ∃ m ∈ access, ∃ w q,
            Excuses st m w q ∧ u = usedRange m w q := by
  induction access generalizing st with
  | nil =>
      simp only [checkRanges, Outcome.pure_eq_ret_iff,
        Prod.mk.injEq] at h
      rcases h with ⟨rfl, _⟩
      refine ⟨hUsed, ?_⟩
      intro u
      simp
  | cons m rest ih =>
      rw [Apart.cons_iff] at hAccess
      rcases hAccess with ⟨hValid, hRest, hAfter⟩
      have hPos := hValid.pos
      have hRestZero : ∀ r ∈ rest, 0 < r.base :=
        fun r hr => hZero r (List.mem_cons_of_mem m hr)
      have hFreeRest : ∀ u ∈ st.receivedNUsed.ranges,
          ∀ r ∈ rest, ¬ Meets u r :=
        fun u hu r hr =>
          hFree u hu r (List.mem_cons_of_mem m hr)
      rcases checkRange_spec hUnion hReceived hValid
          (hZero m List.mem_cons_self) with
        ⟨hMissed, hEq⟩ |
        ⟨w, q, st₁, hExcuse, hSame, hNoted, hEq⟩ |
        ⟨_, st₁, base, _, hBase, hEq⟩
      · simp only [checkRanges, hEq,
          Outcome.ret_bind] at h
        rcases ih hUnion hReceived hUsed hRest hRestZero
            hFreeRest h with
          ⟨hKeeps, hMem⟩
        refine ⟨hKeeps, ?_⟩
        intro u
        have hNot : ∀ w q, ¬ Excuses st m w q := by
          intro w q hExcuse
          exact (untouched_iff hUnion hValid).mp hMissed w
            hExcuse.written (meets_of_sameExtent hValid
              hExcuse.extent)
        rw [hMem u]
        simp only [List.mem_cons, exists_eq_or_imp, hNot,
          false_and, exists_false, false_or]
      · rw [← hNoted] at hUsed
        rcases noteUsed_adds w q hUsed hValid
            (fun u hu =>
              hFree u (hNoted ▸ hu) m List.mem_cons_self) with
          ⟨used, hNote, hUsed', hMemUsed⟩
        rw [hNoted] at hMemUsed
        have hFreeUsed : ∀ u ∈ used.ranges,
            ∀ r ∈ rest, ¬ Meets u r := by
          intro u hu r hr
          rcases (hMemUsed u).mp hu with rfl | hOld
          · intro hCase
            rcases hCase with ⟨_, hGt⟩
            have hLe := hAfter r hr
            change r.base < m.base + m.size at hGt
            omega
          · exact hFreeRest u hOld r hr
        simp only [checkRanges, hEq, hNote,
          Outcome.ret_bind] at h
        rcases @ih { st₁ with receivedNUsed := used }
            (hSame.union_keeps hUnion)
            (hSame.received_keeps hReceived)
            hUsed' hRest hRestZero hFreeUsed h with
          ⟨hKeeps, hMem⟩
        refine ⟨hKeeps, ?_⟩
        intro u
        rw [hMem u, hMemUsed u]
        have hSame' :
            SameMaps st { st₁ with receivedNUsed := used } :=
          hSame.trans ⟨rfl, rfl, rfl, rfl⟩
        simp only [hSame'.excuses_iff, List.mem_cons,
          exists_eq_or_imp]
        rw [hExcuse.used_iff hUnion hReceived hValid, or_assoc]
        exact or_left_comm
      · simp only [checkRanges, hEq, Outcome.ret_bind,
          Outcome.pure_eq_ret_iff, Prod.mk.injEq] at h
        omega

end Loop

section Check

variable {st : CheckState}
variable {access : RangeMap Bytes}

/- A write union without ranges touches nothing. -/
theorem untouched_of_empty
    (hUnion : st.writeUnion.Keeps 0)
    (hEmpty : st.writeUnion.size = 0)
    (m : MemRange Bytes) :
    Untouched st m ∧ ∀ w q, ¬ Excuses st m w q := by
  have hRanges : st.writeUnion.ranges = [] := by
    apply List.eq_nil_of_length_eq_zero
    rw [← hUnion.size_eq]
    exact hEmpty
  constructor
  · unfold Untouched RangeMap.covered
    rw [hRanges]
    simp
  · intro w q hExcuse
    have hMem := hExcuse.written
    rw [hRanges] at hMem
    cases hMem

theorem checkForOverlap_answer
    (hUnion : st.writeUnion.Keeps 0)
    (hReceived : st.received.Keeps 0)
    (hAccess : access.WellFormed)
    (hZero : ∀ m ∈ access.ranges, 0 < m.base)
    {st' : CheckState}
    {conflict : Nat}
    (h : checkForOverlap st access = .ret (st', conflict)) :
    conflict = 0 ↔
      ∀ m ∈ access.ranges,
        Untouched st m ∨ ∃ w q, Excuses st m w q := by
  unfold checkForOverlap at h
  by_cases hEmpty : st.writeUnion.size = 0
  · simp only [if_pos hEmpty, Outcome.pure_eq_ret_iff,
      Prod.mk.injEq] at h
    have hFree := untouched_of_empty hUnion hEmpty
    simp [← h.2, hFree]
  · rw [if_neg hEmpty] at h
    exact checkRanges_answer hUnion hReceived
      hAccess.apart.valid hZero h

theorem checkForOverlap_returns
    (hUnion : st.writeUnion.Keeps 0)
    (hReceived : st.received.Keeps 0)
    (hAccess : access.WellFormed)
    (hZero : ∀ m ∈ access.ranges, 0 < m.base)
    (hUsed : st.receivedNUsed.Keeps 0)
    (hFree : ∀ u ∈ st.receivedNUsed.ranges,
      ∀ m ∈ access.ranges, EqualOrDisjoint u m) :
    ∃ st' conflict,
      checkForOverlap st access = .ret (st', conflict) := by
  unfold checkForOverlap
  by_cases hEmpty : st.writeUnion.size = 0
  · exact ⟨st, 0, if_pos hEmpty⟩
  · rw [if_neg hEmpty]
    exact checkRanges_returns hUnion hReceived hUsed
      (hAccess.apart.mono (by omega)) hZero hFree

theorem checkForOverlap_notes
    (hUnion : st.writeUnion.Keeps 0)
    (hReceived : st.received.Keeps 0)
    (hAccess : access.WellFormed)
    (hZero : ∀ m ∈ access.ranges, 0 < m.base)
    (hUsed : st.receivedNUsed.Keeps 0)
    (hNone : st.receivedNUsed.ranges = [])
    {st' : CheckState}
    (h : checkForOverlap st access = .ret (st', 0)) :
    st'.receivedNUsed.Keeps 0 ∧
      ∀ u, u ∈ st'.receivedNUsed.ranges ↔
        ∃ m ∈ access.ranges, ∃ w q,
          Excuses st m w q ∧ u = usedRange m w q := by
  unfold checkForOverlap at h
  by_cases hEmpty : st.writeUnion.size = 0
  · simp only [if_pos hEmpty, Outcome.pure_eq_ret_iff,
      Prod.mk.injEq] at h
    have hFree := untouched_of_empty hUnion hEmpty
    rw [← h.1]
    refine ⟨hUsed, ?_⟩
    simp [hNone, hFree]
  · rw [if_neg hEmpty] at h
    rcases checkRanges_notes hUnion hReceived hUsed
        (hAccess.apart.mono (by omega)) hZero
        (by simp [hNone]) h with
      ⟨hKeeps, hMem⟩
    refine ⟨hKeeps, ?_⟩
    intro u
    rw [hMem u, hNone]
    simp

end Check

/-
  What `check_for_overlap` accepts. An answer of zero means
  that every access range shares no byte with the write
  union or is excused, and conversely. The check answers
  wherever the access ranges equal or miss those noted
  before; with none noted before, an answer of zero leaves
  exactly the excused ranges noted, each with the writer's
  task and the data received.
-/
theorem checkForOverlap_accepts
    {st : CheckState}
    {access : RangeMap Bytes}
    (hUnion : st.writeUnion.Keeps 0)
    (hReceived : st.received.Keeps 0)
    (hAccess : access.WellFormed)
    (hZero : ∀ m ∈ access.ranges, 0 < m.base) :
    (∀ st' conflict,
      checkForOverlap st access = .ret (st', conflict) →
      (conflict = 0 ↔
        ∀ m ∈ access.ranges,
          Untouched st m ∨ ∃ w q, Excuses st m w q)) ∧
    (st.receivedNUsed.Keeps 0 →
      (∀ u ∈ st.receivedNUsed.ranges, ∀ m ∈ access.ranges,
        EqualOrDisjoint u m) →
      ∃ st' conflict,
        checkForOverlap st access = .ret (st', conflict)) ∧
    (st.receivedNUsed.Keeps 0 →
      st.receivedNUsed.ranges = [] → ∀ st',
      checkForOverlap st access = .ret (st', 0) →
      st'.receivedNUsed.Keeps 0 ∧
      ∀ u, u ∈ st'.receivedNUsed.ranges ↔
        ∃ m ∈ access.ranges, ∃ w q,
          Excuses st m w q ∧ u = usedRange m w q) := by
  refine ⟨?_, ?_, ?_⟩
  · intro st' conflict h
    exact checkForOverlap_answer hUnion hReceived hAccess
      hZero h
  · intro hUsed hFree
    exact checkForOverlap_returns hUnion hReceived hAccess
      hZero hUsed hFree
  · intro hUsed hNone st' h
    exact checkForOverlap_notes hUnion hReceived hAccess
      hZero hUsed hNone h

/- A map of one range. -/
def oneRange (r : MemRange Bytes) : RangeMap Bytes where
  isHash := false
  root := .node .nil r .nil
  size := 1

theorem oneRange_keeps
    {gap : Nat}
    {r : MemRange Bytes}
    (hValid : r.Valid) :
    (oneRange r).Keeps gap :=
  ⟨Apart.cons_iff.mpr ⟨hValid, Apart.nil, by simp⟩, rfl⟩

/-
  Task 2 wrote four bytes at 8, after it had posted the
  eight bytes from 6 on.
-/
def receivedCheck : CheckState where
  writeUnion := oneRange ⟨8, 4, none, 2⟩
  received :=
    oneRange ⟨6, 8, some [1, 2, 3, 4, 5, 6, 7, 8], 2⟩
  receivedNUsed := initEmptyMap
  conflictAddr := 0

/- An access to the four bytes is excused and noted. -/
theorem checkForOverlap_accepts_received :
    ∃ st', checkForOverlap receivedCheck
        (recordAll [(8, 4)]) = .ret (st', 0) ∧
      ∃ u ∈ st'.receivedNUsed.ranges,
        u.base = 8 ∧ u.size = 4 ∧ u.task = 2 := by
  have hExact := checkForOverlap_accepts
    (show receivedCheck.writeUnion.Keeps 0 from
      oneRange_keeps ⟨by decide, by decide⟩)
    (show receivedCheck.received.Keeps 0 from
      oneRange_keeps ⟨by decide, by decide⟩)
    (show (recordAll [(8, 4)]).WellFormed from
      recordAll_wellFormed (by decide))
    (by decide)
  refine ⟨_, rfl, usedRange ⟨8, 4, none, 0⟩ ⟨8, 4, none, 2⟩
    ⟨6, 8, some [1, 2, 3, 4, 5, 6, 7, 8], 2⟩,
    ?_, rfl, rfl, rfl⟩
  apply (hExact.2.2 (keeps_initEmptyMap 0) rfl _ rfl).2
    _ |>.mpr
  refine ⟨⟨8, 4, none, 0⟩, by decide, _, _, ?_, rfl⟩
  exact ⟨List.mem_cons_self, ⟨rfl, rfl⟩, List.mem_cons_self,
    ⟨by decide, by decide⟩, rfl⟩

end Cbop
