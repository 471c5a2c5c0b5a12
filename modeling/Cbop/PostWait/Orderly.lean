import Cbop.PostWait.Chain

/-
  What holds of the switch board whatever is posted and
  chained on it: the pointers form lists, and the slots of a
  list are allocated.

  A call that chains two channels of one list follows its
  pointers forever. Every other call returns and keeps the
  lists.

  Main declarations:
    * `SwitchBoard.Orderly`, `SwitchBoard.Rechains`
    * `Orderly.post`, `Orderly.chain`
-/

namespace Cbop

------------------------------------------------------------
-- Allocated Channels
------------------------------------------------------------

/- The slot of the channel is allocated to it. -/
def SwitchBoard.Holds (board : SwitchBoard) (id : Nat) : Prop :=
  id ≠ 0 ∧ (board.channels (board.index id)).id = id

instance (board : SwitchBoard) (id : Nat) :
    Decidable (board.Holds id) :=
  inferInstanceAs (Decidable (_ ∧ _))

/- The size decides which slot a channel has. -/
theorem index_congr
    {board board' : SwitchBoard}
    (hSize : board'.size = board.size) :
    board'.index = board.index := by
  funext a
  unfold SwitchBoard.index
  rw [hSize]

theorem holds_congr
    {board board' : SwitchBoard}
    (hSize : board'.size = board.size)
    (hIds : ∀ i, (board'.channels i).id =
      (board.channels i).id)
    (a : Nat) :
    board'.Holds a ↔ board.Holds a := by
  unfold SwitchBoard.Holds
  rw [index_congr hSize, hIds]

/- What an allocation makes of the channels that hold. -/
theorem holds_allocate_iff
    {board : SwitchBoard}
    {id : Nat}
    (hPos : id ≠ 0)
    (hFree : ¬board.Taken id)
    (a : Nat) :
    (board.allocate id).Holds a ↔ board.Holds a ∨ a = id := by
  unfold SwitchBoard.Holds
  rw [board.allocate_index]
  by_cases hSlot : board.index a = board.index id
  · rw [hSlot, board.allocate_id_self hFree]
    constructor
    · intro hGiven
      rcases hGiven with ⟨_, rfl⟩
      exact Or.inr rfl
    · intro hCases
      rcases hCases with ⟨hNe, hId⟩ | rfl
      · refine ⟨hNe, ?_⟩
        by_contra hOther
        exact hFree ⟨hId ▸ hNe,
          fun hEq => hOther (hEq.symm.trans hId)⟩
      · exact ⟨hPos, rfl⟩
  · rw [board.allocate_of_ne hSlot]
    constructor
    · exact Or.inl
    · intro hCases
      rcases hCases with h | rfl
      · exact h
      · exact absurd rfl hSlot

------------------------------------------------------------
-- Orderly Boards
------------------------------------------------------------

/- The slots in lists are allocated. -/
structure SwitchBoard.Orderly (board : SwitchBoard) : Prop where
  size : 0 < board.size
  listed : board.Listed
  linked : ∀ i f, board.first i = some f →
    (board.channels i).id ≠ 0

/- The two channels are in one list. -/
def SwitchBoard.Rechains
    (board : SwitchBoard)
    (id1 id2 : Nat) : Prop :=
  board.Holds id1 ∧ board.Holds id2 ∧
    board.first (board.index id1) ≠ none ∧
    board.first (board.index id1) =
      board.first (board.index id2)

instance (board : SwitchBoard) (id1 id2 : Nat) :
    Decidable (board.Rechains id1 id2) :=
  inferInstanceAs (Decidable (_ ∧ _))

theorem orderly_postwaitInit
    {size gs : Nat}
    (hSize : 0 < (postwaitInit size gs).size) :
    (postwaitInit size gs).Orderly := by
  refine ⟨hSize, ⟨?_, ?_⟩, ?_⟩
  · exact fun i => ⟨[i], .loose i rfl rfl, by simp⟩
  · intro i f hFirst
    cases hFirst
  · intro i f hFirst
    cases hFirst

namespace SwitchBoard.Orderly

variable {board board' : SwitchBoard}

theorem index_lt
    (h : board.Orderly)
    (id : Nat) :
    board.index id < board.size :=
  Nat.mod_lt id h.size

/- The slots of a list with an allocated one all are. -/
theorem allocated
    (h : board.Orderly)
    {id i : Nat}
    (hHolds : board.Holds id)
    {l : List Nat}
    (hl : Chains.Cell board.first board.next l)
    (hIn : board.index id ∈ l)
    (hi : i ∈ l) :
    (board.channels i).id ≠ 0 ∧ i < board.size := by
  rcases (hl.mem_iff hIn i).mp hi with rfl | ⟨f, _, hFirst⟩
  · rw [hHolds.2]
    exact ⟨hHolds.1, h.index_lt id⟩
  · exact ⟨h.linked i f hFirst, h.listed.inside i f hFirst⟩

theorem allocate
    (h : board.Orderly)
    (id : Nat) :
    (board.allocate id).Orderly := by
  refine ⟨?_, h.listed.allocate id, ?_⟩
  · rw [board.allocate_size]
    exact h.size
  · intro i f hFirst
    rw [board.allocate_first] at hFirst
    have hNe := h.linked i f hFirst
    rw [board.allocate_id_keeps id hNe]
    exact hNe

/- A post changes flags, and allocates its own slot. -/
theorem post
    (h : board.Orderly)
    {status : TaskStatus}
    {pprIndex id : Nat}
    {mem : Memory}
    {localCh localCh' : LocalChannel}
    {writeMap writeMap' : RangeMap Bytes}
    (hId : id ≠ 0)
    (hCall : channelPost status pprIndex id mem board localCh
      writeMap = .ret (board', localCh', writeMap')) :
    board'.Orderly ∧ board'.size = board.size := by
  rcases channelPost_cases h.listed h.size hCall with
    ⟨_, hOld | ⟨_, _, hOld⟩⟩ | ⟨_, hReleased⟩
  · rw [hOld]
    exact ⟨h, rfl⟩
  · -- the slot is posted and gets the name once more
    have hSame : ∀ i,
        (board'.channels i).ccFirst =
            (board.channels i).ccFirst ∧
          (board'.channels i).ccNext =
            (board.channels i).ccNext ∧
          ((board.channels i).id ≠ 0 →
            (board'.channels i).id ≠ 0) := by
      intro i
      rw [hOld]
      by_cases hi : i = board.index id
      · rw [hi, board.set_channels_self]
        exact ⟨rfl, rfl, fun _ => hId⟩
      · rw [board.set_channels_of_ne _ hi]
        exact ⟨rfl, rfl, fun hNe => hNe⟩
    have hFirst : board'.first = board.first :=
      funext fun i => (hSame i).1
    have hNext : board'.next = board.next :=
      funext fun i => (hSame i).2.1
    have hSize : board'.size = board.size := by
      rw [hOld]
      rfl
    refine ⟨⟨hSize ▸ h.size, ⟨?_, ?_⟩, ?_⟩, hSize⟩
    · rw [hFirst, hNext]
      exact h.listed.listed
    · rw [hFirst, hSize]
      exact h.listed.inside
    · intro i f hPointed
      rw [hFirst] at hPointed
      exact (hSame i).2.2 (h.linked i f hPointed)
  · refine ⟨⟨hReleased.size ▸ h.size,
      hReleased.listed h.listed, ?_⟩, hReleased.size⟩
    intro i f hPointed
    rw [hReleased.first] at hPointed
    by_cases hi : i = board.index id
    · rw [hi, hReleased.id_self]
      exact hId
    · rw [hReleased.id_other i hi]
      exact h.linked i f hPointed

------------------------------------------------------------
-- Chaining
------------------------------------------------------------

/- A channel that is chained to itself. -/
theorem chain_self
    (h : board.Orderly)
    {id : Nat}
    (hHolds : board.Holds id)
    (hNone : board.first (board.index id) = none) :
    ∃ board',
      chainSlots board (board.index id) (board.index id) =
        some board' ∧
      board'.Orderly ∧ board'.size = board.size := by
  obtain ⟨a, ha⟩ : ∃ a, a = board.index id := ⟨_, rfl⟩
  rw [← ha] at hNone ⊢
  have hNone' : (board.channels a).ccFirst = none := hNone
  unfold chainSlots
  rw [hNone']
  refine ⟨_, rfl, ⟨h.size, ⟨?_, ?_⟩, ?_⟩, rfl⟩
  · apply h.listed.listed.point_self hNone
    · intro i
      unfold SwitchBoard.first setChain
      by_cases hi : i = a
      · rw [hi, set_channels_self, if_pos rfl]
      · rw [set_channels_of_ne _ _ hi,
          set_channels_of_ne _ _ hi, if_neg hi]
    · intro i
      unfold SwitchBoard.next setChain
      by_cases hi : i = a
      · rw [hi, set_channels_self, if_pos rfl]
      · rw [set_channels_of_ne _ _ hi,
          set_channels_of_ne _ _ hi, if_neg hi]
  · intro i f hPointed
    unfold SwitchBoard.first setChain at hPointed
    by_cases hi : i = a
    · rw [hi, ha]
      exact h.index_lt id
    · rw [set_channels_of_ne _ _ hi,
        set_channels_of_ne _ _ hi] at hPointed
      exact h.listed.inside i f hPointed
  · intro i f hPointed
    unfold SwitchBoard.first setChain at hPointed
    unfold setChain
    by_cases hi : i = a
    · rw [hi, set_channels_self, set_channels_self]
      change (board.channels a).id ≠ 0
      rw [ha, hHolds.2]
      exact hHolds.1
    · rw [set_channels_of_ne _ _ hi,
        set_channels_of_ne _ _ hi] at hPointed ⊢
      exact h.linked i f hPointed

/- Two allocated channels that are not in one list. -/
theorem chain_slots
    (h : board.Orderly)
    {id1 id2 : Nat}
    (hHolds1 : board.Holds id1)
    (hHolds2 : board.Holds id2)
    (hNot : ¬board.Rechains id1 id2) :
    ∃ board',
      chainSlots board (board.index id1)
        (board.index id2) = some board' ∧
      board'.Orderly ∧ board'.size = board.size := by
  by_cases hEq : board.index id1 = board.index id2
  · rw [← hEq]
    apply h.chain_self hHolds1
    by_contra hSome
    exact hNot ⟨hHolds1, hHolds2, hSome, by rw [hEq]⟩
  · have hApart : ¬Chains.SameBlock board.first
        (board.index id1) (board.index id2) := by
      intro hCases
      rcases hCases with hSame | ⟨f, hFirst1, hFirst2⟩
      · exact hEq hSame
      · apply hNot
        refine ⟨hHolds1, hHolds2, ?_, ?_⟩
        · rw [hFirst1]
          simp
        · rw [hFirst1, hFirst2]
    rcases chainSlots_appended h.listed h.size hApart with
      ⟨board', l, m, hCall, hl, hm, hDisjoint, hAppended,
        hEnds⟩
    have hAllocated : ∀ i, i ∈ l ∨ i ∈ m →
        (board.channels i).id ≠ 0 ∧ i < board.size := by
      intro i hi
      rcases hEnds with ⟨h1, h2, _⟩ | ⟨h2, h1, _⟩
      · rcases hi with hi | hi
        · exact h.allocated hHolds1 hl h1 hi
        · exact h.allocated hHolds2 hm h2 hi
      · rcases hi with hi | hi
        · exact h.allocated hHolds2 hl h2 hi
        · exact h.allocated hHolds1 hm h1 hi
    refine ⟨board', hCall, ⟨hAppended.size ▸ h.size, ?_, ?_⟩,
      hAppended.size⟩
    · exact hAppended.listed h.listed hl hm hDisjoint
        (fun i hi => (hAllocated i hi).2)
    · intro i f hPointed
      rcases hAppended.joined with ⟨f', hJoined⟩
      rw [hJoined.first_eq] at hPointed
      rw [hAppended.ids]
      by_cases hi : i ∈ l ∨ i ∈ m
      · exact (hAllocated i hi).1
      · rw [if_neg hi] at hPointed
        exact h.linked i f hPointed

/- A slot in a list belongs to a channel that can have it. -/
theorem holds_of_first
    (h : board.Orderly)
    {id : Nat}
    (hPos : id ≠ 0)
    (hFree : ¬board.Taken id)
    (hSome : board.first (board.index id) ≠ none) :
    board.Holds id := by
  refine ⟨hPos, ?_⟩
  cases hFirst : board.first (board.index id) with
  | none => exact absurd hFirst hSome
  | some f =>
      have hNe := h.linked _ f hFirst
      by_contra hOther
      exact hFree ⟨hNe, hOther⟩

/- Allocation puts no channel in a list. -/
theorem rechains_allocate_iff
    (h : board.Orderly)
    {id1 id2 : Nat}
    (hPos1 : id1 ≠ 0)
    (hPos2 : id2 ≠ 0)
    (hFree1 : ¬board.Taken id1)
    (hFree2 : ¬(board.allocate id1).Taken id2) :
    ((board.allocate id1).allocate id2).Rechains id1 id2 ↔
      board.Rechains id1 id2 := by
  unfold SwitchBoard.Rechains
  simp only [SwitchBoard.allocate_first,
    SwitchBoard.allocate_index]
  rw [holds_allocate_iff hPos2 hFree2,
    holds_allocate_iff hPos2 hFree2,
    holds_allocate_iff hPos1 hFree1]
  constructor
  · intro hGiven
    rcases hGiven with ⟨_, _, hSome, hSame⟩
    have hHolds1 := h.holds_of_first hPos1 hFree1 hSome
    refine ⟨hHolds1, ⟨hPos2, ?_⟩, hSome, hSame⟩
    rw [hSame] at hSome
    cases hFirst : board.first (board.index id2) with
    | none => exact absurd hFirst hSome
    | some f =>
        have hNe := h.linked _ f hFirst
        have hKept := board.allocate_id_keeps id1 hNe
        by_contra hOther
        apply hFree2
        unfold SwitchBoard.Taken
        rw [board.allocate_index, hKept]
        exact ⟨hNe, hOther⟩
  · intro hGiven
    rcases hGiven with ⟨_, _, hSome, hSame⟩
    exact ⟨Or.inl (Or.inr rfl), Or.inr rfl, hSome, hSame⟩

/-
  Two channels of one list are chained forever; all other
  calls return, with an orderly board.
-/
theorem chain
    (h : board.Orderly)
    (status : TaskStatus)
    {id1 id2 : Nat}
    (hPos1 : id1 ≠ 0)
    (hPos2 : id2 ≠ 0) :
    (status.aside = false ∧ board.Rechains id1 id2 ∧
      channelChain status id1 id2 board = .fault) ∨
    (¬(status.aside = false ∧ board.Rechains id1 id2) ∧
      ∃ board',
        channelChain status id1 id2 board = .ret board' ∧
        board'.Orderly ∧ board'.size = board.size) := by
  cases hStatus : status.aside with
  | true =>
      right
      refine ⟨by simp, board, ?_, h, rfl⟩
      unfold channelChain
      rw [if_pos hStatus]
  | false =>
      rw [channelChain_eq id1 id2 board hStatus]
      by_cases hTaken :
          board.Taken id1 ∨ (board.allocate id1).Taken id2
      · right
        rw [if_pos hTaken]
        refine ⟨?_, _, rfl,
          (h.allocate id1).allocate id2, by simp⟩
        -- a slot in a list is not taken by another channel
        intro hGiven
        rcases hGiven with ⟨_, hHolds1, hHolds2, _, _⟩
        rcases hTaken with hTaken | hTaken
        · exact hTaken.2 hHolds1.2
        · apply hTaken.2
          rw [board.allocate_index,
            board.allocate_id_keeps id1 (by
              rw [hHolds2.2]
              exact hPos2), hHolds2.2]
      · rw [if_neg hTaken]
        rw [not_or] at hTaken
        rcases hTaken with ⟨hFree1, hFree2⟩
        have hAllocated := (h.allocate id1).allocate id2
        have hIff := h.rechains_allocate_iff hPos1 hPos2 hFree1
          hFree2
        by_cases hRechains : board.Rechains id1 id2
        · left
          refine ⟨rfl, hRechains, ?_⟩
          rcases hIff.mpr hRechains with
            ⟨_, _, hSome, hSame⟩
          simp only [SwitchBoard.allocate_index] at hSome hSame
          cases hFirst : ((board.allocate id1).allocate
              id2).first (board.index id1) with
          | none => exact absurd hFirst hSome
          | some f =>
              rw [chainSlots_same hAllocated.listed
                hAllocated.size hFirst (hSame ▸ hFirst)]
              rfl
        · right
          refine ⟨fun hBoth => hRechains hBoth.2, ?_⟩
          have hHolds2 :
              ((board.allocate id1).allocate id2).Holds id2 := by
            rw [holds_allocate_iff hPos2 hFree2]
            exact Or.inr rfl
          have hHolds1 :
              ((board.allocate id1).allocate id2).Holds id1 := by
            rw [holds_allocate_iff hPos2 hFree2,
              holds_allocate_iff hPos1 hFree1]
            exact Or.inl (Or.inr rfl)
          rcases hAllocated.chain_slots hHolds1 hHolds2
              (fun hAgain => hRechains (hIff.mp hAgain)) with
            ⟨board', hCall, hOrderly, hSize⟩
          simp only [SwitchBoard.allocate_index] at hCall
          refine ⟨board', ?_, hOrderly, ?_⟩
          · rw [hCall]
            rfl
          · rw [hSize]
            simp

end SwitchBoard.Orderly

end Cbop
