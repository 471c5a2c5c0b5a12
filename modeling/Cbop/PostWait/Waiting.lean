import Cbop.PostWait.Tasks

/-
  Whether a wait on a posted channel finds data, after any
  sequence of fills, posts and chainings.

  A wait on a channel in a chain takes the first channel of
  the chain that has data, and asserts that there is one.
  Since a post may be empty, the chain may be posted with no
  data in it; the assertion holds exactly if the last post
  on some channel of the chain sent a byte.

  Main declarations:
    * `firstWithData_eq`
    * `BoardState.Sourced`
    * `wait_sourced_iff`
-/

namespace Cbop

------------------------------------------------------------
-- The Search for Data
------------------------------------------------------------

/- The loop stops at data, or at the end of an empty chain. -/
theorem firstWithData_eq
    (board : SwitchBoard)
    (fuel : Nat)
    (x : Nat)
    (rest : List Nat)
    (hLinks : Chains.Links board.next (x :: rest))
    (hFuel : rest.length < fuel) :
    ∃ i ∈ x :: rest,
      firstWithData board fuel (board.channels x) =
        some (board.channels i) ∧
      ((board.channels i).data.size ≠ 0 ∨
        ∀ j ∈ x :: rest, (board.channels j).data.size = 0) := by
  induction rest generalizing fuel x with
  | nil =>
      cases fuel with
      | zero => omega
      | succ fuel =>
          have hNext : (board.channels x).ccNext = none :=
            hLinks.1
          refine ⟨x, List.mem_cons_self, ?_, ?_⟩
          · unfold firstWithData
            simp only [hNext, ite_self]
          · by_cases hEmpty : (board.channels x).data.size = 0
            · exact Or.inr (by simpa using hEmpty)
            · exact Or.inl hEmpty
  | cons y rest ih =>
      cases fuel with
      | zero => omega
      | succ fuel =>
          have hNext : (board.channels x).ccNext = some y :=
            hLinks.1
          unfold firstWithData
          by_cases hEmpty : (board.channels x).data.size = 0
          · rw [if_pos hEmpty, hNext]
            rcases ih fuel y hLinks.2 (by simpa using hFuel)
              with ⟨i, hi, hFound, hData⟩
            refine ⟨i, List.mem_cons_of_mem x hi, hFound, ?_⟩
            rcases hData with hData | hNone
            · exact Or.inl hData
            · right
              intro j hj
              rcases List.mem_cons.mp hj with rfl | hj
              · exact hEmpty
              · exact hNone j hj
          · rw [if_neg hEmpty]
            exact ⟨x, List.mem_cons_self, rfl, Or.inl hEmpty⟩

/- A wait finds data if a slot of the chain has any. -/
theorem waitSource_chained
    {board : SwitchBoard}
    {a f : Nat}
    (hBoard : board.Listed)
    (hSize : 0 < board.size)
    (hFirst : board.first a = some f) :
    ((∃ i, board.first i = some f ∧
        (board.channels i).data.size ≠ 0) ∧
      ∃ src, waitSource board (board.channels a) = .ret src) ∨
    ((∀ i, board.first i = some f →
        (board.channels i).data.size = 0) ∧
      waitSource board (board.channels a) = .fault) := by
  rcases hBoard.listed a with ⟨l, hl, ha⟩
  have hHead := hl.first_mem ha hFirst
  have hLength := hBoard.length_le hSize hl
  have hMembers : ∀ i, i ∈ l ↔ board.first i = some f := by
    intro i
    rw [hl.mem_iff ha i]
    constructor
    · intro hCases
      rcases hCases with rfl | ⟨g, hG, hI⟩
      · exact hFirst
      · rw [hFirst, Option.some.injEq] at hG
        rw [hI, hG]
    · intro hI
      exact Or.inr ⟨f, hFirst, hI⟩
  cases l with
  | nil => cases hHead
  | cons x rest =>
      rw [List.head?_cons, Option.some.injEq] at hHead
      subst hHead
      rw [List.length_cons] at hLength
      rcases firstWithData_eq board (board.size + 1) x rest
          hl.links (by omega) with
        ⟨i, hi, hFound, hData⟩
      have hFirst' : (board.channels a).ccFirst = some x :=
        hFirst
      unfold waitSource
      simp only [hFirst', hFound, Outcome.ofOption,
        Outcome.ret_bind]
      by_cases hEmpty : (board.channels i).data.size = 0
      · right
        rw [if_pos hEmpty]
        rcases hData with hData | hNone
        · exact absurd hEmpty hData
        · exact ⟨fun j hj => hNone j ((hMembers j).mpr hj),
            rfl⟩
      · left
        rw [if_neg hEmpty]
        exact ⟨⟨i, (hMembers i).mp hi, hEmpty⟩, _, rfl⟩

------------------------------------------------------------
-- Chains With Data
------------------------------------------------------------

/-
  The channel is in no chain, or the last post on a channel
  of its chain sent a byte.
-/
def BoardState.Sourced (st : BoardState) (id : Nat) : Prop :=
  ∀ f, st.board.first (st.board.index id) = some f →
    ∃ i, st.board.first i = some f ∧ (st.sent i).Nonempty

/- A slot has data if the last post on it sent a byte. -/
theorem BoardState.Consistent.size_ne_zero_iff
    {st : BoardState}
    (h : st.Consistent)
    (i : Nat) :
    (st.board.channels i).data.size ≠ 0 ↔
      (st.sent i).Nonempty := by
  rw [← h.covered i, Set.nonempty_iff_ne_empty, ne_eq, ne_eq,
    covered_eq_empty_iff (h.data i).apart, (h.data i).size_eq,
    List.length_eq_zero_iff]

theorem BoardState.Consistent.waitSource_iff
    {st : BoardState}
    (h : st.Consistent)
    (id : Nat) :
    (st.Sourced id ∧
      ∃ src, waitSource st.board
        (st.board.channels (st.board.index id)) =
          .ret src) ∨
    (¬st.Sourced id ∧
      waitSource st.board
        (st.board.channels (st.board.index id)) =
          .fault) := by
  cases hFirst : st.board.first (st.board.index id) with
  | none =>
      left
      constructor
      · intro f hSome
        rw [hFirst] at hSome
        cases hSome
      · have hNone :
            (st.board.channels (st.board.index id)).ccFirst =
              none := hFirst
        unfold waitSource
        rw [hNone]
        exact ⟨_, rfl⟩
  | some f =>
      rcases waitSource_chained h.orderly.listed
          h.orderly.size hFirst with
        ⟨⟨i, hIn, hData⟩, hRet⟩ | ⟨hNone, hFault⟩
      · left
        refine ⟨?_, hRet⟩
        intro g hG
        rw [hFirst, Option.some.injEq] at hG
        rw [← hG]
        exact ⟨i, hIn, (h.size_ne_zero_iff i).mp hData⟩
      · right
        refine ⟨?_, hFault⟩
        intro hSourced
        rcases hSourced f hFirst with ⟨i, hIn, hSent⟩
        exact (h.size_ne_zero_iff i).mpr hSent (hNone i hIn)

/-
  After any calls on a fresh board that returned, a wait on
  a posted channel finds data exactly if the channel is in
  no chain or the last post on a channel of its chain sent a
  byte. In all other states the wait fails its assertion.
-/
theorem wait_sourced_iff
    {size gs : Nat}
    {calls : List BoardCall}
    {st : BoardState}
    {id : Nat}
    (hSize : 0 < (postwaitInit size gs).size)
    (hOk : ∀ call ∈ calls, call.Ok)
    (hRun : runCalls calls (freshBoard size gs) = .ret st)
    (hPosted :
      (st.board.channels (st.board.index id)).isPosted = true)
    (hId :
      (st.board.channels (st.board.index id)).id = id) :
    ((∃ src, waitSource st.board
        (st.board.channels (st.board.index id)) =
          .ret src) ↔
      st.Sourced id) ∧
    (¬st.Sourced id →
      ∀ readMap writeMap received mem,
        channelWait .spec id st.board readMap writeMap received
          mem = some .fault) := by
  have hConsistent := consistent_runCalls hSize hOk hRun
  rcases hConsistent.waitSource_iff id with
    ⟨hSourced, hRet⟩ | ⟨hNot, hFault⟩
  · exact ⟨⟨fun _ => hSourced, fun _ => hRet⟩,
      fun hNot => absurd hSourced hNot⟩
  · refine ⟨⟨?_, fun hSourced => absurd hSourced hNot⟩, ?_⟩
    · intro hGiven
      rcases hGiven with ⟨src, hRet⟩
      rw [hFault] at hRet
      cases hRet
    · intro _ readMap writeMap received mem
      unfold channelWait
      simp only [ne_eq, not_true_eq_false, if_false, hPosted,
        Bool.not_true, Bool.false_eq_true, hId, hFault]
      rfl

/-
  Channel 1 is chained before channel 2, on which a task
  posts what it filled and wrote.
-/
def chainedPost : List BoardCall :=
  [.chain .spec 1 2, .fill 0 2 ⟨.spec, 8, 4⟩,
    .post 0 .spec 1 2 (fun _ => 7) twoChanges]

theorem wait_sourced_chainedPost :
    ∃ st, runCalls chainedPost (freshBoard 0 1) = .ret st ∧
      ∃ src, waitSource st.board
        (st.board.channels (st.board.index 1)) = .ret src := by
  have hOk : ∀ call ∈ chainedPost, call.Ok := by
    intro call hCall
    simp only [chainedPost, List.mem_cons, List.not_mem_nil,
      or_false] at hCall
    rcases hCall with rfl | rfl | rfl
    · exact ⟨by decide, by decide⟩
    · exact (by decide : (Fill.mk .spec 8 4).Fits)
    · exact (by decide : twoChanges.WellFormed)
  refine ⟨_, rfl, ?_⟩
  apply (wait_sourced_iff
    (show 0 < (postwaitInit 0 1).size by decide) hOk rfl rfl
    rfl).1.mpr
  intro f hFirst
  cases hFirst
  -- the byte at 8 was filled and written
  have hSent : 8 ∈
      (mapAddRange initEmptyMap 8 4 none :
        RangeMap Bytes).covered ∩ twoChanges.covered :=
    ⟨by decide, by decide⟩
  exact ⟨2, rfl, 8, hSent⟩

/- Two channels are chained, and one is posted empty. -/
def emptyChainPost : List BoardCall :=
  [.chain .spec 1 2,
    .post 0 .spec 1 1 (fun _ => 7) initEmptyMap]

/- A wait on it fails, though the channel is posted. -/
theorem emptyChainPost_fails :
    ∃ st,
      runCalls emptyChainPost (freshBoard 0 1) = .ret st ∧
      channelIsPosted st.board 1 = true ∧
      ∀ readMap writeMap received mem,
        channelWait .spec 1 st.board readMap writeMap received
          mem = some .fault :=
  ⟨_, rfl, rfl, fun _ _ _ _ => rfl⟩

end Cbop
