import Cbop.PostWait.Release

/-
  Whether the calls on a switch board end, through any
  sequence of `channel_post` and `channel_chain` calls.

  A call that chains two channels of one chain links the end
  of the chain to its start and then walks it forever. The
  other calls all return, and leave every chain a list from
  the channel its members point to.

  Main declarations:
    * `SwitchBoard.IsChain`, `SwitchBoard.KeepsLists`
    * `StaysListed`, `NeverRechains`
    * `staysListed_iff`
-/

namespace Cbop

------------------------------------------------------------
-- Lists on the Board
------------------------------------------------------------

/-
  The slots that name `f` as their first are the ones of
  this list, each linked to the next, the last to none.
-/
structure SwitchBoard.IsChain
    (board : SwitchBoard)
    (f : Nat)
    (l : List Nat) : Prop where
  head : l.head? = some f
  nodup : l.Nodup
  links : Chains.Links board.next l
  members : ∀ i, i ∈ l ↔ board.first i = some f

/-
  Every slot that names a first one is in a chain, in one
  only, and the others have no link.
-/
structure SwitchBoard.KeepsLists (board : SwitchBoard) : Prop where
  chain : ∀ i f, board.first i = some f →
    ∃ l, board.IsChain f l
  apart : ∀ f l f' l' i, board.IsChain f l →
    board.IsChain f' l' → i ∈ l → i ∈ l' → l = l'
  loose : ∀ i, board.first i = none → board.next i = none

theorem SwitchBoard.Listed.keepsLists
    {board : SwitchBoard}
    (h : board.Listed) :
    board.KeepsLists := by
  constructor
  · intro i f hFirst
    rcases h.listed i with ⟨l, hl, hi⟩
    have hHead := hl.first_mem hi hFirst
    refine ⟨l, hHead, hl.nodup, hl.links, ?_⟩
    cases hl with
    | loose j hNone _ =>
        rw [List.mem_singleton] at hi
        rw [hi, hNone] at hFirst
        cases hFirst
    | chain f' rest _ _ hMembers =>
        rw [List.head?_cons, Option.some.injEq] at hHead
        rw [← hHead]
        exact fun j => (hMembers j).symm
  · intro f l f' l' i hl hl' hi hi'
    have hEq : f = f' := by
      have hFirst := (hl.members i).mp hi
      rw [(hl'.members i).mp hi', Option.some.injEq] at hFirst
      exact hFirst.symm
    apply hl.links.unique hl'.links
    rw [hl.head, hl'.head, hEq]
  · intro i hNone
    rcases h.listed i with ⟨l, hl, hi⟩
    have hLinks := hl.links
    rw [hl.eq_singleton hi hNone] at hLinks
    exact hLinks.1

------------------------------------------------------------
-- Sequences of Calls
------------------------------------------------------------

/- Every call returns, and leaves the chains as lists. -/
def StaysListed : ChainState → List ChainCall → Prop
| st, [] => st.board.KeepsLists
| st, call :: rest =>
    st.board.KeepsLists ∧
      match call.run st with
      | .ret st' => StaysListed st' rest
      | .abort => False
      | .fault => False

/- The call chains two channels that are in one chain. -/
def ChainCall.Rechains : ChainCall → SwitchBoard → Prop
| .post _ _, _ => False
| .chain status id1 id2, board =>
    status.aside = false ∧ board.Rechains id1 id2

instance
    (call : ChainCall)
    (board : SwitchBoard) :
    Decidable (call.Rechains board) :=
  match call with
  | .post _ _ => inferInstanceAs (Decidable False)
  | .chain _ _ _ => inferInstanceAs (Decidable (_ ∧ _))

/- No call of the sequence does so. -/
def NeverRechains : ChainState → List ChainCall → Prop
| _, [] => True
| st, call :: rest =>
    ¬call.Rechains st.board ∧
      match call.run st with
      | .ret st' => NeverRechains st' rest
      | .abort => True
      | .fault => True

instance decidableNeverRechains :
    (st : ChainState) → (calls : List ChainCall) →
      Decidable (NeverRechains st calls)
| _, [] => isTrue trivial
| st, call :: rest =>
    have :
        Decidable (match call.run st with
          | .ret st' => NeverRechains st' rest
          | .abort => True
          | .fault => True) :=
      match call.run st with
      | .ret st' => decidableNeverRechains st' rest
      | .abort => isTrue trivial
      | .fault => isTrue trivial
    inferInstanceAs (Decidable (_ ∧ _))

/- One call, on a board whose pointers are in order. -/
theorem ChainCall.run_orderly
    {st : ChainState}
    (hBoard : st.board.Orderly)
    (call : ChainCall)
    (hPos : ∀ id ∈ call.ids, id ≠ 0) :
    (call.Rechains st.board ∧ call.run st = .fault) ∨
    (¬call.Rechains st.board ∧
      ∃ st', call.run st = .ret st' ∧ st'.board.Orderly) := by
  cases call with
  | post s id =>
      have hId := hPos id (by simp [ChainCall.ids])
      right
      refine ⟨not_false, ?_⟩
      rcases channelPost_returns s.status s.pprIndex s.mem hId
          hBoard.listed hBoard.size s.localWell
          s.writeWell with
        ⟨board', localCh', writeMap', hPost⟩
      have hRun : (ChainCall.post s id).run st =
          .ret { st with
            board := board'
            posts :=
              if Posts s.status s.localCh id st.board then
                id :: st.posts
              else st.posts } := by
        simp only [ChainCall.run, hPost, Outcome.ret_bind]
      exact ⟨_, hRun, (hBoard.post hId hPost).1⟩
  | chain status id1 id2 =>
      have hId1 := hPos id1 (by simp [ChainCall.ids])
      have hId2 := hPos id2 (by simp [ChainCall.ids])
      rcases hBoard.chain status hId1 hId2 with
        ⟨hStatus, hRechains, hCall⟩ |
        ⟨hNot, board', hCall, hOrderly, _⟩
      · left
        refine ⟨⟨hStatus, hRechains⟩, ?_⟩
        simp only [ChainCall.run, hCall]
        rfl
      · right
        have hRun : (ChainCall.chain status id1 id2).run st =
            .ret { st with
              board := board'
              pairs :=
                if status.aside then st.pairs
                else (id1, id2) :: st.pairs } := by
          simp only [ChainCall.run, hCall, Outcome.ret_bind]
        exact ⟨hNot, _, hRun, hOrderly⟩

theorem staysListed_iff_from
    (calls : List ChainCall)
    (st : ChainState)
    (hBoard : st.board.Orderly)
    (hPos : ∀ call ∈ calls, ∀ id ∈ call.ids, id ≠ 0) :
    StaysListed st calls ↔ NeverRechains st calls := by
  induction calls generalizing st with
  | nil =>
      exact ⟨fun _ => trivial,
        fun _ => hBoard.listed.keepsLists⟩
  | cons call rest ih =>
      have hLists := hBoard.listed.keepsLists
      unfold StaysListed NeverRechains
      rcases call.run_orderly hBoard
          (hPos call List.mem_cons_self) with
        ⟨hRechains, hRun⟩ | ⟨hNot, st', hRun, hBoard'⟩
      · simp only [hRun, and_false, false_iff]
        exact fun h => h.1 hRechains
      · simp only [hRun]
        rw [ih st' hBoard' (fun c hc =>
          hPos c (List.mem_cons_of_mem call hc))]
        exact ⟨fun h => ⟨hNot, h.2⟩,
          fun h => ⟨hLists, h.2⟩⟩

/-
  From a fresh board, every call of a sequence returns and
  leaves the chains as lists exactly if no call chains two
  channels that are in one chain by then.
-/
theorem staysListed_iff
    (size gs : Nat)
    (calls : List ChainCall)
    (hSize : 0 < (postwaitInit size gs).size)
    (hPos : ∀ call ∈ calls, ∀ id ∈ call.ids, id ≠ 0) :
    StaysListed (freshState size gs) calls ↔
      NeverRechains (freshState size gs) calls :=
  staysListed_iff_from calls (freshState size gs)
    (orderly_postwaitInit hSize) hPos

/-
  A channel is chained to itself and to a second one, which
  is posted. A third channel is chained to them.
-/
theorem staysListed_self :
    StaysListed (freshState 0 1)
      [.chain .spec 1 1, .chain .spec 1 2,
        .post plainSender 2, .chain .main 3 1] := by
  apply (staysListed_iff 0 1 _ (by decide) ?_).mpr
  · decide
  · simp [ChainCall.ids]

/- Two channels that are chained twice. -/
def chainedTwice : List ChainCall :=
  [.chain .spec 1 2, .chain .spec 1 2]

/-
  The second call goes round the chain, whatever number of
  steps the loop is given.
-/
theorem chainedTwice_not_listed :
    ¬StaysListed (freshState 0 1) chainedTwice ∧
      ∃ board,
        channelChain .spec 1 2 (postwaitInit 0 1) =
          .ret board ∧
        ∀ fuel, appendChain 1 false fuel
          (setChain board 2 (some 1) (some 1) false)
          (some 1) = none := by
  constructor
  · intro hGiven
    rcases hGiven with ⟨_, _, hRun⟩
    exact hRun
  · refine ⟨_, rfl, ?_⟩
    intro fuel
    apply appendChain_circle 1 false fuel _ [1, 2]
    · decide
    · decide

end Cbop
