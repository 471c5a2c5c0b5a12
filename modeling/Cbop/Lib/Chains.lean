import Mathlib.Data.List.Nodup
import Mathlib.Logic.Relation
import Mathlib.Tactic.Common

/-
  A partition kept as linked lists: each element that is in
  a list points to the first of it and to the next in it, an
  element by itself points nowhere. Two lists are joined by
  linking the last of one to the first of the other. In a
  `Listed` structure a list may have one element, in a
  `Partitioned` one it has several.

  Main declarations:
    * `Chains.Links`, `Chains.Cell`, `Chains.Listed`
    * `Chains.Block`, `Chains.Partitioned`
    * `Chains.Listed.join`, `Chains.Partitioned.join`
    * `Chains.sameBlock_join_iff`
    * `Chains.eqvGen_insert_iff`
    * `Chains.reaches_root`
-/

namespace Chains

variable {ι : Type}

------------------------------------------------------------
-- Links
------------------------------------------------------------

/-
  Every element is linked to the one after it in the list,
  the last one to nothing.
-/
def Links (next : ι → Option ι) : List ι → Prop
| [] => True
| x :: rest => next x = rest.head? ∧ Links next rest

/- Links depend on the elements of the list only. -/
theorem Links.congr
    {next next' : ι → Option ι}
    {l : List ι}
    (h : Links next l)
    (hSame : ∀ x ∈ l, next' x = next x) :
    Links next' l := by
  induction l with
  | nil => exact trivial
  | cons x rest ih =>
      constructor
      · rw [hSame x List.mem_cons_self]
        exact h.1
      · apply ih h.2
        intro y hy
        exact hSame y (List.mem_cons_of_mem x hy)

/- The last element of one list is linked to another list. -/
theorem Links.splice
    {next next' : ι → Option ι}
    {init m : List ι}
    {p : ι}
    (hLeft : Links next (init ++ [p]))
    (hRight : Links next m)
    (hNodup : (init ++ p :: m).Nodup)
    (hLast : next' p = m.head?)
    (hSame : ∀ x, x ≠ p → next' x = next x) :
    Links next' (init ++ p :: m) := by
  induction init with
  | nil =>
      refine ⟨hLast, hRight.congr ?_⟩
      intro x hx
      apply hSame
      intro hEq
      subst hEq
      exact (List.nodup_cons.mp hNodup).1 hx
  | cons y init ih =>
      have hParts := List.nodup_cons.mp hNodup
      have hOther : y ≠ p := by
        intro hEq
        subst hEq
        apply hParts.1
        simp
      refine ⟨?_, ih hLeft.2 hParts.2⟩
      rw [hSame y hOther, hLeft.1]
      cases init with
      | nil => rfl
      | cons z init => rfl

/- All but the last of the list are linked inside it. -/
theorem Links.next_mem
    {next : ι → Option ι}
    {l : List ι}
    {x : ι}
    (h : Links next l)
    (hx : x ∈ l)
    (hLast : l.getLast? ≠ some x) :
    ∃ y ∈ l, next x = some y := by
  induction l with
  | nil => cases hx
  | cons z rest ih =>
      cases rest with
      | nil =>
          rw [List.mem_singleton] at hx
          rw [hx] at hLast
          exact absurd rfl hLast
      | cons y rest =>
          rcases List.mem_cons.mp hx with rfl | hx
          · exact ⟨y, by simp, h.1⟩
          · rw [List.getLast?_cons_cons] at hLast
            rcases ih h.2 hx hLast with ⟨w, hw, hNext⟩
            exact ⟨w, List.mem_cons_of_mem z hw, hNext⟩

/- Links and their start determine the list. -/
theorem Links.unique
    {next : ι → Option ι}
    {l m : List ι}
    (hl : Links next l)
    (hm : Links next m)
    (hHead : l.head? = m.head?) :
    l = m := by
  induction l generalizing m with
  | nil =>
      cases m with
      | nil => rfl
      | cons y m => cases hHead
  | cons x l ih =>
      cases m with
      | nil => cases hHead
      | cons y m =>
          rw [List.head?_cons, List.head?_cons,
            Option.some.injEq] at hHead
          subst hHead
          rw [ih hl.2 hm.2 (hl.1.symm.trans hm.1)]

------------------------------------------------------------
-- Cells
------------------------------------------------------------

section Cells

variable {first next : ι → Option ι}

/-
  A list of the structure, or an element that points
  nowhere. A list may have one element, which then points to
  itself as the first.
-/
inductive Cell (first next : ι → Option ι) :
    List ι → Prop where
| loose
    (i : ι) :
    first i = none → next i = none → Cell first next [i]
| chain
    (f : ι)
    (rest : List ι) :
    (f :: rest).Nodup →
    Links next (f :: rest) →
    (∀ i, first i = some f ↔ i ∈ f :: rest) →
      Cell first next (f :: rest)

/- Every element is in a cell. -/
def Listed (first next : ι → Option ι) : Prop :=
  ∀ i, ∃ l, Cell first next l ∧ i ∈ l

/- Two elements are in one list. -/
def SameBlock (first : ι → Option ι) (x y : ι) : Prop :=
  x = y ∨ ∃ f, first x = some f ∧ first y = some f

theorem Cell.nodup
    {l : List ι}
    (h : Cell first next l) :
    l.Nodup := by
  cases h with
  | loose i _ _ => simp
  | chain f rest hNodup _ _ => exact hNodup

theorem Cell.links
    {l : List ι}
    (h : Cell first next l) :
    Links next l := by
  cases h with
  | loose i _ hNext => exact ⟨hNext, trivial⟩
  | chain f rest _ hLinks _ => exact hLinks

theorem Cell.ne_nil
    {l : List ι}
    (h : Cell first next l) :
    l ≠ [] := by
  cases h with
  | loose i _ _ => simp
  | chain f rest _ _ _ => simp

theorem Cell.last
    {l : List ι}
    (h : Cell first next l) :
    ∃ p, l.getLast? = some p :=
  ⟨l.getLast h.ne_nil, List.getLast?_eq_some_getLast h.ne_nil⟩

/- An element that points nowhere is by itself. -/
theorem Cell.eq_singleton
    {l : List ι}
    {x : ι}
    (h : Cell first next l)
    (hx : x ∈ l)
    (hNone : first x = none) :
    l = [x] := by
  cases h with
  | loose i _ _ =>
      rw [List.mem_singleton] at hx
      rw [hx]
  | chain f rest _ _ hMembers =>
      rw [(hMembers x).mpr hx] at hNone
      cases hNone

/- The elements of a cell are those in one with any of it. -/
theorem Cell.mem_iff
    {l : List ι}
    {x : ι}
    (h : Cell first next l)
    (hx : x ∈ l)
    (y : ι) :
    y ∈ l ↔ SameBlock first x y := by
  cases h with
  | loose i hFirst _ =>
      rw [List.mem_singleton] at hx
      rw [hx, List.mem_singleton]
      constructor
      · intro hEq
        subst hEq
        exact Or.inl rfl
      · intro hCase
        rcases hCase with rfl | ⟨f, hF, _⟩
        · rfl
        · rw [hFirst] at hF
          cases hF
  | chain f rest _ _ hMembers =>
      constructor
      · intro hy
        exact Or.inr
          ⟨f, (hMembers x).mpr hx, (hMembers y).mpr hy⟩
      · intro hCase
        rcases hCase with rfl | ⟨f', hX, hY⟩
        · exact hx
        · rw [(hMembers x).mpr hx] at hX
          rw [← hX] at hY
          exact (hMembers y).mp hY

theorem SameBlock.symm
    {x y : ι}
    (h : SameBlock first x y) :
    SameBlock first y x := by
  rcases h with rfl | ⟨f, hX, hY⟩
  · exact Or.inl rfl
  · exact Or.inr ⟨f, hY, hX⟩

theorem SameBlock.trans
    {x y z : ι}
    (h : SameBlock first x y)
    (h' : SameBlock first y z) :
    SameBlock first x z := by
  rcases h with rfl | ⟨f, hX, hY⟩
  · exact h'
  · rcases h' with rfl | ⟨f', hY', hZ⟩
    · exact Or.inr ⟨f, hX, hY⟩
    · rw [hY] at hY'
      rw [← hY'] at hZ
      exact Or.inr ⟨f, hX, hZ⟩

theorem Cell.sameBlock
    {l : List ι}
    (h : Cell first next l)
    (x y : ι)
    (hx : x ∈ l)
    (hy : y ∈ l) :
    SameBlock first x y :=
  (h.mem_iff hx y).mp hy

/- Cells with a common element have the same elements. -/
theorem Cell.mem_of_mem
    {l m : List ι}
    {x y : ι}
    (hl : Cell first next l)
    (hm : Cell first next m)
    (hxl : x ∈ l)
    (hxm : x ∈ m)
    (hy : y ∈ l) :
    y ∈ m :=
  (hm.mem_iff hxm y).mpr ((hl.mem_iff hxl y).mp hy)

/- The pointer of a cell's elements is to its first. -/
theorem Cell.first_mem
    {l : List ι}
    {x f : ι}
    (h : Cell first next l)
    (hx : x ∈ l)
    (hFirst : first x = some f) :
    l.head? = some f := by
  cases h with
  | loose i hNone _ =>
      rw [List.mem_singleton] at hx
      rw [hx, hNone] at hFirst
      cases hFirst
  | chain f' rest _ _ hMembers =>
      rw [(hMembers x).mpr hx] at hFirst
      exact hFirst

end Cells

------------------------------------------------------------
-- Blocks
------------------------------------------------------------

section Blocks

variable {first next : ι → Option ι}

/- A list of several elements, or an element by itself. -/
inductive Block (first next : ι → Option ι) :
    List ι → Prop where
| loose
    (i : ι) :
    first i = none → next i = none → Block first next [i]
| chain
    (f g : ι)
    (rest : List ι) :
    (f :: g :: rest).Nodup →
    Links next (f :: g :: rest) →
    (∀ i, first i = some f ↔ i ∈ f :: g :: rest) →
      Block first next (f :: g :: rest)

/- Every element is in a block. -/
def Partitioned (first next : ι → Option ι) : Prop :=
  ∀ i, ∃ l, Block first next l ∧ i ∈ l

theorem Block.cell
    {l : List ι}
    (h : Block first next l) :
    Cell first next l := by
  cases h with
  | loose i hFirst hNext => exact .loose i hFirst hNext
  | chain f g rest hNodup hLinks hMembers =>
      exact .chain f (g :: rest) hNodup hLinks hMembers

theorem partitioned_of_none
    (hFirst : ∀ i, first i = none)
    (hNext : ∀ i, next i = none) :
    Partitioned first next :=
  fun i => ⟨[i], .loose i (hFirst i) (hNext i), by simp⟩

/- A partition has no list of one element. -/
theorem partitioned_iff :
    Partitioned first next ↔
      Listed first next ∧
        ∀ i, first i = some i → next i ≠ none := by
  constructor
  · intro h
    constructor
    · intro i
      rcases h i with ⟨l, hl, hi⟩
      exact ⟨l, hl.cell, hi⟩
    · intro i hSelf hEnd
      rcases h i with ⟨l, hl, hi⟩
      have hHead := hl.cell.first_mem hi hSelf
      cases hl with
      | loose j hNone _ =>
          rw [List.mem_singleton] at hi
          rw [← hi, hSelf] at hNone
          cases hNone
      | chain f g rest _ hLinks _ =>
          rw [List.head?_cons, Option.some.injEq] at hHead
          rw [← hHead, hLinks.1] at hEnd
          cases hEnd
  · intro hCase
    rcases hCase with ⟨hListed, hSeveral⟩
    intro i
    rcases hListed i with ⟨l, hl, hi⟩
    refine ⟨l, ?_, hi⟩
    cases hl with
    | loose j hFirst hNext => exact .loose j hFirst hNext
    | chain f rest hNodup hLinks hMembers =>
        cases rest with
        | nil =>
            have hSelf := (hMembers f).mpr (by simp)
            exact absurd hLinks.1 (hSeveral f hSelf)
        | cons g rest =>
            exact .chain f g rest hNodup hLinks hMembers

/- The cells of a partition are its blocks. -/
theorem Partitioned.block
    (h : Partitioned first next)
    {l : List ι}
    (hl : Cell first next l) :
    Block first next l := by
  cases hl with
  | loose i hFirst hNext => exact .loose i hFirst hNext
  | chain f rest hNodup hLinks hMembers =>
      cases rest with
      | nil =>
          have hSelf := (hMembers f).mpr (by simp)
          exact absurd hLinks.1
            ((partitioned_iff.mp h).2 f hSelf)
      | cons g rest =>
          exact .chain f g rest hNodup hLinks hMembers

end Blocks

------------------------------------------------------------
-- Joining Two Lists
------------------------------------------------------------

section Join

variable [DecidableEq ι]

/-
  The pointers after list `m` has been linked to the end `p`
  of list `l`, whose first element is `f`.
-/
structure Joined
    (first next first' next' : ι → Option ι)
    (l m : List ι)
    (f : ι) : Prop where
  head : l.head? = some f
  first_eq : ∀ i, first' i =
    if i ∈ l ∨ i ∈ m then some f else first i
  next_last : ∀ p, l.getLast? = some p → next' p = m.head?
  next_other : ∀ i, l.getLast? ≠ some i → next' i = next i

variable {first next first' next' : ι → Option ι}
variable {l m : List ι}
variable {f : ι}

/- The joined list. -/
theorem Joined.cell
    (h : Joined first next first' next' l m f)
    (hAll : Listed first next)
    (hl : Cell first next l)
    (hm : Cell first next m)
    (hApart : ∀ i ∈ l, i ∉ m) :
    Cell first' next' (l ++ m) := by
  have hNodup : (l ++ m).Nodup := by
    rw [List.nodup_append]
    refine ⟨hl.nodup, hm.nodup, ?_⟩
    intro i hi j hj hCase
    subst hCase
    exact hApart i hi hj
  have hMembers :
      ∀ i, first' i = some f ↔ i ∈ l ++ m := by
    intro i
    rw [h.first_eq i, List.mem_append]
    by_cases hIn : i ∈ l ∨ i ∈ m
    · simp [hIn]
    · rw [if_neg hIn]
      simp only [hIn, iff_false]
      intro hFirst
      -- an old pointer to `f` comes from the list of `f`
      rcases hAll i with ⟨b, hb, hib⟩
      have hHead := hb.first_mem hib hFirst
      have hfb : f ∈ b := List.mem_of_mem_head? hHead
      have hfl : f ∈ l := List.mem_of_mem_head? h.head
      exact hIn (Or.inl (hb.mem_of_mem hl hfb hfl hib))
  have hLinks : Links next' (l ++ m) := by
    rcases List.eq_nil_or_concat l with hNil | ⟨init, p, hEq⟩
    · exact absurd hNil hl.ne_nil
    · rw [List.concat_eq_append] at hEq
      have hLast : l.getLast? = some p := by
        rw [hEq, List.getLast?_concat]
      have hShape : l ++ m = init ++ p :: m := by
        rw [hEq, List.append_assoc, List.singleton_append]
      rw [hShape] at hNodup ⊢
      apply Links.splice (hEq ▸ hl.links) hm.links hNodup
        (h.next_last p hLast)
      intro x hx
      apply h.next_other
      rw [hLast]
      simpa using hx.symm
  cases l with
  | nil => exact absurd rfl hl.ne_nil
  | cons a l =>
      have hA : a = f := by
        simpa using h.head
      subst hA
      exact .chain a (l ++ m) hNodup hLinks hMembers

/- Lists elsewhere are as they were. -/
theorem Joined.other
    (h : Joined first next first' next' l m f)
    {b : List ι}
    (hb : Cell first next b)
    (hL : ∀ i ∈ b, i ∉ l)
    (hM : ∀ i ∈ b, i ∉ m) :
    Cell first' next' b := by
  have hFirst : ∀ i ∈ b, first' i = first i := by
    intro i hi
    rw [h.first_eq i, if_neg]
    intro hCase
    rcases hCase with hIn | hIn
    · exact hL i hi hIn
    · exact hM i hi hIn
  have hNext : ∀ i ∈ b, next' i = next i := by
    intro i hi
    apply h.next_other
    intro hLast
    exact hL i hi (List.mem_of_getLast? hLast)
  cases hb with
  | loose i hNone hEnd =>
      apply Cell.loose i
      · rw [hFirst i (by simp)]
        exact hNone
      · rw [hNext i (by simp)]
        exact hEnd
  | chain f' rest hNodup hLinks hMembers =>
      apply Cell.chain f' rest hNodup (hLinks.congr hNext)
      intro i
      by_cases hIn : i ∈ l ∨ i ∈ m
      · rw [h.first_eq i, if_pos hIn]
        have hfl : f ∈ l := List.mem_of_mem_head? h.head
        constructor
        · intro hEq
          rw [Option.some.injEq] at hEq
          exact absurd (hEq ▸ hfl) (hL f' (by simp))
        · intro hi
          rcases hIn with hIn | hIn
          · exact absurd hIn (hL i hi)
          · exact absurd hIn (hM i hi)
      · rw [h.first_eq i, if_neg hIn]
        exact hMembers i

theorem Listed.join
    (hAll : Listed first next)
    (hl : Cell first next l)
    (hm : Cell first next m)
    (hApart : ∀ i ∈ l, i ∉ m)
    (h : Joined first next first' next' l m f) :
    Listed first' next' := by
  intro i
  by_cases hIn : i ∈ l ∨ i ∈ m
  · exact ⟨l ++ m, h.cell hAll hl hm hApart,
      List.mem_append.mpr hIn⟩
  · rcases hAll i with ⟨b, hb, hib⟩
    refine ⟨b, h.other hb ?_ ?_, hib⟩
    · intro j hj hjl
      exact hIn (Or.inl (hb.mem_of_mem hl hj hjl hib))
    · intro j hj hjm
      exact hIn (Or.inr (hb.mem_of_mem hm hj hjm hib))

/- An element without pointers becomes a list of its own. -/
theorem Listed.point_self
    {a : ι}
    (hAll : Listed first next)
    (hNone : first a = none)
    (hFirst : ∀ i, first' i = if i = a then some a else first i)
    (hNext : ∀ i, next' i = if i = a then none else next i) :
    Listed first' next' := by
  intro i
  by_cases hia : i = a
  · subst hia
    refine ⟨[i], .chain i [] (by simp) ⟨?_, trivial⟩ ?_,
      by simp⟩
    · rw [hNext, if_pos rfl]
      rfl
    · intro j
      rw [hFirst, List.mem_singleton]
      by_cases hj : j = i
      · simp [hj]
      · simp only [hj, if_false, iff_false]
        intro hPointed
        -- the first of a list points to itself
        rcases hAll j with ⟨b, hb, hjb⟩
        have hHead := hb.first_mem hjb hPointed
        have hib : i ∈ b := List.mem_of_mem_head? hHead
        rw [hb.eq_singleton hib hNone,
          List.mem_singleton] at hjb
        exact hj hjb
  · rcases hAll i with ⟨b, hb, hib⟩
    have hNot : a ∉ b := by
      intro hab
      rw [hb.eq_singleton hab hNone, List.mem_singleton] at hib
      exact hia hib
    have hOther : ∀ j ∈ b, j ≠ a := by
      intro j hj hEq
      subst hEq
      exact hNot hj
    refine ⟨b, ?_, hib⟩
    cases hb with
    | loose j hLoose hEnd =>
        have hj := hOther j (by simp)
        apply Cell.loose j
        · rw [hFirst, if_neg hj, hLoose]
        · rw [hNext, if_neg hj, hEnd]
    | chain f rest hNodup hLinks hMembers =>
        apply Cell.chain f rest hNodup
        · apply hLinks.congr
          intro j hj
          rw [hNext, if_neg (hOther j hj)]
        · intro j
          by_cases hj : j = a
          · have hf := hOther f (by simp)
            rw [hj, hFirst, if_pos rfl, Option.some.injEq]
            exact iff_of_false hf.symm hNot
          · rw [hFirst, if_neg hj]
            exact hMembers j

/- The joined list has several elements. -/
theorem Partitioned.join
    (hAll : Partitioned first next)
    (hl : Cell first next l)
    (hm : Cell first next m)
    (hApart : ∀ i ∈ l, i ∉ m)
    (h : Joined first next first' next' l m f) :
    Partitioned first' next' := by
  rw [partitioned_iff] at hAll ⊢
  refine ⟨hAll.1.join hl hm hApart h, ?_⟩
  intro i hSelf
  rw [h.first_eq i] at hSelf
  split at hSelf
  · rw [Option.some.injEq] at hSelf
    subst hSelf
    have hf : f ∈ l := List.mem_of_mem_head? h.head
    by_cases hLast : l.getLast? = some f
    · rw [h.next_last f hLast, ne_eq, List.head?_eq_none_iff]
      exact hm.ne_nil
    · rw [h.next_other f hLast]
      rcases hl.links.next_mem hf hLast with ⟨y, _, hNext⟩
      simp [hNext]
  · rename_i hOut
    rw [h.next_other i (fun hLast =>
      hOut (Or.inl (List.mem_of_getLast? hLast)))]
    exact hAll.2 i hSelf

/- What was in one list still is, and the two are one. -/
theorem sameBlock_join_iff
    (hAll : Listed first next)
    (hl : Cell first next l)
    (hm : Cell first next m)
    (hApart : ∀ i ∈ l, i ∉ m)
    (h : Joined first next first' next' l m f)
    (x y : ι) :
    SameBlock first' x y ↔
      SameBlock first x y ∨
        ((x ∈ l ∨ x ∈ m) ∧ (y ∈ l ∨ y ∈ m)) := by
  have hCell := h.cell hAll hl hm hApart
  by_cases hIn : x ∈ l ∨ x ∈ m
  · have hx : x ∈ l ++ m := List.mem_append.mpr hIn
    rw [← hCell.mem_iff hx y, List.mem_append]
    constructor
    · intro hy
      exact Or.inr ⟨hIn, hy⟩
    · intro hCase
      rcases hCase with hOld | ⟨_, hy⟩
      · rcases hIn with hIn | hIn
        · exact Or.inl ((hl.mem_iff hIn y).mpr hOld)
        · exact Or.inr ((hm.mem_iff hIn y).mpr hOld)
      · exact hy
  · rcases hAll x with ⟨b, hb, hxb⟩
    have hOther : Cell first' next' b := by
      apply h.other hb
      · intro j hj hjl
        exact hIn (Or.inl (hb.mem_of_mem hl hj hjl hxb))
      · intro j hj hjm
        exact hIn (Or.inr (hb.mem_of_mem hm hj hjm hxb))
    rw [← hOther.mem_iff hxb y, ← hb.mem_iff hxb y]
    simp [hIn]

end Join

------------------------------------------------------------
-- Connected Elements
------------------------------------------------------------

/- Without pairs every element is by itself. -/
theorem eqvGen_empty_iff
    {r : ι → ι → Prop}
    (hNone : ∀ x y, ¬r x y)
    {x y : ι} :
    Relation.EqvGen r x y ↔ x = y := by
  constructor
  · intro h
    induction h with
    | rel x y hPair => exact absurd hPair (hNone x y)
    | refl x => rfl
    | symm x y _ ih => exact ih.symm
    | trans x y z _ _ ih ih' => exact ih.trans ih'
  · intro hEq
    subst hEq
    exact .refl x

/- One more pair joins the classes of its two elements. -/
theorem eqvGen_insert_iff
    {r : ι → ι → Prop}
    {a b : ι}
    (x y : ι) :
    Relation.EqvGen (fun x y => (x = a ∧ y = b) ∨ r x y) x y ↔
      Relation.EqvGen r x y ∨
        (Relation.EqvGen r x a ∧ Relation.EqvGen r b y) ∨
        (Relation.EqvGen r x b ∧ Relation.EqvGen r a y) := by
  constructor
  · intro h
    induction h with
    | rel x y hxy =>
        rcases hxy with ⟨rfl, rfl⟩ | hxy
        · exact Or.inr (Or.inl ⟨.refl _, .refl _⟩)
        · exact Or.inl (.rel _ _ hxy)
    | refl x => exact Or.inl (.refl _)
    | symm x y _ ih =>
        rcases ih with h | ⟨hx, hy⟩ | ⟨hx, hy⟩
        · exact Or.inl (.symm _ _ h)
        · exact Or.inr (Or.inr ⟨.symm _ _ hy, .symm _ _ hx⟩)
        · exact Or.inr (Or.inl ⟨.symm _ _ hy, .symm _ _ hx⟩)
    | trans x y z _ _ ih ih' =>
        rcases ih with h | ⟨hx, hy⟩ | ⟨hx, hy⟩
        · rcases ih' with h' | ⟨hy', hz⟩ | ⟨hy', hz⟩
          · exact Or.inl (.trans _ _ _ h h')
          · exact Or.inr (Or.inl ⟨.trans _ _ _ h hy', hz⟩)
          · exact Or.inr (Or.inr ⟨.trans _ _ _ h hy', hz⟩)
        · rcases ih' with h' | ⟨_, hz⟩ | ⟨_, hz⟩
          · exact Or.inr (Or.inl ⟨hx, .trans _ _ _ hy h'⟩)
          · exact Or.inr (Or.inl ⟨hx, hz⟩)
          · exact Or.inl (.trans _ _ _ hx hz)
        · rcases ih' with h' | ⟨_, hz⟩ | ⟨_, hz⟩
          · exact Or.inr (Or.inr ⟨hx, .trans _ _ _ hy h'⟩)
          · exact Or.inl (.trans _ _ _ hx hz)
          · exact Or.inr (Or.inr ⟨hx, hz⟩)
  · have hOld : ∀ {x y}, Relation.EqvGen r x y →
        Relation.EqvGen
          (fun x y => (x = a ∧ y = b) ∨ r x y) x y :=
      fun h => h.mono (fun _ _ hr => Or.inr hr)
    have hPair : Relation.EqvGen
        (fun x y => (x = a ∧ y = b) ∨ r x y) a b :=
      .rel _ _ (Or.inl ⟨rfl, rfl⟩)
    intro hCase
    rcases hCase with h | ⟨hx, hy⟩ | ⟨hx, hy⟩
    · exact hOld h
    · exact .trans _ _ _ (hOld hx)
        (.trans _ _ _ hPair (hOld hy))
    · exact .trans _ _ _ (hOld hx)
        (.trans _ _ _ (.symm _ _ hPair) (hOld hy))

/- Joining two lists and adding a pair are the same. -/
theorem sameBlock_join_eqvGen_iff
    [DecidableEq ι]
    {first next first' next' : ι → Option ι}
    {r : ι → ι → Prop}
    {l m : List ι}
    {f a b : ι}
    (hAll : Listed first next)
    (hl : Cell first next l)
    (hm : Cell first next m)
    (hApart : ∀ i ∈ l, i ∉ m)
    (h : Joined first next first' next' l m f)
    (hEnds : (a ∈ l ∧ b ∈ m) ∨ (b ∈ l ∧ a ∈ m))
    (hSame : ∀ x y,
      SameBlock first x y ↔ Relation.EqvGen r x y)
    (x y : ι) :
    SameBlock first' x y ↔
      Relation.EqvGen
        (fun x y => (x = a ∧ y = b) ∨ r x y) x y := by
  rw [eqvGen_insert_iff, sameBlock_join_iff hAll hl hm hApart h]
  simp only [← hSame]
  have hLeft := hl.sameBlock x y
  have hRight := hm.sameBlock x y
  -- being in one list with `a` or `b`
  have hIn : ∀ {c : List ι} {z : ι}, Cell first next c →
      z ∈ c → (SameBlock first x z ↔ x ∈ c) ∧
        (SameBlock first z y ↔ y ∈ c) := by
    intro c z hc hz
    refine ⟨?_, (hc.mem_iff hz y).symm⟩
    rw [hc.mem_iff hz x]
    exact ⟨SameBlock.symm, SameBlock.symm⟩
  -- the pairs across the two lists
  have hAcross :
      (SameBlock first x a ∧ SameBlock first b y) ∨
          (SameBlock first x b ∧ SameBlock first a y) ↔
        (x ∈ l ∧ y ∈ m) ∨ (x ∈ m ∧ y ∈ l) := by
    rcases hEnds with ⟨ha, hb⟩ | ⟨hb, ha⟩
    · rw [(hIn hl ha).1, (hIn hl ha).2, (hIn hm hb).1,
        (hIn hm hb).2]
    · rw [(hIn hm ha).1, (hIn hm ha).2, (hIn hl hb).1,
        (hIn hl hb).2, or_comm]
  rw [hAcross]
  constructor
  · intro hCase
    rcases hCase with hOld | ⟨hx | hx, hy | hy⟩
    · exact Or.inl hOld
    · exact Or.inl (hLeft hx hy)
    · exact Or.inr (Or.inl ⟨hx, hy⟩)
    · exact Or.inr (Or.inr ⟨hx, hy⟩)
    · exact Or.inl (hRight hx hy)
  · intro hCase
    rcases hCase with hOld | ⟨hx, hy⟩ | ⟨hx, hy⟩
    · exact Or.inl hOld
    · exact Or.inr ⟨Or.inl hx, Or.inr hy⟩
    · exact Or.inr ⟨Or.inr hx, Or.inl hy⟩

/-
  Where every element has at most one parent, all those
  connected to one without a parent lead to it.
-/
theorem reaches_root
    {parent : ι → Option ι}
    {root x : ι}
    (hRoot : parent root = none)
    (h : Relation.EqvGen
      (fun t u => parent t = some u) root x) :
    Relation.ReflTransGen
      (fun t u => parent t = some u) x root := by
  have hClosed : ∀ {t u},
      Relation.EqvGen (fun t u => parent t = some u) t u →
      (Relation.ReflTransGen
          (fun t u => parent t = some u) t root ↔
        Relation.ReflTransGen
          (fun t u => parent t = some u) u root) := by
    intro t u hTU
    induction hTU with
    | rel t u hParent =>
        constructor
        · intro hReach
          rcases hReach.cases_head with rfl | ⟨v, hStep, hRest⟩
          · rw [hRoot] at hParent
            cases hParent
          · rw [hParent, Option.some.injEq] at hStep
            exact hStep ▸ hRest
        · exact Relation.ReflTransGen.head hParent
    | refl t => exact Iff.rfl
    | symm t u _ ih => exact ih.symm
    | trans t u v _ _ ih ih' => exact ih.trans ih'
  exact (hClosed h).mp .refl

end Chains
