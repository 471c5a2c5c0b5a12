import Mathlib.Data.Finset.Erase
import Mathlib.Data.Finset.Insert
import Mathlib.Logic.Function.Basic
import Mathlib.Tactic.Common

/-
  Pools of records that are allocated and freed by address.

  A pool knows its live records, every address it has given
  out and every address that was freed without being live.
  Where the next record goes is up to an allocator, which
  may look at the whole pool and never picks a live address.

  Main declarations:
    * `Pool`, `Allocator`
    * `Pool.alloc`, `Pool.write`, `Pool.free`
    * `Pool.Grows`
-/

structure Pool (β : Type) where
  live : Finset Nat
  content : Nat → β
  -- in the order of the allocations
  allocated : List Nat
  badFrees : List Nat

/- A choice of addresses for new records. -/
structure Allocator (β : Type) where
  next : Pool β → Nat
  fresh : ∀ pool, next pool ∉ pool.live

namespace Pool

variable {β : Type}

/- Allocate a record: the pool with it, and its address. -/
def alloc
    (pool : Pool β)
    (allocator : Allocator β)
    (value : β) :
    Pool β × Nat :=
  let a := allocator.next pool
  ({ pool with
      live := insert a pool.live
      content := Function.update pool.content a value
      allocated := pool.allocated ++ [a] }, a)

/- Store in a record. -/
def write
    (pool : Pool β)
    (a : Nat)
    (value : β) :
    Pool β :=
  { pool with content := Function.update pool.content a value }

/- Free a record; one that is not live is a bad free. -/
def free
    (pool : Pool β)
    (a : Nat) :
    Pool β :=
  if a ∈ pool.live then
    { pool with live := pool.live.erase a }
  else
    { pool with badFrees := pool.badFrees ++ [a] }

/-
  The second pool comes from the first by allocations and
  writes to new records only.
-/
structure Grows
    (pool pool' : Pool β) : Prop where
  live : pool.live ⊆ pool'.live
  content : ∀ a ∈ pool.live,
    pool'.content a = pool.content a
  allocated : ∃ fresh,
    pool'.allocated = pool.allocated ++ fresh ∧
      ∀ a ∈ fresh, a ∈ pool'.live
  badFrees : pool'.badFrees = pool.badFrees

theorem Grows.refl
    (pool : Pool β) :
    pool.Grows pool where
  live := fun _ ha => ha
  content := fun _ _ => rfl
  allocated := ⟨[], by simp⟩
  badFrees := rfl

theorem Grows.trans
    {p q r : Pool β}
    (h1 : p.Grows q)
    (h2 : q.Grows r) :
    p.Grows r := by
  rcases h1.allocated with ⟨new1, hNew1, hLive1⟩
  rcases h2.allocated with ⟨new2, hNew2, hLive2⟩
  constructor
  · exact h1.live.trans h2.live
  · intro a ha
    rw [h2.content a (h1.live ha), h1.content a ha]
  · refine ⟨new1 ++ new2, ?_, ?_⟩
    · rw [hNew2, hNew1, List.append_assoc]
    · intro a ha
      rcases List.mem_append.mp ha with ha | ha
      · exact h2.live (hLive1 a ha)
      · exact hLive2 a ha
  · rw [h2.badFrees, h1.badFrees]

/- A record that is allocated and filled at once. -/
structure Filled
    (pool pool' : Pool β)
    (a : Nat)
    (value : β) : Prop where
  grows : pool.Grows pool'
  allocated : pool'.allocated = pool.allocated ++ [a]
  mem : a ∈ pool'.live
  content : pool'.content a = value

theorem filled_write_alloc
    (pool : Pool β)
    (allocator : Allocator β)
    (value value' : β) :
    pool.Filled
      ((pool.alloc allocator value).1.write
        (pool.alloc allocator value).2 value')
      (pool.alloc allocator value).2 value' := by
  have hFresh := allocator.fresh pool
  constructor
  · constructor
    · exact Finset.subset_insert _ _
    · intro a ha
      have hNe : a ≠ allocator.next pool :=
        fun hEq => hFresh (hEq ▸ ha)
      simp [alloc, write, hNe]
    · refine ⟨[allocator.next pool], rfl, ?_⟩
      simp [alloc, write]
    · rfl
  · rfl
  · simp [alloc, write]
  · simp [write]

end Pool
