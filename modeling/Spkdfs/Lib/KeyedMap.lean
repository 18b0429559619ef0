import Mathlib.Logic.Basic

/-!
# Maps whose values know their key

A store that is only ever written as `put (key v) v` keeps every value under
its own key.  `KeyedMap` carries that fact as a field, so a reader never has to
prove it again: a value that `get k` answers has key `k`.

Two maps are equal when they answer every key alike (`KeyedMap.ext`).
-/

/-- A map from `K` to `V` in which every value is stored under its own key. -/
structure KeyedMap (K V : Type*) (key : V → K) where
  get : K → Option V
  keyed : ∀ {k v}, get k = some v → key v = k

namespace KeyedMap

variable {K V : Type*} {key : V → K}

@[ext] theorem ext {m n : KeyedMap K V key} (h : ∀ k, m.get k = n.get k) : m = n := by
  cases m
  cases n
  congr
  exact funext h

/-- The map with no entry. -/
def empty : KeyedMap K V key where
  get := fun _ => none
  keyed := by simp

@[simp] theorem get_empty (k : K) : (empty : KeyedMap K V key).get k = none := rfl

variable [DecidableEq K]

/-- Write `v` under its own key. -/
def put (m : KeyedMap K V key) (v : V) : KeyedMap K V key where
  get := fun k => if k = key v then some v else m.get k
  keyed := by
    intro k w h
    split at h
    · rename_i hk
      rw [hk, ← Option.some.inj h]
    · exact m.keyed h

theorem get_put (m : KeyedMap K V key) (v : V) (k : K) :
    (m.put v).get k = if k = key v then some v else m.get k := rfl

@[simp] theorem get_put_self (m : KeyedMap K V key) (v : V) :
    (m.put v).get (key v) = some v := by
  rw [get_put, if_pos rfl]

theorem get_put_ne (m : KeyedMap K V key) {v : V} {k : K} (h : k ≠ key v) :
    (m.put v).get k = m.get k := by
  rw [get_put, if_neg h]

end KeyedMap
