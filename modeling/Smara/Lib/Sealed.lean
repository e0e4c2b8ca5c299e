import Mathlib.Data.List.Basic

/-! # Ideal authenticated encryption

A sealed message can be opened with the key and the associated data it was sealed with, and with no others. -/

namespace Smara.Lib.Sealed

variable {κ α μ : Type*}

structure Sealed (κ α μ : Type*) where
  key : κ
  data : α
  message : μ
  deriving DecidableEq

def opened [DecidableEq κ] [DecidableEq α] (key : κ) (data : α) (c : Sealed κ α μ) : Option μ :=
  if c.key = key ∧ c.data = data then some c.message else none

variable [DecidableEq κ] [DecidableEq α] {k k' : κ} {a : α} {m : μ} {c : Sealed κ α μ}

@[simp] theorem opened_mk : opened k a ⟨k, a, m⟩ = some m := if_pos ⟨rfl, rfl⟩

end Smara.Lib.Sealed
