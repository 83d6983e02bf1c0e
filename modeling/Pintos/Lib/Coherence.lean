import Mathlib.Logic.Function.Basic

/-! Caches of a table that changes: what a cache holds for a key may be an older value of it. -/

namespace Caching

variable {κ ν μ : Type}

/-- Whatever the cache holds is an older version of what the table has. -/
def Coherent (older : κ → ν → μ → Prop) (cache : κ → Option ν) (table : κ → μ) : Prop :=
  ∀ k c, cache k = some c → older k c (table k)

variable {older older' : κ → ν → μ → Prop} {cache : κ → Option ν} {table table' : κ → μ}

theorem Coherent.empty : Coherent older (fun _ => none) table := by
  intro k c held
  cases held

/-- The table may change where the cache holds nothing, or where the new value still is a later
version of what it holds. -/
theorem Coherent.later (coherent : Coherent older cache table)
    (keep : ∀ k c, cache k = some c → older k c (table k) → older' k c (table' k)) :
    Coherent older' cache table' :=
  fun k c held => keep k c held (coherent k c held)

variable [DecidableEq κ]

theorem Coherent.forget (coherent : Coherent older cache table) (k : κ) :
    Coherent older (Function.update cache k none) table := by
  intro j c held
  rw [Function.update_apply] at held
  split at held
  · cases held
  · exact coherent j c held

theorem Coherent.fill (coherent : Coherent older cache table) {k : κ} {c : ν}
    (new : older k c (table k)) : Coherent older (Function.update cache k (some c)) table := by
  intro j c' held
  rw [Function.update_apply] at held
  split at held
  next eq =>
    cases held
    exact eq ▸ new
  next => exact coherent j c' held

end Caching
