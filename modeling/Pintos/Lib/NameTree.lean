import Mathlib.Data.List.Basic

/-! Nodes under names.  A directory binds names to nodes, and every directory but the root has a
parent.  `attach` and `detach` say when a new node and a removal keep the names coherent. -/

/-- The nodes that are there, which of them are directories, their parents, and the bindings of the
directories. -/
structure NameTree (ν κ : Type) where
  live : ν → Prop
  isdir : ν → Prop
  parent : ν → ν
  binds : ν → κ → ν → Prop

namespace NameTree

variable {ν κ : Type} {T T' : NameTree ν κ} {root : ν}

def Dir (T : NameTree ν κ) (d : ν) : Prop := T.live d ∧ T.isdir d

/-- Every binding is the only one of its node, which is there, and whose parent is the directory of
the binding. -/
structure Coherent (T : NameTree ν κ) (root : ν) : Prop where
  base : T.Dir root
  top : T.parent root = root
  target : ∀ d n s, T.Dir d → T.binds d n s → T.live s ∧ s ≠ root
  up : ∀ d n s, T.Dir d → T.binds d n s → T.isdir s → T.parent s = d
  unique : ∀ d d' n n' s, T.Dir d → T.Dir d' → T.binds d n s → T.binds d' n' s → d = d' ∧ n = n'
  named : ∀ s, T.Dir s → s ≠ root → T.Dir (T.parent s) ∧ ∃ n, T.binds (T.parent s) n s
  leaf : ∀ s, T.live s → ¬T.isdir s → T.parent s = root

namespace Coherent

theorem dir_parent (h : T.Coherent root) {s : ν} (live : T.live s) : T.Dir (T.parent s) := by
  by_cases dir : T.isdir s
  · by_cases eq : s = root
    · rw [eq, h.top]
      exact h.base
    · exact (h.named s ⟨live, dir⟩ eq).1
  · rw [h.leaf s live dir]
    exact h.base

/-- Only the nodes that are there matter. -/
theorem congr (h : T.Coherent root) (live : ∀ s, T'.live s ↔ T.live s)
    (isdir : ∀ s, T.live s → (T'.isdir s ↔ T.isdir s))
    (parent : ∀ s, T.live s → T'.parent s = T.parent s)
    (binds : ∀ d, T.live d → ∀ n s, T'.binds d n s ↔ T.binds d n s) : T'.Coherent root := by
  have old : ∀ {d}, T'.Dir d → T.Dir d := fun {d} h =>
    have alive := (live d).mp h.1
    ⟨alive, (isdir d alive).mp h.2⟩
  have new : ∀ {d}, T.Dir d → T'.Dir d := fun {d} h => ⟨(live d).mpr h.1, (isdir d h.1).mpr h.2⟩
  constructor
  · exact new h.base
  · rw [parent root h.base.1, h.top]
  · intro d n s dir bound
    obtain ⟨alive, ne⟩ := h.target d n s (old dir) ((binds d (old dir).1 n s).mp bound)
    exact ⟨(live s).mpr alive, ne⟩
  · intro d n s dir bound sub
    have bound := (binds d (old dir).1 n s).mp bound
    have alive := (h.target d n s (old dir) bound).1
    rw [parent s alive]
    exact h.up d n s (old dir) bound ((isdir s alive).mp sub)
  · intro d d' n n' s dir dir' bound bound'
    exact h.unique d d' n n' s (old dir) (old dir') ((binds d (old dir).1 n s).mp bound)
      ((binds d' (old dir').1 n' s).mp bound')
  · intro s dir ne
    obtain ⟨up, n, bound⟩ := h.named s (old dir) ne
    rw [parent s (old dir).1]
    exact ⟨new up, n, (binds _ up.1 n s).mpr bound⟩
  · intro s alive leaf
    have alive := (live s).mp alive
    rw [parent s alive]
    exact h.leaf s alive fun sub => leaf ((isdir s alive).mpr sub)

/-- A new node under a name of a directory. -/
theorem attach (h : T.Coherent root) {d new : ν} (name : κ) (dir : T.Dir d) (fresh : ¬T.live new)
    (live : ∀ s, T'.live s ↔ s = new ∨ T.live s)
    (isdir : ∀ s, T.live s → (T'.isdir s ↔ T.isdir s))
    (parent : ∀ s, T.live s → T'.parent s = T.parent s)
    (here : ∀ n s, T'.binds d n s ↔ n = name ∧ s = new ∨ T.binds d n s)
    (there : ∀ d', T.live d' → d' ≠ d → ∀ n s, T'.binds d' n s ↔ T.binds d' n s)
    (empty : T'.isdir new → ∀ n s, ¬T'.binds new n s)
    (up : T'.isdir new → T'.parent new = d) (leaf : ¬T'.isdir new → T'.parent new = root) :
    T'.Coherent root := by
  have ne_of_live : ∀ {s}, T.live s → s ≠ new := fun alive eq => fresh (eq ▸ alive)
  have keep : ∀ {d}, T.Dir d → T'.Dir d :=
    fun {d} h => ⟨(live d).mpr (.inr h.1), (isdir d h.1).mpr h.2⟩
  have binds_old : ∀ {d' n s}, T.live d' → T.binds d' n s → T'.binds d' n s := by
    intro d' n s alive bound
    by_cases eq : d' = d
    · subst eq
      exact (here n s).mpr (.inr bound)
    · exact (there d' alive eq n s).mpr bound
  -- a binding is the new one or one that was there
  have cases : ∀ {d' n s}, T'.Dir d' → T'.binds d' n s →
      (d' = d ∧ n = name ∧ s = new) ∨ (T.Dir d' ∧ T.binds d' n s) := by
    intro d' n s dir' bound
    rcases (live d').mp dir'.1 with rfl | alive
    · exact absurd bound (empty dir'.2 n s)
    · have was : T.Dir d' := ⟨alive, (isdir d' alive).mp dir'.2⟩
      by_cases eq : d' = d
      · subst eq
        rcases (here n s).mp bound with ⟨rfl, rfl⟩ | bound
        · exact .inl ⟨rfl, rfl, rfl⟩
        · exact .inr ⟨was, bound⟩
      · exact .inr ⟨was, (there d' alive eq n s).mp bound⟩
  constructor
  · exact keep h.base
  · rw [parent root h.base.1, h.top]
  · intro d' n s dir' bound
    rcases cases dir' bound with ⟨-, -, rfl⟩ | ⟨was, bound⟩
    · exact ⟨(live s).mpr (.inl rfl), (ne_of_live h.base.1).symm⟩
    · obtain ⟨alive, ne⟩ := h.target d' n s was bound
      exact ⟨(live s).mpr (.inr alive), ne⟩
  · intro d' n s dir' bound sub
    rcases cases dir' bound with ⟨rfl, -, rfl⟩ | ⟨was, bound⟩
    · exact up sub
    · have alive := (h.target d' n s was bound).1
      rw [parent s alive]
      exact h.up d' n s was bound ((isdir s alive).mp sub)
  · intro d₁ d₂ n₁ n₂ s dir₁ dir₂ bound₁ bound₂
    rcases cases dir₁ bound₁ with ⟨rfl, rfl, new₁⟩ | ⟨was₁, bound₁⟩ <;>
      rcases cases dir₂ bound₂ with ⟨rfl, rfl, new₂⟩ | ⟨was₂, bound₂⟩
    · exact ⟨rfl, rfl⟩
    · exact absurd new₁ (ne_of_live (h.target _ _ _ was₂ bound₂).1)
    · exact absurd new₂ (ne_of_live (h.target _ _ _ was₁ bound₁).1)
    · exact h.unique d₁ d₂ n₁ n₂ s was₁ was₂ bound₁ bound₂
  · intro s dir' ne
    rcases (live s).mp dir'.1 with rfl | alive
    · rw [up dir'.2]
      exact ⟨keep dir, name, (here name s).mpr (.inl ⟨rfl, rfl⟩)⟩
    · obtain ⟨above, n, bound⟩ := h.named s ⟨alive, (isdir s alive).mp dir'.2⟩ ne
      rw [parent s alive]
      exact ⟨keep above, n, binds_old above.1 bound⟩
  · intro s alive' sub
    rcases (live s).mp alive' with rfl | alive
    · exact leaf sub
    · rw [parent s alive]
      exact h.leaf s alive fun was => sub ((isdir s alive).mpr was)

/-- The removal of a node with its binding; a directory must be empty. -/
theorem detach (h : T.Coherent root) {d gone : ν} {name : κ} (dir : T.Dir d)
    (bound : T.binds d name gone) (only : ∀ s, T.binds d name s → s = gone)
    (empty : T.isdir gone → ∀ n s, ¬T.binds gone n s)
    (live : ∀ s, T'.live s ↔ s ≠ gone ∧ T.live s)
    (isdir : ∀ s, T.live s → (T'.isdir s ↔ T.isdir s))
    (parent : ∀ s, T.live s → T'.parent s = T.parent s)
    (here : ∀ n s, T'.binds d n s ↔ n ≠ name ∧ T.binds d n s)
    (there : ∀ d', T.live d' → d' ≠ d → ∀ n s, T'.binds d' n s ↔ T.binds d' n s) :
    T'.Coherent root := by
  have was : ∀ {d'}, T'.Dir d' → T.Dir d' := fun {d'} h =>
    have alive := ((live d').mp h.1).2
    ⟨alive, (isdir d' alive).mp h.2⟩
  have keep : ∀ {d'}, T.Dir d' → d' ≠ gone → T'.Dir d' :=
    fun {d'} h ne => ⟨(live d').mpr ⟨ne, h.1⟩, (isdir d' h.1).mpr h.2⟩
  -- what is still bound was bound, and is another node
  have rest : ∀ {d' n s}, T.Dir d' → T'.binds d' n s → T.binds d' n s ∧ s ≠ gone := by
    intro d' n s dir' bound'
    by_cases eq : d' = d
    · subst eq
      obtain ⟨ne, bound'⟩ := (here n s).mp bound'
      refine ⟨bound', ?_⟩
      rintro rfl
      exact ne (h.unique d' d' n name s dir dir bound' bound).2
    · have bound' := (there d' dir'.1 eq n s).mp bound'
      refine ⟨bound', ?_⟩
      rintro rfl
      exact eq (h.unique d' d n name s dir' dir bound' bound).1
  have stays : ∀ {d' n s}, T.live d' → T.binds d' n s → s ≠ gone → T'.binds d' n s := by
    intro d' n s alive bound' ne
    by_cases eq : d' = d
    · subst eq
      refine (here n s).mpr ⟨?_, bound'⟩
      rintro rfl
      exact ne (only s bound')
    · exact (there d' alive eq n s).mpr bound'
  have root_ne : root ≠ gone := ((h.target d name gone dir bound).2).symm
  constructor
  · exact keep h.base root_ne
  · rw [parent root h.base.1, h.top]
  · intro d' n s dir' bound'
    obtain ⟨bound', ne⟩ := rest (was dir') bound'
    obtain ⟨alive, other⟩ := h.target d' n s (was dir') bound'
    exact ⟨(live s).mpr ⟨ne, alive⟩, other⟩
  · intro d' n s dir' bound' sub
    obtain ⟨bound', -⟩ := rest (was dir') bound'
    have alive := (h.target d' n s (was dir') bound').1
    rw [parent s alive]
    exact h.up d' n s (was dir') bound' ((isdir s alive).mp sub)
  · intro d₁ d₂ n₁ n₂ s dir₁ dir₂ bound₁ bound₂
    exact h.unique d₁ d₂ n₁ n₂ s (was dir₁) (was dir₂) (rest (was dir₁) bound₁).1
      (rest (was dir₂) bound₂).1
  · intro s dir' ne
    obtain ⟨above, n, bound'⟩ := h.named s (was dir') ne
    rw [parent s (was dir').1]
    have above_ne : T.parent s ≠ gone := by
      intro eq
      rw [eq] at above bound'
      exact empty above.2 n s bound'
    exact ⟨keep above above_ne, n, stays above.1 bound' ((live s).mp dir'.1).1⟩
  · intro s alive' leaf
    have alive := ((live s).mp alive').2
    rw [parent s alive]
    exact h.leaf s alive fun sub => leaf ((isdir s alive).mpr sub)

end Coherent

end NameTree
