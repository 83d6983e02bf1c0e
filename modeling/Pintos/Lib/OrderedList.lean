import Mathlib.Data.List.Sort

/-! Lists kept by a strict order on keys, greatest key first: ordered insertion and stable sorting.
An ascending order is the descending one of the opposite key. -/

namespace OrderedList

variable {α : Type} (key : α → Int)

def Above (x y : α) : Prop := key x > key y

instance : DecidableRel (Above key) := fun x y => inferInstanceAs (Decidable (key x > key y))

def NotBelow (x y : α) : Prop := ¬Above key y x

instance : DecidableRel (NotBelow key) := fun x y => inferInstanceAs (Decidable (¬Above key y x))

/-- Puts `x` before the first element that it is above. -/
def insertOrdered (x : α) (list : List α) : List α := list.orderedInsert (Above key) x

/-- Sorts by the order; elements with equal keys keep their order. -/
def sortOrdered (list : List α) : List α := list.insertionSort (NotBelow key)

theorem insertOrdered_perm (x : α) (list : List α) :
    (insertOrdered key x list).Perm (x :: list) :=
  List.perm_orderedInsert _ x list

theorem sortOrdered_perm (list : List α) : (sortOrdered key list).Perm list :=
  List.perm_insertionSort _ list

@[simp] theorem mem_insertOrdered {x y : α} {list : List α} :
    y ∈ insertOrdered key x list ↔ y = x ∨ y ∈ list :=
  List.mem_orderedInsert _

@[simp] theorem mem_sortOrdered {x : α} {list : List α} : x ∈ sortOrdered key list ↔ x ∈ list :=
  List.mem_insertionSort _

/-- No element is below one after it. -/
def Ordered (list : List α) : Prop := list.Pairwise (NotBelow key)

instance (list : List α) : Decidable (Ordered key list) :=
  inferInstanceAs (Decidable (list.Pairwise (NotBelow key)))

theorem notBelow_iff {x y : α} : NotBelow key x y ↔ key y ≤ key x := not_lt

theorem ordered_congr {key' : α → Int} {list : List α} (same : ∀ x ∈ list, key' x = key x) :
    Ordered key' list ↔ Ordered key list := by
  unfold Ordered
  refine List.Pairwise.iff_of_mem fun hx hy => ?_
  rw [notBelow_iff, notBelow_iff, same _ hx, same _ hy]

theorem sortOrdered_ordered (list : List α) : Ordered key (sortOrdered key list) := by
  have total : Std.Total (NotBelow key) := ⟨fun x y => by
    rw [notBelow_iff, notBelow_iff]
    exact le_total _ _⟩
  have trans : IsTrans α (NotBelow key) := ⟨fun x y z hxy hyz => by
    rw [notBelow_iff] at hxy hyz ⊢
    exact hyz.trans hxy⟩
  exact List.pairwise_insertionSort _ list

/-- An element is inserted after those that it is not above. -/
theorem Ordered.insertOrdered {key : α → Int} {list : List α} (ordered : Ordered key list) (x : α) :
    Ordered key (insertOrdered key x list) := by
  induction list with
  | nil => exact List.pairwise_singleton _ x
  | cons y list ih =>
    obtain ⟨high, rest⟩ := List.pairwise_cons.mp ordered
    unfold OrderedList.insertOrdered
    rw [List.orderedInsert_cons]
    split
    next above =>
      refine List.pairwise_cons.mpr ⟨fun z mem => ?_, ordered⟩
      rw [notBelow_iff]
      rcases List.mem_cons.mp mem with rfl | mem
      · exact le_of_lt above
      · exact ((notBelow_iff key).mp (high z mem)).trans (le_of_lt above)
    next notAbove =>
      refine List.pairwise_cons.mpr ⟨fun z mem => ?_, ih rest⟩
      rcases (mem_insertOrdered key).mp mem with rfl | mem
      · exact notAbove
      · exact high z mem

theorem Ordered.sortOrdered_eq {key : α → Int} {list : List α} (ordered : Ordered key list) :
    sortOrdered key list = list :=
  ordered.insertionSort_eq

theorem sortOrdered_map {β : Type} (f : β → α) (list : List β) :
    sortOrdered key (list.map f) = (sortOrdered (fun x => key (f x)) list).map f :=
  (List.map_insertionSort (NotBelow fun x => key (f x)) (NotBelow key) f list
    fun _ _ _ _ => Iff.rfl).symm

/-- The first element stays first exactly when none is above it. -/
theorem sortOrdered_head?_iff {x : α} {list : List α} :
    (sortOrdered key (x :: list)).head? = some x ↔ ∀ y ∈ list, key y ≤ key x := by
  constructor
  · intro first y mem
    obtain ⟨rest, sorted⟩ := List.head?_eq_some_iff.mp first
    have ordered := sortOrdered_ordered key (x :: list)
    have mem' : y ∈ sortOrdered key (x :: list) :=
      (mem_sortOrdered key).mpr (List.mem_cons_of_mem x mem)
    rw [sorted] at ordered mem'
    rcases List.mem_cons.mp mem' with rfl | behind
    · exact le_refl _
    · exact (notBelow_iff key).mp ((List.pairwise_cons.mp ordered).1 y behind)
  · intro high
    have first : ∀ y ∈ list, NotBelow key x y := fun y mem => (notBelow_iff key).mpr (high y mem)
    unfold sortOrdered
    rw [List.insertionSort_cons_of_forall_rel _ first]
    rfl

/-- Sorts and takes the first element out. -/
def popSorted (list : List α) : Option (α × List α) :=
  match sortOrdered key list with
  | [] => none
  | x :: rest => some (x, rest)

theorem popSorted_eq_none {list : List α} : popSorted key list = none ↔ list = [] := by
  have perm := sortOrdered_perm key list
  unfold popSorted
  split
  next sorted =>
    rw [sorted] at perm
    exact ⟨fun _ => perm.symm.eq_nil, fun _ => rfl⟩
  next x rest sorted =>
    rw [sorted] at perm
    refine ⟨fun h => (nomatch h), ?_⟩
    rintro rfl
    exact absurd perm.eq_nil (by simp)

/-- The first element of a list that is in order comes first. -/
theorem Ordered.popSorted_cons {key : α → Int} {x : α} {list : List α}
    (ordered : Ordered key (x :: list)) : popSorted key (x :: list) = some (x, list) := by
  rw [popSorted, ordered.sortOrdered_eq]

theorem popSorted_perm {list rest : List α} {x : α} (h : popSorted key list = some (x, rest)) :
    (x :: rest).Perm list := by
  have perm := sortOrdered_perm key list
  unfold popSorted at h
  split at h
  next => exact nomatch h
  next y others sorted =>
    obtain ⟨rfl, rfl⟩ := Prod.mk.inj (Option.some.inj h)
    rw [sorted] at perm
    exact perm

end OrderedList
