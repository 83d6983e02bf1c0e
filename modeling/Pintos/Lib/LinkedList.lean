import Mathlib.Data.List.Chain
import Mathlib.Data.List.Nodup

/-! Doubly linked lists whose elements store their neighbours.  An element that is removed keeps
the neighbours it had. -/

namespace LinkedList

variable {α : Type}

structure Links (α : Type) where
  next : α → α
  prev : α → α

namespace Links

section Operations

variable [DecidableEq α]

/-- Makes `y` the successor of `x`. -/
def link (s : Links α) (x y : α) : Links α where
  next := Function.update s.next x y
  prev := Function.update s.prev y x

/-- Unlinks an element by the neighbours that it stores. -/
def remove (s : Links α) (x : α) : Links α := s.link (s.prev x) (s.next x)

/-- Links `x` in front of `y`. -/
def insert (s : Links α) (x y : α) : Links α := (s.link (s.prev y) x).link x y

/-- Links the nodes in their order. -/
def relink : List α → Links α → Links α
  | x :: y :: rest, s => relink (y :: rest) (s.link x y)
  | _, s => s

/-- The nodes from `x` up to `stop`. -/
def walk (s : Links α) (stop : α) : Nat → α → Option (List α)
  | 0, _ => none
  | fuel + 1, x =>
    if x = stop then some [] else (walk s stop fuel (s.next x)).map fun rest => x :: rest

/-- Puts the nodes between `first` and `last` in the order that `order` gives them. -/
def reorder (s : Links α) (order : List α → List α) (fuel : Nat) (first last : α) :
    Option (Links α) :=
  (s.walk last fuel (s.next first)).map fun nodes => s.relink (first :: order nodes ++ [last])

end Operations

/-- Each node stores its neighbours in the list. -/
def Linked (s : Links α) (nodes : List α) : Prop :=
  nodes.IsChain fun x y => s.next x = y ∧ s.prev y = x

section Linked

variable {s s' : Links α} {x y e : α} {before after nodes : List α}

theorem Linked.right (h : s.Linked (before ++ after)) : s.Linked after :=
  (List.isChain_append.mp h).2.1

theorem Linked.left (h : s.Linked (before ++ after)) : s.Linked before :=
  (List.isChain_append.mp h).1

/-- Where a linked list is cut, the two nodes at the cut store each other. -/
theorem Linked.at_cut (h : s.Linked (before ++ after)) (last : before.getLast? = some x)
    (first : after.head? = some y) : s.next x = y ∧ s.prev y = x :=
  (List.isChain_append.mp h).2.2 x last y first

theorem Linked.stored (h : s.Linked (before ++ e :: after)) (last : before.getLast? = some x)
    (first : after.head? = some y) : s.prev e = x ∧ s.next e = y := by
  have behind : s.Linked ((before ++ [e]) ++ after) := by
    rw [List.append_assoc]
    exact h
  exact ⟨(h.at_cut last List.head?_cons).2, (behind.at_cut List.getLast?_concat first).1⟩

/-- Nothing changes but the predecessor of the first node and the successor of the last one. -/
theorem Linked.frame (h : s.Linked nodes) (next : ∀ a ∈ nodes.dropLast, s'.next a = s.next a)
    (prev : ∀ a ∈ nodes.tail, s'.prev a = s.prev a) : s'.Linked nodes := by
  induction nodes with
  | nil => exact .nil
  | cons a nodes ih =>
    cases nodes with
    | nil => exact .singleton a
    | cons b rest =>
      obtain ⟨pair, chain⟩ := List.isChain_cons_cons.mp h
      refine List.isChain_cons_cons.mpr ⟨⟨?_, ?_⟩, ih chain (fun c mem => ?_) fun c mem => ?_⟩
      · exact (next a (by simp)).trans pair.1
      · exact (prev b (by simp)).trans pair.2
      · exact next c (by simpa using .inr mem)
      · exact prev c (List.mem_cons_of_mem b mem)

variable [DecidableEq α]

theorem link_next (s : Links α) (x y a : α) :
    (s.link x y).next a = if a = x then y else s.next a :=
  Function.update_apply ..

theorem link_prev (s : Links α) (x y a : α) :
    (s.link x y).prev a = if a = y then x else s.prev a :=
  Function.update_apply ..

theorem link_of_linked (next : s.next x = y) (prev : s.prev y = x) : s.link x y = s := by
  have next' : Function.update s.next x y = s.next := by
    rw [← next, Function.update_eq_self]
  have prev' : Function.update s.prev y x = s.prev := by
    rw [← prev, Function.update_eq_self]
  unfold link
  rw [next', prev']

/-- A link between other nodes. -/
theorem Linked.link_apart (h : s.Linked nodes) (hx : x ∉ nodes) (hy : y ∉ nodes) :
    (s.link x y).Linked nodes := by
  refine h.frame (fun a mem => ?_) fun a mem => ?_
  · rw [link_next, if_neg (ne_of_mem_of_not_mem (List.dropLast_subset _ mem) hx)]
  · rw [link_prev, if_neg (ne_of_mem_of_not_mem (List.mem_of_mem_tail mem) hy)]

/-- Joins two linked lists. -/
theorem Linked.link (left : s.Linked (before ++ [x])) (right : s.Linked (y :: after))
    (nodup : (before ++ x :: y :: after).Nodup) :
    (s.link x y).Linked (before ++ x :: y :: after) := by
  obtain ⟨-, nodup_right, apart⟩ := List.nodup_append.mp nodup
  obtain ⟨hx, hy⟩ := List.nodup_cons.mp nodup_right
  have left' : (s.link x y).Linked (before ++ [x]) := by
    refine left.frame (fun a mem => ?_) fun a mem => ?_
    · rw [List.dropLast_concat] at mem
      rw [link_next, if_neg (apart a mem x List.mem_cons_self)]
    · have ne : a ≠ y := by
        rcases List.mem_append.mp (List.mem_of_mem_tail mem) with mem | mem
        · exact apart a mem y (List.mem_cons_of_mem x List.mem_cons_self)
        · rintro rfl
          exact hx (List.mem_singleton.mp mem ▸ List.mem_cons_self)
      rw [link_prev, if_neg ne]
  have right' : (s.link x y).Linked (y :: after) := by
    refine right.frame (fun a mem => ?_) fun a mem => ?_
    · have ne : a ≠ x := ne_of_mem_of_not_mem (List.dropLast_subset _ mem) hx
      rw [link_next, if_neg ne]
    · have ne : a ≠ y := ne_of_mem_of_not_mem mem (List.nodup_cons.mp hy).1
      rw [link_prev, if_neg ne]
  rw [← List.singleton_append, ← List.append_assoc]
  refine List.isChain_append.mpr ⟨left', right', fun a last b first => ?_⟩
  rw [List.getLast?_concat, Option.mem_some_iff] at last
  rw [List.head?_cons, Option.mem_some_iff] at first
  subst last first
  rw [link_next, if_pos rfl, link_prev, if_pos rfl]
  exact ⟨rfl, rfl⟩

/-- The nodes at a cut are linked already. -/
theorem Linked.link_at_cut (h : s.Linked (before ++ after)) (last : before.getLast? = some x)
    (first : after.head? = some y) : s.link x y = s :=
  link_of_linked (h.at_cut last first).1 (h.at_cut last first).2

theorem Linked.remove (h : s.Linked (before ++ e :: after)) (last : before.getLast? = some x)
    (first : after.head? = some y) (nodup : (before ++ e :: after).Nodup) :
    (s.remove e).Linked (before ++ after) := by
  obtain ⟨prev, next⟩ := h.stored last first
  obtain ⟨front, rfl⟩ := List.getLast?_eq_some_iff.mp last
  obtain ⟨back, rfl⟩ := List.head?_eq_some_iff.mp first
  unfold Links.remove
  rw [prev, next, List.append_assoc]
  have behind : s.Linked ([e] ++ y :: back) := h.right
  refine Linked.link h.left behind.right ?_
  rw [← List.singleton_append, ← List.append_assoc]
  exact nodup.sublist ((List.sublist_cons_self e _).append_left _)

theorem relink_next (a : α) (s : Links α) (out : a ∉ nodes.dropLast) :
    (s.relink nodes).next a = s.next a := by
  induction nodes generalizing s with
  | nil => rfl
  | cons x nodes ih =>
    cases nodes with
    | nil => rfl
    | cons y rest =>
      simp only [List.dropLast_cons_cons, List.mem_cons, not_or] at out
      unfold relink
      rw [ih _ out.2, link_next, if_neg out.1]

theorem relink_prev (a : α) (s : Links α) (out : a ∉ nodes.tail) :
    (s.relink nodes).prev a = s.prev a := by
  induction nodes generalizing s with
  | nil => rfl
  | cons x nodes ih =>
    cases nodes with
    | nil => rfl
    | cons y rest =>
      obtain ⟨ne, out⟩ := not_or.mp (List.mem_cons.not.mp out)
      unfold relink
      rw [ih _ out, link_prev, if_neg ne]

theorem relink_linked (s : Links α) (nodup : nodes.Nodup) : (s.relink nodes).Linked nodes := by
  induction nodes generalizing s with
  | nil => exact .nil
  | cons x nodes ih =>
    cases nodes with
    | nil => exact .singleton x
    | cons y rest =>
      obtain ⟨hx, nodup⟩ := List.nodup_cons.mp nodup
      unfold relink
      refine List.isChain_cons_cons.mpr ⟨⟨?_, ?_⟩, ih _ nodup⟩
      · rw [relink_next _ _ fun mem => hx (List.dropLast_subset _ mem), link_next, if_pos rfl]
      · rw [relink_prev _ _ (List.nodup_cons.mp nodup).1, link_prev, if_pos rfl]

theorem walk_linked {stop : α} {fuel : Nat} (h : s.Linked (x :: nodes ++ [stop]))
    (out : stop ∉ nodes) (enough : nodes.length < fuel) :
    s.walk stop fuel (s.next x) = some nodes := by
  induction nodes generalizing x fuel with
  | nil =>
    obtain ⟨fuel, rfl⟩ := Nat.exists_eq_succ_of_ne_zero (Nat.ne_zero_of_lt enough)
    rw [(List.isChain_cons_cons.mp h).1.1]
    exact if_pos rfl
  | cons y nodes ih =>
    obtain ⟨fuel, rfl⟩ := Nat.exists_eq_succ_of_ne_zero (Nat.ne_zero_of_lt enough)
    obtain ⟨ne, out⟩ := not_or.mp (List.mem_cons.not.mp out)
    obtain ⟨pair, chain⟩ := List.isChain_cons_cons.mp h
    rw [pair.1]
    unfold walk
    rw [if_neg (Ne.symm ne), ih chain out (Nat.lt_of_succ_lt_succ enough)]
    rfl

theorem walk_mono {stop : α} {fuel : Nat} (run : s.walk stop fuel x = some nodes) :
    s.walk stop (fuel + 1) x = some nodes := by
  induction fuel generalizing x nodes with
  | zero => cases run
  | succ fuel ih =>
    unfold walk at run ⊢
    split at run
    next here => rw [if_pos here, run]
    next there =>
      obtain ⟨rest, walked, same⟩ := Option.map_eq_some_iff.mp run
      rw [if_neg there, ih walked, ← same]
      rfl

theorem reorder_mono {order : List α → List α} {first last : α} {fuel : Nat}
    (run : s.reorder order fuel first last = some s') :
    s.reorder order (fuel + 1) first last = some s' := by
  obtain ⟨nodes, walked, same⟩ := Option.map_eq_some_iff.mp run
  unfold Links.reorder
  rw [walk_mono walked, ← same]
  rfl

/-- Reordering leaves the stored neighbours of a node that is not in the list. -/
theorem Linked.reorder {order : List α → List α} {first last : α} {fuel : Nat}
    (h : s.Linked (first :: nodes ++ [last])) (nodup : (first :: nodes ++ [last]).Nodup)
    (perm : (order nodes).Perm nodes) (enough : nodes.length < fuel) :
    ∃ s', s.reorder order fuel first last = some s' ∧
      s'.Linked (first :: order nodes ++ [last]) ∧
      ∀ a, a ∉ first :: nodes ++ [last] → s'.next a = s.next a ∧ s'.prev a = s.prev a := by
  have perm' : (first :: order nodes ++ [last]).Perm (first :: nodes ++ [last]) :=
    (perm.cons first).append_right [last]
  have out : last ∉ nodes := by
    intro mem
    refine (List.nodup_append.mp nodup).2.2 last (List.mem_cons_of_mem first mem) last ?_ rfl
    exact List.mem_singleton_self last
  refine ⟨s.relink (first :: order nodes ++ [last]), ?_, relink_linked s ?_, fun a out => ?_⟩
  · unfold Links.reorder
    rw [walk_linked h out enough]
    rfl
  · exact perm'.nodup_iff.mpr nodup
  · have away : a ∉ first :: order nodes ++ [last] := fun mem => out (perm'.subset mem)
    exact ⟨relink_next a s fun mem => away (List.dropLast_subset _ mem),
      relink_prev a s fun mem => away (List.mem_of_mem_tail mem)⟩

end Linked

end Links

end LinkedList
