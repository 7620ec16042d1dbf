import Mathlib.Data.List.Nodup

/-! Doubly linked lists whose nodes hold their own links. A list is known by the
nodes on it, in order; these rules say which links linking a node in at the end
and unlinking one may write, and what a walk along the links meets. -/

namespace FinanceTech.Library.LinkedList
open List

universe u

variable {A : Type u} {prev next prev' next' : A → Option A} {nodes front back : List A} {node other : A}

/-- Every node links to its neighbours. -/
def Threaded (prev next : A → Option A) (nodes : List A) : Prop :=
  ∀ front node back, nodes = front ++ node :: back → prev node = front.getLast? ∧ next node = back.head?

/-- The nodes of a list with its two ends. -/
structure Linked (prev next : A → Option A) (head tail : Option A) (nodes : List A) : Prop where
  head : head = nodes.head?
  tail : tail = nodes.getLast?
  threaded : Threaded prev next nodes
  distinct : nodes.Nodup

theorem Linked.empty : Linked prev next none none [] where
  head := rfl
  tail := rfl
  threaded _ _ _ split := absurd split (append_ne_nil_of_right_ne_nil _ (cons_ne_nil _ _)).symm
  distinct := nodup_nil

/-! ### What the links tell -/

section Reads

variable {head tail : Option A}

/-- Read from its tail a list is a list again. -/
theorem Linked.reverse (linked : Linked prev next head tail nodes) : Linked next prev tail head nodes.reverse where
  head := linked.tail.trans head?_reverse.symm
  tail := linked.head.trans getLast?_reverse.symm
  threaded front node back split := by
    have forwards : nodes = back.reverse ++ node :: front.reverse := by
      rw [← reverse_reverse nodes, split, reverse_append, reverse_cons, append_assoc, singleton_append]
    obtain ⟨before, after⟩ := linked.threaded _ _ _ forwards
    exact ⟨after.trans head?_reverse, before.trans getLast?_reverse⟩
  distinct := nodup_reverse.mpr linked.distinct

theorem Linked.head_prev (linked : Linked prev next head tail nodes) (first : head = some node) : prev node = none := by
  obtain ⟨rest, rfl⟩ := head?_eq_some_iff.mp (linked.head.symm.trans first)
  exact (linked.threaded [] node rest rfl).1

theorem Linked.tail_next (linked : Linked prev next head tail nodes) (last : tail = some node) : next node = none :=
  linked.reverse.head_prev last

/-- The two links of neighbours mirror each other. -/
theorem Threaded.inverse (threaded : Threaded prev next nodes) (member : node ∈ nodes) (present : other ∈ nodes) :
    next node = some other ↔ prev other = some node := by
  constructor
  · intro follows
    obtain ⟨front, back, rfl⟩ := append_of_mem member
    rw [(threaded front node back rfl).2] at follows
    obtain ⟨rest, rfl⟩ := head?_eq_some_iff.mp follows
    have split : front ++ node :: other :: rest = (front ++ [node]) ++ other :: rest := append_cons _ _ _
    rw [(threaded _ _ _ split).1, getLast?_concat]
  · intro precedes
    obtain ⟨front, back, rfl⟩ := append_of_mem present
    rw [(threaded front other back rfl).1] at precedes
    obtain ⟨rest, rfl⟩ := getLast?_eq_some_iff.mp precedes
    have split : (rest ++ [node]) ++ other :: back = rest ++ node :: other :: back := (append_cons _ _ _).symm
    exact (threaded _ _ _ split).2

/-- The node a number of links behind another. -/
def follow (next : A → Option A) : Nat → Option A → Option A
  | 0, start => start
  | count + 1, start => follow next count (start.bind next)

/-- Induction along the links: what holds of the end and moves up a link holds
of the head. -/
theorem Threaded.walk {motive : Option A → List A → Prop} (threaded : Threaded prev next nodes) (ends : motive none [])
    (moves : ∀ node rest, node ∈ nodes → next node = rest.head? → motive rest.head? rest → motive (some node) (node :: rest)) :
    motive nodes.head? nodes := by
  have within : ∀ back front, nodes = front ++ back → motive back.head? back := by
    intro back
    induction back with
    | nil => exact fun _ _ => ends
    | cons node rest ih =>
      intro front split
      have behind := ih (front ++ [node]) (split.trans (append_cons _ _ _))
      exact moves node rest (split ▸ mem_append_cons_self) (threaded front node rest split).2 behind
  exact within nodes [] rfl

/-- Following the links meets exactly the nodes, in order, and ends. -/
theorem Linked.follow_eq (linked : Linked prev next head tail nodes) (count : Nat) : follow next count head = nodes[count]? := by
  rw [linked.head]
  refine linked.threaded.walk (motive := fun start nodes => ∀ count, follow next count start = nodes[count]?) ?_ ?_ count
  · intro count
    induction count with
    | zero => rfl
    | succ count ih => exact ih
  · intro node rest _ links behind count
    cases count with
    | zero => rfl
    | succ count =>
      rw [follow, Option.bind_some, links, behind count, getElem?_cons_succ]

/-- The head of a list that loses a node. -/
theorem Linked.head_unlinked (linked : Linked prev next head tail (front ++ node :: back)) :
    (if front.getLast? = none then back.head? else head) = (front ++ back).head? := by
  rw [linked.head]
  cases front with
  | nil => rfl
  | cons first rest => rw [if_neg (by simp), cons_append, cons_append, head?_cons, head?_cons]

end Reads

/-! ### What writes keep -/

/-- A list is as good as the links of its nodes. -/
theorem Threaded.congr (threaded : Threaded prev next nodes)
    (same : ∀ node ∈ nodes, prev' node = prev node ∧ next' node = next node) : Threaded prev' next' nodes := by
  intro front node back split
  have member : node ∈ nodes := split ▸ mem_append_cons_self
  obtain ⟨before, after⟩ := threaded front node back split
  exact ⟨(same node member).1.trans before, (same node member).2.trans after⟩

/-- A node with another behind it is not the last. -/
theorem getLast?_ne {first : A} {rest : List A} (distinct : (front ++ node :: first :: rest).Nodup) :
    (front ++ node :: first :: rest).getLast? ≠ some node := by
  intro last
  rw [append_cons] at distinct last
  rw [getLast?_append_of_ne_nil _ (cons_ne_nil _ _)] at last
  exact (disjoint_of_nodup_append distinct) (mem_append_right _ mem_cons_self) (mem_of_getLast? last)

/-- A node is linked in at the end: it gets the last node as its predecessor,
and the last node gets it as its successor. -/
theorem Threaded.append [DecidableEq A] (threaded : Threaded prev next nodes) (distinct : nodes.Nodup)
    (own : prev' node = nodes.getLast? ∧ next' node = none)
    (others : ∀ other ∈ nodes, prev' other = prev other ∧
      next' other = if nodes.getLast? = some other then some node else next other) : Threaded prev' next' (nodes ++ [node]) := by
  intro front held back split
  rcases eq_nil_or_concat' back with rfl | ⟨back, last, rfl⟩
  · obtain ⟨rfl, same⟩ := append_inj' split rfl
    obtain rfl := (cons.inj same).1
    exact own
  · have parts : nodes ++ [node] = (front ++ held :: back) ++ [last] := by rw [split, append_assoc, cons_append]
    obtain ⟨rfl, same⟩ := append_inj' parts rfl
    obtain rfl := (cons.inj same).1
    obtain ⟨before, after⟩ := threaded front held back rfl
    obtain ⟨kept, linked⟩ := others held mem_append_cons_self
    refine ⟨kept.trans before, ?_⟩
    cases back with
    | nil =>
      rw [linked, getLast?_concat, if_pos rfl]
      rfl
    | cons first rest =>
      rw [linked, if_neg (getLast?_ne distinct), after]
      rfl

/-- An element of two lists in a row is in the second or in the first. -/
theorem append_split {before after : List A} (split : front ++ back = before ++ node :: after) :
    (∃ between, before = front ++ between ∧ back = between ++ node :: after) ∨
      ∃ between, front = before ++ node :: between ∧ after = between ++ back := by
  rcases append_eq_append_iff.mp split with second | ⟨between, rfl, same⟩
  · exact Or.inl second
  · cases between with
    | nil => exact Or.inl ⟨[], (append_nil _).symm.trans (append_nil _).symm, same.symm⟩
    | cons first rest =>
      obtain ⟨rfl, rfl⟩ := cons.inj same
      exact Or.inr ⟨rest, rfl, rfl⟩

/-- A node is unlinked: its neighbours get each other. -/
theorem Threaded.unlink [DecidableEq A] (threaded : Threaded prev next (front ++ node :: back))
    (distinct : (front ++ node :: back).Nodup)
    (others : ∀ other ∈ front ++ back, prev' other = (if back.head? = some other then front.getLast? else prev other) ∧
      next' other = if front.getLast? = some other then back.head? else next other) : Threaded prev' next' (front ++ back) := by
  have apart : ∀ other ∈ front, other ∉ back := fun _ ahead behind =>
    disjoint_of_nodup_append distinct ahead (mem_cons_of_mem node behind)
  intro before held after split
  obtain ⟨newPrev, newNext⟩ := others held (split ▸ mem_append_cons_self)
  rw [newPrev, newNext]
  -- The node still there comes behind the one that left, or in front of it.
  rcases append_split split with ⟨between, rfl, rfl⟩ | ⟨between, rfl, rfl⟩
  · have whole : front ++ node :: (between ++ held :: after) = (front ++ node :: between) ++ held :: after := by
      rw [append_assoc, cons_append]
    obtain ⟨oldPrev, oldNext⟩ := threaded _ _ _ whole
    have behind : front.getLast? ≠ some held := fun last => apart held (mem_of_getLast? last) mem_append_cons_self
    rw [if_neg behind, oldNext]
    refine ⟨?_, rfl⟩
    cases between with
    | nil => rw [nil_append, head?_cons, if_pos rfl, append_nil]
    | cons first rest =>
      have later : first ≠ held := by
        rintro rfl
        exact (nodup_cons.mp (nodup_cons.mp (nodup_append.mp distinct).2.1).2).1 mem_append_cons_self
      rw [cons_append, head?_cons, if_neg (later ∘ Option.some.inj), oldPrev, getLast?_append_of_ne_nil _ (cons_ne_nil _ _),
        getLast?_cons_cons, getLast?_append_of_ne_nil _ (cons_ne_nil _ _)]
  · have whole : before ++ held :: between ++ node :: back = before ++ held :: (between ++ node :: back) := append_assoc _ _ _
    obtain ⟨oldPrev, oldNext⟩ := threaded _ _ _ whole
    have ahead : back.head? ≠ some held := fun first => apart held mem_append_cons_self (mem_of_head? first)
    rw [if_neg ahead, oldPrev]
    refine ⟨rfl, ?_⟩
    cases between with
    | nil => rw [getLast?_concat, if_pos rfl, nil_append]
    | cons first rest =>
      rw [if_neg (getLast?_ne (nodup_append.mp distinct).1), oldNext]
      rfl

section Writes

variable [DecidableEq A] {head tail : Option A}

/-- A list with a node linked in at its tail. The head changes only when there
was none. -/
theorem Linked.append (linked : Linked prev next head tail nodes) (fresh : node ∉ nodes) (own : prev' node = tail ∧ next' node = none)
    (others : ∀ other ∈ nodes, prev' other = prev other ∧ next' other = if tail = some other then some node else next other) :
    Linked prev' next' (if tail = none then some node else head) (some node) (nodes ++ [node]) where
  head := by
    rw [linked.head, linked.tail]
    cases nodes with
    | nil => rfl
    | cons first rest => rw [if_neg (by simp), cons_append, head?_cons, head?_cons]
  tail := getLast?_concat.symm
  threaded := by
    rw [linked.tail] at own others
    exact linked.threaded.append linked.distinct own others
  distinct := by
    have distinct := Nodup.concat fresh linked.distinct
    rwa [concat_eq_append] at distinct

/-- A list with a node unlinked. The ends change only when it was one of them. -/
theorem Linked.unlink (linked : Linked prev next head tail (front ++ node :: back))
    (others : ∀ other ∈ front ++ back, prev' other = (if next node = some other then prev node else prev other) ∧
      next' other = if prev node = some other then next node else next other) :
    Linked prev' next' (if prev node = none then next node else head) (if next node = none then prev node else tail) (front ++ back) := by
  have backwards := linked.reverse
  rw [reverse_append, reverse_cons, append_assoc, singleton_append] at backwards
  obtain ⟨before, after⟩ := linked.threaded front node back rfl
  rw [before, after] at others ⊢
  refine ⟨linked.head_unlinked, ?_, linked.threaded.unlink linked.distinct others, ?_⟩
  · have last := backwards.head_unlinked
    rwa [getLast?_reverse, head?_reverse, ← reverse_append, head?_reverse] at last
  · exact linked.distinct.sublist ((sublist_cons_self node back).append_left front)

end Writes

end FinanceTech.Library.LinkedList
