import Lionagi.Library.SortedTable
import Mathlib.Logic.Relation
import Mathlib.Tactic.Linarith

/-!
# Forests given by parent links, and their children index

A partial function sends a node to its parent. Walking up is iteration of that function; walking
down is a breadth-first traversal of an index that lists the children of every parent. Where the
index lists exactly the links, the nodes the traversal collects from a root are the nodes whose
walk up meets that root.
-/

universe u

namespace ParentForest

/-! ## Walking up -/

section Climbing

variable {κ : Type u} (parent : κ → Option κ)

/-- The node that `n` parent links lead to. -/
def climb : ℕ → κ → Option κ
  | 0, k => some k
  | n + 1, k => (parent k).bind (climb n)

/-- Some number of parent links lead from `k` to `a`. -/
def Meets (k a : κ) : Prop := ∃ n, climb parent n k = some a

variable {parent}

theorem climb_succ_eq_some_iff {n : ℕ} {k a : κ} :
    climb parent (n + 1) k = some a ↔ ∃ p, parent k = some p ∧ climb parent n p = some a := by
  simp [climb, Option.bind_eq_some_iff]

theorem Meets.refl (k : κ) : Meets parent k k := ⟨0, rfl⟩

theorem Meets.head {k p a : κ} (hlink : parent k = some p) (h : Meets parent p a) :
    Meets parent k a := by
  obtain ⟨n, hn⟩ := h
  exact ⟨n + 1, climb_succ_eq_some_iff.2 ⟨p, hlink, hn⟩⟩

end Climbing

section Descending

variable {parent : ℕ → Option ℕ}

/-- When parents are smaller than their children, a node is at least the length of any walk. -/
theorem climb_add_le (hlt : ∀ k p, parent k = some p → p < k) {n k a : ℕ}
    (h : climb parent n k = some a) : a + n ≤ k := by
  induction n generalizing k with
  | zero =>
    cases h
    exact le_rfl
  | succ n ih =>
    obtain ⟨p, hlink, hp⟩ := climb_succ_eq_some_iff.1 h
    have hp' := ih hp
    have hpk := hlt k p hlink
    omega

end Descending

/-! ## Walking down -/

section Traversal

variable {κ : Type u} [LinearOrder κ]

/-- The children an index lists under `k`. -/
def childrenOf (index : List (κ × List κ)) (k : κ) : List κ :=
  ((SortedTable.lookup Prod.fst k index).map Prod.snd).getD []

/-- How many children are listed under parents not visited yet. -/
def remaining (index : List (κ × List κ)) (visited : List κ) : ℕ :=
  (index.map fun entry ↦ if entry.1 ∈ visited then 0 else entry.2.length).sum

theorem remaining_cons_le (index : List (κ × List κ)) (k : κ) (visited : List κ) :
    remaining index (k :: visited) ≤ remaining index visited := by
  induction index with
  | nil => exact le_rfl
  | cons entry index ih =>
    have hentry : (if entry.1 ∈ k :: visited then 0 else entry.2.length) ≤
        (if entry.1 ∈ visited then 0 else entry.2.length) := by
      split_ifs <;> simp_all
    simp only [remaining, List.map_cons, List.sum_cons] at *
    omega

theorem remaining_visit {index : List (κ × List κ)} {entry : κ × List κ} (hmem : entry ∈ index)
    {visited : List κ} (hfresh : entry.1 ∉ visited) :
    remaining index (entry.1 :: visited) + entry.2.length ≤ remaining index visited := by
  induction index with
  | nil => cases hmem
  | cons head index ih =>
    have hle := remaining_cons_le index entry.1 visited
    simp only [remaining, List.map_cons, List.sum_cons] at ih hle ⊢
    rcases List.mem_cons.1 hmem with rfl | hmem
    · simp only [List.mem_cons_self, if_true, if_neg hfresh]
      omega
    · have hih := ih hmem
      have hhead : (if head.1 ∈ entry.1 :: visited then 0 else head.2.length) ≤
          (if head.1 ∈ visited then 0 else head.2.length) := by
        split_ifs <;> simp_all
      omega

theorem remaining_childrenOf (index : List (κ × List κ)) {k : κ} {visited : List κ}
    (hfresh : k ∉ visited) :
    remaining index (k :: visited) + (childrenOf index k).length ≤ remaining index visited := by
  cases h : SortedTable.lookup Prod.fst k index with
  | none => simpa [childrenOf, h] using remaining_cons_le index k visited
  | some entry =>
    have hkey : entry.1 = k := SortedTable.key_of_lookup h
    have hvisit := remaining_visit (SortedTable.mem_of_lookup h) (hkey ▸ hfresh)
    simpa [childrenOf, h, hkey] using hvisit

/-- The nodes a breadth-first traversal visits, in the order in which it visits them. -/
def collect (index : List (κ × List κ)) : List κ → List κ → List κ
  | [], _ => []
  | k :: queue, visited =>
    if k ∈ visited then collect index queue visited
    else k :: collect index (queue ++ childrenOf index k) (k :: visited)
termination_by queue visited => remaining index visited + queue.length
decreasing_by
  · simp
  · next hfresh =>
    have hle := remaining_childrenOf index hfresh
    simp only [List.length_append, List.length_cons]
    omega

variable {index : List (κ × List κ)}

/-- Some number of listed links lead down from `a` to `k`. -/
def Reaches (index : List (κ × List κ)) : κ → κ → Prop :=
  Relation.ReflTransGen fun a k ↦ k ∈ childrenOf index a

theorem reaches_of_mem_collect {queue visited : List κ} {k : κ}
    (h : k ∈ collect index queue visited) : ∃ a ∈ queue, Reaches index a k := by
  fun_induction collect index queue visited with
  | case1 => cases h
  | case2 a queue visited hvisited ih =>
    obtain ⟨b, hb, hreach⟩ := ih h
    exact ⟨b, List.mem_cons_of_mem a hb, hreach⟩
  | case3 a queue visited hfresh ih =>
    rcases List.mem_cons.1 h with rfl | h
    · exact ⟨k, List.mem_cons_self, Relation.ReflTransGen.refl⟩
    · obtain ⟨b, hb, hreach⟩ := ih h
      rcases List.mem_append.1 hb with hb | hb
      · exact ⟨b, List.mem_cons_of_mem a hb, hreach⟩
      · exact ⟨a, List.mem_cons_self, Relation.ReflTransGen.head hb hreach⟩

theorem not_mem_visited_of_mem_collect {queue visited : List κ} {k : κ}
    (h : k ∈ collect index queue visited) : k ∉ visited := by
  fun_induction collect index queue visited with
  | case1 => cases h
  | case2 a queue visited hvisited ih => exact ih h
  | case3 a queue visited hfresh ih =>
    rcases List.mem_cons.1 h with rfl | h
    · exact hfresh
    · exact fun hk ↦ ih h (List.mem_cons_of_mem a hk)

theorem nodup_collect (index : List (κ × List κ)) (queue visited : List κ) :
    (collect index queue visited).Nodup := by
  fun_induction collect index queue visited with
  | case1 => exact List.nodup_nil
  | case2 a queue visited hvisited ih => exact ih
  | case3 a queue visited hfresh ih =>
    apply List.nodup_cons.2
    refine ⟨?_, ih⟩
    intro h
    exact not_mem_visited_of_mem_collect h List.mem_cons_self

/-- Visited and collected nodes are closed under the index once the queue has been worked off,
provided that every child of a visited node was visited or queued. -/
theorem closed_collect {queue visited : List κ}
    (hinv : ∀ a ∈ visited, ∀ k ∈ childrenOf index a, k ∈ visited ∨ k ∈ queue) :
    (∀ a ∈ queue, a ∈ visited ∨ a ∈ collect index queue visited) ∧
      ∀ a, a ∈ visited ∨ a ∈ collect index queue visited → ∀ k ∈ childrenOf index a,
        k ∈ visited ∨ k ∈ collect index queue visited := by
  fun_induction collect index queue visited with
  | case1 visited => simpa using hinv
  | case2 a queue visited hvisited ih =>
    have hinv' : ∀ b ∈ visited, ∀ k ∈ childrenOf index b, k ∈ visited ∨ k ∈ queue := by
      intro b hb k hk
      rcases hinv b hb k hk with h | h
      · exact Or.inl h
      · rcases List.mem_cons.1 h with rfl | h
        · exact Or.inl hvisited
        · exact Or.inr h
    obtain ⟨hqueue, hclosed⟩ := ih hinv'
    refine ⟨?_, hclosed⟩
    intro b hb
    rcases List.mem_cons.1 hb with rfl | hb
    · exact Or.inl hvisited
    · exact hqueue b hb
  | case3 a queue visited hfresh ih =>
    have hinv' : ∀ b ∈ a :: visited, ∀ k ∈ childrenOf index b,
        k ∈ a :: visited ∨ k ∈ queue ++ childrenOf index a := by
      intro b hb k hk
      rcases List.mem_cons.1 hb with rfl | hb
      · exact Or.inr (List.mem_append_right _ hk)
      · rcases hinv b hb k hk with h | h
        · exact Or.inl (List.mem_cons_of_mem a h)
        · rcases List.mem_cons.1 h with rfl | h
          · exact Or.inl List.mem_cons_self
          · exact Or.inr (List.mem_append_left _ h)
    obtain ⟨hqueue, hclosed⟩ := ih hinv'
    have hmove : ∀ b, b ∈ a :: visited ∨ b ∈ collect index (queue ++ childrenOf index a) (a :: visited)
        ↔ b ∈ visited ∨ b ∈ a :: collect index (queue ++ childrenOf index a) (a :: visited) := by
      intro b
      simp only [List.mem_cons]
      tauto
    constructor
    · intro b hb
      rcases List.mem_cons.1 hb with rfl | hb
      · exact Or.inr List.mem_cons_self
      · exact (hmove b).1 (hqueue b (List.mem_append_left _ hb))
    · intro b hb k hk
      exact (hmove k).1 (hclosed b ((hmove b).2 hb) k hk)

/-- From an empty visited set the traversal collects exactly what its root reaches. -/
theorem mem_collect_iff {a k : κ} : k ∈ collect index [a] [] ↔ Reaches index a k := by
  constructor
  · intro h
    obtain ⟨b, hb, hreach⟩ := reaches_of_mem_collect h
    rw [List.mem_singleton] at hb
    rwa [hb] at hreach
  · intro h
    obtain ⟨hqueue, hclosed⟩ := @closed_collect _ _ index [a] [] (by simp)
    induction h with
    | refl => simpa using hqueue a List.mem_cons_self
    | tail _ hlink ih => simpa using hclosed _ (Or.inr ih) _ hlink

/-- The index lists exactly the parent links. -/
def Lists (index : List (κ × List κ)) (parent : κ → Option κ) : Prop :=
  ∀ a k, k ∈ childrenOf index a ↔ parent k = some a

theorem Lists.reaches_iff_meets {parent : κ → Option κ} (h : Lists index parent) {a k : κ} :
    Reaches index a k ↔ Meets parent k a := by
  constructor
  · intro hreach
    induction hreach with
    | refl => exact Meets.refl a
    | tail _ hlink ih => exact ih.head ((h _ _).1 hlink)
  · rintro ⟨n, hn⟩
    induction n generalizing k with
    | zero =>
      cases hn
      exact Relation.ReflTransGen.refl
    | succ n ih =>
      obtain ⟨p, hlink, hp⟩ := climb_succ_eq_some_iff.1 hn
      exact (ih hp).tail ((h _ _).2 hlink)

theorem Lists.mem_collect_iff_meets {parent : κ → Option κ} (h : Lists index parent) {a k : κ} :
    k ∈ collect index [a] [] ↔ Meets parent k a :=
  mem_collect_iff.trans h.reaches_iff_meets

end Traversal

end ParentForest
