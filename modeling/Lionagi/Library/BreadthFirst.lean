import Mathlib.Data.List.Basic
import Mathlib.Order.Nat
import Mathlib.Logic.Function.Basic

/-!
# Breadth-first search

The vertices reached so far carry the length of a shortest walk from the start. The queue stays sorted
by it and spans two layers at most, so a vertex met for the first time lies one layer behind the one
whose edges are being followed. Every walk that leaves the explored part passes the queue or an edge
that is still to be followed.
-/

universe u v

namespace BreadthFirst

variable {V : Type u} {E : Type v} (step : V → E → V → Prop)

/-- The edges lead one after the other from the first vertex to the last. -/
def Walk : V → List E → V → Prop
  | s, [], t => s = t
  | s, e :: rest, t => ∃ next, step s e next ∧ Walk next rest t

variable {step}

variable (step)

/-- The edges of `current` in `rest` are still to be followed, and all edges of the queue. -/
structure Layers (start : V) (visited queue : List V) (parent : V → Option (V × E)) (depth : V → ℕ)
    (current : V) (rest : List E) : Prop where
  start_mem : start ∈ visited
  start_depth : depth start = 0
  start_parent : parent start = none
  queued : ∀ v ∈ queue, v ∈ visited
  current_mem : current ∈ visited
  sorted : queue.Pairwise fun u v ↦ depth u ≤ depth v
  behind : ∀ v ∈ queue, depth current ≤ depth v
  bound : ∀ v ∈ visited, depth v ≤ depth current + 1
  closed : ∀ u ∈ visited, ∀ e v, step u e v →
    (v ∈ visited ∧ depth v ≤ depth u + 1) ∨ u ∈ queue ∨ (u = current ∧ e ∈ rest)
  parents : ∀ v ∈ visited, v ≠ start → ∃ u e, parent v = some (u, e) ∧ u ∈ visited ∧ step u e v ∧
    depth v = depth u + 1
  minimal : ∀ v ∈ visited, ∀ edges, Walk step start edges v → depth v ≤ edges.length
  count : ∀ v ∈ visited, depth v < visited.length

variable {step}

theorem layers_start (start : V) :
    Layers step start [start] [start] (fun _ ↦ none) (fun _ ↦ 0) start [] where
  start_mem := List.mem_singleton_self start
  start_depth := rfl
  start_parent := rfl
  queued _ hv := hv
  current_mem := List.mem_singleton_self start
  sorted := List.pairwise_singleton _ start
  behind _ _ := le_rfl
  bound _ _ := Nat.zero_le _
  closed _ hu _ _ _ := .inr (.inl hu)
  parents _ hv hne := absurd (List.mem_singleton.1 hv) hne
  minimal _ _ _ _ := Nat.zero_le _
  count _ _ := Nat.zero_lt_one

namespace Layers

variable {start current : V} {visited queue : List V} {parent : V → Option (V × E)} {depth : V → ℕ}
  {rest : List E}
variable {edges : List E}

/-- A walk stays among the vertices visited, or it passes one whose edges are still to be
followed. -/
theorem walk_visited (h : Layers step start visited queue parent depth current rest) {u v : V}
    {k : ℕ} (hu : u ∈ visited) (hk : depth u ≤ k) (hwalk : Walk step u edges v) :
    (v ∈ visited ∧ depth v ≤ k + edges.length) ∨
      ∃ w, (w ∈ queue ∨ w = current ∧ rest ≠ []) ∧ depth w + 1 ≤ k + edges.length := by
  induction edges generalizing u k with
  | nil =>
    cases hwalk
    exact .inl ⟨hu, hk⟩
  | cons e edges ih =>
    obtain ⟨next, he, hwalk⟩ := hwalk
    rw [List.length_cons]
    rcases h.closed u hu e next he with ⟨hnext, hdepth⟩ | hqueue | ⟨rfl, hleft⟩
    · have hlater := ih hnext (hdepth.trans (Nat.add_le_add_right hk 1)) hwalk
      rwa [Nat.add_assoc, Nat.add_comm 1] at hlater
    · exact .inr ⟨u, .inl hqueue, by omega⟩
    · exact .inr ⟨u, .inr ⟨rfl, List.ne_nil_of_mem hleft⟩, by omega⟩

/-- The next vertex of the queue becomes the current one. -/
theorem pop {next : V} (h : Layers step start visited (next :: queue) parent depth current [])
    (hedges : ∀ e v, step next e v → e ∈ edges) :
    Layers step start visited queue parent depth next edges where
  start_mem := h.start_mem
  start_depth := h.start_depth
  start_parent := h.start_parent
  queued v hv := h.queued v (List.mem_cons_of_mem _ hv)
  current_mem := h.queued next List.mem_cons_self
  sorted := (List.pairwise_cons.1 h.sorted).2
  behind := (List.pairwise_cons.1 h.sorted).1
  bound v hv := (h.bound v hv).trans (Nat.add_le_add_right (h.behind next List.mem_cons_self) 1)
  closed u hu e v he := by
    rcases h.closed u hu e v he with hvisited | hqueue | ⟨-, hnone⟩
    · exact .inl hvisited
    · rcases List.mem_cons.1 hqueue with rfl | hqueue
      · exact .inr (.inr ⟨rfl, hedges e v he⟩)
      · exact .inr (.inl hqueue)
    · exact absurd hnone List.not_mem_nil
  parents := h.parents
  minimal := h.minimal
  count := h.count

/-- An edge that may not be followed, or leads back to a visited vertex, is passed over. -/
theorem skip {e : E} (h : Layers step start visited queue parent depth current (e :: rest))
    (hskip : ∀ v, step current e v → v ∈ visited) :
    Layers step start visited queue parent depth current rest :=
  { h with
    closed := by
      intro u hu e' v he
      rcases h.closed u hu e' v he with hvisited | hqueue | ⟨rfl, hleft⟩
      · exact .inl hvisited
      · exact .inr (.inl hqueue)
      · rcases List.mem_cons.1 hleft with rfl | hleft
        · have hv := hskip v he
          exact .inl ⟨hv, h.bound v hv⟩
        · exact .inr (.inr ⟨rfl, hleft⟩) }

/-- A vertex met for the first time lies one layer behind the current one. -/
theorem discover [DecidableEq V] {e : E} {v : V}
    (h : Layers step start visited queue parent depth current (e :: rest)) (he : step current e v)
    (honly : ∀ w, step current e w → w = v) (hnew : v ∉ visited) :
    Layers step start (v :: visited) (queue ++ [v])
      (Function.update parent v (some (current, e))) (Function.update depth v (depth current + 1))
      current rest := by
  have hne : ∀ u ∈ visited, u ≠ v := fun u hu heq ↦ hnew (heq ▸ hu)
  have hold : ∀ u ∈ visited, Function.update depth v (depth current + 1) u = depth u :=
    fun u hu ↦ Function.update_of_ne (hne u hu) _ _
  have hself : Function.update depth v (depth current + 1) v = depth current + 1 :=
    Function.update_self _ _ _
  have hcurrent := hold current h.current_mem
  refine ⟨List.mem_cons_of_mem _ h.start_mem, ?_, ?_, fun u hu ↦ ?_,
    List.mem_cons_of_mem _ h.current_mem, ?_, fun u hu ↦ ?_, fun u hu ↦ ?_, fun u hu e' w he' ↦ ?_,
    fun u hu hstart ↦ ?_, fun u hu edges hwalk ↦ ?_, fun u hu ↦ ?_⟩
  · rw [hold start h.start_mem, h.start_depth]
  · rw [Function.update_of_ne (hne start h.start_mem), h.start_parent]
  · rcases List.mem_append.1 hu with hu | hu
    · exact List.mem_cons_of_mem _ (h.queued u hu)
    · rw [List.mem_singleton.1 hu]
      exact List.mem_cons_self
  · rw [List.pairwise_append]
    refine ⟨h.sorted.imp_of_mem fun hu hw hle ↦ ?_, List.pairwise_singleton _ v, fun u hu w hw ↦ ?_⟩
    · rw [hold _ (h.queued _ hu), hold _ (h.queued _ hw)]
      exact hle
    · rw [List.mem_singleton.1 hw, hself, hold u (h.queued u hu)]
      exact h.bound u (h.queued u hu)
  · rw [hcurrent]
    rcases List.mem_append.1 hu with hu | hu
    · rw [hold u (h.queued u hu)]
      exact h.behind u hu
    · rw [List.mem_singleton.1 hu, hself]
      exact Nat.le_succ _
  · rw [hcurrent]
    rcases List.mem_cons.1 hu with rfl | hu
    · rw [hself]
    · rw [hold u hu]
      exact h.bound u hu
  · rcases List.mem_cons.1 hu with rfl | hu
    · exact .inr (.inl (List.mem_append_right _ (List.mem_singleton_self u)))
    · rcases h.closed u hu e' w he' with ⟨hw, hdepth⟩ | hqueue | ⟨rfl, hleft⟩
      · refine .inl ⟨List.mem_cons_of_mem _ hw, ?_⟩
        rw [hold u hu, hold w hw]
        exact hdepth
      · exact .inr (.inl (List.mem_append_left _ hqueue))
      · rcases List.mem_cons.1 hleft with rfl | hleft
        · rw [honly w he']
          refine .inl ⟨List.mem_cons_self, ?_⟩
          rw [hself, hcurrent]
        · exact .inr (.inr ⟨rfl, hleft⟩)
  · rcases List.mem_cons.1 hu with rfl | hu
    · refine ⟨current, e, Function.update_self _ _ _, List.mem_cons_of_mem _ h.current_mem, he, ?_⟩
      rw [hself, hcurrent]
    · obtain ⟨w, e', hparent, hw, he', hdepth⟩ := h.parents u hu hstart
      refine ⟨w, e', ?_, List.mem_cons_of_mem _ hw, he', ?_⟩
      · rw [Function.update_of_ne (hne u hu), hparent]
      · rw [hold u hu, hold w hw, hdepth]
  · rcases List.mem_cons.1 hu with rfl | hu
    · rw [hself]
      have hpast := h.walk_visited h.start_mem h.start_depth.le hwalk
      rw [Nat.zero_add] at hpast
      rcases hpast with ⟨hu, -⟩ | ⟨w, hw, hdepth⟩
      · exact absurd hu hnew
      · rcases hw with hw | ⟨rfl, -⟩
        · exact (Nat.add_le_add_right (h.behind w hw) 1).trans hdepth
        · exact hdepth
    · rw [hold u hu]
      exact h.minimal u hu edges hwalk
  · rw [List.length_cons]
    rcases List.mem_cons.1 hu with rfl | hu
    · rw [hself]
      exact Nat.succ_lt_succ (h.count current h.current_mem)
    · rw [hold u hu]
      exact (h.count u hu).trans (Nat.lt_succ_self _)

/-- With nothing left to follow, every vertex that a walk reaches has been visited. -/
theorem visited_of_walk (h : Layers step start visited [] parent depth current []) {v : V}
    (hwalk : Walk step start edges v) : v ∈ visited := by
  rcases h.walk_visited h.start_mem le_rfl hwalk with ⟨hv, -⟩ | ⟨w, hw | ⟨-, hnone⟩, -⟩
  · exact hv
  · exact absurd hw List.not_mem_nil
  · exact absurd rfl hnone

end Layers

end BreadthFirst
