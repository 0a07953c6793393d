import Mathlib.Data.List.Count
import Mathlib.Logic.Function.Basic
import Mathlib.Logic.Relation

/-!
# Depth-first search with three colours

A vertex is grey while the search is below it and black once everything below it has been searched. The
search stops at an edge into a grey vertex. On a table that is closed under edges it never faults, and
it runs to its end if and only if no vertex lies on a cycle.
-/

universe u v w

namespace DepthFirst

open Relation

inductive Color where
  | white
  | grey
  | black
deriving DecidableEq, Repr

/-- The colours of the known vertices. -/
abbrev Coloring (V : Type u) := V → Option Color

variable {V : Type u} {E : Type v} {ε : Type w}

section Search

variable [DecidableEq V] (fault : ε) (out : V → Except ε (List E)) (tail : E → Except ε V)

/-- Visit the tails of a list of edges, up to the first visit that fails. -/
def visitEdges (visit : Coloring V → V → Except ε (Bool × Coloring V)) :
    Coloring V → List E → Except ε (Bool × Coloring V)
  | colors, [] => .ok (true, colors)
  | colors, edge :: rest =>
    match tail edge with
    | .error e => .error e
    | .ok t =>
      match visit colors t with
      | .error e => .error e
      | .ok (false, colors) => .ok (false, colors)
      | .ok (true, colors) => visitEdges visit colors rest

/-- The fuel bounds the depth of the recursion. -/
def visit : ℕ → Coloring V → V → Except ε (Bool × Coloring V)
  | 0, _, _ => .error fault
  | fuel + 1, colors, v =>
    match colors v with
    | none => .error fault
    | some .black => .ok (true, colors)
    | some .grey => .ok (false, colors)
    | some .white =>
      match out v with
      | .error e => .error e
      | .ok edges =>
        match visitEdges tail (visit fuel) (Function.update colors v (some .grey)) edges with
        | .error e => .error e
        | .ok (false, colors) => .ok (false, colors)
        | .ok (true, colors) => .ok (true, Function.update colors v (some .black))

/-- Visit the vertices one after the other, up to the first visit that fails. -/
def search (fuel : ℕ) : Coloring V → List V → Except ε Bool
  | _, [] => .ok true
  | colors, v :: rest =>
    match visit fault out tail fuel colors v with
    | .error e => .error e
    | .ok (false, _) => .ok false
    | .ok (true, colors) => search fuel colors rest

/-- One of the edges out of `v` leads to `t`. -/
def Leads (v t : V) : Prop :=
  ∃ edges, out v = .ok edges ∧ ∃ edge ∈ edges, tail edge = .ok t

/-- Every edge out of a listed vertex can be read and leads to a listed vertex. -/
structure Closed (vertices : List V) : Prop where
  out_ok : ∀ v ∈ vertices, ∃ edges, out v = .ok edges
  tail_ok : ∀ v ∈ vertices, ∀ edges, out v = .ok edges → ∀ edge ∈ edges,
    ∃ t ∈ vertices, tail edge = .ok t

end Search

/-! ## Colours in the course of a search -/

section Colors

/-- The vertices that are still white. -/
def whites (vertices : List V) (colors : Coloring V) : ℕ :=
  vertices.countP fun v ↦ colors v = some .white

/-- A search has turned some white vertices black and changed nothing else. -/
structure Advanced (colors colors' : Coloring V) : Prop where
  kept : ∀ v, colors v ≠ some .white → colors' v = colors v
  turned : ∀ v, colors v = some .white → colors' v = some .white ∨ colors' v = some .black

theorem Advanced.refl (colors : Coloring V) : Advanced colors colors :=
  ⟨fun _ _ ↦ rfl, fun _ ↦ Or.inl⟩

theorem Advanced.trans {c₁ c₂ c₃ : Coloring V} (h : Advanced c₁ c₂) (h' : Advanced c₂ c₃) :
    Advanced c₁ c₃ where
  kept v hv := by
    have hkept := h.kept v hv
    rw [← hkept] at hv
    exact (h'.kept v hv).trans hkept
  turned v hv := by
    rcases h.turned v hv with hwhite | hblack
    · exact h'.turned v hwhite
    · right
      rw [h'.kept v (by simp [hblack]), hblack]

variable {c c' : Coloring V}

theorem Advanced.black (h : Advanced c c') {v : V} (hv : c v = some .black) : c' v = some .black := by
  rw [h.kept v (by simp [hv]), hv]

theorem Advanced.grey_iff (h : Advanced c c') (v : V) : c' v = some .grey ↔ c v = some .grey := by
  by_cases hv : c v = some .white
  · rcases h.turned v hv with hv' | hv' <;> simp [hv, hv']
  · rw [h.kept v hv]

theorem Advanced.isSome (h : Advanced c c') (v : V) : (c' v).isSome = (c v).isSome := by
  by_cases hv : c v = some .white
  · rcases h.turned v hv with hv' | hv' <;> simp [hv, hv']
  · rw [h.kept v hv]

theorem Advanced.whites_le (h : Advanced c c') (vertices : List V) : whites vertices c' ≤ whites vertices c := by
  apply List.countP_mono_left
  intro v _ hv
  rw [decide_eq_true_eq] at hv ⊢
  by_contra hc
  exact hc ((h.kept v hc).symm.trans hv)

variable [DecidableEq V]

/-- Turning a listed white vertex grey leaves fewer white ones. -/
theorem whites_update_lt {vertices : List V} {colors : Coloring V} {v : V} (hmem : v ∈ vertices)
    (hv : colors v = some .white) :
    whites vertices (Function.update colors v (some .grey)) < whites vertices colors := by
  unfold whites
  rw [List.countP_eq_length_filter, List.countP_eq_length_filter]
  have hfilter : (vertices.filter fun u ↦ Function.update colors v (some .grey) u = some .white) =
      (vertices.filter fun u ↦ colors u = some .white).filter fun u ↦ u ≠ v := by
    rw [List.filter_filter]
    apply List.filter_congr
    intro u _
    by_cases hu : u = v
    · simp [hu]
    · simp [hu]
  rw [hfilter]
  apply List.length_filter_lt_length_iff_exists.2
  exact ⟨v, List.mem_filter.2 ⟨hmem, by simp [hv]⟩, by simp⟩

/-- A white vertex is turned black once the vertices below it are searched. -/
theorem Advanced.finish {v : V} (h : Advanced (Function.update c v (some .grey)) c') (hv : c v = some .white) :
    Advanced c (Function.update c' v (some .black)) where
  kept u hu := by
    have hne : u ≠ v := by
      rintro rfl
      exact hu hv
    rw [Function.update_of_ne hne, h.kept u (by rwa [Function.update_of_ne hne]),
      Function.update_of_ne hne]
  turned u hu := by
    by_cases hne : u = v
    · right
      rw [hne, Function.update_self]
    · rw [Function.update_of_ne hne]
      exact h.turned u (by rwa [Function.update_of_ne hne])

end Colors

/-! ## Correctness -/

section Correctness

variable {fault : ε} {out : V → Except ε (List E)} {tail : E → Except ε V}

/-- Black vertices lead to black vertices only and lie on no cycle. -/
structure Done (out : V → Except ε (List E)) (tail : E → Except ε V) (colors : Coloring V) : Prop where
  leads : ∀ v t, colors v = some .black → Leads out tail v t → colors t = some .black
  acyclic : ∀ v, colors v = some .black → ¬ TransGen (Leads out tail) v v

variable {colors : Coloring V} {v : V}

theorem Done.reaches (h : Done out tail colors) {t : V} (hv : colors v = some .black)
    (hreach : TransGen (Leads out tail) v t) : colors t = some .black := by
  induction hreach with
  | single hleads => exact h.leads _ _ hv hleads
  | tail _ hleads ih => exact h.leads _ _ ih hleads

variable [DecidableEq V]

/-- A vertex all of whose successors are black can be turned black. -/
theorem Done.finish (h : Done out tail colors) (hv : colors v ≠ some .black)
    (hnext : ∀ t, Leads out tail v t → colors t = some .black) :
    Done out tail (Function.update colors v (some .black)) where
  leads u t hu hleads := by
    by_cases ht : t = v
    · rw [ht, Function.update_self]
    · rw [Function.update_of_ne ht]
      by_cases huv : u = v
      · exact hnext t (huv ▸ hleads)
      · rw [Function.update_of_ne huv] at hu
        exact h.leads u t hu hleads
  acyclic u hu hcycle := by
    -- the successors of `v` are black, and from a black vertex only black ones are reached
    have hnot : ∀ t, colors t = some .black → ¬ TransGen (Leads out tail) t v :=
      fun t ht hreach ↦ hv (h.reaches ht hreach)
    by_cases huv : u = v
    · subst huv
      obtain ⟨t, hleads, hrest⟩ := TransGen.head'_iff.1 hcycle
      have ht := hnext t hleads
      rcases reflTransGen_iff_eq_or_transGen.1 hrest with heq | hreach
      · exact hv (heq ▸ ht)
      · exact hnot t ht hreach
    · rw [Function.update_of_ne huv] at hu
      exact h.acyclic u hu hcycle

/-- Where a visit of `v` starts: the grey vertices lead to `v`. -/
structure Ready (out : V → Except ε (List E)) (tail : E → Except ε V) (vertices : List V)
    (colors : Coloring V) (v : V) : Prop where
  known : ∀ u ∈ vertices, (colors u).isSome = true
  done : Done out tail colors
  path : ∀ u, colors u = some .grey → TransGen (Leads out tail) u v

/-- A visit returns; it has coloured its vertex black, or there is a cycle. -/
def Visited (out : V → Except ε (List E)) (tail : E → Except ε V) (vertices : List V)
    (colors : Coloring V) (v : V) (result : Except ε (Bool × Coloring V)) : Prop :=
  (∃ colors', result = .ok (true, colors') ∧ Advanced colors colors' ∧ Done out tail colors' ∧
    colors' v = some .black) ∨
  ∃ colors', result = .ok (false, colors') ∧ ∃ u ∈ vertices, TransGen (Leads out tail) u u

variable {vertices : List V} {fuel : ℕ}

omit [DecidableEq V] in
theorem visitEdges_visited {visit : Coloring V → V → Except ε (Bool × Coloring V)}
    (hvisit : ∀ colors t, t ∈ vertices → whites vertices colors < fuel →
      Ready out tail vertices colors t → Visited out tail vertices colors t (visit colors t)) {edges : List E}
    (hfuel : whites vertices colors < fuel) (hready : ∀ t, Leads out tail v t → Ready out tail vertices colors t)
    (hedges : ∀ edge ∈ edges, ∃ t ∈ vertices, tail edge = .ok t ∧ Leads out tail v t) (hdone : Done out tail colors) :
    (∃ colors', visitEdges tail visit colors edges = .ok (true, colors') ∧ Advanced colors colors' ∧
      Done out tail colors' ∧ ∀ edge ∈ edges, ∀ t, tail edge = .ok t → colors' t = some .black) ∨
    ∃ colors', visitEdges tail visit colors edges = .ok (false, colors') ∧
      ∃ u ∈ vertices, TransGen (Leads out tail) u u := by
  induction edges generalizing colors with
  | nil => exact .inl ⟨colors, rfl, .refl colors, hdone, fun _ h ↦ absurd h List.not_mem_nil⟩
  | cons edge rest ih =>
    obtain ⟨t, ht, htail, hleads⟩ := hedges edge List.mem_cons_self
    rcases hvisit colors t ht hfuel (hready t hleads) with
      ⟨colors', hresult, hadvanced, hdone', hblack⟩ | ⟨colors', hresult, hcycle⟩
    · have hready' : ∀ t', Leads out tail v t' → Ready out tail vertices colors' t' := by
        intro t' hleads'
        have hold := hready t' hleads'
        exact
          { known := fun u hu ↦ (hadvanced.isSome u).trans (hold.known u hu)
            done := hdone'
            path := fun u hu ↦ hold.path u ((hadvanced.grey_iff u).1 hu) }
      have hrest := ih (Nat.lt_of_le_of_lt (hadvanced.whites_le vertices) hfuel) hready'
        (fun e he ↦ hedges e (List.mem_cons_of_mem edge he)) hdone'
      simp only [visitEdges, htail, hresult]
      rcases hrest with ⟨colors'', hresult', hadvanced', hdone'', hblack'⟩ | hcycle
      · refine .inl ⟨colors'', hresult', hadvanced.trans hadvanced', hdone'', ?_⟩
        intro e he t' ht'
        rcases List.mem_cons.1 he with rfl | he
        · rw [htail, Except.ok.injEq] at ht'
          exact ht' ▸ hadvanced'.black hblack
        · exact hblack' e he t' ht'
      · exact .inr hcycle
    · simp only [visitEdges, htail, hresult]
      exact .inr ⟨colors', rfl, hcycle⟩

theorem visit_visited (hclosed : Closed out tail vertices) (hv : v ∈ vertices) (hfuel : whites vertices colors < fuel)
    (hready : Ready out tail vertices colors v) :
    Visited out tail vertices colors v (visit fault out tail fuel colors v) := by
  induction fuel generalizing colors v with
  | zero => exact absurd hfuel (Nat.not_lt_zero _)
  | succ fuel ih =>
    obtain ⟨color, hcolor⟩ := Option.isSome_iff_exists.1 (hready.known v hv)
    cases color with
    | black =>
      left
      exact ⟨colors, by simp only [visit, hcolor], .refl colors, hready.done, hcolor⟩
    | grey =>
      right
      exact ⟨colors, by simp only [visit, hcolor], v, hv, hready.path v hcolor⟩
    | white =>
      obtain ⟨edges, hout⟩ := hclosed.out_ok v hv
      have hedges : ∀ edge ∈ edges, ∃ t ∈ vertices, tail edge = .ok t ∧ Leads out tail v t := by
        intro edge hedge
        obtain ⟨t, ht, htail⟩ := hclosed.tail_ok v hv edges hout edge hedge
        exact ⟨t, ht, htail, edges, hout, edge, hedge, htail⟩
      have hlt := whites_update_lt hv hcolor
      have hgrey : ∀ u, Function.update colors v (some .grey) u = some .black ↔
          colors u = some .black := by
        intro u
        by_cases hu : u = v
        · simp [hu, hcolor]
        · simp [hu]
      have hdone : Done out tail (Function.update colors v (some .grey)) :=
        { leads := fun u t hu hleads ↦ (hgrey t).2 (hready.done.leads u t ((hgrey u).1 hu) hleads)
          acyclic := fun u hu ↦ hready.done.acyclic u ((hgrey u).1 hu) }
      have hnext : ∀ t, Leads out tail v t →
          Ready out tail vertices (Function.update colors v (some .grey)) t := by
        intro t hleads
        refine ⟨fun u hu ↦ ?_, hdone, fun u hu ↦ ?_⟩
        · by_cases huv : u = v
          · simp [huv]
          · rw [Function.update_of_ne huv]
            exact hready.known u hu
        · by_cases huv : u = v
          · exact huv ▸ .single hleads
          · rw [Function.update_of_ne huv] at hu
            exact (hready.path u hu).tail hleads
      have hvisit : ∀ c t, t ∈ vertices → whites vertices c < fuel → Ready out tail vertices c t →
          Visited out tail vertices c t (visit fault out tail fuel c t) := fun c t ht hc hr ↦ ih ht hc hr
      rcases visitEdges_visited hvisit (by omega) hnext hedges hdone with ⟨c, hrun, hadvanced, hdone', hblack⟩ | ⟨c, hrun, hcycle⟩
      · left
        refine ⟨Function.update c v (some .black), by simp only [visit, hcolor, hout, hrun],
          hadvanced.finish hcolor, hdone'.finish ?_ ?_, Function.update_self v _ c⟩
        · rw [(hadvanced.grey_iff v).2 (Function.update_self v _ colors)]
          decide
        · rintro t ⟨edges', hout', edge, hedge, htail⟩
          rw [hout, Except.ok.injEq] at hout'
          exact hblack edge (hout' ▸ hedge) t htail
      · right
        exact ⟨c, by simp only [visit, hcolor, hout, hrun], hcycle⟩

variable (fault) in
theorem search_result (hclosed : Closed out tail vertices) {rest : List V} (hrest : ∀ v ∈ rest, v ∈ vertices)
    (hfuel : whites vertices colors < fuel) (hknown : ∀ u ∈ vertices, (colors u).isSome = true)
    (hdone : Done out tail colors) (hgrey : ∀ u, colors u ≠ some .grey) :
    (search fault out tail fuel colors rest = .ok true ∧
      ∀ v ∈ rest, ¬ TransGen (Leads out tail) v v) ∨
    search fault out tail fuel colors rest = .ok false ∧ ∃ u ∈ vertices, TransGen (Leads out tail) u u := by
  induction rest generalizing colors with
  | nil => exact .inl ⟨rfl, fun _ h ↦ absurd h List.not_mem_nil⟩
  | cons v rest ih =>
    have hready : Ready out tail vertices colors v :=
      ⟨hknown, hdone, fun u hu ↦ absurd hu (hgrey u)⟩
    have hvisited : Visited out tail vertices colors v (visit fault out tail fuel colors v) :=
      visit_visited hclosed (hrest v List.mem_cons_self) hfuel hready
    rcases hvisited with
      ⟨c, hvisit, hadvanced, hdone', hblack⟩ | ⟨c, hvisit, hcycle⟩
    · have htail := ih (fun u hu ↦ hrest u (List.mem_cons_of_mem v hu))
        (Nat.lt_of_le_of_lt (hadvanced.whites_le vertices) hfuel)
        (fun u hu ↦ (hadvanced.isSome u).trans (hknown u hu)) hdone'
        (fun u hu ↦ hgrey u ((hadvanced.grey_iff u).1 hu))
      simp only [search, hvisit]
      apply htail.imp_left
      rintro ⟨hresult, hacyclic⟩
      refine ⟨hresult, fun u hu ↦ ?_⟩
      rcases List.mem_cons.1 hu with rfl | hu
      · exact hdone'.acyclic u hblack
      · exact hacyclic u hu
    · simp only [search, hvisit]
      exact .inr ⟨trivial, hcycle⟩

/-- The colouring that a search of the listed vertices starts from. -/
def unvisited (vertices : List V) : Coloring V :=
  fun v ↦ if v ∈ vertices then some .white else none

variable (fault) in
/-- The search of all vertices decides whether the edges are free of cycles. -/
theorem search_unvisited {order : List V} (hclosed : Closed out tail vertices) (horder : ∀ v, v ∈ order ↔ v ∈ vertices)
    (hfuel : vertices.length < fuel) :
    ∃ b, search fault out tail fuel (unvisited vertices) order = .ok b ∧
      (b = true ↔ ∀ v ∈ vertices, ¬ TransGen (Leads out tail) v v) := by
  have hwhite : ∀ u ∈ vertices, unvisited vertices u = some .white := fun u hu ↦ if_pos hu
  have hcolor : ∀ u c, unvisited vertices u = some c → c = .white := by
    intro u c hu
    unfold unvisited at hu
    split at hu
    · exact (Option.some.inj hu).symm
    · cases hu
  have hdone : Done out tail (unvisited vertices) :=
    { leads := fun u t hu ↦ absurd (hcolor u _ hu) (by decide)
      acyclic := fun u hu ↦ absurd (hcolor u _ hu) (by decide) }
  have hle : whites vertices (unvisited vertices) ≤ vertices.length := List.countP_le_length
  have hresult := search_result fault hclosed (fun v hv ↦ (horder v).1 hv)
    (Nat.lt_of_le_of_lt hle hfuel) (fun u hu ↦ by rw [hwhite u hu]; rfl) hdone
    fun u hu ↦ absurd (hcolor u _ hu) (by decide)
  rcases hresult with ⟨hresult, hacyclic⟩ | ⟨hresult, u, hu, hcycle⟩
  · exact ⟨true, hresult, iff_of_true rfl fun v hv ↦ hacyclic v ((horder v).2 hv)⟩
  · exact ⟨false, hresult, iff_of_false (by decide) fun h ↦ h u hu hcycle⟩

end Correctness

end DepthFirst
