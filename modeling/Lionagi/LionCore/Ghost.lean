import Lionagi.LionCore.State

/-!
# The life cycle of addresses

What allocation and release do to the status of an address and to the freed set, on sorted tables.
-/

namespace Lionagi.LionCore

open SortedTable

namespace MetaState

/-- The map and the freed set are sorted. -/
structure Ordered (ghost : MetaState) : Prop where
  resources : Sorted Prod.fst ghost.resources
  freed : Sorted id ghost.freedSet

theorem ordered_empty : empty.Ordered := ⟨sorted_nil, sorted_nil⟩

section Status

variable {resources : List (MemAddr × ResourceStatus)}

theorem sorted_setStatus (h : Sorted Prod.fst resources) (addr : MemAddr) (status : ResourceStatus) :
    Sorted Prod.fst (setStatus resources addr status) := by
  unfold setStatus
  split
  · exact h.modify (f := fun entry ↦ (entry.1, status)) (fun _ ↦ rfl) _
  · next hsearch => exact h.insertIdx rfl hsearch

theorem lookup_setStatus (h : Sorted Prod.fst resources) (addr : MemAddr) (status : ResourceStatus)
    (b : MemAddr) :
    (lookup Prod.fst b (setStatus resources addr status)).map Prod.snd =
      if b = addr then some status else (lookup Prod.fst b resources).map Prod.snd := by
  unfold setStatus
  split
  · next idx hsearch =>
    rw [lookup_modify (f := fun entry ↦ (entry.1, status)) (fun _ ↦ rfl) hsearch]
    split
    · obtain ⟨entry, hentry, -⟩ := getElem?_of_search_ok hsearch
      rw [lookup, hsearch]
      simp [hentry]
    · rfl
  · next pos hsearch =>
    rw [lookup_insertIdx h rfl hsearch]
    split <;> rfl

/-- The map grows exactly when the address is new to it. -/
theorem length_setStatus (addr : MemAddr) (status : ResourceStatus) :
    (setStatus resources addr status).length =
      if (lookup Prod.fst addr resources).isSome then resources.length else resources.length + 1 := by
  unfold setStatus
  split
  · next idx hsearch =>
    obtain ⟨entry, hentry, -⟩ := getElem?_of_search_ok hsearch
    rw [lookup, hsearch]
    simp [hentry]
  · next pos hsearch =>
    rw [lookup_eq_none_of_search hsearch, List.length_insertIdx_of_le_length (search_error_le hsearch)]
    rfl

end Status

variable {ghost : MetaState}
variable {addr : MemAddr}

theorem isFreed_iff_mem (h : ghost.Ordered) : ghost.isFreed addr = true ↔ addr ∈ ghost.freedSet := by
  unfold isFreed
  have hfound := search_isOk_iff (k := addr) h.freed
  simp only [id, exists_eq_right] at hfound
  rw [← hfound]
  split
  · next idx hsearch => exact iff_of_true rfl ⟨idx, hsearch⟩
  · next pos hsearch =>
    apply iff_of_false (by decide)
    rintro ⟨idx, hok⟩
    exact absurd (hsearch.symm.trans hok) (by simp)

variable {freedSet : List MemAddr}

theorem mem_insertFreedAddr {a : MemAddr} : addr ∈ insertFreedAddr freedSet a ↔ addr = a ∨ addr ∈ freedSet := by
  unfold insertFreedAddr
  split
  · next idx hsearch =>
    obtain ⟨b, hb, hkey⟩ := getElem?_of_search_ok hsearch
    obtain rfl : b = a := hkey
    constructor
    · exact .inr
    · rintro (rfl | hmem)
      · exact List.mem_of_getElem? hb
      · exact hmem
  · next pos hsearch => exact mem_insertIdx_of_search hsearch

theorem sorted_insertFreedAddr (h : Sorted id freedSet) (addr : MemAddr) :
    Sorted id (insertFreedAddr freedSet addr) := by
  unfold insertFreedAddr
  split
  · exact h
  · next pos hsearch => exact h.insertIdx rfl hsearch

theorem Ordered.free (h : ghost.Ordered) (addr : MemAddr) : (ghost.free addr).Ordered :=
  ⟨h.resources, sorted_insertFreedAddr h.freed addr⟩

theorem Ordered.alloc (h : ghost.Ordered) (addr : MemAddr) (owner : PluginId) :
    (ghost.alloc addr owner).Ordered :=
  ⟨sorted_setStatus h.resources addr _, h.freed⟩

theorem isFreed_free (h : ghost.Ordered) {a : MemAddr} :
    (ghost.free a).isFreed addr = true ↔ addr = a ∨ ghost.isFreed addr = true := by
  rw [isFreed_iff_mem (h.free a), isFreed_iff_mem h]
  exact mem_insertFreedAddr

theorem getStatus_alloc (h : ghost.Ordered) (addr : MemAddr) (owner : PluginId) (b : MemAddr) :
    (ghost.alloc addr owner).getStatus b =
      if b = addr then some (.allocated owner) else ghost.getStatus b :=
  lookup_setStatus h.resources addr _ b

/-- An address is live when it is allocated and not freed. -/
theorem isLive_iff : ghost.isLive addr = true ↔
    (∃ owner, ghost.getStatus addr = some (.allocated owner)) ∧ ghost.isFreed addr = false := by
  unfold isLive
  split
  · next owner hstatus => simp [hstatus]
  · next hstatus =>
    apply iff_of_false (by decide)
    rintro ⟨⟨owner, howner⟩, -⟩
    exact hstatus owner howner

theorem resourceCount_alloc (addr : MemAddr) (owner : PluginId) :
    (ghost.alloc addr owner).resourceCount =
      if (ghost.getStatus addr).isSome then ghost.resourceCount else ghost.resourceCount + 1 := by
  unfold resourceCount getStatus
  rw [alloc, length_setStatus, Option.isSome_map]

end MetaState

end Lionagi.LionCore
