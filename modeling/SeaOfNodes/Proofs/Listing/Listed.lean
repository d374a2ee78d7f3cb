/-
  SeaOfNodes.Proofs.Listing.Listed

  The listing of a scheduled graph, block by block: each was made from a chain by
  emission and the simplification of its end, and the indices of the layout are indices
  of blocks.
-/
import SeaOfNodes.Proofs.Listing.Shape

namespace SeaOfNodes.Listing

open Schedule

/-- A listing and the chains it was made from. -/
structure Listed (s : Graph) (order : NodeId → List NodeId) (out : Graph) (chains : List Chain)
    (layout : Layout) (blocks : List Block) : Prop where
  planned : Planned s order chains layout
  out_eq : out = assignRegisters s chains
  block : ∀ i c, chains[i]? = some c →
    ∃ body raw, EmittedBlock out layout c body raw ∧ BlockShape out layout c raw ∧
      blocks[i]? = some (simplifyBlock (Int64.ofNat (i + 1)) raw)
  length_eq : blocks.length = chains.length

theorem listed_of_linearize {s out : Graph} {order : NodeId → List NodeId} (hs : Scheduled s order)
    {blocks : List Block} (h : linearize s = .done out blocks) :
    ∃ chains layout, plan s = .ok (chains, layout) ∧ Listed s order out chains layout blocks := by
  obtain ⟨chains, layout, hplan, rfl, hemit⟩ := linearize_eq_done h
  have hp := planned_of_plan hs hplan
  obtain ⟨raws, rfl, hraws⟩ := emitBlocks_eq_ok hemit
  refine ⟨chains, layout, hplan, hp, rfl, fun i c hc => ?_, ?_⟩
  · obtain ⟨raw, hraw, body, hbody⟩ := forall₂_getElem? hraws hc
    refine ⟨body, raw, hbody, ?_, ?_⟩
    · exact hbody.shape hs (agree_assignRegisters s chains) (hp.chainOf c (List.mem_of_getElem? hc))
    · rw [getElem?_simplify, hraw, Option.map_some]
  · rw [length_simplify, hraws.length_eq]

namespace Listed

variable {s out : Graph} {order : NodeId → List NodeId} {chains : List Chain} {layout : Layout}
  {blocks : List Block} (h : Listed s order out chains layout blocks)
include h

theorem agree : Graph.Agree (fun _ => true) s out := by
  rw [h.out_eq]
  exact agree_assignRegisters s chains

/-- There are no more blocks than nodes. -/
theorem length_le : blocks.length ≤ s.arena.size := by
  have hfirsts := h.planned.firsts.length_eq
  have hfilter : (blockFirsts s).length ≤ s.ids.length := List.length_filter_le ..
  have hids := s.length_ids_le
  rw [List.length_map] at hfirsts
  rw [h.length_eq]
  omega

/-- A block of the listing was made from a chain. -/
theorem exists_chain {i : Nat} {block : Block} (hblock : blocks[i]? = some block) :
    ∃ c body raw, chains[i]? = some c ∧ EmittedBlock out layout c body raw ∧
      BlockShape out layout c raw ∧ block = simplifyBlock (Int64.ofNat (i + 1)) raw := by
  obtain ⟨hi, -⟩ := List.getElem?_eq_some_iff.1 hblock
  rw [h.length_eq] at hi
  obtain ⟨body, raw, hbody, hshape, hraw⟩ := h.block i (chains.get ⟨i, hi⟩) (by simp)
  rw [hblock] at hraw
  exact ⟨_, body, raw, by simp, hbody, hshape, Option.some.inj hraw⟩

/-- The indices of a layout are indices of blocks. -/
theorem index_lt {node : NodeId} {index : Nat} (hindex : layout.index.lookup node = some index) :
    index < blocks.length := by
  obtain ⟨c, hc, -⟩ := (h.planned.index index node).1 hindex
  obtain ⟨hlt, -⟩ := List.getElem?_eq_some_iff.1 hc
  rw [h.length_eq]
  exact hlt

theorem getElem?_firsts {node : NodeId} {index : Nat} (hindex : layout.index.lookup node = some index) :
    (chains.map Chain.first)[index]? = some node := by
  obtain ⟨c, hc, rfl⟩ := (h.planned.index index node).1 hindex
  simp [hc]

variable (hsize : s.arena.size < 2 ^ 63)
include hsize

/-- The index of a block survives as a 64-bit number. -/
theorem toInt_index {node : NodeId} {index : Nat} (hindex : layout.index.lookup node = some index) :
    (Int64.ofNat index).toInt = index := by
  have hlt := h.index_lt hindex
  have hle := h.length_le
  exact Int64.toInt_ofNat_of_lt (by omega)

/-- The finished block is left as the raw one. -/
theorem leave_eq {i : Nat} (hi : i < blocks.length) (truth : Register → Bool) (raw : List Instr) :
    leave truth (i + 1) (simplifyBlock (Int64.ofNat (i + 1)) raw) = leave truth (i + 1) raw := by
  have hle := h.length_le
  have hnext : (Int64.ofNat (i + 1)).toInt = ((i + 1 : Nat) : Int) := Int64.toInt_ofNat_of_lt (by omega)
  have hleave : leave truth (Int64.ofNat (i + 1)).toInt (simplifyBlock (Int64.ofNat (i + 1)) raw)
      = leave truth (Int64.ofNat (i + 1)).toInt raw := leave_simplifyBlock (Int64.ofNat (i + 1)) raw
  rw [hnext] at hleave
  exact_mod_cast hleave

end Listed

end SeaOfNodes.Listing
