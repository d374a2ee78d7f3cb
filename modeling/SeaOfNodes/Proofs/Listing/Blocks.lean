/-
  SeaOfNodes.Proofs.Listing.Blocks

  The chains that a listing is made of.  Read off a scheduled graph they are the
  orders of its blocks, cut before the merge that ends one; the plan of a listing
  has one chain for each node that begins a block, those that return last, and
  finds each at its index.
-/
import SeaOfNodes.Listing.Linearize
import SeaOfNodes.Proofs.Except
import SeaOfNodes.Proofs.Lists
import SeaOfNodes.Proofs.Schedule.BlockOrder

namespace SeaOfNodes.Listing

open Schedule

/-! ## One chain -/

/-- A chain is the order of a block, up to the merge that ends it. -/
structure ChainOf (s : Graph) (order : NodeId → List NodeId) (c : Chain) : Prop where
  first_mem : c.first ∈ blockFirsts s
  nodes_append : c.nodes ++ c.merge?.toList = c.first :: order c.first
  own : ∀ id ∈ c.nodes, isOtherMerge s c.first id = false
  merge : ∀ id ∈ c.merge?, isOtherMerge s c.first id = true
  returns : c.returns = c.nodes.any fun id => s.op id = .finish

/-- Following a chain from one of its places gives what is left of the order, without the
    merge that another block begins with. -/
theorem followChain_eq_ok {s : Graph} {order : NodeId → List NodeId} (h : Scheduled s order)
    {first : NodeId} (hfirst : first ∈ blockFirsts s) {steps : Nat} {before after : List NodeId}
    {id : NodeId} {nodes : List NodeId} {merge? : Option NodeId}
    (hsplit : first :: order first = before ++ id :: after) (hown : isOtherMerge s first id = false)
    (hfollow : followChain s first steps id = .ok (nodes, merge?)) :
    nodes ++ merge?.toList = id :: after ∧ (∀ x ∈ nodes, isOtherMerge s first x = false) ∧
      ∀ m ∈ merge?, isOtherMerge s first m = true := by
  induction steps generalizing before after id nodes with
  | zero => simp [followChain] at hfollow
  | succ steps ih =>
      rw [followChain] at hfollow
      cases after with
      | nil =>
          rw [h.outputsNamed_of_last hfirst hsplit hown] at hfollow
          cases hfollow
          exact ⟨rfl, by simpa using hown, by simp⟩
      | cons next after =>
          rw [h.outputsNamed_of_split hfirst hsplit] at hfollow
          have hnext : first :: order first = (before ++ [id]) ++ next :: after := by
            rw [hsplit]
            simp
          by_cases hmerge : s.op (chainEdge id next).target = .merge
          · simp only [if_pos hmerge] at hfollow
            change s.op next = .merge at hmerge
            have hother : isOtherMerge s first next = true := by
              have hne := (h.block first hfirst).ne_first_of_split hfirst hsplit
              simp [isOtherMerge, hne, hmerge]
            -- Another block begins there, so the order ends.
            obtain rfl := (h.block first hfirst).eq_nil_of_isOtherMerge hnext hother
            cases hfollow
            refine ⟨rfl, by simpa using hown, ?_⟩
            rintro m ⟨⟩
            exact hother
          · simp only [if_neg hmerge] at hfollow
            change ¬ s.op next = .merge at hmerge
            obtain ⟨⟨rest, merge?'⟩, hrest, hpair⟩ := map_eq_ok.1 hfollow
            cases hpair
            have hnextOwn : isOtherMerge s first next = false := by simp [isOtherMerge, hmerge]
            obtain ⟨hnodes, hownRest, hmergeRest⟩ := ih hnext hnextOwn hrest
            refine ⟨by rw [List.cons_append, hnodes], fun x hx => ?_, hmergeRest⟩
            rcases List.mem_cons.1 hx with rfl | hx
            · exact hown
            · exact hownRest x hx

theorem chainFrom_eq_ok {s : Graph} {order : NodeId → List NodeId} (h : Scheduled s order)
    {first : NodeId} (hfirst : first ∈ blockFirsts s) {c : Chain} (hchain : chainFrom s first = .ok c) :
    c.first = first ∧ ChainOf s order c := by
  obtain ⟨⟨nodes, merge?⟩, hfollow, rfl⟩ := map_eq_ok.1 hchain
  obtain ⟨hnodes, hown, hmerge⟩ := followChain_eq_ok h hfirst (List.nil_append _).symm
    (isOtherMerge_self s first) hfollow
  exact ⟨rfl, hfirst, hnodes, hown, hmerge, rfl⟩

namespace ChainOf

variable {s : Graph} {order : NodeId → List NodeId} {c : Chain} (h : ChainOf s order c)
include h

theorem mem_nodes_iff (hs : Scheduled s order) {id : NodeId} :
    id ∈ c.nodes ↔ id ∈ blockMembers s c.first ∧ isOtherMerge s c.first id = false := by
  rw [hs.mem_blockMembers_iff h.first_mem, ← h.nodes_append, List.mem_append]
  constructor
  · exact fun hid => ⟨.inl hid, h.own id hid⟩
  · rintro ⟨hid | hid, hown⟩
    · exact hid
    · have hmerge := h.merge id (by simpa using hid)
      rw [hown] at hmerge
      cases hmerge

theorem nodup_nodes (hs : Scheduled s order) : c.nodes.Nodup := by
  have hnodup := (hs.block c.first h.first_mem).nodup h.first_mem
  rw [← h.nodes_append] at hnodup
  exact (List.nodup_append.1 hnodup).1

/-- What ends a block ends its chain, and no merge follows. -/
theorem eq_nil_of_endsBlock (hs : Scheduled s order) {before after : List NodeId} {id : NodeId}
    (hsplit : c.nodes = before ++ id :: after) (hne : id ≠ c.first)
    (hends : s.op id = .branch ∨ s.op id = .finish) : after = [] ∧ c.merge? = none := by
  have hwhole : c.first :: order c.first = before ++ id :: (after ++ c.merge?.toList) := by
    rw [← h.nodes_append, hsplit]
    simp
  have hlast : after ++ c.merge?.toList = [] := by
    refine (hs.block c.first h.first_mem).eq_nil_of_endsBlock hwhole hne ?_
    rcases hends with hop | hop <;> simp [endsBlock, hop]
  obtain ⟨hafter, hmerge⟩ := List.append_eq_nil_iff.1 hlast
  exact ⟨hafter, by simpa using hmerge⟩

end ChainOf

/-! ## The plan of a listing -/

/-- The entry that a chain adds to what flows into merges. -/
def flowOf (g : Graph) (c : Chain) : List ((NodeId × Int64) × NodeId) :=
  match c.merge? with
  | none => []
  | some merge =>
    match mergeInput g c merge with
    | .ok n => [((merge, n), c.first)]
    | .error _ => []

/-- A layout numbers the chains and lists what flows into merges, the latest
    first. -/
theorem layoutFrom_eq_ok {g : Graph} {start : Nat} {layout layout' : Layout} {chains : List Chain}
    (h : layoutFrom g start layout chains = .ok layout') :
    layout'.index = ((chains.zipIdx start).map fun p => (p.1.first, p.2)).reverse ++ layout.index ∧
      layout'.incoming = (chains.flatMap (flowOf g)).reverse ++ layout.incoming := by
  induction chains generalizing start layout with
  | nil =>
      cases h
      exact ⟨rfl, rfl⟩
  | cons c rest ih =>
      rw [layoutFrom] at h
      -- A chain that ends at a merge adds one entry, and any other none.
      have hflow : ∃ incoming, incoming = (flowOf g c).reverse ++ layout.incoming ∧
          layoutFrom g (start + 1) ⟨(c.first, start) :: layout.index, incoming⟩ rest = .ok layout' := by
        unfold flowOf
        cases hmerge : c.merge? with
        | none =>
            rw [hmerge] at h
            exact ⟨layout.incoming, rfl, h⟩
        | some merge =>
            rw [hmerge] at h
            obtain ⟨n, hn, hrest⟩ := bind_eq_ok.1 h
            simp only [hn]
            exact ⟨_, rfl, hrest⟩
      obtain ⟨incoming, rfl, hrest⟩ := hflow
      obtain ⟨hindex, hincoming⟩ := ih hrest
      rw [hindex, hincoming]
      constructor
      · simp
      · rw [List.flatMap_cons, List.reverse_append, List.append_assoc]

/-- The plan of a listing: chains in block order, each found at its index, those
    that return last. -/
structure Planned (s : Graph) (order : NodeId → List NodeId) (chains : List Chain) (layout : Layout) :
    Prop where
  chainOf : ∀ c ∈ chains, ChainOf s order c
  chainFrom_eq : ∀ c ∈ chains, chainFrom s c.first = .ok c
  firsts : (chains.map Chain.first).Perm (blockFirsts s)
  index : ∀ i first, layout.index.lookup first = some i ↔ ∃ c, chains[i]? = some c ∧ c.first = first
  incoming : layout.incoming = (chains.flatMap (flowOf s)).reverse
  returnsLast : ∀ (i j : Nat) (c d : Chain), chains[i]? = some c → chains[j]? = some d → c.returns = true →
    d.returns = false → j < i

theorem collectChains_eq_ok {s : Graph} {order : NodeId → List NodeId} (h : Scheduled s order)
    {chains : List Chain} (hcollect : collectChains s = .ok chains) :
    chains.map Chain.first = blockFirsts s ∧
      ∀ c ∈ chains, ChainOf s order c ∧ chainFrom s c.first = .ok c := by
  rw [collectChains, mapM_eq_ok] at hcollect
  have hsub : ∀ f ∈ s.ids.filter s.beginsBlock, f ∈ blockFirsts s := fun _ hf => hf
  have hall : ∀ {firsts : List NodeId} {chains : List Chain}, (∀ f ∈ firsts, f ∈ blockFirsts s) →
      List.Forall₂ (fun f c => chainFrom s f = .ok c) firsts chains →
      chains.map Chain.first = firsts ∧ ∀ c ∈ chains, ChainOf s order c ∧ chainFrom s c.first = .ok c := by
    intro firsts chains hfirsts hrel
    induction hrel with
    | nil => simp
    | @cons f c _ _ hc _ ih =>
        obtain ⟨hmap, hrest⟩ := ih fun x hx => hfirsts x (List.mem_cons_of_mem f hx)
        obtain ⟨rfl, hof⟩ := chainFrom_eq_ok h (hfirsts f List.mem_cons_self) hc
        refine ⟨by rw [List.map_cons, hmap], fun d hd => ?_⟩
        rcases List.mem_cons.1 hd with rfl | hd
        · exact ⟨hof, hc⟩
        · exact hrest d hd
  exact hall hsub hcollect

/-- Returning chains are put behind the others. -/
theorem orderChains_eq_ok {chains ordered : List Chain} (h : orderChains chains = .ok ordered) :
    ordered.Perm chains ∧ ordered
      = chains.filter (fun c => !c.returns) ++ chains.filter Chain.returns := by
  rw [orderChains] at h
  split at h
  · cases h
  · cases h
    refine ⟨?_, rfl⟩
    exact List.perm_append_comm.trans (List.filter_append_perm Chain.returns chains)

theorem planned_of_plan {s : Graph} {order : NodeId → List NodeId} (h : Scheduled s order)
    {chains : List Chain} {layout : Layout} (hplan : plan s = .ok (chains, layout)) :
    Planned s order chains layout := by
  rw [plan] at hplan
  obtain ⟨collected, hcollect, hplan⟩ := bind_eq_ok.1 hplan
  obtain ⟨-, -, hplan⟩ := bind_eq_ok.1 hplan
  obtain ⟨ordered, horder, hplan⟩ := bind_eq_ok.1 hplan
  obtain ⟨layout', hlayout, hpair⟩ := bind_eq_ok.1 hplan
  cases hpair
  obtain ⟨hmap, hchains⟩ := collectChains_eq_ok h hcollect
  obtain ⟨hperm, hordered⟩ := orderChains_eq_ok horder
  obtain ⟨hindex, hincoming⟩ := layoutFrom_eq_ok hlayout
  have hfirsts : (chains.map Chain.first).Perm (blockFirsts s) := hmap ▸ hperm.map Chain.first
  have hkeys : (layout.index.map Prod.fst).Nodup := by
    -- The keys are the first nodes, and every block has its own.
    have hkeysEq : layout.index.map Prod.fst = (chains.map Chain.first).reverse := by
      rw [hindex, List.append_nil, List.map_reverse, List.map_map]
      congr 1
      rw [← List.zipIdx_map_fst 0 chains, List.map_map]
      simp [Function.comp_def]
    rw [hkeysEq, List.nodup_reverse]
    exact hfirsts.nodup_iff.2 (nodup_blockFirsts s)
  refine ⟨fun c hc => (hchains c (hperm.mem_iff.1 hc)).1, fun c hc => (hchains c (hperm.mem_iff.1 hc)).2,
    hfirsts, fun i first => ?_, by simpa using hincoming, ?_⟩
  · rw [lookup_eq_some_iff_mem hkeys, hindex, List.append_nil, List.mem_reverse, List.mem_map]
    constructor
    · rintro ⟨⟨c, j⟩, hmem, hpair⟩
      cases hpair
      exact ⟨c, List.mem_zipIdx_iff_getElem?.1 hmem, rfl⟩
    · rintro ⟨c, hc, rfl⟩
      exact ⟨(c, i), List.mem_zipIdx_iff_getElem?.2 hc, rfl⟩
  · intro i j c d hi hj hc hd
    rw [hordered] at hi hj
    -- A chain that returns lies in the second part, one that does not in the first.
    have hj' : j < (collected.filter fun c => !c.returns).length := by
      by_contra hlt
      rw [List.getElem?_append_right (Nat.le_of_not_lt hlt)] at hj
      have := (List.mem_filter.1 (List.mem_of_getElem? hj)).2
      rw [hd] at this
      cases this
    have hi' : (collected.filter fun c => !c.returns).length ≤ i := by
      by_contra hlt
      rw [List.getElem?_append_left (Nat.lt_of_not_le hlt)] at hi
      have := (List.mem_filter.1 (List.mem_of_getElem? hi)).2
      rw [hc] at this
      cases this
    omega

end SeaOfNodes.Listing
