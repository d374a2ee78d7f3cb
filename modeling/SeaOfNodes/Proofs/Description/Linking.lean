/-
  SeaOfNodes.Proofs.Description.Linking

  The edges that descriptions declare.  What an input is checked against, the names and what
  produces a value, linking does not change; so the checks may be made of all inputs before
  the first edge is added, and linking comes to adding one list of edges, in the order of
  their declarations.
-/
import SeaOfNodes.Proofs.Description.Creation
import SeaOfNodes.Proofs.Role

namespace SeaOfNodes.Description

/-! ## Inputs -/

/-- A text names no schedule role. -/
theorem isControl_or_isValue_of_parse {raw : String} {role : Role} (h : Role.parse raw = .ok role) :
    role.isControl = true ∨ role.isValue = true :=
  Role.Name.mem_usable.1 (Role.parse_eq_ok.1 h).mem_usable

/-- Of a graph only the operations count when an input is checked. -/
theorem inputEdge_congr {names : Names} {g g' : Graph} (hop : ∀ id, g'.op id = g.op id) (target : NodeId)
    (input : Input) : inputEdge names g' target input = inputEdge names g target input := by
  unfold inputEdge Graph.producesValue
  simp only [hop]

/-- An input is accepted if its source is named, its role is one, and a value is read off a node that
    has one. -/
theorem inputEdge_eq_ok_iff {names : Names} {g : Graph} {target : NodeId} {input : Input} {e : Edge} :
    inputEdge names g target input = .ok e ↔
      names.lookup input.source = some e.source ∧ e.target = target ∧ Role.parse input.role = .ok e.role ∧
        (e.role.isValue = true → g.producesValue e.source = true) := by
  constructor
  · intro h
    unfold inputEdge at h
    split at h
    · cases h
    · rename_i source hsource
      split at h
      · cases h
      · rename_i role hrole
        split at h
        · cases h
        · rename_i hvalue
          rw [← Except.ok.inj h]
          refine ⟨hsource, rfl, hrole, fun hreads => ?_⟩
          simpa [show role.isValue = true from hreads] using hvalue
  · rintro ⟨hsource, rfl, hrole, hvalue⟩
    rw [inputEdge, hsource, hrole]
    cases hreads : e.role.isValue with
    | false => simp [hreads]
    | true => simp [hreads, hvalue hreads]

/-! ## Linking -/

/-- The edges that the inputs of a node stand for. -/
def Links (names : Names) (g : Graph) (n : NodeSpec) (edges : List Edge) : Prop :=
  List.Forall₂ (fun input e => inputEdge names g ((names.lookup n.name).getD (-1)) input = .ok e) n.inputs edges

theorem links_linkAll {names : Names} {g : Graph} {n : NodeSpec} {edges : List Edge} (added : List Edge) :
    Links names (g.linkAll added) n edges ↔ Links names g n edges := by
  induction added generalizing g with
  | nil => rfl
  | cons e rest ih =>
      rw [Graph.linkAll_cons, ih]
      simp only [Links, inputEdge_congr (Graph.op_linkEdge g e)]

theorem linkInputs_eq_ok_iff {names : Names} {target : NodeId} {g g' : Graph} {inputs : List Input} :
    linkInputs names target g inputs = .ok g' ↔
      ∃ edges, List.Forall₂ (fun input e => inputEdge names g target input = .ok e) inputs edges ∧
        g.linkAll edges = g' := by
  induction inputs generalizing g with
  | nil =>
      constructor
      · intro h
        exact ⟨[], .nil, Except.ok.inj h⟩
      · rintro ⟨edges, hedges, rfl⟩
        cases hedges
        rfl
  | cons input rest ih =>
      rw [linkInputs, bind_eq_ok]
      simp only [ih, inputEdge_congr (Graph.op_linkEdge g _)]
      constructor
      · rintro ⟨e, he, edges, hedges, rfl⟩
        exact ⟨e :: edges, .cons he hedges, rfl⟩
      · rintro ⟨_, hall, rfl⟩
        cases hall with
        | cons he hedges => exact ⟨_, he, _, hedges, rfl⟩

theorem linkNodes_eq_ok_iff {names : Names} {g g' : Graph} {nodes : List NodeSpec} :
    linkNodes names g nodes = .ok g' ↔
      ∃ parts, List.Forall₂ (Links names g) nodes parts ∧ g.linkAll parts.flatten = g' := by
  induction nodes generalizing g with
  | nil =>
      constructor
      · intro h
        exact ⟨[], .nil, Except.ok.inj h⟩
      · rintro ⟨parts, hparts, rfl⟩
        cases hparts
        rfl
  | cons n rest ih =>
      rw [linkNodes]
      constructor
      · intro h
        split at h
        · cases h
        · rename_i linked hlinked
          obtain ⟨edges, hedges, rfl⟩ := linkInputs_eq_ok_iff.1 hlinked
          obtain ⟨parts, hparts, rfl⟩ := ih.1 h
          refine ⟨edges :: parts, .cons hedges ?_, ?_⟩
          · exact hparts.imp fun m part hpart => (links_linkAll edges).1 hpart
          · rw [List.flatten_cons, Graph.linkAll_append]
      · rintro ⟨_, hall, rfl⟩
        cases hall with
        | @cons _ edges _ parts hedges hparts =>
            rw [linkInputs_eq_ok_iff.2 ⟨edges, hedges, rfl⟩]
            refine ih.2 ⟨parts, ?_, ?_⟩
            · exact hparts.imp fun m part hpart => (links_linkAll edges).2 hpart
            · rw [List.flatten_cons, Graph.linkAll_append]

/-- Linking succeeds if and only if every input is accepted. -/
theorem linkNodes_succeeds_iff {names : Names} {g : Graph} {nodes : List NodeSpec} :
    (∃ g', linkNodes names g nodes = .ok g') ↔
      ∀ n ∈ nodes, ∀ input ∈ n.inputs, ∃ e, inputEdge names g ((names.lookup n.name).getD (-1)) input = .ok e := by
  constructor
  · rintro ⟨g', h⟩ n hn input hinput
    obtain ⟨parts, hparts, -⟩ := linkNodes_eq_ok_iff.1 h
    obtain ⟨part, -, hpart⟩ := forall₂_mem_left hparts hn
    obtain ⟨e, -, he⟩ := forall₂_mem_left hpart hinput
    exact ⟨e, he⟩
  · intro h
    obtain ⟨parts, hparts⟩ := exists_forall₂ fun n hn => exists_forall₂ (h n hn)
    exact ⟨_, linkNodes_eq_ok_iff.2 ⟨parts, hparts, rfl⟩⟩

/-- The edges that are added come from accepted inputs. -/
theorem exists_input_of_mem_links {names : Names} {g : Graph} {nodes : List NodeSpec} {parts : List (List Edge)}
    (hparts : List.Forall₂ (Links names g) nodes parts) {e : Edge} (he : e ∈ parts.flatten) :
    ∃ n ∈ nodes, ∃ input ∈ n.inputs,
      inputEdge names g ((names.lookup n.name).getD (-1)) input = .ok e := by
  obtain ⟨part, hpart, he⟩ := List.mem_flatten.1 he
  obtain ⟨n, hn, hlinks⟩ := forall₂_mem_right hparts hpart
  obtain ⟨input, hinput, hedge⟩ := forall₂_mem_right hlinks he
  exact ⟨n, hn, input, hinput, hedge⟩

/-- They join live nodes. -/
theorem Created.linkable {nodes : List NodeSpec} {names : Names} {g : Graph} (h : Created nodes names g)
    {parts : List (List Edge)} (hparts : List.Forall₂ (Links names g) nodes parts) : g.Linkable parts.flatten := by
  intro e he
  obtain ⟨n, hn, input, -, hinput⟩ := exists_input_of_mem_links hparts he
  obtain ⟨k, hk⟩ := List.mem_iff_getElem?.1 hn
  obtain ⟨hlookup, htarget, -⟩ := inputEdge_eq_ok_iff.1 hinput
  rw [htarget, h.getD_lookup hk]
  exact ⟨h.live _ _ hlookup, h.has_iff.2 ⟨k, (List.getElem?_eq_some_iff.1 hk).1, rfl⟩⟩

/-- Where the `k`-th of some lists has the edges to the node `k`, those are the edges to it. -/
theorem filter_flatten_target {parts : List (List Edge)} (first : Nat)
    (h : ∀ k part, parts[k]? = some part → ∀ e ∈ part, e.target = Int.ofNat (first + k)) (k : Nat) :
    parts.flatten.filter (fun e => e.target = Int.ofNat (first + k)) = (parts[k]?).getD [] := by
  induction parts generalizing first k with
  | nil => rfl
  | cons part rest ih =>
      have hrest : ∀ k part, rest[k]? = some part → ∀ e ∈ part, e.target = Int.ofNat (first + 1 + k) := by
        intro k part hpart e he
        rw [Nat.add_assoc, Nat.add_comm 1 k]
        exact h (k + 1) part hpart e he
      rw [List.flatten_cons, List.filter_append]
      cases k with
      | zero =>
          have hself : part.filter (fun e => e.target = Int.ofNat (first + 0)) = part :=
            List.filter_eq_self.2 fun e he => decide_eq_true (h 0 part rfl e he)
          -- The edges of the lists behind it lead to later nodes.
          have hnone : rest.flatten.filter (fun e => e.target = Int.ofNat (first + 0)) = [] := by
            refine List.filter_eq_nil_iff.2 fun e he => ?_
            obtain ⟨part', hpart', he⟩ := List.mem_flatten.1 he
            obtain ⟨j, hj⟩ := List.mem_iff_getElem?.1 hpart'
            rw [decide_eq_true_eq, hrest j part' hj e he]
            exact fun heq => absurd (Int.ofNat.inj heq) (by omega)
          rw [hself, hnone, List.append_nil]
          rfl
      | succ k =>
          have hnone : part.filter (fun e => e.target = Int.ofNat (first + (k + 1))) = [] := by
            refine List.filter_eq_nil_iff.2 fun e he => ?_
            rw [decide_eq_true_eq, h 0 part rfl e he]
            exact fun heq => absurd (Int.ofNat.inj heq) (by omega)
          have hnext := ih (first + 1) hrest k
          rw [Nat.add_assoc, Nat.add_comm 1 k] at hnext
          rw [hnone, List.nil_append, hnext]
          rfl

end SeaOfNodes.Description
