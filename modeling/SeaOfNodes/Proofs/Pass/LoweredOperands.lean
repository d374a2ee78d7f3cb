/-
  SeaOfNodes.Proofs.Pass.LoweredOperands

  Where the operands of a node come from once additions and tests are lowered.  Each of
  these nodes is replaced by another; whoever read an addition reads a tag node that reads
  what replaces it, and what replaces an addition reads its operands through untag nodes.
  Nothing else changes what a node reads, nor does anything change where control leads.
  This is shown for one node, whose operands and uses are converted before it is renamed,
  and carried from node to node, as one addition may read another.
-/
import SeaOfNodes.Proofs.Pass.Lowering

namespace SeaOfNodes.Pass.Tagging

open SeaOfNodes.Graph

/-! ## What a node reads -/

section Reads

variable (g s : Graph) (named : NodeId → NodeId) (done : List NodeId)

/-- What hands on the value of a node once some nodes are lowered: a tag node for an
    addition that is, and for any other node what it is named. -/
inductive Supplied (a : NodeId) : NodeId → Prop
  | tagged {b : NodeId} (hdone : a ∈ done) (hadd : g.op a = .fixnumAdd) (htag : s.Conversion .tagFixnum b (named a)) :
      Supplied a b
  | plain (hnot : a ∈ done → g.op a ≠ .fixnumAdd) : Supplied a (named a)

/-- What a node reads where it read another: what replaces an addition reads it through
    an untag node. -/
inductive Received (id a : NodeId) : NodeId → Prop
  | untagged {b c : NodeId} (hdone : id ∈ done) (hadd : g.op id = .fixnumAdd) (huntag : s.Conversion .untagFixnum b c)
      (hsupplied : Supplied g s named done a c) : Received id a b
  | plain {b : NodeId} (hnot : id ∈ done → g.op id ≠ .fixnumAdd) (hsupplied : Supplied g s named done a b) :
      Received id a b

variable {g s named done}

theorem Supplied.imp {t : Graph} (hconv : ∀ {op c x}, s.Conversion op c x → t.Conversion op c x) {a b : NodeId}
    (h : Supplied g s named done a b) : Supplied g t named done a b := by
  cases h with
  | tagged hdone hadd htag => exact .tagged hdone hadd (hconv htag)
  | plain hnot => exact .plain hnot

theorem Received.imp {t : Graph} (hconv : ∀ {op c x}, s.Conversion op c x → t.Conversion op c x) {id a b : NodeId}
    (h : Received g s named done id a b) : Received g t named done id a b := by
  cases h with
  | untagged hdone hadd huntag hsupplied => exact .untagged hdone hadd (hconv huntag) (hsupplied.imp hconv)
  | plain hnot hsupplied => exact .plain hnot (hsupplied.imp hconv)

end Reads

/-- The operation that takes the place of that of an addition or a test. -/
def loweredOp (op : Op) : Op := if op = .fixnumAdd then .int64Add else .isTaggedFixnum

/-- In a graph some nodes of another are replaced by lowered ones. -/
structure Replaces (g s : Graph) (named : NodeId → NodeId) (done : List NodeId) : Prop where
  consistent : s.Consistent
  size : g.arena.size ≤ s.arena.size
  gone : ∀ id, id < Int.ofNat g.arena.size → g.has id = false → s.has id = false
  has : ∀ id, g.has id = true → s.has (named id) = true
  injective : ∀ a b, g.has a = true → g.has b = true → named a = named b → a = b
  targets : ∀ id ∈ done, g.op id = .fixnumAdd ∨ g.op id = .kindIs
  kept : ∀ id, g.has id = true → id ∉ done → named id = id ∧ s.op id = g.op id ∧ s.props id = g.props id
  replaced : ∀ id ∈ done, s.has id = false ∧ Int.ofNat g.arena.size ≤ named id ∧
    s.op (named id) = loweredOp (g.op id) ∧ s.props (named id) = carriedProps g id
  refed : Refed g s named (Received g s named done)
  leadsTo : ∀ a b, g.has a = true → g.has b = true → (s.LeadsTo (named a) (named b) ↔ g.LeadsTo a b)

theorem Replaces.refl {g : Graph} (hg : g.Consistent) : Replaces g g id [] where
  consistent := hg
  size := Nat.le_refl _
  gone _ _ := id
  has _ := id
  injective _ _ _ _ := id
  targets _ h := by cases h
  kept _ _ _ := ⟨rfl, rfl, rfl⟩
  replaced _ h := by cases h
  refed := by
    refine (Refed.of_eq fun _ => rfl).imp hg fun id a b _ _ hb => ?_
    subst hb
    exact .plain (fun h => by cases h) (.plain fun h => by cases h)
  leadsTo _ _ _ _ := Iff.rfl

theorem Replaces.has_of_mem {g s : Graph} {named : NodeId → NodeId} {done : List NodeId}
    (h : Replaces g s named done) {id : NodeId} (hid : id ∈ done) : g.has id = true := by
  apply has_of_op_ne_invalid
  rcases h.targets id hid with hop | hop
  · rw [hop]
    decide
  · rw [hop]
    decide

/-! ## One node after others -/

/-- A node that is not the one replaced is read under its name. -/
theorem Supplied.eq_rename {g s : Graph} {old new a b : NodeId} (h : Supplied g s (rename old new) [old] a b)
    (hne : a ≠ old) : b = rename old new a := by
  cases h with
  | tagged hdone _ _ => exact absurd (List.mem_singleton.1 hdone) hne
  | plain _ => rfl

/-- A node that is not the one replaced reads what its operands have become. -/
theorem Received.supplied {g s : Graph} {old new id a b : NodeId} (h : Received g s (rename old new) [old] id a b)
    (hne : id ≠ old) : Supplied g s (rename old new) [old] a b := by
  cases h with
  | untagged hdone _ _ _ => exact absurd (List.mem_singleton.1 hdone) hne
  | plain _ hsupplied => exact hsupplied

/-- A conversion that is there stays, and reads what its operand becomes. -/
theorem Replaces.conversion_step {s s' : Graph} {old new : NodeId} (h : Replaces s s' (rename old new) [old]) {op : Op}
    (hop : op ≠ .fixnumAdd ∧ op ≠ .kindIs) {c a : NodeId} (hc : s.Conversion op c a) :
    c ≠ old ∧ rename old new c = c ∧ ∃ a', s'.Conversion op c a' ∧ Supplied s s' (rename old new) [old] a a' := by
  have hne : c ≠ old := by
    rintro rfl
    have htarget := h.targets c (List.mem_singleton.2 rfl)
    rw [hc.op_eq] at htarget
    exact htarget.elim hop.1 hop.2
  obtain ⟨hname, hop', hprops⟩ := h.kept c hc.live (by rw [List.mem_singleton]; exact hne)
  have hlive : s'.has c = true := by
    rw [← hname]
    exact h.has c hc.live
  obtain ⟨a', hconv, hreceived⟩ := hc.refed h.consistent h.refed hlive hname hop' hprops
  exact ⟨hne, hname, a', hconv, hreceived.supplied hne⟩

section Step

variable {g s s' : Graph} {named : NodeId → NodeId} {done : List NodeId} {old new : NodeId}
  (h : Replaces g s named done) (h' : Replaces s s' (rename old new) [old]) (hlive : g.has old = true)
  (hold : old ∉ done)
include h hlive hold

/-- A node that is not replaced yet is the only one of its name. -/
theorem Replaces.named_eq_iff {a : NodeId} (ha : g.has a = true) : named a = old ↔ a = old := by
  have hself := (h.kept old hlive hold).1
  constructor
  · intro hname
    exact h.injective a old ha hlive (hname.trans hself.symm)
  · rintro rfl
    exact hself

theorem Replaces.named_ne_of_mem {a : NodeId} (ha : g.has a = true) (hdone : a ∈ done) : named a ≠ old := by
  rw [ne_eq, h.named_eq_iff hlive hold ha]
  rintro rfl
  exact hold hdone

/-- The additions that are lowered after the step are those lowered before, and the node
    of the step if it is one. -/
theorem Replaces.mem_step {a : NodeId} (ha : g.has a = true) :
    a ∈ done ++ [old] ∧ g.op a = .fixnumAdd ↔
      a ∈ done ∧ g.op a = .fixnumAdd ∨ named a ∈ [old] ∧ s.op (named a) = .fixnumAdd := by
  obtain ⟨hself, hop, -⟩ := h.kept old hlive hold
  have hlast : named a ∈ [old] ∧ s.op (named a) = .fixnumAdd ↔ a ∈ [old] ∧ g.op a = .fixnumAdd := by
    rw [List.mem_singleton, List.mem_singleton, h.named_eq_iff hlive hold ha]
    refine and_congr_right fun haold => ?_
    rw [haold, hself, hop]
  rw [hlast, List.mem_append, or_and_right]

include h'

theorem Supplied.step {a b c : NodeId} (ha : g.has a = true) (hab : Supplied g s named done a b)
    (hbc : Supplied s s' (rename old new) [old] b c) :
    Supplied g s' (rename old new ∘ named) (done ++ [old]) a c := by
  have hmem := h.mem_step hlive hold ha
  cases hab with
  | tagged hdone hadd htag =>
      -- The tag node is read as before; what it reads may have got another name.
      obtain ⟨hne, hname, a', hconv, ha'⟩ := h'.conversion_step (by decide) htag
      have hc := hbc.eq_rename hne
      rw [hname] at hc
      subst hc
      refine .tagged (List.mem_append_left _ hdone) hadd ?_
      rw [ha'.eq_rename (h.named_ne_of_mem hlive hold ha hdone)] at hconv
      exact hconv
  | plain hnot =>
      cases hbc with
      | tagged hdone hadd htag =>
          obtain ⟨hdone, hadd⟩ := hmem.2 (.inr ⟨hdone, hadd⟩)
          exact .tagged hdone hadd htag
      | plain hnot' =>
          exact .plain fun hdone hadd => (hmem.1 ⟨hdone, hadd⟩).elim (fun h => hnot h.1 h.2) fun h => hnot' h.1 h.2

theorem Received.step {id a b c : NodeId} (hid : g.has id = true) (ha : g.has a = true)
    (hab : Received g s named done id a b) (hbc : Received s s' (rename old new) [old] (named id) b c) :
    Received g s' (rename old new ∘ named) (done ++ [old]) id a c := by
  have hmem := h.mem_step hlive hold hid
  cases hab with
  | untagged hdone hadd huntag hsupplied =>
      obtain ⟨hne, hname, d, hconv, hd⟩ := h'.conversion_step (by decide) huntag
      have hc := (hbc.supplied (h.named_ne_of_mem hlive hold hid hdone)).eq_rename hne
      rw [hname] at hc
      subst hc
      exact .untagged (List.mem_append_left _ hdone) hadd hconv (hsupplied.step h h' hlive hold ha hd)
  | plain hnot hsupplied =>
      cases hbc with
      | untagged hdone hadd huntag hsupplied' =>
          obtain ⟨hdone, hadd⟩ := hmem.2 (.inr ⟨hdone, hadd⟩)
          exact .untagged hdone hadd huntag (hsupplied.step h h' hlive hold ha hsupplied')
      | plain hnot' hsupplied' =>
          refine .plain (fun hdone hadd => ?_) (hsupplied.step h h' hlive hold ha hsupplied')
          exact (hmem.1 ⟨hdone, hadd⟩).elim (fun h => hnot h.1 h.2) fun h => hnot' h.1 h.2

/-- One more node is replaced. -/
theorem Replaces.step (hg : g.Consistent) : Replaces g s' (rename old new ∘ named) (done ++ [old]) := by
  obtain ⟨hself, hop, hprops⟩ := h.kept old hlive hold
  obtain ⟨hgone, hnew, hnewOp, hnewProps⟩ := h'.replaced old (List.mem_singleton.2 rfl)
  have hsize : Int.ofNat g.arena.size ≤ Int.ofNat s.arena.size := Int.ofNat_le.2 h.size
  exact {
    consistent := h'.consistent
    size := Nat.le_trans h.size h'.size
    gone := fun id hlt hid => h'.gone id (Int.lt_of_lt_of_le hlt hsize) (h.gone id hlt hid)
    has := fun id hid => h'.has _ (h.has id hid)
    injective := fun a b ha hb heq => h.injective a b ha hb (h'.injective _ _ (h.has a ha) (h.has b hb) heq)
    targets := by
      intro id hid
      rcases List.mem_append.1 hid with hid | hid
      · exact h.targets id hid
      · rw [List.mem_singleton.1 hid, ← hop]
        exact h'.targets old (List.mem_singleton.2 rfl)
    kept := by
      intro id hid hnot
      rw [List.mem_append, not_or] at hnot
      obtain ⟨hname, hidOp, hidProps⟩ := h.kept id hid hnot.1
      have hidLive : s.has id = true := by
        rw [← hname]
        exact h.has id hid
      obtain ⟨hname', hidOp', hidProps'⟩ := h'.kept id hidLive hnot.2
      refine ⟨?_, hidOp'.trans hidOp, hidProps'.trans hidProps⟩
      rw [Function.comp_apply, hname, hname']
    replaced := by
      intro id hid
      rcases List.mem_append.1 hid with hid | hid
      · -- What replaced a node before is there still.
        have hidLive := h.has_of_mem hid
        obtain ⟨hidGone, hfresh, hidOp, hidProps⟩ := h.replaced id hid
        have hne : named id ∉ [old] := by
          rw [List.mem_singleton]
          exact h.named_ne_of_mem hlive hold hidLive hid
        obtain ⟨hname, hidOp', hidProps'⟩ := h'.kept (named id) (h.has id hidLive) hne
        have hstays := h'.gone id (Int.lt_of_lt_of_le (lt_size_of_has hidLive) hsize) hidGone
        rw [Function.comp_apply, hname]
        exact ⟨hstays, hfresh, hidOp'.trans hidOp, hidProps'.trans hidProps⟩
      · obtain rfl := List.mem_singleton.1 hid
        rw [Function.comp_apply, hself, hnewOp, hnewProps, hop]
        refine ⟨hgone, Int.le_trans hsize hnew, rfl, ?_⟩
        rw [carriedProps, hprops]
        rfl
    refed := (h.refed.trans h'.refed h.has).imp hg fun id a c hid ha ⟨b, hab, hbc⟩ =>
      hab.step h h' hlive hold hid ha hbc
    leadsTo := by
      intro a b ha hb
      rw [Function.comp_apply, Function.comp_apply, h'.leadsTo _ _ (h.has a ha) (h.has b hb), h.leadsTo a b ha hb]
  }

end Step

/-! ## Untagging and tagging -/

/-- Every operand of an addition is untagged. -/
theorem converted_of_untagOperands {g untagged : Graph} {add : NodeId} (hg : g.Consistent)
    (h : (g.inputsWhere add Role.isValue).foldlM untagOperand g = .ok untagged) :
    Converted .untagFixnum g untagged fun id _ => id = add := by
  have hconverting : Converting .untagFixnum g (g.inputsWhere add Role.isValue) untagged := by
    refine foldlM_front (Converting .untagFixnum g) (fun front e back s s' hl hs hstep => ?_) h (.start _ hg)
    have he : e ∈ g.operands add := by
      rw [operands, hl]
      exact List.mem_append_right front List.mem_cons_self
    obtain ⟨hsource, htarget⟩ := hg.has_of_mem_operands he
    obtain ⟨hs', mid, hsplice, hop, hprops⟩ := untagOperand_eq_ok hs.consistent hstep
    exact hs.step hsplice (mem_operands.1 he).2 htarget hs' hsource hop hprops
  refine hconverting.converted hg (fun e hvalue => ?_) fun e he => ?_
  · constructor
    · intro he
      exact ⟨hg.multiplicity_of_mem_operands he, hg.target_eq_of_mem_operands he⟩
    · rintro ⟨hpos, rfl⟩
      exact mem_operands.2 ⟨hg.mem_inputs (multiplicity_pos.1 hpos), hvalue⟩
  · obtain rfl := hg.target_eq_of_mem_operands he
    rw [hg.multiplicity_eq]
    exact List.count_filter (mem_operands.1 he).2

/-- Every use of an addition reads it through a tag node. -/
theorem converted_of_tagUses {g : Graph} {state : List NodeId × Graph} {add : NodeId} (hg : g.Consistent)
    (h : (g.outputsWhere add Role.isValue).foldlM tagUse ([], g) = .ok state) :
    Converted .tagFixnum g state.2 fun _ a => a = add := by
  have hconverting : Converting .tagFixnum g (g.outputsWhere add Role.isValue) state.2 := by
    refine foldlM_front (fun front state => Converting .tagFixnum g front state.2)
      (fun front e back s s' hl hs hstep => ?_) h (.start _ hg)
    have he : e ∈ g.outputsWhere add Role.isValue := by
      rw [hl]
      exact List.mem_append_right front List.mem_cons_self
    obtain ⟨hmem, hvalue⟩ := List.mem_filter.1 he
    obtain ⟨hs', mid, -, hsplice, hop, hprops⟩ := tagUse_eq_ok hs.consistent hstep
    refine hs.step hsplice hvalue (hg.has_target hmem) hs' ?_ hop hprops
    rw [hg.source_eq add e hmem]
    exact has_of_mem_outputs hmem
  refine hconverting.converted hg (fun e hvalue => ?_) fun e he => ?_
  · constructor
    · intro he
      obtain ⟨hsource, -⟩ := mem_outputsWhere_isValue hg e he
      refine ⟨?_, hsource⟩
      rw [multiplicity_pos, hsource]
      exact List.mem_of_mem_filter he
    · rintro ⟨hpos, rfl⟩
      exact List.mem_filter.2 ⟨multiplicity_pos.1 hpos, hvalue⟩
  · obtain ⟨rfl, hvalue⟩ := mem_outputsWhere_isValue hg e he
    exact List.count_filter hvalue

/-! ## One node -/

section One

variable {g s g' : Graph} {old new : NodeId}

/-- A node is renamed after a graph has grown. -/
theorem replaces_of_renamed (hg' : g'.Consistent) (hs : s.Consistent) (hgrows : Grows g s)
    (hrename : Renamed s g' old new) (htarget : g.op old = .fixnumAdd ∨ g.op old = .kindIs)
    (hop : g'.op new = loweredOp (g.op old)) (hprops : g'.props new = carriedProps g old)
    (hrefed : Refed g g' (rename old new) (Received g g' (rename old new) [old]))
    (hleads : ∀ a b, g.has a = true → g.has b = true → (s.LeadsTo a b ↔ g.LeadsTo a b)) :
    Replaces g g' (rename old new) [old] := by
  have hnew : Int.ofNat g.arena.size ≤ new := by
    rw [hrename.new_eq]
    exact Int.ofNat_le.2 hgrows.size
  have hself : rename old new old = new := if_pos rfl
  exact {
    consistent := hg'
    size := by
      rw [hrename.size]
      exact Nat.le_succ_of_le hgrows.size
    gone := by
      intro id hlt hid
      rw [← Bool.not_eq_true]
      intro hlive
      rcases (hrename.has id).1 hlive with ⟨hold, -⟩ | rfl
      · rw [hgrows.gone id hlt hid] at hold
        cases hold
      · exact absurd hlt (Int.not_lt.2 hnew)
    has := fun id hid => hrename.has_rename (hgrows.has id hid)
    injective := by
      -- Renaming back takes the new name away again.
      intro a b ha hb heq
      rw [← rename_rename_of_ne (hrename.ne_new (hgrows.has a ha)), heq,
        rename_rename_of_ne (hrename.ne_new (hgrows.has b hb))]
    targets := by
      intro id hid
      rw [List.mem_singleton.1 hid]
      exact htarget
    kept := by
      intro id hid hnot
      have hne := List.mem_singleton.not.1 hnot
      have hnotNew := hrename.ne_new (hgrows.has id hid)
      refine ⟨if_neg hne, ?_, ?_⟩
      · rw [hrename.op id hne hnotNew, hgrows.op id hid]
      · rw [hrename.props id hne hnotNew, hgrows.props id hid]
    replaced := by
      intro id hid
      rw [List.mem_singleton.1 hid, hself]
      refine ⟨?_, hnew, hop, hprops⟩
      rw [← Bool.not_eq_true]
      exact fun hlive => (hrename.has_back hlive).1 rfl
    refed := hrefed
    leadsTo := by
      intro a b ha hb
      rw [hrename.leadsTo_iff hs hg' (hgrows.has a ha) (hgrows.has b hb), hleads a b ha hb]
  }

/-- A test is renamed. -/
theorem replaces_of_lowerTest (hg : g.Consistent) (htest : g.op old = .kindIs) (h : lowerTest g old = .ok g') :
    ∃ new, Replaces g g' (rename old new) [old] := by
  obtain ⟨hrename, hop, hprops⟩ := hg.renamed_of_replace h
  refine ⟨_, replaces_of_renamed (consistent_lowerTest h hg) hg (.refl g) hrename (.inr htest) ?_ hprops ?_
    fun _ _ _ _ => Iff.rfl⟩
  · rw [hop, htest]
    rfl
  · have hnot : ∀ id ∈ [old], g.op id ≠ .fixnumAdd := by
      intro id hid hop
      rw [List.mem_singleton.1 hid, htest] at hop
      cases hop
    refine hrename.refed.imp hg fun id a b _ _ hb => ?_
    subst hb
    exact .plain (hnot id) (.plain (hnot a))

/-- What comes in at a node once the operands and the uses of an addition are converted. -/
theorem refed_of_converted {untagged tagged : Graph} (hg : g.Consistent) (hadd : g.op old = .fixnumAdd)
    (hu : Converted .untagFixnum g untagged fun id _ => id = old)
    (ht : Converted .tagFixnum untagged tagged fun _ a => a = old) :
    Refed g tagged id (Received g tagged id [old]) := by
  have hsupplied : ∀ {b c : NodeId}, (b = old ∧ tagged.Conversion .tagFixnum c b) ∨ (¬ b = old ∧ c = b) →
      Supplied g tagged id [old] b c := by
    rintro b c (⟨rfl, htag⟩ | ⟨hne, rfl⟩)
    · exact .tagged (List.mem_singleton.2 rfl) hadd htag
    · exact .plain fun hmem => absurd (List.mem_singleton.1 hmem) hne
  refine (hu.refed.trans ht.refed hu.grows.has).imp hg fun id a c hid ha ⟨b, hab, hbc⟩ => ?_
  rcases hab with ⟨rfl, huntag⟩ | ⟨hne, rfl⟩
  · -- The new untag node is no addition, so it is not tagged; what it reads may be.
    have hb : b ≠ id := by
      rintro rfl
      have hop := huntag.op_eq
      rw [hu.grows.op b hid, hadd] at hop
      cases hop
    obtain rfl : c = b := (hbc.resolve_left fun hbc => hb hbc.1).2
    obtain ⟨d, huntag', hd⟩ := huntag.refed ht.consistent ht.refed (ht.grows.has c huntag.live) rfl
      (ht.grows.op c huntag.live) (ht.grows.props c huntag.live)
    exact .untagged (List.mem_singleton.2 rfl) hadd huntag' (hsupplied hd)
  · exact .plain (fun hmem => absurd (List.mem_singleton.1 hmem) hne) (hsupplied hbc)

section Rename

variable (hadd : s.op old = .fixnumAdd) (hg' : g'.Consistent) (hrename : Renamed s g' old new)
include hadd hg' hrename

theorem conversion_rename {op : Op} (hop : op ≠ .fixnumAdd) {c a : NodeId} (h : s.Conversion op c a) :
    rename old new c = c ∧ g'.Conversion op c (rename old new a) := by
  have hne : c ≠ old := by
    rintro rfl
    exact hop (h.op_eq.symm.trans hadd)
  have hnew := hrename.ne_new h.live
  obtain ⟨a', hconv, rfl⟩ := h.refed hg' hrename.refed ((hrename.has c).2 (.inl ⟨h.live, hne⟩)) (if_neg hne)
    (hrename.op c hne hnew) (hrename.props c hne hnew)
  exact ⟨if_neg hne, hconv⟩

theorem Supplied.rename {a b : NodeId} (h : Supplied g s id [old] a b) :
    Supplied g g' (rename old new) [old] a (rename old new b) := by
  cases h with
  | tagged hdone hop htag =>
      obtain ⟨hname, hconv⟩ := conversion_rename hadd hg' hrename (by decide) htag
      rw [hname]
      exact .tagged hdone hop hconv
  | plain hnot => exact .plain hnot

theorem Received.rename {id' a b : NodeId} (h : Received g s id [old] id' a b) :
    Received g g' (rename old new) [old] id' a (rename old new b) := by
  cases h with
  | untagged hdone hop huntag hsupplied =>
      obtain ⟨hname, hconv⟩ := conversion_rename hadd hg' hrename (by decide) huntag
      rw [hname]
      exact .untagged hdone hop hconv (hsupplied.rename hadd hg' hrename)
  | plain hnot hsupplied => exact .plain hnot (hsupplied.rename hadd hg' hrename)

end Rename

/-- An addition is lowered. -/
theorem replaces_of_lowerAdd (hg : g.Consistent) (hadd : g.op old = .fixnumAdd) (h : lowerAdd g old = .ok g') :
    ∃ new, Replaces g g' (rename old new) [old] := by
  obtain ⟨untagged, tagged, sequenced, new, huntagged, htagged, hreached, htags, hsequenced, hthreaded, hrename, hop,
    hprops⟩ := lowerAdd_phases hg hadd h
  have hg' := consistent_lowerAdd h hg
  have hu := converted_of_untagOperands hg huntagged
  have ht := converted_of_tagUses hreached.consistent htagged
  have hgrows : Grows g sequenced := (hu.grows.trans ht.grows).trans hthreaded.nodes.grows
  have hlive : g.has old = true := has_of_op_ne_invalid (by rw [hadd]; decide)
  have haddSequenced : sequenced.op old = .fixnumAdd := (hgrows.op old hlive).trans hadd
  have hrefed : Refed g sequenced id (Received g sequenced id [old]) := by
    intro id hid
    rw [id_eq, hthreaded.operands]
    exact (refed_of_converted hg hadd hu ht id hid).imp fun e e' hee' =>
      ⟨hee'.1, hee'.2.imp fun hconv => hthreaded.conversion hconv⟩
  refine ⟨new, replaces_of_renamed hg' hsequenced.consistent hgrows hrename (.inl hadd) ?_ ?_ ?_ fun a b ha hb => ?_⟩
  · rw [hop, hadd]
    rfl
  · rw [hprops, carriedProps, hgrows.props old hlive]
    rfl
  · refine (hrefed.trans hrename.refed hgrows.has).imp hg fun id a c _ _ ⟨b, hab, hbc⟩ => ?_
    subst hbc
    exact hab.rename haddSequenced hg' hrename
  · -- The tag nodes are new, so no path between old nodes begins or ends at one.
    have hold : ∀ {x : NodeId}, g.has x = true → x ∉ tagged.1 := by
      intro x hx hmem
      have hgone := htags.new x hmem
      rw [hu.grows.has x hx] at hgone
      cases hgone
    rw [hthreaded.leadsTo a b (hold ha) (hold hb), ht.leadsTo, hu.leadsTo]

end One

/-! ## A run -/

/-- The pass lowers a node. -/
def Lowerable (g : Graph) (id : NodeId) : Prop :=
  g.op id = .fixnumAdd ∨ g.op id = .kindIs ∧ isFixnumTest g id = true

/-- Nodes of one operation are replaced one after the other. -/
theorem Replaces.foldlM {g s t : Graph} {step : Graph → NodeId → Except Misuse Graph} {op : Op}
    (hstep : ∀ {s s' : Graph} {old : NodeId}, s.Consistent → s.op old = op → step s old = .ok s' →
      ∃ new, Replaces s s' (rename old new) [old])
    {named : NodeId → NodeId} {done ids : List NodeId} (hg : g.Consistent) (hs : Replaces g s named done)
    (hop : op ≠ .invalid) (hids : ∀ id ∈ ids, g.op id = op) (hnodup : ids.Nodup) (hnew : ∀ id ∈ ids, id ∉ done)
    (h : ids.foldlM step s = .ok t) : ∃ named', Replaces g t named' (done ++ ids) := by
  refine foldlM_front (fun front s => ∃ named', Replaces g s named' (done ++ front))
    (fun front old back s s' hl ⟨named', hs⟩ hlast => ?_) h ⟨named, by rw [List.append_nil]; exact hs⟩
  have hmem : old ∈ ids := by
    rw [hl]
    exact List.mem_append_right front List.mem_cons_self
  have hlive : g.has old = true := has_of_op_ne_invalid (by rw [hids old hmem]; exact hop)
  have hnot : old ∉ done ++ front := by
    rw [List.mem_append, not_or]
    refine ⟨hnew old hmem, fun hfront => ?_⟩
    rw [hl] at hnodup
    exact (List.nodup_append.1 hnodup).2.2 old hfront old List.mem_cons_self rfl
  obtain ⟨-, hkeep, -⟩ := hs.kept old hlive hnot
  obtain ⟨new, hone⟩ := hstep hs.consistent (hkeep.trans (hids old hmem)) hlast
  exact ⟨_, by rw [← List.append_assoc]; exact hs.step hone hlive hnot hg⟩

/-- A run replaces the nodes that it lowers, and no others. -/
theorem replaces_of_run {g : Graph} {r : Change} (hg : g.Consistent) (h : run g = .ok r) :
    ∃ (named : NodeId → NodeId) (done : List NodeId),
      Replaces g r.graph named done ∧ ∀ id, id ∈ done ↔ Lowerable g id := by
  obtain ⟨-, tested, htested, hadded⟩ := run_phases h
  have htests : ∀ id, id ∈ (g.find .kindIs).filter (isFixnumTest g) ↔ g.op id = .kindIs ∧ isFixnumTest g id = true := by
    intro id
    rw [List.mem_filter, mem_find_iff (by decide)]
  obtain ⟨named, hafter⟩ := Replaces.foldlM replaces_of_lowerTest hg (.refl hg) (by decide)
    (fun id hid => ((htests id).1 hid).1) ((g.nodup_ids.filter _).filter _) (by simp) htested
  have hadds : ∀ id, id ∈ g.find .fixnumAdd ↔ g.op id = .fixnumAdd := fun id => mem_find_iff (by decide)
  have hnew : ∀ id ∈ g.find .fixnumAdd, id ∉ [] ++ (g.find .kindIs).filter (isFixnumTest g) := by
    intro id hid hmem
    rw [List.nil_append, htests, (hadds id).1 hid] at hmem
    cases hmem.1
  obtain ⟨named', hend⟩ := Replaces.foldlM replaces_of_lowerAdd hg hafter (by decide) (fun id => (hadds id).1)
    (g.nodup_ids.filter _) hnew hadded
  refine ⟨named', _, hend, fun id => ?_⟩
  rw [List.mem_append, List.nil_append, htests, hadds, or_comm]
  rfl

/-- A run leaves nothing to lower. -/
theorem not_lowerable_of_run {g : Graph} {r : Change} (hg : g.Consistent) (h : run g = .ok r) (id : NodeId) :
    ¬ Lowerable r.graph id := by
  obtain ⟨hlowers, -, hadds⟩ := lowers_run hg h
  obtain ⟨named, done, hreplaces, hdone⟩ := replaces_of_run hg h
  rintro (hadd | ⟨hkind, htest⟩)
  · exact hadds id hadd
  · -- The test was there before, and then it was replaced.
    obtain ⟨hkindBefore, hprops⟩ := hlowers.unmade (by decide) hkind
    have htestBefore : isFixnumTest g id = true := by
      rw [isFixnumTest, ← hprops]
      exact htest
    obtain ⟨hgone, -⟩ := hreplaces.replaced id ((hdone id).2 (.inr ⟨hkindBefore, htestBefore⟩))
    exact op_ne_of_fresh hgone (by decide) hkind

/-- Where there is nothing to lower a run changes nothing and says so. -/
theorem run_of_not_lowerable {g : Graph} (h : ∀ id, ¬ Lowerable g id) : run g = .ok ⟨g, 0⟩ := by
  have hadds : g.find .fixnumAdd = [] := by
    refine List.eq_nil_iff_forall_not_mem.2 fun id hid => ?_
    exact h id (.inl ((mem_find_iff (by decide)).1 hid))
  have htests : (g.find .kindIs).filter (isFixnumTest g) = [] := by
    refine List.eq_nil_iff_forall_not_mem.2 fun id hid => ?_
    obtain ⟨hid, htest⟩ := List.mem_filter.1 hid
    exact h id (.inr ⟨(mem_find_iff (by decide)).1 hid, htest⟩)
  rw [run, lower, hadds, htests]
  rfl

end SeaOfNodes.Pass.Tagging
