/-
  SeaOfNodes.Proofs.Pass.LoweredHomes

  Lowering keeps homes.  An untag node is at home with its addition, the tag of an addition
  that floats where the value is needed, and one behind an addition in control flow is
  there itself in the end.  Blocks stay parted.  Only the first node of a block may come to
  wait for a conversion, and it does not if no addition begins a block and the first nodes
  read none that control does not leave.
-/
import SeaOfNodes.Proofs.Listing.Flow
import SeaOfNodes.Proofs.Pass.LoweredOrder

namespace SeaOfNodes.Pass.Tagging

open SeaOfNodes.Graph SeaOfNodes.Schedule Listing Relation

/-! ## The invariant -/

/-- What makes a graph one that can be scheduled, but for nodes that are set aside, and
    listed then, if that is asked for. -/
structure Placeable (g : Graph) (aside : List NodeId) (home : NodeId → NodeId) (listed : Prop) : Prop where
  homes : Homes g aside home
  firstsFree : FirstsFree g aside home
  parted : Parted g
  onward : ¬ Returns g
  resolved : g.PhisResolved
  roles : g.Unscheduled
  flowing : listed → Flowing g aside home ∧ NoneCritical g

/-- Additions that can be lowered without harm: control leaves each for one node at most, it
    begins no block, and if control does not leave it the first node of a block does not
    read it, unless that is a phi. -/
structure Harmless (g : Graph) (adds : List NodeId) : Prop where
  op : ∀ add ∈ adds, g.op add = .fixnumAdd
  sole : ∀ add ∈ adds, ∀ a ∈ g.controlSuccessors add, ∀ b ∈ g.controlSuccessors add, a = b
  begins : ∀ add ∈ adds, g.beginsBlock add = false
  heads : ∀ add ∈ adds, ¬ g.Leaves add → ∀ reader ∈ g.consumers add, g.op reader ≠ .phi → g.beginsBlock reader = false

theorem Harmless.of_cons {g : Graph} {add : NodeId} {rest : List NodeId} (h : Harmless g (add :: rest)) :
    Harmless g rest :=
  ⟨fun x hx => h.op x (List.mem_cons_of_mem add hx), fun x hx => h.sole x (List.mem_cons_of_mem add hx),
    fun x hx => h.begins x (List.mem_cons_of_mem add hx), fun x hx => h.heads x (List.mem_cons_of_mem add hx)⟩

theorem Harmless.has {g : Graph} {adds : List NodeId} (h : Harmless g adds) {add : NodeId} (hadd : add ∈ adds) :
    g.has add = true :=
  has_of_op_ne_invalid (by rw [h.op add hadd]; decide)

/-! ## Steps -/

section Relays

variable {g g' : Graph} {e : Edge} {mid : NodeId} {listed : Prop} (h : Relays g g' e mid)
include h

theorem Harmless.relays {adds : List NodeId} (ha : Harmless g adds) : Harmless g' adds := by
  have hne : ∀ {x : NodeId}, x ∈ adds → x ≠ mid := fun hx => h.ne_mid (ha.has hx)
  have hsuccessors : ∀ {a b : NodeId}, b ∈ g'.controlSuccessors a ↔ b ∈ g.controlSuccessors a :=
    h.controlSuccessors_iff h.value h.consistent h.consistent'
  refine ⟨fun x hx => ?_, fun x hx a ha' b hb => ?_, fun x hx => ?_, fun x hx hfree reader hreader hphi => ?_⟩
  · rw [h.op x (hne hx)]
    exact ha.op x hx
  · exact ha.sole x hx a (hsuccessors.1 ha') b (hsuccessors.1 hb)
  · rw [← Bool.not_eq_true, h.beginsBlock_iff h.value h.consistent h.consistent' (hne hx), ha.begins x hx]
    exact Bool.false_ne_true
  · rw [h.leaves_iff h.value] at hfree
    rcases h.mem_consumers_of_new h.consistent h.consistent' (hne hx) hreader with ⟨-, rfl⟩ | hreader
    · exact h.beginsBlock_mid
    · have hreaderNe := h.ne_mid (h.consistent.has_of_mem_consumers hreader)
      rw [h.op _ hreaderNe] at hphi
      rw [← Bool.not_eq_true, h.beginsBlock_iff h.value h.consistent h.consistent' hreaderNe,
        ha.heads x hx hfree reader hreader hphi]
      exact Bool.false_ne_true

theorem Placeable.relays {aside aside' : List NodeId} {home home' : NodeId → NodeId} (hs : Placeable g aside home listed)
    (hh : Homes g' aside' home') (hf : FirstsFree g' aside' home') (haside : ∀ x ∈ aside, x ∈ aside')
    (hhome : ∀ x, x ≠ mid → home' x = home x)
    (hbare : NoneCritical g → Floats g' aside' mid → (∃ y, Floats g aside y ∧ home y = home' mid) ∨
      ∀ first ∈ blockFirsts g, Alone g aside home first → home' mid ≠ first) : Placeable g' aside' home' listed := by
  have hroles := unscheduled_of_spliced h.toSpliced h.value hs.roles
  refine ⟨hh, hf, h.folds.parted h.consistent h.consistent' hs.roles hroles hs.parted, h.not_returns hs.onward,
    h.phisResolved h.value h.consistent (op_ne_of_isFixed h.floating rfl) hs.resolved, hroles, fun hlisted => ?_⟩
  obtain ⟨hflowing, hcritical⟩ := hs.flowing hlisted
  have hreflows := reflows_of_relays h hs.roles hroles
  refine ⟨hreflows.flowing hflowing fun x hx => ?_, hreflows.noneCritical hcritical⟩
  by_cases hmid : x = mid
  · subst hmid
    exact hbare hcritical hx
  · exact .inl ⟨x, h.floats_back haside hx hmid, (hhome x hmid).symm⟩

/-- An operand of an addition is untagged where the addition is at home. -/
theorem Placeable.untag {home : NodeId → NodeId} (hs : Placeable g [] home listed) (hadd : g.op e.target = .fixnumAdd)
    (hbegins : g.beginsBlock e.target = false) : ∃ home', Placeable g' [] home' listed := by
  have hsite : g.useSite e = e.target := useSite_eq_target (by rw [hadd]; decide)
  have hreads : e.target ∈ g.consumers e.source := h.consistent.mem_consumers.2 ⟨e.role, h.value, h.edge⟩
  have hfloats : g.isFixed e.target = false → Floats g [] e.target := fun hfixed =>
    ⟨(h.consistent.has_of_multiplicity h.edge).2, hfixed, List.not_mem_nil⟩
  have hold : ∀ x, x ≠ mid → Function.update home mid (home (g.useSite e)) x = home x := fun x hx =>
    Function.update_of_ne hx _ _
  refine ⟨_, hs.relays h (h.homes hs.homes ?_ fun hsource => ?_) (h.firstsFree hs.firstsFree (fun _ => id) hold
    fun _ hblock => ?_) (fun _ => id) hold fun _ _ => ?_⟩
  · rw [hsite]
    cases hfixed : g.isFixed e.target with
    | true =>
        rw [hs.homes.fixed _ hfixed, hadd]
        exact ⟨hfixed, by decide⟩
    | false => exact hs.homes.place _ (hfloats hfixed)
  · rw [hsite]
    exact hs.homes.operands _ _ hsource hreads List.not_mem_nil
  · rw [hbegins] at hblock
    cases hblock
  · rw [Function.update_self, hsite]
    cases hfixed : g.isFixed e.target with
    | true =>
        refine .inr fun first _ halone => ?_
        rw [hs.homes.fixed _ hfixed]
        rintro rfl
        have hleaves := halone.leaves
        rw [hadd] at hleaves
        exact hleaves.elim (fun hop => by cases hop) fun hop => by cases hop
    | false => exact .inl ⟨_, hfloats hfixed, rfl⟩

/-- The tag of an addition that control does not leave is at home where the value is
    needed. -/
theorem Placeable.tag {home : NodeId → NodeId} (hs : Placeable g [] home listed) (hfree : ¬ g.Leaves e.source)
    (hheads : ∀ reader ∈ g.consumers e.source, g.op reader ≠ .phi → g.beginsBlock reader = false) :
    ∃ home', Placeable g' [] home' listed := by
  have hreads : e.target ∈ g.consumers e.source := h.consistent.mem_consumers.2 ⟨e.role, h.value, h.edge⟩
  obtain ⟨hsourceLive, htargetLive⟩ := h.consistent.has_of_multiplicity h.edge
  have hsite := h.mem_useSites_source
  -- What a fixed node gives is needed behind it, and control leads there.
  have hfloating : g.isFixed e.source = false := by
    rw [← Bool.not_eq_true]
    intro hfixed
    obtain ⟨x, hx, -⟩ := TransGen.head'_iff.1 (hs.homes.operands _ _ hfixed hreads List.not_mem_nil)
    obtain ⟨role, hrole, hpos⟩ := h.consistent.mem_controlSuccessors.1 hx
    exact hfree ⟨x, role, hrole, hpos⟩
  have hfloats : Floats g [] e.source := ⟨hsourceLive, hfloating, List.not_mem_nil⟩
  have hold : ∀ x, x ≠ mid → Function.update home mid (home (g.useSite e)) x = home x := fun x hx =>
    Function.update_of_ne hx _ _
  refine ⟨_, hs.relays h (h.homes hs.homes ?_ fun hsource => ?_) (h.firstsFree hs.firstsFree (fun _ => id) hold
    fun _ hblock hhere => ?_) (fun _ => id) hold fun hcritical _ => ?_⟩
  · cases hfixed : g.isFixed (g.useSite e) with
    | true =>
        rw [hs.homes.fixed _ hfixed]
        refine ⟨hfixed, fun hop => ?_⟩
        have hpath := hs.homes.serves _ hfloats _ hsite
        rw [hs.homes.fixed _ hfixed] at hpath
        rcases controlPath_iff.1 hpath with heq | hleads
        · rw [← heq] at hop
          exact (hs.homes.place _ hfloats).2 hop
        · exact not_leadsTo_start h.consistent hs.onward hop hleads
    | false => exact hs.homes.place _ ⟨h.consistent.has_of_mem_useSites hsite, hfixed, List.not_mem_nil⟩
  · rw [hfloating] at hsource
    cases hsource
  · have hphi : g.op e.target ≠ .phi := fun hop => hs.resolved e h.edge h.value hop hhere
    rw [hheads _ hreads hphi] at hblock
    cases hblock
  · rw [Function.update_self]
    cases hfixed : g.isFixed (g.useSite e) with
    | false => exact .inl ⟨_, ⟨h.consistent.has_of_mem_useSites hsite, hfixed, List.not_mem_nil⟩, rfl⟩
    | true =>
        -- A block that is only a transfer begins with it, and neither a phi nor a node behind
        -- the beginning of a block needs its operands there.
        refine .inr fun first hfirst halone => ?_
        rw [hs.homes.fixed _ hfixed]
        rintro rfl
        by_cases hphi : g.op e.target = .phi
        · exact hcritical.not_alone h.consistent hs.roles hs.resolved h.edge h.value hphi halone
        · have hbegins := hheads _ hreads hphi
          rw [← useSite_eq_target hphi, (mem_blockFirsts.1 hfirst).2] at hbegins
          cases hbegins

/-- One of an addition that control leaves is set aside. -/
theorem Placeable.tag_aside {aside : List NodeId} {home : NodeId → NodeId} (hs : Placeable g aside home listed)
    (hsource : g.isFixed e.source = true) : Placeable g' (aside ++ [mid]) (Function.update home mid mid) listed := by
  have haside : ∀ x ∈ aside, x ∈ aside ++ [mid] := fun x hx => List.mem_append_left _ hx
  have hold : ∀ x, x ≠ mid → Function.update home mid mid x = home x := fun x hx => Function.update_of_ne hx _ _
  have hcounted : ¬ Floats g' (aside ++ [mid]) mid := fun hfloats => absurd (by simp) hfloats.counted
  exact hs.relays h (h.homes_aside hs.homes hsource)
    (h.firstsFree hs.firstsFree haside hold fun hfloats => absurd hfloats hcounted) haside hold
    fun _ hfloats => absurd hfloats hcounted

end Relays

section Enters

variable {g g' : Graph} {add mid next : NodeId} {listed : Prop} (h : Enters g g' add mid next)
include h

theorem Harmless.enters {adds : List NodeId} (hnot : add ∉ adds) (ha : Harmless g adds)
    (hmid : g.op mid = .tagFixnum) : Harmless g' adds := by
  have hold : ∀ {x y : NodeId}, x ∈ adds → y ∈ g'.controlSuccessors x → y ∈ g.controlSuccessors x := by
    intro x y hx hy
    rcases h.successors_iff.1 hy with hy | ⟨rfl, -⟩ | ⟨rfl, -⟩
    · exact hy
    · exact absurd hx hnot
    · have hop := ha.op x hx
      rw [hmid] at hop
      cases hop
  refine ⟨fun x hx => ?_, fun x hx a ha' b hb => ha.sole x hx a (hold hx ha') b (hold hx hb), fun x hx => ?_,
    fun x hx hfree reader hreader hphi => ?_⟩
  · rw [h.nodes.op]
    exact ha.op x hx
  · rw [← Bool.not_eq_true, h.beginsBlock_iff h.consistent h.consistent', ha.begins x hx]
    exact Bool.false_ne_true
  · rw [h.mem_consumers_iff h.consistent h.consistent'] at hreader
    rw [h.nodes.op] at hphi
    rw [← Bool.not_eq_true, h.beginsBlock_iff h.consistent h.consistent', ha.heads x hx ?_ reader hreader hphi]
    · exact Bool.false_ne_true
    · rintro ⟨m, role, hrole, hpos⟩
      exact hfree ⟨m, role, hrole, (h.edge _).2 (.inl hpos)⟩

/-- Once its turn has come the tag counts as a place. -/
theorem Placeable.enters {rest : List NodeId} {home : NodeId → NodeId} (hs : Placeable g (mid :: rest) home listed)
    (hadd : g.op add = .fixnumAdd) (hself : home mid = mid)
    (hreads : ∀ t ∈ mid :: rest, ∀ x, t ∈ g.consumers x → x = add)
    (hread : ∀ y ∈ g.consumers mid, home y ≠ mid ∧ ControlPath g next (home y)) : Placeable g' rest home listed := by
  have hroles : g'.Unscheduled := by
    intro e he
    rcases (h.edge e).1 he with he | rfl | rfl
    · exact hs.roles e he
    · exact .inl rfl
    · exact .inl rfl
  have hfloating : (g.op add).isFixed = false := by
    rw [hadd]
    rfl
  refine ⟨h.homes hs.resolved hs.onward hs.homes hself hreads hread, h.firstsFree hs.resolved hs.firstsFree,
    (h.folds hfloating).parted h.consistent h.consistent' hs.roles hroles hs.parted, h.not_returns hs.onward,
    h.phisResolved hs.resolved, hroles, fun hlisted => ?_⟩
  obtain ⟨hflowing, hcritical⟩ := hs.flowing hlisted
  have hreflows := reflows_of_enters h hfloating hs.resolved hs.roles hroles
  refine ⟨hreflows.flowing hflowing fun x hx => .inl ?_, hreflows.noneCritical hcritical⟩
  have hfloats := (h.floats_back hx).2
  exact ⟨x, hfloats, (if_neg (h.ne_mid_of_isFixed (hs.homes.place x hfloats).1)).symm⟩

end Enters

section Recasts

variable {g g' : Graph} {old new : NodeId} {listed : Prop} (h : Recasts g g' old new)
include h

theorem Harmless.recasts {adds : List NodeId} (hnot : old ∉ adds) (ha : Harmless g adds) : Harmless g' adds := by
  have hkeep : ∀ {x : NodeId}, x ∈ adds → x ≠ old ∧ rename new old x = x := fun hx =>
    ⟨fun heq => hnot (heq ▸ hx), if_neg (h.ne_new (ha.has hx))⟩
  have hnext : ∀ {x y : NodeId}, x ∈ adds → y ∈ g'.controlSuccessors x →
      y ≠ old ∧ rename new old y ∈ g.controlSuccessors x := by
    intro x y hx hy
    obtain ⟨hne, hback⟩ := hkeep hx
    obtain ⟨role, -, hpos⟩ := h.consistent'.mem_controlSuccessors.1 hy
    have hyold := (h.has_back (h.consistent'.has_of_multiplicity hpos).2).1
    rw [h.controlSuccessors_iff h.consistent h.consistent' hne hyold, hback] at hy
    exact ⟨hyold, hy⟩
  refine ⟨fun x hx => ?_, fun x hx a ha' b hb => ?_, fun x hx => ?_, fun x hx hfree reader hreader hphi => ?_⟩
  · rw [h.op x (hkeep hx).1 (h.ne_new (ha.has hx))]
    exact ha.op x hx
  · obtain ⟨haold, ha'⟩ := hnext hx ha'
    obtain ⟨hbold, hb⟩ := hnext hx hb
    rw [← rename_rename_of_ne haold, ha.sole x hx _ ha' _ hb, rename_rename_of_ne hbold]
  · rw [← Bool.not_eq_true, h.beginsBlock_back_iff (hkeep hx).1, (hkeep hx).2, ha.begins x hx]
    exact Bool.false_ne_true
  · obtain ⟨a, hlive, rfl⟩ := h.exists_eq_rename (h.consistent'.has_of_mem_consumers hreader)
    obtain ⟨hne, hback⟩ := hkeep hx
    rw [h.leaves_iff h.consistent hne, hback] at hfree
    rw [h.toRenamed.mem_consumers_iff h.consistent h.consistent' hne (h.rename_ne_old a), hback, h.back hlive] at hreader
    rw [← Bool.not_eq_true, h.beginsBlock_back_iff (h.rename_ne_old a), h.back hlive, ha.heads x hx hfree a hreader]
    · exact Bool.false_ne_true
    · exact fun hop => hphi ((h.op_iff hlive rfl).2 hop)

theorem Placeable.recasts {home : NodeId → NodeId} (hs : Placeable g [] home listed) :
    ∃ home', Placeable g' [] home' listed := by
  have hroles := unscheduled_of_renamed h.toRenamed hs.roles
  refine ⟨renamedHome old new home, h.homes hs.resolved hs.homes, h.firstsFree hs.resolved hs.homes hs.firstsFree,
    h.folds.parted h.consistent h.consistent' hs.roles hroles hs.parted, h.not_returns hs.onward,
    h.phisResolved h.oldFloating h.newFloating h.consistent hs.resolved, hroles, fun hlisted => ?_⟩
  obtain ⟨hflowing, hcritical⟩ := hs.flowing hlisted
  have hreflows := reflows_of_recasts h hs.resolved hs.roles hroles
  refine ⟨hreflows.flowing hflowing fun x hx => .inl ?_, hreflows.noneCritical hcritical⟩
  obtain ⟨a, ha, rfl⟩ := h.exists_eq_rename hx.live
  rw [h.floats_iff ha] at hx
  exact ⟨a, hx, by rw [h.renamedHome_eq home ha, h.back (hs.homes.has_home ha)]⟩

end Recasts

/-! ## Tags that are set aside -/

/-- A tag that is set aside, behind an addition that control leaves for another node. -/
structure Awaits (g : Graph) (add next : NodeId) (home : NodeId → NodeId) (t : NodeId) : Prop where
  self : home t = t
  fed : ∀ x, t ∈ g.consumers x → x = add
  read : ∀ y ∈ g.consumers t, g.isFixed (home y) = true ∧ ControlPath g next (home y)

theorem Awaits.relays {g g' : Graph} {e : Edge} {mid add next t : NodeId} {home : NodeId → NodeId} (h : Relays g g' e mid)
    (ht : g.has t = true) (hsource : e.source ≠ t) (htarget : e.target ≠ t) (hawaits : Awaits g add next home t) :
    Awaits g' add next (Function.update home mid mid) t := by
  have hne := h.ne_mid ht
  refine ⟨?_, fun x hx => ?_, fun y hy => ?_⟩
  · rw [Function.update_of_ne hne, hawaits.self]
  · by_cases hmid : x = mid
    · rw [hmid] at hx
      exact absurd (h.eq_of_mem_consumers h.consistent h.consistent' hx).symm htarget
    · rcases h.mem_consumers_of_new h.consistent h.consistent' hmid hx with ⟨-, heq⟩ | hx
      · exact absurd heq hne
      · exact hawaits.fed x hx
  · rcases h.mem_consumers_of_new h.consistent h.consistent' hne hy with ⟨heq, -⟩ | hy
    · exact absurd heq.symm hsource
    · obtain ⟨hfixed, hpath⟩ := hawaits.read y hy
      rw [Function.update_of_ne (h.ne_mid (h.consistent.has_of_mem_consumers hy)), h.controlPath_eq,
        h.isFixed_eq (h.ne_mid (has_of_isFixed hfixed))]
      exact ⟨hfixed, hpath⟩

/-- So is the new tag, if what read the addition is at home behind that node. -/
theorem awaits_of_relays {g g' : Graph} {e : Edge} {mid next : NodeId} {home : NodeId → NodeId} (h : Relays g g' e mid)
    (hfixed : g.isFixed (home e.target) = true) (hpath : ControlPath g next (home e.target)) :
    Awaits g' e.source next (Function.update home mid mid) mid := by
  have htarget := h.ne_mid (h.consistent.has_of_multiplicity h.edge).2
  refine ⟨Function.update_self .., fun x hx => ?_, fun y hy => ?_⟩
  · by_cases hmid : x = mid
    · rw [hmid] at hx
      exact absurd (h.eq_of_mem_consumers h.consistent h.consistent' hx).symm htarget
    · rcases h.mem_consumers_of_new h.consistent h.consistent' hmid hx with ⟨hsource, -⟩ | hx
      · exact hsource
      · exact absurd rfl (h.ne_mid (h.consistent.has_of_mem_consumers hx))
  · rw [h.eq_of_mem_consumers h.consistent h.consistent' hy, Function.update_of_ne htarget, h.controlPath_eq,
      h.isFixed_eq (h.ne_mid (has_of_isFixed hfixed))]
    exact ⟨hfixed, hpath⟩

theorem Awaits.enters {g g' : Graph} {add mid next t : NodeId} {home : NodeId → NodeId} (h : Enters g g' add mid next)
    (hawaits : Awaits g add next home t) : Awaits g' add next home t := by
  refine ⟨hawaits.self, fun x hx => ?_, fun y hy => ?_⟩
  · rw [h.mem_consumers_iff h.consistent h.consistent'] at hx
    exact hawaits.fed x hx
  · rw [h.mem_consumers_iff h.consistent h.consistent'] at hy
    obtain ⟨hfixed, hpath⟩ := hawaits.read y hy
    have hne := h.ne_mid_of_isFixed hfixed
    rw [h.isFixed_eq hne, h.controlPath_iff (h.ne_mid h.next).2 hne]
    exact ⟨hfixed, hpath⟩

/-! ## Lowering an addition -/

section Lowering

variable {listed : Prop}

/-- A graph that can be scheduled, with additions that can be lowered without harm. -/
def Amenable (listed : Prop) (g : Graph) (adds : List NodeId) : Prop :=
  (∃ home, Placeable g [] home listed) ∧ Harmless g adds

theorem amenable_of_untagOperands {g untagged : Graph} {add : NodeId} {adds : List NodeId} (hg : g.Consistent)
    (hready : Amenable listed g adds) (hadd : add ∈ adds)
    (h : (g.inputsWhere add Role.isValue).foldlM untagOperand g = .ok untagged) : Amenable listed untagged adds := by
  refine (foldlM_keeps_of_mem (fun s => s.Consistent ∧ Amenable listed s adds) (fun s e he s' hs hstep => ?_) h
    ⟨hg, hready⟩).2
  obtain ⟨hs, ⟨home, hplaceable⟩, hharmless⟩ := hs
  obtain ⟨htarget, hvalue⟩ := mem_inputsWhere_isValue hg e he
  obtain ⟨hs', mid, hsplice, hop, -⟩ := untagOperand_eq_ok hs hstep
  have hrelays : Relays s s' e mid := ⟨hsplice, hs, hs', hvalue, by rw [hop]; rfl⟩
  refine ⟨hs', hplaceable.untag hrelays ?_ ?_, hharmless.relays hrelays⟩
  · rw [htarget]
    exact hharmless.op add hadd
  · rw [htarget]
    exact hharmless.begins add hadd

theorem amenable_of_tagUses {g : Graph} {tagged : List NodeId × Graph} {add : NodeId} {adds : List NodeId}
    (hg : g.Consistent) (hready : Amenable listed g adds) (hadd : add ∈ adds) (hfree : ¬ g.Leaves add)
    (h : (g.outputsWhere add Role.isValue).foldlM tagUse ([], g) = .ok tagged) :
    Amenable listed tagged.2 adds ∧ ¬ tagged.2.Leaves add := by
  refine (foldlM_keeps_of_mem (fun state => state.2.Consistent ∧ Amenable listed state.2 adds ∧ ¬ state.2.Leaves add)
    (fun s e he s' hs hstep => ?_) h ⟨hg, hready, hfree⟩).2
  obtain ⟨hs, ⟨⟨home, hplaceable⟩, hharmless⟩, hfree⟩ := hs
  obtain ⟨hsource, hvalue⟩ := mem_outputsWhere_isValue hg e he
  obtain ⟨hs', mid, -, hsplice, hop, -⟩ := tagUse_eq_ok hs hstep
  have hrelays : Relays s.2 s'.2 e mid := ⟨hsplice, hs, hs', hvalue, by rw [hop]; rfl⟩
  refine ⟨hs', ⟨hplaceable.tag hrelays ?_ ?_, hharmless.relays hrelays⟩, ?_⟩
  · rw [hsource]
    exact hfree
  · rw [hsource]
    exact hharmless.heads add hadd hfree
  · rw [hsplice.leaves_iff hvalue]
    exact hfree

/-- What holds while the uses of an addition are tagged that control leaves. -/
structure TaggedAside (listed : Prop) (g : Graph) (add next : NodeId) (adds : List NodeId)
    (state : List NodeId × Graph) : Prop extends Tagged g add state where
  leads : next ∈ state.2.controlSuccessors add
  harmless : Harmless state.2 adds
  placeable : ∃ home, Placeable state.2 state.1 home listed ∧ ∀ t ∈ state.1, Awaits state.2 add next home t

theorem TaggedAside.tagUse {g : Graph} {add next : NodeId} {adds : List NodeId} {state state' : List NodeId × Graph}
    {e : Edge} (h : TaggedAside listed g add next adds state) (hg : g.Consistent) (hadd : add ∈ adds)
    (hop : g.op add = .fixnumAdd) (he : e ∈ g.outputsWhere add Role.isValue) (hstep : tagUse state e = .ok state') :
    TaggedAside listed g add next adds state' := by
  obtain ⟨hsource, hvalue⟩ := mem_outputsWhere_isValue hg e he
  have hs := h.reached.consistent
  obtain ⟨hs', mid, htags, hsplice, hmid, -⟩ := tagUse_eq_ok hs hstep
  have hrelays : Relays state.2 state'.2 e mid := ⟨hsplice, hs, hs', hvalue, by rw [hmid]; rfl⟩
  obtain ⟨home, hplaceable, hawaits⟩ := h.placeable
  -- What reads the addition is an old node, and at home where control goes from the addition.
  have hne : ∀ t ∈ state.1, ∀ x, g.has x = true → x ≠ t := by
    rintro t ht x hx rfl
    rw [h.new _ ht] at hx
    cases hx
  have htarget : g.has e.target = true := hg.has_target (List.mem_of_mem_filter he)
  have hcounted : e.target ∉ state.1 := fun hmem => hne _ hmem _ htarget rfl
  have haddFixed : state.2.isFixed e.source = true := by
    rw [hsource]
    exact isFixed_of_hasControlSuccessor h.leads
  have hreads : e.target ∈ state.2.consumers e.source := hs.mem_consumers.2 ⟨e.role, hvalue, hsplice.edge⟩
  have hfixed : state.2.isFixed (home e.target) = true := by
    cases hfixed : state.2.isFixed e.target with
    | true =>
        rw [hplaceable.homes.fixed _ hfixed]
        exact hfixed
    | false => exact (hplaceable.homes.place _ ⟨h.reached.live _ htarget, hfixed, hcounted⟩).1
  have hpath : ControlPath state.2 next (home e.target) := by
    obtain ⟨x, hx, hrest⟩ := TransGen.head'_iff.1 (hplaceable.homes.operands _ _ haddFixed hreads hcounted)
    rw [hsource] at hx
    rwa [h.harmless.sole add hadd x hx next h.leads] at hrest
  refine ⟨h.toTagged.tagUse hg hop he hstep, (hsplice.controlSuccessors_iff hvalue hs hs').2 h.leads,
    h.harmless.relays hrelays, Function.update home mid mid, ?_, fun t ht => ?_⟩
  · rw [htags]
    exact hplaceable.tag_aside hrelays haddFixed
  · rw [htags, List.mem_append, List.mem_singleton] at ht
    rcases ht with ht | rfl
    · refine (hawaits t ht).relays hrelays (hs.has_of_multiplicity (h.pending t ht).fed).2 ?_ (hne t ht _ htarget)
      rw [hsource]
      exact hne t ht _ (has_of_op_ne_invalid (by rw [hop]; decide))
    · rw [← hsource]
      exact awaits_of_relays hrelays hfixed hpath

theorem taggedAside_of_tagUses {g : Graph} {state : List NodeId × Graph} {add next : NodeId} {adds : List NodeId}
    (hg : g.Consistent) (hready : Amenable listed g adds) (hadd : add ∈ adds) (hnext : next ∈ g.controlSuccessors add)
    (h : (g.outputsWhere add Role.isValue).foldlM tagUse ([], g) = .ok state) :
    TaggedAside listed g add next adds state := by
  obtain ⟨⟨home, hplaceable⟩, hharmless⟩ := hready
  have hop := hharmless.op add hadd
  refine foldlM_keeps_of_mem (TaggedAside listed g add next adds)
    (fun _ _ he _ hstate hstep => hstate.tagUse hg hadd hop he hstep) h ?_
  exact ⟨⟨.refl hg, List.nodup_nil, by simp, by simp⟩, hnext, hharmless, home, hplaceable, by simp⟩

/-- Tags that were set aside are put in control flow one after the other. -/
theorem amenable_of_sequenceTags {g sequenced : Graph} {add next : NodeId} {adds tags : List NodeId}
    {home : NodeId → NodeId} (hg : g.Consistent) (hop : g.op add = .fixnumAdd) (hnot : add ∉ adds)
    (hnext : next ∈ g.controlSuccessors add) (hnodup : tags.Nodup) (hpending : ∀ t ∈ tags, Pending g add t)
    (hplaceable : Placeable g tags home listed) (hharmless : Harmless g adds)
    (hawaits : ∀ t ∈ tags, Awaits g add next home t)
    (h : tags.foldlM (sequenceTag add next) g = .ok sequenced) : Amenable listed sequenced adds := by
  induction tags generalizing g with
  | nil =>
      rw [List.foldlM_nil, pure_eq_ok] at h
      subst h
      exact ⟨⟨home, hplaceable⟩, hharmless⟩
  | cons mid rest ih =>
      rw [List.foldlM_cons] at h
      obtain ⟨first, hfirst, hrest⟩ := bind_eq_ok.1 h
      have hconsistent := consistent_sequenceTag hfirst hg
      obtain ⟨joined, hjoined, hlinked⟩ := bind_eq_ok.1 hfirst
      have hsequence := sequenced_of_connect hjoined hlinked
      obtain ⟨hnotRest, hnodup⟩ := List.nodup_cons.1 hnodup
      have hmid := hpending mid List.mem_cons_self
      have henters : Enters g first add mid next :=
        ⟨hsequence, hg, hconsistent, hnext, hmid.free, by rw [hmid.op]; rfl⟩
      obtain ⟨role, hrole, hpos⟩ := hg.mem_controlSuccessors.1 hnext
      refine ih hconsistent ?_ ?_ hnodup (fun t ht => ?_) ?_ (hharmless.enters henters hnot hmid.op)
        (fun t ht => (hawaits t (List.mem_cons_of_mem mid ht)).enters henters) hrest
      · rw [hsequence.nodes.op, hop]
      · exact henters.successors_iff.2 (.inl hnext)
      · exact (hpending t (List.mem_cons_of_mem mid ht)).sequence hsequence hrole hpos fun heq => hnotRest (heq ▸ ht)
      · have hself := hawaits mid List.mem_cons_self
        refine hplaceable.enters henters hop hself.self (fun t ht => (hawaits t ht).fed) fun y hy => ?_
        obtain ⟨hfixed, hpath⟩ := hself.read y hy
        exact ⟨henters.ne_mid_of_isFixed hfixed, hpath⟩

theorem amenable_of_lowerAdd {g g' : Graph} {add : NodeId} {rest : List NodeId} (hg : g.Consistent)
    (hready : Amenable listed g (add :: rest)) (hnot : add ∉ rest) (h : lowerAdd g add = .ok g') :
    Amenable listed g' rest := by
  obtain ⟨untagged, tagged, sequenced, huntagged, htagged, hsequenced, hreplace⟩ := lowerAdd_eq_ok h
  have hop := hready.2.op add List.mem_cons_self
  have hu : Reached g untagged := reached_of_untagOperands hg hop huntagged
  have huop := (hu.adds add).2 hop
  have ht : Tagged untagged add tagged := tagged_of_tagUses hu.consistent huop htagged
  have htg := ht.reached.consistent
  have htop := (ht.reached.adds add).2 huop
  have hready := amenable_of_untagOperands hg hready List.mem_cons_self huntagged
  have hs := (threaded_of_sequencing ht htop hsequenced).1
  obtain ⟨⟨home, hplaceable⟩, hharmless⟩ : Amenable listed sequenced rest := by
    by_cases hleaves : untagged.Leaves add
    · obtain ⟨next, role, hrole, hpos⟩ := hleaves
      have hnext := hu.consistent.mem_controlSuccessors.2 ⟨role, hrole, hpos⟩
      have haside := taggedAside_of_tagUses hu.consistent hready List.mem_cons_self hnext htagged
      obtain ⟨home, hplaceable, hawaits⟩ := haside.placeable
      rcases hsequenced with ⟨hnone, -⟩ | ⟨other, hother, hsequenced⟩
      · exact absurd hnone (List.ne_nil_of_mem haside.leads)
      · rw [haside.harmless.sole add List.mem_cons_self other hother next haside.leads] at hsequenced
        exact amenable_of_sequenceTags htg htop hnot haside.leads ht.nodup ht.pending hplaceable
          haside.harmless.of_cons hawaits hsequenced
    · obtain ⟨hready, hfree⟩ := amenable_of_tagUses hu.consistent hready List.mem_cons_self hleaves htagged
      rcases hsequenced with ⟨-, rfl⟩ | ⟨next, hnext, -⟩
      · exact ⟨hready.1, hready.2.of_cons⟩
      · obtain ⟨role, hrole, hpos⟩ := htg.mem_controlSuccessors.1 hnext
        exact absurd ⟨next, role, hrole, hpos⟩ hfree
  obtain ⟨hrename, hnew, -⟩ := hs.consistent.renamed_of_replace hreplace
  have hrecasts : Recasts sequenced g' add _ :=
    ⟨hrename, hs.consistent, consistent_lowerAdd h hg, by rw [(hs.adds add).2 htop]; rfl, by rw [hnew]; rfl⟩
  exact ⟨hplaceable.recasts hrecasts, hharmless.recasts hrecasts hnot⟩

theorem amenable_of_lowerTest {g g' : Graph} {test : NodeId} {adds : List NodeId} (hg : g.Consistent)
    (hready : Amenable listed g adds) (htest : g.op test = .kindIs) (h : lowerTest g test = .ok g') :
    Amenable listed g' adds := by
  obtain ⟨⟨home, hplaceable⟩, hharmless⟩ := hready
  obtain ⟨hrename, hnew, -⟩ := hg.renamed_of_replace h
  have hrecasts : Recasts g g' test _ :=
    ⟨hrename, hg, consistent_lowerTest h hg, by rw [htest]; rfl, by rw [hnew]; rfl⟩
  refine ⟨hplaceable.recasts hrecasts, hharmless.recasts hrecasts fun hmem => ?_⟩
  have hop := hharmless.op test hmem
  rw [htest] at hop
  cases hop

/-! ## Runs -/

theorem placeable_of_lowerAdds {g g' : Graph} {adds : List NodeId} (hg : g.Consistent) (hnodup : adds.Nodup)
    (hready : Amenable listed g adds) (h : adds.foldlM lowerAdd g = .ok g') : ∃ home, Placeable g' [] home listed := by
  induction adds generalizing g with
  | nil =>
      rw [List.foldlM_nil, pure_eq_ok] at h
      subst h
      exact hready.1
  | cons add rest ih =>
      rw [List.foldlM_cons] at h
      obtain ⟨next, hnext, hrest⟩ := bind_eq_ok.1 h
      obtain ⟨hnotRest, hnodup⟩ := List.nodup_cons.1 hnodup
      exact ih (consistent_lowerAdd hnext hg) hnodup (amenable_of_lowerAdd hg hready hnotRest hnext) hrest

/-- A test that is to come is still one: the tests before it got names of their own. -/
theorem amenable_of_lowerTests {tests : List NodeId} {g g' : Graph} {adds : List NodeId} (hg : g.Consistent)
    (hnodup : tests.Nodup) (htests : ∀ id ∈ tests, g.op id = .kindIs) (hready : Amenable listed g adds)
    (h : tests.foldlM lowerTest g = .ok g') : Amenable listed g' adds := by
  induction tests generalizing g with
  | nil =>
      rw [List.foldlM_nil, pure_eq_ok] at h
      subst h
      exact hready
  | cons test rest ih =>
      rw [List.foldlM_cons] at h
      obtain ⟨next, hnext, hrest⟩ := bind_eq_ok.1 h
      exact ih (consistent_lowerTest hnext hg) (List.nodup_cons.1 hnodup).2
        (op_eq_kindIs_of_lowerTest hg hnodup htests hnext)
        (amenable_of_lowerTest hg hready (htests test List.mem_cons_self) hnext) hrest

/-- If all additions can be lowered without harm the lowered graph can be scheduled like the
    graph was. -/
theorem placeable_run {g : Graph} {r : Change} (hg : g.Consistent) (hready : Amenable listed g (g.find .fixnumAdd))
    (h : run g = .ok r) : ∃ home, Placeable r.graph [] home listed := by
  obtain ⟨-, tested, htested, hadded⟩ := run_phases h
  obtain ⟨-, hconsistent, -⟩ := lowers_of_run_tests hg htested
  have htests : ∀ id ∈ (g.find .kindIs).filter (isFixnumTest g), g.op id = .kindIs := fun id hid =>
    (mem_find_iff (by decide)).1 (List.mem_of_mem_filter hid)
  exact placeable_of_lowerAdds hconsistent (g.nodup_ids.filter _)
    (amenable_of_lowerTests hg ((g.nodup_ids.filter _).filter _) htests hready htested) hadded

end Lowering

end SeaOfNodes.Pass.Tagging
