/-
  SeaOfNodes.Proofs.Schedule.RewrittenHomes

  Homes in rewritten graphs.  A floating node that is spliced onto a value edge is at home
  where the value is needed.  One that will be put in control flow is set aside until it is,
  and then it is a place of its own, between two nodes that control went through anyway.  A
  node that takes the place of another takes its home, too.
-/
import SeaOfNodes.Proofs.Graph.UseSites
import SeaOfNodes.Proofs.Schedule.HomeBlocks

namespace SeaOfNodes.Schedule

open SeaOfNodes.Graph Relation

/-! ## A node spliced onto a value edge -/

/-- A floating node is spliced onto a value edge. -/
structure Relays (g g' : Graph) (e : Edge) (mid : NodeId) : Prop extends Spliced g g' e mid where
  consistent : g.Consistent
  consistent' : g'.Consistent
  value : e.role.isValue = true
  floating : (g'.op mid).isFixed = false

namespace Relays

variable {g g' : Graph} {e : Edge} {mid : NodeId} (h : Relays g g' e mid)
include h

theorem controlPath_eq : ControlPath g' = ControlPath g := by
  have hsame : (fun a b => b ∈ g'.controlSuccessors a) = fun a b => b ∈ g.controlSuccessors a := by
    funext a b
    exact propext (h.controlSuccessors_iff h.value h.consistent h.consistent')
  unfold ControlPath
  rw [hsame]

theorem leadsTo_eq : g'.LeadsTo = g.LeadsTo := h.toSpliced.leadsTo_eq h.value h.consistent h.consistent'

theorem isFixed_eq {id : NodeId} (hid : id ≠ mid) : g'.isFixed id = g.isFixed id :=
  Bool.eq_iff_iff.2 (h.isFixed_iff h.value h.consistent h.consistent' hid)

theorem isFixed_mid : g'.isFixed mid = false := by
  rw [← Bool.not_eq_true, h.consistent'.isFixed_iff, h.controlled_iff h.value, not_or]
  refine ⟨by rw [h.floating]; exact Bool.false_ne_true, fun hcontrolled => ?_⟩
  exact h.ne_mid (h.consistent.has_of_controlled hcontrolled) rfl

theorem of_isFixed {id : NodeId} (hid : g'.isFixed id = true) : id ≠ mid ∧ g.isFixed id = true := by
  have hne : id ≠ mid := by
    rintro rfl
    rw [h.isFixed_mid] at hid
    cases hid
  exact ⟨hne, by rw [← h.isFixed_eq hne]; exact hid⟩

theorem beginsBlock_mid : g'.beginsBlock mid = false := by
  rw [← Bool.not_eq_true, h.consistent'.beginsBlock_iff]
  rintro (hstart | hmerge | ⟨m, role, houtcome, hpos⟩)
  · exact op_ne_of_isFixed h.floating rfl hstart
  · exact op_ne_of_isFixed h.floating rfl hmerge
  · have hpos := (h.control_iff h.value (isControl_of_isOutcome houtcome)).1 hpos
    exact h.ne_mid (h.consistent.has_of_multiplicity hpos).2 rfl

theorem mem_useSites_source : g.useSite e ∈ g.useSites e.source :=
  h.consistent.mem_useSites.2 ⟨e, h.edge, h.value, rfl, rfl⟩

theorem useSites_ne {x site : NodeId} (hsite : site ∈ g.useSites x) : site ≠ mid :=
  h.ne_mid (h.consistent.has_of_mem_useSites hsite)

/-- The other floating nodes are those that floated before. -/
theorem floats_back {aside aside' : List NodeId} (haside : ∀ x ∈ aside, x ∈ aside') {x : NodeId}
    (hx : Floats g' aside' x) (hne : x ≠ mid) : Floats g aside x := by
  refine ⟨((h.has x).1 hx.live).resolve_right hne, ?_, fun hmem => hx.counted (haside x hmem)⟩
  rw [← h.isFixed_eq hne]
  exact hx.floating

/-- A place stays one. -/
theorem place {p : NodeId} (hp : g.isFixed p = true ∧ g.op p ≠ .start) : g'.isFixed p = true ∧ g'.op p ≠ .start := by
  have hne := h.ne_mid (has_of_isFixed hp.1)
  rw [h.isFixed_eq hne, h.op p hne]
  exact hp

theorem not_returns (honward : ¬ Returns g) : ¬ Returns g' := by
  rintro ⟨id, hid, hpreds⟩
  have hne : id ≠ mid := by
    rintro rfl
    exact op_ne_of_isFixed h.floating rfl hid
  refine honward ⟨id, by rw [← h.op id hne, hid], ?_⟩
  rw [controlPredecessors, h.entries h.value hne] at hpreds
  exact hpreds

/-! ### Homes -/

/-- Depths are doubled to make room between a value and what reads it. -/
theorem founded {depth : NodeId → Nat}
    (hdepth : ∀ x y, Floats g [] x → Floats g [] y → y ∈ g.consumers x → depth y < depth x) :
    ∃ depth' : NodeId → Nat, ∀ x y, Floats g' [] x → Floats g' [] y → y ∈ g'.consumers x → depth' y < depth' x := by
  classical
  have hback : ∀ {x : NodeId}, Floats g' [] x → x ≠ mid → Floats g [] x := fun hx hne =>
    h.floats_back (fun _ => id) hx hne
  have htarget : e.target ≠ mid := h.ne_mid (h.consistent.has_of_multiplicity h.edge).2
  have hold : e.target ∈ g.consumers e.source := h.consistent.mem_consumers.2 ⟨e.role, h.value, h.edge⟩
  let between := if Floats g [] e.target then 2 * depth e.target + 2 else 0
  refine ⟨Function.update (fun x => 2 * depth x + 1) mid between, fun x y hx hy hreads => ?_⟩
  by_cases hxmid : x = mid
  · subst hxmid
    obtain rfl := h.eq_of_mem_consumers h.consistent h.consistent' hreads
    rw [Function.update_self, Function.update_of_ne htarget]
    simp only [between, if_pos (hback hy htarget)]
    omega
  · rw [Function.update_of_ne hxmid]
    rcases h.mem_consumers_of_new h.consistent h.consistent' hxmid hreads with ⟨rfl, rfl⟩ | hreads
    · rw [Function.update_self]
      simp only [between]
      split
      · rename_i hfloats
        have hlt := hdepth _ _ (hback hx hxmid) hfloats hold
        omega
      · omega
    · have hymid : y ≠ mid := h.ne_mid (h.consistent.has_of_mem_consumers hreads)
      rw [Function.update_of_ne hymid]
      have hlt := hdepth x y (hback hx hxmid) (hback hy hymid) hreads
      omega

theorem serves_mid_iff {home : NodeId → NodeId} {c : NodeId} :
    Serves g' (Function.update home mid (home (g.useSite e))) mid c ↔ ControlPath g c (home (g.useSite e)) := by
  have hne := h.useSites_ne h.mem_useSites_source
  unfold Serves
  rw [h.controlPath_eq]
  constructor
  · intro hserves
    have hlast := hserves _ (h.mem_useSites_tail h.value h.consistent h.consistent')
    rwa [Function.update_of_ne hne] at hlast
  · intro hpath site hsite
    rw [h.eq_of_mem_useSites h.value h.consistent h.consistent' hsite, Function.update_of_ne hne]
    exact hpath

/-- Where the new node is needed something was needed before, at the same home. -/
theorem serves_iff {home : NodeId → NodeId} {x c : NodeId} (hx : x ≠ mid) :
    Serves g' (Function.update home mid (home (g.useSite e))) x c ↔ Serves g home x c := by
  have hphi : g'.op mid ≠ .phi := op_ne_of_isFixed h.floating rfl
  unfold Serves
  rw [h.controlPath_eq]
  constructor
  · intro hserves site hsite
    rcases h.mem_useSites_of_old h.value h.consistent h.consistent' hsite with ⟨rfl, rfl⟩ | hsite'
    · have hlast := hserves mid (h.mem_useSites_head h.value h.consistent' hphi)
      rwa [Function.update_self] at hlast
    · have hlast := hserves site hsite'
      rwa [Function.update_of_ne (h.useSites_ne hsite)] at hlast
  · intro hserves site hsite
    rcases h.mem_useSites_of_new h.value h.consistent h.consistent' hphi hx hsite with ⟨rfl, rfl⟩ | hsite
    · rw [Function.update_self]
      exact hserves _ h.mem_useSites_source
    · rw [Function.update_of_ne (h.useSites_ne hsite)]
      exact hserves site hsite

/-- The new node is at home where its value is needed. -/
theorem homes {home : NodeId → NodeId} (hh : Homes g [] home)
    (hplace : g.isFixed (home (g.useSite e)) = true ∧ g.op (home (g.useSite e)) ≠ .start)
    (hoperand : g.isFixed e.source = true → g.LeadsTo e.source (home (g.useSite e))) :
    Homes g' [] (Function.update home mid (home (g.useSite e))) := by
  have hold : ∀ {x : NodeId}, x ≠ mid → Function.update home mid (home (g.useSite e)) x = home x := fun hx =>
    Function.update_of_ne hx _ _
  have hnew : Function.update home mid (home (g.useSite e)) mid = home (g.useSite e) := Function.update_self ..
  have hback : ∀ {x : NodeId}, Floats g' [] x → x ≠ mid → Floats g [] x := fun hx hne =>
    h.floats_back (fun _ => id) hx hne
  obtain ⟨depth, hdepth⟩ := hh.founded
  refine ⟨fun id hid => ?_, fun x hx => ?_, fun x hx => ?_, fun x hx c hc hstart hserves => ?_, fun x y hx hy _ => ?_,
    h.founded hdepth⟩
  · obtain ⟨hne, hid⟩ := h.of_isFixed hid
    rw [hold hne, hh.fixed id hid]
  · by_cases hxmid : x = mid
    · rw [hxmid, hnew]
      exact h.place hplace
    · rw [hold hxmid]
      exact h.place (hh.place x (hback hx hxmid))
  · by_cases hxmid : x = mid
    · rw [hxmid, h.serves_mid_iff, hnew]
      exact .refl
    · rw [h.serves_iff hxmid, hold hxmid]
      exact hh.serves x (hback hx hxmid)
  · obtain ⟨hne, hc⟩ := h.of_isFixed hc
    rw [h.op c hne] at hstart
    rw [h.controlPath_eq]
    by_cases hxmid : x = mid
    · rw [hxmid, h.serves_mid_iff] at hserves
      rwa [hxmid, hnew]
    · rw [h.serves_iff hxmid] at hserves
      rw [hold hxmid]
      exact hh.nearest x (hback hx hxmid) c hc hstart hserves
  · obtain ⟨hne, hx⟩ := h.of_isFixed hx
    rw [h.leadsTo_eq]
    rcases h.mem_consumers_of_new h.consistent h.consistent' hne hy with ⟨rfl, rfl⟩ | hy
    · rw [hnew]
      exact hoperand hx
    · rw [hold (h.ne_mid (h.consistent.has_of_mem_consumers hy))]
      exact hh.operands x y hx hy List.not_mem_nil

theorem serves_iff_of_ne_source {home : NodeId → NodeId} {x c : NodeId} (hx : x ≠ mid) (hsource : x ≠ e.source) :
    Serves g' (Function.update home mid mid) x c ↔ Serves g home x c := by
  have hphi : g'.op mid ≠ .phi := op_ne_of_isFixed h.floating rfl
  unfold Serves
  rw [h.controlPath_eq]
  constructor
  · intro hserves site hsite
    have hsite' := (h.mem_useSites_of_old h.value h.consistent h.consistent' hsite).resolve_left fun hhere =>
      hsource hhere.1
    have hlast := hserves site hsite'
    rwa [Function.update_of_ne (h.useSites_ne hsite)] at hlast
  · intro hserves site hsite
    have hsite := (h.mem_useSites_of_new h.value h.consistent h.consistent' hphi hx hsite).resolve_left fun hhere =>
      hsource hhere.1
    rw [Function.update_of_ne (h.useSites_ne hsite)]
    exact hserves site hsite

/-- If it reads a fixed node it can be set aside, and no other home changes. -/
theorem homes_aside {aside : List NodeId} {home : NodeId → NodeId} (hh : Homes g aside home)
    (hsource : g.isFixed e.source = true) : Homes g' (aside ++ [mid]) (Function.update home mid mid) := by
  have hold : ∀ {x : NodeId}, x ≠ mid → Function.update home mid mid x = home x := fun hx => Function.update_of_ne hx _ _
  have hback : ∀ {x : NodeId}, Floats g' (aside ++ [mid]) x → x ≠ mid ∧ x ≠ e.source ∧ Floats g aside x := by
    intro x hx
    have hne : x ≠ mid := by
      rintro rfl
      exact hx.counted (by simp)
    have hfloats : Floats g aside x := h.floats_back (fun y hy => by simp [hy]) hx hne
    refine ⟨hne, ?_, hfloats⟩
    rintro rfl
    have hfloating := hfloats.floating
    rw [hsource] at hfloating
    cases hfloating
  obtain ⟨depth, hdepth⟩ := hh.founded
  refine ⟨fun id hid => ?_, fun x hx => ?_, fun x hx => ?_, fun x hx c hc hstart hall => ?_, fun x y hx hy hcounted => ?_,
    depth, fun x y hx hy hreads => ?_⟩
  · obtain ⟨hne, hid⟩ := h.of_isFixed hid
    rw [hold hne, hh.fixed id hid]
  · obtain ⟨hne, -, hfloats⟩ := hback hx
    rw [hold hne]
    exact h.place (hh.place x hfloats)
  · obtain ⟨hne, hsourceNe, hfloats⟩ := hback hx
    rw [h.serves_iff_of_ne_source hne hsourceNe, hold hne]
    exact hh.serves x hfloats
  · obtain ⟨hne, hsourceNe, hfloats⟩ := hback hx
    obtain ⟨hcmid, hc⟩ := h.of_isFixed hc
    rw [h.op c hcmid] at hstart
    rw [h.serves_iff_of_ne_source hne hsourceNe] at hall
    rw [h.controlPath_eq, hold hne]
    exact hh.nearest x hfloats c hc hstart hall
  · obtain ⟨hne, hx⟩ := h.of_isFixed hx
    have hymid : y ≠ mid := by
      rintro rfl
      exact hcounted (by simp)
    rw [h.leadsTo_eq, hold hymid]
    have hreads := (h.mem_consumers_of_new h.consistent h.consistent' hne hy).resolve_left fun hhere => hymid hhere.2
    exact hh.operands x y hx hreads fun hmem => hcounted (by simp [hmem])
  · obtain ⟨hne, -, hfloatsX⟩ := hback hx
    obtain ⟨hymid, -, hfloatsY⟩ := hback hy
    have hreads := (h.mem_consumers_of_new h.consistent h.consistent' hne hreads).resolve_left fun hhere => hymid hhere.2
    exact hdepth x y hfloatsX hfloatsY hreads

/-! ### First nodes -/

/-- The first nodes are still free, unless the new node is at home at one that reads it. -/
theorem firstsFree {aside aside' : List NodeId} {home home' : NodeId → NodeId} (hfirst : FirstsFree g aside home)
    (haside : ∀ x ∈ aside, x ∈ aside') (hhome : ∀ x, x ≠ mid → home' x = home x)
    (htail : Floats g' aside' mid → g.beginsBlock e.target = true → g.useSite e ≠ e.target) :
    FirstsFree g' aside' home' := by
  intro x hx hrole hbegins hfloats hsite
  rcases h.old x hx with rfl | rfl | hx
  · rw [show (spliceHead e mid).target = mid from rfl, h.beginsBlock_mid] at hbegins
    cases hbegins
  · have hne := h.ne_mid (h.consistent.has_of_multiplicity h.edge).2
    rw [h.useSite h.value h.consistent (x := spliceTail e mid) hne] at hsite
    exact absurd hsite (htail hfloats ((h.beginsBlock_iff h.value h.consistent h.consistent' hne).1 hbegins))
  · obtain ⟨hsource, htarget⟩ := h.consistent.has_of_multiplicity hx
    have hne := h.ne_mid htarget
    rw [h.useSite h.value h.consistent hne] at hsite
    rw [hhome _ (h.ne_mid hsource)]
    exact hfirst x hx hrole ((h.beginsBlock_iff h.value h.consistent h.consistent' hne).1 hbegins)
      (h.floats_back haside hfloats (h.ne_mid hsource)) hsite

end Relays

/-! ## A node put in control flow -/

/-- A floating node is put between two nodes, where control leads from one to the other. -/
structure Enters (g g' : Graph) (before mid after : NodeId) : Prop extends Sequenced g g' before mid after where
  consistent : g.Consistent
  consistent' : g'.Consistent
  next : after ∈ g.controlSuccessors before
  free : ¬ g.Controlled mid
  floating : (g.op mid).isFixed = false

namespace Enters

variable {g g' : Graph} {before mid after : NodeId} (h : Enters g g' before mid after)
include h

theorem successors_iff {a b : NodeId} : b ∈ g'.controlSuccessors a ↔
    b ∈ g.controlSuccessors a ∨ (a = before ∧ b = mid) ∨ (a = mid ∧ b = after) :=
  h.controlSuccessors_iff h.consistent h.consistent'

theorem exists_next : ∃ role : Role, role.isControl = true ∧ 0 < g.multiplicity ⟨before, after, role⟩ :=
  h.consistent.mem_controlSuccessors.1 h.next

theorem isFixed_eq {id : NodeId} (hid : id ≠ mid) : g'.isFixed id = g.isFixed id := by
  obtain ⟨role, hrole, hnext⟩ := h.exists_next
  rw [Bool.eq_iff_iff, h.consistent.isFixed_iff, h.consistent'.isFixed_iff, h.nodes.op, h.controlled_iff hrole hnext,
    or_iff_left hid]

theorem isFixed_mid : g'.isFixed mid = true := by
  obtain ⟨role, hrole, hnext⟩ := h.exists_next
  exact h.consistent'.isFixed_iff.2 (.inr ((h.controlled_iff hrole hnext).2 (.inr rfl)))

theorem isFixed_mid_old : g.isFixed mid = false := by
  rw [← Bool.not_eq_true, h.consistent.isFixed_iff, not_or]
  exact ⟨by rw [h.floating]; exact Bool.false_ne_true, h.free⟩

theorem ne_mid_of_isFixed {p : NodeId} (hp : g.isFixed p = true) : p ≠ mid := by
  rintro rfl
  rw [h.isFixed_mid_old] at hp
  cases hp

theorem floats_back {rest : List NodeId} {x : NodeId} (hx : Floats g' rest x) : x ≠ mid ∧ Floats g (mid :: rest) x := by
  have hne : x ≠ mid := by
    rintro rfl
    have hfloating := hx.floating
    rw [h.isFixed_mid] at hfloating
    cases hfloating
  refine ⟨hne, ?_, ?_, fun hmem => (List.mem_cons.1 hmem).elim hne hx.counted⟩
  · rw [← h.nodes.has]
    exact hx.live
  · rw [← h.isFixed_eq hne]
    exact hx.floating

/-- Control came neither from the node nor to it. -/
theorem ne_mid {a b : NodeId} (hb : b ∈ g.controlSuccessors a) : a ≠ mid ∧ b ≠ mid := by
  obtain ⟨role, hrole, hpos⟩ := h.consistent.mem_controlSuccessors.1 hb
  constructor
  · rintro rfl
    exact h.free (.inr ⟨b, role, hrole, hpos⟩)
  · rintro rfl
    exact h.free (.inl ⟨a, role, hrole, hpos⟩)

theorem leadsTo_iff {a b : NodeId} (ha : a ≠ mid) (hb : b ≠ mid) : g'.LeadsTo a b ↔ g.LeadsTo a b := by
  obtain ⟨role, hrole, hnext⟩ := h.exists_next
  exact h.toSequenced.leadsTo_iff h.consistent h.consistent' hrole hnext h.free ha hb

theorem controlPath_iff {a b : NodeId} (ha : a ≠ mid) (hb : b ≠ mid) : ControlPath g' a b ↔ ControlPath g a b := by
  rw [Schedule.controlPath_iff, Schedule.controlPath_iff, h.leadsTo_iff ha hb]

/-- From the node control goes on to where it went from the one before it. -/
theorem leadsTo_of_after {b : NodeId} (hb : b ≠ mid) (hpath : ControlPath g after b) : g'.LeadsTo mid b := by
  have hstep : after ∈ g'.controlSuccessors mid := h.successors_iff.2 (.inr (.inr ⟨rfl, rfl⟩))
  exact TransGen.head' hstep ((h.controlPath_iff (h.ne_mid h.next).2 hb).2 hpath)

theorem after_of_controlPath {b : NodeId} (hb : b ≠ mid) (hpath : ControlPath g' mid b) : ControlPath g after b := by
  obtain ⟨hbefore, hafter⟩ := h.ne_mid h.next
  rcases ReflTransGen.cases_head hpath with rfl | ⟨x, hx, hrest⟩
  · exact absurd rfl hb
  · rcases h.successors_iff.1 hx with hx | ⟨heq, -⟩ | ⟨-, rfl⟩
    · exact absurd rfl (h.ne_mid hx).1
    · exact absurd heq.symm hbefore
    · exact (h.controlPath_iff hafter hb).1 hrest

theorem not_returns (honward : ¬ Returns g) : ¬ Returns g' := by
  rintro ⟨id, hop, hpreds⟩
  rw [h.nodes.op] at hop
  obtain ⟨x, hx⟩ := List.exists_mem_of_ne_nil _ hpreds
  have hback : ∀ {y : NodeId}, id ∉ g.controlSuccessors y := fun hy => by
    refine honward ⟨id, hop, List.ne_nil_of_mem (h.consistent.mem_controlPredecessors.2 hy)⟩
  rcases h.successors_iff.1 (h.consistent'.mem_controlPredecessors.1 hx) with hx | ⟨-, rfl⟩ | ⟨-, rfl⟩
  · exact hback hx
  · exact op_ne_of_isFixed h.floating rfl hop
  · exact hback h.next

variable (hres : g.PhisResolved)
include hres

/-- Paths between places other than the new one are what they were. -/
theorem serves_iff {home : NodeId → NodeId} {x c : NodeId} (hc : c ≠ mid) (hhome : ∀ site ∈ g.useSites x, home site ≠ mid) :
    Serves g' home x c ↔ Serves g home x c := by
  refine forall_congr' fun site => ?_
  rw [h.mem_useSites_iff h.consistent h.consistent' hres]
  exact imp_congr_right fun hsite => h.controlPath_iff hc (hhome site hsite)

/-- Once it is in control flow the new node is where it is, if it read only the node before
    it, and what reads it is at home behind the node after it. -/
theorem homes {rest : List NodeId} {home : NodeId → NodeId} (honward : ¬ Returns g) (hh : Homes g (mid :: rest) home)
    (hself : home mid = mid) (hreads : ∀ t ∈ mid :: rest, ∀ x, t ∈ g.consumers x → x = before)
    (hread : ∀ y ∈ g.consumers mid, home y ≠ mid ∧ ControlPath g after (home y)) : Homes g' rest home := by
  have hsites : ∀ {x : NodeId}, Floats g (mid :: rest) x → ∀ site ∈ g.useSites x, home site ≠ mid := by
    intro x hx site hsite
    cases hfixed : g.isFixed site with
    | true =>
        rw [hh.fixed site hfixed]
        exact h.ne_mid_of_isFixed hfixed
    | false =>
        -- What is set aside reads a fixed node, so the use is a floating node that counts.
        refine h.ne_mid_of_isFixed (hh.place site ⟨h.consistent.has_of_mem_useSites hsite, hfixed, fun hmem => ?_⟩).1
        have hbefore := hreads site hmem x (mem_consumers_of_useSite h.consistent hsite hfixed)
        have hfloating := hx.floating
        rw [hbefore, isFixed_of_hasControlSuccessor h.next] at hfloating
        cases hfloating
  obtain ⟨depth, hdepth⟩ := hh.founded
  refine ⟨fun id hid => ?_, fun x hx => ?_, fun x hx => ?_, fun x hx c hc hstart hserves => ?_, fun x y hx hy hcounted => ?_,
    depth, fun x y hx hy hreads => ?_⟩
  · by_cases hmid : id = mid
    · rw [hmid, hself]
    · rw [h.isFixed_eq hmid] at hid
      exact hh.fixed id hid
  · obtain ⟨hfixed, hstart⟩ := hh.place x (h.floats_back hx).2
    rw [h.isFixed_eq (h.ne_mid_of_isFixed hfixed), h.nodes.op]
    exact ⟨hfixed, hstart⟩
  · obtain ⟨-, hfloats⟩ := h.floats_back hx
    rw [h.serves_iff hres (h.ne_mid_of_isFixed (hh.place x hfloats).1) (hsites hfloats)]
    exact hh.serves x hfloats
  · obtain ⟨-, hfloats⟩ := h.floats_back hx
    have hplace := h.ne_mid_of_isFixed (hh.place x hfloats).1
    rw [h.nodes.op] at hstart
    by_cases hcmid : c = mid
    · -- Where the new node serves the node after it did, which is behind it.
      subst hcmid
      refine (h.leadsTo_of_after hplace ?_).to_reflTransGen
      refine hh.nearest x hfloats after (h.consistent.isFixed_of_controlSuccessors h.next) (fun hop => ?_) fun site hsite => ?_
      · exact honward ⟨after, hop, List.ne_nil_of_mem (h.consistent.mem_controlPredecessors.2 h.next)⟩
      · refine h.after_of_controlPath (hsites hfloats site hsite) (hserves site ?_)
        exact (h.mem_useSites_iff h.consistent h.consistent' hres).2 hsite
    · rw [h.isFixed_eq hcmid] at hc
      rw [h.serves_iff hres hcmid (hsites hfloats)] at hserves
      rw [h.controlPath_iff hcmid hplace]
      exact hh.nearest x hfloats c hc hstart hserves
  · rw [h.mem_consumers_iff h.consistent h.consistent'] at hy
    by_cases hxmid : x = mid
    · subst hxmid
      obtain ⟨hne, hpath⟩ := hread y hy
      exact h.leadsTo_of_after hne hpath
    · rw [h.isFixed_eq hxmid] at hx
      by_cases hymid : y = mid
      · rw [hymid] at hy
        rw [hreads mid List.mem_cons_self x hy, hymid, hself]
        exact .single (h.successors_iff.2 (.inr (.inl ⟨rfl, rfl⟩)))
      · have hleads := hh.operands x y hx hy fun hmem => (List.mem_cons.1 hmem).elim hymid hcounted
        exact LeadsTo.map (f := id) (fun _ _ hstep => h.successors_iff.2 (.inl hstep)) hleads
  · rw [h.mem_consumers_iff h.consistent h.consistent'] at hreads
    exact hdepth x y (h.floats_back hx).2 (h.floats_back hy).2 hreads

theorem firstsFree {rest : List NodeId} {home : NodeId → NodeId} (hfirst : FirstsFree g (mid :: rest) home) :
    FirstsFree g' rest home := by
  intro e he hvalue hbegins hfloats hsite
  have he := (h.value_iff hvalue).1 he
  rw [h.useSite hres he hvalue] at hsite
  exact hfirst e he hvalue ((h.beginsBlock_iff h.consistent h.consistent').1 hbegins) (h.floats_back hfloats).2 hsite

end Enters

/-! ## A node that takes the place of another -/

/-- A floating operation takes the place of another. -/
structure Recasts (g g' : Graph) (old new : NodeId) : Prop extends Renamed g g' old new where
  consistent : g.Consistent
  consistent' : g'.Consistent
  oldFloating : (g.op old).isFixed = false
  newFloating : (g'.op new).isFixed = false

/-- Homes go by the names that nodes have now. -/
def renamedHome (old new : NodeId) (home : NodeId → NodeId) (id : NodeId) : NodeId :=
  rename old new (home (rename new old id))

theorem Homes.has_home {g : Graph} {home : NodeId → NodeId} (hh : Homes g [] home) {id : NodeId} (hid : g.has id = true) :
    g.has (home id) = true := by
  cases hfixed : g.isFixed id with
  | true =>
      rw [hh.fixed id hfixed]
      exact hid
  | false => exact has_of_isFixed (hh.place id ⟨hid, hfixed, List.not_mem_nil⟩).1

namespace Recasts

variable {g g' : Graph} {old new : NodeId} (h : Recasts g g' old new)
include h

theorem back {a : NodeId} (ha : g.has a = true) : rename new old (rename old new a) = a :=
  rename_rename_of_ne (h.ne_new ha)

theorem exists_eq_rename {id : NodeId} (hid : g'.has id = true) : ∃ a, g.has a = true ∧ rename old new a = id := by
  obtain ⟨hold, hlive⟩ := h.has_back hid
  exact ⟨_, hlive, rename_rename_of_ne hold⟩

theorem rename_inj {a b : NodeId} (ha : g.has a = true) (hb : g.has b = true)
    (heq : rename old new a = rename old new b) : a = b := by
  rw [← h.back ha, heq, h.back hb]

theorem renamedHome_eq (home : NodeId → NodeId) {a : NodeId} (ha : g.has a = true) :
    renamedHome old new home (rename old new a) = rename old new (home a) := by
  rw [renamedHome, h.back ha]

theorem isFixed_eq {a : NodeId} (ha : g.has a = true) : g'.isFixed (rename old new a) = g.isFixed a := by
  have hop : (g'.op new).isFixed = (g.op old).isFixed := by rw [h.oldFloating, h.newFloating]
  rw [Bool.eq_iff_iff, h.isFixed_iff h.consistent h.consistent' hop (h.rename_ne_old a), h.back ha]

theorem op_iff {a : NodeId} (ha : g.has a = true) {op : Op} (hop : op.isFixed = true) :
    g'.op (rename old new a) = op ↔ g.op a = op :=
  h.op_iff_of_isFixed h.oldFloating h.newFloating ha hop

theorem beginsBlock_back_iff {id : NodeId} (hid : id ≠ old) :
    g'.beginsBlock id = true ↔ g.beginsBlock (rename new old id) = true :=
  h.beginsBlock_iff h.consistent h.consistent'
    ⟨op_ne_of_isFixed h.oldFloating rfl, op_ne_of_isFixed h.oldFloating rfl⟩
    ⟨op_ne_of_isFixed h.newFloating rfl, op_ne_of_isFixed h.newFloating rfl⟩ hid

theorem floats_iff {a : NodeId} (ha : g.has a = true) : Floats g' [] (rename old new a) ↔ Floats g [] a := by
  have hfixed := h.isFixed_eq ha
  constructor
  · intro hfloats
    exact ⟨ha, by rw [← hfixed]; exact hfloats.floating, List.not_mem_nil⟩
  · intro hfloats
    exact ⟨h.has_rename ha, by rw [hfixed]; exact hfloats.floating, List.not_mem_nil⟩

theorem leadsTo_iff {a b : NodeId} (ha : g.has a = true) (hb : g.has b = true) :
    g'.LeadsTo (rename old new a) (rename old new b) ↔ g.LeadsTo a b :=
  h.toRenamed.leadsTo_iff h.consistent h.consistent' ha hb

theorem controlPath_iff {a b : NodeId} (ha : g.has a = true) (hb : g.has b = true) :
    ControlPath g' (rename old new a) (rename old new b) ↔ ControlPath g a b := by
  rw [Schedule.controlPath_iff, Schedule.controlPath_iff, h.leadsTo_iff ha hb]
  exact or_congr_left ⟨h.rename_inj ha hb, congrArg _⟩

theorem mem_consumers_iff {a b : NodeId} (ha : g.has a = true) (hb : g.has b = true) :
    rename old new b ∈ g'.consumers (rename old new a) ↔ b ∈ g.consumers a := by
  rw [h.toRenamed.mem_consumers_iff h.consistent h.consistent' (h.rename_ne_old a) (h.rename_ne_old b), h.back ha,
    h.back hb]

theorem not_returns (honward : ¬ Returns g) : ¬ Returns g' := by
  rintro ⟨id, hop, hpreds⟩
  obtain ⟨a, ha, rfl⟩ := h.exists_eq_rename (has_of_op_ne_invalid (by rw [hop]; decide))
  refine honward ⟨a, (h.op_iff ha rfl).1 hop, fun hnone => hpreds ?_⟩
  rw [controlPredecessors, List.map_eq_nil_iff] at hnone ⊢
  rw [h.entries (h.rename_ne_old a), h.back ha, hnone]
  rfl

variable (hres : g.PhisResolved) {home : NodeId → NodeId} (hh : Homes g [] home)
include hres hh

theorem serves_iff {a c : NodeId} (ha : g.has a = true) (hc : g.has c = true) :
    Serves g' (renamedHome old new home) (rename old new a) (rename old new c) ↔ Serves g home a c := by
  have hsites : ∀ {site : NodeId}, site ∈ g'.useSites (rename old new a) ↔
      ∃ place ∈ g.useSites a, rename old new place = site := fun {site} => by
    rw [h.mem_useSites_iff h.oldFloating h.newFloating h.consistent hres h.consistent' (h.rename_ne_old a), h.back ha]
  have hlive : ∀ {site : NodeId}, site ∈ g.useSites a → g.has site = true := fun hsite =>
    h.consistent.has_of_mem_useSites hsite
  constructor
  · intro hserves site hsite
    have hpath := hserves _ (hsites.2 ⟨site, hsite, rfl⟩)
    rwa [h.renamedHome_eq home (hlive hsite), h.controlPath_iff hc (hh.has_home (hlive hsite))] at hpath
  · intro hserves renamed hrenamed
    obtain ⟨site, hsite, rfl⟩ := hsites.1 hrenamed
    rw [h.renamedHome_eq home (hlive hsite), h.controlPath_iff hc (hh.has_home (hlive hsite))]
    exact hserves site hsite

theorem homes : Homes g' [] (renamedHome old new home) := by
  obtain ⟨depth, hdepth⟩ := hh.founded
  refine ⟨fun id hid => ?_, fun id hid => ?_, fun id hid => ?_, fun id hid c hc hstart hserves => ?_,
    fun x y hx hy _ => ?_, fun id => depth (rename new old id), fun x y hx hy hreads => ?_⟩
  · obtain ⟨a, ha, rfl⟩ := h.exists_eq_rename (has_of_isFixed hid)
    rw [h.isFixed_eq ha] at hid
    rw [h.renamedHome_eq home ha, hh.fixed a hid]
  · obtain ⟨a, ha, rfl⟩ := h.exists_eq_rename hid.live
    have hlive := hh.has_home ha
    rw [h.floats_iff ha] at hid
    rw [h.renamedHome_eq home ha, h.isFixed_eq hlive, Ne, h.op_iff hlive rfl]
    exact hh.place a hid
  · obtain ⟨a, ha, rfl⟩ := h.exists_eq_rename hid.live
    rw [h.floats_iff ha] at hid
    rw [h.renamedHome_eq home ha, h.serves_iff hres hh ha (hh.has_home ha)]
    exact hh.serves a hid
  · obtain ⟨a, ha, rfl⟩ := h.exists_eq_rename hid.live
    obtain ⟨b, hb, rfl⟩ := h.exists_eq_rename (has_of_isFixed hc)
    rw [h.floats_iff ha] at hid
    rw [h.isFixed_eq hb] at hc
    rw [Ne, h.op_iff hb rfl] at hstart
    rw [h.serves_iff hres hh ha hb] at hserves
    rw [h.renamedHome_eq home ha, h.controlPath_iff hb (hh.has_home ha)]
    exact hh.nearest a hid b hc hstart hserves
  · obtain ⟨a, ha, rfl⟩ := h.exists_eq_rename (has_of_isFixed hx)
    obtain ⟨b, hb, rfl⟩ := h.exists_eq_rename (h.consistent'.has_of_mem_consumers hy)
    rw [h.isFixed_eq ha] at hx
    rw [h.mem_consumers_iff ha hb] at hy
    rw [h.renamedHome_eq home hb, h.leadsTo_iff ha (hh.has_home hb)]
    exact hh.operands a b hx hy List.not_mem_nil
  · obtain ⟨a, ha, rfl⟩ := h.exists_eq_rename hx.live
    obtain ⟨b, hb, rfl⟩ := h.exists_eq_rename hy.live
    rw [h.floats_iff ha] at hx
    rw [h.floats_iff hb] at hy
    rw [h.mem_consumers_iff ha hb] at hreads
    dsimp only
    rw [h.back ha, h.back hb]
    exact hdepth a b hx hy hreads

theorem firstsFree (hfirst : FirstsFree g [] home) : FirstsFree g' [] (renamedHome old new home) := by
  intro x hx hrole hbegins hfloats hsite
  obtain ⟨e, he, rfl, -, -⟩ := h.exists_edge hx
  obtain ⟨hsource, htarget⟩ := h.consistent.has_of_multiplicity he
  have hblock : g.beginsBlock e.target = true := by
    rw [← h.back htarget]
    exact (h.beginsBlock_back_iff (h.rename_ne_old _)).1 hbegins
  rw [renameEdge_source, h.floats_iff hsource] at hfloats
  rw [h.useSite h.oldFloating h.newFloating h.consistent hres he hrole, renameEdge_target] at hsite
  rw [renameEdge_source, renameEdge_target, h.renamedHome_eq home hsource]
  have hlive : g.has (g.useSite e) = true :=
    h.consistent.has_of_mem_useSites (h.consistent.mem_useSites.2 ⟨e, he, hrole, rfl, rfl⟩)
  have hhere := h.rename_inj hlive htarget hsite
  exact fun heq => hfirst e he hrole hblock hfloats hhere (h.rename_inj (hh.has_home hsource) htarget heq)

end Recasts

end SeaOfNodes.Schedule
