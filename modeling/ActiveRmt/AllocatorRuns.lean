/-
**Runs of the allocator: consistency, contiguity and pinning.**

A run of the allocator is a sequence of arrivals and departures.  An arrival chooses a variant and,
when there is one, queues and applies it; a departure may be of any identifier.  Along every run
that raises no exception the state stays consistent (`Allocator.Consistent`), and everything that
the rest of the control plane assumes about the columns follows from that.

Main definitions:

* `Allocator.arrive`, `Allocator.Op`, `Allocator.perform` — the operations;
* `Allocator.Step` — one operation that raises no exception;
* `Allocator.execute` — a whole sequence of operations, as a function.

Main results:

* `Allocator.consistent_of_run` — **every state of a run is consistent**;
* `Allocator.structures_agree` — the five structures list the same functions;
* `Allocator.contiguous_and_pinned` — every function holds a run of blocks, and an inelastic one
  holds the same blocks, as many as it demands, until it departs;
* `Allocator.run_iff_execute` — runs can be evaluated.
-/

import ActiveRmt.Departures

set_option relaxedAutoImplicit false
set_option autoImplicit false

namespace ActiveRmt

open Blocks

namespace Allocator

/-! ### Operations -/

section Operations

variable (cfg : AllocatorConfig)

/-- An arrival: choose a variant, and queue and apply it when there is one. -/
def arrive (af : ActiveFunction) : EStateM Exn Allocator Bool := fun s =>
  match computeAllocation cfg af s with
  | .error ex s => .error ex s
  | .ok none s => .ok false s
  | .ok (some ch) s =>
      match enqueueAllocation cfg ch.allocation ch.allocationMap s with
      | .error ex s => .error ex s
      | .ok _ s => applyQueuedAllocation s

/-- The operations of a run. -/
inductive Op
  /-- The arrival of a function. -/
  | arrive (af : ActiveFunction)
  /-- The departure of a function. -/
  | depart (fid : Fid)
  deriving DecidableEq

/-- What an operation does. -/
def perform : Op → EStateM Exn Allocator Bool
  | .arrive af => arrive cfg af
  | .depart fid => deallocate fid

/-- A function that arrives is new; any identifier may depart. -/
def Allowed (s : Allocator) : Op → Prop
  | .arrive af => Arrival s af
  | .depart _ => True

instance (s : Allocator) (op : Op) : Decidable (Allowed s op) :=
  match op with
  | .arrive af => inferInstanceAs (Decidable (Arrival s af))
  | .depart _ => inferInstanceAs (Decidable True)

/-- **One operation** that raises no exception. -/
def Step (s : Allocator) (op : Op) (t : Allocator) : Prop :=
  Allowed s op ∧ ∃ b, perform cfg op s = .ok b t

/-- A sequence of operations; `none` when one of them is not allowed or raises an exception. -/
def execute : List Op → Allocator → Option Allocator
  | [], s => some s
  | op :: ops, s =>
      if Allowed s op then
        match perform cfg op s with
        | .ok _ t => execute ops t
        | .error _ _ => none
      else none

end Operations

section Runs

variable {cfg : AllocatorConfig} {s t : Allocator} {af : ActiveFunction} {op : Op}
  {ops : List Op}

theorem execute_append (ops ops' : List Op) (s : Allocator) :
    execute cfg (ops ++ ops') s = (execute cfg ops s).bind (execute cfg ops') := by
  induction ops generalizing s with
  | nil => rfl
  | cons op ops ih =>
      simp only [List.cons_append, execute]
      split_ifs with hop
      · cases perform cfg op s with
        | ok b t => exact ih t
        | error ex t => rfl
      · rfl

theorem execute_singleton : execute cfg [op] s = some t ↔ Step cfg s op t := by
  simp only [execute, Step]
  split_ifs with hop
  · cases hp : perform cfg op s with
    | ok b t' => simp [hop]
    | error ex t' => simp
  · simp [hop]

/-- **Runs can be evaluated.** -/
theorem run_iff_execute : Run (Step cfg) s ops t ↔ execute cfg ops s = some t := by
  constructor
  · intro h
    induction h with
    | nil => rfl
    | snoc _ hop ih => rw [execute_append, ih, Option.bind_some, execute_singleton.2 hop]
  · induction ops using List.reverseRecOn generalizing t with
    | nil =>
        intro h
        obtain rfl : s = t := Option.some.inj h
        exact Run.nil s
    | append_singleton ops op ih =>
        intro h
        rw [execute_append] at h
        obtain ⟨u, hu, ht⟩ := Option.bind_eq_some_iff.1 h
        exact Run.snoc (ih hu) (execute_singleton.1 ht)

/-! ### One operation -/

/-- What an arrival with a chosen variant has done, from any state that is ready for it. -/
theorem Ready.arrive_of_choice {ch : Choice} {s₁ : Allocator}
    (hc : computeAllocation cfg af s = .ok (some ch) s₁)
    (hr : Ready cfg (s.register af ch.optimal) (arrivalMap s.allocationMap af.fid ch.optimal))
    (hocc : ∀ i, i ∈ s.allocation ↔ s.allocationMap i ≠ ∅) {b : Bool}
    (h : arrive cfg af s = .ok b t) :
    ∃ new t', b = true ∧
      Sweep cfg (s.register af ch.optimal) (arrivalMap s.allocationMap af.fid ch.optimal) stages new
        t' ∧
      t = t'.applied ⟨s.allocation ∪ ch.optimal.toFinset,
        arrivalMap s.allocationMap af.fid ch.optimal,
        reverseMap (arrivalMap s.allocationMap af.fid ch.optimal), new⟩ ∧ Coherent cfg t := by
  unfold arrive at h
  simp only [hc] at h
  obtain ⟨⟨rfl, -, hal, hmap⟩, -⟩ := computeAllocation_some hc
  rw [hal, hmap] at h
  cases he : enqueueAllocation cfg (s.allocation ∪ ch.optimal.toFinset)
      (arrivalMap s.allocationMap af.fid ch.optimal) (s.register af ch.optimal) with
  | error ex s₂ => simp [he] at h
  | ok r s₂ =>
      obtain ⟨new, t', hsw, -, rfl, hcoh⟩ := hr.enqueue hocc he
      have hq : t'.queueFid = some af.fid := by rw [hsw.state]; rfl
      simp only [he, applyQueuedAllocation, hq, EStateM.Result.ok.injEq] at h
      obtain ⟨rfl, rfl⟩ := h
      exact ⟨new, t', rfl, hsw, rfl, hcoh⟩

/-- **What an arrival with a chosen variant has done**: its columns are the live ones. -/
theorem Consistent.arrive_of_choice (hs : Consistent cfg s) (ha : Arrival s af) {ch : Choice}
    {s₁ : Allocator} (hc : computeAllocation cfg af s = .ok (some ch) s₁) {b : Bool}
    (h : arrive cfg af s = .ok b t) :
    ch.optimal ∈ af.getEnumeration ∧ ∃ new t', b = true ∧
      Sweep cfg (s.register af ch.optimal) (arrivalMap s.allocationMap af.fid ch.optimal) stages new
        t' ∧
      t = t'.applied ⟨s.allocation ∪ ch.optimal.toFinset,
        arrivalMap s.allocationMap af.fid ch.optimal,
        reverseMap (arrivalMap s.allocationMap af.fid ch.optimal), new⟩ ∧ Consistent cfg t := by
  obtain ⟨⟨-, hv, -⟩, -⟩ := computeAllocation_some hc
  have hnew := hs.newcomer ha
  obtain ⟨new, t', hb, hsw, rfl, hcoh⟩ := (hs.ready hnew hv).arrive_of_choice hc hs.occupied h
  refine ⟨hv, new, t', hb, hsw, rfl, hcoh, fun f => ?_⟩
  have hactive := hsw.active hnew hv hs.active f
  exact hactive

/-- **What an arrival has done**: it was rejected, or its columns are the live ones. -/
theorem Consistent.arrive_ok (hs : Consistent cfg s) (ha : Arrival s af) {b : Bool}
    (h : arrive cfg af s = .ok b t) :
    (b = false ∧ t = { s with queueFid := some af.fid, queue := none }) ∨
      ∃ v ∈ af.getEnumeration, ∃ new t', b = true ∧
        Sweep cfg (s.register af v) (arrivalMap s.allocationMap af.fid v) stages new t' ∧
        t = t'.applied ⟨s.allocation ∪ v.toFinset, arrivalMap s.allocationMap af.fid v,
          reverseMap (arrivalMap s.allocationMap af.fid v), new⟩ ∧ Consistent cfg t := by
  cases hc : computeAllocation cfg af s with
  | error ex s₁ => simp [arrive, hc] at h
  | ok r s₁ =>
      cases r with
      | none =>
          simp only [arrive, hc, EStateM.Result.ok.injEq] at h
          obtain ⟨rfl, rfl⟩ := h
          exact Or.inl ⟨rfl, computeAllocation_none ha.fresh hc⟩
      | some ch =>
          obtain ⟨hv, hrest⟩ := hs.arrive_of_choice ha hc h
          exact Or.inr ⟨ch.optimal, hv, hrest⟩

/-- Taking the markers of an arrival off changes nothing that the invariant mentions. -/
theorem Consistent.mark (hs : Consistent cfg s) (q : Option Fid) (p : Option Plan) :
    Consistent cfg { s with queueFid := q, queue := p } :=
  ⟨⟨⟨hs.zero_notMem, hs.tenants_eq, hs.demand_ok, hs.rev, hs.occupied⟩, hs.geometry⟩, hs.active⟩

/-- **Every operation keeps the state consistent.** -/
theorem Consistent.step (hs : Consistent cfg s) (h : Step cfg s op t) : Consistent cfg t := by
  obtain ⟨hop, b, h⟩ := h
  cases op with
  | arrive af =>
      rcases hs.arrive_ok hop h with ⟨-, rfl⟩ | ⟨v, -, new, t', -, -, -, hcon⟩
      · exact hs.mark _ _
      · exact hcon
  | depart f =>
      by_cases hf : f ∈ s.activeFuncs.keys
      · rw [perform, hs.deallocate_eq ((hs.active f).1 hf)] at h
        simp only [EStateM.Result.ok.injEq] at h
        obtain ⟨-, rfl⟩ := h
        exact hs.departed hf
      · rw [perform, deallocate_of_notMem hf] at h
        simp only [EStateM.Result.ok.injEq] at h
        obtain ⟨-, rfl⟩ := h
        exact hs

/-- **Every state of a run is consistent.** -/
theorem consistent_of_run (h : Run (Step cfg) (init cfg) ops s) : Consistent cfg s :=
  h.invariant (fun _ _ _ hs hstep => hs.step hstep) (consistent_init cfg)

/-- **An inelastic function is pinned** by every operation but its own departure. -/
theorem Consistent.pinned_step (hs : Consistent cfg s) (h : Step cfg s op t) {f : Fid} {i : Stage}
    (hf : f ∈ s.allocationMap i) (hd : 1 < s.demand i f) (hop : op ≠ .depart f) :
    f ∈ t.allocationMap i ∧ t.getMinDemand f i = s.getMinDemand f i ∧
      ∀ j, owner (t.allocationMatrix i) j = f ↔ owner (s.allocationMatrix i) j = f := by
  obtain ⟨hall, b, h⟩ := h
  cases op with
  | arrive af =>
      rcases hs.arrive_ok hall h with ⟨-, rfl⟩ | ⟨v, hv, new, t', -, hsw, rfl, hcon⟩
      · exact ⟨hf, rfl, fun _ => Iff.rfl⟩
      · have ha := hs.newcomer hall
        have hr := hs.ready ha hv
        have hp := hr.placed (hsw.done i (mem_stages i))
        have hne := ha.ne_of_mem hf
        have hft : f ∈ tenants (s.allocationMatrix i) := by rw [hs.tenants_eq i]; exact hf
        refine ⟨?_, ?_, hp.pinned f hft (by rw [ha.demand_register_of_mem hf]; exact hd)⟩
        · exact hr.tenants_subset i hft
        · rw [← getMinDemand_register_of_ne (s := s) (v := v) hne, ← hsw.getMinDemand_eq]
          rfl
  | depart g =>
      have hgf : f ≠ g := fun heq => hop (heq ▸ rfl)
      by_cases hg : g ∈ s.activeFuncs.keys
      · rw [perform, hs.deallocate_eq ((hs.active g).1 hg)] at h
        simp only [EStateM.Result.ok.injEq] at h
        obtain ⟨-, rfl⟩ := h
        refine ⟨?_, getMinDemand_departed_of_ne hgf i, fun j => ?_⟩
        · rw [allocationMap_departed]
          exact Finset.mem_erase.2 ⟨hgf, hf⟩
        · have hf0 : f ≠ 0 := fun h0 => hs.zero_notMem i (h0 ▸ hf)
          rw [hs.allocationMatrix_departed (hs.ne_zero ((hs.active g).1 hg)), owner_release]
          split_ifs with hj
          · rw [hj]
            exact ⟨fun h0 => absurd h0.symm hf0, fun h' => absurd h'.symm hgf⟩
          · rfl
      · rw [perform, deallocate_of_notMem hg] at h
        simp only [EStateM.Result.ok.injEq] at h
        obtain ⟨-, rfl⟩ := h
        exact ⟨hf, rfl, fun _ => Iff.rfl⟩

/-- An inelastic function is pinned along every run without its departure. -/
theorem Consistent.pinned_run (hs : Consistent cfg s) (h : Run (Step cfg) s ops t) {f : Fid}
    {i : Stage} (hf : f ∈ s.allocationMap i) (hd : 1 < s.demand i f) (hops : .depart f ∉ ops) :
    f ∈ t.allocationMap i ∧ t.getMinDemand f i = s.getMinDemand f i ∧
      ∀ j, owner (t.allocationMatrix i) j = f ↔ owner (s.allocationMatrix i) j = f := by
  induction h with
  | nil => exact ⟨hf, rfl, fun _ => Iff.rfl⟩
  | snoc hrun hop ih =>
      rename_i u w ops' op'
      rw [List.mem_append, List.mem_singleton, not_or] at hops
      obtain ⟨hfu, hdu, hou⟩ := ih hops.1
      have hu : Consistent cfg u := hrun.invariant (fun _ _ _ hs hstep => hs.step hstep) hs
      have hd' : 1 < u.demand i f := by
        rw [demand, hdu]
        exact hd
      obtain ⟨hft, hdt, hot⟩ := hu.pinned_step hop hfu hd' (Ne.symm hops.2)
      exact ⟨hft, hdt.trans hdu, fun j => (hot j).trans (hou j)⟩

/-! ### What a run guarantees -/

theorem mem_tenants_iff_mem {col : List ℕ} {f : Fid} (hf : 0 < f) : f ∈ tenants col ↔ f ∈ col := by
  rw [tenants, Finset.mem_erase, List.mem_toFinset]
  exact and_iff_right hf.ne'

/-- **The five structures list the same functions**, in every state of every run. -/
theorem structures_agree (h : Run (Step cfg) (init cfg) ops s) :
    (∀ (f : Fid) (i : Stage), 0 < f →
      (f ∈ s.allocationMap i ↔ f ∈ s.allocationMatrix i) ∧
      (f ∈ s.allocationMap i ↔ ∃ l, s.revAllocationMap.get? f = some l ∧ i ∈ l) ∧
      ∀ l, s.revAllocationMap.get? f = some l → i ∈ l → l.count i = 1) ∧
    (∀ f, f ∈ s.activeFuncs.keys ↔ 0 < f ∧ ∃ i, f ∈ s.allocationMatrix i) ∧
    ∀ i, i ∈ s.allocation ↔ ∃ x ∈ s.allocationMatrix i, x ≠ 0 := by
  have hs := consistent_of_run h
  have hrev : ∀ f l, s.revAllocationMap.get? f = some l → l = stagesOf s.allocationMap f := by
    intro f l hl
    rw [hs.rev f] at hl
    split_ifs at hl
    exact (Option.some.inj hl).symm
  refine ⟨?_, ?_, ?_⟩
  · intro f i hf
    refine ⟨?_, ?_, ?_⟩
    · rw [← hs.tenants_eq i, mem_tenants_iff_mem hf]
    · constructor
      · intro hmem
        have hst : i ∈ stagesOf s.allocationMap f := mem_stagesOf.2 hmem
        refine ⟨_, ?_, hst⟩
        rw [hs.rev f, if_neg (List.ne_nil_of_mem hst)]
      · rintro ⟨l, hl, hi⟩
        rw [hrev f l hl] at hi
        exact mem_stagesOf.1 hi
    · intro l hl hi
      rw [hrev f l hl] at hi ⊢
      exact List.count_eq_one_of_mem (nodup_stages.filter _) hi
  · intro f
    rw [hs.active f]
    constructor
    · rintro ⟨i, hi⟩
      have hf : 0 < f := Nat.pos_of_ne_zero fun h0 => hs.zero_notMem i (h0 ▸ hi)
      rw [← hs.tenants_eq i, mem_tenants_iff_mem hf] at hi
      exact ⟨hf, i, hi⟩
    · rintro ⟨hf, i, hi⟩
      rw [← mem_tenants_iff_mem hf, hs.tenants_eq i] at hi
      exact ⟨i, hi⟩
  · intro i
    rw [hs.occupied i, ← hs.tenants_eq i, ← Finset.nonempty_iff_ne_empty]
    constructor
    · rintro ⟨f, hf⟩
      rw [tenants, Finset.mem_erase, List.mem_toFinset] at hf
      exact ⟨f, hf.2, hf.1⟩
    · rintro ⟨x, hx, h0⟩
      exact ⟨x, by rw [tenants, Finset.mem_erase, List.mem_toFinset]; exact ⟨h0, hx⟩⟩

/-- A stage of eight blocks, an inelastic function and an elastic one. -/
theorem structures_agree_two_arrivals :
    ∃ s, execute ⟨8, .cost, true, true⟩
        [.arrive (.singleAccess 1 0 3), .arrive (.singleAccess 2 0 1)] (init ⟨8, .cost, true, true⟩)
        = some s ∧ s.activeFuncs.keys = [1, 2] ∧
      ((2 : Fid) ∈ s.allocationMap 0 ↔ 2 ∈ s.allocationMatrix 0) := by
  have hex : ((execute ⟨8, .cost, true, true⟩
      [.arrive (.singleAccess 1 0 3), .arrive (.singleAccess 2 0 1)] (init ⟨8, .cost, true, true⟩)).map
      fun s => s.activeFuncs.keys) = some [1, 2] := by decide +kernel
  obtain ⟨s, hs, hkeys⟩ := Option.map_eq_some_iff.1 hex
  exact ⟨s, hs, hkeys, ((structures_agree (run_iff_execute.2 hs)).1 2 0 (by decide)).1⟩

/-- **Contiguity and pinning**, in every state of every run: a function's blocks at a stage are
consecutive; an inelastic function has as many as it demands, and keeps them until it departs; and
no elastic function is below the offset. -/
theorem contiguous_and_pinned (h : Run (Step cfg) (init cfg) ops s) (i : Stage) :
    (∀ f ∈ s.allocationMatrix i, f ≠ 0 → ∃ a l, 0 < l ∧ Owns (s.allocationMatrix i) f a l) ∧
    (∀ f ∈ s.allocationMatrix i, f ≠ 0 → ∀ d, s.getMinDemand f i = .ok d → 1 < d →
      (blocksOf (s.allocationMatrix i) f).length = d ∧
      ∀ ops' t, Run (Step cfg) s ops' t → .depart f ∉ ops' →
        blocksOf (t.allocationMatrix i) f = blocksOf (s.allocationMatrix i) f) ∧
    ∀ j < s.elasticOffset i, ∀ f, owner (s.allocationMatrix i) j = f → f ≠ 0 →
      s.getMinDemand f i ≠ .ok 1 := by
  have hs := consistent_of_run h
  have hg := hs.geometry i
  have hten : ∀ f ∈ s.allocationMatrix i, f ≠ 0 → f ∈ tenants (s.allocationMatrix i) :=
    fun f hf h0 => (mem_tenants_iff_mem (Nat.pos_of_ne_zero h0)).2 hf
  refine ⟨fun f hf h0 => hg.exists_owns (hten f hf h0), ?_, ?_⟩
  · intro f hf h0 d hd h1
    have hf' := hten f hf h0
    have hdem : s.demand i f = d := demand_eq hd
    obtain ⟨a, -, how⟩ := hg.pinned f hf' (by rw [hdem]; exact h1)
    refine ⟨by rw [length_blocksOf how h0, hdem], ?_⟩
    intro ops' t hrun hops
    obtain ⟨-, -, hown⟩ := hs.pinned_run hrun (hs.tenants_eq i ▸ hf') (by rw [hdem]; exact h1) hops
    have how' : Owns (t.allocationMatrix i) f a (s.demand i f) := fun j => (hown j).trans (how j)
    rw [how.blocksOf_eq h0, how'.blocksOf_eq h0]
  · rintro j hj f rfl h0 hd
    have := hg.one_lt_of_lt hj h0
    rw [demand_eq hd] at this
    omega

/-- The inelastic function of a stage of eight blocks keeps its three blocks when an elastic one
arrives. -/
theorem contiguous_and_pinned_two_arrivals :
    ∃ s t, execute ⟨8, .cost, true, true⟩ [.arrive (.singleAccess 1 0 3)]
        (init ⟨8, .cost, true, true⟩) = some s ∧
      execute ⟨8, .cost, true, true⟩ [.arrive (.singleAccess 2 0 1)] s = some t ∧
      (blocksOf (s.allocationMatrix 0) 1).length = 3 ∧
      blocksOf (t.allocationMatrix 0) 1 = blocksOf (s.allocationMatrix 0) 1 := by
  have hex : (execute ⟨8, .cost, true, true⟩ [.arrive (.singleAccess 1 0 3)]
      (init ⟨8, .cost, true, true⟩)).any (fun s => 1 ∈ s.allocationMatrix 0 ∧
        s.getMinDemand 1 0 = .ok 3 ∧
        (execute ⟨8, .cost, true, true⟩ [.arrive (.singleAccess 2 0 1)] s).isSome) = true := by
    decide +kernel
  obtain ⟨s, hs, hex⟩ := (Option.any_eq_true _ _).1 hex
  obtain ⟨hmem, hdem, hnext⟩ := of_decide_eq_true hex
  obtain ⟨t, ht⟩ := Option.isSome_iff_exists.1 hnext
  obtain ⟨hlen, hkeep⟩ := (contiguous_and_pinned (run_iff_execute.2 hs) 0).2.1 1 hmem (by decide) 3
    hdem (by decide)
  exact ⟨s, t, hs, ht, hlen, hkeep _ t (run_iff_execute.2 ht) (by decide)⟩

end Runs

end Allocator

end ActiveRmt
